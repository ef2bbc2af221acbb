import SgxOram.Lib.Machine

/-!
# Programs that show nothing but public registers

* `Public` : the registers that an observer knows before an instruction; `Instr.after` : those that it knows
  after it, if the instruction shows no other;
* `Certifies` : an assignment of public registers to the places of a program that every instruction respects.
  It can be checked by evaluation;
* `run_agree` : two runs of a certified program from states with the same public registers show the same
  events, whatever the other registers and the memory hold.
-/

namespace SgxOram.Lib.Asm
open Lib

variable {R : Type} [DecidableEq R]

structure Public (R : Type) where
  regs : R → Bool
  flags : Bool

/-- What an observer knows is the same in both states. -/
structure Agree (p : Public R) (s t : Machine R) : Prop where
  pc : s.pc = t.pc
  regs : ∀ r, p.regs r = true → s.regs r = t.regs r
  flags : p.flags = true → s.zero = t.zero ∧ s.less = t.less

/-- `p` asks for no more than `q` has. -/
def Public.Below (p q : Public R) : Prop := (∀ r, p.regs r = true → q.regs r = true) ∧
    (p.flags = true → q.flags = true)

instance [Fintype R] (p q : Public R) : Decidable (p.Below q) := inferInstanceAs (Decidable (_ ∧ _))

omit [DecidableEq R] in
theorem Agree.mono {p q : Public R} {s t : Machine R} (h : Agree q s t) (hpq : p.Below q) : Agree p s t :=
  ⟨h.pc, fun r hr => h.regs r (hpq.1 r hr), fun hf => h.flags (hpq.2 hf)⟩

def Address.shown (p : Public R) (a : Address R) : Bool := p.regs a.base && a.index.all p.regs

omit [DecidableEq R] in
theorem Agree.eval {p : Public R} {s t : Machine R} (h : Agree p s t) {a : Address R} (ha : a.shown p = true) :
    a.eval s.regs = a.eval t.regs := by
  obtain ⟨hbase, hindex⟩ := Bool.and_eq_true_iff.mp ha
  unfold Address.eval
  rw [h.regs a.base hbase]
  cases hi : a.index with
  | none => rfl
  | some r =>
    rw [hi] at hindex
    simp [h.regs r hindex]

/-- What is public after an instruction. `none` if it touches memory at, or jumps on, something that is not. -/
def Instr.after (p : Public R) : Instr R → Option (Public R)
  | .load _ src dst => if src.shown p then some { p with regs := Function.update p.regs dst false } else none
  | .store _ _ dst => if dst.shown p then some p else none
  | .mov _ src dst => some { p with regs := Function.update p.regs dst (p.regs src) }
  | .test _ x y => some { p with flags := p.regs x && p.regs y }
  | .cmp x y => some { p with flags := p.regs x && p.regs y }
  | .cmov _ _ src dst =>
    some { p with regs := Function.update p.regs dst (p.flags && (p.regs src && p.regs dst)) }
  | .inc r => some { p with flags := p.regs r }
  | .jl _ => if p.flags then some p else none

/-- Where an instruction can lead. -/
def Instr.next (pc : Nat) : Instr R → List Nat
  | .jl target => [target, pc + 1]
  | _ => [pc + 1]

/-- Registers that agree, with one of them written on both sides. -/
theorem regs_update {p : R → Bool} {f g : R → BitVec 64} (h : ∀ r, p r = true → f r = g r) (dst : R) (b : Bool)
    {u v : BitVec 64} (huv : b = true → u = v) :
    ∀ r, Function.update p dst b r = true → Function.update f dst u r = Function.update g dst v r := by
  intro r hr
  by_cases hdst : r = dst
  · subst hdst
    rw [Function.update_self] at hr ⊢
    rw [Function.update_self, huv hr]
  · rw [Function.update_of_ne hdst] at hr ⊢
    rw [Function.update_of_ne hdst, h r hr]

/-- One instruction shows the same in both states, and leads to the same place. -/
theorem Agree.exec {p q : Public R} {s t : Machine R} (h : Agree p s t) {i : Instr R} (hq : i.after p = some q) :
    (i.exec s).2 = (i.exec t).2 ∧ Agree q (i.exec s).1 (i.exec t).1 ∧ (i.exec s).1.pc ∈ i.next s.pc := by
  have hpc : s.pc + 1 = t.pc + 1 := congrArg (· + 1) h.pc
  cases i with
  | load w src dst =>
    simp only [Instr.after, Option.ite_none_right_eq_some, Option.some.injEq] at hq
    obtain ⟨hsrc, rfl⟩ := hq
    have heval := h.eval hsrc
    exact ⟨by simp only [Instr.exec, heval], ⟨hpc, regs_update h.regs dst false (by simp), h.flags⟩,
      List.mem_singleton_self _⟩
  | store w src dst =>
    simp only [Instr.after, Option.ite_none_right_eq_some, Option.some.injEq] at hq
    obtain ⟨hdst, rfl⟩ := hq
    have heval := h.eval hdst
    exact ⟨by simp only [Instr.exec, heval], ⟨hpc, h.regs, h.flags⟩, List.mem_singleton_self _⟩
  | mov w src dst =>
    obtain rfl := Option.some.inj hq
    exact ⟨rfl, ⟨hpc, regs_update h.regs dst _ fun hsrc => by rw [h.regs src hsrc], h.flags⟩,
      List.mem_singleton_self _⟩
  | test w x y =>
    obtain rfl := Option.some.inj hq
    refine ⟨rfl, ⟨hpc, h.regs, fun hf => ?_⟩, List.mem_singleton_self _⟩
    obtain ⟨hx, hy⟩ := Bool.and_eq_true_iff.mp hf
    simp only [Instr.exec, h.regs x hx, h.regs y hy, and_self]
  | cmp x y =>
    obtain rfl := Option.some.inj hq
    refine ⟨rfl, ⟨hpc, h.regs, fun hf => ?_⟩, List.mem_singleton_self _⟩
    obtain ⟨hx, hy⟩ := Bool.and_eq_true_iff.mp hf
    simp only [Instr.exec, h.regs x hx, h.regs y hy, and_self]
  | cmov w onZero src dst =>
    obtain rfl := Option.some.inj hq
    refine ⟨rfl, ⟨hpc, regs_update h.regs dst _ fun hall => ?_, h.flags⟩, List.mem_singleton_self _⟩
    obtain ⟨hf, hregs⟩ := Bool.and_eq_true_iff.mp hall
    obtain ⟨hsrc, hdst⟩ := Bool.and_eq_true_iff.mp hregs
    rw [(h.flags hf).1, h.regs src hsrc, h.regs dst hdst]
  | inc r =>
    obtain rfl := Option.some.inj hq
    refine ⟨rfl, ⟨hpc, fun r' hr' => ?_, fun hf => ?_⟩, List.mem_singleton_self _⟩
    · by_cases hr : r' = r
      · subst hr
        simp only [Instr.exec, Function.update_self, h.regs r' hr']
      · simp only [Instr.exec, Function.update_of_ne hr, h.regs r' hr']
    · simp only [Instr.exec, h.regs r hf, and_self]
  | jl target =>
    simp only [Instr.after, Option.ite_none_right_eq_some, Option.some.injEq] at hq
    obtain ⟨hf, rfl⟩ := hq
    obtain ⟨-, hless⟩ := h.flags hf
    refine ⟨rfl, ⟨?_, h.regs, h.flags⟩, ?_⟩
    · simp only [Instr.exec, hless, hpc]
    · simp only [Instr.exec, Instr.next]
      split <;> simp

/-- Every instruction shows only what `known` says is public, and leaves what the next place asks for. -/
def Certifies (P : List (Instr R)) (known : Nat → Public R) : Prop :=
  ∀ pc < P.length, ∀ i ∈ P[pc]?, ∃ q ∈ i.after (known pc), ∀ next ∈ i.next pc, (known next).Below q

instance [Fintype R] (P : List (Instr R)) (known : Nat → Public R) : Decidable (Certifies P known) :=
  inferInstanceAs (Decidable (∀ pc < P.length, ∀ i ∈ P[pc]?, ∃ q ∈ i.after (known pc),
    ∀ next ∈ i.next pc, (known next).Below q))

/-- A certified program shows the same events in states with the same public registers. -/
theorem run_agree {P : List (Instr R)} {known : Nat → Public R} (hcert : Certifies P known) (n : Nat)
    {s t : Machine R} (h : Agree (known s.pc) s t) : (run P n s).2 = (run P n t).2 := by
  induction n generalizing s t with
  | zero => rfl
  | succ n ih =>
    cases hi : P[s.pc]? with
    | none =>
      have hhalt := List.getElem?_eq_none_iff.mp hi
      rw [run_of_halted hhalt, run_of_halted (h.pc ▸ hhalt)]
    | some i =>
      obtain ⟨q, hq, hnext⟩ := hcert s.pc (List.getElem?_eq_some_iff.mp hi).1 i hi
      obtain ⟨hevents, hagree, hmem⟩ := h.exec hq
      rw [run_succ hi, run_succ (h.pc ▸ hi), hevents, h.pc, ih (hagree.mono (hnext _ hmem))]

end SgxOram.Lib.Asm
