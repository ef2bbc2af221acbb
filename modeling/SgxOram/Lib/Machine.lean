import SgxOram.Lib.Bytes

/-!
# A fragment of x86-64

Register-to-register code with loads, stores, conditional moves and one conditional jump, over any set `R` of
registers. A run records what an observer of the instruction and data caches sees.

* `Instr`, `Machine`, `Instr.exec`, `step`, `run` : the instructions and their meaning;
* `run_add`, `run_succ`, `run_of_halted` : runs in parts; `run_loop` : the invariant of a loop;
* `storeWord_loadWord` : storing what was loaded copies bytes.

Addresses are byte addresses. A result of 32 bits clears the upper half of its register.
-/

namespace SgxOram.Lib.Asm

open Lib

variable {R : Type} [DecidableEq R]

/-- The suffixes `l` and `q`. -/
inductive Width
  | long
  | quad
deriving DecidableEq

def Width.bytes : Width → Nat
  | .long => 4
  | .quad => 8

/-- `(base, index, scale)`. -/
structure Address (R : Type) where
  base : R
  index : Option R
  scale : Nat
deriving DecidableEq

/-- The instructions, operands in the order source, destination; `cmov w onZero` is `cmovz` or `cmovnz`. -/
inductive Instr (R : Type)
  | load (w : Width) (src : Address R) (dst : R)
  | store (w : Width) (src : R) (dst : Address R)
  | mov (w : Width) (src dst : R)
  | test (w : Width) (x y : R)
  | cmp (x y : R)
  | cmov (w : Width) (onZero : Bool) (src dst : R)
  | inc (r : R)
  | jl (target : Nat)
deriving DecidableEq

/-- `zero` is the flag ZF, `less` is SF ≠ OF. -/
structure Machine (R : Type) where
  regs : R → BitVec 64
  mem : Nat → UInt8
  zero : Bool
  less : Bool
  pc : Nat

inductive Event
  | exec (pc : Nat)
  | read (address : Nat) (w : Width)
  | write (address : Nat) (w : Width)
deriving DecidableEq

/-! ## Values -/

/-- The low bytes of a register, the others cleared. -/
def Width.cut (w : Width) (v : BitVec 64) : BitVec 64 := BitVec.ofNat 64 (v.toNat % 2 ^ (8 * w.bytes))

/-- The number in the `n` bytes from `a` on, little-endian. -/
def peek (mem : Nat → UInt8) (a n : Nat) : Nat := Nat.ofDigits 256 ((bytesAt mem a n).map UInt8.toNat)

/-- The low `n` bytes of a number. -/
def bytesOf (n v : Nat) : List UInt8 := (List.range n).map fun i => UInt8.ofNat (v / 256 ^ i)

def loadWord (mem : Nat → UInt8) (a : Nat) (w : Width) : BitVec 64 := BitVec.ofNat 64 (peek mem a w.bytes)

def storeWord (mem : Nat → UInt8) (a : Nat) (w : Width) (v : BitVec 64) : Nat → UInt8 :=
  overwrite mem a (bytesOf w.bytes v.toNat)

def Address.eval (a : Address R) (regs : R → BitVec 64) : Nat :=
  ((regs a.base).toNat + a.scale * (a.index.elim 0 fun r => (regs r).toNat)) % 2 ^ 64

/-! ## Execution -/

/-- An instruction, with the memory that it touches. -/
def Instr.exec (s : Machine R) : Instr R → Machine R × List Event
  | .load w src dst =>
    ({ s with
        regs := Function.update s.regs dst (loadWord s.mem (src.eval s.regs) w)
        pc := s.pc + 1 },
      [.read (src.eval s.regs) w])
  | .store w src dst =>
    ({ s with
        mem := storeWord s.mem (dst.eval s.regs) w (s.regs src)
        pc := s.pc + 1 },
      [.write (dst.eval s.regs) w])
  | .mov w src dst => ({ s with regs := Function.update s.regs dst (w.cut (s.regs src)), pc := s.pc + 1 }, [])
  | .test w x y =>
    let v := w.cut (s.regs x &&& s.regs y)
    ({ s with zero := v == 0, less := v.toNat.testBit (8 * w.bytes - 1), pc := s.pc + 1 }, [])
  | .cmp x y =>
    ({ s with zero := s.regs y == s.regs x, less := (s.regs y).slt (s.regs x), pc := s.pc + 1 }, [])
  | .cmov w onZero src dst =>
    ({ s with
        regs := Function.update s.regs dst (w.cut (if s.zero = onZero then s.regs src else s.regs dst))
        pc := s.pc + 1 },
      [])
  | .inc r =>
    ({ s with
        regs := Function.update s.regs r (s.regs r + 1)
        zero := s.regs r + 1 == 0
        less := decide ((s.regs r).toInt + 1 < 0)
        pc := s.pc + 1 },
      [])
  | .jl target => ({ s with pc := if s.less then target else s.pc + 1 }, [])

/-- One step, or `none` behind the last instruction. -/
def step (P : List (Instr R)) (s : Machine R) : Option (Machine R × List Event) :=
  P[s.pc]?.map fun i => ((i.exec s).1, .exec s.pc :: (i.exec s).2)

/-- At most `n` steps. -/
def run (P : List (Instr R)) : Nat → Machine R → Machine R × List Event
  | 0, s => (s, [])
  | n + 1, s =>
    match step P s with
    | none => (s, [])
    | some (s', events) => ((run P n s').1, events ++ (run P n s').2)

@[simp] theorem run_zero (P : List (Instr R)) (s : Machine R) : run P 0 s = (s, []) := rfl

theorem run_of_halted {P : List (Instr R)} {s : Machine R} (h : P.length ≤ s.pc) (n : Nat) :
    run P n s = (s, []) := by
  cases n with
  | zero => rfl
  | succ n => simp [run, step, List.getElem?_eq_none h]

theorem run_succ {P : List (Instr R)} {s : Machine R} {i : Instr R} (h : P[s.pc]? = some i) (n : Nat) :
    run P (n + 1) s =
      ((run P n (i.exec s).1).1, .exec s.pc :: (i.exec s).2 ++ (run P n (i.exec s).1).2) := by
  simp [run, step, h]

/-- A run in two parts. -/
theorem run_add (P : List (Instr R)) (m n : Nat) (s : Machine R) :
    run P (m + n) s = ((run P n (run P m s).1).1, (run P m s).2 ++ (run P n (run P m s).1).2) := by
  induction m generalizing s with
  | zero => simp
  | succ m ih =>
    cases h : P[s.pc]? with
    | none =>
      have hhalt : P.length ≤ s.pc := List.getElem?_eq_none_iff.mp h
      simp [run_of_halted hhalt]
    | some i =>
      rw [Nat.succ_add_eq_add_succ, Nat.add_succ, run_succ h, run_succ h, ih]
      simp

/-- A loop of `k` passes with `m` steps each. -/
theorem run_loop {P : List (Instr R)} {m : Nat} {inv : Nat → Machine R → Prop} {s : Machine R} (h₀ : inv 0 s)
    (k : Nat) (hpass : ∀ j < k, ∀ t, inv j t → inv (j + 1) (run P m t).1) : inv k (run P (m * k) s).1 := by
  induction k with
  | zero => exact h₀
  | succ k ih =>
    rw [Nat.mul_succ, run_add]
    exact hpass k (Nat.lt_succ_self k) _ (ih fun j hj => hpass j (Nat.lt_succ_of_lt hj))

/-! ## Bytes of words -/

theorem peek_lt (mem : Nat → UInt8) (a n : Nat) : peek mem a n < 256 ^ n := by
  have h := Nat.ofDigits_lt_base_pow_length (b := 256) (l := (bytesAt mem a n).map UInt8.toNat) (by decide) (by
    intro x hx
    obtain ⟨b, -, rfl⟩ := List.mem_map.mp hx
    exact b.toNat_lt)
  simpa [peek] using h

theorem peek_add (mem : Nat → UInt8) (a m n : Nat) :
    peek mem a (m + n) = peek mem a m + 256 ^ m * peek mem (a + m) n := by
  rw [peek, bytesAt_add, List.map_append, Nat.ofDigits_append]
  simp [peek]

theorem peek_one (mem : Nat → UInt8) (a : Nat) : peek mem a 1 = (mem a).toNat := by
  simp [peek, bytesAt]

/-- The bytes of the number in memory. -/
theorem bytesOf_peek (mem : Nat → UInt8) (a n : Nat) : bytesOf n (peek mem a n) = bytesAt mem a n := by
  refine List.map_congr_left fun i hi => ?_
  have hin := List.mem_range.mp hi
  obtain ⟨k, rfl⟩ := Nat.exists_eq_add_of_lt hin
  rw [show i + k + 1 = i + (1 + k) by omega, peek_add, Nat.add_mul_div_left _ _ (Nat.pow_pos (by decide)),
    Nat.div_eq_of_lt (peek_lt mem a i), zero_add, peek_add, peek_one, pow_one, ← UInt8.toNat_inj, UInt8.toNat_ofNat']
  have hb := (mem (a + i)).toNat_lt
  omega

theorem toNat_loadWord (mem : Nat → UInt8) (a : Nat) (w : Width) : (loadWord mem a w).toNat = peek mem a w.bytes := by
  have hlt := peek_lt mem a w.bytes
  have hle : 256 ^ w.bytes ≤ 2 ^ 64 := by cases w <;> decide
  rw [loadWord, BitVec.toNat_ofNat]
  exact Nat.mod_eq_of_lt (hlt.trans_le hle)

/-- Storing what was loaded copies bytes. -/
theorem storeWord_loadWord (mem mem' : Nat → UInt8) (a b : Nat) (w : Width) :
    storeWord mem a w (loadWord mem' b w) = overwrite mem a (bytesAt mem' b w.bytes) := by
  rw [storeWord, toNat_loadWord, bytesOf_peek]

/-- Storing back what was loaded changes nothing. -/
theorem storeWord_loadWord_self (mem : Nat → UInt8) (a : Nat) (w : Width) : storeWord mem a w
    (loadWord mem a w) = mem := by
  rw [storeWord_loadWord, overwrite_bytesAt_self]

/-- A store takes the low bytes only. -/
@[simp] theorem storeWord_cut (mem : Nat → UInt8) (a : Nat) (w : Width) (v : BitVec 64) :
    storeWord mem a w (w.cut v) = storeWord mem a w v := by
  unfold storeWord
  refine congrArg _ (List.map_congr_left fun i hi => ?_)
  have hin := List.mem_range.mp hi
  have hcut : (w.cut v).toNat = v.toNat % 256 ^ w.bytes := by
    have hle : v.toNat % 256 ^ w.bytes ≤ v.toNat := Nat.mod_le _ _
    rw [Width.cut, BitVec.toNat_ofNat, show (2 : Nat) ^ (8 * w.bytes) = 256 ^ w.bytes from pow_mul 2 8 w.bytes,
      Nat.mod_eq_of_lt (hle.trans_lt v.isLt)]
  rw [hcut, ← UInt8.toNat_inj, UInt8.toNat_ofNat', UInt8.toNat_ofNat',
    show w.bytes = i + (w.bytes - i) by omega, pow_add, Nat.mod_mul_right_div_self]
  exact Nat.mod_mod_of_dvd _ (dvd_pow_self 256 (by omega))

@[simp] theorem cut_quad (v : BitVec 64) : Width.quad.cut v = v := by
  rw [Width.cut, show 8 * Width.quad.bytes = 64 from rfl, Nat.mod_eq_of_lt v.isLt, BitVec.ofNat_toNat,
    BitVec.setWidth_eq]

end SgxOram.Lib.Asm
