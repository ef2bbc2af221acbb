import SgxOram.Enclave.NodeSpec
import SgxOram.Enclave.PositionMap
import SgxOram.Lib.ConstantTime

/-!
# The inline assembly (`Enclave/Enclave_ObliviousFunctions.cpp`)

The instructions of the functions, with every operand in a register of its own.

* `omove`, `omove32`, `ocopy`, `oswap`, `obliviousPick32`, `obliviousPickAndSwap32` : the code;
* `routines_constantTime` : what it shows depends on the pointers, the length and the counter only;
* `ocopy_refines` : on blocks `ocopy` is the copy of the node operations;
* `positionMap_refines` : on the bytes of the position map the two loops are the loops over words;
* `omove_spec`, `omove32_spec`, `oswap_spec` : the code without a loop.
-/

namespace SgxOram.Asm
open Lib Lib.Asm

/-- The registers: the operands `%0`, `%1`, `%2`, the pointers, and the clobbered ones. -/
inductive Reg
  | in0
  | in1
  | in2
  | src
  | dest
  | r12
  | r13
  | r14
  | rdx
deriving DecidableEq

instance : Fintype Reg where
  elems := {.in0, .in1, .in2, .src, .dest, .r12, .r13, .r14, .rdx}
  complete r := by cases r <;> decide

/-! ## Code -/

/-- `cond` is `%0`, `val_1` is `%1`, `val_2` is `%2`. -/
def omove : List (Instr Reg) :=
  [.mov .quad .in2 .rdx, .test .quad .in0 .in0, .cmov .quad true .in1 .rdx, .store .quad .rdx ⟨.dest, none, 1⟩]

def omove32 : List (Instr Reg) :=
  [.mov .long .in2 .rdx, .test .long .in0 .in0, .cmov .long true .in1 .rdx, .store .long .rdx ⟨.dest, none, 1⟩]

/-- `cond` is `%0`, `len` is `%1`, `count` is `%2`. -/
def ocopy : List (Instr Reg) :=
  [.load .quad ⟨.src, some .in2, 8⟩ .r12, .load .quad ⟨.dest, some .in2, 8⟩ .r13, .test .quad .in0 .in0,
    .cmov .quad false .r12 .r13, .store .quad .r13 ⟨.dest, some .in2, 8⟩, .inc .in2, .cmp .in1 .in2, .jl 0]

def oswap : List (Instr Reg) :=
  [.load .quad ⟨.src, none, 1⟩ .r12, .load .quad ⟨.dest, none, 1⟩ .r13, .test .quad .in0 .in0,
    .cmov .quad false .r13 .r14, .cmov .quad false .r12 .r13, .cmov .quad false .r14 .r12,
    .store .quad .r12 ⟨.src, none, 1⟩, .store .quad .r13 ⟨.dest, none, 1⟩]

/-- `ind` is `%0`, `len` is `%1`, `count` is `%2`. -/
def obliviousPick32 : List (Instr Reg) :=
  [.load .quad ⟨.src, some .in2, 4⟩ .r12, .load .quad ⟨.dest, none, 1⟩ .r13, .cmp .in0 .in2,
    .cmov .quad true .r12 .r13, .store .quad .r13 ⟨.dest, none, 1⟩, .inc .in2, .cmp .in1 .in2, .jl 0]

def obliviousPickAndSwap32 : List (Instr Reg) :=
  [.load .quad ⟨.src, some .in2, 4⟩ .r12, .load .quad ⟨.dest, none, 1⟩ .r13, .cmp .in0 .in2,
    .cmov .quad true .r13 .r14, .cmov .quad true .r12 .r13, .cmov .quad true .r14 .r12,
    .store .quad .r12 ⟨.src, some .in2, 4⟩, .store .quad .r13 ⟨.dest, none, 1⟩, .inc .in2, .cmp .in1 .in2, .jl 0]

/-! ## What the code shows -/

/-- The code of a function with the operands that may show: its pointers, length and counter. -/
structure Routine where
  code : List (Instr Reg)
  shown : List Reg
deriving DecidableEq

def routines : List Routine :=
  [⟨omove, [.dest]⟩, ⟨omove32, [.dest]⟩, ⟨ocopy, [.in1, .in2, .src, .dest]⟩, ⟨oswap, [.src, .dest]⟩,
    ⟨obliviousPick32, [.in1, .in2, .src, .dest]⟩, ⟨obliviousPickAndSwap32, [.in1, .in2, .src, .dest]⟩]

/-- The shown operands are public throughout, the flags where they decide a jump. -/
def Routine.known (r : Routine) (pc : Nat) : Public Reg where
  regs x := decide (x ∈ r.shown)
  flags := r.code[pc]? == some (.jl 0)

theorem routines_certified : ∀ r ∈ routines, Certifies r.code r.known := by
  decide

theorem starts_unflagged : ∀ r ∈ routines, (r.known 0).flags = false := by
  decide

/-- Two calls with the same pointers and length execute the same instructions and touch the same addresses in
the same order, whatever the condition, the index, the values and the memory are. -/
theorem routines_constantTime {r : Routine} (hr : r ∈ routines) {s t : Machine Reg} (hs : s.pc = 0) (ht : t.pc = 0)
    (hshown : ∀ x ∈ r.shown, s.regs x = t.regs x) (n : Nat) : (run r.code n s).2 = (run r.code n t).2 := by
  apply run_agree (routines_certified r hr)
  refine ⟨hs.trans ht.symm, fun x hx => hshown x (of_decide_eq_true hx), fun hf => ?_⟩
  rw [hs, show (r.known 0).flags = false from starts_unflagged r hr] at hf
  cases hf

/-- A call with the condition or index `c`, the length 2 and the pointers 0 and 4096. -/
def call (c : BitVec 64) : Machine Reg where
  regs r := match r with
    | .in0 => c
    | .in1 => 2
    | .dest => 4096
    | _ => 0
  mem a := UInt8.ofNat a
  zero := false
  less := false
  pc := 0

theorem routines_constantTime_ocopy : (run ocopy 16 (call 0)).2 = (run ocopy 16 (call 1)).2 :=
  routines_constantTime (show ⟨ocopy, [.in1, .in2, .src, .dest]⟩ ∈ routines by decide) rfl rfl (by decide) 16

/-! ## Loops -/

/-- How often a loop runs that tests `count < len` after its body. -/
def passes (len : BitVec 64) : Nat := max len.toInt.toNat 1

theorem slt_passes {len : BitVec 64} {k : Nat} (hk : k < passes len) :
    (BitVec.ofNat 64 k + 1).slt len = decide (k + 1 < passes len) := by
  have hlen := BitVec.toInt_lt (x := len)
  unfold passes at hk ⊢
  have hcount : (BitVec.ofNat 64 k + 1).toInt = k + 1 := by
    rw [show BitVec.ofNat 64 k + 1 = BitVec.ofNat 64 (k + 1) from (BitVec.ofNat_add k 1).symm,
      BitVec.toInt_ofNat', Int.bmod_eq_of_le] <;> push_cast <;> omega
  rw [BitVec.slt, hcount]
  apply decide_eq_decide.mpr
  omega

/-! ## ocopy -/

theorem ocopy_pass {s : Machine Reg} (hpc : s.pc = 0) :
    (∀ r ∈ [Reg.in0, .in1, .src, .dest], (run ocopy 8 s).1.regs r = s.regs r) ∧
      (run ocopy 8 s).1.regs .in2 = s.regs .in2 + 1 ∧
      (run ocopy 8 s).1.pc = (if (s.regs .in2 + 1).slt (s.regs .in1) then 0 else 8) ∧
      (run ocopy 8 s).1.mem =
        if s.regs .in0 = 0#64 then s.mem
        else overwrite s.mem ((Address.mk .dest (some .in2) 8).eval s.regs)
          (bytesAt s.mem ((Address.mk .src (some .in2) 8).eval s.regs) 8) := by
  simp only [run, step, ocopy, hpc, Instr.exec]
  by_cases hcond : s.regs .in0 = 0#64
  · simp [hcond, Address.eval, storeWord_loadWord_self]
  · simp [hcond, Address.eval, storeWord_loadWord, Width.bytes]

/-- The loop of `ocopy` from `s`, after `j` of `L` passes. -/
structure Copying (s : Machine Reg) (a b L j : Nat) (t : Machine Reg) : Prop where
  operands : ∀ r ∈ [Reg.in0, .in1, .src, .dest], t.regs r = s.regs r
  count : t.regs .in2 = BitVec.ofNat 64 j
  pc : t.pc = if j < L then 0 else 8
  mem : t.mem = if s.regs .in0 = 0#64 then s.mem else overwrite s.mem b (bytesAt s.mem a (8 * j))

theorem Copying.pass {s t : Machine Reg} {a b L j : Nat} (h : Copying s a b L j t) (hj : j < L)
    (ha : (s.regs .src).toNat = a) (hb : (s.regs .dest).toNat = b) (hL : passes (s.regs .in1) = L)
    (hsrc : a + 8 * L ≤ 2 ^ 64) (hdest : b + 8 * L ≤ 2 ^ 64) (hapart : a + 8 * L ≤ b ∨ b + 8 * L ≤ a) :
    Copying s a b L (j + 1) (run ocopy 8 t).1 := by
  obtain ⟨hregs, hcount, hpc, hmem⟩ := ocopy_pass (h.pc.trans (if_pos hj))
  have hr : ∀ r ∈ [Reg.in0, .in1, .src, .dest], t.regs r = s.regs r := h.operands
  have hjlt : (BitVec.ofNat 64 j).toNat = j := by
    rw [BitVec.toNat_ofNat]
    omega
  have hevalsrc : (Address.mk Reg.src (some .in2) 8).eval t.regs = a + 8 * j := by
    simp only [Address.eval, hr .src (by decide), ha, h.count, Option.elim, hjlt]
    omega
  have hevaldest : (Address.mk Reg.dest (some .in2) 8).eval t.regs = b + 8 * j := by
    simp only [Address.eval, hr .dest (by decide), hb, h.count, Option.elim, hjlt]
    omega
  refine ⟨fun r hmem => (hregs r hmem).trans (hr r hmem), ?_, ?_, ?_⟩
  · rw [hcount, h.count]
    exact (BitVec.ofNat_add j 1).symm
  · rw [hpc, h.count, hr .in1 (by decide), slt_passes (hL ▸ hj), hL]
    simp
  · rw [hmem, hevalsrc, hevaldest, hr .in0 (by decide), h.mem]
    split
    · rfl
    · -- the words copied so far are not those read in this pass
      rw [bytesAt_overwrite_of_disjoint _ (by rw [length_bytesAt]; omega), Nat.mul_succ, bytesAt_add,
        ← overwrite_append, length_bytesAt]

/-- `ocopy` between places that do not overlap: with a condition that is not zero it copies `len` words, and
one if `len` is less. -/
theorem ocopy_spec {s : Machine Reg} (hpc : s.pc = 0) (hcount : s.regs .in2 = 0) {a b L : Nat}
    (ha : (s.regs .src).toNat = a) (hb : (s.regs .dest).toNat = b) (hL : passes (s.regs .in1) = L)
    (hsrc : a + 8 * L ≤ 2 ^ 64) (hdest : b + 8 * L ≤ 2 ^ 64) (hapart : a + 8 * L ≤ b ∨ b + 8 * L ≤ a) :
    (run ocopy (8 * L) s).1.pc = 8 ∧
      (run ocopy (8 * L) s).1.mem =
        if s.regs .in0 = 0#64 then s.mem else overwrite s.mem b (bytesAt s.mem a (8 * L)) := by
  have hpos : 0 < L := hL ▸ Nat.lt_of_lt_of_le Nat.zero_lt_one (le_max_right _ _)
  have hstart : Copying s a b L 0 s := ⟨fun _ _ => rfl, hcount, hpc.trans (if_pos hpos).symm, by
    rw [Nat.mul_zero, show bytesAt s.mem a 0 = bytesAt s.mem b 0 from rfl, overwrite_bytesAt_self, ite_self]⟩
  have hend := run_loop hstart L fun j hj t ht => ht.pass hj ha hb hL hsrc hdest hapart
  exact ⟨hend.pc.trans (if_neg (lt_irrefl L)), hend.mem⟩

/-- The block in the `bs` bytes from `a` on. -/
def blockAt (bs : Nat) (mem : Nat → UInt8) (a : Nat) : Block bs := fun j => mem (a + j)

/-- The code of `ocopy` on two blocks of a positive multiple of 8 bytes does what the node operations take it to
do; its loop tests after its body. -/
theorem ocopy_refines {bs : Nat} (h8 : 8 ∣ bs) (hbs : 0 < bs) {s : Machine Reg} (hpc : s.pc = 0)
    (hcount : s.regs .in2 = 0) (hlen : s.regs .in1 = BitVec.ofNat 64 (bs / 8))
    (hsrc : (s.regs .src).toNat + bs ≤ 2 ^ 64) (hdest : (s.regs .dest).toNat + bs ≤ 2 ^ 64)
    (hapart : (s.regs .src).toNat + bs ≤ (s.regs .dest).toNat ∨ (s.regs .dest).toNat + bs ≤ (s.regs .src).toNat) :
    (run ocopy bs s).1.pc = ocopy.length ∧
      blockAt bs (run ocopy bs s).1.mem (s.regs .dest).toNat =
        SgxOram.ocopy (UInt64.ofBitVec (s.regs .in0)) (blockAt bs s.mem (s.regs .src).toNat)
          (blockAt bs s.mem (s.regs .dest).toNat) (bs / 8) ∧
      ∀ x, (x < (s.regs .dest).toNat ∨ (s.regs .dest).toNat + bs ≤ x) → (run ocopy bs s).1.mem x = s.mem x := by
  have hwords : 8 * (bs / 8) = bs := Nat.mul_div_cancel' h8
  have hL : passes (s.regs .in1) = bs / 8 := by
    rw [hlen, passes, BitVec.toInt_ofNat', Int.bmod_eq_of_le] <;> push_cast <;> omega
  obtain ⟨hend, hmem⟩ := ocopy_spec hpc hcount rfl rfl hL (by omega) (by omega) (by omega)
  rw [hwords] at hend hmem
  refine ⟨hend, ?_, fun x hx => ?_⟩
  · rw [ocopy_eq h8, hmem]
    have hzero : UInt64.ofBitVec (s.regs .in0) = 0 ↔ s.regs .in0 = 0#64 :=
      ⟨fun h => congrArg UInt64.toBitVec h, fun h => by rw [h]; rfl⟩
    by_cases hcond : s.regs .in0 = 0#64
    · rw [if_pos hcond, if_pos (hzero.mpr hcond)]
    · rw [if_neg hcond, if_neg (fun h => hcond (hzero.mp h))]
      funext j
      have hj := j.isLt
      simp [blockAt, overwrite, bytesAt]
  · rw [hmem]
    split
    · rfl
    · unfold overwrite
      rw [if_neg]
      rw [length_bytesAt]
      omega

theorem ocopy_refines_two :
    blockAt 16 (run ocopy 16 (call 1)).1.mem 4096 =
      SgxOram.ocopy 1 (blockAt 16 (call 1).mem 0) (blockAt 16 (call 1).mem 4096) 2 :=
  (ocopy_refines (show 8 ∣ 16 by decide) (by decide) rfl rfl rfl (by decide) (by decide) (by decide)).2.1

/-! ## The position map -/

/-- The word at byte address `a`. -/
def wordAt (mem : Nat → UInt8) (a : Nat) : UInt32 := UInt32.ofNat (peek mem a 4)

/-- The words from byte address `a` on. -/
def words (mem : Nat → UInt8) (a : Nat) : Nat → UInt32 := fun k => wordAt mem (a + 4 * k)

theorem wordAt_congr {mem mem' : Nat → UInt8} {a b : Nat} (h : bytesAt mem a 4 = bytesAt mem' b 4) :
    wordAt mem a = wordAt mem' b := by
  rw [wordAt, wordAt, peek, peek, h]

theorem words_overwrite_off (mem : Nat → UInt8) {a off k : Nat} {l : List UInt8}
    (h : a + 4 * k + 4 ≤ off ∨ off + l.length ≤ a + 4 * k) : words (overwrite mem off l) a k = words mem a k :=
  wordAt_congr (bytesAt_overwrite_of_disjoint mem h)

/-- A copy of eight bytes is a copy of two words. -/
theorem words_overwrite_on (mem mem' : Nat → UInt8) (a b k l : Nat) :
    words (overwrite mem (a + 4 * k) (bytesAt mem' (b + 4 * l) 8)) a = X86.copyTwo (words mem a) k (words mem' b) l := by
  have hsplit : overwrite mem (a + 4 * k) (bytesAt mem' (b + 4 * l) 8) =
      overwrite (overwrite mem (a + 4 * k) (bytesAt mem' (b + 4 * l) 4)) (a + 4 * (k + 1))
        (bytesAt mem' (b + 4 * (l + 1)) 4) := by
    have happend := overwrite_append mem (a + 4 * k) (bytesAt mem' (b + 4 * l) 4) (bytesAt mem' (b + 4 * (l + 1)) 4)
    rw [length_bytesAt] at happend
    exact (happend.trans (congrArg _ (bytesAt_add mem' (b + 4 * l) 4 4).symm)).symm
  have hone : ∀ (m : Nat → UInt8) (i j : Nat),
      words (overwrite m (a + 4 * i) (bytesAt mem' (b + 4 * j) 4)) a = Function.update (words m a) i (words mem' b j) := by
    intro m i j
    funext x
    by_cases hx : x = i
    · subst hx
      rw [Function.update_self]
      apply wordAt_congr
      have hon := bytesAt_overwrite m (a + 4 * x) (bytesAt mem' (b + 4 * j) 4)
      rwa [length_bytesAt] at hon
    · rw [Function.update_of_ne hx, words_overwrite_off _ (by rw [length_bytesAt]; omega)]
  rw [hsplit, hone, hone]
  rfl

/-- One pass of a loop over the position map: at the index it acts on the word met, elsewhere on nothing. -/
def ScanPass (code : List (Instr Reg)) (act : Nat → Nat → (Nat → UInt8) → Nat → UInt8) : Prop :=
  ∀ s : Machine Reg, s.pc = 0 →
    (∀ r ∈ [Reg.in0, .in1, .src, .dest], (run code code.length s).1.regs r = s.regs r) ∧
      (run code code.length s).1.regs .in2 = s.regs .in2 + 1 ∧
      (run code code.length s).1.pc = (if (s.regs .in2 + 1).slt (s.regs .in1) then 0 else code.length) ∧
      (run code code.length s).1.mem =
        if s.regs .in2 = s.regs .in0 then
          act ((Address.mk .src (some .in2) 4).eval s.regs) ((Address.mk .dest none 1).eval s.regs) s.mem
        else s.mem

theorem pick_pass : ScanPass obliviousPick32 fun a b mem => overwrite mem b (bytesAt mem a 8) := by
  intro s hpc
  simp only [run, step, obliviousPick32, hpc, Instr.exec, List.length_cons, List.length_nil]
  by_cases hmet : s.regs .in2 = s.regs .in0
  · simp [hmet, Address.eval, storeWord_loadWord, Width.bytes]
  · simp [hmet, Address.eval, storeWord_loadWord_self]

theorem pickAndSwap_pass : ScanPass obliviousPickAndSwap32 fun a b mem =>
    overwrite (overwrite mem a (bytesAt mem b 8)) b (bytesAt mem a 8) := by
  intro s hpc
  simp only [run, step, obliviousPickAndSwap32, hpc, Instr.exec, List.length_cons, List.length_nil]
  by_cases hmet : s.regs .in2 = s.regs .in0
  · simp [hmet, Address.eval, storeWord_loadWord, Width.bytes]
  · simp [hmet, Address.eval, storeWord_loadWord_self]

/-- The loop from `s`, after `j` of `L` passes. -/
structure Scanning (code : List (Instr Reg)) (s : Machine Reg) (ind L : Nat) (acted : Nat → UInt8) (j : Nat)
    (t : Machine Reg) : Prop where
  operands : ∀ r ∈ [Reg.in0, .in1, .src, .dest], t.regs r = s.regs r
  count : t.regs .in2 = BitVec.ofNat 64 j
  pc : t.pc = if j < L then 0 else code.length
  mem : t.mem = if ind < j then acted else s.mem

theorem Scanning.pass {code : List (Instr Reg)} {act : Nat → Nat → (Nat → UInt8) → Nat → UInt8}
    (hcode : ScanPass code act) {s t : Machine Reg} {ind a b L j : Nat} (hind : (s.regs .in0).toNat = ind)
    (ha : (s.regs .src).toNat = a) (hb : (s.regs .dest).toNat = b) (hL : passes (s.regs .in1) = L)
    (hsrc : a + 4 * L ≤ 2 ^ 64) (ht : Scanning code s ind L (act (a + 4 * ind) b s.mem) j t) (hj : j < L) :
    Scanning code s ind L (act (a + 4 * ind) b s.mem) (j + 1) (run code code.length t).1 := by
  obtain ⟨hregs, hnext, hpc, hmem⟩ := hcode t (ht.pc.trans (if_pos hj))
  have hr : ∀ r ∈ [Reg.in0, .in1, .src, .dest], t.regs r = s.regs r := ht.operands
  have hjlt : (BitVec.ofNat 64 j).toNat = j := by
    rw [BitVec.toNat_ofNat]
    omega
  have hmet : t.regs .in2 = t.regs .in0 ↔ j = ind := by
    rw [ht.count, hr .in0 (by decide), ← BitVec.toNat_inj, hjlt, hind]
  refine ⟨fun r hmem => (hregs r hmem).trans (hr r hmem), ?_, ?_, ?_⟩
  · rw [hnext, ht.count]
    exact (BitVec.ofNat_add j 1).symm
  · rw [hpc, ht.count, hr .in1 (by decide), slt_passes (hL ▸ hj), hL]
    simp
  · rw [hmem]
    by_cases heq : j = ind
    · subst heq
      have hevalsrc : (Address.mk Reg.src (some .in2) 4).eval t.regs = a + 4 * j := by
        simp only [Address.eval, hr .src (by decide), ha, ht.count, Option.elim, hjlt]
        omega
      have hevaldest : (Address.mk Reg.dest none 1).eval t.regs = b := by
        simp only [Address.eval, hr .dest (by decide), Option.elim, ← hb]
        omega
      rw [if_pos (hmet.mpr rfl), hevalsrc, hevaldest, ht.mem, if_neg (lt_irrefl j), if_pos (Nat.lt_succ_self j)]
    · rw [if_neg fun h => heq (hmet.mp h), ht.mem]
      congr 1
      apply propext
      omega

theorem scan_spec {code : List (Instr Reg)} {act : Nat → Nat → (Nat → UInt8) → Nat → UInt8}
    (hcode : ScanPass code act) {s : Machine Reg} (hpc : s.pc = 0) (hcount : s.regs .in2 = 0) {ind a b L : Nat}
    (hind : (s.regs .in0).toNat = ind) (ha : (s.regs .src).toNat = a) (hb : (s.regs .dest).toNat = b)
    (hL : passes (s.regs .in1) = L) (hsrc : a + 4 * L ≤ 2 ^ 64) :
    (run code (code.length * L) s).1.pc = code.length ∧
      (run code (code.length * L) s).1.mem = if ind < L then act (a + 4 * ind) b s.mem else s.mem := by
  have hpos : 0 < L := hL ▸ Nat.lt_of_lt_of_le Nat.zero_lt_one (le_max_right _ _)
  have hstart : Scanning code s ind L (act (a + 4 * ind) b s.mem) 0 s :=
    ⟨fun _ _ => rfl, hcount, hpc.trans (if_pos hpos).symm, (if_neg (Nat.not_lt_zero ind)).symm⟩
  have hend := run_loop hstart L fun j hj t ht => ht.pass hcode hind ha hb hL hsrc hj
  exact ⟨hend.pc.trans (if_neg (lt_irrefl L)), hend.mem⟩

/-- The operands of a call on the position map: the words from `a` on, the word at `b`, `L` passes. -/
structure MapCall (s : Machine Reg) (ind a b L : Nat) : Prop where
  pc : s.pc = 0
  count : s.regs .in2 = 0
  ind : (s.regs .in0).toNat = ind
  src : (s.regs .src).toNat = a
  dest : (s.regs .dest).toNat = b
  passes : passes (s.regs .in1) = L
  fits : a + 4 * L + 4 ≤ 2 ^ 64 ∧ b + 8 ≤ 2 ^ 64
  apart : a + 4 * L + 4 ≤ b ∨ b + 8 ≤ a

/-- What a loop leaves in memory, against the loop over words. The last pass reaches one word further. -/
structure MapDone (mem mem' : Nat → UInt8) (a b L : Nat) (src dest : Nat → UInt32) : Prop where
  src : ∀ k ≤ L, words mem' a k = src k
  dest : ∀ k ≤ 1, words mem' b k = dest k
  rest : ∀ x, (x < a ∨ a + 4 * L + 4 ≤ x) → (x < b ∨ b + 8 ≤ x) → mem' x = mem x

theorem overwrite_off (mem : Nat → UInt8) {off x : Nat} {l : List UInt8} (h : x < off ∨ off + l.length ≤ x) :
    overwrite mem off l x = mem x := by
  unfold overwrite
  rw [if_neg]
  omega

theorem MapDone.refl (mem : Nat → UInt8) (a b L : Nat) : MapDone mem mem a b L (words mem a) (words mem b) :=
  ⟨fun _ _ => rfl, fun _ _ => rfl, fun _ _ _ => rfl⟩

theorem pick_done {mem : Nat → UInt8} {a b L ind : Nat} (hapart : a + 4 * L + 4 ≤ b ∨ b + 8 ≤ a) :
    MapDone mem (overwrite mem b (bytesAt mem (a + 4 * ind) 8)) a b L (words mem a)
      (X86.copyTwo (words mem b) 0 (words mem a) ind) where
  src k hk := words_overwrite_off mem (by rw [length_bytesAt]; omega)
  dest k _ := congrFun (words_overwrite_on mem mem b a 0 ind) k
  rest x _ hx := overwrite_off mem (by rwa [length_bytesAt])

theorem pickAndSwap_done {mem : Nat → UInt8} {a b L ind : Nat} (hind : ind < L)
    (hapart : a + 4 * L + 4 ≤ b ∨ b + 8 ≤ a) :
    MapDone mem (overwrite (overwrite mem (a + 4 * ind) (bytesAt mem b 8)) b (bytesAt mem (a + 4 * ind) 8)) a b L
      (X86.copyTwo (words mem a) ind (words mem b) 0) (X86.copyTwo (words mem b) 0 (words mem a) ind) where
  src k hk := by
    rw [words_overwrite_off _ (by rw [length_bytesAt]; omega)]
    exact congrFun (words_overwrite_on mem mem a b ind 0) k
  dest k hk := by
    -- both words at `b` are new, whatever was there
    refine (congrFun (words_overwrite_on _ mem b a 0 ind) k).trans ?_
    rcases Nat.le_one_iff_eq_zero_or_eq_one.mp hk with rfl | rfl <;> simp [X86.copyTwo]
  rest x hx hx' := by
    rw [overwrite_off _ (by rwa [length_bytesAt]), overwrite_off _ (by rw [length_bytesAt]; omega)]

/-- The code of the two loops does what the loops over words do, and touches no other byte. -/
theorem positionMap_refines {s : Machine Reg} {ind a b L : Nat} (h : MapCall s ind a b L) (r14 : UInt64) :
    ((run obliviousPick32 (obliviousPick32.length * L) s).1.pc = obliviousPick32.length ∧
      MapDone s.mem (run obliviousPick32 (obliviousPick32.length * L) s).1.mem a b L (words s.mem a)
        (X86.obliviousPick32 ind (words s.mem a) (words s.mem b) L)) ∧
      (run obliviousPickAndSwap32 (obliviousPickAndSwap32.length * L) s).1.pc = obliviousPickAndSwap32.length ∧
      MapDone s.mem (run obliviousPickAndSwap32 (obliviousPickAndSwap32.length * L) s).1.mem a b L
        (X86.obliviousPickAndSwap32 ind ⟨words s.mem a, words s.mem b, r14⟩ L).src
        (X86.obliviousPickAndSwap32 ind ⟨words s.mem a, words s.mem b, r14⟩ L).dest := by
  have hsrc : a + 4 * L ≤ 2 ^ 64 := (Nat.le_add_right _ _).trans h.fits.1
  have hpos : 1 ≤ L := h.passes ▸ le_max_right _ _
  obtain ⟨hend, hmem⟩ := scan_spec pick_pass h.pc h.count h.ind h.src h.dest h.passes hsrc
  obtain ⟨hend', hmem'⟩ := scan_spec pickAndSwap_pass h.pc h.count h.ind h.src h.dest h.passes hsrc
  refine ⟨⟨hend, ?_⟩, hend', ?_⟩
  · rw [hmem]
    by_cases hind : ind < L
    · rw [if_pos hind, X86.obliviousPick32_eq hind]
      exact pick_done h.apart
    · rw [if_neg hind, X86.obliviousPick32_idle (by omega)]
      exact MapDone.refl s.mem a b L
  · rw [hmem']
    by_cases hind : ind < L
    · rw [if_pos hind, X86.obliviousPickAndSwap32_eq hind]
      exact pickAndSwap_done hind h.apart
    · rw [if_neg hind, X86.obliviousPickAndSwap32_idle (by omega)]
      exact MapDone.refl s.mem a b L

theorem positionMap_refines_two :
    MapDone (call 1).mem (run obliviousPickAndSwap32 22 (call 1)).1.mem 0 4096 2
      (X86.obliviousPickAndSwap32 1 ⟨words (call 1).mem 0, words (call 1).mem 4096, 0⟩ 2).src
      (X86.obliviousPickAndSwap32 1 ⟨words (call 1).mem 0, words (call 1).mem 4096, 0⟩ 2).dest :=
  (positionMap_refines (L := 2) ⟨rfl, rfl, rfl, rfl, rfl, by decide, by decide, by decide⟩ 0).2.2

/-! ## Code without a loop -/

/-- `*dest` becomes `val_1` if the condition is zero, `val_2` otherwise. -/
theorem omove_spec {s : Machine Reg} (hpc : s.pc = 0) :
    (run omove omove.length s).1.pc = omove.length ∧
      (run omove omove.length s).1.mem =
        storeWord s.mem (s.regs .dest).toNat .quad (if s.regs .in0 = 0#64 then s.regs .in1 else s.regs .in2) := by
  have hlt := (s.regs .dest).isLt
  simp only [run, step, omove, hpc, Instr.exec, List.length_cons, List.length_nil]
  by_cases hcond : s.regs .in0 = 0#64 <;> simp [hcond, Address.eval, Nat.mod_eq_of_lt hlt]

/-- The same with the low halves: the condition is tested and the value moved as 32-bit words. -/
theorem omove32_spec {s : Machine Reg} (hpc : s.pc = 0) :
    (run omove32 omove32.length s).1.pc = omove32.length ∧
      (run omove32 omove32.length s).1.mem = storeWord s.mem (s.regs .dest).toNat .long
        (if Width.long.cut (s.regs .in0) = 0#64 then s.regs .in1 else s.regs .in2) := by
  have hlt := (s.regs .dest).isLt
  simp only [run, step, omove32, hpc, Instr.exec, List.length_cons, List.length_nil]
  by_cases hcond : Width.long.cut (s.regs .in0) = 0#64 <;>
    simp [hcond, Address.eval, Nat.mod_eq_of_lt hlt]

/-- Words that do not overlap are exchanged if the condition is not zero. -/
theorem oswap_spec {s : Machine Reg} (hpc : s.pc = 0) :
    (run oswap oswap.length s).1.pc = oswap.length ∧
      (run oswap oswap.length s).1.mem =
        if s.regs .in0 = 0#64 then s.mem
        else overwrite (overwrite s.mem (s.regs .src).toNat (bytesAt s.mem (s.regs .dest).toNat 8))
          (s.regs .dest).toNat (bytesAt s.mem (s.regs .src).toNat 8) := by
  have hsrc := (s.regs .src).isLt
  have hdest := (s.regs .dest).isLt
  simp only [run, step, oswap, hpc, Instr.exec, List.length_cons, List.length_nil]
  by_cases hcond : s.regs .in0 = 0#64
  · simp [hcond, Address.eval, storeWord_loadWord_self]
  · simp [hcond, Address.eval, storeWord_loadWord, Width.bytes, Nat.mod_eq_of_lt hsrc, Nat.mod_eq_of_lt hdest]

end SgxOram.Asm
