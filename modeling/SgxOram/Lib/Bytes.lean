import Mathlib

/-!
# Bytes in a local buffer

* `bytesAt mem off n` : the `n` bytes from `off` on; `overwrite mem off bytes` : memory after a copy
  to `off`; `asMem` : bytes as memory;
* `LocalBuffer` : a buffer with the offsets that were read or written so far; `LocalBuffer.Within` : all of
  them lie in the first `len` bytes.

The memory behind a buffer is not bounded: an access past its end is recorded, not refused.
-/

namespace SgxOram.Lib

/-- The `n` bytes from `off` on. -/
def bytesAt (mem : Nat → UInt8) (off n : Nat) : List UInt8 := (List.range n).map fun i => mem (off + i)

/-- Memory after a copy of `bytes` to `off`. -/
def overwrite (mem : Nat → UInt8) (off : Nat) (bytes : List UInt8) : Nat → UInt8 := fun a =>
  if off ≤ a ∧ a < off + bytes.length then bytes.getD (a - off) 0 else mem a

/-- A list of bytes as memory. -/
def asMem (bytes : List UInt8) : Nat → UInt8 := fun a => bytes.getD a 0

@[simp] theorem length_bytesAt (mem : Nat → UInt8) (off n : Nat) : (bytesAt mem off n).length = n := by
  simp [bytesAt]

theorem bytesAt_congr {mem mem' : Nat → UInt8} {off off' n : Nat} (h : ∀ i < n, mem (off + i) = mem' (off' + i)) :
    bytesAt mem off n = bytesAt mem' off' n :=
  List.map_congr_left fun i hi => h i (List.mem_range.mp hi)

/-- Bytes copied out of memory can be read again. -/
theorem bytesAt_asMem_bytesAt (mem : Nat → UInt8) {off k n : Nat} (h : off + k ≤ n) :
    bytesAt (asMem (bytesAt mem 0 n)) off k = bytesAt mem off k := by
  apply bytesAt_congr
  intro i hi
  have hlt : off + i < n := by omega
  simp [asMem, bytesAt, hlt]

theorem bytesAt_overwrite (mem : Nat → UInt8) (off : Nat) (bytes : List UInt8) :
    bytesAt (overwrite mem off bytes) off bytes.length = bytes := by
  apply List.ext_getElem (by simp)
  intro i h₁ h₂
  simp [bytesAt, overwrite, h₂]

theorem bytesAt_overwrite_of_disjoint (mem : Nat → UInt8) {off off' n : Nat} {bytes : List UInt8}
    (h : off' + n ≤ off ∨ off + bytes.length ≤ off') : bytesAt
    (overwrite mem off bytes) off' n = bytesAt mem off' n := by
  apply bytesAt_congr
  intro i hi
  unfold overwrite
  rw [if_neg]
  omega

theorem bytesAt_add (mem : Nat → UInt8) (off m n : Nat) :
    bytesAt mem off (m + n) = bytesAt mem off m ++ bytesAt mem (off + m) n := by
  simp [bytesAt, List.range_add, Nat.add_assoc]

/-- Copying bytes over themselves changes nothing. -/
theorem overwrite_bytesAt_self (mem : Nat → UInt8) (off n : Nat) : overwrite mem off (bytesAt mem off n) = mem := by
  funext a
  unfold overwrite
  split
  · next h =>
    rw [length_bytesAt] at h
    have ha : a - off < n := by omega
    simp [bytesAt, ha, Nat.add_sub_cancel' h.1]
  · rfl

/-- Two copies to adjacent places are one. -/
theorem overwrite_append (mem : Nat → UInt8) (off : Nat) (l l' : List UInt8) :
    overwrite (overwrite mem off l) (off + l.length) l' = overwrite mem off (l ++ l') := by
  funext a
  unfold overwrite
  rw [List.length_append]
  by_cases h₁ : off ≤ a ∧ a < off + l.length
  · rw [if_neg (by omega), if_pos h₁, if_pos (by omega), List.getD_append _ _ _ _ (by omega)]
  · by_cases h₂ : off + l.length ≤ a ∧ a < off + l.length + l'.length
    · rw [if_pos h₂, if_pos (by omega), List.getD_append_right _ _ _ _ (by omega), Nat.sub_add_eq]
    · rw [if_neg h₂, if_neg h₁, if_neg (by omega)]

/-! ## Buffers -/

/-- A buffer and the offsets read or written so far. -/
structure LocalBuffer where
  mem : Nat → UInt8
  touched : List Nat

/-- `uint8_t buffer[..] = {0}`. -/
def LocalBuffer.zero : LocalBuffer := ⟨fun _ => 0, []⟩

def LocalBuffer.read (b : LocalBuffer) (off n : Nat) : List UInt8 × LocalBuffer :=
  (bytesAt b.mem off n, { b with touched := b.touched ++ List.range' off n })

def LocalBuffer.write (b : LocalBuffer) (off : Nat) (bytes : List UInt8) : LocalBuffer :=
  { mem := overwrite b.mem off bytes, touched := b.touched ++ List.range' off bytes.length }

/-- Every access lies in the first `len` bytes. -/
def LocalBuffer.Within (b : LocalBuffer) (len : Nat) : Prop := ∀ a ∈ b.touched, a < len

@[simp] theorem LocalBuffer.within_zero (len : Nat) : LocalBuffer.zero.Within len := fun _ ha =>
  absurd ha List.not_mem_nil

theorem within_append_range' (l : List Nat) (off n len : Nat) :
    (∀ a ∈ l ++ List.range' off n, a < len) ↔ (∀ a ∈ l, a < len) ∧ (n = 0 ∨ off + n ≤ len) := by
  simp only [List.mem_append, List.mem_range'_1, or_imp, forall_and]
  apply and_congr_right'
  constructor
  · intro h
    by_cases hn : n = 0
    · exact Or.inl hn
    · have := h (off + n - 1) ⟨by omega, by omega⟩
      exact Or.inr (by omega)
  · intro h a ha
    omega

@[simp] theorem LocalBuffer.within_read (b : LocalBuffer) (off n len : Nat) :
    (b.read off n).2.Within len ↔ b.Within len ∧ (n = 0 ∨ off + n ≤ len) :=
  within_append_range' b.touched off n len

@[simp] theorem LocalBuffer.within_write (b : LocalBuffer) (off : Nat) (bytes : List UInt8) (len : Nat) :
    (b.write off bytes).Within len ↔ b.Within len ∧ (bytes.length = 0 ∨ off + bytes.length ≤ len) :=
  within_append_range' b.touched off bytes.length len

end SgxOram.Lib
