import SgxOram.Lib.Digits

/-!
# Variable-byte numbers (`Util/Simple9.cpp`)

* `vbyteEncode` : seven bits a byte, the low ones first, `0x80` on every byte but the last;
* `vbyteDecode` : the groups are shifted as `int`s, not as `size_t`s (`shiftedGroup`);
* `vbyte_roundtrip_iff` : which numbers come back.

`none` is undefined behaviour: a shift that `int` does not allow, or a read past the bytes given.
-/

namespace SgxOram.Simple9
open Lib

/-- `vbyte_encode` : the bytes written to `output`; the function returns their number. -/
def vbyteEncode (value : UInt64) : List UInt8 :=
  if 0x80 ≤ value then ((value &&& 0x7F) ||| 0x80).toUInt8 :: vbyteEncode (value >>> 7)
  else [(value &&& 0x7F).toUInt8]
termination_by value.toNat
decreasing_by
  rename_i h
  have : 128 ≤ value.toNat := h
  simp [Nat.shiftRight_eq_div_pow]
  omega

/-- An `int` of the given 32 bits as a `size_t` : its sign is extended. -/
def intToSize (bits : Nat) : UInt64 := UInt64.ofNat (if bits < 2 ^ 31 then bits else bits + (2 ^ 64 - 2 ^ 32))

/-- `(nibble & 0x7F) << shift`, an `int`, as the `size_t` it is or-ed into. -/
def shiftedGroup (group shift : Nat) : Option UInt64 :=
  if shift < 32 ∧ group * 2 ^ shift < 2 ^ 32 then some (intToSize (group * 2 ^ shift)) else none

/-- The loop of `vbyte_decode` over the bytes from `output + nbytes` on. -/
def vbyteDecodeLoop : List UInt8 → Nat → UInt64 → Nat → Option (UInt64 × Nat)
  | [], _, _, _ => none
  | nibble :: output, shift, value, nbytes => do
    let group ← shiftedGroup (nibble &&& 0x7F).toNat shift
    let value := value ||| group
    if nibble < 0x80 then return (value, nbytes + 1)
    else vbyteDecodeLoop output (shift + 7) value (nbytes + 1)

/-- `vbyte_decode` : `*value` and the number of bytes read. -/
def vbyteDecode (output : List UInt8) : Option (UInt64 × Nat) := vbyteDecodeLoop output 0 0 0

/-! ## The bytes -/

theorem toNat_and_127 (value : UInt64) : (value &&& 0x7F).toNat = value.toNat % 128 :=
  Nat.and_two_pow_sub_one_eq_mod value.toNat 7

theorem vbyteEncode_last {value : UInt64} (h : value.toNat < 128) :
    vbyteEncode value = [UInt8.ofNat value.toNat] := by
  have hlt : ¬ (0x80 : UInt64) ≤ value := Nat.not_le.mpr h
  rw [vbyteEncode, if_neg hlt, List.singleton_inj, ← UInt8.toNat_inj, UInt64.toNat_toUInt8, toNat_and_127,
    UInt8.toNat_ofNat', Nat.mod_eq_of_lt h]

theorem vbyteEncode_more {value : UInt64} (h : 128 ≤ value.toNat) :
    vbyteEncode value =
      UInt8.ofNat (value.toNat % 128 + 128) :: vbyteEncode (UInt64.ofNat (value.toNat / 128)) := by
  have hle : (0x80 : UInt64) ≤ value := h
  have hshift : value >>> 7 = UInt64.ofNat (value.toNat / 128) := by
    have hlt := value.toNat_lt
    have hdiv : (value >>> 7).toNat = value.toNat / 128 := Nat.shiftRight_eq_div_pow value.toNat 7
    rw [← UInt64.toNat_inj, hdiv, UInt64.toNat_ofNat', Nat.mod_eq_of_lt (by omega)]
  have hbyte : ((value &&& 0x7F) ||| 0x80).toUInt8 = UInt8.ofNat (value.toNat % 128 + 128) := by
    have hor := shiftLeft_or (s := 7) (Nat.mod_lt value.toNat (by decide)) 1
    rw [← UInt8.toNat_inj, UInt64.toNat_toUInt8, UInt64.toNat_or, toNat_and_127, UInt8.toNat_ofNat']
    exact congrArg (· % 256) hor
  rw [vbyteEncode, if_pos hle, hshift, hbyte]

theorem length_vbyteEncode_pos (value : UInt64) : 0 < (vbyteEncode value).length := by
  rw [vbyteEncode]
  split <;> simp

/-- `k + 1` bytes hold `7 * (k + 1)` bits. -/
theorem length_vbyteEncode_le {k : Nat} {value : UInt64} (h : value.toNat < 2 ^ (7 * (k + 1))) :
    (vbyteEncode value).length ≤ k + 1 := by
  induction k generalizing value with
  | zero => rw [vbyteEncode_last h, List.length_singleton]
  | succ k ih =>
    by_cases hlast : value.toNat < 128
    · rw [vbyteEncode_last hlast]
      exact Nat.succ_le_succ (Nat.zero_le _)
    · have hlt := value.toNat_lt
      rw [vbyteEncode_more (by omega), List.length_cons]
      apply Nat.succ_le_succ
      apply ih
      rw [UInt64.toNat_ofNat', Nat.mod_eq_of_lt (by omega), Nat.div_lt_iff_lt_mul (by decide)]
      exact h.trans_eq (pow_add 2 (7 * (k + 1)) 7)

theorem lt_length_vbyteEncode {j : Nat} {value : UInt64} (h : j = 0 ∨ 2 ^ (7 * j) ≤ value.toNat) :
    j < (vbyteEncode value).length := by
  induction j generalizing value with
  | zero => exact length_vbyteEncode_pos value
  | succ j ih =>
    have hle : 2 ^ (7 * (j + 1)) ≤ value.toNat := h.resolve_left (Nat.succ_ne_zero j)
    have hpow : 2 ^ (7 * (j + 1)) = 2 ^ (7 * j) * 128 := pow_add 2 (7 * j) 7
    have hpos := Nat.two_pow_pos (7 * j)
    have hlt := value.toNat_lt
    rw [vbyteEncode_more (by omega), List.length_cons]
    apply Nat.succ_lt_succ
    apply ih
    rw [UInt64.toNat_ofNat', Nat.mod_eq_of_lt (by omega), Nat.le_div_iff_mul_le (by decide)]
    omega

/-! ## Reading them back -/

theorem nibble_group {group more : Nat} (h : group < 128) (hm : more = 0 ∨ more = 128) :
    (UInt8.ofNat (group + more) &&& 0x7F).toNat = group := by
  have hand : (UInt8.ofNat (group + more)).toNat &&& 127 = (UInt8.ofNat (group + more)).toNat % 128 :=
    Nat.and_two_pow_sub_one_eq_mod _ 7
  rw [UInt8.toNat_and]
  refine hand.trans ?_
  rw [UInt8.toNat_ofNat']
  omega

theorem vbyteDecodeLoop_more {group shift : Nat} (h : group < 128) (output : List UInt8) (value : UInt64)
    (nbytes : Nat) :
    vbyteDecodeLoop (UInt8.ofNat (group + 128) :: output) shift value nbytes =
      (shiftedGroup group shift).bind fun g => vbyteDecodeLoop output (shift + 7) (value ||| g) (nbytes + 1) := by
  have hge : ¬ UInt8.ofNat (group + 128) < 0x80 := by
    rw [UInt8.lt_iff_toNat_lt, UInt8.toNat_ofNat']
    exact Nat.not_lt.mpr (show 128 ≤ (group + 128) % 256 by omega)
  simp only [vbyteDecodeLoop, nibble_group h (Or.inr rfl), if_neg hge]
  rfl

theorem vbyteDecodeLoop_last {group shift : Nat} (h : group < 128) (output : List UInt8) (value : UInt64)
    (nbytes : Nat) :
    vbyteDecodeLoop (UInt8.ofNat group :: output) shift value nbytes =
      (shiftedGroup group shift).map fun g => (value ||| g, nbytes + 1) := by
  have hlt : UInt8.ofNat group < 0x80 := by
    rw [UInt8.lt_iff_toNat_lt, UInt8.toNat_ofNat']
    exact show group % 256 < 128 by omega
  have hgroup : (UInt8.ofNat group &&& 0x7F).toNat = group := nibble_group h (Or.inl rfl)
  simp only [vbyteDecodeLoop, hgroup, if_pos hlt]
  cases shiftedGroup group shift <;> rfl

/-- A group that fits into an `int` without its sign. -/
theorem shiftedGroup_of_lt {group shift : Nat} (hs : shift < 32) (h : group * 2 ^ shift < 2 ^ 31) :
    shiftedGroup group shift = some (UInt64.ofNat (group * 2 ^ shift)) := by
  rw [shiftedGroup, if_pos ⟨hs, by omega⟩, intToSize, if_pos h]

/-- A negative `int` is a huge `size_t`. -/
theorem le_toNat_intToSize {bits : Nat} (h : 2 ^ 31 ≤ bits) (hlt : bits < 2 ^ 32) :
    2 ^ 63 ≤ (intToSize bits).toNat := by
  obtain ⟨n, rfl⟩ := Nat.exists_eq_add_of_le h
  rw [intToSize, if_neg (by omega), UInt64.toNat_ofNat']
  omega

/-- The number read so far, and the next group. -/
theorem toNat_or_group {low group shift : Nat} (hlow : low < 2 ^ shift) (h : group * 2 ^ shift < 2 ^ 31)
    (hs : shift < 32) :
    UInt64.ofNat low ||| UInt64.ofNat (group * 2 ^ shift) = UInt64.ofNat (low + 2 ^ shift * group) := by
  have hpow : 2 ^ shift ≤ 2 ^ 31 := Nat.pow_le_pow_right (by decide) (by omega)
  have hmul := Nat.mul_comm (2 ^ shift) group
  rw [← UInt64.toNat_inj, UInt64.toNat_or, UInt64.toNat_ofNat', UInt64.toNat_ofNat', UInt64.toNat_ofNat',
    Nat.mod_eq_of_lt (by omega), Nat.mod_eq_of_lt (by omega), Nat.mod_eq_of_lt (by omega), shiftLeft_or hlow]

/-- Behind `j` groups of seven bits. -/
theorem vbyteDecode_groups (value : UInt64) (rest : List UInt8) {j : Nat} (hj : j ≤ 4)
    (hvalue : j = 0 ∨ 2 ^ (7 * j) ≤ value.toNat) :
    vbyteDecode (vbyteEncode value ++ rest) =
      vbyteDecodeLoop (vbyteEncode (UInt64.ofNat (value.toNat / 2 ^ (7 * j))) ++ rest) (7 * j)
        (UInt64.ofNat (value.toNat % 2 ^ (7 * j))) j := by
  induction j with
  | zero => simp [vbyteDecode, Nat.mod_one]
  | succ j ih =>
    have hle : 2 ^ (7 * (j + 1)) ≤ value.toNat := hvalue.resolve_left (Nat.succ_ne_zero j)
    have hpow : 2 ^ (7 * (j + 1)) = 2 ^ (7 * j) * 128 := pow_add 2 (7 * j) 7
    have hpos := Nat.two_pow_pos (7 * j)
    have hsmall : 2 ^ (7 * j) ≤ 2 ^ 21 := Nat.pow_le_pow_right (by decide) (by omega)
    have hu : 128 ≤ value.toNat / 2 ^ (7 * j) := by
      rw [Nat.le_div_iff_mul_le hpos]
      omega
    have hval : (UInt64.ofNat (value.toNat / 2 ^ (7 * j))).toNat = value.toNat / 2 ^ (7 * j) := by
      rw [UInt64.toNat_ofNat']
      exact Nat.mod_eq_of_lt ((Nat.div_le_self _ _).trans_lt value.toNat_lt)
    have hgroup : value.toNat / 2 ^ (7 * j) % 128 * 2 ^ (7 * j) < 2 ^ 31 :=
      (Nat.mul_le_mul_left _ hsmall).trans_lt (by omega)
    have hmod := Nat.mod_lt (value.toNat / 2 ^ (7 * j)) (show 128 > 0 by decide)
    rw [ih (by omega) (Or.inr (by omega)), vbyteEncode_more (by rw [hval]; exact hu), hval, List.cons_append,
      vbyteDecodeLoop_more hmod, shiftedGroup_of_lt (by omega) hgroup, Option.bind_some,
      toNat_or_group (Nat.mod_lt _ hpos) hgroup (by omega), Nat.div_div_eq_div_mul, hpow, Nat.mod_mul]
    rfl

/-- The last group of a number of `j + 1` groups. -/
theorem vbyteDecode_last {value : UInt64} (rest : List UInt8) {j : Nat} (hj : j ≤ 4)
    (hvalue : j = 0 ∨ 2 ^ (7 * j) ≤ value.toNat) (hlt : value.toNat < 2 ^ (7 * (j + 1))) :
    vbyteDecode (vbyteEncode value ++ rest) =
      (shiftedGroup (value.toNat / 2 ^ (7 * j)) (7 * j)).map fun g =>
        (UInt64.ofNat (value.toNat % 2 ^ (7 * j)) ||| g, j + 1) := by
  have hpow : 2 ^ (7 * (j + 1)) = 128 * 2 ^ (7 * j) := (pow_add 2 (7 * j) 7).trans (Nat.mul_comm _ _)
  have hu : value.toNat / 2 ^ (7 * j) < 128 := by
    rw [Nat.div_lt_iff_lt_mul (Nat.two_pow_pos _)]
    omega
  have hval : (UInt64.ofNat (value.toNat / 2 ^ (7 * j))).toNat = value.toNat / 2 ^ (7 * j) := by
    rw [UInt64.toNat_ofNat', Nat.mod_eq_of_lt (hu.trans (by decide))]
  rw [vbyteDecode_groups value rest hj hvalue, vbyteEncode_last (by rw [hval]; exact hu), hval,
    List.singleton_append, vbyteDecodeLoop_last hu]

/-- A number below `2 ^ 31`. -/
theorem vbyteDecode_of_lt {value : UInt64} (h : value.toNat < 2 ^ 31) (rest : List UInt8) :
    vbyteDecode (vbyteEncode value ++ rest) = some (value, (vbyteEncode value).length) := by
  obtain ⟨j, hj, hvalue, hlt⟩ : ∃ j ≤ 4, (j = 0 ∨ 2 ^ (7 * j) ≤ value.toNat) ∧ value.toNat < 2 ^ (7 * (j + 1)) := by
    by_cases h₁ : value.toNat < 2 ^ 7
    · exact ⟨0, by omega, Or.inl rfl, h₁⟩
    by_cases h₂ : value.toNat < 2 ^ 14
    · exact ⟨1, by omega, Or.inr (not_lt.mp h₁), h₂⟩
    by_cases h₃ : value.toNat < 2 ^ 21
    · exact ⟨2, by omega, Or.inr (not_lt.mp h₂), h₃⟩
    by_cases h₄ : value.toNat < 2 ^ 28
    · exact ⟨3, by omega, Or.inr (not_lt.mp h₃), h₄⟩
    · exact ⟨4, le_rfl, Or.inr (not_lt.mp h₄), h.trans (by decide)⟩
  have hlen : (vbyteEncode value).length = j + 1 :=
    le_antisymm (length_vbyteEncode_le hlt) (lt_length_vbyteEncode hvalue)
  have hdm := Nat.div_add_mod value.toNat (2 ^ (7 * j))
  have hgroup : value.toNat / 2 ^ (7 * j) * 2 ^ (7 * j) < 2 ^ 31 := (Nat.div_mul_le_self _ _).trans_lt h
  rw [vbyteDecode_last rest hj hvalue hlt, shiftedGroup_of_lt (by omega) hgroup, Option.map_some,
    toNat_or_group (Nat.mod_lt _ (Nat.two_pow_pos _)) hgroup (by omega), hlen, Nat.add_comm, hdm, UInt64.ofNat_toNat]

theorem vbyteDecodeLoop_of_shift {shift : Nat} (h : 32 ≤ shift) (output : List UInt8) (value : UInt64)
    (nbytes : Nat) : vbyteDecodeLoop output shift value nbytes = none := by
  cases output with
  | nil => rfl
  | cons nibble output => simp [vbyteDecodeLoop, shiftedGroup, Nat.not_lt.mpr h]

/-- From `2 ^ 31` on the group at shift 28 does not fit into an `int`, or one at shift 35 follows. -/
theorem vbyteDecode_of_ge {value : UInt64} (h : 2 ^ 31 ≤ value.toNat) (rest : List UInt8) {v : UInt64} {nbytes : Nat}
    (hrun : vbyteDecode (vbyteEncode value ++ rest) = some (v, nbytes)) : v ≠ value := by
  by_cases hlast : value.toNat < 2 ^ 35
  · -- five groups: the sign bit of the last is extended
    rw [vbyteDecode_last rest le_rfl (Or.inr (by omega)) hlast, Option.map_eq_some_iff] at hrun
    obtain ⟨g, hg, hv⟩ := hrun
    obtain ⟨⟨-, hfit⟩, hg⟩ := Option.ite_none_right_eq_some.mp hg
    obtain ⟨rfl, -⟩ := Prod.mk.inj hv
    rw [Option.some.injEq] at hg
    subst hg
    have hsign := le_toNat_intToSize (by omega) hfit
    have hright := @Nat.right_le_or (UInt64.ofNat (value.toNat % 2 ^ (7 * 4))).toNat
      (intToSize (value.toNat / 2 ^ (7 * 4) * 2 ^ (7 * 4))).toNat
    intro he
    rw [← UInt64.toNat_or, he] at hright
    omega
  · -- a sixth group is shifted by 35
    have hmod := Nat.mod_lt (UInt64.ofNat (value.toNat / 2 ^ (7 * 4))).toNat (show 128 > 0 by decide)
    have hlt := value.toNat_lt
    rw [vbyteDecode_groups value rest le_rfl (Or.inr (by omega)),
      vbyteEncode_more (by rw [UInt64.toNat_ofNat']; omega), List.cons_append, vbyteDecodeLoop_more hmod,
      Option.bind_eq_some_iff] at hrun
    obtain ⟨g, -, hrun⟩ := hrun
    rw [vbyteDecodeLoop_of_shift (by omega)] at hrun
    cases hrun

/-- Numbers below `2 ^ 31` come back, with the number of bytes they took, and no others do. -/
theorem vbyte_roundtrip_iff (value : UInt64) (rest : List UInt8) :
    vbyteDecode (vbyteEncode value ++ rest) = some (value, (vbyteEncode value).length) ↔ value.toNat < 2 ^ 31 :=
  ⟨fun h => not_le.mp fun hge => vbyteDecode_of_ge hge rest h rfl, fun h => vbyteDecode_of_lt h rest⟩

end SgxOram.Simple9
