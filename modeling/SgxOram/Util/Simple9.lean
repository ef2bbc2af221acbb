import SgxOram.Util.VByte

/-!
# Simple9 (`Util/Simple9.cpp`)

An array is written as its length (`vbyteEncode`) and words of 32 bits. The low 4 bits of a word select how
many items of how many bits its other 28 bits hold.

* `simple9Encode` : the greedy encoder, `simple9Decode`, `simple9DecodeUnrolled` : the two decoders;
* `wordItems` : what a word stands for;
* `packItems_spec`, `unpackItems_eq`, `unrolledItems_eq` : one word in each of the three functions.

Bytes are given from `output` on. In the decoders `none` is undefined behaviour (a read past the bytes, a
selector past the table) or, in `simple9Decode`, the failing assert after `malloc`.
-/

namespace SgxOram.Simple9
open Lib

structure Selector where
  nitems : Nat
  nbits : Nat
  nwaste : Nat
deriving DecidableEq

def selectors : List Selector :=
  [⟨28, 1, 0⟩, ⟨14, 2, 0⟩, ⟨9, 3, 1⟩, ⟨7, 4, 0⟩, ⟨5, 5, 3⟩, ⟨4, 7, 0⟩, ⟨3, 9, 1⟩, ⟨2, 14, 0⟩, ⟨1, 28, 0⟩]

def selectorBits : Nat := 4

def codeBits : Nat := 32 - selectorBits

def maxValue : Nat := 2 ^ codeBits - 1

def selectorMask : UInt32 := 0xF

/-- The bytes of a `uint32_t` in memory. -/
def wordBytes (data : UInt32) : List UInt8 := (unpack 8 4 data.toNat).map UInt8.ofNat

/-- A `uint32_t` read from memory. -/
def wordOfBytes (bytes : List UInt8) : UInt32 := UInt32.ofNat (Nat.ofDigits (2 ^ 8) (bytes.map UInt8.toNat))

/-! ## Encoding -/

/-- Why the encoder has not returned: a failing assert, or it still runs. -/
inductive Stop
  | assertion
  | fuel
deriving DecidableEq

/-- `for (i = index; i < n; i++)` over the items from `index` on: `data` and `nitems`. -/
def packItems (s : Selector) : List UInt32 → UInt32 → UInt32 → Nat → Except Stop (UInt32 × Nat)
  | [], data, _, nitems => .ok (data, nitems)
  | x :: items, data, shift, nitems =>
    if maxValue < x.toNat then .error .assertion
    else if nitems = s.nitems then .ok (data, nitems)
    else if 2 ^ s.nbits - 1 < x.toNat then .ok (data, nitems)
    else packItems s items (data ||| x <<< shift) (shift + UInt32.ofNat s.nbits) (nitems + 1)

/-- `for (selector = 0; ...)` from the given selectors on; `none` if all of them have been tried. -/
def selectWord (array : List UInt32) (index : UInt32) : List (Selector × Nat) → Except Stop (Option (UInt32 × Nat))
  | [] => .ok none
  | (s, selector) :: more => do
    let (data, nitems) ←
      packItems s (array.drop index.toNat) (UInt32.ofNat selector) (UInt32.ofNat selectorBits) 0
    if nitems = s.nitems ∨ index.toNat + nitems = array.length then return some (data, nitems)
    else selectWord array index more

/-- `while (index < n)`. The 32 bits of `index` can wrap around. -/
def encodeLoop (array : List UInt32) : Nat → UInt32 → List UInt8 → Except Stop (List UInt8)
  | 0, _, _ => .error .fuel
  | fuel + 1, index, output =>
    if index.toNat < array.length then do
      match ← selectWord array index selectors.zipIdx with
      | some (data, nitems) => encodeLoop array fuel (index + UInt32.ofNat nitems) (output ++ wordBytes data)
      | none => encodeLoop array fuel index output
    else return output

/-- `simple9_encode` : the bytes written to `output`; the function returns their number. -/
def simple9Encode (fuel : Nat) (array : List UInt32) : Except Stop (List UInt8) :=
  if array.length > 0 then encodeLoop array fuel 0 (vbyteEncode (UInt64.ofNat array.length))
  else .error .assertion

/-! ## Decoding -/

/-- The entries written to `*array`, `*n` and the number of bytes read. -/
structure Decoded where
  array : List UInt32
  n : Nat
  nbytes : Nat
deriving DecidableEq

/-- `for (i = 0; i < selectors[select].nitems; i++)`, with the passes that are left and the entries
`(*array)[0]`, .., `(*array)[nitems - 1]`. -/
def unpackItems (s : Selector) (n : Nat) : Nat → UInt32 → List UInt32 → List UInt32
  | 0, _, array => array
  | passes + 1, data, array =>
    let mask : UInt32 := 1 <<< UInt32.ofNat s.nbits - 1
    let array := array ++ [data &&& mask]
    if array.length = n then array else unpackItems s n passes (data >>> UInt32.ofNat s.nbits) array

/-- `while (nitems < *n)` over the bytes from `output + nbytes` on. -/
def decodeLoop (n : Nat) : List UInt8 → List UInt32 → Nat → Option Decoded
  | b₀ :: b₁ :: b₂ :: b₃ :: output, array, nbytes =>
    if array.length < n then do
      let data := wordOfBytes [b₀, b₁, b₂, b₃]
      let s ← selectors[(data &&& selectorMask).toNat]?
      decodeLoop n output (unpackItems s n s.nitems (data >>> UInt32.ofNat selectorBits) array) (nbytes + 4)
    else return ⟨array, n, nbytes⟩
  | _, array, nbytes => if array.length < n then none else some ⟨array, n, nbytes⟩

/-- `simple9_decode`; `malloc` says which sizes are granted. -/
def simple9Decode (malloc : Nat → Bool) (output : List UInt8) : Option Decoded := do
  let (n, nbytes) ← vbyteDecode output
  if malloc (n.toNat * 4 % 2 ^ 64) then decodeLoop n.toNat (output.drop nbytes) [] nbytes else none

/-- The `switch` of the unrolled decoder: the entries that one word adds at `ptr`. -/
def unrolledItems (select : Nat) (data : UInt32) : List UInt32 :=
  match select with
  | 0 => [0, 1, 2, 3, 4, 5, 6, 7, 8, 9, 10, 11, 12, 13, 14, 15, 16, 17, 18, 19, 20, 21, 22, 23, 24, 25, 26, 27].map
      fun shift => (data >>> UInt32.ofNat shift) &&& 1
  | 1 => [0, 2, 4, 6, 8, 10, 12, 14, 16, 18, 20, 22, 24, 26].map fun shift => (data >>> UInt32.ofNat shift) &&& 3
  | 2 => [0, 3, 6, 9, 12, 15, 18, 21, 24].map fun shift => (data >>> UInt32.ofNat shift) &&& 7
  | 3 => [0, 4, 8, 12, 16, 20, 24].map fun shift => (data >>> UInt32.ofNat shift) &&& 15
  | 4 => [0, 5, 10, 15, 20].map fun shift => (data >>> UInt32.ofNat shift) &&& 31
  | 5 => [0, 7, 14, 21].map fun shift => (data >>> UInt32.ofNat shift) &&& 127
  | 6 => [0, 9, 18].map fun shift => (data >>> UInt32.ofNat shift) &&& 511
  | 7 => [0, 14].map fun shift => (data >>> UInt32.ofNat shift) &&& 16383
  | 8 => [data]
  | _ => []

def decodeUnrolledLoop (n : Nat) : List UInt8 → List UInt32 → Nat → Option Decoded
  | b₀ :: b₁ :: b₂ :: b₃ :: output, ptr, nbytes =>
    if ptr.length < n then
      let data := wordOfBytes [b₀, b₁, b₂, b₃]
      let select := (data &&& selectorMask).toNat
      decodeUnrolledLoop n output (ptr ++ unrolledItems select (data >>> UInt32.ofNat selectorBits)) (nbytes + 4)
    else some ⟨ptr, n, nbytes⟩
  | _, ptr, nbytes => if ptr.length < n then none else some ⟨ptr, n, nbytes⟩

/-- `simple9_decode_unrolled` : all entries written from `*array` on, those past `*n` included. -/
def simple9DecodeUnrolled (output : List UInt8) : Option Decoded := do
  let (n, nbytes) ← vbyteDecode output
  decodeUnrolledLoop n.toNat (output.drop nbytes) [] nbytes

/-- The entries behind `*array` after `new uint32_t((*n + selectors[0].nitems - 1) * sizeof **array)` : the
parentheses give one entry its value, they do not count entries. -/
def unrolledCapacity : Nat := 1

/-! ## The table -/

/-- What holds of every selector. -/
structure Selector.Wf (s : Selector) : Prop where
  nitems_pos : 0 < s.nitems
  nbits_pos : 0 < s.nbits
  bits : s.nitems * s.nbits + s.nwaste = codeBits
  nitems_le : s.nitems ≤ 28

theorem selectors_wf : ∀ s ∈ selectors, s.Wf := by
  simp only [selectors, List.forall_mem_cons]
  refine ⟨?_, ?_, ?_, ?_, ?_, ?_, ?_, ?_, ?_, fun _ h => absurd h List.not_mem_nil⟩ <;>
    exact ⟨by decide, by decide, by decide, by decide⟩

theorem Selector.Wf.bits_le {s : Selector} (h : s.Wf) {m : Nat} (hm : m ≤ s.nitems) : m * s.nbits ≤ 28 := by
  have := Nat.mul_le_mul_right s.nbits hm
  have hbits : s.nitems * s.nbits + s.nwaste = 28 := h.bits
  omega

theorem Selector.Wf.nbits_le {s : Selector} (h : s.Wf) : s.nbits ≤ 28 := by
  have := h.bits_le (m := 1) h.nitems_pos
  omega

/-- Earlier selectors take more items. -/
theorem selectors_nitems_anti {j k : Nat} {s t : Selector} (hs : selectors[j]? = some s) (ht : selectors[k]? = some t)
    (hjk : j ≤ k) : t.nitems ≤ s.nitems := by
  have hsorted : (selectors.map Selector.nitems).Pairwise (· > ·) := by decide
  obtain ⟨hj, rfl⟩ := List.getElem?_eq_some_iff.mp hs
  obtain ⟨hk, rfl⟩ := List.getElem?_eq_some_iff.mp ht
  rcases hjk.eq_or_lt with rfl | hlt
  · exact le_rfl
  · have := List.pairwise_iff_getElem.mp hsorted j k (by simpa using hj) (by simpa using hk) hlt
    simp only [List.getElem_map] at this
    exact this.le

/-! ## Words -/

/-- The word of selector `k` that holds the items `seg`. -/
def packedWord (k : Nat) (s : Selector) (seg : List UInt32) : Nat :=
  k + 2 ^ selectorBits * Nat.ofDigits (2 ^ s.nbits) (seg.map UInt32.toNat)

/-- The items a word stands for. -/
def wordItems (data : UInt32) : Option (List UInt32) :=
  selectors[data.toNat % 2 ^ selectorBits]?.map fun s =>
    (unpack s.nbits s.nitems (data.toNat / 2 ^ selectorBits)).map UInt32.ofNat

theorem wordOfBytes_wordBytes (data : UInt32) : wordOfBytes (wordBytes data) = data := by
  have hbytes : ((unpack 8 4 data.toNat).map UInt8.ofNat).map UInt8.toNat = unpack 8 4 data.toNat := by
    rw [List.map_map]
    refine (List.map_congr_left fun x hx => ?_).trans (List.map_id _)
    exact (UInt8.toNat_ofNat').trans (Nat.mod_eq_of_lt (lt_of_mem_unpack hx))
  rw [wordOfBytes, wordBytes, hbytes, ofDigits_unpack, Nat.mod_eq_of_lt data.toNat_lt, UInt32.ofNat_toNat]

theorem wordItems_packedWord {k : Nat} {s : Selector} (hk : selectors[k]? = some s) {seg : List UInt32}
    (hseg : ∀ x ∈ seg, x.toNat < 2 ^ s.nbits) (hlen : seg.length ≤ s.nitems) {data : UInt32}
    (hdata : data.toNat = packedWord k s seg) :
    wordItems data = some (seg ++ List.replicate (s.nitems - seg.length) 0) := by
  have hk9 : k < 9 := (List.getElem?_eq_some_iff.mp hk).1
  have hselect : data.toNat % 2 ^ selectorBits = k := by
    rw [hdata, packedWord, Nat.add_mul_mod_self_left]
    exact Nat.mod_eq_of_lt (hk9.trans (by decide))
  have hdigits : data.toNat / 2 ^ selectorBits = Nat.ofDigits (2 ^ s.nbits) (seg.map UInt32.toNat) := by
    rw [hdata, packedWord, Nat.add_mul_div_left _ _ (Nat.two_pow_pos _), Nat.div_eq_of_lt (hk9.trans (by decide)),
      Nat.zero_add]
  have hitems : ∀ x ∈ seg.map UInt32.toNat, x < 2 ^ s.nbits := by
    intro x hx
    obtain ⟨y, hy, rfl⟩ := List.mem_map.mp hx
    exact hseg y hy
  have hback : (seg.map UInt32.toNat).map UInt32.ofNat = seg := by
    rw [List.map_map]
    exact (List.map_congr_left fun x _ => UInt32.ofNat_toNat).trans (List.map_id _)
  rw [wordItems, hselect, hk, Option.map_some, hdigits, unpack_ofDigits hitems (by rwa [List.length_map]),
    List.map_append, List.map_replicate, hback, List.length_map]
  rfl

/-! ## One word in the encoder -/

/-- The items that a selector packs into a word, of `room` items at most. -/
def run (s : Selector) (items : List UInt32) (room : Nat) : List UInt32 :=
  (items.takeWhile fun x => x.toNat ≤ 2 ^ s.nbits - 1).take room

theorem run_isPrefix (s : Selector) (items : List UInt32) (room : Nat) : run s items room <+: items := by
  have htake := List.take_prefix room (items.takeWhile fun x => x.toNat ≤ 2 ^ s.nbits - 1)
  refine htake.trans ?_
  exact List.takeWhile_prefix _

theorem lt_of_mem_run {s : Selector} {items : List UInt32} {room : Nat} {x : UInt32} (hx : x ∈ run s items room) :
    x.toNat < 2 ^ s.nbits := by
  rw [run] at hx
  have hle := List.mem_takeWhile_imp (List.mem_of_mem_take hx)
  rw [decide_eq_true_eq] at hle
  have := Nat.two_pow_pos s.nbits
  omega

theorem length_run_le (s : Selector) (items : List UInt32) (room : Nat) : (run s items room).length ≤ room :=
  List.length_take_le _ _

theorem run_cons {s : Selector} {x : UInt32} (hx : x.toNat < 2 ^ s.nbits) (items : List UInt32) (room : Nat) :
    run s (x :: items) (room + 1) = x :: run s items room := by
  rw [run, List.takeWhile_cons_of_pos (by simp; omega), List.take_succ_cons, run]

/-- An item is or-ed into the bits above the fields already set. -/
theorem toNat_or_item {x data shift : UInt32} {nbits : Nat} (hx : x.toNat < 2 ^ nbits)
    (hdata : data.toNat < 2 ^ shift.toNat) (hfit : shift.toNat + nbits ≤ 32) (hnbits : 0 < nbits) :
    (data ||| x <<< shift).toNat = data.toNat + 2 ^ shift.toNat * x.toNat ∧
      data.toNat + 2 ^ shift.toNat * x.toNat < 2 ^ (shift.toNat + nbits) := by
  have hlt : data.toNat + 2 ^ shift.toNat * x.toNat < 2 ^ (shift.toNat + nbits) := by
    have hmul := Nat.mul_le_mul_left (2 ^ shift.toNat) (Nat.succ_le_of_lt hx)
    rw [Nat.mul_succ] at hmul
    rw [pow_add]
    omega
  have hshl : (x <<< shift).toNat = x.toNat * 2 ^ shift.toNat := by
    have hpow : 2 ^ (shift.toNat + nbits) ≤ 2 ^ 32 := Nat.pow_le_pow_right (by decide) hfit
    rw [UInt32.toNat_shiftLeft, Nat.mod_eq_of_lt (show shift.toNat < 32 by omega), Nat.shiftLeft_eq]
    apply Nat.mod_eq_of_lt
    rw [Nat.mul_comm]
    omega
  rw [UInt32.toNat_or, hshl, shiftLeft_or hdata]
  exact ⟨rfl, hlt⟩

/-- The items that fit are packed behind the fields already set. -/
theorem packItems_spec {s : Selector} (hs : s.Wf) {items : List UInt32} {data shift : UInt32} {nitems : Nat}
    (hle : nitems ≤ s.nitems) (hshift : shift.toNat = selectorBits + nitems * s.nbits)
    (hdata : data.toNat < 2 ^ shift.toNat) {data' : UInt32} {nitems' : Nat}
    (hrun : packItems s items data shift nitems = .ok (data', nitems')) :
    nitems' = nitems + (run s items (s.nitems - nitems)).length ∧
      data'.toNat = data.toNat +
        2 ^ shift.toNat * Nat.ofDigits (2 ^ s.nbits) ((run s items (s.nitems - nitems)).map UInt32.toNat) := by
  induction items generalizing data shift nitems with
  | nil =>
    obtain ⟨rfl, rfl⟩ := Prod.mk.inj (Except.ok.inj hrun)
    simp [run]
  | cons x items ih =>
    rw [packItems] at hrun
    by_cases hmax : maxValue < x.toNat
    · rw [if_pos hmax] at hrun
      cases hrun
    rw [if_neg hmax] at hrun
    by_cases hfull : nitems = s.nitems
    · rw [if_pos hfull] at hrun
      obtain ⟨rfl, rfl⟩ := Prod.mk.inj (Except.ok.inj hrun)
      simp [run, hfull]
    rw [if_neg hfull] at hrun
    by_cases hbig : 2 ^ s.nbits - 1 < x.toNat
    · rw [if_pos hbig] at hrun
      obtain ⟨rfl, rfl⟩ := Prod.mk.inj (Except.ok.inj hrun)
      simp [run, Nat.not_le.mpr hbig]
    rw [if_neg hbig] at hrun
    have hx : x.toNat < 2 ^ s.nbits := by
      have := Nat.two_pow_pos s.nbits
      omega
    have hbits : (nitems + 1) * s.nbits ≤ 28 := hs.bits_le (by omega)
    rw [Nat.succ_mul] at hbits
    have hfit : shift.toNat + s.nbits ≤ 32 := by
      rw [hshift, selectorBits]
      omega
    have hshift' : (shift + UInt32.ofNat s.nbits).toNat = shift.toNat + s.nbits := by
      rw [UInt32.toNat_add, UInt32.toNat_ofNat']
      omega
    obtain ⟨hor, hlt⟩ := toNat_or_item hx hdata hfit hs.nbits_pos
    obtain ⟨hn, hd⟩ := ih (by omega) (by rw [hshift', hshift, Nat.succ_mul, Nat.add_assoc])
      (by rw [hor, hshift']; exact hlt) hrun
    obtain ⟨room, hroom⟩ : ∃ room, s.nitems - nitems = room + 1 := ⟨s.nitems - nitems - 1, by omega⟩
    have hroom' : s.nitems - (nitems + 1) = room := by omega
    rw [hroom'] at hn hd
    rw [hroom, run_cons hx, List.length_cons, List.map_cons, Nat.ofDigits_cons]
    refine ⟨by omega, ?_⟩
    rw [hd, hor, hshift', pow_add, Nat.mul_add, Nat.add_assoc, Nat.mul_assoc]

theorem packItems_completes (s : Selector) {items : List UInt32} (h : ∀ x ∈ items, x.toNat ≤ maxValue)
    (data shift : UInt32) (nitems : Nat) : ∃ r, packItems s items data shift nitems = .ok r := by
  induction items generalizing data shift nitems with
  | nil => exact ⟨_, rfl⟩
  | cons x items ih =>
    rw [List.forall_mem_cons] at h
    rw [packItems, if_neg (Nat.not_lt.mpr h.1)]
    split
    · exact ⟨_, rfl⟩
    split
    · exact ⟨_, rfl⟩
    · exact ih h.2 _ _ _

/-! ## One word in the decoders -/

theorem toNat_shiftRight {shift : Nat} (hs : shift < 32) (data : UInt32) :
    (data >>> UInt32.ofNat shift).toNat = data.toNat / 2 ^ shift := by
  rw [UInt32.toNat_shiftRight, UInt32.toNat_ofNat', Nat.mod_eq_of_lt (show shift < 2 ^ 32 by omega),
    Nat.mod_eq_of_lt hs, Nat.shiftRight_eq_div_pow]

/-- `(1 << nbits) - 1` -/
theorem toNat_mask {nbits : Nat} (hb : nbits < 32) :
    ((1 : UInt32) <<< UInt32.ofNat nbits - 1).toNat = 2 ^ nbits - 1 := by
  have hpow : 2 ^ nbits < 2 ^ 32 := Nat.pow_lt_pow_right (by decide) hb
  have hone : ((1 : UInt32) <<< UInt32.ofNat nbits).toNat = 2 ^ nbits := by
    rw [UInt32.toNat_shiftLeft, UInt32.toNat_ofNat', Nat.mod_eq_of_lt (show nbits < 2 ^ 32 by omega),
      Nat.mod_eq_of_lt hb, Nat.shiftLeft_eq, UInt32.toNat_one, Nat.one_mul, Nat.mod_eq_of_lt hpow]
  have hle : (1 : UInt32) ≤ 1 <<< UInt32.ofNat nbits := by
    rw [UInt32.le_iff_toNat_le, hone]
    exact Nat.one_le_two_pow
  rw [UInt32.toNat_sub_of_le _ _ hle, hone, UInt32.toNat_one]

/-- A field is masked out. -/
theorem and_mask {nbits : Nat} (hb : nbits < 32) (data : UInt32) :
    data &&& ((1 : UInt32) <<< UInt32.ofNat nbits - 1) = UInt32.ofNat (data.toNat % 2 ^ nbits) := by
  have hlt : data.toNat % 2 ^ nbits < 2 ^ 32 := (Nat.mod_le _ _).trans_lt data.toNat_lt
  rw [← UInt32.toNat_inj, UInt32.toNat_and, toNat_mask hb, Nat.and_two_pow_sub_one_eq_mod, UInt32.toNat_ofNat',
    Nat.mod_eq_of_lt hlt]

/-- The items of a word, up to the end of the array. -/
theorem unpackItems_eq {s : Selector} (hs : s.Wf) {n passes : Nat} {data : UInt32} {array : List UInt32}
    (hlt : array.length < n) :
    unpackItems s n passes data array =
      array ++ ((unpack s.nbits passes data.toNat).map UInt32.ofNat).take (n - array.length) := by
  have hb : s.nbits < 32 := by
    have := hs.nbits_le
    omega
  induction passes generalizing data array with
  | zero => simp [unpackItems, unpack]
  | succ passes ih =>
    obtain ⟨room, hroom⟩ : ∃ room, n - array.length = room + 1 := ⟨n - array.length - 1, by omega⟩
    rw [unpackItems, and_mask hb, unpack, List.map_cons, hroom, List.take_succ_cons]
    by_cases hend : (array ++ [UInt32.ofNat (data.toNat % 2 ^ s.nbits)]).length = n
    · obtain rfl : room = 0 := by
        rw [List.length_append, List.length_singleton] at hend
        omega
      rw [if_pos hend, List.take_zero]
    · rw [if_neg hend]
      rw [List.length_append, List.length_singleton] at hend
      have hlen : n - (array ++ [UInt32.ofNat (data.toNat % 2 ^ s.nbits)]).length = room := by
        rw [List.length_append, List.length_singleton]
        omega
      rw [ih (by rw [List.length_append, List.length_singleton]; omega), hlen, toNat_shiftRight hb, List.append_assoc,
        List.singleton_append]

/-- Fields at multiples of their width. -/
theorem fields_eq_unpack (nbits nitems : Nat) (hfit : nbits * nitems ≤ 28) {mask : UInt32} {shifts : List Nat}
    (hshifts : shifts = (List.range nitems).map (nbits * ·)) (hmask : mask = 1 <<< UInt32.ofNat nbits - 1)
    (data : UInt32) :
    (shifts.map fun shift => (data >>> UInt32.ofNat shift) &&& mask) =
      (unpack nbits nitems data.toNat).map UInt32.ofNat := by
  rw [hshifts, hmask, unpack_eq_map, List.map_map, List.map_map]
  refine List.map_congr_left fun i hi => ?_
  have hi : i < nitems := List.mem_range.mp hi
  have hb : nbits * i + nbits ≤ 28 := (Nat.mul_le_mul_left nbits hi).trans hfit
  simp only [Function.comp_apply]
  rw [and_mask (by omega), toNat_shiftRight (by omega)]

theorem unrolledItems_eq {k : Nat} {s : Selector} (hk : selectors[k]? = some s) {data : UInt32}
    (hdata : data.toNat < 2 ^ codeBits) :
    unrolledItems k data = (unpack s.nbits s.nitems data.toNat).map UInt32.ofNat := by
  have hk9 : k < 9 := (List.getElem?_eq_some_iff.mp hk).1
  interval_cases k <;> cases hk
  · exact fields_eq_unpack 1 28 (by decide) rfl rfl data
  · exact fields_eq_unpack 2 14 (by decide) rfl rfl data
  · exact fields_eq_unpack 3 9 (by decide) rfl rfl data
  · exact fields_eq_unpack 4 7 (by decide) rfl rfl data
  · exact fields_eq_unpack 5 5 (by decide) rfl rfl data
  · exact fields_eq_unpack 7 4 (by decide) rfl rfl data
  · exact fields_eq_unpack 9 3 (by decide) rfl rfl data
  · exact fields_eq_unpack 14 2 (by decide) rfl rfl data
  · -- the only item is not masked
    show [data] = [UInt32.ofNat (data.toNat % 2 ^ codeBits)]
    rw [Nat.mod_eq_of_lt hdata, UInt32.ofNat_toNat]

end SgxOram.Simple9
