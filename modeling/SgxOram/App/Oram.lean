import SgxOram.Conf
import SgxOram.Lib.Packing
import SgxOram.Lib.Runs

/-!
# What both ORAMs share (`App/ORAM.h`, helpers of `App/PathORAM.cpp` and `App/SimpleORAM.cpp`)

* `computeTreeHeight`, with `computeTreeHeight_le_iff`;
* `Request` : the arguments of an access, `exchangeBytes` : its copies between `fetched_block_` and the
  caller's buffer;
* `BlockSize` : the 64-bit block size of an object over the 32-bit one of its tree, `BlockSize.copies` : the
  copies with what earlier accesses left in `fetched_block_`;
* `Stop` : how a call ends that does not return;
* `pathBuffer`, `pathOfBuffer` : a position seen as bytes, which the recursive position map stores;
* `ArrayStore` : what an ORAM is for, an array of zero-initialised blocks;
* `keyOf` : the key of an entry; `Entries` : the blocks of a tree are the entries of an array.
-/

namespace SgxOram
open Lib

variable {bs : Nat}

/-! ## ComputeTreeHeight -/

def computeTreeHeight (cap : Nat) : Nat := if cap = 0 then 0 else computeTreeHeight (cap / 2) + 1

theorem computeTreeHeight_le_iff (cap h : Nat) : computeTreeHeight cap ≤ h ↔ cap < 2 ^ h := by
  induction h generalizing cap with
  | zero =>
    rw [computeTreeHeight]
    split <;> omega
  | succ h ih =>
    rw [computeTreeHeight, pow_succ]
    split
    · have := Nat.two_pow_pos h
      omega
    · rw [Nat.add_le_add_iff_right, ih]
      omega

theorem computeTreeHeight_mono {a b : Nat} (h : a ≤ b) : computeTreeHeight a ≤ computeTreeHeight b :=
  (computeTreeHeight_le_iff a _).mpr (h.trans_lt ((computeTreeHeight_le_iff b _).mp le_rfl))

theorem lt_two_pow_computeTreeHeight (cap : Nat) : cap < 2 ^ computeTreeHeight cap :=
  (computeTreeHeight_le_iff cap _).mp le_rfl

/-- The trees of objects without a recursive position map fit into the client's path. -/
theorem computeTreeHeight_lt_clientMaxPath {capacity : Nat} (h : capacity ≤ maxPosMap) :
    computeTreeHeight capacity < clientMaxPath := by
  have : computeTreeHeight capacity ≤ 17 :=
    (computeTreeHeight_le_iff capacity 17).mpr (lt_of_le_of_lt h (by decide))
  exact lt_of_le_of_lt this (by decide)

/-! ## Buffers -/

/-- Byte `j` of a block; an access outside the block, which C leaves undefined, reads zero. -/
def Block.byte (b : Block bs) (j : Nat) : UInt8 := if h : j < bs then b ⟨j, h⟩ else 0

theorem Block.byte_lt (b : Block bs) {j : Nat} (h : j < bs) : b.byte j = b ⟨j, h⟩ := dif_pos h

@[simp] theorem Block.byte_zeroBlock (j : Nat) : (zeroBlock bs).byte j = 0 := by
  simp [Block.byte, zeroBlock]

/-- The arguments `ind`, `block`, `write_size`, `write_offset` of an access. -/
structure Request where
  ind : Nat
  block : Buffer
  writeSize : Nat
  writeOffset : Nat

/-- `fetched_block_` and the caller's buffer after the `memcpy`s of an access. -/
structure Copied where
  fetchedBlock : Buffer
  block : Buffer

/-- The block that an ecall reads from `fetched_block_`. -/
def Copied.content (bs : Nat) (c : Copied) : Block bs := fun j => c.fetchedBlock j.val

/-- The `memcpy`s of an access: with `write_size > 0` the range of `fetched_block_` and the buffer change
places, otherwise `block_size_` bytes are copied out. -/
def exchangeBytes (blockSize : Nat) (fetchedBlock : Buffer) (req : Request) : Copied :=
  if req.writeSize > 0 then
    { fetchedBlock := fun j =>
        if req.writeOffset ≤ j ∧ j < req.writeOffset + req.writeSize then req.block (j - req.writeOffset)
        else fetchedBlock j
      block := fun j => if j < req.writeSize then fetchedBlock (req.writeOffset + j) else req.block j }
  else ⟨fetchedBlock, fun j => if j < blockSize then fetchedBlock j else req.block j⟩

/-! ## Block sizes -/

/-- `block_size_` of an object, a `uint64_t`. The object's tree and the ecalls have parameters of type
`uint32_t`, so their `block_size` is `bs`, the low 32 bits. -/
structure BlockSize (bs : Nat) where
  val : Nat
  lt : val < 2 ^ 64
  trunc : val % 2 ^ 32 = bs

/-- A block size that the truncation keeps. -/
def BlockSize.ofLt {bs : Nat} (h : bs < 2 ^ 32) : BlockSize bs :=
  ⟨bs, h.trans (by decide), Nat.mod_eq_of_lt h⟩

/-- Blocks of eight bytes. -/
abbrev BlockSize.eight : BlockSize 8 := .ofLt (by decide)

theorem BlockSize.eight_val : BlockSize.eight.val = 8 := rfl

theorem BlockSize.eq_of_lt (sz : BlockSize bs) (h : sz.val < 2 ^ 32) : sz.val = bs :=
  (Nat.mod_eq_of_lt h).symm.trans sz.trunc

theorem BlockSize.le_val (sz : BlockSize bs) : bs ≤ sz.val := sz.trunc.symm.le.trans (Nat.mod_le _ _)

theorem BlockSize.lt_val (sz : BlockSize bs) (h : 2 ^ 32 ≤ sz.val) : bs < sz.val :=
  sz.trunc.symm.le.trans_lt ((Nat.mod_lt _ (by decide)).trans_le h)

theorem BlockSize.usable (sz : BlockSize bs) (hbs : bs / sizeofBlockPath ≠ 0) :
    sz.val / sizeofBlockPath ≠ 0 ∧ bs ≠ 0 :=
  ⟨(Nat.div_le_div_right sz.le_val |> (Nat.pos_of_ne_zero hbs).trans_le).ne', by rintro rfl; exact hbs rfl⟩

/-- Truncated or not, the size has the same remainder modulo 8. -/
theorem BlockSize.mod_eight (sz : BlockSize bs) : bs % 8 = sz.val % 8 := by
  have := sz.trunc
  omega

/-- The bytes of `b` over those of `rest`. -/
def Block.over (b : Block bs) (rest : Buffer) : Buffer := fun j => if h : j < bs then b ⟨j, h⟩ else rest j

/-- The copies of an access whose fetch has written `f` to the first bytes of `fetched_block_`. -/
def BlockSize.copies (sz : BlockSize bs) (rest : Buffer) (f : Block bs) (req : Request) : Copied :=
  exchangeBytes sz.val (f.over rest) req

/-- The block `f` with the bytes of a request written into it. -/
def Block.written (f : Block bs) (req : Request) : Block bs := fun j =>
  if req.writeOffset ≤ j.val ∧ j.val < req.writeOffset + req.writeSize then req.block (j.val - req.writeOffset) else f j

/-- What an access puts back is a function of the block fetched and of the request. -/
@[simp] theorem BlockSize.copies_content (sz : BlockSize bs) (rest : Buffer) (f : Block bs) (req : Request) :
    (sz.copies rest f req).content bs = f.written req := by
  funext j
  unfold BlockSize.copies exchangeBytes Copied.content Block.written
  split
  · simp [Block.over]
  · rw [if_neg (by omega)]
    simp [Block.over]

theorem Block.written_byte (f : Block bs) (req : Request) {j : Nat} (hj : j < bs) :
    (f.written req).byte j =
      if req.writeOffset ≤ j ∧ j < req.writeOffset + req.writeSize then req.block (j - req.writeOffset)
      else f.byte j := by
  rw [Block.byte_lt _ hj, Block.byte_lt f hj, Block.written]

/-- What lies beyond the block is copied out as it was. -/
theorem BlockSize.copies_rest (sz : BlockSize bs) (rest : Buffer) (f : Block bs) {req : Request}
    (hread : req.writeSize = 0) {j : Nat} (hj : bs ≤ j) (hlt : j < sz.val) :
    (sz.copies rest f req).block j = rest j := by
  simp [BlockSize.copies, exchangeBytes, hread, hlt, Block.over, hj.not_gt]

/-! ## Positions as bytes -/

/-- The bytes of `*block_path`, little-endian. -/
def pathBuffer (p : BlockPath) : Buffer := fun j =>
  if j < sizeofBlockPath then UInt8.ofNat (p.toNat / 256 ^ j) else 0

/-- `*block_path` read back from its bytes. -/
def pathOfBuffer (b : Buffer) : BlockPath :=
  UInt32.ofNat ((b 0).toNat + 256 * (b 1).toNat + 65536 * (b 2).toNat + 16777216 * (b 3).toNat)

theorem pathOfBuffer_pathBuffer (p : BlockPath) : pathOfBuffer (pathBuffer p) = p := by
  have hp := p.toNat_lt
  rw [← UInt32.toNat_inj]
  simp [pathOfBuffer, pathBuffer, sizeofBlockPath]
  omega

theorem pathOfBuffer_congr {b d : Buffer} (h : ∀ j < sizeofBlockPath, b j = d j) :
    pathOfBuffer b = pathOfBuffer d := by
  simp only [sizeofBlockPath] at h
  simp [pathOfBuffer, h 0, h 1, h 2, h 3]

/-! ## Calls that do not return -/

/-- A failing assert, or a fault of the machine in the state given. -/
inductive Stop (σ : Type)
  | assert
  | fault (state : σ)

def Stop.map {σ τ : Type} (f : σ → τ) : Stop σ → Stop τ
  | .assert => .assert
  | .fault s => .fault (f s)

/-- Where a run is when it ends, unless an assert ends it. -/
def endState {σ : Type} : Except (Stop σ) σ → Option σ
  | .ok s => some s
  | .error (.fault s) => some s
  | .error .assert => none

/-- The result of a call whose `none` is a failing assert. -/
def orAssert {σ α : Type} : Option α → Except (Stop σ) α
  | some a => .ok a
  | none => .error .assert

@[simp] theorem orAssert_some {σ α : Type} (a : α) : orAssert (some a) = (.ok a : Except (Stop σ) α) := rfl

@[simp] theorem orAssert_none {σ α : Type} : orAssert none = (.error .assert : Except (Stop σ) α) := rfl

@[simp] theorem orAssert_toOption {σ α : Type} (o : Option α) : (orAssert o : Except (Stop σ) α).toOption = o := by
  cases o <;> rfl

/-- A call that does not fault. -/
theorem ends_orAssert {σ α : Type} {P : α → Prop} {o : Option α} :
    Ends P (fun e : Stop σ => e = .assert) (orAssert o) ↔ ∀ a, o = some a → P a := by
  cases o <;> simp

theorem foldlM_orAssert {σ α ι : Type} (f : α → ι → Option α) (l : List ι) (s : α) :
    l.foldlM (fun s i => (orAssert (f s i) : Except (Stop σ) α)) s = orAssert (l.foldlM f s) := by
  induction l generalizing s with
  | nil => rfl
  | cons i l ih =>
    rw [List.foldlM_cons, List.foldlM_cons]
    cases hi : f s i with
    | some t => exact ih t
    | none => rfl

/-! ## The array -/

/-- An array of blocks, byte by byte. -/
abbrev ArrayStore := Nat → Nat → UInt8

def ArrayStore.zero : ArrayStore := fun _ _ => 0

/-- The array after a request. -/
def ArrayStore.write (a : ArrayStore) (req : Request) : ArrayStore := fun ind j =>
  if ind = req.ind ∧ req.writeOffset ≤ j ∧ j < req.writeOffset + req.writeSize then
    req.block (j - req.writeOffset)
  else a ind j

/-- What a request copies out: the bytes it replaces, or with `write_size = 0` the whole block. The
rest of the caller's buffer stays. -/
def ArrayStore.copyOut (bs : Nat) (a : ArrayStore) (req : Request) : Buffer := fun j =>
  if req.writeSize > 0 then
    if j < req.writeSize then a req.ind (req.writeOffset + j) else req.block j
  else if j < bs then a req.ind j else req.block j

/-- What a run of requests copies out, request by request. -/
def ArrayStore.run (bs : Nat) (a : ArrayStore) : List Request → List Buffer
  | [] => []
  | req :: reqs => a.copyOut bs req :: (a.write req).run bs reqs

/-- The array after a run of requests. -/
def ArrayStore.after (a : ArrayStore) (reqs : List Request) : ArrayStore := reqs.foldl ArrayStore.write a

theorem ArrayStore.run_append (a : ArrayStore) (reqs : List Request) (req : Request) :
    a.run bs (reqs ++ [req]) = a.run bs reqs ++ [(a.after reqs).copyOut bs req] := by
  induction reqs generalizing a with
  | nil => rfl
  | cons r reqs ih => simp [ArrayStore.run, ArrayStore.after, ih]

theorem ArrayStore.after_append (a : ArrayStore) (reqs : List Request) (req : Request) :
    a.after (reqs ++ [req]) = (a.after reqs).write req := by
  simp [ArrayStore.after]

/-- The block `b` holds the bytes of entry `ind`. -/
def ArrayStore.Holds (a : ArrayStore) (ind : Nat) (b : Block bs) : Prop := ∀ j < bs, b.byte j = a ind j

theorem ArrayStore.holds_zero (ind : Nat) : ArrayStore.zero.Holds ind (zeroBlock bs) := fun j _ =>
  Block.byte_zeroBlock j

/-- The copies of an access on a block that holds its entry. -/
theorem ArrayStore.Holds.exchange {a : ArrayStore} {req : Request} {b : Block bs} (h : a.Holds req.ind b)
    {sz : BlockSize bs} (hsz : sz.val = bs) (hfit : req.writeOffset + req.writeSize ≤ bs) (rest : Buffer) :
    (a.write req).Holds req.ind (b.written req) ∧ (sz.copies rest b req).block = a.copyOut bs req := by
  have hover : ∀ j < bs, b.over rest j = a req.ind j := fun j hj => by
    rw [← h j hj, Block.over, dif_pos hj, Block.byte_lt b hj]
  refine ⟨fun j hj => ?_, funext fun j => ?_⟩
  · rw [Block.written_byte b req hj, h j hj]
    simp [ArrayStore.write]
  · unfold BlockSize.copies exchangeBytes ArrayStore.copyOut
    rw [hsz]
    split
    · by_cases hj : j < req.writeSize
      · simp only [hj, if_true]
        exact hover _ (by omega)
      · simp [hj]
    · by_cases hj : j < bs
      · simp only [hj, if_true]
        exact hover j hj
      · simp [hj]

theorem ArrayStore.Holds.write_of_ne {a : ArrayStore} {req : Request} {ind : Nat} {b : Block bs}
    (h : a.Holds ind b) (hne : ind ≠ req.ind) : (a.write req).Holds ind b := fun j hj => by
  rw [h j hj, ArrayStore.write, if_neg fun hc => hne hc.1]

/-! ## The entries as blocks -/

/-- `block_key = ind + 1`. -/
def keyOf (ind : Nat) : BlockKey := UInt32.ofNat (ind + 1)

theorem keyOf_ne_zero {ind : Nat} (h : ind + 1 < 2 ^ 32) : keyOf ind ≠ 0 := by
  intro h0
  have := congrArg UInt32.toNat h0
  rw [keyOf, UInt32.toNat_ofNat', Nat.mod_eq_of_lt h] at this
  exact Nat.succ_ne_zero ind this

theorem keyOf_inj {i j : Nat} (hi : i + 1 < 2 ^ 32) (hj : j + 1 < 2 ^ 32) (h : keyOf i = keyOf j) : i = j := by
  have := congrArg UInt32.toNat h
  rw [keyOf, keyOf, UInt32.toNat_ofNat', UInt32.toNat_ofNat', Nat.mod_eq_of_lt hi, Nat.mod_eq_of_lt hj] at this
  omega

/-- What a fetch of a key answers when the store holds `o` for it. -/
def fetchedContent (o : Option (BlockPath × Block bs)) : Block bs := (o.map Prod.snd).getD (zeroBlock bs)

/-- The bindings `M` are the entries of `a`, each under its position. -/
structure Entries (capacity : Nat) (position : Nat → BlockPath) (a : ArrayStore)
    (M : BlockKey → Option (BlockPath × Block bs)) : Prop where
  position : ∀ ind < capacity, ∀ v, M (keyOf ind) = some v → v.1 ≠ 0 ∧ position ind = v.1
  content : ∀ ind < capacity, a.Holds ind (fetchedContent (M (keyOf ind)))
  keys : ∀ k v, M k = some v → ∃ ind < capacity, k = keyOf ind

theorem entries_zero (capacity : Nat) (position : Nat → BlockPath) :
    Entries capacity position ArrayStore.zero fun _ => (none : Option (BlockPath × Block bs)) where
  position _ _ _ hv := by cases hv
  content ind _ := ArrayStore.holds_zero ind
  keys _ _ hv := by cases hv

theorem Entries.eq_none {capacity : Nat} {position : Nat → BlockPath} {a : ArrayStore}
    (h : Entries capacity position a M) (hzero : ∀ ind < capacity, position ind = 0) (k : BlockKey) : M k = none := by
  cases hk : M k with
  | none => rfl
  | some v =>
    obtain ⟨ind, hind, rfl⟩ := h.keys k v hk
    obtain ⟨hne, hpos⟩ := h.position ind hind v hk
    exact absurd (hpos.symm.trans (hzero ind hind)) hne

/-- An access binds its key anew, to the copied content under the new position. -/
theorem Entries.access {capacity : Nat} {position : Nat → BlockPath} {a : ArrayStore}
    {M : BlockKey → Option (BlockPath × Block bs)} (h : Entries capacity position a M) (hcap : capacity < 2 ^ 32)
    {req : Request} (hind : req.ind < capacity) {sz : BlockSize bs} (hsz : sz.val = bs)
    (hfit : req.writeOffset + req.writeSize ≤ bs) (rest : Buffer) {q : BlockPath} (hq : q ≠ 0) :
    Entries capacity (Function.update position req.ind q) (a.write req)
        (Function.update M (keyOf req.ind) (some (q, (fetchedContent (M (keyOf req.ind))).written req))) ∧
      (sz.copies rest (fetchedContent (M (keyOf req.ind))) req).block = a.copyOut bs req := by
  obtain ⟨hcontent, hout⟩ := (h.content req.ind hind).exchange hsz hfit rest
  have hkey : ∀ ind < capacity, ind ≠ req.ind → keyOf ind ≠ keyOf req.ind := by
    intro ind hlt hne heq
    exact hne (keyOf_inj (by omega) (by omega) heq)
  refine ⟨⟨?_, ?_, ?_⟩, hout⟩
  · intro ind hlt v hv
    by_cases hi : ind = req.ind
    · subst hi
      rw [Function.update_self] at hv ⊢
      obtain rfl := Option.some.inj hv
      exact ⟨hq, rfl⟩
    · rw [Function.update_of_ne (hkey ind hlt hi)] at hv
      rw [Function.update_of_ne hi]
      exact h.position ind hlt v hv
  · intro ind hlt
    by_cases hi : ind = req.ind
    · subst hi
      rw [Function.update_self]
      exact hcontent
    · rw [Function.update_of_ne (hkey ind hlt hi)]
      exact (h.content ind hlt).write_of_ne hi
  · intro k v hv
    by_cases hk : k = keyOf req.ind
    · exact ⟨req.ind, hind, hk⟩
    · rw [Function.update_of_ne hk] at hv
      exact h.keys k v hv

/-! ## The recursive position map -/

/-- The request for the position of entry `ind` in the next object: `block_index`, `block_offset`, and
the bytes of the new path. -/
def posMapRequest (bs ind : Nat) (newBlockPath : BlockPath) : Request where
  ind := ind / (bs / sizeofBlockPath)
  block := pathBuffer newBlockPath
  writeSize := sizeofBlockPath
  writeOffset := ind % (bs / sizeofBlockPath) * sizeofBlockPath

/-- The position of entry `ind` in an array of blocks of positions. -/
def storedPosition (bs : Nat) (a : ArrayStore) (ind : Nat) : BlockPath :=
  pathOfBuffer fun j => a (ind / (bs / sizeofBlockPath)) (ind % (bs / sizeofBlockPath) * sizeofBlockPath + j)

theorem posMapRequest_fits (hbs : bs / sizeofBlockPath ≠ 0) (ind : Nat) (q : BlockPath) :
    (posMapRequest bs ind q).writeOffset + (posMapRequest bs ind q).writeSize ≤ bs :=
  (cell_fits (Nat.pos_of_ne_zero hbs) sizeofBlockPath ind).trans (Nat.div_mul_le_self bs sizeofBlockPath)

/-- The buffer comes back with the old position. -/
theorem pathOfBuffer_copyOut (a : ArrayStore) (ind : Nat) (q : BlockPath) :
    pathOfBuffer (a.copyOut bs (posMapRequest bs ind q)) = storedPosition bs a ind := by
  apply pathOfBuffer_congr
  intro j hj
  have hpos : (posMapRequest bs ind q).writeSize > 0 := Nat.zero_lt_succ 3
  unfold ArrayStore.copyOut
  rw [if_pos hpos, if_pos (show j < (posMapRequest bs ind q).writeSize from hj)]
  rfl

/-- Only the position of the entry changes. -/
theorem storedPosition_write (a : ArrayStore) (ind : Nat) (q : BlockPath) :
    storedPosition bs (a.write (posMapRequest bs ind q)) = Function.update (storedPosition bs a) ind q := by
  funext i
  by_cases hi : i = ind
  · subst hi
    rw [Function.update_self]
    refine (pathOfBuffer_congr fun j hj => ?_).trans (pathOfBuffer_pathBuffer q)
    unfold ArrayStore.write
    rw [if_pos ⟨rfl, Nat.le_add_right _ _, Nat.add_lt_add_left hj _⟩]
    exact congrArg (pathBuffer q) (Nat.add_sub_cancel_left _ _)
  · rw [Function.update_of_ne hi]
    refine pathOfBuffer_congr fun j hj => ?_
    unfold ArrayStore.write
    apply if_neg
    rintro ⟨hdiv, hlo, hhi⟩
    -- entries of one block have their positions apart
    have hapart := cell_apart hi hdiv sizeofBlockPath
    simp only [posMapRequest] at hlo hhi
    omega

end SgxOram
