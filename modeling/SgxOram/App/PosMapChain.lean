import SgxOram.App.SimpleOram
import SgxOram.Lib.Packing

/-!
# The recursive position map in `uint64_t`

The constructors round the capacity of the next object up, the accesses divide the index and take the
remainder. Both are 64-bit arithmetic in the source.

* `numPathsPerBlock`, `higherCapacity`, `blockIndex`, `blockOffset` : this arithmetic, with what it computes;
* `newCapacities` : the capacities of the objects that one call of a constructor makes;
* `LevelFits` : the accesses of one level stay within the next one; `levelFits` : they do;
* `newCapacities_completes`, `newCapacities_spec` : the chain of objects ends, and fits level by level;
* `IndAsserts` : the asserts on `ind` of an access; `posMapChain_inRange` : none can fail, for any capacity;
* `newPathOram_capacities`, `newSimpleOram_capacities` : the objects of the two constructors are this chain;
  `accessPathOram_indAsserts`, `accessSimpleOram_indAsserts` : and their accesses make these asserts.
-/

namespace SgxOram
open Lib

variable {bs : Nat} {N B : Type}

/-! ## Arithmetic -/

/-- `num_paths_per_block`. -/
def numPathsPerBlock (blockSize : UInt64) : UInt64 := blockSize / UInt64.ofNat sizeofBlockPath

/-- `higher_capacity`. -/
def higherCapacity (blockSize capacity : UInt64) : UInt64 :=
  (capacity + numPathsPerBlock blockSize - 1) / numPathsPerBlock blockSize

/-- `block_index`. -/
def blockIndex (blockSize ind : UInt64) : UInt64 := ind / numPathsPerBlock blockSize

/-- `block_offset`. -/
def blockOffset (blockSize ind : UInt64) : UInt64 :=
  ind % numPathsPerBlock blockSize * UInt64.ofNat sizeofBlockPath

@[simp] theorem toNat_sizeofBlockPath : (UInt64.ofNat sizeofBlockPath).toNat = sizeofBlockPath := rfl

theorem toNat_numPathsPerBlock (blockSize : UInt64) :
    (numPathsPerBlock blockSize).toNat = blockSize.toNat / sizeofBlockPath := UInt64.toNat_div _ _

theorem numPathsPerBlock_mul_le (blockSize : UInt64) :
    (numPathsPerBlock blockSize).toNat * sizeofBlockPath ≤ blockSize.toNat := by
  rw [toNat_numPathsPerBlock]
  exact Nat.div_mul_le_self _ _

section
variable {blockSize capacity : UInt64}

/-- The sum of the constructor, as long as its value fits: the two steps may wrap around and back. -/
theorem toNat_higherCapacity (hn : 0 < (numPathsPerBlock blockSize).toNat)
    (hsum : capacity.toNat + (numPathsPerBlock blockSize).toNat - 1 < 2 ^ 64) :
    (higherCapacity blockSize capacity).toNat = capacity.toNat ⌈/⌉ (numPathsPerBlock blockSize).toNat := by
  have hadd : (capacity + numPathsPerBlock blockSize - 1).toNat =
      capacity.toNat + (numPathsPerBlock blockSize).toNat - 1 := by
    simp only [UInt64.toNat_sub, UInt64.toNat_add, UInt64.reduceToNat]
    omega
  rw [higherCapacity, UInt64.toNat_div, hadd]
  rfl

theorem toNat_blockIndex (ind : UInt64) :
    (blockIndex blockSize ind).toNat = ind.toNat / (numPathsPerBlock blockSize).toNat := UInt64.toNat_div _ _

theorem toNat_blockOffset (hn : 0 < (numPathsPerBlock blockSize).toNat) (ind : UInt64) :
    (blockOffset blockSize ind).toNat = ind.toNat % (numPathsPerBlock blockSize).toNat * sizeofBlockPath := by
  have hfits := cell_fits hn sizeofBlockPath ind.toNat
  have hle := numPathsPerBlock_mul_le blockSize
  have hlt := blockSize.toNat_lt
  rw [blockOffset, UInt64.toNat_mul, UInt64.toNat_mod, toNat_sizeofBlockPath]
  exact Nat.mod_eq_of_lt (by omega)

end

/-! ## One level -/

/-- The positions of the entries below `capacity` lie in the next object, of capacity `higher`: each in one of its
blocks, within the block, and no two on a common byte. -/
structure LevelFits (blockSize capacity higher : UInt64) : Prop where
  index : ∀ ind < capacity, blockIndex blockSize ind < higher
  offset : ∀ ind < capacity, (blockOffset blockSize ind).toNat + sizeofBlockPath ≤ blockSize.toNat
  apart : ∀ ind < capacity, ∀ ind' < capacity, ind ≠ ind' →
    blockIndex blockSize ind ≠ blockIndex blockSize ind' ∨
      (blockOffset blockSize ind).toNat + sizeofBlockPath ≤ (blockOffset blockSize ind').toNat ∨
      (blockOffset blockSize ind').toNat + sizeofBlockPath ≤ (blockOffset blockSize ind).toNat

theorem levelFits {blockSize capacity : UInt64} (hn : 0 < (numPathsPerBlock blockSize).toNat)
    (hsum : capacity.toNat + (numPathsPerBlock blockSize).toNat - 1 < 2 ^ 64) :
    LevelFits blockSize capacity (higherCapacity blockSize capacity) where
  index ind hind := by
    rw [UInt64.lt_iff_toNat_lt, toNat_blockIndex, toNat_higherCapacity hn hsum]
    exact div_lt_ceilDiv hn (UInt64.lt_iff_toNat_lt.mp hind)
  offset ind _ := by
    rw [toNat_blockOffset hn]
    exact (cell_fits hn sizeofBlockPath ind.toNat).trans (numPathsPerBlock_mul_le blockSize)
  apart ind _ ind' _ hne := by
    have hne : ind.toNat ≠ ind'.toNat := fun h => hne (UInt64.toNat_inj.mp h)
    by_cases hdiv : blockIndex blockSize ind = blockIndex blockSize ind'
    · right
      rw [← UInt64.toNat_inj, toNat_blockIndex, toNat_blockIndex] at hdiv
      rw [toNat_blockOffset hn, toNat_blockOffset hn]
      exact cell_apart hne hdiv sizeofBlockPath
    · exact Or.inl hdiv

/-! ## The chain of objects -/

/-- The capacities of the objects that a constructor makes, the outermost first, within `fuel` calls nested in each
other. `none` is a failing assert, or a chain that goes on. -/
def newCapacities (blockSize : UInt64) : Nat → UInt64 → Option (List UInt64)
  | 0, _ => none
  | fuel + 1, capacity =>
    if capacity > UInt64.ofNat maxPosMap then
      if blockSize % UInt64.ofNat sizeofBlockPath = 0 ∧ numPathsPerBlock blockSize > 1 then
        (newCapacities blockSize fuel (higherCapacity blockSize capacity)).map (capacity :: ·)
      else none
    else some [capacity]

section
variable {blockSize capacity : UInt64} {fuel : Nat} {chain : List UInt64}

theorem newCapacities_succ_eq_some :
    newCapacities blockSize (fuel + 1) capacity = some chain ↔
      capacity ≤ UInt64.ofNat maxPosMap ∧ chain = [capacity] ∨
      capacity > UInt64.ofNat maxPosMap ∧
        (blockSize % UInt64.ofNat sizeofBlockPath = 0 ∧ numPathsPerBlock blockSize > 1) ∧
        ∃ rest, newCapacities blockSize fuel (higherCapacity blockSize capacity) = some rest ∧
          chain = capacity :: rest := by
  rw [newCapacities]
  by_cases hcap : capacity > UInt64.ofNat maxPosMap
  · simp only [hcap, if_true, Option.ite_none_right_eq_some, Option.map_eq_some_iff, true_and,
      UInt64.not_le.mpr hcap, false_and, false_or]
    exact and_congr_right fun _ => exists_congr fun rest => and_congr_right fun _ => eq_comm
  · simp only [hcap, if_false, false_and, or_false, Option.some.injEq, UInt64.not_lt.mp hcap, true_and]
    exact eq_comm

theorem newCapacities_mono (h : newCapacities blockSize fuel capacity = some chain) {fuel' : Nat}
    (hle : fuel ≤ fuel') : newCapacities blockSize fuel' capacity = some chain := by
  induction fuel generalizing capacity chain fuel' with
  | zero => exact absurd h (by simp [newCapacities])
  | succ fuel ih =>
    obtain ⟨fuel', rfl⟩ : ∃ m, fuel' = m + 1 := ⟨fuel' - 1, by omega⟩
    rw [newCapacities_succ_eq_some] at h ⊢
    exact h.imp_right fun ⟨hcap, hassert, rest, hrest, hchain⟩ =>
      ⟨hcap, hassert, rest, ih hrest (by omega), hchain⟩

theorem higherCapacity_le {k : Nat} (hn : 1 < (numPathsPerBlock blockSize).toNat)
    (hsum : capacity.toNat + (numPathsPerBlock blockSize).toNat - 1 < 2 ^ 64)
    (hcap : capacity.toNat ≤ maxPosMap * (numPathsPerBlock blockSize).toNat ^ (k + 1)) :
    (higherCapacity blockSize capacity).toNat ≤ maxPosMap * (numPathsPerBlock blockSize).toNat ^ k := by
  rw [toNat_higherCapacity (by omega) hsum]
  exact ceilDiv_le_mul_pow (by omega) hcap

/-- The next level's sum fits if this level's does. -/
theorem higherCapacity_sum (hn : 1 < (numPathsPerBlock blockSize).toNat) (hcap : capacity > UInt64.ofNat maxPosMap)
    (hsum : capacity.toNat + (numPathsPerBlock blockSize).toNat - 1 < 2 ^ 64) :
    (higherCapacity blockSize capacity).toNat + (numPathsPerBlock blockSize).toNat - 1 < 2 ^ 64 := by
  have hcap : 65536 < capacity.toNat := UInt64.lt_iff_toNat_lt.mp hcap
  have hlt := ceilDiv_lt hn (show 1 < capacity.toNat by omega)
  rw [toNat_higherCapacity (by omega) hsum]
  omega

/-- `k + 1` objects are enough for capacities up to `maxPosMap` times the `k`-th power of the fan-out. -/
theorem newCapacities_completes {k : Nat}
    (hassert : capacity > UInt64.ofNat maxPosMap →
      blockSize % UInt64.ofNat sizeofBlockPath = 0 ∧ numPathsPerBlock blockSize > 1)
    (hsum : capacity.toNat + (numPathsPerBlock blockSize).toNat - 1 < 2 ^ 64)
    (hcap : capacity.toNat ≤ maxPosMap * (numPathsPerBlock blockSize).toNat ^ k) :
    ∃ chain, newCapacities blockSize (k + 1) capacity = some chain := by
  induction k generalizing capacity with
  | zero =>
    rw [pow_zero, Nat.mul_one] at hcap
    exact ⟨_, newCapacities_succ_eq_some.mpr (Or.inl ⟨UInt64.le_iff_toNat_le.mpr hcap, rfl⟩)⟩
  | succ k ih =>
    by_cases hmax : capacity > UInt64.ofNat maxPosMap
    · have hok := hassert hmax
      have hn : 1 < (numPathsPerBlock blockSize).toNat := UInt64.lt_iff_toNat_lt.mp hok.2
      obtain ⟨rest, hrest⟩ := ih (fun _ => hok) (higherCapacity_sum hn hmax hsum) (higherCapacity_le hn hsum hcap)
      exact ⟨_, newCapacities_succ_eq_some.mpr (Or.inr ⟨hmax, hok, rest, hrest, rfl⟩)⟩
    · exact ⟨_, newCapacities_succ_eq_some.mpr (Or.inl ⟨UInt64.not_lt.mp hmax, rfl⟩)⟩

/-- The chain starts with the capacity asked for, fits level by level, and ends with a map that the client holds. -/
theorem newCapacities_spec (hsum : capacity.toNat + (numPathsPerBlock blockSize).toNat - 1 < 2 ^ 64)
    (hrun : newCapacities blockSize fuel capacity = some chain) :
    chain.head? = some capacity ∧ chain.IsChain (LevelFits blockSize) ∧
      ∀ last ∈ chain.getLast?, last ≤ UInt64.ofNat maxPosMap := by
  induction fuel generalizing capacity chain with
  | zero => exact absurd hrun (by simp [newCapacities])
  | succ fuel ih =>
    rcases newCapacities_succ_eq_some.mp hrun with ⟨hle, rfl⟩ | ⟨hmax, hok, rest, hrest, rfl⟩
    · exact ⟨rfl, List.isChain_singleton _, fun last hlast => by obtain rfl := Option.some.inj hlast; exact hle⟩
    · have hn : 1 < (numPathsPerBlock blockSize).toNat := UInt64.lt_iff_toNat_lt.mp hok.2
      obtain ⟨hhead, hchain, hlast⟩ := ih (higherCapacity_sum hn hmax hsum) hrest
      cases rest with
      | nil => cases hhead
      | cons higher rest =>
        obtain rfl := Option.some.inj hhead
        exact ⟨rfl, List.isChain_cons_cons.mpr ⟨levelFits (by omega) hsum, hchain⟩, hlast⟩

/-- The asserts on `ind` of an access, from the outermost object in. -/
def IndAsserts (blockSize : UInt64) : List UInt64 → UInt64 → Prop
  | [], _ => True
  | capacity :: chain, ind => ind < capacity ∧ IndAsserts blockSize chain (blockIndex blockSize ind)

theorem indAsserts_of_isChain (hchain : chain.IsChain (LevelFits blockSize)) (hhead : chain.head? = some capacity)
    {ind : UInt64} (hind : ind < capacity) : IndAsserts blockSize chain ind := by
  induction chain generalizing capacity ind with
  | nil => exact trivial
  | cons c chain ih =>
    obtain rfl := Option.some.inj hhead
    refine ⟨hind, ?_⟩
    cases chain with
    | nil => exact trivial
    | cons higher chain =>
      obtain ⟨hfits, hchain⟩ := List.isChain_cons_cons.mp hchain
      exact ih hchain rfl (hfits.index ind hind)

/-- No capacity of 64 bits needs more than 48 steps down to `maxPosMap`. -/
theorem le_maxPosMap_mul_pow (capacity : UInt64) {n : Nat} (hn : 1 < n) : capacity.toNat ≤ maxPosMap * n ^ 48 := by
  calc capacity.toNat ≤ 2 ^ 64 := capacity.toNat_lt.le
    _ = maxPosMap * 2 ^ 48 := by norm_num
    _ ≤ maxPosMap * n ^ 48 := Nat.mul_le_mul_left maxPosMap (Nat.pow_le_pow_left hn 48)

end

/-- Whatever the capacity, the constructors make at most 49 objects, and the accesses stay in range on all levels. -/
theorem posMapChain_inRange (blockSize capacity : UInt64)
    (hassert : capacity > UInt64.ofNat maxPosMap →
      blockSize % UInt64.ofNat sizeofBlockPath = 0 ∧ numPathsPerBlock blockSize > 1)
    (hsum : capacity.toNat + (numPathsPerBlock blockSize).toNat - 1 < 2 ^ 64) :
    ∃ chain, (∀ fuel, 49 ≤ fuel → newCapacities blockSize fuel capacity = some chain) ∧
      chain.head? = some capacity ∧ chain.IsChain (LevelFits blockSize) ∧
      (∀ ind < capacity, IndAsserts blockSize chain ind) ∧
      ∀ last ∈ chain.getLast?, ∀ ind < last, ind < UInt64.ofNat maxPosMap := by
  obtain ⟨k, hk, hcap⟩ : ∃ k ≤ 48, capacity.toNat ≤ maxPosMap * (numPathsPerBlock blockSize).toNat ^ k := by
    by_cases hmax : capacity > UInt64.ofNat maxPosMap
    · exact ⟨48, le_rfl, le_maxPosMap_mul_pow capacity (UInt64.lt_iff_toNat_lt.mp (hassert hmax).2)⟩
    · refine ⟨0, Nat.zero_le 48, ?_⟩
      rw [pow_zero, Nat.mul_one]
      exact UInt64.le_iff_toNat_le.mp (UInt64.not_lt.mp hmax)
  obtain ⟨chain, hchain⟩ := newCapacities_completes hassert hsum hcap
  obtain ⟨hhead, hfits, hlast⟩ := newCapacities_spec hsum hchain
  refine ⟨chain, fun fuel hfuel => newCapacities_mono hchain (by omega), hhead, hfits, ?_, fun last hl ind hind => ?_⟩
  · exact fun ind hind => indAsserts_of_isChain hfits hhead hind
  · exact UInt64.lt_of_lt_of_le hind (hlast last hl)

/-- 100000 entries and two positions per block: the positions take one more object of 50000 blocks. -/
theorem posMapChain_inRange_eight :
    newCapacities 8 49 100000 = some [100000, 50000] ∧ LevelFits 8 100000 50000 := by
  have hrun : newCapacities 8 49 100000 = some [100000, 50000] := by decide
  obtain ⟨chain, hchain, -, hfits, -⟩ := posMapChain_inRange 8 100000 (fun _ => by decide) (by decide)
  obtain rfl := Option.some.inj ((hchain 49 le_rfl).symm.trans hrun)
  exact ⟨hrun, List.isChain_pair.mp hfits⟩

/-! ## The objects -/

/-- `pos_map_capacity_` of the objects, the outermost first. -/
def PathOram.capacities : PathOram N → List Nat
  | .base capacity _ => [capacity]
  | .recursive capacity _ posMap => capacity :: posMap.capacities

def SimpleOram.capacities : SimpleOram N → List Nat
  | .base capacity _ => [capacity]
  | .recursive capacity _ posMap => capacity :: posMap.capacities

section
variable {blockSize capacity : UInt64} {fuel : Nat} {chain : List UInt64} {A : BufferAddrs}
  {sz : BlockSize bs} {st st' : Process bs B}

theorem higherCapacity_eq (hok : numPathsPerBlock blockSize > 1)
    (hsum : capacity.toNat + (numPathsPerBlock blockSize).toNat - 1 < 2 ^ 64) :
    (capacity.toNat + blockSize.toNat / sizeofBlockPath - 1) / (blockSize.toNat / sizeofBlockPath) =
      (higherCapacity blockSize capacity).toNat := by
  have hn : 1 < (numPathsPerBlock blockSize).toNat := UInt64.lt_iff_toNat_lt.mp hok
  rw [toNat_higherCapacity (by omega) hsum, toNat_numPathsPerBlock]
  rfl

/-- The objects of `PathORAM::PathORAM` are the chain. -/
theorem newPathOram_capacities (hsz : sz.val = blockSize.toNat) {K : Cipher bs N B} {o : PathOram N}
    (hsum : capacity.toNat + (numPathsPerBlock blockSize).toNat - 1 < 2 ^ 64)
    (hchain : newCapacities blockSize fuel capacity = some chain)
    (hrun : newPathOram K A sz capacity.toNat st = some (o, st')) : o.capacities = chain.map UInt64.toNat := by
  induction fuel generalizing capacity chain st st' o with
  | zero => exact absurd hchain (by simp [newCapacities])
  | succ fuel ih =>
    rcases newCapacities_succ_eq_some.mp hchain with ⟨hle, rfl⟩ | ⟨hmax, hok, rest, hrest, rfl⟩
    · obtain ⟨t, -, rfl⟩ := (newPathOram_base_eq_some (UInt64.le_iff_toNat_le.mp hle)).mp hrun
      rfl
    · have hn : 1 < (numPathsPerBlock blockSize).toNat := UInt64.lt_iff_toNat_lt.mp hok.2
      obtain ⟨-, posMap, st₁, t, hpos, -, rfl⟩ :=
        (newPathOram_rec_eq_some (UInt64.lt_iff_toNat_lt.mp hmax)).mp hrun
      rw [hsz, higherCapacity_eq hok.2 hsum] at hpos
      exact congrArg (capacity.toNat :: ·) (ih (higherCapacity_sum hn hmax hsum) hrest hpos)

/-- The objects of `SimpleORAM::SimpleORAM` are the chain. -/
theorem newSimpleOram_capacities (hsz : sz.val = blockSize.toNat) {D : Build bs N B} {o : SimpleOram N}
    (hsum : capacity.toNat + (numPathsPerBlock blockSize).toNat - 1 < 2 ^ 64)
    (hchain : newCapacities blockSize fuel capacity = some chain)
    (hrun : newSimpleOram D A sz capacity.toNat st = some (o, st')) : o.capacities = chain.map UInt64.toNat := by
  induction fuel generalizing capacity chain st st' o with
  | zero => exact absurd hchain (by simp [newCapacities])
  | succ fuel ih =>
    rcases newCapacities_succ_eq_some.mp hchain with ⟨hle, rfl⟩ | ⟨hmax, hok, rest, hrest, rfl⟩
    · rw [newSimpleOram_base D A sz (UInt64.le_iff_toNat_le.mp hle)] at hrun
      obtain ⟨ts, -, heq⟩ := Option.map_eq_some_iff.mp hrun
      obtain ⟨rfl, -⟩ := Prod.mk.inj heq
      rfl
    · have hn : 1 < (numPathsPerBlock blockSize).toNat := UInt64.lt_iff_toNat_lt.mp hok.2
      rw [newSimpleOram_rec D A sz (UInt64.lt_iff_toNat_lt.mp hmax)] at hrun
      obtain ⟨-, hrun⟩ := Option.ite_none_right_eq_some.mp hrun
      obtain ⟨⟨posMap, st₁⟩, hpos, hrun⟩ := Option.bind_eq_some_iff.mp hrun
      obtain ⟨ts, -, heq⟩ := Option.map_eq_some_iff.mp hrun
      obtain ⟨rfl, -⟩ := Prod.mk.inj heq
      rw [hsz, higherCapacity_eq hok.2 hsum] at hpos
      exact congrArg (capacity.toNat :: ·) (ih (higherCapacity_sum hn hmax hsum) hrest hpos)

/-- The requests of an access are the 64-bit index and offset. -/
theorem posMapRequest_eq (hn : 0 < (numPathsPerBlock blockSize).toNat) (ind : UInt64) (q : BlockPath) :
    posMapRequest blockSize.toNat ind.toNat q =
      ⟨(blockIndex blockSize ind).toNat, pathBuffer q, sizeofBlockPath, (blockOffset blockSize ind).toNat⟩ := by
  rw [toNat_blockIndex, toNat_blockOffset hn, toNat_numPathsPerBlock]
  rfl

/-- An access that ends has passed these asserts on `ind`, one in each object. -/
theorem accessPathOram_indAsserts (hsz : sz.val = blockSize.toNat) {K : Cipher bs N B} {o : PathOram N}
    {draws : Nat → Draws} {req : Request} {w : World bs B} {r : AccessResult bs N B}
    (hcap : o.capacities = chain.map UInt64.toNat) {ind : UInt64} (hind : req.ind = ind.toNat)
    (hrun : accessPathOram K sz o draws req w = some r) : IndAsserts blockSize chain ind := by
  induction o generalizing chain draws req w r ind with
  | base capacity t =>
    obtain ⟨⟨hlt, -⟩, -⟩ := accessPathOram_base.mp hrun
    obtain ⟨c, rfl, rfl⟩ := List.map_eq_singleton_iff.mp hcap.symm
    exact ⟨UInt64.lt_iff_toNat_lt.mpr (hind ▸ hlt), trivial⟩
  | recursive capacity t posMap ih =>
    obtain ⟨⟨hlt, -⟩, inner, -, hinner, -⟩ := accessPathOram_rec.mp hrun
    obtain ⟨c, rest, rfl, rfl, hrest⟩ := List.map_eq_cons_iff.mp hcap.symm
    refine ⟨UInt64.lt_iff_toNat_lt.mpr (hind ▸ hlt), ih hrest.symm ?_ hinner⟩
    rw [toNat_blockIndex, toNat_numPathsPerBlock, ← hind, ← hsz]
    rfl

theorem accessSimpleOram_indAsserts (hsz : sz.val = blockSize.toNat) {D : Build bs N B} {o : SimpleOram N}
    {draws : Nat → SimpleDraws} {req : Request} {w : World bs B} {r : SimpleResult bs N B}
    (hcap : o.capacities = chain.map UInt64.toNat) {ind : UInt64} (hind : req.ind = ind.toNat)
    (hrun : accessSimpleOram D sz o draws req w = some r) : IndAsserts blockSize chain ind := by
  induction o generalizing chain draws req w r ind with
  | base capacity t =>
    obtain ⟨⟨hlt, -⟩, -⟩ := accessSimpleOram_base.mp hrun
    obtain ⟨c, rfl, rfl⟩ := List.map_eq_singleton_iff.mp hcap.symm
    exact ⟨UInt64.lt_iff_toNat_lt.mpr (hind ▸ hlt), trivial⟩
  | recursive capacity t posMap ih =>
    obtain ⟨⟨hlt, -⟩, inner, -, hinner, -⟩ := accessSimpleOram_rec.mp hrun
    obtain ⟨c, rest, rfl, rfl, hrest⟩ := List.map_eq_cons_iff.mp hcap.symm
    refine ⟨UInt64.lt_iff_toNat_lt.mpr (hind ▸ hlt), ih hrest.symm ?_ hinner⟩
    rw [toNat_blockIndex, toNat_numPathsPerBlock, ← hind, ← hsz]
    rfl

end

end SgxOram
