import SgxOram.Enclave.FlushSpec
import SgxOram.App.MemTree
import SgxOram.App.Oram

/-!
# Node addresses and path tests

The loops over the levels of a path recompute the address of the node; the eviction and the flush decide
by masks and bits whether a block may lie on that node.

* `PathLoop` : the locals `addr` and `tree_path` of these loops; `pathAddr` : the address at level `h`;
* `downloadLevels_locals`, `loadLevels_locals`, `storeLevels_locals`, `evictAddrTable_eq_pathAddr` : every
  loop computes it;
* `pathAddr_toNat` : it is the node of the path, and `pathLoop_fits` : no pass leaves 32 bits;
* `forall_pathBit_iff` : the bit tests of the flush say that the paths agree, like the mask test of the
  eviction; `pathAddr_tests` : both tests against the addresses;
* `initializeMemTree_pathAddr` : the nodes of a path are nodes of a fresh tree.
-/

namespace SgxOram
open Lib

variable {bs : Nat} {N B : Type}

/-! ## The recurrence -/

/-- The locals `addr` and `tree_path` of the loops over the levels. -/
structure PathLoop where
  addr : UInt32
  treePath : UInt32

/-- `addr = addr * 2 + 1 + tree_path % 2; tree_path /= 2;` -/
def PathLoop.next (l : PathLoop) : PathLoop := ⟨l.addr * 2 + 1 + l.treePath % 2, l.treePath / 2⟩

/-- The locals at the start of pass `h` along `blockPath`. -/
def pathLoop (blockPath : BlockPath) : Nat → PathLoop
  | 0 => ⟨0, blockPath⟩
  | h + 1 => (pathLoop blockPath h).next

/-- The address that the loops compute for level `h`. -/
def pathAddr (blockPath : BlockPath) (h : Nat) : UInt32 := (pathLoop blockPath h).addr

/-! ## The loops of the enclave -/

def LevelLoop.locals (l : LevelLoop bs B) : PathLoop := ⟨l.addr, l.treePath⟩

theorem downloadLevel_locals {K : Cipher bs N B} {t : MemTree N} {l l' : LevelLoop bs B} {h : Nat}
    (hrun : downloadLevel K t l h = some l') : l'.locals = l.locals.next := by
  obtain ⟨w, -, rfl⟩ := downloadLevel_eq_some.mp hrun
  rfl

theorem downloadLevels_locals {K : Cipher bs N B} {t : MemTree N} {p : BlockPath} {w : World bs B} {count : Nat}
    {l : LevelLoop bs B} (hrun : (List.range count).foldlM (downloadLevel K t) ⟨w, 0, p⟩ = some l) :
    l.locals = pathLoop p count := by
  induction count generalizing l with
  | zero =>
    obtain rfl : _ = l := by simpa using hrun
    rfl
  | succ count ih =>
    rw [List.range_succ] at hrun
    obtain ⟨l₁, hrun₁, hstep⟩ := foldlM_append_eq_some.mp hrun
    have hstep : downloadLevel K t l₁ count = some l := by simpa using hstep
    rw [downloadLevel_locals hstep, ih hrun₁]
    rfl

theorem loadLevels_locals (load : Load bs N B) (touch : Touch) (t : MemTree N) (p : BlockPath) (w : World bs B)
    (count : Nat) : ((List.range count).foldl (loadLevel load touch t) ⟨w, 0, p⟩).locals = pathLoop p count := by
  induction count with
  | zero => rfl
  | succ count ih =>
    rw [List.range_succ, List.foldl_append, pathLoop, ← ih]
    rfl

theorem storeLevels_locals (store : Store bs N B) (touch : Touch) (t : MemTree N) (p : BlockPath) (w : World bs B)
    (count : Nat) : ((List.range count).foldl (storeLevel store touch) (t, ⟨w, 0, p⟩)).2.locals = pathLoop p count := by
  induction count with
  | zero => rfl
  | succ count ih =>
    rw [List.range_succ, List.foldl_append, pathLoop, ← ih]
    rfl

/-! ## The node of a path -/

/-- The locals as numbers, as long as the levels fit into 32 bits. -/
theorem pathLoop_toNat (p : BlockPath) {h : Nat} (hh : h ≤ 31) :
    (pathLoop p h).addr.toNat = nodeAddr p.toNat h ∧ (pathLoop p h).treePath.toNat = p.toNat / 2 ^ h := by
  induction h with
  | zero => exact ⟨rfl, by simp [pathLoop]⟩
  | succ h ih =>
    obtain ⟨haddr, hpath⟩ := ih (by omega)
    exact addr_step haddr hpath (by omega)

theorem pathAddr_toNat (p : BlockPath) {h : Nat} (hh : h ≤ 31) : (pathAddr p h).toNat = nodeAddr p.toNat h :=
  (pathLoop_toNat p hh).1

/-- The table of the eviction holds the addresses of all levels. -/
theorem evictAddrTable_eq_pathAddr {height h : Nat} (hheight : height ≤ 31) (p : BlockPath) (hh : h ≤ height) :
    evictAddrTable height p h = pathAddr p h := by
  rw [← UInt32.toNat_inj, evictAddrTable_spec hheight p hh, pathAddr_toNat p (hh.trans hheight)]

/-- The next address, computed without a bound, still fits into 32 bits. -/
theorem pathLoop_fits (p : BlockPath) {h : Nat} (hh : h < 31) :
    (pathLoop p h).addr.toNat * 2 + 1 + (pathLoop p h).treePath.toNat % 2 < 2 ^ 32 := by
  obtain ⟨haddr, hpath⟩ := pathLoop_toNat p hh.le
  have hlt := nodeAddr_lt_two_pow (p := p.toNat) (show h + 1 < 32 by omega)
  rw [nodeAddr_succ] at hlt
  rw [haddr, hpath]
  omega

theorem pathAddr_eq_iff (p q : BlockPath) {g h : Nat} (hg : g ≤ 31) (hh : h ≤ 31) :
    pathAddr p g = pathAddr q h ↔ g = h ∧ OnPath q h p := by
  rw [← UInt32.toNat_inj, pathAddr_toNat p hg, pathAddr_toNat q hh, OnPath]
  constructor
  · intro heq
    obtain rfl := level_unique heq
    exact ⟨rfl, heq⟩
  · rintro ⟨rfl, heq⟩
    exact heq

/-! ## The tests -/

/-- The bits below `h` agree one by one if the paths agree down to level `h`. -/
theorem forall_pathBit_iff (p q : BlockPath) {h : Nat} (hh : h ≤ 32) :
    (∀ k < h, p &&& pathBit k = q &&& pathBit k) ↔ OnPath q h p := by
  induction h with
  | zero => simp [OnPath]
  | succ h ih =>
    rw [onPath_succ, ← ih (by omega), ← and_pathBit_eq_iff p q (show h < 32 by omega)]
    constructor
    · intro hall
      exact ⟨fun k hk => hall k (by omega), hall h (Nat.lt_succ_self h)⟩
    · rintro ⟨hall, hlast⟩ k hk
      by_cases hkh : k = h
      · subst hkh
        exact hlast
      · exact hall k (by omega)

/-- In the tree of an object: the addresses of two paths meet exactly where the masks agree, the bit tests say the
same, and all addresses lie in the tree. -/
theorem pathAddr_tests (capacity : Nat) (hheight : computeTreeHeight capacity ≤ 31) (p q : BlockPath) {g h : Nat}
    (hg : g < computeTreeHeight capacity) (hh : h < computeTreeHeight capacity) :
    (pathAddr p g = pathAddr q h ↔ g = h ∧ p &&& pathMask h = q &&& pathMask h) ∧
      ((∀ k < h, p &&& pathBit k = q &&& pathBit k) ↔ p &&& pathMask h = q &&& pathMask h) ∧
      evictAddrTable (computeTreeHeight capacity) p h = pathAddr p h ∧
      (pathAddr p h).toNat < 2 ^ computeTreeHeight capacity ∧
      ∀ k < computeTreeHeight capacity,
        (pathLoop p k).addr.toNat * 2 + 1 + (pathLoop p k).treePath.toNat % 2 < 2 ^ 32 := by
  have hmask := and_pathMask_eq_iff q p (show h < 32 by omega)
  refine ⟨?_, ?_, evictAddrTable_eq_pathAddr hheight p hh.le, ?_, fun k hk => pathLoop_fits p (by omega)⟩
  · rw [pathAddr_eq_iff p q (by omega) (by omega), hmask]
  · rw [forall_pathBit_iff p q (by omega), hmask]
  · rw [pathAddr_toNat p (by omega)]
    exact nodeAddr_lt_two_pow hh

/-- In a tree of height 3 the paths 6 and 2 meet at level 2. -/
theorem pathAddr_tests_meet :
    pathAddr 6 2 = pathAddr 2 2 ∧ ((6 : BlockPath) &&& pathMask 2 = 2 &&& pathMask 2) := by
  have hheight : computeTreeHeight 5 = 3 := by simp [computeTreeHeight]
  have key := pathAddr_tests 5 (by omega) 6 2 (show 2 < computeTreeHeight 5 by omega)
    (show 2 < computeTreeHeight 5 by omega)
  exact ⟨key.1.mpr ⟨rfl, by decide⟩, key.2.1.mp (by decide)⟩

/-! ## The server's tree -/

/-- Along any path a fresh tree holds the empty nodes that it was given. -/
theorem initializeMemTree_pathAddr {K : Cipher bs N B} (hK : K.Correct) {A : BufferAddrs} {treeId capacity : Nat}
    (hheight : computeTreeHeight capacity ≤ 31) {host host' : Host B} {t : MemTree N}
    (hrun : initializeMemTree K A treeId (computeTreeHeight capacity) host = some (t, host')) (p : BlockPath) {h : Nat}
    (hh : h < t.height) :
    decryptData K.node (t.nodes (pathAddr p h).toNat) = emptyNode (A.addr treeId (pathAddr p h).toNat) := by
  obtain ⟨-, -, hth, hnodes⟩ := initializeMemTree_spec hK hrun
  rw [hth] at hh
  apply hnodes
  rw [pathAddr_toNat p (by omega)]
  exact nodeAddr_lt_two_pow hh

end SgxOram
