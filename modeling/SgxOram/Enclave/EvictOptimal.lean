import SgxOram.Enclave.EvictSpec
import SgxOram.Lib.Placement

/-!
# Where an eviction puts the blocks

* `evict_conserves` : the blocks of the stash are afterwards in the stash or in the nodes of the path,
  each once and at a level where it may be;
* `evict_greedy` : the placement is greedy in the sense of `Lib.Greedy`;
* `evict_optimal` : no legal placement puts more blocks on the levels from `h` on.
-/

namespace SgxOram
open Lib Finset

variable {bs : Nat} {N B : Type}

/-! ## Conservation -/

/-- An eviction moves the blocks of the stash into the nodes of the path: none is lost or doubled, none
is put where it may not be, and the rest of the tree stays. -/
theorem evict_conserves (h8 : 8 ∣ bs) {K : Cipher bs N B} (hK : K.Correct) (t : MemTree N)
    (hh : t.height < clientMaxPath) (p : BlockPath) {w : World bs B}
    (hdist : DistinctBackup w.client.encryptedDataAddrInPath t.height) :
    let r := ecallEvictPathOutsideEnclavePathOram K t p w
    stashBag w.client.path =
        stashBag r.2.client.path + ∑ h ∈ range t.height, (nodeRow K r.1 r.2.host.bufs (nodeAddr p.toNat h)).bag ∧
      (∀ h < t.height, (nodeRow K r.1 r.2.host.bufs (nodeAddr p.toNat h)).bag.card ≤ blocksPerNode ∧
        ∀ b ∈ (nodeRow K r.1 r.2.host.bufs (nodeAddr p.toNat h)).bag, b.path.toNat % 2 ^ h = p.toNat % 2 ^ h) ∧
      (∀ n, (∀ h < t.height, n ≠ nodeAddr p.toNat h) → r.1.nodes n = t.nodes n) ∧
      ∀ a, (∀ h < t.height, ∀ i, a ≠ w.client.encryptedDataAddrInPath h i) →
        r.2.host.bufs a = w.host.bufs a := by
  have hlt : t.height < 20 := hh
  have he := evict_spec hK t (by omega) p w
  have hb := evict_bag_spec h8 hK t (by omega) p hdist
  refine ⟨?_, fun h hlt => ⟨Row.card_bag_le _, fun b hmem => ?_⟩, fun n hn => ?_, fun a ha => ?_⟩
  · rw [← hb.bag, sum_evictLevels]
  · rw [← onPath_iff]
    exact hb.onPath h (mem_evictLevels.mpr hlt) b hmem
  · exact he.nodes n fun h hmem => hn h (mem_evictLevels.mp hmem)
  · exact he.bufs a fun h hmem => ha h (mem_evictLevels.mp hmem)

/-- A stash row with a block of key 2 on path 1 and a block of key 3 on path 0. -/
def twoBlockRow : Row 8 where
  node := ⟨2, fun i => if i = 0 then ⟨1, 2, 0, 1⟩ else if i = 1 then ⟨0, 3, 0, 1⟩ else ⟨0, 0, 0, 0⟩⟩
  blocks _ := zeroBlock 8

/-- The stash holds `twoBlockRow` only; the buffers of slot `i` at level `h` are `4 h + i`. -/
def twoBlockWorld : World 8 (Option (Block 8)) where
  client := { emptyClient 8 with
    path := Function.update (emptyClient 8).path 0 twoBlockRow
    encryptedDataAddrInPath := fun h i => 4 * h + i.val
    stashLoad := 2 }
  host := .filled none

/-- A tree of height 2 whose nodes were never written. -/
def blankTree : MemTree (Option MemTreeNode) := ⟨0, 2, fun _ => none⟩

theorem twoBlockWorld_distinct : DistinctBackup twoBlockWorld.client.encryptedDataAddrInPath blankTree.height := by
  intro g _ h _ i j hij
  have hij : 4 * g + i.val = 4 * h + j.val := hij
  have hi : i.val < 4 := i.isLt
  have hj : j.val < 4 := j.isLt
  exact ⟨by omega, by omega⟩

theorem evict_conserves_twoBlocks :
    let r := ecallEvictPathOutsideEnclavePathOram (Cipher.pairing 8) blankTree 1 twoBlockWorld
    stashBag twoBlockWorld.client.path = stashBag r.2.client.path +
        ∑ h ∈ range 2, (nodeRow (Cipher.pairing 8) r.1 r.2.host.bufs (nodeAddr 1 h)).bag ∧
      r.1.nodes 1 = none := by
  obtain ⟨hbag, -, hnodes, -⟩ := evict_conserves (dvd_refl 8) (Cipher.pairing_correct 8) blankTree (by decide) 1
    twoBlockWorld_distinct
  exact ⟨hbag, hnodes 1 (by decide)⟩

/-! ## Optimality -/

/-- What the eviction writes to a level of the path is `temp_node` at the end of that level. -/
theorem evict_writes (K : Cipher bs N B) (t : MemTree N) (hh : t.height ≤ 31) (p : BlockPath) (w : World bs B) :
    ∀ l < t.height, ∃ iv, (ecallEvictPathOutsideEnclavePathOram K t p w).1.nodes (nodeAddr p.toNat l) =
      encryptData K.node iv (evictTemp p w.client t.height l).node := by
  have key := foldl_inv (f := evictLevel K (evictAddrTable t.height p) p)
    (P := fun done tw => tw.2.client = done.foldl (levelClient p) w.client ∧
      ∀ l ∈ done, ∃ iv, tw.1.nodes (nodeAddr p.toNat l) =
        encryptData K.node iv (evictTemp p w.client t.height l).node)
    (evictLevels t.height) (t, w) ⟨rfl, fun l hl => absurd hl List.not_mem_nil⟩ ?_
  · exact fun l hl => key.2 l (mem_evictLevels.mpr hl)
  · intro done h tw hpre ⟨hclient, hdone⟩
    have hlt := mem_evictLevels.mp (mem_of_step hpre)
    have hnew := not_mem_of_done (nodup_evictLevels _) hpre
    rw [evictLevel_eq K p tw.1 tw.2 (evictAddrTable_spec hh p hlt.le)]
    refine ⟨by simp [hclient], forall_mem_concat (fun l hl => ?_) ?_⟩
    · have hlh : nodeAddr p.toNat l ≠ nodeAddr p.toNat h := fun e =>
        hnew (nodeAddr_injective p.toNat e ▸ hl)
      simp only [Function.update_of_ne hlh]
      exact hdone l hl
    · rw [evictTemp, ← evictLevels_done hpre]
      exact ⟨tw.2.host.rand, by simp [hclient]⟩

/-- The eviction goes from the leaf to the root and fills every node with what may go there. -/
theorem evict_greedy (h8 : 8 ∣ bs) (p : BlockPath) (c : Client bs) {height : Nat} (hh : height ≤ 31) :
    Greedy (fun l (b : Blk bs) => OnPath p l b.path) blocksPerNode height (stashBag c.path)
      (stashBag ((evictLevels height).foldl (levelClient p) c).path)
      fun l => (evictTemp p c height l).bag := by
  have hp := evict_placed h8 p c hh
  refine ⟨?_, fun h hlt b hb hon => ?_⟩
  · rw [← hp.bag, sum_evictLevels]
  · apply hp.greedy h (mem_evictLevels.mpr hlt) b _ hon
    rcases hb with hb | ⟨g, hg, hb⟩
    · exact Or.inl hb
    · exact Or.inr ⟨g, mem_evictLevels.mpr (hg.trans hlt), hg, hb⟩

/-- The placements that the eviction may choose from. -/
def LegalPlacement (p : BlockPath) (height : Nat) (path : Nat → Row bs) (f : Nat → Multiset (Blk bs)) : Prop :=
  Placement (fun l (b : Blk bs) => b.path.toNat % 2 ^ l = p.toNat % 2 ^ l) blocksPerNode height (stashBag path) f

/-- No legal placement puts more blocks on the levels from `h` on than the eviction writes there, and
none leaves fewer blocks in the stash. -/
theorem evict_optimal (h8 : 8 ∣ bs) (K : Cipher bs N B) (t : MemTree N) (hh : t.height < clientMaxPath)
    (p : BlockPath) (w : World bs B) :
    let r := ecallEvictPathOutsideEnclavePathOram K t p w
    (∀ l < t.height, ∃ iv, r.1.nodes (nodeAddr p.toNat l) =
        encryptData K.node iv (evictTemp p w.client t.height l).node) ∧
      ∀ f, LegalPlacement p t.height w.client.path f →
        (∀ h < t.height, ∑ l ∈ Ico h t.height, (f l).card ≤
            ∑ l ∈ Ico h t.height, (evictTemp p w.client t.height l).bag.card) ∧
          (stashBag r.2.client.path).card + ∑ l ∈ range t.height, (f l).card ≤ (stashBag w.client.path).card := by
  have hlt : t.height < 20 := hh
  have hgreedy := evict_greedy h8 p w.client (show t.height ≤ 31 by omega)
  have hok : ∀ g h (b : Blk bs), g ≤ h → OnPath p h b.path → OnPath p g b.path := fun g h b hgh => OnPath.mono hgh
  refine ⟨evict_writes K t (by omega) p w, fun f hf => ⟨fun h hh => ?_, ?_⟩⟩
  · simp only [LegalPlacement, ← onPath_iff] at hf
    exact hgreedy.optimal hok hf hh.le
  · simp only [LegalPlacement, ← onPath_iff] at hf
    rw [ecallEvictPathOutsideEnclavePathOram, evict_client]
    exact hgreedy.rest_minimal hok hf

/-- The block of key 2 alone at the leaf of path 1. -/
def oneLeaf (l : Nat) : Multiset (Blk 8) := if l = 1 then {⟨2, 1, zeroBlock 8⟩} else 0

theorem oneLeaf_legal : LegalPlacement 1 2 twoBlockWorld.client.path oneLeaf where
  le := by
    rw [sum_range_succ, sum_range_one, oneLeaf, oneLeaf, if_neg (by decide), if_pos rfl, zero_add,
      Multiset.singleton_le]
    exact mem_stashBag.mpr ⟨0, by decide, Row.mem_bag.mpr ⟨0, rfl⟩⟩
  card_le l _ := by
    unfold oneLeaf
    split <;> decide
  ok l hl b hb := by
    unfold oneLeaf at hb
    split at hb
    · subst l
      rw [Multiset.mem_singleton.mp hb]
    · exact absurd hb (Multiset.notMem_zero b)

theorem evict_optimal_twoBlocks :
    ∑ l ∈ Ico 1 2, (oneLeaf l).card ≤ ∑ l ∈ Ico 1 2, (evictTemp 1 twoBlockWorld.client 2 l).bag.card :=
  ((evict_optimal (dvd_refl 8) (Cipher.pairing 8) blankTree (by decide) 1 twoBlockWorld).2 oneLeaf oneLeaf_legal).1 1
    (by decide)

end SgxOram
