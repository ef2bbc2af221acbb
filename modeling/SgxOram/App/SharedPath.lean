import SgxOram.App.SimpleStore

/-!
# Several trees, one `client->path`

A fetch downloads the `height` nodes of its path and scans all rows of `client->path`, so that the rows
from `height` on are those that earlier calls on other trees have left.

* `Trees`, `TreeOp`, `runTreeOp` : any number of trees and the calls of `MemTree.cpp` on them;
* `FetchAnswers` : what `MemTree.h` says about `MemTreeFetch`;
* `FetchSound` : the first row of the scan that holds the key is a node with one such slot, or a left over
  row with a zero block;
* `TreesInv` : what holds in every reachable state; `memTreeFetch_answers_iff`.
-/

namespace SgxOram
open Lib

variable {bs : Nat} {N B : Type} {D : Build bs N B} {A : BufferAddrs}

/-! ## Runs -/

/-- The trees of a process, with their numbers. -/
structure Trees (bs : Nat) (N B : Type) where
  trees : Nat → Option (MemTree N)
  world : World bs B

/-- The calls of `MemTree.cpp`. -/
inductive TreeOp (bs : Nat)
  | init (id height : Nat)
  | fetch (id : Nat) (blockPath : BlockPath) (blockKey : BlockKey)
  | put (id : Nat) (blockPath : BlockPath) (blockKey : BlockKey) (blockContent : Block bs)
  | flush (id : Nat) (randPath : BlockPath)

/-- One call. `none` is a failing assert, or a call on a tree that does not exist or exists already. -/
def runTreeOp (D : Build bs N B) (A : BufferAddrs) (s : Trees bs N B) : TreeOp bs → Option (Trees bs N B)
  | .init id height =>
    if (s.trees id).isNone ∧ height < clientMaxPath then
      (D.initMemTree A id height s.world.host).map fun th =>
        ⟨Function.update s.trees id (some th.1), { s.world with host := th.2 }⟩
    else none
  | .fetch id blockPath blockKey =>
    (s.trees id).map fun t =>
      let f := memTreeFetch D t blockPath blockKey s.world
      ⟨Function.update s.trees id (some f.tree), f.world⟩
  | .put id blockPath blockKey blockContent =>
    (s.trees id).bind fun t =>
      (memTreePut D t blockPath blockKey blockContent s.world).map fun put =>
        ⟨Function.update s.trees id (some put.tree), put.world⟩
  | .flush id randPath =>
    (s.trees id).map fun t =>
      let f := memTreeFlush D t randPath s.world
      ⟨Function.update s.trees id (some f.1), f.2⟩

/-! ## The contract -/

section Contract
variable (D) (t : MemTree N) (p : BlockPath) (key : BlockKey) (w : World bs B)

/-- Slot `j` of the node of path `p` at level `r` holds the key. -/
def HeldAt (r : Nat) (j : Fin blocksPerNode) : Prop :=
  r < t.height ∧ (D.load t w.host.bufs (nodeAddr p.toNat r)).Hit key j

/-- "Fetch the block with the block key. If block_key does not exist, return a zero block." -/
structure FetchAnswers : Prop where
  found : (∃ r j, HeldAt D t p key w r j) → ∃ r j, HeldAt D t p key w r j ∧
    (memTreeFetch D t p key w).fetchedBlock = (D.load t w.host.bufs (nodeAddr p.toNat r)).blocks j ∧
    ∀ n < 2 ^ t.height, ∀ i,
      (D.load (memTreeFetch D t p key w).tree (memTreeFetch D t p key w).world.host.bufs n).blk i =
        if n = nodeAddr p.toNat r ∧ i = j then none else (D.load t w.host.bufs n).blk i
  absent : (¬ ∃ r j, HeldAt D t p key w r j) → (memTreeFetch D t p key w).fetchedBlock = zeroBlock bs ∧
    ∀ n < 2 ^ t.height, ∀ i,
      (D.load (memTreeFetch D t p key w).tree (memTreeFetch D t p key w).world.host.bufs n).blk i =
        (D.load t w.host.bufs n).blk i

/-- The first scanned row that holds the key is a node that holds it once, or a left over row whose last slot
with the key has a zero block. -/
def FetchSound : Prop :=
  ∀ r < clientMaxPath, (∀ x < r, ∀ i, ¬ (scannedRows D t p w x).Hit key i) →
    ∀ j, (scannedRows D t p w r).Hit key j → (∀ i, (scannedRows D t p w r).Hit key i → i ≤ j) →
      if r < t.height then ∀ i, (scannedRows D t p w r).Hit key i → i = j
      else (scannedRows D t p w r).blocks j = zeroBlock bs

end Contract

/-! ## What a fetch answers -/

section Scan
variable {id : Nat} {t : MemTree N} {w : World bs B} {p : BlockPath} {key : BlockKey}

theorem heldAt_iff {r : Nat} {j : Fin blocksPerNode} :
    HeldAt D t p key w r j ↔ r < t.height ∧ (scannedRows D t p w r).Hit key j := by
  unfold HeldAt
  constructor
  · intro ⟨hr, hj⟩
    rw [scannedRows_node hr]
    exact ⟨hr, hj⟩
  · intro ⟨hr, hj⟩
    rw [scannedRows_node hr] at hj
    exact ⟨hr, hj⟩

/-- No scanned row holds the key. -/
theorem fetchAnswers_of_absent (hD : D.Correct) (h : TreeSound D A id t w.host.bufs)
    (hmiss : ∀ r < clientMaxPath, ∀ i, ¬ (scannedRows D t p w r).Hit key i) : FetchAnswers D t p key w := by
  obtain ⟨hpath, hzero⟩ := fetchLoop_absent hmiss
  refine ⟨fun ⟨r, j, hj⟩ => ?_, fun _ => ⟨(memTreeFetch_block hD h).trans hzero, fun n hn i => ?_⟩⟩
  · obtain ⟨hr, hj⟩ := heldAt_iff.mp hj
    exact absurd hj (hmiss r (hr.trans h.height) j)
  · rw [memTreeFetch_loads hD h hn, hpath, overlay_scanned fun _ _ _ => rfl]

/-- The first scanned row with the key is a left over row: the fetch answers with its block. -/
theorem fetchAnswers_of_stale (hD : D.Correct) (h : TreeSound D A id t w.host.bufs) {r : Nat} (hr : r < clientMaxPath)
    (hstale : t.height ≤ r) {j : Fin blocksPerNode} (hj : (scannedRows D t p w r).Hit key j)
    (hlast : ∀ i, (scannedRows D t p w r).Hit key i → i ≤ j)
    (habove : ∀ x < r, ∀ i, ¬ (scannedRows D t p w x).Hit key i) :
    FetchAnswers D t p key w ↔ (scannedRows D t p w r).blocks j = zeroBlock bs := by
  have hnone : ¬ ∃ r j, HeldAt D t p key w r j := by
    intro ⟨x, i, hi⟩
    obtain ⟨hx, hi⟩ := heldAt_iff.mp hi
    exact habove x (by omega) i hi
  obtain ⟨hpath, i, hi, hmax, hblock⟩ := fetchLoop_first h.dvd hr hj habove
  obtain rfl : i = j := le_antisymm (hlast i hi) (hmax j hj)
  rw [← memTreeFetch_block hD h] at hblock
  constructor
  · intro hans
    rw [← hblock]
    exact (hans.absent hnone).1
  · intro hzero
    refine ⟨fun hex => absurd hex hnone, fun _ => ⟨hblock.trans hzero, fun n hn i => ?_⟩⟩
    rw [memTreeFetch_loads hD h hn, hpath, overlay_scanned fun x hx _ => Function.update_of_ne (by omega) _ _]

/-- The first scanned row with the key is a node. -/
theorem fetchAnswers_of_node (hD : D.Correct) (h : TreeSound D A id t w.host.bufs) {r : Nat} (hr : r < t.height)
    {j : Fin blocksPerNode} (hj : (scannedRows D t p w r).Hit key j)
    (hlast : ∀ i, (scannedRows D t p w r).Hit key i → i ≤ j)
    (habove : ∀ x < r, ∀ i, ¬ (scannedRows D t p w x).Hit key i) :
    FetchAnswers D t p key w ↔ ∀ i, (scannedRows D t p w r).Hit key i → i = j := by
  have hwf : (scannedRows D t p w r).Wf := by
    rw [scannedRows_node hr]
    exact h.placed.wf _ (nodeAddr_lt_two_pow hr)
  obtain ⟨hpath, i, hi, hmax, hblock⟩ := fetchLoop_first h.dvd (hr.trans h.height) hj habove
  obtain rfl : i = j := le_antisymm (hlast i hi) (hmax j hj)
  have hread := (obliviousNodeRead_blk h.dvd false hwf key (zeroBlock bs) 0).2
  rw [← memTreeFetch_block hD h, scannedRows_node hr] at hblock
  -- the slots of the node after the fetch
  have hnode : ∀ k, (D.load (memTreeFetch D t p key w).tree (memTreeFetch D t p key w).world.host.bufs
      (nodeAddr p.toNat r)).blk k =
        if (scannedRows D t p w r).Hit key k then none else (D.load t w.host.bufs (nodeAddr p.toNat r)).blk k := by
    intro k
    rw [memTreeFetch_loads hD h (nodeAddr_lt_two_pow hr), overlay_on _ _ hr, hpath, Function.update_self, hread k,
      scannedRows_node hr]
  constructor
  · intro hans k hk
    obtain ⟨x, l, -, -, hrest⟩ := hans.found ⟨r, i, heldAt_iff.mpr ⟨hr, hi⟩⟩
    -- every slot with the key is emptied, and only slot `l` of node `x` may be
    have honly : ∀ k, (scannedRows D t p w r).Hit key k → k = l := by
      intro k hk
      have hk' := hrest (nodeAddr p.toNat r) (nodeAddr_lt_two_pow hr) k
      rw [hnode k, if_pos hk] at hk'
      by_contra hne
      rw [if_neg fun hc => hne hc.2] at hk'
      rw [scannedRows_node hr] at hk
      exact hk.2 (Row.blk_eq_none.mp hk'.symm)
    rw [honly k hk, honly i hi]
  · intro honly
    refine ⟨fun _ => ⟨r, i, heldAt_iff.mpr ⟨hr, hi⟩, hblock, fun n hn k => ?_⟩,
      fun hnone => absurd ⟨r, i, heldAt_iff.mpr ⟨hr, hi⟩⟩ hnone⟩
    by_cases hnr : n = nodeAddr p.toNat r
    · subst hnr
      rw [hnode k]
      exact if_congr ⟨fun hk => ⟨rfl, honly k hk⟩, fun hk => hk.2 ▸ hi⟩ rfl rfl
    · rw [memTreeFetch_loads hD h hn, hpath, if_neg fun hc => hnr hc.1, overlay_scanned fun x _ hx => ?_]
      have hne : x ≠ r := fun e => hnr (e ▸ hx)
      exact Function.update_of_ne hne _ _

/-- Exactly when a fetch keeps its contract. -/
theorem TreeSound.fetchAnswers_iff (hD : D.Correct) (h : TreeSound D A id t w.host.bufs) :
    FetchAnswers D t p key w ↔ FetchSound D t p key w := by
  by_cases hex : ∃ r, r < clientMaxPath ∧ ∃ j, (scannedRows D t p w r).Hit key j
  · obtain ⟨y, hy, hhit⟩ := hex
    obtain ⟨r, hry, ⟨j₀, hj₀⟩, hleast⟩ := exists_least (p := fun r => ∃ i, (scannedRows D t p w r).Hit key i) hhit
    have hr : r < clientMaxPath := lt_of_le_of_lt hry hy
    have habove : ∀ x < r, ∀ i, ¬ (scannedRows D t p w x).Hit key i := fun x hx i hi => hleast x hx ⟨i, hi⟩
    obtain ⟨-, j, hj, hlast, -⟩ := fetchLoop_first h.dvd hr hj₀ habove
    have hfirst : FetchSound D t p key w ↔
        if r < t.height then ∀ i, (scannedRows D t p w r).Hit key i → i = j
        else (scannedRows D t p w r).blocks j = zeroBlock bs := by
      refine ⟨fun hs => hs r hr habove j hj hlast, fun hs x _ hx i hi hmax => ?_⟩
      obtain rfl : x = r := by
        rcases lt_trichotomy x r with hlt | heq | hgt
        · exact absurd hi (habove x hlt i)
        · exact heq
        · exact absurd hj (hx r hgt j)
      obtain rfl : i = j := le_antisymm (hlast i hi) (hmax j hj)
      exact hs
    rw [hfirst]
    split
    next hlt => exact fetchAnswers_of_node hD h hlt hj hlast habove
    next hge => exact fetchAnswers_of_stale hD h hr (not_lt.mp hge) hj hlast habove
  · push Not at hex
    exact ⟨fun _ r hr _ j hj => absurd hj (hex r hr j), fun _ => fetchAnswers_of_absent hD h hex⟩

end Scan

/-! ## Reachable states -/

/-- The trees are well formed, and so is every row of the client. -/
structure TreesInv (D : Build bs N B) (A : BufferAddrs) (s : Trees bs N B) : Prop where
  client : ∀ r, (s.world.client.path r).Wf
  trees : ∀ id t, s.trees id = some t → TreeSound D A id t s.world.host.bufs

/-- A call on one tree. -/
theorem TreesInv.call {s : Trees bs N B} (h : TreesInv D A s) {id : Nat} {t' : MemTree N} {v : World bs B}
    (hclient : ∀ r, (v.client.path r).Wf) (htree : TreeSound D A id t' v.host.bufs)
    (hothers : SameBufs A {id}ᶜ s.world.host.bufs v.host.bufs) :
    TreesInv D A ⟨Function.update s.trees id (some t'), v⟩ := by
  refine ⟨hclient, fun id' u (hu : Function.update s.trees id (some t') id' = some u) => ?_⟩
  by_cases hid : id' = id
  · subst hid
    rw [Function.update_self] at hu
    obtain rfl := Option.some.inj hu
    exact htree
  · rw [Function.update_of_ne hid] at hu
    exact (h.trees id' u hu).frame (hothers.mono (Set.singleton_subset_iff.mpr hid))

theorem TreesInv.run (hD : D.Correct) {s s' : Trees bs N B} (h : TreesInv D A s) {op : TreeOp bs}
    (hop : runTreeOp D A s op = some s') : TreesInv D A s' := by
  cases op with
  | init id height =>
    simp only [runTreeOp, Option.ite_none_right_eq_some, Option.map_eq_some_iff] at hop
    obtain ⟨⟨-, hlt⟩, ⟨t, host⟩, hinit, rfl⟩ := hop
    obtain ⟨h8, hfresh, hothers⟩ := initialize_fresh hD hinit
    exact h.call (v := { s.world with host := host }) h.client (hfresh.sound h8 hlt) fun id' hid n i =>
      hothers id' n i hid
  | fetch id p key =>
    simp only [runTreeOp, Option.map_eq_some_iff] at hop
    obtain ⟨t, ht, rfl⟩ := hop
    have hs := h.trees id t ht
    obtain ⟨htree, hstep⟩ := hs.fetch hD p key
    refine h.call (fun r => ?_) htree (hs.treeId ▸ hstep.others)
    rw [(memTreeFetch_rows hD hs.lt p key hs.rows).2.1]
    exact (fetchLoop_row hs.dvd (scannedRows_wf hs h.client r)).1
  | put id q key content =>
    simp only [runTreeOp, Option.bind_eq_some_iff, Option.map_eq_some_iff] at hop
    obtain ⟨t, ht, put, hput, rfl⟩ := hop
    have hs := h.trees id t ht
    obtain ⟨htree, hdone⟩ := hs.put hD hput
    refine h.call (fun r => ?_) htree (hs.treeId ▸ hdone.step.others)
    rw [hdone.path]
    by_cases hr : r = 0
    · subst hr
      rw [Function.update_self]
      exact obliviousNodeWrite_wf hs.dvd false (hs.placed.wf 0 (Nat.two_pow_pos _)) 0 key q content
    · rw [Function.update_of_ne hr]
      exact h.client r
  | flush id p =>
    simp only [runTreeOp, Option.map_eq_some_iff] at hop
    obtain ⟨t, ht, rfl⟩ := hop
    have hs := h.trees id t ht
    obtain ⟨htree, hstep⟩ := hs.flush hD p
    refine h.call (fun r => ?_) htree (hs.treeId ▸ hstep.others)
    rw [(memTreeFlush_rows hD hs.lt p hs.rows).1]
    have hpath := hs.placed.fill p s.world.client.path
    by_cases hr : r < t.height
    · exact (hpath.flush hs.dvd (hs.lt.trans (by decide))).wf r hr
    · rw [(flushPasses_spec hs.dvd (hs.lt.trans (by decide)) hpath.pathRows (Nat.sub_le _ 1)).rest r (not_lt.mp hr)]
      exact scannedRows_wf hs h.client r

/-- In every state that calls on any trees reach, a fetch keeps its contract exactly if the first row of its
scan with the key is a node with one such slot, or a left over row with a zero block. -/
theorem memTreeFetch_answers_iff (hD : D.Correct) {height : Nat} {c : Client bs}
    (hc : ecallInitClient bs height = some c) {host : Host B} {ops : List (TreeOp bs)} {s : Trees bs N B}
    (hrun : ops.foldlM (runTreeOp D A) ⟨fun _ => none, ⟨c, host⟩⟩ = some s) {id : Nat} {t : MemTree N}
    (ht : s.trees id = some t) (p : BlockPath) (key : BlockKey) :
    FetchAnswers D t p key s.world ↔ FetchSound D t p key s.world := by
  have hstart : TreesInv D A ⟨fun _ => none, ⟨c, host⟩⟩ := by
    simp only [ecallInitClient, Option.ite_none_right_eq_some, Option.some.injEq] at hc
    obtain ⟨-, rfl⟩ := hc
    exact ⟨fun r => Row.Wf.of_empty (fun _ => rfl) rfl, fun _ _ hnone => by cases hnone⟩
  have hinv : TreesInv D A s := foldlM_inv (P := fun _ s => TreesInv D A s) ops _ s hstart
    (fun _ _ _ _ _ h hop => h.run hD hop) hrun
  exact (hinv.trees id t ht).fetchAnswers_iff hD

/-- A tree of height 2 with one block, put and flushed, and a tree of height 1. -/
def staleOps : List (TreeOp 8) :=
  [.init 1 2, .init 2 1, .put 1 0 5 (fun _ => 7), .flush 1 0]

def staleStart : Trees 8 MemTreeNode (Block 8) :=
  ⟨fun _ => none, ⟨{ emptyClient 8 with clientHeighestHeight := 2 }, .filled (zeroBlock 8)⟩⟩

theorem staleStart_client : ecallInitClient 8 2 = some staleStart.world.client := rfl

/-- The tree of height 1 does not hold key 5, and a fetch of it there copies the block of the other tree out. -/
theorem staleOps_run :
    ((staleOps.foldlM (runTreeOp .plain .numbered) staleStart).bind fun s => (s.trees 2).map fun t =>
      ((memTreeFetch .plain t 0 5 s.world).fetchedBlock 0, t.height,
        decide (∃ j, (Build.plain.load t s.world.host.bufs 0).Hit 5 j))) = some (7, 1, false) := by
  decide +kernel

/-- The state that the run reaches. -/
theorem staleOps_reach : ∃ s t, staleOps.foldlM (runTreeOp .plain .numbered) staleStart = some s ∧
    s.trees 2 = some t ∧ t.height = 1 ∧ (memTreeFetch .plain t 0 5 s.world).fetchedBlock 0 = 7 ∧
    ¬ ∃ j, (Build.plain.load t s.world.host.bufs 0).Hit 5 j := by
  have hrun := staleOps_run
  simp only [Option.bind_eq_some_iff, Option.map_eq_some_iff, Prod.mk.injEq, decide_eq_false_iff_not] at hrun
  obtain ⟨s, hs, t, ht, hblock, hheight, habsent⟩ := hrun
  exact ⟨s, t, hs, ht, hheight, hblock, habsent⟩

theorem memTreeFetch_answers_iff_stale : ∃ s t,
    staleOps.foldlM (runTreeOp .plain .numbered) staleStart = some s ∧ s.trees 2 = some t ∧
      (FetchAnswers .plain t 0 5 s.world ↔ FetchSound .plain t 0 5 s.world) := by
  obtain ⟨s, t, hs, ht, -⟩ := staleOps_reach
  exact ⟨s, t, hs, ht, memTreeFetch_answers_iff (Build.plain_correct 8) staleStart_client hs ht 0 5⟩

/-- The tree of height 1 does not hold key 5, and the fetch does not answer with a zero block. -/
theorem memTreeFetch_stale : ∃ s t,
    staleOps.foldlM (runTreeOp .plain .numbered) staleStart = some s ∧ s.trees 2 = some t ∧
      (¬ ∃ r j, HeldAt .plain t 0 5 s.world r j) ∧ ¬ FetchAnswers .plain t 0 5 s.world := by
  obtain ⟨s, t, hs, ht, hheight, hblock, habsent⟩ := staleOps_reach
  have hnone : ¬ ∃ r j, HeldAt .plain t 0 5 s.world r j := by
    intro ⟨r, j, hr, hj⟩
    obtain rfl : r = 0 := by omega
    exact habsent ⟨j, hj⟩
  refine ⟨s, t, hs, ht, hnone, fun hans => ?_⟩
  rw [(hans.absent hnone).1] at hblock
  exact absurd hblock (by decide)

end SgxOram
