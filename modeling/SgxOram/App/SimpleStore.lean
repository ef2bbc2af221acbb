import SgxOram.App.SimpleTree

/-!
# A tree of the builds without `PATH_ORAM` as a store

* `RowsPlaced` : the nodes of a tree are well formed and every block lies on its path; `PathWf` : the same
  for the rows of the client that hold a path;
* `fetchLoop_idle`, `fetchLoop_row`, `fetchLoop_first` : the loop of a fetch, row by row;
* `TreeSound`, `TreeSound.fetch`, `TreeSound.put`, `TreeSound.flush` : the calls keep a tree well formed,
  whatever the client holds;
* `scannedRows` : the rows that a fetch scans;
* `SimpleStored` : a tree and the map that it holds; `SimpleStored.fetch_none`, `SimpleStored.fetch_some`,
  `SimpleStored.put`, `SimpleStored.flush` : the calls on this map;
* `ClientStep` : what a call leaves of the client;
* `LevelLeft` : what one level of an access leaves, `levelMoves` : what the server sees of it.
-/

namespace SgxOram
open Lib Finset

variable {bs : Nat} {N B : Type}

/-! ## Well-formed rows -/

/-- The rows below `height` are well formed and hold blocks of path `p` only. -/
structure PathWf (p : BlockPath) (height : Nat) (rows : Nat → Row bs) : Prop where
  wf : ∀ r < height, (rows r).Wf
  onPath : ∀ r < height, ∀ b ∈ (rows r).bag, OnPath p r b.path

theorem PathWf.pathRows {p : BlockPath} {height : Nat} {rows : Nat → Row bs} (h : PathWf p height rows) :
    PathRows p height rows := ⟨fun r hr => (h.wf r hr).count, h.onPath⟩

/-- The nodes of a tree are well formed and every block lies on its path. -/
structure RowsPlaced (height : Nat) (ρ : Nat → Row bs) : Prop where
  wf : ∀ n < 2 ^ height, (ρ n).Wf
  placed : ∀ n < 2 ^ height, ∀ b ∈ (ρ n).bag, ∃ h ≤ height - 1, n = nodeAddr b.path.toNat h

section Rows
variable {p : BlockPath} {height : Nat} {ρ rows : Nat → Row bs}

theorem RowsPlaced.congr {ρ' : Nat → Row bs} (h : RowsPlaced height ρ) (heq : ∀ n < 2 ^ height, ρ' n = ρ n) :
    RowsPlaced height ρ' := by
  refine ⟨fun n hn => ?_, fun n hn => ?_⟩
  · rw [heq n hn]
    exact h.wf n hn
  · rw [heq n hn]
    exact h.placed n hn

/-- A downloaded path. -/
theorem RowsPlaced.fill (h : RowsPlaced height ρ) (p : BlockPath) (path : Nat → Row bs) :
    PathWf p height (fill p height ρ path) := by
  refine ⟨fun r hr => ?_, fun r hr b hb => ?_⟩
  · rw [SgxOram.fill, if_pos hr]
    exact h.wf _ (nodeAddr_lt_two_pow hr)
  · rw [SgxOram.fill, if_pos hr] at hb
    obtain ⟨g, -, hg⟩ := h.placed _ (nodeAddr_lt_two_pow hr) b hb
    obtain rfl := level_unique hg
    exact hg.symm

/-- An uploaded path. -/
theorem RowsPlaced.overlay (h : RowsPlaced height ρ) (hrows : PathWf p height rows) :
    RowsPlaced height (SgxOram.overlay p height rows ρ) := by
  have hcases : ∀ n, (∃ r < height, n = nodeAddr p.toNat r) ∨ SgxOram.overlay p height rows ρ n = ρ n := by
    intro n
    by_cases hon : ∃ r < height, n = nodeAddr p.toNat r
    · exact Or.inl hon
    · push Not at hon
      exact Or.inr (overlay_off rows ρ hon)
  refine ⟨fun n hn => ?_, fun n hn b hb => ?_⟩ <;> rcases hcases n with ⟨r, hr, rfl⟩ | hoff
  · rw [overlay_on rows ρ hr]
    exact hrows.wf r hr
  · rw [hoff]
    exact h.wf n hn
  · rw [overlay_on rows ρ hr] at hb
    exact ⟨r, by omega, (hrows.onPath r hr b hb).symm⟩
  · rw [hoff] at hb
    exact h.placed n hn b hb

/-- A block may always be put into the root. -/
theorem RowsPlaced.root (h : RowsPlaced height ρ) {row : Row bs} (hwf : row.Wf) :
    RowsPlaced height (Function.update ρ 0 row) := by
  refine ⟨fun n hn => ?_, fun n hn b hb => ?_⟩ <;> by_cases hn0 : n = 0
  · subst hn0
    rwa [Function.update_self]
  · rw [Function.update_of_ne hn0]
    exact h.wf n hn
  · exact ⟨0, Nat.zero_le _, hn0⟩
  · rw [Function.update_of_ne hn0] at hb
    exact h.placed n hn b hb

/-! ## The loop of a fetch -/

variable {key : BlockKey}

theorem fetchRow_path (key : BlockKey) (st : FetchLoop bs) (r : Nat) :
    (fetchRow false key st r).path =
      if st.succ then st.path
      else Function.update st.path r
        (obliviousNodeRead false (st.path r) key st.fetchedBlock st.encryptedContentPtr).row := by
  unfold fetchRow
  split <;> rfl

/-- Rows that do not hold the key stay. -/
theorem fetchLoop_idle {x : Nat} (h : ∀ b ∈ (rows x).bag, b.key ≠ key) : (fetchLoop key rows).path x = rows x := by
  refine foldl_inv (f := fetchRow false key) (P := fun _ (st : FetchLoop bs) => st.path x = rows x)
    (List.range clientMaxPath) ⟨rows, zeroBlock bs, 0, false, []⟩ rfl ?_
  intro done r st _ hst
  rw [fetchRow_path]
  split
  · exact hst
  · by_cases hxr : x = r
    · subst hxr
      rw [hst, obliviousNodeRead_of_absent false _ _ h, Function.update_self]
    · rw [Function.update_of_ne hxr, hst]

/-- A fetch keeps rows well formed and adds no blocks to them. -/
theorem fetchLoop_row (h8 : 8 ∣ bs) {x : Nat} (hwf : (rows x).Wf) :
    ((fetchLoop key rows).path x).Wf ∧ ∀ b ∈ ((fetchLoop key rows).path x).bag, b ∈ (rows x).bag := by
  refine foldl_inv (f := fetchRow false key)
    (P := fun _ (st : FetchLoop bs) => (st.path x).Wf ∧ ∀ b ∈ (st.path x).bag, b ∈ (rows x).bag)
    (List.range clientMaxPath) ⟨rows, zeroBlock bs, 0, false, []⟩ ⟨hwf, fun _ hb => hb⟩ ?_
  intro done r st _ ⟨hst, hsub⟩
  rw [fetchRow_path]
  split
  · exact ⟨hst, hsub⟩
  · by_cases hxr : x = r
    · subst hxr
      obtain ⟨hwf', hblk⟩ := obliviousNodeRead_blk h8 false hst key st.fetchedBlock st.encryptedContentPtr
      rw [Function.update_self]
      refine ⟨hwf', fun b hb => hsub b ?_⟩
      obtain ⟨i, hi⟩ := Row.mem_bag.mp hb
      rw [hblk i] at hi
      split at hi
      · cases hi
      · exact Row.mem_bag.mpr ⟨i, hi⟩
    · rw [Function.update_of_ne hxr]
      exact ⟨hst, hsub⟩

/-- A key that no row holds. -/
theorem fetchLoop_absent (h : ∀ r < clientMaxPath, ∀ i, ¬ (rows r).Hit key i) :
    (fetchLoop key rows).path = rows ∧ (fetchLoop key rows).fetchedBlock = zeroBlock bs := by
  have hloop : fetchLoop key rows = ⟨rows, zeroBlock bs, 0, false, []⟩ := by
    refine foldl_idle fun r hr => fetchRow_absent false (zeroBlock bs) 0 [] fun b hb hbk => ?_
    obtain ⟨i, hi⟩ := row_hit_iff.mpr ⟨b, hb, hbk⟩
    exact h r (List.mem_range.mp hr) i hi
  rw [hloop]
  exact ⟨rfl, rfl⟩

/-- A fetch acts on the first row that holds the key, and copies out the last slot there. -/
theorem fetchLoop_first (h8 : 8 ∣ bs) {r : Nat} (hr : r < clientMaxPath) {j : Fin blocksPerNode}
    (hj : (rows r).Hit key j) (habove : ∀ x < r, ∀ i, ¬ (rows x).Hit key i) :
    (fetchLoop key rows).path =
        Function.update rows r (obliviousNodeRead false (rows r) key (zeroBlock bs) 0).row ∧
      ∃ i, (rows r).Hit key i ∧ (∀ j, (rows r).Hit key j → j ≤ i) ∧
        (fetchLoop key rows).fetchedBlock = (rows r).blocks i := by
  have hloop : fetchLoop key rows = fetchRow false key ⟨rows, zeroBlock bs, 0, false, []⟩ r :=
    fetchRows_first false 0 hr ⟨j, hj⟩ habove
  obtain ⟨i, hi, hlast, hf⟩ := obliviousNodeRead_some h8 false (zeroBlock bs) 0 ⟨j, hj⟩
  rw [hloop]
  exact ⟨rfl, i, hi, hlast, hf⟩

/-- The block that a fetch copies out leaves its row, if no other block there has the key. -/
theorem fetchLoop_takes (h8 : 8 ∣ bs) {r : Nat} (hr : r < height) (hh : height < clientMaxPath) (hwf : (rows r).Wf)
    (hnd : ((rows r).bag.map Blk.key).Nodup) {j : Fin blocksPerNode} (hj : (rows r).Hit key j)
    (habove : ∀ x < r, ∀ i, ¬ (rows x).Hit key i) :
    ∃ b ∈ (rows r).bag, b.key = key ∧ (fetchLoop key rows).fetchedBlock = b.content ∧
      rowsBag height (fetchLoop key rows).path + {b} = rowsBag height rows := by
  obtain ⟨hpath, i, hi, -, hblock⟩ := fetchLoop_first h8 (hr.trans hh) hj habove
  obtain ⟨b, hb, rfl⟩ := Row.hit_iff.mp hi
  have hmem : b ∈ (rows r).bag := Row.mem_bag.mpr ⟨i, hb⟩
  obtain ⟨row', ptr', hread, -, hbag, -⟩ := obliviousNodeRead_of_mem h8 false hwf (zeroBlock bs) 0 hnd hmem
  refine ⟨b, hmem, rfl, hblock.trans (Row.blk_eq_some.mp hb).2.2.2, ?_⟩
  have hsum := sum_bag_update rows (mem_range.mpr hr) row'
  rw [← hbag, add_comm row'.bag, ← add_assoc] at hsum
  rw [hpath, hread]
  exact add_right_cancel hsum

theorem PathWf.fetch (h8 : 8 ∣ bs) (h : PathWf p height rows) (key : BlockKey) :
    PathWf p height (fetchLoop key rows).path :=
  ⟨fun r hr => (fetchLoop_row h8 (h.wf r hr)).1,
    fun r hr b hb => h.onPath r hr b ((fetchLoop_row h8 (h.wf r hr)).2 b hb)⟩

/-! ## The flush -/

theorem PathWf.flush (h8 : 8 ∣ bs) (hh : height ≤ 32) (h : PathWf p height rows) :
    PathWf p height (flushPasses height p rows (height - 1)) := by
  have hflushed := flushPasses_spec h8 hh h.pathRows (Nat.sub_le height 1)
  exact ⟨hflushed.wf h.wf, hflushed.path.onPath⟩

end Rows

/-! ## Trees -/

/-- The tree `id` is well formed and lies in its own buffers. -/
structure TreeSound (D : Build bs N B) (A : BufferAddrs) (id : Nat) (t : MemTree N) (bufs : Addr → B) : Prop where
  dvd : 8 ∣ bs
  treeId : t.treeId = id
  height : t.height < clientMaxPath
  rows : TreeRows D A t bufs (D.load t bufs)
  placed : RowsPlaced t.height (D.load t bufs)

section Trees
variable {D : Build bs N B} {A : BufferAddrs} {id : Nat} {t t' : MemTree N} {bufs bufs' : Addr → B} {ρ : Nat → Row bs}

theorem TreeRows.self (h : TreeRows D A t bufs ρ) : TreeRows D A t bufs (D.load t bufs) := by
  refine ⟨fun _ _ => rfl, fun n hn => ?_⟩
  rw [h.load n hn]
  exact h.names n hn

/-- The tree after a call. -/
theorem TreeSound.step (h : TreeSound D A id t bufs) (hs : TreeStep A t bufs t' bufs')
    (hrows : TreeRows D A t' bufs' ρ) (hρ : RowsPlaced t.height ρ) : TreeSound D A id t' bufs' := by
  refine ⟨h.dvd, hs.treeId.trans h.treeId, hs.height ▸ h.height, hrows.self, ?_⟩
  rw [← hs.height] at hρ
  exact hρ.congr hrows.load

theorem TreeSound.frame (h : TreeSound D A id t bufs)
    (hb : SameBufs A {id} bufs bufs') : TreeSound D A id t bufs' := by
  have hrows := h.rows.frame (h.treeId ▸ hb)
  exact ⟨h.dvd, h.treeId, h.height, hrows.self, h.placed.congr hrows.load⟩

theorem TreeSound.lt (h : TreeSound D A id t bufs) : t.height ≤ 31 :=
  h.height.le.trans (show clientMaxPath ≤ 31 by decide)

/-- A fresh tree. -/
theorem Fresh.sound {height : Nat} (h8 : 8 ∣ bs) (hh : height < clientMaxPath) (h : Fresh D A id height t bufs) :
    TreeSound D A id t bufs := by
  have hempty : ∀ n < 2 ^ t.height, (D.load t bufs n).node = emptyNode (A.addr id n) := by
    rw [h.height]
    exact h.node
  refine ⟨h8, h.treeId, h.height.symm ▸ hh, h.rows, fun n hn => ?_, fun n hn b hb => ?_⟩
  · apply Row.Wf.of_empty
    · intro i
      rw [hempty n hn]
      rfl
    · rw [hempty n hn]
      rfl
  · rw [Row.bag_of_empty fun i => by rw [hempty n hn]; rfl] at hb
    exact absurd hb (Multiset.notMem_zero b)

/-! ## The calls -/

variable {w : World bs B}

theorem TreeSound.fetch (hD : D.Correct) (h : TreeSound D A id t w.host.bufs) (p : BlockPath) (key : BlockKey) :
    TreeSound D A id (memTreeFetch D t p key w).tree (memTreeFetch D t p key w).world.host.bufs ∧
      TreeStep A t w.host.bufs (memTreeFetch D t p key w).tree (memTreeFetch D t p key w).world.host.bufs := by
  obtain ⟨-, -, -, hrows, hstep, -⟩ := memTreeFetch_rows hD h.lt p key h.rows
  exact ⟨h.step hstep hrows (h.placed.overlay ((h.placed.fill p w.client.path).fetch h.dvd key)), hstep⟩

theorem TreeSound.put (hD : D.Correct) (h : TreeSound D A id t w.host.bufs) {q : BlockPath} {key : BlockKey}
    {content : Block bs} {put : RootPut bs N B} (hput : memTreePut D t q key content w = some put) :
    TreeSound D A id put.tree put.world.host.bufs ∧
      PutRows D A t (D.load t w.host.bufs) w (obliviousNodeWrite false (D.load t w.host.bufs 0) 0 key q content) put := by
  rcases memTreePut_rows hD q key content h.rows with ⟨hnone, -⟩ | ⟨put', hsome, hdone⟩
  · rw [hput] at hnone
    cases hnone
  · obtain rfl := Option.some.inj (hput.symm.trans hsome)
    have hroot := h.placed.wf 0 (Nat.two_pow_pos t.height)
    exact ⟨h.step hdone.step hdone.rows (h.placed.root (obliviousNodeWrite_wf h.dvd false hroot 0 key q content)), hdone⟩

theorem TreeSound.flush (hD : D.Correct) (h : TreeSound D A id t w.host.bufs) (p : BlockPath) :
    TreeSound D A id (memTreeFlush D t p w).1 (memTreeFlush D t p w).2.host.bufs ∧
      TreeStep A t w.host.bufs (memTreeFlush D t p w).1 (memTreeFlush D t p w).2.host.bufs := by
  obtain ⟨-, -, hrows, hstep, -⟩ := memTreeFlush_rows hD h.lt p h.rows
  have hpath := (h.placed.fill p w.client.path).flush h.dvd (h.lt.trans (by decide))
  exact ⟨h.step hstep hrows (h.placed.overlay hpath), hstep⟩

/-! ## The scan of a fetch -/

/-- The rows that a fetch scans: the nodes of the path, then what the client holds from row `height` on. -/
def scannedRows (D : Build bs N B) (t : MemTree N) (p : BlockPath) (w : World bs B) : Nat → Row bs :=
  fill p t.height (D.load t w.host.bufs) w.client.path

variable {p : BlockPath} {key : BlockKey}

theorem scannedRows_node {r : Nat} (hr : r < t.height) :
    scannedRows D t p w r = D.load t w.host.bufs (nodeAddr p.toNat r) := if_pos hr

theorem scannedRows_wf (h : TreeSound D A id t w.host.bufs) (hclient : ∀ r, (w.client.path r).Wf) (r : Nat) :
    (scannedRows D t p w r).Wf := by
  unfold scannedRows fill
  split
  next hr => exact h.placed.wf _ (nodeAddr_lt_two_pow hr)
  next => exact hclient r

/-- The nodes after a fetch: those of the path are the rows that the scan left. -/
theorem memTreeFetch_loads (hD : D.Correct) (h : TreeSound D A id t w.host.bufs) {n : Nat} (hn : n < 2 ^ t.height) :
    D.load (memTreeFetch D t p key w).tree (memTreeFetch D t p key w).world.host.bufs n =
      overlay p t.height (fetchLoop key (scannedRows D t p w)).path (D.load t w.host.bufs) n := by
  obtain ⟨-, -, -, hrows, hstep, -⟩ := memTreeFetch_rows hD h.lt p key h.rows
  exact hrows.load n (hstep.height.symm ▸ hn)

theorem memTreeFetch_block (hD : D.Correct) (h : TreeSound D A id t w.host.bufs) :
    (memTreeFetch D t p key w).fetchedBlock = (fetchLoop key (scannedRows D t p w)).fetchedBlock :=
  (memTreeFetch_rows hD h.lt p key h.rows).1

/-- Nodes whose rows stay. -/
theorem overlay_scanned {rows : Nat → Row bs} {n : Nat}
    (hrows : ∀ r < t.height, n = nodeAddr p.toNat r → rows r = scannedRows D t p w r) :
    overlay p t.height rows (D.load t w.host.bufs) n = D.load t w.host.bufs n := by
  by_cases hon : ∃ r < t.height, n = nodeAddr p.toNat r
  · obtain ⟨r, hr, rfl⟩ := hon
    rw [overlay_on _ _ hr, hrows r hr rfl, scannedRows_node hr]
  · push Not at hon
    exact overlay_off _ _ hon

end Trees

/-! ## Blocks -/

/-- The blocks in the nodes of a tree. -/
def nodesBag (height : Nat) (ρ : Nat → Row bs) : Multiset (Blk bs) := ∑ n ∈ range (2 ^ height), (ρ n).bag

theorem mem_nodesBag {height : Nat} {ρ : Nat → Row bs} {b : Blk bs} :
    b ∈ nodesBag height ρ ↔ ∃ n < 2 ^ height, b ∈ (ρ n).bag := by
  simp [nodesBag, Multiset.mem_sum]

theorem row_bag_le_nodesBag {height n : Nat} (ρ : Nat → Row bs) (hn : n < 2 ^ height) :
    (ρ n).bag ≤ nodesBag height ρ :=
  single_le_sum (f := fun n => (ρ n).bag) (fun _ _ => Multiset.zero_le _) (mem_range.mpr hn)

theorem nodesBag_congr {height : Nat} {ρ ρ' : Nat → Row bs} (h : ∀ n < 2 ^ height, ρ' n = ρ n) :
    nodesBag height ρ' = nodesBag height ρ :=
  sum_congr rfl fun n hn => by rw [h n (mem_range.mp hn)]

/-- An upload exchanges the blocks of the path. -/
theorem nodesBag_overlay (p : BlockPath) (height : Nat) (rows ρ path : Nat → Row bs) :
    nodesBag height (overlay p height rows ρ) + rowsBag height (fill p height ρ path) =
      nodesBag height ρ + rowsBag height rows := by
  have hoff : ∑ n ∈ range (2 ^ height) \ pathNodes p height, (overlay p height rows ρ n).bag =
      ∑ n ∈ range (2 ^ height) \ pathNodes p height, (ρ n).bag := by
    refine sum_congr rfl fun n hn => ?_
    rw [overlay_off]
    intro r hr heq
    exact (mem_sdiff.mp hn).2 (mem_pathNodes.mpr ⟨r, hr, heq⟩)
  have hon : ∑ r ∈ range height, (overlay p height rows ρ (nodeAddr p.toNat r)).bag = rowsBag height rows :=
    sum_congr rfl fun r hr => by rw [overlay_on _ _ (mem_range.mp hr)]
  have hfill : rowsBag height (fill p height ρ path) = ∑ r ∈ range height, (ρ (nodeAddr p.toNat r)).bag :=
    sum_congr rfl fun r hr => by rw [fill, if_pos (mem_range.mp hr)]
  rw [nodesBag, nodesBag, sum_nodes_split p height, sum_nodes_split p height fun n => (ρ n).bag, hoff, hon, hfill]
  abel

/-- The tree `id` is well formed and holds the bindings of `M`. -/
structure SimpleStored (D : Build bs N B) (A : BufferAddrs) (id : Nat) (t : MemTree N) (bufs : Addr → B)
    (M : BlockKey → Option (BlockPath × Block bs)) : Prop where
  sound : TreeSound D A id t bufs
  holds : Represents Blk.key Blk.val (nodesBag t.height (D.load t bufs)) M

section Stored
variable {D : Build bs N B} {A : BufferAddrs} {id : Nat} {t t' : MemTree N} {bufs bufs' : Addr → B}
  {M : BlockKey → Option (BlockPath × Block bs)} {w : World bs B} {p : BlockPath} {key : BlockKey}

theorem SimpleStored.frame (h : SimpleStored D A id t bufs M) (hb : SameBufs A {id} bufs bufs') :
    SimpleStored D A id t bufs' M := by
  refine ⟨h.sound.frame hb, ?_⟩
  rw [nodesBag_congr (h.sound.rows.frame (h.sound.treeId ▸ hb)).load]
  exact h.holds

/-- A fresh tree holds nothing. -/
theorem Fresh.stored {height : Nat} (h8 : 8 ∣ bs) (hh : height < clientMaxPath) (h : Fresh D A id height t bufs) :
    SimpleStored D A id t bufs fun _ => none := by
  refine ⟨h.sound h8 hh, ?_⟩
  have hzero : nodesBag t.height (D.load t bufs) = 0 := by
    refine sum_eq_zero fun n hn => Row.bag_of_empty fun i => ?_
    rw [h.height, mem_range] at hn
    rw [h.node n hn]
    rfl
  rw [hzero]
  exact represents_zero

/-- A fetch changes the tree's blocks as it changes the blocks of the scanned path. -/
theorem memTreeFetch_bag (hD : D.Correct) (h : TreeSound D A id t w.host.bufs) (p : BlockPath) (key : BlockKey) :
    nodesBag t.height (D.load (memTreeFetch D t p key w).tree (memTreeFetch D t p key w).world.host.bufs) +
        rowsBag t.height (scannedRows D t p w) =
      nodesBag t.height (D.load t w.host.bufs) + rowsBag t.height (fetchLoop key (scannedRows D t p w)).path := by
  rw [nodesBag_congr fun n hn => memTreeFetch_loads hD h hn]
  exact nodesBag_overlay p t.height _ _ w.client.path

/-- The block of a key lies on the downloaded path. -/
theorem SimpleStored.scanned (h : SimpleStored D A id t w.host.bufs M) (h1 : 1 ≤ t.height)
    {v : BlockPath × Block bs} (hv : M key = some v) (hpath : v.1 = p) :
    ∃ r < t.height, ∃ i, (scannedRows D t p w r).Hit key i := by
  obtain ⟨b, hb, hk, rfl⟩ := h.holds.exists_mem hv
  obtain ⟨n, hn, hbn⟩ := mem_nodesBag.mp hb
  obtain ⟨r, hr, rfl⟩ := h.sound.placed.placed n hn b hbn
  have hlt : r < t.height := by omega
  have hpath : b.path = p := hpath
  refine ⟨r, hlt, row_hit_iff.mpr ⟨b, ?_, hk⟩⟩
  rw [scannedRows_node hlt, ← hpath]
  exact hbn

/-- A fetch of a key that the tree does not hold. -/
theorem SimpleStored.fetch_none (hD : D.Correct) (h : SimpleStored D A id t w.host.bufs M) (hnone : M key = none) :
    SimpleStored D A id (memTreeFetch D t p key w).tree (memTreeFetch D t p key w).world.host.bufs M ∧
      ((∀ r, t.height ≤ r → (w.client.path r).bag = 0) → (memTreeFetch D t p key w).fetchedBlock = zeroBlock bs) := by
  obtain ⟨htree, hstep⟩ := h.sound.fetch hD p key
  have hmiss : ∀ r < t.height, ∀ b ∈ (scannedRows D t p w r).bag, b.key ≠ key := by
    intro r hr b hb
    rw [scannedRows_node hr] at hb
    exact h.holds.not_mem hnone b (mem_nodesBag.mpr ⟨_, nodeAddr_lt_two_pow hr, hb⟩)
  refine ⟨⟨htree, ?_⟩, fun hclear => ?_⟩
  · rw [hstep.height, nodesBag_congr fun n hn => (memTreeFetch_loads hD h.sound hn).trans
      (overlay_scanned fun r hr _ => fetchLoop_idle (hmiss r hr))]
    exact h.holds
  · rw [memTreeFetch_block hD h.sound]
    refine (fetchLoop_absent fun r _ i hi => ?_).2
    obtain ⟨b, hb, hk⟩ := row_hit_iff.mp ⟨i, hi⟩
    by_cases hr : r < t.height
    · exact hmiss r hr b hb hk
    · rw [scannedRows, fill, if_neg hr, hclear r (not_lt.mp hr)] at hb
      exact absurd hb (Multiset.notMem_zero b)

/-- A fetch of a key that the tree holds, along the path of its block. -/
theorem SimpleStored.fetch_some (hD : D.Correct) (h : SimpleStored D A id t w.host.bufs M) (h1 : 1 ≤ t.height)
    {v : BlockPath × Block bs} (hv : M key = some v) (hpath : v.1 = p) :
    SimpleStored D A id (memTreeFetch D t p key w).tree (memTreeFetch D t p key w).world.host.bufs
        (Function.update M key none) ∧
      (memTreeFetch D t p key w).fetchedBlock = v.2 := by
  obtain ⟨htree, hstep⟩ := h.sound.fetch hD p key
  obtain ⟨x, hx, hhit⟩ := h.scanned h1 hv hpath
  obtain ⟨r, hrx, ⟨j, hj⟩, habove⟩ := exists_least (p := fun r => ∃ i, (scannedRows D t p w r).Hit key i) hhit
  have hr : r < t.height := lt_of_le_of_lt hrx hx
  have hn := nodeAddr_lt_two_pow (p := p.toNat) hr
  have hrow : (scannedRows D t p w r).bag ≤ nodesBag t.height (D.load t w.host.bufs) := by
    rw [scannedRows_node hr]
    exact row_bag_le_nodesBag _ hn
  have hwf : (scannedRows D t p w r).Wf := by
    rw [scannedRows_node hr]
    exact h.sound.placed.wf _ hn
  have hnd := Multiset.nodup_of_le (Multiset.map_le_map hrow) h.holds.1
  obtain ⟨b, hmem, rfl, hblock, hbag⟩ := fetchLoop_takes h.sound.dvd hr h.sound.height hwf hnd hj
    fun y hy i hi => habove y hy ⟨i, hi⟩
  have hval : v = b.val := Option.some.inj (hv.symm.trans (h.holds.mem (Multiset.mem_of_le hrow hmem)))
  refine ⟨⟨htree, ?_⟩, ?_⟩
  · have hM := h.holds
    have htotal := memTreeFetch_bag hD h.sound p b.key
    rw [← hbag, ← add_assoc, add_right_comm] at htotal
    rw [← add_right_cancel htotal, add_comm, Multiset.singleton_add] at hM
    rw [hstep.height]
    exact hM.of_cons
  · rw [memTreeFetch_block hD h.sound, hblock, hval]
    rfl

/-- A fetch removes the binding of its key and copies its content out. For a key without a binding the answer
depends on the rows that other trees have left. -/
theorem SimpleStored.fetch (hD : D.Correct) (h : SimpleStored D A id t w.host.bufs M) (h1 : 1 ≤ t.height)
    (hpath : ∀ v, M key = some v → v.1 = p) :
    SimpleStored D A id (memTreeFetch D t p key w).tree (memTreeFetch D t p key w).world.host.bufs
        (Function.update M key none) ∧
      (∀ v, M key = some v → (memTreeFetch D t p key w).fetchedBlock = v.2) ∧
      (M key = none → (∀ r, t.height ≤ r → (w.client.path r).bag = 0) →
        (memTreeFetch D t p key w).fetchedBlock = zeroBlock bs) := by
  cases hM : M key with
  | some v =>
    obtain ⟨hstored, hblock⟩ := h.fetch_some hD h1 hM (hpath v hM)
    refine ⟨hstored, fun u hu => ?_, fun hnone => absurd hnone (Option.some_ne_none v)⟩
    obtain rfl := Option.some.inj hu
    exact hblock
  | none =>
    obtain ⟨hstored, hblock⟩ := h.fetch_none hD (p := p) hM
    refine ⟨?_, fun u hu => absurd hu.symm (Option.some_ne_none u), fun _ => hblock⟩
    rwa [show Function.update M key none = M from hM ▸ Function.update_eq_self key M]

/-- A put of a key that the tree does not hold. -/
theorem SimpleStored.put (hD : D.Correct) (h : SimpleStored D A id t w.host.bufs M) (hkey : key ≠ 0)
    (hnone : M key = none) {q : BlockPath} {content : Block bs} {put : RootPut bs N B}
    (hput : memTreePut D t q key content w = some put) :
    SimpleStored D A id put.tree put.world.host.bufs (Function.update M key (some (q, content))) := by
  obtain ⟨htree, hdone⟩ := h.sound.put hD hput
  have hroot := Nat.two_pow_pos t.height
  have hbag := (obliviousNodeWrite_bag h.sound.dvd false (h.sound.placed.wf 0 hroot).count 0 q content hkey
    hdone.room).2.2.1
  have hsum := sum_bag_update (D.load t w.host.bufs) (mem_range.mpr hroot)
    (obliviousNodeWrite false (D.load t w.host.bufs 0) 0 key q content).row
  rw [hbag, add_comm (D.load t w.host.bufs 0).bag, ← add_assoc] at hsum
  refine ⟨htree, ?_⟩
  have hloads := hdone.rows.load
  rw [hdone.step.height] at hloads
  rw [hdone.step.height, nodesBag_congr hloads,
    show nodesBag t.height _ = _ from add_right_cancel hsum, add_comm, Multiset.singleton_add]
  exact h.holds.cons (a := (⟨key, q, content⟩ : Blk bs)) hnone

/-- A flush moves the blocks of the tree. -/
theorem SimpleStored.flush (hD : D.Correct) (h : SimpleStored D A id t w.host.bufs M) (p : BlockPath) :
    SimpleStored D A id (memTreeFlush D t p w).1 (memTreeFlush D t p w).2.host.bufs M := by
  obtain ⟨htree, hstep⟩ := h.sound.flush hD p
  refine ⟨htree, ?_⟩
  have hloads := (memTreeFlush_rows hD h.sound.lt p h.sound.rows).2.2.1.load
  rw [hstep.height] at hloads
  have hflushed := flushPasses_spec h.sound.dvd (h.sound.lt.trans (by decide))
    (h.sound.placed.fill p w.client.path).pathRows (Nat.sub_le _ 1)
  have hover := nodesBag_overlay p t.height
    (flushPasses t.height p (fill p t.height (D.load t w.host.bufs) w.client.path) (t.height - 1))
    (D.load t w.host.bufs) w.client.path
  rw [hflushed.bag] at hover
  rw [hstep.height, nodesBag_congr hloads, add_right_cancel hover]
  exact h.holds

/-! ## The client's rows -/

/-- What a call on a tree of height at most `height` leaves of the client: the position map, and empty rows from
`height` on. -/
structure ClientStep (height : Nat) (c c' : Client bs) : Prop where
  pathMm : c'.pathMm = c.pathMm
  clear : ∀ r, height ≤ r → (c.path r).bag = 0 → (c'.path r).bag = 0

theorem ClientStep.trans {height : Nat} {c₁ c₂ c₃ : Client bs} (h : ClientStep height c₁ c₂)
    (h' : ClientStep height c₂ c₃) : ClientStep height c₁ c₃ :=
  ⟨h'.pathMm.trans h.pathMm, fun r hr hc => h'.clear r hr (h.clear r hr hc)⟩

theorem memTreeFetch_client (hD : D.Correct) (h : TreeSound D A id t w.host.bufs) (p : BlockPath) (key : BlockKey) :
    ClientStep t.height w.client (memTreeFetch D t p key w).world.client := by
  obtain ⟨-, hpath, hmm, -⟩ := memTreeFetch_rows hD h.lt p key h.rows
  refine ⟨hmm, fun r hr hclear => ?_⟩
  have hscan : scannedRows D t p w r = w.client.path r := if_neg (not_lt.mpr hr)
  rw [hpath, show fill p t.height (D.load t w.host.bufs) w.client.path = scannedRows D t p w from rfl,
    fetchLoop_idle fun b hb => ?_, hscan]
  · exact hclear
  · rw [hscan, hclear] at hb
    exact absurd hb (Multiset.notMem_zero b)

theorem memTreePut_client (hD : D.Correct) (h : TreeSound D A id t w.host.bufs) {height : Nat} (h1 : 1 ≤ height)
    {q : BlockPath} {content : Block bs} {put : RootPut bs N B} (hput : memTreePut D t q key content w = some put) :
    ClientStep height w.client put.world.client := by
  obtain ⟨-, hdone⟩ := h.put hD hput
  refine ⟨hdone.pathMm, fun r hr hclear => ?_⟩
  rwa [hdone.path, Function.update_of_ne (by omega)]

theorem memTreeFlush_client (hD : D.Correct) (h : TreeSound D A id t w.host.bufs) (p : BlockPath) :
    ClientStep t.height w.client (memTreeFlush D t p w).2.client := by
  obtain ⟨hpath, hmm, -⟩ := memTreeFlush_rows hD h.lt p h.rows
  have hflushed := flushPasses_spec h.dvd (h.lt.trans (by decide)) (h.placed.fill p w.client.path).pathRows
    (Nat.sub_le _ 1)
  refine ⟨hmm, fun r hr hclear => ?_⟩
  rw [hpath, hflushed.rest r hr, fill, if_neg (not_lt.mpr hr)]
  exact hclear

end Stored

/-! ## One level of an access -/

/-- What the server sees of a level that fetches along `p`, puts into the root and flushes along `q`. -/
def levelMoves (D : Build bs N B) (A : BufferAddrs) (id height : Nat) (p q : BlockPath) : List ServerAccess :=
  pathMoves D A id height p ++ (rootMoves D A id ++ pathMoves D A id height q)

section Level
variable {D : Build bs N B} {A : BufferAddrs} {sz : BlockSize bs} {id : Nat} {t : MemTree N} {w : World bs B}
  {p : BlockPath} {draws : SimpleDraws} {key : BlockKey} {req : Request} {l : SimpleLevel bs N B}

/-- The root holds the block that has been put. -/
theorem TreeSound.rootLoad_pos (hD : D.Correct) (h : TreeSound D A id t w.host.bufs) {q : BlockPath}
    {content : Block bs} {put : RootPut bs N B} (hput : memTreePut D t q key content w = some put) :
    0 < put.rootLoad.toNat := by
  obtain ⟨hsound, hrows⟩ := h.put hD hput
  have hroot := h.placed.wf 0 (Nat.two_pow_pos t.height)
  have hkey : key ≠ 0 := by
    rintro rfl
    have hsucc := hrows.succ
    rw [obliviousNodeWrite_of_failed false _ 0 0 q content (Or.inl rfl)] at hsucc
    cases hsucc
  obtain ⟨-, hcounts, hbag, -⟩ := obliviousNodeWrite_bag h.dvd false hroot.count 0 q content hkey hrows.room
  rw [hrows.rootLoad, hcounts, hbag, Multiset.card_add]
  exact Nat.succ_pos _

/-- Every put is followed by a flush. -/
theorem flushRoot_eq (hD : D.Correct) (h : TreeSound D A id t w.host.bufs) {q : BlockPath} {content : Block bs}
    {put : RootPut bs N B} (hput : memTreePut D t q key content w = some put) (flushPath : BlockPath) :
    flushRoot D put flushPath = memTreeFlush D put.tree flushPath put.world :=
  if_pos (show put.rootLoad.toNat ≥ flushThreshRoot from h.rootLoad_pos hD hput)

/-- What a level leaves of its tree, of the client and of the host. -/
structure LevelLeft (D : Build bs N B) (A : BufferAddrs) (id : Nat) (t : MemTree N) (p q : BlockPath) (w : World bs B)
    (l : SimpleLevel bs N B) : Prop where
  sound : TreeSound D A id l.tree l.world.host.bufs
  step : TreeStep A t w.host.bufs l.tree l.world.host.bufs
  pathMm : l.world.client.pathMm = w.client.pathMm
  trace : l.world.host.trace = w.host.trace ++ levelMoves D A id t.height p q
  fetched : ∀ id' ≠ id, l.world.host.fetched id' = w.host.fetched id'

theorem TreeSound.access (hD : D.Correct) (h : TreeSound D A id t w.host.bufs)
    (hrun : accessSimpleLevel D sz t p draws key req w = some l) :
    LevelLeft D A id t p draws.flushPath w l := by
  rw [accessSimpleLevel_eq, Option.map_eq_some_iff] at hrun
  obtain ⟨put, hput, rfl⟩ := hrun
  obtain ⟨hfetch, hfetched⟩ := h.fetch hD p key
  obtain ⟨hsound, hrows⟩ := hfetch.put hD hput
  obtain ⟨hflush, hflushed⟩ := hsound.flush hD draws.flushPath
  obtain ⟨-, -, hmm, -, -, hhost⟩ := memTreeFetch_rows hD h.lt p key h.rows
  obtain ⟨-, hmm', -, -, hhost'⟩ := memTreeFlush_rows hD hsound.lt draws.flushPath hsound.rows
  have hmoves := hhost.trans (hrows.host.trans hhost')
  rw [h.treeId, hfetch.treeId, hsound.treeId, hrows.step.height, hfetched.height] at hmoves
  rw [flushRoot_eq hD hfetch hput]
  refine ⟨hflush, (hfetched.trans hrows.step).trans hflushed, ?_, hmoves.trace, fun id' hne => ?_⟩
  · exact hmm'.trans (hrows.pathMm.trans hmm)
  · exact (Function.update_of_ne (h.treeId.symm ▸ hne) _ _).trans (congrFun hmoves.fetched id')

/-- A read copies out what earlier accesses have left in `fetched_block_` behind the block. -/
theorem accessSimpleLevel_rest (hread : req.writeSize = 0)
    (hrun : accessSimpleLevel D sz t p draws key req w = some l) {j : Nat} (hj : bs ≤ j) (hlt : j < sz.val) :
    l.block j = w.host.fetched t.treeId j := by
  rw [accessSimpleLevel_eq, Option.map_eq_some_iff] at hrun
  obtain ⟨put, -, rfl⟩ := hrun
  exact sz.copies_rest _ _ hread hj hlt

end Level

end SgxOram
