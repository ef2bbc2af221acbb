import SgxOram.App.SimpleOram
import SgxOram.Enclave.FlushSpec

/-!
# The trees of the builds without `PATH_ORAM`, as rows

A tree of either build is a family of rows, one for each node, and a call of `MemTree.cpp` is an operation
on these rows and on the rows of the client:

* `Names` : a row names the buffers of its node; `TreeRows` : tree `t` is the rows `ρ`;
* `Build.store_spec`, `TreeRows.store` : storing a row exchanges one row of the tree;
* `fill`, `overlay` : the client's rows after a download, the tree's rows after an upload;
* `HostStep` : what a call shows the host; `TreeStep` : what is the same before and after a call;
  `memTreeFetch_rows`, `memTreePut_rows`, `memTreeFlush_rows` : the calls;
* `SameBufs` : what frames are about; `Fresh`, `initialize_fresh` : a fresh tree.
-/

namespace SgxOram
open Lib Finset

variable {bs : Nat} {N B : Type}

/-! ## One node -/

/-- The row names the block buffers of node `n` of tree `id`. -/
def Names (A : BufferAddrs) (id n : Nat) (row : Row bs) : Prop := ∀ i, (row.node.slots i).blockContent = A.addr id n i

theorem Names.inj {A : BufferAddrs} {id n : Nat} {row : Row bs} (h : Names A id n row) :
    Function.Injective fun i => (row.node.slots i).blockContent := by
  intro i j hij
  simp only [h i, h j] at hij
  exact (A.inj hij).2.2

theorem Names.sameAddrs {A : BufferAddrs} {id n : Nat} {row row' : Row bs} (h : Names A id n row)
    (hs : row.SameAddrs row') : Names A id n row' := fun i => (hs i).trans (h i)

/-- A load depends on its node and the buffers that the node names. -/
theorem Build.load_congr (D : Build bs N B) {t t' : MemTree N} {bufs bufs' : Addr → B} {n : Nat}
    (hn : t'.nodes n = t.nodes n)
    (hb : ∀ i, bufs' (((D.load t bufs n).node.slots i).blockContent) =
      bufs (((D.load t bufs n).node.slots i).blockContent)) :
    D.load t' bufs' n = D.load t bufs n := by
  cases D with
  | aes K =>
    simp only [Build.load, loadNodeAes] at hb ⊢
    simp only [hn, hb]
  | plain =>
    simp only [Build.load, loadNode] at hb ⊢
    simp only [hn, hb]

/-- What storing `row` in node `n` does. -/
structure NodeStored (D : Build bs N B) (n : Nat) (row : Row bs) (t : MemTree N) (bufs : Addr → B) (t' : MemTree N)
    (bufs' : Addr → B) : Prop where
  treeId : t'.treeId = t.treeId
  height : t'.height = t.height
  load : D.load t' bufs' n = row
  nodes : ∀ m, m ≠ n → t'.nodes m = t.nodes m
  bufs : ∀ a, (∀ i, a ≠ (row.node.slots i).blockContent) → bufs' a = bufs a

theorem Build.store_spec {D : Build bs N B} (hD : D.Correct) (t : MemTree N) (host : Host B) (n : Nat) {row : Row bs}
    (hinj : Function.Injective fun i => (row.node.slots i).blockContent) :
    NodeStored D n row t host.bufs (D.store t host n row).1 (D.store t host n row).2.bufs := by
  cases D with
  | aes K =>
    have hK : K.Correct := hD
    have hoff : ∀ (host : Host B) (i : Fin blocksPerNode) (a : Addr), a ≠ (row.node.slots i).blockContent →
        (storeBlockAes K row host i).bufs a = host.bufs a := fun _ _ _ ha => Function.update_of_ne ha _ _
    have hon := foldl_writes_on (f := storeBlockAes K row) (g := Host.bufs)
      (Q := fun i b => decryptData K.block b = row.blocks i) hoff
      (fun host i => by simp [storeBlockAes, decryptData_encryptData hK.block]) hinj
      (List.nodup_finRange blocksPerNode) { host with rand := host.rand + 1 }
    refine ⟨rfl, rfl, ?_, fun m hm => Function.update_of_ne hm _ _, fun a ha => ?_⟩
    · simp only [Build.load, Build.store, loadNodeAes, storeNodeAes, Function.update_self,
        decryptData_encryptData hK.node]
      congr 1
      funext i
      exact hon i (List.mem_finRange i)
    · exact foldl_writes_off (f := storeBlockAes K row) (g := Host.bufs) hoff { host with rand := host.rand + 1 }
        fun i _ => ha i
  | plain =>
    have hoff : ∀ (host : Host (Block bs)) (i : Fin blocksPerNode) (a : Addr), a ≠ (row.node.slots i).blockContent →
        (storeBlock row host i).bufs a = host.bufs a := fun _ _ _ ha => Function.update_of_ne ha _ _
    have hon := foldl_writes_on (f := storeBlock row) (g := Host.bufs) (Q := fun i b => b = row.blocks i) hoff
      (fun host i => by simp [storeBlock]) hinj (List.nodup_finRange blocksPerNode) host
    refine ⟨rfl, rfl, ?_, fun m hm => Function.update_of_ne hm _ _, fun a ha => ?_⟩
    · simp only [Build.load, Build.store, loadNode, storeNode, Function.update_self]
      congr 1
      funext i
      exact hon i (List.mem_finRange i)
    · exact foldl_writes_off (f := storeBlock row) (g := Host.bufs) hoff host fun i _ => ha i

/-- The host has seen the accesses `l`, and has its `fetched_block_`s as before. -/
structure HostStep (l : List ServerAccess) (host host' : Host B) : Prop where
  trace : host'.trace = host.trace ++ l
  fetched : host'.fetched = host.fetched

theorem HostStep.refl (host : Host B) : HostStep [] host host := ⟨(List.append_nil _).symm, rfl⟩

theorem HostStep.touched (host : Host B) (l : List ServerAccess) : HostStep l host (host.touched l) := ⟨rfl, rfl⟩

theorem HostStep.trans {l l' : List ServerAccess} {host₁ host₂ host₃ : Host B} (h : HostStep l host₁ host₂)
    (h' : HostStep l' host₂ host₃) : HostStep (l ++ l') host₁ host₃ where
  trace := by rw [h'.trace, h.trace, List.append_assoc]
  fetched := h'.fetched.trans h.fetched

/-- A store alone shows nothing; the calls record its accesses. -/
theorem Build.store_host (D : Build bs N B) (t : MemTree N) (host : Host B) (n : Nat) (row : Row bs) :
    HostStep [] host (D.store t host n row).2 := by
  cases D with
  | aes K =>
    exact foldl_inv (f := storeBlockAes K row) (P := fun _ g => HostStep [] host g) (List.finRange blocksPerNode)
      { host with rand := host.rand + 1 } ⟨(List.append_nil _).symm, rfl⟩ fun _ _ _ _ h => ⟨h.trace, h.fetched⟩
  | plain =>
    exact foldl_inv (f := storeBlock row) (P := fun _ g => HostStep [] host g) (List.finRange blocksPerNode) host
      (HostStep.refl host) fun _ _ _ _ h => ⟨h.trace, h.fetched⟩

/-! ## Trees as rows -/

/-- The tree `t` in memory `bufs` is the rows `ρ`, each in the buffers of its node. -/
structure TreeRows (D : Build bs N B) (A : BufferAddrs) (t : MemTree N) (bufs : Addr → B) (ρ : Nat → Row bs) :
    Prop where
  load : ∀ n < 2 ^ t.height, D.load t bufs n = ρ n
  names : ∀ n < 2 ^ t.height, Names A t.treeId n (ρ n)

/-- The buffers of the trees in `S` are the same. -/
def SameBufs (A : BufferAddrs) (S : Set Nat) (bufs bufs' : Addr → B) : Prop :=
  ∀ id ∈ S, ∀ n i, bufs' (A.addr id n i) = bufs (A.addr id n i)

theorem SameBufs.mono {A : BufferAddrs} {S S' : Set Nat} {bufs bufs' : Addr → B} (h : SameBufs A S bufs bufs')
    (hsub : S' ⊆ S) : SameBufs A S' bufs bufs' := fun id hid => h id (hsub hid)

theorem SameBufs.trans {A : BufferAddrs} {S : Set Nat} {b₁ b₂ b₃ : Addr → B} (h : SameBufs A S b₁ b₂)
    (h' : SameBufs A S b₂ b₃) : SameBufs A S b₁ b₃ := fun id hid n i => (h' id hid n i).trans (h id hid n i)

theorem below_subset (id : Nat) : Set.Iio id ⊆ {id}ᶜ := fun _ hlt => hlt.ne

theorem above_subset (id : Nat) : Set.Ici (id + 1) ⊆ {id}ᶜ := fun _ hle => (Nat.lt_of_succ_le hle).ne'

/-- What a call leaves alone: the tree's identity, and the buffers of other trees. -/
structure TreeStep (A : BufferAddrs) (t : MemTree N) (bufs : Addr → B) (t' : MemTree N) (bufs' : Addr → B) : Prop where
  treeId : t'.treeId = t.treeId
  height : t'.height = t.height
  others : SameBufs A {t.treeId}ᶜ bufs bufs'

theorem TreeStep.refl (A : BufferAddrs) (t : MemTree N) (bufs : Addr → B) : TreeStep A t bufs t bufs :=
  ⟨rfl, rfl, fun _ _ _ _ => rfl⟩

theorem TreeStep.trans {A : BufferAddrs} {t₁ t₂ t₃ : MemTree N} {b₁ b₂ b₃ : Addr → B} (h : TreeStep A t₁ b₁ t₂ b₂)
    (h' : TreeStep A t₂ b₂ t₃ b₃) : TreeStep A t₁ b₁ t₃ b₃ where
  treeId := h'.treeId.trans h.treeId
  height := h'.height.trans h.height
  others := h.others.trans (h.treeId ▸ h'.others)

/-- A call on another tree leaves the rows of this one. -/
theorem TreeRows.frame {D : Build bs N B} {A : BufferAddrs} {t : MemTree N} {bufs bufs' : Addr → B}
    {ρ : Nat → Row bs} (h : TreeRows D A t bufs ρ)
    (hb : SameBufs A {t.treeId} bufs bufs') : TreeRows D A t bufs' ρ := by
  refine ⟨fun n hn => ?_, h.names⟩
  rw [← h.load n hn]
  refine D.load_congr rfl fun i => ?_
  rw [h.load n hn, h.names n hn i]
  exact hb t.treeId rfl n i

section Calls
variable {D : Build bs N B} {A : BufferAddrs} {t : MemTree N} {ρ : Nat → Row bs}

/-- Storing a row in the buffers of its node. -/
theorem TreeRows.store (hD : D.Correct) {host : Host B} (h : TreeRows D A t host.bufs ρ) {n : Nat} {row : Row bs}
    (hnames : Names A t.treeId n row) :
    TreeRows D A (D.store t host n row).1 (D.store t host n row).2.bufs (Function.update ρ n row) ∧
      TreeStep A t host.bufs (D.store t host n row).1 (D.store t host n row).2.bufs := by
  have hs := D.store_spec hD t host n hnames.inj
  refine ⟨⟨fun m hm => ?_, fun m hm => ?_⟩, hs.treeId, hs.height, fun id hid m i => hs.bufs _ fun j hj => ?_⟩
  · rw [hs.height] at hm
    by_cases hmn : m = n
    · subst hmn
      rw [Function.update_self, hs.load]
    · rw [Function.update_of_ne hmn, ← h.load m hm]
      refine D.load_congr (hs.nodes m hmn) fun i => hs.bufs _ fun j hj => ?_
      rw [h.load m hm, h.names m hm i, hnames j] at hj
      exact hmn (A.inj hj).2.1
  · rw [hs.height] at hm
    rw [hs.treeId]
    by_cases hmn : m = n
    · subst hmn
      rwa [Function.update_self]
    · rw [Function.update_of_ne hmn]
      exact h.names m hm
  · rw [hnames j] at hj
    exact hid (A.inj hj).1

/-! ## Paths -/

/-- The client's rows after a download of path `p`. -/
def fill (p : BlockPath) (height : Nat) (ρ path : Nat → Row bs) : Nat → Row bs := fun r =>
  if r < height then ρ (nodeAddr p.toNat r) else path r

/-- The tree's rows after an upload to path `p`. -/
def overlay (p : BlockPath) (height : Nat) (path ρ : Nat → Row bs) : Nat → Row bs :=
  (List.range height).foldl (fun ρ r => Function.update ρ (nodeAddr p.toNat r) (path r)) ρ

theorem overlay_off {p : BlockPath} {height : Nat} (path ρ : Nat → Row bs) {n : Nat}
    (hn : ∀ r < height, n ≠ nodeAddr p.toNat r) : overlay p height path ρ n = ρ n :=
  foldl_writes_off (f := fun (ρ : Nat → Row bs) r => Function.update ρ (nodeAddr p.toNat r) (path r))
    (g := fun ρ n => ρ n) (d := nodeAddr p.toNat) (fun _ _ _ ha => Function.update_of_ne ha _ _) ρ
    fun r hr => hn r (List.mem_range.mp hr)

theorem overlay_on {p : BlockPath} {height : Nat} (path ρ : Nat → Row bs) {r : Nat} (hr : r < height) :
    overlay p height path ρ (nodeAddr p.toNat r) = path r :=
  foldl_writes_on (f := fun (ρ : Nat → Row bs) r => Function.update ρ (nodeAddr p.toNat r) (path r))
    (g := fun ρ n => ρ n) (d := nodeAddr p.toNat) (Q := fun r row => row = path r)
    (fun _ _ _ ha => Function.update_of_ne ha _ _) (fun _ _ => Function.update_self _ _ _)
    (nodeAddr_injective p.toNat) List.nodup_range ρ r (List.mem_range.mpr hr)

/-- The world with other rows in the client. -/
def World.withPath (w : World bs B) (path : Nat → Row bs) : World bs B :=
  { w with client := { w.client with path := path } }

@[simp] theorem World.withPath_path (w : World bs B) (path : Nat → Row bs) : (w.withPath path).client.path = path := rfl

@[simp] theorem World.withPath_host (w : World bs B) (path : Nat → Row bs) : (w.withPath path).host = w.host := rfl

/-- The world after accesses to its trees. -/
def World.touched (w : World bs B) (l : List ServerAccess) : World bs B := { w with host := w.host.touched l }

@[simp] theorem World.touched_client (w : World bs B) (l : List ServerAccess) : (w.touched l).client = w.client := rfl

@[simp] theorem World.touched_host (w : World bs B) (l : List ServerAccess) :
    (w.touched l).host = w.host.touched l := rfl

/-- The accesses along path `p` of a tree whose node `n` has the buffers `addrs n`. -/
def pathTouches (touch : Touch) (addrs : Nat → Fin blocksPerNode → Addr) (p : BlockPath) (height : Nat) :
    List ServerAccess :=
  (List.range height).flatMap fun h => touch (nodeAddr p.toNat h) (addrs (nodeAddr p.toNat h))

theorem pathTouches_succ (touch : Touch) (addrs : Nat → Fin blocksPerNode → Addr) (p : BlockPath) (height : Nat) :
    pathTouches touch addrs p (height + 1) =
      pathTouches touch addrs p height ++ touch (nodeAddr p.toNat height) (addrs (nodeAddr p.toNat height)) := by
  simp [pathTouches, List.range_succ]

theorem pathTouches_congr {touch : Touch} {addrs addrs' : Nat → Fin blocksPerNode → Addr} {p : BlockPath}
    {height : Nat} (h : ∀ n < 2 ^ height, addrs n = addrs' n) :
    pathTouches touch addrs p height = pathTouches touch addrs' p height := by
  unfold pathTouches
  rw [List.flatMap_def, List.flatMap_def]
  refine congrArg List.flatten (List.map_congr_left fun r hr => ?_)
  rw [h _ (nodeAddr_lt_two_pow (List.mem_range.mp hr))]

theorem downloadPath_eq (load : Load bs N B) (touch : Touch) (t : MemTree N) (hh : t.height ≤ 31) (p : BlockPath)
    (w : World bs B) :
    downloadPath load touch t p w = (w.withPath (fill p t.height (load t w.host.bufs) w.client.path)).touched
      (pathTouches touch (fun n => (load t w.host.bufs n).blockContents) p t.height) := by
  have key := foldl_inv (f := loadLevel load touch t)
    (P := fun done (l : LevelLoop bs B) =>
      l.world = (w.withPath (fill p done.length (load t w.host.bufs) w.client.path)).touched
          (pathTouches touch (fun n => (load t w.host.bufs n).blockContents) p done.length) ∧
      l.addr.toNat = nodeAddr p.toNat done.length ∧ l.treePath.toNat = p.toNat / 2 ^ done.length)
    (List.range t.height) ⟨w, 0, p⟩ ⟨?_, rfl, by simp⟩ ?_
  · rw [List.length_range] at key
    exact key.1
  · have hnone : fill p 0 (load t w.host.bufs) w.client.path = w.client.path := by
      funext r
      simp [fill]
    simp only [List.length_nil, hnone, pathTouches, List.range_zero, List.flatMap_nil, World.touched, Host.touched,
      List.append_nil]
    rfl
  · intro done h l hpre ⟨hworld, haddr, hpath⟩
    obtain ⟨rfl, hlt⟩ := range_of_done hpre
    rw [List.length_range] at hworld haddr hpath
    obtain ⟨haddr', hpath'⟩ := addr_step haddr hpath (by omega)
    rw [List.length_append, List.length_range, List.length_singleton]
    refine ⟨?_, haddr', hpath'⟩
    have hfill : Function.update (fill p h (load t w.host.bufs) w.client.path) h
        (load t w.host.bufs (nodeAddr p.toNat h)) = fill p (h + 1) (load t w.host.bufs) w.client.path := by
      funext r
      by_cases hr : r = h
      · subst hr
        simp [fill]
      · have hiff : r < h ↔ r < h + 1 := by omega
        simp only [fill, Function.update_of_ne hr, hiff]
    simp only [loadLevel, hworld, haddr]
    rw [← hfill, pathTouches_succ]
    simp only [World.touched, Host.touched, List.append_assoc]
    rfl

/-- A download fills the client's rows with the rows of the path. -/
theorem download_rows (hh : t.height ≤ 31) (p : BlockPath) {w : World bs B} (h : TreeRows D A t w.host.bufs ρ) :
    D.download t p w = (w.withPath (fill p t.height ρ w.client.path)).touched
      (pathTouches (D.touch false) (A.addr t.treeId) p t.height) := by
  have haddrs : ∀ n < 2 ^ t.height, (D.load t w.host.bufs n).blockContents = A.addr t.treeId n := fun n hn => by
    rw [h.load n hn]
    exact funext (h.names n hn)
  rw [D.download_eq, downloadPath_eq D.load (D.touch false) t hh, pathTouches_congr haddrs]
  congr 2
  funext r
  unfold fill
  split
  next hr => exact h.load _ (nodeAddr_lt_two_pow hr)
  next => rfl

/-- The client's rows below `height` name the buffers of the nodes of path `p`. -/
def PathNames (A : BufferAddrs) (id : Nat) (p : BlockPath) (height : Nat) (path : Nat → Row bs) : Prop :=
  ∀ r < height, Names A id (nodeAddr p.toNat r) (path r)

theorem TreeRows.pathNames {bufs : Addr → B} (h : TreeRows D A t bufs ρ) (p : BlockPath) (path : Nat → Row bs) :
    PathNames A t.treeId p t.height (fill p t.height ρ path) := by
  intro r hr
  rw [fill, if_pos hr]
  exact h.names _ (nodeAddr_lt_two_pow hr)

/-- An upload writes the client's rows to the path. -/
theorem update_rows (hD : D.Correct) (hh : t.height ≤ 31) (p : BlockPath) {w : World bs B}
    (h : TreeRows D A t w.host.bufs ρ) (hnames : PathNames A t.treeId p t.height w.client.path) :
    (D.update t p w).2.client = w.client ∧
      TreeRows D A (D.update t p w).1 (D.update t p w).2.host.bufs (overlay p t.height w.client.path ρ) ∧
      TreeStep A t w.host.bufs (D.update t p w).1 (D.update t p w).2.host.bufs ∧
      HostStep (pathTouches (D.touch true) (A.addr t.treeId) p t.height) w.host (D.update t p w).2.host := by
  have key := foldl_inv (f := storeLevel D.store (D.touch true))
    (P := fun done (st : MemTree N × LevelLoop bs B) =>
      (st.2.world.client = w.client ∧
        TreeRows D A st.1 st.2.world.host.bufs (overlay p done.length w.client.path ρ) ∧
        TreeStep A t w.host.bufs st.1 st.2.world.host.bufs ∧
        HostStep (pathTouches (D.touch true) (A.addr t.treeId) p done.length) w.host st.2.world.host) ∧
      st.2.addr.toNat = nodeAddr p.toNat done.length ∧ st.2.treePath.toNat = p.toNat / 2 ^ done.length)
    (List.range t.height) (t, ⟨w, 0, p⟩) ⟨⟨rfl, h, TreeStep.refl A t _, HostStep.refl _⟩, rfl, by simp⟩ ?_
  · rw [D.update_eq]
    rw [List.length_range] at key
    exact key.1
  · intro done r st hpre ⟨⟨hclient, hrows, hstep, hhost⟩, haddr, hpath⟩
    obtain ⟨rfl, hlt⟩ := range_of_done hpre
    rw [List.length_range] at hrows hhost haddr hpath
    obtain ⟨haddr', hpath'⟩ := addr_step haddr hpath (by omega)
    rw [List.length_append, List.length_range, List.length_singleton]
    have hnames' : Names A st.1.treeId (nodeAddr p.toNat r) (st.2.world.client.path r) := by
      rw [hclient, hstep.treeId]
      exact hnames r hlt
    obtain ⟨hrows', hstep'⟩ := hrows.store hD hnames'
    have hseen := (hhost.trans (D.store_host st.1 st.2.world.host (nodeAddr p.toNat r) (st.2.world.client.path r))).trans
      (HostStep.touched _ (D.touch true (nodeAddr p.toNat r) (A.addr t.treeId (nodeAddr p.toNat r))))
    rw [List.append_nil, ← pathTouches_succ] at hseen
    have hcontents : (st.2.world.client.path r).blockContents = A.addr t.treeId (nodeAddr p.toNat r) := by
      rw [← hstep.treeId]
      exact funext hnames'
    simp only [storeLevel, haddr, hcontents]
    refine ⟨⟨hclient, ?_, hstep.trans hstep', hseen⟩, haddr', hpath'⟩
    rw [hclient] at hrows' ⊢
    have hover : overlay p (r + 1) w.client.path ρ =
        Function.update (overlay p r w.client.path ρ) (nodeAddr p.toNat r) (w.client.path r) := by
      simp [overlay, List.range_succ]
    rw [hover]
    exact hrows'

/-- The accesses of a download and an upload along path `p`. -/
def pathMoves (D : Build bs N B) (A : BufferAddrs) (id height : Nat) (p : BlockPath) : List ServerAccess :=
  pathTouches (D.touch false) (A.addr id) p height ++ pathTouches (D.touch true) (A.addr id) p height

/-- The accesses of a put into the root. -/
def rootMoves (D : Build bs N B) (A : BufferAddrs) (id : Nat) : List ServerAccess :=
  D.touch false 0 (A.addr id 0) ++ D.touch true 0 (A.addr id 0)

/-! ## The calls of `MemTree.cpp` -/

/-- The loop of `ecall_oblivious_fetch` on the client's rows. -/
def fetchLoop (key : BlockKey) (path : Nat → Row bs) : FetchLoop bs :=
  (List.range clientMaxPath).foldl (fetchRow false key) ⟨path, zeroBlock bs, 0, false, []⟩

theorem fetchRow_sameAddrs (key : BlockKey) (st : FetchLoop bs) (r x : Nat) :
    (st.path x).SameAddrs ((fetchRow false key st r).path x) := by
  unfold fetchRow
  split
  · exact fun _ => rfl
  · apply Row.sameAddrs_update
    exact obliviousNodeRead_addrs false (st.path r) key st.fetchedBlock st.encryptedContentPtr

/-- A fetch does not move buffers. -/
theorem fetchLoop_sameAddrs (key : BlockKey) (path : Nat → Row bs) (x : Nat) :
    (path x).SameAddrs ((fetchLoop key path).path x) :=
  foldl_inv (f := fetchRow false key) (P := fun _ (st : FetchLoop bs) => (path x).SameAddrs (st.path x))
    (List.range clientMaxPath) ⟨path, zeroBlock bs, 0, false, []⟩ (fun _ => rfl) fun _ r st _ h =>
      h.trans (fetchRow_sameAddrs key st r x)

/-- `MemTreeFetch` on rows. -/
theorem memTreeFetch_rows (hD : D.Correct) (hh : t.height ≤ 31) (p : BlockPath) (key : BlockKey) {w : World bs B}
    (h : TreeRows D A t w.host.bufs ρ) :
    let f := memTreeFetch D t p key w
    let st := fetchLoop key (fill p t.height ρ w.client.path)
    f.fetchedBlock = st.fetchedBlock ∧ f.world.client.path = st.path ∧ f.world.client.pathMm = w.client.pathMm ∧
      TreeRows D A f.tree f.world.host.bufs (overlay p t.height st.path ρ) ∧
      TreeStep A t w.host.bufs f.tree f.world.host.bufs ∧
      HostStep (pathMoves D A t.treeId t.height p) w.host f.world.host := by
  unfold memTreeFetch
  rw [download_rows hh p h]
  have hclient : ∀ c : Client bs, (ecallObliviousFetch false key 0 c).client.path = (fetchLoop key c.path).path ∧
      (ecallObliviousFetch false key 0 c).client.pathMm = c.pathMm := by
    intro c
    simp only [ecallObliviousFetch, fetchLoop]
    split <;> exact ⟨rfl, rfl⟩
  obtain ⟨hpath, hmm⟩ := hclient (w.withPath (fill p t.height ρ w.client.path)).client
  have hnames : PathNames A t.treeId p t.height
      (ecallObliviousFetch false key 0 (w.withPath (fill p t.height ρ w.client.path)).client).client.path := by
    intro r hr
    rw [hpath]
    exact (h.pathNames p w.client.path r hr).sameAddrs (fetchLoop_sameAddrs key _ r)
  obtain ⟨hc, hrows, hstep, hhost⟩ := update_rows hD hh p (w :=
    ⟨(ecallObliviousFetch false key 0 (w.withPath (fill p t.height ρ w.client.path)).client).client,
      w.host.touched (pathTouches (D.touch false) (A.addr t.treeId) p t.height)⟩) h hnames
  rw [hpath] at hrows
  refine ⟨rfl, ?_, ?_, hrows, hstep, (HostStep.touched _ _).trans hhost⟩
  · exact (congrArg Client.path hc).trans hpath
  · exact (congrArg Client.pathMm hc).trans hmm

/-- What a put does that completes. -/
structure PutRows (D : Build bs N B) (A : BufferAddrs) (t : MemTree N) (ρ : Nat → Row bs) (w : World bs B)
    (r : WriteResult bs) (put : RootPut bs N B) : Prop where
  room : (ρ 0).node.numBlocks.toNat < blocksPerNode
  succ : r.succ = true
  path : put.world.client.path = Function.update w.client.path 0 r.row
  pathMm : put.world.client.pathMm = w.client.pathMm
  rootLoad : put.rootLoad = r.row.node.numBlocks
  rows : TreeRows D A put.tree put.world.host.bufs (Function.update ρ 0 r.row)
  step : TreeStep A t w.host.bufs put.tree put.world.host.bufs
  host : HostStep (rootMoves D A t.treeId) w.host put.world.host

/-- `MemTreePut` on rows: it completes exactly when the root has room and the write succeeds. -/
theorem memTreePut_rows (hD : D.Correct) (q : BlockPath) (key : BlockKey) (content : Block bs) {w : World bs B}
    (h : TreeRows D A t w.host.bufs ρ) :
    let r := obliviousNodeWrite false (ρ 0) 0 key q content
    (memTreePut D t q key content w = none ∧ ¬ ((ρ 0).node.numBlocks.toNat < blocksPerNode ∧ r.succ = true)) ∨
      ∃ put, memTreePut D t q key content w = some put ∧ PutRows D A t ρ w r put := by
  intro r
  have hroot := Nat.two_pow_pos t.height
  have hnames : Names A t.treeId 0 r.row :=
    (h.names 0 hroot).sameAddrs (obliviousNodeWrite_addrs (ρ 0) 0 key q content)
  have hreads : TreeRows D A t (w.host.touched (D.touch false 0 (A.addr t.treeId 0))).bufs ρ := h
  obtain ⟨hrows, hstep⟩ := hreads.store hD hnames
  have hread : (ρ 0).blockContents = A.addr t.treeId 0 := funext (h.names 0 hroot)
  have hwritten : r.row.blockContents = A.addr t.treeId 0 := funext hnames
  have heq : memTreePut D t q key content w =
      let stored := D.store t (w.host.touched (D.touch false 0 (A.addr t.treeId 0))) 0 r.row
      if (ρ 0).node.numBlocks.toNat < blocksPerNode then
        if r.succ then
          some ⟨stored.1, ⟨{ w.client with path := Function.update w.client.path 0 r.row },
            stored.2.touched (D.touch true 0 (A.addr t.treeId 0))⟩, r.row.node.numBlocks⟩
        else none
      else none := by
    rw [memTreePut, D.putToRoot_eq, putToRoot, h.load 0 hroot, hread]
    simp only [r] at hwritten ⊢
    rw [hwritten]
  have hhost : HostStep (rootMoves D A t.treeId) w.host
      ((D.store t (w.host.touched (D.touch false 0 (A.addr t.treeId 0))) 0 r.row).2.touched
        (D.touch true 0 (A.addr t.treeId 0))) := by
    have hseen := ((HostStep.touched w.host (D.touch false 0 (A.addr t.treeId 0))).trans
      (D.store_host t _ 0 r.row)).trans (HostStep.touched _ (D.touch true 0 (A.addr t.treeId 0)))
    rwa [List.append_nil] at hseen
  rw [heq]
  by_cases hroom : (ρ 0).node.numBlocks.toNat < blocksPerNode
  · by_cases hsucc : r.succ = true
    · rw [if_pos hroom, if_pos hsucc]
      exact Or.inr ⟨_, rfl, hroom, hsucc, rfl, rfl, rfl, hrows, hstep, hhost⟩
    · rw [if_pos hroom, if_neg hsucc]
      exact Or.inl ⟨rfl, fun hc => hsucc hc.2⟩
  · rw [if_neg hroom]
    exact Or.inl ⟨rfl, fun hc => hroom hc.1⟩

/-- `MemTreeFlush` on rows. -/
theorem memTreeFlush_rows (hD : D.Correct) (hh : t.height ≤ 31) (p : BlockPath) {w : World bs B}
    (h : TreeRows D A t w.host.bufs ρ) :
    let rows := flushPasses t.height p (fill p t.height ρ w.client.path) (t.height - 1)
    (memTreeFlush D t p w).2.client.path = rows ∧ (memTreeFlush D t p w).2.client.pathMm = w.client.pathMm ∧
      TreeRows D A (memTreeFlush D t p w).1 (memTreeFlush D t p w).2.host.bufs (overlay p t.height rows ρ) ∧
      TreeStep A t w.host.bufs (memTreeFlush D t p w).1 (memTreeFlush D t p w).2.host.bufs ∧
      HostStep (pathMoves D A t.treeId t.height p) w.host (memTreeFlush D t p w).2.host := by
  unfold memTreeFlush
  rw [download_rows hh p h]
  have hpath := flush_eq_passes t.height p (w.withPath (fill p t.height ρ w.client.path)).client
  have hmm : ∀ c : Client bs, (ecallClientSimpleOramFlush t.height p c).pathMm = c.pathMm := by
    intro c
    unfold ecallClientSimpleOramFlush
    split <;> rfl
  have hnames : PathNames A t.treeId p t.height
      (ecallClientSimpleOramFlush t.height p (w.withPath (fill p t.height ρ w.client.path)).client).path := by
    intro r hr
    rw [hpath]
    exact (h.pathNames p w.client.path r hr).sameAddrs (flushPasses_sameAddrs t.height p _ _ r)
  obtain ⟨hc, hrows, hstep, hhost⟩ := update_rows hD hh p (w :=
    ⟨ecallClientSimpleOramFlush t.height p (w.withPath (fill p t.height ρ w.client.path)).client,
      w.host.touched (pathTouches (D.touch false) (A.addr t.treeId) p t.height)⟩) h hnames
  rw [hpath] at hrows
  exact ⟨(congrArg Client.path hc).trans hpath, (congrArg Client.pathMm hc).trans (hmm _), hrows, hstep,
    (HostStep.touched _ _).trans hhost⟩

end Calls

/-! ## A fresh tree -/

/-- What `InitializeMemTree` makes: empty nodes in the buffers of tree `id`. -/
structure Fresh (D : Build bs N B) (A : BufferAddrs) (id height : Nat) (t : MemTree N) (bufs : Addr → B) : Prop where
  node : ∀ n < 2 ^ height, (D.load t bufs n).node = emptyNode (A.addr id n)
  treeId : t.treeId = id
  height : t.height = height

theorem Fresh.rows {D : Build bs N B} {A : BufferAddrs} {id height : Nat} {t : MemTree N} {bufs : Addr → B}
    (h : Fresh D A id height t bufs) : TreeRows D A t bufs fun n => D.load t bufs n := by
  refine ⟨fun _ _ => rfl, fun n hn i => ?_⟩
  rw [h.height] at hn
  rw [h.node n hn, h.treeId]
  rfl

theorem initializeMemTreePlain_nodes (addrs : Nat → Fin blocksPerNode → Addr) (host : Host (Block bs)) (count : Nat) :
    ∀ n, ((List.range count).foldl (initializeNodePlain addrs) (fun _ => zeroNode, host)).1 n =
      if n < count then emptyNode (addrs n) else zeroNode := by
  induction count with
  | zero => exact fun n => (if_neg (Nat.not_lt_zero n)).symm
  | succ count ih =>
    intro n
    rw [List.range_succ, List.foldl_append, List.foldl_cons, List.foldl_nil]
    by_cases hn : n = count
    · subst hn
      simp only [initializeNodePlain, Function.update_self]
      rw [ih, if_neg (lt_irrefl n), if_pos (Nat.lt_succ_self n)]
      rfl
    · have hiff : n < count ↔ n < count + 1 := by omega
      simp only [initializeNodePlain, Function.update_of_ne hn]
      rw [ih, if_congr hiff rfl rfl]

theorem initializeMemTreePlain_bufs (addrs : Nat → Fin blocksPerNode → Addr) {nodes : Nat → MemTreeNode}
    {host : Host (Block bs)} {a : Addr} (ha : ∀ n i, a ≠ addrs n i) (count : Nat) :
    ((List.range count).foldl (initializeNodePlain addrs) (nodes, host)).2.bufs a = host.bufs a := by
  refine foldl_inv (f := initializeNodePlain addrs) (P := fun _ st => st.2.bufs a = host.bufs a) (List.range count)
    (nodes, host) rfl ?_
  intro done n st _ hst
  rw [← hst]
  refine foldl_inv (f := fun (host : Host (Block bs)) i =>
    { host with bufs := Function.update host.bufs (addrs n i) (zeroBlock bs) })
    (P := fun _ h => h.bufs a = st.2.bufs a) (List.finRange blocksPerNode) st.2 rfl ?_
  intro slots i h _ hh
  simp only [Function.update_of_ne (ha n i)]
  exact hh

/-- A fresh tree, and the memory of the other trees. -/
theorem initialize_fresh {D : Build bs N B} (hD : D.Correct) {A : BufferAddrs} {id height : Nat} {host host' : Host B}
    {t : MemTree N} (hrun : D.initMemTree A id height host = some (t, host')) :
    8 ∣ bs ∧ Fresh D A id height t host'.bufs ∧
      ∀ id' n i, id' ≠ id → host'.bufs (A.addr id' n i) = host.bufs (A.addr id' n i) := by
  cases D with
  | aes K =>
    obtain ⟨h8, hid, hh, hnodes⟩ := initializeMemTree_spec hD hrun
    exact ⟨h8, ⟨hnodes, hid, hh⟩, (initializeMemTree_frame hrun).2.2⟩
  | plain =>
    simp only [Build.initMemTree, initializeMemTreePlain, Option.ite_none_right_eq_some, Option.some.injEq,
      Prod.mk.injEq] at hrun
    obtain ⟨h8, rfl, rfl⟩ := hrun
    refine ⟨Nat.dvd_of_mod_eq_zero h8, ⟨fun n hn => ?_, rfl, rfl⟩, fun id' n i hid => ?_⟩
    · show ((List.range (2 ^ height)).foldl (initializeNodePlain (A.addr id)) (fun _ => zeroNode, host)).1 n = _
      rw [initializeMemTreePlain_nodes, if_pos hn]
    · exact initializeMemTreePlain_bufs (A.addr id) (fun m j e => hid (A.inj e).1) (2 ^ height)

theorem initialize_fetched {D : Build bs N B} {A : BufferAddrs} {id height : Nat} {host host' : Host B} {t : MemTree N}
    (hrun : D.initMemTree A id height host = some (t, host')) : host'.fetched = host.fetched := by
  cases D with
  | aes K => exact (initializeMemTree_frame hrun).2.1
  | plain =>
    simp only [Build.initMemTree, initializeMemTreePlain, Option.ite_none_right_eq_some, Option.some.injEq,
      Prod.mk.injEq] at hrun
    obtain ⟨-, -, rfl⟩ := hrun
    refine foldl_inv (f := initializeNodePlain (A.addr id)) (P := fun _ st => st.2.fetched = host.fetched)
      (List.range (2 ^ height)) (fun _ => zeroNode, host) rfl ?_
    intro done n st _ hst
    rw [← hst]
    exact foldl_inv (f := fun (host : Host (Block bs)) i =>
      { host with bufs := Function.update host.bufs (A.addr id n i) (zeroBlock bs) })
      (P := fun _ h => h.fetched = st.2.fetched) (List.finRange blocksPerNode) st.2 rfl fun _ _ _ _ h => h

/-- `InitializeMemTree` fails only on blocks of the wrong size. -/
theorem initialize_completes (D : Build bs N B) (A : BufferAddrs) (id height : Nat) (host : Host B) :
    (∃ t host', D.initMemTree A id height host = some (t, host')) ↔ bs % 8 = 0 := by
  cases D with
  | aes K => simp [Build.initMemTree, initializeMemTree]
  | plain => simp [Build.initMemTree, initializeMemTreePlain]

theorem initialize_fails (D : Build bs N B) (A : BufferAddrs) (id height : Nat) (host : Host B) (h8 : bs % 8 ≠ 0) :
    D.initMemTree A id height host = none := by
  by_contra hne
  obtain ⟨⟨t, host'⟩, ht⟩ := Option.ne_none_iff_exists'.mp hne
  exact h8 ((initialize_completes D A id height host).mp ⟨t, host', ht⟩)

end SgxOram
