import SgxOram.App.MemTree
import SgxOram.App.Oram
import SgxOram.Enclave.EvictSpec

/-!
# A tree between and within accesses

* `OwnsBuffers` : every node names the buffers it was given; kept by every eviction that follows a
  download of the same path (`evict_owns`), whatever the stash holds;
* `TreeWf` : the nodes are well formed and every block lies on its path;
* `treeBag` : the blocks of the tree, without the nodes `off` that are downloaded;
* `download_tree`, `fetch_tree`, `put_tree`, `evict_tree` : the calls of an access on the map
  `M : key → (path, content)` that stash and tree represent together (`Holds`).
-/

namespace SgxOram
open Lib Finset

variable {bs : Nat} {N B : Type}

/-! ## Buffers -/

/-- Every node of the tree names the buffers that `InitializeMemTree` gave it. -/
def OwnsBuffers (K : Cipher bs N B) (A : BufferAddrs) (t : MemTree N) : Prop :=
  ∀ n < 2 ^ t.height, ∀ i,
    ((decryptData K.node (t.nodes n)).slots i).blockContent = A.addr t.treeId n i

/-- The backup table holds the buffers of the nodes on path `p`. -/
def BackedUp (A : BufferAddrs) (t : MemTree N) (p : BlockPath) (enc : Nat → Fin blocksPerNode → Addr) : Prop :=
  ∀ h < t.height, ∀ i, enc h i = A.addr t.treeId (nodeAddr p.toNat h) i

theorem BackedUp.distinct {A : BufferAddrs} {t : MemTree N} {p : BlockPath}
    {enc : Nat → Fin blocksPerNode → Addr} (h : BackedUp A t p enc) : DistinctBackup enc t.height := by
  intro g hg f hf i j heq
  rw [h g hg, h f hf] at heq
  obtain ⟨-, hn, hij⟩ := A.inj heq
  exact ⟨nodeAddr_injective p.toNat hn, hij⟩

theorem download_backedUp {K : Cipher bs N B} {A : BufferAddrs} {t : MemTree N} (howns : OwnsBuffers K A t)
    {p : BlockPath} {enc : Nat → Fin blocksPerNode → Addr}
    (h : ∀ h < t.height, BacksUp enc h (decryptData K.node (t.nodes (nodeAddr p.toNat h)))) :
    BackedUp A t p enc := fun g hg i => by
  rw [h g hg i]
  exact howns _ (nodeAddr_lt_two_pow hg) i

/-- An eviction after a download of the same path leaves every node its buffers. -/
theorem evict_owns {K : Cipher bs N B} {A : BufferAddrs} {t t' : MemTree N} {p : BlockPath}
    {w w' : World bs B} (howns : OwnsBuffers K A t) (hback : BackedUp A t p w.client.encryptedDataAddrInPath)
    (he : Evicted K p t w (evictLevels t.height) t' w') : OwnsBuffers K A t' := by
  intro n hn i
  rw [he.height] at hn
  rw [he.treeId]
  by_cases hon : ∃ h < t.height, n = nodeAddr p.toNat h
  · obtain ⟨h, hh, rfl⟩ := hon
    rw [he.addrs h (mem_evictLevels.mpr hh) i, hback h hh i]
  · push Not at hon
    rw [he.nodes n fun h hh => hon h (mem_evictLevels.mp hh)]
    exact howns n hn i

/-- An eviction writes to buffers of the nodes on its path only. -/
theorem evict_bufs {K : Cipher bs N B} {A : BufferAddrs} {t t' : MemTree N} {p : BlockPath}
    {w w' : World bs B} (hback : BackedUp A t p w.client.encryptedDataAddrInPath)
    (he : Evicted K p t w (evictLevels t.height) t' w') {id n : Nat} {i : Fin blocksPerNode}
    (hn : id = t.treeId → ∀ h < t.height, n ≠ nodeAddr p.toNat h) :
    w'.host.bufs (A.addr id n i) = w.host.bufs (A.addr id n i) := by
  refine he.bufs _ fun h hh j heq => ?_
  rw [hback h (mem_evictLevels.mp hh)] at heq
  obtain ⟨hid, hnode, -⟩ := A.inj heq
  exact hn hid h (mem_evictLevels.mp hh) hnode

/-! ## Nodes -/

/-- The nodes of path `p`. -/
def pathNodes (p : BlockPath) (height : Nat) : Finset Nat := (range height).image (nodeAddr p.toNat)

theorem mem_pathNodes {p : BlockPath} {height n : Nat} :
    n ∈ pathNodes p height ↔ ∃ h < height, n = nodeAddr p.toNat h := by
  simp [pathNodes, eq_comm]

/-- The nodes of a tree are well formed and every block lies on its path. -/
structure TreeWf (K : Cipher bs N B) (A : BufferAddrs) (t : MemTree N) (bufs : Addr → B) : Prop where
  owns : OwnsBuffers K A t
  wf : ∀ n < 2 ^ t.height, (nodeRow K t bufs n).Wf
  clear : ∀ n < 2 ^ t.height, (nodeRow K t bufs n).KeysClear
  placed : ∀ n < 2 ^ t.height, ∀ b ∈ (nodeRow K t bufs n).bag, ∃ h < t.height, n = nodeAddr b.path.toNat h

/-- The blocks in the tree, the nodes in `off` left out. -/
def treeBag (K : Cipher bs N B) (t : MemTree N) (bufs : Addr → B) (off : Finset Nat) : Multiset (Blk bs) :=
  ∑ n ∈ range (2 ^ t.height) \ off, (nodeRow K t bufs n).bag

theorem mem_treeBag {K : Cipher bs N B} {t : MemTree N} {bufs : Addr → B} {off : Finset Nat} {b : Blk bs} :
    b ∈ treeBag K t bufs off ↔ ∃ n < 2 ^ t.height, n ∉ off ∧ b ∈ (nodeRow K t bufs n).bag := by
  simp [treeBag, Multiset.mem_sum, and_assoc]

/-- The blocks in the nodes of path `p`. -/
def pathBag (K : Cipher bs N B) (t : MemTree N) (bufs : Addr → B) (p : BlockPath) : Multiset (Blk bs) :=
  ∑ h ∈ range t.height, (nodeRow K t bufs (nodeAddr p.toNat h)).bag

/-- The nodes on path `p` and the others. -/
theorem sum_nodes_split {M : Type*} [AddCommMonoid M] (p : BlockPath) (height : Nat) (f : Nat → M) :
    ∑ n ∈ range (2 ^ height), f n =
      ∑ n ∈ range (2 ^ height) \ pathNodes p height, f n + ∑ h ∈ range height, f (nodeAddr p.toNat h) := by
  have hsub : pathNodes p height ⊆ range (2 ^ height) := fun n hn => by
    obtain ⟨h, hh, rfl⟩ := mem_pathNodes.mp hn
    exact mem_range.mpr (nodeAddr_lt_two_pow hh)
  rw [← sum_sdiff hsub, pathNodes, sum_image fun g _ h _ heq => nodeAddr_injective p.toNat heq]

/-- The blocks on path `p` and the others. -/
theorem treeBag_split (K : Cipher bs N B) (t : MemTree N) (bufs : Addr → B) (p : BlockPath) :
    treeBag K t bufs ∅ = treeBag K t bufs (pathNodes p t.height) + pathBag K t bufs p := by
  rw [treeBag, sdiff_empty]
  exact sum_nodes_split p t.height fun n => (nodeRow K t bufs n).bag

/-- In a well-formed node the keys and the presence bits tell the same slots. -/
theorem Row.Wf.keysTell {r : Row bs} (hwf : r.Wf) (hclear : r.KeysClear) : r.KeysTell := fun i =>
  ⟨fun hk hi => hk (hclear i hi), hwf.key_ne_zero i⟩

theorem TreeWf.pathKeyBag_eq {K : Cipher bs N B} {A : BufferAddrs} {t : MemTree N} {bufs : Addr → B}
    (h : TreeWf K A t bufs) (p : BlockPath) :
    pathKeyBag K t bufs p = pathBag K t bufs p :=
  sum_congr rfl fun g hg => by
    have hlt := nodeAddr_lt_two_pow (p := p.toNat) (mem_range.mp hg)
    exact ((h.wf _ hlt).keysTell (h.clear _ hlt)).keyBag_eq

/-- A tree depends on its own buffers only. -/
theorem OwnsBuffers.nodeRow_congr {K : Cipher bs N B} {A : BufferAddrs} {t : MemTree N}
    (h : OwnsBuffers K A t) {bufs bufs' : Addr → B}
    (hb : ∀ n i, bufs' (A.addr t.treeId n i) = bufs (A.addr t.treeId n i)) {n : Nat} (hn : n < 2 ^ t.height) :
    nodeRow K t bufs' n = nodeRow K t bufs n :=
  SgxOram.nodeRow_congr rfl fun i => by
    rw [h n hn i]
    exact hb n i

theorem TreeWf.frame {K : Cipher bs N B} {A : BufferAddrs} {t : MemTree N} {bufs bufs' : Addr → B}
    (h : TreeWf K A t bufs) (hb : ∀ n i, bufs' (A.addr t.treeId n i) = bufs (A.addr t.treeId n i)) :
    TreeWf K A t bufs' ∧ ∀ off, treeBag K t bufs' off = treeBag K t bufs off := by
  have hrow : ∀ n < 2 ^ t.height, nodeRow K t bufs' n = nodeRow K t bufs n := fun n hn =>
    h.owns.nodeRow_congr hb hn
  refine ⟨⟨h.owns, fun n hn => hrow n hn ▸ h.wf n hn, fun n hn => hrow n hn ▸ h.clear n hn,
    fun n hn => hrow n hn ▸ h.placed n hn⟩, fun off => sum_congr rfl fun n hn => ?_⟩
  rw [hrow n (mem_range.mp (mem_sdiff.mp hn).1)]

/-- A fresh tree is well formed and holds nothing. -/
theorem initializeMemTree_wf {K : Cipher bs N B} (hK : K.Correct) {A : BufferAddrs} {treeId height : Nat}
    {host host' : Host B} {t : MemTree N} (hrun : initializeMemTree K A treeId height host = some (t, host'))
    (bufs : Addr → B) : TreeWf K A t bufs ∧ treeBag K t bufs ∅ = 0 := by
  obtain ⟨-, rfl, rfl, hnodes⟩ := initializeMemTree_spec hK hrun
  have hempty : ∀ n < 2 ^ t.height, (nodeRow K t bufs n).node = emptyNode (A.addr t.treeId n) := hnodes
  have hbag : ∀ n < 2 ^ t.height, (nodeRow K t bufs n).bag = 0 := fun n hn =>
    Row.bag_of_empty fun i => by rw [hempty n hn]; rfl
  refine
    ⟨{ owns := fun n hn i => by rw [hnodes n hn]; rfl
       wf := fun n hn => Row.Wf.of_empty (fun i => by rw [hempty n hn]; rfl) (by rw [hempty n hn]; rfl)
       clear := fun n hn i _ => by rw [hempty n hn]; rfl
       placed := fun n hn b hb => by
        rw [hbag n hn] at hb
        exact absurd hb (Multiset.notMem_zero b) },
      sum_eq_zero fun n hn => hbag n ?_⟩
  simpa using hn

/-! ## The calls of an access -/

/-- What a block carries besides its key. -/
def Blk.val (b : Blk bs) : BlockPath × Block bs := (b.path, b.content)

/-- The blocks in the stash and in the tree outside `off` are the bindings of `M`. -/
def Holds (K : Cipher bs N B) (t : MemTree N) (w : World bs B) (off : Finset Nat)
    (M : BlockKey → Option (BlockPath × Block bs)) : Prop :=
  Represents Blk.key Blk.val (stashBag w.client.path + treeBag K t w.host.bufs off) M

/-- A download moves the blocks of the path into the stash. -/
theorem download_tree (h8 : 8 ∣ bs) {K : Cipher bs N B} {A : BufferAddrs} {t : MemTree N}
    (hh : t.height ≤ clientMaxPath) {p : BlockPath} {w w' : World bs B} (htree : TreeWf K A t w.host.bufs)
    (hwf : w.client.StashWf) (hrun : ecallDownloadPathToEnclaveClientPathOram K t p w = some w') :
    w'.client.StashWf ∧ w'.host.bufs = w.host.bufs ∧ BackedUp A t p w'.client.encryptedDataAddrInPath ∧
      stashBag w'.client.path + treeBag K t w'.host.bufs (pathNodes p t.height) =
        stashBag w.client.path + treeBag K t w.host.bufs ∅ := by
  obtain ⟨hd, hback⟩ := download_spec h8 K hh hrun
  obtain ⟨hwf', hbag⟩ := hd.stash hwf
  have hbufs : w'.host.bufs = w.host.bufs := by rw [hd.host]
  refine ⟨hwf', hbufs, download_backedUp htree.owns hback, ?_⟩
  rw [hbag, hbufs, treeBag_split K t w.host.bufs p, htree.pathKeyBag_eq p]
  abel

/-- With the path of the key's block downloaded, the block is in the stash. -/
theorem mem_stash_of_downloaded {K : Cipher bs N B} {A : BufferAddrs} {t : MemTree N} {p : BlockPath}
    {w : World bs B} (htree : TreeWf K A t w.host.bufs) {b : Blk bs} (hpath : b.path = p)
    (hb : b ∈ stashBag w.client.path + treeBag K t w.host.bufs (pathNodes p t.height)) :
    b ∈ stashBag w.client.path := by
  rcases Multiset.mem_add.mp hb with hb | hb
  · exact hb
  · obtain ⟨n, hn, hoff, hbn⟩ := mem_treeBag.mp hb
    obtain ⟨h, hh, rfl⟩ := htree.placed n hn b hbn
    exact absurd (mem_pathNodes.mpr ⟨h, hh, by rw [hpath]⟩) hoff

/-- A fetch removes the binding of its key and copies its content out. -/
theorem fetch_tree (h8 : 8 ∣ bs) {K : Cipher bs N B} {A : BufferAddrs} {t : MemTree N} {p : BlockPath}
    {w : World bs B} (htree : TreeWf K A t w.host.bufs) (hwf : w.client.StashWf)
    {M : BlockKey → Option (BlockPath × Block bs)} (hM : Holds K t w (pathNodes p t.height) M)
    {key : BlockKey} (hpath : ∀ v, M key = some v → v.1 = p) (ptr : Addr) :
    ∃ c' ptr', ecallObliviousFetch true key ptr w.client =
        ⟨c', fetchedContent (M key), ptr', (M key).isSome⟩ ∧
      c'.StashWf ∧ w.client.SameTables c' ∧
      Holds K t { w with client := c' } (pathNodes p t.height) (Function.update M key none) ∧
      ∃ subs', c'.subs = w.client.subs ++ subs' ∧ ∀ n ∈ subs', n ≠ 0 := by
  have hnd : ((stashBag w.client.path).map Blk.key).Nodup :=
    Multiset.nodup_of_le (Multiset.map_le_map (Multiset.le_add_right _ _)) hM.1
  cases hk : M key with
  | none =>
    have habsent := hM.not_mem hk
    refine ⟨w.client, ptr, fetch_of_absent true ptr fun b hb => habsent b (Multiset.mem_add.mpr (Or.inl hb)),
      hwf, Client.SameTables.refl _, ?_, [], (List.append_nil _).symm, by simp⟩
    rwa [show Function.update M key none = M from hk ▸ Function.update_eq_self key M]
  | some v =>
    obtain ⟨b, hb, rfl, rfl⟩ := hM.exists_mem hk
    have hstash := mem_stash_of_downloaded htree (hpath _ hk) hb
    obtain ⟨path', ptr', subs', hfetch, hrows, hbag, hsubs⟩ := fetch_of_mem h8 true ptr hwf hnd hstash
    refine ⟨_, ptr', hfetch, ⟨hrows, (load_pred hwf.load hbag).2⟩, ⟨rfl, rfl, rfl, rfl⟩, ?_, subs', rfl,
      hsubs⟩
    have hM' : Represents Blk.key Blk.val
        (b ::ₘ (stashBag path' + treeBag K t w.host.bufs (pathNodes p t.height))) M := by
      rw [← Multiset.cons_add, ← Multiset.singleton_add, add_comm _ (stashBag path'), hbag]
      exact hM
    exact hM'.of_cons

/-- A put of a key that the store does not hold binds it. -/
theorem put_tree (h8 : 8 ∣ bs) {K : Cipher bs N B} {t : MemTree N} {off : Finset Nat} {w : World bs B}
    (hwf : w.client.StashWf) {M : BlockKey → Option (BlockPath × Block bs)} (hM : Holds K t w off M)
    {key : BlockKey} (hkey : key ≠ 0) (hnone : M key = none) {path : BlockPath} {content : Block bs} {ptr : Addr}
    {r : PutResult bs} (hrun : ecallObliviousPutToStashPathOram path key ptr content w.client = some r) :
    r.client.StashWf ∧ w.client.SameTables r.client ∧ r.client.subs = w.client.subs ∧
      Holds K t { w with client := r.client } off (Function.update M key (some (path, content))) := by
  obtain ⟨hclient, hwf', hbag⟩ := put_spec h8 hkey hwf hrun
  refine ⟨hwf', by rw [hclient]; exact ⟨rfl, rfl, rfl, rfl⟩, by rw [hclient], ?_⟩
  have hM' := Represents.cons (a := (⟨key, path, content⟩ : Blk bs)) hM hnone
  rwa [← Multiset.cons_add, ← Multiset.singleton_add, add_comm _ (stashBag w.client.path), ← hbag] at hM'

/-- What an eviction along the downloaded path `p` does to stash and tree. -/
structure EvictedTree (K : Cipher bs N B) (A : BufferAddrs) (p : BlockPath) (t : MemTree N) (w : World bs B)
    (t' : MemTree N) (w' : World bs B) : Prop where
  tree : TreeWf K A t' w'.host.bufs
  stash : w'.client.StashWf
  bag : stashBag w'.client.path + treeBag K t' w'.host.bufs ∅ =
    stashBag w.client.path + treeBag K t w.host.bufs (pathNodes p t.height)
  off : ∀ n < 2 ^ t.height, n ∉ pathNodes p t.height → nodeRow K t' w'.host.bufs n = nodeRow K t w.host.bufs n
  greedy : ∀ h < t.height, ∀ b, (b ∈ stashBag w'.client.path ∨
      ∃ g < h, b ∈ (nodeRow K t' w'.host.bufs (nodeAddr p.toNat g)).bag) → OnPath p h b.path →
    (nodeRow K t' w'.host.bufs (nodeAddr p.toNat h)).bag.card = blocksPerNode
  subs : ∃ subs', w'.client.subs = w.client.subs ++ subs' ∧ ∀ n ∈ subs', n ≠ 0

/-- An eviction along the downloaded path puts the tree back together. -/
theorem evict_tree (h8 : 8 ∣ bs) {K : Cipher bs N B} (hK : K.Correct) {A : BufferAddrs} {t : MemTree N}
    (hh : t.height ≤ clientMaxPath) {p : BlockPath} {w : World bs B} (htree : TreeWf K A t w.host.bufs)
    (hwf : w.client.StashWf) (hback : BackedUp A t p w.client.encryptedDataAddrInPath) :
    EvictedTree K A p t w (ecallEvictPathOutsideEnclavePathOram K t p w).1
      (ecallEvictPathOutsideEnclavePathOram K t p w).2 := by
  have he := evict_spec hK t hh p w
  have hb := evict_bag_spec h8 hK t hh p hback.distinct
  generalize ecallEvictPathOutsideEnclavePathOram K t p w = r at he hb
  -- the nodes off the path keep their ciphertexts and their buffers
  have hoff : ∀ n < 2 ^ t.height, n ∉ pathNodes p t.height →
      nodeRow K r.1 r.2.host.bufs n = nodeRow K t w.host.bufs n := fun n hn hnp => by
    have hne : ∀ h < t.height, n ≠ nodeAddr p.toNat h := fun h hh heq => hnp (mem_pathNodes.mpr ⟨h, hh, heq⟩)
    refine nodeRow_congr (he.nodes n fun h hh => hne h (mem_evictLevels.mp hh)) fun i => ?_
    rw [htree.owns n hn i]
    exact evict_bufs hback he fun _ => hne
  have hon : ∀ n < 2 ^ t.height, n ∈ pathNodes p t.height ∨ n ∉ pathNodes p t.height := fun n _ => em _
  obtain ⟨hload, hsubs⟩ := hb.load hwf.rows hwf.load
  refine
    { tree := ⟨evict_owns htree.owns hback he, fun n hn => ?_, fun n hn => ?_, fun n hn => ?_⟩
      stash := ⟨hb.rows hwf.rows, hload⟩, bag := ?_, off := hoff, subs := hsubs, greedy := fun h hlt b hbh hpath => ?_ }
  · rw [he.height] at hn
    rcases hon n hn with hp | hp
    · obtain ⟨h, hlt, rfl⟩ := mem_pathNodes.mp hp
      exact hb.wf hwf.rows h (mem_evictLevels.mpr hlt)
    · exact hoff n hn hp ▸ htree.wf n hn
  · rw [he.height] at hn
    rcases hon n hn with hp | hp
    · obtain ⟨h, hlt, rfl⟩ := mem_pathNodes.mp hp
      exact hb.clear h (mem_evictLevels.mpr hlt)
    · exact hoff n hn hp ▸ htree.clear n hn
  · rw [he.height] at hn ⊢
    rcases hon n hn with hp | hp
    · obtain ⟨h, hlt, rfl⟩ := mem_pathNodes.mp hp
      exact fun b hbn => ⟨h, hlt, (hb.onPath h (mem_evictLevels.mpr hlt) b hbn).symm⟩
    · exact hoff n hn hp ▸ htree.placed n hn
  · have hsum : (evictLevels t.height |>.map fun h =>
        (nodeRow K r.1 r.2.host.bufs (nodeAddr p.toNat h)).bag).sum = pathBag K r.1 r.2.host.bufs p := by
      rw [sum_evictLevels, pathBag, he.height]
    have hrest : treeBag K r.1 r.2.host.bufs (pathNodes p t.height) =
        treeBag K t w.host.bufs (pathNodes p t.height) := by
      rw [treeBag, treeBag, he.height]
      refine sum_congr rfl fun n hn => ?_
      obtain ⟨hlt, hnp⟩ := mem_sdiff.mp hn
      rw [hoff n (mem_range.mp hlt) hnp]
    rw [← hb.bag, hsum, treeBag_split K r.1 r.2.host.bufs p, he.height, hrest]
    abel
  · refine hb.greedy h (mem_evictLevels.mpr hlt) b ?_ hpath
    rcases hbh with hbh | ⟨g, hg, hbg⟩
    · exact Or.inl hbh
    · exact Or.inr ⟨g, mem_evictLevels.mpr (hg.trans hlt), hg, hbg⟩

/-! ## The invariant of an access -/

/-- Stash and tree are well formed and represent `M` together; the nodes in `off` are downloaded. -/
structure TreeInv (K : Cipher bs N B) (A : BufferAddrs) (t : MemTree N) (w : World bs B) (off : Finset Nat)
    (M : BlockKey → Option (BlockPath × Block bs)) : Prop where
  height : t.height < clientMaxPath
  tree : TreeWf K A t w.host.bufs
  stash : w.client.StashWf
  holds : Holds K t w off M
  subs : ∀ n ∈ w.client.subs, n ≠ 0

/-- Between the download of path `p` and the eviction along it. -/
structure OnAccess (K : Cipher bs N B) (A : BufferAddrs) (t : MemTree N) (w : World bs B) (p : BlockPath)
    (M : BlockKey → Option (BlockPath × Block bs)) : Prop extends
    TreeInv K A t w (pathNodes p t.height) M where
  back : BackedUp A t p w.client.encryptedDataAddrInPath

variable {K : Cipher bs N B} {A : BufferAddrs} {t : MemTree N} {w w' : World bs B}
  {M : BlockKey → Option (BlockPath × Block bs)}

/-- What happens to the buffers of other trees does not matter. -/
theorem TreeInv.frame {off : Finset Nat} (h : TreeInv K A t w off M) (hclient : w'.client = w.client)
    (hb : ∀ n i, w'.host.bufs (A.addr t.treeId n i) = w.host.bufs (A.addr t.treeId n i)) :
    TreeInv K A t w' off M := by
  obtain ⟨htree, hbag⟩ := h.tree.frame hb
  refine ⟨h.height, htree, hclient ▸ h.stash, ?_, hclient ▸ h.subs⟩
  rw [Holds, hclient, hbag]
  exact h.holds

theorem TreeInv.download (h8 : 8 ∣ bs) (hinv : TreeInv K A t w ∅ M) {p : BlockPath}
    (hrun : ecallDownloadPathToEnclaveClientPathOram K t p w = some w') :
    OnAccess K A t w' p M ∧ w'.client.pathMm = w.client.pathMm := by
  have hh := hinv.height.le
  obtain ⟨hstash, hbufs, hback, hbag⟩ := download_tree h8 hh hinv.tree hinv.stash hrun
  have hclient := (download_spec h8 K hh hrun).1.client
  refine ⟨⟨⟨hinv.height, hbufs ▸ hinv.tree, hstash, ?_, by rw [hclient]; exact hinv.subs⟩, hback⟩, by rw [hclient]⟩
  rw [Holds, hbag]
  exact hinv.holds

theorem OnAccess.fetch (h8 : 8 ∣ bs) {p : BlockPath} (hinv : OnAccess K A t w p M) {key : BlockKey}
    (hpath : ∀ v, M key = some v → v.1 = p) (ptr : Addr) :
    ∃ c' ptr', ecallObliviousFetch true key ptr w.client =
        ⟨c', fetchedContent (M key), ptr', (M key).isSome⟩ ∧
      OnAccess K A t { w with client := c' } p (Function.update M key none) ∧
      w.client.SameTables c' := by
  obtain ⟨c', ptr', hfetch, hstash, htables, hholds, subs', hsubs, hne⟩ :=
    fetch_tree h8 hinv.tree hinv.stash hinv.holds hpath ptr
  refine ⟨c', ptr', hfetch, ⟨⟨hinv.height, hinv.tree, hstash, hholds, fun n hn => ?_⟩, ?_⟩, htables⟩
  · rw [hsubs] at hn
    exact (List.mem_append.mp hn).elim (hinv.subs n) (hne n)
  · exact htables.encryptedDataAddrInPath ▸ hinv.back

theorem OnAccess.put (h8 : 8 ∣ bs) {p : BlockPath} (hinv : OnAccess K A t w p M) {key : BlockKey}
    (hkey : key ≠ 0) (hnone : M key = none) {path : BlockPath} {content : Block bs} {ptr : Addr}
    {r : PutResult bs} (hrun : ecallObliviousPutToStashPathOram path key ptr content w.client = some r) :
    OnAccess K A t { w with client := r.client } p (Function.update M key (some (path, content))) ∧
      w.client.SameTables r.client := by
  obtain ⟨hstash, htables, hsubs, hholds⟩ := put_tree h8 hinv.stash hinv.holds hkey hnone hrun
  refine ⟨⟨⟨hinv.height, hinv.tree, hstash, hholds, fun n hn => hinv.subs n ?_⟩, ?_⟩, htables⟩
  · rwa [← hsubs]
  · exact htables.encryptedDataAddrInPath ▸ hinv.back

theorem OnAccess.evict (h8 : 8 ∣ bs) (hK : K.Correct) {p : BlockPath} (hinv : OnAccess K A t w p M) :
    let r := ecallEvictPathOutsideEnclavePathOram K t p w
    TreeInv K A r.1 r.2 ∅ M ∧ Evicted K p t w (evictLevels t.height) r.1 r.2 ∧
      EvictedTree K A p t w r.1 r.2 := by
  have hh := hinv.height.le
  have he := evict_spec hK t hh p w
  have ht := evict_tree h8 hK hh hinv.tree hinv.stash hinv.back
  obtain ⟨subs', hsubs, hne⟩ := ht.subs
  refine ⟨⟨he.height ▸ hinv.height, ht.tree, ht.stash, ?_, fun n hn => ?_⟩, he, ht⟩
  · rw [Holds, ht.bag]
    exact hinv.holds
  · rw [hsubs] at hn
    exact (List.mem_append.mp hn).elim (hinv.subs n) (hne n)

theorem memTreeFetch_eq_some {p : BlockPath} {key : BlockKey} {ptr : Addr} {r : Fetched bs B} :
    memTreeFetchPathOram K t p key ptr w = some r ↔
      ∃ w₁, ecallDownloadPathToEnclaveClientPathOram K t p w = some w₁ ∧
        r = ⟨{ w₁ with client := (ecallObliviousFetch true key ptr w₁.client).client },
          (ecallObliviousFetch true key ptr w₁.client).fetchedBlock,
          (ecallObliviousFetch true key ptr w₁.client).encryptedContentPtr,
          (ecallObliviousFetch true key ptr w₁.client).succ⟩ := by
  simp only [memTreeFetchPathOram, Option.pure_def, Option.bind_eq_bind, Option.bind_eq_some_iff,
    Option.some.injEq]
  exact exists_congr fun w₁ => and_congr_right fun _ => eq_comm

/-- `MemTreeFetch_PathORAM` answers with the binding of its key. -/
theorem TreeInv.memTreeFetch (h8 : 8 ∣ bs) (hinv : TreeInv K A t w ∅ M) {p : BlockPath} {key : BlockKey}
    (hpath : ∀ v, M key = some v → v.1 = p) {ptr : Addr} {r : Fetched bs B}
    (hrun : memTreeFetchPathOram K t p key ptr w = some r) :
    OnAccess K A t r.world p (Function.update M key none) ∧ r.fetchedBlock = fetchedContent (M key) ∧
      r.succ = (M key).isSome ∧ r.world.client.pathMm = w.client.pathMm := by
  obtain ⟨w₁, hdown, rfl⟩ := memTreeFetch_eq_some.mp hrun
  obtain ⟨hon, hmm⟩ := hinv.download h8 hdown
  obtain ⟨c', ptr', hfetch, hon', htables⟩ := hon.fetch h8 hpath ptr
  rw [hfetch]
  exact ⟨hon', rfl, rfl, htables.pathMm.trans hmm⟩

theorem memTreePut_eq_some {path : BlockPath} {key : BlockKey} {content : Block bs} {ptr : Addr} :
    memTreePutPathOram path key content ptr w = some w' ↔
      ∃ r, ecallObliviousPutToStashPathOram path key ptr content w.client = some r ∧
        w' = { w with client := r.client } := by
  simp only [memTreePutPathOram, Option.pure_def, Option.bind_eq_bind, Option.bind_eq_some_iff,
    Option.some.injEq]
  exact exists_congr fun r => and_congr_right fun _ => eq_comm

theorem OnAccess.memTreePut (h8 : 8 ∣ bs) {p : BlockPath} (hinv : OnAccess K A t w p M) {key : BlockKey}
    (hkey : key ≠ 0) (hnone : M key = none) {path : BlockPath} {content : Block bs} {ptr : Addr}
    (hrun : memTreePutPathOram path key content ptr w = some w') :
    OnAccess K A t w' p (Function.update M key (some (path, content))) ∧
      w'.client.pathMm = w.client.pathMm := by
  obtain ⟨r, hput, rfl⟩ := memTreePut_eq_some.mp hrun
  obtain ⟨hon, htables⟩ := hinv.put h8 hkey hnone hput
  exact ⟨hon, htables.pathMm⟩

/-! ## Trees at rest -/

/-- The tree holds `M` together with the blocks `S` outside of it. -/
structure Stored (K : Cipher bs N B) (A : BufferAddrs) (t : MemTree N) (S : Multiset (Blk bs)) (bufs : Addr → B)
    (M : BlockKey → Option (BlockPath × Block bs)) : Prop where
  height : t.height < clientMaxPath
  tree : TreeWf K A t bufs
  holds : Represents Blk.key Blk.val (S + treeBag K t bufs ∅) M

theorem Client.StashWf.stashBag_eq_zero {c : Client bs} (h : c.StashWf) (hload : c.stashLoad = 0) :
    stashBag c.path = 0 := by
  have := h.load
  rw [hload] at this
  exact Multiset.card_eq_zero.mp this.symm

theorem Stored.treeInv (h : Stored K A t (stashBag w.client.path) w.host.bufs M) (hstash : w.client.StashWf)
    (hsubs : ∀ n ∈ w.client.subs, n ≠ 0) : TreeInv K A t w ∅ M :=
  ⟨h.height, h.tree, hstash, h.holds, hsubs⟩

theorem TreeInv.stored (h : TreeInv K A t w ∅ M) : Stored K A t (stashBag w.client.path) w.host.bufs M :=
  ⟨h.height, h.tree, h.holds⟩

/-- A tree at rest takes the empty stash over. -/
theorem Stored.wake (h : Stored K A t 0 w.host.bufs M) (hstash : w.client.StashWf)
    (hsubs : ∀ n ∈ w.client.subs, n ≠ 0) (hload : w.client.stashLoad = 0) : TreeInv K A t w ∅ M := by
  apply Stored.treeInv _ hstash hsubs
  rwa [hstash.stashBag_eq_zero hload]

/-- A tree that leaves the stash empty is at rest. -/
theorem TreeInv.rest (h : TreeInv K A t w ∅ M) (hload : w.client.stashLoad = 0) :
    Stored K A t 0 w.host.bufs M := by
  have := h.stored
  rwa [h.stash.stashBag_eq_zero hload] at this

theorem Stored.frame {S : Multiset (Blk bs)} {bufs bufs' : Addr → B} (h : Stored K A t S bufs M)
    (hb : ∀ n i, bufs' (A.addr t.treeId n i) = bufs (A.addr t.treeId n i)) : Stored K A t S bufs' M := by
  obtain ⟨htree, hbag⟩ := h.tree.frame hb
  refine ⟨h.height, htree, ?_⟩
  rw [hbag]
  exact h.holds

/-! ## Accesses that fit complete -/

/-- `M` binds at most the keys of `s`. -/
def KeysIn (M : BlockKey → Option (BlockPath × Block bs)) (s : Finset BlockKey) : Prop :=
  ∀ k v, M k = some v → k ∈ s

theorem KeysIn.update {s : Finset BlockKey} (h : KeysIn M s) {key : BlockKey} :
    KeysIn (Function.update M key none) s := fun k v hk => by
  by_cases hka : k = key
  · subst hka
    rw [Function.update_self] at hk
    cases hk
  · rw [Function.update_of_ne hka] at hk
    exact h k v hk

theorem KeysIn.bind {keys : Finset BlockKey} (h : KeysIn M keys) (key : BlockKey) (v : BlockPath × Block bs) :
    KeysIn (Function.update M key (some v)) (insert key keys) := by
  intro k u hk
  by_cases hkey : k = key
  · exact Finset.mem_insert.mpr (Or.inl hkey)
  · rw [Function.update_of_ne hkey] at hk
    exact Finset.mem_insert_of_mem (h k u hk)

/-- A path and the stash hold no more blocks than there are keys. -/
theorem TreeInv.path_card_lt (hinv : TreeInv K A t w ∅ M) {s : Finset BlockKey} (hs : KeysIn M s) {c : Nat}
    (hfit : s.card < c) {p : BlockPath} :
    (stashBag w.client.path + pathKeyBag K t w.host.bufs p).card < c := by
  have hcard := hinv.holds.card_le hs
  rw [treeBag_split K t w.host.bufs p, ← hinv.tree.pathKeyBag_eq p, Multiset.card_add, Multiset.card_add] at hcard
  rw [Multiset.card_add]
  omega

theorem TreeInv.memTreeFetch_completes (h8 : 8 ∣ bs) (hinv : TreeInv K A t w ∅ M) {s : Finset BlockKey}
    (hs : KeysIn M s) (hfit : s.card ≤ clientMaxPath * blocksPerNode) (p : BlockPath) (key : BlockKey)
    (ptr : Addr) : ∃ r, memTreeFetchPathOram K t p key ptr w = some r := by
  have hh := hinv.height.le
  obtain ⟨w₁, hw₁⟩ := download_completes h8 K hh p hinv.stash.counts <| by
    rw [← Multiset.card_add]
    exact Nat.lt_succ_iff.mp (hinv.path_card_lt hs (Nat.lt_succ_of_le hfit))
  exact ⟨_, memTreeFetch_eq_some.mpr ⟨w₁, hw₁, rfl⟩⟩

theorem OnAccess.memTreePut_completes (h8 : 8 ∣ bs) {p : BlockPath} (hinv : OnAccess K A t w p M)
    {key : BlockKey} (hkey : key ≠ 0) (hnone : M key = none) {s : Finset BlockKey} (hs : KeysIn M s)
    (hmem : key ∈ s) (hfit : s.card ≤ clientMaxPath * blocksPerNode) (path : BlockPath)
    (content : Block bs) (ptr : Addr) : ∃ w', memTreePutPathOram path key content ptr w = some w' := by
  have hne : ∀ k v, M k = some v → k ≠ key := fun k v hk e => by
    rw [e, hnone] at hk
    cases hk
  have hcard := hinv.holds.card_le (s := s.erase key) fun k v hk =>
    Finset.mem_erase.mpr ⟨hne k v hk, hs k v hk⟩
  rw [Multiset.card_add] at hcard
  have herase := Finset.card_erase_lt_of_mem hmem
  obtain ⟨r, hr⟩ := put_completes h8 path ptr content hkey hinv.stash.counts (by omega)
  exact ⟨_, memTreePut_eq_some.mpr ⟨r, hr, rfl⟩⟩

end SgxOram
