import SgxOram.App.Buffers

/-!
# Tampered ciphertexts

The host replaces the ciphertext of one node, or of one block buffer, by bytes that fail
authentication. `decryptData` drops the status, so the enclave goes on with whatever the decryption
leaves in its buffer.

* `SameOff` : two trees that differ at one node only. Accesses that do not download the node keep them
  so, and answer alike (`SameOff.accessLevel`);
* `Harmless` : what a replaced node delivers does not change the answer to a request
  (`harmless_right`, `harmless_of_right`);
* `BaseInv.replaced` : after the buffer of a present slot is replaced the object is as good as one that holds
  what the new bytes decrypt to;
* `TamperedInv` : a run after the replacement mirrors an untouched run until the node is downloaded;
* `tampered_harmless` : the access that downloads it answers right if the replacement is harmless;
  `tampered_misread` : sevens are written and zeros are read.
-/

namespace SgxOram
open Lib

variable {bs : Nat} {N B : Type} {K : Cipher bs N B} {A : BufferAddrs} {sz : BlockSize bs}

/-! ## Trees that differ at one node -/

/-- The worlds differ in the buffers of node `n` of tree `id` at most. -/
structure SameWorld (A : BufferAddrs) (id n : Nat) (w w' : World bs B) : Prop where
  client : w'.client = w.client
  rand : w'.host.rand = w.host.rand
  fetched : w'.host.fetched = w.host.fetched
  bufs : ∀ a, (∀ i, a ≠ A.addr id n i) → w'.host.bufs a = w.host.bufs a

/-- The trees differ in node `n` and its buffers at most. -/
structure SameOff (A : BufferAddrs) (n : Nat) (t t' : MemTree N) (w w' : World bs B) : Prop extends
    SameWorld A t.treeId n w w' where
  treeId : t'.treeId = t.treeId
  height : t'.height = t.height
  nodes : ∀ m, m ≠ n → t'.nodes m = t.nodes m

variable {id n : Nat} {t t' : MemTree N} {w w' : World bs B} {p q : BlockPath} {key : BlockKey} {req : Request}

theorem SameWorld.bufs_addr (h : SameWorld A id n w w') {m : Nat} (hm : m ≠ n) (i : Fin blocksPerNode) :
    w'.host.bufs (A.addr id m i) = w.host.bufs (A.addr id m i) :=
  h.bufs _ fun _ heq => hm (A.inj heq).2.1

/-- A slot whose buffer lies elsewhere is downloaded alike. -/
theorem SameWorld.slot (h : SameWorld A id n w w') (K : Cipher bs N B) {lvl : Nat} (hlvl : lvl < clientMaxPath)
    {i : Fin blocksPerNode} (hbuf : ∀ j, (w.client.temp.node.slots i).blockContent ≠ A.addr id n j) :
    Option.Rel (SameWorld A id n) (downloadSlot K lvl w i) (downloadSlot K lvl w' i) := by
  simp only [downloadSlot, h.client, backUpAddr_lt hlvl, Option.bind_eq_bind, Option.bind_some, h.bufs _ hbuf]
  split
  · exact Option.Rel.some ⟨rfl, h.rand, h.fetched, h.bufs⟩
  · exact Option.Rel.none

theorem SameWorld.slots (h8 : 8 ∣ bs) (h : SameWorld A id n w w') (K : Cipher bs N B) {lvl : Nat}
    (hlvl : lvl < clientMaxPath) (hbuf : ∀ i j, (w.client.temp.node.slots i).blockContent ≠ A.addr id n j) :
    Option.Rel (SameWorld A id n) ((List.finRange blocksPerNode).foldlM (downloadSlot K lvl) w)
      ((List.finRange blocksPerNode).foldlM (downloadSlot K lvl) w') := by
  have key := foldlM_rel (f := downloadSlot K lvl) (g := downloadSlot K lvl)
    (R := fun done v v' => SameWorld A id n v v' ∧
      ∀ j, j ∉ done → v.client.temp.node.slots j = w.client.temp.node.slots j)
    (List.finRange blocksPerNode) w w' ⟨h, fun _ _ => rfl⟩ ?_
  · exact rel_imp key fun _ _ _ _ hr => hr.1
  · intro done i v v' hpre ⟨hv, hslots⟩
    have hi := not_mem_of_done (List.nodup_finRange _) hpre
    have hrel := hv.slot K hlvl (i := i) fun j => by
      rw [hslots i hi]
      exact hbuf i j
    refine rel_imp hrel fun u u' hrun _ hsame => ⟨hsame, fun j hj => ?_⟩
    simp only [List.mem_append, List.mem_singleton, not_or] at hj
    rw [(downloadSlot_spec h8 K hlvl hrun).2.1 j hj.2, hslots j hj.1]

/-- A download that does not pass node `n` reads the same in both trees. -/
theorem SameOff.download (h8 : 8 ∣ bs) (h : SameOff A n t t' w w') (howns : OwnsBuffers K A t)
    (hh : t.height ≤ clientMaxPath) (hn : n ∉ pathNodes p t.height) :
    Option.Rel (SameWorld A t.treeId n) (ecallDownloadPathToEnclaveClientPathOram K t p w)
      (ecallDownloadPathToEnclaveClientPathOram K t' p w') := by
  have key := foldlM_rel (f := downloadLevel K t) (g := downloadLevel K t')
    (R := fun done l l' => SameWorld A t.treeId n l.world l'.world ∧ l'.addr = l.addr ∧ l'.treePath = l.treePath ∧
      l.addr.toNat = nodeAddr p.toNat done.length ∧ l.treePath.toNat = p.toNat / 2 ^ done.length)
    (List.range t.height) ⟨w, 0, p⟩ ⟨w', 0, p⟩ ⟨h.toSameWorld, rfl, rfl, rfl, by simp⟩ ?_
  · unfold ecallDownloadPathToEnclaveClientPathOram
    rw [h.height]
    exact rel_map key fun _ _ hr => hr.1
  · intro done lvl l l' hpre ⟨hworld, haddr, htp, hnat, hpnat⟩
    obtain ⟨rfl, hlt⟩ := range_of_done hpre
    rw [List.length_range] at hnat hpnat
    have hne : nodeAddr p.toNat lvl ≠ n := fun e => hn (mem_pathNodes.mpr ⟨lvl, hlt, e.symm⟩)
    have hnode : SameWorld A t.treeId n (readNode K t l.addr.toNat l.world) (readNode K t' l'.addr.toNat l'.world) := by
      refine ⟨?_, hworld.rand, hworld.fetched, hworld.bufs⟩
      simp only [readNode, haddr, hnat, h.nodes _ hne, hworld.client]
    have hslots := hnode.slots h8 K (hlt.trans_le hh) fun i j heq => by
      have hown : _ = A.addr t.treeId (nodeAddr p.toNat lvl) i := howns _ (nodeAddr_lt_two_pow hlt) i
      rw [← hnat] at hown
      exact hne (hnat ▸ (A.inj (hown.symm.trans heq)).2.1)
    obtain ⟨ha, hp⟩ := addr_step hnat hpnat (by rw [clientMaxPath] at hh; omega)
    unfold downloadLevel
    apply rel_bind hslots
    intro v v' hv
    refine Option.Rel.some ⟨hv, by rw [haddr, htp], by rw [htp], ?_, ?_⟩
    · rw [List.length_append, List.length_range]
      exact ha
    · rw [List.length_append, List.length_range]
      exact hp

/-- The buffer writes of a level are the same in both worlds. -/
theorem writeBuffers_same (K : Cipher bs N B) (c : Client bs) (host host' : Host B) (hrand : host'.rand = host.rand)
    (hfetched : host'.fetched = host.fetched) (hbufs : ∀ a, (∀ i, a ≠ A.addr id n i) → host'.bufs a = host.bufs a) :
    let g := (List.finRange blocksPerNode).foldl (evictWriteBuffer K c) host
    let g' := (List.finRange blocksPerNode).foldl (evictWriteBuffer K c) host'
    g'.rand = g.rand ∧ g'.fetched = g.fetched ∧ ∀ a, (∀ i, a ≠ A.addr id n i) → g'.bufs a = g.bufs a := by
  apply foldl_rel (R := fun _ (g g' : Host B) => g'.rand = g.rand ∧ g'.fetched = g.fetched ∧
    ∀ a, (∀ i, a ≠ A.addr id n i) → g'.bufs a = g.bufs a) _ _ _ ⟨hrand, hfetched, hbufs⟩
  intro done i g g' _ ⟨hr, hf, hb⟩
  refine ⟨congrArg (· + 1) hr, hf, fun a ha => ?_⟩
  simp only [evictWriteBuffer, hr]
  by_cases hai : a = (c.temp.node.slots i).blockContent
  · rw [hai, Function.update_self, Function.update_self]
  · rw [Function.update_of_ne hai, Function.update_of_ne hai, hb a ha]

/-- The writes of an eviction do not depend on what the tree holds. -/
theorem SameOff.evict (h : SameOff A n t t' w w') :
    let r := ecallEvictPathOutsideEnclavePathOram K t p w
    let r' := ecallEvictPathOutsideEnclavePathOram K t' p w'
    SameOff A n r.1 r'.1 r.2 r'.2 := by
  intro r r'
  simp only [r, r', ecallEvictPathOutsideEnclavePathOram, h.height]
  apply foldl_rel (R := fun _ (tw tw' : MemTree N × World bs B) => SameOff A n tw.1 tw'.1 tw.2 tw'.2) _ _ _ h
  rintro done lvl ⟨u, v⟩ ⟨u', v'⟩ - hs
  dsimp only at hs
  rw [evictLevel_eq K p u v rfl, evictLevel_eq K p u' v' rfl, hs.client]
  obtain ⟨hr, hf, hb⟩ := writeBuffers_same K (levelClient p v.client lvl)
    { v.host with
      rand := v.host.rand + 1
      trace := v.host.trace ++ [⟨.node (evictAddrTable t.height p lvl).toNat, true, sizeofEncMemTreeNode⟩] }
    { v'.host with
      rand := v'.host.rand + 1
      trace := v'.host.trace ++ [⟨.node (evictAddrTable t.height p lvl).toNat, true, sizeofEncMemTreeNode⟩] }
    (congrArg (· + 1) hs.rand) hs.fetched hs.bufs
  refine ⟨⟨rfl, hr, hf, hb⟩, hs.treeId, hs.height, fun m hm => ?_⟩
  simp only [hs.rand]
  by_cases hml : m = (evictAddrTable t.height p lvl).toNat
  · rw [hml, Function.update_self, Function.update_self]
  · rw [Function.update_of_ne hml, Function.update_of_ne hml]
    exact hs.nodes m hm

theorem SameOff.withFetched (h : SameOff A n t t' w w') (id : Nat) (buf : Buffer) :
    SameOff A n t t' (w.withFetched id buf) (w'.withFetched id buf) :=
  ⟨⟨h.client, h.rand, by rw [World.withFetched, World.withFetched, h.fetched], h.bufs⟩, h.treeId, h.height, h.nodes⟩

/-- What two levels of accesses have in common while they do not download node `n`. -/
structure SameLevel (A : BufferAddrs) (n : Nat) (r r' : LevelResult bs N B) : Prop where
  block : r'.block = r.block
  off : SameOff A n r.tree r'.tree r.world r'.world

theorem SameOff.accessLevel (h8 : 8 ∣ bs) (sz : BlockSize bs) (h : SameOff A n t t' w w') (howns : OwnsBuffers K A t)
    (hh : t.height ≤ clientMaxPath) (hn : n ∉ pathNodes p t.height) (q : BlockPath) (key : BlockKey) (req : Request) :
    Option.Rel (SameLevel A n) (accessLevel K sz t p q key req w) (accessLevel K sz t' p q key req w') := by
  unfold SgxOram.accessLevel memTreeFetchPathOram memTreePutPathOram
  simp only [Option.bind_eq_bind, Option.bind_assoc, Option.pure_def, Option.bind_some, BlockSize.copies_content,
    h.fetched, h.treeId]
  apply rel_bind (h.download h8 howns hh hn)
  intro v v' hv
  rw [hv.client]
  cases ecallObliviousPutToStashPathOram q key
    (ecallObliviousFetch true key 0 v.client).encryptedContentPtr
    ((ecallObliviousFetch true key 0 v.client).fetchedBlock.written req)
    (ecallObliviousFetch true key 0 v.client).client with
  | none => exact Option.Rel.none
  | some pr =>
    have hput : SameOff A n t t' { v with client := pr.client } { v' with client := pr.client } :=
      ⟨⟨rfl, hv.rand, hv.fetched, hv.bufs⟩, h.treeId, h.height, h.nodes⟩
    exact Option.Rel.some ⟨rfl, hput.evict.withFetched _ _⟩

/-! ## What a node delivers -/

/-- The stash and the path with node `n` on it, `n` apart. -/
theorem SameOff.downloaded (h : SameOff A n t t' w w') (howns : OwnsBuffers K A t) (hn : n ∈ pathNodes p t.height) :
    ∃ E, stashBag w.client.path + pathKeyBag K t w.host.bufs p = E + (nodeRow K t w.host.bufs n).keyBag ∧
      stashBag w'.client.path + pathKeyBag K t' w'.host.bufs p = E + (nodeRow K t' w'.host.bufs n).keyBag := by
  obtain ⟨g, hg, rfl⟩ := mem_pathNodes.mp hn
  have hmem := Finset.mem_range.mpr hg
  refine ⟨stashBag w.client.path +
    ∑ f ∈ (Finset.range t.height).erase g, (nodeRow K t w.host.bufs (nodeAddr p.toNat f)).keyBag, ?_, ?_⟩
  · rw [pathKeyBag, ← Finset.sum_erase_add _ _ hmem, add_assoc]
  · have hrest : ∀ f ∈ (Finset.range t.height).erase g, (nodeRow K t' w'.host.bufs (nodeAddr p.toNat f)).keyBag =
        (nodeRow K t w.host.bufs (nodeAddr p.toNat f)).keyBag := by
      intro f hf
      obtain ⟨hfg, hlt⟩ := Finset.mem_erase.mp hf
      have hne : nodeAddr p.toNat f ≠ nodeAddr p.toNat g := fun e => hfg (nodeAddr_injective p.toNat e)
      rw [nodeRow_congr (h.nodes _ hne) fun i => ?_]
      rw [howns _ (nodeAddr_lt_two_pow (Finset.mem_range.mp hlt)) i]
      exact h.bufs_addr hne i
    rw [pathKeyBag, h.height, h.client, ← Finset.sum_erase_add _ _ hmem, Finset.sum_congr rfl hrest, add_assoc]

/-- The bytes that a request copies out of the block `b` are those of the array. -/
def CopiesOut (a : ArrayStore) (req : Request) (b : Block bs) : Prop :=
  ∀ j < bs, (req.writeSize > 0 → req.writeOffset ≤ j ∧ j < req.writeOffset + req.writeSize) → b.byte j = a req.ind j

theorem copiesOut_iff {a : ArrayStore} (hsz : sz.val = bs) (hfit : req.writeOffset + req.writeSize ≤ bs)
    {rest : Buffer} {b : Block bs} :
    (sz.copies rest b req).block = a.copyOut bs req ↔ CopiesOut a req b := by
  have hover : ∀ j < bs, b.over rest j = b.byte j := fun j hj => by rw [Block.over, dif_pos hj, Block.byte_lt b hj]
  unfold BlockSize.copies exchangeBytes ArrayStore.copyOut CopiesOut
  rw [hsz]
  by_cases hw : req.writeSize > 0
  · simp only [hw, if_true, forall_const]
    constructor
    · rintro h j hlt ⟨hlo, hhi⟩
      have hj := congrFun h (j - req.writeOffset)
      rwa [if_pos (by omega), if_pos (by omega), Nat.add_sub_cancel' hlo, hover j hlt] at hj
    · intro h
      funext j
      by_cases hj : j < req.writeSize
      · rw [if_pos hj, if_pos hj, hover _ (by omega), h _ (by omega) (by omega)]
      · rw [if_neg hj, if_neg hj]
  · simp only [hw, if_false, false_implies, forall_const]
    constructor
    · intro h j hj
      have hj' := congrFun h j
      rwa [if_pos hj, if_pos hj, hover j hj] at hj'
    · intro h
      funext j
      by_cases hj : j < bs
      · rw [if_pos hj, if_pos hj, hover j hj, h j hj]
      · rw [if_neg hj, if_neg hj]

theorem ArrayStore.Holds.copiesOut {a : ArrayStore} {b : Block bs} (h : a.Holds req.ind b) : CopiesOut a req b :=
  fun j hj _ => h j hj

/-- What a replaced node delivers does no harm to the request: whatever it delivers under the key of the
entry agrees with the entry, and if it loses the block of the entry, the entry is zero. `G` is the node
before the replacement, `R` after it. -/
structure Harmless (a : ArrayStore) (req : Request) (G R : Row bs) : Prop where
  delivered : ∀ b ∈ R.keyBag, b.key = keyOf req.ind → CopiesOut a req b.content
  lost : (∃ b ∈ G.keyBag, b.key = keyOf req.ind) → (∀ b ∈ R.keyBag, b.key ≠ keyOf req.ind) →
    CopiesOut a req (zeroBlock bs)

/-- What stash and path of an untouched object tell about an entry. -/
structure PathHolds (a : ArrayStore) (ind : Nat) (D : Multiset (Blk bs)) : Prop where
  nodup : (D.map Blk.key).Nodup
  present : ∀ b ∈ D, b.key = keyOf ind → a.Holds ind b.content
  absent : (∀ b ∈ D, b.key ≠ keyOf ind) → a.Holds ind (zeroBlock bs)

theorem BaseInv.pathHolds {capacity : Nat} {a : ArrayStore} {M : BlockKey → Option (BlockPath × Block bs)}
    (h : BaseInv K A capacity t w a M) {ind : Nat} (hind : ind < capacity) (fresh : RandPath) :
    PathHolds a ind (stashBag w.client.path +
      pathKeyBag K t w.host.bufs (orFresh (w.client.pathMm ind) fresh)) := by
  have hsplit := treeBag_split K t w.host.bufs (orFresh (w.client.pathMm ind) fresh)
  rw [← h.inv.tree.pathKeyBag_eq] at hsplit
  have hle : stashBag w.client.path + pathKeyBag K t w.host.bufs (orFresh (w.client.pathMm ind) fresh) ≤
      stashBag w.client.path + treeBag K t w.host.bufs ∅ := by
    rw [hsplit]
    exact add_le_add_right (Multiset.le_add_left _ _) _
  have hcontent := h.entries.content ind hind
  refine ⟨Multiset.nodup_of_le (Multiset.map_le_map hle) h.inv.holds.1, fun b hb hk => ?_, fun habsent => ?_⟩
  · have hM := h.inv.holds.mem (Multiset.mem_of_le hle hb)
    rw [hk] at hM
    rwa [hM] at hcontent
  · cases hM : M (keyOf ind) with
    | none => rwa [hM] at hcontent
    | some v =>
      obtain ⟨b, hb, hk, hv⟩ := h.inv.holds.exists_mem hM
      have hpath : b.path = orFresh (w.client.pathMm ind) fresh :=
        (congrArg Prod.fst hv).trans (h.entries.path hind fresh v hM)
      rw [hsplit, add_left_comm, Multiset.mem_add] at hb
      rcases hb with hb | hb
      · -- a block of the tree off its own path
        obtain ⟨m, hm, hoff, hbm⟩ := mem_treeBag.mp hb
        obtain ⟨g, hg, rfl⟩ := h.inv.tree.placed m hm b hbm
        exact absurd (mem_pathNodes.mpr ⟨g, hg, by rw [hpath]⟩) hoff
      · exact absurd hk (habsent b hb)

/-- At most one of the downloaded blocks has the key of the entry. -/
def Sole (ind : Nat) (D : Multiset (Blk bs)) : Prop :=
  ∀ b ∈ D, ∀ b' ∈ D, b.key = keyOf ind → b'.key = keyOf ind → b = b'

theorem sole_of_nodup {ind : Nat} {D : Multiset (Blk bs)} (h : (D.map Blk.key).Nodup) : Sole ind D :=
  fun b hb b' hb' hk hk' => Multiset.inj_on_of_nodup_map h b hb b' hb' (hk.trans hk'.symm)

/-- A harmless replacement is answered right; `E` is what the access finds in the stash and elsewhere on
the path. -/
theorem harmless_right {a : ArrayStore} (hsz : sz.val = bs) (hfit : req.writeOffset + req.writeSize ≤ bs)
    {G R : Row bs} {E : Multiset (Blk bs)} (hpath : PathHolds a req.ind (E + G.keyBag)) {rest block : Buffer}
    (hanswer : AnsweredFrom sz rest (E + R.keyBag) (keyOf req.ind) req block)
    (hharm : Harmless a req G R) : block = a.copyOut bs req := by
  rcases hanswer with ⟨b, hb, hk, rfl⟩ | ⟨habsent, rfl⟩ <;> apply (copiesOut_iff hsz hfit).mpr
  · rcases Multiset.mem_add.mp hb with hb | hb
    · exact (hpath.present b (Multiset.mem_add.mpr (Or.inl hb)) hk).copiesOut
    · exact hharm.delivered b hb hk
  · by_cases hG : ∃ b ∈ G.keyBag, b.key = keyOf req.ind
    · exact hharm.lost hG fun b hb => habsent b (Multiset.mem_add.mpr (Or.inr hb))
    · apply ArrayStore.Holds.copiesOut
      apply hpath.absent
      intro b hb hk
      rcases Multiset.mem_add.mp hb with hb | hb
      · exact habsent b (Multiset.mem_add.mpr (Or.inl hb)) hk
      · exact hG ⟨b, hb, hk⟩

/-- With no choice between blocks, only a harmless replacement is answered right. -/
theorem harmless_of_right {a : ArrayStore} (hsz : sz.val = bs) (hfit : req.writeOffset + req.writeSize ≤ bs)
    {G R : Row bs} {E : Multiset (Blk bs)} (hpath : PathHolds a req.ind (E + G.keyBag)) {rest block : Buffer}
    (hanswer : AnsweredFrom sz rest (E + R.keyBag) (keyOf req.ind) req block)
    (hsole : Sole req.ind (E + R.keyBag)) (hright : block = a.copyOut bs req) : Harmless a req G R := by
  constructor
  · intro b hb hk
    have hmem : b ∈ E + R.keyBag := Multiset.mem_add.mpr (Or.inr hb)
    rcases hanswer with ⟨b', hb', hk', rfl⟩ | ⟨habsent, -⟩
    · rw [hsole b hmem b' hb' hk hk']
      exact (copiesOut_iff hsz hfit).mp hright
    · exact absurd hk (habsent b hmem)
  · intro ⟨b, hb, hk⟩ hlost
    -- the entry has no second block elsewhere
    have hE : ∀ b' ∈ E, b'.key ≠ keyOf req.ind := fun b' hb' hk' => by
      have hnd := hpath.nodup
      rw [Multiset.map_add, Multiset.nodup_add] at hnd
      exact Multiset.disjoint_left.mp hnd.2.2 (Multiset.mem_map_of_mem _ hb')
        (by rw [hk', ← hk]; exact Multiset.mem_map_of_mem _ hb)
    rcases hanswer with ⟨b', hb', hk', -⟩ | ⟨-, rfl⟩
    · rcases Multiset.mem_add.mp hb' with hb' | hb'
      · exact absurd hk' (hE b' hb')
      · exact absurd hk' (hlost b' hb')
    · exact (copiesOut_iff hsz hfit).mp hright

/-! ## Replaced ciphertexts -/

/-- A ciphertext `c` in the place of node `n`, or of the block buffer of its slot `i`. -/
inductive Tampering (N B : Type)
  | node (n : Nat) (c : N)
  | buffer (n : Nat) (i : Fin blocksPerNode) (c : B)

/-- The node that is hit. -/
def Tampering.index : Tampering N B → Nat
  | .node n _ => n
  | .buffer n _ _ => n

/-- The address of the block buffer of slot `i` of node `n`. -/
def slotBuffer (K : Cipher bs N B) (t : MemTree N) (n : Nat) (i : Fin blocksPerNode) : Addr :=
  ((decryptData K.node (t.nodes n)).slots i).blockContent

/-- The host replaces the ciphertext. -/
def Tampering.apply (K : Cipher bs N B) (x : Tampering N B) (t : MemTree N) (w : World bs B) :
    MemTree N × World bs B :=
  match x with
  | .node n c => ({ t with nodes := Function.update t.nodes n c }, w)
  | .buffer n i c =>
    (t, { w with host := { w.host with bufs := Function.update w.host.bufs (slotBuffer K t n i) c } })

/-- The bytes fail authentication; a buffer is that of a present slot. -/
def Tampering.Valid (K : Cipher bs N B) (x : Tampering N B) (t : MemTree N) : Prop :=
  x.index < 2 ^ t.height ∧
    match x with
    | .node _ c => K.node.Rejects c
    | .buffer n i c => ((decryptData K.node (t.nodes n)).slots i).presenceBit ≠ 0 ∧ K.block.Rejects c

/-- The download along `p` reads the replaced ciphertext. -/
def Tampering.ReadAlong (K : Cipher bs N B) (x : Tampering N B) (t : MemTree N) (w : World bs B) (p : BlockPath) :
    Prop :=
  x.index ∈ pathNodes p t.height ∧
    match x with
    | .node n c => t.nodes n = c
    | .buffer n i c => w.host.bufs (slotBuffer K t n i) = c

/-- A buffer's replacement leaves the nodes, and so their buffers, as they are. -/
def Tampering.Owned (K : Cipher bs N B) (A : BufferAddrs) (t : MemTree N) : Tampering N B → Prop
  | .node _ _ => True
  | .buffer _ _ _ => OwnsBuffers K A t

/-- A buffer's replacement leaves the node itself alone. -/
def Tampering.SameNode (t t' : MemTree N) : Tampering N B → Prop
  | .node _ _ => True
  | .buffer n _ _ => t'.nodes n = t.nodes n

/-- The replacement leaves the fetch no choice between blocks; a buffer's never does. -/
def Tampering.NoChoice (ind : Nat) (D : Multiset (Blk bs)) : Tampering N B → Prop
  | .node _ _ => Sole ind D
  | .buffer _ _ _ => True

/-- An authentic ciphertext is back in the place. -/
def Tampering.Healed (K : Cipher bs N B) (A : BufferAddrs) (t : MemTree N) (w : World bs B) :
    Tampering N B → Prop
  | .node n _ => K.node.Accepts (t.nodes n)
  | .buffer n i _ => K.block.Accepts (w.host.bufs (A.addr t.treeId n i))

variable {x : Tampering N B}

theorem Tampering.SameNode.congr {t₁ t₁' : MemTree N} (h : x.SameNode t t')
    (ht : t₁.nodes x.index = t.nodes x.index) (ht' : t₁'.nodes x.index = t'.nodes x.index) : x.SameNode t₁ t₁' := by
  cases x with
  | node n c => trivial
  | buffer n i c => exact ht'.trans (h.trans ht.symm)

theorem Row.map_key_keyBag {r r' : Row bs} (h : r'.node = r.node) :
    r'.keyBag.map Blk.key = r.keyBag.map Blk.key := by
  have hkey : ∀ i, (cell (r'.keyBlk i)).map Blk.key = (cell (r.keyBlk i)).map Blk.key := by
    intro i
    unfold Row.keyBlk
    rw [h]
    split <;> rfl
  unfold Row.keyBag Lib.bag
  rw [← Multiset.coe_mapAddMonoidHom, map_sum, map_sum]
  exact Finset.sum_congr rfl fun i _ => hkey i

/-- What is healed is not read as the replacement. -/
theorem Tampering.Healed.not_read {u : MemTree N} (hx : x.Valid K u) (hlt : x.index < 2 ^ t.height)
    (howned : x.Owned K A t) (h : x.Healed K A t w) : ¬ x.ReadAlong K t w p := by
  intro ⟨_, hread⟩
  cases x with
  | node n c => exact hx.2.not_accepts (hread ▸ h)
  | buffer n i c =>
    apply hx.2.2.not_accepts
    rw [← hread, slotBuffer, howned n hlt i]
    exact h

/-- A level that passes the place heals it, and nothing unheals it. -/
theorem Tampering.heal (h8 : 8 ∣ bs) (hK : K.Correct) (hh : t.height < clientMaxPath) (howned : x.Owned K A t)
    {r : LevelResult bs N B} (hrun : accessLevel K sz t p q key req w = some r) :
    x.Owned K A r.tree ∧
      (x.Healed K A t w ∨ x.index ∈ pathNodes p t.height → x.Healed K A r.tree r.world) := by
  obtain ⟨w', hhost, hback, he, -⟩ := accessLevel_evicted h8 hK hh.le hrun
  cases x with
  | node n c =>
    refine ⟨trivial, fun h => he.nodesAccepted n (h.imp_right fun hn => ?_)⟩
    obtain ⟨g, hg, hng⟩ := mem_pathNodes.mp hn
    exact ⟨g, mem_evictLevels.mpr hg, hng⟩
  | buffer n i c =>
    refine ⟨(accessLevel_buffers h8 hK hh howned hrun).owns, fun h => ?_⟩
    have hbacked := download_backedUp howned hback
    rw [Tampering.Healed, he.treeId]
    apply he.bufsAccepted
    rw [hhost]
    apply h.imp_right
    intro hn
    obtain ⟨g, hg, hng⟩ := mem_pathNodes.mp hn
    have hng : n = nodeAddr p.toNat g := hng
    exact ⟨g, mem_evictLevels.mpr hg, i, by rw [hbacked g hg i, hng]⟩

/-! ## A buffer replaced -/

/-- The block in slot `i` of the row gets another content. -/
theorem Row.bag_replaced {r : Row bs} {i : Fin blocksPerNode} {b : Blk bs} (hb : r.blk i = some b)
    (content : Block bs) :
    ({ r with blocks := Function.update r.blocks i content } : Row bs).bag + {b} = r.bag + {{ b with content }} := by
  have hblk : ({ r with blocks := Function.update r.blocks i content } : Row bs).blk =
      Function.update r.blk i (some { b with content }) := by
    funext j
    by_cases hj : j = i
    · subst hj
      simp only [Row.blk, Function.update_self, Option.ite_none_left_eq_some] at hb ⊢
      obtain ⟨hbit, hb⟩ := hb
      rw [← Option.some.inj hb]
      exact ⟨hbit, rfl⟩
    · simp [Row.blk, hj]
  have h := bag_update r.blk i (some { b with content })
  rw [← hblk, hb] at h
  exact h

theorem nodeRow_replaced (howns : OwnsBuffers K A t) (hn : n < 2 ^ t.height) (i : Fin blocksPerNode) (c : B)
    (bufs : Addr → B) {m : Nat} (hm : m < 2 ^ t.height) :
    nodeRow K t (Function.update bufs (slotBuffer K t n i) c) m =
      if m = n then { nodeRow K t bufs n with
        blocks := Function.update (nodeRow K t bufs n).blocks i (decryptData K.block c) }
      else nodeRow K t bufs m := by
  have haddr : ∀ j, slotBuffer K t m j = slotBuffer K t n i ↔ m = n ∧ j = i := fun j => by
    rw [slotBuffer, slotBuffer, howns m hm, howns n hn]
    exact ⟨fun h => (A.inj h).2, fun ⟨hmn, hji⟩ => by rw [hmn, hji]⟩
  split_ifs with hmn
  · subst hmn
    refine congrArg (Row.mk _) (funext fun j => ?_)
    by_cases hj : j = i
    · subst hj
      rw [Function.update_self]
      exact congrArg _ (Function.update_self _ _ _)
    · rw [Function.update_of_ne hj]
      exact congrArg _ (Function.update_of_ne (fun h => hj ((haddr j).mp h).2) _ _)
  · exact congrArg (Row.mk _) (funext fun j => congrArg _ (Function.update_of_ne (fun h => hmn ((haddr j).mp h).1) _ _))

theorem treeBag_replaced (howns : OwnsBuffers K A t) (hn : n < 2 ^ t.height) {i : Fin blocksPerNode} {bufs : Addr → B}
    {b : Blk bs} (hb : (nodeRow K t bufs n).blk i = some b) (c : B) :
    treeBag K t (Function.update bufs (slotBuffer K t n i) c) ∅ + {b} =
      treeBag K t bufs ∅ + {{ b with content := decryptData K.block c }} := by
  have hmem : n ∈ Finset.range (2 ^ t.height) \ ∅ := by simpa using hn
  have hrest : ∀ m ∈ (Finset.range (2 ^ t.height) \ ∅).erase n,
      (nodeRow K t (Function.update bufs (slotBuffer K t n i) c) m).bag = (nodeRow K t bufs m).bag := by
    intro m hm
    obtain ⟨hne, hm⟩ := Finset.mem_erase.mp hm
    rw [nodeRow_replaced howns hn i c bufs (by simpa using hm), if_neg hne]
  rw [treeBag, treeBag, ← Finset.sum_erase_add _ _ hmem, ← Finset.sum_erase_add _ _ hmem, Finset.sum_congr rfl hrest,
    nodeRow_replaced howns hn i c bufs hn, if_pos rfl, add_assoc, add_assoc, Row.bag_replaced hb]

/-- The tree holds the block of a replaced buffer with what the new ciphertext decrypts to. -/
theorem TreeInv.replaced {M : BlockKey → Option (BlockPath × Block bs)} (h : TreeInv K A t w ∅ M)
    (hn : n < 2 ^ t.height) {i : Fin blocksPerNode} {b : Blk bs} (hb : (nodeRow K t w.host.bufs n).blk i = some b)
    (c : B) : TreeInv K A t ((Tampering.buffer n i c).apply K t w).2 ∅
      (Function.update M b.key (some (b.path, decryptData K.block c))) := by
  have hmem : b ∈ (nodeRow K t w.host.bufs n).bag := mem_bag.mpr ⟨i, hb⟩
  have hbag := Row.bag_replaced hb (decryptData K.block c)
  have hrow := fun m (hm : m < 2 ^ t.height) => nodeRow_replaced h.tree.owns hn i c w.host.bufs hm
  refine ⟨h.height, ⟨h.tree.owns, fun m hm => ?_, fun m hm => h.tree.clear m hm, fun m hm b' hb' => ?_⟩, h.stash, ?_,
    h.subs⟩
  · refine ⟨(h.tree.wf m hm).bit, (h.tree.wf m hm).key_ne_zero, (h.tree.wf m hm).count.trans ?_⟩
    rw [Tampering.apply, hrow m hm]
    split_ifs with hmn
    · have hcard := congrArg Multiset.card hbag
      simp only [Multiset.card_add, Multiset.card_singleton, Nat.add_right_cancel_iff] at hcard
      rw [hmn, hcard]
    · rfl
  · rw [Tampering.apply, hrow m hm] at hb'
    split_ifs at hb' with hmn
    · -- a block of the node, or the replaced one
      have hin := Multiset.mem_of_le (Multiset.le_add_right _ {b}) hb'
      rw [hbag, Multiset.mem_add, Multiset.mem_singleton] at hin
      rcases hin with hin | rfl
      · exact h.tree.placed m hm b' (hmn ▸ hin)
      · exact h.tree.placed m hm b (hmn ▸ hmem)
    · exact h.tree.placed m hm b' hb'
  · refine Represents.replace h.holds
      (Multiset.mem_add.mpr (Or.inr (mem_treeBag.mpr ⟨n, hn, Finset.notMem_empty n, hmem⟩)))
      { b with content := decryptData K.block c } rfl ?_
    rw [Tampering.apply, add_assoc, treeBag_replaced h.tree.owns hn hb, add_assoc]

/-- An entry gets other bytes in its place. -/
theorem Entries.replaced {capacity : Nat} (hcap : capacity < 2 ^ 32) {position : Nat → BlockPath} {a : ArrayStore}
    {M : BlockKey → Option (BlockPath × Block bs)} (h : Entries capacity position a M) {ind : Nat}
    (hind : ind < capacity) {path : BlockPath} {old : Block bs} (hM : M (keyOf ind) = some (path, old))
    (content : Block bs) :
    Entries capacity position (Function.update a ind content.byte)
      (Function.update M (keyOf ind) (some (path, content))) := by
  have hkey : ∀ i < capacity, i ≠ ind → keyOf i ≠ keyOf ind := fun i hlt hne heq =>
    hne (keyOf_inj (by omega) (by omega) heq)
  refine ⟨fun i hlt v hv => ?_, fun i hlt => ?_, fun k v hk => ?_⟩
  · by_cases hi : i = ind
    · subst hi
      rw [Function.update_self] at hv
      obtain rfl := Option.some.inj hv
      exact h.position i hlt (path, old) hM
    · rw [Function.update_of_ne (hkey i hlt hi)] at hv
      exact h.position i hlt v hv
  · by_cases hi : i = ind
    · subst hi
      rw [Function.update_self]
      intro j _
      rw [Function.update_self]
      rfl
    · rw [Function.update_of_ne (hkey i hlt hi)]
      intro j hj
      rw [Function.update_of_ne hi]
      exact h.content i hlt j hj
  · by_cases hk' : k = keyOf ind
    · exact ⟨ind, hind, hk'⟩
    · rw [Function.update_of_ne hk'] at hk
      exact h.keys k v hk

/-- The object is then as good as one that holds these bytes. -/
theorem BaseInv.replaced {capacity : Nat} (hcap : capacity ≤ maxPosMap) {a : ArrayStore}
    {M : BlockKey → Option (BlockPath × Block bs)} (h : BaseInv K A capacity t w a M) (hn : n < 2 ^ t.height)
    {i : Fin blocksPerNode} {b : Blk bs} (hb : (nodeRow K t w.host.bufs n).blk i = some b) {ind : Nat}
    (hind : ind < capacity) (hkey : b.key = keyOf ind) (c : B) :
    BaseInv K A capacity t ((Tampering.buffer n i c).apply K t w).2
      (Function.update a ind (decryptData K.block c).byte)
      (Function.update M (keyOf ind) (some (b.path, decryptData K.block c))) := by
  have hM := h.inv.holds.mem (Multiset.mem_add.mpr (Or.inr
    (mem_treeBag.mpr ⟨n, hn, Finset.notMem_empty n, mem_bag.mpr ⟨i, hb⟩⟩)))
  rw [hkey] at hM
  exact ⟨hkey ▸ h.inv.replaced hn hb c, h.entries.replaced (hcap.trans_lt (by decide)) hind hM _⟩

/-! ## Runs after a replacement -/

/-- The path that an access takes from the position map of the client. -/
def OramAccess.path (y : OramAccess) (c : Client bs) : BlockPath :=
  orFresh (c.pathMm y.req.ind) (y.draws 0).freshPath

/-- All addresses that the nodes along `p` deliver are mapped. -/
def PathMapped (mapped : Addr → Bool) (K : Cipher bs N B) (t : MemTree N) (p : BlockPath) : Prop :=
  ∀ h < t.height, ∀ i, mapped (slotBuffer K t (nodeAddr p.toNat h) i)

instance (mapped : Addr → Bool) (K : Cipher bs N B) (t : MemTree N) (p : BlockPath) :
    Decidable (PathMapped mapped K t p) :=
  inferInstanceAs (Decidable (∀ h, h < t.height → ∀ i, mapped (slotBuffer K t (nodeAddr p.toNat h) i)))

/-- One access of a single-level object whose nodes the host may have forged: the download of an address that is not
`mapped` faults. `none` is a fault or a failing assert. -/
def runMappedAccess (mapped : Addr → Bool) (K : Cipher bs N B) (sz : BlockSize bs) (s : OramRun bs N B)
    (y : OramAccess) : Option (OramRun bs N B) :=
  match s.oram with
  | .base _ t => if PathMapped mapped K t (y.path s.world.client) then runAccess K sz s y else none
  | .recursive .. => none

theorem runMappedAccess_eq_some {mapped : Addr → Bool} {s s' : OramRun bs N B} {y : OramAccess} :
    runMappedAccess mapped K sz s y = some s' ↔ (∃ capacity t, s.oram = .base capacity t ∧
      PathMapped mapped K t (y.path s.world.client)) ∧ runAccess K sz s y = some s' := by
  unfold runMappedAccess
  cases s.oram with
  | base capacity t => simp
  | recursive capacity t posMap => simp

/-- A run after the replacement: as long as node `x.index` is not downloaded it mirrors an untouched run
whose node `x.index` is `G`; then the place is healed. -/
structure TamperedInv (K : Cipher bs N B) (A : BufferAddrs) (capacity height : Nat) (x : Tampering N B) (G : Row bs)
    (a : ArrayStore) (t' : MemTree N) (w' : World bs B) : Prop where
  owned : x.Owned K A t'
  height : t'.height = height
  state : (∃ t w M, BaseInv K A capacity t w a M ∧ SameOff A x.index t t' w w' ∧ x.SameNode t t' ∧
    nodeRow K t w.host.bufs x.index = G) ∨ x.Healed K A t' w'

theorem BaseInv.tamper {capacity : Nat} {a : ArrayStore} {M : BlockKey → Option (BlockPath × Block bs)}
    (h : BaseInv K A capacity t w a M) (hx : x.Valid K t) :
    TamperedInv K A capacity t.height x (nodeRow K t w.host.bufs x.index) a (x.apply K t w).1 (x.apply K t w).2 := by
  cases x with
  | node n c =>
    refine ⟨trivial, rfl, Or.inl ⟨t, w, M, h, ⟨⟨rfl, rfl, rfl, fun _ _ => rfl⟩, rfl, rfl, fun m hm => ?_⟩, trivial, rfl⟩⟩
    exact Function.update_of_ne hm _ _
  | buffer n i c =>
    refine ⟨h.inv.tree.owns, rfl,
      Or.inl ⟨t, w, M, h, ⟨⟨rfl, rfl, rfl, fun a ha => ?_⟩, rfl, rfl, fun _ _ => rfl⟩, rfl, rfl⟩⟩
    apply Function.update_of_ne
    rw [slotBuffer, h.inv.tree.owns n hx.1 i]
    exact ha i

theorem SameOff.withPathMm (h : SameOff A n t t' w w') (mm : Nat → BlockPath) :
    SameOff A n t t' (w.withPathMm mm) (w'.withPathMm mm) :=
  ⟨⟨by rw [World.withPathMm, World.withPathMm, h.client], h.rand, h.fetched, h.bufs⟩, h.treeId, h.height, h.nodes⟩

theorem TamperedInv.access (h8 : 8 ∣ bs) (hK : K.Correct) (hsz : sz.val = bs) {capacity height : Nat}
    (hcap : capacity ≤ maxPosMap) (hheight : height < clientMaxPath) (hx : x.index < 2 ^ height) {G : Row bs}
    {a : ArrayStore} (h : TamperedInv K A capacity height x G a t' w') {draws : Nat → Draws}
    (hfit : req.writeOffset + req.writeSize ≤ bs) {r : AccessResult bs N B}
    (hrun : accessPathOram K sz (.base capacity t') draws req w' = some r) :
    ∃ t'', r.oram = .base capacity t'' ∧
      TamperedInv K A capacity height x G (a.write req) t'' r.world := by
  obtain ⟨⟨hind, hbs⟩, l', hlevel, rfl⟩ := accessPathOram_base.mp hrun
  obtain ⟨howned, hheal⟩ := Tampering.heal (A := A) h8 hK (h.height ▸ hheight) h.owned hlevel
  obtain ⟨_, -, -, he', -⟩ :=
    accessLevel_evicted h8 hK (h.height ▸ hheight.le) hlevel
  refine ⟨l'.tree, rfl, howned, he'.height.trans h.height, ?_⟩
  rcases h.state with ⟨t, w, M, hbase, hoff, hnode, hG⟩ | hhealed
  · by_cases hn : x.index ∈ pathNodes (orFresh (w'.client.pathMm req.ind) (draws 0).freshPath) t'.height
    · exact Or.inr (hheal (Or.inr hn))
    · -- the untouched run makes the same access
      have hkeep' : l'.tree.nodes x.index = t'.nodes x.index := he'.nodes _ fun g hg e =>
        hn (mem_pathNodes.mpr ⟨g, mem_evictLevels.mp hg, e⟩)
      rw [hoff.height] at hn
      have hmirror := (hoff.withPathMm (Function.update w'.client.pathMm req.ind (draws 0).newBlockPath)).accessLevel
        h8 sz hbase.inv.tree.owns (hbase.inv.height.le) hn
        (draws 0).newBlockPath (keyOf req.ind) req
      rw [hlevel, hoff.client] at hmirror
      cases hgen : accessLevel K sz t (orFresh (w.client.pathMm req.ind) (draws 0).freshPath) (draws 0).newBlockPath
        (keyOf req.ind) req (w.withPathMm (Function.update w.client.pathMm req.ind (draws 0).newBlockPath)) with
      | none =>
        rw [hgen] at hmirror
        exact absurd hmirror Option.not_rel_none_some
      | some l =>
        rw [hgen] at hmirror
        have hsame := Option.rel_some_some.mp hmirror
        obtain ⟨-, t₁, M₁, horam, hbase₁⟩ :=
          hbase.access h8 hK hsz hcap hfit (accessPathOram_base.mpr ⟨⟨hind, hbs⟩, l, hgen, rfl⟩)
        obtain rfl : l.tree = t₁ := by simpa using horam
        have hd := accessLevel_spec h8 hK (hbase.inv.withPathMm _) (keyOf_ne_zero (keyOf_bound hcap hind))
          (hbase.entries.path hind (draws 0).freshPath) hgen
        obtain ⟨_, -, -, he, -⟩ :=
          accessLevel_evicted h8 hK (hbase.inv.height.le) hgen
        have hkeep : l.tree.nodes x.index = t.nodes x.index := he.nodes _ fun g hg e =>
          hn (mem_pathNodes.mpr ⟨g, mem_evictLevels.mp hg, hoff.client ▸ e⟩)
        refine Or.inl ⟨l.tree, l.world, M₁, hbase₁, hsame.off, ?_, ?_⟩
        · exact hnode.congr hkeep hkeep'
        · rw [hd.off _ ?_ (hoff.client ▸ hn)]
          · exact hG
          · rw [← hoff.height, h.height]
            exact hx
  · exact Or.inr (hheal (Or.inl hhealed))

theorem TamperedInv.run (h8 : 8 ∣ bs) (hK : K.Correct) (hsz : sz.val = bs) {capacity height : Nat}
    (hcap : capacity ≤ maxPosMap) (hheight : height < clientMaxPath) (hx : x.index < 2 ^ height) {G : Row bs}
    {a : ArrayStore} (h : TamperedInv K A capacity height x G a t w) {outs : List Buffer}
    {calls : List (MemTreeCall bs)} {as : List OramAccess}
    (hfit : ∀ y ∈ as, y.req.writeOffset + y.req.writeSize ≤ bs) {s : OramRun bs N B}
    {mapped : Addr → Bool}
    (hrun : as.foldlM (runMappedAccess mapped K sz) ⟨.base capacity t, w, outs, calls⟩ = some s) :
    ∃ t', s.oram = .base capacity t' ∧
      TamperedInv K A capacity height x G (a.after (as.map OramAccess.req)) t' s.world := by
  refine foldlM_inv (P := fun done (s : OramRun bs N B) => ∃ t', s.oram = .base capacity t' ∧
    TamperedInv K A capacity height x G (a.after (done.map OramAccess.req)) t' s.world)
    as ⟨.base capacity t, w, outs, calls⟩ s ⟨t, rfl, h⟩ ?_ hrun
  intro done y u v hpre ⟨t', horam, hinv⟩ hstep
  obtain ⟨r, hr, rfl⟩ := runAccess_eq_some.mp (runMappedAccess_eq_some.mp hstep).2
  rw [horam] at hr
  rw [List.map_append, List.map_cons, List.map_nil, ArrayStore.after_append]
  exact hinv.access h8 hK hsz hcap hheight hx (hfit y (mem_of_step hpre)) hr

/-- The access that reads the replaced ciphertext: what it finds, and what it copies out. -/
theorem TamperedInv.read (h8 : 8 ∣ bs) {capacity height : Nat} {u : MemTree N} (hx : x.Valid K u)
    (hheight : height < clientMaxPath) (hlt : x.index < 2 ^ height) {G : Row bs} {a : ArrayStore}
    (h : TamperedInv K A capacity height x G a t' w') {y : OramAccess}
    (hread : x.ReadAlong K t' w' (y.path w'.client)) {r : AccessResult bs N B}
    (hrun : accessPathOram K sz (.base capacity t') y.draws y.req w' = some r) :
    ∃ E, stashBag w'.client.path + pathKeyBag K t' w'.host.bufs (y.path w'.client) =
        E + (nodeRow K t' w'.host.bufs x.index).keyBag ∧
      PathHolds a y.req.ind (E + G.keyBag) ∧
      AnsweredFrom sz (w'.host.fetched t'.treeId) (E + (nodeRow K t' w'.host.bufs x.index).keyBag) (keyOf y.req.ind)
        y.req r.block ∧
      (x.NoChoice y.req.ind (E + (nodeRow K t' w'.host.bufs x.index).keyBag) →
        Sole y.req.ind (E + (nodeRow K t' w'.host.bufs x.index).keyBag)) := by
  rcases h.state with ⟨t, w, M, hbase, hoff, hnode, hG⟩ | hhealed
  · obtain ⟨⟨hind, -⟩, l, hlevel, rfl⟩ := accessPathOram_base.mp hrun
    obtain ⟨E, hD, hD'⟩ := hoff.downloaded (p := y.path w'.client) hbase.inv.tree.owns (hoff.height ▸ hread.1)
    have hpath : PathHolds a y.req.ind (E + G.keyBag) := by
      rw [← hG, ← hD, OramAccess.path, hoff.client]
      exact hbase.pathHolds hind _
    refine ⟨E, hD', hpath, ?_, ?_⟩
    · have hstash : w'.client.StashWf := hoff.client ▸ hbase.inv.stash
      have hwf : (w'.withPathMm (Function.update w'.client.pathMm y.req.ind (y.draws 0).newBlockPath)).client.StashWf :=
        ⟨hstash.rows, hstash.load⟩
      rw [← hD']
      exact accessLevel_answer h8 (h.height ▸ hheight.le) hwf hlevel
    · cases x with
      | node n c => exact id
      | buffer n i c =>
        -- the keys of the node are the old ones
        have hkeys : (nodeRow K t' w'.host.bufs (Tampering.buffer n i c : Tampering N B).index).keyBag.map Blk.key =
            G.keyBag.map Blk.key := by
          rw [← hG]
          exact Row.map_key_keyBag (congrArg (decryptData K.node) hnode)
        refine fun _ => sole_of_nodup ?_
        rw [Multiset.map_add, hkeys, ← Multiset.map_add]
        exact hpath.nodup
  · exact absurd hread (hhealed.not_read hx (h.height ▸ hlt) h.owned)

/-- An access that reads a replaced ciphertext and completes copies out what was last written if the replacement does
the request no harm; and only then, unless the replacement leaves the fetch a choice between blocks. -/
theorem tampered_harmless (hK : K.Correct) (hsz : sz.val < 2 ^ 32) {capacity : Nat} (hcap : capacity ≤ maxPosMap)
    {w₀ : World bs B} {o : PathOram N} {st : Process bs B}
    (hnew : newPathOram K A sz capacity ⟨1, w₀⟩ = some (o, st)) {before after : List OramAccess}
    (hfit : ∀ y ∈ before ++ after, y.req.writeOffset + y.req.writeSize ≤ bs)
    {outs : List Buffer} {calls : List (MemTreeCall bs)}
    (hbefore : before.foldlM (runAccess K sz) ⟨o, st.world, [], []⟩ = some ⟨.base capacity t, w, outs, calls⟩)
    (hx : x.Valid K t) {mapped : Addr → Bool} {outs' : List Buffer} {calls' : List (MemTreeCall bs)}
    (hafter : after.foldlM (runMappedAccess mapped K sz)
      ⟨.base capacity (x.apply K t w).1, (x.apply K t w).2, outs, calls⟩ =
        some ⟨.base capacity t', w', outs', calls'⟩)
    {y : OramAccess} (hy : y.req.writeOffset + y.req.writeSize ≤ bs)
    (hread : x.ReadAlong K t' w' (y.path w'.client)) {s : OramRun bs N B}
    (haccess : runMappedAccess mapped K sz ⟨.base capacity t', w', outs', calls'⟩ y = some s) :
    let a := ArrayStore.zero.after ((before ++ after).map OramAccess.req)
    let harmless := Harmless a y.req (nodeRow K t w.host.bufs x.index) (nodeRow K t' w'.host.bufs x.index)
    (harmless → s.outs = outs' ++ [a.copyOut bs y.req]) ∧
      (x.NoChoice y.req.ind (stashBag w'.client.path + pathKeyBag K t' w'.host.bufs (y.path w'.client)) →
        s.outs = outs' ++ [a.copyOut bs y.req] → harmless) := by
  intro a harmless
  have hbs := sz.eq_of_lt hsz
  obtain ⟨h8, t₀, rfl, h₀⟩ := newPathOram_base_inv hK hcap hnew
  obtain ⟨-, u, M, horam, hbase⟩ := h₀.run h8 hK hbs hcap (fun z hz => hfit z (List.mem_append_left _ hz)) hbefore
  obtain rfl : t = u := by simpa using horam
  have hheight := hbase.inv.height
  obtain ⟨u', horam', hinv⟩ := (hbase.tamper hx).run h8 hK hbs hcap hheight hx.1
    (fun z hz => hfit z (List.mem_append_right _ hz)) hafter
  obtain rfl : t' = u' := by simpa using horam'
  have ha : (ArrayStore.zero.after (before.map OramAccess.req)).after (after.map OramAccess.req) = a := by
    simp only [a, ArrayStore.after, List.map_append, List.foldl_append]
  rw [ha] at hinv
  obtain ⟨r, hr, rfl⟩ := runAccess_eq_some.mp (runMappedAccess_eq_some.mp haccess).2
  obtain ⟨E, hE, hpath, hanswer, hsole⟩ := hinv.read h8 hx hheight hx.1 hread hr
  have houts : outs' ++ [r.block] = outs' ++ [a.copyOut bs y.req] ↔ r.block = a.copyOut bs y.req := by simp
  rw [hE, houts]
  exact ⟨harmless_right hbs hy hpath hanswer,
    fun hno hright => harmless_of_right hbs hy hpath hanswer (hsole hno) hright⟩

/-! ## A present slot loses its block -/

/-- Write eight bytes `v` to entry 0. -/
def writeEntry (v : UInt8) : OramAccess := ⟨fun _ => ⟨.of 1, .of 1⟩, ⟨0, fun _ => v, 8, 0⟩⟩

/-- Read entry 0. -/
def readEntry : OramAccess := ⟨fun _ => ⟨.of 1, .of 1⟩, ⟨0, fun _ => 0, 0, 0⟩⟩

/-- The addresses of the buffers of a process's first tree. -/
def firstBuffers (a : Addr) : Bool := decide
    (∃ (n : Fin 2) (i : Fin blocksPerNode), a = BufferAddrs.numbered.addr 1 n i)

/-- A new object with one entry. -/
theorem oneEntry (K : Cipher 8 N B) (hK : K.Correct) (A : BufferAddrs) (w : World 8 B) : ∃ t st,
    newPathOram K A .eight 1 ⟨1, w⟩ = some (.base 1 t, st) ∧ t.height = 1 ∧ t.treeId = 1 ∧
      BaseInv K A 1 t st.world ArrayStore.zero fun _ => none := by
  obtain ⟨o, st, hnew⟩ := newPathOram_completes K A .eight rfl 1 (by decide) ⟨1, w⟩
  obtain ⟨-, t, rfl, h₀⟩ := newPathOram_base_inv hK (by decide) hnew
  obtain ⟨t', ht, heq⟩ := (newPathOram_base_eq_some (by decide)).mp hnew
  obtain rfl : t = t' := by simpa using heq
  obtain ⟨-, hid, hheight, -⟩ := newTree_stored hK (by simp [computeTreeHeight]) ht st.world.host.bufs
  exact ⟨t, st, hnew, hheight.trans (by simp [computeTreeHeight]), hid, h₀⟩

/-- After the write the block is in a slot of the only node. -/
theorem writeEntry_slot {K : Cipher 8 N B} (hK : K.Correct) {t : MemTree N} {w : World 8 B}
    (hh : t.height = 1) (h₀ : BaseInv K A 1 t w ArrayStore.zero fun _ => none) (v : UInt8) :
    ∃ t' w' block calls i b M, runAccess K .eight ⟨.base 1 t, w, [], []⟩ (writeEntry v) =
        some ⟨.base 1 t', w', [block], calls⟩ ∧ t'.height = 1 ∧ t'.treeId = t.treeId ∧
      BaseInv K A 1 t' w' (ArrayStore.zero.after [(writeEntry v).req]) M ∧
      (nodeRow K t' w'.host.bufs 0).blk i = some b ∧ b.key = keyOf 0 := by
  obtain ⟨r, hr⟩ := h₀.access_completes (by decide) .eight (by decide) (by decide) (writeEntry v).draws
    (writeEntry v).req Nat.zero_lt_one
  obtain ⟨-, t₁, M, horam, hbase⟩ := h₀.access (by decide) hK BlockSize.eight_val (by decide)
    (show (0 + 8 ≤ 8) by decide) hr
  obtain ⟨-, l, hl, rfl⟩ := accessPathOram_base.mp hr
  obtain rfl : l.tree = t₁ := by simpa using horam
  have hd := accessLevel_spec (by decide) hK (h₀.inv.withPathMm _) (keyOf_ne_zero (show 0 + 1 < 2 ^ 32 by decide))
    (h₀.entries.path Nat.zero_lt_one _) hl
  obtain ⟨hload, -⟩ := hd.settles (fun _ => rfl) (h := 0) (by rw [hh]; decide) rfl
  -- the stash is empty, and a node of the tree is the root
  obtain ⟨b, hb, hkey, -⟩ := hd.inv.holds.exists_mem (Function.update_self _ _ _)
  rw [hd.inv.stash.stashBag_eq_zero hload, zero_add] at hb
  obtain ⟨m, hm, -, hbm⟩ := mem_treeBag.mp hb
  obtain ⟨g, hg, rfl⟩ := hd.inv.tree.placed m hm b hbm
  obtain rfl : g = 0 := by
    rw [hd.height, hh] at hg
    omega
  obtain ⟨i, hi⟩ := mem_bag.mp hbm
  exact ⟨l.tree, l.world, _, _, i, b, M, runAccess_eq_some.mpr ⟨_, hr, rfl⟩, hd.height.trans hh, hd.treeId, hbase,
    hi, hkey⟩

/-- The tag of the buffer of slot `i` of the root is gone. -/
abbrev untagged (i : Fin blocksPerNode) : Tampering (Option MemTreeNode) (Option (Block 8)) := .buffer 0 i none

/-- Bytes are written to entry 0, the buffer that holds them is replaced, and zeros are read. -/
theorem untagged_read (v : UInt8) : ∃ t st t' w' block calls i s,
    newPathOram (Cipher.pairing 8) BufferAddrs.numbered .eight 1 ⟨1, ⟨emptyClient 8, .filled none⟩⟩ =
        some (.base 1 t, st) ∧
      [writeEntry v].foldlM (runAccess (Cipher.pairing 8) .eight) ⟨.base 1 t, st.world, [], []⟩ =
        some ⟨.base 1 t', w', [block], calls⟩ ∧
      (untagged i).Valid (Cipher.pairing 8) t' ∧
      (untagged i).ReadAlong (Cipher.pairing 8) t' ((untagged i).apply (Cipher.pairing 8) t' w').2
        (readEntry.path w'.client) ∧
      runMappedAccess firstBuffers (Cipher.pairing 8) .eight
          ⟨.base 1 t', ((untagged i).apply (Cipher.pairing 8) t' w').2, [block], calls⟩ readEntry = some s ∧
      s.outs = [block] ++ [ArrayStore.zero.copyOut 8 readEntry.req] ∧
      ∀ b ∈ (nodeRow (Cipher.pairing 8) t' ((untagged i).apply (Cipher.pairing 8) t' w').2.host.bufs 0).keyBag,
        b.key = keyOf 0 → b.content = zeroBlock 8 := by
  have hK := Cipher.pairing_correct 8
  obtain ⟨t, st, hnew, hh, hid, h₀⟩ := oneEntry (Cipher.pairing 8) hK BufferAddrs.numbered
    ⟨emptyClient 8, .filled none⟩
  obtain ⟨t', w', block, calls, i, b, M, hwrite, hh', hid', hbase, hb, hkey⟩ := writeEntry_slot hK hh h₀ v
  have hroot : 0 < 2 ^ t'.height := Nat.two_pow_pos _
  -- the object with the replaced buffer is one that holds zeros
  have hzero := hbase.replaced (by decide) hroot hb Nat.zero_lt_one hkey none
  obtain ⟨r, hr⟩ := hzero.access_completes (by decide) .eight (by decide) (by decide) readEntry.draws
    readEntry.req Nat.zero_lt_one
  obtain ⟨hblock, -⟩ := hzero.access (by decide) hK BlockSize.eight_val (by decide)
    (show (0 + 0 ≤ 8) by decide) hr
  have hmapped : PathMapped firstBuffers (Cipher.pairing 8) t' (readEntry.path w'.client) := by
    intro h hlt j
    obtain rfl : h = 0 := by omega
    rw [firstBuffers, decide_eq_true_iff, slotBuffer, hbase.inv.tree.owns _ (nodeAddr_lt_two_pow hlt), hid', hid]
    exact ⟨0, j, rfl⟩
  refine ⟨t, st, t', w', block, calls, i, ⟨r.oram, r.world, [block] ++ [r.block], calls ++ r.calls⟩, hnew,
    ?_, ?_, ?_, ?_, ?_, ?_⟩
  · rw [List.foldlM_cons, hwrite]
    rfl
  · exact ⟨hroot, (Row.blk_eq_some.mp hb).1, rfl⟩
  · exact ⟨mem_pathNodes.mpr ⟨0, hh' ▸ Nat.zero_lt_one, rfl⟩, Function.update_self _ _ _⟩
  · exact runMappedAccess_eq_some.mpr ⟨⟨1, t', rfl, hmapped⟩, runAccess_eq_some.mpr ⟨r, hr, rfl⟩⟩
  · refine congrArg (fun out => [block] ++ [out]) (hblock.trans (funext fun j => ?_))
    simp [readEntry, ArrayStore.copyOut, ArrayStore.zero, decryptData, Cipher.pairing, Aead.pairing,
      Block.byte_zeroBlock]
  · intro b' hb' hk'
    have hwf := hzero.inv.tree.wf 0 hroot
    rw [(hwf.keysTell (hzero.inv.tree.clear 0 hroot)).keyBag_eq] at hb'
    have hM := hzero.inv.holds.mem (Multiset.mem_add.mpr (Or.inr
      (mem_treeBag.mpr ⟨0, hroot, Finset.notMem_empty 0, hb'⟩)))
    rw [hk', Function.update_self] at hM
    exact (congrArg Prod.snd (Option.some.inj hM)).symm

theorem tampered_harmless_zeros : ∃ t st t' w' block calls i s,
    newPathOram (Cipher.pairing 8) BufferAddrs.numbered .eight 1 ⟨1, ⟨emptyClient 8, .filled none⟩⟩ =
        some (.base 1 t, st) ∧
      [writeEntry 0].foldlM (runAccess (Cipher.pairing 8) .eight) ⟨.base 1 t, st.world, [], []⟩ =
        some ⟨.base 1 t', w', [block], calls⟩ ∧
      runMappedAccess firstBuffers (Cipher.pairing 8) .eight
          ⟨.base 1 t', ((untagged i).apply (Cipher.pairing 8) t' w').2, [block], calls⟩ readEntry = some s ∧
      s.outs = [block] ++ [(ArrayStore.zero.after [(writeEntry 0).req]).copyOut 8 readEntry.req] := by
  obtain ⟨t, st, t', w', block, calls, i, s, hnew, hwrite, hvalid, hread, hs, -, hcontent⟩ := untagged_read 0
  refine ⟨t, st, t', w', block, calls, i, s, hnew, hwrite, hs, ?_⟩
  have hfit : ∀ y ∈ [writeEntry 0] ++ [], y.req.writeOffset + y.req.writeSize ≤ 8 := by simp [writeEntry]
  have hzeros : CopiesOut (ArrayStore.zero.after [(writeEntry 0).req]) readEntry.req (zeroBlock 8) := by
    intro j hj _
    simp [ArrayStore.after, ArrayStore.write, ArrayStore.zero, writeEntry, zeroBlock, Block.byte]
  exact (tampered_harmless (Cipher.pairing_correct 8) (by decide) (by decide) hnew hfit hwrite hvalid rfl (by decide)
    hread hs).1 ⟨fun b hb hk => hcontent b hb hk ▸ hzeros, fun _ _ => hzeros⟩

/-- Sevens are written, the buffer that holds them is replaced, and zeros are read. -/
theorem tampered_misread : ∃ t st t' w' block calls i s,
    newPathOram (Cipher.pairing 8) BufferAddrs.numbered .eight 1 ⟨1, ⟨emptyClient 8, .filled none⟩⟩ =
        some (.base 1 t, st) ∧
      [writeEntry 7].foldlM (runAccess (Cipher.pairing 8) .eight) ⟨.base 1 t, st.world, [], []⟩ =
        some ⟨.base 1 t', w', [block], calls⟩ ∧
      (untagged i).Valid (Cipher.pairing 8) t' ∧
      (untagged i).ReadAlong (Cipher.pairing 8) t' ((untagged i).apply (Cipher.pairing 8) t' w').2
        (readEntry.path w'.client) ∧
      runMappedAccess firstBuffers (Cipher.pairing 8) .eight
          ⟨.base 1 t', ((untagged i).apply (Cipher.pairing 8) t' w').2, [block], calls⟩ readEntry = some s ∧
      s.outs ≠ [block] ++ [(ArrayStore.zero.after [(writeEntry 7).req]).copyOut 8 readEntry.req] := by
  obtain ⟨t, st, t', w', block, calls, i, s, hnew, hwrite, hvalid, hread, hs, houts, -⟩ := untagged_read 7
  refine ⟨t, st, t', w', block, calls, i, s, hnew, hwrite, hvalid, hread, hs, fun heq => ?_⟩
  rw [houts, List.append_cancel_left_eq] at heq
  have hbyte := congrFun (List.cons.inj heq).1 0
  exact absurd hbyte (by decide)

end SgxOram
