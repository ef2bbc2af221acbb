import SgxOram.App.PathOram

/-!
# A single-level PathORAM is an array

* `BaseInv` : tree and stash hold what the array holds, under the positions of the position map;
* `BaseInv.access` : an access answers as the array does and keeps the invariant;
* `pathOram_array_iff` : every run of the only object of a process copies out what the array gives, if and only
  if the enclave gets the block size untruncated;
* `pathOram_array_truncated` : a byte that goes from one entry to another.
-/

namespace SgxOram
open Lib

variable {bs : Nat} {N B : Type} {K : Cipher bs N B} {A : BufferAddrs} {sz : BlockSize bs} {capacity : Nat}

/-- The bindings `M` of an object's tree are the entries of `a`, under the paths of the position map. -/
structure BaseInv (K : Cipher bs N B) (A : BufferAddrs) (capacity : Nat) (t : MemTree N) (w : World bs B)
    (a : ArrayStore) (M : BlockKey → Option (BlockPath × Block bs)) : Prop where
  inv : TreeInv K A t w ∅ M
  entries : Entries capacity w.client.pathMm a M

/-- A position that is an entry's is not drawn again. -/
theorem Entries.path {position : Nat → BlockPath} {a : ArrayStore} {M : BlockKey → Option (BlockPath × Block bs)}
    (h : Entries capacity position a M) {ind : Nat} (hind : ind < capacity) (fresh : RandPath) :
    ∀ v, M (keyOf ind) = some v → v.1 = orFresh (position ind) fresh := by
  intro v hv
  obtain ⟨hne, hpos⟩ := h.position ind hind v hv
  rw [orFresh, hpos, if_neg hne]

theorem keyOf_bound (hcap : capacity ≤ maxPosMap) {ind : Nat} (hind : ind < capacity) : ind + 1 < 2 ^ 32 := by
  have hcap' : capacity ≤ 65536 := hcap
  omega

theorem BaseInv.frame {t : MemTree N} {w w' : World bs B} {a : ArrayStore}
    {M : BlockKey → Option (BlockPath × Block bs)} (h : BaseInv K A capacity t w a M)
    (hclient : w'.client = w.client)
    (hb : ∀ n i, w'.host.bufs (A.addr t.treeId n i) = w.host.bufs (A.addr t.treeId n i)) :
    BaseInv K A capacity t w' a M where
  inv := h.inv.frame hclient hb
  entries := hclient ▸ h.entries

/-- An access of a single-level object: it answers as the array and keeps the invariant. -/
theorem BaseInv.access (h8 : 8 ∣ bs) (hK : K.Correct) (hsz : sz.val = bs) (hcap : capacity ≤ maxPosMap) {t : MemTree N}
    {w : World bs B} {a : ArrayStore} {M : BlockKey → Option (BlockPath × Block bs)}
    (h : BaseInv K A capacity t w a M) {draws : Nat → Draws} {req : Request}
    (hfit : req.writeOffset + req.writeSize ≤ bs) {r : AccessResult bs N B}
    (hrun : accessPathOram K sz (.base capacity t) draws req w = some r) :
    r.block = a.copyOut bs req ∧
      ∃ t' M', r.oram = .base capacity t' ∧ BaseInv K A capacity t' r.world (a.write req) M' := by
  obtain ⟨⟨hind, -⟩, l, hlevel, rfl⟩ := accessPathOram_base.mp hrun
  have hd := accessLevel_spec h8 hK (h.inv.withPathMm _) (keyOf_ne_zero (keyOf_bound hcap hind))
    (h.entries.path hind (draws 0).freshPath) hlevel
  obtain ⟨hentries, hout⟩ := h.entries.access (lt_of_le_of_lt hcap (by decide)) hind hsz hfit
    (w.host.fetched t.treeId) (draws 0).newBlockPath.2
  refine ⟨hd.block.trans hout, l.tree, _, rfl, hd.inv, ?_⟩
  rw [hd.pathMm]
  exact hentries

/-- A run of a single-level object answers as the array. -/
theorem BaseInv.run (h8 : 8 ∣ bs) (hK : K.Correct) (hsz : sz.val = bs) (hcap : capacity ≤ maxPosMap) {t : MemTree N}
    {w : World bs B} {a : ArrayStore} {M : BlockKey → Option (BlockPath × Block bs)}
    (h₀ : BaseInv K A capacity t w a M) {as : List OramAccess}
    (hfit : ∀ x ∈ as, x.req.writeOffset + x.req.writeSize ≤ bs) {s : OramRun bs N B}
    (hrun : as.foldlM (runAccess K sz) ⟨.base capacity t, w, [], []⟩ = some s) :
    s.outs = a.run bs (as.map OramAccess.req) ∧ ∃ t' M', s.oram = .base capacity t' ∧
      BaseInv K A capacity t' s.world (a.after (as.map OramAccess.req)) M' := by
  refine foldlM_inv (P := fun done (s : OramRun bs N B) =>
      s.outs = a.run bs (done.map OramAccess.req) ∧ ∃ t' M', s.oram = .base capacity t' ∧
        BaseInv K A capacity t' s.world (a.after (done.map OramAccess.req)) M')
    as _ s ⟨rfl, t, M, rfl, h₀⟩ ?_ hrun
  rintro done x u v hpre ⟨houts, t, M, horam, hinv⟩ hstep
  obtain ⟨r, hr, rfl⟩ := runAccess_eq_some.mp hstep
  rw [horam] at hr
  obtain ⟨hblock, t', M', horam', hinv'⟩ := hinv.access h8 hK hsz hcap (hfit x (mem_of_step hpre)) hr
  rw [List.map_append, List.map_cons, List.map_nil, ArrayStore.run_append, ArrayStore.after_append]
  exact ⟨by rw [houts, hblock], t', M', horam', hinv'⟩

/-! ## Small objects never abort -/

theorem Entries.keysIn {position : Nat → BlockPath} {a : ArrayStore}
    {M : BlockKey → Option (BlockPath × Block bs)} (h : Entries capacity position a M) :
    KeysIn M ((Finset.range capacity).image keyOf) := fun k v hk => by
  obtain ⟨ind, hind, rfl⟩ := h.keys k v hk
  exact Finset.mem_image_of_mem _ (Finset.mem_range.mpr hind)

/-- An access completes with room for its keys, whatever the enclave gets of the block size. -/
theorem accessPathOram_base_of_room (h8 : 8 ∣ bs) (sz : BlockSize bs) (hbs : bs / sizeofBlockPath ≠ 0)
    (hcap : capacity ≤ maxPosMap) {t : MemTree N} {w : World bs B}
    {M : BlockKey → Option (BlockPath × Block bs)} (hinv : TreeInv K A t w ∅ M)
    (draws : Nat → Draws) {req : Request} (hind : req.ind < capacity)
    (hpath : ∀ v, M (keyOf req.ind) = some v → v.1 = orFresh (w.client.pathMm req.ind) (draws 0).freshPath)
    {keys : Finset BlockKey} (hkeys : KeysIn M keys) (hmem : keyOf req.ind ∈ keys)
    (hfit : keys.card ≤ clientMaxPath * blocksPerNode) :
    ∃ l, accessPathOram K sz (.base capacity t) draws req w =
        some ⟨.base capacity l.tree, l.world, l.block, l.calls⟩ ∧
      accessLevel K sz t (orFresh (w.client.pathMm req.ind) (draws 0).freshPath) (draws 0).newBlockPath
        (keyOf req.ind) req (w.withPathMm (Function.update w.client.pathMm req.ind (draws 0).newBlockPath)) =
          some l := by
  obtain ⟨l, hl⟩ := accessLevel_completes h8 sz (hinv.withPathMm _) (draws 0).newBlockPath
    (keyOf_ne_zero (keyOf_bound hcap hind)) hpath req hkeys hmem hfit
  exact ⟨l, accessPathOram_base.mpr ⟨⟨hind, sz.usable hbs⟩, l, hl, rfl⟩, hl⟩

/-- With no more entries than stash slots no assert fails. -/
theorem accessPathOram_base_completes (h8 : 8 ∣ bs) (sz : BlockSize bs) (hbs : bs / sizeofBlockPath ≠ 0)
    (hsmall : capacity ≤ clientMaxPath * blocksPerNode) {t : MemTree N} {w : World bs B}
    {M : BlockKey → Option (BlockPath × Block bs)} (hinv : TreeInv K A t w ∅ M) {position : Nat → BlockPath}
    {a : ArrayStore} (hentries : Entries capacity position a M) (draws : Nat → Draws) (req : Request)
    (hind : req.ind < capacity)
    (hpath : ∀ v, M (keyOf req.ind) = some v → v.1 = orFresh (w.client.pathMm req.ind) (draws 0).freshPath) :
    ∃ r, accessPathOram K sz (.base capacity t) draws req w = some r := by
  obtain ⟨l, hl, -⟩ := accessPathOram_base_of_room h8 sz hbs (hsmall.trans (by decide)) hinv draws hind hpath
    hentries.keysIn (Finset.mem_image_of_mem _ (Finset.mem_range.mpr hind))
    ((Finset.card_image_le.trans_eq (Finset.card_range capacity)).trans hsmall)
  exact ⟨_, hl⟩

theorem BaseInv.access_completes (h8 : 8 ∣ bs) (sz : BlockSize bs) (hbs : bs / sizeofBlockPath ≠ 0)
    (hsmall : capacity ≤ clientMaxPath * blocksPerNode) {t : MemTree N} {w : World bs B} {a : ArrayStore}
    {M : BlockKey → Option (BlockPath × Block bs)} (h : BaseInv K A capacity t w a M) (draws : Nat → Draws)
    (req : Request) (hind : req.ind < capacity) :
    ∃ r, accessPathOram K sz (.base capacity t) draws req w = some r :=
  accessPathOram_base_completes h8 sz hbs hsmall h.inv h.entries draws req hind (h.entries.path hind _)

theorem BaseInv.run_completes (h8 : 8 ∣ bs) (hbs : bs / sizeofBlockPath ≠ 0) (hK : K.Correct) (hsz : sz.val = bs)
    (hsmall : capacity ≤ clientMaxPath * blocksPerNode) {t : MemTree N} {w : World bs B} {a : ArrayStore}
    {M : BlockKey → Option (BlockPath × Block bs)} (h₀ : BaseInv K A capacity t w a M) {as : List OramAccess}
    (hreq : ∀ x ∈ as, x.req.ind < capacity ∧ x.req.writeOffset + x.req.writeSize ≤ bs) :
    ∃ s, as.foldlM (runAccess K sz) ⟨.base capacity t, w, [], []⟩ = some s := by
  refine foldlM_completes as _ fun done x s hpre hrun => ?_
  obtain ⟨-, t', M', horam, hinv⟩ := h₀.run h8 hK hsz (hsmall.trans (by decide))
    (fun y hy => (hreq y (hpre.subset (List.mem_append_left _ hy))).2) hrun
  obtain ⟨r, hr⟩ := hinv.access_completes h8 sz hbs hsmall x.draws x.req (hreq x (mem_of_step hpre)).1
  exact ⟨_, runAccess_eq_some.mpr ⟨r, by rw [horam]; exact hr, rfl⟩⟩

theorem newPathOram_completes (K : Cipher bs N B) (A : BufferAddrs) (sz : BlockSize bs) (h8 : bs % 8 = 0)
    (capacity : Nat) (hcap : capacity ≤ maxPosMap) (st : Process bs B) :
    ∃ o st', newPathOram K A sz capacity st = some (o, st') := by
  obtain ⟨t, st', ht⟩ := newTree_completes h8 K A st.nextOramId (computeTreeHeight_lt_clientMaxPath hcap)
    { st with nextOramId := st.nextOramId + 1 }
  exact ⟨_, st', (newPathOram_base_eq_some hcap).mpr ⟨t, ht, rfl⟩⟩

/-! ## The object of a process -/

theorem newPathOram_base_inv (hK : K.Correct) (hcap : capacity ≤ maxPosMap) {w : World bs B} {o : PathOram N}
    {st : Process bs B} (hnew : newPathOram K A sz capacity ⟨1, w⟩ = some (o, st)) :
    8 ∣ bs ∧ ∃ t, o = .base capacity t ∧
      BaseInv K A capacity t st.world ArrayStore.zero fun _ => none := by
  obtain ⟨t, ht, rfl⟩ := (newPathOram_base_eq_some hcap).mp hnew
  obtain ⟨h8, hinv, -⟩ := newTree_first hK ht
  exact ⟨h8, t, rfl, hinv, entries_zero capacity _⟩

theorem newPathOram_pathMm (hK : K.Correct) (hcap : capacity ≤ maxPosMap) {w : World bs B} {o : PathOram N}
    {st : Process bs B} (hnew : newPathOram K A sz capacity ⟨1, w⟩ = some (o, st)) :
    st.world.client.pathMm = fun _ => 0 := by
  obtain ⟨t, ht, -⟩ := (newPathOram_base_eq_some hcap).mp hnew
  exact (newTree_first hK ht).2.2

/-- A new object finds `fetched_block_` as `malloc` returns it. -/
theorem newPathOram_fetched (hcap : capacity ≤ maxPosMap) {st st' : Process bs B} {o : PathOram N}
    (hnew : newPathOram K A sz capacity st = some (o, st')) :
    st'.world.host.fetched = st.world.host.fetched := by
  obtain ⟨t, ht, -⟩ := (newPathOram_base_eq_some hcap).mp hnew
  obtain ⟨c, host, -, hinit, rfl⟩ := newTree_eq_some.mp ht
  exact (initializeMemTree_frame hinit).2.1

/-- The first access of an object completes, whatever its capacity. -/
theorem firstAccess_completes (hK : K.Correct) (hbs : bs / sizeofBlockPath ≠ 0) (hcap : capacity ≤ maxPosMap)
    {w : World bs B} {o : PathOram N} {st : Process bs B} (hnew : newPathOram K A sz capacity ⟨1, w⟩ = some (o, st))
    (a : OramAccess) (hind : a.req.ind < capacity) {X : ExchangeMm}
    (hkeeps : (X a.req.ind (a.draws 0).newBlockPath st.world.client.pathMm).keepsPath) :
    ∃ r, accessPathOramWith X K sz o a.draws a.req st.world = .ok r := by
  obtain ⟨h8, t, rfl, h₀⟩ := newPathOram_base_inv hK hcap hnew
  obtain ⟨l, hl⟩ := accessLevel_completes h8 sz
    (h₀.inv.withPathMm (X a.req.ind (a.draws 0).newBlockPath st.world.client.pathMm).pathMm)
    (p := orFresh (X a.req.ind (a.draws 0).newBlockPath st.world.client.pathMm).blockPath (a.draws 0).freshPath)
    (a.draws 0).newBlockPath (keyOf_ne_zero (keyOf_bound hcap hind)) (fun _ hv => by cases hv)
    a.req (show KeysIn _ {keyOf a.req.ind} from fun _ _ hk => by cases hk) (Finset.mem_singleton_self _)
    (by rw [Finset.card_singleton]; decide)
  exact ⟨_, accessPathOramWith_base.mpr ⟨⟨hind, sz.usable hbs⟩, hkeeps, l, hl, rfl⟩⟩

/-- A read copies out what an earlier access has left in `fetched_block_` behind the block. -/
theorem accessPathOram_rest {t : MemTree N} {w : World bs B} {draws : Nat → Draws} {req : Request}
    (hread : req.writeSize = 0) {r : AccessResult bs N B}
    (hrun : accessPathOram K sz (.base capacity t) draws req w = some r) {j : Nat} (hj : bs ≤ j) (hlt : j < sz.val) :
    r.block j = w.host.fetched t.treeId j := by
  obtain ⟨-, l, hl, rfl⟩ := accessPathOram_base.mp hrun
  obtain ⟨f, -, hblock⟩ := accessLevel_fetched hl
  exact (congrFun hblock j).trans (sz.copies_rest _ f hread hj hlt)

/-- Whatever the draws, a run on the only object of a process that no assert ends copies out what an array of
zero-initialised blocks gives. -/
def IsArray (K : Cipher bs N B) (A : BufferAddrs) (sz : BlockSize bs) (capacity : Nat) : Prop :=
  ∀ (w : World bs B) (o : PathOram N) (st : Process bs B) (as : List OramAccess),
    newPathOram K A sz capacity ⟨1, w⟩ = some (o, st) →
    (∀ a ∈ as, a.req.ind < capacity ∧ a.req.writeOffset + a.req.writeSize ≤ sz.val) →
    Ends (fun s => s.outs = ArrayStore.zero.run sz.val (as.map OramAccess.req)) (fun e => e = .assert)
      (as.foldlM (runAccessWith ecallWriteMmInClient K sz) ⟨o, st.world, [], []⟩)

theorem isArray_of_lt (hK : K.Correct) (hcap : capacity ≤ maxPosMap) (h8 : 8 ∣ sz.val) (hpos : 0 < sz.val)
    (hlt : sz.val < 2 ^ 32) : IsArray K A sz capacity := by
  intro w o st as hnew hreq
  have hsz := sz.eq_of_lt hlt
  have hbs : bs / sizeofBlockPath ≠ 0 := by
    rw [← hsz, sizeofBlockPath]
    omega
  obtain ⟨h8', t, rfl, h₀⟩ := newPathOram_base_inv hK hcap hnew
  rw [funext₂ fun s a => runAccessWith_reference (K := K) (sz.usable hbs) s a, foldlM_orAssert, ends_orAssert]
  intro s hrun
  rw [hsz]
  exact (h₀.run h8' hK hsz hcap (fun a ha => hsz ▸ (hreq a ha).2) hrun).1

/-- Read entry 0. -/
def firstRead : OramAccess := ⟨fun _ => ⟨.of 3, .of 5⟩, ⟨0, fun _ => 0, 0, 0⟩⟩

/-- With a truncated block size a first read copies out what `malloc` has left in `fetched_block_`. -/
theorem not_isArray (hK : K.Correct) (hpos : 0 < capacity) (hcap : capacity ≤ maxPosMap) (h8 : 8 ∣ sz.val)
    (hge : 2 ^ 32 ≤ sz.val) : ¬ IsArray K A sz capacity := by
  intro h
  have hlt := sz.lt_val hge
  have hmod : bs % 8 = 0 := sz.mod_eight.trans (Nat.mod_eq_zero_of_dvd h8)
  obtain ⟨o, st, hnew⟩ := newPathOram_completes K A sz hmod capacity hcap
    ⟨1, ⟨emptyClient bs, { Host.filled K.zeroBuffer with fetched := fun _ _ => 1 }⟩⟩
  have hends := h _ o st [firstRead] hnew (by simpa [firstRead] using hpos)
  simp only [List.foldlM_cons, List.foldlM_nil, bind_pure] at hends
  obtain ⟨h8', t, rfl, h₀⟩ := newPathOram_base_inv hK hcap hnew
  by_cases hbs : bs = 0
  · -- the enclave's `ocopy` runs over buffers of no bytes
    have hne : sz.val / sizeofBlockPath ≠ 0 := by
      rw [sizeofBlockPath]
      omega
    simp [runAccessWith, accessPathOramWith, ecallWriteMmInClient, firstRead, hpos, hne, hbs, Stop.map] at hends
  · have hbs' : bs / sizeofBlockPath ≠ 0 := by
      rw [sizeofBlockPath]
      omega
    obtain ⟨r, hr⟩ := firstAccess_completes hK hbs' hcap hnew firstRead hpos (X := ecallWriteMmInClient) rfl
    have hr := toOption_eq_some.mpr hr
    have hrun := (runAccess_eq_some (s := ⟨.base capacity t, st.world, [], []⟩)).mpr ⟨r, hr, rfl⟩
    rw [runAccessWith_reference (sz.usable hbs'), hrun] at hends
    have hbyte := accessPathOram_rest rfl hr le_rfl hlt
    rw [newPathOram_fetched hcap hnew] at hbyte
    have hout := congrFun (List.singleton_injective hends) bs
    rw [hbyte] at hout
    simp [ArrayStore.copyOut, firstRead, hlt, ArrayStore.zero] at hout

/-- A single-level object is an array exactly when the enclave gets its block size untruncated. -/
theorem pathOram_array_iff (hK : K.Correct) (A : BufferAddrs) (hpos : 0 < capacity) (hcap : capacity ≤ maxPosMap)
    (h8 : 8 ∣ sz.val) (hsz : 0 < sz.val) : IsArray K A sz capacity ↔ sz.val < 2 ^ 32 :=
  ⟨fun h => not_le.mp fun hge => not_isArray hK hpos hcap h8 hge h, isArray_of_lt hK hcap h8 hsz⟩

/-- Write three bytes of entry 0, read entry 0, read entry 1. -/
def threeAccesses : List OramAccess :=
  [⟨fun _ => ⟨.of 3, .of 5⟩, ⟨0, fun j => UInt8.ofNat (j + 1), 3, 2⟩⟩,
    ⟨fun _ => ⟨.of 6, .of 7⟩, ⟨0, fun _ => 0, 0, 0⟩⟩,
    ⟨fun _ => ⟨.of 2, .of 9⟩, ⟨1, fun _ => 0, 0, 0⟩⟩]

theorem pathOram_array_iff_threeAccesses : ∃ o st s,
    newPathOram (Cipher.pairing 8) BufferAddrs.numbered .eight 2 ⟨1, ⟨emptyClient 8, .filled none⟩⟩ =
        some (o, st) ∧
      threeAccesses.foldlM (runAccess (Cipher.pairing 8) .eight) ⟨o, st.world, [], []⟩ = some s ∧
      s.outs = ArrayStore.zero.run 8 (threeAccesses.map OramAccess.req) := by
  have hK := Cipher.pairing_correct 8
  obtain ⟨o, st, hnew⟩ := newPathOram_completes (Cipher.pairing 8) BufferAddrs.numbered .eight rfl 2
    (by decide) ⟨1, ⟨emptyClient 8, .filled none⟩⟩
  obtain ⟨h8, t, rfl, h₀⟩ := newPathOram_base_inv hK (by decide) hnew
  have hreq : ∀ x ∈ threeAccesses, x.req.ind < 2 ∧ x.req.writeOffset + x.req.writeSize ≤ 8 := by
    simp [threeAccesses]
  obtain ⟨s, hrun⟩ := h₀.run_completes h8 (by decide) hK BlockSize.eight_val (by decide) hreq
  have harray : IsArray (Cipher.pairing 8) BufferAddrs.numbered .eight 2 :=
    (pathOram_array_iff hK .numbered (by decide) (by decide) (by decide) (by decide)).mpr (by decide)
  have harray := harray _ _ st threeAccesses hnew hreq
  rw [funext₂ fun s a => runAccessWith_reference (K := Cipher.pairing 8) (BlockSize.eight.usable (by decide)) s a,
    foldlM_orAssert, ends_orAssert] at harray
  exact ⟨_, st, s, hnew, hrun, harray s hrun⟩

/-! ## A block size of 33 bits -/

/-- Blocks of which the enclave gets eight bytes. -/
def hugeBlock : BlockSize 8 := ⟨2 ^ 32 + 8, by decide, by decide⟩

/-- Write byte 8 of entry 0. -/
def writeBehind : OramAccess := ⟨fun _ => ⟨.of 3, .of 5⟩, ⟨0, fun _ => 7, 1, 8⟩⟩

/-- Read entry 1. -/
def readNext : OramAccess := ⟨fun _ => ⟨.of 2, .of 9⟩, ⟨1, fun _ => 0, 0, 0⟩⟩

/-- The byte written to entry 0 stays in `fetched_block_` and is read as entry 1's. -/
theorem pathOram_array_truncated : ∃ o st s,
    newPathOram (Cipher.pairing 8) BufferAddrs.numbered hugeBlock 2 ⟨1, ⟨emptyClient 8, .filled none⟩⟩ =
        some (o, st) ∧
      [writeBehind, readNext].foldlM (runAccess (Cipher.pairing 8) hugeBlock) ⟨o, st.world, [], []⟩ = some s ∧
      s.outs ≠ ArrayStore.zero.run hugeBlock.val ([writeBehind, readNext].map OramAccess.req) := by
  have hK := Cipher.pairing_correct 8
  obtain ⟨o, st, hnew⟩ := newPathOram_completes (Cipher.pairing 8) BufferAddrs.numbered hugeBlock rfl 2
    (by decide) ⟨1, ⟨emptyClient 8, .filled none⟩⟩
  obtain ⟨h8, t, rfl, h₀⟩ := newPathOram_base_inv hK (by decide) hnew
  have hfit : ({keyOf 0, keyOf 1} : Finset BlockKey).card ≤ clientMaxPath * blocksPerNode := by decide
  have hnone : ∀ v, (none : Option (BlockPath × Block 8)) = some v →
      v.1 = orFresh (st.world.client.pathMm 0) (.of 5) := fun _ hv => by cases hv
  obtain ⟨l, hl, hlevel⟩ := accessPathOram_base_of_room (K := Cipher.pairing 8) (t := t) h8 hugeBlock
    (by decide) (show 2 ≤ maxPosMap by decide) h₀.inv writeBehind.draws (show writeBehind.req.ind < 2 by decide) hnone
    (fun _ _ hk => by cases hk) (show keyOf 0 ∈ _ by decide) hfit
  have hd := accessLevel_spec h8 hK (h₀.inv.withPathMm _) (keyOf_ne_zero (by decide)) hnone hlevel
  obtain ⟨f, hf, -⟩ := accessLevel_fetched hlevel
  have hkeys : KeysIn (Function.update (fun _ => none) (keyOf 0)
      (some ((3 : BlockPath), (fetchedContent (none : Option (BlockPath × Block 8))).written writeBehind.req)))
      {keyOf 0, keyOf 1} := by
    intro k v hk
    by_cases hk0 : k = keyOf 0
    · exact Finset.mem_insert.mpr (Or.inl hk0)
    · rw [Function.update_of_ne hk0] at hk
      cases hk
  obtain ⟨l', hl', -⟩ := accessPathOram_base_of_room h8 hugeBlock (by decide) (show 2 ≤ maxPosMap by decide)
    hd.inv readNext.draws (show readNext.req.ind < 2 by decide)
    (fun _ hv => by cases (Function.update_of_ne (show keyOf 1 ≠ keyOf 0 by decide) _ _).symm.trans hv)
    hkeys (show keyOf 1 ∈ _ by decide) hfit
  have hwrite : runAccess (Cipher.pairing 8) hugeBlock ⟨.base 2 t, st.world, [], []⟩ writeBehind =
      some ⟨.base 2 l.tree, l.world, [l.block], l.calls⟩ := runAccess_eq_some.mpr ⟨_, hl, rfl⟩
  have hread : runAccess (Cipher.pairing 8) hugeBlock ⟨.base 2 l.tree, l.world, [l.block], l.calls⟩ readNext =
      some ⟨.base 2 l'.tree, l'.world, [l.block, l'.block], l.calls ++ l'.calls⟩ :=
    runAccess_eq_some.mpr ⟨_, hl', rfl⟩
  refine ⟨_, st, ⟨.base 2 l'.tree, l'.world, [l.block, l'.block], l.calls ++ l'.calls⟩, hnew, ?_, fun houts => ?_⟩
  · simp only [List.foldlM_cons, List.foldlM_nil, hwrite, hread, Option.bind_eq_bind, Option.bind_some,
      Option.pure_def]
  · have hbyte := accessPathOram_rest (j := 8) rfl hl' le_rfl (by decide)
    rw [hd.treeId, hf] at hbyte
    have hseven : l'.block 8 = 7 := hbyte.trans rfl
    have hentry := congrFun (List.cons.inj (List.cons.inj houts).2).1 8
    exact absurd (hseven.symm.trans hentry) (by decide)

end SgxOram
