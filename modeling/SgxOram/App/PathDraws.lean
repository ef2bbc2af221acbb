import SgxOram.App.Buffers
import SgxOram.Lib.Reveal

/-!
# The draws of a single-level PathORAM

* `DrawnInv` : in a run of the only object of a process the position map holds the draws, the fetches
  reveal them, and the tree holds a block for each entry accessed (`drawn_run`);
* `fetchPath_getElem` : each access fetches along the draw of the last access to its entry;
* `accessLevel_room` : an access whose path holds every block needs a stash that has room for them all;
* `completes_iff` : the accesses to given entries complete whatever the draws exactly when the stash has a
  slot for every entry.
-/

namespace SgxOram
open Lib

variable {bs : Nat} {N B : Type} {K : Cipher bs N B} {A : BufferAddrs} {sz : BlockSize bs} {capacity : Nat}

/-- An access of a single-level object as an access to the table of positions. -/
def OramAccess.redraw (a : OramAccess) : Redraw Nat RandPath :=
  ⟨a.req.ind, (a.draws 0).newBlockPath, (a.draws 0).freshPath⟩

/-- The paths that a run has fetched along. -/
def OramRun.fetchPaths (s : OramRun bs N B) : List BlockPath := s.calls.filterMap MemTreeCall.fetchPath

/-! ## The position map and the table -/

/-- The position map holds the positions `pos`, and zero where there is none. -/
def Tabulates (pathMm : Nat → BlockPath) (pos : Nat → Option RandPath) : Prop :=
  ∀ ind, pathMm ind = (pos ind).elim 0 Subtype.val

theorem Tabulates.reveal {pathMm : Nat → BlockPath} {pos : Nat → Option RandPath} (h : Tabulates pathMm pos)
    (a : OramAccess) : orFresh (pathMm a.req.ind) (a.draws 0).freshPath = (a.redraw.reveal pos).1 := by
  rw [orFresh, h a.req.ind, Redraw.reveal, show a.redraw.name = a.req.ind from rfl]
  cases pos a.req.ind with
  | none => exact if_pos rfl
  | some p => exact if_neg p.2

theorem Tabulates.place {pathMm : Nat → BlockPath} {pos : Nat → Option RandPath} (h : Tabulates pathMm pos)
    (a : OramAccess) :
    Tabulates (Function.update pathMm a.req.ind (a.draws 0).newBlockPath) (a.redraw.place pos) := by
  intro ind
  by_cases hind : ind = a.req.ind
  · subst hind
    rw [Function.update_self, Redraw.place, show a.redraw.name = a.req.ind from rfl, Function.update_self]
    rfl
  · rw [Function.update_of_ne hind, Redraw.place, Function.update_of_ne (show ind ≠ a.redraw.name from hind)]
    exact h ind

/-! ## The invariant -/

/-- The keys of the entries accessed. -/
def accessedKeys (as : List OramAccess) : Finset BlockKey := (as.map fun a => keyOf a.req.ind).toFinset

theorem accessedKeys_concat (as : List OramAccess) (a : OramAccess) :
    accessedKeys (as ++ [a]) = insert (keyOf a.req.ind) (accessedKeys as) := by
  ext k
  simp [accessedKeys, eq_comm]

/-- After the accesses `done` the tree `t` of the object holds `M`. -/
structure DrawnInv (K : Cipher bs N B) (A : BufferAddrs) (capacity : Nat) (done : List OramAccess)
    (s : OramRun bs N B) (t : MemTree N) (M : BlockKey → Option (BlockPath × Block bs)) : Prop where
  oram : s.oram = .base capacity t
  base : BaseInv K A capacity t s.world (ArrayStore.zero.after (done.map OramAccess.req)) M
  keys : ∀ k, k ∈ accessedKeys done ↔ ∃ v, M k = some v
  positions : Tabulates s.world.client.pathMm (positions (fun _ => none) (done.map OramAccess.redraw))
  paths : s.fetchPaths = (reveals (fun _ => none) (done.map OramAccess.redraw)).map Subtype.val

/-- One access of the object, from the level that it accesses. -/
theorem runAccess_base {s s' : OramRun bs N B} {t : MemTree N} (horam : s.oram = .base capacity t)
    {a : OramAccess} :
    runAccess K sz s a = some s' ↔ (a.req.ind < capacity ∧ sz.val / sizeofBlockPath ≠ 0 ∧ bs ≠ 0) ∧ ∃ l,
      accessLevel K sz t (orFresh (s.world.client.pathMm a.req.ind) (a.draws 0).freshPath) (a.draws 0).newBlockPath
        (keyOf a.req.ind) a.req
        (s.world.withPathMm (Function.update s.world.client.pathMm a.req.ind (a.draws 0).newBlockPath)) = some l ∧
      s' = ⟨.base capacity l.tree, l.world, s.outs ++ [l.block], s.calls ++ l.calls⟩ := by
  rw [runAccess_eq_some, horam]
  constructor
  · rintro ⟨r, hr, rfl⟩
    obtain ⟨hpre, l, hl, rfl⟩ := accessPathOram_base.mp hr
    exact ⟨hpre, l, hl, rfl⟩
  · rintro ⟨hpre, l, hl, rfl⟩
    exact ⟨_, accessPathOram_base.mpr ⟨hpre, l, hl, rfl⟩, rfl⟩

theorem DrawnInv.access (h8 : 8 ∣ bs) (hK : K.Correct) (hsz : sz.val = bs) (hcap : capacity ≤ maxPosMap)
    {done : List OramAccess} {s s' : OramRun bs N B} {t : MemTree N} {M : BlockKey → Option (BlockPath × Block bs)}
    (h : DrawnInv K A capacity done s t M) {a : OramAccess} (hfit : a.req.writeOffset + a.req.writeSize ≤ bs)
    (hrun : runAccess K sz s a = some s') : ∃ t' M', DrawnInv K A capacity (done ++ [a]) s' t' M' := by
  obtain ⟨⟨hind, -⟩, l, hlevel, rfl⟩ := (runAccess_base h.oram).mp hrun
  have hd := accessLevel_spec h8 hK (h.base.inv.withPathMm _) (keyOf_ne_zero (keyOf_bound hcap hind))
    (h.base.entries.path hind (a.draws 0).freshPath) hlevel
  obtain ⟨hentries, -⟩ := h.base.entries.access (lt_of_le_of_lt hcap (by decide)) hind hsz hfit
    (s.world.host.fetched t.treeId) (a.draws 0).newBlockPath.2
  refine ⟨l.tree, _, rfl, ⟨hd.inv, ?_⟩, fun k => ?_, ?_, ?_⟩
  · rw [List.map_append, List.map_singleton, ArrayStore.after_append, hd.pathMm]
    exact hentries
  · rw [accessedKeys_concat, Finset.mem_insert]
    by_cases hk : k = keyOf a.req.ind
    · simp [hk]
    · rw [Function.update_of_ne hk, ← h.keys k]
      exact or_iff_right hk
  · rw [List.map_append, List.map_singleton, positions_concat]
    show Tabulates l.world.client.pathMm _
    rw [hd.pathMm]
    exact h.positions.place a
  · have hpath := (accessLevel_view (A := A) hlevel).1
    rw [List.map_append, List.map_singleton, reveals_concat, List.map_append, List.map_singleton, ← h.paths,
      ← h.positions.reveal a, OramRun.fetchPaths, List.filterMap_append, hpath]
    rfl

theorem DrawnInv.start (hK : K.Correct) (hcap : capacity ≤ maxPosMap) {w : World bs B} {o : PathOram N}
    {st : Process bs B} (hnew : newPathOram K A sz capacity ⟨1, w⟩ = some (o, st)) :
    8 ∣ bs ∧ ∃ t, DrawnInv K A capacity [] ⟨o, st.world, [], []⟩ t fun _ => none := by
  obtain ⟨t, ht, rfl⟩ := (newPathOram_base_eq_some hcap).mp hnew
  obtain ⟨h8, hinv, hmm⟩ := newTree_first hK ht
  refine ⟨h8, t, rfl, ⟨hinv, entries_zero capacity _⟩, by simp [accessedKeys], fun ind => ?_, rfl⟩
  show st.world.client.pathMm ind = 0
  rw [hmm]

/-- Every run of the only object of a process keeps the invariant. -/
theorem drawn_run (hK : K.Correct) (hsz : sz.val = bs) (hcap : capacity ≤ maxPosMap) {w : World bs B} {o : PathOram N}
    {st : Process bs B} (hnew : newPathOram K A sz capacity ⟨1, w⟩ = some (o, st)) {as : List OramAccess}
    (hfit : ∀ a ∈ as, a.req.writeOffset + a.req.writeSize ≤ bs) {s : OramRun bs N B}
    (hrun : as.foldlM (runAccess K sz) ⟨o, st.world, [], []⟩ = some s) :
    ∃ t M, DrawnInv K A capacity as s t M := by
  obtain ⟨h8, t₀, h₀⟩ := DrawnInv.start hK hcap hnew
  refine foldlM_inv (P := fun done s => ∃ t M, DrawnInv K A capacity done s t M) as _ s ⟨t₀, _, h₀⟩ ?_ hrun
  rintro done a u v hpre ⟨t, M, hu⟩ hstep
  exact hu.access h8 hK hsz hcap (hfit a (mem_of_step hpre)) hstep

/-- The path of access `i` is what the last access before it to the same entry has drawn, and its own spare
draw if there is none. -/
theorem fetchPath_getElem (hK : K.Correct) (hsz : sz.val < 2 ^ 32) (hcap : capacity ≤ maxPosMap) {w : World bs B}
    {o : PathOram N} {st : Process bs B} (hnew : newPathOram K A sz capacity ⟨1, w⟩ = some (o, st))
    {as : List OramAccess} (hfit : ∀ a ∈ as, a.req.writeOffset + a.req.writeSize ≤ bs) {s : OramRun bs N B}
    (hrun : as.foldlM (runAccess K sz) ⟨o, st.world, [], []⟩ = some s) :
    s.fetchPaths.length = as.length ∧ ∀ (i : Nat) (hi : i < as.length), s.fetchPaths[i]? =
      some (((as.take i).reverse.find? fun a => a.req.ind = as[i].req.ind).elim
        (as[i].draws 0).freshPath.1 fun a => (a.draws 0).newBlockPath.1) := by
  obtain ⟨t, M, h⟩ := drawn_run hK (sz.eq_of_lt hsz) hcap hnew hfit hrun
  rw [h.paths]
  refine ⟨by rw [List.length_map, length_reveals, List.length_map], fun i hi => ?_⟩
  have hi' : i < (as.map OramAccess.redraw).length := by rwa [List.length_map]
  rw [List.getElem?_map, reveals_getElem _ hi', List.getElem_map, ← List.map_take, ← List.map_reverse,
    List.find?_map]
  generalize hlast : (as.take i).reverse.find? _ = last
  rw [show (as.take i).reverse.find? (fun a => a.req.ind = as[i].req.ind) = last from hlast]
  cases last <;> rfl

/-- Two reads of entry 0: the second goes along what the first has drawn. -/
theorem fetchPath_getElem_readTwice : ∃ o st s,
    newPathOram (Cipher.pairing 8) BufferAddrs.numbered .eight 2 ⟨1, ⟨emptyClient 8, .filled none⟩⟩ =
        some (o, st) ∧
      [OramAccess.mk (fun _ => ⟨.of 3, .of 5⟩) ⟨0, fun _ => 0, 0, 0⟩,
          OramAccess.mk (fun _ => ⟨.of 4, .of 6⟩) ⟨0, fun _ => 0, 0, 0⟩].foldlM
        (runAccess (Cipher.pairing 8) .eight) ⟨o, st.world, [], []⟩ = some s ∧
      s.fetchPaths[0]? = some 5 ∧ s.fetchPaths[1]? = some 3 := by
  have hK := Cipher.pairing_correct 8
  obtain ⟨o, st, hnew⟩ := newPathOram_completes (Cipher.pairing 8) BufferAddrs.numbered .eight rfl 2
    (by decide) ⟨1, ⟨emptyClient 8, .filled none⟩⟩
  obtain ⟨h8, t, rfl, h₀⟩ := newPathOram_base_inv hK (by decide) hnew
  have hreq : ∀ x ∈ [OramAccess.mk (fun _ => ⟨.of 3, .of 5⟩) ⟨0, fun _ => 0, 0, 0⟩,
      OramAccess.mk (fun _ => ⟨.of 4, .of 6⟩) ⟨0, fun _ => 0, 0, 0⟩],
      x.req.ind < 2 ∧ x.req.writeOffset + x.req.writeSize ≤ 8 := by simp
  obtain ⟨s, hrun⟩ := h₀.run_completes h8 (by decide) hK BlockSize.eight_val (by decide) hreq
  have hpaths := (fetchPath_getElem hK (by decide) (by decide) hnew (fun x hx => (hreq x hx).2) hrun).2
  exact ⟨_, st, s, hnew, hrun, hpaths 0 (by decide), hpaths 1 (by decide)⟩

/-! ## The stash limit -/

/-- Nothing is left in the tree if every block has the path that is downloaded. -/
theorem OnAccess.treeBag_eq_zero {t : MemTree N} {w : World bs B} {p : BlockPath}
    {M : BlockKey → Option (BlockPath × Block bs)} (h : OnAccess K A t w p M) (hall : ∀ k v, M k = some v → v.1 = p) :
    treeBag K t w.host.bufs (pathNodes p t.height) = 0 := by
  apply Multiset.eq_zero_of_forall_notMem
  intro b hb
  obtain ⟨n, hn, hoff, hbn⟩ := mem_treeBag.mp hb
  obtain ⟨g, hg, rfl⟩ := h.tree.placed n hn b hbn
  have hpath : b.path = p := hall _ _ (h.holds.mem (Multiset.mem_add.mpr (Or.inr hb)))
  exact hoff (mem_pathNodes.mpr ⟨g, hg, by rw [hpath]⟩)

/-- An access along the path that all blocks have moves all of them into the stash, so the stash must hold
them together with the block that is put. -/
theorem accessLevel_room (h8 : 8 ∣ bs) {t : MemTree N} {w : World bs B}
    {M : BlockKey → Option (BlockPath × Block bs)} (hinv : TreeInv K A t w ∅ M) {p q : BlockPath} {key : BlockKey}
    (hkey : key ≠ 0) (hall : ∀ k v, M k = some v → v.1 = p) {req : Request} {r : LevelResult bs N B}
    (hrun : accessLevel K sz t p q key req w = some r) {keys : Finset BlockKey}
    (hkeys : ∀ k ∈ keys, ∃ v, M k = some v) :
    (insert key keys).card ≤ clientMaxPath * blocksPerNode := by
  obtain ⟨f, w', hfetch, hput, -⟩ := accessLevel_eq_some.mp hrun
  obtain ⟨hon, -⟩ := hinv.memTreeFetch h8 (hall key) hfetch
  obtain ⟨hon', -⟩ := hon.memTreePut h8 hkey (Function.update_self _ _ _) hput
  have htree : treeBag K t w'.host.bufs (pathNodes p t.height) = 0 := by
    obtain ⟨pr, -, rfl⟩ := memTreePut_eq_some.mp hput
    refine hon.treeBag_eq_zero fun k v hk => ?_
    by_cases hkk : k = key
    · rw [hkk, Function.update_self] at hk
      cases hk
    · rw [Function.update_of_ne hkk] at hk
      exact hall k v hk
  have hbound : ∀ k ∈ insert key keys, ∃ v,
      Function.update (Function.update M key none) key (some (q, f.fetchedBlock.written req)) k = some v := by
    intro k hk
    rw [Function.update_idem]
    by_cases hkk : k = key
    · exact ⟨_, by rw [hkk, Function.update_self]⟩
    · rw [Function.update_of_ne hkk]
      exact hkeys k ((Finset.mem_insert.mp hk).resolve_left hkk)
  have hle := hon'.holds.le_card hbound
  rw [htree, add_zero] at hle
  exact hle.trans (card_stashBag_le _)

theorem DrawnInv.access_completes (h8 : 8 ∣ bs) (hbs : 0 < bs) (hcap : capacity ≤ maxPosMap)
    {done : List OramAccess} {s : OramRun bs N B} {t : MemTree N} {M : BlockKey → Option (BlockPath × Block bs)}
    (h : DrawnInv K A capacity done s t M) {a : OramAccess} (hind : a.req.ind < capacity)
    (hroom : (accessedKeys (done ++ [a])).card ≤ clientMaxPath * blocksPerNode) :
    ∃ s', runAccess K sz s a = some s' := by
  have husable := sz.usable (show bs / sizeofBlockPath ≠ 0 by
    have : 8 ≤ bs := Nat.le_of_dvd hbs h8
    unfold sizeofBlockPath
    omega)
  have hkeys : KeysIn M (accessedKeys (done ++ [a])) := fun k v hk => by
    rw [accessedKeys_concat]
    exact Finset.mem_insert_of_mem ((h.keys k).mpr ⟨v, hk⟩)
  obtain ⟨l, hl⟩ := accessLevel_completes h8 sz
    (h.base.inv.withPathMm (Function.update s.world.client.pathMm a.req.ind (a.draws 0).newBlockPath))
    (a.draws 0).newBlockPath (keyOf_ne_zero (keyOf_bound hcap hind)) (h.base.entries.path hind (a.draws 0).freshPath)
    a.req hkeys (by rw [accessedKeys_concat]; exact Finset.mem_insert_self _ _) hroom
  exact ⟨_, (runAccess_base h.oram).mpr ⟨⟨hind, husable⟩, l, hl, rfl⟩⟩

/-- If all draws are one path, a completed access has found room for all entries accessed. -/
theorem DrawnInv.access_room (h8 : 8 ∣ bs) (hcap : capacity ≤ maxPosMap) {done : List OramAccess}
    {s s' : OramRun bs N B} {t : MemTree N} {M : BlockKey → Option (BlockPath × Block bs)}
    (h : DrawnInv K A capacity done s t M) {a : OramAccess} {p : RandPath}
    (hdone : ∀ x ∈ done, (x.draws 0).newBlockPath = p) (ha : (a.draws 0).freshPath = p)
    (hrun : runAccess K sz s a = some s') :
    (accessedKeys (done ++ [a])).card ≤ clientMaxPath * blocksPerNode := by
  obtain ⟨⟨hind, -⟩, l, hlevel, -⟩ := (runAccess_base h.oram).mp hrun
  have hpos : ∀ ind, s.world.client.pathMm ind = 0 ∨ s.world.client.pathMm ind = p.1 := by
    intro ind
    rw [h.positions ind, positions_eq_find]
    cases hfind : (done.map OramAccess.redraw).reverse.find? fun x => x.name = ind with
    | none => exact Or.inl rfl
    | some x =>
      obtain ⟨y, hy, rfl⟩ := List.mem_map.mp (List.mem_reverse.mp (List.mem_of_find?_eq_some hfind))
      exact Or.inr (congrArg Subtype.val (hdone y hy))
  have hpath : orFresh (s.world.client.pathMm a.req.ind) (a.draws 0).freshPath = p.1 := by
    rcases hpos a.req.ind with h0 | hp
    · rw [h0, ha]
      exact if_pos rfl
    · rw [hp]
      exact if_neg p.2
  rw [hpath] at hlevel
  rw [accessedKeys_concat]
  refine accessLevel_room h8 (h.base.inv.withPathMm _) (keyOf_ne_zero (keyOf_bound hcap hind)) (fun k v hk => ?_)
    hlevel fun k hk => (h.keys k).mp hk
  obtain ⟨ind, hlt, rfl⟩ := h.base.entries.keys k v hk
  obtain ⟨hne, heq⟩ := h.base.entries.position ind hlt v hk
  exact heq ▸ (hpos ind).resolve_left (heq ▸ hne)

/-! ## Accesses with given draws -/

/-- The requests `reqs`; the access of request `i` draws the path `D (.inl i)`, and `D (.inr i)` if it needs a
second draw. -/
def accessesOf {n : Nat} (reqs : Fin n → Request) (D : Fin n ⊕ Fin n → RandPath) : List OramAccess :=
  List.ofFn fun i => ⟨fun _ => ⟨D (.inl i), D (.inr i)⟩, reqs i⟩

theorem mem_accessesOf {n : Nat} {reqs : Fin n → Request} {D : Fin n ⊕ Fin n → RandPath} {a : OramAccess} :
    a ∈ accessesOf reqs D ↔ ∃ i, (⟨fun _ => ⟨D (.inl i), D (.inr i)⟩, reqs i⟩ : OramAccess) = a := by
  rw [accessesOf, List.mem_ofFn]

theorem redraw_accessesOf {n : Nat} (reqs : Fin n → Request) (D : Fin n ⊕ Fin n → RandPath) :
    (accessesOf reqs D).map OramAccess.redraw = accesses (fun i => (reqs i).ind) D := by
  rw [accessesOf, List.map_ofFn]
  rfl

/-- The entries that requests access. -/
def entriesOf {n : Nat} (reqs : Fin n → Request) : Finset Nat := Finset.univ.image fun i => (reqs i).ind

theorem card_accessedKeys {n : Nat} {reqs : Fin n → Request} (hcap : capacity ≤ maxPosMap)
    (hind : ∀ i, (reqs i).ind < capacity) (D : Fin n ⊕ Fin n → RandPath) :
    (accessedKeys (accessesOf reqs D)).card = (entriesOf reqs).card := by
  have heq : accessedKeys (accessesOf reqs D) = (entriesOf reqs).image keyOf := by
    ext k
    simp [accessedKeys, entriesOf, mem_accessesOf]
  rw [heq, Finset.card_image_of_injOn]
  intro x hx y hy hxy
  obtain ⟨i, -, rfl⟩ := Finset.mem_image.mp hx
  obtain ⟨j, -, rfl⟩ := Finset.mem_image.mp hy
  exact keyOf_inj (keyOf_bound hcap (hind i)) (keyOf_bound hcap (hind j)) hxy

theorem accessedKeys_mono {done as : List OramAccess} (h : done <+: as) : accessedKeys done ⊆ accessedKeys as := by
  intro k hk
  simp only [accessedKeys, List.mem_toFinset, List.mem_map] at hk ⊢
  obtain ⟨a, ha, rfl⟩ := hk
  exact ⟨a, h.subset ha, rfl⟩

theorem completes (hK : K.Correct) (hsz : sz.val = bs) (hbs : 0 < bs) (hcap : capacity ≤ maxPosMap) {w : World bs B}
    {o : PathOram N} {st : Process bs B} (hnew : newPathOram K A sz capacity ⟨1, w⟩ = some (o, st)) {n : Nat}
    {reqs : Fin n → Request} (hreq : ∀ i, (reqs i).ind < capacity ∧ (reqs i).writeOffset + (reqs i).writeSize ≤ bs)
    (hroom : (entriesOf reqs).card ≤ clientMaxPath * blocksPerNode) (D : Fin n ⊕ Fin n → RandPath) :
    ∃ s, (accessesOf reqs D).foldlM (runAccess K sz) ⟨o, st.world, [], []⟩ = some s := by
  have hmem : ∀ a ∈ accessesOf reqs D, a.req.ind < capacity ∧ a.req.writeOffset + a.req.writeSize ≤ bs := by
    intro a ha
    obtain ⟨i, rfl⟩ := mem_accessesOf.mp ha
    exact hreq i
  have h8 := (DrawnInv.start hK hcap hnew).1
  refine foldlM_completes _ _ fun done a s hpre hrun => ?_
  obtain ⟨t, M, h⟩ := drawn_run hK hsz hcap hnew
    (fun x hx => (hmem x (hpre.subset (List.mem_append_left _ hx))).2) hrun
  apply h.access_completes h8 hbs hcap (hmem a (mem_of_step hpre)).1
  rw [← card_accessedKeys hcap (fun i => (hreq i).1) D] at hroom
  exact (Finset.card_le_card (accessedKeys_mono hpre)).trans hroom

/-- With one path for all draws, the accesses complete only if the stash has a slot for every entry. -/
theorem room_of_completes (hK : K.Correct) (hsz : sz.val = bs) (hcap : capacity ≤ maxPosMap) {w : World bs B}
    {o : PathOram N} {st : Process bs B} (hnew : newPathOram K A sz capacity ⟨1, w⟩ = some (o, st)) {n : Nat}
    {reqs : Fin n → Request} (hreq : ∀ i, (reqs i).ind < capacity ∧ (reqs i).writeOffset + (reqs i).writeSize ≤ bs)
    {p : RandPath} {s : OramRun bs N B}
    (hrun : (accessesOf reqs fun _ => p).foldlM (runAccess K sz) ⟨o, st.world, [], []⟩ = some s) :
    (entriesOf reqs).card ≤ clientMaxPath * blocksPerNode := by
  have h8 := (DrawnInv.start hK hcap hnew).1
  rw [← card_accessedKeys hcap (fun i => (hreq i).1) fun _ => p]
  have hmem : ∀ a ∈ accessesOf reqs fun _ => p, (a.draws 0).newBlockPath = p ∧ (a.draws 0).freshPath = p ∧
      a.req.writeOffset + a.req.writeSize ≤ bs := by
    intro a ha
    obtain ⟨i, rfl⟩ := mem_accessesOf.mp ha
    exact ⟨rfl, rfl, (hreq i).2⟩
  rcases List.eq_nil_or_concat' (accessesOf reqs fun _ => p) with hnil | ⟨done, a, hsplit⟩
  · rw [hnil]
    exact Nat.zero_le _
  · rw [hsplit, foldlM_append_eq_some] at hrun
    obtain ⟨u, hu, hstep⟩ := hrun
    rw [hsplit] at hmem ⊢
    obtain ⟨t, M, h⟩ := drawn_run hK hsz hcap hnew (fun x hx => (hmem x (List.mem_append_left _ hx)).2.2) hu
    exact h.access_room h8 hcap (fun x hx => (hmem x (List.mem_append_left _ hx)).1)
      (hmem a (List.mem_append_right _ (List.mem_singleton_self a))).2.1 (by simpa using hstep)

/-- Requests complete whatever is drawn exactly when they access no more entries than the stash has slots. -/
theorem completes_iff (hK : K.Correct) (hsz : sz.val < 2 ^ 32) (hbs : 0 < bs) (hcap : capacity ≤ maxPosMap)
    {w : World bs B} {o : PathOram N} {st : Process bs B} (hnew : newPathOram K A sz capacity ⟨1, w⟩ = some (o, st))
    {n : Nat} {reqs : Fin n → Request}
    (hreq : ∀ i, (reqs i).ind < capacity ∧ (reqs i).writeOffset + (reqs i).writeSize ≤ bs) :
    (∀ D : Fin n ⊕ Fin n → RandPath, ∃ s,
        (accessesOf reqs D).foldlM (runAccess K sz) ⟨o, st.world, [], []⟩ = some s) ↔
      (entriesOf reqs).card ≤ clientMaxPath * blocksPerNode := by
  constructor
  · intro h
    obtain ⟨s, hs⟩ := h fun _ => RandPath.of 1
    exact room_of_completes hK (sz.eq_of_lt hsz) hcap hnew hreq hs
  · exact completes hK (sz.eq_of_lt hsz) hbs hcap hnew hreq

/-- Some draws let an assert fail in 81 reads of different entries. -/
theorem completes_iff_reads : ∃ o st,
    newPathOram (Cipher.pairing 8) BufferAddrs.numbered .eight 100 ⟨1, ⟨emptyClient 8, .filled none⟩⟩ =
        some (o, st) ∧
      ¬ ∀ D : Fin 81 ⊕ Fin 81 → RandPath, ∃ s, (accessesOf (fun i => ⟨i, fun _ => 0, 0, 0⟩) D).foldlM
        (runAccess (Cipher.pairing 8) .eight) ⟨o, st.world, [], []⟩ = some s := by
  obtain ⟨t, st, ht⟩ := newTree_completes rfl (Cipher.pairing 8) BufferAddrs.numbered 1
    (computeTreeHeight_lt_clientMaxPath (show 100 ≤ maxPosMap by decide))
    ⟨2, ⟨emptyClient 8, .filled none⟩⟩
  have hnew : newPathOram (Cipher.pairing 8) BufferAddrs.numbered .eight 100
      ⟨1, ⟨emptyClient 8, .filled none⟩⟩ = some (.base 100 t, st) :=
    (newPathOram_base_eq_some (show 100 ≤ maxPosMap by decide)).mpr ⟨t, ht, rfl⟩
  refine ⟨_, st, hnew, fun h => ?_⟩
  have hreq : ∀ i : Fin 81, (Request.mk i (fun _ => 0) 0 0).ind < 100 ∧ 0 + 0 ≤ 8 := fun i =>
    ⟨i.2.trans (by decide), Nat.zero_le 8⟩
  have hle := (completes_iff (Cipher.pairing_correct 8) (by decide) (by decide) (by decide) hnew hreq).mp h
  rw [entriesOf, Finset.card_image_of_injective _ fun i j hij => Fin.ext hij, Finset.card_fin] at hle
  exact absurd hle (by decide)

end SgxOram
