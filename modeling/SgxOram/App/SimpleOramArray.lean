import SgxOram.App.SimpleStore

/-!
# `SimpleORAM` is an array

The trees of an object share `client->path`. The rows from the height of the outermost tree on stay empty, so
that it answers as an array. An inner tree may find rows of a taller tree when it does not hold its key; then
the bytes that it answers with are not known, but nobody reads them as positions.

* `Known`, `Agrees`, `Recorded` : a tree that holds the known bytes of an array;
* `SimpleInv` : an object, each level with the positions that the next one knows;
* `SimpleInv.access`, by induction on the object; `ArrayRun` : runs;
* `isSimpleArray_of_lt` : an object whose block size is positive and not truncated is an array.
-/

namespace SgxOram
open Lib

variable {bs : Nat} {N B : Type} {D : Build bs N B} {A : BufferAddrs} {sz : BlockSize bs}

/-! ## Known bytes -/

/-- Byte `j` of entry `ind` is known. -/
abbrev Known := Nat → Nat → Prop

/-- A request makes the bytes known that it writes. -/
def Known.write (κ : Known) (req : Request) : Known := fun ind j =>
  κ ind j ∨ ind = req.ind ∧ req.writeOffset ≤ j ∧ j < req.writeOffset + req.writeSize

/-- The byte of the entry that is copied to byte `j` of the caller's buffer. -/
def Request.source (req : Request) (j : Nat) : Nat := if req.writeSize > 0 then req.writeOffset + j else j

/-- The block holds the known bytes of entry `ind`. -/
def Agrees (κ : Known) (a : ArrayStore) (ind : Nat) (b : Block bs) : Prop := ∀ j < bs, κ ind j → b.byte j = a ind j

/-- The copies of an access on a block that holds the known bytes of its entry. -/
theorem Agrees.exchange {κ : Known} {a : ArrayStore} {req : Request} {b : Block bs} (h : Agrees κ a req.ind b)
    (hsz : sz.val = bs) (hfit : req.writeOffset + req.writeSize ≤ bs) (rest : Buffer) :
    Agrees (κ.write req) (a.write req) req.ind (b.written req) ∧
      ∀ j, κ req.ind (req.source j) → (sz.copies rest b req).block j = a.copyOut bs req j := by
  have hover : ∀ j < bs, κ req.ind j → b.over rest j = a req.ind j := fun j hj hknown => by
    rw [← h j hj hknown, Block.over, dif_pos hj, Block.byte_lt b hj]
  refine ⟨fun j hj hknown => ?_, fun j => ?_⟩
  · rw [Block.written_byte b req hj]
    unfold ArrayStore.write
    by_cases hin : req.writeOffset ≤ j ∧ j < req.writeOffset + req.writeSize
    · rw [if_pos hin, if_pos ⟨rfl, hin⟩]
    · rw [if_neg hin, if_neg fun hc => hin hc.2]
      exact h j hj (hknown.resolve_right fun hc => hin hc.2)
  · unfold BlockSize.copies exchangeBytes ArrayStore.copyOut Request.source
    rw [hsz]
    by_cases hsize : req.writeSize > 0
    · rw [if_pos hsize, if_pos hsize, if_pos hsize]
      intro hknown
      by_cases hj : j < req.writeSize
      · simp only [hj, if_true]
        exact hover _ (by omega) hknown
      · simp only [hj, if_false]
    · rw [if_neg hsize, if_neg hsize, if_neg hsize]
      intro hknown
      by_cases hj : j < bs
      · simp only [hj, if_true]
        exact hover j hj hknown
      · simp only [hj, if_false]

theorem Agrees.write_of_ne {κ : Known} {a : ArrayStore} {req : Request} {ind : Nat} {b : Block bs}
    (h : Agrees κ a ind b) (hne : ind ≠ req.ind) : Agrees (κ.write req) (a.write req) ind b := by
  intro j hj hknown
  unfold ArrayStore.write
  rw [if_neg fun hc => hne hc.1]
  exact h j hj (hknown.resolve_right fun hc => hne hc.1)

/-- The map `M` holds the known bytes of the entries of `a`, each under its position. Of an entry that it does
not hold no byte is known, except that the outermost tree (`top`) answers with zeros. -/
structure Recorded (top : Prop) (capacity : Nat) (position : Nat → BlockPath) (a : ArrayStore) (κ : Known)
    (M : BlockKey → Option (BlockPath × Block bs)) : Prop where
  position : ∀ ind < capacity, ∀ v, M (keyOf ind) = some v → position ind = v.1
  content : ∀ ind < capacity, ∀ v, M (keyOf ind) = some v → Agrees κ a ind v.2
  absent : ∀ ind < capacity, M (keyOf ind) = none → ∀ j < bs, κ ind j → top ∧ a ind j = 0

section Recorded
variable {top : Prop} {capacity : Nat} {position : Nat → BlockPath} {a : ArrayStore} {κ : Known}
  {M : BlockKey → Option (BlockPath × Block bs)}

theorem recorded_zero (top : Prop) (capacity : Nat) (position : Nat → BlockPath) :
    Recorded top capacity position ArrayStore.zero (fun _ _ => top) fun _ => (none : Option (BlockPath × Block bs)) where
  position _ _ _ hv := by cases hv
  content _ _ _ hv := by cases hv
  absent _ _ _ _ _ htop := ⟨htop, rfl⟩

/-- The block that a fetch delivers. -/
theorem Recorded.fetched (h : Recorded top capacity position a κ M) {ind : Nat} (hind : ind < capacity) {b : Block bs}
    (hsome : ∀ v, M (keyOf ind) = some v → b = v.2) (hnone : M (keyOf ind) = none → top → b = zeroBlock bs) :
    Agrees κ a ind b := by
  cases hM : M (keyOf ind) with
  | some v =>
    rw [hsome v hM]
    exact h.content ind hind v hM
  | none =>
    intro j hj hknown
    obtain ⟨htop, hzero⟩ := h.absent ind hind hM j hj hknown
    rw [hnone hM htop, Block.byte_zeroBlock, hzero]

/-- An access binds its key anew. -/
theorem Recorded.access (h : Recorded top capacity position a κ M) (hcap : capacity < 2 ^ 32) {req : Request}
    (hind : req.ind < capacity) {b : Block bs} (hb : Agrees (κ.write req) (a.write req) req.ind b) (q : BlockPath) :
    Recorded top capacity (Function.update position req.ind q) (a.write req) (κ.write req)
      (Function.update M (keyOf req.ind) (some (q, b))) := by
  have hkey : ∀ ind < capacity, ind ≠ req.ind → keyOf ind ≠ keyOf req.ind := by
    intro ind hlt hne heq
    exact hne (keyOf_inj (by omega) (by omega) heq)
  refine ⟨fun ind hlt v hv => ?_, fun ind hlt v hv => ?_, fun ind hlt hnone j hj hknown => ?_⟩ <;>
    by_cases hi : ind = req.ind
  · subst hi
    rw [Function.update_self] at hv ⊢
    obtain rfl := Option.some.inj hv
    rfl
  · rw [Function.update_of_ne (hkey ind hlt hi)] at hv
    rw [Function.update_of_ne hi]
    exact h.position ind hlt v hv
  · subst hi
    rw [Function.update_self] at hv
    obtain rfl := Option.some.inj hv
    exact hb
  · rw [Function.update_of_ne (hkey ind hlt hi)] at hv
    exact (h.content ind hlt v hv).write_of_ne hi
  · subst hi
    rw [Function.update_self] at hnone
    cases hnone
  · rw [Function.update_of_ne (hkey ind hlt hi)] at hnone
    unfold ArrayStore.write
    rw [if_neg fun hc => hi hc.1]
    exact h.absent ind hlt hnone j hj (hknown.resolve_right fun hc => hi hc.1)

end Recorded

/-! ## One level -/

/-- What one level of an access does when its tree holds `M`. -/
structure SimpleLevelDone (D : Build bs N B) (A : BufferAddrs) (sz : BlockSize bs) (id : Nat) (t : MemTree N)
    (q : BlockPath) (key : BlockKey) (req : Request) (w : World bs B) (M : BlockKey → Option (BlockPath × Block bs))
    (b : Block bs) (l : SimpleLevel bs N B) : Prop where
  found : ∀ v, M key = some v → b = v.2
  absent : M key = none → (∀ r, t.height ≤ r → (w.client.path r).bag = 0) → b = zeroBlock bs
  block : l.block = (sz.copies (w.host.fetched t.treeId) b req).block
  stored : SimpleStored D A id l.tree l.world.host.bufs (Function.update M key (some (q, b.written req)))
  step : TreeStep A t w.host.bufs l.tree l.world.host.bufs
  client : ClientStep t.height w.client l.world.client

theorem accessSimpleLevel_spec (hD : D.Correct) {id : Nat} {t : MemTree N} {w : World bs B}
    {M : BlockKey → Option (BlockPath × Block bs)} (h : SimpleStored D A id t w.host.bufs M) (h1 : 1 ≤ t.height)
    {p : BlockPath} {draws : SimpleDraws} {key : BlockKey} (hkey : key ≠ 0) (hpath : ∀ v, M key = some v → v.1 = p)
    {req : Request} {l : SimpleLevel bs N B} (hrun : accessSimpleLevel D sz t p draws key req w = some l) :
    ∃ b, SimpleLevelDone D A sz id t draws.newBlockPath key req w M b l := by
  rw [accessSimpleLevel_eq, Option.map_eq_some_iff] at hrun
  obtain ⟨put, hput, rfl⟩ := hrun
  have hfetch := memTreeFetch_client hD h.sound p key
  obtain ⟨htree, hstep⟩ := h.sound.fetch hD p key
  have hput1 : 1 ≤ (memTreeFetch D t p key w).tree.height := hstep.height.symm ▸ h1
  obtain ⟨hstored, hfound, habsent⟩ := h.fetch hD h1 hpath
  have hbound := hstored.put hD hkey (Function.update_self key none M) hput
  rw [Function.update_idem] at hbound
  have hputRows := (htree.put hD hput).2
  have hclient := hfetch.trans (hstep.height ▸ memTreePut_client hD htree hput1 hput)
  have hstep' := hstep.trans hputRows.step
  generalize hb : (memTreeFetch D t p key w).fetchedBlock = b at hput hfound habsent hbound
  have hflush := hbound.sound.flush hD draws.flushPath
  have hflushed := memTreeFlush_client hD hbound.sound draws.flushPath
  rw [hstep'.height] at hflushed
  rw [flushRoot_eq hD htree hput]
  exact ⟨b, hfound, habsent, rfl, hbound.flush hD draws.flushPath, hstep'.trans hflush.2, hclient.trans hflushed⟩

/-! ## Objects -/

/-- The bytes of the position of entry `ind` are known. -/
def PositionKnown (bs : Nat) (κ : Known) (ind : Nat) : Prop :=
  ∀ j < sizeofBlockPath, κ (ind / (bs / sizeofBlockPath)) (ind % (bs / sizeofBlockPath) * sizeofBlockPath + j)

theorem PositionKnown.write {κ : Known} {ind : Nat} (h : PositionKnown bs κ ind) (req : Request) :
    PositionKnown bs (κ.write req) ind := fun j hj => Or.inl (h j hj)

theorem positionKnown_write (κ : Known) (ind : Nat) (q : BlockPath) :
    PositionKnown bs (κ.write (posMapRequest bs ind q)) ind := fun _ hj =>
  Or.inr ⟨rfl, Nat.le_add_right _ _, Nat.add_lt_add_left hj _⟩

/-- A known position comes back from the next object. -/
theorem PositionKnown.read {κ : Known} {a : ArrayStore} {ind : Nat} (h : PositionKnown bs κ ind) {q : BlockPath}
    {block : Buffer} (hblock : ∀ j, κ (posMapRequest bs ind q).ind ((posMapRequest bs ind q).source j) →
      block j = a.copyOut bs (posMapRequest bs ind q) j) :
    pathOfBuffer block = storedPosition bs a ind := by
  rw [← pathOfBuffer_copyOut a ind q]
  refine pathOfBuffer_congr fun j hj => hblock j ?_
  have hsource : (posMapRequest bs ind q).source j = ind % (bs / sizeofBlockPath) * sizeofBlockPath + j :=
    if_pos (Nat.zero_lt_succ 3)
  rw [hsource]
  exact h j hj

/-- The tree of the outermost level. -/
def SimpleOram.tree : SimpleOram N → MemTree N
  | .base _ t => t
  | .recursive _ t _ => t

/-- One tree of an object. -/
structure SimpleLevelInv (D : Build bs N B) (A : BufferAddrs) (top : Prop) (id capacity : Nat) (t : MemTree N)
    (bufs : Addr → B) (position : Nat → BlockPath) (a : ArrayStore) (κ : Known)
    (M : BlockKey → Option (BlockPath × Block bs)) : Prop where
  height : t.height = computeTreeHeight capacity
  stored : SimpleStored D A id t bufs M
  recorded : Recorded top capacity position a κ M

/-- The trees of an object hold the known bytes of their arrays. The positions of one level are the array of the
next, where those of the keys that the level holds are known. -/
inductive SimpleInv (D : Build bs N B) (A : BufferAddrs) (bufs : Addr → B) (pathMm : Nat → BlockPath) :
    Prop → Nat → SimpleOram N → ArrayStore → Known → Prop
  | base {top : Prop} {id capacity : Nat} {t : MemTree N} {a : ArrayStore} {κ : Known}
      {M : BlockKey → Option (BlockPath × Block bs)} (level : SimpleLevelInv D A top id capacity t bufs pathMm a κ M) :
      SimpleInv D A bufs pathMm top id (.base capacity t) a κ
  | recursive {top : Prop} {id capacity : Nat} {t : MemTree N} {o : SimpleOram N} {a a' : ArrayStore} {κ κ' : Known}
      {M : BlockKey → Option (BlockPath × Block bs)}
      (level : SimpleLevelInv D A top id capacity t bufs (storedPosition bs a') a κ M)
      (known : ∀ ind < capacity, M (keyOf ind) ≠ none → PositionKnown bs κ' ind)
      (lower : o.tree.height ≤ t.height) (inner : SimpleInv D A bufs pathMm False (id + 1) o a' κ') :
      SimpleInv D A bufs pathMm top id (.recursive capacity t o) a κ

section Objects
variable {top : Prop} {id capacity : Nat} {t : MemTree N} {a : ArrayStore} {κ : Known}
  {M : BlockKey → Option (BlockPath × Block bs)} {position : Nat → BlockPath}

theorem SimpleLevelInv.frame {bufs bufs' : Addr → B} (h : SimpleLevelInv D A top id capacity t bufs position a κ M)
    (hb : SameBufs A {id} bufs bufs') : SimpleLevelInv D A top id capacity t bufs' position a κ M :=
  ⟨h.height, h.stored.frame hb, h.recorded⟩

/-- An object whose trees are left alone. -/
theorem SimpleInv.frame {bufs bufs' : Addr → B} {pathMm : Nat → BlockPath} {o : SimpleOram N}
    (h : SimpleInv D A bufs pathMm top id o a κ) (hb : SameBufs A (Set.Ici id) bufs bufs') :
    SimpleInv D A bufs' pathMm top id o a κ := by
  induction h with
  | base level => exact .base (level.frame (hb.mono (Set.singleton_subset_iff.mpr Set.self_mem_Ici)))
  | @recursive _ id _ _ _ _ _ _ _ _ level known lower _ ih =>
    have hlevel := level.frame (hb.mono (Set.singleton_subset_iff.mpr Set.self_mem_Ici))
    exact .recursive hlevel known lower (ih (hb.mono (Set.Ici_subset_Ici.mpr (Nat.le_succ id))))

theorem SimpleLevelInv.lt_two_pow {bufs : Addr → B} (h : SimpleLevelInv D A top id capacity t bufs position a κ M) :
    capacity < 2 ^ t.height := h.height ▸ lt_two_pow_computeTreeHeight capacity

theorem SimpleLevelInv.bound {bufs : Addr → B} (h : SimpleLevelInv D A top id capacity t bufs position a κ M) :
    capacity < 2 ^ 32 :=
  h.lt_two_pow.trans (Nat.pow_lt_pow_right (by decide) (h.stored.sound.height.trans (by decide)))

/-- The positions known to the next object cover the keys of the level again when both have been accessed. -/
theorem SimpleLevelInv.known_access {bufs : Addr → B} (h : SimpleLevelInv D A top id capacity t bufs position a κ M)
    {κ' : Known} (known : ∀ ind < capacity, M (keyOf ind) ≠ none → PositionKnown bs κ' ind) {i : Nat}
    (hi : i < capacity) (v : BlockPath × Block bs) (q : BlockPath) : ∀ ind < capacity,
    Function.update M (keyOf i) (some v) (keyOf ind) ≠ none → PositionKnown bs (κ'.write (posMapRequest bs i q)) ind := by
  intro ind hind hne
  by_cases heq : ind = i
  · subst heq
    exact positionKnown_write κ' ind q
  · have hbound := h.bound
    have hkey : keyOf ind ≠ keyOf i := fun e => heq (keyOf_inj (by omega) (by omega) e)
    rw [Function.update_of_ne hkey] at hne
    exact (known ind hind hne).write _

/-- One level of an access, with the path of its key. -/
theorem SimpleLevelInv.access (hD : D.Correct) {w : World bs B}
    (h : SimpleLevelInv D A top id capacity t w.host.bufs position a κ M)
    (hclear : top → ∀ r, t.height ≤ r → (w.client.path r).bag = 0) {req : Request} (hind : req.ind < capacity)
    (hsz : sz.val = bs) (hfit : req.writeOffset + req.writeSize ≤ bs) {p : BlockPath}
    (hpath : M (keyOf req.ind) ≠ none → p = position req.ind) {draws : SimpleDraws} {l : SimpleLevel bs N B}
    (hrun : accessSimpleLevel D sz t p draws (keyOf req.ind) req w = some l) :
    (∀ j, κ req.ind (req.source j) → l.block j = a.copyOut bs req j) ∧
      (∃ b, SimpleLevelInv D A top id capacity l.tree l.world.host.bufs
        (Function.update position req.ind draws.newBlockPath) (a.write req) (κ.write req)
        (Function.update M (keyOf req.ind) (some (draws.newBlockPath.1, b)))) ∧
      TreeStep A t w.host.bufs l.tree l.world.host.bufs ∧ ClientStep t.height w.client l.world.client := by
  have hcap := h.lt_two_pow
  have h1 : 1 ≤ t.height := by
    by_contra h0
    obtain h0 : t.height = 0 := by omega
    rw [h0] at hcap
    omega
  have hbound := h.bound
  have hkey : keyOf req.ind ≠ 0 := keyOf_ne_zero (by omega)
  obtain ⟨b, hd⟩ := accessSimpleLevel_spec hD h.stored h1 hkey (fun v hv => by
    rw [hpath (by rw [hv]; exact Option.some_ne_none v), h.recorded.position req.ind hind v hv]) hrun
  have hfetched := h.recorded.fetched hind hd.found fun hnone htop => hd.absent hnone (hclear htop)
  obtain ⟨hagrees, hout⟩ := hfetched.exchange hsz hfit (w.host.fetched t.treeId)
  refine ⟨fun j hj => ?_, ⟨_, hd.step.height.trans h.height, hd.stored, ?_⟩, hd.step, hd.client⟩
  · rw [hd.block]
    exact hout j hj
  · exact h.recorded.access hbound hind hagrees draws.newBlockPath

/-- What an access to an object leaves. -/
structure SimpleAccessed (D : Build bs N B) (A : BufferAddrs) (top : Prop) (id : Nat) (o : SimpleOram N)
    (w : World bs B) (a : ArrayStore) (κ : Known) (req : Request) (r : SimpleResult bs N B) : Prop where
  block : ∀ j, κ req.ind (req.source j) → r.block j = a.copyOut bs req j
  inv : SimpleInv D A r.world.host.bufs r.world.client.pathMm top id r.oram (a.write req) (κ.write req)
  height : r.oram.tree.height = o.tree.height
  clear : ∀ x, o.tree.height ≤ x → (w.client.path x).bag = 0 → (r.world.client.path x).bag = 0
  others : SameBufs A (Set.Iio id) w.host.bufs r.world.host.bufs

theorem SimpleInv.access (hD : D.Correct) {w : World bs B} {o : SimpleOram N}
    (h : SimpleInv D A w.host.bufs w.client.pathMm top id o a κ)
    (hclear : top → ∀ x, o.tree.height ≤ x → (w.client.path x).bag = 0) {draws : Nat → SimpleDraws} {req : Request}
    (hsz : sz.val = bs) (hfit : req.writeOffset + req.writeSize ≤ bs) {r : SimpleResult bs N B}
    (hrun : accessSimpleOram D sz o draws req w = some r) : SimpleAccessed D A top id o w a κ req r := by
  generalize hb : w.host.bufs = bufs at h
  generalize hmm : w.client.pathMm = pathMm at h
  induction h generalizing draws req w r with
  | @base _ id capacity t a κ M level =>
    subst hb hmm
    obtain ⟨⟨hind, -⟩, l, hl, rfl⟩ := accessSimpleOram_base.mp hrun
    generalize hupd : Function.update w.client.pathMm req.ind (draws 0).newBlockPath.1 = mm at hl
    have hstart : SimpleLevelInv D A _ id capacity t (w.withPathMm mm).host.bufs w.client.pathMm a κ M := level
    obtain ⟨hblock, ⟨b, hlevel⟩, hstep, hclient⟩ := hstart.access hD hclear hind hsz hfit (fun _ => rfl) hl
    refine ⟨hblock, ?_, hstep.height, hclient.clear, ?_⟩
    · have hpathMm : l.world.client.pathMm = mm := hclient.pathMm
      rw [hupd, ← hpathMm] at hlevel
      exact .base hlevel
    · exact hstep.others.mono (level.stored.sound.treeId ▸ below_subset _)
  | @recursive _ id capacity t o a a' κ κ' M level known lower inner ih =>
    subst hb hmm
    obtain ⟨⟨hind, hbs⟩, i, l, hi, hl, rfl⟩ := accessSimpleOram_rec.mp hrun
    rw [hsz] at hbs hi
    have hin := ih (fun hfalse => hfalse.elim) (posMapRequest_fits hbs req.ind _) hi rfl rfl
    have hstart := level.frame (hin.others.mono (Set.singleton_subset_iff.mpr (Nat.lt_succ_self id)))
    obtain ⟨hblock, ⟨b, hlevel⟩, hstep, hclient⟩ := hstart.access hD
      (fun htop x hx => hin.clear x (lower.trans hx) (hclear htop x hx)) hind hsz hfit
      (fun hne => (known req.ind hind hne).read hin.block) hl
    have hid := level.stored.sound.treeId
    refine ⟨hblock, ?_, hstep.height, fun x hx h0 => ?_, ?_⟩
    · have hinner := hin.inv.frame (hstep.others.mono (hid ▸ above_subset _))
      rw [← hclient.pathMm] at hinner
      rw [← storedPosition_write] at hlevel
      refine .recursive hlevel (level.known_access known hind _ _) ?_ hinner
      rw [hstep.height, hin.height]
      exact lower
    · exact hclient.clear x hx (hin.clear x (lower.trans hx) h0)
    · exact (hin.others.mono (Set.Iio_subset_Iio (Nat.le_succ id))).trans
        (hstep.others.mono (hid ▸ below_subset _))

/-! ## Constructors -/

/-- A fresh tree. -/
theorem newSimpleTree_spec (hD : D.Correct) (hcap : computeTreeHeight capacity < clientMaxPath) {st st' : Process bs B}
    (hrun : newSimpleTree D A id capacity st = some (t, st')) :
    (∀ top position, SimpleLevelInv D A top id capacity t st'.world.host.bufs position ArrayStore.zero
        (fun _ _ => top) fun _ => none) ∧
      initClientOnce id capacity st.world.client = some st'.world.client ∧
      SameBufs A {id}ᶜ st.world.host.bufs st'.world.host.bufs := by
  rw [newSimpleTree_eq] at hrun
  simp only [Option.bind_eq_some_iff, Option.map_eq_some_iff, Prod.mk.injEq] at hrun
  obtain ⟨c, hc, ⟨t', host⟩, ht, rfl, rfl⟩ := hrun
  obtain ⟨h8, hfresh, hothers⟩ := initialize_fresh hD ht
  refine ⟨fun top position => ⟨hfresh.height, hfresh.stored h8 hcap, recorded_zero top capacity position⟩, hc, ?_⟩
  exact fun id' hid n i => hothers id' n i hid

theorem newSimpleOram_spec (hD : D.Correct) (capacity : Nat) (hcap : computeTreeHeight capacity < clientMaxPath)
    {st st' : Process bs B} {o : SimpleOram N} (hrun : newSimpleOram D A sz capacity st = some (o, st')) :
    o.tree.height = computeTreeHeight capacity ∧
      (∀ top pathMm, SimpleInv D A st'.world.host.bufs pathMm top st.nextOramId o ArrayStore.zero fun _ _ => top) ∧
      ∃ c, initClientOnce st.nextOramId capacity c = some st'.world.client := by
  induction capacity using Nat.strong_induction_on generalizing st st' o with
  | _ capacity ih =>
    by_cases hbase : capacity ≤ maxPosMap
    · rw [newSimpleOram_base D A sz hbase] at hrun
      simp only [Option.map_eq_some_iff, Prod.mk.injEq] at hrun
      obtain ⟨⟨t, st₁⟩, ht, rfl, rfl⟩ := hrun
      obtain ⟨hlevel, hclient, -⟩ := newSimpleTree_spec hD hcap ht
      exact ⟨(hlevel False fun _ => 0).height, fun top pathMm => .base (hlevel top pathMm), _, hclient⟩
    · rw [not_le] at hbase
      rw [newSimpleOram_rec D A sz hbase] at hrun
      simp only [Option.ite_none_right_eq_some, Option.bind_eq_some_iff, Option.map_eq_some_iff, Prod.mk.injEq] at hrun
      obtain ⟨hn, ⟨o₁, st₁⟩, ho, ⟨t, st₂⟩, ht, rfl, rfl⟩ := hrun
      have hlt := higherCapacity_lt hbase hn.2
      have hle := computeTreeHeight_mono hlt.le
      obtain ⟨hheight, hinv, -⟩ := ih _ hlt (lt_of_le_of_lt hle hcap) ho
      obtain ⟨hlevel, hclient, hothers⟩ := newSimpleTree_spec hD hcap ht
      have htree := (hlevel False fun _ => 0).height
      refine ⟨htree, fun top pathMm => .recursive (hlevel top _) (fun _ _ hne => absurd rfl hne) ?_
        ((hinv False pathMm).frame (hothers.mono (above_subset _))), _, hclient⟩
      rw [hheight, htree]
      exact hle

end Objects

/-! ## Runs -/

/-- A run of the only object of a process, after the requests `reqs`. -/
structure ArrayRun (D : Build bs N B) (A : BufferAddrs) (reqs : List Request) (s : SimpleRun bs N B) : Prop where
  outs : s.outs = ArrayStore.zero.run bs reqs
  inv : ∃ κ : Known, (∀ ind j, κ ind j) ∧
    SimpleInv D A s.world.host.bufs s.world.client.pathMm True 1 s.oram (ArrayStore.zero.after reqs) κ
  clear : ∀ x, s.oram.tree.height ≤ x → (s.world.client.path x).bag = 0

theorem ArrayRun.access (hD : D.Correct) {reqs : List Request} {s s' : SimpleRun bs N B} (h : ArrayRun D A reqs s)
    {x : SimpleAccess} (hsz : sz.val = bs) (hfit : x.req.writeOffset + x.req.writeSize ≤ bs)
    (hrun : runSimpleAccess D sz s x = some s') : ArrayRun D A (reqs ++ [x.req]) s' := by
  obtain ⟨r, hr, rfl⟩ := runSimpleAccess_eq_some.mp hrun
  obtain ⟨κ, hknown, hinv⟩ := h.inv
  have hd := hinv.access hD (fun _ => h.clear) hsz hfit hr
  refine ⟨?_, ⟨κ.write x.req, fun ind j => Or.inl (hknown ind j), ?_⟩, fun y hy => ?_⟩
  · have hblock : r.block = (ArrayStore.zero.after reqs).copyOut bs x.req :=
      funext fun j => hd.block j (hknown _ _)
    rw [ArrayStore.run_append, h.outs, hblock]
  · rw [ArrayStore.after_append]
    exact hd.inv
  · rw [hd.height] at hy
    exact hd.clear y hy (h.clear y hy)

/-- A fresh object of a process. -/
theorem newSimpleOram_arrayRun (hD : D.Correct) {capacity : Nat} (hcap : computeTreeHeight capacity < clientMaxPath)
    {w : World bs B} {o : SimpleOram N} {st : Process bs B}
    (hnew : newSimpleOram D A sz capacity ⟨1, w⟩ = some (o, st)) :
    ArrayRun D A [] (⟨o, st.world, []⟩ : SimpleRun bs N B) := by
  obtain ⟨-, hinv, c, hc⟩ := newSimpleOram_spec hD capacity hcap hnew
  rw [initClientOnce, if_pos rfl, ecallInitClient, Option.ite_none_right_eq_some] at hc
  obtain ⟨-, hc⟩ := hc
  have hempty : ∀ x, (st.world.client.path x).bag = 0 := by
    rw [← Option.some.inj hc]
    exact fun x => Row.bag_of_empty fun _ => rfl
  exact ⟨rfl, ⟨fun _ _ => True, fun _ _ => trivial, hinv True _⟩, fun x _ => hempty x⟩

theorem ArrayRun.run (hD : D.Correct) (hsz : sz.val = bs) {s₀ s : SimpleRun bs N B} (h₀ : ArrayRun D A [] s₀)
    {as : List SimpleAccess} (hfit : ∀ x ∈ as, x.req.writeOffset + x.req.writeSize ≤ bs)
    (hrun : as.foldlM (runSimpleAccess D sz) s₀ = some s) : ArrayRun D A (as.map SimpleAccess.req) s :=
  foldlM_inv (P := fun done s => ArrayRun D A (done.map SimpleAccess.req) s) as s₀ s h₀
    (fun done x u v hpre hu hstep => by
      rw [List.map_append, List.map_cons, List.map_nil]
      exact hu.access hD hsz (hfit x (mem_of_step hpre)) hstep) hrun

theorem SimpleInv.dvd {bufs : Addr → B} {pathMm : Nat → BlockPath} {top : Prop} {id : Nat} {o : SimpleOram N}
    {a : ArrayStore} {κ : Known} (h : SimpleInv D A bufs pathMm top id o a κ) : 8 ∣ bs := by
  cases h with
  | base level => exact level.stored.sound.dvd
  | recursive level _ _ _ => exact level.stored.sound.dvd

/-- Whatever the draws, a run on the only object of a process that no assert ends copies out what an array of
zero-initialised blocks gives. -/
def IsSimpleArray (D : Build bs N B) (A : BufferAddrs) (sz : BlockSize bs) (capacity : Nat) : Prop :=
  ∀ (w : World bs B) (o : SimpleOram N) (st : Process bs B) (as : List SimpleAccess),
    newSimpleOram D A sz capacity ⟨1, w⟩ = some (o, st) →
    (∀ a ∈ as, a.req.ind < capacity ∧ a.req.writeOffset + a.req.writeSize ≤ sz.val) →
    Ends (fun s => s.outs = ArrayStore.zero.run sz.val (as.map SimpleAccess.req)) (fun e => e = .assert)
      (as.foldlM (runSimpleAccessWith ecallWriteMmInClient D sz) ⟨o, st.world, []⟩)

theorem isSimpleArray_of_lt (hD : D.Correct) {capacity : Nat} (hcap : computeTreeHeight capacity < clientMaxPath)
    (hpos : 0 < sz.val) (hlt : sz.val < 2 ^ 32) : IsSimpleArray D A sz capacity := by
  intro w o st as hnew hreq
  have hsz := sz.eq_of_lt hlt
  have h₀ := newSimpleOram_arrayRun hD hcap hnew
  obtain ⟨κ, -, hinv⟩ := h₀.inv
  have hbs : bs / sizeofBlockPath ≠ 0 := by
    have h8 := Nat.le_of_dvd (hsz ▸ hpos) hinv.dvd
    rw [sizeofBlockPath]
    omega
  rw [funext₂ fun s a => runSimpleAccessWith_reference (D := D) (sz.usable hbs) s a, foldlM_orAssert, ends_orAssert]
  intro s hrun
  rw [hsz]
  exact (h₀.run hD hsz (fun a ha => hsz ▸ (hreq a ha).2) hrun).outs

end SgxOram
