import SgxOram.App.SimpleOramArray

/-!
# The room of a SimpleORAM

A put goes to the root, and `MemTreeFlush` moves on only the blocks whose paths agree with its own. Whether the
put finds room is a matter of the draws, unless the root has a slot for every entry.

* `KeysOf`, `SimpleRoom` : the blocks of each tree belong to given entries;
* `SimpleInv.completes` : the root has room for them;
* `AtRoot` : with draws that the flush never agrees with, all blocks stay in the root;
* `simple_completes_iff` : the accesses to given entries complete whatever the draws exactly when the root has
  a slot for every entry.
-/

namespace SgxOram
open Lib

variable {bs : Nat} {N B : Type} {D : Build bs N B} {A : BufferAddrs} {sz : BlockSize bs}

/-! ## Room -/

/-- The blocks of the tree belong to the entries `S`. -/
def KeysOf (D : Build bs N B) (bufs : Addr → B) (S : Finset Nat) (t : MemTree N) : Prop :=
  ∀ b ∈ nodesBag t.height (D.load t bufs), b.key ∈ S.image keyOf

/-- `pos_map_capacity_`. -/
def SimpleOram.capacity : SimpleOram N → Nat
  | .base capacity _ => capacity
  | .recursive capacity _ _ => capacity

/-- The blocks of the outermost tree belong to the entries `S`, those of the next one to the entries that hold
their positions, and so on. -/
inductive SimpleRoom (D : Build bs N B) (bufs : Addr → B) : Finset Nat → SimpleOram N → Prop
  | base {S : Finset Nat} {capacity : Nat} {t : MemTree N} (keys : KeysOf D bufs S t) :
      SimpleRoom D bufs S (.base capacity t)
  | recursive {S : Finset Nat} {capacity : Nat} {t : MemTree N} {o : SimpleOram N} (keys : KeysOf D bufs S t)
      (fits : ∀ ind < capacity, ind / (bs / sizeofBlockPath) < o.capacity)
      (inner : SimpleRoom D bufs (S.image fun ind => ind / (bs / sizeofBlockPath)) o) :
      SimpleRoom D bufs S (.recursive capacity t o)

section Room
variable {bufs bufs' : Addr → B} {S : Finset Nat} {top : Prop} {id capacity : Nat} {t : MemTree N} {o : SimpleOram N}
  {a : ArrayStore} {κ : Known} {M : BlockKey → Option (BlockPath × Block bs)} {position : Nat → BlockPath}

theorem SimpleStored.keys_mem (h : SimpleStored D A id t bufs M) (hkeys : KeysOf D bufs S t) {k : BlockKey}
    {v : BlockPath × Block bs} (hk : M k = some v) : k ∈ S.image keyOf := by
  obtain ⟨b, hb, rfl, -⟩ := h.holds.exists_mem hk
  exact hkeys b hb

theorem SimpleStored.keysOf (h : SimpleStored D A id t bufs M) (hkeys : ∀ k v, M k = some v → k ∈ S.image keyOf) :
    KeysOf D bufs S t := fun _ hb => hkeys _ _ (h.holds.mem hb)

theorem KeysOf.frame (h : KeysOf D bufs S t) (hs : TreeSound D A id t bufs) (hb : SameBufs A {id} bufs bufs') :
    KeysOf D bufs' S t := by
  unfold KeysOf
  rw [nodesBag_congr (hs.rows.frame (hs.treeId ▸ hb)).load]
  exact h

theorem SimpleRoom.frame {pathMm : Nat → BlockPath} (hinv : SimpleInv D A bufs pathMm top id o a κ)
    (hb : SameBufs A (Set.Ici id) bufs bufs') (h : SimpleRoom D bufs S o) : SimpleRoom D bufs' S o := by
  induction hinv generalizing S with
  | base level =>
    cases h with
    | base keys => exact .base (keys.frame level.stored.sound (hb.mono (Set.singleton_subset_iff.mpr Set.self_mem_Ici)))
  | @recursive _ id _ _ _ _ _ _ _ _ level _ _ _ ih =>
    cases h with
    | recursive keys fits inner =>
      have hkeys := keys.frame level.stored.sound (hb.mono (Set.singleton_subset_iff.mpr Set.self_mem_Ici))
      exact .recursive hkeys fits (ih (hb.mono (Set.Ici_subset_Ici.mpr (Nat.le_succ id))) inner)

/-- A tree with entries has a root, and keys for them. -/
theorem SimpleLevelInv.entry (h : SimpleLevelInv D A top id capacity t bufs position a κ M) {ind : Nat}
    (hind : ind < capacity) : 1 ≤ t.height ∧ keyOf ind ≠ 0 := by
  have hcap := h.lt_two_pow
  have hbound := h.bound
  refine ⟨?_, keyOf_ne_zero (by omega)⟩
  by_contra h0
  obtain h0 : t.height = 0 := by omega
  rw [h0] at hcap
  omega

theorem SimpleLevelInv.position_eq (h : SimpleLevelInv D A top id capacity t bufs position a κ M) {ind : Nat}
    (hind : ind < capacity) {p : BlockPath} (hpath : M (keyOf ind) ≠ none → p = position ind) :
    ∀ v, M (keyOf ind) = some v → v.1 = p := by
  intro v hv
  rw [hpath (by rw [hv]; exact Option.some_ne_none v), h.recorded.position ind hind v hv]

/-- The root has room for an entry of `S` that has just been fetched. -/
theorem SimpleLevelInv.completes (hD : D.Correct) {w : World bs B}
    (h : SimpleLevelInv D A top id capacity t w.host.bufs position a κ M) (hkeys : KeysOf D w.host.bufs S t)
    (hS : S.card ≤ blocksPerNode) {req : Request} (hmem : req.ind ∈ S) (hind : req.ind < capacity) {p : BlockPath}
    (hpath : M (keyOf req.ind) ≠ none → p = position req.ind) (sz : BlockSize bs) (draws : SimpleDraws) :
    ∃ l, accessSimpleLevel D sz t p draws (keyOf req.ind) req w = some l ∧
      KeysOf D l.world.host.bufs S l.tree ∧ TreeStep A t w.host.bufs l.tree l.world.host.bufs := by
  obtain ⟨h1, hkey⟩ := h.entry hind
  have hposition := h.position_eq hind hpath
  obtain ⟨hfetched, -, -⟩ := h.stored.fetch hD h1 hposition
  have hroot := Nat.two_pow_pos (memTreeFetch D t p (keyOf req.ind) w).tree.height
  have hwf := hfetched.sound.placed.wf 0 hroot
  -- the fetched key is not among the blocks of the root
  have hroom : (D.load (memTreeFetch D t p (keyOf req.ind) w).tree
      (memTreeFetch D t p (keyOf req.ind) w).world.host.bufs 0).node.numBlocks.toNat < blocksPerNode := by
    rw [hwf.count]
    have hbag := Multiset.card_le_card (row_bag_le_nodesBag (D.load (memTreeFetch D t p (keyOf req.ind) w).tree
      (memTreeFetch D t p (keyOf req.ind) w).world.host.bufs) hroot)
    have hle := hfetched.holds.card_le (s := (S.image keyOf).erase (keyOf req.ind)) fun k v hk => by
      by_cases heq : k = keyOf req.ind
      · subst heq
        rw [Function.update_self] at hk
        cases hk
      · rw [Function.update_of_ne heq] at hk
        exact Finset.mem_erase.mpr ⟨heq, h.stored.keys_mem hkeys hk⟩
    have herase := Finset.card_erase_lt_of_mem (Finset.mem_image_of_mem keyOf hmem)
    have himage := Finset.card_image_le (s := S) (f := keyOf)
    omega
  have hsucc := (obliviousNodeWrite_bag hfetched.sound.dvd false hwf.count 0 draws.newBlockPath.1
    ((memTreeFetch D t p (keyOf req.ind) w).fetchedBlock.written req) hkey hroom).1
  have hrun : ∃ l, accessSimpleLevel D sz t p draws (keyOf req.ind) req w = some l := by
    rcases memTreePut_rows hD draws.newBlockPath.1 (keyOf req.ind)
      ((memTreeFetch D t p (keyOf req.ind) w).fetchedBlock.written req) hfetched.sound.rows with
      ⟨-, hfails⟩ | ⟨put, hput, -⟩
    · exact absurd ⟨hroom, hsucc⟩ hfails
    · rw [accessSimpleLevel_eq, hput]
      exact ⟨_, rfl⟩
  obtain ⟨l, hl⟩ := hrun
  obtain ⟨b, hd⟩ := accessSimpleLevel_spec hD h.stored h1 hkey hposition hl
  refine ⟨l, hl, hd.stored.keysOf fun k v hk => ?_, hd.step⟩
  by_cases heq : k = keyOf req.ind
  · subst heq
    exact Finset.mem_image_of_mem keyOf hmem
  · rw [Function.update_of_ne heq] at hk
    exact h.stored.keys_mem hkeys hk

/-- An access to one of at most `blocksPerNode` entries completes. -/
theorem SimpleInv.completes (hD : D.Correct) (hsz : sz.val = bs) (hbs : bs / sizeofBlockPath ≠ 0) {w : World bs B}
    (h : SimpleInv D A w.host.bufs w.client.pathMm top id o a κ) (hroom : SimpleRoom D w.host.bufs S o)
    (hS : S.card ≤ blocksPerNode) {req : Request} (hmem : req.ind ∈ S) (hind : req.ind < o.capacity)
    (draws : Nat → SimpleDraws) :
    ∃ r, accessSimpleOram D sz o draws req w = some r ∧ SimpleRoom D r.world.host.bufs S r.oram ∧
      r.oram.capacity = o.capacity := by
  generalize hb : w.host.bufs = bufs at h hroom
  generalize hmm : w.client.pathMm = pathMm at h
  induction h generalizing S draws req w with
  | @base _ id capacity t a κ M level =>
    subst hb hmm
    cases hroom with
    | base keys =>
      have hstart : SimpleLevelInv D A _ id capacity t (w.withPathMm
        (Function.update w.client.pathMm req.ind (draws 0).newBlockPath.1)).host.bufs w.client.pathMm a κ M := level
      obtain ⟨l, hl, hkeys, -⟩ := hstart.completes hD keys hS hmem hind (fun _ => rfl) sz (draws 0)
      exact ⟨⟨.base capacity l.tree, l.world, l.block⟩,
        accessSimpleOram_base.mpr ⟨⟨hind, sz.usable hbs⟩, l, hl, rfl⟩, .base hkeys, rfl⟩
  | @recursive _ id capacity t o a a' κ κ' M level known lower inner ih =>
    subst hb hmm
    cases hroom with
    | recursive keys fits innerRoom =>
      have hmem' : (posMapRequest bs req.ind (draws 0).newBlockPath).ind ∈
          S.image fun ind => ind / (bs / sizeofBlockPath) := Finset.mem_image_of_mem _ hmem
      obtain ⟨i, hi, hroom', hcap'⟩ := ih (Finset.card_image_le.trans hS) hmem' (fits req.ind hind)
        (fun k => draws (k + 1)) rfl innerRoom rfl
      have hin := inner.access hD (fun hfalse => hfalse.elim) hsz (posMapRequest_fits hbs req.ind _) hi
      have hframe := hin.others.mono (Set.singleton_subset_iff.mpr (Nat.lt_succ_self id))
      obtain ⟨l, hl, hkeys, hstep⟩ := (level.frame hframe).completes hD (keys.frame level.stored.sound hframe) hS hmem
        hind (fun hne => (known req.ind hind hne).read hin.block) sz (draws 0)
      refine ⟨⟨.recursive capacity l.tree i.oram, l.world, l.block⟩, ?_, .recursive hkeys ?_ ?_, rfl⟩
      · exact accessSimpleOram_rec.mpr ⟨⟨hind, hsz.symm ▸ hbs⟩, i, l, hsz.symm ▸ hi, hl, rfl⟩
      · rw [hcap']
        exact fits
      · exact hroom'.frame hin.inv (hstep.others.mono (level.stored.sound.treeId ▸ above_subset _))

theorem SimpleRoom.keys (h : SimpleRoom D bufs S o) : KeysOf D bufs S o.tree := by
  cases h with
  | base keys => exact keys
  | recursive keys _ _ => exact keys

theorem SimpleInv.stored {pathMm : Nat → BlockPath} (h : SimpleInv D A bufs pathMm top id o a κ) :
    ∃ M, SimpleStored D A id o.tree bufs M := by
  cases h with
  | base level => exact ⟨_, level.stored⟩
  | recursive level _ _ _ => exact ⟨_, level.stored⟩

end Room

/-! ## A full root -/

/-- All blocks of the tree are in its root, with the path 2, and each entry of `S` has one. -/
structure AtRoot (D : Build bs N B) (bufs : Addr → B) (S : Finset Nat) (t : MemTree N) : Prop where
  rest : ∀ n < 2 ^ t.height, n ≠ 0 → (D.load t bufs n).bag = 0
  paths : ∀ b ∈ nodesBag t.height (D.load t bufs), b.path = 2
  keys : ∀ ind ∈ S, ∃ b ∈ nodesBag t.height (D.load t bufs), b.key = keyOf ind

/-- The draws of an access that puts under path 2 and flushes along path 1. -/
def stuckDraws : SimpleDraws := ⟨.of 2, 1⟩

section AtRoot
variable {bufs bufs' : Addr → B} {S : Finset Nat} {id : Nat} {t : MemTree N}
  {M : BlockKey → Option (BlockPath × Block bs)}

theorem AtRoot.frame (h : AtRoot D bufs S t) (hs : TreeSound D A id t bufs) (hb : SameBufs A {id} bufs bufs') :
    AtRoot D bufs' S t := by
  have hload := (hs.rows.frame (hs.treeId ▸ hb)).load
  have hbag := nodesBag_congr hload
  refine ⟨fun n hn hne => ?_, ?_, ?_⟩
  · rw [hload n hn]
    exact h.rest n hn hne
  · rw [hbag]
    exact h.paths
  · rw [hbag]
    exact h.keys

/-- The root holds a block for each entry. -/
theorem AtRoot.card_le (h : AtRoot D bufs S t) (hs : SimpleStored D A id t bufs M)
    (hS : ∀ ind ∈ S, ind + 1 < 2 ^ 32) : S.card ≤ blocksPerNode := by
  have hbag : nodesBag t.height (D.load t bufs) = (D.load t bufs 0).bag :=
    Finset.sum_eq_single_of_mem 0 (Finset.mem_range.mpr (Nat.two_pow_pos t.height)) fun n hn hne =>
      h.rest n (Finset.mem_range.mp hn) hne
  have himage : (S.image keyOf).card = S.card := Finset.card_image_of_injOn fun i hi j hj hij =>
    keyOf_inj (hS i hi) (hS j hj) hij
  have hle := hs.holds.le_card (s := S.image keyOf) fun k hk => by
    obtain ⟨ind, hind, rfl⟩ := Finset.mem_image.mp hk
    obtain ⟨b, hb, hkey⟩ := h.keys ind hind
    exact ⟨b.val, hkey ▸ hs.holds.mem hb⟩
  rw [himage, hbag] at hle
  exact hle.trans (Row.card_bag_le _)

/-- No node but the root is on both paths. -/
theorem nodeAddr_two_ne_one {r r' : Nat} (hr : r ≠ 0) : nodeAddr 2 r' ≠ nodeAddr 1 r := by
  intro heq
  obtain rfl := level_unique heq
  have hone := (nodeAddr_eq_iff 2 1 1).mp (nodeAddr_congr_of_le (Nat.one_le_iff_ne_zero.mpr hr) heq)
  exact absurd hone (by decide)

/-- A fetch finds the other nodes empty, and a put writes to the root. -/
theorem AtRoot.rest_put (hD : D.Correct) {w : World bs B} (h : AtRoot D w.host.bufs S t)
    (hs : TreeSound D A id t w.host.bufs) {p q : BlockPath} {key : BlockKey} {content : Block bs}
    {put : RootPut bs N B}
    (hput : memTreePut D (memTreeFetch D t p key w).tree q key content (memTreeFetch D t p key w).world = some put) :
    ∀ n < 2 ^ put.tree.height, n ≠ 0 → (D.load put.tree put.world.host.bufs n).bag = 0 := by
  obtain ⟨hfetch, hstep⟩ := hs.fetch hD p key
  obtain ⟨-, hrows⟩ := hfetch.put hD hput
  intro n hn hne
  rw [hrows.rows.load n hn, Function.update_of_ne hne]
  rw [hrows.step.height, hstep.height] at hn
  rw [memTreeFetch_loads hD hs hn, overlay_scanned fun r hr hnr => fetchLoop_idle fun b hb => ?_]
  · exact h.rest n hn hne
  · rw [scannedRows_node hr, ← hnr, h.rest n hn hne] at hb
    exact absurd hb (Multiset.notMem_zero b)

/-- A flush along path 1 does not move blocks with path 2. -/
theorem TreeSound.rest_flush (hD : D.Correct) {w : World bs B} (h : TreeSound D A id t w.host.bufs)
    (hrest : ∀ n < 2 ^ t.height, n ≠ 0 → (D.load t w.host.bufs n).bag = 0)
    (hpaths : ∀ b ∈ nodesBag (memTreeFlush D t 1 w).1.height
      (D.load (memTreeFlush D t 1 w).1 (memTreeFlush D t 1 w).2.host.bufs), b.path = 2) :
    ∀ n < 2 ^ (memTreeFlush D t 1 w).1.height, n ≠ 0 →
      (D.load (memTreeFlush D t 1 w).1 (memTreeFlush D t 1 w).2.host.bufs n).bag = 0 := by
  obtain ⟨hflush, hstep⟩ := h.flush hD 1
  intro n hn hne
  by_cases hon : ∃ r < t.height, n = nodeAddr 1 r
  · obtain ⟨r, -, rfl⟩ := hon
    refine Multiset.eq_zero_of_forall_notMem fun b hb => ?_
    obtain ⟨r', -, hr'⟩ := hflush.placed.placed _ hn b hb
    rw [hpaths b (mem_nodesBag.mpr ⟨_, hn, hb⟩)] at hr'
    have hr0 : r ≠ 0 := fun h0 => hne (by rw [h0]; rfl)
    exact nodeAddr_two_ne_one hr0 hr'.symm
  · push Not at hon
    rw [(memTreeFlush_rows hD h.lt 1 h.rows).2.2.1.load n hn, overlay_off _ _ hon]
    exact hrest n (hstep.height ▸ hn) hne

/-- An access adds its entry to those in the root. -/
theorem AtRoot.access (hD : D.Correct) {w : World bs B} (h : AtRoot D w.host.bufs S t)
    (hs : SimpleStored D A id t w.host.bufs M) (h1 : 1 ≤ t.height) {p : BlockPath} {req : Request}
    (hkey : keyOf req.ind ≠ 0) (hpath : ∀ v, M (keyOf req.ind) = some v → v.1 = p) {l : SimpleLevel bs N B}
    (hrun : accessSimpleLevel D sz t p stuckDraws (keyOf req.ind) req w = some l) :
    AtRoot D l.world.host.bufs (insert req.ind S) l.tree := by
  obtain ⟨b, hd⟩ := accessSimpleLevel_spec hD hs h1 hkey hpath hrun
  have hpaths : ∀ b ∈ nodesBag l.tree.height (D.load l.tree l.world.host.bufs), b.path = 2 := by
    intro b' hb'
    have hM := hd.stored.holds.mem hb'
    by_cases heq : b'.key = keyOf req.ind
    · rw [heq, Function.update_self] at hM
      exact (congrArg Prod.fst (Option.some.inj hM)).symm
    · rw [Function.update_of_ne heq] at hM
      obtain ⟨c, hc, -, hval⟩ := hs.holds.exists_mem hM
      rw [← h.paths c hc]
      exact (congrArg Prod.fst hval).symm
  refine ⟨?_, hpaths, fun ind hind => ?_⟩
  · rw [accessSimpleLevel_eq, Option.map_eq_some_iff] at hrun
    obtain ⟨put, hput, rfl⟩ := hrun
    have hrest := h.rest_put hD hs.sound hput
    have hsound := ((hs.sound.fetch hD p (keyOf req.ind)).1.put hD hput).1
    by_cases hthresh : put.rootLoad.toNat ≥ flushThreshRoot
    · have hflush : flushRoot D put stuckDraws.flushPath = memTreeFlush D put.tree 1 put.world := if_pos hthresh
      simp only [hflush] at hpaths ⊢
      exact hsound.rest_flush hD hrest hpaths
    · have hflush : flushRoot D put stuckDraws.flushPath = (put.tree, put.world) := if_neg hthresh
      simp only [hflush]
      exact hrest
  · have hbound : ∃ v, Function.update M (keyOf req.ind) (some (stuckDraws.newBlockPath.1, b.written req))
        (keyOf ind) = some v := by
      by_cases heq : keyOf ind = keyOf req.ind
      · rw [heq, Function.update_self]
        exact ⟨_, rfl⟩
      · have hold : ind ∈ S := (Finset.mem_insert.mp hind).resolve_left fun e => heq (e ▸ rfl)
        obtain ⟨c, hc, hck⟩ := h.keys ind hold
        rw [Function.update_of_ne heq, ← hck]
        exact ⟨_, hs.holds.mem hc⟩
    obtain ⟨v, hv⟩ := hbound
    obtain ⟨c, hc, hck, -⟩ := hd.stored.holds.exists_mem hv
    exact ⟨c, hc, hck⟩

theorem SimpleLevelInv.atRoot (hD : D.Correct) {w : World bs B} {top : Prop} {capacity : Nat}
    {position : Nat → BlockPath} {a : ArrayStore} {κ : Known}
    (hlevel : SimpleLevelInv D A top id capacity t w.host.bufs position a κ M) (h : AtRoot D w.host.bufs S t)
    {req : Request} (hind : req.ind < capacity) {p : BlockPath}
    (hpath : M (keyOf req.ind) ≠ none → p = position req.ind) {l : SimpleLevel bs N B}
    (hrun : accessSimpleLevel D sz t p stuckDraws (keyOf req.ind) req w = some l) :
    AtRoot D l.world.host.bufs (insert req.ind S) l.tree := by
  obtain ⟨h1, hkey⟩ := hlevel.entry hind
  exact h.access hD hlevel.stored h1 hkey (hlevel.position_eq hind hpath) hrun

theorem SimpleInv.atRoot (hD : D.Correct) (hsz : sz.val = bs) {w : World bs B} {top : Prop} {o : SimpleOram N}
    {a : ArrayStore} {κ : Known} (hinv : SimpleInv D A w.host.bufs w.client.pathMm top id o a κ)
    (h : AtRoot D w.host.bufs S o.tree) {req : Request} {r : SimpleResult bs N B}
    (hrun : accessSimpleOram D sz o (fun _ => stuckDraws) req w = some r) :
    AtRoot D r.world.host.bufs (insert req.ind S) r.oram.tree := by
  cases hinv with
  | @base _ _ capacity t _ _ M level =>
    obtain ⟨⟨hind, -⟩, l, hl, rfl⟩ := accessSimpleOram_base.mp hrun
    have hstart : SimpleLevelInv D A top id capacity t (w.withPathMm
      (Function.update w.client.pathMm req.ind stuckDraws.newBlockPath.1)).host.bufs w.client.pathMm a κ M := level
    exact hstart.atRoot hD h hind (fun _ => rfl) hl
  | recursive level known lower inner =>
    obtain ⟨⟨hind, hbs⟩, i, l, hi, hl, rfl⟩ := accessSimpleOram_rec.mp hrun
    rw [hsz] at hbs hi
    have hin := inner.access hD (fun hfalse => hfalse.elim) hsz (posMapRequest_fits hbs req.ind _) hi
    have hframe := hin.others.mono (Set.singleton_subset_iff.mpr (Nat.lt_succ_self id))
    exact (level.frame hframe).atRoot hD (h.frame level.stored.sound hframe) hind
      (fun hne => (known req.ind hind hne).read hin.block) hl

end AtRoot

/-! ## Runs -/

section Runs
variable {capacity : Nat} {o : SimpleOram N}

/-- A fresh object has room for any entries. -/
theorem newSimpleOram_room (hD : D.Correct) (hsz : sz.val = bs) (hcap : computeTreeHeight capacity < clientMaxPath)
    {st st' : Process bs B} (hrun : newSimpleOram D A sz capacity st = some (o, st')) :
    o.capacity = capacity ∧ ∀ S, SimpleRoom D st'.world.host.bufs S o := by
  induction capacity using Nat.strong_induction_on generalizing st st' o with
  | _ capacity ih =>
    have hempty : ∀ {id : Nat} {t : MemTree N} {bufs : Addr → B} (S : Finset Nat),
        SimpleLevelInv D A False id capacity t bufs (fun _ => 0) ArrayStore.zero (fun _ _ => False) (fun _ => none) →
          KeysOf D bufs S t := fun S hlevel => hlevel.stored.keysOf fun k v hk => by cases hk
    by_cases hbase : capacity ≤ maxPosMap
    · rw [newSimpleOram_base D A sz hbase] at hrun
      simp only [Option.map_eq_some_iff, Prod.mk.injEq] at hrun
      obtain ⟨⟨t, st₁⟩, ht, rfl, rfl⟩ := hrun
      obtain ⟨hlevel, -, -⟩ := newSimpleTree_spec hD hcap ht
      exact ⟨rfl, fun S => .base (hempty S (hlevel False _))⟩
    · rw [not_le] at hbase
      rw [newSimpleOram_rec D A sz hbase] at hrun
      simp only [Option.ite_none_right_eq_some, Option.bind_eq_some_iff, Option.map_eq_some_iff, Prod.mk.injEq] at hrun
      obtain ⟨hn, ⟨o₁, st₁⟩, ho, ⟨t, st₂⟩, ht, rfl, rfl⟩ := hrun
      have hlt := higherCapacity_lt hbase hn.2
      have hcap' := lt_of_le_of_lt (computeTreeHeight_mono hlt.le) hcap
      obtain ⟨hcapacity, hroom⟩ := ih _ hlt hcap' ho
      obtain ⟨-, hinv, -⟩ := newSimpleOram_spec hD _ hcap' ho
      obtain ⟨hlevel, -, hothers⟩ := newSimpleTree_spec hD hcap ht
      refine ⟨rfl, fun S => .recursive (hempty S (hlevel False _)) (fun ind hind => ?_) ?_⟩
      · have hlt := div_lt_ceilDiv (show 0 < sz.val / sizeofBlockPath by omega) hind
        rw [hcapacity]
        rwa [hsz] at hlt ⊢
      · exact (hroom _).frame (hinv False fun _ => 0) (hothers.mono (above_subset _))

/-- The entries that requests access. -/
def accessedEntries (reqs : List Request) : Finset Nat := (reqs.map Request.ind).toFinset

theorem mem_accessedEntries {reqs : List Request} {req : Request} (h : req ∈ reqs) : req.ind ∈ accessedEntries reqs :=
  List.mem_toFinset.mpr (List.mem_map_of_mem h)

/-- A run whose trees hold the entries `S`. -/
structure RoomRun (D : Build bs N B) (A : BufferAddrs) (capacity : Nat) (S : Finset Nat) (reqs : List Request)
    (s : SimpleRun bs N B) : Prop where
  run : ArrayRun D A reqs s
  room : SimpleRoom D s.world.host.bufs S s.oram
  capacity : s.oram.capacity = capacity

theorem RoomRun.access (hD : D.Correct) (hsz : sz.val = bs) (hbs : bs / sizeofBlockPath ≠ 0) {S : Finset Nat}
    {reqs : List Request} {s : SimpleRun bs N B} (h : RoomRun D A capacity S reqs s) (hS : S.card ≤ blocksPerNode)
    {a : SimpleAccess} (hmem : a.req.ind ∈ S) (hind : a.req.ind < capacity)
    (hfit : a.req.writeOffset + a.req.writeSize ≤ bs) :
    ∃ s', runSimpleAccess D sz s a = some s' ∧ RoomRun D A capacity S (reqs ++ [a.req]) s' := by
  obtain ⟨κ, -, hinv⟩ := h.run.inv
  obtain ⟨r, hr, hroom, hcapacity⟩ := hinv.completes hD hsz hbs h.room hS hmem (h.capacity ▸ hind) a.draws
  have hstep : runSimpleAccess D sz s a = some ⟨r.oram, r.world, s.outs ++ [r.block]⟩ :=
    runSimpleAccess_eq_some.mpr ⟨r, hr, rfl⟩
  exact ⟨_, hstep, h.run.access hD hsz hfit hstep, hroom, hcapacity.trans h.capacity⟩

/-- Accesses to at most `blocksPerNode` entries complete. -/
theorem simple_completes (hD : D.Correct) (hsz : sz.val = bs) (hbs : 0 < bs)
    (hcap : computeTreeHeight capacity < clientMaxPath) {w : World bs B} {st : Process bs B}
    (hnew : newSimpleOram D A sz capacity ⟨1, w⟩ = some (o, st))
    {as : List SimpleAccess} (hreq : ∀ a ∈ as, a.req.ind < capacity ∧ a.req.writeOffset + a.req.writeSize ≤ bs)
    (hcard : (accessedEntries (as.map SimpleAccess.req)).card ≤ blocksPerNode) :
    ∃ s, as.foldlM (runSimpleAccess D sz) ⟨o, st.world, []⟩ = some s := by
  obtain ⟨hcapacity, hroom⟩ := newSimpleOram_room hD hsz hcap hnew
  have hrun := newSimpleOram_arrayRun hD hcap hnew
  obtain ⟨κ, -, hinv⟩ := hrun.inv
  have hbs' : bs / sizeofBlockPath ≠ 0 := by
    have h8 := Nat.le_of_dvd hbs hinv.dvd
    exact (Nat.div_pos (le_trans (by decide) h8) (by decide)).ne'
  have hstart : RoomRun D A capacity (accessedEntries (as.map SimpleAccess.req)) []
    (⟨o, st.world, []⟩ : SimpleRun bs N B) := ⟨hrun, hroom _, hcapacity⟩
  have haccess : ∀ {done : List SimpleAccess} {a : SimpleAccess} {s : SimpleRun bs N B}, a ∈ as →
      RoomRun D A capacity (accessedEntries (as.map SimpleAccess.req)) (done.map SimpleAccess.req) s →
      ∃ s', runSimpleAccess D sz s a = some s' ∧
        RoomRun D A capacity (accessedEntries (as.map SimpleAccess.req)) ((done ++ [a]).map SimpleAccess.req) s' := by
    intro done a s ha h
    rw [List.map_append, List.map_singleton]
    exact h.access hD hsz hbs' hcard (mem_accessedEntries (List.mem_map_of_mem ha)) (hreq a ha).1 (hreq a ha).2
  refine foldlM_completes as _ fun done a s hpre hdone => ?_
  have h := foldlM_inv (P := fun d s =>
      RoomRun D A capacity (accessedEntries (as.map SimpleAccess.req)) (d.map SimpleAccess.req) s) done _ s hstart
    (fun d x u v hd hu hstep => by
      obtain ⟨v', hv', hroom'⟩ := haccess (hpre.subset (List.mem_append_left _ (mem_of_step hd))) hu
      rw [Option.some.inj (hstep.symm.trans hv')]
      exact hroom') hdone
  obtain ⟨s', hs', -⟩ := haccess (mem_of_step hpre) h
  exact ⟨s', hs'⟩

/-- If nothing that is put can be flushed, accesses complete only if the root has a slot for every entry. -/
theorem room_of_stuck (hD : D.Correct) (hsz : sz.val = bs) (hcap : computeTreeHeight capacity < clientMaxPath)
    {w : World bs B} {st : Process bs B} (hnew : newSimpleOram D A sz capacity ⟨1, w⟩ = some (o, st))
    {reqs : List Request} (hreq : ∀ req ∈ reqs, req.ind < capacity ∧ req.writeOffset + req.writeSize ≤ bs)
    {s : SimpleRun bs N B} (hrun : reqs.foldlM (fun s req => runSimpleAccess D sz s ⟨fun _ => stuckDraws, req⟩)
      ⟨o, st.world, []⟩ = some s) : (accessedEntries reqs).card ≤ blocksPerNode := by
  have hstart : AtRoot D st.world.host.bufs ∅ o.tree := by
    have hkeys := ((newSimpleOram_room hD hsz hcap hnew).2 ∅).keys
    have hnone : nodesBag o.tree.height (D.load o.tree st.world.host.bufs) = 0 :=
      Multiset.eq_zero_of_forall_notMem fun b hb => absurd (hkeys b hb) (by simp)
    refine ⟨fun n hn _ => ?_, fun b hb => ?_, fun ind hind => absurd hind (Finset.notMem_empty ind)⟩
    · exact Multiset.le_zero.mp (hnone ▸ row_bag_le_nodesBag _ hn)
    · rw [hnone] at hb
      exact absurd hb (Multiset.notMem_zero b)
  obtain ⟨hinv, hroot⟩ := foldlM_inv (P := fun done (s : SimpleRun bs N B) =>
      ArrayRun D A done s ∧ AtRoot D s.world.host.bufs (accessedEntries done) s.oram.tree) reqs _ s
    ⟨newSimpleOram_arrayRun hD hcap hnew, hstart⟩
    (fun done req u v hpre hu hstep => by
      obtain ⟨hu, hroot⟩ := hu
      refine ⟨hu.access hD hsz (hreq req (mem_of_step hpre)).2 hstep, ?_⟩
      obtain ⟨κ, -, hinv⟩ := hu.inv
      obtain ⟨r, hr, rfl⟩ := runSimpleAccess_eq_some.mp hstep
      have hentries : accessedEntries (done ++ [req]) = insert req.ind (accessedEntries done) := by
        ext ind
        simp [accessedEntries]
      rw [hentries]
      exact hinv.atRoot hD hsz hroot hr) hrun
  obtain ⟨κ, -, hinv⟩ := hinv.inv
  obtain ⟨M, hstored⟩ := hinv.stored
  refine hroot.card_le hstored fun ind hind => ?_
  obtain ⟨req, hmem, rfl⟩ := List.mem_map.mp (List.mem_toFinset.mp hind)
  have hbound := lt_two_pow_computeTreeHeight capacity
  have hpow : 2 ^ computeTreeHeight capacity ≤ 2 ^ 31 :=
    Nat.pow_le_pow_right (by decide) (hcap.le.trans (by decide))
  have hlt := (hreq req hmem).1
  omega

/-- Requests complete whatever is drawn exactly when they access no more entries than the root has slots. -/
theorem simple_completes_iff (hD : D.Correct) (hsz : sz.val < 2 ^ 32) (hbs : 0 < bs)
    (hcap : computeTreeHeight capacity < clientMaxPath) {w : World bs B} {st : Process bs B}
    (hnew : newSimpleOram D A sz capacity ⟨1, w⟩ = some (o, st)) {reqs : List Request}
    (hreq : ∀ req ∈ reqs, req.ind < capacity ∧ req.writeOffset + req.writeSize ≤ bs) :
    (∀ as : List SimpleAccess, as.map SimpleAccess.req = reqs →
        ∃ s, as.foldlM (runSimpleAccess D sz) ⟨o, st.world, []⟩ = some s) ↔
      (accessedEntries reqs).card ≤ blocksPerNode := by
  have hsz := sz.eq_of_lt hsz
  constructor
  · intro h
    obtain ⟨s, hs⟩ := h (reqs.map (SimpleAccess.mk fun _ => stuckDraws)) (by simp [Function.comp_def])
    rw [List.foldlM_map] at hs
    exact room_of_stuck hD hsz hcap hnew hreq hs
  · rintro hcard as rfl
    exact simple_completes hD hsz hbs hcap hnew (fun a ha => hreq a.req (List.mem_map_of_mem ha)) hcard

end Runs

/-- Some draws let an assert fail in reads of five different entries. -/
theorem simple_completes_iff_reads : ∃ o st,
    newSimpleOram .plain .numbered .eight 5 ⟨1, ⟨emptyClient 8, .filled (zeroBlock 8)⟩⟩ = some (o, st) ∧
      ¬ ∀ as : List SimpleAccess, as.map SimpleAccess.req = (List.range 5).map (fun i => ⟨i, fun _ => 0, 0, 0⟩) →
        ∃ s, as.foldlM (runSimpleAccess .plain .eight) ⟨o, st.world, []⟩ = some s := by
  have hcap := computeTreeHeight_lt_clientMaxPath (show 5 ≤ maxPosMap by decide)
  have hnew : ∃ o st, newSimpleOram .plain .numbered .eight 5
      ⟨1, ⟨emptyClient 8, .filled (zeroBlock 8)⟩⟩ = some (o, st) := by
    simp [newSimpleOram_base, newSimpleTree_eq, initClientOnce, ecallInitClient, hcap, Build.initMemTree,
      initializeMemTreePlain, show 5 ≤ maxPosMap by decide]
  obtain ⟨o, st, hnew⟩ := hnew
  refine ⟨o, st, hnew, fun h => ?_⟩
  have hle := (simple_completes_iff (Build.plain_correct 8) (by decide) (by decide) hcap hnew (fun req hmem => ?_)).mp h
  · exact absurd hle (by decide)
  · obtain ⟨i, hi, rfl⟩ := List.mem_map.mp hmem
    exact ⟨List.mem_range.mp hi, Nat.zero_le 8⟩

end SgxOram
