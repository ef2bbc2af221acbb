import SgxOram.App.Buffers

/-!
# The levels of a recursive PathORAM

All levels use one client. As long as each of them finds the stash empty they stay apart:

* `MemTreeCall.Own` : what the call fetches or writes was put into the same tree before;
* `LevelInv`, `Levels` : each tree of an object holds the entries of its array, the positions of one
  level are the array of the next;
* `Levels.access`, by induction on the object; `levels_apart` : runs in which every fetch finds the
  stash empty.
-/

namespace SgxOram
open Lib

variable {bs : Nat} {N B : Type} {K : Cipher bs N B} {A : BufferAddrs} {sz : BlockSize bs}

/-! ## Calls on one's own blocks -/

/-- What the call fetches or writes into its tree was put into this tree by the calls before. -/
def MemTreeCall.Own (before : List (MemTreeCall bs)) : MemTreeCall bs → Prop
  | .fetch id _ _ key _ found => ∀ content, found = some content → ∃ path, .put id ⟨key, path, content⟩ ∈ before
  | .put _ _ => True
  | .flush id _ _ written => ∀ b ∈ written, .put id b ∈ before

def OwnCalls (calls : List (MemTreeCall bs)) : Prop :=
  ∀ before call, before ++ [call] <+: calls → call.Own before

/-- Every fetch finds the stash empty. -/
def EmptyStash (calls : List (MemTreeCall bs)) : Prop :=
  ∀ id height p key load found, .fetch id height p key load found ∈ calls → load = 0

theorem OwnCalls.concat {calls : List (MemTreeCall bs)} (h : OwnCalls calls) {call : MemTreeCall bs}
    (hcall : call.Own calls) : OwnCalls (calls ++ [call]) := by
  intro before c hpre
  rcases List.prefix_concat_iff.mp hpre with heq | hpre
  · obtain ⟨rfl, hc⟩ := List.append_inj' heq rfl
    obtain rfl := List.singleton_inj.mp hc
    exact hcall
  · exact h before c hpre

/-- The calls of one level: the fetch finds what was put before, the flush writes what was put before or just now. -/
theorem OwnCalls.level {calls : List (MemTreeCall bs)} (h : OwnCalls calls) {id height : Nat} {path : BlockPath}
    {key : BlockKey} {load : UInt32} {found : Option (Block bs)} {blk : Blk bs} {written : Multiset (Blk bs)}
    (hfound : ∀ content, found = some content → ∃ q, .put id ⟨key, q, content⟩ ∈ calls)
    (hwritten : ∀ b ∈ written, .put id b ∈ calls ∨ b = blk) :
    OwnCalls (calls ++
      [MemTreeCall.fetch id height path key load found, MemTreeCall.put id blk,
        MemTreeCall.flush id height path written]) := by
  have hfetch : OwnCalls (calls ++ [MemTreeCall.fetch id height path key load found]) := h.concat hfound
  have hput : OwnCalls (calls ++ [MemTreeCall.fetch id height path key load found] ++ [MemTreeCall.put id blk]) :=
    hfetch.concat trivial
  rw [List.append_cons, List.append_cons]
  refine hput.concat fun b hb => ?_
  rcases hwritten b hb with hmem | rfl
  · exact List.mem_append_left _ (List.mem_append_left _ hmem)
  · exact List.mem_append_right _ (List.mem_singleton_self _)

theorem EmptyStash.left {calls calls' : List (MemTreeCall bs)} (h : EmptyStash (calls ++ calls')) :
    EmptyStash calls :=
  fun id height p key load found hmem => h id height p key load found (List.mem_append_left _ hmem)

theorem EmptyStash.right {calls calls' : List (MemTreeCall bs)} (h : EmptyStash (calls ++ calls')) :
    EmptyStash calls' :=
  fun id height p key load found hmem => h id height p key load found (List.mem_append_right _ hmem)

/-! ## One level -/

/-- The tree, with the blocks `S` outside of it, holds the entries of `a` under their positions, and
all of it was put there by `calls`. -/
structure LevelInv (K : Cipher bs N B) (A : BufferAddrs) (capacity : Nat) (t : MemTree N) (S : Multiset (Blk bs))
    (bufs : Addr → B) (position : Nat → BlockPath) (a : ArrayStore) (calls : List (MemTreeCall bs))
    (M : BlockKey → Option (BlockPath × Block bs)) : Prop where
  bound : capacity < 2 ^ 32
  stored : Stored K A t S bufs M
  entries : Entries capacity position a M
  puts : ∀ k v, M k = some v → .put t.treeId ⟨k, v.1, v.2⟩ ∈ calls

variable {capacity : Nat} {t : MemTree N} {w w' : World bs B} {a : ArrayStore}
  {position : Nat → BlockPath} {calls calls' : List (MemTreeCall bs)}
  {M : BlockKey → Option (BlockPath × Block bs)}

theorem LevelInv.frame {S : Multiset (Blk bs)} {bufs bufs' : Addr → B}
    (h : LevelInv K A capacity t S bufs position a calls M)
    (hb : ∀ n i, bufs' (A.addr t.treeId n i) = bufs (A.addr t.treeId n i)) (hcalls : calls ⊆ calls') :
    LevelInv K A capacity t S bufs' position a calls' M :=
  ⟨h.bound, h.stored.frame hb, h.entries, fun k v hk => hcalls (h.puts k v hk)⟩

/-- What an access leaves of one level. -/
structure LevelKept (K : Cipher bs N B) (A : BufferAddrs) (capacity : Nat) (t : MemTree N)
    (position : Nat → BlockPath) (q : BlockPath) (req : Request) (w : World bs B) (a : ArrayStore)
    (calls : List (MemTreeCall bs)) (r : LevelResult bs N B) : Prop where
  level : ∃ M, LevelInv K A capacity r.tree (stashBag r.world.client.path) r.world.host.bufs
    (Function.update position req.ind q) (a.write req) (calls ++ r.calls) M
  block : r.block = a.copyOut bs req
  stash : r.world.client.StashWf
  subs : ∀ n ∈ r.world.client.subs, n ≠ 0
  own : OwnCalls (calls ++ r.calls)
  treeId : r.tree.treeId = t.treeId
  pathMm : r.world.client.pathMm = w.client.pathMm
  others : ∀ id n i, id ≠ t.treeId → r.world.host.bufs (A.addr id n i) = w.host.bufs (A.addr id n i)

/-- A level that finds the stash empty fetches and evicts its own blocks. -/
theorem LevelInv.access (h8 : 8 ∣ bs) (hK : K.Correct) (hsz : sz.val = bs)
    (h : LevelInv K A capacity t 0 w.host.bufs position a calls M) (hstash : w.client.StashWf)
    (hsubs : ∀ n ∈ w.client.subs, n ≠ 0) (hload : w.client.stashLoad = 0) (hown : OwnCalls calls) {req : Request}
    (hind : req.ind < capacity) (hfit : req.writeOffset + req.writeSize ≤ bs) {q fresh : RandPath}
    {r : LevelResult bs N B}
    (hrun : accessLevel K sz t (orFresh (position req.ind) fresh) q (keyOf req.ind) req w = some r) :
    LevelKept K A capacity t position q req w a calls r := by
  have hinv := h.stored.wake hstash hsubs hload
  have hbound : req.ind + 1 < 2 ^ 32 := by
    have := h.bound
    omega
  have hd := accessLevel_spec h8 hK hinv (keyOf_ne_zero hbound) (h.entries.path hind fresh) hrun
  obtain ⟨hentries, hout⟩ := h.entries.access h.bound hind hsz hfit (w.host.fetched t.treeId) q.2
  -- the bindings come from the calls before, or from the put of this access
  have hputs : ∀ k v, Function.update M (keyOf req.ind)
      (some (q.1, (fetchedContent (M (keyOf req.ind))).written req)) k = some v →
      .put t.treeId ⟨k, v.1, v.2⟩ ∈ calls ∨
        ⟨k, v.1, v.2⟩ = (⟨keyOf req.ind, q, (fetchedContent (M (keyOf req.ind))).written req⟩ : Blk bs) := by
    intro k v hk
    by_cases hkey : k = keyOf req.ind
    · subst hkey
      rw [Function.update_self] at hk
      obtain rfl := Option.some.inj hk
      exact Or.inr rfl
    · rw [Function.update_of_ne hkey] at hk
      exact Or.inl (h.puts k v hk)
  have hfound : ∀ content, (M (keyOf req.ind)).map Prod.snd = some content →
      ∃ path, .put t.treeId ⟨keyOf req.ind, path, content⟩ ∈ calls := by
    intro content hfound
    obtain ⟨v, hv, rfl⟩ := Option.map_eq_some_iff.mp hfound
    exact ⟨v.1, h.puts _ v hv⟩
  have hlevel : ∃ M', LevelInv K A capacity r.tree (stashBag r.world.client.path) r.world.host.bufs
      (Function.update position req.ind q) (a.write req) (calls ++ r.calls) M' := by
    refine ⟨_, h.bound, hd.inv.stored, hentries, fun k v hk => ?_⟩
    rw [hd.calls, hd.treeId]
    rcases hputs k v hk with hmem | heq
    · exact List.mem_append_left _ hmem
    · rw [heq]
      simp
  have hown' : OwnCalls (calls ++ r.calls) := by
    rw [hd.calls]
    refine hown.level hfound fun b hb => ?_
    have hmem : b ∈ treeBag K r.tree r.world.host.bufs ∅ := by
      rw [treeBag_split K r.tree r.world.host.bufs (orFresh (position req.ind) fresh)]
      exact Multiset.mem_add.mpr (Or.inr hb)
    have hbind := hd.inv.holds.mem (Multiset.mem_add.mpr (Or.inr hmem))
    exact hputs b.key b.val hbind
  exact ⟨hlevel, hd.block.trans hout, hd.inv.stash, hd.inv.subs, hown', hd.treeId, hd.pathMm, hd.others⟩

/-! ## All levels -/

def PathOram.ids (o : PathOram N) : List Nat := o.trees.map MemTree.treeId

/-- Every level of an object holds the entries of its array; the blocks `S` outside of the trees are
the outermost level's. -/
def Levels (K : Cipher bs N B) (A : BufferAddrs) :
    PathOram N → Multiset (Blk bs) → World bs B → ArrayStore → List (MemTreeCall bs) → Prop
  | .base capacity t, S, w, a, calls => ∃ M, LevelInv K A capacity t S w.host.bufs w.client.pathMm a calls M
  | .recursive capacity t posMap, S, w, a, calls => t.treeId ∉ posMap.ids ∧ ∃ M a',
      LevelInv K A capacity t S w.host.bufs (storedPosition bs a') a calls M ∧ Levels K A posMap 0 w a' calls

/-- The levels depend on the buffers of their trees and on the position map in the client. -/
theorem Levels.frame {o : PathOram N} {S : Multiset (Blk bs)} (h : Levels K A o S w a calls)
    (hmm : w'.client.pathMm = w.client.pathMm)
    (hb : ∀ id ∈ o.ids, ∀ n i, w'.host.bufs (A.addr id n i) = w.host.bufs (A.addr id n i))
    (hcalls : calls ⊆ calls') : Levels K A o S w' a calls' := by
  induction o generalizing S a with
  | base capacity t =>
    obtain ⟨M, hM⟩ := h
    refine ⟨M, ?_⟩
    rw [hmm]
    exact hM.frame (hb _ (by simp [PathOram.ids, PathOram.trees])) hcalls
  | recursive capacity t posMap ih =>
    obtain ⟨hid, M, a', hM, hpos⟩ := h
    refine ⟨hid, M, a', hM.frame (hb _ (by simp [PathOram.ids, PathOram.trees])) hcalls,
      ih hpos fun id hmem => hb id ?_⟩
    exact List.mem_cons_of_mem _ hmem

/-- What an access leaves of all levels. -/
structure LevelsKept (K : Cipher bs N B) (A : BufferAddrs) (o : PathOram N) (w : World bs B) (a : ArrayStore)
    (calls : List (MemTreeCall bs)) (req : Request) (r : AccessResult bs N B) : Prop where
  levels : Levels K A r.oram (stashBag r.world.client.path) r.world (a.write req) (calls ++ r.calls)
  block : r.block = a.copyOut bs req
  stash : r.world.client.StashWf
  subs : ∀ n ∈ r.world.client.subs, n ≠ 0
  own : OwnCalls (calls ++ r.calls)
  ids : r.oram.ids = o.ids
  others : ∀ id n i, id ∉ o.ids → r.world.host.bufs (A.addr id n i) = w.host.bufs (A.addr id n i)

/-- The first thing a level does is to fetch. -/
theorem accessLevel_fetch {p q : BlockPath} {key : BlockKey} {req : Request} {r : LevelResult bs N B}
    (hrun : accessLevel K sz t p q key req w = some r) :
    ∃ found, .fetch t.treeId t.height p key w.client.stashLoad found ∈ r.calls := by
  obtain ⟨f, w', -, -, rfl⟩ := accessLevel_eq_some.mp hrun
  exact ⟨_, List.mem_cons_self⟩

theorem accessPathOram_fetch {o : PathOram N} {draws : Nat → Draws} {req : Request} {r : AccessResult bs N B}
    (hrun : accessPathOram K sz o draws req w = some r) :
    ∃ id height p key found, .fetch id height p key w.client.stashLoad found ∈ r.calls := by
  induction o generalizing draws req w r with
  | base capacity t =>
    obtain ⟨-, l, hl, rfl⟩ := accessPathOram_base.mp hrun
    obtain ⟨found, hmem⟩ := accessLevel_fetch hl
    exact ⟨_, _, _, _, found, hmem⟩
  | recursive capacity t posMap ih =>
    obtain ⟨-, inner, l, hinner, -, rfl⟩ := accessPathOram_rec.mp hrun
    obtain ⟨id, height, p, key, found, hmem⟩ := ih hinner
    exact ⟨id, height, p, key, found, List.mem_append_left _ hmem⟩

theorem Levels.access (h8 : 8 ∣ bs) (hK : K.Correct) (hsz : sz.val = bs) {o : PathOram N}
    (h : Levels K A o 0 w a calls) (hstash : w.client.StashWf) (hsubs : ∀ n ∈ w.client.subs, n ≠ 0)
    (hload : w.client.stashLoad = 0) (hown : OwnCalls calls) {draws : Nat → Draws} {req : Request}
    (hfit : req.writeOffset + req.writeSize ≤ bs) {r : AccessResult bs N B}
    (hrun : accessPathOram K sz o draws req w = some r) (hempty : EmptyStash r.calls) :
    LevelsKept K A o w a calls req r := by
  induction o generalizing draws req a r with
  | base capacity t =>
    obtain ⟨⟨hind, -⟩, l, hl, rfl⟩ := accessPathOram_base.mp hrun
    obtain ⟨M, hM⟩ := h
    have hk := hM.access (w := w.withPathMm (Function.update w.client.pathMm req.ind (draws 0).newBlockPath)) h8 hK hsz
      ⟨hstash.rows, hstash.load⟩ hsubs hload hown hind hfit hl
    refine ⟨?_, hk.block, hk.stash, hk.subs, hk.own, ?_, fun id n i hid => hk.others id n i ?_⟩
    · obtain ⟨M', hM'⟩ := hk.level
      refine ⟨M', ?_⟩
      rw [hk.pathMm]
      exact hM'
    · simp [PathOram.ids, PathOram.trees, hk.treeId]
    · simpa [PathOram.ids, PathOram.trees] using hid
  | recursive capacity t posMap ih =>
    obtain ⟨⟨hind, hbs⟩, inner, l, hinner, hl, rfl⟩ := accessPathOram_rec.mp hrun
    rw [hsz] at hbs hinner
    obtain ⟨hid, M, a', hM, hpos⟩ := h
    have hki := ih hpos (posMapRequest_fits hbs _ _) hinner hempty.left
    -- the inner levels have left the stash empty, or the next fetch would find it
    obtain ⟨found, hfetch⟩ := accessLevel_fetch hl
    have hload' : inner.world.client.stashLoad = 0 := hempty.right _ _ _ _ _ _ hfetch
    have hrest := hki.levels
    rw [hki.stash.stashBag_eq_zero hload'] at hrest
    rw [hki.block, pathOfBuffer_copyOut] at hl
    have hk := (hM.frame (fun n i => hki.others _ n i hid) (List.subset_append_left _ inner.calls)).access h8 hK
      hsz hki.stash hki.subs hload' hki.own hind hfit hl
    have hids : l.tree.treeId ∉ inner.oram.ids := by
      rw [hk.treeId, hki.ids]
      exact hid
    refine ⟨⟨hids, ?_⟩, hk.block, hk.stash, hk.subs, ?_, ?_, fun id n i hnot => ?_⟩
    · obtain ⟨M', hM'⟩ := hk.level
      refine ⟨M', a'.write (posMapRequest bs req.ind (draws 0).newBlockPath), ?_, ?_⟩
      · rw [storedPosition_write, ← List.append_assoc]
        exact hM'
      · refine hrest.frame hk.pathMm (fun id hmem n i => hk.others id n i ?_) ?_
        · rintro rfl
          exact hids (hk.treeId ▸ hmem)
        · rw [← List.append_assoc]
          exact List.subset_append_left _ _
    · rw [← List.append_assoc]
      exact hk.own
    · show _ :: inner.oram.ids = _ :: posMap.ids
      rw [hk.treeId, hki.ids]
    · obtain ⟨hne, hnot'⟩ := not_or.mp fun hor => hnot (List.mem_cons.mpr hor)
      exact (hk.others id n i hne).trans (hki.others id n i hnot')

/-! ## Runs -/

/-- A new object holds nothing, whatever happens to the world before its first access. -/
theorem newPathOram_levels (hK : K.Correct) {capacity : Nat} (hh : computeTreeHeight capacity < clientMaxPath)
    {st st' : Process bs B} {o : PathOram N} (hrun : newPathOram K A sz capacity st = some (o, st'))
    (w : World bs B) : Levels K A o 0 w ArrayStore.zero [] := by
  have hfresh : ∀ {cap id : Nat} {st st' : Process bs B} {t : MemTree N} (position : Nat → BlockPath),
      computeTreeHeight cap < clientMaxPath → newTree K A id cap st = some (t, st') →
      LevelInv K A cap t 0 w.host.bufs position ArrayStore.zero [] fun _ => none := by
    intro cap id st st' t position hcap ht
    obtain ⟨-, -, -, -, hstored⟩ := newTree_stored hK hcap ht w.host.bufs
    refine ⟨?_, hstored, entries_zero cap position, fun k v hk => by cases hk⟩
    exact (lt_two_pow_computeTreeHeight cap).trans_le (Nat.pow_le_pow_right (by decide) (hcap.le.trans (by decide)))
  induction capacity using Nat.strong_induction_on generalizing st st' o with
  | _ capacity ih =>
    rcases le_or_gt capacity maxPosMap with hcap | hcap
    · obtain ⟨t, ht, rfl⟩ := (newPathOram_base_eq_some hcap).mp hrun
      exact ⟨_, hfresh _ hh ht⟩
    · obtain ⟨hn, posMap, st₁, t, hpos, ht, rfl⟩ := (newPathOram_rec_eq_some hcap).mp hrun
      have hlt := higherCapacity_lt hcap hn.2
      have hids := (newPathOram_buffers hK hh hrun).2.1
      refine ⟨?_, fun _ => none, ArrayStore.zero, ?_, ih _ hlt ((computeTreeHeight_mono hlt.le).trans_lt hh) hpos⟩
      · -- the numbers of the trees are in sequence
        have hnd : (PathOram.recursive capacity t posMap).ids.Nodup := by
          rw [PathOram.ids, hids]
          exact List.nodup_range'
        exact (List.nodup_cons.mp hnd).1
      · exact hfresh _ hh ht

/-- The first object of a process initialises the client. -/
theorem newPathOram_first (hK : K.Correct) {capacity : Nat} {st' : Process bs B} {o : PathOram N}
    (hrun : newPathOram K A sz capacity ⟨1, w⟩ = some (o, st')) :
    8 ∣ bs ∧ computeTreeHeight capacity < clientMaxPath ∧ st'.world.client.StashWf ∧
      (∀ n ∈ st'.world.client.subs, n ≠ 0) ∧ st'.world.client.stashLoad = 0 := by
  have hfirst : ∀ {st : Process bs B} {t : MemTree N}, newTree K A 1 capacity st = some (t, st') →
      8 ∣ bs ∧ computeTreeHeight capacity < clientMaxPath ∧ st'.world.client.StashWf ∧
        (∀ n ∈ st'.world.client.subs, n ≠ 0) ∧ st'.world.client.stashLoad = 0 := by
    intro st t ht
    obtain ⟨c, host, hc, hinit, rfl⟩ := newTree_eq_some.mp ht
    obtain ⟨hlt, hstash, hzero, hsubs, -⟩ := ecallInitClient_spec hc
    refine ⟨(initializeMemTree_spec hK hinit).1, hlt, hstash, by simp [hsubs], ?_⟩
    rw [← UInt32.toNat_inj, hstash.load, hzero]
    rfl
  rcases le_or_gt capacity maxPosMap with hcap | hcap
  · obtain ⟨t, ht, -⟩ := (newPathOram_base_eq_some hcap).mp hrun
    exact hfirst ht
  · obtain ⟨-, posMap, st₁, t, -, ht, -⟩ := (newPathOram_rec_eq_some hcap).mp hrun
    exact hfirst ht

/-- What holds between the accesses of a run. -/
structure RunInv (K : Cipher bs N B) (A : BufferAddrs) (reqs : List Request) (s : OramRun bs N B) : Prop where
  levels : Levels K A s.oram (stashBag s.world.client.path) s.world (ArrayStore.zero.after reqs) s.calls
  stash : s.world.client.StashWf
  subs : ∀ n ∈ s.world.client.subs, n ≠ 0
  own : OwnCalls s.calls
  outs : s.outs = ArrayStore.zero.run bs reqs

theorem RunInv.access (h8 : 8 ∣ bs) (hK : K.Correct) (hsz : sz.val = bs) {reqs : List Request} {s s' : OramRun bs N B}
    (h : RunInv K A reqs s) {x : OramAccess} (hfit : x.req.writeOffset + x.req.writeSize ≤ bs)
    (hstep : runAccess K sz s x = some s') (hempty : EmptyStash s'.calls) : RunInv K A (reqs ++ [x.req]) s' := by
  obtain ⟨r, hr, rfl⟩ := runAccess_eq_some.mp hstep
  obtain ⟨id, height, p, key, found, hfetch⟩ := accessPathOram_fetch hr
  have hload := hempty.right _ _ _ _ _ _ hfetch
  have hlevels := h.levels
  rw [h.stash.stashBag_eq_zero hload] at hlevels
  have hk := hlevels.access h8 hK hsz h.stash h.subs hload h.own hfit hr hempty.right
  refine ⟨?_, hk.stash, hk.subs, hk.own, ?_⟩
  · rw [ArrayStore.after_append]
    exact hk.levels
  · rw [ArrayStore.run_append, ← h.outs, hk.block]

/-- In a run of the only object of a process whose fetches all find the stash empty, every level
fetches and evicts its own blocks only, and the object answers as an array. -/
theorem levels_apart (hK : K.Correct) (hsz : sz.val < 2 ^ 32) {o : PathOram N} {st : Process bs B}
    (hnew : newPathOram K A sz capacity ⟨1, w⟩ = some (o, st)) {as : List OramAccess}
    (hfit : ∀ x ∈ as, x.req.writeOffset + x.req.writeSize ≤ bs) {s : OramRun bs N B}
    (hrun : as.foldlM (runAccess K sz) ⟨o, st.world, [], []⟩ = some s) (hempty : EmptyStash s.calls) :
    OwnCalls s.calls ∧ s.outs = ArrayStore.zero.run bs (as.map OramAccess.req) := by
  obtain ⟨h8, hh, hstash, hsubs, hload⟩ := newPathOram_first hK hnew
  have hstart : RunInv K A [] ⟨o, st.world, [], []⟩ := by
    refine ⟨?_, hstash, hsubs, fun before call hpre => ?_, rfl⟩
    · rw [hstash.stashBag_eq_zero hload]
      exact newPathOram_levels hK hh hnew st.world
    · exact absurd (List.prefix_nil.mp hpre) (List.append_ne_nil_of_right_ne_nil _ (List.cons_ne_nil _ _))
  have hinv : EmptyStash s.calls → RunInv K A (as.map OramAccess.req) s := by
    refine foldlM_inv (P := fun done u => EmptyStash u.calls → RunInv K A (done.map OramAccess.req) u) as _ s
      (fun _ => hstart) ?_ hrun
    intro done x u v hpre hu hstep hv
    have hcalls : EmptyStash u.calls := by
      obtain ⟨r, hr, rfl⟩ := runAccess_eq_some.mp hstep
      exact hv.left
    rw [List.map_append, List.map_cons, List.map_nil]
    exact (hu hcalls).access h8 hK (sz.eq_of_lt hsz) (hfit x (mem_of_step hpre)) hstep hv
  exact ⟨(hinv hempty).own, (hinv hempty).outs⟩

/-! ## Levels that mix -/

/-- Access `i` of `mixedRun` reads entry `200 + 2 i`, whose position lies in block `100 + i` of the
inner object. Blocks go to path 1 at both levels, but the inner level fetches along path 2. -/
def mixedAccess (i : Nat) : OramAccess where
  draws k := if k = 0 then ⟨.of 1, .of 1⟩ else ⟨.of 1, .of 2⟩
  req := ⟨200 + 2 * i, fun _ => 0, 0, 0⟩

def mixedRun : List OramAccess := (List.range 5).map mixedAccess

def outerKey (i : Nat) : BlockKey := keyOf (200 + 2 * i)

def innerKey (i : Nat) : BlockKey := keyOf (100 + i)

/-- After `i` accesses the inner blocks crowd in the root of their tree, and the stash is empty. -/
structure Filling (K : Cipher 8 N B) (A : BufferAddrs) (i : Nat) (s : OramRun 8 N B) (t t' : MemTree N)
    (M M' : BlockKey → Option (BlockPath × Block 8)) : Prop where
  oram : s.oram = .recursive 65537 t (.base 32769 t')
  outerTree : t.treeId = 1 ∧ t.height = 17
  innerTree : t'.treeId = 2 ∧ t'.height = 16
  stash : s.world.client.StashWf
  subs : ∀ n ∈ s.world.client.subs, n ≠ 0
  load : s.world.client.stashLoad = 0
  outer : Stored K A t 0 s.world.host.bufs M
  inner : Stored K A t' 0 s.world.host.bufs M'
  outerKeys : ∀ k v, M k = some v → v.1 = 1 ∧ ∃ m < i, k = outerKey m
  innerKeys : ∀ k v, M' k = some v → v.1 = 1 ∧ ∃ m < i, k = innerKey m
  innerBound : ∀ m < i, ∃ v, M' (innerKey m) = some v
  crowd : ∀ n < 2 ^ 16, n ≠ 0 → (nodeRow K t' s.world.host.bufs n).bag = 0
  positions : ∀ m, i ≤ m → m < 5 → s.world.client.pathMm (100 + m) = 0
  puts : ∀ b, .put 1 b ∈ s.calls → ∃ m < i, b.key = outerKey m
  empty : EmptyStash s.calls

theorem outerKey_ne_innerKey : ∀ m < 5, ∀ m' < 5, outerKey m ≠ innerKey m' := by decide

theorem outerKey_inj : ∀ m < 5, ∀ m' < 5, outerKey m = outerKey m' → m = m' := by decide

theorem innerKey_inj : ∀ m < 5, ∀ m' < 5, innerKey m = innerKey m' → m = m' := by decide

section Mixed
variable {K : Cipher 8 N B} {i : Nat} {s : OramRun 8 N B} {t t' : MemTree N}
  {M M' : BlockKey → Option (BlockPath × Block 8)}

theorem Filling.inner_level (hK : K.Correct) (h : Filling K A i s t t' M M') (hi : i < 5) : ∃ l,
    accessPathOram K .eight (.base 32769 t') (fun k => (mixedAccess i).draws (k + 1)) (posMapRequest 8 (200 + 2 * i) 1)
        s.world = some ⟨.base 32769 l.tree, l.world, l.block, l.calls⟩ ∧
      LevelDone K A .eight t' 2 1 (innerKey i) (posMapRequest 8 (200 + 2 * i) 1)
        (s.world.withPathMm (Function.update s.world.client.pathMm (100 + i) 1)) M' l ∧
      M' (innerKey i) = none := by
  have hind : (posMapRequest 8 (200 + 2 * i) 1).ind = 100 + i := by
    show (200 + 2 * i) / 2 = 100 + i
    omega
  have hnone : M' (innerKey i) = none := by
    cases hv : M' (innerKey i) with
    | none => rfl
    | some v =>
      obtain ⟨-, m, hm, heq⟩ := h.innerKeys _ v hv
      have := innerKey_inj i hi m (hm.trans hi) heq
      omega
  have hinv := (h.inner.wake h.stash h.subs h.load).withPathMm (Function.update s.world.client.pathMm (100 + i) 1)
  have hkey : innerKey i ≠ 0 := keyOf_ne_zero (by omega)
  have hpath : ∀ v, M' (innerKey i) = some v → v.1 = 2 := fun v hv => by
    rw [hnone] at hv
    cases hv
  have hkeys : KeysIn M' ((Finset.range 5).image innerKey) := by
    intro k v hk
    obtain ⟨-, m, hm, rfl⟩ := h.innerKeys k v hk
    exact Finset.mem_image_of_mem _ (Finset.mem_range.mpr (hm.trans hi))
  obtain ⟨l, hl⟩ := accessLevel_completes (by decide) .eight hinv 1 hkey hpath (posMapRequest 8 (200 + 2 * i) 1) hkeys
    (Finset.mem_image_of_mem _ (Finset.mem_range.mpr hi)) (Finset.card_image_le.trans (by decide))
  refine ⟨l, accessPathOram_base.mpr ⟨⟨?_, by decide⟩, l, ?_, rfl⟩,
    accessLevel_spec (by decide) hK hinv hkey hpath hl, hnone⟩
  · rw [hind]
    omega
  · rw [hind, h.positions i le_rfl hi]
    exact hl

/-- One more block of the run. -/
theorem keys_update {key : Nat → BlockKey} (h : ∀ k v, M k = some v → v.1 = 1 ∧ ∃ m < i, k = key m) (c : Block 8) :
    ∀ k v, Function.update M (key i) (some (1, c)) k = some v → v.1 = 1 ∧ ∃ m < i + 1, k = key m := by
  intro k v hk
  by_cases hkey : k = key i
  · subst hkey
    rw [Function.update_self] at hk
    obtain rfl := Option.some.inj hk
    exact ⟨rfl, i, Nat.lt_succ_self i, rfl⟩
  · rw [Function.update_of_ne hkey] at hk
    obtain ⟨hv, m, hm, hkm⟩ := h k v hk
    exact ⟨hv, m, hm.trans (Nat.lt_succ_self i), hkm⟩

/-- Paths 1 and 2 part below the root. -/
theorem paths_apart {g f : Nat} (h : nodeAddr 2 g = nodeAddr 1 f) : g = 0 := by
  obtain rfl := level_unique h
  by_contra hg
  have := nodeAddr_congr_of_le (Nat.one_le_iff_ne_zero.mpr hg) h
  exact absurd this (by decide)

/-- What the inner level leaves: blocks on path 1, outside of the stash all in the root. -/
structure InnerLeft (K : Cipher 8 N B) (A : BufferAddrs) (i : Nat) (l : LevelResult 8 N B)
    (M'' : BlockKey → Option (BlockPath × Block 8)) : Prop where
  inv : TreeInv K A l.tree l.world ∅ M''
  keys : ∀ k v, M'' k = some v → v.1 = 1 ∧ ∃ m < i + 1, k = innerKey m
  bound : ∀ m < i + 1, ∃ v, M'' (innerKey m) = some v
  crowd : ∀ n < 2 ^ 16, n ≠ 0 → (nodeRow K l.tree l.world.host.bufs n).bag = 0

theorem Filling.inner_left (h : Filling K A i s t t' M M') {req : Request} {mm : Nat → BlockPath}
    {l : LevelResult 8 N B} (hd : LevelDone K A .eight t' 2 1 (innerKey i) req (s.world.withPathMm mm) M' l) :
    InnerLeft K A i l (Function.update M' (innerKey i)
      (some (1, (fetchedContent (M' (innerKey i))).written req))) := by
  have hkeys := keys_update h.innerKeys ((fetchedContent (M' (innerKey i))).written req)
  refine ⟨hd.inv, hkeys, fun m hm => ?_, fun n hn hn0 => ?_⟩
  · by_cases hkey : innerKey m = innerKey i
    · exact ⟨_, by rw [hkey, Function.update_self]⟩
    · rw [Function.update_of_ne hkey]
      apply h.innerBound m
      rcases Nat.lt_succ_iff_lt_or_eq.mp hm with hm | rfl
      · exact hm
      · exact absurd rfl hkey
  · by_cases hp : n ∈ pathNodes 2 t'.height
    · obtain ⟨g, hg, rfl⟩ := mem_pathNodes.mp hp
      apply Multiset.eq_zero_of_forall_notMem
      intro b hb
      have hlt : nodeAddr (2 : BlockPath).toNat g < 2 ^ l.tree.height := nodeAddr_lt_two_pow (hd.height ▸ hg)
      have hmem := mem_treeBag.mpr ⟨_, hlt, Finset.notMem_empty _, hb⟩
      have hpath := (hkeys _ _ (hd.inv.holds.mem (Multiset.mem_add.mpr (Or.inr hmem)))).1
      obtain ⟨f, -, hf⟩ := hd.inv.tree.placed _ hlt b hb
      rw [show b.path = 1 from hpath] at hf
      exact hn0 (by rw [paths_apart hf]; rfl)
    · rw [hd.off n (h.innerTree.2 ▸ hn) hp]
      exact h.crowd n hn hn0

/-- Up to four blocks fit into the root, so that none stays in the stash. -/
theorem InnerLeft.settled {req : Request} {w : World 8 B} {l : LevelResult 8 N B}
    {M'' : BlockKey → Option (BlockPath × Block 8)} (hleft : InnerLeft K A i l M'') (hi : i < 4)
    (hh : t'.height = 16) (hd : LevelDone K A .eight t' 2 1 (innerKey i) req w M' l) :
    stashBag l.world.client.path = 0 ∧ l.world.client.stashLoad = 0 := by
  have hcard := hleft.inv.holds.card_le (s := (Finset.range (i + 1)).image innerKey) fun k v hk => by
    obtain ⟨-, m, hm, rfl⟩ := hleft.keys k v hk
    exact Finset.mem_image_of_mem _ (Finset.mem_range.mpr hm)
  have hcard := hcard.trans (Finset.card_image_le.trans_eq (Finset.card_range _))
  rw [Multiset.card_add] at hcard
  have hzero : stashBag l.world.client.path = 0 := by
    apply Multiset.eq_zero_of_forall_notMem
    intro b hb
    have hfull : (0 + 1) * 4 ≤ _ := hd.crowded (a := 0) (h := 0) (b := b) (by rw [hh]; decide) rfl (Or.inl hb)
    have hpos := Multiset.card_pos_iff_exists_mem.mpr ⟨b, hb⟩
    omega
  refine ⟨hzero, ?_⟩
  rw [← UInt32.toNat_inj, hleft.inv.stash.load, hzero]
  rfl

/-- Five blocks do not fit. -/
theorem InnerLeft.overflow {l : LevelResult 8 N B} {M'' : BlockKey → Option (BlockPath × Block 8)}
    (hleft : InnerLeft K A 4 l M'') (hh : l.tree.height = 16) : ∃ c, c ∈ stashBag l.world.client.path := by
  have hcard : 5 ≤ (stashBag l.world.client.path + treeBag K l.tree l.world.host.bufs ∅).card := by
    have hle := hleft.inv.holds.le_card (s := (Finset.range 5).image innerKey) fun k hk => by
      obtain ⟨m, hm, rfl⟩ := Finset.mem_image.mp hk
      exact hleft.bound m (Finset.mem_range.mp hm)
    exact le_trans (by decide) hle
  have hroot : (treeBag K l.tree l.world.host.bufs ∅).card ≤ 4 := by
    rw [treeBag, Finset.sdiff_empty, Finset.sum_eq_single_of_mem 0 (Finset.mem_range.mpr (Nat.two_pow_pos _))]
    · exact Row.card_bag_le _
    · intro n hn hn0
      refine hleft.crowd n ?_ hn0
      rw [← hh]
      exact Finset.mem_range.mp hn
  rw [Multiset.card_add] at hcard
  exact Multiset.card_pos_iff_exists_mem.mp (by omega)

/-- The outer level finds what the inner level left in the stash. -/
theorem Filling.outer_level (hK : K.Correct) (h : Filling K A i s t t' M M') (hi : i < 5) {req : Request}
    {mm : Nat → BlockPath} {l : LevelResult 8 N B}
    (hd : LevelDone K A .eight t' 2 1 (innerKey i) req (s.world.withPathMm mm) M' l) :
    ∃ MS l₂, Represents Blk.key Blk.val (stashBag l.world.client.path) MS ∧
      (∀ k v, MS k = some v → v.1 = 1 ∧ ∃ m < i + 1, k = innerKey m) ∧
      accessLevel K .eight t 1 1 (outerKey i) (mixedAccess i).req l.world = some l₂ ∧
      LevelDone K A .eight t 1 1 (outerKey i) (mixedAccess i).req l.world (fun k => (MS k).or (M k)) l₂ := by
  have hleft := h.inner_left hd
  obtain ⟨MS, hMS, hsub⟩ := hleft.inv.holds.of_le (Multiset.le_add_right _ _)
  have hMSkeys : ∀ k v, MS k = some v → v.1 = 1 ∧ ∃ m < i + 1, k = innerKey m :=
    fun k v hk => hleft.keys k v (hsub k v hk)
  have hout := h.outer.frame (fun n j => hd.others t.treeId n j (by rw [h.outerTree.1, h.innerTree.1]; decide))
  have hrep := hout.holds
  rw [zero_add] at hrep
  have hinv : TreeInv K A t l.world ∅ fun k => (MS k).or (M k) := by
    refine Stored.treeInv ⟨hout.height, hout.tree, hMS.add hrep fun k v hk => ?_⟩ hleft.inv.stash hleft.inv.subs
    obtain ⟨-, m, hm, rfl⟩ := hMSkeys k v hk
    cases hv : M (innerKey m) with
    | none => rfl
    | some u =>
      obtain ⟨-, m', hm', heq⟩ := h.outerKeys _ u hv
      exact absurd heq.symm (outerKey_ne_innerKey m' (by omega) m (by omega))
  have hnone : (MS (outerKey i)).or (M (outerKey i)) = none := by
    cases hv : (MS (outerKey i)).or (M (outerKey i)) with
    | none => rfl
    | some v =>
      rcases Option.or_eq_some_iff.mp hv with hk | ⟨-, hk⟩
      · obtain ⟨-, m, hm, heq⟩ := hMSkeys _ v hk
        exact absurd heq (outerKey_ne_innerKey i hi m (by omega))
      · obtain ⟨-, m, hm, heq⟩ := h.outerKeys _ v hk
        have := outerKey_inj i hi m (hm.trans hi) heq
        omega
  have hkey : outerKey i ≠ 0 := keyOf_ne_zero (by omega)
  have hpath : ∀ v, (fun k => (MS k).or (M k)) (outerKey i) = some v → v.1 = 1 := fun v hv => by
    simp only [hnone, reduceCtorEq] at hv
  have hkeys : KeysIn (fun k => (MS k).or (M k)) ((Finset.range 5).image innerKey ∪ (Finset.range 5).image outerKey) := by
    intro k v hk
    rcases Option.or_eq_some_iff.mp hk with hk | ⟨-, hk⟩
    · obtain ⟨-, m, hm, rfl⟩ := hMSkeys k v hk
      exact Finset.mem_union_left _ (Finset.mem_image_of_mem _ (Finset.mem_range.mpr (by omega)))
    · obtain ⟨-, m, hm, rfl⟩ := h.outerKeys k v hk
      exact Finset.mem_union_right _ (Finset.mem_image_of_mem _ (Finset.mem_range.mpr (by omega)))
  obtain ⟨l₂, hl₂⟩ := accessLevel_completes (by decide) .eight hinv 1 hkey hpath (mixedAccess i).req hkeys
    (Finset.mem_union_right _ (Finset.mem_image_of_mem _ (Finset.mem_range.mpr hi))) (by decide)
  exact ⟨MS, l₂, hMS, hMSkeys, hl₂, accessLevel_spec (by decide) hK hinv hkey hpath hl₂⟩

/-- Access `i`: both levels, with what the inner one leaves in the stash. -/
structure MixedStep (K : Cipher 8 N B) (A : BufferAddrs) (i : Nat) (s s' : OramRun 8 N B) (t t' : MemTree N)
    (M M' MS : BlockKey → Option (BlockPath × Block 8)) (l l₂ : LevelResult 8 N B) : Prop where
  result : s' = ⟨.recursive 65537 l₂.tree (.base 32769 l.tree), l₂.world, s.outs ++ [l₂.block],
    s.calls ++ (l.calls ++ l₂.calls)⟩
  inner : LevelDone K A .eight t' 2 1 (innerKey i) (posMapRequest 8 (200 + 2 * i) 1)
    (s.world.withPathMm (Function.update s.world.client.pathMm (100 + i) 1)) M' l
  stash : Represents Blk.key Blk.val (stashBag l.world.client.path) MS
  stashKeys : ∀ k v, MS k = some v → v.1 = 1 ∧ ∃ m < i + 1, k = innerKey m
  outer : LevelDone K A .eight t 1 1 (outerKey i) (mixedAccess i).req l.world (fun k => (MS k).or (M k)) l₂
  fresh : M' (innerKey i) = none

theorem Filling.access (hK : K.Correct) (h : Filling K A i s t t' M M') (hi : i < 5) :
    ∃ s' MS l l₂, runAccess K .eight s (mixedAccess i) = some s' ∧ MixedStep K A i s s' t t' M M' MS l l₂ := by
  obtain ⟨l, hinner, hd₁, hnone⟩ := h.inner_level hK hi
  obtain ⟨MS, l₂, hMS, hMSkeys, hl₂, hd₂⟩ := h.outer_level hK hi hd₁
  refine ⟨_, MS, l, l₂, ?_, ⟨rfl, hd₁, hMS, hMSkeys, hd₂, hnone⟩⟩
  -- the position was never written, so the fresh draw is used
  have hblock : pathOfBuffer l.block = 0 := by
    have hfit : (posMapRequest 8 (200 + 2 * i) 1).writeOffset + (posMapRequest 8 (200 + 2 * i) 1).writeSize ≤ 8 :=
      posMapRequest_fits (by decide) (200 + 2 * i) 1
    rw [hd₁.block, hnone, show fetchedContent none = zeroBlock 8 from rfl,
      ((ArrayStore.holds_zero _).exchange BlockSize.eight_val hfit _).2, pathOfBuffer_copyOut]
    rfl
  refine runAccess_eq_some.mpr ⟨⟨.recursive 65537 l₂.tree (.base 32769 l.tree), l₂.world, l₂.block,
    l.calls ++ l₂.calls⟩, ?_, rfl⟩
  rw [h.oram]
  refine accessPathOram_rec.mpr ⟨⟨?_, by decide⟩, _, l₂, hinner, ?_, rfl⟩
  · show 200 + 2 * i < 65537
    omega
  · rw [hblock]
    exact hl₂

/-- The outer level evicts along path 1, so nothing stays behind. -/
theorem MixedStep.settled {s' : OramRun 8 N B} {MS : BlockKey → Option (BlockPath × Block 8)}
    {l l₂ : LevelResult 8 N B} (h : Filling K A i s t t' M M') (hi : i < 5)
    (hs : MixedStep K A i s s' t t' M M' MS l l₂) :
    stashBag l₂.world.client.path = 0 ∧ l₂.world.client.stashLoad = 0 := by
  have hbind : ∀ k v, Function.update (fun k => (MS k).or (M k)) (outerKey i) (some (1,
      (fetchedContent ((MS (outerKey i)).or (M (outerKey i)))).written (mixedAccess i).req)) k = some v →
      v.1 = 1 ∧ k ∈ (Finset.range 5).image innerKey ∪ (Finset.range 5).image outerKey := by
    intro k v hk
    by_cases hkey : k = outerKey i
    · subst hkey
      rw [Function.update_self] at hk
      obtain rfl := Option.some.inj hk
      exact ⟨rfl, Finset.mem_union_right _ (Finset.mem_image_of_mem _ (Finset.mem_range.mpr hi))⟩
    · rw [Function.update_of_ne hkey] at hk
      rcases Option.or_eq_some_iff.mp hk with hk | ⟨-, hk⟩
      · obtain ⟨hv, m, hm, rfl⟩ := hs.stashKeys k v hk
        exact ⟨hv, Finset.mem_union_left _ (Finset.mem_image_of_mem _ (Finset.mem_range.mpr (by omega)))⟩
      · obtain ⟨hv, m, hm, rfl⟩ := h.outerKeys k v hk
        exact ⟨hv, Finset.mem_union_right _ (Finset.mem_image_of_mem _ (Finset.mem_range.mpr (by omega)))⟩
  have hcard := hs.outer.inv.holds.card_le fun k v hk => (hbind k v hk).2
  rw [Multiset.card_add] at hcard
  have hfew : ((Finset.range 5).image innerKey ∪ (Finset.range 5).image outerKey).card ≤ 10 := by decide
  have hzero : stashBag l₂.world.client.path = 0 := by
    apply Multiset.eq_zero_of_forall_notMem
    intro b hb
    have hpath : b.path = 1 := (hbind _ _ (hs.outer.inv.holds.mem (Multiset.mem_add.mpr (Or.inl hb)))).1
    have hfull : (16 + 1) * 4 ≤ _ :=
      hs.outer.crowded (a := 0) (h := 16) (b := b) (by rw [h.outerTree.2]; decide) (by rw [hpath]; rfl) (Or.inl hb)
    omega
  refine ⟨hzero, ?_⟩
  rw [← UInt32.toNat_inj, hs.outer.inv.stash.load, hzero]
  rfl

theorem MixedStep.puts {s' : OramRun 8 N B} {MS : BlockKey → Option (BlockPath × Block 8)}
    {l l₂ : LevelResult 8 N B} (h : Filling K A i s t t' M M') (hs : MixedStep K A i s s' t t' M M' MS l l₂)
    {b : Blk 8} (hb : .put 1 b ∈ s'.calls) : ∃ m < i + 1, b.key = outerKey m := by
  rw [hs.result, hs.inner.calls, hs.outer.calls, h.outerTree.1, h.innerTree.1] at hb
  simp only [List.mem_append, List.mem_cons, MemTreeCall.put.injEq, reduceCtorEq, List.not_mem_nil, or_false,
    false_or, true_and, OfNat.one_ne_ofNat, false_and] at hb
  rcases hb with hb | rfl
  · obtain ⟨m, hm, hkey⟩ := h.puts b hb
    exact ⟨m, hm.trans (Nat.lt_succ_self i), hkey⟩
  · exact ⟨i, Nat.lt_succ_self i, rfl⟩

/-- Up to four inner blocks fit into the root. -/
theorem Filling.next {s' : OramRun 8 N B} {MS : BlockKey → Option (BlockPath × Block 8)}
    {l l₂ : LevelResult 8 N B} (h : Filling K A i s t t' M M') (hi : i < 4)
    (hs : MixedStep K A i s s' t t' M M' MS l l₂) : ∃ t₁ t₁' M₁ M₁', Filling K A (i + 1) s' t₁ t₁' M₁ M₁' := by
  have hleft := h.inner_left hs.inner
  obtain ⟨hzero, hload⟩ := hleft.settled hi h.innerTree.2 hs.inner
  have hMS : ∀ k, MS k = none := by
    intro k
    cases hv : MS k with
    | none => rfl
    | some v =>
      obtain ⟨b, hb, -⟩ := hs.stash.exists_mem hv
      rw [hzero] at hb
      exact absurd hb (Multiset.notMem_zero b)
  obtain ⟨-, hload₂⟩ := hs.settled h (by omega)
  have hothers : ∀ n j, l₂.world.host.bufs (A.addr l.tree.treeId n j) = l.world.host.bufs (A.addr l.tree.treeId n j) :=
    fun n j => hs.outer.others _ n j (by rw [hs.inner.treeId, h.innerTree.1, h.outerTree.1]; decide)
  refine ⟨l₂.tree, l.tree, _, _,
    { oram := by rw [hs.result]
      outerTree := ⟨hs.outer.treeId.trans h.outerTree.1, hs.outer.height.trans h.outerTree.2⟩
      innerTree := ⟨hs.inner.treeId.trans h.innerTree.1, hs.inner.height.trans h.innerTree.2⟩
      stash := by rw [hs.result]; exact hs.outer.inv.stash
      subs := by rw [hs.result]; exact hs.outer.inv.subs
      load := by rw [hs.result]; exact hload₂
      outer := by rw [hs.result]; exact hs.outer.inv.rest hload₂
      inner := by rw [hs.result]; exact (hs.inner.inv.rest hload).frame hothers
      outerKeys := ?_, innerKeys := hleft.keys, innerBound := hleft.bound, crowd := ?_, positions := ?_
      puts := fun b hb => hs.puts h hb, empty := ?_ }⟩
  · refine keys_update (fun k v hk => ?_) _
    rw [hMS, Option.none_or] at hk
    exact h.outerKeys k v hk
  · intro n hn hn0
    rw [hs.result, hleft.inv.tree.owns.nodeRow_congr hothers (hs.inner.height ▸ h.innerTree.2 ▸ hn)]
    exact hleft.crowd n hn hn0
  · intro m him hm
    rw [hs.result, hs.outer.pathMm, hs.inner.pathMm, World.withPathMm_pathMm, Function.update_of_ne (by omega)]
    exact h.positions m (by omega) hm
  · intro id height p key load found hmem
    rw [hs.result, hs.inner.calls, hs.outer.calls] at hmem
    simp only [List.mem_append, List.mem_cons, MemTreeCall.fetch.injEq, reduceCtorEq, List.not_mem_nil,
      or_false] at hmem
    rcases hmem with hmem | ⟨-, -, -, -, rfl, -⟩ | ⟨-, -, -, -, rfl, -⟩
    · exact h.empty _ _ _ _ _ _ hmem
    · exact h.load
    · exact hload

/-- The fifth inner block does not fit: the outer eviction writes one into the outer tree. -/
theorem MixedStep.strays {s' : OramRun 8 N B} {MS : BlockKey → Option (BlockPath × Block 8)}
    {l l₂ : LevelResult 8 N B} (h : Filling K A 4 s t t' M M') (hs : MixedStep K A 4 s s' t t' M M' MS l l₂) :
    ∃ b ∈ pathBag K l₂.tree l₂.world.host.bufs 1, ∃ m < 5, b.key = innerKey m := by
  obtain ⟨c, hc⟩ := (h.inner_left hs.inner).overflow (hs.inner.height.trans h.innerTree.2)
  have hMSc := hs.stash.mem hc
  obtain ⟨-, m, hm, hcm⟩ := hs.stashKeys _ _ hMSc
  -- the outer eviction leaves no block behind, so this one is in a node of its path
  have hbound : Function.update (fun k => (MS k).or (M k)) (outerKey 4) (some (1,
      (fetchedContent ((MS (outerKey 4)).or (M (outerKey 4)))).written (mixedAccess 4).req)) c.key =
      some c.val := by
    rw [Function.update_of_ne (hcm ▸ (outerKey_ne_innerKey 4 (by decide) m (by omega)).symm), hMSc, Option.some_or]
  obtain ⟨b, hb, hbkey, -⟩ := hs.outer.inv.holds.exists_mem hbound
  rw [(hs.settled h (by decide)).1, zero_add, treeBag_split K l₂.tree l₂.world.host.bufs 1] at hb
  rcases Multiset.mem_add.mp hb with hb | hb
  · obtain ⟨n, hn, hnp, hbn⟩ := mem_treeBag.mp hb
    rw [hs.outer.height] at hn hnp
    rw [hs.outer.off n hn hnp] at hbn
    have hrep := h.outer.frame (fun n j => hs.inner.others t.treeId n j (by
      rw [h.outerTree.1, h.innerTree.1]; decide))
    have hmem := hrep.holds.mem (Multiset.mem_add.mpr (Or.inr
      (mem_treeBag.mpr ⟨n, hn, Finset.notMem_empty n, hbn⟩)))
    obtain ⟨-, m', hm', heq⟩ := h.outerKeys _ _ hmem
    exact absurd (heq.symm.trans (hbkey.trans hcm)) (outerKey_ne_innerKey m' (by omega) m (by omega))
  · exact ⟨b, hb, m, hm, hbkey.trans hcm⟩

/-- And flushes a block that it never put. -/
theorem MixedStep.mixes {s' : OramRun 8 N B} {MS : BlockKey → Option (BlockPath × Block 8)}
    {l l₂ : LevelResult 8 N B} (h : Filling K A 4 s t t' M M') (hs : MixedStep K A 4 s s' t t' M M' MS l l₂) :
    ¬ OwnCalls s'.calls := by
  intro hown
  obtain ⟨b, hpath, m, hm, hbm⟩ := hs.strays h
  have hflush := hown (s.calls ++ (l.calls ++ l₂.calls.dropLast))
    (.flush t.treeId t.height 1 (pathBag K l₂.tree l₂.world.host.bufs 1)) (by
      rw [hs.result, hs.outer.calls]
      simp)
  have hput : .put 1 b ∈ s.calls ++ (l.calls ++ l₂.calls.dropLast) := by
    have hmem := hflush b hpath
    rwa [h.outerTree.1] at hmem
  obtain ⟨m', hm', heq⟩ := hs.puts h (b := b) (by
    rw [hs.result]
    rcases List.mem_append.mp hput with hput | hput
    · exact List.mem_append_left _ hput
    · refine List.mem_append_right _ ?_
      rcases List.mem_append.mp hput with hput | hput
      · exact List.mem_append_left _ hput
      · exact List.mem_append_right _ (List.dropLast_subset _ hput))
  exact absurd (heq.symm.trans hbm) (outerKey_ne_innerKey m' (by omega) m (by omega))

/-- A recursive object of two levels. -/
theorem mixed_start (hK : K.Correct) (w : World 8 B) : ∃ o st t t',
    newPathOram K A .eight 65537 ⟨1, w⟩ = some (o, st) ∧
      Filling K A 0 ⟨o, st.world, [], []⟩ t t' (fun _ => none) fun _ => none := by
  have hcap : maxPosMap < 65537 := Nat.lt_succ_self 65536
  have hheight : computeTreeHeight 65537 = 17 := by simp [computeTreeHeight]
  have hheight' : computeTreeHeight 32769 = 16 := by simp [computeTreeHeight]
  have hsmall : computeTreeHeight 32769 < clientMaxPath := by
    rw [hheight']
    decide
  have hlarge : computeTreeHeight 65537 < clientMaxPath := by
    rw [hheight]
    decide
  obtain ⟨t', st₁, ht'⟩ := newTree_completes rfl K A 2 hsmall ⟨3, w⟩
  obtain ⟨t, st, ht⟩ := newTree_completes rfl K A 1 hlarge st₁
  have hnew' : newPathOram K A .eight 32769 ⟨2, w⟩ = some (.base 32769 t', st₁) :=
    (newPathOram_base_eq_some (by decide)).mpr ⟨t', ht', rfl⟩
  have hnew : newPathOram K A .eight 65537 ⟨1, w⟩ = some (.recursive 65537 t (.base 32769 t'), st) :=
    (newPathOram_rec_eq_some hcap).mpr ⟨by decide, .base 32769 t', st₁, t, hnew', ht, rfl⟩
  obtain ⟨-, -, hstash, hsubs, hload⟩ := newPathOram_first hK hnew
  obtain ⟨-, hid, hh, -, hstored⟩ := newTree_stored hK (by rw [hheight]; decide) ht st.world.host.bufs
  obtain ⟨-, hid', hh', -, hstored'⟩ := newTree_stored hK (by rw [hheight']; decide) ht' st.world.host.bufs
  refine ⟨_, st, t, t', hnew,
    { oram := rfl, outerTree := ⟨hid, hh.trans hheight⟩, innerTree := ⟨hid', hh'.trans hheight'⟩
      stash := hstash, subs := hsubs, load := hload, outer := hstored, inner := hstored'
      outerKeys := fun k v hk => by cases hk
      innerKeys := fun k v hk => by cases hk
      innerBound := fun m hm => absurd hm (Nat.not_lt_zero m)
      crowd := fun n hn _ => ?_
      positions := fun m _ _ => by rw [(newTree_first hK ht).2.2]
      puts := fun b hb => absurd hb List.not_mem_nil
      empty := fun _ _ _ _ _ _ hmem => absurd hmem List.not_mem_nil }⟩
  apply Multiset.eq_zero_of_forall_notMem
  intro b hb
  have hmem := hstored'.holds.mem (Multiset.mem_add.mpr (Or.inr
    (mem_treeBag.mpr ⟨n, by rw [hh', hheight']; exact hn, Finset.notMem_empty n, hb⟩)))
  cases hmem

/-- Four accesses fill the root of the inner tree. -/
theorem mixed_fill (hK : K.Correct) (h : Filling K A 0 s t t' M M') (i : Nat) (hi : i ≤ 4) :
    ∃ s' t₁ t₁' M₁ M₁', ((List.range i).map mixedAccess).foldlM (runAccess K .eight) s = some s' ∧
      Filling K A i s' t₁ t₁' M₁ M₁' := by
  induction i with
  | zero => exact ⟨s, t, t', M, M', rfl, h⟩
  | succ i ih =>
    obtain ⟨u, t₁, t₁', M₁, M₁', hrun, hu⟩ := ih (by omega)
    obtain ⟨s', MS, l, l₂, hstep, hs⟩ := hu.access hK (by omega)
    obtain ⟨t₂, t₂', M₂, M₂', hnext⟩ := hu.next (by omega) hs
    refine ⟨s', t₂, t₂', M₂, M₂', ?_, hnext⟩
    rw [List.range_succ, List.map_append]
    exact foldlM_append_eq_some.mpr ⟨u, hrun, by simpa using hstep⟩

end Mixed

/-- The first four accesses of `mixedRun` keep the levels apart. -/
theorem levels_apart_fourReads : ∃ o st s,
    newPathOram (Cipher.pairing 8) BufferAddrs.numbered .eight 65537 ⟨1, ⟨emptyClient 8, .filled none⟩⟩ =
        some (o, st) ∧
      ((List.range 4).map mixedAccess).foldlM (runAccess (Cipher.pairing 8) .eight) ⟨o, st.world, [], []⟩ = some s ∧
      OwnCalls s.calls ∧
      s.outs = ArrayStore.zero.run 8 (((List.range 4).map mixedAccess).map OramAccess.req) := by
  have hK := Cipher.pairing_correct 8
  obtain ⟨o, st, t, t', hnew, h₀⟩ := mixed_start (A := BufferAddrs.numbered) hK ⟨emptyClient 8, .filled none⟩
  obtain ⟨s, t₁, t₁', M₁, M₁', hrun, hs⟩ := mixed_fill hK h₀ 4 le_rfl
  refine ⟨o, st, s, hnew, hrun, levels_apart hK (by decide) hnew (fun x hx => ?_) hrun hs.empty⟩
  obtain ⟨i, -, rfl⟩ := List.mem_map.mp hx
  show 0 + 0 ≤ 8
  decide

/-- The fifth does not: a block of the inner level ends in the tree of the outer one. -/
theorem levels_mixed : ∃ o st s,
    newPathOram (Cipher.pairing 8) BufferAddrs.numbered .eight 65537 ⟨1, ⟨emptyClient 8, .filled none⟩⟩ =
        some (o, st) ∧
      mixedRun.foldlM (runAccess (Cipher.pairing 8) .eight) ⟨o, st.world, [], []⟩ = some s ∧ ¬ OwnCalls s.calls := by
  have hK := Cipher.pairing_correct 8
  obtain ⟨o, st, t, t', hnew, h₀⟩ := mixed_start (A := BufferAddrs.numbered) hK ⟨emptyClient 8, .filled none⟩
  obtain ⟨u, t₁, t₁', M₁, M₁', hrun, hu⟩ := mixed_fill hK h₀ 4 le_rfl
  obtain ⟨s, MS, l, l₂, hstep, hs⟩ := hu.access hK (by decide)
  refine ⟨o, st, s, hnew, ?_, hs.mixes hu⟩
  rw [mixedRun, List.range_succ, List.map_append]
  exact foldlM_append_eq_some.mpr ⟨u, hrun, by simpa using hstep⟩

end SgxOram
