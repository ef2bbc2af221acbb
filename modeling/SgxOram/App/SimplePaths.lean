import SgxOram.App.SimpleOramArray
import SgxOram.App.PathDraws

/-!
# The paths of a SimpleORAM

`AccessSimpleORAM` does not draw again when the position map has no path for an entry. The paths are read off the
trace that the downloads and uploads leave with the server.

* `SimpleOram.moves` : what the server sees of an access, level by level; `SimpleInv.moves` : every access shows
  this, along some paths;
* `PosMapHolds` : the position map, in the client or in the next object, holds the positions of the entries that
  have been accessed; `PosMapHolds.access` : an access keeps it, and fetches along the position of its entry;
* `simple_paths` : the paths of a run. In an object with one tree the server sees which accesses are the first to
  their entries.
-/

namespace SgxOram
open Lib

variable {bs : Nat} {N B : Type} {D : Build bs N B} {A : BufferAddrs} {sz : BlockSize bs}

/-- What the server sees of an access, the innermost level first. The level `k` further in fetches along `ps k` and
flushes along its draw. -/
def SimpleOram.moves (D : Build bs N B) (A : BufferAddrs) : SimpleOram N → Nat → (Nat → BlockPath) →
    (Nat → SimpleDraws) → List ServerAccess
  | .base _ t, id, ps, draws => levelMoves D A id t.height (ps 0) (draws 0).flushPath
  | .recursive _ t posMap, id, ps, draws =>
    posMap.moves D A (id + 1) (fun k => ps (k + 1)) (fun k => draws (k + 1)) ++
      levelMoves D A id t.height (ps 0) (draws 0).flushPath

/-- The path `p` before the paths `ps`. -/
def consPath (p : BlockPath) (ps : Nat → BlockPath) : Nat → BlockPath
  | 0 => p
  | k + 1 => ps k

/-- Every access shows the moves of its levels. -/
theorem SimpleInv.moves (hD : D.Correct) (hsz : sz.val = bs) {top : Prop} {id : Nat} {o : SimpleOram N}
    {a : ArrayStore} {κ : Known} {w : World bs B} (h : SimpleInv D A w.host.bufs w.client.pathMm top id o a κ)
    {draws : Nat → SimpleDraws} {req : Request} {r : SimpleResult bs N B}
    (hrun : accessSimpleOram D sz o draws req w = some r) :
    ∃ ps, r.world.host.trace = w.host.trace ++ o.moves D A id ps draws := by
  generalize hb : w.host.bufs = bufs at h
  generalize hmm : w.client.pathMm = pathMm at h
  induction h generalizing draws req w r with
  | @base _ id capacity t _ _ _ level =>
    subst hb hmm
    obtain ⟨-, l, hl, rfl⟩ := accessSimpleOram_base.mp hrun
    have hstart : TreeSound D A id t (w.withPathMm
      (Function.update w.client.pathMm req.ind (draws 0).newBlockPath.1)).host.bufs := level.stored.sound
    exact ⟨fun _ => w.client.pathMm req.ind, (hstart.access hD hl).trace⟩
  | @recursive _ id _ _ _ _ _ _ _ _ level known lower inner ih =>
    subst hb hmm
    obtain ⟨⟨-, hbs⟩, i, l, hi, hl, rfl⟩ := accessSimpleOram_rec.mp hrun
    obtain ⟨ps, hps⟩ := ih hi rfl rfl
    rw [hsz] at hbs hi
    have hin := inner.access hD (fun hfalse => hfalse.elim) hsz (posMapRequest_fits hbs req.ind _) hi
    have hframe := level.frame (hin.others.mono (Set.singleton_subset_iff.mpr (Nat.lt_succ_self id)))
    have hleft := hframe.stored.sound.access hD hl
    refine ⟨consPath (pathOfBuffer i.block) ps, ?_⟩
    rw [hleft.trace, hps, List.append_assoc]
    rfl

/-! ## The position map -/

/-- The position map of the object `id` gives the entries of `pos` their positions. The client holds zeros for the
other entries; what the next object holds for them is not known. -/
inductive PosMapHolds (D : Build bs N B) (A : BufferAddrs) (id : Nat) (pos : Nat → Option BlockPath)
    (w : World bs B) : SimpleOram N → Prop
  | base {capacity : Nat} {t : MemTree N} (sound : TreeSound D A id t w.host.bufs)
      (placed : ∀ ind, w.client.pathMm ind = (pos ind).getD 0) : PosMapHolds D A id pos w (.base capacity t)
  | recursive {capacity : Nat} {t : MemTree N} {o : SimpleOram N} {a : ArrayStore} {κ : Known}
      (sound : TreeSound D A id t w.host.bufs)
      (inner : SimpleInv D A w.host.bufs w.client.pathMm False (id + 1) o a κ)
      (placed : ∀ ind p, pos ind = some p → PositionKnown bs κ ind ∧ storedPosition bs a ind = p) :
      PosMapHolds D A id pos w (.recursive capacity t o)

/-- What an access of a given position does: it shows its moves, with the outermost fetch along the position, or
along path 0 if the position map is the client's and gives none. -/
structure FetchedAlong (D : Build bs N B) (A : BufferAddrs) (id : Nat) (position : Option BlockPath)
    (o : SimpleOram N) (draws : Nat → SimpleDraws) (w w' : World bs B) (ps : Nat → BlockPath) : Prop where
  trace : w'.host.trace = w.host.trace ++ o.moves D A id ps draws
  placed : ∀ p, position = some p → ps 0 = p
  unplaced : position = none → ∀ capacity t, o = .base capacity t → ps 0 = 0

section PosMapHolds
variable {id : Nat} {pos : Nat → Option BlockPath} {w : World bs B} {o : SimpleOram N} {draws : Nat → SimpleDraws}
  {req : Request}

/-- An access fetches along the position of its entry and places it anew. -/
theorem PosMapHolds.access (hD : D.Correct) (hsz : sz.val = bs) (h : PosMapHolds D A id pos w o)
    {r : SimpleResult bs N B} (hrun : accessSimpleOram D sz o draws req w = some r) :
    (∃ ps, FetchedAlong D A id (pos req.ind) o draws w r.world ps) ∧
      PosMapHolds D A id (Function.update pos req.ind (some (draws 0).newBlockPath.1)) r.world r.oram ∧
      r.oram.tree.height = o.tree.height := by
  cases h with
  | @base capacity t sound placed =>
    obtain ⟨-, l, hl, rfl⟩ := accessSimpleOram_base.mp hrun
    have hstart : TreeSound D A id t (w.withPathMm
      (Function.update w.client.pathMm req.ind (draws 0).newBlockPath.1)).host.bufs := sound
    have hleft := hstart.access hD hl
    refine ⟨⟨fun _ => w.client.pathMm req.ind, hleft.trace, fun p hp => ?_, fun hnone _ _ _ => ?_⟩,
      .base hleft.sound fun ind => ?_, hleft.step.height⟩
    · exact (placed req.ind).trans (by rw [hp, Option.getD_some])
    · exact (placed req.ind).trans (by rw [hnone, Option.getD_none])
    · rw [hleft.pathMm, World.withPathMm_pathMm]
      by_cases hind : ind = req.ind
      · subst hind
        rw [Function.update_self, Function.update_self]
        rfl
      · rw [Function.update_of_ne hind, Function.update_of_ne hind]
        exact placed ind
  | @recursive capacity t o a κ sound inner placed =>
    obtain ⟨⟨-, hbs⟩, i, l, hi, hl, rfl⟩ := accessSimpleOram_rec.mp hrun
    obtain ⟨ps, hps⟩ := inner.moves hD hsz hi
    rw [hsz] at hbs hi
    have hin := inner.access hD (fun hfalse => hfalse.elim) hsz (posMapRequest_fits hbs req.ind _) hi
    have hstart := sound.frame (hin.others.mono (Set.singleton_subset_iff.mpr (Nat.lt_succ_self id)))
    have hleft := hstart.access hD hl
    have hinner := hin.inv.frame (hleft.step.others.mono (sound.treeId ▸ above_subset _))
    rw [← hleft.pathMm] at hinner
    refine ⟨⟨consPath (pathOfBuffer i.block) ps, ?_, fun p hp => ?_, fun _ _ _ ho => by cases ho⟩,
      .recursive hleft.sound hinner fun ind p hp => ?_, hleft.step.height⟩
    · rw [hleft.trace, hps, List.append_assoc]
      rfl
    · obtain ⟨hknown, hposition⟩ := placed req.ind p hp
      exact (hknown.read hin.block).trans hposition
    · rw [storedPosition_write]
      by_cases hind : ind = req.ind
      · subst hind
        rw [Function.update_self] at hp ⊢
        exact ⟨positionKnown_write κ req.ind _, Option.some.inj hp⟩
      · rw [Function.update_of_ne hind] at hp ⊢
        obtain ⟨hknown, hposition⟩ := placed ind p hp
        exact ⟨hknown.write _, hposition⟩

end PosMapHolds

/-! ## Runs -/

/-- An access as an access to a table of positions. -/
def SimpleAccess.redraw (a : SimpleAccess) : Redraw Nat BlockPath := ⟨a.req.ind, (a.draws 0).newBlockPath, 0⟩

/-- What the last access to entry `ind` has drawn for it. -/
def lastDrawn (as : List SimpleAccess) (ind : Nat) : Option BlockPath :=
  (as.reverse.find? fun a => a.req.ind = ind).map fun a => (a.draws 0).newBlockPath.1

theorem positions_redraw (as : List SimpleAccess) :
    positions (fun _ => none) (as.map SimpleAccess.redraw) = lastDrawn as := by
  funext ind
  rw [positions_eq_find, ← List.map_reverse, List.find?_map, Option.map_map]
  rfl

theorem lastDrawn_concat (as : List SimpleAccess) (a : SimpleAccess) :
    lastDrawn (as ++ [a]) = Function.update (lastDrawn as) a.req.ind (some (a.draws 0).newBlockPath.1) := by
  rw [← positions_redraw, ← positions_redraw, List.map_append, List.map_singleton, positions_concat]
  rfl

/-- A fresh object has placed nothing. -/
theorem newSimpleOram_posMap (hD : D.Correct) {capacity : Nat} (hcap : computeTreeHeight capacity < clientMaxPath)
    {w : World bs B} {o : SimpleOram N} {st : Process bs B}
    (hnew : newSimpleOram D A sz capacity ⟨1, w⟩ = some (o, st)) : PosMapHolds D A 1 (lastDrawn []) st.world o := by
  obtain ⟨-, hinv, c, hc⟩ := newSimpleOram_spec hD capacity hcap hnew
  rw [initClientOnce, if_pos rfl] at hc
  have hmm := (ecallInitClient_spec hc).2.2.2.2
  cases hinv True st.world.client.pathMm with
  | base level => exact .base level.stored.sound fun ind => congrFun hmm ind
  | recursive level known lower inner => exact .recursive level.stored.sound inner fun _ _ h => by cases h

/-- An object whose positions fit the client has one tree. -/
theorem newSimpleOram_isBase {capacity : Nat} (hcap : capacity ≤ maxPosMap) {s st : Process bs B} {o : SimpleOram N}
    (hnew : newSimpleOram D A sz capacity s = some (o, st)) : ∃ t, o = .base capacity t := by
  rw [newSimpleOram_base D A sz hcap, Option.map_eq_some_iff] at hnew
  obtain ⟨⟨t, st'⟩, -, heq⟩ := hnew
  exact ⟨t, (Prod.mk.inj heq).1.symm⟩

theorem runSimpleAccess_isBase {capacity : Nat} {s s' : SimpleRun bs N B} (hbase : ∃ t, s.oram = .base capacity t)
    {a : SimpleAccess} (hstep : runSimpleAccess D sz s a = some s') : ∃ t, s'.oram = .base capacity t := by
  obtain ⟨t, ht⟩ := hbase
  obtain ⟨r, hr, rfl⟩ := runSimpleAccess_eq_some.mp hstep
  rw [ht] at hr
  obtain ⟨-, l, -, rfl⟩ := accessSimpleOram_base.mp hr
  exact ⟨l.tree, rfl⟩

/-- The position map after a run. -/
theorem simple_posMap (hD : D.Correct) (hsz : sz.val = bs) {capacity : Nat}
    (hcap : computeTreeHeight capacity < clientMaxPath) {w : World bs B} {o : SimpleOram N} {st : Process bs B}
    (hnew : newSimpleOram D A sz capacity ⟨1, w⟩ = some (o, st)) {as : List SimpleAccess} {s : SimpleRun bs N B}
    (hrun : as.foldlM (runSimpleAccess D sz) ⟨o, st.world, []⟩ = some s) :
    PosMapHolds D A 1 (lastDrawn as) s.world s.oram ∧
      (capacity ≤ maxPosMap → ∃ t, s.oram = .base capacity t) := by
  refine foldlM_inv (P := fun done (s : SimpleRun bs N B) => PosMapHolds D A 1 (lastDrawn done) s.world s.oram ∧
      (capacity ≤ maxPosMap → ∃ t, s.oram = .base capacity t)) as _ s
    ⟨newSimpleOram_posMap hD hcap hnew, fun hle => newSimpleOram_isBase hle hnew⟩ ?_ hrun
  rintro done a u v - ⟨hholds, hbase⟩ hstep
  refine ⟨?_, fun hle => runSimpleAccess_isBase (hbase hle) hstep⟩
  obtain ⟨r, hr, rfl⟩ := runSimpleAccess_eq_some.mp hstep
  rw [lastDrawn_concat]
  exact (hholds.access hD hsz hr).2.1

/-- The trace of an access shows one fetch and one flush in each tree. The outermost fetch is along what the last
access before to the same entry has drawn; in an object with one tree a first access to an entry fetches along
path 0. -/
theorem simple_paths (hD : D.Correct) (hsz : sz.val < 2 ^ 32) {capacity : Nat}
    (hcap : computeTreeHeight capacity < clientMaxPath) {w : World bs B} {o : SimpleOram N} {st : Process bs B}
    (hnew : newSimpleOram D A sz capacity ⟨1, w⟩ = some (o, st)) {before : List SimpleAccess} {s s' : SimpleRun bs N B}
    (hrun : before.foldlM (runSimpleAccess D sz) ⟨o, st.world, []⟩ = some s) {a : SimpleAccess}
    (hstep : runSimpleAccess D sz s a = some s') :
    ∃ ps, s'.world.host.trace = s.world.host.trace ++ s.oram.moves D A 1 ps a.draws ∧
      (∀ p, lastDrawn before a.req.ind = some p → ps 0 = p) ∧
      (capacity ≤ maxPosMap → (ps 0 = 0 ↔ ∀ b ∈ before, b.req.ind ≠ a.req.ind)) := by
  have hsz := sz.eq_of_lt hsz
  obtain ⟨hholds, hbase⟩ := simple_posMap hD hsz hcap hnew hrun
  obtain ⟨r, hr, rfl⟩ := runSimpleAccess_eq_some.mp hstep
  obtain ⟨⟨ps, hps⟩, -⟩ := hholds.access hD hsz hr
  refine ⟨ps, hps.trace, hps.placed, fun hle => ?_⟩
  obtain ⟨t, ht⟩ := hbase hle
  cases hlast : before.reverse.find? fun b => b.req.ind = a.req.ind with
  | none =>
    refine iff_of_true (hps.unplaced (by rw [lastDrawn, hlast, Option.map_none]) capacity t ht) fun b hb heq => ?_
    exact List.find?_eq_none.mp hlast b (List.mem_reverse.mpr hb) (decide_eq_true heq)
  | some b =>
    have hp := hps.placed (b.draws 0).newBlockPath.1 (by rw [lastDrawn, hlast, Option.map_some])
    refine iff_of_false (fun h0 => (b.draws 0).newBlockPath.2 (hp.symm.trans h0)) fun hnone => ?_
    have hmem := List.mem_reverse.mp (List.mem_of_find?_eq_some hlast)
    have hsame := List.find?_some hlast
    exact hnone b hmem (of_decide_eq_true hsame)

/-- The read after two writes to its entry fetches along what the second one has drawn. -/
theorem simple_paths_twoWrites : ∃ o st, ∃ s s' : SimpleRun 8 MemTreeNode (Block 8),
    newSimpleOram .plain .numbered .eight 2 ⟨1, ⟨emptyClient 8, .filled (zeroBlock 8)⟩⟩ = some (o, st) ∧
      (twoWrites.take 2).foldlM (runSimpleAccess .plain .eight) ⟨o, st.world, []⟩ = some s ∧
      runSimpleAccess .plain .eight s ⟨fun _ => ⟨.of 2, 9⟩, ⟨1, fun _ => 0, 0, 0⟩⟩ = some s' ∧
      ∃ ps, s'.world.host.trace = s.world.host.trace ++
          s.oram.moves (.plain : Build 8 MemTreeNode (Block 8)) .numbered 1 ps (fun _ => ⟨.of 2, 9⟩) ∧
        ps 0 = 6 := by
  obtain ⟨s', hs⟩ := Option.isSome_iff_exists.mp smallObject_runs
  obtain ⟨⟨o, st⟩, hnew, hrun⟩ := Option.bind_eq_some_iff.mp hs
  rw [← newSimpleOram_smallObject] at hnew
  rw [show twoWrites = twoWrites.take 2 ++ [⟨fun _ => ⟨.of 2, 9⟩, ⟨1, fun _ => 0, 0, 0⟩⟩] from rfl,
    List.foldlM_append, Option.bind_eq_bind, Option.bind_eq_some_iff] at hrun
  obtain ⟨s, hrun, hstep⟩ := hrun
  simp only [List.foldlM_cons, List.foldlM_nil, bind_pure] at hstep
  have hcap := computeTreeHeight_lt_clientMaxPath (show 2 ≤ maxPosMap by decide)
  obtain ⟨ps, htrace, hlast, -⟩ := simple_paths (Build.plain_correct 8) (by decide) hcap hnew hrun hstep
  exact ⟨o, st, s, s', hnew, hrun, hstep, ps, htrace, hlast 6 rfl⟩

end SgxOram
