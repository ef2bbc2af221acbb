import SgxOram.App.SimplePaths
import SgxOram.App.SimpleRoom

/-!
# What a SimpleORAM shows the server

The server sees the trace of the downloads and uploads: which nodes and buffers are read and written.

* `movesAlong` : what accesses with given paths show in a single tree; `movesAlong_inj` : the moves of each access
  can be told from the trace; `levelMoves_inj` : they tell the node of the fetch below the root;
* `simple_trace` : the trace of a run of an object with one tree is a function of the entries and of the draws;
* `simple_leaks_iff` : two lists of requests can be told apart exactly when their first accesses are not at the same
  places.
-/

namespace SgxOram
open Lib

variable {bs : Nat} {N B : Type} {D : Build bs N B} {A : BufferAddrs} {sz : BlockSize bs}

/-! ## Traces -/

/-- What accesses to a single tree with these fetch and flush paths show. -/
def movesAlong (D : Build bs N B) (A : BufferAddrs) (height : Nat) (paths flushes : List BlockPath) :
    List ServerAccess :=
  (List.zipWith (levelMoves D A 1 height) paths flushes).flatten

theorem movesAlong_concat {height : Nat} {paths flushes : List BlockPath} (h : paths.length = flushes.length)
    (p q : BlockPath) : movesAlong D A height (paths ++ [p]) (flushes ++ [q]) =
      movesAlong D A height paths flushes ++ levelMoves D A 1 height p q := by
  rw [movesAlong, List.zipWith_append h, List.flatten_append]
  simp [movesAlong]

/-- Every node is moved in equally many accesses. -/
theorem Build.length_touch (D : Build bs N B) (write : Bool) (n n' : Nat) (addrs addrs' : Fin blocksPerNode → Addr) :
    (D.touch write n addrs).length = (D.touch write n' addrs').length := by
  cases D <;> simp [Build.touch, touchAes, touchPlain]

theorem length_pathTouches (D : Build bs N B) (write : Bool) (addrs : Nat → Fin blocksPerNode → Addr)
    (p p' : BlockPath) (height : Nat) : (pathTouches (D.touch write) addrs p height).length =
      (pathTouches (D.touch write) addrs p' height).length := by
  simp only [pathTouches, List.length_flatMap]
  congr 2
  exact funext fun h => D.length_touch write _ _ _ _

theorem length_levelMoves (D : Build bs N B) (A : BufferAddrs) (id height : Nat) (p q p' q' : BlockPath) :
    (levelMoves D A id height p q).length = (levelMoves D A id height p' q').length := by
  simp only [levelMoves, pathMoves, List.length_append]
  rw [length_pathTouches D false _ p p', length_pathTouches D true _ p p', length_pathTouches D false _ q q',
    length_pathTouches D true _ q q']

/-- The moves of each access can be told from the trace. -/
theorem movesAlong_inj {height : Nat} {ps ps' qs qs' : List BlockPath} (hps : ps.length = ps'.length)
    (hqs : qs.length = qs'.length) (heq : movesAlong D A height ps qs = movesAlong D A height ps' qs') :
    List.zipWith (levelMoves D A 1 height) ps qs = List.zipWith (levelMoves D A 1 height) ps' qs' := by
  refine List.eq_iff_flatten_eq.mpr ⟨heq, List.ext_getElem (by simp [hps, hqs]) fun i _ _ => ?_⟩
  simp only [List.getElem_map, List.getElem_zipWith]
  exact length_levelMoves D A 1 height _ _ _ _

/-- The moves of a node begin with the node. -/
theorem Build.touch_eq_cons (D : Build bs N B) (write : Bool) (n : Nat) (addrs : Fin blocksPerNode → Addr) :
    ∃ len rest, D.touch write n addrs = ⟨.node n, write, len⟩ :: rest := by
  cases D with
  | aes K => exact ⟨_, _, rfl⟩
  | plain => exact ⟨_, _, rfl⟩

/-- The moves of an access tell the node of the fetch below the root. -/
theorem levelMoves_inj {id height : Nat} (h2 : 2 ≤ height) {p q p' q' : BlockPath}
    (heq : levelMoves D A id height p q = levelMoves D A id height p' q') :
    nodeAddr p.toNat 1 = nodeAddr p'.toNat 1 := by
  obtain ⟨h, rfl⟩ := Nat.exists_eq_add_of_le' h2
  have hsplit : ∀ p : BlockPath, pathTouches (D.touch false) (A.addr id) p (h + 2) =
      D.touch false 0 (A.addr id 0) ++ (D.touch false (nodeAddr p.toNat 1) (A.addr id (nodeAddr p.toNat 1)) ++
        (List.range h).flatMap fun r =>
          D.touch false (nodeAddr p.toNat (r + 2)) (A.addr id (nodeAddr p.toNat (r + 2)))) := by
    intro p
    rw [pathTouches, List.range_succ_eq_map, List.range_succ_eq_map]
    simp only [List.map_cons, List.flatMap_cons, List.map_map, List.flatMap_map, nodeAddr_zero]
    rfl
  simp only [levelMoves, pathMoves, hsplit, List.append_assoc] at heq
  have hnext := List.append_cancel_left heq
  obtain ⟨len, rest, hp⟩ := D.touch_eq_cons false (nodeAddr p.toNat 1) (A.addr id (nodeAddr p.toNat 1))
  obtain ⟨len', rest', hp'⟩ := D.touch_eq_cons false (nodeAddr p'.toNat 1) (A.addr id (nodeAddr p'.toNat 1))
  rw [hp, hp', List.cons_append, List.cons_append, List.cons.injEq] at hnext
  exact ServerPlace.node.inj (congrArg ServerAccess.place hnext.1)

/-! ## Runs of an object with one tree -/

theorem reveals_lastDrawn (as : List SimpleAccess) (a : SimpleAccess) :
    reveals (fun _ => none) ((as ++ [a]).map SimpleAccess.redraw) =
      reveals (fun _ => none) (as.map SimpleAccess.redraw) ++ [(lastDrawn as a.req.ind).getD 0] := by
  rw [List.map_append, List.map_singleton, reveals_concat, positions_redraw]
  rfl

/-- An access fetches along the position of its entry, 0 if it has none, and flushes along its draw. -/
theorem simple_trace (hD : D.Correct) (hsz : sz.val = bs) {capacity : Nat} (hcap : capacity ≤ maxPosMap)
    {w : World bs B} {o : SimpleOram N} {st : Process bs B}
    (hnew : newSimpleOram D A sz capacity ⟨1, w⟩ = some (o, st))
    {as : List SimpleAccess} {s : SimpleRun bs N B}
    (hrun : as.foldlM (runSimpleAccess D sz) ⟨o, st.world, []⟩ = some s) :
    s.world.host.trace = st.world.host.trace ++ movesAlong D A (computeTreeHeight capacity)
      (reveals (fun _ => none) (as.map SimpleAccess.redraw)) (as.map fun a => (a.draws 0).flushPath) := by
  have hheight := computeTreeHeight_lt_clientMaxPath hcap
  refine (foldlM_inv (P := fun done (s : SimpleRun bs N B) =>
      (PosMapHolds D A 1 (lastDrawn done) s.world s.oram ∧ s.oram.tree.height = computeTreeHeight capacity ∧
        ∃ t, s.oram = .base capacity t) ∧
      s.world.host.trace = st.world.host.trace ++ movesAlong D A (computeTreeHeight capacity)
        (reveals (fun _ => none) (done.map SimpleAccess.redraw)) (done.map fun a => (a.draws 0).flushPath)) as _ s
    ⟨⟨newSimpleOram_posMap hD hheight hnew, (newSimpleOram_spec hD capacity hheight hnew).1,
      newSimpleOram_isBase hcap hnew⟩, (List.append_nil _).symm⟩ ?_ hrun).2
  rintro done a u v - ⟨⟨hholds, htree, hbase⟩, htrace⟩ hstep
  have hbase' := runSimpleAccess_isBase hbase hstep
  obtain ⟨r, hr, rfl⟩ := runSimpleAccess_eq_some.mp hstep
  obtain ⟨⟨ps, hps⟩, hholds', htree'⟩ := hholds.access hD hsz hr
  refine ⟨⟨(lastDrawn_concat done a) ▸ hholds', htree'.trans htree, hbase'⟩, ?_⟩
  obtain ⟨t, ht⟩ := hbase
  have hpath : ps 0 = (lastDrawn done a.req.ind).getD 0 := by
    cases hlast : lastDrawn done a.req.ind with
    | none => exact hps.unplaced hlast capacity t ht
    | some p => exact hps.placed p hlast
  have hmoves : u.oram.moves D A 1 ps a.draws =
      levelMoves D A 1 (computeTreeHeight capacity) ((lastDrawn done a.req.ind).getD 0) (a.draws 0).flushPath := by
    rw [ht] at htree ⊢
    rw [SimpleOram.moves, hpath, show t.height = computeTreeHeight capacity from htree]
  rw [hps.trace, hmoves, htrace, reveals_lastDrawn, List.map_append, List.map_singleton,
    movesAlong_concat (by simp [length_reveals]), List.append_assoc]

/-! ## Two lists of requests -/

section Leak
variable {capacity n : Nat} {reqs reqs' : Fin n → Request}

/-- Requests within the object, for at most as many entries as the root has slots. -/
structure SimpleServable (bs capacity : Nat) (reqs : Fin n → Request) : Prop where
  ind : ∀ i, (reqs i).ind < capacity
  fits : ∀ i, (reqs i).writeOffset + (reqs i).writeSize ≤ bs
  room : (accessedEntries (List.ofFn reqs)).card ≤ blocksPerNode

/-- The draws of `n` accesses: the new paths and the flush paths. -/
abbrev DrawnPaths (n : Nat) := (Fin n → RandPath) × (Fin n → BlockPath)

/-- The accesses of the requests with the draws `E`. -/
def simpleAccessesOf (reqs : Fin n → Request) (E : DrawnPaths n) : List SimpleAccess :=
  List.ofFn fun i => ⟨fun _ => ⟨E.1 i, E.2 i⟩, reqs i⟩

/-- The run of the requests with the draws `E` leaves the trace `T` with the server. -/
def LeavesTrace (D : Build bs N B) (sz : BlockSize bs) (o : SimpleOram N) (w : World bs B) (reqs : Fin n → Request)
    (E : DrawnPaths n) (T : List ServerAccess) : Prop :=
  ∃ s, (simpleAccessesOf reqs E).foldlM (runSimpleAccess D sz) ⟨o, w, []⟩ = some s ∧ s.world.host.trace = T

/-- The paths that the requests fetch along. -/
def fetchedAlong (reqs : Fin n → Request) (next : Fin n → RandPath) : List BlockPath :=
  reveals (fun _ => none) (accesses (fun i => (reqs i).ind) (Sum.elim (fun i => (next i).1) fun _ => 0))

theorem length_fetchedAlong (reqs : Fin n → Request) (next : Fin n → RandPath) :
    (fetchedAlong reqs next).length = n := by
  rw [fetchedAlong, length_reveals, accesses, List.length_ofFn]

/-- A run leaves the trace that the entries and the draws determine. -/
theorem SimpleServable.leaves_iff (h : SimpleServable bs capacity reqs) (hD : D.Correct) (hsz : sz.val = bs)
    (hbs : 0 < bs) (hcap : capacity ≤ maxPosMap) {w : World bs B} {o : SimpleOram N} {st : Process bs B}
    (hnew : newSimpleOram D A sz capacity ⟨1, w⟩ = some (o, st)) (E : DrawnPaths n) (T : List ServerAccess) :
    LeavesTrace D sz o st.world reqs E T ↔ st.world.host.trace ++
      movesAlong D A (computeTreeHeight capacity) (fetchedAlong reqs E.1) (List.ofFn E.2) = T := by
  have hreqs : (simpleAccessesOf reqs E).map SimpleAccess.req = List.ofFn reqs := by
    rw [simpleAccessesOf, List.map_ofFn]
    rfl
  have hfit : ∀ a ∈ simpleAccessesOf reqs E, a.req.ind < capacity ∧ a.req.writeOffset + a.req.writeSize ≤ bs := by
    intro a ha
    obtain ⟨i, rfl⟩ := List.mem_ofFn.mp ha
    exact ⟨h.ind i, h.fits i⟩
  obtain ⟨s, hs⟩ := simple_completes hD hsz hbs (computeTreeHeight_lt_clientMaxPath hcap) hnew hfit (hreqs ▸ h.room)
  have htrace := simple_trace hD hsz hcap hnew hs
  have hpaths : (simpleAccessesOf reqs E).map SimpleAccess.redraw =
      accesses (fun i => (reqs i).ind) (Sum.elim (fun i => (E.1 i).1) fun _ => 0) := by
    rw [simpleAccessesOf, List.map_ofFn]
    rfl
  have hflush : ((simpleAccessesOf reqs E).map fun a => (a.draws 0).flushPath) = List.ofFn E.2 := by
    rw [simpleAccessesOf, List.map_ofFn]
    rfl
  rw [hpaths, hflush] at htrace
  constructor
  · rintro ⟨u, hu, rfl⟩
    rw [Option.some.inj (hu.symm.trans hs), htrace]
    rfl
  · rintro rfl
    exact ⟨s, hs, htrace⟩

/-- Path 0 shows the first accesses. -/
theorem fetchedAlong_zero_iff (reqs : Fin n → Request) (next : Fin n → RandPath) (i : Fin n) :
    (fetchedAlong reqs next)[i.1]? = some 0 ↔ FirstAt (fun i => (reqs i).ind) i := by
  have hne : ∀ j, (next j).1 ≠ (fun _ => 0 : Fin n → BlockPath) i := fun j => (next j).2
  exact reveals_spare_iff _ hne

/-- If all draws are 1, the other accesses fetch along path 1. -/
theorem mem_fetchedAlong_one {reqs : Fin n → Request} {p : BlockPath}
    (hp : p ∈ fetchedAlong reqs fun _ => .of 1) : p = 0 ∨ p = 1 := by
  rcases mem_reveals hp with ⟨a, ha⟩ | hdrawn
  · cases ha
  · obtain ⟨x, hx, hpx⟩ := List.mem_flatMap.mp hdrawn
    obtain ⟨i, rfl⟩ := List.mem_ofFn.mp hx
    rcases List.mem_pair.mp hpx with rfl | rfl
    · exact Or.inr rfl
    · exact Or.inl rfl

/-- If the draws that are all 1 leave a trace that some draws leave for other requests, the first accesses of
these are first accesses. -/
theorem first_of_moves {height : Nat} (h2 : 2 ≤ height) {next : Fin n → RandPath} {qs qs' : Fin n → BlockPath}
    (heq : movesAlong D A height (fetchedAlong reqs fun _ => .of 1) (List.ofFn qs) =
      movesAlong D A height (fetchedAlong reqs' next) (List.ofFn qs')) {i : Fin n}
    (hfirst : FirstAt (fun i => (reqs' i).ind) i) : FirstAt (fun i => (reqs i).ind) i := by
  have hlen := length_fetchedAlong reqs fun _ => .of 1
  have hlen' := length_fetchedAlong reqs' next
  have hmoves := movesAlong_inj (hlen.trans hlen'.symm) (by simp) heq
  have hi : i.1 < (fetchedAlong reqs fun _ => .of 1).length := hlen.symm ▸ i.2
  have hi' : i.1 < (fetchedAlong reqs' next).length := hlen'.symm ▸ i.2
  have hat := congrArg (fun l => l[i.1]?) hmoves
  simp only [List.getElem?_zipWith, List.getElem?_eq_getElem hi, List.getElem?_eq_getElem hi',
    List.getElem?_eq_getElem (show i.1 < (List.ofFn qs).length by simp),
    List.getElem?_eq_getElem (show i.1 < (List.ofFn qs').length by simp), Option.some.injEq] at hat
  have hnode := levelMoves_inj h2 hat
  rw [← fetchedAlong_zero_iff reqs' next, List.getElem?_eq_getElem hi', Option.some.injEq] at hfirst
  rw [hfirst] at hnode
  rw [← fetchedAlong_zero_iff reqs fun _ => .of 1, List.getElem?_eq_getElem hi, Option.some.injEq]
  refine (mem_fetchedAlong_one (List.getElem_mem hi)).resolve_right fun hone => ?_
  rw [hone] at hnode
  exact absurd hnode (by decide)

theorem leaves_of_card {o : SimpleOram N} {w : World bs B} {T : List ServerAccess}
    (hcard : Nat.card {E : DrawnPaths n // LeavesTrace D sz o w reqs E T} =
      Nat.card {E : DrawnPaths n // LeavesTrace D sz o w reqs' E T}) {E : DrawnPaths n}
    (hE : LeavesTrace D sz o w reqs E T) : ∃ E', LeavesTrace D sz o w reqs' E' T := by
  have hfin : Finite BlockPath := Finite.of_equiv _ FinEnum.equiv.symm
  have hpos : Nat.card {E : DrawnPaths n // LeavesTrace D sz o w reqs E T} ≠ 0 :=
    Nat.card_ne_zero.mpr ⟨⟨⟨E, hE⟩⟩, inferInstance⟩
  rw [hcard] at hpos
  obtain ⟨⟨⟨E', hE'⟩⟩, -⟩ := Nat.card_ne_zero.mp hpos
  exact ⟨E', hE'⟩

/-- Two lists of requests leave each trace with the server for equally many draws if and only if their first
accesses to an entry are at the same places: the trace tells the server where these are, and nothing else. -/
theorem simple_leaks_iff (hD : D.Correct) (hsz : sz.val < 2 ^ 32) (hbs : 0 < bs) (hcap : capacity ≤ maxPosMap)
    {w : World bs B} {o : SimpleOram N} {st : Process bs B}
    (hnew : newSimpleOram D A sz capacity ⟨1, w⟩ = some (o, st))
    (h : SimpleServable bs capacity reqs) (h' : SimpleServable bs capacity reqs') :
    (∀ T, Nat.card {E : DrawnPaths n // LeavesTrace D sz o st.world reqs E T} =
        Nat.card {E : DrawnPaths n // LeavesTrace D sz o st.world reqs' E T}) ↔
      ∀ i, FirstAt (fun i => (reqs i).ind) i ↔ FirstAt (fun i => (reqs' i).ind) i := by
  have hsz := sz.eq_of_lt hsz
  constructor
  · intro hcount i
    by_cases hone : capacity ≤ 1
    · have hsame : (fun i => (reqs i).ind) = fun i => (reqs' i).ind := funext fun j => by
        have hj := h.ind j
        have hj' := h'.ind j
        omega
      rw [hsame]
    · have h2 : 2 ≤ computeTreeHeight capacity := by
        by_contra hlt
        have := (computeTreeHeight_le_iff capacity 1).mp (by omega)
        omega
      -- whatever the draws of the one list show, some draws of the other list show too
      have hfirst : ∀ {reqs reqs' : Fin n → Request}, SimpleServable bs capacity reqs →
          SimpleServable bs capacity reqs' →
          (∀ T, Nat.card {E : DrawnPaths n // LeavesTrace D sz o st.world reqs E T} =
            Nat.card {E : DrawnPaths n // LeavesTrace D sz o st.world reqs' E T}) →
          FirstAt (fun i => (reqs' i).ind) i → FirstAt (fun i => (reqs i).ind) i := by
        intro reqs reqs' h h' hcount
        have hE := (h.leaves_iff hD hsz hbs hcap hnew ⟨fun _ => .of 1, fun _ => 0⟩ _).mpr rfl
        obtain ⟨E', hE'⟩ := leaves_of_card (hcount _) hE
        have heq := List.append_cancel_left ((h'.leaves_iff hD hsz hbs hcap hnew E' _).mp hE')
        exact first_of_moves h2 heq.symm
      exact ⟨hfirst h' h fun T => (hcount T).symm, hfirst h h' hcount⟩
  · intro hfirst T
    obtain ⟨π, hπ⟩ := exists_coupling_first (P := BlockPath) hfirst
    refine Nat.card_congr (Equiv.subtypeEquiv ((π.symm.arrowCongr (Equiv.refl _)).prodCongr (Equiv.refl _)) fun E => ?_)
    rw [h.leaves_iff hD hsz hbs hcap hnew, h'.leaves_iff hD hsz hbs hcap hnew]
    have hpaths : fetchedAlong reqs' (E.1 ∘ π) = fetchedAlong reqs E.1 := hπ (fun i => (E.1 i).1) fun _ => 0
    rw [← hpaths]
    rfl

end Leak

/-- Reads of entry 0, and of the two entries in turn. -/
def readSame : Fin 2 → Request := fun _ => ⟨0, fun _ => 0, 0, 0⟩

def readBoth : Fin 2 → Request := fun i => ⟨i.1, fun _ => 0, 0, 0⟩

theorem simple_leaks_iff_reads : ∃ o st,
    newSimpleOram .plain .numbered .eight 2 ⟨1, ⟨emptyClient 8, .filled (zeroBlock 8)⟩⟩ = some (o, st) ∧
      ¬ ∀ T, Nat.card {E : DrawnPaths 2 // LeavesTrace .plain .eight o st.world readSame E T} =
        Nat.card {E : DrawnPaths 2 // LeavesTrace .plain .eight o st.world readBoth E T} := by
  obtain ⟨⟨o, st⟩, hnew⟩ := Option.isSome_iff_exists.mp (show smallObject.isSome = true from rfl)
  rw [← newSimpleOram_smallObject] at hnew
  have hsame : SimpleServable 8 2 readSame := ⟨fun _ => Nat.zero_lt_two, fun _ => Nat.zero_le 8, by decide⟩
  have hboth : SimpleServable 8 2 readBoth := ⟨fun i => i.2, fun _ => Nat.zero_le 8, by decide⟩
  refine ⟨o, st, hnew, fun hcount => ?_⟩
  have hfirst :=
    (simple_leaks_iff (Build.plain_correct 8) (by decide) (by decide) (by decide) hnew hsame hboth).mp hcount 1
  have hne : ∀ j : Fin 2, j < 1 → j.1 ≠ 1 := by decide
  exact hfirst.mpr hne 0 (by decide) rfl

end SgxOram
