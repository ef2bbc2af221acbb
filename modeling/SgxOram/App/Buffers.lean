import SgxOram.App.PathOramArray

/-!
# Block buffers and the server's view

None of this depends on what the stash holds, nor on how many objects share it.

* `callTrace` : the accesses to the server's tree that a call makes, from the tree, the path and the
  buffer addresses alone;
* `accessLevel_buffers` : a level of an access leaves its tree its buffers and makes these accesses;
* `buffers_owned` : in a process with any number of objects the buffers keep their owners;
* `server_view` : two runs that fetch along the same paths look the same to the server.
-/

namespace SgxOram
open Lib

variable {bs : Nat} {N B : Type} {sz : BlockSize bs}

/-! ## What a call shows the server -/

/-- The reads of a download along `p`. -/
def pathReads (bs : Nat) (addrs : Nat → Fin blocksPerNode → Addr) (height : Nat) (p : BlockPath) :
    List ServerAccess :=
  (List.range height).flatMap fun h =>
    ⟨.node (nodeAddr p.toNat h), false, sizeofEncMemTreeNode⟩ ::
      (List.finRange blocksPerNode).map fun i =>
        ⟨.buffer (addrs (nodeAddr p.toNat h) i), false, encBlockLen bs⟩

/-- The writes of an eviction along `p`. -/
def pathWrites (bs : Nat) (addrs : Nat → Fin blocksPerNode → Addr) (height : Nat) (p : BlockPath) :
    List ServerAccess :=
  (evictLevels height).flatMap fun h => nodeWrites bs (addrs (nodeAddr p.toNat h)) (nodeAddr p.toNat h)

/-- The accesses to the server's tree of one call. -/
def callTrace (A : BufferAddrs) : MemTreeCall bs → List ServerAccess
  | .fetch id height p _ _ _ => pathReads bs (A.addr id) height p
  | .put _ _ => []
  | .flush id height p _ => pathWrites bs (A.addr id) height p

theorem downloadReads_eq {K : Cipher bs N B} {A : BufferAddrs} {t : MemTree N} (howns : OwnsBuffers K A t)
    (p : BlockPath) : downloadReads K t p = pathReads bs (A.addr t.treeId) t.height p := by
  refine List.flatMap_congr fun h hh => ?_
  have hlt := nodeAddr_lt_two_pow (p := p.toNat) (List.mem_range.mp hh)
  rw [nodeReads]
  simp only [howns _ hlt]

theorem evictWrites_eq {A : BufferAddrs} {t : MemTree N} {p : BlockPath}
    {enc : Nat → Fin blocksPerNode → Addr} (hback : BackedUp A t p enc) :
    (evictLevels t.height).flatMap (fun h => nodeWrites bs (enc h) (nodeAddr p.toNat h)) =
      pathWrites bs (A.addr t.treeId) t.height p := by
  refine List.flatMap_congr fun h hh => ?_
  rw [funext (hback h (mem_evictLevels.mp hh))]

/-- What a level of an access does to its tree and to the trace, in any state of the stash. -/
structure LevelBuffers (K : Cipher bs N B) (A : BufferAddrs) (t : MemTree N) (p : BlockPath) (w : World bs B)
    (r : LevelResult bs N B) : Prop where
  treeId : r.tree.treeId = t.treeId
  height : r.tree.height = t.height
  owns : OwnsBuffers K A r.tree
  trace : r.world.host.trace = w.host.trace ++ r.calls.flatMap (callTrace A)

theorem accessLevel_buffers (h8 : 8 ∣ bs) {K : Cipher bs N B} (hK : K.Correct) {A : BufferAddrs}
    {t : MemTree N} (hh : t.height < clientMaxPath) (howns : OwnsBuffers K A t) {p q : BlockPath} {key : BlockKey}
    {req : Request} {w : World bs B} {r : LevelResult bs N B} (hrun : accessLevel K sz t p q key req w = some r) :
    LevelBuffers K A t p w r := by
  obtain ⟨w', hhost, hback, he, found, content, written, hcalls⟩ :=
    accessLevel_evicted h8 hK hh.le hrun
  have hback' := download_backedUp howns hback
  refine ⟨he.treeId, he.height, evict_owns howns hback' he, ?_⟩
  rw [he.trace, evictWrites_eq hback', hhost, downloadReads_eq howns p, hcalls]
  simp [callTrace]

/-! ## Objects -/

/-- The trees of a list keep their buffers. -/
def TreesOwn (K : Cipher bs N B) (A : BufferAddrs) (ts : List (MemTree N)) : Prop :=
  ∀ t ∈ ts, 8 ∣ bs ∧ t.height < clientMaxPath ∧ OwnsBuffers K A t

/-- Number and height of a tree. -/
def MemTree.shape (t : MemTree N) : Nat × Nat := (t.treeId, t.height)

theorem accessPathOramWith_buffers {K : Cipher bs N B} (hK : K.Correct) {A : BufferAddrs} {X : ExchangeMm}
    {o : PathOram N} (howns : TreesOwn K A o.trees) {draws : Nat → Draws} {req : Request} {w : World bs B}
    {r : AccessResult bs N B} (hrun : accessPathOramWith X K sz o draws req w = .ok r) :
    TreesOwn K A r.oram.trees ∧ r.oram.trees.map MemTree.shape = o.trees.map MemTree.shape ∧
      r.world.host.trace = w.host.trace ++ r.calls.flatMap (callTrace A) := by
  induction o generalizing draws req w r with
  | base capacity t =>
    obtain ⟨-, -, l, hlevel, rfl⟩ := accessPathOramWith_base.mp hrun
    obtain ⟨h8, hh, ht⟩ := howns t (List.mem_singleton_self t)
    have hl := accessLevel_buffers h8 hK hh ht hlevel
    refine ⟨fun t' ht' => ?_, by simp [PathOram.trees, MemTree.shape, hl.treeId, hl.height], hl.trace⟩
    rw [List.mem_singleton.mp ht']
    exact ⟨h8, hl.height ▸ hh, hl.owns⟩
  | recursive capacity t posMap ih =>
    obtain ⟨-, inner, l, hinner, hlevel, rfl⟩ := accessPathOramWith_rec.mp hrun
    obtain ⟨h8, hh, ht⟩ := howns t List.mem_cons_self
    obtain ⟨howns', hshape, htrace⟩ := ih (fun t' ht' => howns t' (List.mem_cons_of_mem t ht')) hinner
    have hl := accessLevel_buffers h8 hK hh ht hlevel
    refine ⟨fun t' ht' => ?_, ?_, ?_⟩
    · rcases List.mem_cons.mp ht' with rfl | ht'
      · exact ⟨h8, hl.height ▸ hh, hl.owns⟩
      · exact howns' t' ht'
    · simp [PathOram.trees, hshape, MemTree.shape, hl.treeId, hl.height]
    · rw [hl.trace, htrace, List.flatMap_append, List.append_assoc]

theorem newTree_buffers {K : Cipher bs N B} (hK : K.Correct) {A : BufferAddrs} {id capacity : Nat}
    {st st' : Process bs B} {t : MemTree N} (hrun : newTree K A id capacity st = some (t, st')) :
    8 ∣ bs ∧ t.shape = (id, computeTreeHeight capacity) ∧ OwnsBuffers K A t ∧
      st'.nextOramId = st.nextOramId ∧ st'.world.host.trace = st.world.host.trace := by
  obtain ⟨c, host, -, ht, rfl⟩ := newTree_eq_some.mp hrun
  obtain ⟨h8, hid, hheight, -⟩ := initializeMemTree_spec hK ht
  exact ⟨h8, by rw [MemTree.shape, hid, hheight], (initializeMemTree_wf hK ht host.bufs).1.owns, rfl,
    (initializeMemTree_frame ht).1⟩

/-- A new object's trees own their buffers and are numbered in sequence. -/
theorem newPathOram_buffers {K : Cipher bs N B} (hK : K.Correct) {A : BufferAddrs} {capacity : Nat}
    (hh : computeTreeHeight capacity < clientMaxPath) {st st' : Process bs B} {o : PathOram N}
    (hrun : newPathOram K A sz capacity st = some (o, st')) :
    TreesOwn K A o.trees ∧ o.trees.map MemTree.treeId = List.range' st.nextOramId o.trees.length ∧
      st'.nextOramId = st.nextOramId + o.trees.length ∧ st'.world.host.trace = st.world.host.trace := by
  induction capacity using Nat.strong_induction_on generalizing st st' o with
  | _ capacity ih =>
    rcases le_or_gt capacity maxPosMap with hcap | hcap
    · obtain ⟨t, ht, rfl⟩ := (newPathOram_base_eq_some hcap).mp hrun
      obtain ⟨h8, hshape, howns, hnext, htrace⟩ := newTree_buffers hK ht
      obtain ⟨hid, hheight⟩ := Prod.mk.inj hshape
      refine ⟨fun t' ht' => ?_, by simp [PathOram.trees, hid], hnext, htrace⟩
      rw [List.mem_singleton.mp ht']
      exact ⟨h8, hheight ▸ hh, howns⟩
    · obtain ⟨hn, posMap, st₁, t, hpos, ht, rfl⟩ := (newPathOram_rec_eq_some hcap).mp hrun
      have hlt := higherCapacity_lt hcap hn.2
      obtain ⟨howns', hids, hnext', htrace'⟩ :=
        ih _ hlt ((computeTreeHeight_mono hlt.le).trans_lt hh) hpos
      obtain ⟨h8, hshape, howns, hnext, htrace⟩ := newTree_buffers hK ht
      obtain ⟨hid, hheight⟩ := Prod.mk.inj hshape
      refine ⟨fun t' ht' => ?_, ?_, ?_, htrace.trans htrace'⟩
      · rcases List.mem_cons.mp ht' with rfl | ht'
        · exact ⟨h8, hheight ▸ hh, howns⟩
        · exact howns' t' ht'
      · simp [PathOram.trees, hids, hid, List.range'_succ]
      · simp only [hnext, hnext', PathOram.trees, List.length_cons]
        omega

/-! ## Processes with any number of objects -/

/-- A process with its objects, what their accesses have copied out, each under the number of its
object, and the calls that they have made so far. -/
structure System (bs : Nat) (N B : Type) where
  nextOramId : Nat
  world : World bs B
  orams : List (PathOram N)
  outs : List (Nat × Buffer)
  calls : List (MemTreeCall bs)

def System.trees (s : System bs N B) : List (MemTree N) := s.orams.flatMap PathOram.trees

inductive SystemOp
  | construct (capacity : Nat)
  | access (i : Nat) (draws : Nat → Draws) (req : Request)

/-- One step of a process. An access to an object that does not exist counts as a failing assert. -/
def systemStepWith (exchangeMm : ExchangeMm) (K : Cipher bs N B) (A : BufferAddrs) (sz : BlockSize bs)
    (s : System bs N B) : SystemOp → Except (Stop (System bs N B)) (System bs N B)
  | .construct capacity =>
    orAssert <| (newPathOram K A sz capacity ⟨s.nextOramId, s.world⟩).map fun (o, st) =>
      ⟨st.nextOramId, st.world, s.orams ++ [o], s.outs, s.calls⟩
  | .access i draws req =>
    match s.orams[i]? with
    | none => .error .assert
    | some o =>
      match accessPathOramWith exchangeMm K sz o draws req s.world with
      | .ok r => .ok ⟨s.nextOramId, r.world, s.orams.set i r.oram, s.outs ++ [(i, r.block)], s.calls ++ r.calls⟩
      | .error e => .error (e.map fun (w, calls) => { s with world := w, calls := s.calls ++ calls })

/-- One step of a process with the reference code of `ecall_write_mm_in_client`, where it returns. -/
def systemStep (K : Cipher bs N B) (A : BufferAddrs) (sz : BlockSize bs) (s : System bs N B) (op : SystemOp) :
    Option (System bs N B) :=
  (systemStepWith ecallWriteMmInClient K A sz s op).toOption

/-- One step of a process with the machine code of `ecall_write_mm_in_client`. -/
structure MachineOp where
  op : SystemOp
  surroundings : X86.Surroundings

/-- If the step is an access, it leaves `client->path` alone. -/
def MachineOp.Spares (sz : BlockSize bs) (s : System bs N B) (m : MachineOp) : Prop :=
  ∀ i draws req o, m.op = .access i draws req → s.orams[i]? = some o →
    m.surroundings.Spares (o.mmIndex sz.val req.ind)

section
variable {K : Cipher bs N B} {A : BufferAddrs} {X : ExchangeMm} {s s' : System bs N B} {capacity i : Nat}
  {draws : Nat → Draws} {req : Request}

theorem systemStepWith_construct :
    systemStepWith X K A sz s (.construct capacity) = .ok s' ↔
      ∃ o st, newPathOram K A sz capacity ⟨s.nextOramId, s.world⟩ = some (o, st) ∧
        s' = ⟨st.nextOramId, st.world, s.orams ++ [o], s.outs, s.calls⟩ := by
  rw [← toOption_eq_some]
  simp only [systemStepWith, orAssert_toOption, Option.map_eq_some_iff, Prod.exists]
  exact exists_congr fun o => exists_congr fun st => and_congr_right fun _ => eq_comm

theorem systemStepWith_access :
    systemStepWith X K A sz s (.access i draws req) = .ok s' ↔
      ∃ o r, s.orams[i]? = some o ∧ accessPathOramWith X K sz o draws req s.world = .ok r ∧
        s' = ⟨s.nextOramId, r.world, s.orams.set i r.oram, s.outs ++ [(i, r.block)], s.calls ++ r.calls⟩ := by
  cases ho : s.orams[i]? with
  | none => simp [systemStepWith, ho]
  | some o =>
    cases hr : accessPathOramWith X K sz o draws req s.world with
    | error e => simp [systemStepWith, ho, hr]
    | ok r => simp [systemStepWith, ho, hr, eq_comm]

theorem systemStep_construct :
    systemStep K A sz s (.construct capacity) = some s' ↔
      ∃ o st, newPathOram K A sz capacity ⟨s.nextOramId, s.world⟩ = some (o, st) ∧
        s' = ⟨st.nextOramId, st.world, s.orams ++ [o], s.outs, s.calls⟩ := by
  rw [systemStep, toOption_eq_some, systemStepWith_construct]

theorem systemStep_access :
    systemStep K A sz s (.access i draws req) = some s' ↔
      ∃ o r, s.orams[i]? = some o ∧ accessPathOram K sz o draws req s.world = some r ∧
        s' = ⟨s.nextOramId, r.world, s.orams.set i r.oram, s.outs ++ [(i, r.block)], s.calls ++ r.calls⟩ := by
  simp only [systemStep, accessPathOram, toOption_eq_some, systemStepWith_access]

end

/-- The buffers of a tree, node by node. -/
def treeBuffers (A : BufferAddrs) (id height : Nat) : List Addr :=
  (List.range (2 ^ height)).flatMap fun n => (List.finRange blocksPerNode).map (A.addr id n)

theorem freeMemTree_eq {K : Cipher bs N B} {A : BufferAddrs} {t : MemTree N} (howns : OwnsBuffers K A t) :
    freeMemTree K t = treeBuffers A t.treeId t.height :=
  List.flatMap_congr fun n hn => List.map_congr_left fun i _ => howns n (List.mem_range.mp hn) i

theorem mem_treeBuffers {A : BufferAddrs} {id height : Nat} {a : Addr} :
    a ∈ treeBuffers A id height ↔ ∃ n < 2 ^ height, ∃ i, A.addr id n i = a := by
  simp [treeBuffers]

theorem nodup_treeBuffers (A : BufferAddrs) (id height : Nat) : (treeBuffers A id height).Nodup := by
  refine List.nodup_flatMap.mpr ⟨fun n _ => (List.nodup_map_iff_inj_on (List.nodup_finRange _)).mpr
    fun i _ j _ heq => (A.inj heq).2.2, List.nodup_range.imp fun {n m} hnm => ?_⟩
  refine List.disjoint_left.mpr fun a hn hm => ?_
  obtain ⟨i, -, rfl⟩ := List.mem_map.mp hn
  obtain ⟨j, -, heq⟩ := List.mem_map.mp hm
  exact hnm (A.inj heq).2.1.symm

/-- The buffers have their owners, and the trees are numbered in sequence. -/
structure SystemInv (K : Cipher bs N B) (A : BufferAddrs) (trace₀ : List ServerAccess) (s : System bs N B) :
    Prop where
  owns : TreesOwn K A s.trees
  ids : s.trees.map MemTree.treeId = List.range' 1 s.trees.length
  next : s.nextOramId = 1 + s.trees.length
  trace : s.world.host.trace = trace₀ ++ s.calls.flatMap (callTrace A)

theorem SystemInv.construct {K : Cipher bs N B} (hK : K.Correct) {A : BufferAddrs} {X : ExchangeMm}
    {tr : List ServerAccess} {s s' : System bs N B} (h : SystemInv K A tr s) {capacity : Nat}
    (hh : computeTreeHeight capacity < clientMaxPath)
    (hstep : systemStepWith X K A sz s (.construct capacity) = .ok s') : SystemInv K A tr s' := by
  obtain ⟨o, st, hnew, rfl⟩ := systemStepWith_construct.mp hstep
  obtain ⟨howns, hids, hnext, htrace⟩ := newPathOram_buffers hK hh hnew
  have htrees : System.trees ⟨st.nextOramId, st.world, s.orams ++ [o], s.outs, s.calls⟩ = s.trees ++ o.trees := by
    simp [System.trees]
  refine ⟨?_, ?_, ?_, htrace.trans h.trace⟩
  · rw [htrees]
    exact fun t ht => (List.mem_append.mp ht).elim (h.owns t) (howns t)
  · rw [htrees, List.map_append, h.ids, hids, h.next, List.length_append, ← List.range'_append_1]
  · rw [htrees, hnext, h.next, List.length_append, add_assoc]

theorem SystemInv.access {K : Cipher bs N B} (hK : K.Correct) {A : BufferAddrs} {X : ExchangeMm}
    {tr : List ServerAccess} {s s' : System bs N B} (h : SystemInv K A tr s) {i : Nat} {draws : Nat → Draws}
    {req : Request} (hstep : systemStepWith X K A sz s (.access i draws req) = .ok s') : SystemInv K A tr s' := by
  obtain ⟨o, r, ho, hr, rfl⟩ := systemStepWith_access.mp hstep
  obtain ⟨hi, rfl⟩ := List.getElem?_eq_some_iff.mp ho
  obtain ⟨howns, hshape, htrace⟩ := accessPathOramWith_buffers hK
    (fun t ht => h.owns t (List.mem_flatMap.mpr ⟨_, List.getElem_mem hi, ht⟩)) hr
  have hshapes : (System.trees
      ⟨s.nextOramId, r.world, s.orams.set i r.oram, s.outs ++ [(i, r.block)], s.calls ++ r.calls⟩).map MemTree.shape =
        s.trees.map MemTree.shape := by
    have hmap : (s.orams.set i r.oram).map (fun o => o.trees.map MemTree.shape) =
        s.orams.map fun o => o.trees.map MemTree.shape := by
      refine List.ext_getElem (by simp) fun j _ _ => ?_
      by_cases hij : i = j
      · subst hij
        simp [hshape]
      · simp [hij]
    rw [System.trees, System.trees, List.map_flatMap, List.map_flatMap, List.flatMap_def, List.flatMap_def, hmap]
  have hlen := congrArg List.length hshapes
  have hids := congrArg (List.map Prod.fst) hshapes
  simp only [List.length_map] at hlen
  simp only [List.map_map] at hids
  refine ⟨fun t ht => ?_, ?_, ?_, ?_⟩
  · obtain ⟨o', ho', ht'⟩ := List.mem_flatMap.mp ht
    rcases List.mem_or_eq_of_mem_set ho' with ho' | rfl
    · exact h.owns t (List.mem_flatMap.mpr ⟨o', ho', ht'⟩)
    · exact howns t ht'
  · rw [hlen, ← h.ids]
    exact hids
  · rw [hlen]
    exact h.next
  · rw [htrace, h.trace, List.flatMap_append, List.append_assoc]

theorem SystemInv.start (K : Cipher bs N B) (A : BufferAddrs) (w : World bs B) :
    SystemInv K A w.host.trace ⟨1, w, [], [], []⟩ :=
  ⟨fun _ ht => absurd ht List.not_mem_nil, rfl, rfl, by simp⟩

/-- An access to the last entry of `path_mm`, with zeros behind `*block_path`. -/
def lastEntry : MachineAccess :=
  ⟨⟨fun _ => ⟨.of 3, .of 5⟩, ⟨65535, fun _ => 7, 8, 0⟩⟩, ⟨fun _ => 0, 1, 0⟩⟩

/-- The access loses `client->path`: its fetch faults. -/
theorem lastEntry_faults (K : Cipher 8 N B) (t : MemTree N) (w : World 8 B) :
    accessPathOramWith (X86.exchangeMm lastEntry.surroundings) K .eight (.base 65536 t) lastEntry.access.draws
        lastEntry.access.req w =
      .error (.fault (stalledFetch K t (orFresh (w.client.pathMm 65535) (.of 5)) (keyOf 65535)
        (w.withPathMm (Function.update w.client.pathMm 65535 3)))) := by
  have hlast : lastEntry.access.req.ind + 1 = maxPosMap := rfl
  have hind : lastEntry.access.req.ind < 65536 := by decide
  rw [accessPathOramWith_base_fault hind (by decide), X86.exchangeMm_last hlast]
  · rfl
  · rw [X86.exchangeMm_last hlast]
    exact fun h => absurd h.1 Bool.false_ne_true

/-- The path that a call fetches along. -/
def MemTreeCall.fetchPath : MemTreeCall bs → Option BlockPath
  | .fetch _ _ p _ _ _ => some p
  | _ => none

/-- What the server sees of one access of a single-level object. -/
def accessView (bs : Nat) (addrs : Nat → Fin blocksPerNode → Addr) (height : Nat) (p : BlockPath) :
    List ServerAccess :=
  pathReads bs addrs height p ++ pathWrites bs addrs height p

theorem accessLevel_view {K : Cipher bs N B} {A : BufferAddrs} {t : MemTree N} {p q : BlockPath} {key : BlockKey}
    {req : Request} {w : World bs B} {r : LevelResult bs N B} (hrun : accessLevel K sz t p q key req w = some r) :
    r.calls.filterMap MemTreeCall.fetchPath = [p] ∧
      r.calls.flatMap (callTrace A) = accessView bs (A.addr t.treeId) t.height p := by
  obtain ⟨f, w', -, -, rfl⟩ := accessLevel_eq_some.mp hrun
  exact ⟨rfl, by simp [callTrace, accessView]⟩

/-- A single-level object whose trace is so far a function of the paths that it has fetched along. -/
structure BaseView (K : Cipher bs N B) (A : BufferAddrs) (capacity : Nat) (shape : Nat × Nat)
    (trace₀ : List ServerAccess) (s : OramRun bs N B) : Prop where
  oram : ∃ t, s.oram = .base capacity t ∧ t.shape = shape ∧ TreesOwn K A [t]
  trace : s.world.host.trace = trace₀ ++
    (s.calls.filterMap MemTreeCall.fetchPath).flatMap (accessView bs (A.addr shape.1) shape.2)

theorem BaseView.start {K : Cipher bs N B} {A : BufferAddrs} {capacity : Nat} {t : MemTree N}
    (howns : TreesOwn K A [t]) (w : World bs B) :
    BaseView K A capacity t.shape w.host.trace ⟨.base capacity t, w, [], []⟩ :=
  ⟨⟨t, rfl, rfl, howns⟩, by simp⟩

theorem BaseView.step {K : Cipher bs N B} (hK : K.Correct) {A : BufferAddrs} {capacity : Nat} {shape : Nat × Nat}
    {tr : List ServerAccess} {s s' : OramRun bs N B} (h : BaseView K A capacity shape tr s) {X : ExchangeMm}
    {a : OramAccess} (hstep : runAccessWith X K sz s a = .ok s') : BaseView K A capacity shape tr s' := by
  obtain ⟨t, horam, hshape, howns⟩ := h.oram
  obtain ⟨r, hr, rfl⟩ := runAccessWith_ok.mp hstep
  rw [horam] at hr
  obtain ⟨hown', hshape', htrace'⟩ := accessPathOramWith_buffers hK (o := .base capacity t) howns hr
  obtain ⟨-, -, l, hlevel, rfl⟩ := accessPathOramWith_base.mp hr
  obtain ⟨hpath, hview⟩ := accessLevel_view (A := A) hlevel
  obtain ⟨hid, hheight⟩ := Prod.mk.inj hshape
  refine ⟨⟨l.tree, rfl, ?_, hown'⟩, ?_⟩
  · have hone : l.tree.shape = t.shape := by simpa [PathOram.trees] using hshape'
    exact hone.trans hshape
  · rw [htrace', h.trace, hview, List.filterMap_append, List.flatMap_append, hpath, hid, hheight, List.append_assoc]
    simp

/-- The trace of a run of a single-level object is a function of the paths it fetches along. -/
theorem base_view {K : Cipher bs N B} (hK : K.Correct) {A : BufferAddrs} {capacity : Nat} {t : MemTree N}
    (howns : TreesOwn K A [t]) {w : World bs B} {as : List OramAccess} {s : OramRun bs N B}
    (hrun : as.foldlM (runAccess K sz) ⟨.base capacity t, w, [], []⟩ = some s) :
    BaseView K A capacity t.shape w.host.trace s :=
  foldlM_inv (P := fun _ s => BaseView K A capacity t.shape w.host.trace s) as _ s (.start howns w)
    (fun _ _ _ _ _ hu hv => hu.step hK (toOption_eq_some.mp hv)) hrun

/-- What the server sees of a fetch that faults at once. -/
def stalledView (bs : Nat) (addrs : Nat → Fin blocksPerNode → Addr) : List ServerAccess :=
  [⟨.node 0, false, sizeofEncMemTreeNode⟩, ⟨.buffer (addrs 0 0), false, encBlockLen bs⟩]

theorem stalledFetch_trace {K : Cipher bs N B} {A : BufferAddrs} {t : MemTree N} (howns : OwnsBuffers K A t)
    (p : BlockPath) (key : BlockKey) (w : World bs B) :
    (stalledFetch K t p key w).1.host.trace = w.host.trace ++ stalledView bs (A.addr t.treeId) := by
  rw [stalledView, ← howns 0 (Nat.two_pow_pos _) 0]
  rfl

/-- With an enclave block size of 0 the first access of an object faults, whatever it accesses. -/
theorem zero_view {K : Cipher 0 N B} {sz : BlockSize 0} {A : BufferAddrs} {capacity : Nat} {t : MemTree N}
    (howns : OwnsBuffers K A t) {w : World 0 B} {ms : List MachineAccess} {s : OramRun 0 N B}
    (hend : endState (ms.foldlM (runMachineAccess K sz) ⟨.base capacity t, w, [], []⟩) = some s) :
    s.world.host.trace = w.host.trace ++
      (s.calls.filterMap MemTreeCall.fetchPath).flatMap fun _ => stalledView 0 (A.addr t.treeId) := by
  cases ms with
  | nil =>
    obtain rfl := Option.some.inj hend
    simp
  | cons m ms =>
    simp only [List.foldlM_cons, runMachineAccess, runAccessWith, accessPathOramWith, ne_eq, not_true_eq_false,
      and_false, if_false] at hend
    split_ifs at hend
    · obtain rfl := Option.some.inj hend
      simp
    · obtain rfl := Option.some.inj hend
      refine (stalledFetch_trace howns (orFresh (X86.exchangeMm m.surroundings m.access.req.ind
        (m.access.draws 0).newBlockPath w.client.pathMm).blockPath (m.access.draws 0).freshPath)
        (keyOf m.access.req.ind) _).trans ?_
      simp [stalledFetch, MemTreeCall.fetchPath, World.withPathMm]
    · cases hend

/-- The trace of a run over the machine code that spares `client->path`. -/
theorem machine_view {K : Cipher bs N B} (hK : K.Correct) {A : BufferAddrs} {capacity : Nat} {t : MemTree N}
    (howns : TreesOwn K A [t]) {w : World bs B} {ms : List MachineAccess}
    (hspares : ∀ m ∈ ms, m.surroundings.Spares m.access.req.ind) {s : OramRun bs N B}
    (hend : endState (ms.foldlM (runMachineAccess K sz) ⟨.base capacity t, w, [], []⟩) = some s) :
    s.world.host.trace = w.host.trace ++ (s.calls.filterMap MemTreeCall.fetchPath).flatMap fun p =>
      if bs = 0 then stalledView bs (A.addr t.treeId) else accessView bs (A.addr t.treeId) t.height p := by
  obtain ⟨h8, -, hown⟩ := howns t (List.mem_singleton_self t)
  by_cases hbs : bs = 0
  · subst hbs
    exact zero_view hown hend
  · have husable := sz.usable (show bs / sizeofBlockPath ≠ 0 by rw [sizeofBlockPath]; omega)
    have hrun := foldlM_ends (f := runMachineAccess K sz) (P := fun _ s => BaseView K A capacity t.shape w.host.trace s)
      (Q := fun e => e = .assert) ms _ (.start howns w) fun done m u hpre _ hu => ?_
    · cases hr : ms.foldlM (runMachineAccess K sz) ⟨.base capacity t, w, [], []⟩ with
      | error e =>
        rw [hr] at hrun hend
        obtain rfl : e = .assert := hrun
        cases hend
      | ok u =>
        rw [hr] at hrun hend
        obtain rfl := Option.some.inj hend
        simp only [hbs, if_false]
        exact hrun.trace
    · obtain ⟨t', horam, -⟩ := hu.oram
      rw [runMachineAccess, runAccessWith_keeps husable, ends_orAssert]
      · exact fun v hv => hu.step hK (toOption_eq_some.mp hv)
      · intro q mm
        rw [horam]
        exact X86.exchangeMm_keepsPath.mpr (hspares m (mem_of_step hpre))

/-- Two runs of single-level objects of one capacity and block size, with the same buffer addresses, look the same
to the server if they fetch along the same paths and spare `client->path`: indices, contents, write ranges and new
paths do not show, nor what the machine code puts into neighbouring entries. -/
theorem server_view {K : Cipher bs N B} (hK : K.Correct) {A₁ A₂ : BufferAddrs} {capacity : Nat}
    (hcap : capacity ≤ maxPosMap) {st₁ st₂ st₁' st₂' : Process bs B} {o₁ o₂ : PathOram N}
    (hnew₁ : newPathOram K A₁ sz capacity st₁ = some (o₁, st₁'))
    (hnew₂ : newPathOram K A₂ sz capacity st₂ = some (o₂, st₂'))
    (haddr : A₁.addr st₁.nextOramId = A₂.addr st₂.nextOramId) {ms₁ ms₂ : List MachineAccess}
    (hspares₁ : ∀ m ∈ ms₁, m.surroundings.Spares m.access.req.ind)
    (hspares₂ : ∀ m ∈ ms₂, m.surroundings.Spares m.access.req.ind) {s₁ s₂ : OramRun bs N B}
    (hend₁ : endState (ms₁.foldlM (runMachineAccess K sz) ⟨o₁, st₁'.world, [], []⟩) = some s₁)
    (hend₂ : endState (ms₂.foldlM (runMachineAccess K sz) ⟨o₂, st₂'.world, [], []⟩) = some s₂)
    (hpaths : s₁.calls.filterMap MemTreeCall.fetchPath = s₂.calls.filterMap MemTreeCall.fetchPath) :
    ∃ view, s₁.world.host.trace = st₁'.world.host.trace ++ view ∧
      s₂.world.host.trace = st₂'.world.host.trace ++ view := by
  have hone : ∀ {A : BufferAddrs} {st st' : Process bs B} {o : PathOram N},
      newPathOram K A sz capacity st = some (o, st') → ∃ t, o = .base capacity t ∧ TreesOwn K A [t] ∧
        t.shape = (st.nextOramId, computeTreeHeight capacity) := by
    intro A st st' o hnew
    have howns := (newPathOram_buffers hK (computeTreeHeight_lt_clientMaxPath hcap) hnew).1
    obtain ⟨t, ht, rfl⟩ := (newPathOram_base_eq_some hcap).mp hnew
    exact ⟨t, rfl, howns, (newTree_buffers hK ht).2.1⟩
  obtain ⟨t₁, rfl, howns₁, hshape₁⟩ := hone hnew₁
  obtain ⟨t₂, rfl, howns₂, hshape₂⟩ := hone hnew₂
  have hview₁ := machine_view hK howns₁ hspares₁ hend₁
  have hview₂ := machine_view hK howns₂ hspares₂ hend₂
  obtain ⟨hid₁, hheight₁⟩ := Prod.mk.inj hshape₁
  obtain ⟨hid₂, hheight₂⟩ := Prod.mk.inj hshape₂
  rw [hid₁, hheight₁, haddr, hpaths] at hview₁
  rw [hid₂, hheight₂] at hview₂
  exact ⟨_, hview₁, hview₂⟩

/-- Write entry 0, with zeros behind `*block_path`. -/
def firstEntry : MachineAccess :=
  ⟨⟨fun _ => ⟨.of 2, .of 5⟩, ⟨0, fun _ => 7, 8, 0⟩⟩, ⟨fun _ => 0, 1, 0⟩⟩

/-- Read entry 1, with ones behind `*block_path`. -/
def secondEntry : MachineAccess :=
  ⟨⟨fun _ => ⟨.of 6, .of 5⟩, ⟨1, fun _ => 0, 0, 0⟩⟩, ⟨fun _ => 1, 1, 0⟩⟩

/-- The first access of a new object completes if it spares `client->path`, along a path of its own choice. -/
theorem firstAccess_run {K : Cipher bs N B} (hK : K.Correct) {A : BufferAddrs} (hbs : bs / sizeofBlockPath ≠ 0)
    {capacity : Nat} (hcap : capacity ≤ maxPosMap) {w : World bs B} {o : PathOram N} {st : Process bs B}
    (hnew : newPathOram K A sz capacity ⟨1, w⟩ = some (o, st)) {m : MachineAccess}
    (hind : m.access.req.ind < capacity) (hspares : m.surroundings.Spares m.access.req.ind) :
    ∃ s, endState ([m].foldlM (runMachineAccess K sz) ⟨o, st.world, [], []⟩) = some s ∧
      s.calls.filterMap MemTreeCall.fetchPath = [orFresh 0 (m.access.draws 0).freshPath] := by
  obtain ⟨r, hr⟩ := firstAccess_completes hK hbs hcap hnew m.access hind (X := X86.exchangeMm m.surroundings)
    (X86.exchangeMm_keepsPath.mpr hspares)
  have hrun : runMachineAccess K sz ⟨o, st.world, [], []⟩ m = _ := runAccessWith_ok.mpr ⟨r, hr, rfl⟩
  refine ⟨_, congrArg endState ((foldlM_concat (l := []) rfl m).trans hrun), ?_⟩
  obtain ⟨t, -, rfl⟩ := (newPathOram_base_eq_some hcap).mp hnew
  obtain ⟨-, -, l, hl, rfl⟩ := accessPathOramWith_base.mp hr
  have hpath := (accessLevel_view (A := A) hl).1
  rw [X86.exchangeMm_blockPath _ (hind.trans_le hcap), newPathOram_pathMm hK hcap hnew] at hpath
  exact hpath

/-- Write entry 0, and read entry 1. -/
theorem server_view_write_read : ∃ o st s₁ s₂ view,
    newPathOram (Cipher.pairing 8) BufferAddrs.numbered .eight 2 ⟨1, ⟨emptyClient 8, .filled none⟩⟩ = some (o, st) ∧
      endState ([firstEntry].foldlM (runMachineAccess (Cipher.pairing 8) .eight) ⟨o, st.world, [], []⟩) = some s₁ ∧
      endState ([secondEntry].foldlM (runMachineAccess (Cipher.pairing 8) .eight) ⟨o, st.world, [], []⟩) = some s₂ ∧
      s₁.world.host.trace = st.world.host.trace ++ view ∧ s₂.world.host.trace = st.world.host.trace ++ view := by
  have hK := Cipher.pairing_correct 8
  obtain ⟨o, st, hnew⟩ := newPathOram_completes (Cipher.pairing 8) BufferAddrs.numbered .eight rfl 2
    (by decide) ⟨1, ⟨emptyClient 8, .filled none⟩⟩
  obtain ⟨s₁, hend₁, hpath₁⟩ := firstAccess_run hK (by decide) (by decide) hnew (m := firstEntry)
    (by decide) (by decide)
  obtain ⟨s₂, hend₂, hpath₂⟩ := firstAccess_run hK (by decide) (by decide) hnew (m := secondEntry)
    (by decide) (by decide)
  obtain ⟨view, hview₁, hview₂⟩ := server_view hK (by decide) hnew hnew rfl (by decide) (by decide) hend₁ hend₂
    (hpath₁.trans hpath₂.symm)
  exact ⟨o, st, s₁, s₂, view, hnew, hend₁, hend₂, hview₁, hview₂⟩

theorem length_accessView (bs : Nat) (addrs : Nat → Fin blocksPerNode → Addr) (height : Nat) (p : BlockPath) :
    height ≤ (accessView bs addrs height p).length := by
  simp only [accessView, pathReads, List.length_append, List.length_flatMap, List.length_cons, List.length_map,
    List.length_finRange, List.map_const', List.length_range, List.sum_replicate, smul_eq_mul]
  exact (Nat.le_mul_of_pos_right height (Nat.succ_pos _)).trans (Nat.le_add_right _ _)

/-- Along the same path the server sees a whole access to entry 0, and of one to the last entry no more than two
reads. -/
theorem server_view_stalls : ∃ o st s₁ s₂,
    newPathOram (Cipher.pairing 8) BufferAddrs.numbered .eight 65536 ⟨1, ⟨emptyClient 8, .filled none⟩⟩ =
        some (o, st) ∧
      endState ([firstEntry].foldlM (runMachineAccess (Cipher.pairing 8) .eight) ⟨o, st.world, [], []⟩) = some s₁ ∧
      endState ([lastEntry].foldlM (runMachineAccess (Cipher.pairing 8) .eight) ⟨o, st.world, [], []⟩) = some s₂ ∧
      s₁.calls.filterMap MemTreeCall.fetchPath = s₂.calls.filterMap MemTreeCall.fetchPath ∧
      ¬ ∃ view, s₁.world.host.trace = st.world.host.trace ++ view ∧
        s₂.world.host.trace = st.world.host.trace ++ view := by
  have hK := Cipher.pairing_correct 8
  obtain ⟨o, st, hnew⟩ := newPathOram_completes (Cipher.pairing 8) BufferAddrs.numbered .eight rfl 65536
    (by decide) ⟨1, ⟨emptyClient 8, .filled none⟩⟩
  obtain ⟨s₁, hend₁, hpath₁⟩ := firstAccess_run hK (by decide) (by decide) hnew (m := firstEntry)
    (by decide) (by decide)
  have hmm := newPathOram_pathMm hK (by decide) hnew
  have howns := (newPathOram_buffers hK (computeTreeHeight_lt_clientMaxPath (by decide)) hnew).1
  obtain ⟨t, ht, rfl⟩ := (newPathOram_base_eq_some (by decide)).mp hnew
  have hheight := (Prod.mk.inj (newTree_buffers hK ht).2.1).2
  -- the whole access: a read of the root and of its buffers, and of those of 15 more nodes at least
  have hview₁ := machine_view hK howns (by decide) hend₁
  rw [hpath₁, List.flatMap_singleton, if_neg (by decide)] at hview₁
  -- the access that stops in its fetch
  have hfault := lastEntry_faults (Cipher.pairing 8) t st.world
  rw [hmm] at hfault
  have hrun : runMachineAccess (Cipher.pairing 8) .eight ⟨.base 65536 t, st.world, [], []⟩ lastEntry = _ :=
    runAccessWith_error hfault
  have hend₂ := congrArg endState ((foldlM_concat (l := []) rfl lastEntry).trans hrun)
  have hview₂ := stalledFetch_trace (howns t (List.mem_singleton_self t)).2.2 5 (keyOf 65535)
    (st.world.withPathMm (Function.update (fun _ => 0) 65535 3))
  refine ⟨_, st, s₁, _, hnew, hend₁, hend₂, hpath₁, ?_⟩
  rintro ⟨view, h₁, h₂⟩
  have hlen := length_accessView 8 (BufferAddrs.numbered.addr t.treeId) t.height 5
  rw [show accessView _ _ _ 5 = view from (List.append_cancel_left (h₁.symm.trans hview₁)).symm,
    List.append_cancel_left (h₂.symm.trans hview₂), hheight] at hlen
  exact absurd ((computeTreeHeight_le_iff 65536 2).mp hlen) (by decide)

end SgxOram
