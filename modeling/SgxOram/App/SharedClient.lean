import SgxOram.App.Buffers

/-!
# Several objects, one client

Only the first object of a process initialises the client; the others use its position map and its
stash as they are.

* `requestsOf`, `answersOf` : the accesses of one object and what they copied out;
* `Undisturbed` : the position is the one that the object stored, and a stash left by another object
  is empty;
* `SharedInv` : the object of the last access holds its blocks in stash and tree, the others hold
  theirs in their trees;
* `shared_undisturbed` : in a run whose accesses are all undisturbed every object is an array;
* `shared_disturbed` : two objects of two entries and three accesses that lose a block.
-/

namespace SgxOram
open Lib

variable {bs : Nat} {N B : Type} {K : Cipher bs N B} {A : BufferAddrs} {sz : BlockSize bs}

/-! ## One object of a run -/

/-- The request of an access to object `i`. -/
def SystemOp.requestOf (i : Nat) : SystemOp → Option Request
  | .construct _ => none
  | .access j _ req => if j = i then some req else none

def requestsOf (i : Nat) (ops : List SystemOp) : List Request := ops.filterMap (SystemOp.requestOf i)

/-- What the accesses to object `i` copied out. -/
def answersOf (i : Nat) (outs : List (Nat × Buffer)) : List Buffer :=
  outs.filterMap fun x => if x.1 = i then some x.2 else none

/-- The object of the last access. -/
def lastObject (ops : List SystemOp) : Option Nat :=
  ops.foldl (fun last op => match op with | .construct _ => last | .access i _ _ => some i) none

/-- The positions that object `i` has stored, zero where it has stored none. -/
def storedPaths (i : Nat) (ops : List SystemOp) : Nat → BlockPath :=
  ops.foldl (fun paths op =>
    match op with
    | .construct _ => paths
    | .access j draws req => if j = i then Function.update paths req.ind (draws 0).newBlockPath else paths)
    fun _ => 0

/-- An access of object `i` to entry `ind`, after the run `done`, finds the client as the object left
it: the position is the one it stored, and if another object came last the stash is empty. -/
structure Undisturbed (done : List SystemOp) (c : Client bs) (i ind : Nat) : Prop where
  position : storedPaths i done ind ≠ 0 → c.pathMm ind = storedPaths i done ind
  stash : ∀ j, lastObject done = some j → j ≠ i → c.stashLoad = 0

section Histories
variable (i j : Nat) (ops : List SystemOp) (capacity : Nat) (draws : Nat → Draws) (req : Request)

@[simp] theorem requestsOf_construct : requestsOf i (ops ++ [SystemOp.construct capacity]) = requestsOf i ops := by
  simp [requestsOf, SystemOp.requestOf]

theorem requestsOf_access : requestsOf i (ops ++ [SystemOp.access i draws req]) = requestsOf i ops ++ [req] := by
  simp [requestsOf, SystemOp.requestOf]

theorem requestsOf_access_of_ne (h : j ≠ i) :
    requestsOf i (ops ++ [SystemOp.access j draws req]) = requestsOf i ops := by
  simp [requestsOf, SystemOp.requestOf, h]

@[simp] theorem lastObject_construct : lastObject (ops ++ [SystemOp.construct capacity]) = lastObject ops := by
  simp [lastObject]

@[simp] theorem lastObject_access : lastObject (ops ++ [SystemOp.access i draws req]) = some i := by
  simp [lastObject]

@[simp] theorem storedPaths_construct : storedPaths i (ops ++ [SystemOp.construct capacity]) = storedPaths i ops := by
  simp [storedPaths]

theorem storedPaths_access : storedPaths i (ops ++ [SystemOp.access i draws req]) =
    Function.update (storedPaths i ops) req.ind (draws 0).newBlockPath := by
  simp [storedPaths]

theorem storedPaths_access_of_ne (h : j ≠ i) :
    storedPaths i (ops ++ [SystemOp.access j draws req]) = storedPaths i ops := by
  simp [storedPaths, h]

end Histories

variable {t : MemTree N} {w : World bs B} {M : BlockKey → Option (BlockPath × Block bs)}

/-! ## The invariant -/

/-- Object `i` after the run `done`: its tree and, if the last access was its, the stash hold the
entries of its own array, under the positions that it stored. -/
structure ObjectInv (K : Cipher bs N B) (A : BufferAddrs) (done : List SystemOp) (w : World bs B) (i capacity : Nat)
    (t : MemTree N) (M : BlockKey → Option (BlockPath × Block bs)) : Prop where
  treeId : t.treeId = i + 1
  height : t.height = computeTreeHeight capacity
  entries : Entries capacity (storedPaths i done) (ArrayStore.zero.after (requestsOf i done)) M
  active : lastObject done = some i → TreeInv K A t w ∅ M
  rest : lastObject done ≠ some i → Stored K A t 0 w.host.bufs M

structure SharedInv (K : Cipher bs N B) (A : BufferAddrs) (done : List SystemOp) (s : System bs N B) : Prop where
  next : s.nextOramId = s.orams.length + 1
  aligned : s.orams ≠ [] → 8 ∣ bs
  stash : s.orams ≠ [] → s.world.client.StashWf ∧ (∀ n ∈ s.world.client.subs, n ≠ 0) ∧
    (lastObject done = none → s.world.client.stashLoad = 0)
  objects : ∀ i o, s.orams[i]? = some o → ∃ capacity t M, o = .base capacity t ∧ capacity ≤ maxPosMap ∧
    ObjectInv K A done s.world i capacity t M
  unborn : ∀ i, s.orams.length ≤ i → requestsOf i done = [] ∧ lastObject done ≠ some i
  outs : ∀ i, answersOf i s.outs = ArrayStore.zero.run bs (requestsOf i done)

theorem sharedInv_start (w : World bs B) : SharedInv (N := N) K A [] ⟨1, w, [], [], []⟩ where
  next := rfl
  aligned h := absurd rfl h
  stash h := absurd rfl h
  objects i o h := by simp at h
  unborn i _ := ⟨rfl, by simp [lastObject]⟩
  outs i := rfl

/-- The first object initialises the client, a later one leaves it and the other trees alone. -/
theorem SharedInv.newTree_client (hK : K.Correct) {done : List SystemOp} {s : System bs N B} (h : SharedInv K A done s)
    {capacity next : Nat} {t : MemTree N} {st : Process bs B}
    (ht : newTree K A (s.orams.length + 1) capacity ⟨next, s.world⟩ = some (t, st)) :
    st.world.client.StashWf ∧ (∀ n ∈ st.world.client.subs, n ≠ 0) ∧
      (lastObject done = none → st.world.client.stashLoad = 0) ∧
      ∀ i o, s.orams[i]? = some o → st.world.client = s.world.client ∧
        ∀ n j, st.world.host.bufs (A.addr (i + 1) n j) = s.world.host.bufs (A.addr (i + 1) n j) := by
  by_cases hfirst : s.orams = []
  · rw [hfirst] at ht
    obtain ⟨-, hinv, -⟩ := newTree_first hK ht
    refine ⟨hinv.stash, hinv.subs, fun _ => ?_, fun i o ho => by simp [hfirst] at ho⟩
    have hcard := hinv.holds.card_le (s := ∅) (by simp)
    have hload := hinv.stash.load
    rw [Multiset.card_add] at hcard
    rw [← UInt32.toNat_inj, hload]
    simpa using hcard.trans' (Nat.le_add_right _ _)
  · have hpos := List.length_pos_iff.mpr hfirst
    obtain ⟨hc, hbufs⟩ := newTree_later (by omega) ht
    obtain ⟨hwf, hsubs, hidle⟩ := h.stash hfirst
    refine ⟨hc ▸ hwf, hc ▸ hsubs, hc ▸ hidle, fun i o ho => ⟨hc, fun n j => hbufs _ n j ?_⟩⟩
    have := (List.getElem?_eq_some_iff.mp ho).1
    omega

/-- A new object changes nothing for the others and holds no block. -/
theorem SharedInv.construct (hK : K.Correct) {done : List SystemOp} {s s' : System bs N B}
    (h : SharedInv K A done s) {capacity : Nat} (hcap : capacity ≤ maxPosMap)
    (hstep : systemStep K A sz s (.construct capacity) = some s') :
    SharedInv K A (done ++ [SystemOp.construct capacity]) s' := by
  obtain ⟨o, st, hnew, rfl⟩ := systemStep_construct.mp hstep
  obtain ⟨t, ht, rfl⟩ := (newPathOram_base_eq_some hcap).mp hnew
  obtain ⟨h8, hid, hheight, hnext, hrest⟩ :=
    newTree_stored hK (computeTreeHeight_lt_clientMaxPath hcap) ht st.world.host.bufs
  simp only [h.next] at ht hid hnext
  have hborn := h.unborn s.orams.length le_rfl
  obtain ⟨hwf, hsubs, hidle, hothers⟩ := h.newTree_client hK ht
  refine ⟨?_, fun _ => h8, fun _ => ⟨hwf, hsubs, ?_⟩, fun i o hi => ?_, fun i hi => ?_, fun i => ?_⟩
  · simp [hnext]
  · simpa using hidle
  · rw [List.getElem?_append] at hi
    split at hi
    · -- an older object
      obtain ⟨hc, hb⟩ := hothers i o hi
      obtain ⟨cap, t', M, rfl, hle, ho⟩ := h.objects i o hi
      refine ⟨cap, t', M, rfl, hle, ho.treeId, ho.height, ?_, fun hlast => ?_, fun hlast => ?_⟩
      · simpa using ho.entries
      · exact (ho.active (by simpa using hlast)).frame hc (ho.treeId ▸ hb)
      · exact (ho.rest (by simpa using hlast)).frame (ho.treeId ▸ hb)
    · -- the new one
      obtain ⟨hi0, rfl⟩ : i = s.orams.length ∧ o = .base capacity t := by
        rw [List.getElem?_singleton] at hi
        split at hi
        · exact ⟨by omega, (Option.some.inj hi).symm⟩
        · cases hi
      subst hi0
      refine ⟨capacity, t, fun _ => none, rfl, hcap, hid, hheight, ?_, fun hlast => ?_, fun _ => hrest⟩
      · rw [requestsOf_construct, hborn.1]
        exact entries_zero capacity _
      · exact absurd (by simpa using hlast) hborn.2
  · simp only [List.length_append, List.length_singleton] at hi
    simpa using h.unborn i (by omega)
  · simpa using h.outs i

/-- What the object of an undisturbed access finds: its blocks, and its position. -/
theorem SharedInv.found {done : List SystemOp} {s : System bs N B} (h : SharedInv K A done s) {i ind : Nat}
    {o : PathOram N} (ho : s.orams[i]? = some o) (hund : Undisturbed done s.world.client i ind) :
    ∃ capacity t M, o = .base capacity t ∧ capacity ≤ maxPosMap ∧ ObjectInv K A done s.world i capacity t M ∧
      TreeInv K A t s.world ∅ M ∧
      (ind < capacity → ∀ fresh v, M (keyOf ind) = some v → v.1 = orFresh (s.world.client.pathMm ind) fresh) := by
  have hne : s.orams ≠ [] := fun h0 => by simp [h0] at ho
  obtain ⟨hwf, hsubs, hidle⟩ := h.stash hne
  obtain ⟨capacity, t, M, rfl, hcap, hobj⟩ := h.objects i o ho
  refine ⟨capacity, t, M, rfl, hcap, hobj, ?_, fun hind fresh v hv => ?_⟩
  · by_cases hlast : lastObject done = some i
    · exact hobj.active hlast
    · apply (hobj.rest hlast).wake hwf hsubs
      cases hl : lastObject done with
      | none => exact hidle hl
      | some j => exact hund.stash j hl fun e => hlast (e ▸ hl)
  · obtain ⟨hv0, hpos⟩ := hobj.entries.position ind hind v hv
    rw [hund.position (hpos ▸ hv0)]
    exact hobj.entries.path hind fresh v hv

/-- The level of an undisturbed access. -/
structure SharedAccess (K : Cipher bs N B) (A : BufferAddrs) (sz : BlockSize bs) (done : List SystemOp)
    (s : System bs N B) (i : Nat) (draws : Nat → Draws) (req : Request) (capacity : Nat) (t : MemTree N)
    (M : BlockKey → Option (BlockPath × Block bs)) (l : LevelResult bs N B) : Prop where
  oram : s.orams[i]? = some (.base capacity t)
  small : capacity ≤ maxPosMap
  bound : req.ind < capacity
  object : ObjectInv K A done s.world i capacity t M
  level : LevelDone K A sz t (orFresh (s.world.client.pathMm req.ind) (draws 0).freshPath) (draws 0).newBlockPath
    (keyOf req.ind) req
    (s.world.withPathMm (Function.update s.world.client.pathMm req.ind (draws 0).newBlockPath)) M l

theorem SharedInv.level (hK : K.Correct) {done : List SystemOp} {s s' : System bs N B}
    (h : SharedInv K A done s) {i : Nat} {draws : Nat → Draws} {req : Request}
    (hund : Undisturbed done s.world.client i req.ind)
    (hstep : systemStep K A sz s (.access i draws req) = some s') :
    ∃ capacity t M l, SharedAccess K A sz done s i draws req capacity t M l ∧
      s' = ⟨s.nextOramId, l.world, s.orams.set i (.base capacity l.tree), s.outs ++ [(i, l.block)],
        s.calls ++ l.calls⟩ := by
  obtain ⟨o, r, ho, hr, rfl⟩ := systemStep_access.mp hstep
  have hne : s.orams ≠ [] := fun h0 => by simp [h0] at ho
  obtain ⟨capacity, t, M, rfl, hcap, hobj, hinv, hpath⟩ := h.found ho hund
  obtain ⟨⟨hind, -⟩, l, hlevel, rfl⟩ := accessPathOram_base.mp hr
  exact ⟨capacity, t, M, l, ⟨ho, hcap, hind, hobj, accessLevel_spec (h.aligned hne) hK (hinv.withPathMm _)
    (keyOf_ne_zero (keyOf_bound hcap hind)) (hpath hind _) hlevel⟩, rfl⟩

/-- An undisturbed access answers from the object's own array. -/
theorem SharedInv.access (hK : K.Correct) (hsz : sz.val = bs) {done : List SystemOp} {s s' : System bs N B}
    (h : SharedInv K A done s) {i : Nat} {draws : Nat → Draws} {req : Request}
    (hfit : req.writeOffset + req.writeSize ≤ bs) (hund : Undisturbed done s.world.client i req.ind)
    (hstep : systemStep K A sz s (.access i draws req) = some s') :
    SharedInv K A (done ++ [SystemOp.access i draws req]) s' := by
  obtain ⟨capacity, t, M, l, ⟨ho, hcap, hind, hobj, hd⟩, rfl⟩ := h.level hK hund hstep
  obtain ⟨hentries, hout⟩ := hobj.entries.access (lt_of_le_of_lt hcap (by decide)) hind hsz hfit
    (s.world.host.fetched t.treeId) (draws 0).newBlockPath.2
  have hlen : i < s.orams.length := (List.getElem?_eq_some_iff.mp ho).1
  refine ⟨by simpa using h.next, fun _ => h.aligned fun h0 => by simp [h0] at ho,
    fun _ => ⟨hd.inv.stash, hd.inv.subs, by simp⟩, fun j o' hj => ?_, fun j hj => ?_, fun j => ?_⟩
  · by_cases hij : j = i
    · subst hij
      obtain rfl : o' = .base capacity l.tree := by simpa [List.getElem?_set_self hlen, eq_comm] using hj
      refine ⟨capacity, l.tree, _, rfl, hcap, hd.treeId.trans hobj.treeId,
        hd.height.trans hobj.height, ?_, fun _ => hd.inv, fun hlast => ?_⟩
      · rw [storedPaths_access, requestsOf_access, ArrayStore.after_append]
        exact hentries
      · exact absurd (lastObject_access _ _ _ _) hlast
    · -- another object is at rest from here on
      rw [List.getElem?_set_ne (Ne.symm hij)] at hj
      obtain ⟨cap, t', M', rfl, hle, hobj'⟩ := h.objects j o' hj
      have hrest : Stored K A t' 0 s.world.host.bufs M' := by
        by_cases hlast : lastObject done = some j
        · exact (hobj'.active hlast).rest (hund.stash j hlast hij)
        · exact hobj'.rest hlast
      refine ⟨cap, t', M', rfl, hle, hobj'.treeId, hobj'.height, ?_, fun hlast => ?_, fun _ => hrest.frame fun n k => ?_⟩
      · rw [storedPaths_access_of_ne _ _ _ _ _ (Ne.symm hij), requestsOf_access_of_ne _ _ _ _ _ (Ne.symm hij)]
        exact hobj'.entries
      · rw [lastObject_access] at hlast
        exact absurd (Option.some.inj hlast).symm hij
      · refine hd.others _ n k ?_
        rw [hobj'.treeId, hobj.treeId]
        omega
  · rw [List.length_set] at hj
    have hji : i ≠ j := by omega
    rw [requestsOf_access_of_ne _ _ _ _ _ hji, lastObject_access]
    exact ⟨(h.unborn j hj).1, fun e => hji (Option.some.inj e)⟩
  · by_cases hij : i = j
    · subst hij
      have hblock : l.block = (ArrayStore.zero.after (requestsOf i done)).copyOut bs req := hd.block.trans hout
      rw [requestsOf_access, ArrayStore.run_append, ← h.outs i, ← hblock]
      simp [answersOf]
    · rw [requestsOf_access_of_ne _ _ _ _ _ hij, ← h.outs j]
      simp [answersOf, hij]

/-- Every access of the run finds the client as its object left it. -/
def UndisturbedRun (K : Cipher bs N B) (A : BufferAddrs) (sz : BlockSize bs) (w : World bs B)
    (ops : List SystemOp) : Prop :=
  ∀ done i draws req s, done ++ [.access i draws req] <+: ops →
    done.foldlM (systemStep K A sz) ⟨1, w, [], [], []⟩ = some s → Undisturbed done s.world.client i req.ind

theorem SharedInv.run (hK : K.Correct) (hsz : sz.val = bs) {w : World bs B} {ops : List SystemOp}
    (hcap : ∀ capacity, .construct capacity ∈ ops → capacity ≤ maxPosMap)
    (hfit : ∀ i draws req, .access i draws req ∈ ops → req.writeOffset + req.writeSize ≤ bs)
    (hund : UndisturbedRun K A sz w ops) {s : System bs N B}
    (hrun : ops.foldlM (systemStep K A sz) ⟨1, w, [], [], []⟩ = some s) : SharedInv K A ops s := by
  refine (foldlM_inv (P := fun done s => done.foldlM (systemStep K A sz) ⟨1, w, [], [], []⟩ = some s ∧
    SharedInv K A done s) ops _ s ⟨rfl, sharedInv_start w⟩ ?_ hrun).2
  intro done op u v hpre ⟨hu, hinv⟩ hstep
  refine ⟨foldlM_append_eq_some.mpr ⟨u, hu, by simpa using hstep⟩, ?_⟩
  cases op with
  | construct capacity => exact hinv.construct hK (hcap capacity (mem_of_step hpre)) hstep
  | access i draws req =>
    exact hinv.access hK hsz (hfit i draws req (mem_of_step hpre)) (hund done i draws req u hpre hu) hstep

/-- In a run on any number of objects whose accesses are all undisturbed, every object answers as an
array that only its own accesses change. -/
theorem shared_undisturbed (hK : K.Correct) (hsz : sz.val < 2 ^ 32) {w : World bs B} {ops : List SystemOp}
    (hcap : ∀ capacity, .construct capacity ∈ ops → capacity ≤ maxPosMap)
    (hfit : ∀ i draws req, .access i draws req ∈ ops → req.writeOffset + req.writeSize ≤ bs)
    (hund : UndisturbedRun K A sz w ops) {s : System bs N B}
    (hrun : ops.foldlM (systemStep K A sz) ⟨1, w, [], [], []⟩ = some s) (i : Nat) :
    answersOf i s.outs = ArrayStore.zero.run bs (requestsOf i ops) :=
  (SharedInv.run hK (sz.eq_of_lt hsz) hcap hfit hund hrun).outs i

theorem SharedInv.access_completes {done : List SystemOp} {s : System bs N B} (h : SharedInv K A done s)
    {i : Nat} (hbs : bs / sizeofBlockPath ≠ 0) {t : MemTree N} {capacity : Nat}
    (ho : s.orams[i]? = some (.base capacity t)) (hsmall : capacity ≤ clientMaxPath * blocksPerNode)
    (draws : Nat → Draws) (req : Request) (hind : req.ind < capacity)
    (hund : Undisturbed done s.world.client i req.ind) :
    ∃ s', systemStep K A sz s (.access i draws req) = some s' := by
  obtain ⟨_, _, M, heq, -, hobj, hinv, hpath⟩ := h.found ho hund
  cases heq
  obtain ⟨r, hr⟩ := accessPathOram_base_completes
    (h.aligned fun h0 => by simp [h0] at ho) sz hbs hsmall hinv hobj.entries draws req hind (hpath hind _)
  exact ⟨_, systemStep_access.mpr ⟨_, r, ho, hr, rfl⟩⟩

/-! ## A lost block -/

/-- The draws of an access that takes path `q` and stores it. -/
def drawsOf (q : RandPath) : Nat → Draws := fun _ => ⟨q, q⟩

def writeSevens : Request := ⟨0, fun _ => 7, 8, 0⟩

def readFirst : Request := ⟨0, fun _ => 0, 0, 0⟩

/-- Two objects of two entries: the first writes its entry 0 along path 1, then the second reads its
own entry 0 and stores position 2. -/
def twoOwners : List SystemOp :=
  [.construct 2, .construct 2, .access 0 (drawsOf (.of 1)) writeSevens,
    .access 1 (drawsOf (.of 2)) readFirst]

/-- Then the first object reads its entry back. -/
def lostBlock : List SystemOp := twoOwners ++ [.access 0 (drawsOf (.of 1)) readFirst]

/-- Two new objects of two entries. -/
theorem twoConstructs (hK : K.Correct) (sz : BlockSize bs) (h8 : bs % 8 = 0) (w : World bs B) : ∃ s t₁ t₂,
    [SystemOp.construct 2, .construct 2].foldlM (systemStep K A sz) ⟨1, w, [], [], []⟩ = some s ∧
      SharedInv K A [.construct 2, .construct 2] s ∧ s.orams = [.base 2 t₁, .base 2 t₂] ∧ s.outs = [] ∧
      s.world.client.pathMm = fun _ => 0 := by
  obtain ⟨o₁, st₁, hnew₁⟩ := newPathOram_completes K A sz h8 2 (by decide) ⟨1, w⟩
  obtain ⟨o₂, st₂, hnew₂⟩ := newPathOram_completes K A sz h8 2 (by decide) st₁
  have hstep₁ : systemStep K A sz ⟨1, w, [], [], []⟩ (.construct 2) = some ⟨st₁.nextOramId, st₁.world, [o₁], [], []⟩ :=
    systemStep_construct.mpr ⟨o₁, st₁, hnew₁, rfl⟩
  have hstep₂ : systemStep K A sz ⟨st₁.nextOramId, st₁.world, [o₁], [], []⟩ (.construct 2) =
      some ⟨st₂.nextOramId, st₂.world, [o₁, o₂], [], []⟩ :=
    systemStep_construct.mpr ⟨o₂, st₂, hnew₂, rfl⟩
  have hinv₁ := (sharedInv_start w).construct hK (by decide) hstep₁
  have hinv₂ := hinv₁.construct hK (by decide) hstep₂
  have hnext : st₁.nextOramId = 2 := hinv₁.next
  obtain ⟨t₁, ht₁, rfl⟩ := (newPathOram_base_eq_some (by decide)).mp hnew₁
  obtain ⟨t₂, ht₂, rfl⟩ := (newPathOram_base_eq_some (by decide)).mp hnew₂
  rw [hnext] at ht₂
  refine ⟨_, t₁, t₂, ?_, hinv₂, rfl, rfl, ?_⟩
  · simp [hstep₁, hstep₂]
  · rw [(newTree_later (by decide) ht₂).1]
    exact (newTree_first hK ht₁).2.2

/-- The accesses of `twoOwners`: each leaves the stash empty, and the first tree keeps an empty root. -/
theorem twoOwners_run {K : Cipher 8 N B} (hK : K.Correct) (w : World 8 B) : ∃ s₁ s₂ t₁ t₂,
    (twoOwners.take 3).foldlM (systemStep K A .eight) ⟨1, w, [], [], []⟩ = some s₁ ∧
      s₁.world.client.stashLoad = 0 ∧
      twoOwners.foldlM (systemStep K A .eight) ⟨1, w, [], [], []⟩ = some s₂ ∧ SharedInv K A twoOwners s₂ ∧
      s₂.orams = [.base 2 t₁, .base 2 t₂] ∧ s₂.world.client.stashLoad = 0 ∧ s₂.world.client.pathMm 0 = 2 ∧
      (nodeRow K t₁ s₂.world.host.bufs 0).bag = 0 := by
  obtain ⟨s, u₁, u₂, hrun, hinv, horams, houts, hmm⟩ := twoConstructs (A := A) hK BlockSize.eight rfl w
  have hheight : computeTreeHeight 2 = 2 := by simp [computeTreeHeight]
  -- the first object writes its entry along path 1
  have hund : Undisturbed [.construct 2, .construct 2] s.world.client 0 writeSevens.ind :=
    ⟨fun h => absurd rfl h, fun j hj => by simp [lastObject] at hj⟩
  obtain ⟨s₁, hs₁⟩ := hinv.access_completes (by decide) (by rw [horams]; rfl) (by decide)
    (drawsOf (.of 1)) writeSevens (by decide) hund
  have hinv₁ : SharedInv K A (twoOwners.take 3) s₁ := hinv.access hK BlockSize.eight_val (by decide) hund hs₁
  obtain ⟨cap, t, M, l₁, ⟨ho, -, -, hobj, hd₁⟩, heq₁⟩ := hinv.level hK hund hs₁
  rw [horams] at ho
  cases ho
  have hp₁ : orFresh (s.world.client.pathMm writeSevens.ind) (.of 1) = 1 := by rw [hmm]; rfl
  obtain ⟨hload₁, hroom₁⟩ := hd₁.settles (hobj.entries.eq_none fun _ _ => rfl) (h := 1)
    (by rw [hobj.height, hheight]; decide) (by rw [drawsOf, hp₁]; rfl)
  have horams₁ : s₁.orams = [.base 2 l₁.tree, .base 2 u₂] := by simp [heq₁, horams]
  have hworld₁ : s₁.world = l₁.world := by rw [heq₁]
  -- the second object stores another position under the same index
  have hund₁ : Undisturbed (twoOwners.take 3) s₁.world.client 1 readFirst.ind :=
    ⟨fun h => absurd rfl h, fun j _ _ => hworld₁ ▸ hload₁⟩
  obtain ⟨s₂, hs₂⟩ := hinv₁.access_completes (by decide) (by rw [horams₁]; rfl) (by decide)
    (drawsOf (.of 2)) readFirst (by decide) hund₁
  have hinv₂ : SharedInv K A twoOwners s₂ := hinv₁.access hK BlockSize.eight_val (by decide) hund₁ hs₂
  obtain ⟨cap, t, M, l₂, ⟨ho, -, -, hobj', hd₂⟩, heq₂⟩ := hinv₁.level hK hund₁ hs₂
  rw [horams₁] at ho
  cases ho
  obtain ⟨hload₂, -⟩ := hd₂.settles (hobj'.entries.eq_none fun _ _ => rfl) (h := 0)
    (by rw [hobj'.height, hheight]; decide) rfl
  have hrun₁ : (twoOwners.take 3).foldlM (systemStep K A .eight) ⟨1, w, [], [], []⟩ = some s₁ :=
    foldlM_append_eq_some.mpr ⟨s, hrun, by simpa using hs₁⟩
  have hworld₂ : s₂.world = l₂.world := by rw [heq₂]
  refine ⟨s₁, s₂, l₁.tree, l₂.tree, hrun₁, hworld₁ ▸ hload₁,
    foldlM_append_eq_some.mpr ⟨s₁, hrun₁, by simpa using hs₂⟩, hinv₂, by simp [heq₂, horams₁], hworld₂ ▸ hload₂,
    ?_, ?_⟩
  · rw [hworld₂, hd₂.pathMm]
    rfl
  · have hid₁ : l₁.tree.treeId = 1 := hd₁.treeId.trans hobj.treeId
    rw [hworld₂, hd₁.inv.tree.owns.nodeRow_congr (fun n k => ?_) (Nat.two_pow_pos _)]
    · exact hroom₁ 0 (by decide)
    · rw [← hworld₁]
      refine hd₂.others _ n k ?_
      rw [hid₁, hobj'.treeId]
      decide

theorem twoOwners_undisturbed {K : Cipher 8 N B} (hK : K.Correct) (w : World 8 B) :
    UndisturbedRun K A .eight w twoOwners := by
  obtain ⟨s₁, -, -, -, hrun₁, hload₁, -⟩ := twoOwners_run (A := A) hK w
  intro done i draws req s hpre hrun
  obtain ⟨rest, hrest⟩ := hpre
  rcases done with _ | ⟨_, _ | ⟨_, _ | ⟨_, _ | ⟨_, done⟩⟩⟩⟩ <;>
    simp only [twoOwners, List.nil_append, List.cons_append, List.cons.injEq, reduceCtorEq, false_and, and_false,
      SystemOp.access.injEq, List.append_assoc] at hrest
  · -- the first access
    obtain ⟨rfl, rfl, ⟨rfl, -, rfl⟩, -⟩ := hrest
    exact ⟨fun h => absurd rfl h, fun j hj => by simp [lastObject] at hj⟩
  · -- the second, after the first one has emptied the stash
    obtain ⟨rfl, rfl, rfl, ⟨rfl, -, rfl⟩, -⟩ := hrest
    obtain rfl := Option.some.inj (hrun.symm.trans hrun₁)
    exact ⟨fun h => absurd rfl h, fun j _ _ => hload₁⟩
  · simp at hrest

theorem shared_undisturbed_twoOwners : ∃ s,
    twoOwners.foldlM (systemStep (Cipher.pairing 8) BufferAddrs.numbered .eight)
        ⟨1, ⟨emptyClient 8, .filled none⟩, [], [], []⟩ = some s ∧
      answersOf 0 s.outs = ArrayStore.zero.run 8 (requestsOf 0 twoOwners) := by
  have hK := Cipher.pairing_correct 8
  obtain ⟨-, s, -, -, -, -, hrun, -⟩ := twoOwners_run (A := BufferAddrs.numbered) hK
    ⟨emptyClient 8, .filled none⟩
  refine ⟨s, hrun, shared_undisturbed hK (by decide) (fun capacity hmem => ?_) (fun i draws req hmem => ?_)
    (twoOwners_undisturbed hK _) hrun 0⟩
  · simp [twoOwners] at hmem
    exact hmem ▸ by decide
  · simp [twoOwners] at hmem
    rcases hmem with ⟨-, -, rfl⟩ | ⟨-, -, rfl⟩ <;> decide

/-- After `twoOwners` the written block is neither in the stash nor on the path that is stored. -/
theorem twoOwners_absent {K : Cipher 8 N B} {s : System 8 N B} (hinv : SharedInv K A twoOwners s)
    {t₁ t₂ : MemTree N} (horams : s.orams = [.base 2 t₁, .base 2 t₂]) (hload : s.world.client.stashLoad = 0)
    (hroot : (nodeRow K t₁ s.world.host.bufs 0).bag = 0) :
    ∃ M, TreeInv K A t₁ s.world ∅ M ∧ KeysIn M {keyOf 0} ∧
      ∀ b ∈ stashBag s.world.client.path + pathKeyBag K t₁ s.world.host.bufs 2, b.key ≠ keyOf 0 := by
  have hne : s.orams ≠ [] := by rw [horams]; simp
  obtain ⟨hwf, hsubs, -⟩ := hinv.stash hne
  obtain ⟨cap, t, M, heq, hcap, hobj⟩ := hinv.objects 0 (.base 2 t₁) (by rw [horams]; rfl)
  cases heq
  have hheight : t₁.height = 2 := hobj.height.trans (by simp [computeTreeHeight])
  have htree := (hobj.rest (by decide)).wake hwf hsubs hload
  have hstored : storedPaths 0 twoOwners = Function.update (fun _ => 0) 0 1 := rfl
  refine ⟨M, htree, fun k v hk => ?_, fun b hb hkey => ?_⟩
  · obtain ⟨ind, hind, rfl⟩ := hobj.entries.keys k v hk
    obtain ⟨hv, hpos⟩ := hobj.entries.position ind hind v hk
    rcases Nat.eq_zero_or_pos ind with rfl | h0
    · exact Finset.mem_singleton_self _
    · rw [hstored, Function.update_of_ne (by omega)] at hpos
      exact absurd hpos.symm hv
  · rw [hwf.stashBag_eq_zero hload, zero_add, htree.tree.pathKeyBag_eq] at hb
    obtain ⟨g, hg, hbg⟩ := Multiset.mem_sum.mp hb
    have hlt : g < 2 := hheight ▸ Finset.mem_range.mp hg
    have hnode : nodeAddr (2 : BlockPath).toNat g < 2 ^ t₁.height := nodeAddr_lt_two_pow (hheight ▸ hlt)
    -- the block lies on path 1, which leaves path 2 below the root
    have hmem := htree.holds.mem (Multiset.mem_add.mpr (Or.inr
      (mem_treeBag.mpr ⟨_, hnode, Finset.notMem_empty _, hbg⟩)))
    rw [hkey] at hmem
    have hpath : b.path = 1 := (hobj.entries.position 0 (by decide) _ hmem).2.symm
    obtain ⟨f, -, hf⟩ := htree.tree.placed _ hnode b hbg
    obtain rfl := level_unique hf
    rw [hpath] at hf
    interval_cases g
    · rw [nodeAddr_zero, hroot] at hbg
      exact absurd hbg (Multiset.notMem_zero b)
    · exact absurd hf (by decide)

/-- The first object reads zeros where it wrote sevens: the second has overwritten the position. -/
theorem shared_disturbed : ∃ s,
    lostBlock.foldlM (systemStep (Cipher.pairing 8) BufferAddrs.numbered .eight)
        ⟨1, ⟨emptyClient 8, .filled none⟩, [], [], []⟩ = some s ∧
      answersOf 0 s.outs ≠ ArrayStore.zero.run 8 (requestsOf 0 lostBlock) := by
  obtain ⟨-, s, t₁, t₂, -, -, hrun, hinv, horams, hload, hmm, hroot⟩ :=
    twoOwners_run (A := BufferAddrs.numbered) (Cipher.pairing_correct 8) ⟨emptyClient 8, .filled none⟩
  obtain ⟨M, htree, hkeys, habsent⟩ := twoOwners_absent hinv horams hload hroot
  obtain ⟨l, hl, hblock⟩ := accessLevel_of_absent (by decide) .eight htree.height.le
    (htree.withPathMm (Function.update s.world.client.pathMm 0 1)).stash 1 (by decide) readFirst
    (htree.path_card_lt hkeys (by decide)) habsent
  have hstep : systemStep (Cipher.pairing 8) BufferAddrs.numbered .eight s (.access 0 (drawsOf (.of 1)) readFirst) =
      some ⟨s.nextOramId, l.world, s.orams.set 0 (.base 2 l.tree), s.outs ++ [(0, l.block)], s.calls ++ l.calls⟩ := by
    refine systemStep_access.mpr ⟨.base 2 t₁, ⟨.base 2 l.tree, l.world, l.block, l.calls⟩, by rw [horams]; rfl,
      accessPathOram_base.mpr ⟨by decide, l, ?_, rfl⟩, rfl⟩
    rw [show s.world.client.pathMm readFirst.ind = 2 from hmm]
    exact hl
  refine ⟨_, foldlM_append_eq_some.mpr ⟨s, hrun, by simpa using hstep⟩, fun hans => ?_⟩
  rw [lostBlock, requestsOf_access, ArrayStore.run_append, ← hinv.outs 0] at hans
  have hlast : l.block = (ArrayStore.zero.after (requestsOf 0 twoOwners)).copyOut 8 readFirst := by
    simpa [answersOf] using hans
  have hbyte : 0 = (ArrayStore.zero.after (requestsOf 0 twoOwners)).copyOut 8 readFirst 0 :=
    congrFun (hblock.symm.trans hlast) 0
  exact absurd hbyte (by decide)

end SgxOram
