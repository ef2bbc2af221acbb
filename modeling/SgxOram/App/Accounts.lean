import SgxOram.App.Lifetime

/-!
# What is live in a process

* `Accounts` : the live chunks of a process that has kept to the order of calls; `Accounts.step`, `Accounts.misused` :
  a call keeps the accounts, or touches a dead chunk;
* `lifetimes_safe_iff` : a run touches live memory only, and frees nothing twice, exactly when it keeps to that
  order;
* `leaks_iff` : what is left when everything has been freed.
-/

namespace SgxOram
open Lib

variable {bs : Nat} {N B : Type} {sz : BlockSize bs}

/-! ## What is live -/

theorem getElem?_concat_true {l : List Bool} (j : Nat) :
    (l ++ [true])[j]? = some true ↔ j = l.length ∨ l[j]? = some true := by
  rcases lt_trichotomy j l.length with hlt | rfl | hlt
  · rw [List.getElem?_append_left hlt]
    simp [hlt.ne]
  · simp
  · rw [List.getElem?_eq_none (by simpa using hlt), List.getElem?_eq_none hlt.le]
    simp [hlt.ne']

theorem getElem?_set_false {l : List Bool} {i : Nat} (hi : l[i]? = some true) (j : Nat) :
    (l.set i false)[j]? = some true ↔ j ≠ i ∧ l[j]? = some true := by
  by_cases heq : i = j
  · subst heq
    simp [(List.getElem?_eq_some_iff.mp hi).1]
  · simp [heq, Ne.symm heq]

/-- A tree of an object that has not been destroyed. -/
def LiveTree (orams : List (PathOram N)) (objects : List Bool) (shape : Nat × Nat) : Prop :=
  ∃ (i : Nat) (o : PathOram N), orams[i]? = some o ∧ objects[i]? = some true ∧ ∃ t ∈ o.trees, t.shape = shape

theorem liveTree_concat {orams : List (PathOram N)} {objects : List Bool} (hlen : objects.length = orams.length)
    (o : PathOram N) (shape : Nat × Nat) : LiveTree (orams ++ [o]) (objects ++ [true]) shape ↔
      LiveTree orams objects shape ∨ ∃ t ∈ o.trees, t.shape = shape := by
  constructor
  · rintro ⟨i, o', ho', hu, ht⟩
    rcases lt_trichotomy i orams.length with hlt | rfl | hlt
    · rw [List.getElem?_append_left hlt] at ho'
      rw [List.getElem?_append_left (hlen ▸ hlt)] at hu
      exact Or.inl ⟨i, o', ho', hu, ht⟩
    · rw [List.getElem?_concat_length] at ho'
      exact Or.inr (Option.some.inj ho' ▸ ht)
    · rw [List.getElem?_eq_none (by simpa using hlt)] at ho'
      cases ho'
  · rintro (⟨i, o', ho', hu, ht⟩ | ht)
    · have hlt := (List.getElem?_eq_some_iff.mp ho').1
      refine ⟨i, o', ?_, ?_, ht⟩
      · rwa [List.getElem?_append_left hlt]
      · rwa [List.getElem?_append_left (hlen ▸ hlt)]
    · refine ⟨orams.length, o, List.getElem?_concat_length, ?_, ht⟩
      rw [← hlen, List.getElem?_concat_length]

theorem liveTree_set {orams : List (PathOram N)} {objects : List Bool} {i : Nat} {o o' : PathOram N}
    (ho : orams[i]? = some o) (hshape : o'.trees.map MemTree.shape = o.trees.map MemTree.shape) (shape : Nat × Nat) :
    LiveTree (orams.set i o') objects shape ↔ LiveTree orams objects shape := by
  have hmem : (∃ t ∈ o'.trees, t.shape = shape) ↔ ∃ t ∈ o.trees, t.shape = shape := by
    rw [← List.mem_map, ← List.mem_map, hshape]
  have hlt := (List.getElem?_eq_some_iff.mp ho).1
  refine exists_congr fun j => ?_
  by_cases hij : i = j
  · subst hij
    simp only [List.getElem?_set_self hlt, ho, Option.some.injEq, exists_eq_left', hmem]
  · rw [List.getElem?_set_ne hij]

/-- What is live in a process that has kept to the order of calls. -/
def Alive (A : BufferAddrs) (s : Life bs N B) (u : Usage) (c : Chunk) : Prop :=
  (∃ shape, LiveTree s.system.orams u.objects shape ∧ Owns A shape c) ∨ (∃ b, u.buffers[b]? = some true ∧ c = .caller b) ∨
    (∃ n < s.paths, c = .blockPath n) ∨ ∃ n < s.reads, c = .readBlock n

section Accounts
variable {K : Cipher bs N B} {A : BufferAddrs} {tr : List ServerAccess} {s s' : Life bs N B} {u u' : Usage}
  {live : Finset Chunk}

theorem SystemInv.nodup_ids {s : System bs N B} (h : SystemInv K A tr s) :
    (s.orams.flatMap fun o => o.trees.map MemTree.treeId).Nodup := by
  rw [← List.map_flatMap]
  exact h.ids ▸ List.nodup_range'

/-- Trees with one number belong to one object. -/
theorem SystemInv.index_eq {s : System bs N B} (h : SystemInv K A tr s) {i j : Nat} {o o' : PathOram N}
    (ho : s.orams[i]? = some o) (ho' : s.orams[j]? = some o') {t t' : MemTree N} (ht : t ∈ o.trees)
    (ht' : t' ∈ o'.trees) (hid : t.treeId = t'.treeId) : i = j := by
  obtain ⟨hi, rfl⟩ := List.getElem?_eq_some_iff.mp ho
  obtain ⟨hj, rfl⟩ := List.getElem?_eq_some_iff.mp ho'
  have hdisj := List.pairwise_iff_getElem.mp (List.nodup_flatMap.mp h.nodup_ids).2
  have hmem := List.mem_map_of_mem (f := MemTree.treeId) ht
  have hmem' := List.mem_map_of_mem (f := MemTree.treeId) ht'
  rw [hid] at hmem
  rcases lt_trichotomy i j with hlt | heq | hlt
  · exact absurd hmem' (List.disjoint_left.mp (hdisj i j hi hj hlt) hmem)
  · exact heq
  · exact absurd hmem (List.disjoint_left.mp (hdisj j i hj hi hlt) hmem')

theorem SystemInv.nodup_object {s : System bs N B} (h : SystemInv K A tr s) {i : Nat} {o : PathOram N}
    (ho : s.orams[i]? = some o) : (objectChunks A o).Nodup :=
  nodup_objectChunks ((List.nodup_flatMap.mp h.nodup_ids).1 o (List.mem_of_getElem? ho))

/-- The first object has the tree with number 1. -/
theorem SystemInv.first_id {s : System bs N B} (h : SystemInv K A tr s) {o : PathOram N}
    (ho : s.orams[0]? = some o) : ∃ t ∈ o.trees, t.treeId = 1 := by
  obtain ⟨t, ts, ht⟩ : ∃ t ts, o.trees = t :: ts := by
    cases o <;> exact ⟨_, _, rfl⟩
  obtain ⟨rest, hrest⟩ : ∃ rest, s.orams = o :: rest := by
    cases horams : s.orams with
    | nil => simp [horams] at ho
    | cons o' rest =>
      rw [horams] at ho
      exact ⟨rest, by rw [Option.some.inj ho]⟩
  have hids := h.ids
  simp only [System.trees, hrest, List.flatMap_cons, ht, List.cons_append, List.map_cons, List.length_cons,
    List.range'_succ] at hids
  exact ⟨t, ht ▸ List.mem_cons_self, (List.cons.inj hids).1⟩

/-- The process has kept to the order of calls, and `live` is what is live. -/
structure Accounts (K : Cipher bs N B) (A : BufferAddrs) (tr : List ServerAccess) (s : Life bs N B) (u : Usage)
    (live : Finset Chunk) : Prop where
  inv : SystemInv K A tr s.system
  objects : u.objects.length = s.system.orams.length
  buffers : u.buffers.length = s.buffers
  heap : runHeap ∅ s.heap = some live
  cells : ∀ c, c ∈ live ↔ Alive A s u c

theorem LiveTree.client {s : System bs N B} (h : SystemInv K A tr s) {objects : List Bool} {shape : Nat × Nat}
    (ht : LiveTree s.orams objects shape) (hid : shape.1 = 1) : objects[0]? = some true := by
  obtain ⟨i, o, ho, hu, t, hmem, rfl⟩ := ht
  obtain ⟨o₀, ho₀⟩ : ∃ o₀, s.orams[0]? = some o₀ := by
    have hpos : 0 < s.orams.length := (Nat.zero_le i).trans_lt (List.getElem?_eq_some_iff.mp ho).1
    exact ⟨_, List.getElem?_eq_getElem hpos⟩
  obtain ⟨t₀, hmem₀, hid₀⟩ := h.first_id ho₀
  rwa [← h.index_eq ho ho₀ hmem hmem₀ (hid.trans hid₀.symm)]

/-- The client is live as long as the first object. -/
theorem Accounts.client_iff (h : Accounts K A tr s u live) (p : ClientPart) :
    Chunk.client p ∈ live ↔ u.objects[0]? = some true := by
  simp only [h.cells, Alive, Owns, reduceCtorEq, and_false, exists_false, or_false]
  constructor
  · rintro ⟨shape, ht, hid⟩
    exact ht.client h.inv hid
  · intro hu
    obtain ⟨hlt, -⟩ := List.getElem?_eq_some_iff.mp hu
    rw [h.objects] at hlt
    have ho := List.getElem?_eq_getElem hlt
    obtain ⟨t, hmem, hid⟩ := h.inv.first_id ho
    exact ⟨t.shape, ⟨0, _, ho, hu, t, hmem, rfl⟩, hid⟩

theorem Accounts.caller_iff (h : Accounts K A tr s u live) (b : Nat) :
    Chunk.caller b ∈ live ↔ u.buffers[b]? = some true := by
  simp [h.cells, Alive, Owns]

theorem PathOram.exists_myOramId (o : PathOram N) : ∃ t ∈ o.trees, t.treeId = o.myOramId := by
  cases o with
  | base capacity t => exact ⟨t, List.mem_singleton_self t, rfl⟩
  | recursive capacity t posMap => exact ⟨t, List.mem_cons_self, rfl⟩

theorem Accounts.object_iff (h : Accounts K A tr s u live) {i : Nat} {o : PathOram N}
    (ho : s.system.orams[i]? = some o) : Chunk.object o.myOramId ∈ live ↔ u.objects[i]? = some true := by
  obtain ⟨t, hmem, hid⟩ := o.exists_myOramId
  simp only [h.cells, Alive, Owns, reduceCtorEq, and_false, exists_false, or_false]
  constructor
  · rintro ⟨shape, ⟨j, o', ho', hu, t', hmem', rfl⟩, hown⟩
    rwa [h.inv.index_eq ho ho' hmem hmem' (hid.trans hown)]
  · exact fun hu => ⟨t.shape, ⟨i, o, ho, hu, t, hmem, rfl⟩, hid.symm⟩

theorem Accounts.newFrom (h : Accounts K A tr s u live) : NewFrom s.paths live := by
  intro m hm
  simp only [h.cells, Alive, Owns, reduceCtorEq, and_false, exists_false, or_false, false_or, not_false_eq_true,
    and_true]
  rintro ⟨n, hn, heq⟩
  have := Chunk.blockPath.inj heq
  omega

/-! ## The operations -/

theorem lifeStep_construct {capacity : Nat} (hstep : lifeStep K A sz s (.construct capacity) = some s') :
    ∃ system o, systemStep K A sz s.system (.construct capacity) = some system ∧ system.orams = s.system.orams ++ [o] ∧
      s' = { s with system, heap := s.heap ++ (newChunks A o).map HeapOp.alloc } := by
  simp only [lifeStep, Option.bind_eq_bind, Option.bind_eq_some_iff, Option.pure_def, Option.some.injEq] at hstep
  obtain ⟨system, hsystem, o, ho, rfl⟩ := hstep
  obtain ⟨o', st, -, rfl⟩ := systemStep_construct.mp hsystem
  rw [List.getLast?_concat, Option.some.injEq] at ho
  exact ⟨_, o', hsystem, rfl, by rw [ho]⟩

theorem Accounts.construct (hK : K.Correct) (h : Accounts K A tr s u live) {capacity : Nat}
    (hh : computeTreeHeight capacity < clientMaxPath) (hstep : lifeStep K A sz s (.construct capacity) = some s') :
    ∃ live', Accounts K A tr s' { u with objects := u.objects ++ [true] } live' := by
  obtain ⟨system, o, hsystem, horams, rfl⟩ := lifeStep_construct hstep
  have hinv := h.inv.construct hK hh (toOption_eq_some.mp hsystem)
  have ho : system.orams[s.system.orams.length]? = some o := by
    rw [horams, List.getElem?_concat_length]
  have hnew : ∀ c ∈ newChunks A o, c ∉ live := by
    intro c hc hlive
    obtain ⟨t, ht, hown⟩ := mem_objectChunks.mp ((newChunks_perm A o).mem_iff.mp hc)
    rcases (h.cells c).mp hlive with ⟨shape, ⟨j, o', ho', -, t', ht', rfl⟩, hown'⟩ | ⟨b, -, rfl⟩ | ⟨n, -, rfl⟩ |
      ⟨n, -, rfl⟩
    · have hlt := (List.getElem?_eq_some_iff.mp ho').1
      have hj : system.orams[j]? = some o' := by
        rw [horams, List.getElem?_append_left hlt, ho']
      exact hlt.ne (hinv.index_eq hj ho ht' ht (hown'.id_eq hown))
    all_goals exact hown.elim
  have hnd := (newChunks_perm A o).nodup_iff.mpr (hinv.nodup_object ho)
  refine ⟨live ∪ (newChunks A o).toFinset, hinv, ?_, h.buffers, ?_, fun c => ?_⟩
  · simp [horams, h.objects]
  · exact (runHeap_append_of h.heap).trans (runHeap_alloc hnd hnew)
  · rw [Finset.mem_union, List.mem_toFinset, (newChunks_perm A o).mem_iff, mem_objectChunks, h.cells]
    simp only [Alive, horams, liveTree_concat h.objects, or_and_right, exists_or]
    have hown : (∃ shape, (∃ t ∈ o.trees, t.shape = shape) ∧ Owns A shape c) ↔ ∃ t ∈ o.trees, Owns A t.shape c := by
      constructor
      · rintro ⟨_, ⟨t, ht, rfl⟩, hown⟩
        exact ⟨t, ht, hown⟩
      · rintro ⟨t, ht, hown⟩
        exact ⟨_, ⟨t, ht, rfl⟩, hown⟩
    rw [hown]
    exact or_right_comm

theorem Accounts.owned (h : Accounts K A tr s u live) {i : Nat} {o : PathOram N} (ho : s.system.orams[i]? = some o)
    (hu : u.objects[i]? = some true) : ∀ t ∈ o.trees, ∀ c, Owns A t.shape c → c ∈ live := fun t ht c hown =>
  (h.cells c).mpr (Or.inl ⟨t.shape, ⟨i, o, ho, hu, t, ht, rfl⟩, hown⟩)

theorem Accounts.owns (h : Accounts K A tr s u live) {i : Nat} {o : PathOram N} (ho : s.system.orams[i]? = some o) :
    TreesOwn K A o.trees := fun t ht => h.inv.owns t (List.mem_flatMap.mpr ⟨o, List.mem_of_getElem? ho, ht⟩)

/-- An access keeps the trees of the objects. -/
theorem Accounts.access (hK : K.Correct) (h : Accounts K A tr s u live) {i : Nat} {o : PathOram N}
    (ho : s.system.orams[i]? = some o) {draws : Nat → Draws} {req : Request} {system : System bs N B}
    (hstep : systemStep K A sz s.system (.access i draws req) = some system) :
    SystemInv K A tr system ∧ system.orams.length = s.system.orams.length ∧
      ∀ objects shape, LiveTree system.orams objects shape ↔ LiveTree s.system.orams objects shape := by
  have hinv := h.inv.access hK (toOption_eq_some.mp hstep)
  obtain ⟨o', r, ho', hr, rfl⟩ := systemStep_access.mp hstep
  obtain rfl := Option.some.inj (ho.symm.trans ho')
  obtain ⟨-, hshape, -⟩ := accessPathOramWith_buffers hK (h.owns ho) (toOption_eq_some.mp hr)
  exact ⟨hinv, List.length_set, fun objects shape => liveTree_set ho hshape shape⟩

theorem lifeStep_write {i b : Nat} {draws : Nat → Draws} {req : Request}
    (hstep : lifeStep K A sz s (.write i b draws req) = some s') : ∃ o system,
      s.system.orams[i]? = some o ∧ systemStep K A sz s.system (.access i draws req) = some system ∧
      s' = { s with
        system, paths := s.paths + o.trees.length,
        heap := s.heap ++ accessOps K A sz o (.caller b) s.paths draws req s.system.world } := by
  simp only [lifeStep, Option.bind_eq_bind, Option.bind_eq_some_iff, Option.pure_def, Option.some.injEq] at hstep
  obtain ⟨o, ho, system, hsystem, rfl⟩ := hstep
  exact ⟨o, system, ho, hsystem, rfl⟩

theorem lifeStep_read {i : Nat} {b : Option Nat} {draws : Nat → Draws} {ind : Nat} {junk : Buffer}
    (hstep : lifeStep K A sz s (.read i b draws ind junk) = some s') : ∃ o system,
      s.system.orams[i]? = some o ∧ systemStep K A sz s.system (.access i draws ⟨ind, junk, 0, 0⟩) = some system ∧
      s' = { s with
        system, paths := s.paths + o.trees.length, reads := s.reads + 1,
        heap := s.heap ++ (.use (.object o.myOramId) :: readOps b s.reads) ++
          accessOps K A sz o (.readBlock s.reads) s.paths draws ⟨ind, junk, 0, 0⟩ s.system.world } := by
  simp only [lifeStep, Option.bind_eq_bind, Option.bind_eq_some_iff, Option.pure_def, Option.some.injEq] at hstep
  obtain ⟨o, ho, system, hsystem, rfl⟩ := hstep
  exact ⟨o, system, ho, hsystem, rfl⟩

theorem exists_lt_add {p len : Nat} {P : Nat → Prop} :
    (∃ n < p + len, P n) ↔ (∃ n < p, P n) ∨ ∃ n, p ≤ n ∧ n < p + len ∧ P n := by
  constructor
  · rintro ⟨n, hn, h⟩
    rcases Nat.lt_or_ge n p with hlt | hge
    · exact Or.inl ⟨n, hlt, h⟩
    · exact Or.inr ⟨n, hge, hn, h⟩
  · rintro (⟨n, hn, h⟩ | ⟨n, -, hn, h⟩)
    · exact ⟨n, hn.trans_le (Nat.le_add_right p len), h⟩
    · exact ⟨n, hn, h⟩

/-- An access to a live object on a live block. -/
theorem Accounts.accessed (hK : K.Correct) (h : Accounts K A tr s u live) {i : Nat} {o : PathOram N}
    (ho : s.system.orams[i]? = some o) {draws : Nat → Draws} {req : Request} {system : System bs N B}
    (hstep : systemStep K A sz s.system (.access i draws req) = some system) (hfirst : u.objects[0]? = some true)
    (hobj : u.objects[i]? = some true) {block : Chunk} (hblock : block ∈ live) :
    Accounts K A tr
      { s with
        system, paths := s.paths + o.trees.length,
        heap := s.heap ++ accessOps K A sz o block s.paths draws req s.system.world }
      u (live ∪ boxes s.paths o.trees.length) := by
  obtain ⟨hinv, hlen, htrees⟩ := h.access hK ho hstep
  have hrun := accessOps_run K sz (h.owned ho hobj) ((h.client_iff _).mpr hfirst) hblock h.newFrom draws req s.system.world
  refine ⟨hinv, h.objects.trans hlen.symm, h.buffers, (runHeap_append_of h.heap).trans hrun, fun c => ?_⟩
  rw [Finset.mem_union, mem_boxes, h.cells]
  simp only [Alive, htrees, exists_lt_add]
  exact Iff.of_eq (by ac_rfl)

/-- Freeing a buffer of the process. -/
theorem Accounts.freed (h : Accounts K A tr s u live) {b : Nat} (hb : u.buffers[b]? = some true) :
    Accounts K A tr { s with heap := s.heap ++ [HeapOp.free (Chunk.caller b)] }
      { u with buffers := u.buffers.set b false } (live.erase (.caller b)) := by
  refine ⟨h.inv, h.objects, by simp [h.buffers], (runHeap_append_of h.heap).trans ?_, fun c => ?_⟩
  · rw [runHeap_cons, HeapOp.step, if_pos ((h.caller_iff b).mpr hb)]
    rfl
  · rw [Finset.mem_erase, h.cells]
    simp only [Alive, getElem?_set_false hb]
    constructor
    · rintro ⟨hne, ⟨shape, ht, hown⟩ | ⟨b', hb', rfl⟩ | hbox | hread⟩
      · exact Or.inl ⟨shape, ht, hown⟩
      · exact Or.inr (Or.inl ⟨b', ⟨fun e => hne (e ▸ rfl), hb'⟩, rfl⟩)
      · exact Or.inr (Or.inr (Or.inl hbox))
      · exact Or.inr (Or.inr (Or.inr hread))
    · rintro (⟨shape, ht, hown⟩ | ⟨b', ⟨hne, hb'⟩, rfl⟩ | ⟨n, hn, rfl⟩ | ⟨n, hn, rfl⟩)
      · exact ⟨fun e => by simp [e, Owns] at hown, Or.inl ⟨shape, ht, hown⟩⟩
      · exact ⟨fun e => hne (Chunk.caller.inj e), Or.inr (Or.inl ⟨b', hb', rfl⟩)⟩
      · exact ⟨by simp, Or.inr (Or.inr (Or.inl ⟨n, hn, rfl⟩))⟩
      · exact ⟨by simp, Or.inr (Or.inr (Or.inr ⟨n, hn, rfl⟩))⟩

theorem Accounts.malloced (h : Accounts K A tr s u live) :
    Accounts K A tr { s with buffers := s.buffers + 1, heap := s.heap ++ [HeapOp.alloc (Chunk.caller s.buffers)] }
      { u with buffers := u.buffers ++ [true] } (insert (.caller s.buffers) live) := by
  refine ⟨h.inv, h.objects, by simp [h.buffers], (runHeap_append_of h.heap).trans ?_, fun c => ?_⟩
  · rw [runHeap_cons, HeapOp.step, if_neg]
    · rfl
    · rw [h.caller_iff, ← h.buffers, List.getElem?_eq_none le_rfl]
      simp
  · rw [Finset.mem_insert, h.cells]
    simp only [Alive, getElem?_concat_true, h.buffers, or_and_right, exists_or, exists_eq_left]
    exact Iff.of_eq (by ac_rfl)

/-- The allocation of a `read`. -/
theorem Accounts.readAllocated (h : Accounts K A tr s u live) :
    Accounts K A tr { s with reads := s.reads + 1, heap := s.heap ++ [HeapOp.alloc (Chunk.readBlock s.reads)] } u
      (insert (.readBlock s.reads) live) := by
  refine ⟨h.inv, h.objects, h.buffers, (runHeap_append_of h.heap).trans ?_, fun c => ?_⟩
  · rw [runHeap_cons, HeapOp.step, if_neg]
    · rfl
    · simp [h.cells, Alive, Owns]
  · rw [Finset.mem_insert, h.cells]
    simp only [Alive, Nat.lt_succ_iff_lt_or_eq, or_and_right, exists_or, exists_eq_left]
    exact Iff.of_eq (by ac_rfl)

theorem Accounts.used (h : Accounts K A tr s u live) {c : Chunk} (hc : c ∈ live) :
    Accounts K A tr { s with heap := s.heap ++ [HeapOp.use c] } u live := by
  refine ⟨h.inv, h.objects, h.buffers, (runHeap_append_of h.heap).trans ?_, h.cells⟩
  rw [runHeap_cons, HeapOp.step, if_pos hc]
  rfl

theorem Accounts.read (hK : K.Correct) (h : Accounts K A tr s u live) {i : Nat} {o : PathOram N}
    (ho : s.system.orams[i]? = some o) {draws : Nat → Draws} {req : Request} {system : System bs N B}
    (hstep : systemStep K A sz s.system (.access i draws req) = some system) (hfirst : u.objects[0]? = some true)
    (hobj : u.objects[i]? = some true) : ∃ live',
    Accounts K A tr
      { s with
        system, paths := s.paths + o.trees.length, reads := s.reads + 1,
        heap := s.heap ++ [HeapOp.alloc (Chunk.readBlock s.reads)] ++
          accessOps K A sz o (.readBlock s.reads) s.paths draws req s.system.world } u live' :=
  ⟨_, h.readAllocated.accessed hK ho hstep hfirst hobj (Finset.mem_insert_self _ _)⟩

theorem lifeStep_destroy {i : Nat} (hstep : lifeStep K A sz s (.destroy i) = some s') :
    ∃ o, s.system.orams[i]? = some o ∧ s' = { s with heap := s.heap ++ (deleteChunks K o).map HeapOp.free } := by
  simp only [lifeStep, Option.bind_eq_bind, Option.bind_eq_some_iff, Option.pure_def, Option.some.injEq] at hstep
  obtain ⟨o, ho, rfl⟩ := hstep
  exact ⟨o, ho, rfl⟩

theorem Accounts.destroyed (h : Accounts K A tr s u live) {i : Nat} {o : PathOram N}
    (ho : s.system.orams[i]? = some o) (hobj : u.objects[i]? = some true) : ∃ live',
    Accounts K A tr { s with heap := s.heap ++ (deleteChunks K o).map HeapOp.free }
      { u with objects := u.objects.set i false } live' := by
  have hperm := deleteChunks_perm (h.owns ho)
  have hnd := hperm.nodup_iff.mpr (h.inv.nodup_object ho)
  have hmem : ∀ c, c ∈ deleteChunks K o ↔ ∃ t ∈ o.trees, Owns A t.shape c := fun c =>
    hperm.mem_iff.trans mem_objectChunks
  have hfree := runHeap_free hnd fun c hc => by
    obtain ⟨t, ht, hown⟩ := (hmem c).mp hc
    exact h.owned ho hobj t ht c hown
  refine ⟨_, h.inv, by simp [h.objects], h.buffers, (runHeap_append_of h.heap).trans hfree, fun c => ?_⟩
  rw [Finset.mem_sdiff, List.mem_toFinset, hmem, h.cells]
  simp only [Alive, LiveTree, getElem?_set_false hobj]
  constructor
  · rintro ⟨⟨shape, ⟨j, o', ho', hu, t, ht, rfl⟩, hown⟩ | hrest, hno⟩
    · refine Or.inl ⟨_, ⟨j, o', ho', ⟨?_, hu⟩, t, ht, rfl⟩, hown⟩
      rintro rfl
      rw [Option.some.inj (ho'.symm.trans ho)] at ht
      exact hno ⟨t, ht, hown⟩
    · exact Or.inr hrest
  · rintro (⟨shape, ⟨j, o', ho', ⟨hne, hu⟩, t, ht, rfl⟩, hown⟩ | ⟨b, hb, rfl⟩ | ⟨n, hn, rfl⟩ | ⟨n, hn, rfl⟩)
    · refine ⟨Or.inl ⟨_, ⟨j, o', ho', hu, t, ht, rfl⟩, hown⟩, ?_⟩
      rintro ⟨t', ht', hown'⟩
      exact hne (h.inv.index_eq ho' ho ht ht' (hown.id_eq hown'))
    · exact ⟨Or.inr (Or.inl ⟨b, hb, rfl⟩), by simp [Owns]⟩
    · exact ⟨Or.inr (Or.inr (Or.inl ⟨n, hn, rfl⟩)), by simp [Owns]⟩
    · exact ⟨Or.inr (Or.inr (Or.inr ⟨n, hn, rfl⟩)), by simp [Owns]⟩

/-- A step that keeps to the order of calls. -/
theorem Accounts.step (hK : K.Correct) (h : Accounts K A tr s u live) {op : LifeOp}
    (hh : ∀ capacity, op = .construct capacity → computeTreeHeight capacity < clientMaxPath)
    (hstep : lifeStep K A sz s op = some s') (hu : u.step op = some u') : ∃ live', Accounts K A tr s' u' live' := by
  cases op with
  | construct capacity =>
    cases hu
    exact h.construct hK (hh capacity rfl) hstep
  | write i b draws req =>
    obtain ⟨o, system, ho, hsystem, rfl⟩ := lifeStep_write hstep
    simp only [Usage.step, Option.ite_none_right_eq_some, Option.some.injEq] at hu
    obtain ⟨⟨hfirst, hobj, hb⟩, rfl⟩ := hu
    exact ⟨_, h.accessed hK ho hsystem hfirst hobj ((h.caller_iff b).mpr hb)⟩
  | read i b draws ind junk =>
    obtain ⟨o, system, ho, hsystem, rfl⟩ := lifeStep_read hstep
    cases b with
    | none =>
      simp only [Usage.step, Option.ite_none_right_eq_some, Option.some.injEq] at hu
      obtain ⟨⟨hfirst, hobj⟩, rfl⟩ := hu
      have hlive := (h.object_iff ho).mpr hobj
      simpa [readOps] using (h.used hlive).read hK ho hsystem hfirst hobj
    | some b =>
      simp only [Usage.step, Option.ite_none_right_eq_some, Option.some.injEq] at hu
      obtain ⟨⟨hfirst, hobj, hb⟩, rfl⟩ := hu
      have hlive := (h.object_iff ho).mpr hobj
      simpa [readOps] using ((h.used hlive).freed hb).read hK ho hsystem hfirst hobj
  | destroy i =>
    obtain ⟨o, ho, rfl⟩ := lifeStep_destroy hstep
    simp only [Usage.step, Option.ite_none_right_eq_some, Option.some.injEq] at hu
    obtain ⟨hobj, rfl⟩ := hu
    exact h.destroyed ho hobj
  | malloc =>
    cases hstep
    cases hu
    exact ⟨_, h.malloced⟩
  | free b =>
    cases hstep
    simp only [Usage.step, Option.ite_none_right_eq_some, Option.some.injEq] at hu
    obtain ⟨hb, rfl⟩ := hu
    exact ⟨_, h.freed hb⟩

theorem lifeStep_heap {op : LifeOp} (hstep : lifeStep K A sz s op = some s') : ∃ l, s'.heap = s.heap ++ l := by
  cases op with
  | construct capacity =>
    obtain ⟨system, o, -, -, rfl⟩ := lifeStep_construct hstep
    exact ⟨_, rfl⟩
  | write i b draws req =>
    obtain ⟨o, system, -, -, rfl⟩ := lifeStep_write hstep
    exact ⟨_, rfl⟩
  | read i b draws ind junk =>
    obtain ⟨o, system, -, -, rfl⟩ := lifeStep_read hstep
    exact ⟨_, List.append_assoc _ _ _⟩
  | destroy i =>
    obtain ⟨o, -, rfl⟩ := lifeStep_destroy hstep
    exact ⟨_, rfl⟩
  | malloc =>
    cases hstep
    exact ⟨_, rfl⟩
  | free b =>
    cases hstep
    exact ⟨_, rfl⟩

/-- A step against the order of calls touches a dead chunk. -/
theorem Accounts.misused (h : Accounts K A tr s u live) {op : LifeOp} (hstep : lifeStep K A sz s op = some s')
    (hu : u.step op = none) : runHeap ∅ s'.heap = none := by
  cases op with
  | construct capacity => cases hu
  | write i b draws req =>
    obtain ⟨o, system, ho, -, rfl⟩ := lifeStep_write hstep
    simp only [Usage.step, ite_eq_right_iff, reduceCtorEq, imp_false] at hu
    obtain ⟨huse, hblock, hclient⟩ := accessOps_use K A sz o (.caller b) s.paths draws req s.system.world
    have hno : ∀ {c}, .alloc c ∈ accessOps K A sz o (.caller b) s.paths draws req s.system.world →
        (∃ m, c = .blockPath m) ∨ ∃ m, c = .contentPtr m := accessOps_alloc K
    refine (runHeap_append_of h.heap).trans ?_
    by_cases hfirst : u.objects[0]? = some true
    · by_cases hobj : u.objects[i]? = some true
      · have hb : u.buffers[b]? ≠ some true := fun hb => hu ⟨hfirst, hobj, hb⟩
        exact runHeap_dead (mt (h.caller_iff b).mp hb) (fun hc => by simpa using hno hc) (Or.inl hblock)
      · exact runHeap_dead (mt (h.object_iff ho).mp hobj) (fun hc => by simpa using hno hc) (Or.inl huse)
    · exact runHeap_dead (mt (h.client_iff _).mp hfirst) (fun hc => by simpa using hno hc) (Or.inl hclient)
  | read i b draws ind junk =>
    obtain ⟨o, system, ho, -, rfl⟩ := lifeStep_read hstep
    obtain ⟨-, -, hclient⟩ := accessOps_use K A sz o (.readBlock s.reads) s.paths draws ⟨ind, junk, 0, 0⟩ s.system.world
    have hno : ∀ {c}, .alloc c ∈ .use (.object o.myOramId) :: readOps b s.reads ++
        accessOps K A sz o (.readBlock s.reads) s.paths draws ⟨ind, junk, 0, 0⟩ s.system.world →
        (∃ m, c = .readBlock m) ∨ (∃ m, c = .blockPath m) ∨ ∃ m, c = .contentPtr m := by
      intro c hc
      simp only [readOps, List.mem_append, List.mem_cons, List.mem_map, reduceCtorEq, false_or, and_false,
        exists_false, HeapOp.alloc.injEq, List.not_mem_nil, or_false] at hc
      exact hc.imp (fun e => ⟨_, e⟩) (accessOps_alloc K)
    rw [List.append_assoc]
    refine (runHeap_append_of h.heap).trans ?_
    by_cases hobj : u.objects[i]? = some true
    · by_cases hfirst : u.objects[0]? = some true
      · cases b with
        | none => simp [Usage.step, hobj, hfirst] at hu
        | some b =>
          have hb : u.buffers[b]? ≠ some true := fun hb => by simp [Usage.step, hobj, hfirst, hb] at hu
          exact runHeap_dead (mt (h.caller_iff b).mp hb) (fun hc => by simpa using hno hc) (Or.inr (by simp [readOps]))
      · exact runHeap_dead (mt (h.client_iff _).mp hfirst) (fun hc => by simpa using hno hc)
          (Or.inl (List.mem_append_right _ hclient))
    · exact runHeap_dead (mt (h.object_iff ho).mp hobj) (fun hc => by simpa using hno hc) (Or.inl (by simp))
  | destroy i =>
    obtain ⟨o, ho, rfl⟩ := lifeStep_destroy hstep
    have hobj : u.objects[i]? ≠ some true := fun hobj => by simp [Usage.step, hobj] at hu
    refine (runHeap_append_of h.heap).trans (runHeap_dead (mt (h.object_iff ho).mp hobj) ?_ (Or.inr ?_))
    · simp
    · simp [deleteChunks]
  | malloc => cases hu
  | free b =>
    cases hstep
    have hb : u.buffers[b]? ≠ some true := fun hb => by simp [Usage.step, hb] at hu
    exact (runHeap_append_of h.heap).trans (runHeap_dead (mt (h.caller_iff b).mp hb) (by simp) (Or.inr (by simp)))

end Accounts

/-! ## Runs -/

section Runs
variable {K : Cipher bs N B} {A : BufferAddrs} {w : World bs B} {ops : List LifeOp} {s : Life bs N B}

theorem accounts_nil (K : Cipher bs N B) (A : BufferAddrs) (w : World bs B) :
    Accounts K A w.host.trace ⟨⟨1, w, [], [], []⟩, 0, 0, 0, []⟩ ⟨[], []⟩ ∅ := by
  refine ⟨⟨fun t ht => absurd ht List.not_mem_nil, rfl, rfl, by simp⟩, rfl, rfl, rfl, fun c => ?_⟩
  simp [Alive, LiveTree]

/-- A run has kept to the order of calls or touched a dead chunk. -/
theorem accounts_or_misused (hK : K.Correct)
    (hheight : ∀ capacity, .construct capacity ∈ ops → computeTreeHeight capacity < clientMaxPath)
    (hrun : ops.foldlM (lifeStep K A sz) ⟨⟨1, w, [], [], []⟩, 0, 0, 0, []⟩ = some s) :
    (∃ u live, ops.foldlM Usage.step ⟨[], []⟩ = some u ∧ Accounts K A w.host.trace s u live) ∨
      ops.foldlM Usage.step ⟨[], []⟩ = none ∧ runHeap ∅ s.heap = none := by
  refine foldlM_inv (P := fun done s =>
      (∃ u live, done.foldlM Usage.step ⟨[], []⟩ = some u ∧ Accounts K A w.host.trace s u live) ∨
        done.foldlM Usage.step ⟨[], []⟩ = none ∧ runHeap ∅ s.heap = none)
    ops _ s (Or.inl ⟨_, _, rfl, accounts_nil K A w⟩) (fun done op s s' hpre hs hstep => ?_) hrun
  rw [List.foldlM_append]
  rcases hs with ⟨u, live, hu, h⟩ | ⟨hu, hdead⟩
  · cases hnext : u.step op with
    | none => exact Or.inr ⟨by simp [hu, hnext], h.misused hstep hnext⟩
    | some u' =>
      have hh : ∀ capacity, op = .construct capacity → computeTreeHeight capacity < clientMaxPath :=
        fun capacity e => hheight capacity (e ▸ mem_of_step hpre)
      obtain ⟨live', h'⟩ := h.step hK hh hstep hnext
      exact Or.inl ⟨u', live', by simp [hu, hnext], h'⟩
  · obtain ⟨l, hl⟩ := lifeStep_heap hstep
    exact Or.inr ⟨by simp [hu], by rw [hl, runHeap_append, hdead, Option.bind_none]⟩

/-- A run touches live chunks only, and frees none twice, exactly when it keeps to the order of calls. All its trees
have heights below `clientMaxPath` and one block size, and a chunk is touched as a whole: copies beyond its end, such
as the 8-byte move at a `BlockPath`, are not seen. -/
theorem lifetimes_safe_iff (hK : K.Correct)
    (hheight : ∀ capacity, .construct capacity ∈ ops → computeTreeHeight capacity < clientMaxPath)
    (hrun : ops.foldlM (lifeStep K A sz) ⟨⟨1, w, [], [], []⟩, 0, 0, 0, []⟩ = some s) :
    (runHeap ∅ s.heap).isSome ↔ (ops.foldlM Usage.step ⟨[], []⟩).isSome := by
  rcases accounts_or_misused hK hheight hrun with ⟨u, live, hu, h⟩ | ⟨hu, hdead⟩
  · simp [h.heap, hu]
  · simp [hdead, hu]

def LifeOp.isAccess : LifeOp → Bool
  | .write .. => true
  | .read .. => true
  | _ => false

def LifeOp.isRead : LifeOp → Bool
  | .read .. => true
  | _ => false

theorem PathOram.trees_length_pos (o : PathOram N) : 0 < o.trees.length := by
  cases o <;> exact Nat.succ_pos _

/-- Each access makes at least one block path, each read one block. -/
theorem lifeStep_counts {op : LifeOp} {s s' : Life bs N B} (hstep : lifeStep K A sz s op = some s') :
    (if op.isAccess then s.paths < s'.paths else s'.paths = s.paths) ∧
      s'.reads = s.reads + if op.isRead then 1 else 0 := by
  cases op with
  | construct capacity =>
    obtain ⟨system, o, -, -, rfl⟩ := lifeStep_construct hstep
    exact ⟨rfl, rfl⟩
  | write i b draws req =>
    obtain ⟨o, system, -, -, rfl⟩ := lifeStep_write hstep
    exact ⟨Nat.lt_add_of_pos_right o.trees_length_pos, rfl⟩
  | read i b draws ind junk =>
    obtain ⟨o, system, -, -, rfl⟩ := lifeStep_read hstep
    exact ⟨Nat.lt_add_of_pos_right o.trees_length_pos, rfl⟩
  | destroy i =>
    obtain ⟨o, -, rfl⟩ := lifeStep_destroy hstep
    exact ⟨rfl, rfl⟩
  | malloc =>
    cases hstep
    exact ⟨rfl, rfl⟩
  | free b =>
    cases hstep
    exact ⟨rfl, rfl⟩

theorem lifeRun_counts (hrun : ops.foldlM (lifeStep K A sz) ⟨⟨1, w, [], [], []⟩, 0, 0, 0, []⟩ = some s) :
    ops.countP LifeOp.isAccess ≤ s.paths ∧ (ops.countP LifeOp.isAccess = 0 → s.paths = 0) ∧
      s.reads = ops.countP LifeOp.isRead := by
  refine foldlM_inv (P := fun done (s : Life bs N B) => done.countP LifeOp.isAccess ≤ s.paths ∧
      (done.countP LifeOp.isAccess = 0 → s.paths = 0) ∧ s.reads = done.countP LifeOp.isRead)
    ops _ s ⟨le_rfl, fun _ => rfl, rfl⟩ (fun done op s s' _ hs hstep => ?_) hrun
  obtain ⟨hle, hzero, hreads⟩ := hs
  obtain ⟨hpaths, hreads'⟩ := lifeStep_counts hstep
  simp only [List.countP_append, List.countP_singleton, hreads', hreads, and_true]
  split at hpaths <;> rename_i hop <;> simp only [hop, if_true, Bool.false_eq_true, if_false] <;> omega

/-- What is live once everything has been freed. -/
def leaked (paths reads : Nat) : Finset Chunk :=
  (Finset.range paths).image Chunk.blockPath ∪ (Finset.range reads).image Chunk.readBlock

theorem card_leaked (paths reads : Nat) : (leaked paths reads).card = paths + reads := by
  rw [leaked, Finset.card_union_of_disjoint, Finset.card_image_of_injective _ fun _ _ => Chunk.blockPath.inj,
    Finset.card_image_of_injective _ fun _ _ => Chunk.readBlock.inj, Finset.card_range, Finset.card_range]
  rw [Finset.disjoint_left]
  simp

theorem Accounts.live_eq_leaked {tr : List ServerAccess} {u : Usage} {live : Finset Chunk}
    (h : Accounts K A tr s u live) (hobjects : true ∉ u.objects) (hbuffers : true ∉ u.buffers) :
    live = leaked s.paths s.reads := by
  have hnone : ∀ {l : List Bool}, true ∉ l → ∀ i, l[i]? ≠ some true := fun hl i hi => hl (List.mem_of_getElem? hi)
  ext c
  simp [h.cells, Alive, LiveTree, hnone hobjects, hnone hbuffers, leaked, eq_comm]

/-- A run on trees of heights below `clientMaxPath` and of one block size that has freed all its objects and buffers
leaves a block path for each call of `AccessPathORAM` and a block for each `read`. It leaves nothing exactly when it
has made no access. -/
theorem leaks_iff (hK : K.Correct)
    (hheight : ∀ capacity, .construct capacity ∈ ops → computeTreeHeight capacity < clientMaxPath)
    (hrun : ops.foldlM (lifeStep K A sz) ⟨⟨1, w, [], [], []⟩, 0, 0, 0, []⟩ = some s) {u : Usage}
    (hu : ops.foldlM Usage.step ⟨[], []⟩ = some u) (hobjects : true ∉ u.objects) (hbuffers : true ∉ u.buffers) :
    runHeap ∅ s.heap = some (leaked s.paths s.reads) ∧
      ops.countP LifeOp.isAccess + ops.countP LifeOp.isRead ≤ (leaked s.paths s.reads).card ∧
      (leaked s.paths s.reads = ∅ ↔ ops.countP LifeOp.isAccess = 0) := by
  obtain ⟨hpaths, hzero, hreads⟩ := lifeRun_counts hrun
  have hle : ops.countP LifeOp.isRead ≤ ops.countP LifeOp.isAccess :=
    List.countP_mono_left fun op _ hop => by cases op <;> simp_all [LifeOp.isRead, LifeOp.isAccess]
  refine ⟨?_, ?_, ?_⟩
  · rcases accounts_or_misused hK hheight hrun with ⟨u', live, hu', h⟩ | ⟨hu', -⟩
    · obtain rfl := Option.some.inj (hu'.symm.trans hu)
      rw [h.heap, h.live_eq_leaked hobjects hbuffers]
    · rw [hu] at hu'
      cases hu'
  · rw [card_leaked]
    omega
  · rw [← Finset.card_eq_zero, card_leaked]
    omega

end Runs

/-! ## Sample runs -/

/-- The calls of the benchmark: `data` is freed after a `read` has freed it. -/
def benchmarkCalls : List LifeOp :=
  [.malloc, .construct 2, .read 0 (some 0) (fun _ => ⟨.of 3, .of 5⟩) 1 (fun _ => 0), .free 0]

/-- The same with the null pointer. -/
def freedCalls : List LifeOp :=
  [.construct 2, .read 0 none (fun _ => ⟨.of 3, .of 5⟩) 1 (fun _ => 0), .destroy 0]

theorem sampleRead_completes : ∃ o st r, newPathOram (Cipher.pairing 8) BufferAddrs.numbered .eight 2
    ⟨1, ⟨emptyClient 8, .filled none⟩⟩ = some (o, st) ∧
    accessPathOramWith ecallWriteMmInClient (Cipher.pairing 8) .eight o (fun _ => ⟨.of 3, .of 5⟩)
      ⟨1, fun _ => 0, 0, 0⟩ st.world = .ok r := by
  obtain ⟨o, st, hnew⟩ := newPathOram_completes (Cipher.pairing 8) BufferAddrs.numbered .eight rfl 2
    (by decide) ⟨1, ⟨emptyClient 8, .filled none⟩⟩
  obtain ⟨r, hr⟩ := firstAccess_completes (Cipher.pairing_correct 8) (by decide) (by decide) hnew
    ⟨fun _ => ⟨.of 3, .of 5⟩, ⟨1, fun _ => 0, 0, 0⟩⟩ (by decide) (X := ecallWriteMmInClient) rfl
  exact ⟨o, st, r, hnew, hr⟩

theorem lifetimes_safe_iff_benchmark : ∃ s,
    benchmarkCalls.foldlM (lifeStep (Cipher.pairing 8) BufferAddrs.numbered .eight)
        ⟨⟨1, ⟨emptyClient 8, .filled none⟩, [], [], []⟩, 0, 0, 0, []⟩ = some s ∧
      runHeap ∅ s.heap = none := by
  obtain ⟨o, st, r, hnew, hr⟩ := sampleRead_completes
  obtain ⟨s, hrun⟩ : ∃ s, benchmarkCalls.foldlM (lifeStep (Cipher.pairing 8) BufferAddrs.numbered .eight)
      ⟨⟨1, ⟨emptyClient 8, .filled none⟩, [], [], []⟩, 0, 0, 0, []⟩ = some s := by
    simp [benchmarkCalls, lifeStep, systemStep, systemStepWith, hnew, hr]
  have hheight : ∀ capacity, .construct capacity ∈ benchmarkCalls → computeTreeHeight capacity < clientMaxPath := by
    intro capacity hmem
    obtain rfl : capacity = 2 := by simpa [benchmarkCalls] using hmem
    exact computeTreeHeight_lt_clientMaxPath (by decide)
  have hiff := lifetimes_safe_iff (Cipher.pairing_correct 8) hheight hrun
  exact ⟨s, hrun, by simpa [benchmarkCalls, Usage.step] using hiff⟩

theorem leaks_iff_freed : ∃ s,
    freedCalls.foldlM (lifeStep (Cipher.pairing 8) BufferAddrs.numbered .eight)
        ⟨⟨1, ⟨emptyClient 8, .filled none⟩, [], [], []⟩, 0, 0, 0, []⟩ = some s ∧
      runHeap ∅ s.heap = some (leaked s.paths s.reads) ∧ 2 ≤ (leaked s.paths s.reads).card := by
  obtain ⟨o, st, r, hnew, hr⟩ := sampleRead_completes
  obtain ⟨s, hrun⟩ : ∃ s, freedCalls.foldlM (lifeStep (Cipher.pairing 8) BufferAddrs.numbered .eight)
      ⟨⟨1, ⟨emptyClient 8, .filled none⟩, [], [], []⟩, 0, 0, 0, []⟩ = some s := by
    simp [freedCalls, lifeStep, systemStep, systemStepWith, hnew, hr]
  have hheight : ∀ capacity, .construct capacity ∈ freedCalls → computeTreeHeight capacity < clientMaxPath := by
    intro capacity hmem
    obtain rfl : capacity = 2 := by simpa [freedCalls] using hmem
    exact computeTreeHeight_lt_clientMaxPath (by decide)
  obtain ⟨hheap, hcard, -⟩ := leaks_iff (Cipher.pairing_correct 8) hheight hrun (u := ⟨[false], []⟩) rfl (by decide)
    (by decide)
  exact ⟨s, hrun, hheap, hcard⟩

end SgxOram
