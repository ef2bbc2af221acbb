import SgxOram.App.Buffers
import SgxOram.Lib.Ledger

/-!
# Who frees what (`App/PathORAM.cpp`, `Enclave/Enclave_Client.cpp`)

The constructors, `AccessPathORAM`, `read`, `write` and the destructors with their heap operations.

* `Chunk` : what they allocate; `newChunks`, `deleteChunks`, `accessOps` : their allocations, uses and frees, in
  order;
* `lifeStep` : a process with any number of objects and buffers of its own;
* `Usage` : the order of calls that the code relies on;
* `newChunks_perm`, `deleteChunks_perm` : the destructors free what the constructors have allocated;
* `accessOps_run` : an access on live chunks leaves a block path for each level.
-/

namespace SgxOram
open Lib

variable {bs : Nat} {N B : Type} {sz : BlockSize bs}

/-! ## Chunks -/

/-- The allocations of `ecall_init_client`. -/
inductive ClientPart
  | client
  | path
  | stashRow (r : Fin clientMaxPath)
  | addrRow (r : Fin clientMaxPath)
  | stashBlock (r : Fin clientMaxPath) (i : Fin blocksPerNode)
  | tempNode
  | tempBlock (i : Fin blocksPerNode)
  | dummyBlock
  deriving DecidableEq

/-- What is allocated on the two heaps. `blockPath n` and `contentPtr n` are the `new BlockPath()` and the
`encrypted_content_ptr` of the `n`-th call of `AccessPathORAM`, `readBlock n` is the `malloc` of the `n`-th
`read`. -/
inductive Chunk
  | object (id : Nat)
  | nodes (id : Nat)
  | buffer (a : Addr)
  | posMapBlock (id : Nat)
  | fetchedBlock (id : Nat)
  | client (part : ClientPart)
  | blockPath (n : Nat)
  | contentPtr (n : Nat)
  | caller (b : Nat)
  | readBlock (n : Nat)
  deriving DecidableEq

def initRow (r : Fin clientMaxPath) : List ClientPart :=
  .stashRow r :: .addrRow r :: (List.finRange blocksPerNode).map (ClientPart.stashBlock r)

/-- `ecall_init_client`, in order. -/
def initClientParts : List ClientPart :=
  .client :: .path :: (List.finRange clientMaxPath).flatMap initRow ++
    .tempNode :: (List.finRange blocksPerNode).map ClientPart.tempBlock ++ [ClientPart.dummyBlock]

def destroyRow (r : Fin clientMaxPath) : List ClientPart :=
  (List.finRange blocksPerNode).map (ClientPart.stashBlock r) ++ [ClientPart.stashRow r, .addrRow r]

/-- `ecall_destory_client`, in order. -/
def destroyClientParts : List ClientPart :=
  .path :: (List.finRange clientMaxPath).flatMap destroyRow ++
    .dummyBlock :: .tempNode :: (List.finRange blocksPerNode).map ClientPart.tempBlock ++ [ClientPart.client]

/-- "Initialize for enclave client only once." -/
def clientOnce (myOramId : Nat) (parts : List ClientPart) : List Chunk :=
  if myOramId = 1 then parts.map Chunk.client else []

/-- `InitializeMemTree` and the two blocks of the constructor. -/
def treeChunks (A : BufferAddrs) (id height : Nat) : List Chunk :=
  .nodes id :: (treeBuffers A id height).map Chunk.buffer ++ [Chunk.posMapBlock id, .fetchedBlock id]

/-- `my_ORAM_id_`. -/
def PathOram.myOramId : PathOram N → Nat
  | .base _ t => t.treeId
  | .recursive _ t _ => t.treeId

/-- What the constructor allocates, in order: the next object, the client and the tree. -/
def initChunks (A : BufferAddrs) : PathOram N → List Chunk
  | .base _ t => clientOnce t.treeId initClientParts ++ treeChunks A t.treeId t.height
  | .recursive _ t posMap =>
    .object posMap.myOramId :: initChunks A posMap ++
      (clientOnce t.treeId initClientParts ++ treeChunks A t.treeId t.height)

/-- `new PathORAM(capacity, block_size)`. -/
def newChunks (A : BufferAddrs) (o : PathOram N) : List Chunk := .object o.myOramId :: initChunks A o

/-- `FreeMemTree`, which frees the buffers that the nodes name, and the two blocks of the destructor. -/
def freeTreeChunks (K : Cipher bs N B) (t : MemTree N) : List Chunk :=
  (freeMemTree K t).map Chunk.buffer ++ [Chunk.nodes t.treeId, .posMapBlock t.treeId, .fetchedBlock t.treeId]

/-- What the destructor frees, in order: the client, the next object and the tree. -/
def destroyChunks (K : Cipher bs N B) : PathOram N → List Chunk
  | .base _ t => clientOnce t.treeId destroyClientParts ++ freeTreeChunks K t
  | .recursive _ t posMap =>
    clientOnce t.treeId destroyClientParts ++ (destroyChunks K posMap ++ [Chunk.object posMap.myOramId]) ++
      freeTreeChunks K t

/-- `delete`. -/
def deleteChunks (K : Cipher bs N B) (o : PathOram N) : List Chunk := destroyChunks K o ++ [Chunk.object o.myOramId]

/-! ## Accesses -/

/-- What a download or an eviction along `p` touches. The parts of the client live and die together, so only
`client` itself is listed. -/
def pathChunks (A : BufferAddrs) (t : MemTree N) (p : BlockPath) : List Chunk :=
  .client .client :: .nodes t.treeId :: (List.range t.height).flatMap fun h =>
    (List.finRange blocksPerNode).map fun i => Chunk.buffer (A.addr t.treeId (nodeAddr p.toNat h) i)

/-- The fetch, the copies to and from the caller's `block`, and the put. -/
def exchangeChunks (A : BufferAddrs) (t : MemTree N) (p : BlockPath) (block : Chunk) (n : Nat) : List Chunk :=
  pathChunks A t p ++
    [Chunk.fetchedBlock t.treeId, .contentPtr n, .posMapBlock t.treeId, block, .client .client]

/-- One call of `AccessPathORAM`, the `n`-th; `posMap` updates the position map. -/
def levelOps (A : BufferAddrs) (t : MemTree N) (p : BlockPath) (block : Chunk) (n : Nat)
    (posMap : List (HeapOp Chunk)) : List (HeapOp Chunk) :=
  .use (.object t.treeId) :: .alloc (.blockPath n) :: (posMap ++
    .use (.blockPath n) :: .alloc (.contentPtr n) :: ((exchangeChunks A t p block n).map HeapOp.use ++
      .free (.contentPtr n) :: (.blockPath n :: pathChunks A t p).map HeapOp.use))

/-- `AccessPathORAM`. The next object writes the position of the entry, and copies the old one to `block_path`. -/
def accessOps (K : Cipher bs N B) (A : BufferAddrs) (sz : BlockSize bs) : PathOram N → Chunk → Nat →
    (Nat → Draws) → Request →
    World bs B → List (HeapOp Chunk)
  | .base _ t, block, n, draws, req, w =>
    levelOps A t (orFresh (w.client.pathMm req.ind) (draws 0).freshPath) block n
      [.use (.blockPath n), .use (.client .client)]
  | .recursive _ t posMap, block, n, draws, req, w =>
    let inner := accessPathOram K sz posMap (fun k => draws (k + 1))
      (posMapRequest sz.val req.ind (draws 0).newBlockPath) w
    let p := orFresh ((inner.map fun r => pathOfBuffer r.block).getD 0) (draws 0).freshPath
    levelOps A t p block n
      (accessOps K A sz posMap (.blockPath n) (n + 1) (fun k => draws (k + 1))
        (posMapRequest sz.val req.ind (draws 0).newBlockPath) w)

/-! ## Processes -/

/-- A process with its objects. It has made `buffers` buffers of its own, `paths` calls of `AccessPathORAM` and
`reads` calls of `read`. -/
structure Life (bs : Nat) (N B : Type) where
  system : System bs N B
  buffers : Nat
  paths : Nat
  reads : Nat
  heap : List (HeapOp Chunk)

/-- A process uses its objects, numbered as they have been made, and its buffers. `read` may be given the null
pointer; what its `malloc` returns holds `junk`. -/
inductive LifeOp
  | construct (capacity : Nat)
  | write (i b : Nat) (draws : Nat → Draws) (req : Request)
  | read (i : Nat) (b : Option Nat) (draws : Nat → Draws) (ind : Nat) (junk : Buffer)
  | destroy (i : Nat)
  | malloc
  | free (b : Nat)

/-- `if (block != nullptr) free(block); block = malloc(block_size_)`. -/
def readOps (b : Option Nat) (n : Nat) : List (HeapOp Chunk) :=
  b.toList.map (fun b => HeapOp.free (Chunk.caller b)) ++ [HeapOp.alloc (Chunk.readBlock n)]

def lifeStep (K : Cipher bs N B) (A : BufferAddrs) (sz : BlockSize bs) (s : Life bs N B) : LifeOp → Option
    (Life bs N B)
  | .construct capacity => do
    let system ← systemStep K A sz s.system (.construct capacity)
    let o ← system.orams.getLast?
    return { s with system, heap := s.heap ++ (newChunks A o).map HeapOp.alloc }
  | .write i b draws req => do
    let o ← s.system.orams[i]?
    let system ← systemStep K A sz s.system (.access i draws req)
    return { s with
      system, paths := s.paths + o.trees.length,
      heap := s.heap ++ accessOps K A sz o (.caller b) s.paths draws req s.system.world }
  | .read i b draws ind junk => do
    let o ← s.system.orams[i]?
    let system ← systemStep K A sz s.system (.access i draws ⟨ind, junk, 0, 0⟩)
    return { s with
      system, paths := s.paths + o.trees.length, reads := s.reads + 1,
      heap := s.heap ++ (.use (.object o.myOramId) :: readOps b s.reads) ++
        accessOps K A sz o (.readBlock s.reads) s.paths draws ⟨ind, junk, 0, 0⟩ s.system.world }
  | .destroy i => do
    let o ← s.system.orams[i]?
    return { s with heap := s.heap ++ (deleteChunks K o).map HeapOp.free }
  | .malloc => some { s with buffers := s.buffers + 1, heap := s.heap ++ [HeapOp.alloc (Chunk.caller s.buffers)] }
  | .free b => some { s with heap := s.heap ++ [HeapOp.free (Chunk.caller b)] }

/-! ## The order of calls -/

/-- The objects and buffers, with what has not been freed. -/
structure Usage where
  objects : List Bool
  buffers : List Bool

/-- An access needs its object and the first object, which owns the enclave's client. A buffer is gone once it has
been given to `read`. -/
def Usage.step (u : Usage) : LifeOp → Option Usage
  | .construct _ => some { u with objects := u.objects ++ [true] }
  | .write i b _ _ =>
    if u.objects[0]? = some true ∧ u.objects[i]? = some true ∧ u.buffers[b]? = some true then some u else none
  | .read i none _ _ _ => if u.objects[0]? = some true ∧ u.objects[i]? = some true then some u else none
  | .read i (some b) _ _ _ =>
    if u.objects[0]? = some true ∧ u.objects[i]? = some true ∧ u.buffers[b]? = some true then
      some { u with buffers := u.buffers.set b false }
    else none
  | .destroy i => if u.objects[i]? = some true then some { u with objects := u.objects.set i false } else none
  | .malloc => some { u with buffers := u.buffers ++ [true] }
  | .free b => if u.buffers[b]? = some true then some { u with buffers := u.buffers.set b false } else none

/-! ## What an object owns -/

/-- What a tree, given by its number and height, owns. -/
def ownedChunks (A : BufferAddrs) (shape : Nat × Nat) : List Chunk :=
  .object shape.1 :: (clientOnce shape.1 initClientParts ++ treeChunks A shape.1 shape.2)

/-- What an object owns. -/
def objectChunks (A : BufferAddrs) (o : PathOram N) : List Chunk :=
  (o.trees.map MemTree.shape).flatMap (ownedChunks A)

theorem mem_initClientParts (p : ClientPart) : p ∈ initClientParts := by
  cases p <;> simp [initClientParts, initRow]

theorem nodup_initClientParts : initClientParts.Nodup := by decide +kernel

theorem mem_destroyClientParts (p : ClientPart) : p ∈ destroyClientParts := by
  cases p <;> simp [destroyClientParts, destroyRow]

theorem nodup_destroyClientParts : destroyClientParts.Nodup := by decide +kernel

/-- `ecall_destory_client` frees what `ecall_init_client` has allocated. -/
theorem destroyClientParts_perm : destroyClientParts.Perm initClientParts :=
  (List.perm_ext_iff_of_nodup nodup_destroyClientParts nodup_initClientParts).mpr fun p =>
    iff_of_true (mem_destroyClientParts p) (mem_initClientParts p)

theorem clientOnce_perm (id : Nat) : (clientOnce id destroyClientParts).Perm (clientOnce id initClientParts) := by
  unfold clientOnce
  split
  · exact destroyClientParts_perm.map _
  · exact List.Perm.nil

theorem freeTreeChunks_perm {K : Cipher bs N B} {A : BufferAddrs} {t : MemTree N} (howns : OwnsBuffers K A t) :
    (freeTreeChunks K t).Perm (treeChunks A t.treeId t.height) := by
  rw [freeTreeChunks, freeMemTree_eq howns]
  exact List.perm_middle

theorem objectChunks_base (A : BufferAddrs) (capacity : Nat) (t : MemTree N) :
    objectChunks A (.base capacity t) = ownedChunks A t.shape := by
  rw [objectChunks, PathOram.trees, List.map_singleton, List.flatMap_singleton]

theorem objectChunks_rec (A : BufferAddrs) (capacity : Nat) (t : MemTree N) (posMap : PathOram N) :
    objectChunks A (.recursive capacity t posMap) = ownedChunks A t.shape ++ objectChunks A posMap := by
  rw [objectChunks, PathOram.trees, List.map_cons, List.flatMap_cons]
  rfl

/-- The constructors allocate what the object owns. -/
theorem newChunks_perm (A : BufferAddrs) (o : PathOram N) : (newChunks A o).Perm (objectChunks A o) := by
  induction o with
  | base capacity t =>
    rw [objectChunks_base]
    exact List.Perm.refl _
  | recursive capacity t posMap ih =>
    rw [objectChunks_rec]
    exact (List.perm_append_comm.trans (List.Perm.append_left _ ih)).cons (Chunk.object t.treeId)

/-- The destructors free what the object owns. -/
theorem deleteChunks_perm {K : Cipher bs N B} {A : BufferAddrs} {o : PathOram N} (howns : TreesOwn K A o.trees) :
    (deleteChunks K o).Perm (objectChunks A o) := by
  induction o with
  | base capacity t =>
    rw [objectChunks_base]
    have hfree := freeTreeChunks_perm (howns t (List.mem_singleton_self t)).2.2
    exact (List.perm_append_singleton _ _).trans (((clientOnce_perm _).append hfree).cons _)
  | recursive capacity t posMap ih =>
    rw [objectChunks_rec]
    have hfree := freeTreeChunks_perm (howns t List.mem_cons_self).2.2
    have hinner := ih fun t' ht' => howns t' (List.mem_cons_of_mem t ht')
    have hall : (destroyChunks K (.recursive capacity t posMap)).Perm
        (clientOnce t.treeId initClientParts ++ (treeChunks A t.treeId t.height ++ objectChunks A posMap)) := by
      refine (((clientOnce_perm t.treeId).append hinner).append hfree).trans ?_
      rw [List.append_assoc]
      exact List.Perm.append_left _ List.perm_append_comm
    rw [← List.append_assoc] at hall
    exact (List.perm_append_singleton _ _).trans (hall.cons _)

/-- A tree owns the chunk. -/
def Owns (A : BufferAddrs) (shape : Nat × Nat) : Chunk → Prop
  | .object id => id = shape.1
  | .nodes id => id = shape.1
  | .buffer a => a ∈ treeBuffers A shape.1 shape.2
  | .posMapBlock id => id = shape.1
  | .fetchedBlock id => id = shape.1
  | .client _ => shape.1 = 1
  | .blockPath _ => False
  | .contentPtr _ => False
  | .caller _ => False
  | .readBlock _ => False

theorem mem_clientOnce {id : Nat} {c : Chunk} :
    c ∈ clientOnce id initClientParts ↔ id = 1 ∧ ∃ p, c = .client p := by
  unfold clientOnce
  split
  next h =>
    rw [List.mem_map]
    constructor
    · rintro ⟨p, -, rfl⟩
      exact ⟨h, p, rfl⟩
    · rintro ⟨-, p, rfl⟩
      exact ⟨p, mem_initClientParts p, rfl⟩
  next h => simp [h]

theorem mem_ownedChunks {A : BufferAddrs} {shape : Nat × Nat} {c : Chunk} :
    c ∈ ownedChunks A shape ↔ Owns A shape c := by
  cases c <;> simp [ownedChunks, treeChunks, Owns, mem_clientOnce]

/-- A chunk belongs to one tree. -/
theorem Owns.id_eq {A : BufferAddrs} {shape shape' : Nat × Nat} {c : Chunk} (h : Owns A shape c)
    (h' : Owns A shape' c) : shape.1 = shape'.1 := by
  cases c with
  | object id => exact h.symm.trans h'
  | nodes id => exact h.symm.trans h'
  | posMapBlock id => exact h.symm.trans h'
  | fetchedBlock id => exact h.symm.trans h'
  | client p => exact h.trans h'.symm
  | buffer a =>
    obtain ⟨n, -, i, rfl⟩ := mem_treeBuffers.mp h
    obtain ⟨m, -, j, heq⟩ := mem_treeBuffers.mp h'
    exact (A.inj heq).1.symm
  | blockPath n => exact h.elim
  | contentPtr n => exact h.elim
  | caller b => exact h.elim
  | readBlock n => exact h.elim

theorem nodup_ownedChunks (A : BufferAddrs) (shape : Nat × Nat) : (ownedChunks A shape).Nodup := by
  have hclient : (clientOnce shape.1 initClientParts).Nodup := by
    unfold clientOnce
    split
    · exact nodup_initClientParts.map fun _ _ => Chunk.client.inj
    · exact List.nodup_nil
  have hbufs := (nodup_treeBuffers A shape.1 shape.2).map fun _ _ => Chunk.buffer.inj
  have htree : (treeChunks A shape.1 shape.2).Nodup := by
    simp [treeChunks, List.nodup_append, hbufs]
  refine List.nodup_cons.mpr ⟨fun hmem => ?_, List.nodup_append.mpr ⟨hclient, htree, ?_⟩⟩
  · simp [treeChunks, mem_clientOnce] at hmem
  · intro c hc c' hc'
    obtain ⟨-, p, rfl⟩ := mem_clientOnce.mp hc
    rintro rfl
    simp [treeChunks] at hc'

theorem mem_objectChunks {A : BufferAddrs} {o : PathOram N} {c : Chunk} :
    c ∈ objectChunks A o ↔ ∃ t ∈ o.trees, Owns A t.shape c := by
  simp [objectChunks, mem_ownedChunks]

theorem nodup_objectChunks {A : BufferAddrs} {o : PathOram N} (hids : (o.trees.map MemTree.treeId).Nodup) :
    (objectChunks A o).Nodup := by
  refine List.nodup_flatMap.mpr ⟨fun shape _ => nodup_ownedChunks A shape, ?_⟩
  refine List.pairwise_map.mpr ((List.pairwise_map.mp hids).imp fun {t t'} hne => ?_)
  refine List.disjoint_left.mpr fun c hc hc' => hne ?_
  exact (mem_ownedChunks.mp hc).id_eq (mem_ownedChunks.mp hc')

/-! ## Accesses on live chunks -/

section Access
variable {A : BufferAddrs} {live live' : Finset Chunk} {t : MemTree N} {block : Chunk} {n : Nat}

/-- The chunks of the calls of `AccessPathORAM` from the `n`-th on are new. -/
def NewFrom (n : Nat) (live : Finset Chunk) : Prop :=
  ∀ m, n ≤ m → Chunk.blockPath m ∉ live ∧ Chunk.contentPtr m ∉ live

/-- The block paths of `count` calls from the `n`-th on. -/
def boxes (n count : Nat) : Finset Chunk := ((List.range' n count).map Chunk.blockPath).toFinset

theorem mem_boxes {count : Nat} {c : Chunk} : c ∈ boxes n count ↔ ∃ k, n ≤ k ∧ k < n + count ∧ c = .blockPath k := by
  simp only [boxes, List.mem_toFinset, List.mem_map, List.mem_range'_1, and_assoc, eq_comm]

theorem boxes_succ (n count : Nat) : boxes n (count + 1) = insert (Chunk.blockPath n) (boxes (n + 1) count) := by
  rw [boxes, List.range'_succ, List.map_cons, List.toFinset_cons]
  rfl

theorem pathChunks_live (howned : ∀ c, Owns A t.shape c → c ∈ live) (hclient : Chunk.client .client ∈ live)
    (p : BlockPath) : ∀ c ∈ pathChunks A t p, c ∈ live := by
  intro c hc
  simp only [pathChunks, List.mem_cons, List.mem_flatMap, List.mem_range, List.mem_map] at hc
  rcases hc with rfl | rfl | ⟨h, hh, i, -, rfl⟩
  · exact hclient
  · exact howned _ rfl
  · exact howned _ (mem_treeBuffers.mpr ⟨_, nodeAddr_lt_two_pow hh, i, rfl⟩)

theorem levelOps_run {posMap : List (HeapOp Chunk)} (howned : ∀ c, Owns A t.shape c → c ∈ live)
    (hclient : Chunk.client .client ∈ live) (hblock : block ∈ live) (hnew : Chunk.blockPath n ∉ live)
    (hptr : Chunk.contentPtr n ∉ live') (hsub : insert (Chunk.blockPath n) live ⊆ live')
    (hposMap : runHeap (insert (Chunk.blockPath n) live) posMap = some live') (p : BlockPath) :
    runHeap live (levelOps A t p block n posMap) = some live' := by
  have hlive : ∀ {c}, c ∈ live → c ∈ live' := fun hc => hsub (Finset.mem_insert_of_mem hc)
  have hpath : ∀ c ∈ pathChunks A t p, c ∈ live' := fun c hc => hlive (pathChunks_live howned hclient p c hc)
  have hbox : Chunk.blockPath n ∈ live' := hsub (Finset.mem_insert_self _ _)
  have hexchange : ∀ c ∈ exchangeChunks A t p block n, c ∈ insert (Chunk.contentPtr n) live' := by
    intro c hc
    rw [exchangeChunks, List.mem_append] at hc
    rcases hc with hc | hc
    · exact Finset.mem_insert_of_mem (hpath c hc)
    · simp only [List.mem_cons, List.not_mem_nil, or_false] at hc
      rcases hc with rfl | rfl | rfl | rfl | rfl
      · exact Finset.mem_insert_of_mem (hlive (howned _ rfl))
      · exact Finset.mem_insert_self _ _
      · exact Finset.mem_insert_of_mem (hlive (howned _ rfl))
      · exact Finset.mem_insert_of_mem (hlive hblock)
      · exact Finset.mem_insert_of_mem (hlive hclient)
  rw [levelOps, runHeap_cons, HeapOp.step, if_pos (howned (.object t.treeId) rfl), Option.bind_some, runHeap_cons,
    HeapOp.step, if_neg hnew, Option.bind_some, runHeap_append_of hposMap, runHeap_cons, HeapOp.step, if_pos hbox,
    Option.bind_some, runHeap_cons, HeapOp.step, if_neg hptr, Option.bind_some,
    runHeap_append_of (runHeap_use hexchange), runHeap_cons, HeapOp.step, if_pos (Finset.mem_insert_self _ _),
    Option.bind_some, Finset.erase_insert hptr]
  exact runHeap_use fun c hc => (List.mem_cons.mp hc).elim (fun e => e ▸ hbox) (hpath c)

/-- An access to a live object, with a live client and a live buffer, leaves a block path for each level. -/
theorem accessOps_run (K : Cipher bs N B) (sz : BlockSize bs) {o : PathOram N}
    (howned : ∀ t ∈ o.trees, ∀ c, Owns A t.shape c → c ∈ live)
    (hclient : Chunk.client .client ∈ live) (hblock : block ∈ live) (hnew : NewFrom n live) (draws : Nat → Draws)
    (req : Request) (w : World bs B) :
    runHeap live (accessOps K A sz o block n draws req w) = some (live ∪ boxes n o.trees.length) := by
  induction o generalizing live block n draws req with
  | base capacity t =>
    obtain ⟨hbox, hptr⟩ := hnew n le_rfl
    have hone : live ∪ boxes n (PathOram.base capacity t).trees.length = insert (Chunk.blockPath n) live := by
      rw [show (PathOram.base capacity t).trees.length = 0 + 1 from rfl, boxes_succ]
      simp [boxes, Finset.union_comm live]
    rw [hone]
    refine levelOps_run (howned t (List.mem_singleton_self t)) hclient hblock hbox (by simp [hptr])
      (Finset.Subset.refl _) ?_ _
    refine @runHeap_use _ _ _ [Chunk.blockPath n, .client .client] fun c hc => ?_
    · simp only [List.mem_cons, List.not_mem_nil, or_false] at hc
      rcases hc with rfl | rfl
      · exact Finset.mem_insert_self _ _
      · exact Finset.mem_insert_of_mem hclient
  | recursive capacity t posMap ih =>
    obtain ⟨hbox, hptr⟩ := hnew n le_rfl
    have hlen : live ∪ boxes n (PathOram.recursive capacity t posMap).trees.length =
        insert (Chunk.blockPath n) live ∪ boxes (n + 1) posMap.trees.length := by
      rw [show (PathOram.recursive capacity t posMap).trees.length = posMap.trees.length + 1 from rfl, boxes_succ,
        Finset.union_insert, Finset.insert_union]
    rw [hlen]
    refine levelOps_run (howned t List.mem_cons_self) hclient hblock hbox ?_ Finset.subset_union_left ?_ _
    · simp [hptr, mem_boxes]
    · refine ih (fun t' ht' c hc => Finset.mem_insert_of_mem (howned t' (List.mem_cons_of_mem t ht') c hc))
        (Finset.mem_insert_of_mem hclient) (Finset.mem_insert_self _ _) (fun m hm => ?_) _ _
      obtain ⟨hbox', hptr'⟩ := hnew m (by omega)
      simp only [Finset.mem_insert, hbox', hptr', or_false, Chunk.blockPath.injEq, reduceCtorEq, not_false_eq_true,
        and_true]
      omega

/-- An access allocates block paths and pointers only. -/
theorem accessOps_alloc (K : Cipher bs N B) {o : PathOram N} {draws : Nat → Draws} {req : Request} {w : World bs B}
    {c : Chunk} (h : .alloc c ∈ accessOps K A sz o block n draws req w) :
    (∃ m, c = .blockPath m) ∨ ∃ m, c = .contentPtr m := by
  induction o generalizing block n draws req with
  | base capacity t =>
    simp [accessOps, levelOps] at h
    rcases h with rfl | rfl
    · exact Or.inl ⟨n, rfl⟩
    · exact Or.inr ⟨n, rfl⟩
  | recursive capacity t posMap ih =>
    simp [accessOps, levelOps] at h
    rcases h with rfl | h | rfl
    · exact Or.inl ⟨n, rfl⟩
    · exact ih h
    · exact Or.inr ⟨n, rfl⟩

/-- An access uses its object, its buffer and the client. -/
theorem accessOps_use (K : Cipher bs N B) (A : BufferAddrs) (sz : BlockSize bs) (o : PathOram N) (block : Chunk)
    (n : Nat) (draws : Nat → Draws) (req : Request) (w : World bs B) :
    .use (.object o.myOramId) ∈ accessOps K A sz o block n draws req w ∧
      .use block ∈ accessOps K A sz o block n draws req w ∧
      .use (.client .client) ∈ accessOps K A sz o block n draws req w := by
  cases o <;> simp [accessOps, levelOps, exchangeChunks, PathOram.myOramId]

end Access

end SgxOram
