import SgxOram.App.TreeInv
import SgxOram.Enclave.PositionMap

/-!
# `PathORAM` (`App/PathORAM.cpp`)

* `PathOram` : an object, with its position map in the client (`base`) or in another object
  (`recursive`); `newPathOram` : the constructor;
* `accessPathOram` : `AccessPathORAM`. It also returns the calls into the trees that it makes, an
  observation that the source does not keep;
* `accessLevel_spec` : what one level of an access does to its tree; `accessLevel_answer` : what it
  copies out on any tree.
-/

namespace SgxOram
open Lib

variable {bs : Nat} {N B : Type}

/-! ## Objects -/

/-- The outcome of drawing until the path is not zero. -/
abbrev RandPath := { p : BlockPath // p ≠ 0 }

/-- The path `p`; one in place of zero. -/
def RandPath.of (p : BlockPath) : RandPath := if h : p = 0 then ⟨1, by decide⟩ else ⟨p, h⟩

/-- The draws of one level of an access. `freshPath` is used if the position read is zero. -/
structure Draws where
  newBlockPath : RandPath
  freshPath : RandPath

inductive PathOram (N : Type)
  | base (capacity : Nat) (tree : MemTree N)
  | recursive (capacity : Nat) (tree : MemTree N) (posMap : PathOram N)

/-- The trees of an object, its own first. -/
def PathOram.trees : PathOram N → List (MemTree N)
  | .base _ t => [t]
  | .recursive _ t posMap => t :: posMap.trees

/-- The process: `next_ORAM_id_`, the enclave and the host's memory. -/
structure Process (bs : Nat) (B : Type) where
  nextOramId : Nat
  world : World bs B

/-- "Initialize for enclave client only once." -/
def initClientOnce (myOramId capacity : Nat) (c : Client bs) : Option (Client bs) :=
  if myOramId = 1 then ecallInitClient bs (computeTreeHeight capacity) else some c

/-- The end of the constructor: initialise the client, then the tree. -/
def newTree (K : Cipher bs N B) (A : BufferAddrs) (myOramId capacity : Nat) (st : Process bs B) :
    Option (MemTree N × Process bs B) := do
  let c ← initClientOnce myOramId capacity st.world.client
  let (t, host) ← initializeMemTree K A myOramId (computeTreeHeight capacity) st.world.host
  return (t, { st with world := ⟨c, host⟩ })

theorem higherCapacity_lt {capacity n : Nat} (hcap : maxPosMap < capacity) (hn : 1 < n) :
    (capacity + n - 1) / n < capacity :=
  ceilDiv_lt hn (lt_trans (show 1 < maxPosMap by decide) hcap)

/-- `PathORAM::PathORAM`. `none` is a failing assert. -/
def newPathOram (K : Cipher bs N B) (A : BufferAddrs) (sz : BlockSize bs) (capacity : Nat) (st : Process bs B) :
    Option (PathOram N × Process bs B) :=
  let myOramId := st.nextOramId
  let st := { st with nextOramId := st.nextOramId + 1 }
  if _hcap : capacity > maxPosMap then
    let numPathsPerBlock := sz.val / sizeofBlockPath
    if _hn : sz.val % sizeofBlockPath = 0 ∧ numPathsPerBlock > 1 then do
      let (posMap, st) ← newPathOram K A sz ((capacity + numPathsPerBlock - 1) / numPathsPerBlock) st
      let (t, st) ← newTree K A myOramId capacity st
      return (.recursive capacity t posMap, st)
    else none
  else do
    let (t, st) ← newTree K A myOramId capacity st
    return (.base capacity t, st)
termination_by capacity
decreasing_by exact higherCapacity_lt _hcap _hn.2

/-! ## Accesses -/

/-- A call into a tree: what it fetched, put or evicted, and the stash load before a fetch. -/
inductive MemTreeCall (bs : Nat)
  | fetch (treeId height : Nat) (path : BlockPath) (key : BlockKey) (stashLoad : UInt32)
    (found : Option (Block bs))
  | put (treeId : Nat) (blk : Blk bs)
  | flush (treeId height : Nat) (path : BlockPath) (written : Multiset (Blk bs))

structure LevelResult (bs : Nat) (N B : Type) where
  tree : MemTree N
  world : World bs B
  block : Buffer
  calls : List (MemTreeCall bs)

/-- The world with another position map. -/
def World.withPathMm (w : World bs B) (mm : Nat → BlockPath) : World bs B :=
  { w with client := { w.client with pathMm := mm } }

/-- The world after an access has left `buf` in the `fetched_block_` of object `id`. -/
def World.withFetched (w : World bs B) (id : Nat) (buf : Buffer) : World bs B :=
  { w with host := { w.host with fetched := Function.update w.host.fetched id buf } }

/-- `AccessPathORAM` from the fetch on, with the path read from the position map. -/
def accessLevel (K : Cipher bs N B) (sz : BlockSize bs) (t : MemTree N) (blockPath newBlockPath : BlockPath)
    (blockKey : BlockKey) (req : Request) (w : World bs B) : Option (LevelResult bs N B) := do
  let r ← memTreeFetchPathOram K t blockPath blockKey 0 w
  let copied := sz.copies (w.host.fetched t.treeId) r.fetchedBlock req
  let w' ← memTreePutPathOram newBlockPath blockKey (copied.content bs) r.encryptedContentPtr r.world
  let (t', w'') := memTreeFlushPathOram K t blockPath w'
  let calls :=
    [.fetch t.treeId t.height blockPath blockKey w.client.stashLoad
        (if r.succ then some r.fetchedBlock else none),
      .put t.treeId ⟨blockKey, newBlockPath, copied.content bs⟩,
      .flush t.treeId t.height blockPath (pathBag K t' w''.host.bufs blockPath)]
  return ⟨t', w''.withFetched t.treeId copied.fetchedBlock, copied.block, calls⟩

/-- `while (*block_path == 0) *block_path = GenerateMyRand()`. -/
def orFresh (blockPath : BlockPath) (freshPath : RandPath) : BlockPath :=
  if blockPath = 0 then freshPath else blockPath

/-- The world at a fault in the first `ObliviousNodeWrite` of a fetch, and the fetch: of the tree, only the root
and the buffer of its first slot have been read. -/
def stalledFetch (K : Cipher bs N B) (t : MemTree N) (blockPath : BlockPath) (blockKey : BlockKey) (w : World bs B) :
    World bs B × List (MemTreeCall bs) :=
  let root := decryptData K.node (t.nodes 0)
  ({ w with host := { w.host with trace := w.host.trace ++
      [⟨.node 0, false, sizeofEncMemTreeNode⟩, ⟨.buffer (root.slots 0).blockContent, false, encBlockLen bs⟩] } },
    [.fetch t.treeId t.height blockPath blockKey w.client.stashLoad none])

structure AccessResult (bs : Nat) (N B : Type) where
  oram : PathOram N
  world : World bs B
  block : Buffer
  calls : List (MemTreeCall bs)

/-- `AccessPathORAM` over a way to exchange an entry of the position map; `draws k` are the draws `k` levels
further in. It faults at a division by zero, and in the fetch if `client->path` is not what it was or if the
enclave's `block_size` is 0, for which `ocopy` still moves eight bytes. -/
def accessPathOramWith (exchangeMm : ExchangeMm) (K : Cipher bs N B) (sz : BlockSize bs) :
    PathOram N → (Nat → Draws) → Request → World bs B →
      Except (Stop (World bs B × List (MemTreeCall bs))) (AccessResult bs N B)
  | .base capacity t, draws, req, w =>
    if req.ind < capacity then
      if sz.val / sizeofBlockPath = 0 then .error (.fault (w, []))
      else
        let e := exchangeMm req.ind (draws 0).newBlockPath w.client.pathMm
        let w := w.withPathMm e.pathMm
        let blockPath := orFresh e.blockPath (draws 0).freshPath
        if e.keepsPath ∧ bs ≠ 0 then
          orAssert <| (accessLevel K sz t blockPath (draws 0).newBlockPath (keyOf req.ind) req w).map fun r =>
            ⟨.base capacity r.tree, r.world, r.block, r.calls⟩
        else .error (.fault (stalledFetch K t blockPath (keyOf req.ind) w))
    else .error .assert
  | .recursive capacity t posMap, draws, req, w =>
    if req.ind < capacity then
      if sz.val / sizeofBlockPath = 0 then .error (.fault (w, []))
      else do
        let inner ← accessPathOramWith exchangeMm K sz posMap (fun k => draws (k + 1))
          (posMapRequest sz.val req.ind (draws 0).newBlockPath) w
        orAssert <| (accessLevel K sz t (orFresh (pathOfBuffer inner.block) (draws 0).freshPath)
          (draws 0).newBlockPath (keyOf req.ind) req inner.world).map fun r =>
            ⟨.recursive capacity r.tree inner.oram, r.world, r.block, inner.calls ++ r.calls⟩
    else .error .assert

/-- `AccessPathORAM` with the reference code of `ecall_write_mm_in_client`, where it returns. -/
def accessPathOram (K : Cipher bs N B) (sz : BlockSize bs) (o : PathOram N) (draws : Nat → Draws) (req : Request)
    (w : World bs B) : Option (AccessResult bs N B) :=
  (accessPathOramWith ecallWriteMmInClient K sz o draws req w).toOption

/-- One call of `AccessPathORAM` in a run. -/
structure OramAccess where
  draws : Nat → Draws
  req : Request

/-- An object in its process, with what its accesses have copied out and called so far. -/
structure OramRun (bs : Nat) (N B : Type) where
  oram : PathOram N
  world : World bs B
  outs : List Buffer
  calls : List (MemTreeCall bs)

/-- One access of a run. At a fault the object and its outputs are as the last access left them. -/
def runAccessWith (exchangeMm : ExchangeMm) (K : Cipher bs N B) (sz : BlockSize bs) (s : OramRun bs N B)
    (a : OramAccess) : Except (Stop (OramRun bs N B)) (OramRun bs N B) :=
  match accessPathOramWith exchangeMm K sz s.oram a.draws a.req s.world with
  | .ok r => .ok ⟨r.oram, r.world, s.outs ++ [r.block], s.calls ++ r.calls⟩
  | .error e => .error (e.map fun (w, calls) => ⟨s.oram, w, s.outs, s.calls ++ calls⟩)

/-- One access of a run with the reference code of `ecall_write_mm_in_client`, where it returns. -/
def runAccess (K : Cipher bs N B) (sz : BlockSize bs) (s : OramRun bs N B) (a : OramAccess) :
    Option (OramRun bs N B) :=
  (runAccessWith ecallWriteMmInClient K sz s a).toOption

/-- One call of `AccessPathORAM` with the machine code of `ecall_write_mm_in_client`. -/
structure MachineAccess where
  access : OramAccess
  surroundings : X86.Surroundings

def runMachineAccess (K : Cipher bs N B) (sz : BlockSize bs) (s : OramRun bs N B) (m : MachineAccess) :
    Except (Stop (OramRun bs N B)) (OramRun bs N B) :=
  runAccessWith (X86.exchangeMm m.surroundings) K sz s m.access

/-- The entry of `path_mm` that an access to entry `ind` exchanges. -/
def PathOram.mmIndex (blockSize : Nat) : PathOram N → Nat → Nat
  | .base _ _, ind => ind
  | .recursive _ _ posMap, ind => posMap.mmIndex blockSize (ind / (blockSize / sizeofBlockPath))

/-! ## One level -/

@[simp] theorem World.withPathMm_pathMm (w : World bs B) (mm : Nat → BlockPath) :
    (w.withPathMm mm).client.pathMm = mm := rfl

@[simp] theorem World.withFetched_client (w : World bs B) (id : Nat) (buf : Buffer) :
    (w.withFetched id buf).client = w.client := rfl

@[simp] theorem World.withFetched_bufs (w : World bs B) (id : Nat) (buf : Buffer) :
    (w.withFetched id buf).host.bufs = w.host.bufs := rfl

@[simp] theorem World.withFetched_trace (w : World bs B) (id : Nat) (buf : Buffer) :
    (w.withFetched id buf).host.trace = w.host.trace := rfl

/-- The tree invariant does not read the position map. -/
theorem TreeInv.withPathMm {K : Cipher bs N B} {A : BufferAddrs} {t : MemTree N} {w : World bs B}
    {M : BlockKey → Option (BlockPath × Block bs)} {off : Finset Nat} (h : TreeInv K A t w off M)
    (mm : Nat → BlockPath) : TreeInv K A t (w.withPathMm mm) off M where
  height := h.height
  tree := h.tree
  stash := ⟨h.stash.rows, h.stash.load⟩
  holds := h.holds
  subs := h.subs

theorem accessLevel_eq_some {K : Cipher bs N B} {sz : BlockSize bs} {t : MemTree N} {p q : BlockPath} {key : BlockKey}
    {req : Request} {w : World bs B} {r : LevelResult bs N B} :
    accessLevel K sz t p q key req w = some r ↔
      ∃ f w', memTreeFetchPathOram K t p key 0 w = some f ∧
        memTreePutPathOram q key (f.fetchedBlock.written req) f.encryptedContentPtr f.world = some w' ∧
        r =
          { tree := (memTreeFlushPathOram K t p w').1
            world := (memTreeFlushPathOram K t p w').2.withFetched t.treeId
              (sz.copies (w.host.fetched t.treeId) f.fetchedBlock req).fetchedBlock
            block := (sz.copies (w.host.fetched t.treeId) f.fetchedBlock req).block
            calls :=
              [.fetch t.treeId t.height p key w.client.stashLoad (if f.succ then some f.fetchedBlock else none),
                .put t.treeId ⟨key, q, f.fetchedBlock.written req⟩,
                .flush t.treeId t.height p
                  (pathBag K (memTreeFlushPathOram K t p w').1 (memTreeFlushPathOram K t p w').2.host.bufs p)] } := by
  simp only [accessLevel, BlockSize.copies_content, Option.bind_eq_bind, Option.bind_eq_some_iff, Option.pure_def,
    Option.some.injEq]
  constructor
  · rintro ⟨f, hf, w', hw', rfl⟩
    exact ⟨f, w', hf, hw', rfl⟩
  · rintro ⟨f, w', hf, hw', rfl⟩
    exact ⟨f, hf, w', hw', rfl⟩

/-- What one level of an access does when its tree holds `M`. -/
structure LevelDone (K : Cipher bs N B) (A : BufferAddrs) (sz : BlockSize bs) (t : MemTree N) (p q : BlockPath)
    (key : BlockKey) (req : Request) (w : World bs B) (M : BlockKey → Option (BlockPath × Block bs))
    (r : LevelResult bs N B) : Prop where
  inv : TreeInv K A r.tree r.world ∅ (Function.update M key (some (q, (fetchedContent (M key)).written req)))
  block : r.block = (sz.copies (w.host.fetched t.treeId) (fetchedContent (M key)) req).block
  pathMm : r.world.client.pathMm = w.client.pathMm
  treeId : r.tree.treeId = t.treeId
  height : r.tree.height = t.height
  others : ∀ id n i, id ≠ t.treeId → r.world.host.bufs (A.addr id n i) = w.host.bufs (A.addr id n i)
  off : ∀ n < 2 ^ t.height, n ∉ pathNodes p t.height →
    nodeRow K r.tree r.world.host.bufs n = nodeRow K t w.host.bufs n
  greedy : ∀ h < t.height, ∀ b, (b ∈ stashBag r.world.client.path ∨
      ∃ g < h, b ∈ (nodeRow K r.tree r.world.host.bufs (nodeAddr p.toNat g)).bag) → OnPath p h b.path →
    (nodeRow K r.tree r.world.host.bufs (nodeAddr p.toNat h)).bag.card = blocksPerNode
  calls : r.calls =
    [.fetch t.treeId t.height p key w.client.stashLoad ((M key).map Prod.snd),
      .put t.treeId ⟨key, q, (fetchedContent (M key)).written req⟩,
      .flush t.treeId t.height p (pathBag K r.tree r.world.host.bufs p)]

theorem accessLevel_spec (h8 : 8 ∣ bs) {K : Cipher bs N B} (hK : K.Correct) {A : BufferAddrs} {sz : BlockSize bs}
    {t : MemTree N} {w : World bs B} {M : BlockKey → Option (BlockPath × Block bs)} (hinv : TreeInv K A t w ∅ M)
    {p q : BlockPath} {key : BlockKey} (hkey : key ≠ 0) (hpath : ∀ v, M key = some v → v.1 = p)
    {req : Request} {r : LevelResult bs N B} (hrun : accessLevel K sz t p q key req w = some r) :
    LevelDone K A sz t p q key req w M r := by
  obtain ⟨f, w', hfetch, hput, rfl⟩ := accessLevel_eq_some.mp hrun
  obtain ⟨hon, hblock, hsucc, hmm⟩ := hinv.memTreeFetch h8 hpath hfetch
  obtain ⟨hon', hmm'⟩ := hon.memTreePut h8 hkey (Function.update_self _ _ _) hput
  obtain ⟨hinv', he, ht⟩ := hon'.evict h8 hK
  rw [Function.update_idem, hblock] at hinv'
  have hbufs : w'.host.bufs = w.host.bufs := by
    obtain ⟨w₁, hdown, rfl⟩ := memTreeFetch_eq_some.mp hfetch
    obtain ⟨r, hr, rfl⟩ := memTreePut_eq_some.mp hput
    have hh := hinv.height.le
    exact (download_tree h8 hh hinv.tree hinv.stash hdown).2.1
  have hfound : (if f.succ then some f.fetchedBlock else none) = (M key).map Prod.snd := by
    rw [hsucc, hblock]
    cases M key <;> rfl
  exact
    { inv := hinv'.frame rfl fun _ _ => rfl, block := by rw [hblock],
      pathMm := he.tables.pathMm.trans (hmm'.trans hmm), treeId := he.treeId, height := he.height,
      others := fun id n i hid => (evict_bufs hon'.back he fun e => absurd e hid).trans (by rw [hbufs]),
      off := hbufs ▸ ht.off, greedy := ht.greedy,
      calls := by rw [hfound, hblock, World.withFetched_bufs] }

/-- What a level leaves in the `fetched_block_` buffers, on any tree. -/
theorem accessLevel_fetched {K : Cipher bs N B} {sz : BlockSize bs} {t : MemTree N} {p q : BlockPath} {key : BlockKey}
    {req : Request} {w : World bs B} {r : LevelResult bs N B} (hrun : accessLevel K sz t p q key req w = some r) :
    ∃ f : Block bs, r.world.host.fetched t.treeId = (sz.copies (w.host.fetched t.treeId) f req).fetchedBlock ∧
      r.block = (sz.copies (w.host.fetched t.treeId) f req).block := by
  obtain ⟨f, w', -, -, rfl⟩ := accessLevel_eq_some.mp hrun
  exact ⟨f.fetchedBlock, Function.update_self _ _ _, rfl⟩

theorem accessLevel_completes (h8 : 8 ∣ bs) {K : Cipher bs N B} {A : BufferAddrs} (sz : BlockSize bs) {t : MemTree N}
    {w : World bs B} {M : BlockKey → Option (BlockPath × Block bs)} (hinv : TreeInv K A t w ∅ M)
    {p : BlockPath} (q : BlockPath) {key : BlockKey} (hkey : key ≠ 0) (hpath : ∀ v, M key = some v → v.1 = p)
    (req : Request) {keys : Finset BlockKey} (hkeys : KeysIn M keys) (hmem : key ∈ keys)
    (hfit : keys.card ≤ clientMaxPath * blocksPerNode) : ∃ r, accessLevel K sz t p q key req w = some r := by
  obtain ⟨f, hfetch⟩ := hinv.memTreeFetch_completes h8 hkeys hfit p key 0
  obtain ⟨hon, -⟩ := hinv.memTreeFetch h8 hpath hfetch
  obtain ⟨w', hput⟩ := hon.memTreePut_completes h8 hkey (Function.update_self _ _ _) hkeys.update hmem hfit q
    (f.fetchedBlock.written req) f.encryptedContentPtr
  exact ⟨_, accessLevel_eq_some.mpr ⟨f, w', hfetch, hput, rfl⟩⟩

/-- A block that stays above level `a`, or in the stash with `a = 0`, although its path and the path of
the access agree down to level `h` leaves the levels between full. -/
theorem LevelDone.crowded {K : Cipher bs N B} {A : BufferAddrs} {sz : BlockSize bs} {t : MemTree N}
    {p q : BlockPath} {key : BlockKey} {req : Request} {w : World bs B} {M : BlockKey → Option (BlockPath × Block bs)}
    {r : LevelResult bs N B} (hd : LevelDone K A sz t p q key req w M r) {a h : Nat} (hh : h < t.height)
    {b : Blk bs} (hpath : OnPath p h b.path) (hb : b ∈ stashBag r.world.client.path ∨
      ∃ g < a, b ∈ (nodeRow K r.tree r.world.host.bufs (nodeAddr p.toNat g)).bag) :
    (h + 1 - a) * blocksPerNode ≤ (treeBag K r.tree r.world.host.bufs ∅).card := by
  have hfull : ∀ f ∈ Finset.Ico a (h + 1),
      (nodeRow K r.tree r.world.host.bufs (nodeAddr p.toNat f)).bag.card = blocksPerNode := by
    intro f hf
    obtain ⟨haf, hfh⟩ := Finset.mem_Ico.mp hf
    apply hd.greedy f (by omega) b
    · rcases hb with hb | ⟨g, hg, hb⟩
      · exact Or.inl hb
      · exact Or.inr ⟨g, by omega, hb⟩
    · exact nodeAddr_congr_of_le (by omega) hpath
  have hsub : Finset.Ico a (h + 1) ⊆ Finset.range r.tree.height := by
    intro f hf
    have := (Finset.mem_Ico.mp hf).2
    rw [Finset.mem_range, hd.height]
    omega
  have hle : (pathBag K r.tree r.world.host.bufs p).card ≤ (treeBag K r.tree r.world.host.bufs ∅).card := by
    rw [treeBag_split K r.tree r.world.host.bufs p, Multiset.card_add]
    omega
  apply le_trans _ hle
  rw [pathBag, Multiset.card_sum]
  calc (h + 1 - a) * blocksPerNode
      = ∑ f ∈ Finset.Ico a (h + 1), (nodeRow K r.tree r.world.host.bufs (nodeAddr p.toNat f)).bag.card := by
        rw [Finset.sum_congr rfl hfull, Finset.sum_const, Nat.card_Ico, smul_eq_mul]
    _ ≤ _ := Finset.sum_le_sum_of_subset hsub

/-- The only block of a tree sinks as deep as the paths agree. -/
theorem LevelDone.settles {K : Cipher bs N B} {A : BufferAddrs} {sz : BlockSize bs} {t : MemTree N} {w : World bs B}
    {M : BlockKey → Option (BlockPath × Block bs)} {p q : BlockPath} {key : BlockKey} {req : Request}
    {r : LevelResult bs N B} (hd : LevelDone K A sz t p q key req w M r) (hnone : ∀ k, M k = none) {h : Nat}
    (hh : h < t.height) (hpath : OnPath p h q) :
    r.world.client.stashLoad = 0 ∧
      ∀ g < h, (nodeRow K r.tree r.world.host.bufs (nodeAddr p.toNat g)).bag = 0 := by
  have hkeys : KeysIn M ∅ := fun k v hk => by simp [hnone k] at hk
  have hcard := hd.inv.holds.card_le (hkeys.bind key _)
  rw [Multiset.card_add] at hcard
  have hcard : (treeBag K r.tree r.world.host.bufs ∅).card ≤ 1 := by
    simp only [insert_empty_eq, Finset.card_singleton] at hcard
    omega
  -- whatever the tree and the stash hold lies on the path `q`
  have hq : ∀ b ∈ stashBag r.world.client.path + treeBag K r.tree r.world.host.bufs ∅, b.path = q := by
    intro b hb
    have hmem := hd.inv.holds.mem hb
    by_cases hk : b.key = key
    · rw [hk, Function.update_self] at hmem
      exact (congrArg Prod.fst (Option.some.inj hmem)).symm
    · rw [Function.update_of_ne hk, hnone] at hmem
      cases hmem
  constructor
  · have hstash : stashBag r.world.client.path = 0 := by
      apply Multiset.eq_zero_of_forall_notMem
      intro b hb
      have hfull : (h + 1) * 4 ≤ _ :=
        hd.crowded (a := 0) hh ((hq b (Multiset.mem_add.mpr (Or.inl hb))).symm ▸ hpath) (Or.inl hb)
      omega
    rw [← UInt32.toNat_inj, hd.inv.stash.load, hstash]
    rfl
  · intro g hg
    apply Multiset.eq_zero_of_forall_notMem
    intro b hb
    have hlt : nodeAddr p.toNat g < 2 ^ r.tree.height := nodeAddr_lt_two_pow (by rw [hd.height]; omega)
    have hmem := mem_treeBag.mpr ⟨_, hlt, Finset.notMem_empty _, hb⟩
    have hfull : (h + 1 - h) * 4 ≤ _ :=
      hd.crowded (a := h) hh ((hq b (Multiset.mem_add.mpr (Or.inr hmem))).symm ▸ hpath) (Or.inr ⟨g, hg, hb⟩)
    omega

/-! ## One level on any tree -/

theorem Evicted.withFetched {K : Cipher bs N B} {p : BlockPath} {t t' : MemTree N} {w w' : World bs B}
    {done : List Nat} (h : Evicted K p t w done t' w') (id : Nat) (buf : Buffer) :
    Evicted K p t w done t' (w'.withFetched id buf) :=
  { h with }

/-- A level of an access ends with an eviction along the path that it has downloaded. -/
theorem accessLevel_evicted (h8 : 8 ∣ bs) {K : Cipher bs N B} (hK : K.Correct) {sz : BlockSize bs}
    {t : MemTree N} (hh : t.height ≤ clientMaxPath) {w : World bs B} {p q : BlockPath} {key : BlockKey}
    {req : Request} {r : LevelResult bs N B} (hrun : accessLevel K sz t p q key req w = some r) :
    ∃ w', w'.host = { w.host with trace := w.host.trace ++ downloadReads K t p } ∧
      (∀ h < t.height, BacksUp w'.client.encryptedDataAddrInPath h
        (decryptData K.node (t.nodes (nodeAddr p.toNat h)))) ∧
      Evicted K p t w' (evictLevels t.height) r.tree r.world ∧
      ∃ found content written, r.calls = [.fetch t.treeId t.height p key w.client.stashLoad found,
        .put t.treeId ⟨key, q, content⟩, .flush t.treeId t.height p written] := by
  obtain ⟨f, w', hfetch, hput, rfl⟩ := accessLevel_eq_some.mp hrun
  obtain ⟨w₁, hdown, rfl⟩ := memTreeFetch_eq_some.mp hfetch
  obtain ⟨pr, hpr, rfl⟩ := memTreePut_eq_some.mp hput
  obtain ⟨hd, hback⟩ := download_spec h8 K hh hdown
  have henc : pr.client.encryptedDataAddrInPath = w₁.client.encryptedDataAddrInPath :=
    (put_sameTables hpr).encryptedDataAddrInPath.trans
      (fetch_sameTables true key 0 w₁.client).encryptedDataAddrInPath
  exact ⟨{ w₁ with client := pr.client }, hd.host, henc ▸ hback, (evict_spec hK t hh p _).withFetched _ _, _, _, _, rfl⟩

/-- `block` is copied out of one of the blocks `D` with the key, or of a zero block if there is none. -/
def AnsweredFrom (sz : BlockSize bs) (rest : Buffer) (D : Multiset (Blk bs)) (key : BlockKey) (req : Request)
    (block : Buffer) : Prop :=
  (∃ b ∈ D, b.key = key ∧ block = (sz.copies rest b.content req).block) ∨
    (∀ b ∈ D, b.key ≠ key) ∧ block = (sz.copies rest (zeroBlock bs) req).block

/-- Where a level finds its block, whatever the nodes decrypt to. -/
theorem accessLevel_answer (h8 : 8 ∣ bs) {K : Cipher bs N B} {sz : BlockSize bs} {t : MemTree N}
    (hh : t.height ≤ clientMaxPath) {w : World bs B} (hwf : w.client.StashWf) {p q : BlockPath} {key : BlockKey}
    {req : Request} {r : LevelResult bs N B} (hrun : accessLevel K sz t p q key req w = some r) :
    AnsweredFrom sz (w.host.fetched t.treeId) (stashBag w.client.path + pathKeyBag K t w.host.bufs p) key req
      r.block := by
  obtain ⟨f, w', hfetch, -, rfl⟩ := accessLevel_eq_some.mp hrun
  obtain ⟨w₁, hdown, rfl⟩ := memTreeFetch_eq_some.mp hfetch
  have hstash := ((download_spec h8 K hh hdown).1.stash hwf).2
  rw [← hstash]
  by_cases hex : ∃ b ∈ stashBag w₁.client.path, b.key = key
  · obtain ⟨b, hb, hk, hf⟩ := fetch_some h8 true 0 hex
    exact Or.inl ⟨b, hb, hk, by rw [hf]⟩
  · have habsent : ∀ b ∈ stashBag w₁.client.path, b.key ≠ key := fun b hb hk => hex ⟨b, hb, hk⟩
    exact Or.inr ⟨habsent, by rw [fetch_of_absent true 0 habsent]⟩

/-- A fetch whose path and stash do not hold the key answers zeros, and the access goes on. -/
theorem accessLevel_of_absent (h8 : 8 ∣ bs) {K : Cipher bs N B} (sz : BlockSize bs) {t : MemTree N}
    (hh : t.height ≤ clientMaxPath) {w : World bs B} (hwf : w.client.StashWf) {p : BlockPath} (q : BlockPath)
    {key : BlockKey} (hkey : key ≠ 0) (req : Request)
    (hfit : (stashBag w.client.path + pathKeyBag K t w.host.bufs p).card < clientMaxPath * blocksPerNode)
    (habsent : ∀ b ∈ stashBag w.client.path + pathKeyBag K t w.host.bufs p, b.key ≠ key) :
    ∃ r, accessLevel K sz t p q key req w = some r ∧ 
      r.block = (sz.copies (w.host.fetched t.treeId) (zeroBlock bs) req).block := by
  obtain ⟨w₁, hdown⟩ := download_completes h8 K hh p hwf.counts (by rw [← Multiset.card_add]; exact hfit.le)
  obtain ⟨hwf₁, hstash⟩ := (download_spec h8 K hh hdown).1.stash hwf
  have hfetched := fetch_of_absent true 0 fun b hb => habsent b (hstash ▸ hb)
  obtain ⟨pr, hpr⟩ := put_completes h8 q 0 ((zeroBlock bs).written req) hkey hwf₁.counts (hstash ▸ hfit)
  refine ⟨_, accessLevel_eq_some.mpr ⟨_, { w₁ with client := pr.client }, memTreeFetch_eq_some.mpr ⟨w₁, hdown, rfl⟩,
    ?_, rfl⟩, ?_⟩
  · rw [hfetched]
    exact memTreePut_eq_some.mpr ⟨pr, hpr, rfl⟩
  · rw [hfetched]

/-! ## Construction -/

theorem newTree_eq_some {K : Cipher bs N B} {A : BufferAddrs} {id capacity : Nat} {st st' : Process bs B}
    {t : MemTree N} :
    newTree K A id capacity st = some (t, st') ↔
      ∃ c host, initClientOnce id capacity st.world.client = some c ∧
        initializeMemTree K A id (computeTreeHeight capacity) st.world.host = some (t, host) ∧
        st' = { st with world := ⟨c, host⟩ } := by
  simp only [newTree, Option.bind_eq_bind, Option.bind_eq_some_iff, Option.pure_def, Option.some.injEq,
    Prod.mk.injEq, Prod.exists]
  constructor
  · rintro ⟨c, hc, t₁, host, ht, rfl, rfl⟩
    exact ⟨c, host, hc, ht, rfl⟩
  · rintro ⟨c, host, hc, ht, rfl⟩
    exact ⟨c, hc, t, host, ht, rfl, rfl⟩

theorem newPathOram_base_eq_some {K : Cipher bs N B} {A : BufferAddrs} {sz : BlockSize bs} {capacity : Nat}
    (hcap : capacity ≤ maxPosMap) {st st' : Process bs B} {o : PathOram N} :
    newPathOram K A sz capacity st = some (o, st') ↔
      ∃ t, newTree K A st.nextOramId capacity { st with nextOramId := st.nextOramId + 1 } = some (t, st') ∧
        o = .base capacity t := by
  rw [newPathOram, dif_neg (not_lt.mpr hcap)]
  simp only [Option.bind_eq_bind, Option.bind_eq_some_iff, Option.pure_def, Option.some.injEq,
    Prod.mk.injEq, Prod.exists]
  constructor
  · rintro ⟨t, st₁, ht, rfl, rfl⟩
    exact ⟨t, ht, rfl⟩
  · rintro ⟨t, ht, rfl⟩
    exact ⟨t, st', ht, rfl, rfl⟩

theorem newPathOram_rec_eq_some {K : Cipher bs N B} {A : BufferAddrs} {sz : BlockSize bs} {capacity : Nat}
    (hcap : maxPosMap < capacity) {st st' : Process bs B} {o : PathOram N} :
    newPathOram K A sz capacity st = some (o, st') ↔
      (sz.val % sizeofBlockPath = 0 ∧ sz.val / sizeofBlockPath > 1) ∧ ∃ posMap st₁ t,
        newPathOram K A sz ((capacity + sz.val / sizeofBlockPath - 1) / (sz.val / sizeofBlockPath))
          { st with nextOramId := st.nextOramId + 1 } = some (posMap, st₁) ∧
        newTree K A st.nextOramId capacity st₁ = some (t, st') ∧ o = .recursive capacity t posMap := by
  rw [newPathOram, dif_pos hcap]
  by_cases hn : sz.val % sizeofBlockPath = 0 ∧ sz.val / sizeofBlockPath > 1
  · simp only [hn, and_self, dite_true, true_and, Option.bind_eq_bind, Option.bind_eq_some_iff,
      Option.pure_def, Option.some.injEq, Prod.mk.injEq, Prod.exists]
    constructor
    · rintro ⟨posMap, st₁, hpos, t, st₂, ht, rfl, rfl⟩
      exact ⟨posMap, st₁, t, hpos, ht, rfl⟩
    · rintro ⟨posMap, st₁, t, hpos, ht, rfl⟩
      exact ⟨posMap, st₁, hpos, t, st', ht, rfl, rfl⟩
  · simp only [hn, dite_false, false_and, reduceCtorEq]

/-- The first tree of a process, with the client that it initialises. -/
theorem newTree_first {K : Cipher bs N B} (hK : K.Correct) {A : BufferAddrs} {capacity : Nat}
    {st st' : Process bs B} {t : MemTree N} (hrun : newTree K A 1 capacity st = some (t, st')) :
    8 ∣ bs ∧ TreeInv K A t st'.world ∅ (fun _ => none) ∧ st'.world.client.pathMm = fun _ => 0 := by
  obtain ⟨c, host, hc, ht, rfl⟩ := newTree_eq_some.mp hrun
  rw [initClientOnce, if_pos rfl] at hc
  obtain ⟨hlt, hstash, hzero, hsubs, hmm⟩ := ecallInitClient_spec hc
  obtain ⟨h8, -, hheight, -⟩ := initializeMemTree_spec hK ht
  obtain ⟨htree, hbag⟩ := initializeMemTree_wf hK ht host.bufs
  refine ⟨h8, { height := hheight ▸ hlt, tree := htree, stash := hstash, holds := ?_, subs := by simp [hsubs] }, hmm⟩
  rw [Holds, hbag, hzero]
  exact represents_zero

/-- A later tree: the client and the buffers of the other trees stay. -/
theorem newTree_later {K : Cipher bs N B} {A : BufferAddrs} {id capacity : Nat} (hid : id ≠ 1)
    {st st' : Process bs B} {t : MemTree N} (hrun : newTree K A id capacity st = some (t, st')) :
    st'.world.client = st.world.client ∧
      ∀ id' n i, id' ≠ id → st'.world.host.bufs (A.addr id' n i) = st.world.host.bufs (A.addr id' n i) := by
  obtain ⟨c, host, hc, ht, rfl⟩ := newTree_eq_some.mp hrun
  rw [initClientOnce, if_neg hid] at hc
  exact ⟨(Option.some.inj hc).symm, (initializeMemTree_frame ht).2.2⟩

/-- A new tree rests empty, whatever the buffers hold. -/
theorem newTree_stored {K : Cipher bs N B} (hK : K.Correct) {A : BufferAddrs} {id capacity : Nat}
    (hh : computeTreeHeight capacity < clientMaxPath) {st st' : Process bs B} {t : MemTree N}
    (hrun : newTree K A id capacity st = some (t, st')) (bufs : Addr → B) :
    8 ∣ bs ∧ t.treeId = id ∧ t.height = computeTreeHeight capacity ∧ st'.nextOramId = st.nextOramId ∧
      Stored K A t 0 bufs fun _ => none := by
  obtain ⟨c, host, -, ht, rfl⟩ := newTree_eq_some.mp hrun
  obtain ⟨h8, hid, hheight, -⟩ := initializeMemTree_spec hK ht
  obtain ⟨htree, hbag⟩ := initializeMemTree_wf hK ht bufs
  refine ⟨h8, hid, hheight, rfl, hheight ▸ hh, htree, ?_⟩
  rw [hbag, zero_add]
  exact represents_zero

theorem newTree_completes (h8 : bs % 8 = 0) (K : Cipher bs N B) (A : BufferAddrs) (id : Nat) {capacity : Nat}
    (hh : computeTreeHeight capacity < clientMaxPath) (st : Process bs B) :
    ∃ t st', newTree K A id capacity st = some (t, st') := by
  by_cases hid : id = 1
  · simp [newTree, initClientOnce, ecallInitClient, initializeMemTree, h8, hh, hid]
  · simp [newTree, initClientOnce, initializeMemTree, h8, hid]

/-! ## Whole accesses -/

section
variable {K : Cipher bs N B} {sz : BlockSize bs} {X : ExchangeMm} {capacity : Nat} {t : MemTree N} {draws : Nat → Draws}
  {req : Request} {w : World bs B}

theorem accessPathOramWith_base {r : AccessResult bs N B} :
    accessPathOramWith X K sz (.base capacity t) draws req w = .ok r ↔
      (req.ind < capacity ∧ sz.val / sizeofBlockPath ≠ 0 ∧ bs ≠ 0) ∧
        (X req.ind (draws 0).newBlockPath w.client.pathMm).keepsPath ∧ ∃ l,
          accessLevel K sz t
            (orFresh (X req.ind (draws 0).newBlockPath w.client.pathMm).blockPath (draws 0).freshPath)
            (draws 0).newBlockPath (keyOf req.ind) req
            (w.withPathMm (X req.ind (draws 0).newBlockPath w.client.pathMm).pathMm) = some l ∧
          r = ⟨.base capacity l.tree, l.world, l.block, l.calls⟩ := by
  rw [← toOption_eq_some]
  simp only [accessPathOramWith]
  split_ifs with hind hbs hkeep
  · simp [hbs]
  · simp only [orAssert_toOption, Option.map_eq_some_iff]
    exact ⟨fun ⟨l, hl, hr⟩ => ⟨⟨hind, hbs, hkeep.2⟩, hkeep.1, l, hl, hr.symm⟩,
      fun ⟨_, _, l, hl, hr⟩ => ⟨l, hl, hr.symm⟩⟩
  · simp only [toOption_error, reduceCtorEq, false_iff]
    exact fun h => hkeep ⟨h.2.1, h.1.2.2⟩
  · simp [hind]

theorem accessPathOramWith_rec {posMap : PathOram N} {r : AccessResult bs N B} :
    accessPathOramWith X K sz (.recursive capacity t posMap) draws req w = .ok r ↔
      (req.ind < capacity ∧ sz.val / sizeofBlockPath ≠ 0) ∧ ∃ inner l,
        accessPathOramWith X K sz posMap (fun k => draws (k + 1))
          (posMapRequest sz.val req.ind (draws 0).newBlockPath) w = .ok inner ∧
        accessLevel K sz t (orFresh (pathOfBuffer inner.block) (draws 0).freshPath) (draws 0).newBlockPath
          (keyOf req.ind) req inner.world = some l ∧
        r = ⟨.recursive capacity l.tree inner.oram, l.world, l.block, inner.calls ++ l.calls⟩ := by
  rw [← toOption_eq_some, accessPathOramWith]
  split_ifs with hind hbs
  · simp [hbs]
  · cases hinner : accessPathOramWith X K sz posMap (fun k => draws (k + 1))
      (posMapRequest sz.val req.ind (draws 0).newBlockPath) w with
    | error e => simp [bind, Except.bind]
    | ok inner =>
      simp only [bind, Except.bind, orAssert_toOption, Option.map_eq_some_iff, Except.ok.injEq, hind, hbs, ne_eq,
        not_false_eq_true, and_self, true_and]
      exact ⟨fun ⟨l, hl, hr⟩ => ⟨inner, l, rfl, hl, hr.symm⟩, fun ⟨_, l, rfl, hl, hr⟩ => ⟨l, hl, hr.symm⟩⟩
  · simp [hind]

theorem accessPathOram_base {r : AccessResult bs N B} :
    accessPathOram K sz (.base capacity t) draws req w = some r ↔
      (req.ind < capacity ∧ sz.val / sizeofBlockPath ≠ 0 ∧ bs ≠ 0) ∧ ∃ l,
        accessLevel K sz t (orFresh (w.client.pathMm req.ind) (draws 0).freshPath) (draws 0).newBlockPath
          (keyOf req.ind) req
          (w.withPathMm (Function.update w.client.pathMm req.ind (draws 0).newBlockPath)) = some l ∧
        r = ⟨.base capacity l.tree, l.world, l.block, l.calls⟩ := by
  rw [accessPathOram, toOption_eq_some, accessPathOramWith_base]
  simp only [ecallWriteMmInClient, true_and]

theorem accessPathOram_rec {posMap : PathOram N} {r : AccessResult bs N B} :
    accessPathOram K sz (.recursive capacity t posMap) draws req w = some r ↔
      (req.ind < capacity ∧ sz.val / sizeofBlockPath ≠ 0) ∧ ∃ inner l,
        accessPathOram K sz posMap (fun k => draws (k + 1))
          (posMapRequest sz.val req.ind (draws 0).newBlockPath) w = some inner ∧
        accessLevel K sz t (orFresh (pathOfBuffer inner.block) (draws 0).freshPath) (draws 0).newBlockPath
          (keyOf req.ind) req inner.world = some l ∧
        r = ⟨.recursive capacity l.tree inner.oram, l.world, l.block, inner.calls ++ l.calls⟩ := by
  simp only [accessPathOram, toOption_eq_some, accessPathOramWith_rec]

/-- With block sizes that are not zero no access faults that keeps `client->path`. -/
theorem accessPathOramWith_keeps (hbs : sz.val / sizeofBlockPath ≠ 0 ∧ bs ≠ 0) (o : PathOram N)
    (hkeeps : ∀ q mm, (X (o.mmIndex sz.val req.ind) q mm).keepsPath) :
    accessPathOramWith X K sz o draws req w = orAssert (accessPathOramWith X K sz o draws req w).toOption := by
  induction o generalizing draws req w with
  | base capacity t =>
    have hkeeps : ∀ q mm, (X req.ind q mm).keepsPath := hkeeps
    simp only [accessPathOramWith, hbs.1, if_false, hbs.2, ne_eq, not_false_eq_true, and_self, if_true, hkeeps]
    split_ifs
    · rw [orAssert_toOption]
    · rfl
  | recursive capacity t posMap ih =>
    have hinner : accessPathOramWith X K sz posMap (fun k => draws (k + 1))
        (posMapRequest sz.val req.ind (draws 0).newBlockPath) w = _ := ih hkeeps
    simp only [accessPathOramWith, hbs.1, if_false]
    split_ifs
    · cases hr : accessPathOramWith X K sz posMap (fun k => draws (k + 1))
        (posMapRequest sz.val req.ind (draws 0).newBlockPath) w with
      | error e =>
        rw [hr] at hinner
        rw [hinner]
        rfl
      | ok inner => exact (congrArg orAssert (orAssert_toOption _)).symm
    · rfl

theorem runAccessWith_keeps (hbs : sz.val / sizeofBlockPath ≠ 0 ∧ bs ≠ 0) {s : OramRun bs N B} {a : OramAccess}
    (hkeeps : ∀ q mm, (X (s.oram.mmIndex sz.val a.req.ind) q mm).keepsPath) :
    runAccessWith X K sz s a = orAssert (runAccessWith X K sz s a).toOption := by
  unfold runAccessWith
  rw [accessPathOramWith_keeps hbs s.oram hkeeps]
  cases (accessPathOramWith X K sz s.oram a.draws a.req s.world).toOption <;> rfl

theorem runAccessWith_reference (hbs : sz.val / sizeofBlockPath ≠ 0 ∧ bs ≠ 0) (s : OramRun bs N B) (a : OramAccess) :
    runAccessWith ecallWriteMmInClient K sz s a = orAssert (runAccess K sz s a) :=
  runAccessWith_keeps hbs fun _ _ => rfl

/-- An access of a single level that loses `client->path` faults in its fetch. -/
theorem accessPathOramWith_base_fault (hind : req.ind < capacity) (hbs : sz.val / sizeofBlockPath ≠ 0)
    (hkeeps : ¬ ((X req.ind (draws 0).newBlockPath w.client.pathMm).keepsPath ∧ bs ≠ 0)) :
    accessPathOramWith X K sz (.base capacity t) draws req w = .error (.fault (stalledFetch K t
      (orFresh (X req.ind (draws 0).newBlockPath w.client.pathMm).blockPath (draws 0).freshPath) (keyOf req.ind)
      (w.withPathMm (X req.ind (draws 0).newBlockPath w.client.pathMm).pathMm))) := by
  simp only [accessPathOramWith]
  rw [if_pos hind, if_neg hbs, if_neg hkeeps]

theorem runAccessWith_ok {s s' : OramRun bs N B} {a : OramAccess} :
    runAccessWith X K sz s a = .ok s' ↔ ∃ r, accessPathOramWith X K sz s.oram a.draws a.req s.world = .ok r ∧
      s' = ⟨r.oram, r.world, s.outs ++ [r.block], s.calls ++ r.calls⟩ := by
  unfold runAccessWith
  cases accessPathOramWith X K sz s.oram a.draws a.req s.world <;> simp [eq_comm]

theorem runAccessWith_error {s : OramRun bs N B} {a : OramAccess} {e : Stop (World bs B × List (MemTreeCall bs))}
    (h : accessPathOramWith X K sz s.oram a.draws a.req s.world = .error e) :
    runAccessWith X K sz s a = .error (e.map fun (w, calls) => ⟨s.oram, w, s.outs, s.calls ++ calls⟩) := by
  simp [runAccessWith, h]

theorem runAccess_eq_some {s s' : OramRun bs N B} {a : OramAccess} :
    runAccess K sz s a = some s' ↔ ∃ r, accessPathOram K sz s.oram a.draws a.req s.world = some r ∧
      s' = ⟨r.oram, r.world, s.outs ++ [r.block], s.calls ++ r.calls⟩ := by
  simp only [runAccess, accessPathOram, toOption_eq_some, runAccessWith_ok]

end

end SgxOram
