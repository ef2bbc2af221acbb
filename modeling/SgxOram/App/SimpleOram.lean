import SgxOram.App.PathOram
import SgxOram.Enclave.SimpleClient

/-!
# `SimpleORAM` (`App/SimpleORAM.cpp`, `App/MemTree.cpp`)

In the builds without `PATH_ORAM`:

* `initializeMemTreePlain` : `InitializeMemTree` without `AES_ENC`; `memTreeFetch`, `memTreePut`,
  `memTreeFlush`;
* `SimpleOram` : an object, with its position map in the client (`base`) or in another object
  (`recursive`); `newSimpleOram` : the constructor;
* `accessSimpleOramWith` : `AccessSimpleORAM`, over a way to exchange an entry of the position map. It uses the
  path of the position map as it is: an entry without a position is looked for on path 0;
  `accessSimpleOram` : with the reference code of `ecall_write_mm_in_client`.
-/

namespace SgxOram
open Lib

variable {bs : Nat} {N B : Type}

/-! ## The server's tree -/

/-- One pass of the loop over the nodes: `calloc` the buffers of a node. -/
def initializeNodePlain (addrs : Nat → Fin blocksPerNode → Addr) (st : (Nat → MemTreeNode) × Host (Block bs))
    (n : Nat) : (Nat → MemTreeNode) × Host (Block bs) :=
  let node := st.1 n
  (Function.update st.1 n { node with slots := fun i => { node.slots i with blockContent := addrs n i } },
    (List.finRange blocksPerNode).foldl
      (fun host i => { host with bufs := Function.update host.bufs (addrs n i) (zeroBlock bs) }) st.2)

/-- `InitializeMemTree` without `AES_ENC`. `none` if `block_size` is not a multiple of 8. -/
def initializeMemTreePlain (A : BufferAddrs) (treeId height : Nat) (host : Host (Block bs)) :
    Option (MemTree MemTreeNode × Host (Block bs)) :=
  if bs % 8 = 0 then
    let st := (List.range (2 ^ height)).foldl (initializeNodePlain (A.addr treeId)) (fun _ => zeroNode, host)
    some (⟨treeId, height, st.1⟩, st.2)
  else none

def Build.initMemTree : Build bs N B → BufferAddrs → Nat → Nat → Host B → Option (MemTree N × Host B)
  | .aes K => initializeMemTree K
  | .plain => initializeMemTreePlain

/-- What `MemTreeFetch` leaves behind. -/
structure SimpleFetched (bs : Nat) (N B : Type) where
  tree : MemTree N
  world : World bs B
  fetchedBlock : Block bs

def memTreeFetch (D : Build bs N B) (t : MemTree N) (blockPath : BlockPath) (blockKey : BlockKey)
    (w : World bs B) : SimpleFetched bs N B :=
  let w := D.download t blockPath w
  let r := ecallObliviousFetch false blockKey 0 w.client
  let (t, w) := D.update t blockPath { w with client := r.client }
  ⟨t, w, r.fetchedBlock⟩

def memTreePut (D : Build bs N B) : MemTree N → BlockPath → BlockKey → Block bs → World bs B →
    Option (RootPut bs N B) := D.putToRoot

def memTreeFlush (D : Build bs N B) (t : MemTree N) (randPath : BlockPath) (w : World bs B) :
    MemTree N × World bs B :=
  let w := D.download t randPath w
  D.update t randPath { w with client := ecallClientSimpleOramFlush t.height randPath w.client }

/-! ## Objects -/

inductive SimpleOram (N : Type)
  | base (capacity : Nat) (tree : MemTree N)
  | recursive (capacity : Nat) (tree : MemTree N) (posMap : SimpleOram N)

/-- The end of the constructor: initialise the client, then the tree. -/
def newSimpleTree (D : Build bs N B) (A : BufferAddrs) (myOramId capacity : Nat) (st : Process bs B) :
    Option (MemTree N × Process bs B) := do
  let c ← initClientOnce myOramId capacity st.world.client
  let (t, host) ← D.initMemTree A myOramId (computeTreeHeight capacity) st.world.host
  return (t, { st with world := ⟨c, host⟩ })

/-- `SimpleORAM::SimpleORAM`. `none` is a failing assert. -/
def newSimpleOram (D : Build bs N B) (A : BufferAddrs) (sz : BlockSize bs) (capacity : Nat) (st : Process bs B) :
    Option (SimpleOram N × Process bs B) :=
  let myOramId := st.nextOramId
  let st := { st with nextOramId := st.nextOramId + 1 }
  if _hcap : capacity > maxPosMap then
    let numPathsPerBlock := sz.val / sizeofBlockPath
    if _hn : sz.val % sizeofBlockPath = 0 ∧ numPathsPerBlock > 1 then do
      let (posMap, st) ← newSimpleOram D A sz ((capacity + numPathsPerBlock - 1) / numPathsPerBlock) st
      let (t, st) ← newSimpleTree D A myOramId capacity st
      return (.recursive capacity t posMap, st)
    else none
  else do
    let (t, st) ← newSimpleTree D A myOramId capacity st
    return (.base capacity t, st)
termination_by capacity
decreasing_by exact higherCapacity_lt _hcap _hn.2

/-! ## Accesses -/

/-- The draws of one level of an access. -/
structure SimpleDraws where
  newBlockPath : RandPath
  flushPath : BlockPath

structure SimpleLevel (bs : Nat) (N B : Type) where
  tree : MemTree N
  world : World bs B
  block : Buffer

/-- `AccessSimpleORAM` from the fetch on, with the path read from the position map. -/
def accessSimpleLevel (D : Build bs N B) (sz : BlockSize bs) (t : MemTree N) (blockPath : BlockPath)
    (draws : SimpleDraws) (blockKey : BlockKey) (req : Request) (w : World bs B) : Option (SimpleLevel bs N B) := do
  let f := memTreeFetch D t blockPath blockKey w
  let copied := sz.copies (w.host.fetched t.treeId) f.fetchedBlock req
  let put ← memTreePut D f.tree draws.newBlockPath blockKey (copied.content bs) f.world
  let (t', w') :=
    if put.rootLoad.toNat ≥ flushThreshRoot then memTreeFlush D put.tree draws.flushPath put.world
    else (put.tree, put.world)
  return ⟨t', w'.withFetched t.treeId copied.fetchedBlock, copied.block⟩

structure SimpleResult (bs : Nat) (N B : Type) where
  oram : SimpleOram N
  world : World bs B
  block : Buffer

/-- `AccessSimpleORAM` over a way to exchange an entry of the position map; `draws k` are the draws `k` levels
further in. It faults at a division by zero, and in the fetch if `client->path` is not what it was or if the
enclave's `block_size` is 0; what the memory then holds is left out. -/
def accessSimpleOramWith (exchangeMm : ExchangeMm) (D : Build bs N B) (sz : BlockSize bs) :
    SimpleOram N → (Nat → SimpleDraws) → Request → World bs B → Except (Stop Unit) (SimpleResult bs N B)
  | .base capacity t, draws, req, w =>
    if req.ind < capacity then
      if sz.val / sizeofBlockPath = 0 then .error (.fault ())
      else
        let e := exchangeMm req.ind (draws 0).newBlockPath w.client.pathMm
        if e.keepsPath ∧ bs ≠ 0 then
          orAssert <| (accessSimpleLevel D sz t e.blockPath (draws 0) (keyOf req.ind) req
            (w.withPathMm e.pathMm)).map fun r => ⟨.base capacity r.tree, r.world, r.block⟩
        else .error (.fault ())
    else .error .assert
  | .recursive capacity t posMap, draws, req, w =>
    if req.ind < capacity then
      if sz.val / sizeofBlockPath = 0 then .error (.fault ())
      else do
        let inner ← accessSimpleOramWith exchangeMm D sz posMap (fun k => draws (k + 1))
          (posMapRequest sz.val req.ind (draws 0).newBlockPath) w
        orAssert <| (accessSimpleLevel D sz t (pathOfBuffer inner.block) (draws 0) (keyOf req.ind) req
          inner.world).map fun r => ⟨.recursive capacity r.tree inner.oram, r.world, r.block⟩
    else .error .assert

/-- `AccessSimpleORAM` with the reference code of `ecall_write_mm_in_client`, where it returns. -/
def accessSimpleOram (D : Build bs N B) (sz : BlockSize bs) (o : SimpleOram N) (draws : Nat → SimpleDraws)
    (req : Request) (w : World bs B) : Option (SimpleResult bs N B) :=
  (accessSimpleOramWith ecallWriteMmInClient D sz o draws req w).toOption

/-- One call of `AccessSimpleORAM` in a run. -/
structure SimpleAccess where
  draws : Nat → SimpleDraws
  req : Request

/-- An object in its process, with what its accesses have copied out so far. -/
structure SimpleRun (bs : Nat) (N B : Type) where
  oram : SimpleOram N
  world : World bs B
  outs : List Buffer

def runSimpleAccessWith (exchangeMm : ExchangeMm) (D : Build bs N B) (sz : BlockSize bs) (s : SimpleRun bs N B)
    (a : SimpleAccess) : Except (Stop Unit) (SimpleRun bs N B) :=
  (accessSimpleOramWith exchangeMm D sz s.oram a.draws a.req s.world).map fun r =>
    ⟨r.oram, r.world, s.outs ++ [r.block]⟩

/-- One access of a run with the reference code of `ecall_write_mm_in_client`, where it returns. -/
def runSimpleAccess (D : Build bs N B) (sz : BlockSize bs) (s : SimpleRun bs N B) (a : SimpleAccess) :
    Option (SimpleRun bs N B) :=
  (runSimpleAccessWith ecallWriteMmInClient D sz s a).toOption

/-- Two writes to entry 1 and a read. -/
def twoWrites : List SimpleAccess :=
  [⟨fun _ => ⟨.of 3, 5⟩, ⟨1, fun j => UInt8.ofNat (j + 1), 3, 2⟩⟩,
    ⟨fun _ => ⟨.of 6, 7⟩, ⟨1, fun _ => 9, 1, 3⟩⟩,
    ⟨fun _ => ⟨.of 2, 9⟩, ⟨1, fun _ => 0, 0, 0⟩⟩]

/-! ## Equations -/

/-- The tree and the world after the flush, if the root calls for one. -/
def flushRoot (D : Build bs N B) (put : RootPut bs N B) (flushPath : BlockPath) : MemTree N × World bs B :=
  if put.rootLoad.toNat ≥ flushThreshRoot then memTreeFlush D put.tree flushPath put.world
  else (put.tree, put.world)

section Equations
variable {D : Build bs N B} {A : BufferAddrs} {sz : BlockSize bs} {capacity : Nat} {t : MemTree N}
  {posMap : SimpleOram N} {draws : Nat → SimpleDraws} {req : Request} {w : World bs B} {r : SimpleResult bs N B}

theorem accessSimpleLevel_eq (D : Build bs N B) (sz : BlockSize bs) (t : MemTree N) (p : BlockPath)
    (draws : SimpleDraws) (key : BlockKey) (req : Request) (w : World bs B) :
    accessSimpleLevel D sz t p draws key req w =
      (memTreePut D (memTreeFetch D t p key w).tree draws.newBlockPath key
        ((memTreeFetch D t p key w).fetchedBlock.written req) (memTreeFetch D t p key w).world).map fun put =>
          ⟨(flushRoot D put draws.flushPath).1,
            (flushRoot D put draws.flushPath).2.withFetched t.treeId
              (sz.copies (w.host.fetched t.treeId) (memTreeFetch D t p key w).fetchedBlock req).fetchedBlock,
            (sz.copies (w.host.fetched t.treeId) (memTreeFetch D t p key w).fetchedBlock req).block⟩ := by
  simp only [accessSimpleLevel, Option.bind_eq_bind, Option.pure_def, Option.map_eq_bind, BlockSize.copies_content]
  rfl

theorem accessSimpleOramWith_base {X : ExchangeMm} :
    accessSimpleOramWith X D sz (.base capacity t) draws req w = .ok r ↔
      (req.ind < capacity ∧ sz.val / sizeofBlockPath ≠ 0 ∧ bs ≠ 0) ∧
        (X req.ind (draws 0).newBlockPath w.client.pathMm).keepsPath ∧ ∃ l,
          accessSimpleLevel D sz t (X req.ind (draws 0).newBlockPath w.client.pathMm).blockPath (draws 0)
            (keyOf req.ind) req (w.withPathMm (X req.ind (draws 0).newBlockPath w.client.pathMm).pathMm) = some l ∧
          r = ⟨.base capacity l.tree, l.world, l.block⟩ := by
  rw [← toOption_eq_some]
  simp only [accessSimpleOramWith]
  split_ifs with hind hbs hkeep
  · simp [hbs]
  · simp only [orAssert_toOption, Option.map_eq_some_iff]
    exact ⟨fun ⟨l, hl, hr⟩ => ⟨⟨hind, hbs, hkeep.2⟩, hkeep.1, l, hl, hr.symm⟩,
      fun ⟨_, _, l, hl, hr⟩ => ⟨l, hl, hr.symm⟩⟩
  · simp only [toOption_error, reduceCtorEq, false_iff]
    exact fun h => hkeep ⟨h.2.1, h.1.2.2⟩
  · simp [hind]

theorem accessSimpleOramWith_rec {X : ExchangeMm} :
    accessSimpleOramWith X D sz (.recursive capacity t posMap) draws req w = .ok r ↔
      (req.ind < capacity ∧ sz.val / sizeofBlockPath ≠ 0) ∧ ∃ inner l,
        accessSimpleOramWith X D sz posMap (fun k => draws (k + 1))
          (posMapRequest sz.val req.ind (draws 0).newBlockPath) w = .ok inner ∧
        accessSimpleLevel D sz t (pathOfBuffer inner.block) (draws 0) (keyOf req.ind) req inner.world = some l ∧
        r = ⟨.recursive capacity l.tree inner.oram, l.world, l.block⟩ := by
  rw [← toOption_eq_some, accessSimpleOramWith]
  split_ifs with hind hbs
  · simp [hbs]
  · cases hinner : accessSimpleOramWith X D sz posMap (fun k => draws (k + 1))
      (posMapRequest sz.val req.ind (draws 0).newBlockPath) w with
    | error e => simp [bind, Except.bind]
    | ok inner =>
      simp only [bind, Except.bind, orAssert_toOption, Option.map_eq_some_iff, Except.ok.injEq, hind, hbs, ne_eq,
        not_false_eq_true, and_self, true_and]
      exact ⟨fun ⟨l, hl, hr⟩ => ⟨inner, l, rfl, hl, hr.symm⟩, fun ⟨_, l, rfl, hl, hr⟩ => ⟨l, hl, hr.symm⟩⟩
  · simp [hind]

theorem accessSimpleOram_base :
    accessSimpleOram D sz (.base capacity t) draws req w = some r ↔
      (req.ind < capacity ∧ sz.val / sizeofBlockPath ≠ 0 ∧ bs ≠ 0) ∧ ∃ l,
        accessSimpleLevel D sz t (w.client.pathMm req.ind) (draws 0) (keyOf req.ind) req
          (w.withPathMm (Function.update w.client.pathMm req.ind (draws 0).newBlockPath)) = some l ∧
        r = ⟨.base capacity l.tree, l.world, l.block⟩ := by
  rw [accessSimpleOram, toOption_eq_some, accessSimpleOramWith_base]
  simp only [ecallWriteMmInClient, true_and]

theorem accessSimpleOram_rec :
    accessSimpleOram D sz (.recursive capacity t posMap) draws req w = some r ↔
      (req.ind < capacity ∧ sz.val / sizeofBlockPath ≠ 0) ∧ ∃ inner l,
        accessSimpleOram D sz posMap (fun k => draws (k + 1))
          (posMapRequest sz.val req.ind (draws 0).newBlockPath) w = some inner ∧
        accessSimpleLevel D sz t (pathOfBuffer inner.block) (draws 0) (keyOf req.ind) req inner.world = some l ∧
        r = ⟨.recursive capacity l.tree inner.oram, l.world, l.block⟩ := by
  simp only [accessSimpleOram, toOption_eq_some, accessSimpleOramWith_rec]

/-- With block sizes that are not zero no access with the reference code faults. -/
theorem accessSimpleOramWith_reference (hbs : sz.val / sizeofBlockPath ≠ 0 ∧ bs ≠ 0) (o : SimpleOram N) :
    accessSimpleOramWith ecallWriteMmInClient D sz o draws req w = orAssert (accessSimpleOram D sz o draws req w) := by
  unfold accessSimpleOram
  induction o generalizing draws req w with
  | base capacity t =>
    simp only [accessSimpleOramWith, hbs.1, if_false, hbs.2, ne_eq, not_false_eq_true, ecallWriteMmInClient, and_self,
      if_true]
    split_ifs
    · rw [orAssert_toOption]
    · rfl
  | recursive capacity t posMap ih =>
    simp only [accessSimpleOramWith, hbs.1, if_false]
    split_ifs
    · rw [ih]
      cases (accessSimpleOramWith ecallWriteMmInClient D sz posMap (fun k => draws (k + 1))
        (posMapRequest sz.val req.ind (draws 0).newBlockPath) w).toOption with
      | none => rfl
      | some inner =>
        simp only [orAssert_some, bind, Except.bind]
        rw [orAssert_toOption]
    · rfl

theorem runSimpleAccess_eq_some {s s' : SimpleRun bs N B} {a : SimpleAccess} :
    runSimpleAccess D sz s a = some s' ↔ ∃ r, accessSimpleOram D sz s.oram a.draws a.req s.world = some r ∧
      s' = ⟨r.oram, r.world, s.outs ++ [r.block]⟩ := by
  unfold runSimpleAccess runSimpleAccessWith accessSimpleOram
  cases accessSimpleOramWith ecallWriteMmInClient D sz s.oram a.draws a.req s.world <;> simp [Except.map, eq_comm]

theorem runSimpleAccessWith_reference (hbs : sz.val / sizeofBlockPath ≠ 0 ∧ bs ≠ 0) (s : SimpleRun bs N B)
    (a : SimpleAccess) : runSimpleAccessWith ecallWriteMmInClient D sz s a = orAssert (runSimpleAccess D sz s a) := by
  rw [runSimpleAccess, runSimpleAccessWith, accessSimpleOramWith_reference hbs]
  cases accessSimpleOram D sz s.oram a.draws a.req s.world <;> rfl

end Equations

theorem newSimpleTree_eq (D : Build bs N B) (A : BufferAddrs) (id capacity : Nat) (st : Process bs B) :
    newSimpleTree D A id capacity st =
      (initClientOnce id capacity st.world.client).bind fun c =>
        (D.initMemTree A id (computeTreeHeight capacity) st.world.host).map fun th =>
          (th.1, { st with world := ⟨c, th.2⟩ }) := by
  simp only [newSimpleTree, Option.bind_eq_bind, Option.pure_def, Option.map_eq_bind]
  rfl

theorem newSimpleOram_base (D : Build bs N B) (A : BufferAddrs) (sz : BlockSize bs) {capacity : Nat}
    (hcap : capacity ≤ maxPosMap) (st : Process bs B) :
    newSimpleOram D A sz capacity st =
      (newSimpleTree D A st.nextOramId capacity { st with nextOramId := st.nextOramId + 1 }).map fun ts =>
        (.base capacity ts.1, ts.2) := by
  rw [newSimpleOram, dif_neg (not_lt.mpr hcap)]
  simp only [Option.bind_eq_bind, Option.pure_def, Option.map_eq_bind]
  rfl

theorem newSimpleOram_rec (D : Build bs N B) (A : BufferAddrs) (sz : BlockSize bs) {capacity : Nat}
    (hcap : maxPosMap < capacity) (st : Process bs B) :
    newSimpleOram D A sz capacity st =
      if sz.val % sizeofBlockPath = 0 ∧ sz.val / sizeofBlockPath > 1 then
        (newSimpleOram D A sz ((capacity + sz.val / sizeofBlockPath - 1) / (sz.val / sizeofBlockPath))
          { st with nextOramId := st.nextOramId + 1 }).bind fun ps =>
            (newSimpleTree D A st.nextOramId capacity ps.2).map fun ts => (.recursive capacity ts.1 ps.1, ts.2)
      else none := by
  rw [newSimpleOram, dif_pos hcap]
  simp only [Option.bind_eq_bind, Option.pure_def, Option.map_eq_bind, dite_eq_ite]
  rfl

/-- An object of two entries in a fresh process of the plain build. -/
def smallObject : Option (SimpleOram MemTreeNode × Process 8 (Block 8)) :=
  (initializeMemTreePlain .numbered 1 2 (.filled (zeroBlock 8))).map fun th =>
    (.base 2 th.1, ⟨2, ⟨{ emptyClient 8 with clientHeighestHeight := 2 }, th.2⟩⟩)

theorem newSimpleOram_smallObject :
    newSimpleOram .plain .numbered .eight 2 ⟨1, ⟨emptyClient 8, .filled (zeroBlock 8)⟩⟩ = smallObject := by
  have hheight : computeTreeHeight 2 = 2 := by simp [computeTreeHeight]
  rw [newSimpleOram_base _ _ _ (by decide), newSimpleTree_eq, initClientOnce, hheight]
  rfl

theorem smallObject_runs :
    (smallObject.bind fun os =>
      twoWrites.foldlM (runSimpleAccess .plain .eight) ⟨os.1, os.2.world, []⟩).isSome = true := by
  decide +kernel

end SgxOram
