import SgxOram.Enclave.Client

/-!
# The enclave client without `PATH_ORAM` (`Enclave/Enclave_Client.cpp`)

With `AES_ENC` the server's nodes and block buffers are ciphertexts, without it they are plain bytes.
The calls of the two builds differ in how one node is loaded into a row of `client->path` and stored
back:

* `loadNodeAes`, `storeNodeAes`, `loadNode`, `storeNode` : one node with its block buffers; `touchAes`,
  `touchPlain` : the accesses to the server's tree that this makes, recorded in the host's `trace`;
* `downloadPath`, `updatePath`, `putToRoot` : the calls over a way to load and store, and the calls of
  the source with theirs;
* `Build` : the two builds, `Build.load`, `Build.download` and so on what `#ifdef AES_ENC` selects;
* `ecallClientSimpleOramFlush`, and `ecallObliviousFetch false`, are shared.
-/

namespace SgxOram
open Lib

variable {bs : Nat} {N B : Type}

/-! ## One node -/

/-- A node and the blocks of its slots, decrypted. -/
def loadNodeAes (K : Cipher bs N B) (t : MemTree N) (bufs : Addr → B) (n : Nat) : Row bs :=
  let node := decryptData K.node (t.nodes n)
  { node := node
    blocks := fun i => decryptData K.block (bufs (node.slots i).blockContent) }

def loadNode (t : MemTree MemTreeNode) (bufs : Addr → Block bs) (n : Nat) : Row bs :=
  { node := t.nodes n
    blocks := fun i => bufs ((t.nodes n).slots i).blockContent }

/-- `encryptData` of one block into the buffer of its slot, empty or not. -/
def storeBlockAes (K : Cipher bs N B) (row : Row bs) (host : Host B) (i : Fin blocksPerNode) : Host B :=
  { host with
    bufs := Function.update host.bufs (row.node.slots i).blockContent
      (encryptData K.block host.rand (row.blocks i))
    rand := host.rand + 1 }

def storeNodeAes (K : Cipher bs N B) (t : MemTree N) (host : Host B) (n : Nat) (row : Row bs) :
    MemTree N × Host B :=
  ({ t with nodes := Function.update t.nodes n (encryptData K.node host.rand row.node) },
    (List.finRange blocksPerNode).foldl (storeBlockAes K row) { host with rand := host.rand + 1 })

def storeBlock (row : Row bs) (host : Host (Block bs)) (i : Fin blocksPerNode) : Host (Block bs) :=
  { host with bufs := Function.update host.bufs (row.node.slots i).blockContent (row.blocks i) }

def storeNode (t : MemTree MemTreeNode) (host : Host (Block bs)) (n : Nat) (row : Row bs) :
    MemTree MemTreeNode × Host (Block bs) :=
  ({ t with nodes := Function.update t.nodes n row.node },
    (List.finRange blocksPerNode).foldl (storeBlock row) host)

/-- `sizeof(uint8_t *)`. -/
def sizeofPointer : Nat := 8

/-- The accesses to the server's tree that moving node `n` and the buffers at `addrs` makes. -/
abbrev Touch := Nat → (Fin blocksPerNode → Addr) → List ServerAccess

def touchAes (bs : Nat) (write : Bool) : Touch := fun n addrs =>
  ⟨.node n, write, sizeofEncMemTreeNode⟩ ::
    (List.finRange blocksPerNode).map fun i => ⟨.buffer (addrs i), write, encBlockLen bs⟩

/-- Without `AES_ENC` the addresses of the buffers are read from the server's node. -/
def touchPlain (bs : Nat) (write : Bool) : Touch := fun n addrs =>
  ⟨.node n, write, sizeofMemTreeNode⟩ ::
    (List.finRange blocksPerNode).flatMap fun i =>
      [⟨.node n, false, sizeofPointer⟩, ⟨.buffer (addrs i), write, bs⟩]

/-- The host after these accesses to its tree. -/
def Host.touched (host : Host B) (accesses : List ServerAccess) : Host B :=
  { host with trace := host.trace ++ accesses }

@[simp] theorem Host.touched_bufs (host : Host B) (l : List ServerAccess) : (host.touched l).bufs = host.bufs := rfl

@[simp] theorem Host.touched_fetched (host : Host B) (l : List ServerAccess) :
    (host.touched l).fetched = host.fetched := rfl

@[simp] theorem Host.touched_trace (host : Host B) (l : List ServerAccess) :
    (host.touched l).trace = host.trace ++ l := rfl

/-- `block_contents`. -/
def Row.blockContents (row : Row bs) (i : Fin blocksPerNode) : Addr := (row.node.slots i).blockContent

abbrev Load (bs : Nat) (N B : Type) := MemTree N → (Addr → B) → Nat → Row bs

abbrev Store (bs : Nat) (N B : Type) := MemTree N → Host B → Nat → Row bs → MemTree N × Host B

/-! ## Paths -/

/-- One level of the download. -/
def loadLevel (load : Load bs N B) (touch : Touch) (t : MemTree N) (l : LevelLoop bs B) (h : Nat) :
    LevelLoop bs B :=
  let w := l.world
  let row := load t w.host.bufs l.addr.toNat
  ⟨⟨{ w.client with path := Function.update w.client.path h row },
      w.host.touched (touch l.addr.toNat row.blockContents)⟩,
    l.addr * 2 + 1 + l.treePath % 2, l.treePath / 2⟩

def downloadPath (load : Load bs N B) (touch : Touch) (t : MemTree N) (blockPath : BlockPath) (w : World bs B) :
    World bs B :=
  ((List.range t.height).foldl (loadLevel load touch t) ⟨w, 0, blockPath⟩).world

def ecallDownloadPathToEnclaveClientAes (K : Cipher bs N B) : MemTree N → BlockPath → World bs B → World bs B :=
  downloadPath (loadNodeAes K) (touchAes bs false)

def ecallDownloadPathToEnclaveClient :
    MemTree MemTreeNode → BlockPath → World bs (Block bs) → World bs (Block bs) :=
  downloadPath loadNode (touchPlain bs false)

/-- One level of the upload. -/
def storeLevel (store : Store bs N B) (touch : Touch) (st : MemTree N × LevelLoop bs B) (h : Nat) :
    MemTree N × LevelLoop bs B :=
  let l := st.2
  let row := l.world.client.path h
  let (t, host) := store st.1 l.world.host l.addr.toNat row
  (t, ⟨{ l.world with host := host.touched (touch l.addr.toNat row.blockContents) },
    l.addr * 2 + 1 + l.treePath % 2, l.treePath / 2⟩)

def updatePath (store : Store bs N B) (touch : Touch) (t : MemTree N) (blockPath : BlockPath) (w : World bs B) :
    MemTree N × World bs B :=
  let st := (List.range t.height).foldl (storeLevel store touch) (t, ⟨w, 0, blockPath⟩)
  (st.1, st.2.world)

def ecallUpdatePathOutsideEnclaveAes (K : Cipher bs N B) :
    MemTree N → BlockPath → World bs B → MemTree N × World bs B :=
  updatePath (storeNodeAes K) (touchAes bs true)

def ecallUpdatePathOutsideEnclave :
    MemTree MemTreeNode → BlockPath → World bs (Block bs) → MemTree MemTreeNode × World bs (Block bs) :=
  updatePath storeNode (touchPlain bs true)

/-! ## Put -/

/-- The tree, the client with the host's memory, and `*root_load` after a put. -/
structure RootPut (bs : Nat) (N B : Type) where
  tree : MemTree N
  world : World bs B
  rootLoad : UInt32

/-- Load the root into row 0, write the block, store the root. The first `none` is the assert that the
root has room, the second the assert on `ObliviousNodeWrite`. -/
def putToRoot (load : Load bs N B) (store : Store bs N B) (touch : Bool → Touch) (t : MemTree N)
    (blockPath : BlockPath) (blockKey : BlockKey) (blockContent : Block bs) (w : World bs B) :
    Option (RootPut bs N B) :=
  let row := load t w.host.bufs 0
  let host := w.host.touched (touch false 0 row.blockContents)
  if row.node.numBlocks.toNat < blocksPerNode then
    let r := obliviousNodeWrite false row 0 blockKey blockPath blockContent
    if r.succ then
      let (t, host) := store t host 0 r.row
      some ⟨t, ⟨{ w.client with path := Function.update w.client.path 0 r.row },
        host.touched (touch true 0 r.row.blockContents)⟩, r.row.node.numBlocks⟩
    else none
  else none

def ecallObliviousPutToRootAes (K : Cipher bs N B) :
    MemTree N → BlockPath → BlockKey → Block bs → World bs B → Option (RootPut bs N B) :=
  putToRoot (loadNodeAes K) (storeNodeAes K) (touchAes bs)

def ecallObliviousPutToRoot :
    MemTree MemTreeNode → BlockPath → BlockKey → Block bs → World bs (Block bs) →
      Option (RootPut bs MemTreeNode (Block bs)) :=
  putToRoot loadNode storeNode (touchPlain bs)

/-! ## The builds -/

/-- The builds without `PATH_ORAM`: with and without `AES_ENC`. -/
inductive Build (bs : Nat) : Type → Type → Type 1
  | aes {N B : Type} (K : Cipher bs N B) : Build bs N B
  | plain : Build bs MemTreeNode (Block bs)

/-- The assumption on the encrypted build. -/
def Build.Correct : Build bs N B → Prop
  | .aes K => K.Correct
  | .plain => True

theorem Build.plain_correct (bs : Nat) : (plain : Build bs MemTreeNode (Block bs)).Correct := trivial

def Build.load : Build bs N B → Load bs N B
  | .aes K => loadNodeAes K
  | .plain => loadNode

def Build.store : Build bs N B → Store bs N B
  | .aes K => storeNodeAes K
  | .plain => storeNode

def Build.touch : Build bs N B → Bool → Touch
  | .aes _ => touchAes bs
  | .plain => touchPlain bs

def Build.download : Build bs N B → MemTree N → BlockPath → World bs B → World bs B
  | .aes K => ecallDownloadPathToEnclaveClientAes K
  | .plain => ecallDownloadPathToEnclaveClient

def Build.update : Build bs N B → MemTree N → BlockPath → World bs B → MemTree N × World bs B
  | .aes K => ecallUpdatePathOutsideEnclaveAes K
  | .plain => ecallUpdatePathOutsideEnclave

def Build.putToRoot : Build bs N B → MemTree N → BlockPath → BlockKey → Block bs → World bs B →
    Option (RootPut bs N B)
  | .aes K => ecallObliviousPutToRootAes K
  | .plain => ecallObliviousPutToRoot

theorem Build.download_eq (D : Build bs N B) : D.download = downloadPath D.load (D.touch false) := by
  cases D <;> rfl

theorem Build.update_eq (D : Build bs N B) : D.update = updatePath D.store (D.touch true) := by
  cases D <;> rfl

theorem Build.putToRoot_eq (D : Build bs N B) : D.putToRoot = SgxOram.putToRoot D.load D.store D.touch := by
  cases D <;> rfl

/-! ## Flush -/

/-- The locals of the loop over `k`. -/
structure FlushLoop (bs : Nat) where
  path : Nat → Row bs
  hasFlushed : Bool
  failedFlushed : Bool

/-- `1 << k`. -/
def pathBit (k : Nat) : UInt32 := (1 : UInt32) <<< UInt32.ofNat k

/-- One pass of the loop over `k`: try to move the block of slot `j` of row `i` into row `k + 1`. -/
def flushStep (randPath : BlockPath) (blockKey : BlockKey) (blockPath : BlockPath) (block : Block bs) (i : Nat)
    (j : Fin blocksPerNode) (st : FlushLoop bs) (k : Nat) : FlushLoop bs :=
  let isPathMatch := (randPath &&& pathBit k) == (blockPath &&& pathBit k)
  let failedFlushed := st.failedFlushed || !isPathMatch
  let willInsert := !failedFlushed && !st.hasFlushed && isPathMatch
  -- `will_insert && ObliviousNodeWrite(...)`: no call without `will_insert`
  let r : WriteResult bs :=
    if willInsert then
      obliviousNodeWrite false (st.path (k + 1)) 0 (blockKey &&& negBool willInsert) blockPath block
    else ⟨st.path (k + 1), 0, false⟩
  let path := Function.update st.path (k + 1) r.row
  let s := (path i).node.slots j
  let row := (path i).setSlot j
    { s with presenceBit := s.presenceBit &&& (negBool (r.succ == false)).toUInt8 } ((path i).blocks j)
  { path := Function.update path i
      { row with node := { row.node with numBlocks := row.node.numBlocks - r.succ.toUInt32 } }
    hasFlushed := st.hasFlushed || r.succ
    failedFlushed := failedFlushed }

/-- One slot of the flush. -/
def flushSlot (height : Nat) (randPath : BlockPath) (path : Nat → Row bs) (place : Nat × Fin blocksPerNode) :
    Nat → Row bs :=
  let s := (path place.1).node.slots place.2
  if s.presenceBit = 0 then path
  else
    ((List.range' place.1 (height - 1 - place.1)).foldl
      (flushStep randPath s.blockKey s.blockPath ((path place.1).blocks place.2) place.1 place.2)
      ⟨path, false, false⟩).path

/-- The places `(i, j)` of the flush, in the order of the loops. -/
def flushPlaces (height : Nat) : List (Nat × Fin blocksPerNode) :=
  (List.range (height - 1)).flatMap fun i => (List.finRange blocksPerNode).map fun j => (i, j)

def ecallClientSimpleOramFlush (height : Nat) (randPath : BlockPath) (c : Client bs) : Client bs :=
  if height < 2 then c
  else { c with path := (flushPlaces height).foldl (flushSlot height randPath) c.path }

end SgxOram
