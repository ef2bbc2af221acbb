import SgxOram.Enclave.Oblivious
import SgxOram.Lib.Aead

/-!
# The enclave client of the `PATH_ORAM` build (`Enclave/Enclave_Client.cpp`, `Enclave/Enclave.cpp`)

* `Cipher` : the two uses of `encryptData` / `decryptData`, on tree nodes and on blocks;
* `Client` : the global `client`; `Host` : the host's memory outside the `nodes` arrays;
* `ecallInitClient`, `ecallDownloadPathToEnclaveClientPathOram`, `ecallObliviousFetch`,
  `ecallObliviousPutToStashPathOram`, `ecallEvictPathOutsideEnclavePathOram`.

`none` is an enclave stopped by a failing `assert`. Buffers that the source reaches through
pointers (`fetched_block`, `*encrypted_content_ptr`, `block_content`) are arguments and results.
-/

namespace SgxOram
open Lib

/-! ## Encryption -/

/-- What `encryptData` and `decryptData` are used on: tree nodes with ciphertexts `N`, blocks with
ciphertexts `B`. `zeroEncNode` and `zeroBuffer` are the zero bytes that `calloc` returns for them. -/
structure Cipher (bs : Nat) (N B : Type) where
  node : Aead MemTreeNode N
  block : Aead (Block bs) B
  zeroEncNode : N
  zeroBuffer : B

/-- The assumption that `decryptData` undoes `encryptData`. -/
structure Cipher.Correct {bs : Nat} {N B : Type} (K : Cipher bs N B) : Prop where
  node : K.node.Correct
  block : K.block.Correct

/-- The cipher that only tags its plaintexts; unwritten buffers decrypt to zeros, with an error. -/
def Cipher.pairing (bs : Nat) : Cipher bs (Option MemTreeNode) (Option (Block bs)) where
  node := Aead.pairing zeroNode
  block := Aead.pairing (zeroBlock bs)
  zeroEncNode := none
  zeroBuffer := none

theorem Cipher.pairing_correct (bs : Nat) : (Cipher.pairing bs).Correct :=
  ⟨Aead.pairing_correct _, Aead.pairing_correct _⟩

variable {α γ : Type}

def encryptData (K : Aead α γ) (iv : Nat) (decDataIn : α) : γ := K.encrypt iv decDataIn

/-- `decryptData` copies the output buffer and drops the returned status. -/
def decryptData (K : Aead α γ) (encDataIn : γ) : α := (K.decrypt encDataIn).2

/-! ## State -/

/-- A place of the server's tree: a node of the `nodes` array, or a block buffer. -/
inductive ServerPlace
  | node (index : Nat)
  | buffer (addr : Addr)
deriving DecidableEq

/-- One access to the server's tree, as the host sees it. -/
structure ServerAccess where
  place : ServerPlace
  write : Bool
  len : Nat
deriving DecidableEq

/-- The host's memory: the block buffers, the number of random draws made so far, the accesses to the
tree so far (an observation, not a field of the source), and the `fetched_block_` that each ORAM object
has allocated, by ORAM id. -/
structure Host (B : Type) where
  bufs : Addr → B
  rand : Nat
  trace : List ServerAccess
  fetched : Nat → Buffer

/-- A host whose block buffers all hold `b`, before the first access. -/
def Host.filled {B : Type} (b : B) : Host B := ⟨fun _ => b, 0, [], fun _ _ => 0⟩

/-- The global `client`. `subs` is not in the source: it records the values of `num_blocks` and
`stash_load` from which one was subtracted. -/
structure Client (bs : Nat) where
  pathMm : Nat → BlockPath
  path : Nat → Row bs
  encryptedDataAddrInPath : Nat → Fin blocksPerNode → Addr
  temp : Row bs
  clientHeighestHeight : Nat
  stashLoad : UInt32
  dummyBlock : Block bs
  subs : List UInt32

structure World (bs : Nat) (B : Type) where
  client : Client bs
  host : Host B

/-- A tree on the server. `treeId` stands for the address of `nodes`. -/
structure MemTree (N : Type) where
  treeId : Nat
  height : Nat
  nodes : Nat → N

variable {bs : Nat} {N B : Type}

/-- A client with everything zero. -/
def emptyClient (bs : Nat) : Client bs where
  pathMm _ := 0
  path _ := ⟨zeroNode, fun _ => zeroBlock bs⟩
  encryptedDataAddrInPath _ _ := 0
  temp := ⟨zeroNode, fun _ => zeroBlock bs⟩
  clientHeighestHeight := 0
  stashLoad := 0
  dummyBlock := zeroBlock bs
  subs := []

def ecallInitClient (bs height : Nat) : Option (Client bs) :=
  if height < clientMaxPath then some { emptyClient bs with clientHeighestHeight := height } else none

/-- What exchanging an entry of `path_mm` with `*block_path` leaves. The pointer `client->path` lies behind the
last entry; `keepsPath` tells whether it is as before. -/
structure ExchangedMm where
  pathMm : Nat → BlockPath
  blockPath : BlockPath
  keepsPath : Bool

/-- A way to exchange `path_mm[ind]` and `*block_path`, over the entries so far. -/
abbrev ExchangeMm := Nat → BlockPath → (Nat → BlockPath) → ExchangedMm

/-- `ecall_write_mm_in_client` as its commented reference code says: exchange `path_mm[ind]` and
`*block_path`. -/
def ecallWriteMmInClient : ExchangeMm := fun ind blockPath pathMm =>
  ⟨Function.update pathMm ind blockPath, pathMm ind, true⟩

/-- Length of an encrypted block. -/
def encBlockLen (bs : Nat) : Nat := bs + sgxAesgcmMacSize + sgxAesgcmIvSize

/-! ## Download -/

/-- The locals of a loop that writes one block into the stash. -/
structure StashLoop (bs : Nat) where
  path : Nat → Row bs
  encryptedContentPtr : Addr
  succ : Bool

/-- One pass of `for (stash_i ...)` in the download. -/
def downloadStashRow (blockKey : BlockKey) (blockPath : BlockPath) (content : Block bs)
    (st : StashLoop bs) (stashI : Nat) : StashLoop bs :=
  if st.succ then
    let r := obliviousNodeWrite true (st.path stashI) st.encryptedContentPtr 0 blockPath content
    { path := Function.update st.path stashI r.row, encryptedContentPtr := r.encryptedContentPtr,
      succ := st.succ }
  else
    let r := obliviousNodeWrite true (st.path stashI) st.encryptedContentPtr blockKey blockPath content
    { path := Function.update st.path stashI r.row, encryptedContentPtr := r.encryptedContentPtr,
      succ := r.succ }

/-- `client->encrypted_data_addr_in_path[h][i] = addr`. The table has `CLIENT_MAX_PATH` rows, and the
next word of `Client` is the pointer `temp_node`: at `h = CLIENT_MAX_PATH` the store goes into
`*temp_node`. What a store behind that hits is not modelled. -/
def backUpAddr (h : Nat) (i : Fin blocksPerNode) (addr : Addr) (c : Client bs) : Option (Client bs) :=
  if h < clientMaxPath then
    some { c with
      encryptedDataAddrInPath := Function.update c.encryptedDataAddrInPath h
        (Function.update (c.encryptedDataAddrInPath h) i addr) }
  else if h = clientMaxPath then
    some { c with temp := { c.temp with node := c.temp.node.storeAddr i addr } }
  else none

/-- `client->encrypted_data_addr_in_path[h][i]`, with `*temp_node` as the row `CLIENT_MAX_PATH`. -/
def backedUpAddr (h : Nat) (c : Client bs) (i : Fin blocksPerNode) : Addr :=
  if h < clientMaxPath then c.encryptedDataAddrInPath h i else c.temp.node.loadAddr i

/-- One slot of the downloaded node in `temp_node`. -/
def downloadSlot (K : Cipher bs N B) (h : Nat) (w : World bs B) (i : Fin blocksPerNode) :
    Option (World bs B) := do
  let c ← backUpAddr h i (w.client.temp.node.slots i).blockContent w.client
  let s := c.temp.node.slots i
  let content := decryptData K.block (w.host.bufs s.blockContent)
  let st := (List.range clientMaxPath).foldl (downloadStashRow s.blockKey s.blockPath content)
    ⟨c.path, s.blockContent, false⟩
  let c' : Client bs :=
    { c with
      temp :=
        { node := { c.temp.node with
            slots := Function.update c.temp.node.slots i { s with blockContent := st.encryptedContentPtr } }
          blocks := Function.update c.temp.blocks 0 content }
      path := st.path
      stashLoad := if s.blockKey ≠ 0 then c.stashLoad + 1 else c.stashLoad }
  let host' := { w.host with
    trace := w.host.trace ++ [⟨.buffer s.blockContent, false, encBlockLen bs⟩] }
  -- assert(client->temp_node->block_keys[i] == 0 || succ)
  if s.blockKey = 0 ∨ st.succ then some ⟨c', host'⟩ else none

/-- The locals of the loops over the levels of a path. -/
structure LevelLoop (bs : Nat) (B : Type) where
  world : World bs B
  addr : UInt32
  treePath : UInt32

/-- One level of the download. -/
def downloadLevel (K : Cipher bs N B) (t : MemTree N) (l : LevelLoop bs B) (h : Nat) :
    Option (LevelLoop bs B) := do
  let w := l.world
  let tempNode := decryptData K.node (t.nodes l.addr.toNat)
  let host' := { w.host with
    trace := w.host.trace ++ [⟨.node l.addr.toNat, false, sizeofEncMemTreeNode⟩] }
  let w := { w with client := { w.client with temp := { w.client.temp with node := tempNode } }, host := host' }
  let w ← (List.finRange blocksPerNode).foldlM (downloadSlot K h) w
  return ⟨w, l.addr * 2 + 1 + l.treePath % 2, l.treePath / 2⟩

def ecallDownloadPathToEnclaveClientPathOram (K : Cipher bs N B) (t : MemTree N)
    (blockPath : BlockPath) (w : World bs B) : Option (World bs B) :=
  ((List.range t.height).foldlM (downloadLevel K t) ⟨w, 0, blockPath⟩).map LevelLoop.world

/-! ## Fetch -/

/-- The locals of `ecall_oblivious_fetch`. -/
structure FetchLoop (bs : Nat) where
  path : Nat → Row bs
  fetchedBlock : Block bs
  encryptedContentPtr : Addr
  succ : Bool
  subs : List UInt32

/-- `succ = succ || ObliviousNodeRead(...)`: no row is read after the first success. -/
def fetchRow (pathOram : Bool) (blockKey : BlockKey) (st : FetchLoop bs) (h : Nat) : FetchLoop bs :=
  if st.succ then st
  else
    let r := obliviousNodeRead pathOram (st.path h) blockKey st.fetchedBlock st.encryptedContentPtr
    { path := Function.update st.path h r.row, fetchedBlock := r.fetchedBlock,
      encryptedContentPtr := r.encryptedContentPtr, succ := r.succ, subs := st.subs ++ r.subs }

/-- What `ecall_oblivious_fetch` leaves in the client, in `fetched_block` and in
`*encrypted_content_ptr`; `succ` is its local. -/
structure FetchResult (bs : Nat) where
  client : Client bs
  fetchedBlock : Block bs
  encryptedContentPtr : Addr
  succ : Bool

def ecallObliviousFetch (pathOram : Bool) (blockKey : BlockKey) (encryptedContentPtr : Addr)
    (c : Client bs) : FetchResult bs :=
  let st := (List.range clientMaxPath).foldl (fetchRow pathOram blockKey)
    ⟨c.path, zeroBlock bs, encryptedContentPtr, false, []⟩
  let c := { c with path := st.path, subs := c.subs ++ st.subs }
  let c := if st.succ then { c with stashLoad := c.stashLoad - 1, subs := c.subs ++ [c.stashLoad] } else c
  ⟨c, st.fetchedBlock, st.encryptedContentPtr, st.succ⟩

/-! ## Put -/

/-- One pass of the loop of `ecall_oblivious_put_to_stash_path_oram`. -/
def putStashRow (blockKey : BlockKey) (blockPath : BlockPath) (content : Block bs)
    (st : StashLoop bs) (h : Nat) : StashLoop bs :=
  if !st.succ && decide ((st.path h).node.numBlocks.toNat < blocksPerNode) then
    let r := obliviousNodeWrite true (st.path h) st.encryptedContentPtr blockKey blockPath content
    { path := Function.update st.path h r.row, encryptedContentPtr := r.encryptedContentPtr,
      succ := r.succ }
  else
    let r := obliviousNodeWrite true (st.path h) st.encryptedContentPtr 0 blockPath content
    { path := Function.update st.path h r.row, encryptedContentPtr := r.encryptedContentPtr,
      succ := st.succ }

/-- The client, `*encrypted_content_ptr` and `*root_load` after the put. -/
structure PutResult (bs : Nat) where
  client : Client bs
  encryptedContentPtr : Addr
  rootLoad : UInt32

def ecallObliviousPutToStashPathOram (blockPath : BlockPath) (blockKey : BlockKey)
    (encryptedContentPtr : Addr) (blockContent : Block bs) (c : Client bs) : Option (PutResult bs) :=
  let st := (List.range clientMaxPath).foldl (putStashRow blockKey blockPath blockContent)
    ⟨c.path, encryptedContentPtr, false⟩
  let c := { c with path := st.path, stashLoad := c.stashLoad + 1 }
  -- assert(succ)
  if st.succ then some ⟨c, st.encryptedContentPtr, c.stashLoad⟩ else none

/-! ## Evict -/

/-- The table `addr` filled by the first loop of the eviction. -/
def evictAddrTable (height : Nat) (blockPath : BlockPath) : Nat → UInt32 :=
  ((List.range height).foldl
    (fun (st : (Nat → UInt32) × UInt32) h =>
      (Function.update st.1 (h + 1) (st.1 h * 2 + 1 + st.2 % 2), st.2 / 2))
    (fun _ => 0, blockPath)).1

/-- `path_mask` at level `h`. -/
def pathMask (h : Nat) : UInt32 := ((1 : UInt32) <<< UInt32.ofNat h) - 1

/-- The places `(stash_i, stash_j)` in the order of the two scanning loops. -/
def stashPlaces : List (Nat × Fin blocksPerNode) :=
  (List.range clientMaxPath).flatMap fun stashI => (List.finRange blocksPerNode).map fun stashJ => (stashI, stashJ)

/-- One pass of the scanning loops at level `h`. -/
def evictSlot (h : Nat) (treePath : BlockPath) (c : Client bs) (place : Nat × Fin blocksPerNode) :
    Client bs :=
  let row := c.path place.1
  let s := row.node.slots place.2
  let sign : Bool := (s.blockPath &&& pathMask h) == (treePath &&& pathMask h) &&
    decide (c.temp.node.numBlocks.toNat < blocksPerNode) && decide (s.presenceBit > 0)
  let temp := obliviousNodeTransfer true c.temp s.blockKey s.blockPath s.blockContent
    (row.blocks place.2) sign
  if sign then
    let row' := row.setSlot place.2 { s with presenceBit := 0 } (row.blocks place.2)
    { c with
      temp := temp
      path := Function.update c.path place.1
        { row' with node := { row'.node with numBlocks := row.node.numBlocks - 1 } }
      stashLoad := c.stashLoad - 1
      subs := c.subs ++ [row.node.numBlocks, c.stashLoad] }
  else { c with temp := temp }

/-- The two scanning loops at level `h`, over a cleared `temp_node`. -/
def evictScan (h : Nat) (treePath : BlockPath) (c : Client bs) : Client bs :=
  stashPlaces.foldl (evictSlot h treePath) { c with temp := { c.temp with node := zeroNode } }

/-- `client->temp_node->block_contents[i] = client->encrypted_data_addr_in_path[h][i]` for all `i`. -/
def restoreAddrs (h : Nat) (c : Client bs) : Client bs :=
  { c with temp := { c.temp with node := { c.temp.node with
      slots := fun i => { c.temp.node.slots i with blockContent := backedUpAddr h c i } } } }

/-- The ciphertext of slot `i` goes to the slot's buffer, a dummy block's if the slot is empty. -/
def evictWriteBuffer (K : Cipher bs N B) (c : Client bs) (host : Host B) (i : Fin blocksPerNode) :
    Host B :=
  let s := c.temp.node.slots i
  let plain := if s.presenceBit = 0 then c.dummyBlock else c.temp.blocks i
  { host with
    bufs := Function.update host.bufs s.blockContent (encryptData K.block host.rand plain)
    rand := host.rand + 1
    trace := host.trace ++ [⟨.buffer s.blockContent, true, encBlockLen bs⟩] }

/-- One level of the eviction. -/
def evictLevel (K : Cipher bs N B) (addr : Nat → UInt32) (treePath : BlockPath)
    (tw : MemTree N × World bs B) (h : Nat) : MemTree N × World bs B :=
  let c := restoreAddrs h (evictScan h treePath tw.2.client)
  let host := tw.2.host
  let t := { tw.1 with
    nodes := Function.update tw.1.nodes (addr h).toNat (encryptData K.node host.rand c.temp.node) }
  let host := { host with
    rand := host.rand + 1
    trace := host.trace ++ [⟨.node (addr h).toNat, true, sizeofEncMemTreeNode⟩] }
  (t, ⟨c, (List.finRange blocksPerNode).foldl (evictWriteBuffer K c) host⟩)

def ecallEvictPathOutsideEnclavePathOram (K : Cipher bs N B) (t : MemTree N) (blockPath : BlockPath)
    (w : World bs B) : MemTree N × World bs B :=
  (List.range t.height).reverse.foldl
    (evictLevel K (evictAddrTable t.height blockPath) blockPath) (t, w)

end SgxOram
