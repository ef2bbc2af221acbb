import Mathlib

/-!
# Configuration and data layout (`Include/Conf.h`)

* the compile-time constants. `block_size` is a `uint32_t` in the trees and the ecalls, `bs` here; the
  `uint64_t block_size_` of the ORAM objects is `BlockSize` of `App/Oram`;
* `MemTreeNode` : the plaintext of a tree node. The four parallel arrays `block_paths`,
  `block_keys`, `block_contents`, `presence_bits` are one array of `Slot`s;
* `Block bs` : the bytes of an ORAM block of `bs = block_size` bytes;
* `Row bs` : a node inside the enclave with the plaintext blocks of its slots, `client->path[h]`
  with `client->path_stash[h]`, or `temp_node` with `temp_block_content`.
-/

namespace SgxOram

abbrev BlockKey := UInt32

abbrev BlockPath := UInt32

/-- An address in the host's memory; `0` is `NULL`. -/
abbrev Addr := Nat

abbrev blocksPerNode : Nat := 4

instance : NeZero blocksPerNode := ⟨by decide⟩

abbrev clientMaxPath : Nat := 20

abbrev maxPosMap : Nat := 65536

abbrev flushThreshRoot : Nat := 1

def sgxAesgcmMacSize : Nat := 16

def sgxAesgcmIvSize : Nat := 12

/-- `sizeof(BlockPath)`. -/
def sizeofBlockPath : Nat := 4

/-- `sizeof(MemTreeNode)` on x86-64: `num_blocks`, two arrays of 32-bit words, padding to 8,
the pointers, the presence bytes, padding to 8. -/
def sizeofMemTreeNode : Nat := 4 + 4 * blocksPerNode + 4 * blocksPerNode + 4 + 8 * blocksPerNode + 8

def sizeofEncMemTreeNode : Nat := sizeofMemTreeNode + sgxAesgcmMacSize + sgxAesgcmIvSize

/-- The bytes from a pointer on. -/
abbrev Buffer := Nat → UInt8

/-- The bytes of one ORAM block. -/
abbrev Block (bs : Nat) := Fin bs → UInt8

/-- The `i`-th entries of `block_paths`, `block_keys`, `block_contents` and `presence_bits`. -/
structure Slot where
  blockPath : BlockPath
  blockKey : BlockKey
  blockContent : Addr
  presenceBit : UInt8
deriving DecidableEq

structure MemTreeNode where
  numBlocks : UInt32
  slots : Fin blocksPerNode → Slot
deriving DecidableEq

/-- A node in the enclave and the plaintext blocks of its slots. -/
structure Row (bs : Nat) where
  node : MemTreeNode
  blocks : Fin blocksPerNode → Block bs

/-- `memset(&node, 0, sizeof(MemTreeNode))`. -/
def zeroNode : MemTreeNode := ⟨0, fun _ => ⟨0, 0, 0, 0⟩⟩

/-- The 32-bit words of a node up to its pointers: `num_blocks`, `block_paths`, `block_keys`. -/
def MemTreeNode.word (node : MemTreeNode) (k : Nat) : UInt32 :=
  if k = 0 then node.numBlocks
  else if k ≤ blocksPerNode then (node.slots (Fin.ofNat blocksPerNode (k - 1))).blockPath
  else (node.slots (Fin.ofNat blocksPerNode (k - 1 - blocksPerNode))).blockKey

def MemTreeNode.setWord (node : MemTreeNode) (k : Nat) (v : UInt32) : MemTreeNode where
  numBlocks := if k = 0 then v else node.numBlocks
  slots i := { node.slots i with
    blockPath := if k = 1 + i.val then v else (node.slots i).blockPath
    blockKey := if k = 1 + blocksPerNode + i.val then v else (node.slots i).blockKey }

/-- The pointer read from the bytes `8 * i` to `8 * i + 7` of a node. -/
def MemTreeNode.loadAddr (node : MemTreeNode) (i : Fin blocksPerNode) : Addr :=
  (node.word (2 * i.val)).toNat + 2 ^ 32 * (node.word (2 * i.val + 1)).toNat

/-- The pointer `addr` stored over the bytes `8 * i` to `8 * i + 7` of a node. -/
def MemTreeNode.storeAddr (node : MemTreeNode) (i : Fin blocksPerNode) (addr : Addr) : MemTreeNode :=
  (node.setWord (2 * i.val) (UInt32.ofNat addr)).setWord (2 * i.val + 1) (UInt32.ofNat (addr / 2 ^ 32))

def zeroBlock (bs : Nat) : Block bs := fun _ => 0

/-- An ORAM block with the key and the path it is stored under. -/
structure Blk (bs : Nat) where
  key : BlockKey
  path : BlockPath
  content : Block bs

end SgxOram
