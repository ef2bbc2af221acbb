import SgxOram.Conf
import SgxOram.Lib.Mask

/-!
# Oblivious node operations (`Enclave/Enclave_ObliviousFunctions.cpp`)

`ObliviousNodeRead`, `ObliviousNodeTransfer` and `ObliviousNodeWrite` select slots with masks
instead of branches: a condition is an all-ones or an all-zero word, a field is rewritten as
`(new & mask) | (old & ~mask)`. The three loops run over all slots of one node; the model of the
call takes that node with its blocks (a `Row`) and gives it back.

`pathOram` is the `PATH_ORAM` build switch.
-/

namespace SgxOram
open Lib

variable {bs : Nat}

/-- One word of `ocopy`: bytes `8 count .. 8 count + 7`. -/
def ocopyWord (cond : UInt64) (src dest : Block bs) (count : Nat) : Block bs :=
  fun j => if j.val / 8 = count ∧ cond ≠ 0 then src j else dest j

/-- `ocopy(cond, src, dest, len)`. The loop tests its condition after the body, so it makes at
least one pass. -/
def ocopy (cond : UInt64) (src dest : Block bs) (len : Nat) : Block bs :=
  (List.range (max len 1)).foldl (ocopyWord cond src) dest

/-- The fields of slot `i` that both writing loops update under `maskedSign`. -/
def maskedSlot (maskedSign blockKey : BlockKey) (blockPath : BlockPath) (s : Slot) : Slot :=
  { s with
    blockKey := maskedSelect maskedSign blockKey s.blockKey
    blockPath := maskedSelect maskedSign blockPath s.blockPath
    presenceBit := (maskedSelect maskedSign 1 s.presenceBit.toUInt32).toUInt8 }

/-- Write one slot of a row back. -/
def Row.setSlot (r : Row bs) (i : Fin blocksPerNode) (s : Slot) (content : Block bs) : Row bs :=
  { node := { r.node with slots := Function.update r.node.slots i s }
    blocks := Function.update r.blocks i content }

/-! ## ObliviousNodeRead -/

/-- The locals of `ObliviousNodeRead`. `subs` is not in the source: it records the values of
`num_blocks` from which one was subtracted. -/
structure ReadState (bs : Nat) where
  row : Row bs
  regNumBlocks : UInt32
  fetchedBlock : Block bs
  encryptedContentPtr : Addr
  succ : Bool
  subs : List UInt32

def obliviousNodeReadSlot (pathOram : Bool) (blockKey : BlockKey) (st : ReadState bs)
    (i : Fin blocksPerNode) : ReadState bs :=
  let s := st.row.node.slots i
  let sign : Bool := s.blockKey == blockKey && decide (s.presenceBit > 0)
  let regKey := s.blockKey - (s.blockKey &&& sign.toUInt32)
  let regNumBlocks := st.regNumBlocks - (1 &&& sign.toUInt32)
  let regPresence := s.presenceBit - (s.presenceBit &&& sign.toUInt8)
  let row := st.row.setSlot i { s with blockKey := regKey, presenceBit := regPresence } (st.row.blocks i)
  { row := { row with node := { row.node with numBlocks := regNumBlocks } }
    regNumBlocks := regNumBlocks
    fetchedBlock := ocopy sign.toUInt64 (st.row.blocks i) st.fetchedBlock (bs / 8)
    encryptedContentPtr := if pathOram && sign then s.blockContent else st.encryptedContentPtr
    succ := st.succ || sign
    subs := if sign then st.subs ++ [st.regNumBlocks] else st.subs }

/-- `ObliviousNodeRead` on the row at the given depth. -/
def obliviousNodeRead (pathOram : Bool) (row : Row bs) (blockKey : BlockKey) (fetchedBlock : Block bs)
    (encryptedContentPtr : Addr) : ReadState bs :=
  (List.finRange blocksPerNode).foldl (obliviousNodeReadSlot pathOram blockKey)
    ⟨row, row.node.numBlocks, fetchedBlock, encryptedContentPtr, false, []⟩

/-! ## ObliviousNodeTransfer -/

structure TransferState (bs : Nat) where
  temp : Row bs
  mask : BlockKey

def obliviousNodeTransferSlot (pathOram : Bool) (blockKey : BlockKey) (blockPath : BlockPath)
    (encryptedContentPtr : Addr) (blockContent : Block bs) (st : TransferState bs)
    (i : Fin blocksPerNode) : TransferState bs :=
  let s := st.temp.node.slots i
  let sign := negBool (s.presenceBit == 0)
  let maskedSign := sign &&& ~~~st.mask
  let s' := maskedSlot maskedSign blockKey blockPath s
  let s' := if pathOram && maskedSign != 0 then { s' with blockContent := encryptedContentPtr } else s'
  let temp := st.temp.setSlot i s' (ocopy maskedSign.toUInt64 blockContent (st.temp.blocks i) (bs / 8))
  { temp :=
      { temp with node :=
          { temp.node with numBlocks := temp.node.numBlocks + (maskedSign != 0).toUInt32 } }
    mask := st.mask ||| maskedSign }

/-- `ObliviousNodeTransfer` into `temp_node`; the call returns its argument `input_sign`. -/
def obliviousNodeTransfer (pathOram : Bool) (temp : Row bs) (blockKey : BlockKey)
    (blockPath : BlockPath) (encryptedContentPtr : Addr) (blockContent : Block bs)
    (inputSign : Bool) : Row bs :=
  ((List.finRange blocksPerNode).foldl
    (obliviousNodeTransferSlot pathOram blockKey blockPath encryptedContentPtr blockContent)
    ⟨temp, negBool (inputSign == false)⟩).temp

/-! ## ObliviousNodeWrite -/

structure WriteState (bs : Nat) where
  row : Row bs
  encryptedContentPtr : Addr
  mask : BlockKey

def obliviousNodeWriteSlot (pathOram : Bool) (blockKey : BlockKey) (blockPath : BlockPath)
    (blockContent : Block bs) (st : WriteState bs) (i : Fin blocksPerNode) : WriteState bs :=
  let s := st.row.node.slots i
  let sign := negBool (s.presenceBit == 0)
  let maskedSign := sign &&& ~~~st.mask
  let swap := pathOram && maskedSign != 0
  let s' := maskedSlot maskedSign blockKey blockPath s
  let s' := if swap then { s' with blockContent := st.encryptedContentPtr } else s'
  { row := st.row.setSlot i s' (ocopy maskedSign.toUInt64 blockContent (st.row.blocks i) (bs / 8))
    encryptedContentPtr := if swap then s.blockContent else st.encryptedContentPtr
    mask := st.mask ||| sign }

/-- What `ObliviousNodeWrite` leaves behind: the row, `*encrypted_content_ptr`, the result. -/
structure WriteResult (bs : Nat) where
  row : Row bs
  encryptedContentPtr : Addr
  succ : Bool

/-- `ObliviousNodeWrite` on the row at the given depth. -/
def obliviousNodeWrite (pathOram : Bool) (row : Row bs) (encryptedContentPtr : Addr)
    (blockKey : BlockKey) (blockPath : BlockPath) (blockContent : Block bs) : WriteResult bs :=
  let isFailed : Bool := blockKey == 0 || decide (row.node.numBlocks.toNat ≥ blocksPerNode)
  let st := (List.finRange blocksPerNode).foldl
    (obliviousNodeWriteSlot pathOram blockKey blockPath blockContent)
    ⟨row, encryptedContentPtr, negBool isFailed⟩
  { row :=
      { st.row with node :=
          { st.row.node with numBlocks := st.row.node.numBlocks + if isFailed then 0 else 1 } }
    encryptedContentPtr := st.encryptedContentPtr
    succ := !isFailed }

end SgxOram
