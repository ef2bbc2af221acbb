import SgxOram.Enclave.Oblivious
import SgxOram.Lib.Bag
import SgxOram.Lib.Loop

/-!
# What the oblivious node operations do

The masked loops, read as operations on one slot:

* `ocopy_eq` : the word loop copies the whole block or nothing;
* `Row.blk r i` : the block in slot `i`, `Row.bag` : the blocks of a row; `Row.Counts` : `num_blocks`
  counts them, `Row.Wf` : besides, presence bits are 0 or 1 and present keys are nonzero;
* `obliviousNodeWrite_of_failed`, `obliviousNodeWrite_of_first` : a write changes nothing or the
  first empty slot; `obliviousNodeWrite_bag` : on the bag of the row;
* `obliviousNodeTransfer_of_first` : the same for the transfer into `temp_node`;
* `obliviousNodeRead_of_absent`, `obliviousNodeRead_of_mem` : a read of a key that the row does not
  hold, or holds once; `obliviousNodeRead_succ_iff`, `obliviousNodeRead_some`, `obliviousNodeRead_blk` : a read
  of a key that the row holds any number of times;
* `Row.SameAddrs` : the buffers that a row names;
* `nodeOperations_atomic` : write, transfer and read on one node together.
-/

namespace SgxOram
open Lib

variable {bs : Nat}

/-! ## `ocopy` -/

theorem foldl_ocopyWord (cond : UInt64) (src dest : Block bs) (n : Nat) (j : Fin bs) :
    (List.range n).foldl (ocopyWord cond src) dest j =
      if j.val / 8 < n ∧ cond ≠ 0 then src j else dest j := by
  induction n with
  | zero => simp
  | succ n ih =>
    rw [List.range_succ, List.foldl_append, List.foldl_cons, List.foldl_nil, ocopyWord, ih]
    by_cases hc : cond = 0
    · simp [hc]
    · simp only [hc, ne_eq, not_false_eq_true, and_true, Nat.lt_succ_iff_lt_or_eq]
      split_ifs <;> first | rfl | omega

/-- The word loop copies the whole block or nothing. -/
theorem ocopy_eq (h8 : 8 ∣ bs) (cond : UInt64) (src dest : Block bs) :
    ocopy cond src dest (bs / 8) = if cond = 0 then dest else src := by
  funext j
  have hj : j.val / 8 < max (bs / 8) 1 := by
    have := j.isLt
    have := Nat.div_mul_cancel h8
    omega
  rw [ocopy, foldl_ocopyWord]
  by_cases hc : cond = 0 <;> simp [hc, hj]

theorem ocopy_zero (src dest : Block bs) (n : Nat) : ocopy 0 src dest n = dest := by
  funext j
  rw [ocopy, foldl_ocopyWord]
  simp

/-! ## Rows -/

/-- The block in slot `i`. -/
def Row.blk (r : Row bs) (i : Fin blocksPerNode) : Option (Blk bs) :=
  if (r.node.slots i).presenceBit = 0 then none
  else some ⟨(r.node.slots i).blockKey, (r.node.slots i).blockPath, r.blocks i⟩

/-- The blocks of a row. -/
def Row.bag (r : Row bs) : Multiset (Blk bs) := Lib.bag r.blk

/-- The slot flags of a row are truthful. -/
structure Row.Wf (r : Row bs) : Prop where
  bit : ∀ i, (r.node.slots i).presenceBit = 0 ∨ (r.node.slots i).presenceBit = 1
  key_ne_zero : ∀ i, (r.node.slots i).presenceBit ≠ 0 → (r.node.slots i).blockKey ≠ 0
  count : r.node.numBlocks.toNat = r.bag.card

/-- `num_blocks` counts the present slots. -/
def Row.Counts (r : Row bs) : Prop := r.node.numBlocks.toNat = r.bag.card

theorem Row.blk_eq_none {r : Row bs} {i : Fin blocksPerNode} :
    r.blk i = none ↔ (r.node.slots i).presenceBit = 0 := by
  unfold Row.blk
  split <;> simp_all

theorem Row.blk_of_present {r : Row bs} {i : Fin blocksPerNode}
    (h : (r.node.slots i).presenceBit ≠ 0) :
    r.blk i = some ⟨(r.node.slots i).blockKey, (r.node.slots i).blockPath, r.blocks i⟩ :=
  if_neg h

theorem Row.blk_eq_some {r : Row bs} {i : Fin blocksPerNode} {b : Blk bs} :
    r.blk i = some b ↔ (r.node.slots i).presenceBit ≠ 0 ∧ (r.node.slots i).blockKey = b.key ∧
      (r.node.slots i).blockPath = b.path ∧ r.blocks i = b.content := by
  unfold Row.blk
  split
  · simp_all
  · cases b
    simp_all

theorem Row.mem_bag {r : Row bs} {b : Blk bs} : b ∈ r.bag ↔ ∃ i, r.blk i = some b := Lib.mem_bag

theorem Row.card_bag (r : Row bs) :
    r.bag.card = (Finset.univ.filter fun i => (r.node.slots i).presenceBit ≠ 0).card := by
  rw [Row.bag, Lib.card_bag, Finset.card_filter]
  refine Finset.sum_congr rfl fun i _ => ?_
  by_cases h : (r.node.slots i).presenceBit = 0
  · simp [Row.blk_eq_none.mpr h, h]
  · simp [Row.blk_of_present h, h]

theorem Row.card_bag_le (r : Row bs) : r.bag.card ≤ blocksPerNode := by
  simpa [Row.bag] using Lib.card_bag_le r.blk

theorem Row.Counts.numBlocks_le {r : Row bs} (h : r.Counts) : r.node.numBlocks.toNat ≤ blocksPerNode :=
  h ▸ r.card_bag_le

/-- A row has room exactly when it has an empty slot. -/
theorem Row.Counts.lt_iff {r : Row bs} (h : r.Counts) :
    r.node.numBlocks.toNat < blocksPerNode ↔ ∃ i, (r.node.slots i).presenceBit = 0 := by
  rw [Row.Counts, Row.card_bag] at h
  rw [h]
  constructor
  · intro hlt
    by_contra hfull
    push Not at hfull
    rw [Finset.filter_true_of_mem fun i _ => hfull i] at hlt
    exact absurd hlt (by decide)
  · rintro ⟨i, hi⟩
    have hsub := Finset.card_lt_card (Finset.filter_ssubset (p := fun i => (r.node.slots i).presenceBit ≠ 0)
      |>.mpr ⟨i, Finset.mem_univ i, not_not.mpr hi⟩)
    simpa using hsub

theorem Row.bag_of_empty {r : Row bs} (h : ∀ i, (r.node.slots i).presenceBit = 0) : r.bag = 0 :=
  bag_eq_zero fun i => Row.blk_eq_none.mpr (h i)

@[simp] theorem Row.setSlot_self (r : Row bs) (i : Fin blocksPerNode) :
    r.setSlot i (r.node.slots i) (r.blocks i) = r := by
  simp [Row.setSlot]

@[simp] theorem Row.setSlot_slots (r : Row bs) (i : Fin blocksPerNode) (s : Slot) (c : Block bs) :
    (r.setSlot i s c).node.slots = Function.update r.node.slots i s := rfl

@[simp] theorem Row.setSlot_blocks (r : Row bs) (i : Fin blocksPerNode) (s : Slot) (c : Block bs) :
    (r.setSlot i s c).blocks = Function.update r.blocks i c := rfl

@[simp] theorem Row.setSlot_numBlocks (r : Row bs) (i : Fin blocksPerNode) (s : Slot) (c : Block bs) :
    (r.setSlot i s c).node.numBlocks = r.node.numBlocks := rfl

/-- Set `num_blocks` of a row. -/
def Row.setNumBlocks (r : Row bs) (n : UInt32) : Row bs := { r with node := { r.node with numBlocks := n } }

@[simp] theorem Row.setNumBlocks_slots (r : Row bs) (n : UInt32) :
    (r.setNumBlocks n).node.slots = r.node.slots := rfl

@[simp] theorem Row.setNumBlocks_blocks (r : Row bs) (n : UInt32) :
    (r.setNumBlocks n).blocks = r.blocks := rfl

@[simp] theorem Row.setNumBlocks_numBlocks (r : Row bs) (n : UInt32) :
    (r.setNumBlocks n).node.numBlocks = n := rfl

@[simp] theorem Row.blk_setNumBlocks (r : Row bs) (n : UInt32) : (r.setNumBlocks n).blk = r.blk := rfl

@[simp] theorem Row.bag_setNumBlocks (r : Row bs) (n : UInt32) : (r.setNumBlocks n).bag = r.bag := rfl

theorem Row.blk_setSlot (r : Row bs) (i : Fin blocksPerNode) (s : Slot) (c : Block bs) :
    (r.setSlot i s c).blk = Function.update r.blk i
      (if s.presenceBit = 0 then none else some ⟨s.blockKey, s.blockPath, c⟩) := by
  funext j
  by_cases hj : j = i
  · subst hj
    simp [Row.blk]
  · simp [Row.blk, Function.update_of_ne hj]

/-- Filling an empty slot with a present block. -/
theorem Row.bag_setSlot_of_empty {r : Row bs} {i : Fin blocksPerNode}
    (h : (r.node.slots i).presenceBit = 0) {s : Slot} (hs : s.presenceBit ≠ 0) (c : Block bs) :
    (r.setSlot i s c).bag = r.bag + {⟨s.blockKey, s.blockPath, c⟩} := by
  rw [Row.bag, Row.blk_setSlot, if_neg hs]
  exact bag_update_of_empty (Row.blk_eq_none.mpr h) _

/-- Emptying a slot. -/
theorem Row.bag_setSlot_of_present {r : Row bs} {i : Fin blocksPerNode} {b : Blk bs}
    (h : r.blk i = some b) {s : Slot} (hs : s.presenceBit = 0) (c : Block bs) :
    (r.setSlot i s c).bag + {b} = r.bag := by
  rw [Row.bag, Row.blk_setSlot, if_pos hs]
  exact bag_update_none h

theorem Row.Wf.of_empty {r : Row bs} (h : ∀ i, (r.node.slots i).presenceBit = 0)
    (h0 : r.node.numBlocks = 0) : r.Wf where
  bit i := Or.inl (h i)
  key_ne_zero i hi := absurd (h i) hi
  count := by rw [h0, Row.bag_of_empty h]; rfl

theorem Row.Counts.fill {r : Row bs} (h : r.Counts) {i : Fin blocksPerNode}
    (hi : (r.node.slots i).presenceBit = 0) (hlt : r.node.numBlocks.toNat < blocksPerNode) {s : Slot}
    (hs : s.presenceBit ≠ 0) (c : Block bs) : ((r.setSlot i s c).setNumBlocks (r.node.numBlocks + 1)).Counts := by
  have h4 : r.node.numBlocks.toNat < 4 := hlt
  rw [Row.Counts, Row.bag_setNumBlocks, Row.bag_setSlot_of_empty hi hs, Row.setNumBlocks_numBlocks, Multiset.card_add,
    Multiset.card_singleton, ← show r.node.numBlocks.toNat = r.bag.card from h, UInt32.toNat_add]
  exact Nat.mod_eq_of_lt (by simp; omega)

theorem Row.Counts.clear {r : Row bs} (h : r.Counts) {i : Fin blocksPerNode} {b : Blk bs}
    (hb : r.blk i = some b) {s : Slot} (hs : s.presenceBit = 0) (c : Block bs) :
    ((r.setSlot i s c).setNumBlocks (r.node.numBlocks - 1)).Counts := by
  have hbag := congrArg Multiset.card (Row.bag_setSlot_of_present hb hs c)
  rw [Multiset.card_add, Multiset.card_singleton, ← show r.node.numBlocks.toNat = r.bag.card from h] at hbag
  have hone : (1 : UInt32) ≤ r.node.numBlocks := by
    rw [UInt32.le_iff_toNat_le]
    simp; omega
  rw [Row.Counts, Row.bag_setNumBlocks, Row.setNumBlocks_numBlocks, UInt32.toNat_sub_of_le _ _ hone]
  simp; omega

/-- Filling an empty slot and counting it. -/
theorem Row.Wf.fill {r : Row bs} (h : r.Wf) {i : Fin blocksPerNode}
    (hi : (r.node.slots i).presenceBit = 0) (hlt : r.node.numBlocks.toNat < blocksPerNode) {s : Slot}
    (hs : s.presenceBit = 1) (hk : s.blockKey ≠ 0) (c : Block bs) :
    ((r.setSlot i s c).setNumBlocks (r.node.numBlocks + 1)).Wf where
  bit j := by
    by_cases hj : j = i
    · subst hj; simp [hs]
    · simpa [Function.update_of_ne hj] using h.bit j
  key_ne_zero j hj := by
    by_cases hji : j = i
    · subst hji; simpa using hk
    · simpa [Function.update_of_ne hji] using h.key_ne_zero j (by simpa [Function.update_of_ne hji] using hj)
  count := Row.Counts.fill h.count hi hlt (by rw [hs]; decide) c

/-- Emptying a slot and discounting it. -/
theorem Row.Wf.clear {r : Row bs} (h : r.Wf) {i : Fin blocksPerNode} {b : Blk bs}
    (hb : r.blk i = some b) {s : Slot} (hs : s.presenceBit = 0) (c : Block bs) :
    ((r.setSlot i s c).setNumBlocks (r.node.numBlocks - 1)).Wf where
  bit j := by
    by_cases hj : j = i
    · subst hj; simp [hs]
    · simpa [Function.update_of_ne hj] using h.bit j
  key_ne_zero j hj := by
    by_cases hji : j = i
    · subst hji; simp [hs] at hj
    · simpa [Function.update_of_ne hji] using h.key_ne_zero j (by simpa [Function.update_of_ne hji] using hj)
  count := Row.Counts.clear h.count hb hs c

/-! ## ObliviousNodeWrite -/

@[simp] theorem maskedSlot_zero (key : BlockKey) (path : BlockPath) (s : Slot) :
    maskedSlot 0 key path s = s := by
  simp [maskedSlot]

@[simp] theorem maskedSlot_ones (key : BlockKey) (path : BlockPath) (s : Slot) :
    maskedSlot (-1) key path s =
      { s with blockKey := key, blockPath := path, presenceBit := 1 } := by
  simp [maskedSlot]

/-- The slot that a write leaves: with `PATH_ORAM` the caller's pointer replaces the slot's. -/
def newSlot (pathOram : Bool) (ptr : Addr) (key : BlockKey) (path : BlockPath) (s : Slot) : Slot :=
  ⟨path, key, if pathOram then ptr else s.blockContent, 1⟩

theorem newSlot_present (pathOram : Bool) (ptr : Addr) (key : BlockKey) (path : BlockPath) (s : Slot) :
    (newSlot pathOram ptr key path s).presenceBit ≠ 0 :=
  show (1 : UInt8) ≠ 0 by decide

theorem obliviousNodeWriteSlot_done (pathOram : Bool) (key : BlockKey) (path : BlockPath)
    (content : Block bs) (row : Row bs) (ptr : Addr) (i : Fin blocksPerNode) :
    obliviousNodeWriteSlot pathOram key path content ⟨row, ptr, -1⟩ i = ⟨row, ptr, -1⟩ := by
  simp [obliviousNodeWriteSlot, ocopy_zero]

theorem obliviousNodeWriteSlot_present (pathOram : Bool) (key : BlockKey) (path : BlockPath)
    (content : Block bs) {row : Row bs} (ptr : Addr) {i : Fin blocksPerNode}
    (hi : (row.node.slots i).presenceBit ≠ 0) :
    obliviousNodeWriteSlot pathOram key path content ⟨row, ptr, 0⟩ i = ⟨row, ptr, 0⟩ := by
  have hb : ((row.node.slots i).presenceBit == 0) = false := by simpa using hi
  simp [obliviousNodeWriteSlot, hb, ocopy_zero]

theorem obliviousNodeWriteSlot_empty (h8 : 8 ∣ bs) (pathOram : Bool) (key : BlockKey)
    (path : BlockPath) (content : Block bs) {row : Row bs} (ptr : Addr) {i : Fin blocksPerNode}
    (hi : (row.node.slots i).presenceBit = 0) :
    obliviousNodeWriteSlot pathOram key path content ⟨row, ptr, 0⟩ i =
      ⟨row.setSlot i (newSlot pathOram ptr key path (row.node.slots i)) content,
        if pathOram then (row.node.slots i).blockContent else ptr, -1⟩ := by
  have hne : ¬ (-1 : UInt64) % 4294967296 = 0 := by decide
  cases pathOram <;> simp [obliviousNodeWriteSlot, hi, ocopy_eq h8, newSlot, hne]

theorem obliviousNodeWrite_of_failed (pathOram : Bool) (row : Row bs) (ptr : Addr) (key : BlockKey)
    (path : BlockPath) (content : Block bs) (h : key = 0 ∨ blocksPerNode ≤ row.node.numBlocks.toNat) :
    obliviousNodeWrite pathOram row ptr key path content = ⟨row, ptr, false⟩ := by
  have hf : (key == 0 || decide (row.node.numBlocks.toNat ≥ blocksPerNode)) = true := by simpa using h
  simp only [obliviousNodeWrite, hf, negBool_true]
  rw [foldl_idle fun i _ => obliviousNodeWriteSlot_done pathOram key path content row ptr i]
  simp

/-- A write of a nonzero key to a row with room changes exactly the first empty slot. -/
theorem obliviousNodeWrite_of_first (h8 : 8 ∣ bs) (pathOram : Bool) {row : Row bs} (hcount : row.Counts)
    (ptr : Addr) {key : BlockKey} (path : BlockPath) (content : Block bs) (hkey : key ≠ 0)
    (hlt : row.node.numBlocks.toNat < blocksPerNode) :
    ∃ i, (row.node.slots i).presenceBit = 0 ∧ (∀ j < i, (row.node.slots j).presenceBit ≠ 0) ∧
      obliviousNodeWrite pathOram row ptr key path content =
        ⟨(row.setSlot i (newSlot pathOram ptr key path (row.node.slots i)) content).setNumBlocks
            (row.node.numBlocks + 1),
          if pathOram then (row.node.slots i).blockContent else ptr, true⟩ := by
  have hf : (key == 0 || decide (row.node.numBlocks.toNat ≥ blocksPerNode)) = false := by
    simpa using ⟨hkey, hlt⟩
  rcases exists_first_fin fun i => (row.node.slots i).presenceBit = 0 with
    hnone | ⟨l₁, i, l₂, hl, hi, h₁, hmin⟩
  · obtain ⟨i, hi⟩ := hcount.lt_iff.mp hlt
    exact absurd hi (hnone i)
  · refine ⟨i, hi, hmin, ?_⟩
    simp only [obliviousNodeWrite, hf, negBool_false]
    rw [hl, foldl_single (fun j hj => obliviousNodeWriteSlot_present pathOram key path content ptr (h₁ j hj))
      (obliviousNodeWriteSlot_empty h8 pathOram key path content ptr hi)
      (fun j _ => obliviousNodeWriteSlot_done pathOram key path content _ _ j)]
    simp [Row.setNumBlocks]

/-- A write of a nonzero key to a row with room adds the block to the row. -/
theorem obliviousNodeWrite_bag (h8 : 8 ∣ bs) (pathOram : Bool) {row : Row bs} (hcount : row.Counts)
    (ptr : Addr) {key : BlockKey} (path : BlockPath) (content : Block bs) (hkey : key ≠ 0)
    (hlt : row.node.numBlocks.toNat < blocksPerNode) :
    (obliviousNodeWrite pathOram row ptr key path content).succ = true ∧
      (obliviousNodeWrite pathOram row ptr key path content).row.Counts ∧
      (obliviousNodeWrite pathOram row ptr key path content).row.bag =
        row.bag + {⟨key, path, content⟩} ∧
      (obliviousNodeWrite pathOram row ptr key path content).row.node.numBlocks =
        row.node.numBlocks + 1 := by
  obtain ⟨i, hi, -, heq⟩ := obliviousNodeWrite_of_first h8 pathOram hcount ptr path content hkey hlt
  rw [heq]
  exact ⟨rfl, hcount.fill hi hlt (newSlot_present pathOram ptr key path _) content,
    Row.bag_setSlot_of_empty hi (newSlot_present pathOram ptr key path _) content, rfl⟩

theorem obliviousNodeWrite_wf (h8 : 8 ∣ bs) (pathOram : Bool) {row : Row bs} (hwf : row.Wf) (ptr : Addr)
    (key : BlockKey) (path : BlockPath) (content : Block bs) :
    (obliviousNodeWrite pathOram row ptr key path content).row.Wf := by
  by_cases hfail : key = 0 ∨ blocksPerNode ≤ row.node.numBlocks.toNat
  · rw [obliviousNodeWrite_of_failed pathOram row ptr key path content hfail]
    exact hwf
  · rw [not_or, not_le] at hfail
    obtain ⟨i, hi, -, heq⟩ := obliviousNodeWrite_of_first h8 pathOram hwf.count ptr path content hfail.1 hfail.2
    rw [heq]
    exact hwf.fill hi hfail.2 rfl hfail.1 content

/-! ## ObliviousNodeTransfer -/

theorem obliviousNodeTransferSlot_done (pathOram : Bool) (key : BlockKey) (path : BlockPath)
    (ptr : Addr) (content : Block bs) (temp : Row bs) (i : Fin blocksPerNode) :
    obliviousNodeTransferSlot pathOram key path ptr content ⟨temp, -1⟩ i = ⟨temp, -1⟩ := by
  simp [obliviousNodeTransferSlot, ocopy_zero]

theorem obliviousNodeTransferSlot_present (pathOram : Bool) (key : BlockKey) (path : BlockPath)
    (ptr : Addr) (content : Block bs) {temp : Row bs} {i : Fin blocksPerNode}
    (hi : (temp.node.slots i).presenceBit ≠ 0) :
    obliviousNodeTransferSlot pathOram key path ptr content ⟨temp, 0⟩ i = ⟨temp, 0⟩ := by
  have hb : ((temp.node.slots i).presenceBit == 0) = false := by simpa using hi
  simp [obliviousNodeTransferSlot, hb, ocopy_zero]

theorem obliviousNodeTransferSlot_empty (h8 : 8 ∣ bs) (pathOram : Bool) (key : BlockKey)
    (path : BlockPath) (ptr : Addr) (content : Block bs) {temp : Row bs} {i : Fin blocksPerNode}
    (hi : (temp.node.slots i).presenceBit = 0) :
    obliviousNodeTransferSlot pathOram key path ptr content ⟨temp, 0⟩ i =
      ⟨(temp.setSlot i (newSlot pathOram ptr key path (temp.node.slots i)) content).setNumBlocks
        (temp.node.numBlocks + 1), -1⟩ := by
  have hne : ¬ (-1 : UInt64) % 4294967296 = 0 := by decide
  cases pathOram <;>
    simp [obliviousNodeTransferSlot, hi, ocopy_eq h8, newSlot, hne, Row.setNumBlocks]

theorem obliviousNodeTransfer_false (pathOram : Bool) (temp : Row bs) (key : BlockKey)
    (path : BlockPath) (ptr : Addr) (content : Block bs) :
    obliviousNodeTransfer pathOram temp key path ptr content false = temp := by
  simp only [obliviousNodeTransfer, beq_self_eq_true, negBool_true]
  rw [foldl_idle fun i _ => obliviousNodeTransferSlot_done pathOram key path ptr content temp i]

/-- A transfer into a node with room changes exactly the first empty slot. -/
theorem obliviousNodeTransfer_of_first (h8 : 8 ∣ bs) (pathOram : Bool) {temp : Row bs}
    (hcount : temp.Counts) (key : BlockKey) (path : BlockPath) (ptr : Addr) (content : Block bs)
    (hlt : temp.node.numBlocks.toNat < blocksPerNode) :
    ∃ i, (temp.node.slots i).presenceBit = 0 ∧ (∀ j < i, (temp.node.slots j).presenceBit ≠ 0) ∧
      obliviousNodeTransfer pathOram temp key path ptr content true =
        (temp.setSlot i (newSlot pathOram ptr key path (temp.node.slots i)) content).setNumBlocks
          (temp.node.numBlocks + 1) := by
  rcases exists_first_fin fun i => (temp.node.slots i).presenceBit = 0 with
    hnone | ⟨l₁, i, l₂, hl, hi, h₁, hmin⟩
  · obtain ⟨i, hi⟩ := hcount.lt_iff.mp hlt
    exact absurd hi (hnone i)
  · refine ⟨i, hi, hmin, ?_⟩
    have hmask : negBool (true == false) = 0 := rfl
    rw [obliviousNodeTransfer, hmask, hl, foldl_single
      (fun j hj => obliviousNodeTransferSlot_present pathOram key path ptr content (h₁ j hj))
      (obliviousNodeTransferSlot_empty h8 pathOram key path ptr content hi)
      (fun j _ => obliviousNodeTransferSlot_done pathOram key path ptr content _ j)]

/-- A transfer into a node with room adds the block to it. -/
theorem obliviousNodeTransfer_bag (h8 : 8 ∣ bs) (pathOram : Bool) {temp : Row bs} (hcount : temp.Counts)
    (key : BlockKey) (path : BlockPath) (ptr : Addr) (content : Block bs)
    (hlt : temp.node.numBlocks.toNat < blocksPerNode) :
    (obliviousNodeTransfer pathOram temp key path ptr content true).Counts ∧
      (obliviousNodeTransfer pathOram temp key path ptr content true).bag =
        temp.bag + {⟨key, path, content⟩} := by
  obtain ⟨i, hi, -, heq⟩ := obliviousNodeTransfer_of_first h8 pathOram hcount key path ptr content hlt
  rw [heq]
  exact ⟨hcount.fill hi hlt (newSlot_present pathOram ptr key path _) content,
    Row.bag_setSlot_of_empty hi (newSlot_present pathOram ptr key path _) content⟩

theorem obliviousNodeTransfer_wf (h8 : 8 ∣ bs) (pathOram : Bool) {temp : Row bs} (hwf : temp.Wf)
    {key : BlockKey} (path : BlockPath) (ptr : Addr) (content : Block bs) (hkey : key ≠ 0)
    (hlt : temp.node.numBlocks.toNat < blocksPerNode) :
    (obliviousNodeTransfer pathOram temp key path ptr content true).Wf := by
  obtain ⟨i, hi, -, heq⟩ := obliviousNodeTransfer_of_first h8 pathOram hwf.count key path ptr content hlt
  rw [heq]
  exact hwf.fill hi hlt rfl hkey content

/-! ## ObliviousNodeRead -/

/-- Slot `i` holds a present block with this key. -/
def Row.Hit (r : Row bs) (key : BlockKey) (i : Fin blocksPerNode) : Prop :=
  (r.node.slots i).blockKey = key ∧ (r.node.slots i).presenceBit ≠ 0

instance (r : Row bs) (key : BlockKey) (i : Fin blocksPerNode) : Decidable (r.Hit key i) :=
  inferInstanceAs (Decidable (_ ∧ _))

theorem readSign (p : UInt8) (k key : BlockKey) :
    (k == key && decide (p > 0)) = decide (k = key ∧ p ≠ 0) := by
  have hp : p > 0 ↔ p ≠ 0 := UInt8.pos_iff_ne_zero
  simp [hp, Bool.decide_and, beq_eq_decide]

theorem obliviousNodeReadSlot_miss (pathOram : Bool) {key : BlockKey} {row : Row bs}
    (fetched : Block bs) (ptr : Addr) (succ : Bool) (subs : List UInt32) {i : Fin blocksPerNode}
    (hi : ¬ row.Hit key i) :
    obliviousNodeReadSlot pathOram key ⟨row, row.node.numBlocks, fetched, ptr, succ, subs⟩ i =
      ⟨row, row.node.numBlocks, fetched, ptr, succ, subs⟩ := by
  have hs : decide ((row.node.slots i).blockKey = key ∧ (row.node.slots i).presenceBit ≠ 0) = false :=
    decide_eq_false hi
  simp only [obliviousNodeReadSlot, readSign, hs]
  simp [ocopy_zero]

/-- The slot that a read leaves: only the low bit of the key is cleared. -/
def readSlot (s : Slot) : Slot := { s with blockKey := s.blockKey - (s.blockKey &&& 1), presenceBit := 0 }

theorem obliviousNodeReadSlot_hit (h8 : 8 ∣ bs) (pathOram : Bool) {key : BlockKey} {row : Row bs}
    (fetched : Block bs) (ptr : Addr) (succ : Bool) (subs : List UInt32) {i : Fin blocksPerNode}
    (hi : row.Hit key i) (h1 : (row.node.slots i).presenceBit = 1) :
    obliviousNodeReadSlot pathOram key ⟨row, row.node.numBlocks, fetched, ptr, succ, subs⟩ i =
      ⟨(row.setSlot i (readSlot (row.node.slots i)) (row.blocks i)).setNumBlocks (row.node.numBlocks - 1),
        row.node.numBlocks - 1, row.blocks i,
        if pathOram then (row.node.slots i).blockContent else ptr, true,
        subs ++ [row.node.numBlocks]⟩ := by
  simp only [obliviousNodeReadSlot, readSign, hi.1, h1]
  simp [ocopy_eq h8, Row.setNumBlocks, readSlot, hi.1]

/-- Reading a key that the row does not hold. -/
theorem obliviousNodeRead_of_absent (pathOram : Bool) {key : BlockKey} {row : Row bs}
    (fetched : Block bs) (ptr : Addr) (h : ∀ b ∈ row.bag, b.key ≠ key) :
    obliviousNodeRead pathOram row key fetched ptr =
      ⟨row, row.node.numBlocks, fetched, ptr, false, []⟩ := by
  refine foldl_idle fun i _ => obliviousNodeReadSlot_miss pathOram fetched ptr false [] ?_
  rintro ⟨hk, hp⟩
  exact h _ (Row.mem_bag.mpr ⟨i, Row.blk_of_present hp⟩) hk

/-- Reading a key that one slot holds. -/
theorem obliviousNodeRead_of_hit (h8 : 8 ∣ bs) (pathOram : Bool) {key : BlockKey} {row : Row bs}
    (fetched : Block bs) (ptr : Addr) {i : Fin blocksPerNode} (hi : row.Hit key i)
    (h1 : (row.node.slots i).presenceBit = 1) (honly : ∀ j, row.Hit key j → j = i) :
    obliviousNodeRead pathOram row key fetched ptr =
      ⟨(row.setSlot i (readSlot (row.node.slots i)) (row.blocks i)).setNumBlocks (row.node.numBlocks - 1),
        row.node.numBlocks - 1, row.blocks i,
        if pathOram then (row.node.slots i).blockContent else ptr, true, [row.node.numBlocks]⟩ := by
  obtain ⟨l₁, l₂, hl⟩ := List.append_of_mem (List.mem_finRange i)
  have hnodup : (l₁ ++ i :: l₂).Nodup := hl ▸ List.nodup_finRange blocksPerNode
  rw [List.nodup_append, List.nodup_cons] at hnodup
  rw [obliviousNodeRead, hl]
  refine foldl_single (fun j hj => obliviousNodeReadSlot_miss pathOram fetched ptr false [] fun h => ?_)
    (obliviousNodeReadSlot_hit h8 pathOram fetched ptr false [] hi h1)
    (fun j hj => obliviousNodeReadSlot_miss pathOram _ _ true _ fun h => ?_)
  · exact hnodup.2.2 j hj i List.mem_cons_self (honly j h)
  · have hji : j ≠ i := fun e => hnodup.2.1.1 (e ▸ hj)
    refine hji (honly j ⟨?_, ?_⟩)
    · simpa [Function.update_of_ne hji] using h.1
    · simpa [Function.update_of_ne hji] using h.2

theorem Row.hit_congr {row row' : Row bs} {i : Fin blocksPerNode} (h : row'.node.slots i = row.node.slots i)
    (key : BlockKey) : row'.Hit key i ↔ row.Hit key i := by
  rw [Row.Hit, Row.Hit, h]

theorem obliviousNodeReadSlot_succ (pathOram : Bool) (key : BlockKey) (st : ReadState bs) (i : Fin blocksPerNode) :
    (obliviousNodeReadSlot pathOram key st i).succ = (st.succ || decide (st.row.Hit key i)) := by
  rw [show decide (st.row.Hit key i) = ((st.row.node.slots i).blockKey == key &&
    decide ((st.row.node.slots i).presenceBit > 0)) from (readSign _ _ _).symm]
  rfl

theorem obliviousNodeReadSlot_fetched (h8 : 8 ∣ bs) (pathOram : Bool) (key : BlockKey) (st : ReadState bs)
    (i : Fin blocksPerNode) : (obliviousNodeReadSlot pathOram key st i).fetchedBlock =
      if st.row.Hit key i then st.row.blocks i else st.fetchedBlock := by
  have hsign : ((st.row.node.slots i).blockKey == key && decide ((st.row.node.slots i).presenceBit > 0)) =
      decide (st.row.Hit key i) := readSign _ _ _
  simp only [obliviousNodeReadSlot, hsign, ocopy_eq h8]
  by_cases hi : st.row.Hit key i
  · rw [if_pos hi, decide_eq_true hi]
    rfl
  · rw [if_neg hi, decide_eq_false hi]
    rfl

theorem obliviousNodeReadSlot_blocks (pathOram : Bool) (key : BlockKey) (st : ReadState bs) (i : Fin blocksPerNode) :
    (obliviousNodeReadSlot pathOram key st i).row.blocks = st.row.blocks := by
  simp [obliviousNodeReadSlot]

theorem obliviousNodeReadSlot_slots (pathOram : Bool) (key : BlockKey) (st : ReadState bs) {i j : Fin blocksPerNode}
    (hj : j ≠ i) : (obliviousNodeReadSlot pathOram key st i).row.node.slots j = st.row.node.slots j := by
  simp [obliviousNodeReadSlot, Function.update_of_ne hj]

/-- During a read the slots not done yet are as they were, and the blocks are. -/
structure Reading (row : Row bs) (done : List (Fin blocksPerNode)) (st : ReadState bs) : Prop where
  blocks : st.row.blocks = row.blocks
  slots : ∀ j, j ∉ done → st.row.node.slots j = row.node.slots j

theorem Reading.step {row : Row bs} {done : List (Fin blocksPerNode)} {st : ReadState bs} (h : Reading row done st)
    (pathOram : Bool) (key : BlockKey) (i : Fin blocksPerNode) :
    Reading row (done ++ [i]) (obliviousNodeReadSlot pathOram key st i) := by
  refine ⟨(obliviousNodeReadSlot_blocks pathOram key st i).trans h.blocks, fun j hj => ?_⟩
  simp only [List.mem_append, List.mem_singleton, not_or] at hj
  rw [obliviousNodeReadSlot_slots pathOram key st hj.2, h.slots j hj.1]

/-- The next slot holds the key if it did before the read. -/
theorem Reading.hit_iff {row : Row bs} {done : List (Fin blocksPerNode)} {st : ReadState bs} (h : Reading row done st)
    {i : Fin blocksPerNode} (hpre : done ++ [i] <+: List.finRange blocksPerNode) (key : BlockKey) :
    st.row.Hit key i ↔ row.Hit key i :=
  Row.hit_congr (h.slots i (not_mem_of_done (List.nodup_finRange _) hpre)) key

/-- A row reports success when one of its slots holds the key. -/
theorem obliviousNodeRead_succ_iff (pathOram : Bool) (row : Row bs) (key : BlockKey) (fetched : Block bs)
    (ptr : Addr) :
    (obliviousNodeRead pathOram row key fetched ptr).succ = true ↔ ∃ i, row.Hit key i := by
  have hloop := foldl_inv (f := obliviousNodeReadSlot pathOram key)
    (P := fun done st => Reading row done st ∧ (st.succ = true ↔ ∃ i ∈ done, row.Hit key i))
    (List.finRange blocksPerNode) ⟨row, row.node.numBlocks, fetched, ptr, false, []⟩
    ⟨⟨rfl, fun _ _ => rfl⟩, by simp⟩ ?_
  · rw [obliviousNodeRead, hloop.2]
    simp
  · rintro done i st hpre ⟨hst, hsucc⟩
    refine ⟨hst.step pathOram key i, ?_⟩
    rw [obliviousNodeReadSlot_succ, Bool.or_eq_true, hsucc, decide_eq_true_eq, hst.hit_iff hpre]
    simp only [List.mem_append, List.mem_singleton, or_and_right, exists_or, exists_eq_left]

/-- Reading a key that some slots hold delivers the block of the last of them. -/
theorem obliviousNodeRead_some (h8 : 8 ∣ bs) (pathOram : Bool) {key : BlockKey} {row : Row bs}
    (fetched : Block bs) (ptr : Addr) (h : ∃ i, row.Hit key i) :
    ∃ i, row.Hit key i ∧ (∀ j, row.Hit key j → j ≤ i) ∧
      (obliviousNodeRead pathOram row key fetched ptr).fetchedBlock = row.blocks i := by
  have hloop := foldl_inv (f := obliviousNodeReadSlot pathOram key)
    (P := fun done st => Reading row done st ∧ ((∃ i ∈ done, row.Hit key i) →
      ∃ i, row.Hit key i ∧ (∀ j ∈ done, row.Hit key j → j ≤ i) ∧ st.fetchedBlock = row.blocks i))
    (List.finRange blocksPerNode) ⟨row, row.node.numBlocks, fetched, ptr, false, []⟩
    ⟨⟨rfl, fun _ _ => rfl⟩, by simp⟩ ?_
  · obtain ⟨i, hi⟩ := h
    obtain ⟨j, hj, hlast, hread⟩ := hloop.2 ⟨i, List.mem_finRange i, hi⟩
    exact ⟨j, hj, fun k => hlast k (List.mem_finRange k), hread⟩
  · rintro done i st hpre ⟨hst, hfound⟩
    have hhit := hst.hit_iff hpre key
    refine ⟨hst.step pathOram key i, fun hex => ?_⟩
    rw [obliviousNodeReadSlot_fetched h8]
    by_cases hi : row.Hit key i
    · refine ⟨i, hi, fun j hj _ => ?_, by rw [if_pos (hhit.mpr hi), hst.blocks]⟩
      rcases List.mem_append.mp hj with hj | hj
      · exact (lt_of_done hpre j hj).le
      · exact (List.mem_singleton.mp hj).le
    · have hdone : ∀ j ∈ done ++ [i], row.Hit key j → j ∈ done := by
        intro j hj hjh
        rcases List.mem_append.mp hj with hj | hj
        · exact hj
        · exact absurd (List.mem_singleton.mp hj ▸ hjh) hi
      obtain ⟨j, hj, hjh⟩ := hex
      obtain ⟨k, hk, hlast, hkf⟩ := hfound ⟨j, hdone j hj hjh, hjh⟩
      exact ⟨k, hk, fun l hl hlh => hlast l (hdone l hl hlh) hlh, by rw [if_neg (hhit.not.mpr hi), hkf]⟩

theorem Row.hit_iff {row : Row bs} {key : BlockKey} {i : Fin blocksPerNode} :
    row.Hit key i ↔ ∃ b, row.blk i = some b ∧ b.key = key := by
  constructor
  · intro ⟨hk, hp⟩
    exact ⟨_, Row.blk_of_present hp, hk⟩
  · intro ⟨b, hb, hk⟩
    obtain ⟨hp, hbk, -, -⟩ := Row.blk_eq_some.mp hb
    exact ⟨hbk.trans hk, hp⟩

/-- A read empties the slots that hold the key. -/
theorem obliviousNodeRead_blk (h8 : 8 ∣ bs) (pathOram : Bool) {row : Row bs} (hwf : row.Wf) (key : BlockKey)
    (fetched : Block bs) (ptr : Addr) :
    (obliviousNodeRead pathOram row key fetched ptr).row.Wf ∧
      ∀ i, (obliviousNodeRead pathOram row key fetched ptr).row.blk i =
        if row.Hit key i then none else row.blk i := by
  have key := foldl_inv (f := obliviousNodeReadSlot pathOram key)
    (P := fun done st => st.regNumBlocks = st.row.node.numBlocks ∧ st.row.Wf ∧
      ∀ j, st.row.blk j = if j ∈ done ∧ row.Hit key j then none else row.blk j)
    (List.finRange blocksPerNode) ⟨row, row.node.numBlocks, fetched, ptr, false, []⟩ ⟨rfl, hwf, by simp⟩ ?_
  · refine ⟨key.2.1, fun i => ?_⟩
    rw [obliviousNodeRead, key.2.2 i]
    simp
  · intro done i st hpre ⟨hreg, hstwf, hblk⟩
    have hnew := not_mem_of_done (List.nodup_finRange _) hpre
    have hi : st.row.blk i = row.blk i := by
      rw [hblk, if_neg fun hc => hnew hc.1]
    have hhit : st.row.Hit key i ↔ row.Hit key i := by
      rw [Row.hit_iff, Row.hit_iff, hi]
    obtain ⟨row', reg, fetched', ptr', succ, subs⟩ := st
    obtain rfl : reg = row'.node.numBlocks := hreg
    by_cases hc : row.Hit key i
    · have hbit := (hstwf.bit i).resolve_left (hhit.mpr hc).2
      rw [obliviousNodeReadSlot_hit h8 pathOram fetched' ptr' succ subs (hhit.mpr hc) hbit]
      refine ⟨rfl, hstwf.clear (Row.blk_of_present (hhit.mpr hc).2) rfl _, fun j => ?_⟩
      by_cases hji : j = i
      · subst hji
        simp [Row.blk_setSlot, readSlot, hc]
      · simp [Row.blk_setSlot, hblk, hji]
    · rw [obliviousNodeReadSlot_miss pathOram fetched' ptr' succ subs (hhit.not.mpr hc)]
      refine ⟨rfl, hstwf, fun j => ?_⟩
      have hiff : (j ∈ done ++ [i] ∧ row.Hit key j) ↔ j ∈ done ∧ row.Hit key j := by
        by_cases hji : j = i
        · subst hji
          simp [hc]
        · simp [hji]
      rw [hblk, if_congr hiff rfl rfl]

/-- Reading a key of a block that the row holds once. -/
theorem obliviousNodeRead_of_mem (h8 : 8 ∣ bs) (pathOram : Bool) {row : Row bs} (hwf : row.Wf)
    (fetched : Block bs) (ptr : Addr) (hnd : (row.bag.map Blk.key).Nodup) {b : Blk bs}
    (hb : b ∈ row.bag) :
    ∃ row' ptr', obliviousNodeRead pathOram row b.key fetched ptr =
        ⟨row', row.node.numBlocks - 1, b.content, ptr', true, [row.node.numBlocks]⟩ ∧
      row'.Wf ∧ row'.bag + {b} = row.bag ∧ row'.node.numBlocks = row.node.numBlocks - 1 := by
  obtain ⟨i, hi⟩ := Row.mem_bag.mp hb
  obtain ⟨hp, hk, -, hc⟩ := Row.blk_eq_some.mp hi
  have hread := obliviousNodeRead_of_hit h8 pathOram fetched ptr (i := i) ⟨hk, hp⟩
    ((hwf.bit i).resolve_left hp) fun j hj => bag_key_inj hnd (Row.blk_of_present hj.2) hi hj.1
  rw [hc] at hread
  exact ⟨_, _, hread, hc ▸ hwf.clear hi rfl (row.blocks i),
    hc ▸ Row.bag_setSlot_of_present hi rfl (row.blocks i), rfl⟩

/-! ## Buffer addresses -/

/-- The rows name the same block buffers. -/
def Row.SameAddrs (r r' : Row bs) : Prop :=
  ∀ i, (r'.node.slots i).blockContent = (r.node.slots i).blockContent

theorem Row.SameAddrs.trans {r₁ r₂ r₃ : Row bs} (h : r₁.SameAddrs r₂) (h' : r₂.SameAddrs r₃) :
    r₁.SameAddrs r₃ := fun i => (h' i).trans (h i)

/-- A read does not move buffers. -/
theorem obliviousNodeRead_addrs (pathOram : Bool) (row : Row bs) (key : BlockKey) (fetched : Block bs) (ptr : Addr) :
    row.SameAddrs (obliviousNodeRead pathOram row key fetched ptr).row := by
  refine foldl_inv (f := obliviousNodeReadSlot pathOram key) (P := fun _ st => row.SameAddrs st.row)
    (List.finRange blocksPerNode) ⟨row, row.node.numBlocks, fetched, ptr, false, []⟩ (fun _ => rfl) ?_
  intro done i st _ h j
  rw [← h j]
  by_cases hj : j = i
  · subst hj
    simp [obliviousNodeReadSlot]
  · simp [obliviousNodeReadSlot, Function.update_of_ne hj]

/-- Without `PATH_ORAM` a write does not move buffers. -/
theorem obliviousNodeWrite_addrs (row : Row bs) (ptr : Addr) (key : BlockKey) (path : BlockPath)
    (content : Block bs) : row.SameAddrs (obliviousNodeWrite false row ptr key path content).row := by
  refine foldl_inv (f := obliviousNodeWriteSlot false key path content) (P := fun _ st => row.SameAddrs st.row)
    (List.finRange blocksPerNode) ⟨row, ptr, _⟩ (fun _ => rfl) ?_
  intro done i st _ h j
  rw [← h j]
  by_cases hj : j = i
  · subst hj
    simp [obliviousNodeWriteSlot, maskedSlot]
  · simp [obliviousNodeWriteSlot, Function.update_of_ne hj]

/-! ## The operations together -/

section Atomic
variable {row : Row bs} {key : BlockKey}

theorem obliviousNodeWrite_succ (pathOram : Bool) (hcount : row.Counts) (ptr : Addr) (key : BlockKey)
    (path : BlockPath) (content : Block bs) :
    (obliviousNodeWrite pathOram row ptr key path content).succ = true ↔
      key ≠ 0 ∧ ∃ i, (row.node.slots i).presenceBit = 0 := by
  rw [← hcount.lt_iff]
  simp [obliviousNodeWrite]

/-- The rows differ at most in the buffers that they name. -/
def Row.SameButAddrs (r r' : Row bs) : Prop :=
  r'.node.numBlocks = r.node.numBlocks ∧ r'.blocks = r.blocks ∧
    ∀ i, { r'.node.slots i with blockContent := 0 } = { r.node.slots i with blockContent := 0 }

/-- On a node with room a transfer and a write fill the same slot. -/
theorem obliviousNodeTransfer_sameButAddrs (h8 : 8 ∣ bs) (pathOram : Bool) (hcount : row.Counts) (ptr ptr' : Addr)
    (hkey : key ≠ 0) (path : BlockPath) (content : Block bs) (hroom : ∃ i, (row.node.slots i).presenceBit = 0) :
    (obliviousNodeWrite pathOram row ptr key path content).row.SameButAddrs
      (obliviousNodeTransfer pathOram row key path ptr' content true) := by
  have hlt := hcount.lt_iff.mpr hroom
  obtain ⟨i, hi, hmin, hwrite⟩ := obliviousNodeWrite_of_first h8 pathOram hcount ptr path content hkey hlt
  obtain ⟨j, hj, hmin', htransfer⟩ := obliviousNodeTransfer_of_first h8 pathOram hcount key path ptr' content hlt
  obtain rfl : i = j := by
    rcases lt_trichotomy i j with h | h | h
    · exact absurd hi (hmin' i h)
    · exact h
    · exact absurd hj (hmin j h)
  rw [hwrite, htransfer]
  refine ⟨rfl, rfl, fun j => ?_⟩
  by_cases hji : j = i
  · subst hji
    simp [newSlot]
  · simp [Function.update_of_ne hji]

/-- A read undoes the write before it, if the node did not hold the key. -/
theorem obliviousNodeRead_write (h8 : 8 ∣ bs) (pathOram : Bool) (hcount : row.Counts) (ptr ptr' : Addr)
    {path : BlockPath} {content : Block bs}
    (hsucc : (obliviousNodeWrite pathOram row ptr key path content).succ = true)
    (habsent : ∀ b ∈ row.bag, b.key ≠ key) (fetched : Block bs) :
    let r := obliviousNodeRead pathOram (obliviousNodeWrite pathOram row ptr key path content).row key fetched ptr'
    r.succ = true ∧ r.fetchedBlock = content ∧ r.row.blk = row.blk := by
  obtain ⟨hkey, hroom⟩ := (obliviousNodeWrite_succ pathOram hcount ptr key path content).mp hsucc
  obtain ⟨i, hi, -, hwrite⟩ :=
    obliviousNodeWrite_of_first h8 pathOram hcount ptr path content hkey (hcount.lt_iff.mpr hroom)
  rw [hwrite]
  rw [obliviousNodeRead_of_hit h8 pathOram fetched ptr' (i := i)]
  · refine ⟨rfl, by simp, ?_⟩
    have hempty : row.blk i = none := Row.blk_eq_none.mpr hi
    rw [Row.blk_setNumBlocks, Row.blk_setSlot, if_pos (show (readSlot _).presenceBit = 0 from rfl)]
    show Function.update (row.setSlot i (newSlot pathOram ptr key path (row.node.slots i)) content).blk i none = row.blk
    rw [Row.blk_setSlot, Function.update_idem, ← hempty, Function.update_eq_self]
  · exact ⟨by simp [newSlot], by simp [newSlot]⟩
  · simp [newSlot]
  · intro j hj
    by_contra hji
    have hhit : row.Hit key j := by simpa [Row.Hit, Function.update_of_ne hji] using hj
    exact habsent _ (Row.mem_bag.mpr ⟨j, Row.blk_of_present hhit.2⟩) hhit.1

/-- The write takes the first empty slot or changes nothing, the transfer agrees with it, and a read
takes the block back. -/
theorem nodeOperations_atomic (h8 : 8 ∣ bs) (pathOram : Bool) (hcount : row.Counts) (ptr : Addr) (key : BlockKey)
    (path : BlockPath) (content : Block bs) :
    let r := obliviousNodeWrite pathOram row ptr key path content
    (r.succ = true ↔ key ≠ 0 ∧ ∃ i, (row.node.slots i).presenceBit = 0) ∧
      (r.succ = false → r.row = row ∧ r.encryptedContentPtr = ptr) ∧
      (r.succ = true → ∃ i,
        ((row.node.slots i).presenceBit = 0 ∧ ∀ j < i, (row.node.slots j).presenceBit ≠ 0) ∧
          ((r.row.node.slots i).blockKey = key ∧ (r.row.node.slots i).blockPath = path ∧
            (r.row.node.slots i).presenceBit = 1 ∧ r.row.blocks i = content) ∧
          r.row.node.numBlocks.toNat = row.node.numBlocks.toNat + 1 ∧
          ∀ j, j ≠ i → r.row.node.slots j = row.node.slots j ∧ r.row.blocks j = row.blocks j) ∧
      (∀ ptr', obliviousNodeTransfer pathOram row key path ptr' content false = row) ∧
      (key ≠ 0 → (∃ i, (row.node.slots i).presenceBit = 0) → ∀ ptr',
        r.row.SameButAddrs (obliviousNodeTransfer pathOram row key path ptr' content true)) ∧
      (r.succ = true → (∀ b ∈ row.bag, b.key ≠ key) → ∀ fetched ptr',
        let read := obliviousNodeRead pathOram r.row key fetched ptr'
        read.succ = true ∧ read.fetchedBlock = content ∧ read.row.blk = row.blk) := by
  refine ⟨obliviousNodeWrite_succ pathOram hcount ptr key path content, fun hfail => ?_, fun hsucc => ?_,
    fun ptr' => obliviousNodeTransfer_false pathOram row key path ptr' content,
    fun hkey hroom ptr' => obliviousNodeTransfer_sameButAddrs h8 pathOram hcount ptr ptr' hkey path content hroom,
    fun hsucc habsent fetched ptr' => obliviousNodeRead_write h8 pathOram hcount ptr ptr' hsucc habsent fetched⟩
  · have hfailed : key = 0 ∨ blocksPerNode ≤ row.node.numBlocks.toNat := by
      simpa [obliviousNodeWrite, or_iff_not_imp_left] using hfail
    rw [obliviousNodeWrite_of_failed pathOram row ptr key path content hfailed]
    exact ⟨rfl, rfl⟩
  · obtain ⟨hkey, hroom⟩ := (obliviousNodeWrite_succ pathOram hcount ptr key path content).mp hsucc
    have hlt := hcount.lt_iff.mpr hroom
    obtain ⟨i, hi, hmin, hwrite⟩ := obliviousNodeWrite_of_first h8 pathOram hcount ptr path content hkey hlt
    rw [hwrite]
    refine ⟨i, ⟨hi, hmin⟩, by simp [newSlot], ?_, fun j hji => ?_⟩
    · have h4 : row.node.numBlocks.toNat < 4 := hlt
      rw [Row.setNumBlocks_numBlocks, UInt32.toNat_add]
      exact Nat.mod_eq_of_lt (by simp; omega)
    · simp [Function.update_of_ne hji]

/-- A node with a block of key 2 in slot 1. -/
def oneBlockRow : Row 8 where
  node := ⟨1, fun i => if i = 1 then ⟨9, 2, 101, 1⟩ else ⟨0, 0, 100, 0⟩⟩
  blocks _ := zeroBlock 8

theorem oneBlockRow_counts : oneBlockRow.Counts := by
  rw [Row.Counts, Row.card_bag]
  decide

theorem oneBlockRow_absent : ∀ b ∈ oneBlockRow.bag, b.key ≠ 3 := by
  intro b hb hkey
  obtain ⟨i, hi⟩ := Row.mem_bag.mp hb
  obtain ⟨-, hk, -⟩ := Row.blk_eq_some.mp hi
  have hkeys : ∀ i, (oneBlockRow.node.slots i).blockKey ≠ 3 := by decide
  exact hkeys i (hk.trans hkey)

theorem nodeOperations_atomic_oneBlockRow :
    let r := obliviousNodeWrite true oneBlockRow 7 3 5 fun _ => 1
    r.succ = true ∧ r.row.SameButAddrs (obliviousNodeTransfer true oneBlockRow 3 5 8 (fun _ => 1) true) ∧
      (obliviousNodeRead true r.row 3 (zeroBlock 8) 0).fetchedBlock = fun _ => 1 := by
  obtain ⟨hsucc, -, -, -, htransfer, hread⟩ :=
    nodeOperations_atomic (dvd_refl 8) true oneBlockRow_counts 7 3 5 fun _ => 1
  have hdone := hsucc.mpr ⟨by decide, 0, rfl⟩
  exact ⟨hdone, htransfer (by decide) ⟨0, rfl⟩ 8, (hread hdone oneBlockRow_absent (zeroBlock 8) 0).2.1⟩

end Atomic

end SgxOram
