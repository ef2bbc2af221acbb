import SgxOram.Enclave.SimpleClient
import SgxOram.Enclave.EvictSpec

/-!
# The flush of the builds without `PATH_ORAM`

* `onPath_succ`, `and_pathBit_eq_iff` : the bit test of the loop over `k` is "the paths agree one level
  further down";
* `PathRows p height path` : the rows below `height` hold a path, every block on its own path;
* `flushStep_skip`, `flushStep_full`, `flushStep_move` : what one pass of the loop over `k` does;
* `flushSlot_cases` : what serving one slot does: nothing, or one move;
* `flushPasses` : the flush after the first rows; `Flushed`, `flushPasses_spec` : it moves blocks down the path
  and loses none;
* `Served`, `Stuck`, `flush_stuck` : why a block stays.
-/

namespace SgxOram
open Lib Finset

variable {bs : Nat}

/-! ## The bit test -/

theorem toNat_pathBit {k : Nat} (hk : k < 32) : (pathBit k).toNat = 2 ^ k := by
  have hlt : 2 ^ k < 2 ^ 32 := Nat.pow_lt_pow_right (by decide) hk
  rw [pathBit, UInt32.toNat_shiftLeft, UInt32.toNat_ofNat']
  rw [Nat.mod_eq_of_lt (show k < 2 ^ 32 by omega), Nat.mod_eq_of_lt hk, Nat.shiftLeft_eq]
  simpa using Nat.mod_eq_of_lt hlt

theorem and_pathBit_eq_iff (p q : BlockPath) {k : Nat} (hk : k < 32) :
    p &&& pathBit k = q &&& pathBit k ↔ p.toNat / 2 ^ k % 2 = q.toNat / 2 ^ k % 2 := by
  rw [← UInt32.toNat_inj, UInt32.toNat_and, UInt32.toNat_and, toNat_pathBit hk, Nat.and_two_pow, Nat.and_two_pow,
    Nat.mul_left_inj (Nat.two_pow_pos k).ne', Nat.toNat_testBit, Nat.toNat_testBit]

/-- Paths agree one level further down if the next bits agree. -/
theorem onPath_succ (p q : BlockPath) (k : Nat) :
    OnPath p (k + 1) q ↔ OnPath p k q ∧ q.toNat / 2 ^ k % 2 = p.toNat / 2 ^ k % 2 := by
  unfold OnPath
  rw [nodeAddr_succ, nodeAddr_succ]
  omega

/-! ## One pass -/

section Pass
variable {p : BlockPath} {key : BlockKey} {path : BlockPath} {block : Block bs} {i k : Nat} {j : Fin blocksPerNode}

/-- The rows after block `block` has moved from slot `j` of row `i` into row `k + 1`. -/
def moveDown (rows : Nat → Row bs) (key : BlockKey) (path : BlockPath) (block : Block bs) (i : Nat)
    (j : Fin blocksPerNode) (k : Nat) : Nat → Row bs :=
  Function.update (Function.update rows (k + 1) (obliviousNodeWrite false (rows (k + 1)) 0 key path block).row) i
    ((rows i).take j)

@[simp] theorem moveDown_source (rows : Nat → Row bs) : moveDown rows key path block i j k i = (rows i).take j :=
  Function.update_self _ _ _

theorem moveDown_target (rows : Nat → Row bs) (hik : i ≤ k) :
    moveDown rows key path block i j k (k + 1) = (obliviousNodeWrite false (rows (k + 1)) 0 key path block).row := by
  rw [moveDown, Function.update_of_ne (by omega), Function.update_self]

theorem moveDown_of_ne (rows : Nat → Row bs) {x : Nat} (hi : x ≠ i) (hk : x ≠ k + 1) :
    moveDown rows key path block i j k x = rows x := by
  rw [moveDown, Function.update_of_ne hi, Function.update_of_ne hk]

variable (key path block) in
/-- The block has moved already, or the paths part: nothing happens. -/
theorem flushStep_skip {st : FlushLoop bs}
    (h : st.hasFlushed = true ∨ st.failedFlushed = true ∨ p &&& pathBit k ≠ path &&& pathBit k) :
    (flushStep p key path block i j st k).path = st.path ∧
      (flushStep p key path block i j st k).hasFlushed = st.hasFlushed ∧
      (flushStep p key path block i j st k).failedFlushed =
        (st.failedFlushed || !((p &&& pathBit k) == (path &&& pathBit k))) := by
  have hw : (!(st.failedFlushed || !((p &&& pathBit k) == (path &&& pathBit k))) && !st.hasFlushed &&
      ((p &&& pathBit k) == (path &&& pathBit k))) = false := by
    rcases h with h | h | h
    · simp [h]
    · simp [h]
    · simp [h]
  refine ⟨?_, ?_, rfl⟩
  · simp only [flushStep, hw]
    simp
  · simp only [flushStep, hw]
    simp

/-- The block has no key, or the next row is full: nothing happens. -/
theorem flushStep_full {rows : Nat → Row bs} (hmatch : p &&& pathBit k = path &&& pathBit k)
    (hfull : key = 0 ∨ blocksPerNode ≤ (rows (k + 1)).node.numBlocks.toNat) :
    flushStep p key path block i j ⟨rows, false, false⟩ k = ⟨rows, false, false⟩ := by
  simp only [flushStep, hmatch]
  simp [obliviousNodeWrite_of_failed _ _ _ _ _ _ hfull]

/-- The next row has room: the block moves. -/
theorem flushStep_move {rows : Nat → Row bs} (hik : i ≤ k) (hmatch : p &&& pathBit k = path &&& pathBit k)
    (hsucc : (obliviousNodeWrite false (rows (k + 1)) 0 key path block).succ = true) :
    flushStep p key path block i j ⟨rows, false, false⟩ k = ⟨moveDown rows key path block i j k, true, false⟩ := by
  have hne : i ≠ k + 1 := by omega
  simp only [flushStep, hmatch]
  simp [hsucc, moveDown, Row.take, Row.setNumBlocks, Function.update_of_ne hne]

end Pass

/-! ## A path in the rows -/

/-- The rows below `height` hold path `p`: `num_blocks` counts, and every block lies on its own path. -/
structure PathRows (p : BlockPath) (height : Nat) (rows : Nat → Row bs) : Prop where
  counts : ∀ r < height, (rows r).Counts
  onPath : ∀ r < height, ∀ b ∈ (rows r).bag, OnPath p r b.path

/-- The blocks in the rows below `height`. -/
def rowsBag (height : Nat) (rows : Nat → Row bs) : Multiset (Blk bs) := ∑ r ∈ range height, (rows r).bag

theorem PathRows.update {p : BlockPath} {height : Nat} {rows : Nat → Row bs} (h : PathRows p height rows) {r : Nat}
    {row : Row bs} (hcount : row.Counts) (hon : ∀ b ∈ row.bag, OnPath p r b.path) :
    PathRows p height (Function.update rows r row) := by
  refine ⟨fun x hx => ?_, fun x hx => ?_⟩ <;> by_cases hxr : x = r
  · subst hxr
    rwa [Function.update_self]
  · rw [Function.update_of_ne hxr]
    exact h.counts x hx
  · subst hxr
    rwa [Function.update_self]
  · rw [Function.update_of_ne hxr]
    exact h.onPath x hx

/-- The rows `rows'` hold the path and the blocks of `rows`, not higher up. -/
structure Flushed (p : BlockPath) (height : Nat) (rows rows' : Nat → Row bs) : Prop where
  path : PathRows p height rows'
  bag : rowsBag height rows' = rowsBag height rows
  deeper : ∀ r, ∑ x ∈ Ico r height, (rows x).bag.card ≤ ∑ x ∈ Ico r height, (rows' x).bag.card
  wf : (∀ r < height, (rows r).Wf) → ∀ r < height, (rows' r).Wf
  rest : ∀ r, height ≤ r → rows' r = rows r

theorem Flushed.refl {p : BlockPath} {height : Nat} {rows : Nat → Row bs} (h : PathRows p height rows) :
    Flushed p height rows rows := ⟨h, rfl, fun _ => le_rfl, id, fun _ _ => rfl⟩

theorem Flushed.trans {p : BlockPath} {height : Nat} {rows₁ rows₂ rows₃ : Nat → Row bs}
    (h : Flushed p height rows₁ rows₂) (h' : Flushed p height rows₂ rows₃) : Flushed p height rows₁ rows₃ where
  path := h'.path
  bag := h'.bag.trans h.bag
  deeper r := (h.deeper r).trans (h'.deeper r)
  wf hwf := h'.wf (h.wf hwf)
  rest r hr := (h'.rest r hr).trans (h.rest r hr)

/-- The blocks of the rows `s` after a block has moved from row `i` to row `k + 1`. -/
theorem sum_moveDown {rows : Nat → Row bs} {i k : Nat} {j : Fin blocksPerNode} (hik : i ≤ k) {b : Blk bs}
    (htake : ((rows i).take j).bag + {b} = (rows i).bag)
    (hwrite : (obliviousNodeWrite false (rows (k + 1)) 0 b.key b.path b.content).row.bag = (rows (k + 1)).bag + {b})
    (s : Finset Nat) :
    ∑ x ∈ s, (moveDown rows b.key b.path b.content i j k x).bag + (if i ∈ s then {b} else 0) =
      ∑ x ∈ s, (rows x).bag + (if k + 1 ∈ s then {b} else 0) := by
  have hne : i ≠ k + 1 := by omega
  have h₁ : ∑ x ∈ s, (Function.update rows (k + 1)
      (obliviousNodeWrite false (rows (k + 1)) 0 b.key b.path b.content).row x).bag =
      ∑ x ∈ s, (rows x).bag + (if k + 1 ∈ s then {b} else 0) := by
    split
    next hk =>
      have h := sum_bag_update rows hk (obliviousNodeWrite false (rows (k + 1)) 0 b.key b.path b.content).row
      rw [hwrite, ← add_assoc, add_right_comm] at h
      exact add_right_cancel h
    next hk => rw [add_zero, sum_bag_update_of_notMem rows hk]
  rw [← h₁, moveDown]
  split
  next hi =>
    have h := sum_bag_update (Function.update rows (k + 1)
      (obliviousNodeWrite false (rows (k + 1)) 0 b.key b.path b.content).row) hi ((rows i).take j)
    rw [Function.update_of_ne hne, ← htake, add_comm ((rows i).take j).bag, ← add_assoc] at h
    exact add_right_cancel h
  next hi => rw [add_zero, sum_bag_update_of_notMem _ hi]

theorem moveDown_spec (h8 : 8 ∣ bs) {p : BlockPath} {height : Nat} {rows : Nat → Row bs}
    (h : PathRows p height rows) {i k : Nat} {j : Fin blocksPerNode} (hik : i ≤ k) (hk : k + 1 < height) {b : Blk bs}
    (hb : (rows i).blk j = some b) (hkey : b.key ≠ 0) (hpath : OnPath p (k + 1) b.path)
    (hroom : (rows (k + 1)).node.numBlocks.toNat < blocksPerNode) :
    Flushed p height rows (moveDown rows b.key b.path b.content i j k) := by
  have hi : i < height := by omega
  have hne : i ≠ k + 1 := by omega
  obtain ⟨-, hcount, hbag, -⟩ :=
    obliviousNodeWrite_bag h8 false (h.counts (k + 1) hk) 0 b.path b.content hkey hroom
  have htake : ((rows i).take j).bag + {b} = (rows i).bag :=
    Row.bag_setSlot_of_present hb rfl ((rows i).blocks j)
  have hwrite : PathRows p height (Function.update rows (k + 1)
      (obliviousNodeWrite false (rows (k + 1)) 0 b.key b.path b.content).row) := by
    apply h.update hcount
    intro b' hb'
    rw [hbag] at hb'
    rcases Multiset.mem_add.mp hb' with hb' | hb'
    · exact h.onPath (k + 1) hk b' hb'
    · rw [Multiset.mem_singleton.mp hb']
      exact hpath
  have hsum := sum_moveDown (j := j) hik htake hbag
  refine ⟨?_, ?_, fun r => ?_, fun hwf r hr => ?_, fun r hr => ?_⟩
  · apply hwrite.update (Row.Counts.clear (h.counts i hi) hb rfl ((rows i).blocks j))
    intro b' hb'
    apply h.onPath i hi
    rw [← htake]
    exact Multiset.mem_add.mpr (Or.inl hb')
  · have h₁ := hsum (range height)
    rw [if_pos (mem_range.mpr hi), if_pos (mem_range.mpr hk)] at h₁
    exact add_right_cancel h₁
  · -- row `k + 1` lies below row `i`
    have hcard := congrArg Multiset.card (hsum (Ico r height))
    rw [Multiset.card_add, Multiset.card_add, Multiset.card_sum, Multiset.card_sum] at hcard
    by_cases hri : i ∈ Ico r height
    · have hrk : k + 1 ∈ Ico r height := by
        rw [mem_Ico] at hri ⊢
        omega
      rw [if_pos hri, if_pos hrk] at hcard
      omega
    · rw [if_neg hri, Multiset.card_zero] at hcard
      omega
  · by_cases hri : r = i
    · subst hri
      rw [moveDown_source]
      exact (hwf r hi).clear hb rfl ((rows r).blocks j)
    · by_cases hrk : r = k + 1
      · subst hrk
        rw [moveDown_target rows hik]
        exact obliviousNodeWrite_wf h8 false (hwf (k + 1) hk) 0 b.key b.path b.content
      · rw [moveDown_of_ne rows hri hrk]
        exact hwf r hr
  · exact moveDown_of_ne rows (by omega) (by omega)

/-! ## One slot -/

/-- A nonzero key is written when the row has room. -/
theorem obliviousNodeWrite_succ_of_room (pathOram : Bool) {row : Row bs} {key : BlockKey} (hkey : key ≠ 0)
    (hroom : row.node.numBlocks.toNat < blocksPerNode) (ptr : Addr) (path : BlockPath) (content : Block bs) :
    (obliviousNodeWrite pathOram row ptr key path content).succ = true := by
  simpa [obliviousNodeWrite] using ⟨hkey, hroom⟩

/-- The block `b` of the slot may go one row further down, and the next row has no room. -/
def Stuck (p : BlockPath) (height : Nat) (rows : Nat → Row bs) (i : Nat) (b : Blk bs) : Prop :=
  b.key ≠ 0 → i + 1 < height → OnPath p (i + 1) b.path → blocksPerNode ≤ (rows (i + 1)).node.numBlocks.toNat

section Slot
variable {p : BlockPath} {height : Nat} {rows : Nat → Row bs} {i : Nat} {j : Fin blocksPerNode} {b : Blk bs}

/-- The loop over `k` after `n` passes that have not moved the block. -/
structure Waiting (p : BlockPath) (height : Nat) (rows : Nat → Row bs) (i : Nat) (b : Blk bs) (n : Nat)
    (st : FlushLoop bs) : Prop where
  hasFlushed : st.hasFlushed = false
  path : st.path = rows
  failed : st.failedFlushed = false ↔ OnPath p (i + n) b.path
  stuck : n ≠ 0 → Stuck p height rows i b

/-- The loop after the pass `k` that has moved the block. -/
structure Moves (p : BlockPath) (height : Nat) (rows : Nat → Row bs) (i : Nat) (j : Fin blocksPerNode) (b : Blk bs)
    (k : Nat) (rows' : Nat → Row bs) : Prop where
  key : b.key ≠ 0
  onPath : OnPath p (k + 1) b.path
  above : i ≤ k
  lt : k + 1 < height
  room : (rows (k + 1)).node.numBlocks.toNat < blocksPerNode
  path : rows' = moveDown rows b.key b.path b.content i j k

/-- A block that does not move in the first pass is stuck, and later passes say nothing new. -/
theorem Waiting.stuck_succ {n : Nat} {st : FlushLoop bs} (h : Waiting p height rows i b n st)
    (hstay : OnPath p (i + n + 1) b.path → b.key = 0 ∨ blocksPerNode ≤ (rows (i + n + 1)).node.numBlocks.toNat) :
    Stuck p height rows i b := by
  intro hkey hlt hnext
  by_cases hn : n = 0
  · subst hn
    exact (hstay hnext).resolve_left hkey
  · exact h.stuck hn hkey hlt hnext

/-- The paths still agree one level further down: the block moves, or the next row is full. -/
theorem Waiting.step_on {n : Nat} {st : FlushLoop bs} (h : Waiting p height rows i b n st) (hh : height ≤ 32)
    (hlt : i + n + 1 < height) (hnext : OnPath p (i + n + 1) b.path) :
    Waiting p height rows i b (n + 1) (flushStep p b.key b.path b.content i j st (i + n)) ∨
      (flushStep p b.key b.path b.content i j st (i + n)).hasFlushed = true ∧
        Moves p height rows i j b (i + n) (flushStep p b.key b.path b.content i j st (i + n)).path := by
  obtain ⟨hon, hbit⟩ := (onPath_succ p b.path (i + n)).mp hnext
  have hmatch := (and_pathBit_eq_iff p b.path (show i + n < 32 by omega)).mpr hbit.symm
  obtain rfl : st = ⟨rows, false, false⟩ := by
    have hnot := h.hasFlushed
    have hpath := h.path
    have hfailed := h.failed.mpr hon
    cases st
    simp_all
  by_cases hroom : b.key ≠ 0 ∧ (rows (i + n + 1)).node.numBlocks.toNat < blocksPerNode
  · have hsucc := obliviousNodeWrite_succ_of_room false hroom.1 hroom.2 0 b.path b.content
    rw [flushStep_move (Nat.le_add_right i n) hmatch hsucc]
    exact Or.inr ⟨rfl, hroom.1, hnext, Nat.le_add_right i n, hlt, hroom.2, rfl⟩
  · rw [not_and_or, not_not, not_lt] at hroom
    rw [flushStep_full hmatch hroom]
    exact Or.inl ⟨rfl, rfl, ⟨fun _ => hnext, fun _ => rfl⟩, fun _ => h.stuck_succ fun _ => hroom⟩

/-- The paths part here or have parted before: the block stays. -/
theorem Waiting.step_off {n : Nat} {st : FlushLoop bs} (h : Waiting p height rows i b n st) (hh : height ≤ 32)
    (hlt : i + n + 1 < height) (hnext : ¬ OnPath p (i + n + 1) b.path) :
    Waiting p height rows i b (n + 1) (flushStep p b.key b.path b.content i j st (i + n)) := by
  have hmatch := and_pathBit_eq_iff p b.path (show i + n < 32 by omega)
  have hskip : st.failedFlushed = true ∨ p &&& pathBit (i + n) ≠ b.path &&& pathBit (i + n) := by
    have hparts := hnext
    rw [onPath_succ, not_and_or, ← h.failed, Bool.not_eq_false] at hparts
    exact hparts.imp_right fun hbit e => hbit (hmatch.mp e).symm
  obtain ⟨hpath, hflag, hfailed⟩ := flushStep_skip (i := i) (j := j) b.key b.path b.content (Or.inr hskip)
  have htrue : (st.failedFlushed || !((p &&& pathBit (i + n)) == (b.path &&& pathBit (i + n)))) = true := by
    simpa [or_comm] using hskip
  refine ⟨hflag.trans h.hasFlushed, hpath.trans h.path, ?_, fun _ => h.stuck_succ fun hon => absurd hon hnext⟩
  rw [hfailed, htrue]
  exact ⟨fun hf => absurd hf (by decide), fun hon => absurd hon hnext⟩

/-- What one slot of the flush does: nothing, if there is no block or the block is stuck; or the block
moves to a row below with room, on its own path. -/
theorem flushSlot_cases (hh : height ≤ 32) (hon : ∀ b, (rows i).blk j = some b → OnPath p i b.path) :
    (flushSlot height p rows (i, j) = rows ∧ ∀ b, (rows i).blk j = some b → Stuck p height rows i b) ∨
      ∃ b k, (rows i).blk j = some b ∧ Moves p height rows i j b k (flushSlot height p rows (i, j)) := by
  rw [flushSlot]
  by_cases hp : ((rows i).node.slots j).presenceBit = 0
  · rw [if_pos hp]
    refine Or.inl ⟨rfl, fun b hb => ?_⟩
    rw [Row.blk_eq_none.mpr hp] at hb
    cases hb
  · rw [if_neg hp]
    obtain ⟨b, hb⟩ : ∃ b, (rows i).blk j = some b := ⟨_, Row.blk_of_present hp⟩
    obtain ⟨-, hkey, hpath, hcontent⟩ := Row.blk_eq_some.mp hb
    rw [hkey, hpath, hcontent]
    -- `Waiting` until a pass moves the block, `Moves` from then on
    have hloop := foldl_inv (f := flushStep p b.key b.path b.content i j)
      (P := fun done st => Waiting p height rows i b done.length st ∨
        st.hasFlushed = true ∧ ∃ k, Moves p height rows i j b k st.path)
      (List.range' i (height - 1 - i)) ⟨rows, false, false⟩
      (Or.inl ⟨rfl, rfl, ⟨fun _ => hon b hb, fun _ => rfl⟩, fun hn => absurd rfl hn⟩) ?_
    · rcases hloop with hwait | ⟨-, k, hmoves⟩
      · refine Or.inl ⟨hwait.path, fun b' hb' hkey hlt => ?_⟩
        obtain rfl := Option.some.inj (hb.symm.trans hb')
        apply hwait.stuck _ hkey hlt
        rw [List.length_range']
        omega
      · exact Or.inr ⟨b, k, hb, hmoves⟩
    · intro done k st hpre hinv
      obtain ⟨rfl, hlt⟩ := range'_of_done hpre
      rcases hinv with hwait | ⟨hdone, hmoved⟩
      · rw [List.length_append, List.length_singleton]
        by_cases hnext : OnPath p (i + done.length + 1) b.path
        · exact (hwait.step_on hh (by omega) hnext).imp_right fun h => ⟨h.1, _, h.2⟩
        · exact Or.inl (hwait.step_off hh (by omega) hnext)
      · obtain ⟨hpath, hflag, -⟩ := flushStep_skip (p := p) (k := i + done.length) (i := i) (j := j) b.key b.path
          b.content (Or.inl hdone)
        exact Or.inr ⟨hflag.trans hdone, hpath ▸ hmoved⟩

end Slot

/-- The loop over `k` moves the block at most once, to a row on its path. -/
theorem flushSlot_spec (h8 : 8 ∣ bs) {p : BlockPath} {height : Nat} (hh : height ≤ 32) {rows : Nat → Row bs}
    (h : PathRows p height rows) {i : Nat} (hi : i < height) (j : Fin blocksPerNode) :
    Flushed p height rows (flushSlot height p rows (i, j)) := by
  have hon : ∀ b, (rows i).blk j = some b → OnPath p i b.path := fun b hb =>
    h.onPath i hi b (Row.mem_bag.mpr ⟨j, hb⟩)
  rcases flushSlot_cases hh hon with ⟨hidle, -⟩ | ⟨b, k, hb, hmoves⟩
  · rw [hidle]
    exact Flushed.refl h
  · rw [hmoves.path]
    exact moveDown_spec h8 h hmoves.above hmoves.lt hb hmoves.key hmoves.onPath hmoves.room

/-! ## The flush -/

/-- One pass of the loop over `i`. -/
def flushPass (height : Nat) (p : BlockPath) (rows : Nat → Row bs) (i : Nat) : Nat → Row bs :=
  (List.finRange blocksPerNode).foldl (fun rows j => flushSlot height p rows (i, j)) rows

/-- The rows after the passes over the rows `0 .. n - 1`. -/
def flushPasses (height : Nat) (p : BlockPath) (rows : Nat → Row bs) (n : Nat) : Nat → Row bs :=
  (List.range n).foldl (flushPass height p) rows

theorem flush_eq_passes (height : Nat) (p : BlockPath) (c : Client bs) :
    (ecallClientSimpleOramFlush height p c).path = flushPasses height p c.path (height - 1) := by
  unfold ecallClientSimpleOramFlush
  by_cases hlt : height < 2
  · obtain h | h : height = 0 ∨ height = 1 := by omega
    · subst h
      rfl
    · subst h
      rfl
  · rw [if_neg hlt, flushPlaces, flushPasses, List.foldl_flatMap]
    simp only [List.foldl_map]
    rfl

theorem flushPasses_succ (height : Nat) (p : BlockPath) (rows : Nat → Row bs) (n : Nat) :
    flushPasses height p rows (n + 1) = flushPass height p (flushPasses height p rows n) n := by
  simp [flushPasses, List.range_succ]

/-- A pass moves blocks down the path and loses none. -/
theorem flushPass_spec (h8 : 8 ∣ bs) {p : BlockPath} {height : Nat} (hh : height ≤ 32) {rows : Nat → Row bs}
    (h : PathRows p height rows) {i : Nat} (hi : i < height) : Flushed p height rows (flushPass height p rows i) := by
  refine foldl_inv (f := fun rows j => flushSlot height p rows (i, j)) (P := fun _ rows' => Flushed p height rows rows')
    (List.finRange blocksPerNode) rows (Flushed.refl h) ?_
  intro done j rows₁ _ hrows
  exact hrows.trans (flushSlot_spec h8 hh hrows.path hi j)

/-- So do the first `n` passes. -/
theorem flushPasses_spec (h8 : 8 ∣ bs) {p : BlockPath} {height : Nat} (hh : height ≤ 32) {rows : Nat → Row bs}
    (h : PathRows p height rows) {n : Nat} (hn : n ≤ height) : Flushed p height rows
    (flushPasses height p rows n) := by
  induction n with
  | zero => exact Flushed.refl h
  | succ n ih =>
    have hrows := ih (by omega)
    rw [flushPasses_succ]
    exact hrows.trans (flushPass_spec h8 hh hrows.path hn)

/-- The rows below `height` hold the path `p`, with the level test written out. -/
theorem pathRows_iff {p : BlockPath} {height : Nat} {rows : Nat → Row bs} :
    PathRows p height rows ↔
      ∀ r < height, (rows r).Counts ∧ ∀ b ∈ (rows r).bag, b.path.toNat % 2 ^ r = p.toNat % 2 ^ r := by
  simp only [← onPath_iff]
  exact ⟨fun h r hr => ⟨h.counts r hr, h.onPath r hr⟩, fun h => ⟨fun r hr => (h r hr).1, fun r hr => (h r hr).2⟩⟩

/-- A flush keeps the blocks of the path, its counters and the places where blocks may be, and moves no
block up. -/
theorem flush_conserves (h8 : 8 ∣ bs) {p : BlockPath} {height : Nat} (hh : height < clientMaxPath) {c : Client bs}
    (hrows : ∀ r < height, (c.path r).Counts ∧ ∀ b ∈ (c.path r).bag, b.path.toNat % 2 ^ r = p.toNat % 2 ^ r) :
    let rows := (ecallClientSimpleOramFlush height p c).path
    ∑ r ∈ range height, (rows r).bag = ∑ r ∈ range height, (c.path r).bag ∧
      (∀ r < height, (rows r).Counts ∧ (rows r).bag.card ≤ blocksPerNode ∧
        ∀ b ∈ (rows r).bag, b.path.toNat % 2 ^ r = p.toNat % 2 ^ r) ∧
      (∀ r, height ≤ r → rows r = c.path r) ∧
      ∀ r, ∑ x ∈ Ico r height, (c.path x).bag.card ≤ ∑ x ∈ Ico r height, (rows x).bag.card := by
  have hlt : height < 20 := hh
  have hflushed := flushPasses_spec h8 (show height ≤ 32 by omega) (pathRows_iff.mpr hrows) (Nat.sub_le height 1)
  have hpath := pathRows_iff.mp hflushed.path
  rw [flush_eq_passes]
  exact ⟨hflushed.bag, fun r hr => ⟨(hpath r hr).1, Row.card_bag_le _, (hpath r hr).2⟩, hflushed.rest,
    hflushed.deeper⟩

/-- A path of height 3: in row 0 a block that may go to row 1, in row 1 four blocks that may go to row 2. -/
def strandedClient : Client 8 :=
  { emptyClient 8 with
    path := fun r =>
      if r = 0 then ⟨⟨1, fun i => if i = 0 then ⟨1, 9, 0, 1⟩ else ⟨0, 0, 0, 0⟩⟩, fun _ => zeroBlock 8⟩
      else if r = 1 then ⟨⟨4, fun i => ⟨3, UInt32.ofNat (i.val + 1), 0, 1⟩⟩, fun _ => zeroBlock 8⟩
      else ⟨zeroNode, fun _ => zeroBlock 8⟩ }

theorem strandedClient_counts : ∀ r < 3, (strandedClient.path r).Counts := by
  simp only [Row.Counts, Row.card_bag]
  decide

theorem strandedClient_blocks : ∀ r < 3, ∀ b ∈ (strandedClient.path r).bag,
    b.key ≠ 0 ∧ b.path.toNat % 2 ^ r = (3 : BlockPath).toNat % 2 ^ r := by
  have hslots : ∀ r < 3, ∀ i, ((strandedClient.path r).node.slots i).presenceBit ≠ 0 →
      ((strandedClient.path r).node.slots i).blockKey ≠ 0 ∧
        ((strandedClient.path r).node.slots i).blockPath.toNat % 2 ^ r = (3 : BlockPath).toNat % 2 ^ r := by decide
  intro r hr b hb
  obtain ⟨i, hi⟩ := Row.mem_bag.mp hb
  obtain ⟨hp, hkey, hpath, -⟩ := Row.blk_eq_some.mp hi
  rw [← hkey, ← hpath]
  exact hslots r hr i hp

theorem strandedClient_rows : ∀ r < 3, (strandedClient.path r).Counts ∧
    ∀ b ∈ (strandedClient.path r).bag, b.path.toNat % 2 ^ r = (3 : BlockPath).toNat % 2 ^ r := fun r hr =>
  ⟨strandedClient_counts r hr, fun b hb => (strandedClient_blocks r hr b hb).2⟩

theorem flush_conserves_stranded :
    let rows := (ecallClientSimpleOramFlush 3 3 strandedClient).path
    ∑ r ∈ range 3, (rows r).bag = ∑ r ∈ range 3, (strandedClient.path r).bag ∧ rows 3 = strandedClient.path 3 := by
  obtain ⟨hbag, -, hrest, -⟩ := flush_conserves (dvd_refl 8) (by decide) strandedClient_rows
  exact ⟨hbag, hrest 3 le_rfl⟩

/-! ## Buffer addresses -/

theorem Row.sameAddrs_update {rows : Nat → Row bs} {r : Nat} {row : Row bs} (h : (rows r).SameAddrs row) (x : Nat) :
    (rows x).SameAddrs (Function.update rows r row x) := by
  by_cases hxr : x = r
  · subst hxr
    rwa [Function.update_self]
  · rw [Function.update_of_ne hxr]
    exact fun _ => rfl

theorem flushStep_sameAddrs (p : BlockPath) (key : BlockKey) (path : BlockPath) (block : Block bs) (i : Nat)
    (j : Fin blocksPerNode) (st : FlushLoop bs) (k x : Nat) :
    (st.path x).SameAddrs ((flushStep p key path block i j st k).path x) := by
  simp only [flushStep]
  have hwrite : ∀ r : WriteResult bs, (st.path (k + 1)).SameAddrs r.row →
      (st.path x).SameAddrs (Function.update st.path (k + 1) r.row x) := fun r hr => Row.sameAddrs_update hr x
  refine Row.SameAddrs.trans (hwrite _ ?_) (Row.sameAddrs_update ?_ x)
  · split
    · exact obliviousNodeWrite_addrs (st.path (k + 1)) 0 _ path block
    · exact fun _ => rfl
  · intro y
    by_cases hy : y = j
    · subst hy
      simp
    · simp [Function.update_of_ne hy]

theorem flushSlot_sameAddrs (height : Nat) (p : BlockPath) (rows : Nat → Row bs) (place : Nat × Fin blocksPerNode)
    (x : Nat) : (rows x).SameAddrs (flushSlot height p rows place x) := by
  unfold flushSlot
  split
  · exact fun _ => rfl
  · refine foldl_inv (P := fun _ (st : FlushLoop bs) => (rows x).SameAddrs (st.path x)) _ ⟨rows, false, false⟩
      (fun _ => rfl) ?_
    intro done k st _ h
    exact h.trans (flushStep_sameAddrs p _ _ _ place.1 place.2 st k x)

/-- A flush does not move buffers. -/
theorem flushPasses_sameAddrs (height : Nat) (p : BlockPath) (rows : Nat → Row bs) (n x : Nat) :
    (rows x).SameAddrs (flushPasses height p rows n x) := by
  refine foldl_inv (f := flushPass height p) (P := fun _ rows' => (rows x).SameAddrs (rows' x)) (List.range n) rows
    (fun _ => rfl) ?_
  intro done i rows₁ _ h₁
  refine foldl_inv (f := fun rows j => flushSlot height p rows (i, j)) (P := fun _ rows' => (rows x).SameAddrs (rows' x))
    (List.finRange blocksPerNode) rows₁ h₁ ?_
  intro slots j rows₂ _ h₂
  exact h₂.trans (flushSlot_sameAddrs height p rows₂ (i, j) x)

/-! ## Blocks that stay -/

section Stay
variable {p : BlockPath} {height : Nat} {rows rows' : Nat → Row bs}

/-- What serving the slots `done` of row `i` does to the rows, and which blocks it may leave. -/
structure Served (p : BlockPath) (height i : Nat) (done : List (Fin blocksPerNode)) (rows rows' : Nat → Row bs) :
    Prop where
  path : PathRows p height rows'
  above : ∀ x < i, rows' x = rows x
  below : ∀ x, i < x → (rows x).bag.card ≤ (rows' x).bag.card
  slots : ∀ j, j ∉ done → (rows' i).blk j = (rows i).blk j
  stuck : ∀ j ∈ done, ∀ b, (rows' i).blk j = some b → Stuck p height rows' i b

theorem flushSlot_served (h8 : 8 ∣ bs) (hh : height ≤ 32) (h : PathRows p height rows) {i : Nat} (hi : i < height)
    (j : Fin blocksPerNode) : Served p height i [j] rows (flushSlot height p rows (i, j)) := by
  have hon : ∀ b, (rows i).blk j = some b → OnPath p i b.path := fun b hb =>
    h.onPath i hi b (Row.mem_bag.mpr ⟨j, hb⟩)
  have hspec := flushSlot_spec h8 hh h hi j
  rcases flushSlot_cases hh hon with ⟨hidle, hstuck⟩ | ⟨b, k, hb, hmoves⟩
  · rw [hidle]
    refine ⟨h, fun _ _ => rfl, fun _ _ => le_rfl, fun _ _ => rfl, fun j' hj' b hb => ?_⟩
    rw [List.mem_singleton.mp hj'] at hb
    exact hstuck b hb
  · have hik := hmoves.above
    have hcounts := h.counts (k + 1) hmoves.lt
    obtain ⟨-, -, hbag, -⟩ := obliviousNodeWrite_bag h8 false hcounts 0 b.path b.content hmoves.key hmoves.room
    refine ⟨hspec.path, ?_, ?_, ?_, ?_⟩ <;> rw [hmoves.path]
    · intro x hx
      exact moveDown_of_ne rows (by omega) (by omega)
    · intro x hx
      by_cases hxk : x = k + 1
      · subst hxk
        rw [moveDown_target rows hik, hbag, Multiset.card_add]
        exact Nat.le_add_right _ _
      · rw [moveDown_of_ne rows (by omega) hxk]
    · intro j' hj'
      have hjj : j' ≠ j := fun e => hj' (e ▸ List.mem_singleton_self j)
      simp [Row.take, Row.blk_setSlot, Function.update_of_ne hjj]
    · intro j' hj' b' hb'
      rw [List.mem_singleton.mp hj'] at hb'
      simp [Row.take, Row.blk_setSlot] at hb'

/-- A full row stays full while the row above it is served. -/
theorem Stuck.mono {i : Nat} {b : Blk bs} (hs : Stuck p height rows i b) (h : PathRows p height rows)
    (h' : PathRows p height rows') (hle : (rows (i + 1)).bag.card ≤ (rows' (i + 1)).bag.card) :
    Stuck p height rows' i b := by
  intro hkey hlt hon
  have hfull := hs hkey hlt hon
  rw [show _ = (rows (i + 1)).bag.card from h.counts (i + 1) hlt] at hfull
  rw [show _ = (rows' (i + 1)).bag.card from h'.counts (i + 1) hlt]
  exact hfull.trans hle

/-- After the pass over row `i` its blocks are stuck. -/
theorem flushPass_served (h8 : 8 ∣ bs) (hh : height ≤ 32) (h : PathRows p height rows) {i : Nat} (hi : i < height) :
    Served p height i (List.finRange blocksPerNode) rows (flushPass height p rows i) := by
  refine foldl_inv (f := fun rows j => flushSlot height p rows (i, j))
    (P := fun done rows' => Served p height i done rows rows') (List.finRange blocksPerNode) rows
    ⟨h, fun _ _ => rfl, fun _ _ => le_rfl, fun _ _ => rfl, fun j hj => absurd hj List.not_mem_nil⟩ ?_
  intro done j rows₁ hpre hs
  have hnew := not_mem_of_done (List.nodup_finRange _) hpre
  have hstep := flushSlot_served h8 hh hs.path hi j
  refine ⟨hstep.path, fun x hx => (hstep.above x hx).trans (hs.above x hx),
    fun x hx => (hs.below x hx).trans (hstep.below x hx), fun j' hj' => ?_,
    forall_mem_concat (fun j' hj' b hb => ?_) fun b hb => ?_⟩
  · simp only [List.mem_append, not_or] at hj'
    exact (hstep.slots j' hj'.2).trans (hs.slots j' hj'.1)
  · have hne : j' ∉ [j] := fun e => hnew (List.mem_singleton.mp e ▸ hj')
    rw [hstep.slots j' hne] at hb
    exact (hs.stuck j' hj' b hb).mono hs.path hstep.path (hstep.below (i + 1) (Nat.lt_succ_self i))
  · exact hstep.stuck j (List.mem_singleton_self j) b hb

/-- The passes from row `n` on leave the rows above it alone. -/
theorem flushPasses_above (h8 : 8 ∣ bs) (hh : height ≤ 32) (h : PathRows p height rows) {n m x : Nat} (hx : x < n)
    (hnm : n ≤ m) (hm : m ≤ height) : flushPasses height p rows m x = flushPasses height p rows n x := by
  induction m, hnm using Nat.le_induction with
  | base => rfl
  | succ m hnm ih =>
    rw [flushPasses_succ, (flushPass_served h8 hh (flushPasses_spec h8 hh h (by omega)).path hm).above x (by omega)]
    exact ih (by omega)

/-- A block that could go one row further down stays only if the next row was full when the rows down to
the block's own had been served. -/
theorem flush_stuck (h8 : 8 ∣ bs) (hh : height < clientMaxPath) {c : Client bs}
    (hrows : ∀ r < height, (c.path r).Counts ∧ ∀ b ∈ (c.path r).bag, b.path.toNat % 2 ^ r = p.toNat % 2 ^ r) {i : Nat}
    (hi : i + 1 < height) {b : Blk bs} (hb : b ∈ ((ecallClientSimpleOramFlush height p c).path i).bag)
    (hkey : b.key ≠ 0) (hpath : b.path.toNat % 2 ^ (i + 1) = p.toNat % 2 ^ (i + 1)) :
    (flushPasses height p c.path (i + 1) (i + 1)).bag.card = blocksPerNode := by
  have hlt : height < 20 := hh
  have hpr := pathRows_iff.mpr hrows
  have hserved := flushPass_served h8 (by omega) (flushPasses_spec h8 (by omega) hpr (show i ≤ height by omega)).path
    (show i < height by omega)
  rw [← flushPasses_succ] at hserved
  rw [flush_eq_passes, flushPasses_above h8 (by omega) hpr (Nat.lt_succ_self i) (by omega) (by omega)] at hb
  obtain ⟨j, hj⟩ := Row.mem_bag.mp hb
  have hfull := hserved.stuck j (List.mem_finRange j) b hj hkey hi ((onPath_iff p b.path (i + 1)).mpr hpath)
  rw [show _ = (flushPasses height p c.path (i + 1) (i + 1)).bag.card from hserved.path.counts (i + 1) hi] at hfull
  exact le_antisymm (Row.card_bag_le _) hfull

/-- The flush of `strandedClient`: the block in row 0 stays and row 1 is emptied. -/
theorem strandedClient_flushed :
    ((ecallClientSimpleOramFlush 3 3 strandedClient).path 0).node.slots 0 = ⟨1, 9, 0, 1⟩ ∧
      ∀ i, (((ecallClientSimpleOramFlush 3 3 strandedClient).path 1).node.slots i).presenceBit = 0 := by
  decide +kernel

theorem strandedClient_stays :
    ⟨9, 1, ((ecallClientSimpleOramFlush 3 3 strandedClient).path 0).blocks 0⟩ ∈
      ((ecallClientSimpleOramFlush 3 3 strandedClient).path 0).bag := by
  apply Row.mem_bag.mpr ⟨0, Row.blk_eq_some.mpr _⟩
  rw [strandedClient_flushed.1]
  exact ⟨by decide, rfl, rfl, rfl⟩

theorem flush_stuck_stranded : (flushPasses 3 3 strandedClient.path 1 1).bag.card = blocksPerNode :=
  flush_stuck (dvd_refl 8) (by decide) strandedClient_rows (by decide) strandedClient_stays (by decide) (by decide)

/-- The block in row 0 of `strandedClient` may go to row 1 and stays, and row 1 is empty. -/
theorem flush_strands :
    (∀ r < 3, (strandedClient.path r).Counts ∧ ∀ b ∈ (strandedClient.path r).bag,
        b.key ≠ 0 ∧ b.path.toNat % 2 ^ r = (3 : BlockPath).toNat % 2 ^ r) ∧
      ¬ ∀ i < 2, ∀ b ∈ ((ecallClientSimpleOramFlush 3 3 strandedClient).path i).bag,
        b.path.toNat % 2 ^ (i + 1) = (3 : BlockPath).toNat % 2 ^ (i + 1) →
        ((ecallClientSimpleOramFlush 3 3 strandedClient).path (i + 1)).bag.card = blocksPerNode := by
  refine ⟨fun r hr => ⟨strandedClient_counts r hr, strandedClient_blocks r hr⟩, fun h => ?_⟩
  have hfull := h 0 (by decide) _ strandedClient_stays (by decide)
  rw [Row.bag_of_empty strandedClient_flushed.2] at hfull
  exact absurd hfull (by decide)

end Stay

end SgxOram
