import SgxOram.App.SimpleTree

/-!
# The encrypted and the plain build of `SimpleORAM` agree

The builds differ in the block buffers of empty slots: in one of them these are buffers that were never
encrypted, or whatever such a buffer decrypts to.

* `Row.Sim` : two rows that differ in the buffers that they name and in the blocks of empty slots;
* `obliviousNodeRead_sim`, `obliviousNodeWrite_sim`, `flushPasses_sim` : the calls on rows keep rows related
  and give the same answers;
* `TreeSim`, `accessSimpleLevel_sim` : one level of an access;
* `OramSim`, `accessSimpleOram_sim`, `newSimpleOram_sim` : objects with their position maps;
* `builds_agree` : runs.
-/

namespace SgxOram
open Lib

variable {bs : Nat}

/-! ## Rows -/

/-- The slots differ at most in the buffer that they name. -/
structure Slot.Sim (s s' : Slot) : Prop where
  key : s'.blockKey = s.blockKey
  path : s'.blockPath = s.blockPath
  bit : s'.presenceBit = s.presenceBit

/-- The rows differ at most in the buffers that they name and in the blocks of empty slots. -/
structure Row.Sim (r r' : Row bs) : Prop where
  numBlocks : r'.node.numBlocks = r.node.numBlocks
  slots : ∀ i, (r.node.slots i).Sim (r'.node.slots i)
  blocks : ∀ i, (r.node.slots i).presenceBit ≠ 0 → r'.blocks i = r.blocks i

theorem Row.Sim.setSlot {r r' : Row bs} (h : r.Sim r') (i : Fin blocksPerNode) {s s' : Slot} (hs : s.Sim s')
    {c c' : Block bs} (hc : s.presenceBit ≠ 0 → c' = c) : (r.setSlot i s c).Sim (r'.setSlot i s' c') := by
  refine ⟨h.numBlocks, fun j => ?_, fun j hj => ?_⟩
  · by_cases hji : j = i
    · subst hji
      simpa using hs
    · simpa [Function.update_of_ne hji] using h.slots j
  · by_cases hji : j = i
    · subst hji
      simpa using hc (by simpa using hj)
    · simp only [Row.setSlot_slots, Row.setSlot_blocks, Function.update_of_ne hji] at hj ⊢
      exact h.blocks j hj

theorem Row.Sim.setNumBlocks {r r' : Row bs} (h : r.Sim r') (n : UInt32) :
    (r.setNumBlocks n).Sim (r'.setNumBlocks n) :=
  ⟨rfl, h.slots, h.blocks⟩

/-- Rewriting the flags of one slot, and `num_blocks`. -/
theorem Row.Sim.setFlags {r r' : Row bs} (h : r.Sim r') (i : Fin blocksPerNode) {f : Slot → Slot}
    (hf : ∀ {s s' : Slot}, s.Sim s' → (f s).Sim (f s')) (hbit : ∀ s, (f s).presenceBit ≠ 0 → s.presenceBit ≠ 0)
    (n : UInt32) : ((r.setSlot i (f (r.node.slots i)) (r.blocks i)).setNumBlocks n).Sim
      ((r'.setSlot i (f (r'.node.slots i)) (r'.blocks i)).setNumBlocks n) :=
  (h.setSlot i (hf (h.slots i)) fun hp => h.blocks i (hbit _ hp)).setNumBlocks n

/-- Related rows everywhere. -/
def RowsSim (path path' : Nat → Row bs) : Prop := ∀ r, (path r).Sim (path' r)

theorem RowsSim.update {path path' : Nat → Row bs} (h : RowsSim path path') (r : Nat) {row row' : Row bs}
    (hrow : row.Sim row') : RowsSim (Function.update path r row) (Function.update path' r row') := by
  intro x
  by_cases hx : x = r
  · subst hx
    rwa [Function.update_self, Function.update_self]
  · rw [Function.update_of_ne hx, Function.update_of_ne hx]
    exact h x

/-! ## Read -/

/-- Related locals of `ObliviousNodeRead`. -/
structure ReadSim (st st' : ReadState bs) : Prop where
  row : st.row.Sim st'.row
  regNumBlocks : st'.regNumBlocks = st.regNumBlocks
  fetchedBlock : st'.fetchedBlock = st.fetchedBlock
  succ : st'.succ = st.succ

theorem obliviousNodeReadSlot_sim (key : BlockKey) {st st' : ReadState bs} (h : ReadSim st st')
    (i : Fin blocksPerNode) :
    ReadSim (obliviousNodeReadSlot false key st i) (obliviousNodeReadSlot false key st' i) := by
  have hs := h.row.slots i
  have hsign : ((st'.row.node.slots i).blockKey == key && decide ((st'.row.node.slots i).presenceBit > 0)) =
      ((st.row.node.slots i).blockKey == key && decide ((st.row.node.slots i).presenceBit > 0)) := by
    rw [hs.key, hs.bit]
  simp only [obliviousNodeReadSlot, hsign]
  generalize hb : ((st.row.node.slots i).blockKey == key && decide ((st.row.node.slots i).presenceBit > 0)) = sign
  refine ⟨?_, ?_, ?_, ?_⟩
  · rw [h.regNumBlocks]
    refine h.row.setFlags i (f := fun s => { s with
        blockKey := s.blockKey - (s.blockKey &&& sign.toUInt32)
        presenceBit := s.presenceBit - (s.presenceBit &&& sign.toUInt8) }) (fun hs => ?_) (fun s hp h0 => ?_) _
    · exact ⟨by simp only [hs.key], hs.path, by simp only [hs.bit]⟩
    · simp [h0] at hp
  · simp only [h.regNumBlocks]
  · rw [h.fetchedBlock]
    cases sign with
    | false => exact (ocopy_zero _ _ _).trans (ocopy_zero _ _ _).symm
    | true =>
      have hp : (st.row.node.slots i).presenceBit ≠ 0 := by
        simp only [Bool.and_eq_true, decide_eq_true_eq] at hb
        exact UInt8.pos_iff_ne_zero.mp hb.2
      rw [h.row.blocks i hp]
  · rw [h.succ]

theorem obliviousNodeRead_sim {row row' : Row bs} (h : row.Sim row') (key : BlockKey) (fetched : Block bs)
    (ptr ptr' : Addr) :
    ReadSim (obliviousNodeRead false row key fetched ptr) (obliviousNodeRead false row' key fetched ptr') :=
  foldl_rel (R := fun _ st st' => ReadSim st st') (List.finRange blocksPerNode) _ _
    ⟨h, h.numBlocks, rfl, rfl⟩ fun _ i _ _ _ hst => obliviousNodeReadSlot_sim key hst i

/-- Related locals of `ecall_oblivious_fetch`. -/
structure FetchSim (st st' : FetchLoop bs) : Prop where
  path : RowsSim st.path st'.path
  fetchedBlock : st'.fetchedBlock = st.fetchedBlock
  succ : st'.succ = st.succ

theorem fetchRow_sim (key : BlockKey) {st st' : FetchLoop bs} (h : FetchSim st st') (r : Nat) :
    FetchSim (fetchRow false key st r) (fetchRow false key st' r) := by
  unfold fetchRow
  rw [h.succ]
  split
  · exact h
  · have hr := obliviousNodeRead_sim (h.path r) key st.fetchedBlock st.encryptedContentPtr st'.encryptedContentPtr
    rw [h.fetchedBlock]
    exact ⟨h.path.update r hr.row, hr.fetchedBlock, hr.succ⟩

theorem fetchLoop_sim (key : BlockKey) {path path' : Nat → Row bs} (h : RowsSim path path') :
    FetchSim (fetchLoop key path) (fetchLoop key path') :=
  foldl_rel (R := fun _ st st' => FetchSim st st') (List.range clientMaxPath) _ _ ⟨h, rfl, rfl⟩
    fun _ r _ _ _ hst => fetchRow_sim key hst r

/-! ## Write -/

/-- Related locals of `ObliviousNodeWrite`. -/
structure WriteSim (st st' : WriteState bs) : Prop where
  row : st.row.Sim st'.row
  mask : st'.mask = st.mask

theorem maskedSlot_sim (mask : BlockKey) (key : BlockKey) (path : BlockPath) {s s' : Slot} (h : s.Sim s') :
    (maskedSlot mask key path s).Sim (maskedSlot mask key path s') := by
  unfold maskedSlot
  exact ⟨by rw [h.key], by rw [h.path], by rw [h.bit]⟩

theorem obliviousNodeWriteSlot_sim (h8 : 8 ∣ bs) (key : BlockKey) (path : BlockPath) (content : Block bs)
    {st st' : WriteState bs} (h : WriteSim st st') (i : Fin blocksPerNode) :
    WriteSim (obliviousNodeWriteSlot false key path content st i)
      (obliviousNodeWriteSlot false key path content st' i) := by
  have hs := h.row.slots i
  simp only [obliviousNodeWriteSlot, Bool.false_and, Bool.false_eq_true, if_false, hs.bit, h.mask]
  generalize negBool ((st.row.node.slots i).presenceBit == 0) &&& ~~~st.mask = maskedSign
  refine ⟨?_, rfl⟩
  apply h.row.setSlot i (maskedSlot_sim maskedSign key path hs)
  intro hp
  rw [ocopy_eq h8, ocopy_eq h8]
  by_cases hm : maskedSign = 0
  · -- the slot stays as it is
    subst hm
    rw [maskedSlot_zero] at hp
    rw [h.row.blocks i hp]
  · have hne : maskedSign.toUInt64 ≠ 0 := fun h0 => hm (by
      rw [← UInt32.toNat_inj, ← UInt32.toNat_toUInt64, h0]
      rfl)
    rw [if_neg hne, if_neg hne]

theorem obliviousNodeWrite_sim (h8 : 8 ∣ bs) {row row' : Row bs} (h : row.Sim row') (ptr ptr' : Addr) (key : BlockKey)
    (path : BlockPath) (content : Block bs) :
    (obliviousNodeWrite false row ptr key path content).row.Sim
    (obliviousNodeWrite false row' ptr' key path content).row ∧
      (obliviousNodeWrite false row' ptr' key path content).succ =
        (obliviousNodeWrite false row ptr key path content).succ := by
  simp only [obliviousNodeWrite, h.numBlocks]
  generalize (key == 0 || decide (row.node.numBlocks.toNat ≥ blocksPerNode)) = isFailed
  have hloop := foldl_rel (R := fun _ st st' => WriteSim st st') (List.finRange blocksPerNode)
    ⟨row, ptr, negBool isFailed⟩ ⟨row', ptr', negBool isFailed⟩ ⟨h, rfl⟩
    fun _ i _ _ _ hst => obliviousNodeWriteSlot_sim h8 key path content hst i
  refine ⟨?_, trivial⟩
  rw [hloop.row.numBlocks]
  exact hloop.row.setNumBlocks _

/-! ## Flush -/

/-- Related locals of the loop over `k`. -/
structure FlushSim (st st' : FlushLoop bs) : Prop where
  path : RowsSim st.path st'.path
  hasFlushed : st'.hasFlushed = st.hasFlushed
  failedFlushed : st'.failedFlushed = st.failedFlushed

/-- The rows after the write of one pass of the loop over `k`. -/
def flushWritten (path : Nat → Row bs) (i : Nat) (j : Fin blocksPerNode) (k : Nat) (r : WriteResult bs) :
    Nat → Row bs :=
  let path := Function.update path (k + 1) r.row
  let s := (path i).node.slots j
  let s := { s with presenceBit := s.presenceBit &&& (negBool (r.succ == false)).toUInt8 }
  Function.update path i
    (((path i).setSlot j s ((path i).blocks j)).setNumBlocks ((path i).node.numBlocks - r.succ.toUInt32))

theorem flushWritten_sim {path path' : Nat → Row bs} (h : RowsSim path path') (i : Nat) (j : Fin blocksPerNode)
    (k : Nat) {r r' : WriteResult bs} (hr : r.row.Sim r'.row ∧ r'.succ = r.succ) :
    RowsSim (flushWritten path i j k r) (flushWritten path' i j k r') := by
  have hpath := h.update (k + 1) hr.1
  simp only [flushWritten, hr.2, (hpath i).numBlocks]
  apply hpath.update i
  refine (hpath i).setFlags j (f := fun s => { s with
    presenceBit := s.presenceBit &&& (negBool (r.succ == false)).toUInt8 }) (fun hs => ?_) (fun s hp h0 => ?_) _
  · exact ⟨hs.key, hs.path, by simp only [hs.bit]⟩
  · simp [h0] at hp

theorem flushStep_sim (h8 : 8 ∣ bs) (p : BlockPath) (key : BlockKey) (path : BlockPath) (block : Block bs) (i : Nat)
    (j : Fin blocksPerNode) {st st' : FlushLoop bs} (h : FlushSim st st') (k : Nat) :
    FlushSim (flushStep p key path block i j st k) (flushStep p key path block i j st' k) := by
  simp only [flushStep, h.hasFlushed, h.failedFlushed]
  generalize (!(st.failedFlushed || !((p &&& pathBit k) == (path &&& pathBit k))) && !st.hasFlushed &&
    ((p &&& pathBit k) == (path &&& pathBit k))) = willInsert
  cases willInsert with
  | false => exact ⟨flushWritten_sim h.path i j k ⟨h.path (k + 1), rfl⟩, rfl, rfl⟩
  | true =>
    have hr := obliviousNodeWrite_sim h8 (h.path (k + 1)) 0 0 (key &&& negBool true) path block
    refine ⟨flushWritten_sim h.path i j k hr, ?_, rfl⟩
    exact congrArg (st.hasFlushed || ·) hr.2

theorem flushSlot_sim (h8 : 8 ∣ bs) (height : Nat) (p : BlockPath) {path path' : Nat → Row bs} (h : RowsSim path path')
    (place : Nat × Fin blocksPerNode) : RowsSim (flushSlot height p path place) (flushSlot height p path' place) := by
  have hs := (h place.1).slots place.2
  simp only [flushSlot, hs.bit, hs.key, hs.path]
  split
  · exact h
  next hp =>
    rw [(h place.1).blocks place.2 hp]
    have hloop := foldl_rel (R := fun _ st st' => FlushSim st st') (List.range' place.1 (height - 1 - place.1))
      ⟨path, false, false⟩ ⟨path', false, false⟩ ⟨h, rfl, rfl⟩
      fun _ k _ _ _ hst => flushStep_sim h8 p ((path place.1).node.slots place.2).blockKey
        ((path place.1).node.slots place.2).blockPath ((path place.1).blocks place.2) place.1 place.2 hst k
    exact hloop.path

theorem flushPasses_sim (h8 : 8 ∣ bs) (height : Nat) (p : BlockPath) {path path' : Nat → Row bs}
    (h : RowsSim path path') (n : Nat) : RowsSim (flushPasses height p path n) (flushPasses height p path' n) :=
  foldl_rel (R := fun _ path path' => RowsSim path path') (List.range n) path path' h fun _ i _ _ _ hi =>
    foldl_rel (R := fun _ path path' => RowsSim path path') (List.finRange blocksPerNode) _ _ hi fun _ j _ _ _ hj =>
      flushSlot_sim h8 height p hj (i, j)

/-! ## Trees -/

section Trees
variable {mem : Prop} {N B N' B' : Type} {D : Build bs N B} {D' : Build bs N' B'} {A A' : BufferAddrs}

/-- The trees are related rows. -/
structure TreeSim (D : Build bs N B) (D' : Build bs N' B') (A A' : BufferAddrs) (t : MemTree N) (t' : MemTree N')
    (bufs : Addr → B) (bufs' : Addr → B') : Prop where
  height : t'.height = t.height
  treeId : t'.treeId = t.treeId
  lt : t.height < clientMaxPath
  rows : ∃ ρ ρ', TreeRows D A t bufs ρ ∧ TreeRows D' A' t' bufs' ρ' ∧ ∀ n < 2 ^ t.height, (ρ n).Sim (ρ' n)

/-- Both enclaves hold related rows and the same position map; if `mem`, the `fetched_block_`s are the same too. -/
structure WorldSim (mem : Prop) (w : World bs B) (w' : World bs B') : Prop where
  path : RowsSim w.client.path w'.client.path
  pathMm : w'.client.pathMm = w.client.pathMm
  fetched : mem → w'.host.fetched = w.host.fetched

theorem fill_sim {height : Nat} {ρ ρ' path path' : Nat → Row bs} (hρ : ∀ n < 2 ^ height, (ρ n).Sim (ρ' n))
    (hpath : RowsSim path path') (p : BlockPath) : RowsSim (fill p height ρ path) (fill p height ρ' path') := by
  intro r
  unfold fill
  split
  next hr => exact hρ _ (nodeAddr_lt_two_pow hr)
  next => exact hpath r

theorem overlay_sim {height : Nat} {ρ ρ' path path' : Nat → Row bs} (hρ : ∀ n < 2 ^ height, (ρ n).Sim (ρ' n))
    (hpath : RowsSim path path') (p : BlockPath) :
    ∀ n < 2 ^ height, (overlay p height path ρ n).Sim (overlay p height path' ρ' n) := by
  intro n hn
  by_cases hon : ∃ r < height, n = nodeAddr p.toNat r
  · obtain ⟨r, hr, rfl⟩ := hon
    rw [overlay_on path ρ hr, overlay_on path' ρ' hr]
    exact hpath r
  · push Not at hon
    rw [overlay_off path ρ hon, overlay_off path' ρ' hon]
    exact hρ n hn

/-- What related calls leave: related trees and enclaves, the buffers of other trees as they were. -/
structure CallSim (mem : Prop) (D : Build bs N B) (D' : Build bs N' B') (A A' : BufferAddrs) (t : MemTree N)
    (t' : MemTree N') (bufs : Addr → B) (bufs' : Addr → B') (t₁ : MemTree N) (t₁' : MemTree N') (w₁ : World bs B)
    (w₁' : World bs B') : Prop where
  tree : TreeSim D D' A A' t₁ t₁' w₁.host.bufs w₁'.host.bufs
  world : WorldSim mem w₁ w₁'
  step : TreeStep A t bufs t₁ w₁.host.bufs
  step' : TreeStep A' t' bufs' t₁' w₁'.host.bufs

theorem CallSim.trans {t t₁ t₂ : MemTree N} {t' t₁' t₂' : MemTree N'} {bufs : Addr → B} {bufs' : Addr → B'}
    {w₁ w₂ : World bs B} {w₁' w₂' : World bs B'} (h : CallSim mem D D' A A' t t' bufs bufs' t₁ t₁' w₁ w₁')
    (h' : CallSim mem D D' A A' t₁ t₁' w₁.host.bufs w₁'.host.bufs t₂ t₂' w₂ w₂') :
    CallSim mem D D' A A' t t' bufs bufs' t₂ t₂' w₂ w₂' :=
  ⟨h'.tree, h'.world, h.step.trans h'.step, h.step'.trans h'.step'⟩

/-- Related trees whose rows have been exchanged for related rows. -/
theorem TreeSim.callSim {t t₁ : MemTree N} {t' t₁' : MemTree N'} {bufs : Addr → B} {bufs' : Addr → B'}
    {w₁ : World bs B} {w₁' : World bs B'} (h : TreeSim D D' A A' t t' bufs bufs') (hw : WorldSim mem w₁ w₁')
    (hs : TreeStep A t bufs t₁ w₁.host.bufs) (hs' : TreeStep A' t' bufs' t₁' w₁'.host.bufs) {ρ ρ' : Nat → Row bs}
    (hrows : TreeRows D A t₁ w₁.host.bufs ρ) (hrows' : TreeRows D' A' t₁' w₁'.host.bufs ρ')
    (hρ : ∀ n < 2 ^ t.height, (ρ n).Sim (ρ' n)) : CallSim mem D D' A A' t t' bufs bufs' t₁ t₁' w₁ w₁' := by
  refine ⟨⟨?_, ?_, ?_, ρ, ρ', hrows, hrows', ?_⟩, hw, hs, hs'⟩
  · rw [hs.height, hs'.height, h.height]
  · rw [hs.treeId, hs'.treeId, h.treeId]
  · rw [hs.height]
    exact h.lt
  · rwa [hs.height]

/-- What an access copies out does not depend on memory that the builds do not share. -/
def SameCopies (sz : BlockSize bs) (mem : Prop) (req : Request) : Prop :=
  mem ∨ sz.val = bs ∧ req.writeOffset + req.writeSize ≤ bs

theorem SameCopies.block {sz : BlockSize bs} {req : Request} (h : SameCopies sz mem req) {rest rest' : Buffer}
    (hrest : mem → rest' = rest) (f : Block bs) : (sz.copies rest' f req).block = (sz.copies rest f req).block := by
  rcases h with hmem | ⟨hsz, hfit⟩
  · rw [hrest hmem]
  · have hholds : ArrayStore.Holds (fun _ => f.byte) req.ind f := fun _ _ => rfl
    exact (hholds.exchange hsz hfit rest').2.trans (hholds.exchange hsz hfit rest).2.symm

variable (hD : D.Correct) (hD' : D'.Correct) {t : MemTree N} {t' : MemTree N'} {w : World bs B} {w' : World bs B'}
  (h : TreeSim D D' A A' t t' w.host.bufs w'.host.bufs) (hw : WorldSim mem w w')
include hD hD' h hw

theorem memTreeFetch_sim (p : BlockPath) (key : BlockKey) :
    (memTreeFetch D' t' p key w').fetchedBlock = (memTreeFetch D t p key w).fetchedBlock ∧
      CallSim mem D D' A A' t t' w.host.bufs w'.host.bufs (memTreeFetch D t p key w).tree
        (memTreeFetch D' t' p key w').tree (memTreeFetch D t p key w).world (memTreeFetch D' t' p key w').world := by
  obtain ⟨ρ, ρ', hrows, hrows', hρ⟩ := h.rows
  have hlt : t.height < 20 := h.lt
  have hlt' : t'.height < 20 := h.height ▸ hlt
  obtain ⟨hblock, hpath, hmm, htree, hstep, hhost⟩ := memTreeFetch_rows hD (by omega) p key hrows
  obtain ⟨hblock', hpath', hmm', htree', hstep', hhost'⟩ := memTreeFetch_rows hD' (by omega) p key hrows'
  rw [h.height] at hblock' hpath' htree'
  have hloop := fetchLoop_sim key (fill_sim hρ hw.path p)
  refine ⟨by rw [hblock, hblock', hloop.fetchedBlock], ?_⟩
  refine h.callSim ⟨?_, ?_, fun hmem => ?_⟩ hstep hstep' htree htree' (overlay_sim hρ hloop.path p)
  · rw [hpath, hpath']
    exact hloop.path
  · rw [hmm, hmm', hw.pathMm]
  · rw [hhost.fetched, hhost'.fetched, hw.fetched hmem]

theorem memTreePut_sim (h8 : 8 ∣ bs) (q : BlockPath) (key : BlockKey) (content : Block bs) :
    Option.Rel (fun put put' => put'.rootLoad = put.rootLoad ∧
        CallSim mem D D' A A' t t' w.host.bufs w'.host.bufs put.tree put'.tree put.world put'.world)
      (memTreePut D t q key content w) (memTreePut D' t' q key content w') := by
  obtain ⟨ρ, ρ', hrows, hrows', hρ⟩ := h.rows
  have hroot := hρ 0 (Nat.two_pow_pos t.height)
  obtain ⟨hrow, hsucc⟩ := obliviousNodeWrite_sim h8 hroot 0 0 key q content
  have hput := memTreePut_rows hD q key content hrows
  have hput' := memTreePut_rows hD' q key content hrows'
  simp only [hroot.numBlocks, hsucc] at hput'
  rcases hput with ⟨hnone, hfull⟩ | ⟨put, hsome, hdone⟩
  · rcases hput' with ⟨hnone', -⟩ | ⟨put', -, hdone'⟩
    · rw [hnone, hnone']
      exact Option.Rel.none
    · exact absurd ⟨hroot.numBlocks ▸ hdone'.room, hsucc ▸ hdone'.succ⟩ hfull
  · rcases hput' with ⟨-, hfull'⟩ | ⟨put', hsome', hdone'⟩
    · exact absurd ⟨hdone.room, hdone.succ⟩ hfull'
    · rw [hsome, hsome']
      refine Option.Rel.some ⟨?_, h.callSim ⟨?_, ?_, fun hmem => ?_⟩ hdone.step hdone'.step hdone.rows hdone'.rows ?_⟩
      · rw [hdone.rootLoad, hdone'.rootLoad, hrow.numBlocks]
      · rw [hdone.path, hdone'.path]
        exact hw.path.update 0 hrow
      · rw [hdone.pathMm, hdone'.pathMm, hw.pathMm]
      · rw [hdone.host.fetched, hdone'.host.fetched, hw.fetched hmem]
      · intro n hn
        by_cases hn0 : n = 0
        · subst hn0
          rw [Function.update_self, Function.update_self]
          exact hrow
        · rw [Function.update_of_ne hn0, Function.update_of_ne hn0]
          exact hρ n hn

theorem memTreeFlush_sim (h8 : 8 ∣ bs) (p : BlockPath) :
    CallSim mem D D' A A' t t' w.host.bufs w'.host.bufs (memTreeFlush D t p w).1 (memTreeFlush D' t' p w').1
      (memTreeFlush D t p w).2 (memTreeFlush D' t' p w').2 := by
  obtain ⟨ρ, ρ', hrows, hrows', hρ⟩ := h.rows
  have hlt : t.height < 20 := h.lt
  have hlt' : t'.height < 20 := h.height ▸ hlt
  obtain ⟨hpath, hmm, htree, hstep, hhost⟩ := memTreeFlush_rows hD (by omega) p hrows
  obtain ⟨hpath', hmm', htree', hstep', hhost'⟩ := memTreeFlush_rows hD' (by omega) p hrows'
  rw [h.height] at hpath' htree'
  have hsim := flushPasses_sim h8 t.height p (fill_sim hρ hw.path p) (t.height - 1)
  refine h.callSim ⟨?_, ?_, fun hmem => ?_⟩ hstep hstep' htree htree' (overlay_sim hρ hsim p)
  · rw [hpath, hpath']
    exact hsim
  · rw [hmm, hmm', hw.pathMm]
  · rw [hhost.fetched, hhost'.fetched, hw.fetched hmem]

/-- One level of an access. -/
theorem accessSimpleLevel_sim (h8 : 8 ∣ bs) {sz : BlockSize bs} (p : BlockPath) (draws : SimpleDraws) (key : BlockKey)
    {req : Request} (hsame : SameCopies sz mem req) :
    Option.Rel (fun l l' => l'.block = l.block ∧
        CallSim mem D D' A A' t t' w.host.bufs w'.host.bufs l.tree l'.tree l.world l'.world)
      (accessSimpleLevel D sz t p draws key req w) (accessSimpleLevel D' sz t' p draws key req w') := by
  obtain ⟨hblock, hfetch⟩ := memTreeFetch_sim hD hD' h hw p key
  rw [accessSimpleLevel_eq, accessSimpleLevel_eq, hblock, h.treeId]
  refine rel_map (memTreePut_sim hD hD' hfetch.tree hfetch.world h8 _ _ _) fun put put' ⟨hload, hput⟩ => ⟨?_, ?_⟩
  · exact hsame.block (fun hmem => by rw [hw.fetched hmem]) _
  have hlevel := hfetch.trans hput
  have hrest : mem → w'.host.fetched = w.host.fetched := hw.fetched
  have hflushed : CallSim mem D D' A A' t t' w.host.bufs w'.host.bufs (flushRoot D put draws.flushPath).1
      (flushRoot D' put' draws.flushPath).1 (flushRoot D put draws.flushPath).2
      (flushRoot D' put' draws.flushPath).2 := by
    simp only [flushRoot, hload]
    split
    · exact hlevel.trans (memTreeFlush_sim hD hD' hput.tree hput.world h8 draws.flushPath)
    · exact hlevel
  refine ⟨hflushed.tree, ⟨hflushed.world.path, hflushed.world.pathMm, fun hmem => ?_⟩, hflushed.step, hflushed.step'⟩
  show Function.update _ _ _ = Function.update _ _ _
  rw [hflushed.world.fetched hmem, hrest hmem]

end Trees

/-! ## Objects -/

section Objects
variable {mem : Prop} {N B N' B' : Type} {D : Build bs N B} {D' : Build bs N' B'} {A A' : BufferAddrs}

/-- The objects have related trees, numbered from `id` on. -/
inductive OramSim (D : Build bs N B) (D' : Build bs N' B') (A A' : BufferAddrs) (bufs : Addr → B)
    (bufs' : Addr → B') : Nat → SimpleOram N → SimpleOram N' → Prop
  | base {id capacity : Nat} {t : MemTree N} {t' : MemTree N'} (hid : t.treeId = id)
      (ht : TreeSim D D' A A' t t' bufs bufs') :
      OramSim D D' A A' bufs bufs' id (.base capacity t) (.base capacity t')
  | recursive {id capacity : Nat} {t : MemTree N} {t' : MemTree N'} {o : SimpleOram N} {o' : SimpleOram N'}
      (hid : t.treeId = id) (ht : TreeSim D D' A A' t t' bufs bufs') (ho : OramSim D D' A A' bufs bufs' (id + 1) o o') :
      OramSim D D' A A' bufs bufs' id (.recursive capacity t o) (.recursive capacity t' o')

theorem TreeSim.frame {id : Nat} {t : MemTree N} {t' : MemTree N'} {bufs bufs₁ : Addr → B}
    {bufs' bufs₁' : Addr → B'} (h : TreeSim D D' A A' t t' bufs bufs') (hid : t.treeId = id)
    (hs : SameBufs A {id} bufs bufs₁) (hs' : SameBufs A' {id} bufs' bufs₁') :
    TreeSim D D' A A' t t' bufs₁ bufs₁' := by
  subst hid
  obtain ⟨ρ, ρ', hrows, hrows', hρ⟩ := h.rows
  refine ⟨h.height, h.treeId, h.lt, ρ, ρ', hrows.frame hs, hrows'.frame ?_, hρ⟩
  rwa [h.treeId]

/-- An object whose trees are left alone. -/
theorem OramSim.frame {bufs bufs₁ : Addr → B} {bufs' bufs₁' : Addr → B'} {id : Nat} {o : SimpleOram N}
    {o' : SimpleOram N'} (h : OramSim D D' A A' bufs bufs' id o o') (hs : SameBufs A (Set.Ici id) bufs bufs₁)
    (hs' : SameBufs A' (Set.Ici id) bufs' bufs₁') : OramSim D D' A A' bufs₁ bufs₁' id o o' := by
  have hmem : ∀ id : Nat, {id} ⊆ Set.Ici id := fun _ => Set.singleton_subset_iff.mpr Set.self_mem_Ici
  induction h with
  | @base id _ _ _ hid ht => exact .base hid (ht.frame hid (hs.mono (hmem id)) (hs'.mono (hmem id)))
  | @recursive id _ _ _ _ _ hid ht _ ih =>
    have hsub : Set.Ici (id + 1) ⊆ Set.Ici id := Set.Ici_subset_Ici.mpr (Nat.le_succ id)
    exact .recursive hid (ht.frame hid (hs.mono (hmem id)) (hs'.mono (hmem id))) (ih (hs.mono hsub) (hs'.mono hsub))

theorem endsAlike_orAssert {σ α β : Type} {R : α → β → Prop} {a : Option α} {b : Option β} (h : Option.Rel R a b) :
    EndsAlike R Eq (orAssert a : Except (Stop σ) α) (orAssert b) := by
  cases h with
  | some h => exact .ok h
  | none => exact .error rfl

/-- Related results of an access to an object whose trees are numbered from `id` on. -/
structure AccessSim (mem : Prop) (D : Build bs N B) (D' : Build bs N' B') (A A' : BufferAddrs) (id : Nat)
    (bufs : Addr → B) (bufs' : Addr → B') (r : SimpleResult bs N B) (r' : SimpleResult bs N' B') : Prop where
  block : r'.block = r.block
  oram : OramSim D D' A A' r.world.host.bufs r'.world.host.bufs id r.oram r'.oram
  world : WorldSim mem r.world r'.world
  others : SameBufs A (Set.Iio id) bufs r.world.host.bufs
  others' : SameBufs A' (Set.Iio id) bufs' r'.world.host.bufs

theorem SameCopies.inner {sz : BlockSize bs} {req : Request} (h : SameCopies sz mem req)
    (hbs : sz.val / sizeofBlockPath ≠ 0) (q : BlockPath) : SameCopies sz mem (posMapRequest sz.val req.ind q) :=
  h.imp_right fun ⟨hsz, _⟩ => ⟨hsz, (posMapRequest_fits hbs req.ind q).trans hsz.le⟩

theorem accessSimpleOramWith_sim (X : ExchangeMm) (hD : D.Correct) (hD' : D'.Correct) (h8 : 8 ∣ bs) {sz : BlockSize bs}
    {id : Nat} {o : SimpleOram N} {o' : SimpleOram N'} (draws : Nat → SimpleDraws) {req : Request}
    (hsame : SameCopies sz mem req) {w : World bs B} {w' : World bs B'}
    (h : OramSim D D' A A' w.host.bufs w'.host.bufs id o o') (hw : WorldSim mem w w') :
    EndsAlike (AccessSim mem D D' A A' id w.host.bufs w'.host.bufs) Eq (accessSimpleOramWith X D sz o draws req w)
      (accessSimpleOramWith X D' sz o' draws req w') := by
  generalize hb : w.host.bufs = bufs at h
  generalize hb' : w'.host.bufs = bufs' at h
  induction h generalizing draws req w w' with
  | @base id _ t t' hid ht =>
    subst hb hb'
    simp only [accessSimpleOramWith, hw.pathMm]
    generalize X req.ind (draws 0).newBlockPath w.client.pathMm = e
    split_ifs
    · exact .error rfl
    · have htree : TreeSim D D' A A' t t' (w.withPathMm e.pathMm).host.bufs (w'.withPathMm e.pathMm).host.bufs := ht
      have hworld : WorldSim mem (w.withPathMm e.pathMm) (w'.withPathMm e.pathMm) := ⟨hw.path, rfl, hw.fetched⟩
      have hlevel := accessSimpleLevel_sim hD hD' htree hworld h8 e.blockPath (draws 0) (keyOf req.ind) hsame
      refine endsAlike_orAssert (rel_map hlevel fun l l' hl => ⟨hl.1, .base ?_ hl.2.tree, hl.2.world, ?_, ?_⟩)
      · exact hl.2.step.treeId.trans hid
      · exact hl.2.step.others.mono (hid ▸ below_subset _)
      · exact hl.2.step'.others.mono (hid ▸ ht.treeId ▸ below_subset _)
    · exact .error rfl
    · exact .error rfl
  | @recursive id _ t t' _ _ hid ht ho ih =>
    subst hb hb'
    rw [accessSimpleOramWith, accessSimpleOramWith]
    split_ifs with hind hbs
    · exact .error rfl
    · refine (ih (fun k => draws (k + 1)) (hsame.inner hbs (draws 0).newBlockPath) hw rfl rfl).bind
        fun inner inner' hin => ?_
      rw [hin.block]
      have hmem : {id} ⊆ Set.Iio (id + 1) := Set.singleton_subset_iff.mpr (Nat.lt_succ_self id)
      have hsub : Set.Iio id ⊆ Set.Iio (id + 1) := Set.Iio_subset_Iio (Nat.le_succ id)
      have hlevel := accessSimpleLevel_sim hD hD' (ht.frame hid (hin.others.mono hmem) (hin.others'.mono hmem)) hin.world
        h8 (pathOfBuffer inner.block) (draws 0) (keyOf req.ind) hsame
      refine endsAlike_orAssert (rel_map hlevel fun l l' hl =>
        ⟨hl.1, .recursive ?_ hl.2.tree ?_, hl.2.world, ?_, ?_⟩)
      · exact hl.2.step.treeId.trans hid
      · apply hin.oram.frame
        · exact hl.2.step.others.mono (hid ▸ above_subset _)
        · exact hl.2.step'.others.mono (hid ▸ ht.treeId ▸ above_subset _)
      · exact (hin.others.mono hsub).trans (hl.2.step.others.mono (hid ▸ below_subset _))
      · exact (hin.others'.mono hsub).trans (hl.2.step'.others.mono (hid ▸ ht.treeId ▸ below_subset _))
    · exact .error rfl

/-! ## Constructors -/

/-- Related fresh trees. -/
structure NewTreeSim (mem : Prop) (D : Build bs N B) (D' : Build bs N' B') (A A' : BufferAddrs) (id : Nat)
    (bufs : Addr → B) (bufs' : Addr → B') (ts : MemTree N × Process bs B) (ts' : MemTree N' × Process bs B') :
    Prop where
  dvd : 8 ∣ bs
  treeId : ts.1.treeId = id
  tree : TreeSim D D' A A' ts.1 ts'.1 ts.2.world.host.bufs ts'.2.world.host.bufs
  world : id = 1 → WorldSim mem ts.2.world ts'.2.world
  fetched : mem → ts'.2.world.host.fetched = ts.2.world.host.fetched
  others : SameBufs A {id}ᶜ bufs ts.2.world.host.bufs
  others' : SameBufs A' {id}ᶜ bufs' ts'.2.world.host.bufs

/-- Fresh trees of one height are related. -/
theorem Fresh.sim {id height : Nat} {t : MemTree N} {t' : MemTree N'} {bufs : Addr → B} {bufs' : Addr → B'}
    (h : Fresh D A id height t bufs) (h' : Fresh D' A' id height t' bufs') (hlt : height < clientMaxPath) :
    TreeSim D D' A A' t t' bufs bufs' := by
  refine ⟨h'.height.trans h.height.symm, h'.treeId.trans h.treeId.symm, h.height ▸ hlt, _, _, h.rows, h'.rows,
    fun n hn => ?_⟩
  rw [h.height] at hn
  refine ⟨?_, fun i => ?_, fun i hp => ?_⟩
  · rw [h.node n hn, h'.node n hn]
    rfl
  · rw [h.node n hn, h'.node n hn]
    exact ⟨rfl, rfl, rfl⟩
  · -- a fresh slot is empty
    rw [h.node n hn] at hp
    exact absurd rfl hp

theorem newSimpleTree_sim (hD : D.Correct) (hD' : D'.Correct) {id capacity : Nat}
    (hcap : computeTreeHeight capacity < clientMaxPath) (st : Process bs B) (st' : Process bs B')
    (hmem : mem → st'.world.host.fetched = st.world.host.fetched) :
    Option.Rel (NewTreeSim mem D D' A A' id st.world.host.bufs st'.world.host.bufs) (newSimpleTree D A id capacity st)
      (newSimpleTree D' A' id capacity st') := by
  have hclient : Option.Rel (fun c c' : Client bs => id = 1 → RowsSim c.path c'.path ∧ c'.pathMm = c.pathMm)
      (initClientOnce id capacity st.world.client) (initClientOnce id capacity st'.world.client) := by
    unfold initClientOnce
    split
    · rw [ecallInitClient, if_pos hcap]
      exact Option.Rel.some fun _ => ⟨fun _ => ⟨rfl, fun _ => ⟨rfl, rfl, rfl⟩, fun _ _ => rfl⟩, rfl⟩
    next hid => exact Option.Rel.some fun h => absurd h hid
  rw [newSimpleTree_eq, newSimpleTree_eq]
  refine rel_bind hclient fun c c' hc => ?_
  by_cases h8 : bs % 8 = 0
  · obtain ⟨t, host, ht⟩ := (initialize_completes D A id (computeTreeHeight capacity) st.world.host).mpr h8
    obtain ⟨t', host', ht'⟩ := (initialize_completes D' A' id (computeTreeHeight capacity) st'.world.host).mpr h8
    obtain ⟨-, hfresh, hothers⟩ := initialize_fresh hD ht
    obtain ⟨-, hfresh', hothers'⟩ := initialize_fresh hD' ht'
    have hfetched : mem → host'.fetched = host.fetched := fun h => by
      rw [initialize_fetched ht, initialize_fetched ht', hmem h]
    rw [ht, ht']
    refine Option.Rel.some ⟨Nat.dvd_of_mod_eq_zero h8, hfresh.treeId, hfresh.sim hfresh' hcap, ?_, hfetched, ?_, ?_⟩
    · intro hid
      exact ⟨(hc hid).1, (hc hid).2, hfetched⟩
    · exact fun id' hid n i => hothers id' n i hid
    · exact fun id' hid n i => hothers' id' n i hid
  · rw [initialize_fails D A id _ _ h8, initialize_fails D' A' id _ _ h8]
    exact Option.Rel.none

theorem newSimpleOram_sim (hD : D.Correct) (hD' : D'.Correct) (A A' : BufferAddrs) (sz : BlockSize bs) (capacity : Nat)
    (hcap : computeTreeHeight capacity < clientMaxPath) {st : Process bs B} {st' : Process bs B'}
    (hid : st'.nextOramId = st.nextOramId) (hmem : mem → st'.world.host.fetched = st.world.host.fetched) :
    Option.Rel (fun os os' => 8 ∣ bs ∧
        OramSim D D' A A' os.2.world.host.bufs os'.2.world.host.bufs st.nextOramId os.1 os'.1 ∧
        (st.nextOramId = 1 → WorldSim mem os.2.world os'.2.world) ∧
        (mem → os'.2.world.host.fetched = os.2.world.host.fetched))
      (newSimpleOram D A sz capacity st) (newSimpleOram D' A' sz capacity st') := by
  induction capacity using Nat.strong_induction_on generalizing st st' with
  | _ capacity ih =>
    by_cases hbase : capacity ≤ maxPosMap
    · rw [newSimpleOram_base D A sz hbase, newSimpleOram_base D' A' sz hbase, hid]
      refine rel_map (newSimpleTree_sim hD hD' hcap ⟨st.nextOramId + 1, st.world⟩ ⟨st.nextOramId + 1, st'.world⟩ hmem)
        fun ts ts' hts => ?_
      exact ⟨hts.dvd, .base hts.treeId hts.tree, hts.world, hts.fetched⟩
    · rw [not_le] at hbase
      rw [newSimpleOram_rec D A sz hbase, newSimpleOram_rec D' A' sz hbase, hid]
      split
      next hn =>
        have hlt := higherCapacity_lt hbase hn.2
        have hcap' := lt_of_le_of_lt (computeTreeHeight_mono hlt.le) hcap
        refine rel_bind (@ih _ hlt hcap' ⟨st.nextOramId + 1, st.world⟩ ⟨st.nextOramId + 1, st'.world⟩ rfl hmem)
          fun ps ps' ⟨_, hinner, _, hmem'⟩ => ?_
        refine rel_map (newSimpleTree_sim hD hD' hcap ps.2 ps'.2 hmem') fun ts ts' hts => ?_
        refine ⟨hts.dvd, .recursive hts.treeId hts.tree (hinner.frame (hts.others.mono ?_) (hts.others'.mono ?_)),
          hts.world, hts.fetched⟩
        · exact above_subset st.nextOramId
        · exact above_subset st.nextOramId
      next => exact Option.Rel.none

end Objects

/-! ## Runs -/

/-- One call of `AccessSimpleORAM` with the machine code of `ecall_write_mm_in_client`. -/
structure MachineSimpleAccess where
  access : SimpleAccess
  surroundings : X86.Surroundings

def runMachineSimpleAccess {N B : Type} (D : Build bs N B) (sz : BlockSize bs) (s : SimpleRun bs N B)
    (m : MachineSimpleAccess) : Except (Stop Unit) (SimpleRun bs N B) :=
  runSimpleAccessWith (X86.exchangeMm m.surroundings) D sz s m.access

/-- What the accesses to the only object of a process copy out, or how the process stops, in the constructor or in
an access. -/
def simpleOuts {N B : Type} (D : Build bs N B) (A : BufferAddrs) (sz : BlockSize bs) (capacity : Nat) (w : World bs B)
    (ms : List MachineSimpleAccess) : Except (Stop Unit) (List Buffer) := do
  let (o, st) ← orAssert (newSimpleOram D A sz capacity ⟨1, w⟩)
  let s ← ms.foldlM (runMachineSimpleAccess D sz) ⟨o, st.world, []⟩
  return s.outs

/-- The entry of `path_mm` that an access to entry `ind` exchanges. -/
def SimpleOram.mmIndex {N : Type} (blockSize : Nat) : SimpleOram N → Nat → Nat
  | .base _ _, ind => ind
  | .recursive _ _ posMap, ind => posMap.mmIndex blockSize (ind / (blockSize / sizeofBlockPath))

/-- An access of both builds, with what the machine code finds in each of them. -/
structure PairedAccess where
  access : SimpleAccess
  aes : X86.Surroundings
  plain : X86.Surroundings

/-- The access in the build with `AES_ENC`. -/
def PairedAccess.inAes (m : PairedAccess) : MachineSimpleAccess := ⟨m.access, m.aes⟩

/-- The access in the build without it. -/
def PairedAccess.inPlain (m : PairedAccess) : MachineSimpleAccess := ⟨m.access, m.plain⟩

/-- The exchange of entry `ind` finds the same word behind `*block_path` in both builds and leaves `client->path`
alone. -/
structure PairedAccess.Alike (m : PairedAccess) (ind : Nat) : Prop where
  behind : m.plain.behind 1 = m.aes.behind 1
  aes : m.aes.Spares ind
  plain : m.plain.Spares ind

section Exchange
variable {N B : Type} {D : Build bs N B} {sz : BlockSize bs} {X X' : ExchangeMm}

/-- An access depends on the exchange of one entry. -/
theorem accessSimpleOramWith_congr {o : SimpleOram N} {req : Request} (draws : Nat → SimpleDraws) (w : World bs B)
    (h : ∀ q mm, X' (o.mmIndex sz.val req.ind) q mm = X (o.mmIndex sz.val req.ind) q mm) :
    accessSimpleOramWith X' D sz o draws req w = accessSimpleOramWith X D sz o draws req w := by
  induction o generalizing draws req w with
  | base capacity t =>
    have h : ∀ q mm, X' req.ind q mm = X req.ind q mm := h
    simp only [accessSimpleOramWith, h]
  | recursive capacity t posMap ih =>
    have hinner : accessSimpleOramWith X' D sz posMap (fun k => draws (k + 1))
        (posMapRequest sz.val req.ind (draws 0).newBlockPath) w = _ := ih (fun k => draws (k + 1)) w h
    rw [accessSimpleOramWith, accessSimpleOramWith, hinner]

/-- An access keeps the objects. -/
theorem accessSimpleOramWith_mmIndex {o : SimpleOram N} {draws : Nat → SimpleDraws} {req : Request} {w : World bs B}
    {r : SimpleResult bs N B} (hrun : accessSimpleOramWith X D sz o draws req w = .ok r) (blockSize ind : Nat) :
    r.oram.mmIndex blockSize ind = o.mmIndex blockSize ind := by
  induction o generalizing draws req w r ind with
  | base capacity t =>
    obtain ⟨-, -, l, -, rfl⟩ := accessSimpleOramWith_base.mp hrun
    rfl
  | recursive capacity t posMap ih =>
    obtain ⟨-, inner, l, hinner, -, rfl⟩ := accessSimpleOramWith_rec.mp hrun
    exact ih hinner _

end Exchange

theorem PairedAccess.Alike.exchange {m : PairedAccess} {ind : Nat} (h : m.Alike ind) (q : BlockPath)
    (mm : Nat → BlockPath) : X86.exchangeMm m.plain ind q mm = X86.exchangeMm m.aes ind q mm :=
  X86.exchangeMm_congr h.behind h.aes h.plain q mm

/-- Related runs. -/
structure RunSim {N B N' B' : Type} (mem : Prop) (D : Build bs N B) (D' : Build bs N' B') (A A' : BufferAddrs)
    (s : SimpleRun bs N B) (s' : SimpleRun bs N' B') : Prop where
  oram : OramSim D D' A A' s.world.host.bufs s'.world.host.bufs 1 s.oram s'.oram
  world : WorldSim mem s.world s'.world
  outs : s'.outs = s.outs

theorem runSimpleAccessWith_sim {N B N' B' : Type} {mem : Prop} (X : ExchangeMm) {D : Build bs N B}
    {D' : Build bs N' B'} (hD : D.Correct) (hD' : D'.Correct) (h8 : 8 ∣ bs) {sz : BlockSize bs} {A A' : BufferAddrs}
    {s : SimpleRun bs N B} {s' : SimpleRun bs N' B'} (h : RunSim mem D D' A A' s s') {a : SimpleAccess}
    (hsame : SameCopies sz mem a.req) :
    EndsAlike (RunSim mem D D' A A') Eq (runSimpleAccessWith X D sz s a) (runSimpleAccessWith X D' sz s' a) := by
  have hsim := accessSimpleOramWith_sim X hD hD' h8 a.draws hsame h.oram h.world
  unfold runSimpleAccessWith
  generalize accessSimpleOramWith X D sz s.oram a.draws a.req s.world = r at hsim
  generalize accessSimpleOramWith X D' sz s'.oram a.draws a.req s'.world = r' at hsim
  cases hsim with
  | ok hok =>
    refine .ok ⟨hok.oram, hok.world, ?_⟩
    show s'.outs ++ [_] = s.outs ++ [_]
    rw [h.outs, hok.block]
  | error he => exact .error he

/-- With a common exchange of the position map the builds copy out the same bytes. -/
theorem simpleOuts_sim {N B N' B' : Type} {D : Build bs N B} {D' : Build bs N' B'} (hD : D.Correct) (hD' : D'.Correct)
    (A A' : BufferAddrs) {sz : BlockSize bs} {capacity : Nat} (hcap : computeTreeHeight capacity < clientMaxPath)
    (w : World bs B) (w' : World bs B') {ms : List MachineSimpleAccess}
    (hsame : ∀ m ∈ ms, SameCopies sz (w'.host.fetched = w.host.fetched) m.access.req) :
    simpleOuts D A sz capacity w ms = simpleOuts D' A' sz capacity w' ms := by
  have hnew := newSimpleOram_sim hD hD' A A' sz capacity hcap (show (⟨1, w'⟩ : Process bs B').nextOramId =
    (⟨1, w⟩ : Process bs B).nextOramId from rfl) (id : w'.host.fetched = w.host.fetched → _)
  unfold simpleOuts
  generalize newSimpleOram D A sz capacity ⟨1, w⟩ = new at hnew
  generalize newSimpleOram D' A' sz capacity ⟨1, w'⟩ = new' at hnew
  cases hnew with
  | none => rfl
  | @some os os' hos =>
    obtain ⟨h8, horam, hworld, -⟩ := hos
    have hruns := foldlM_endsAlike (f := runMachineSimpleAccess D sz) (g := runMachineSimpleAccess D' sz) (S := Eq)
      (R := fun _ => RunSim (w'.host.fetched = w.host.fetched) D D' A A') ms ⟨os.1, os.2.world, []⟩
      ⟨os'.1, os'.2.world, []⟩ ⟨horam, hworld rfl, rfl⟩ fun done m s s' hpre h =>
        runSimpleAccessWith_sim (X86.exchangeMm m.surroundings) hD hD' h8 h (hsame m (mem_of_step hpre))
    exact hruns.bind_eq fun s s' hs => congrArg Except.ok hs.outs.symm

/-- A build copies out the same bytes with other surroundings of `*block_path` that exchange alike. -/
theorem simpleOuts_alike {N B : Type} {D : Build bs N B} {A : BufferAddrs} {sz : BlockSize bs} {capacity : Nat}
    {w : World bs B} {ms : List PairedAccess}
    (halike : ∀ o st, newSimpleOram D A sz capacity ⟨1, w⟩ = some (o, st) →
      ∀ m ∈ ms, m.Alike (o.mmIndex sz.val m.access.req.ind)) :
    simpleOuts D A sz capacity w (ms.map PairedAccess.inAes) =
      simpleOuts D A sz capacity w (ms.map PairedAccess.inPlain) := by
  unfold simpleOuts
  cases hnew : newSimpleOram D A sz capacity ⟨1, w⟩ with
  | none => rfl
  | some os =>
    have hruns := foldlM_endsAlike (f := fun s (m : PairedAccess) => runMachineSimpleAccess D sz s m.inAes)
      (g := fun s (m : PairedAccess) => runMachineSimpleAccess D sz s m.inPlain) (S := Eq)
      (R := fun _ s s' => s = s' ∧ ∀ blockSize ind, s.oram.mmIndex blockSize ind = os.1.mmIndex blockSize ind) ms
      ⟨os.1, os.2.world, []⟩ ⟨os.1, os.2.world, []⟩ ⟨rfl, fun _ _ => rfl⟩ ?_
    · simp only [orAssert_some, List.foldlM_map]
      exact hruns.bind_eq fun s s' hs => by rw [hs.1]
    · rintro done m s _ hpre ⟨rfl, hshape⟩
      have hexchange : ∀ q mm, X86.exchangeMm m.plain (s.oram.mmIndex sz.val m.access.req.ind) q mm =
          X86.exchangeMm m.aes (s.oram.mmIndex sz.val m.access.req.ind) q mm := by
        rw [hshape]
        exact (halike os.1 os.2 hnew m (mem_of_step hpre)).exchange
      simp only [runMachineSimpleAccess, PairedAccess.inAes, PairedAccess.inPlain, runSimpleAccessWith,
        accessSimpleOramWith_congr m.access.draws s.world hexchange]
      cases hrun : accessSimpleOramWith (X86.exchangeMm m.aes) D sz s.oram m.access.draws m.access.req s.world with
      | error e => exact .error rfl
      | ok r =>
        exact .ok ⟨rfl, fun blockSize ind =>
          (accessSimpleOramWith_mmIndex hrun blockSize ind).trans (hshape blockSize ind)⟩

/-- The builds with and without `AES_ENC` copy out the same bytes and stop at the same access, as long as the machine
code finds the same word behind `*block_path` in both and leaves `client->path` alone, and no access copies memory out
that the builds do not share. -/
theorem builds_agree {N B : Type} {K : Cipher bs N B} (hK : K.Correct) (A A' : BufferAddrs) {sz : BlockSize bs}
    {capacity : Nat} (hcap : computeTreeHeight capacity < clientMaxPath) (w : World bs B) (w' : World bs (Block bs))
    {ms : List PairedAccess}
    (halike : ∀ o st, newSimpleOram .plain A' sz capacity ⟨1, w'⟩ = some (o, st) →
      ∀ m ∈ ms, m.Alike (o.mmIndex sz.val m.access.req.ind))
    (hsame : ∀ m ∈ ms, SameCopies sz (w'.host.fetched = w.host.fetched) m.access.req) :
    simpleOuts (.aes K) A sz capacity w (ms.map PairedAccess.inAes) =
      simpleOuts .plain A' sz capacity w' (ms.map PairedAccess.inPlain) := by
  have hD : (Build.aes K).Correct := hK
  have hcommon : simpleOuts (.aes K) A sz capacity w (ms.map PairedAccess.inAes) =
      simpleOuts .plain A' sz capacity w' (ms.map PairedAccess.inAes) := by
    refine simpleOuts_sim hD (Build.plain_correct bs) A A' hcap w w' fun m hm => ?_
    obtain ⟨p, hp, rfl⟩ := List.mem_map.mp hm
    exact hsame p hp
  exact hcommon.trans (simpleOuts_alike halike)

/-- Zeros around `*block_path` and `client->path`. -/
def zeroSurroundings : X86.Surroundings := ⟨fun _ => 0, 0, 0⟩

theorem builds_agree_twoWrites :
    simpleOuts (.aes (Cipher.pairing 8)) .numbered .eight 2 ⟨emptyClient 8, .filled none⟩
        ((twoWrites.map fun a => ⟨a, zeroSurroundings, zeroSurroundings⟩).map PairedAccess.inAes) =
      simpleOuts .plain .numbered .eight 2 ⟨emptyClient 8, .filled (zeroBlock 8)⟩
        ((twoWrites.map fun a => ⟨a, zeroSurroundings, zeroSurroundings⟩).map PairedAccess.inPlain) := by
  refine builds_agree (Cipher.pairing_correct 8) .numbered .numbered
    (computeTreeHeight_lt_clientMaxPath (by decide)) _ _ (fun _ _ _ m hm => ?_) fun m hm => Or.inr ⟨rfl, ?_⟩
  · obtain ⟨a, -, rfl⟩ := List.mem_map.mp hm
    exact ⟨rfl, fun _ => rfl, fun _ => rfl⟩
  · obtain ⟨a, ha, rfl⟩ := List.mem_map.mp hm
    revert a
    simp [twoWrites]

/-- Write entry 1, read entry 0, read entry 1. The word behind the second `*block_path` is 1 in the build with
`AES_ENC`, and 0 in the other one. -/
def behindDiffers : List PairedAccess :=
  [⟨⟨fun _ => ⟨.of 1, 1⟩, ⟨1, fun _ => 7, 8, 0⟩⟩, zeroSurroundings, zeroSurroundings⟩,
    ⟨⟨fun _ => ⟨.of 2, 0⟩, ⟨0, fun _ => 0, 0, 0⟩⟩, ⟨fun _ => 1, 0, 0⟩, zeroSurroundings⟩,
    ⟨⟨fun _ => ⟨.of 3, 0⟩, ⟨1, fun _ => 0, 0, 0⟩⟩, zeroSurroundings, zeroSurroundings⟩]

/-- What the accesses to the small object copy out, with the exchange written without its loop. -/
def smallOuts (ms : List MachineSimpleAccess) : Except (Stop Unit) (List Buffer) := do
  let (o, st) ← orAssert smallObject
  let s ← ms.foldlM (fun s (m : MachineSimpleAccess) => runSimpleAccessWith (fun ind blockPath pathMm =>
    if ind + 1 < maxPosMap then
      ⟨Function.update (Function.update pathMm ind blockPath) (ind + 1) (m.surroundings.behind 1), pathMm ind, true⟩
    else X86.exchangeMm m.surroundings ind blockPath pathMm) .plain .eight s m.access) ⟨o, st.world, []⟩
  return s.outs

theorem simpleOuts_small (ms : List MachineSimpleAccess) :
    simpleOuts .plain .numbered .eight 2 ⟨emptyClient 8, .filled (zeroBlock 8)⟩ ms = smallOuts ms := by
  rw [simpleOuts, smallOuts, newSimpleOram_smallObject]
  simp only [← X86.exchangeMm_eq_ite]
  rfl

/-- The first byte of the third output. -/
def thirdOut (r : Except (Stop Unit) (List Buffer)) : Option UInt8 :=
  (r.toOption.bind fun outs => outs[2]?).map fun b => b 0

/-- In the build without `AES_ENC` the second access overwrites the position of entry 1. -/
theorem builds_disagree :
    simpleOuts (.aes (Cipher.pairing 8)) .numbered .eight 2 ⟨emptyClient 8, .filled none⟩
        (behindDiffers.map PairedAccess.inAes) ≠
      simpleOuts .plain .numbered .eight 2 ⟨emptyClient 8, .filled (zeroBlock 8)⟩
        (behindDiffers.map PairedAccess.inPlain) := by
  have hcommon : simpleOuts (.aes (Cipher.pairing 8)) .numbered .eight 2 ⟨emptyClient 8, .filled none⟩
        (behindDiffers.map PairedAccess.inAes) =
      simpleOuts .plain .numbered .eight 2 ⟨emptyClient 8, .filled (zeroBlock 8)⟩
        (behindDiffers.map PairedAccess.inAes) := by
    have hK : (Build.aes (Cipher.pairing 8)).Correct := Cipher.pairing_correct 8
    refine simpleOuts_sim hK (Build.plain_correct 8) .numbered .numbered
      (computeTreeHeight_lt_clientMaxPath (by decide)) _ _ fun m hm => Or.inr ⟨rfl, ?_⟩
    revert m
    simp [behindDiffers, PairedAccess.inAes]
  rw [hcommon, simpleOuts_small, simpleOuts_small]
  have haes : thirdOut (smallOuts (behindDiffers.map PairedAccess.inAes)) = some 7 := by decide +kernel
  have hplain : thirdOut (smallOuts (behindDiffers.map PairedAccess.inPlain)) = some 0 := by decide +kernel
  intro heq
  rw [heq, hplain] at haes
  cases haes

end SgxOram
