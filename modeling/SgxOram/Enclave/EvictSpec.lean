import SgxOram.Enclave.StashSpec

/-!
# Eviction

* `and_pathMask_eq_iff` : the mask test of the scan is "the level-`h` nodes of the two paths agree"
  (`OnPath`);
* `scan_spec` : one scan of the stash moves blocks into `temp_node`, as many as fit of those that
  may be stored at level `h`;
* `writeBuffers_spec` : the four buffer writes of a level;
* `Evicted`, `evict_spec` : what a whole eviction does to the tree and the host's memory;
* `Placed`, `evict_placed` : where it puts the blocks, `temp_node` at the end of level `h` being `evictTemp`;
* `evict_decryptsTo`, `evict_bag_spec` : both together, if the buffers on the path are distinct.
-/

namespace SgxOram
open Lib Finset

variable {bs : Nat} {N B : Type}

theorem decryptData_encryptData {α γ : Type} {K : Aead α γ} (hK : K.Correct) (n : Nat) (a : α) :
    decryptData K (encryptData K n a) = a := by
  rw [decryptData, encryptData, hK]

/-! ## The mask test -/

/-- The level-`h` node of path `q` lies on path `p`. -/
def OnPath (p : BlockPath) (h : Nat) (q : BlockPath) : Prop := nodeAddr q.toNat h = nodeAddr p.toNat h

theorem onPath_iff (p q : BlockPath) (h : Nat) : OnPath p h q ↔ q.toNat % 2 ^ h = p.toNat % 2 ^ h :=
  nodeAddr_eq_iff q.toNat p.toNat h

/-- A path that meets `p` at a level meets it at all levels above. -/
theorem OnPath.mono {p q : BlockPath} {g h : Nat} (hgh : g ≤ h) (hq : OnPath p h q) : OnPath p g q :=
  nodeAddr_congr_of_le hgh hq

theorem toNat_pathMask {h : Nat} (hh : h < 32) : (pathMask h).toNat = 2 ^ h - 1 := by
  have hlt : 2 ^ h < 2 ^ 32 := Nat.pow_lt_pow_right (by decide) hh
  have hpos := Nat.two_pow_pos h
  have hshift : ((1 : UInt32) <<< UInt32.ofNat h).toNat = 2 ^ h := by
    rw [UInt32.toNat_shiftLeft, UInt32.toNat_ofNat']
    rw [Nat.mod_eq_of_lt (show h < 2 ^ 32 by omega), Nat.mod_eq_of_lt hh, Nat.shiftLeft_eq]
    simpa using Nat.mod_eq_of_lt hlt
  have hone : (1 : UInt32) ≤ (1 : UInt32) <<< UInt32.ofNat h := by
    rw [UInt32.le_iff_toNat_le, hshift]
    exact hpos
  rw [pathMask, UInt32.toNat_sub_of_le _ _ hone, hshift]
  rfl

theorem toNat_and_pathMask (q : UInt32) {h : Nat} (hh : h < 32) :
    (q &&& pathMask h).toNat = q.toNat % 2 ^ h := by
  rw [UInt32.toNat_and, toNat_pathMask hh, Nat.and_two_pow_sub_one_eq_mod]

/-- The mask test compares the level-`h` nodes of two paths. -/
theorem and_pathMask_eq_iff (p q : BlockPath) {h : Nat} (hh : h < 32) :
    q &&& pathMask h = p &&& pathMask h ↔ OnPath p h q := by
  rw [← UInt32.toNat_inj, toNat_and_pathMask q hh, toNat_and_pathMask p hh, OnPath, nodeAddr_eq_iff]

/-! ## Scanning the stash -/

theorem evictSlot_sameTables (h : Nat) (p : BlockPath) (c : Client bs) (place : Nat × Fin blocksPerNode) :
    c.SameTables (evictSlot h p c place) := by
  simp only [evictSlot]
  split <;> exact ⟨rfl, rfl, rfl, rfl⟩

theorem mem_stashPlaces {place : Nat × Fin blocksPerNode} :
    place ∈ stashPlaces ↔ place.1 < clientMaxPath := by
  simp [stashPlaces, Prod.ext_iff]

theorem nodup_stashPlaces : stashPlaces.Nodup := by
  show (List.product (List.range clientMaxPath) (List.finRange blocksPerNode)).Nodup
  exact List.nodup_range.product (List.nodup_finRange blocksPerNode)

/-- A row whose empty slots have key zero: what the download relies on. -/
def Row.KeysClear (r : Row bs) : Prop := ∀ i, (r.node.slots i).presenceBit = 0 → (r.node.slots i).blockKey = 0

/-- The place is scanned and its block stays: it is empty, may not go to level `h`, or finds no
room. -/
theorem evictSlot_stay {h : Nat} (hh : h < 32) {p : BlockPath} {c : Client bs}
    {place : Nat × Fin blocksPerNode}
    (hstay : ∀ b, (c.path place.1).blk place.2 = some b → OnPath p h b.path →
      blocksPerNode ≤ c.temp.node.numBlocks.toNat) :
    evictSlot h p c place = c := by
  have hsign : ((((c.path place.1).node.slots place.2).blockPath &&& pathMask h) == (p &&& pathMask h) &&
      decide (c.temp.node.numBlocks.toNat < blocksPerNode) &&
      decide (((c.path place.1).node.slots place.2).presenceBit > 0)) = false := by
    by_contra hne
    simp only [Bool.not_eq_false, Bool.and_eq_true, beq_iff_eq, decide_eq_true_eq] at hne
    obtain ⟨⟨hmask, hlt⟩, hp⟩ := hne
    have := hstay _ (Row.blk_of_present (UInt8.pos_iff_ne_zero.mp hp)) ((and_pathMask_eq_iff p _ hh).mp hmask)
    omega
  simp only [evictSlot, hsign, obliviousNodeTransfer_false]
  simp

/-- The stash and `temp_node` after the block `b` has moved. -/
structure Moved (c c' : Client bs) (place : Nat × Fin blocksPerNode) (b : Blk bs) : Prop where
  wf : RowsWf c.path → c.temp.Wf → RowsWf c'.path ∧ c'.temp.Wf
  temp : c'.temp.Counts
  clear : c.temp.KeysClear → c'.temp.KeysClear
  stash : stashBag c'.path + {b} = stashBag c.path
  tempBag : c'.temp.bag = c.temp.bag + {b}
  empty : (c'.path place.1).blk place.2 = none
  others : ∀ q, q ≠ place → (c'.path q.1).blk q.2 = (c.path q.1).blk q.2
  load : c'.stashLoad = c.stashLoad - 1
  subs : c'.subs = c.subs ++ [(c.path place.1).node.numBlocks, c.stashLoad]

/-- A row after the scan has taken the block of slot `j`: the key stays. -/
def Row.take (row : Row bs) (j : Fin blocksPerNode) : Row bs :=
  (row.setSlot j { row.node.slots j with presenceBit := 0 } (row.blocks j)).setNumBlocks
    (row.node.numBlocks - 1)

theorem evictSlot_eq {h : Nat} (hh : h < 32) {p : BlockPath} {c : Client bs}
    {place : Nat × Fin blocksPerNode} (hp : ((c.path place.1).node.slots place.2).presenceBit ≠ 0)
    (hpath : OnPath p h ((c.path place.1).node.slots place.2).blockPath)
    (hlt : c.temp.node.numBlocks.toNat < blocksPerNode) :
    evictSlot h p c place =
      { c with
        temp := obliviousNodeTransfer true c.temp ((c.path place.1).node.slots place.2).blockKey
          ((c.path place.1).node.slots place.2).blockPath
          ((c.path place.1).node.slots place.2).blockContent ((c.path place.1).blocks place.2) true
        path := Function.update c.path place.1 ((c.path place.1).take place.2)
        stashLoad := c.stashLoad - 1
        subs := c.subs ++ [(c.path place.1).node.numBlocks, c.stashLoad] } := by
  have hsign : ((((c.path place.1).node.slots place.2).blockPath &&& pathMask h) == (p &&& pathMask h) &&
      decide (c.temp.node.numBlocks.toNat < blocksPerNode) &&
      decide (((c.path place.1).node.slots place.2).presenceBit > 0)) = true := by
    simp only [Bool.and_eq_true, beq_iff_eq, decide_eq_true_eq]
    exact ⟨⟨(and_pathMask_eq_iff p _ hh).mpr hpath, hlt⟩, UInt8.pos_iff_ne_zero.mpr hp⟩
  simp only [evictSlot, hsign, if_true]
  rfl

theorem evictSlot_move (h8 : 8 ∣ bs) {h : Nat} (hh : h < 32) {p : BlockPath} {c : Client bs}
    {place : Nat × Fin blocksPerNode} (hplace : place.1 < clientMaxPath) (htemp : c.temp.Counts)
    {b : Blk bs} (hb : (c.path place.1).blk place.2 = some b)
    (hpath : OnPath p h b.path) (hlt : c.temp.node.numBlocks.toNat < blocksPerNode) :
    Moved c (evictSlot h p c place) place b := by
  have hp : ((c.path place.1).node.slots place.2).presenceBit ≠ 0 := (Row.blk_eq_some.mp hb).1
  obtain rfl : _ = b := Option.some.inj ((Row.blk_of_present hp).symm.trans hb)
  obtain ⟨i, hi, -, htransfer⟩ := obliviousNodeTransfer_of_first h8 true htemp
    ((c.path place.1).node.slots place.2).blockKey ((c.path place.1).node.slots place.2).blockPath
    ((c.path place.1).node.slots place.2).blockContent ((c.path place.1).blocks place.2) hlt
  obtain ⟨htempCounts, htempBag⟩ := obliviousNodeTransfer_bag h8 true htemp
    ((c.path place.1).node.slots place.2).blockKey ((c.path place.1).node.slots place.2).blockPath
    ((c.path place.1).node.slots place.2).blockContent ((c.path place.1).blocks place.2) hlt
  rw [evictSlot_eq hh hp hpath hlt]
  refine
    { wf := fun hrows htempWf => ?_, temp := htempCounts,
      clear := fun hcl j hj => ?_, stash := ?_, tempBag := htempBag, empty := ?_,
      others := fun q hq => ?_, load := rfl, subs := rfl }
  · have hrow := hrows place.1 hplace
    exact ⟨hrows.update (hrow.clear hb rfl _),
      obliviousNodeTransfer_wf h8 true htempWf _ _ _ (hrow.key_ne_zero place.2 hp) hlt⟩
  · simp only [htransfer] at hj ⊢
    by_cases hji : j = i
    · subst hji
      simp [newSlot] at hj
    · simp only [Row.setNumBlocks_slots, Row.setSlot_slots, Function.update_of_ne hji] at hj ⊢
      exact hcl j hj
  · have hbag : ((c.path place.1).take place.2).bag + {_} = (c.path place.1).bag :=
      Row.bag_setSlot_of_present hb rfl ((c.path place.1).blocks place.2)
    have hupd := stashBag_update c.path hplace ((c.path place.1).take place.2)
    rw [← hbag, ← add_assoc, add_right_comm] at hupd
    exact add_right_cancel hupd
  · exact Row.blk_eq_none.mpr (by simp [Row.take])
  · by_cases hr : q.1 = place.1
    · have hq2 : q.2 ≠ place.2 := fun e => hq (Prod.ext hr e)
      simp [hr, Row.take, Row.blk, Function.update_of_ne hq2]
    · simp [Function.update_of_ne hr]

/-- The client `c'` reached from `c` by scanning the places `done` for level `h` of path `p`. -/
structure Scanned (h : Nat) (p : BlockPath) (c c' : Client bs) (done : List (Nat × Fin blocksPerNode)) :
    Prop where
  wf : RowsWf c.path → c.temp.Wf → RowsWf c'.path ∧ c'.temp.Wf
  temp : c'.temp.Counts
  clear : c.temp.KeysClear → c'.temp.KeysClear
  bag : stashBag c'.path + c'.temp.bag = stashBag c.path + c.temp.bag
  onPath : ∀ b ∈ c'.temp.bag, b ∈ c.temp.bag ∨ OnPath p h b.path
  greedy : ∀ place ∈ done, ∀ b, (c'.path place.1).blk place.2 = some b → OnPath p h b.path →
    blocksPerNode ≤ c'.temp.node.numBlocks.toNat
  load : RowsWf c.path → c.temp.Wf → c.stashLoad.toNat = (stashBag c.path).card →
    c'.stashLoad.toNat = (stashBag c'.path).card ∧ ∃ subs', c'.subs = c.subs ++ subs' ∧ ∀ n ∈ subs', n ≠ 0

theorem load_pred {path path' : Nat → Row bs} {b : Blk bs} {load : UInt32}
    (h : load.toNat = (stashBag path).card) (hbag : stashBag path' + {b} = stashBag path) :
    load ≠ 0 ∧ (load - 1).toNat = (stashBag path').card := by
  have hmem : b ∈ stashBag path := hbag ▸ Multiset.mem_add.mpr (Or.inr (Multiset.mem_singleton_self b))
  refine ⟨counter_ne_zero h hmem, ?_⟩
  rw [← hbag, Multiset.card_add, Multiset.card_singleton] at h
  have hone : (1 : UInt32) ≤ load := by
    rw [UInt32.le_iff_toNat_le, h]
    exact Nat.le_add_left 1 _
  rw [UInt32.toNat_sub_of_le _ _ hone, h]
  rfl

theorem Scanned.step (h8 : 8 ∣ bs) {h : Nat} (hh : h < 32) {p : BlockPath} {c c₁ : Client bs}
    {done : List (Nat × Fin blocksPerNode)} (hs : Scanned h p c c₁ done)
    {place : Nat × Fin blocksPerNode} (hplace : place.1 < clientMaxPath) (hnew : place ∉ done) :
    Scanned h p c (evictSlot h p c₁ place) (done ++ [place]) := by
  by_cases hstay : ∀ b, (c₁.path place.1).blk place.2 = some b → OnPath p h b.path →
      blocksPerNode ≤ c₁.temp.node.numBlocks.toNat
  · rw [evictSlot_stay hh hstay]
    exact { hs with greedy := forall_mem_concat hs.greedy hstay }
  · push Not at hstay
    obtain ⟨b, hb, hpath, hlt⟩ := hstay
    have hm := evictSlot_move h8 hh hplace hs.temp hb hpath hlt
    generalize evictSlot h p c₁ place = c₂ at hm ⊢
    have hcount := hm.temp
    rw [Row.Counts, hm.tempBag, Multiset.card_add, Multiset.card_singleton, ← show _ = c₁.temp.bag.card from hs.temp]
      at hcount
    refine
      { wf := fun hrows htemp => ?_, temp := hm.temp,
        clear := fun hcl => hm.clear (hs.clear hcl), bag := ?_, onPath := fun b' hb' => ?_,
        greedy := fun q hq b' hb' hpath' => ?_, load := fun hrows htemp hload => ?_ }
    · obtain ⟨hrows₁, htemp₁⟩ := hs.wf hrows htemp
      exact hm.wf hrows₁ htemp₁
    · rw [hm.tempBag, ← hs.bag, ← hm.stash]
      abel
    · rw [hm.tempBag, Multiset.mem_add, Multiset.mem_singleton] at hb'
      rcases hb' with hb' | rfl
      · exact hs.onPath b' hb'
      · exact Or.inr hpath
    · rcases List.mem_append.mp hq with hq | hq
      · rw [hm.others q fun e => hnew (e ▸ hq)] at hb'
        have := hs.greedy q hq b' hb' hpath'
        omega
      · rw [List.mem_singleton.mp hq, hm.empty] at hb'
        cases hb'
    · obtain ⟨hload₁, subs', hsubs, hne⟩ := hs.load hrows htemp hload
      obtain ⟨hpos, hload₂⟩ := load_pred hload₁ hm.stash
      have hnum : (c₁.path place.1).node.numBlocks ≠ 0 :=
        counter_ne_zero ((hs.wf hrows htemp).1 place.1 hplace).count (Row.mem_bag.mpr ⟨place.2, hb⟩)
      refine ⟨?_, subs' ++ [(c₁.path place.1).node.numBlocks, c₁.stashLoad], ?_, ?_⟩
      · rw [hm.load]
        exact hload₂
      · rw [hm.subs, hsubs, List.append_assoc]
      · intro n hn
        rcases List.mem_append.mp hn with hn | hn
        · exact hne n hn
        · simp only [List.mem_cons, List.not_mem_nil, or_false] at hn
          rcases hn with rfl | rfl
          · exact hnum
          · exact hpos

/-- A scan of the whole stash. -/
theorem scan_spec (h8 : 8 ∣ bs) {h : Nat} (hh : h < 32) (p : BlockPath) {c : Client bs} (htemp : c.temp.Counts) :
    Scanned h p c (stashPlaces.foldl (evictSlot h p) c) stashPlaces := by
  refine foldl_inv (P := fun done c' => Scanned h p c c' done) stashPlaces c ?_ ?_
  · exact
      { wf := fun hrows htempWf => ⟨hrows, htempWf⟩, temp := htemp, clear := id, bag := rfl,
        onPath := fun b hb => Or.inl hb, greedy := fun q hq => absurd hq List.not_mem_nil,
        load := fun _ _ hl => ⟨hl, [], (List.append_nil _).symm, by simp⟩ }
  · intro done place c₁ hpre hs
    exact hs.step h8 hh (mem_stashPlaces.mp (mem_of_step hpre))
      (not_mem_of_done nodup_stashPlaces hpre)

/-- After a whole scan a block left in the stash could not go to level `h`, or the node is full. -/
theorem Scanned.full {h : Nat} {p : BlockPath} {c c' : Client bs} (hs : Scanned h p c c' stashPlaces)
    {b : Blk bs} (hb : b ∈ stashBag c'.path) (hpath : OnPath p h b.path) :
    c'.temp.bag.card = blocksPerNode := by
  obtain ⟨r, hr, hbr⟩ := mem_stashBag.mp hb
  obtain ⟨i, hi⟩ := Row.mem_bag.mp hbr
  have hge := hs.greedy (r, i) (mem_stashPlaces.mpr hr) b hi hpath
  rw [show _ = c'.temp.bag.card from hs.temp] at hge
  exact le_antisymm c'.temp.card_bag_le hge

/-! ## The buffers of a level -/

/-- The writes of one node and its buffers. -/
def nodeWrites (bs : Nat) (addrs : Fin blocksPerNode → Addr) (index : Nat) : List ServerAccess :=
  ⟨.node index, true, sizeofEncMemTreeNode⟩ ::
    (List.finRange blocksPerNode).map fun i => ⟨.buffer (addrs i), true, encBlockLen bs⟩

/-- The plaintext that the eviction writes for slot `i`. -/
def evictPlain (c : Client bs) (i : Fin blocksPerNode) : Block bs :=
  if (c.temp.node.slots i).presenceBit = 0 then c.dummyBlock else c.temp.blocks i

theorem writeBuffers_spec {K : Cipher bs N B} (hK : K.Correct) (c : Client bs) (host : Host B) :
    let host' := (List.finRange blocksPerNode).foldl (evictWriteBuffer K c) host
    host'.trace = host.trace ++ (List.finRange blocksPerNode).map (fun i =>
        ⟨.buffer (c.temp.node.slots i).blockContent, true, encBlockLen bs⟩) ∧
      (∀ a, (∀ i, a ≠ (c.temp.node.slots i).blockContent) → host'.bufs a = host.bufs a) ∧
      ((∀ i j, (c.temp.node.slots i).blockContent = (c.temp.node.slots j).blockContent → i = j) →
        ∀ i, decryptData K.block (host'.bufs (c.temp.node.slots i).blockContent) = evictPlain c i) := by
  have hoff : ∀ (host : Host B) (i : Fin blocksPerNode) (a : Addr), a ≠ (c.temp.node.slots i).blockContent →
      (evictWriteBuffer K c host i).bufs a = host.bufs a := fun _ _ _ ha => Function.update_of_ne ha _ _
  refine ⟨?_, fun a ha => foldl_writes_off hoff host fun i _ => ha i, fun hinj i => ?_⟩
  · refine foldl_inv (f := evictWriteBuffer K c) (P := fun done host' => host'.trace = host.trace ++ done.map fun i =>
      ⟨.buffer (c.temp.node.slots i).blockContent, true, encBlockLen bs⟩) (List.finRange blocksPerNode) host
      (by simp) ?_
    intro done i host₁ _ htrace
    simp [evictWriteBuffer, htrace]
  · refine foldl_writes_on (Q := fun i b => decryptData K.block b = evictPlain c i) hoff ?_ hinj
      (List.nodup_finRange _) host i (List.mem_finRange i)
    intro host i
    simp [evictWriteBuffer, decryptData_encryptData hK.block, evictPlain]

/-- The buffers written are authentic ciphertexts, and no other buffer ceases to be one. -/
theorem writeBuffers_accepts {K : Cipher bs N B} (hK : K.Correct) (c : Client bs) (host : Host B) {a : Addr}
    (ha : K.block.Accepts (host.bufs a) ∨ ∃ i, a = (c.temp.node.slots i).blockContent) :
    K.block.Accepts (((List.finRange blocksPerNode).foldl (evictWriteBuffer K c) host).bufs a) := by
  have key := foldl_inv (f := evictWriteBuffer K c)
    (P := fun done host' => (K.block.Accepts (host.bufs a) ∨ ∃ i ∈ done, a = (c.temp.node.slots i).blockContent) →
      K.block.Accepts (host'.bufs a))
    (List.finRange blocksPerNode) host (by simp) ?_
  · exact key (ha.imp_right fun ⟨i, hi⟩ => ⟨i, List.mem_finRange i, hi⟩)
  · intro done i host₁ _ hacc hor
    by_cases hai : a = (c.temp.node.slots i).blockContent
    · subst hai
      simp only [evictWriteBuffer, Function.update_self]
      exact hK.block.accepts _ _
    · simp only [evictWriteBuffer, Function.update_of_ne hai]
      apply hacc
      rcases hor with h | ⟨j, hj, haj⟩
      · exact Or.inl h
      · refine Or.inr ⟨j, (List.mem_append.mp hj).resolve_right fun hji => hai ?_, haj⟩
        rw [haj, List.mem_singleton.mp hji]

/-! ## One level -/

theorem scan_sameTables (h : Nat) (p : BlockPath) (c : Client bs) :
    c.SameTables (stashPlaces.foldl (evictSlot h p) c) :=
  foldl_inv (P := fun _ c' => c.SameTables c') stashPlaces c (Client.SameTables.refl c)
    fun _ place c' _ hc' => hc'.trans (evictSlot_sameTables h p c' place)

theorem evictScan_sameTables (h : Nat) (p : BlockPath) (c : Client bs) :
    c.SameTables (evictScan h p c) := by
  have hclear : c.SameTables { c with temp := { c.temp with node := zeroNode } } := ⟨rfl, rfl, rfl, rfl⟩
  exact hclear.trans (scan_sameTables h p _)

theorem restoreAddrs_sameTables (h : Nat) (c : Client bs) : c.SameTables (restoreAddrs h c) := ⟨rfl, rfl, rfl, rfl⟩

/-- The client after a level. -/
def levelClient (p : BlockPath) (c : Client bs) (h : Nat) : Client bs := restoreAddrs h (evictScan h p c)

theorem levelClient_sameTables (p : BlockPath) (c : Client bs) (h : Nat) :
    c.SameTables (levelClient p c h) := by
  exact (evictScan_sameTables h p c).trans (restoreAddrs_sameTables h _)

theorem levelClient_blockContent (p : BlockPath) (c : Client bs) {h : Nat} (hh : h < clientMaxPath)
    (i : Fin blocksPerNode) :
    ((levelClient p c h).temp.node.slots i).blockContent = c.encryptedDataAddrInPath h i :=
  (backedUpAddr_lt hh _ i).trans (congrFun (congrFun (evictScan_sameTables h p c).encryptedDataAddrInPath h) i)

theorem evictLevel_eq (K : Cipher bs N B) {addr : Nat → UInt32} (p : BlockPath) (t : MemTree N)
    (w : World bs B) {h a : Nat} (ha : (addr h).toNat = a) :
    evictLevel K addr p (t, w) h =
      ({ t with
          nodes := Function.update t.nodes a
            (encryptData K.node w.host.rand (levelClient p w.client h).temp.node) },
        { client := levelClient p w.client h
          host := (List.finRange blocksPerNode).foldl (evictWriteBuffer K (levelClient p w.client h))
            { w.host with
              rand := w.host.rand + 1
              trace := w.host.trace ++ [⟨.node a, true, sizeofEncMemTreeNode⟩] } }) := by
  subst ha
  rfl

/-- What the scan of level `h` does to the blocks. -/
structure LevelScanned (p : BlockPath) (h : Nat) (c c' : Client bs) : Prop where
  wf : RowsWf c.path → RowsWf c'.path ∧ c'.temp.Wf
  clear : c'.temp.KeysClear
  bag : stashBag c'.path + c'.temp.bag = stashBag c.path
  onPath : ∀ b ∈ c'.temp.bag, OnPath p h b.path
  greedy : ∀ b ∈ stashBag c'.path, OnPath p h b.path → c'.temp.bag.card = blocksPerNode
  load : RowsWf c.path → c.stashLoad.toNat = (stashBag c.path).card →
    c'.stashLoad.toNat = (stashBag c'.path).card ∧ ∃ subs', c'.subs = c.subs ++ subs' ∧ ∀ n ∈ subs', n ≠ 0

theorem evictScan_spec (h8 : 8 ∣ bs) {h : Nat} (hh : h < 32) (p : BlockPath) (c : Client bs) :
    LevelScanned p h c (evictScan h p c) := by
  have hwf : (⟨zeroNode, c.temp.blocks⟩ : Row bs).Wf := Row.Wf.of_empty (fun _ => rfl) rfl
  have hzero : (⟨zeroNode, c.temp.blocks⟩ : Row bs).bag = 0 := Row.bag_of_empty fun _ => rfl
  have hs := scan_spec (c := { c with temp := { c.temp with node := zeroNode } }) h8 hh p hwf.count
  exact
    { wf := fun hrows => hs.wf hrows hwf, clear := hs.clear fun _ _ => rfl,
      bag := hs.bag.trans (by rw [hzero, add_zero]),
      onPath := fun b hb => (hs.onPath b hb).resolve_left (by rw [hzero]; exact Multiset.notMem_zero b),
      greedy := fun b hb hpath => hs.full hb hpath, load := fun hrows => hs.load hrows hwf }

/-- The addresses in `temp_node` do not matter. -/
theorem LevelScanned.restore {p : BlockPath} {h : Nat} {c c' : Client bs} (hs : LevelScanned p h c c') (g : Nat) :
    LevelScanned p h c (restoreAddrs g c') := by
  refine
    { wf := fun hrows => ?_, clear := hs.clear, bag := hs.bag, onPath := hs.onPath, greedy := hs.greedy, load := hs.load }
  obtain ⟨hrows', htemp⟩ := hs.wf hrows
  exact ⟨hrows', htemp.bit, htemp.key_ne_zero, htemp.count⟩

theorem levelClient_spec (h8 : 8 ∣ bs) {h : Nat} (hh : h < 32) (p : BlockPath) (c : Client bs) :
    LevelScanned p h c (levelClient p c h) :=
  (evictScan_spec h8 hh p c).restore h

/-- What an eviction along `p` has done after the levels `done`, whatever the stash holds. -/
structure Evicted (K : Cipher bs N B) (p : BlockPath) (t : MemTree N) (w : World bs B) (done : List Nat)
    (t' : MemTree N) (w' : World bs B) : Prop where
  treeId : t'.treeId = t.treeId
  height : t'.height = t.height
  tables : w.client.SameTables w'.client
  trace : w'.host.trace = w.host.trace ++ done.flatMap fun h =>
    nodeWrites bs (w.client.encryptedDataAddrInPath h) (nodeAddr p.toNat h)
  nodes : ∀ n, (∀ h ∈ done, n ≠ nodeAddr p.toNat h) → t'.nodes n = t.nodes n
  bufs : ∀ a, (∀ h ∈ done, ∀ i, a ≠ w.client.encryptedDataAddrInPath h i) → w'.host.bufs a = w.host.bufs a
  addrs : ∀ h ∈ done, ∀ i,
    ((decryptData K.node (t'.nodes (nodeAddr p.toNat h))).slots i).blockContent =
      w.client.encryptedDataAddrInPath h i
  nodesAccepted : ∀ n, (K.node.Accepts (t.nodes n) ∨ ∃ h ∈ done, n = nodeAddr p.toNat h) →
    K.node.Accepts (t'.nodes n)
  bufsAccepted : ∀ a, (K.block.Accepts (w.host.bufs a) ∨ ∃ h ∈ done, ∃ i, a = w.client.encryptedDataAddrInPath h i) →
    K.block.Accepts (w'.host.bufs a)

theorem Evicted.refl (K : Cipher bs N B) (p : BlockPath) (t : MemTree N) (w : World bs B) :
    Evicted K p t w [] t w where
  treeId := rfl
  height := rfl
  tables := Client.SameTables.refl _
  trace := by simp
  nodes _ _ := rfl
  bufs _ _ := rfl
  addrs h hh := absurd hh List.not_mem_nil
  nodesAccepted n h := h.resolve_right (by simp)
  bufsAccepted a h := h.resolve_right (by simp)

theorem Evicted.step {K : Cipher bs N B} (hK : K.Correct) {p : BlockPath} {t t₁ : MemTree N}
    {w w₁ : World bs B} {done : List Nat} (he : Evicted K p t w done t₁ w₁) {addr : Nat → UInt32}
    {h : Nat} (hh : h < clientMaxPath) (ha : (addr h).toNat = nodeAddr p.toNat h) (hnew : h ∉ done) :
    Evicted K p t w (done ++ [h]) (evictLevel K addr p (t₁, w₁) h).1 (evictLevel K addr p (t₁, w₁) h).2 := by
  have henc := he.tables.encryptedDataAddrInPath
  have haddr : ∀ i, ((levelClient p w₁.client h).temp.node.slots i).blockContent =
      w.client.encryptedDataAddrInPath h i := fun i => by
    rw [levelClient_blockContent p _ hh, henc]
  rw [evictLevel_eq K p t₁ w₁ ha]
  obtain ⟨htrace, hbufs, -⟩ := writeBuffers_spec hK (levelClient p w₁.client h)
    { w₁.host with
      rand := w₁.host.rand + 1
      trace := w₁.host.trace ++ [⟨.node (nodeAddr p.toNat h), true, sizeofEncMemTreeNode⟩] }
  refine
    { treeId := he.treeId, height := he.height,
      tables := he.tables.trans (levelClient_sameTables p w₁.client h), trace := ?_,
      nodes := fun n hn => ?_, bufs := fun a ha => ?_, addrs := forall_mem_concat (fun g hg i => ?_) fun i => ?_,
      nodesAccepted := fun n hn => ?_, bufsAccepted := fun a ha => ?_ }
  · rw [htrace, he.trace]
    simp [nodeWrites, haddr]
  · have hne := hn h (by simp)
    simp only [Function.update_of_ne hne]
    exact he.nodes n fun g hg => hn g (List.mem_append_left _ hg)
  · rw [hbufs a fun i => haddr i ▸ ha h (by simp) i]
    exact he.bufs a fun g hg => ha g (List.mem_append_left _ hg)
  · have hgh : nodeAddr p.toNat g ≠ nodeAddr p.toNat h := fun e =>
      hnew (nodeAddr_injective p.toNat e ▸ hg)
    simp only [Function.update_of_ne hgh]
    exact he.addrs g hg i
  · simp [decryptData_encryptData hK.node, haddr]
  · by_cases hnh : n = nodeAddr p.toNat h
    · subst hnh
      simp only [Function.update_self]
      exact hK.node.accepts _ _
    · simp only [Function.update_of_ne hnh]
      apply he.nodesAccepted n (hn.imp_right _)
      rintro ⟨g, hg, hng⟩
      exact ⟨g, (List.mem_append.mp hg).resolve_right fun hgh => hnh (List.mem_singleton.mp hgh ▸ hng), hng⟩
  · apply writeBuffers_accepts hK
    by_cases hah : ∃ i, a = w.client.encryptedDataAddrInPath h i
    · obtain ⟨i, hi⟩ := hah
      exact Or.inr ⟨i, hi.trans (haddr i).symm⟩
    · refine Or.inl (he.bufsAccepted a (ha.imp_right ?_))
      rintro ⟨g, hg, i, hi⟩
      exact ⟨g, (List.mem_append.mp hg).resolve_right fun hgh => hah ⟨i, List.mem_singleton.mp hgh ▸ hi⟩, i, hi⟩

/-! ## The blocks over a whole eviction -/

theorem nodeRow_congr {K : Cipher bs N B} {t t' : MemTree N} {bufs bufs' : Addr → B} {n : Nat}
    (hn : t'.nodes n = t.nodes n)
    (hb : ∀ i, bufs' ((decryptData K.node (t.nodes n)).slots i).blockContent =
      bufs ((decryptData K.node (t.nodes n)).slots i).blockContent) :
    nodeRow K t' bufs' n = nodeRow K t bufs n := by
  simp only [nodeRow, hn, hb]

/-- The bag of a row depends on the blocks of its present slots only. -/
theorem Row.bag_congr {r r' : Row bs} (hn : r'.node = r.node)
    (hb : ∀ i, (r.node.slots i).presenceBit ≠ 0 → r'.blocks i = r.blocks i) : r'.bag = r.bag := by
  refine congrArg Lib.bag (funext fun i => ?_)
  by_cases hi : (r.node.slots i).presenceBit = 0
  · rw [Row.blk_eq_none.mpr hi, Row.blk_eq_none.mpr (hn ▸ hi)]
  · rw [Row.blk_of_present hi, Row.blk_of_present (hn ▸ hi), hn, hb i hi]

/-- The client `c'` after the levels `done`, when `temps h` was `temp_node` at the end of level `h`. -/
structure Placed (p : BlockPath) (c c' : Client bs) (done : List Nat) (temps : Nat → Row bs) : Prop where
  wf : RowsWf c.path → RowsWf c'.path ∧ ∀ h ∈ done, (temps h).Wf
  clear : ∀ h ∈ done, (temps h).KeysClear
  bag : stashBag c'.path + (done.map fun h => (temps h).bag).sum = stashBag c.path
  onPath : ∀ h ∈ done, ∀ b ∈ (temps h).bag, OnPath p h b.path
  greedy : ∀ h ∈ done, ∀ b, (b ∈ stashBag c'.path ∨ ∃ g ∈ done, g < h ∧ b ∈ (temps g).bag) → OnPath p h b.path →
    (temps h).bag.card = blocksPerNode
  load : RowsWf c.path → c.stashLoad.toNat = (stashBag c.path).card →
    c'.stashLoad.toNat = (stashBag c'.path).card ∧ ∃ subs', c'.subs = c.subs ++ subs' ∧ ∀ n ∈ subs', n ≠ 0

theorem Placed.refl (p : BlockPath) (c : Client bs) (temps : Nat → Row bs) : Placed p c c [] temps where
  wf hrows := ⟨hrows, fun _ hh => absurd hh List.not_mem_nil⟩
  clear _ hh := absurd hh List.not_mem_nil
  bag := by simp
  onPath _ hh := absurd hh List.not_mem_nil
  greedy _ hh := absurd hh List.not_mem_nil
  load _ hl := ⟨hl, [], (List.append_nil _).symm, by simp⟩

theorem Placed.step (h8 : 8 ∣ bs) {p : BlockPath} {c c₁ : Client bs} {done : List Nat} {temps : Nat → Row bs}
    (hp : Placed p c c₁ done temps) {h : Nat} (hh : h < 32) (hbelow : ∀ g ∈ done, h < g)
    (htemp : temps h = (levelClient p c₁ h).temp) : Placed p c (levelClient p c₁ h) (done ++ [h]) temps := by
  have hlevel := levelClient_spec h8 hh p c₁
  -- what is left after this level, or goes to it, was in the stash before it
  have hbefore : ∀ b, b ∈ stashBag (levelClient p c₁ h).path ∨ b ∈ (temps h).bag → b ∈ stashBag c₁.path := by
    intro b hb
    rw [← hlevel.bag, Multiset.mem_add, ← htemp]
    exact hb
  refine
    { wf := fun hrows => ?_, clear := ?_, bag := ?_, onPath := ?_,
      greedy := fun g hg b hb => ?_, load := fun hrows hl => ?_ }
  · obtain ⟨hrows₁, hwf⟩ := hp.wf hrows
    obtain ⟨hrows₂, hwf'⟩ := hlevel.wf hrows₁
    exact ⟨hrows₂, forall_mem_concat hwf (by rwa [htemp])⟩
  · apply forall_mem_concat hp.clear
    rw [htemp]
    exact hlevel.clear
  · rw [List.map_append, List.sum_append, List.map_singleton, List.sum_singleton, ← hp.bag, ← hlevel.bag, htemp]
    abel
  · apply forall_mem_concat hp.onPath
    rw [htemp]
    exact hlevel.onPath
  · rcases List.mem_append.mp hg with hg | hg
    · apply hp.greedy g hg b
      rcases hb with hb | ⟨f, hf, hfg, hb⟩
      · exact Or.inl (hbefore b (Or.inl hb))
      · rcases List.mem_append.mp hf with hf | hf
        · exact Or.inr ⟨f, hf, hfg, hb⟩
        · rw [List.mem_singleton.mp hf] at hb
          exact Or.inl (hbefore b (Or.inr hb))
    · rw [List.mem_singleton.mp hg, htemp]
      rcases hb with hb | ⟨f, hf, hfg, hb⟩
      · exact hlevel.greedy b hb
      · rw [List.mem_singleton.mp hg] at hfg
        rcases List.mem_append.mp hf with hf | hf
        · exact absurd hfg (hbelow f hf).asymm
        · exact absurd (List.mem_singleton.mp hf) hfg.ne
  · obtain ⟨hl₁, subs₁, hsubs₁, hne₁⟩ := hp.load hrows hl
    obtain ⟨hl₂, subs₂, hsubs₂, hne₂⟩ := hlevel.load (hp.wf hrows).1 hl₁
    refine ⟨hl₂, subs₁ ++ subs₂, by rw [hsubs₂, hsubs₁, List.append_assoc], fun n hn => ?_⟩
    exact (List.mem_append.mp hn).elim (hne₁ n) (hne₂ n)

/-- What an eviction along `p` does to the blocks, when the buffers of the path are distinct. -/
structure EvictedBag (K : Cipher bs N B) (p : BlockPath) (w : World bs B) (done : List Nat)
    (t' : MemTree N) (w' : World bs B) : Prop where
  rows : RowsWf w.client.path → RowsWf w'.client.path
  wf : RowsWf w.client.path → ∀ h ∈ done, (nodeRow K t' w'.host.bufs (nodeAddr p.toNat h)).Wf
  clear : ∀ h ∈ done, (nodeRow K t' w'.host.bufs (nodeAddr p.toNat h)).KeysClear
  bag : stashBag w'.client.path +
    (done.map fun h => (nodeRow K t' w'.host.bufs (nodeAddr p.toNat h)).bag).sum = stashBag w.client.path
  onPath : ∀ h ∈ done, ∀ b ∈ (nodeRow K t' w'.host.bufs (nodeAddr p.toNat h)).bag, OnPath p h b.path
  greedy : ∀ h ∈ done, ∀ b, (b ∈ stashBag w'.client.path ∨
      ∃ g ∈ done, g < h ∧ b ∈ (nodeRow K t' w'.host.bufs (nodeAddr p.toNat g)).bag) → OnPath p h b.path →
    (nodeRow K t' w'.host.bufs (nodeAddr p.toNat h)).bag.card = blocksPerNode
  load : RowsWf w.client.path → w.client.stashLoad.toNat = (stashBag w.client.path).card →
    w'.client.stashLoad.toNat = (stashBag w'.client.path).card ∧
      ∃ subs', w'.client.subs = w.client.subs ++ subs' ∧ ∀ n ∈ subs', n ≠ 0

/-- The nodes of the levels `done` decrypt to the rows `temps`, block for block. -/
def DecryptsTo (K : Cipher bs N B) (p : BlockPath) (t : MemTree N) (bufs : Addr → B) (done : List Nat)
    (temps : Nat → Row bs) : Prop :=
  ∀ h ∈ done, (nodeRow K t bufs (nodeAddr p.toNat h)).node = (temps h).node ∧
    (nodeRow K t bufs (nodeAddr p.toNat h)).bag = (temps h).bag

theorem Placed.evictedBag {K : Cipher bs N B} {p : BlockPath} {t' : MemTree N} {w w' : World bs B} {done : List Nat}
    {temps : Nat → Row bs} (hp : Placed p w.client w'.client done temps)
    (hd : DecryptsTo K p t' w'.host.bufs done temps) : EvictedBag K p w done t' w' where
  rows hrows := (hp.wf hrows).1
  wf hrows h hh := by
    have hwf := (hp.wf hrows).2 h hh
    obtain ⟨hnode, hbag⟩ := hd h hh
    exact ⟨hnode ▸ hwf.bit, hnode ▸ hwf.key_ne_zero, by rw [hnode, hbag]; exact hwf.count⟩
  clear h hh i := by
    rw [(hd h hh).1]
    exact hp.clear h hh i
  bag := by
    rw [← hp.bag, List.map_congr_left fun h hh => (hd h hh).2]
  onPath h hh := by
    rw [(hd h hh).2]
    exact hp.onPath h hh
  greedy h hh b hb := by
    rw [(hd h hh).2]
    refine hp.greedy h hh b (hb.imp_right ?_)
    rintro ⟨g, hg, hgh, hb⟩
    exact ⟨g, hg, hgh, (hd g hg).2 ▸ hb⟩
  load := hp.load

/-- The node written for level `h` decrypts to `temp_node`, block for block. -/
theorem evictLevel_nodeRow {K : Cipher bs N B} (hK : K.Correct) {addr : Nat → UInt32} (p : BlockPath)
    (t : MemTree N) (w : World bs B) {h a : Nat} (hh : h < clientMaxPath) (ha : (addr h).toNat = a)
    (hinj : ∀ i j, w.client.encryptedDataAddrInPath h i = w.client.encryptedDataAddrInPath h j → i = j) :
    let r := evictLevel K addr p (t, w) h
    (nodeRow K r.1 r.2.host.bufs a).node = (levelClient p w.client h).temp.node ∧
      (nodeRow K r.1 r.2.host.bufs a).bag = (levelClient p w.client h).temp.bag := by
  rw [evictLevel_eq K p t w ha]
  obtain ⟨-, -, hwritten⟩ := writeBuffers_spec hK (levelClient p w.client h)
    { w.host with
      rand := w.host.rand + 1
      trace := w.host.trace ++ [⟨.node a, true, sizeofEncMemTreeNode⟩] }
  have hblocks := hwritten fun i j hij => hinj i j <| by
    rwa [levelClient_blockContent p _ hh, levelClient_blockContent p _ hh] at hij
  have hnode : ∀ bufs, (nodeRow K
      { t with
        nodes := Function.update t.nodes a
          (encryptData K.node w.host.rand (levelClient p w.client h).temp.node) } bufs a).node =
      (levelClient p w.client h).temp.node := fun bufs => by
    simp [nodeRow, decryptData_encryptData hK.node]
  refine ⟨hnode _, Row.bag_congr (hnode _) fun i hi => ?_⟩
  simp only [nodeRow, Function.update_self, decryptData_encryptData hK.node]
  rw [hblocks i, evictPlain, if_neg hi]

theorem DecryptsTo.step {K : Cipher bs N B} (hK : K.Correct) {p : BlockPath} {t t₁ : MemTree N} {w w₁ : World bs B}
    {done : List Nat} {temps : Nat → Row bs} (he : Evicted K p t w done t₁ w₁)
    (hd : DecryptsTo K p t₁ w₁.host.bufs done temps) {addr : Nat → UInt32} {h : Nat} (hh : h < clientMaxPath)
    (ha : (addr h).toNat = nodeAddr p.toNat h) (hnew : h ∉ done)
    (htemp : temps h = (levelClient p w₁.client h).temp)
    (hinj : ∀ i j, w.client.encryptedDataAddrInPath h i = w.client.encryptedDataAddrInPath h j → i = j)
    (hdisj : ∀ g ∈ done, ∀ i j, w.client.encryptedDataAddrInPath g i ≠ w.client.encryptedDataAddrInPath h j) :
    DecryptsTo K p (evictLevel K addr p (t₁, w₁) h).1 (evictLevel K addr p (t₁, w₁) h).2.host.bufs (done ++ [h])
      temps := by
  have henc := he.tables.encryptedDataAddrInPath
  refine forall_mem_concat (fun g hg => ?_) ?_
  · -- the nodes of the levels already done keep their ciphertexts and their buffers
    have hgh : nodeAddr p.toNat g ≠ nodeAddr p.toNat h := fun e =>
      hnew (nodeAddr_injective p.toNat e ▸ hg)
    have hkeep : nodeRow K (evictLevel K addr p (t₁, w₁) h).1 (evictLevel K addr p (t₁, w₁) h).2.host.bufs
        (nodeAddr p.toNat g) = nodeRow K t₁ w₁.host.bufs (nodeAddr p.toNat g) := by
      rw [evictLevel_eq K p t₁ w₁ ha]
      refine nodeRow_congr (Function.update_of_ne hgh _ _) fun i => ?_
      refine (writeBuffers_spec hK _ _).2.1 _ fun j => ?_
      rw [he.addrs g hg i, levelClient_blockContent p _ hh, henc]
      exact hdisj g hg i j
    rw [hkeep]
    exact hd g hg
  · rw [htemp]
    exact evictLevel_nodeRow hK p t₁ w₁ hh ha fun i j hij => hinj i j (by rwa [henc] at hij)

/-! ## The whole eviction -/

theorem evictAddrTable_spec {height : Nat} (hh : height ≤ 31) (p : BlockPath) {h : Nat} (hlt : h ≤ height) :
    (evictAddrTable height p h).toNat = nodeAddr p.toNat h := by
  have key := foldl_inv
    (f := fun (st : (Nat → UInt32) × UInt32) h =>
      (Function.update st.1 (h + 1) (st.1 h * 2 + 1 + st.2 % 2), st.2 / 2))
    (P := fun done st => st.2.toNat = p.toNat / 2 ^ done.length ∧
      ∀ g ≤ done.length, (st.1 g).toNat = nodeAddr p.toNat g)
    (List.range height) (fun _ => 0, p) ⟨by simp, fun g hg => by simp [Nat.le_zero.mp hg]⟩ ?_
  · exact key.2 h (by simpa using hlt)
  · rintro done g st hpre ⟨hp, haddr⟩
    obtain ⟨rfl, hg⟩ := range_of_done hpre
    rw [List.length_range] at hp haddr
    obtain ⟨ha', hp'⟩ := addr_step (haddr g le_rfl) hp (by omega)
    rw [List.length_append, List.length_range, List.length_singleton]
    refine ⟨hp', fun f hf => ?_⟩
    by_cases hfg : f = g + 1
    · subst hfg
      simpa using ha'
    · simp only [Function.update_of_ne hfg]
      exact haddr f (by omega)

/-- The levels in the order of the eviction. -/
def evictLevels (height : Nat) : List Nat := (List.range height).reverse

theorem mem_evictLevels {height h : Nat} : h ∈ evictLevels height ↔ h < height := by
  simp [evictLevels]

theorem sum_evictLevels (height : Nat) (f : Nat → Multiset (Blk bs)) :
    ((evictLevels height).map f).sum = ∑ h ∈ range height, f h := by
  rw [evictLevels, List.map_reverse, List.sum_reverse]
  rfl

theorem nodup_evictLevels (height : Nat) : (evictLevels height).Nodup :=
  List.nodup_reverse.mpr List.nodup_range

/-- The eviction goes from the leaf to the root. -/
theorem lt_of_prefix_evictLevels {height h g : Nat} {done : List Nat}
    (hpre : done ++ [h] <+: evictLevels height) (hg : g ∈ done) : h < g := by
  have hsorted : (evictLevels height).Pairwise (fun a b => b < a) :=
    List.pairwise_reverse.mpr List.pairwise_lt_range
  have hpart := hsorted.sublist hpre.sublist
  rw [List.pairwise_append] at hpart
  exact hpart.2.2 g hg h (List.mem_singleton_self h)

/-- What every eviction does, whatever the stash holds and whichever addresses were backed up. -/
theorem evict_spec {K : Cipher bs N B} (hK : K.Correct) (t : MemTree N) (hh : t.height ≤ clientMaxPath)
    (p : BlockPath) (w : World bs B) :
    Evicted K p t w (evictLevels t.height) (ecallEvictPathOutsideEnclavePathOram K t p w).1
      (ecallEvictPathOutsideEnclavePathOram K t p w).2 := by
  refine foldl_inv (P := fun done (tw : MemTree N × World bs B) => Evicted K p t w done tw.1 tw.2)
    (evictLevels t.height) (t, w) (Evicted.refl K p t w) fun done h tw hpre he => ?_
  have hlt := mem_evictLevels.mp (mem_of_step hpre)
  exact he.step hK (hlt.trans_le hh) (evictAddrTable_spec (hh.trans (by decide)) p hlt.le)
    (not_mem_of_done (nodup_evictLevels _) hpre)

/-- `temp_node` at the end of level `h`: what the eviction writes to the node. -/
def evictTemp (p : BlockPath) (c : Client bs) (height h : Nat) : Row bs :=
  ((List.range' h (height - h)).reverse.foldl (levelClient p) c).temp

/-- The levels done when level `h` ends. -/
theorem evictLevels_done {height h : Nat} {done : List Nat} (hpre : done ++ [h] <+: evictLevels height) :
    done ++ [h] = (List.range' h (height - h)).reverse := by
  have hlen : (done ++ [h]).length ≤ height := by simpa [evictLevels] using hpre.length_le
  have htake := List.prefix_iff_eq_take.mp hpre
  rw [evictLevels, List.take_reverse, List.length_range, List.range_eq_range', List.drop_range'] at htake
  rw [htake]
  have hlast := congrArg List.getLast? htake
  simp only [List.getLast?_append, List.getLast?_singleton, Option.some_or, List.getLast?_reverse] at hlast
  rw [List.head?_range'] at hlast
  simp only [List.length_append, List.length_singleton] at hlen hlast ⊢
  split at hlast
  · omega
  · have hh := Option.some.inj hlast
    congr 2
    · omega
    · omega

theorem evict_client (K : Cipher bs N B) (addr : Nat → UInt32) (p : BlockPath) (tw : MemTree N × World bs B)
    (done : List Nat) :
    (done.foldl (evictLevel K addr p) tw).2.client = done.foldl (levelClient p) tw.2.client := by
  induction done generalizing tw with
  | nil => rfl
  | cons h done ih => exact ih (evictLevel K addr p tw h)

/-- Where the blocks of the stash go, whatever the tree and the buffers are. -/
theorem evict_placed (h8 : 8 ∣ bs) (p : BlockPath) (c : Client bs) {height : Nat} (hh : height ≤ 31) :
    Placed p c ((evictLevels height).foldl (levelClient p) c) (evictLevels height) (evictTemp p c height) := by
  refine (foldl_inv (P := fun done c' => c' = done.foldl (levelClient p) c ∧
    Placed p c c' done (evictTemp p c height)) (evictLevels height) c ⟨rfl, Placed.refl p c _⟩ ?_).2
  rintro done h c₁ hpre ⟨rfl, hp⟩
  have hlt := mem_evictLevels.mp (mem_of_step hpre)
  refine ⟨by simp, hp.step h8 (by omega) (fun g hg => lt_of_prefix_evictLevels hpre hg) ?_⟩
  rw [evictTemp, ← evictLevels_done hpre]
  simp

/-- The backup table names distinct buffers at the levels below `height`. -/
def DistinctBackup (enc : Nat → Fin blocksPerNode → Addr) (height : Nat) : Prop :=
  ∀ g < height, ∀ h < height, ∀ i j, enc g i = enc h j → g = h ∧ i = j

theorem evict_decryptsTo {K : Cipher bs N B} (hK : K.Correct) (t : MemTree N) (hh : t.height ≤ clientMaxPath)
    (p : BlockPath) {w : World bs B} (hdist : DistinctBackup w.client.encryptedDataAddrInPath t.height) :
    DecryptsTo K p (ecallEvictPathOutsideEnclavePathOram K t p w).1
      (ecallEvictPathOutsideEnclavePathOram K t p w).2.host.bufs (evictLevels t.height)
      (evictTemp p w.client t.height) := by
  refine (foldl_inv (P := fun done (tw : MemTree N × World bs B) =>
      Evicted K p t w done tw.1 tw.2 ∧ tw.2.client = done.foldl (levelClient p) w.client ∧
        DecryptsTo K p tw.1 tw.2.host.bufs done (evictTemp p w.client t.height))
    (evictLevels t.height) (t, w) ⟨Evicted.refl K p t w, rfl, fun h hh => absurd hh List.not_mem_nil⟩ ?_).2.2
  intro done h tw hpre ⟨he, hclient, hd⟩
  have hlt := mem_evictLevels.mp (mem_of_step hpre)
  have hnew := not_mem_of_done (nodup_evictLevels _) hpre
  have haddr := evictAddrTable_spec (hh.trans (by decide)) p hlt.le
  have hclient' : (evictLevel K (evictAddrTable t.height p) p tw h).2.client =
      (done ++ [h]).foldl (levelClient p) w.client := by
    rw [List.foldl_append, ← hclient]
    rfl
  refine ⟨he.step hK (hlt.trans_le hh) haddr hnew, hclient',
    hd.step hK he (hlt.trans_le hh) haddr hnew ?_ (fun i j hij => (hdist h hlt h hlt i j hij).2) fun g hg i j hij => ?_⟩
  · rw [evictTemp, ← evictLevels_done hpre, ← hclient']
    rfl
  · have hg' : g < t.height := mem_evictLevels.mp (hpre.subset (List.mem_append_left _ hg))
    exact hnew ((hdist g hg' h hlt i j hij).1 ▸ hg)

/-- What an eviction does to the blocks, when the backup table names distinct buffers. -/
theorem evict_bag_spec (h8 : 8 ∣ bs) {K : Cipher bs N B} (hK : K.Correct) (t : MemTree N)
    (hh : t.height ≤ clientMaxPath) (p : BlockPath) {w : World bs B}
    (hdist : DistinctBackup w.client.encryptedDataAddrInPath t.height) :
    EvictedBag K p w (evictLevels t.height) (ecallEvictPathOutsideEnclavePathOram K t p w).1
      (ecallEvictPathOutsideEnclavePathOram K t p w).2 := by
  apply Placed.evictedBag _ (evict_decryptsTo hK t hh p hdist)
  rw [show (ecallEvictPathOutsideEnclavePathOram K t p w).2.client =
    (evictLevels t.height).foldl (levelClient p) w.client from evict_client K _ p (t, w) _]
  exact evict_placed h8 p w.client (hh.trans (by decide))

end SgxOram
