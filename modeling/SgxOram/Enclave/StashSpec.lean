import SgxOram.Enclave.Client
import SgxOram.Enclave.NodeSpec
import SgxOram.Lib.HeapPath

/-!
# The stash as a bag: download, fetch, put

The stash is the rows `client->path[0 .. CLIENT_MAX_PATH - 1]`. `stashBag` forgets the places,
`RowsWf` says that every row is well formed, `RowsCount` that its `num_blocks` is right; with `stash_load`
these are `Client.StashWf` and `Client.StashCounts`.

* `stashLoop_of_room`, `stashLoop_idle` : the first-fit loop shared by download and put
  (`putStashRow_eq`);
* `download_spec` : a completed download backs the buffer addresses up, reads the nodes of the path
  and adds their blocks to the stash;
* `fetch_of_absent`, `fetch_of_mem` : a fetch removes the block with the key, or finds none;
  `fetch_some` : a fetch of a key that the stash holds any number of times;
* `put_spec` : a completed put adds the block;
* `download_exact`, `put_exact` : they complete exactly when there is room, in trees that the back-up table
  covers; `stash_exact_tallTree` : a tree of one level more.
-/

namespace SgxOram
open Lib Finset

variable {bs : Nat} {N B : Type}

/-! ## The stash -/

/-- The blocks in the stash. -/
def stashBag (path : Nat → Row bs) : Multiset (Blk bs) := ∑ r ∈ range clientMaxPath, (path r).bag

/-- Every stash row is well formed. -/
def RowsWf (path : Nat → Row bs) : Prop := ∀ r < clientMaxPath, (path r).Wf

/-- Overwriting one of the rows `s` exchanges its blocks. -/
theorem sum_bag_update (path : Nat → Row bs) {s : Finset Nat} {r : Nat} (hr : r ∈ s) (row : Row bs) :
    ∑ x ∈ s, (Function.update path r row x).bag + (path r).bag = ∑ x ∈ s, (path x).bag + row.bag := by
  have hrest : ∑ x ∈ s.erase r, (Function.update path r row x).bag = ∑ x ∈ s.erase r, (path x).bag :=
    sum_congr rfl fun x hx => by rw [Function.update_of_ne (ne_of_mem_erase hx)]
  rw [← add_sum_erase _ _ hr, ← add_sum_erase _ (fun x => (path x).bag) hr, hrest, Function.update_self]
  abel

theorem sum_bag_update_of_notMem (path : Nat → Row bs) {s : Finset Nat} {r : Nat} (hr : r ∉ s) (row : Row bs) :
    ∑ x ∈ s, (Function.update path r row x).bag = ∑ x ∈ s, (path x).bag :=
  sum_congr rfl fun x hx => by
    have hne : x ≠ r := fun e => hr (e ▸ hx)
    rw [Function.update_of_ne hne]

theorem stashBag_update (path : Nat → Row bs) {r : Nat} (hr : r < clientMaxPath) (row : Row bs) :
    stashBag (Function.update path r row) + (path r).bag = stashBag path + row.bag :=
  sum_bag_update path (mem_range.mpr hr) row

theorem RowsWf.update {path : Nat → Row bs} (h : RowsWf path) {r : Nat} {row : Row bs} (hrow : row.Wf) :
    RowsWf (Function.update path r row) := by
  intro x hx
  by_cases hxr : x = r
  · subst hxr
    rwa [Function.update_self]
  · rw [Function.update_of_ne hxr]
    exact h x hx

/-- In every stash row `num_blocks` counts the present slots. -/
def RowsCount (path : Nat → Row bs) : Prop := ∀ r < clientMaxPath, (path r).Counts

theorem RowsWf.counts {path : Nat → Row bs} (h : RowsWf path) : RowsCount path := fun r hr => (h r hr).count

theorem RowsCount.update {path : Nat → Row bs} (h : RowsCount path) {r : Nat} {row : Row bs} (hrow : row.Counts) :
    RowsCount (Function.update path r row) := by
  intro x hx
  by_cases hxr : x = r
  · subst hxr
    rwa [Function.update_self]
  · rw [Function.update_of_ne hxr]
    exact h x hx

theorem mem_stashBag {path : Nat → Row bs} {b : Blk bs} :
    b ∈ stashBag path ↔ ∃ r < clientMaxPath, b ∈ (path r).bag := by
  simp [stashBag, Multiset.mem_sum]

theorem row_bag_le_stashBag (path : Nat → Row bs) {r : Nat} (hr : r < clientMaxPath) :
    (path r).bag ≤ stashBag path :=
  single_le_sum (f := fun x => (path x).bag) (fun _ _ => Multiset.zero_le _) (mem_range.mpr hr)

theorem card_stashBag (path : Nat → Row bs) :
    (stashBag path).card = ∑ r ∈ range clientMaxPath, (path r).bag.card := by
  simp [stashBag]

theorem card_stashBag_le (path : Nat → Row bs) :
    (stashBag path).card ≤ clientMaxPath * blocksPerNode := by
  rw [card_stashBag]
  refine (sum_le_card_nsmul _ _ blocksPerNode fun r _ => (path r).card_bag_le).trans ?_
  simp

/-- The parts of the client that only the position map update and the download touch. -/
structure Client.SameTables (c c' : Client bs) : Prop where
  pathMm : c'.pathMm = c.pathMm
  encryptedDataAddrInPath : c'.encryptedDataAddrInPath = c.encryptedDataAddrInPath
  clientHeighestHeight : c'.clientHeighestHeight = c.clientHeighestHeight
  dummyBlock : c'.dummyBlock = c.dummyBlock

theorem Client.SameTables.refl (c : Client bs) : c.SameTables c := ⟨rfl, rfl, rfl, rfl⟩

theorem Client.SameTables.trans {c₁ c₂ c₃ : Client bs} (h₁ : c₁.SameTables c₂) (h₂ : c₂.SameTables c₃) :
    c₁.SameTables c₃ where
  pathMm := h₂.pathMm.trans h₁.pathMm
  encryptedDataAddrInPath := h₂.encryptedDataAddrInPath.trans h₁.encryptedDataAddrInPath
  clientHeighestHeight := h₂.clientHeighestHeight.trans h₁.clientHeighestHeight
  dummyBlock := h₂.dummyBlock.trans h₁.dummyBlock

/-! ## The first-fit loop -/

/-- The two loops that put a block into the stash are the same loop. -/
theorem putStashRow_eq : @putStashRow bs = downloadStashRow := by
  funext key path content st h
  unfold putStashRow downloadStashRow
  cases hs : st.succ with
  | true => simp
  | false =>
    by_cases hlt : (st.path h).node.numBlocks.toNat < blocksPerNode
    · simp [hlt]
    · rw [obliviousNodeWrite_of_failed true (st.path h) _ key path content (Or.inr (not_lt.mp hlt)),
        obliviousNodeWrite_of_failed true (st.path h) _ 0 path content (Or.inl rfl)]
      simp [hlt]

theorem downloadStashRow_done (key : BlockKey) (path : BlockPath) (content : Block bs)
    (rows : Nat → Row bs) (ptr : Addr) (r : Nat) :
    downloadStashRow key path content ⟨rows, ptr, true⟩ r = ⟨rows, ptr, true⟩ := by
  simp [downloadStashRow, obliviousNodeWrite_of_failed]

theorem downloadStashRow_failed {key : BlockKey} (path : BlockPath) (content : Block bs)
    {rows : Nat → Row bs} (ptr : Addr) {r : Nat} (h : key = 0 ∨ blocksPerNode ≤ (rows r).node.numBlocks.toNat) :
    downloadStashRow key path content ⟨rows, ptr, false⟩ r = ⟨rows, ptr, false⟩ := by
  simp only [downloadStashRow, obliviousNodeWrite_of_failed true (rows r) ptr key path content h]
  simp

/-- Without a key, or with no room in any row, the loop changes nothing. -/
theorem stashLoop_idle {key : BlockKey} (path : BlockPath) (content : Block bs)
    {rows : Nat → Row bs} (ptr : Addr)
    (h : key = 0 ∨ ∀ r < clientMaxPath, blocksPerNode ≤ (rows r).node.numBlocks.toNat) :
    (List.range clientMaxPath).foldl (downloadStashRow key path content) ⟨rows, ptr, false⟩ =
      ⟨rows, ptr, false⟩ :=
  foldl_idle fun r hr => downloadStashRow_failed path content ptr
    (h.imp_right fun hfull => hfull r (List.mem_range.mp hr))

/-- With a key and room, the loop adds the block to the first row with room. -/
theorem stashLoop_of_room (h8 : 8 ∣ bs) {key : BlockKey} (hkey : key ≠ 0) (path : BlockPath)
    (content : Block bs) {rows : Nat → Row bs} (hcount : RowsCount rows) (ptr : Addr) {r₀ : Nat}
    (hr₀ : r₀ < clientMaxPath) (hroom : (rows r₀).node.numBlocks.toNat < blocksPerNode) :
    ∃ rows' ptr', (List.range clientMaxPath).foldl (downloadStashRow key path content) ⟨rows, ptr, false⟩ =
        ⟨rows', ptr', true⟩ ∧
      RowsCount rows' ∧ stashBag rows' = stashBag rows + {⟨key, path, content⟩} := by
  rcases exists_first (fun r => (rows r).node.numBlocks.toNat < blocksPerNode) (List.range clientMaxPath) with
    hnone | ⟨l₁, r, l₂, hl, hr, h₁⟩
  · exact absurd hroom (hnone r₀ (List.mem_range.mpr hr₀))
  · have hrlt : r < clientMaxPath := List.mem_range.mp (hl ▸ by simp)
    obtain ⟨hsucc, hcount', hbag, -⟩ :=
      obliviousNodeWrite_bag h8 true (hcount r hrlt) ptr path content hkey hr
    refine ⟨Function.update rows r (obliviousNodeWrite true (rows r) ptr key path content).row,
      (obliviousNodeWrite true (rows r) ptr key path content).encryptedContentPtr, ?_,
      hcount.update hcount', ?_⟩
    · rw [hl]
      refine foldl_single (fun x hx => downloadStashRow_failed path content ptr (Or.inr (not_lt.mp (h₁ x hx))))
        ?_ (fun x _ => downloadStashRow_done key path content _ _ x)
      simp [downloadStashRow, hsucc]
    · have hupd := stashBag_update rows hrlt (obliviousNodeWrite true (rows r) ptr key path content).row
      rw [hbag] at hupd
      refine add_right_cancel (b := (rows r).bag) (hupd.trans ?_)
      abel

/-- The loop keeps the rows well formed. -/
theorem stashLoop_wf (h8 : 8 ∣ bs) (key : BlockKey) (path : BlockPath) (content : Block bs) {rows : Nat → Row bs}
    (hwf : RowsWf rows) (ptr : Addr) (succ : Bool) :
    RowsWf ((List.range clientMaxPath).foldl (downloadStashRow key path content) ⟨rows, ptr, succ⟩).path := by
  refine foldl_inv (f := downloadStashRow key path content) (P := fun _ st => RowsWf st.path)
    (List.range clientMaxPath) ⟨rows, ptr, succ⟩ hwf ?_
  intro done r st hpre hst
  have hrow := hst r (List.mem_range.mp (mem_of_step hpre))
  unfold downloadStashRow
  split
  · exact hst.update (obliviousNodeWrite_wf h8 true hrow _ 0 path content)
  · exact hst.update (obliviousNodeWrite_wf h8 true hrow _ key path content)

/-! ## Download -/

/-- The stash rows are well formed and `stash_load` counts their blocks. -/
structure Client.StashWf (c : Client bs) : Prop where
  rows : RowsWf c.path
  load : c.stashLoad.toNat = (stashBag c.path).card

/-- `num_blocks` counts the slots of its row, `stash_load` the blocks of all rows. -/
structure Client.StashCounts (c : Client bs) : Prop where
  rows : RowsCount c.path
  load : c.stashLoad.toNat = (stashBag c.path).card

theorem Client.StashWf.counts {c : Client bs} (h : c.StashWf) : c.StashCounts := ⟨h.rows.counts, h.load⟩

/-- A fresh client has an empty stash and an empty position map. -/
theorem ecallInitClient_spec {height : Nat} {c : Client bs} (hrun : ecallInitClient bs height = some c) :
    height < clientMaxPath ∧ c.StashWf ∧ stashBag c.path = 0 ∧ c.subs = [] ∧ c.pathMm = fun _ => 0 := by
  simp only [ecallInitClient, Option.ite_none_right_eq_some, Option.some.injEq] at hrun
  obtain ⟨hlt, rfl⟩ := hrun
  have hbag : stashBag (emptyClient bs).path = 0 := sum_eq_zero fun _ _ => Row.bag_of_empty fun _ => rfl
  exact ⟨hlt, ⟨fun _ _ => Row.Wf.of_empty (fun _ => rfl) rfl, by rw [hbag]; rfl⟩, hbag, rfl, rfl⟩

/-- Node `n` of the tree as it decrypts, with the blocks of its slots. -/
def nodeRow (K : Cipher bs N B) (t : MemTree N) (bufs : Addr → B) (n : Nat) : Row bs :=
  { node := decryptData K.node (t.nodes n)
    blocks := fun i => decryptData K.block (bufs ((decryptData K.node (t.nodes n)).slots i).blockContent) }

/-- What a download takes from slot `i`: it decides by the key, not by the presence bit. -/
def Row.keyBlk (r : Row bs) (i : Fin blocksPerNode) : Option (Blk bs) :=
  if (r.node.slots i).blockKey = 0 then none
  else some ⟨(r.node.slots i).blockKey, (r.node.slots i).blockPath, r.blocks i⟩

def Row.keyBag (r : Row bs) : Multiset (Blk bs) := Lib.bag r.keyBlk

/-- A slot has a key exactly when it is present. -/
def Row.KeysTell (r : Row bs) : Prop := ∀ i, (r.node.slots i).blockKey ≠ 0 ↔ (r.node.slots i).presenceBit ≠ 0

theorem Row.KeysTell.keyBag_eq {r : Row bs} (h : r.KeysTell) : r.keyBag = r.bag := by
  refine congrArg Lib.bag (funext fun i => ?_)
  by_cases hi : (r.node.slots i).presenceBit = 0
  · have hk : (r.node.slots i).blockKey = 0 := not_not.mp fun hk => (h i).mp hk hi
    simp [Row.keyBlk, Row.blk_eq_none.mpr hi, hk]
  · simp [Row.keyBlk, Row.blk_of_present hi, (h i).mpr hi]

/-- The blocks a download along `p` takes. -/
def pathKeyBag (K : Cipher bs N B) (t : MemTree N) (bufs : Addr → B) (p : BlockPath) : Multiset (Blk bs) :=
  ∑ h ∈ range t.height, (nodeRow K t bufs (nodeAddr p.toNat h)).keyBag

/-- The reads of one node and its buffers. -/
def nodeReads (bs : Nat) (n : MemTreeNode) (index : Nat) : List ServerAccess :=
  ⟨.node index, false, sizeofEncMemTreeNode⟩ ::
    (List.finRange blocksPerNode).map fun i => ⟨.buffer (n.slots i).blockContent, false, encBlockLen bs⟩

/-- What a part of a download does: `reads` are appended to the trace, `added` to the stash. -/
structure Downloaded (w w' : World bs B) (reads : List ServerAccess) (added : Multiset (Blk bs)) : Prop where
  host : w'.host = { w.host with trace := w.host.trace ++ reads }
  client : w'.client =
    { w.client with
      path := w'.client.path, temp := w'.client.temp, stashLoad := w'.client.stashLoad,
      encryptedDataAddrInPath := w'.client.encryptedDataAddrInPath }
  rows : RowsWf w.client.path → RowsWf w'.client.path
  counts : w.client.StashCounts → w'.client.StashCounts ∧
    stashBag w'.client.path = stashBag w.client.path + added

theorem Downloaded.stash {w w' : World bs B} {reads : List ServerAccess} {added : Multiset (Blk bs)}
    (h : Downloaded w w' reads added) (hwf : w.client.StashWf) :
    w'.client.StashWf ∧ stashBag w'.client.path = stashBag w.client.path + added := by
  obtain ⟨hcounts, hbag⟩ := h.counts hwf.counts
  exact ⟨⟨h.rows hwf.rows, hcounts.load⟩, hbag⟩

theorem Downloaded.refl (w : World bs B) : Downloaded w w [] 0 where
  host := by simp
  client := rfl
  rows := id
  counts h := ⟨h, (add_zero _).symm⟩

theorem Downloaded.trans {w₁ w₂ w₃ : World bs B} {r₁ r₂ : List ServerAccess} {a₁ a₂ : Multiset (Blk bs)}
    (h₁ : Downloaded w₁ w₂ r₁ a₁) (h₂ : Downloaded w₂ w₃ r₂ a₂) :
    Downloaded w₁ w₃ (r₁ ++ r₂) (a₁ + a₂) where
  host := by rw [h₂.host, h₁.host, List.append_assoc]
  client := by rw [h₂.client, h₁.client]
  rows h := h₂.rows (h₁.rows h)
  counts h := by
    obtain ⟨hc₂, hb₂⟩ := h₁.counts h
    obtain ⟨hc₃, hb₃⟩ := h₂.counts hc₂
    exact ⟨hc₃, by rw [hb₃, hb₂, add_assoc]⟩

/-- The block that slot `s` with content `content` brings. -/
def slotCell (s : Slot) (content : Block bs) : Multiset (Blk bs) :=
  cell (if s.blockKey = 0 then none else some ⟨s.blockKey, s.blockPath, content⟩)

theorem load_succ {path path' : Nat → Row bs} {b : Blk bs} {load : UInt32}
    (h : load.toNat = (stashBag path).card) (hbag : stashBag path' = stashBag path + {b}) :
    (load + 1).toNat = (stashBag path').card := by
  have hle := card_stashBag_le path'
  rw [hbag, Multiset.card_add, Multiset.card_singleton] at hle ⊢
  have hle' : (stashBag path).card + 1 ≤ 20 * 4 := hle
  rw [UInt32.toNat_add, h]
  exact Nat.mod_eq_of_lt (by simp; omega)

/-- A pass of the stash loop after which the assertion holds has stored the slot's block. -/
theorem stashLoop_completed (h8 : 8 ∣ bs) (s : Slot) (content : Block bs) {rows : Nat → Row bs}
    (hcount : RowsCount rows) (ptr : Addr) {st : StashLoop bs}
    (hst : st = (List.range clientMaxPath).foldl (downloadStashRow s.blockKey s.blockPath content)
      ⟨rows, ptr, false⟩)
    (hassert : s.blockKey = 0 ∨ st.succ = true) :
    RowsCount st.path ∧ stashBag st.path = stashBag rows + slotCell s content := by
  by_cases hk : s.blockKey = 0
  · rw [stashLoop_idle s.blockPath content ptr (Or.inl hk)] at hst
    subst hst
    simpa [slotCell, hk] using hcount
  · have hroom : ∃ r < clientMaxPath, (rows r).node.numBlocks.toNat < blocksPerNode := by
      by_contra hfull
      push Not at hfull
      rw [stashLoop_idle s.blockPath content ptr (Or.inr hfull)] at hst
      subst hst
      simp [hk] at hassert
    obtain ⟨r, hr, hlt⟩ := hroom
    obtain ⟨rows', ptr', heq, hcount', hbag⟩ :=
      stashLoop_of_room h8 hk s.blockPath content hcount ptr hr hlt
    rw [heq] at hst
    subst hst
    simpa [slotCell, hk] using ⟨hcount', hbag⟩

/-- Inside the table a backup goes to its own row. -/
theorem backUpAddr_lt {h : Nat} (hh : h < clientMaxPath) (i : Fin blocksPerNode) (addr : Addr) (c : Client bs) :
    backUpAddr h i addr c = some { c with
      encryptedDataAddrInPath := Function.update c.encryptedDataAddrInPath h
        (Function.update (c.encryptedDataAddrInPath h) i addr) } :=
  if_pos hh

theorem backedUpAddr_lt {h : Nat} (hh : h < clientMaxPath) (c : Client bs) (i : Fin blocksPerNode) :
    backedUpAddr h c i = c.encryptedDataAddrInPath h i :=
  if_pos hh

theorem downloadSlot_spec (h8 : 8 ∣ bs) (K : Cipher bs N B) {h : Nat} (hh : h < clientMaxPath) {w w' : World bs B}
    {i : Fin blocksPerNode} (hrun : downloadSlot K h w i = some w') :
    Downloaded w w'
        [⟨.buffer (w.client.temp.node.slots i).blockContent, false, encBlockLen bs⟩]
        (slotCell (w.client.temp.node.slots i)
          (decryptData K.block (w.host.bufs (w.client.temp.node.slots i).blockContent))) ∧
      (∀ j, j ≠ i → w'.client.temp.node.slots j = w.client.temp.node.slots j) ∧
      w'.client.encryptedDataAddrInPath = Function.update w.client.encryptedDataAddrInPath h
        (Function.update (w.client.encryptedDataAddrInPath h) i
          (w.client.temp.node.slots i).blockContent) := by
  unfold downloadSlot at hrun
  simp only [backUpAddr_lt hh, Option.bind_eq_bind, Option.bind_some, Option.ite_none_right_eq_some,
    Option.some.injEq] at hrun
  obtain ⟨hassert, rfl⟩ := hrun
  refine ⟨⟨rfl, rfl, fun hwf => stashLoop_wf h8 _ _ _ hwf _ false, fun hc => ?_⟩,
    fun j hj => Function.update_of_ne hj _ _, rfl⟩
  obtain ⟨hrows, hbag⟩ := stashLoop_completed h8 (w.client.temp.node.slots i)
    (decryptData K.block (w.host.bufs (w.client.temp.node.slots i).blockContent)) hc.rows
    (w.client.temp.node.slots i).blockContent rfl hassert
  refine ⟨⟨hrows, ?_⟩, hbag⟩
  by_cases hk : (w.client.temp.node.slots i).blockKey = 0
  · rw [slotCell, if_pos hk, cell_none, add_zero] at hbag
    rw [if_neg (not_not.mpr hk), hbag]
    exact hc.load
  · rw [slotCell, if_neg hk, cell_some] at hbag
    rw [if_pos hk]
    exact load_succ hc.load hbag

/-- The backup table at level `h` holds the buffer addresses of node `n`. -/
def BacksUp (enc : Nat → Fin blocksPerNode → Addr) (h : Nat) (n : MemTreeNode) : Prop :=
  ∀ i, enc h i = (n.slots i).blockContent

/-- What the slots `l` of the downloaded node bring. -/
def slotsBag (K : Cipher bs N B) (w : World bs B) (l : List (Fin blocksPerNode)) : Multiset (Blk bs) :=
  (l.map fun i => slotCell (w.client.temp.node.slots i)
    (decryptData K.block (w.host.bufs (w.client.temp.node.slots i).blockContent))).sum

theorem slots_spec (h8 : 8 ∣ bs) (K : Cipher bs N B) {h : Nat} (hh : h < clientMaxPath) {w w' : World bs B}
    {l : List (Fin blocksPerNode)} (hl : l.Nodup) (hrun : l.foldlM (downloadSlot K h) w = some w') :
    Downloaded w w'
        (l.map fun i => ⟨.buffer (w.client.temp.node.slots i).blockContent, false, encBlockLen bs⟩)
        (slotsBag K w l) ∧
      (∀ j, j ∉ l → w'.client.temp.node.slots j = w.client.temp.node.slots j) ∧
      (∀ j ∈ l, w'.client.encryptedDataAddrInPath h j = (w.client.temp.node.slots j).blockContent) ∧
      ∀ g, g ≠ h → w'.client.encryptedDataAddrInPath g = w.client.encryptedDataAddrInPath g := by
  refine foldlM_inv (f := downloadSlot K h)
    (P := fun done v =>
      Downloaded w v
          (done.map fun i => ⟨.buffer (w.client.temp.node.slots i).blockContent, false, encBlockLen bs⟩)
          (slotsBag K w done) ∧
        (∀ j, j ∉ done → v.client.temp.node.slots j = w.client.temp.node.slots j) ∧
        (∀ j ∈ done, v.client.encryptedDataAddrInPath h j = (w.client.temp.node.slots j).blockContent) ∧
        ∀ g, g ≠ h → v.client.encryptedDataAddrInPath g = w.client.encryptedDataAddrInPath g)
    l w w' ⟨Downloaded.refl w, fun _ _ => rfl, by simp, fun _ _ => rfl⟩ ?_ hrun
  rintro done i v v' hpre ⟨hd, htemp, hdone, hg⟩ hstep
  have hi : i ∉ done := not_mem_of_done hl hpre
  obtain ⟨hd', htemp', henc⟩ := downloadSlot_spec h8 K hh hstep
  rw [htemp i hi, hd.host] at hd'
  refine ⟨?_, fun j hj => ?_, forall_mem_concat (fun j hj => ?_) ?_, fun g hgh => ?_⟩
  · simpa [slotsBag] using hd.trans hd'
  · simp only [List.mem_append, List.mem_singleton, not_or] at hj
    rw [htemp' j hj.2, htemp j hj.1]
  · rw [henc, Function.update_self, Function.update_of_ne (show j ≠ i from fun e => hi (e ▸ hj))]
    exact hdone j hj
  · rw [henc, Function.update_self, Function.update_self, htemp i hi]
  · rw [henc, Function.update_of_ne hgh, hg g hgh]

theorem slotsBag_finRange (K : Cipher bs N B) (t : MemTree N) (w : World bs B) {n : Nat}
    (htemp : w.client.temp.node = decryptData K.node (t.nodes n)) :
    slotsBag K w (List.finRange blocksPerNode) = (nodeRow K t w.host.bufs n).keyBag := by
  rw [slotsBag, ← Fin.sum_univ_def, htemp]
  rfl

/-- The world after `temp_node` has been read from node `n`. -/
def readNode (K : Cipher bs N B) (t : MemTree N) (n : Nat) (w : World bs B) : World bs B :=
  { client := { w.client with temp := { w.client.temp with node := decryptData K.node (t.nodes n) } }
    host := { w.host with trace := w.host.trace ++ [⟨.node n, false, sizeofEncMemTreeNode⟩] } }

theorem readNode_downloaded (K : Cipher bs N B) (t : MemTree N) (n : Nat) (w : World bs B) :
    Downloaded w (readNode K t n w) [⟨.node n, false, sizeofEncMemTreeNode⟩] 0 :=
  ⟨rfl, rfl, id, fun hc => ⟨⟨hc.rows, hc.load⟩, (add_zero _).symm⟩⟩

theorem downloadLevel_eq_some {K : Cipher bs N B} {t : MemTree N} {l l' : LevelLoop bs B} {h : Nat} :
    downloadLevel K t l h = some l' ↔
      ∃ w', (List.finRange blocksPerNode).foldlM (downloadSlot K h) (readNode K t l.addr.toNat l.world) =
          some w' ∧ l' = ⟨w', l.addr * 2 + 1 + l.treePath % 2, l.treePath / 2⟩ := by
  unfold downloadLevel
  simp only [Option.pure_def, Option.bind_eq_bind, Option.bind_eq_some_iff, Option.some.injEq]
  exact exists_congr fun w' => and_congr_right fun _ => eq_comm

theorem downloadLevel_spec (h8 : 8 ∣ bs) (K : Cipher bs N B) (t : MemTree N) {h : Nat} (hh : h < clientMaxPath)
    {l l' : LevelLoop bs B} (hrun : downloadLevel K t l h = some l') :
    Downloaded l.world l'.world
        (nodeReads bs (decryptData K.node (t.nodes l.addr.toNat)) l.addr.toNat)
        (nodeRow K t l.world.host.bufs l.addr.toNat).keyBag ∧
      BacksUp l'.world.client.encryptedDataAddrInPath h (decryptData K.node (t.nodes l.addr.toNat)) ∧
      (∀ g, g ≠ h → l'.world.client.encryptedDataAddrInPath g = l.world.client.encryptedDataAddrInPath g) ∧
      l'.addr = l.addr * 2 + 1 + l.treePath % 2 ∧ l'.treePath = l.treePath / 2 := by
  obtain ⟨w', hslots, rfl⟩ := downloadLevel_eq_some.mp hrun
  obtain ⟨hd, -, hback, hother⟩ := slots_spec h8 K hh (List.nodup_finRange _) hslots
  refine ⟨?_, fun i => hback i (List.mem_finRange i), hother, rfl, rfl⟩
  have hboth := (readNode_downloaded K t l.addr.toNat l.world).trans hd
  rwa [zero_add, slotsBag_finRange K t _ rfl] at hboth

theorem addr_step {a p : UInt32} {n : Nat} {q : Nat} (ha : a.toNat = nodeAddr q n)
    (hp : p.toNat = q / 2 ^ n) (hn : n < 31) :
    (a * 2 + 1 + p % 2).toNat = nodeAddr q (n + 1) ∧ (p / 2).toNat = q / 2 ^ (n + 1) := by
  have hlt := nodeAddr_lt q (n + 1)
  have hpow : 2 ^ (n + 1 + 1) ≤ 2 ^ 32 := Nat.pow_le_pow_right (by decide) (by omega)
  rw [nodeAddr_succ, ← ha, ← hp] at hlt
  constructor
  · rw [nodeAddr_succ, ← ha, ← hp]
    simp only [UInt32.toNat_add, UInt32.toNat_mul, UInt32.toNat_mod, UInt32.reduceToNat]
    omega
  · rw [UInt32.toNat_div, hp, pow_succ, ← Nat.div_div_eq_div_mul]
    rfl

/-- The reads of a download along `p`. -/
def downloadReads (K : Cipher bs N B) (t : MemTree N) (p : BlockPath) : List ServerAccess :=
  (List.range t.height).flatMap fun h =>
    nodeReads bs (decryptData K.node (t.nodes (nodeAddr p.toNat h))) (nodeAddr p.toNat h)

theorem levels_spec (h8 : 8 ∣ bs) (K : Cipher bs N B) {t : MemTree N} {p : BlockPath} {w : World bs B}
    {count : Nat} (hcount : count ≤ clientMaxPath) {l : LevelLoop bs B}
    (hrun : (List.range count).foldlM (downloadLevel K t) ⟨w, 0, p⟩ = some l) :
    Downloaded w l.world
        ((List.range count).flatMap fun h =>
          nodeReads bs (decryptData K.node (t.nodes (nodeAddr p.toNat h))) (nodeAddr p.toNat h))
        (∑ h ∈ range count, (nodeRow K t w.host.bufs (nodeAddr p.toNat h)).keyBag) ∧
      (∀ h < count, BacksUp l.world.client.encryptedDataAddrInPath h
        (decryptData K.node (t.nodes (nodeAddr p.toNat h)))) ∧
      l.addr.toNat = nodeAddr p.toNat count ∧ l.treePath.toNat = p.toNat / 2 ^ count := by
  induction count generalizing l with
  | zero =>
    cases hrun
    exact ⟨Downloaded.refl w, fun h hh => absurd hh (Nat.not_lt_zero h), rfl, by simp⟩
  | succ count ih =>
    rw [List.range_succ] at hrun
    obtain ⟨l₁, hrun₁, hstep⟩ := foldlM_append_eq_some.mp hrun
    have hstep : downloadLevel K t l₁ count = some l := by simpa using hstep
    obtain ⟨hd, hback, haddr, htp⟩ := ih (by omega) hrun₁
    obtain ⟨hd', hback', hother, ha', hp'⟩ := downloadLevel_spec h8 K t hcount hstep
    obtain ⟨hstep1, hstep2⟩ := addr_step haddr htp (hcount.trans (show clientMaxPath ≤ 31 by decide))
    rw [haddr, hd.host] at hd'
    refine ⟨?_, fun g hg => ?_, by rw [ha', hstep1], by rw [hp', hstep2]⟩
    · rw [List.range_succ, List.flatMap_append, List.flatMap_singleton, sum_range_succ]
      exact hd.trans hd'
    · rcases Nat.lt_succ_iff_lt_or_eq.mp hg with hg | rfl
      · intro i
        rw [hother g hg.ne]
        exact hback g hg i
      · rw [← haddr]
        exact hback'

/-- A completed download reads the path, backs its buffer addresses up and adds its blocks to the
stash. -/
theorem download_spec (h8 : 8 ∣ bs) (K : Cipher bs N B) {t : MemTree N} (hh : t.height ≤ clientMaxPath)
    {p : BlockPath} {w w' : World bs B} (hrun : ecallDownloadPathToEnclaveClientPathOram K t p w = some w') :
    Downloaded w w' (downloadReads K t p) (pathKeyBag K t w.host.bufs p) ∧
      ∀ h < t.height, BacksUp w'.client.encryptedDataAddrInPath h
        (decryptData K.node (t.nodes (nodeAddr p.toNat h))) := by
  unfold ecallDownloadPathToEnclaveClientPathOram at hrun
  obtain ⟨l', hl', rfl⟩ := Option.map_eq_some_iff.mp hrun
  obtain ⟨hd, hback, -, -⟩ := levels_spec h8 K hh hl'
  exact ⟨hd, hback⟩

/-! ## A download that fits completes -/

theorem exists_room {rows : Nat → Row bs} (hcount : RowsCount rows)
    (hlt : (stashBag rows).card < clientMaxPath * blocksPerNode) :
    ∃ r < clientMaxPath, (rows r).node.numBlocks.toNat < blocksPerNode := by
  by_contra hfull
  push Not at hfull
  have hsum : clientMaxPath * blocksPerNode ≤ (stashBag rows).card := by
    rw [card_stashBag]
    have := card_nsmul_le_sum (range clientMaxPath) (fun r => (rows r).bag.card) blocksPerNode fun r hr => by
      rw [← show _ = (rows r).bag.card from hcount r (mem_range.mp hr)]
      exact hfull r (mem_range.mp hr)
    simpa using this
  omega

theorem downloadSlot_completes (h8 : 8 ∣ bs) (K : Cipher bs N B) {h : Nat} (hh : h < clientMaxPath) {w : World bs B}
    (hcounts : w.client.StashCounts) (i : Fin blocksPerNode)
    (hfit : (stashBag w.client.path).card + (slotsBag K w [i]).card ≤ clientMaxPath * blocksPerNode) :
    ∃ w', downloadSlot K h w i = some w' := by
  unfold downloadSlot
  simp only [backUpAddr_lt hh, Option.bind_eq_bind, Option.bind_some]
  by_cases hk : (w.client.temp.node.slots i).blockKey = 0
  · exact ⟨_, if_pos (Or.inl hk)⟩
  · simp only [slotsBag, List.map_cons, List.map_nil, List.sum_singleton, slotCell, if_neg hk, cell_some,
      Multiset.card_singleton] at hfit
    obtain ⟨r, hr, hroom⟩ := exists_room hcounts.rows hfit
    obtain ⟨rows', ptr', hloop, -, -⟩ := stashLoop_of_room h8 hk (w.client.temp.node.slots i).blockPath
      (decryptData K.block (w.host.bufs (w.client.temp.node.slots i).blockContent)) hcounts.rows
      (w.client.temp.node.slots i).blockContent hr hroom
    exact ⟨_, if_pos (Or.inr (by rw [hloop]))⟩

theorem slots_completes (h8 : 8 ∣ bs) (K : Cipher bs N B) {h : Nat} (hh : h < clientMaxPath) {w : World bs B}
    (hcounts : w.client.StashCounts) {l : List (Fin blocksPerNode)} (hl : l.Nodup)
    (hfit : (stashBag w.client.path).card + (slotsBag K w l).card ≤ clientMaxPath * blocksPerNode) :
    ∃ w', l.foldlM (downloadSlot K h) w = some w' := by
  refine foldlM_completes l w fun done i v hpre hrun => ?_
  have hi := not_mem_of_done hl hpre
  obtain ⟨hd, htemp, -, -⟩ := slots_spec h8 K hh ((List.nodup_append.mp (hl.sublist hpre.sublist)).1) hrun
  obtain ⟨hcounts', hbag⟩ := hd.counts hcounts
  refine downloadSlot_completes h8 K hh hcounts' i ?_
  obtain ⟨rest, rfl⟩ := hpre
  have hone : slotsBag K v [i] = slotsBag K w [i] := by simp [slotsBag, htemp i hi, hd.host]
  simp only [slotsBag, List.map_append, List.sum_append, Multiset.card_add] at hfit
  rw [hbag, hone, Multiset.card_add]
  simp only [slotsBag]
  omega

/-- A download whose blocks fit into the stash completes. -/
theorem download_completes (h8 : 8 ∣ bs) (K : Cipher bs N B) {t : MemTree N} (hh : t.height ≤ clientMaxPath)
    (p : BlockPath) {w : World bs B} (hcounts : w.client.StashCounts)
    (hfit : (stashBag w.client.path).card + (pathKeyBag K t w.host.bufs p).card ≤
      clientMaxPath * blocksPerNode) :
    ∃ w', ecallDownloadPathToEnclaveClientPathOram K t p w = some w' := by
  suffices hlevels : ∃ l, (List.range t.height).foldlM (downloadLevel K t) ⟨w, 0, p⟩ = some l by
    obtain ⟨l, hl⟩ := hlevels
    exact ⟨l.world, Option.map_eq_some_iff.mpr ⟨l, hl, rfl⟩⟩
  refine foldlM_completes _ _ fun done h l hpre hrun => ?_
  obtain ⟨rfl, hlt⟩ := range_of_done hpre
  obtain ⟨hd, -, haddr, -⟩ := levels_spec h8 K (by omega) hrun
  obtain ⟨hcounts', hbag⟩ := hd.counts hcounts
  have hsub : ∑ g ∈ range (h + 1), (nodeRow K t w.host.bufs (nodeAddr p.toNat g)).keyBag ≤
      pathKeyBag K t w.host.bufs p := sum_le_sum_of_subset (range_subset_range.mpr hlt)
  have hcard := Multiset.card_le_card hsub
  rw [sum_range_succ, Multiset.card_add] at hcard
  have hbufs : l.world.host.bufs = w.host.bufs := by rw [hd.host]
  obtain ⟨w', hw'⟩ := slots_completes h8 K (hlt.trans_le hh) (w := readNode K t l.addr.toNat l.world)
    ⟨hcounts'.rows, hcounts'.load⟩ (List.nodup_finRange _) <| by
      rw [slotsBag_finRange K t _ rfl, haddr]
      have hpath : (readNode K t (nodeAddr p.toNat h) l.world).client.path = l.world.client.path := rfl
      have hhost : (readNode K t (nodeAddr p.toNat h) l.world).host.bufs = w.host.bufs := hbufs
      rw [hpath, hhost, hbag, Multiset.card_add]
      omega
  exact ⟨_, downloadLevel_eq_some.mpr ⟨w', hw', rfl⟩⟩

/-! ## Fetch -/

theorem fetchRow_done (pathOram : Bool) (key : BlockKey) (st : FetchLoop bs) (h : st.succ = true)
    (r : Nat) : fetchRow pathOram key st r = st := by
  simp [fetchRow, h]

theorem fetchRow_absent (pathOram : Bool) {key : BlockKey} {path : Nat → Row bs} (fetched : Block bs)
    (ptr : Addr) (subs : List UInt32) {r : Nat} (h : ∀ b ∈ (path r).bag, b.key ≠ key) :
    fetchRow pathOram key ⟨path, fetched, ptr, false, subs⟩ r = ⟨path, fetched, ptr, false, subs⟩ := by
  simp [fetchRow, obliviousNodeRead_of_absent pathOram fetched ptr h]

/-- Fetching a key that no stash block has. -/
theorem fetch_of_absent (pathOram : Bool) {key : BlockKey} (ptr : Addr) {c : Client bs}
    (h : ∀ b ∈ stashBag c.path, b.key ≠ key) :
    ecallObliviousFetch pathOram key ptr c = ⟨c, zeroBlock bs, ptr, false⟩ := by
  unfold ecallObliviousFetch
  rw [foldl_idle fun r hr => fetchRow_absent pathOram (zeroBlock bs) ptr [] fun b hb =>
    h b (mem_stashBag.mpr ⟨r, List.mem_range.mp hr, hb⟩)]
  simp

theorem row_hit_iff {row : Row bs} {key : BlockKey} : (∃ i, row.Hit key i) ↔ ∃ b ∈ row.bag, b.key = key := by
  constructor
  · rintro ⟨i, hk, hp⟩
    exact ⟨_, Row.mem_bag.mpr ⟨i, Row.blk_of_present hp⟩, hk⟩
  · rintro ⟨b, hb, rfl⟩
    obtain ⟨i, hi⟩ := Row.mem_bag.mp hb
    obtain ⟨hp, hk, -, -⟩ := Row.blk_eq_some.mp hi
    exact ⟨i, hk, hp⟩

/-- The loop of a fetch acts at the first row that holds the key. -/
theorem fetchRows_first (pathOram : Bool) {key : BlockKey} (ptr : Addr) {path : Nat → Row bs} {r : Nat}
    (hr : r < clientMaxPath) (hhit : ∃ i, (path r).Hit key i) (habove : ∀ x < r, ∀ i, ¬ (path x).Hit key i) :
    (List.range clientMaxPath).foldl (fetchRow pathOram key) ⟨path, zeroBlock bs, ptr, false, []⟩ =
      fetchRow pathOram key ⟨path, zeroBlock bs, ptr, false, []⟩ r := by
  have hsucc := (obliviousNodeRead_succ_iff pathOram (path r) key (zeroBlock bs) ptr).mpr hhit
  have hrow : (fetchRow pathOram key ⟨path, zeroBlock bs, ptr, false, []⟩ r).succ = true := by
    simpa [fetchRow] using hsucc
  obtain ⟨l, hl⟩ := range_split hr
  rw [hl]
  refine foldl_single (fun x hx => fetchRow_absent pathOram _ ptr [] fun b hb hbk => ?_) rfl
    fun x _ => fetchRow_done pathOram key _ hrow x
  obtain ⟨j, hj⟩ := row_hit_iff.mpr ⟨b, hb, hbk⟩
  exact habove x (List.mem_range.mp hx) j hj

/-- Fetching a key that some stash blocks have copies the content of one of them out. -/
theorem fetch_some (h8 : 8 ∣ bs) (pathOram : Bool) {key : BlockKey} (ptr : Addr) {c : Client bs}
    (h : ∃ b ∈ stashBag c.path, b.key = key) :
    ∃ b ∈ stashBag c.path, b.key = key ∧ (ecallObliviousFetch pathOram key ptr c).fetchedBlock = b.content := by
  obtain ⟨b, hb, hk⟩ := h
  obtain ⟨x, hx, hbx⟩ := mem_stashBag.mp hb
  obtain ⟨r, hrx, hhit, habove⟩ := exists_least (p := fun r => ∃ i, (c.path r).Hit key i)
    (row_hit_iff.mpr ⟨b, hbx, hk⟩)
  have hr : r < clientMaxPath := lt_of_le_of_lt hrx hx
  have hloop := fetchRows_first pathOram ptr hr hhit fun y hy i hi => habove y hy ⟨i, hi⟩
  obtain ⟨i, ⟨hik, hp⟩, -, hf⟩ := obliviousNodeRead_some h8 pathOram (zeroBlock bs) ptr hhit
  refine ⟨_, mem_stashBag.mpr ⟨r, hr, Row.mem_bag.mpr ⟨i, Row.blk_of_present hp⟩⟩, hik, ?_⟩
  unfold ecallObliviousFetch
  rw [hloop]
  exact hf

theorem fetch_sameTables (pathOram : Bool) (key : BlockKey) (ptr : Addr) (c : Client bs) :
    c.SameTables (ecallObliviousFetch pathOram key ptr c).client := by
  simp only [ecallObliviousFetch]
  split <;> exact ⟨rfl, rfl, rfl, rfl⟩

/-- With distinct keys in the stash, a key is in one row only. -/
theorem stash_row_unique {path : Nat → Row bs} (hnd : ((stashBag path).map Blk.key).Nodup) {r r' : Nat}
    (hr : r < clientMaxPath) (hr' : r' < clientMaxPath) {b b' : Blk bs} (hb : b ∈ (path r).bag)
    (hb' : b' ∈ (path r').bag) (hkey : b.key = b'.key) : r = r' := by
  by_contra hne
  have hle : (path r).bag + (path r').bag ≤ stashBag path := by
    have hsub : ({r, r'} : Finset Nat) ⊆ range clientMaxPath := by
      intro x hx
      rcases mem_insert.mp hx with rfl | hx
      · exact mem_range.mpr hr
      · exact mem_range.mpr (mem_singleton.mp hx ▸ hr')
    rw [← sum_pair (f := fun x => (path x).bag) hne]
    exact sum_le_sum_of_subset hsub
  have hnd' := Multiset.nodup_of_le (Multiset.map_le_map hle) hnd
  rw [Multiset.map_add, Multiset.nodup_add] at hnd'
  exact Multiset.disjoint_left.mp hnd'.2.2 (Multiset.mem_map_of_mem Blk.key hb)
    (hkey ▸ Multiset.mem_map_of_mem Blk.key hb')

/-- Fetching the key of a stash block removes the block and copies it out. -/
theorem fetch_of_mem (h8 : 8 ∣ bs) (pathOram : Bool) (ptr : Addr) {c : Client bs} (hwf : c.StashWf)
    (hnd : ((stashBag c.path).map Blk.key).Nodup) {b : Blk bs} (hb : b ∈ stashBag c.path) :
    ∃ path' ptr' subs', ecallObliviousFetch pathOram b.key ptr c =
        ⟨{ c with path := path', stashLoad := c.stashLoad - 1, subs := c.subs ++ subs' }, b.content,
          ptr', true⟩ ∧
      RowsWf path' ∧ stashBag path' + {b} = stashBag c.path ∧ ∀ n ∈ subs', n ≠ 0 := by
  obtain ⟨r, hr, hbr⟩ := mem_stashBag.mp hb
  obtain ⟨l₁, l₂, hl⟩ := List.append_of_mem (List.mem_range.mpr hr)
  have hnodup : (l₁ ++ r :: l₂).Nodup := hl ▸ List.nodup_range
  have hndr : ((c.path r).bag.map Blk.key).Nodup :=
    Multiset.nodup_of_le (Multiset.map_le_map (row_bag_le_stashBag c.path hr)) hnd
  obtain ⟨row', ptr', hread, hrow, hbag, -⟩ :=
    obliviousNodeRead_of_mem h8 pathOram (hwf.rows r hr) (zeroBlock bs) ptr hndr hbr
  have hpos : (c.path r).node.numBlocks ≠ 0 := counter_ne_zero (hwf.rows r hr).count hbr
  have hload : c.stashLoad ≠ 0 := counter_ne_zero hwf.load hb
  have hloop : (List.range clientMaxPath).foldl (fetchRow pathOram b.key)
      ⟨c.path, zeroBlock bs, ptr, false, []⟩ =
      ⟨Function.update c.path r row', b.content, ptr', true, [(c.path r).node.numBlocks]⟩ := by
    rw [hl]
    refine foldl_single (fun x hx => fetchRow_absent pathOram _ ptr [] fun b' hb' hk => ?_) ?_
      (fun x _ => fetchRow_done pathOram b.key _ rfl x)
    · have hxr : x = r := stash_row_unique hnd
        (List.mem_range.mp (hl ▸ List.mem_append_left _ hx)) hr hb' hbr hk
      rw [List.nodup_append] at hnodup
      exact hnodup.2.2 x hx r List.mem_cons_self hxr
    · simp [fetchRow, hread]
  refine ⟨Function.update c.path r row', ptr', [(c.path r).node.numBlocks, c.stashLoad], ?_,
    hwf.rows.update hrow, ?_, ?_⟩
  · simp [ecallObliviousFetch, hloop]
  · have hupd := stashBag_update c.path hr row'
    rw [← hbag, ← add_assoc, add_right_comm] at hupd
    exact add_right_cancel hupd
  · simpa using ⟨hpos, hload⟩

/-! ## Put -/

/-- A completed put of a nonzero key adds the block and counts it. -/
theorem put_counts (h8 : 8 ∣ bs) {path : BlockPath} {key : BlockKey} {ptr : Addr} {content : Block bs}
    {c : Client bs} (hkey : key ≠ 0) (hcounts : c.StashCounts) {r : PutResult bs}
    (hrun : ecallObliviousPutToStashPathOram path key ptr content c = some r) :
    r.client = { c with path := r.client.path, stashLoad := r.client.stashLoad } ∧ r.client.StashCounts ∧
      stashBag r.client.path = stashBag c.path + {⟨key, path, content⟩} := by
  unfold ecallObliviousPutToStashPathOram at hrun
  rw [putStashRow_eq] at hrun
  simp only [Option.ite_none_right_eq_some, Option.some.injEq] at hrun
  obtain ⟨hassert, rfl⟩ := hrun
  obtain ⟨hrows, hbag⟩ := stashLoop_completed h8 ⟨path, key, 0, 0⟩ content hcounts.rows ptr rfl
    (Or.inr hassert)
  simp only [slotCell, hkey, if_false, cell_some] at hbag
  exact ⟨rfl, ⟨hrows, load_succ hcounts.load hbag⟩, hbag⟩

theorem put_rowsWf (h8 : 8 ∣ bs) {path : BlockPath} {key : BlockKey} {ptr : Addr} {content : Block bs}
    {c : Client bs} (hwf : RowsWf c.path) {r : PutResult bs}
    (hrun : ecallObliviousPutToStashPathOram path key ptr content c = some r) : RowsWf r.client.path := by
  unfold ecallObliviousPutToStashPathOram at hrun
  rw [putStashRow_eq] at hrun
  simp only [Option.ite_none_right_eq_some, Option.some.injEq] at hrun
  obtain ⟨-, rfl⟩ := hrun
  exact stashLoop_wf h8 key path content hwf ptr false

theorem put_spec (h8 : 8 ∣ bs) {path : BlockPath} {key : BlockKey} {ptr : Addr} {content : Block bs}
    {c : Client bs} (hkey : key ≠ 0) (hwf : c.StashWf) {r : PutResult bs}
    (hrun : ecallObliviousPutToStashPathOram path key ptr content c = some r) :
    r.client = { c with path := r.client.path, stashLoad := r.client.stashLoad } ∧ r.client.StashWf ∧
      stashBag r.client.path = stashBag c.path + {⟨key, path, content⟩} := by
  obtain ⟨hclient, hcounts, hbag⟩ := put_counts h8 hkey hwf.counts hrun
  exact ⟨hclient, ⟨put_rowsWf h8 hwf.rows hrun, hcounts.load⟩, hbag⟩

theorem put_sameTables {path : BlockPath} {key : BlockKey} {ptr : Addr} {content : Block bs} {c : Client bs}
    {r : PutResult bs} (hrun : ecallObliviousPutToStashPathOram path key ptr content c = some r) :
    c.SameTables r.client := by
  simp only [ecallObliviousPutToStashPathOram, Option.ite_none_right_eq_some, Option.some.injEq] at hrun
  obtain ⟨-, rfl⟩ := hrun
  exact ⟨rfl, rfl, rfl, rfl⟩

/-- A put into a stash with room completes. -/
theorem put_completes (h8 : 8 ∣ bs) (path : BlockPath) {key : BlockKey} (ptr : Addr) (content : Block bs)
    {c : Client bs} (hkey : key ≠ 0) (hcounts : c.StashCounts)
    (hroom : (stashBag c.path).card < clientMaxPath * blocksPerNode) :
    ∃ r, ecallObliviousPutToStashPathOram path key ptr content c = some r := by
  obtain ⟨r, hr, hlt⟩ := exists_room hcounts.rows hroom
  obtain ⟨rows', ptr', hloop, -, -⟩ := stashLoop_of_room h8 hkey path content hcounts.rows ptr hr hlt
  unfold ecallObliviousPutToStashPathOram
  rw [putStashRow_eq, hloop]
  exact ⟨_, if_pos rfl⟩

/-! ## The stash is a bag of `CLIENT_MAX_PATH * BLOCKS_PER_NODE` slots -/

section Exact
variable {w : World bs B}

/-- A download completes exactly when its blocks fit, and then adds them to the stash. -/
theorem download_exact (h8 : 8 ∣ bs) (K : Cipher bs N B) {t : MemTree N} (hh : t.height ≤ clientMaxPath)
    (p : BlockPath) (hcounts : w.client.StashCounts) :
    ((∃ w', ecallDownloadPathToEnclaveClientPathOram K t p w = some w') ↔
        w.client.stashLoad.toNat + (pathKeyBag K t w.host.bufs p).card ≤ clientMaxPath * blocksPerNode) ∧
      ∀ w', ecallDownloadPathToEnclaveClientPathOram K t p w = some w' →
        stashBag w'.client.path = stashBag w.client.path + pathKeyBag K t w.host.bufs p ∧
          w'.client.stashLoad.toNat = w.client.stashLoad.toNat + (pathKeyBag K t w.host.bufs p).card ∧
          w'.host.bufs = w.host.bufs := by
  have hdone : ∀ w', ecallDownloadPathToEnclaveClientPathOram K t p w = some w' →
      stashBag w'.client.path = stashBag w.client.path + pathKeyBag K t w.host.bufs p ∧
        w'.client.stashLoad.toNat = w.client.stashLoad.toNat + (pathKeyBag K t w.host.bufs p).card ∧
        w'.host.bufs = w.host.bufs := by
    intro w' hrun
    obtain ⟨hd, -⟩ := download_spec h8 K hh hrun
    obtain ⟨hcounts', hbag⟩ := hd.counts hcounts
    refine ⟨hbag, ?_, by rw [hd.host]⟩
    rw [hcounts'.load, hcounts.load, hbag, Multiset.card_add]
  refine ⟨⟨?_, fun hfit => ?_⟩, hdone⟩
  · rintro ⟨w', hrun⟩
    obtain ⟨hbag, -, -⟩ := hdone w' hrun
    rw [hcounts.load, ← Multiset.card_add, ← hbag]
    exact card_stashBag_le w'.client.path
  · rw [hcounts.load] at hfit
    exact download_completes h8 K hh p hcounts hfit

/-- A put of a nonzero key completes exactly when the stash has room, and then adds the block. -/
theorem put_exact (h8 : 8 ∣ bs) (path : BlockPath) {key : BlockKey} (hkey : key ≠ 0) (ptr : Addr)
    (content : Block bs) {c : Client bs} (hcounts : c.StashCounts) :
    ((∃ r, ecallObliviousPutToStashPathOram path key ptr content c = some r) ↔
        c.stashLoad.toNat < clientMaxPath * blocksPerNode) ∧
      ∀ r, ecallObliviousPutToStashPathOram path key ptr content c = some r →
        stashBag r.client.path = stashBag c.path + {⟨key, path, content⟩} ∧
          r.client.stashLoad.toNat = c.stashLoad.toNat + 1 := by
  have hdone : ∀ r, ecallObliviousPutToStashPathOram path key ptr content c = some r →
      stashBag r.client.path = stashBag c.path + {⟨key, path, content⟩} ∧
        r.client.stashLoad.toNat = c.stashLoad.toNat + 1 := by
    intro r hrun
    obtain ⟨-, hcounts', hbag⟩ := put_counts h8 hkey hcounts hrun
    refine ⟨hbag, ?_⟩
    rw [hcounts'.load, hcounts.load, hbag, Multiset.card_add, Multiset.card_singleton]
  refine ⟨⟨?_, fun hroom => ?_⟩, hdone⟩
  · rintro ⟨r, hrun⟩
    have hle := card_stashBag_le r.client.path
    rw [(hdone r hrun).1, Multiset.card_add, Multiset.card_singleton] at hle
    rw [hcounts.load]
    exact hle
  · rw [hcounts.load] at hroom
    exact put_completes h8 path ptr content hkey hcounts hroom

/-- Download and put fail exactly when the stash would hold more than its slots. -/
theorem stash_exact (h8 : 8 ∣ bs) (K : Cipher bs N B) {t : MemTree N} (hh : t.height ≤ clientMaxPath) (p : BlockPath)
    (hcounts : w.client.StashCounts)
    (hkeys : ∀ h < t.height, (nodeRow K t w.host.bufs (nodeAddr p.toNat h)).KeysTell) :
    let blocks := ∑ h ∈ range t.height, (nodeRow K t w.host.bufs (nodeAddr p.toNat h)).bag
    ((∃ w', ecallDownloadPathToEnclaveClientPathOram K t p w = some w') ↔
        w.client.stashLoad.toNat + blocks.card ≤ clientMaxPath * blocksPerNode) ∧
      (∀ w', ecallDownloadPathToEnclaveClientPathOram K t p w = some w' →
        stashBag w'.client.path = stashBag w.client.path + blocks ∧
          w'.client.stashLoad.toNat = w.client.stashLoad.toNat + blocks.card ∧ w'.host.bufs = w.host.bufs) ∧
      ∀ path key ptr content, key ≠ 0 →
        ((∃ r, ecallObliviousPutToStashPathOram path key ptr content w.client = some r) ↔
            w.client.stashLoad.toNat < clientMaxPath * blocksPerNode) ∧
          ∀ r, ecallObliviousPutToStashPathOram path key ptr content w.client = some r →
            stashBag r.client.path = stashBag w.client.path + {⟨key, path, content⟩} ∧
              r.client.stashLoad.toNat = w.client.stashLoad.toNat + 1 := by
  have hblocks : pathKeyBag K t w.host.bufs p =
      ∑ h ∈ range t.height, (nodeRow K t w.host.bufs (nodeAddr p.toNat h)).bag :=
    sum_congr rfl fun h hlt => (hkeys h (mem_range.mp hlt)).keyBag_eq
  obtain ⟨hiff, hdone⟩ := download_exact h8 K hh p hcounts
  rw [hblocks] at hiff hdone
  exact ⟨hiff, hdone, fun path key ptr content hkey => put_exact h8 path hkey ptr content hcounts⟩

/-- A stash with a hole in front of its one block. -/
def oneBlockWorld : World 8 (Option (Block 8)) where
  client := { emptyClient 8 with path := Function.update (emptyClient 8).path 3 oneBlockRow, stashLoad := 1 }
  host := .filled none

/-- A tree of height 1 with one block in its root. -/
def oneBlockTree : MemTree (Option MemTreeNode) := ⟨0, 1, fun _ => some oneBlockRow.node⟩

theorem oneBlockWorld_counts : oneBlockWorld.client.StashCounts := by
  have hempty : ∀ r, ((emptyClient 8).path r).bag = 0 := fun r => Row.bag_of_empty fun _ => rfl
  have hcard : oneBlockRow.bag.card = 1 := oneBlockRow_counts.symm
  refine ⟨?_, ?_⟩
  · apply RowsCount.update _ oneBlockRow_counts
    intro r _
    rw [Row.Counts, hempty r]
    rfl
  · have hupd := stashBag_update (emptyClient 8).path (r := 3) (by decide) oneBlockRow
    rw [hempty, add_zero, show stashBag (emptyClient 8).path = 0 from sum_eq_zero fun r _ => hempty r, zero_add] at hupd
    rw [show stashBag oneBlockWorld.client.path = oneBlockRow.bag from hupd, hcard]
    rfl

theorem stash_exact_oneBlock :
    (∃ w', ecallDownloadPathToEnclaveClientPathOram (Cipher.pairing 8) oneBlockTree 0 oneBlockWorld = some w') ∧
      ∃ r, ecallObliviousPutToStashPathOram 5 7 0 (zeroBlock 8) oneBlockWorld.client = some r := by
  obtain ⟨hdownload, -, hput⟩ := stash_exact (dvd_refl 8) (Cipher.pairing 8) (t := oneBlockTree) (by decide) 0
    oneBlockWorld_counts fun h _ i => by
      show (oneBlockRow.node.slots i).blockKey ≠ 0 ↔ (oneBlockRow.node.slots i).presenceBit ≠ 0
      fin_cases i <;> decide
  refine ⟨hdownload.mpr ?_, (hput 5 7 0 (zeroBlock 8) (by decide)).1.mpr (by decide)⟩
  have hcard := Row.card_bag_le (nodeRow (Cipher.pairing 8) oneBlockTree oneBlockWorld.host.bufs 0)
  have hsum : (∑ h ∈ range 1, (nodeRow (Cipher.pairing 8) oneBlockTree oneBlockWorld.host.bufs (nodeAddr 0 h)).bag).card ≤
      blocksPerNode := by rwa [sum_range_one]
  exact (Nat.add_le_add_left hsum 1).trans (by decide)

/-- A node whose only block, of path 0, has a buffer at `2 ^ 32`. -/
def tallNode : MemTreeNode := ⟨1, fun i => if i = 0 then ⟨0, 5, 4294967296, 1⟩ else ⟨0, 0, 0, 0⟩⟩

/-- A tree with a level more than the back-up table, and one block on that level. -/
def tallTree : MemTree (Option MemTreeNode) :=
  ⟨0, 21, fun n => if n = 2 ^ 20 - 1 then some tallNode else none⟩

def tallWorld : World 8 (Option (Block 8)) := ⟨emptyClient 8, .filled none⟩

theorem tallTree_slot (n : Nat) (i : Fin blocksPerNode) :
    (((nodeRow (Cipher.pairing 8) tallTree tallWorld.host.bufs n).node.slots i).blockKey ≠ 0 ↔
        ((nodeRow (Cipher.pairing 8) tallTree tallWorld.host.bufs n).node.slots i).presenceBit ≠ 0) ∧
      ((nodeRow (Cipher.pairing 8) tallTree tallWorld.host.bufs n).node.slots i).blockPath = 0 ∧
      (n ≠ 2 ^ 20 - 1 →
        ((nodeRow (Cipher.pairing 8) tallTree tallWorld.host.bufs n).node.slots i).blockKey = 0) := by
  have hnode : (nodeRow (Cipher.pairing 8) tallTree tallWorld.host.bufs n).node =
      if n = 2 ^ 20 - 1 then tallNode else zeroNode := by
    show decryptData (Cipher.pairing 8).node (if n = 2 ^ 20 - 1 then some tallNode else none) = _
    split <;> rfl
  rw [hnode]
  split
  next h => exact ⟨by fin_cases i <;> decide, by fin_cases i <;> rfl, fun hne => absurd h hne⟩
  next h => exact ⟨by fin_cases i <;> decide, rfl, fun _ => rfl⟩

/-- Slots from which nothing is downloaded. -/
def BlankFrom (node : MemTreeNode) : Prop :=
  ∀ j : Fin blocksPerNode, j ≠ 0 → (node.slots j).blockKey = 0 ∧ (node.slots j).blockContent = 0

/-- A download of an empty slot on the level behind the table. -/
theorem downloadSlot_blank (K : Cipher bs N B) {w : World bs B} (hblank : BlankFrom w.client.temp.node)
    {i : Fin blocksPerNode} (hi : i ≠ 0) :
    ∃ w', downloadSlot K clientMaxPath w i = some w' ∧ BlankFrom w'.client.temp.node ∧
      w'.client.path = w.client.path := by
  have hstored : BlankFrom (w.client.temp.node.storeAddr i (w.client.temp.node.slots i).blockContent) := by
    intro j hj
    rw [(hblank i hi).2]
    refine ⟨?_, (hblank j hj).2⟩
    simp only [MemTreeNode.storeAddr, MemTreeNode.setWord]
    split_ifs
    · rfl
    · rfl
    · exact (hblank j hj).1
  have hkey := (hstored i hi).1
  unfold downloadSlot
  simp only [backUpAddr, lt_irrefl, if_false, if_true, Option.bind_eq_bind, Option.bind_some]
  rw [if_pos (Or.inl hkey), stashLoop_idle _ _ _ (Or.inl hkey)]
  refine ⟨_, rfl, fun j hj => ?_, rfl⟩
  by_cases hji : j = i
  · subst hji
    simp only [Function.update_self]
    exact hstored j hj
  · simp only [Function.update_of_ne hji]
    exact hstored j hj

/-- A download of a block on the level behind the table. -/
theorem downloadSlot_behind (h8 : 8 ∣ bs) (K : Cipher bs N B) {w : World bs B} {i : Fin blocksPerNode}
    {node : MemTreeNode} (hnode : w.client.temp.node.storeAddr i (w.client.temp.node.slots i).blockContent = node)
    (hkey : (node.slots i).blockKey ≠ 0) (hcounts : w.client.StashCounts) {r : Nat} (hr : r < clientMaxPath)
    (hroom : (w.client.path r).node.numBlocks.toNat < blocksPerNode) :
    ∃ w', downloadSlot K clientMaxPath w i = some w' ∧
      (∀ j ≠ i, w'.client.temp.node.slots j = node.slots j) ∧
      stashBag w'.client.path = stashBag w.client.path + {⟨(node.slots i).blockKey, (node.slots i).blockPath,
        decryptData K.block (w.host.bufs (node.slots i).blockContent)⟩} := by
  obtain ⟨rows, ptr, hloop, -, hbag⟩ := stashLoop_of_room h8 hkey (node.slots i).blockPath
    (decryptData K.block (w.host.bufs (node.slots i).blockContent)) hcounts.rows (node.slots i).blockContent hr hroom
  unfold downloadSlot
  simp only [backUpAddr, lt_irrefl, if_false, if_true, Option.bind_eq_bind, Option.bind_some, hnode, hloop]
  refine ⟨_, if_pos (Or.inr trivial), fun j hj => ?_, hbag⟩
  simp only [Function.update_of_ne hj]

/-- The block on the level behind the table comes into the stash under a part of its buffer's address. -/
theorem downloadSlot_tall {w : World 8 (Option (Block 8))} (hnode : w.client.temp.node = tallNode)
    (hcounts : w.client.StashCounts) (hempty : stashBag w.client.path = 0) :
    ∃ w', downloadSlot (Cipher.pairing 8) clientMaxPath w 0 = some w' ∧ BlankFrom w'.client.temp.node ∧
      ∃ content, stashBag w'.client.path = {⟨5, 1, content⟩} := by
  have hroom : (w.client.path 0).node.numBlocks.toNat < blocksPerNode := by
    have hle := row_bag_le_stashBag w.client.path (show 0 < clientMaxPath by decide)
    have hzero := Multiset.le_zero.mp (hempty ▸ hle)
    rw [hcounts.rows 0 (by decide), hzero]
    decide
  have hstored : w.client.temp.node.storeAddr 0 (w.client.temp.node.slots 0).blockContent =
      tallNode.storeAddr 0 (tallNode.slots 0).blockContent := by rw [hnode]
  obtain ⟨w', hw', hslots, hbag⟩ := downloadSlot_behind (dvd_refl 8) (Cipher.pairing 8) hstored (by decide) hcounts
    (show 0 < clientMaxPath by decide) hroom
  refine ⟨w', hw', fun j hj => ?_, _, hbag.trans (by rw [hempty, zero_add]; rfl)⟩
  rw [hslots j hj]
  revert j
  decide

/-- The download of that node. -/
theorem downloadSlots_tall {w : World 8 (Option (Block 8))} (hnode : w.client.temp.node = tallNode)
    (hcounts : w.client.StashCounts) (hempty : stashBag w.client.path = 0) :
    ∃ w' content, (List.finRange blocksPerNode).foldlM (downloadSlot (Cipher.pairing 8) clientMaxPath) w = some w' ∧
      stashBag w'.client.path = {⟨5, 1, content⟩} := by
  obtain ⟨w₁, hw₁, hblank, content, hbag⟩ := downloadSlot_tall hnode hcounts hempty
  obtain ⟨w₂, hw₂, hblank, hpath₂⟩ :=
    downloadSlot_blank (Cipher.pairing 8) hblank (show (1 : Fin blocksPerNode) ≠ 0 by decide)
  obtain ⟨w₃, hw₃, hblank, hpath₃⟩ :=
    downloadSlot_blank (Cipher.pairing 8) hblank (show (2 : Fin blocksPerNode) ≠ 0 by decide)
  obtain ⟨w₄, hw₄, -, hpath₄⟩ :=
    downloadSlot_blank (Cipher.pairing 8) hblank (show (3 : Fin blocksPerNode) ≠ 0 by decide)
  refine ⟨w₄, content, ?_, by rw [hpath₄, hpath₃, hpath₂, hbag]⟩
  rw [show List.finRange blocksPerNode = [0, 1, 2, 3] from rfl]
  simp [hw₁, hw₂, hw₃, hw₄]

/-- The levels of the table bring nothing. -/
theorem tallTree_above : pathKeyBag (Cipher.pairing 8) { tallTree with height := clientMaxPath }
    tallWorld.host.bufs 0 = 0 := by
  refine sum_eq_zero fun h hh => bag_eq_zero fun i => if_pos ((tallTree_slot _ i).2.2 ?_)
  have hlt := nodeAddr_lt 0 h
  have hpow : 2 ^ (h + 1) ≤ 2 ^ 20 := Nat.pow_le_pow_right (by decide) (mem_range.mp hh)
  exact ne_of_lt (show nodeAddr 0 h < 2 ^ 20 - 1 by omega)

/-- With 21 levels the download completes, but the block does not keep its path. -/
theorem stash_exact_tallTree :
    tallWorld.client.StashCounts ∧
      (∀ h < tallTree.height,
        (nodeRow (Cipher.pairing 8) tallTree tallWorld.host.bufs (nodeAddr 0 h)).KeysTell) ∧
      ∃ w', ecallDownloadPathToEnclaveClientPathOram (Cipher.pairing 8) tallTree 0 tallWorld = some w' ∧
        stashBag w'.client.path ≠ stashBag tallWorld.client.path +
          ∑ h ∈ range tallTree.height,
            (nodeRow (Cipher.pairing 8) tallTree tallWorld.host.bufs (nodeAddr 0 h)).bag := by
  have hrows : ∀ r, (tallWorld.client.path r).bag = 0 := fun r => Row.bag_of_empty fun _ => rfl
  have hstash : stashBag tallWorld.client.path = 0 := sum_eq_zero fun r _ => hrows r
  have hcounts : tallWorld.client.StashCounts :=
    ⟨fun r _ => by rw [Row.Counts, hrows r]; rfl, by rw [hstash]; rfl⟩
  refine ⟨hcounts, fun h _ i => (tallTree_slot _ i).1, ?_⟩
  obtain ⟨w₁, hw₁⟩ := download_completes (dvd_refl 8) (Cipher.pairing 8)
    (t := { tallTree with height := clientMaxPath }) le_rfl 0 hcounts (by rw [tallTree_above, hstash]; decide)
  obtain ⟨l, hl, rfl⟩ := Option.map_eq_some_iff.mp hw₁
  obtain ⟨hd, -, haddr, -⟩ := levels_spec (dvd_refl 8) (Cipher.pairing 8) le_rfl hl
  obtain ⟨hcounts₁, hbag₁⟩ := hd.counts hcounts
  have hempty : stashBag l.world.client.path = 0 :=
    hbag₁.trans (by rw [hstash, zero_add]; exact tallTree_above)
  have hnode : (readNode (Cipher.pairing 8) tallTree l.addr.toNat l.world).client.temp.node = tallNode := by
    rw [haddr]
    rfl
  obtain ⟨w₂, content, hslots, hbag⟩ := downloadSlots_tall hnode ⟨hcounts₁.rows, hcounts₁.load⟩ hempty
  refine ⟨w₂, ?_, fun heq => ?_⟩
  · refine Option.map_eq_some_iff.mpr ⟨⟨w₂, l.addr * 2 + 1 + l.treePath % 2, l.treePath / 2⟩, ?_, rfl⟩
    show (List.range (clientMaxPath + 1)).foldlM (downloadLevel (Cipher.pairing 8) tallTree) _ = _
    rw [List.range_succ]
    exact foldlM_append_eq_some.mpr ⟨l, hl, by simpa using downloadLevel_eq_some.mpr ⟨w₂, hslots, rfl⟩⟩
  · rw [hbag, hstash, zero_add] at heq
    have hmem : (⟨5, 1, content⟩ : Blk 8) ∈ ∑ h ∈ range tallTree.height,
        (nodeRow (Cipher.pairing 8) tallTree tallWorld.host.bufs (nodeAddr 0 h)).bag :=
      heq ▸ Multiset.mem_singleton_self _
    obtain ⟨h, -, hh⟩ := Multiset.mem_sum.mp hmem
    obtain ⟨i, hi⟩ := Row.mem_bag.mp hh
    -- every block of the tree has the path 0
    have hzero := (Row.blk_eq_some.mp hi).2.2.1.symm.trans (tallTree_slot _ i).2.1
    exact absurd hzero (show (1 : BlockPath) ≠ 0 by decide)

end Exact

end SgxOram
