import SgxOram.Enclave.StashSpec

/-!
# The stash entries that a fetch touches

`fetchRowTraced`, `ecallObliviousFetchTraced` : the fetch with the list of `(row, slot)` entries that
`ObliviousNodeRead` reads and writes back.

* `fetchTraced_fst` : without the list it is `ecall_oblivious_fetch`;
* `fetchTraced_spec` : a row is touched if no row above it held the key;
* `fetch_trace_eq_iff` : when two fetches touch the same entries.
-/

namespace SgxOram
open Lib

variable {bs : Nat}

/-- `ObliviousNodeRead` on the row at `depth`, with the entries it touches. -/
def obliviousNodeReadTraced (pathOram : Bool) (row : Row bs) (blockKey : BlockKey) (fetchedBlock : Block bs)
    (encryptedContentPtr : Addr) (depth : Nat) : ReadState bs × List (Nat × Fin blocksPerNode) :=
  (List.finRange blocksPerNode).foldl
    (fun st i => (obliviousNodeReadSlot pathOram blockKey st.1 i, st.2 ++ [(depth, i)]))
    (⟨row, row.node.numBlocks, fetchedBlock, encryptedContentPtr, false, []⟩, [])

/-- One row of the fetch: after the first success the call is skipped. -/
def fetchRowTraced (pathOram : Bool) (blockKey : BlockKey) (st : FetchLoop bs × List (Nat × Fin blocksPerNode))
    (h : Nat) : FetchLoop bs × List (Nat × Fin blocksPerNode) :=
  if st.1.succ then st
  else
    let r := obliviousNodeReadTraced pathOram (st.1.path h) blockKey st.1.fetchedBlock st.1.encryptedContentPtr h
    ({ path := Function.update st.1.path h r.1.row, fetchedBlock := r.1.fetchedBlock,
       encryptedContentPtr := r.1.encryptedContentPtr, succ := r.1.succ, subs := st.1.subs ++ r.1.subs },
      st.2 ++ r.2)

/-- The loop of `ecall_oblivious_fetch` with the entries it touches. -/
def fetchTraced (pathOram : Bool) (blockKey : BlockKey) (encryptedContentPtr : Addr) (c : Client bs) :
    FetchLoop bs × List (Nat × Fin blocksPerNode) :=
  (List.range clientMaxPath).foldl (fetchRowTraced pathOram blockKey)
    (⟨c.path, zeroBlock bs, encryptedContentPtr, false, []⟩, [])

/-! ## One row -/

/-- The entries of a row. -/
def rowPlaces (h : Nat) : List (Nat × Fin blocksPerNode) := (List.finRange blocksPerNode).map fun i => (h, i)

theorem mem_rowPlaces {h : Nat} {place : Nat × Fin blocksPerNode} : place ∈ rowPlaces h ↔ place.1 = h := by
  simp [rowPlaces, Prod.ext_iff, eq_comm]

theorem obliviousNodeReadTraced_eq (pathOram : Bool) (row : Row bs) (key : BlockKey) (fetched : Block bs) (ptr : Addr)
    (depth : Nat) : obliviousNodeReadTraced pathOram row key fetched ptr depth =
      (obliviousNodeRead pathOram row key fetched ptr, rowPlaces depth) := by
  refine foldl_inv (P := fun done st => st = (done.foldl (obliviousNodeReadSlot pathOram key)
    ⟨row, row.node.numBlocks, fetched, ptr, false, []⟩, done.map fun i => (depth, i))) (List.finRange blocksPerNode)
    (⟨row, row.node.numBlocks, fetched, ptr, false, []⟩, []) rfl ?_
  intro done i st _ hst
  simp [hst]

theorem fetchRowTraced_eq (pathOram : Bool) (key : BlockKey) (st : FetchLoop bs × List (Nat × Fin blocksPerNode))
    (h : Nat) : fetchRowTraced pathOram key st h =
      (fetchRow pathOram key st.1 h, st.2 ++ if st.1.succ then [] else rowPlaces h) := by
  unfold fetchRowTraced fetchRow
  rw [obliviousNodeReadTraced_eq]
  split
  · simp
  · rfl

/-- Without the list of entries it is the fetch of the source. -/
theorem fetchTraced_fst (pathOram : Bool) (key : BlockKey) (ptr : Addr) (c : Client bs) :
    (fetchTraced pathOram key ptr c).1 =
      (List.range clientMaxPath).foldl (fetchRow pathOram key) ⟨c.path, zeroBlock bs, ptr, false, []⟩ := by
  refine foldl_rel (R := fun _ (st : FetchLoop bs × List (Nat × Fin blocksPerNode)) (st' : FetchLoop bs) => st.1 = st')
    (List.range clientMaxPath) _ _ rfl ?_
  intro done h st st' _ hst
  rw [fetchRowTraced_eq, hst]

/-! ## All rows -/

/-- One of the first `r` rows holds the key. -/
def HeldAbove (c : Client bs) (key : BlockKey) (r : Nat) : Prop := ∃ x < r, ∃ i, (c.path x).Hit key i

instance (c : Client bs) (key : BlockKey) : DecidablePred (HeldAbove c key) := fun r =>
  inferInstanceAs (Decidable (∃ x < r, ∃ i, (c.path x).Hit key i))

/-- The fetch touches a row if no row above it held the key. -/
theorem fetchTraced_spec (pathOram : Bool) (key : BlockKey) (ptr : Addr) (c : Client bs) :
    (fetchTraced pathOram key ptr c).2 =
      ((List.range clientMaxPath).filter fun r => ¬ HeldAbove c key r).flatMap rowPlaces := by
  refine (foldl_inv (P := fun done (st : FetchLoop bs × List (Nat × Fin blocksPerNode)) =>
      (∀ r, done.length ≤ r → st.1.path r = c.path r) ∧ (st.1.succ = true ↔ HeldAbove c key done.length) ∧
        st.2 = (done.filter fun r => ¬ HeldAbove c key r).flatMap rowPlaces)
    (List.range clientMaxPath) (⟨c.path, zeroBlock bs, ptr, false, []⟩, []) ?_ ?_).2.2
  · exact ⟨fun _ _ => rfl, by simp [HeldAbove], rfl⟩
  · intro done h st hpre ⟨hpath, hsucc, htrace⟩
    obtain ⟨rfl, -⟩ := range_of_done hpre
    rw [List.length_range] at hpath hsucc
    rw [fetchRowTraced_eq, List.length_append, List.length_range, List.length_singleton, List.filter_append,
      List.flatMap_append, htrace]
    have hsplit : HeldAbove c key (h + 1) ↔ HeldAbove c key h ∨ ∃ i, (c.path h).Hit key i := by
      simp only [HeldAbove, Nat.lt_succ_iff_lt_or_eq, or_and_right, exists_or, exists_eq_left]
    cases hs : st.1.succ with
    | true =>
      have habove := hsucc.mp hs
      rw [fetchRow_done pathOram key st.1 hs]
      refine ⟨fun r hr => hpath r (by omega), ?_, by simp [habove]⟩
      exact ⟨fun _ => hsplit.mpr (Or.inl habove), fun _ => hs⟩
    | false =>
      have habove : ¬ HeldAbove c key h := fun h => by simp [hsucc.mpr h] at hs
      have hrow : fetchRow pathOram key st.1 h =
          let r := obliviousNodeRead pathOram (c.path h) key st.1.fetchedBlock st.1.encryptedContentPtr
          { path := Function.update st.1.path h r.row, fetchedBlock := r.fetchedBlock,
            encryptedContentPtr := r.encryptedContentPtr, succ := r.succ, subs := st.1.subs ++ r.subs } := by
        simp [fetchRow, hs, hpath h le_rfl]
      rw [hrow]
      refine ⟨fun r hr => ?_, ?_, by simp [habove]⟩
      · simp only [Function.update_of_ne (show r ≠ h by omega)]
        exact hpath r (by omega)
      · rw [hsplit, ← obliviousNodeRead_succ_iff pathOram _ _ st.1.fetchedBlock st.1.encryptedContentPtr]
        simp [habove]

/-- Two fetches touch the same entries exactly when, at every row, either both or neither of them have met
their key in a row above. -/
theorem fetch_trace_eq_iff (pathOram : Bool) (c₁ c₂ : Client bs) (key₁ key₂ : BlockKey) (ptr₁ ptr₂ : Addr) :
    (fetchTraced pathOram key₁ ptr₁ c₁).2 = (fetchTraced pathOram key₂ ptr₂ c₂).2 ↔
      ∀ r < clientMaxPath, (∃ x < r, ∃ b ∈ (c₁.path x).bag, b.key = key₁) ↔
        ∃ x < r, ∃ b ∈ (c₂.path x).bag, b.key = key₂ := by
  simp only [← row_hit_iff]
  rw [fetchTraced_spec, fetchTraced_spec]
  constructor
  · intro heq r hr
    have hmem := congrArg ((r, (0 : Fin blocksPerNode)) ∈ ·) heq
    simp only [List.mem_flatMap, List.mem_filter, List.mem_range, mem_rowPlaces, decide_eq_true_eq] at hmem
    have hiff : (¬ HeldAbove c₁ key₁ r) = ¬ HeldAbove c₂ key₂ r := by simpa [hr] using hmem
    exact not_iff_not.mp (iff_of_eq hiff)
  · intro h
    congr 1
    apply List.filter_congr
    intro r hr
    exact decide_eq_decide.mpr (not_congr (h r (List.mem_range.mp hr)))

/-- In `oneBlockWorld` row 3 holds a block of key 2 and no row holds key 3: the fetch of key 2 touches 16
entries, the fetch of key 3 all 80. -/
theorem fetch_trace_shows_row :
    ((fetchTraced true 2 0 oneBlockWorld.client).2.length = 16 ∧
        (fetchTraced true 3 0 oneBlockWorld.client).2.length = 80) ∧
      ¬ ∀ (c₁ c₂ : Client 8) (key₁ key₂ : BlockKey), key₁ ≠ 0 → key₂ ≠ 0 →
        (fetchTraced true key₁ 0 c₁).2 = (fetchTraced true key₂ 0 c₂).2 := by
  have hlen : (fetchTraced true 2 0 oneBlockWorld.client).2.length = 16 ∧
      (fetchTraced true 3 0 oneBlockWorld.client).2.length = 80 := by
    rw [fetchTraced_spec, fetchTraced_spec]
    decide +kernel
  refine ⟨hlen, fun h => ?_⟩
  have heq := h oneBlockWorld.client oneBlockWorld.client 2 3 (by decide) (by decide)
  rw [heq, hlen.2] at hlen
  exact absurd hlen.1 (by decide)

end SgxOram
