import Mathlib

/-!
# Bags of optional cells

A bounded store is a finite family of cells, each empty or holding one item. Its content, with
the places forgotten, is a multiset:

* `cell o` : the bag of one cell; `bag f` : the bag of a family `f : ι → Option α`;
* `bag_update` : what overwriting one cell does to the bag; `mem_bag`, `card_bag_le` : reading the bag
  back;
* `bag_key_inj` : with distinct keys in the bag, a key names one cell;
* `Represents m M` : the bag `m` is the graph of the partial map `M` from keys to values, with
  `Represents.cons`, `Represents.of_cons` for one insertion and one removal.
-/

namespace SgxOram.Lib
open Finset

/-- The bag of one cell. -/
def cell {α : Type*} : Option α → Multiset α
  | none => 0
  | some a => {a}

@[simp] theorem cell_none {α : Type*} : cell (none : Option α) = 0 := rfl

@[simp] theorem cell_some {α : Type*} (a : α) : cell (some a) = {a} := rfl

theorem mem_cell {α : Type*} {a : α} {o : Option α} : a ∈ cell o ↔ o = some a := by
  cases o with
  | none => simp
  | some b =>
    rw [cell_some, Multiset.mem_singleton, Option.some.injEq]
    exact eq_comm

theorem card_cell_le {α : Type*} (o : Option α) : (cell o).card ≤ 1 := by
  cases o <;> simp

section Family
variable {ι α : Type*} [Fintype ι]

/-- The bag of a finite family of cells. -/
def bag (f : ι → Option α) : Multiset α := ∑ i, cell (f i)

theorem mem_bag {f : ι → Option α} {a : α} : a ∈ bag f ↔ ∃ i, f i = some a := by
  simp [bag, Multiset.mem_sum, mem_cell]

theorem card_bag (f : ι → Option α) : (bag f).card = ∑ i, (cell (f i)).card := by
  simp [bag, Multiset.card_sum]

theorem card_bag_le (f : ι → Option α) : (bag f).card ≤ Fintype.card ι := by
  rw [card_bag]
  exact (Finset.sum_le_card_nsmul _ _ 1 fun i _ => card_cell_le (f i)).trans (by simp)

/-- A counter of a bag that holds an item is not zero. -/
theorem counter_ne_zero {α : Type*} {n : UInt32} {m : Multiset α} (h : n.toNat = m.card) {a : α} (ha : a ∈ m) :
    n ≠ 0 := by
  intro h0
  rw [h0] at h
  exact (Multiset.card_pos_iff_exists_mem.mpr ⟨a, ha⟩).ne h

theorem bag_eq_zero {f : ι → Option α} (h : ∀ i, f i = none) : bag f = 0 := by
  simp [bag, h]

variable [DecidableEq ι]

theorem bag_eq_cell_add (f : ι → Option α) (i : ι) :
    bag f = cell (f i) + ∑ j ∈ univ.erase i, cell (f j) :=
  (Finset.add_sum_erase univ (fun j => cell (f j)) (mem_univ i)).symm

/-- Overwriting one cell exchanges its content in the bag. -/
theorem bag_update (f : ι → Option α) (i : ι) (o : Option α) :
    bag (Function.update f i o) + cell (f i) = bag f + cell o := by
  rw [bag_eq_cell_add f i, bag_eq_cell_add (Function.update f i o) i, Function.update_self,
    Finset.sum_congr rfl fun j hj => by rw [Function.update_of_ne (Finset.ne_of_mem_erase hj)]]
  abel

theorem bag_update_of_empty {f : ι → Option α} {i : ι} (h : f i = none) (a : α) :
    bag (Function.update f i (some a)) = bag f + {a} := by
  simpa [h] using bag_update f i (some a)

theorem bag_update_none {f : ι → Option α} {i : ι} {a : α} (h : f i = some a) :
    bag (Function.update f i none) + {a} = bag f := by
  simpa [h] using bag_update f i none

/-- With distinct keys in the bag, a key is held by one cell only. -/
theorem bag_key_inj {κ : Type*} {f : ι → Option α} {key : α → κ} (h : ((bag f).map key).Nodup)
    {i j : ι} {a b : α} (hi : f i = some a) (hj : f j = some b) (hab : key a = key b) : i = j := by
  by_contra hne
  have hsplit : bag f = {a} + ({b} + ∑ l ∈ (univ.erase i).erase j, cell (f l)) := by
    rw [bag_eq_cell_add f i, hi,
      ← Finset.add_sum_erase (univ.erase i) (fun l => cell (f l))
        (Finset.mem_erase.mpr ⟨fun e => hne e.symm, mem_univ j⟩), hj]
    rfl
  rw [hsplit] at h
  simp [hab] at h

end Family

section Graph
variable {α κ β : Type*} (key : α → κ) (val : α → β)

/-- The bag `m` is the graph of the partial map `M`: no key twice, and the items of `m` are the
bindings of `M`. -/
def Represents (m : Multiset α) (M : κ → Option β) : Prop :=
  (m.map key).Nodup ∧ ∀ k v, (∃ a ∈ m, key a = k ∧ val a = v) ↔ M k = some v

variable {key val} {m : Multiset α} {M : κ → Option β}

theorem Represents.mem (h : Represents key val m M) {a : α} (ha : a ∈ m) :
    M (key a) = some (val a) := (h.2 _ _).mp ⟨a, ha, rfl, rfl⟩

theorem Represents.exists_mem (h : Represents key val m M) {k : κ} {v : β} (hk : M k = some v) :
    ∃ a ∈ m, key a = k ∧ val a = v := (h.2 k v).mpr hk

theorem represents_zero : Represents key val 0 fun _ => none := by
  simp [Represents]

theorem Represents.not_mem (h : Represents key val m M) {k : κ} (hk : M k = none) :
    ∀ a ∈ m, key a ≠ k := fun a ha hak => by
  have := h.mem ha
  rw [hak, hk] at this
  cases this

/-- A bag has at most as many items as its map has keys. -/
theorem Represents.card_le (h : Represents key val m M) {s : Finset κ} (hs : ∀ k v, M k = some v → k ∈ s) :
    m.card ≤ s.card := by
  have hle : m.map key ≤ s.val := (Multiset.le_iff_subset h.1).mpr fun k hk => by
    obtain ⟨a, ha, rfl⟩ := Multiset.mem_map.mp hk
    exact hs _ _ (h.mem ha)
  simpa using Multiset.card_le_card hle

/-- A bag has at least as many items as keys that its map binds. -/
theorem Represents.le_card (h : Represents key val m M) {s : Finset κ} (hs : ∀ k ∈ s, ∃ v, M k = some v) :
    s.card ≤ m.card := by
  have hle : s.val ≤ m.map key := (Multiset.le_iff_subset s.nodup).mpr fun k hk => by
    obtain ⟨v, hv⟩ := hs k hk
    obtain ⟨a, ha, rfl, -⟩ := h.exists_mem hv
    exact Multiset.mem_map_of_mem key ha
  simpa using Multiset.card_le_card hle

/-- A part of a bag represents a part of the map. -/
theorem Represents.of_le {m' : Multiset α} (h : Represents key val m M) (hle : m' ≤ m) :
    ∃ M', Represents key val m' M' ∧ ∀ k v, M' k = some v → M k = some v := by
  classical
  have hpart : ∀ k v, (if ∃ a ∈ m', key a = k then M k else none) = some v ↔
      (∃ a ∈ m', key a = k) ∧ M k = some v := fun k v => by
    split <;> simp_all
  refine ⟨fun k => if ∃ a ∈ m', key a = k then M k else none,
    ⟨Multiset.nodup_of_le (Multiset.map_le_map hle) h.1, fun k v => ?_⟩, fun k v hk => ((hpart k v).mp hk).2⟩
  rw [hpart]
  constructor
  · rintro ⟨a, ha, rfl, rfl⟩
    exact ⟨⟨a, ha, rfl⟩, h.mem (Multiset.mem_of_le hle ha)⟩
  · rintro ⟨⟨a, ha, rfl⟩, hv⟩
    exact ⟨a, ha, rfl, Option.some.inj ((h.mem (Multiset.mem_of_le hle ha)).symm.trans hv)⟩

/-- Bags without a common key represent their maps together. -/
theorem Represents.add {m' : Multiset α} {M' : κ → Option β} (h : Represents key val m M)
    (h' : Represents key val m' M') (hdisj : ∀ k v, M k = some v → M' k = none) :
    Represents key val (m + m') fun k => (M k).or (M' k) := by
  refine ⟨?_, fun k v => ?_⟩
  · rw [Multiset.map_add, Multiset.nodup_add]
    refine ⟨h.1, h'.1, Multiset.disjoint_left.mpr ?_⟩
    intro k hk hk'
    obtain ⟨a, ha, rfl⟩ := Multiset.mem_map.mp hk
    obtain ⟨b, hb, hba⟩ := Multiset.mem_map.mp hk'
    exact h'.not_mem (hdisj _ _ (h.mem ha)) b hb hba
  · rw [Option.or_eq_some_iff, ← h.2, ← h'.2]
    constructor
    · rintro ⟨a, ha, rfl, rfl⟩
      rcases Multiset.mem_add.mp ha with ha | ha
      · exact Or.inl ⟨a, ha, rfl, rfl⟩
      · refine Or.inr ⟨?_, a, ha, rfl, rfl⟩
        cases hk : M (key a) with
        | none => rfl
        | some v => exact absurd rfl (h'.not_mem (hdisj _ _ hk) a ha)
    · rintro (⟨a, ha, hak⟩ | ⟨-, a, ha, hak⟩)
      · exact ⟨a, Multiset.mem_add.mpr (Or.inl ha), hak⟩
      · exact ⟨a, Multiset.mem_add.mpr (Or.inr ha), hak⟩

variable [DecidableEq κ]

theorem Represents.cons (h : Represents key val m M) {a : α} (ha : M (key a) = none) :
    Represents key val (a ::ₘ m) (Function.update M (key a) (some (val a))) := by
  refine ⟨?_, fun k v => ?_⟩
  · rw [Multiset.map_cons, Multiset.nodup_cons]
    refine ⟨fun hmem => ?_, h.1⟩
    obtain ⟨b, hb, hba⟩ := Multiset.mem_map.mp hmem
    exact h.not_mem ha b hb hba
  · by_cases hk : k = key a
    · subst hk
      rw [Function.update_self]
      constructor
      · rintro ⟨b, hb, hbk, rfl⟩
        rcases Multiset.mem_cons.mp hb with rfl | hb
        · rfl
        · exact absurd hbk (h.not_mem ha b hb)
      · intro hv
        exact ⟨a, Multiset.mem_cons_self a m, rfl, Option.some.inj hv⟩
    · rw [Function.update_of_ne hk, ← h.2 k v]
      constructor
      · rintro ⟨b, hb, hbk, hbv⟩
        rcases Multiset.mem_cons.mp hb with rfl | hb
        · exact absurd hbk.symm hk
        · exact ⟨b, hb, hbk, hbv⟩
      · rintro ⟨b, hb, hbk, hbv⟩
        exact ⟨b, Multiset.mem_cons_of_mem hb, hbk, hbv⟩

theorem Represents.of_cons {a : α} (h : Represents key val (a ::ₘ m) M) :
    Represents key val m (Function.update M (key a) none) := by
  have hnd := h.1
  rw [Multiset.map_cons, Multiset.nodup_cons] at hnd
  refine ⟨hnd.2, fun k v => ?_⟩
  by_cases hk : k = key a
  · subst hk
    rw [Function.update_self]
    constructor
    · rintro ⟨b, hb, hbk, -⟩
      exact absurd (Multiset.mem_map.mpr ⟨b, hb, hbk⟩) hnd.1
    · intro hv
      cases hv
  · rw [Function.update_of_ne hk, ← h.2 k v]
    constructor
    · rintro ⟨b, hb, hbk, hbv⟩
      exact ⟨b, Multiset.mem_cons_of_mem hb, hbk, hbv⟩
    · rintro ⟨b, hb, hbk, hbv⟩
      rcases Multiset.mem_cons.mp hb with rfl | hb
      · exact absurd hbk.symm hk
      · exact ⟨b, hb, hbk, hbv⟩

/-- An item takes the place of another with the same key. -/
theorem Represents.replace {m' : Multiset α} (h : Represents key val m M) {a : α} (ha : a ∈ m)
    (a' : α) (hkey : key a' = key a) (hm : m' + {a} = m + {a'}) :
    Represents key val m' (Function.update M (key a) (some (val a'))) := by
  obtain ⟨rest, rfl⟩ := Multiset.exists_cons_of_mem ha
  obtain rfl : m' = a' ::ₘ rest := by
    apply add_right_cancel (b := {a})
    rw [hm, ← Multiset.singleton_add, ← Multiset.singleton_add]
    abel
  have hfree : Function.update M (key a) none (key a') = none := by rw [hkey, Function.update_self]
  have hrest := h.of_cons.cons hfree
  rwa [hkey, Function.update_idem] at hrest

end Graph

end SgxOram.Lib
