import Mathlib

/-!
# Placing items on a chain of bounded nodes

The items of a bag are to be stored in nodes `0 .. height - 1` that hold `capacity` items each.
`ok l a` says that item `a` may be stored in node `l`; an item that may go to a node may go to every
node above it.

* `Placement` : a legal placement of some of the items;
* `Greedy` : a placement that leaves a node with room only if nothing above it, placed or not, could
  have gone there;
* `Greedy.optimal` : no placement stores more items in the nodes from `h` on, for any `h`.
-/

namespace SgxOram.Lib
open Finset

variable {α : Type*}

/-- The bags `f l` are a legal placement of items of `m` into the nodes `l < height`. -/
structure Placement (ok : Nat → α → Prop) (capacity height : Nat) (m : Multiset α) (f : Nat → Multiset α) :
    Prop where
  le : ∑ l ∈ range height, f l ≤ m
  card_le : ∀ l < height, (f l).card ≤ capacity
  ok : ∀ l < height, ∀ a ∈ f l, ok l a

/-- The placement `f` with the items of `rest` not stored. -/
structure Greedy (ok : Nat → α → Prop) (capacity height : Nat) (m rest : Multiset α) (f : Nat → Multiset α) :
    Prop where
  all : rest + ∑ l ∈ range height, f l = m
  full : ∀ h < height, ∀ a, (a ∈ rest ∨ ∃ g < h, a ∈ f g) → ok h a → (f h).card = capacity

section Optimal
variable {ok : Nat → α → Prop} {capacity height : Nat} {m rest : Multiset α} {f f' : Nat → Multiset α}

/-- The items placed from node `h` on could all go to node `h`. -/
theorem Placement.deep_le_filter (hok : ∀ g h a, g ≤ h → ok h a → ok g a) (hp : Placement ok capacity height m f)
    (h : Nat) [DecidablePred (ok h)] : ∑ l ∈ Ico h height, f l ≤ m.filter (ok h) := by
  have hdeep : ∀ a ∈ ∑ l ∈ Ico h height, f l, ok h a := by
    intro a ha
    obtain ⟨l, hl, hal⟩ := Multiset.mem_sum.mp ha
    obtain ⟨hhl, hlt⟩ := mem_Ico.mp hl
    exact hok h l a hhl (hp.ok l hlt a hal)
  have hsub : ∑ l ∈ Ico h height, f l ≤ m := by
    apply le_trans _ hp.le
    exact sum_le_sum_of_subset fun l hl => mem_range.mpr (mem_Ico.mp hl).2
  rw [← Multiset.filter_eq_self.mpr hdeep]
  exact Multiset.filter_le_filter (ok h) hsub

/-- A greedy placement with room in node `h` has stored all that could go there in `h` or below. -/
theorem Greedy.filter_le_deep (hg : Greedy ok capacity height m rest f) {h : Nat} (hlt : h < height)
    (hroom : (f h).card ≠ capacity) [DecidablePred (ok h)] : m.filter (ok h) ≤ ∑ l ∈ Ico h height, f l := by
  have hsplit : m = (rest + ∑ l ∈ range h, f l) + ∑ l ∈ Ico h height, f l := by
    rw [← hg.all, add_assoc, sum_range_add_sum_Ico f hlt.le]
  have habove : (rest + ∑ l ∈ range h, f l).filter (ok h) = 0 := by
    apply Multiset.filter_eq_nil.mpr
    intro a ha hoka
    apply hroom
    apply hg.full h hlt a _ hoka
    rcases Multiset.mem_add.mp ha with ha | ha
    · exact Or.inl ha
    · obtain ⟨g, hg', hag⟩ := Multiset.mem_sum.mp ha
      exact Or.inr ⟨g, mem_range.mp hg', hag⟩
  rw [hsplit, Multiset.filter_add, habove, zero_add]
  exact Multiset.filter_le (ok h) _

/-- No placement stores more items in the nodes from `h` on. -/
theorem Greedy.optimal (hok : ∀ g h a, g ≤ h → ok h a → ok g a) (hg : Greedy ok capacity height m rest f)
    (hp : Placement ok capacity height m f') {h : Nat} (hh : h ≤ height) :
    ∑ l ∈ Ico h height, (f' l).card ≤ ∑ l ∈ Ico h height, (f l).card := by
  classical
  induction hh using Nat.decreasingInduction with
  | self => simp
  | of_succ h hlt ih =>
    by_cases hfull : (f h).card = capacity
    · rw [sum_eq_sum_Ico_succ_bot hlt, sum_eq_sum_Ico_succ_bot hlt, hfull]
      exact Nat.add_le_add (hp.card_le h hlt) ih
    · have hle := (hp.deep_le_filter hok h).trans (hg.filter_le_deep hlt hfull)
      simpa using Multiset.card_le_card hle

/-- No placement leaves fewer items out. -/
theorem Greedy.rest_minimal (hok : ∀ g h a, g ≤ h → ok h a → ok g a) (hg : Greedy ok capacity height m rest f)
    (hp : Placement ok capacity height m f') : rest.card + ∑ l ∈ range height, (f' l).card ≤ m.card := by
  have hopt := hg.optimal hok hp (Nat.zero_le height)
  rw [← range_eq_Ico] at hopt
  rw [← hg.all, Multiset.card_add, Multiset.card_sum]
  omega

end Optimal

end SgxOram.Lib
