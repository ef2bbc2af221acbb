import Mathlib

/-!
# Loops as folds

Rules for `for` loops translated to folds over a list of indices:

* `foldl_idle`, `foldl_single`, `foldl_only` : loops in which no step, or exactly one step, changes the
  state;
* `exists_first` : the split of a list at its first hit; `exists_least` : the least number with a property;
* `foldl_inv`, `foldlM_inv` : invariants that speak about the indices already done, for total
  loops and for loops that may abort (`Option`);
* `foldl_rel`, `foldlM_rel` : two loops over the same indices whose states stay related; related
  loops that may abort do so together;
* `foldl_writes_off`, `foldl_writes_on` : loops that write one cell for each index;
* `not_mem_of_done`, `range_of_done`, `range_split` : the indices done so far; `prefix_flatMap` : a prefix of a
  concatenation of parts;
* `foldlM_append_eq_some` : an aborting loop cut in two; `foldlM_completes` : a loop that does not
  abort.
-/

namespace SgxOram.Lib

variable {σ τ ι : Type*}

theorem foldl_idle {f : σ → ι → σ} {s : σ} {l : List ι} (h : ∀ i ∈ l, f s i = s) :
    l.foldl f s = s := by
  induction l with
  | nil => rfl
  | cons i l ih =>
    rw [List.foldl_cons, h i List.mem_cons_self]
    exact ih fun j hj => h j (List.mem_cons_of_mem i hj)

/-- A loop in which only one step acts. -/
theorem foldl_single {f : σ → ι → σ} {s t : σ} {l₁ l₂ : List ι} {i : ι}
    (h₁ : ∀ j ∈ l₁, f s j = s) (hi : f s i = t) (h₂ : ∀ j ∈ l₂, f t j = t) :
    (l₁ ++ i :: l₂).foldl f s = t := by
  rw [List.foldl_append, foldl_idle h₁, List.foldl_cons, hi, foldl_idle h₂]

/-- A loop in which only the index `i` acts. -/
theorem foldl_only {f : σ → ι → σ} {l : List ι} (hl : l.Nodup) {i : ι} (hi : i ∈ l)
    (h : ∀ s j, j ≠ i → f s j = s) (s : σ) : l.foldl f s = f s i := by
  obtain ⟨l₁, l₂, rfl⟩ := List.append_of_mem hi
  rw [List.nodup_append, List.nodup_cons] at hl
  refine foldl_single (fun j hj => h s j ?_) rfl fun j hj => h _ j ?_
  · exact hl.2.2 j hj i List.mem_cons_self
  · rintro rfl
    exact hl.2.1.1 hj

theorem exists_first (p : ι → Prop) (l : List ι) :
    (∀ i ∈ l, ¬ p i) ∨ ∃ l₁ i l₂, l = l₁ ++ i :: l₂ ∧ p i ∧ ∀ j ∈ l₁, ¬ p j := by
  induction l with
  | nil => exact Or.inl fun i hi => absurd hi List.not_mem_nil
  | cons a l ih =>
    by_cases ha : p a
    · exact Or.inr ⟨[], a, l, rfl, ha, fun j hj => absurd hj List.not_mem_nil⟩
    · rcases ih with h | ⟨l₁, i, l₂, rfl, hi, h₁⟩
      · refine Or.inl fun i hi => ?_
        rcases List.mem_cons.mp hi with rfl | hi
        · exact ha
        · exact h i hi
      · refine Or.inr ⟨a :: l₁, i, l₂, rfl, hi, fun j hj => ?_⟩
        rcases List.mem_cons.mp hj with rfl | hj
        · exact ha
        · exact h₁ j hj

theorem exists_least {p : Nat → Prop} {x : Nat} (hx : p x) : ∃ r ≤ x, p r ∧ ∀ y < r, ¬ p y := by
  classical
  have hex : ∃ r, p r := ⟨x, hx⟩
  exact ⟨Nat.find hex, Nat.find_min' hex hx, Nat.find_spec hex, fun y hy => Nat.find_min hex hy⟩

/-- The first index of a `Fin`-indexed loop that satisfies `p`. -/
theorem exists_first_fin {n : Nat} (p : Fin n → Prop) :
    (∀ i, ¬ p i) ∨ ∃ l₁ i l₂, List.finRange n = l₁ ++ i :: l₂ ∧ p i ∧
      (∀ j ∈ l₁, ¬ p j) ∧ ∀ j < i, ¬ p j := by
  rcases exists_first p (List.finRange n) with h | ⟨l₁, i, l₂, hl, hi, h₁⟩
  · exact Or.inl fun i => h i (List.mem_finRange i)
  · refine Or.inr ⟨l₁, i, l₂, hl, hi, h₁, fun j hj => h₁ j ?_⟩
    have hmem : j ∈ l₁ ++ i :: l₂ := hl ▸ List.mem_finRange j
    have hsorted : (l₁ ++ i :: l₂).Pairwise (· < ·) := hl ▸ List.pairwise_lt_finRange n
    rw [List.pairwise_append, List.pairwise_cons] at hsorted
    rcases List.mem_append.mp hmem with hmem | hmem
    · exact hmem
    · rcases List.mem_cons.mp hmem with rfl | hmem
      · exact absurd hj (lt_irrefl j)
      · exact absurd (hsorted.2.1.1 j hmem) (lt_asymm hj)

/-- An invariant of a loop, indexed by the steps already done. -/
theorem foldl_inv {f : σ → ι → σ} {P : List ι → σ → Prop} :
    ∀ (l : List ι) (s : σ), P [] s →
      (∀ done i s, done ++ [i] <+: l → P done s → P (done ++ [i]) (f s i)) →
      P l (l.foldl f s) := by
  intro l
  induction l using List.reverseRecOn with
  | nil => exact fun s h0 _ => h0
  | append_singleton l i ih =>
    intro s h0 hstep
    rw [List.foldl_append, List.foldl_cons, List.foldl_nil]
    refine hstep l i _ (List.prefix_refl _) (ih s h0 fun done j t hd ht => ?_)
    exact hstep done j t (hd.trans (List.prefix_append l [i])) ht

/-- A loop that may abort completes only through its parts. -/
theorem foldlM_append_eq_some {f : σ → ι → Option σ} {l₁ l₂ : List ι} {s t : σ} :
    (l₁ ++ l₂).foldlM f s = some t ↔
      ∃ r, l₁.foldlM f s = some r ∧ l₂.foldlM f r = some t := by
  rw [List.foldlM_append, Option.bind_eq_bind, Option.bind_eq_some_iff]

theorem foldlM_flatMap {α : Type*} {g : σ → ι → Option σ} (f : α → List ι) (l : List α) (s : σ) :
    (l.flatMap f).foldlM g s = l.foldlM (fun s a => (f a).foldlM g s) s := by
  induction l generalizing s with
  | nil => rfl
  | cons a l ih =>
    rw [List.flatMap_cons, List.foldlM_append, List.foldlM_cons]
    exact bind_congr ih

/-- An invariant of a loop that may abort, indexed by the steps already done. -/
theorem foldlM_inv {f : σ → ι → Option σ} {P : List ι → σ → Prop} :
    ∀ (l : List ι) (s t : σ), P [] s →
      (∀ done i s s', done ++ [i] <+: l → P done s → f s i = some s' → P (done ++ [i]) s') →
      l.foldlM f s = some t → P l t := by
  intro l
  induction l using List.reverseRecOn with
  | nil =>
    intro s t h0 _ hrun
    cases hrun
    exact h0
  | append_singleton l i ih =>
    intro s t h0 hstep hrun
    obtain ⟨r, hr, hi⟩ := foldlM_append_eq_some.mp hrun
    have hi' : f r i = some t := by simpa using hi
    refine hstep l i r t (List.prefix_refl _) (ih s r h0 (fun done j u v hd hu hv => ?_) hr) hi'
    exact hstep done j u v (hd.trans (List.prefix_append l [i])) hu hv

/-- A loop that may abort completes if no step aborts after a completed part. -/
theorem foldlM_completes {f : σ → ι → Option σ} :
    ∀ (l : List ι) (s : σ),
      (∀ done i r, done ++ [i] <+: l → done.foldlM f s = some r → ∃ r', f r i = some r') →
      ∃ t, l.foldlM f s = some t := by
  intro l
  induction l using List.reverseRecOn with
  | nil => exact fun s _ => ⟨s, rfl⟩
  | append_singleton l i ih =>
    intro s hstep
    obtain ⟨r, hr⟩ := ih s fun done j u hd hu => hstep done j u (hd.trans (List.prefix_append l [i])) hu
    obtain ⟨t, ht⟩ := hstep l i r (List.prefix_refl _) hr
    exact ⟨t, foldlM_append_eq_some.mpr ⟨r, hr, by simpa using ht⟩⟩

theorem foldl_rel {f : σ → ι → σ} {g : τ → ι → τ} {R : List ι → σ → τ → Prop} (l : List ι) (s : σ) (t : τ)
    (h₀ : R [] s t) (hstep : ∀ done i s t, done ++ [i] <+: l → R done s t → R (done ++ [i]) (f s i) (g t i)) :
    R l (l.foldl f s) (l.foldl g t) := by
  induction l using List.reverseRecOn with
  | nil => exact h₀
  | append_singleton l i ih =>
    rw [List.foldl_append, List.foldl_append]
    apply hstep l i _ _ (List.prefix_refl _)
    exact ih fun done j s t hd => hstep done j s t (hd.trans (List.prefix_append l [i]))

theorem rel_imp {R R' : σ → τ → Prop} {o : Option σ} {o' : Option τ} (h : Option.Rel R o o')
    (himp : ∀ s t, o = some s → o' = some t → R s t → R' s t) : Option.Rel R' o o' := by
  cases h with
  | some hst => exact Option.Rel.some (himp _ _ rfl rfl hst)
  | none => exact Option.Rel.none

theorem rel_map {σ' τ' : Type*} {R : σ → τ → Prop} {R' : σ' → τ' → Prop} {o : Option σ} {o' : Option τ}
    (h : Option.Rel R o o') {f : σ → σ'} {g : τ → τ'} (hfg : ∀ s t, R s t → R' (f s) (g t)) :
    Option.Rel R' (o.map f) (o'.map g) := by
  cases h with
  | some hst => exact Option.Rel.some (hfg _ _ hst)
  | none => exact Option.Rel.none

theorem rel_bind {σ' τ' : Type*} {R : σ → τ → Prop} {R' : σ' → τ' → Prop} {o : Option σ} {o' : Option τ}
    (h : Option.Rel R o o') {f : σ → Option σ'} {g : τ → Option τ'}
    (hfg : ∀ s t, R s t → Option.Rel R' (f s) (g t)) : Option.Rel R' (o.bind f) (o'.bind g) := by
  cases h with
  | some hst => exact hfg _ _ hst
  | none => exact Option.Rel.none

/-- Two loops that may abort, related step by step, complete or abort together. -/
theorem foldlM_rel {f : σ → ι → Option σ} {g : τ → ι → Option τ} {R : List ι → σ → τ → Prop} (l : List ι)
    (s : σ) (t : τ) (h₀ : R [] s t)
    (hstep : ∀ done i s t, done ++ [i] <+: l → R done s t → Option.Rel (R (done ++ [i])) (f s i) (g t i)) :
    Option.Rel (R l) (l.foldlM f s) (l.foldlM g t) := by
  induction l using List.reverseRecOn with
  | nil => exact Option.Rel.some h₀
  | append_singleton l i ih =>
    rw [List.foldlM_append, List.foldlM_append]
    apply rel_bind (ih fun done j s t hd => hstep done j s t (hd.trans (List.prefix_append l [i])))
    intro u v huv
    simpa using hstep l i u v (List.prefix_refl _) huv

section Writes
variable {α β : Type*} {f : σ → ι → σ} {g : σ → α → β} {d : ι → α}

/-- A loop that writes one cell for each index leaves the other cells alone. -/
theorem foldl_writes_off (hoff : ∀ s i a, a ≠ d i → g (f s i) a = g s a) {l : List ι} (s : σ) {a : α}
    (ha : ∀ i ∈ l, a ≠ d i) : g (l.foldl f s) a = g s a := by
  induction l generalizing s with
  | nil => rfl
  | cons i l ih =>
    rw [List.foldl_cons, ih (f s i) fun j hj => ha j (List.mem_cons_of_mem i hj)]
    exact hoff s i a (ha i List.mem_cons_self)

/-- Each cell holds what its index has written. -/
theorem foldl_writes_on {Q : ι → β → Prop} (hoff : ∀ s i a, a ≠ d i → g (f s i) a = g s a)
    (hon : ∀ s i, Q i (g (f s i) (d i))) (hinj : Function.Injective d) {l : List ι} (hl : l.Nodup) (s : σ) :
    ∀ i ∈ l, Q i (g (l.foldl f s) (d i)) := by
  induction l generalizing s with
  | nil => exact fun i hi => absurd hi List.not_mem_nil
  | cons i l ih =>
    obtain ⟨hi, hl⟩ := List.nodup_cons.mp hl
    intro j hj
    rw [List.foldl_cons]
    rcases List.mem_cons.mp hj with rfl | hj
    · have hne : ∀ k ∈ l, d j ≠ d k := fun k hk heq => hi (hinj heq ▸ hk)
      rw [foldl_writes_off hoff (f s j) hne]
      exact hon s j
    · exact ih hl (f s i) j hj

end Writes

/-- In a list without repetition the next index has not been done. -/
theorem not_mem_of_done {l done : List ι} {i : ι} (hl : l.Nodup) (h : done ++ [i] <+: l) :
    i ∉ done := by
  have hnd := hl.sublist h.sublist
  rw [List.nodup_append] at hnd
  exact fun hi => hnd.2.2 i hi i (List.mem_singleton_self i) rfl

theorem mem_of_step {l done : List ι} {i : ι} (h : done ++ [i] <+: l) : i ∈ l :=
  h.subset (List.mem_append_right done (List.mem_singleton_self i))

/-- What holds of the indices done and of the next one. -/
theorem forall_mem_concat {P : ι → Prop} {done : List ι} {i : ι} (hdone : ∀ j ∈ done, P j) (hi : P i) :
    ∀ j ∈ done ++ [i], P j := by
  intro j hj
  rcases List.mem_append.mp hj with hj | hj
  · exact hdone j hj
  · rwa [List.mem_singleton.mp hj]

/-- The indices done come before the next one. -/
theorem lt_of_done {n : Nat} {done : List (Fin n)} {i : Fin n} (h : done ++ [i] <+: List.finRange n) :
    ∀ j ∈ done, j < i := by
  have hsorted := (List.pairwise_lt_finRange n).sublist h.sublist
  rw [List.pairwise_append] at hsorted
  exact fun j hj => hsorted.2.2 j hj i (List.mem_singleton_self i)

theorem range_split {n i : Nat} (h : i < n) : ∃ l, List.range n = List.range i ++ i :: l := by
  obtain ⟨m, rfl⟩ := Nat.exists_eq_add_of_lt h
  refine ⟨(List.range m).map (i + ·.succ), ?_⟩
  rw [add_assoc, List.range_add, List.range_succ_eq_map, List.map_cons, List.map_map]
  rfl

theorem range_of_done {n i : Nat} {done : List Nat} (h : done ++ [i] <+: List.range n) :
    done = List.range i ∧ i < n := by
  have heq := List.prefix_iff_eq_take.mp h
  have hlen : (done ++ [i]).length ≤ n := by simpa using h.length_le
  rw [List.take_range, Nat.min_eq_left hlen, List.length_append, List.length_singleton,
    List.range_succ] at heq
  obtain ⟨hd, hi⟩ := List.append_inj' heq rfl
  have hi : i = done.length := by simpa using hi
  refine ⟨hi ▸ hd, ?_⟩
  simp at hlen
  omega

theorem range'_of_done {start n i : Nat} {done : List Nat} (h : done ++ [i] <+: List.range' start n) :
    i = start + done.length ∧ done.length < n := by
  have hlen : (done ++ [i]).length ≤ n := by simpa using h.length_le
  rw [List.length_append, List.length_singleton] at hlen
  have hget := h.getElem (i := done.length) (by simp)
  rw [List.getElem_concat_length rfl, List.getElem_range'] at hget
  exact ⟨by omega, hlen⟩

/-- A prefix of a concatenation ends between two parts or inside one. -/
theorem prefix_flatMap {f : σ → List ι} {l : List σ} {es : List ι} (h : es <+: l.flatMap f) :
    es = l.flatMap f ∨ ∃ l₁ a es', l₁ ++ [a] <+: l ∧ es' <+: f a ∧ es = l₁.flatMap f ++ es' := by
  induction l generalizing es with
  | nil => exact Or.inl (List.prefix_nil.mp h)
  | cons a l ih =>
    rw [List.flatMap_cons] at h
    rcases List.prefix_or_prefix_of_prefix h (List.prefix_append (f a) _) with hin | ⟨t, rfl⟩
    · exact Or.inr ⟨[], a, es, ⟨l, rfl⟩, hin, rfl⟩
    · rcases ih ((List.prefix_append_right_inj _).mp h) with rfl | ⟨l₁, b, es', hl, hb, rfl⟩
      · exact Or.inl rfl
      · refine Or.inr ⟨a :: l₁, b, es', ?_, hb, by simp⟩
        exact (List.prefix_cons_inj a).mpr hl

end SgxOram.Lib
