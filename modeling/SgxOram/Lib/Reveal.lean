import Mathlib

/-!
# Positions drawn anew at each access

A table holds the positions of names. An access reveals the position of its name, or a spare draw if the
name has none, and gives the name the position that it has drawn.

* `reveals` : what a list of accesses reveals; `reveals_getElem` : each access reveals the draw of the last
  access before it to the same name;
* `nodup_reveals` : no draw is revealed twice;
* `exists_coupling` : what is revealed does not depend on the names, up to a permutation of the draws;
* `card_draws` : equally many draws reveal each list of positions;
* `exists_coupling_first`, `reveals_spare_iff` : with spare values that are given and not drawn, what is revealed
  depends on which accesses are the first to their names, and on nothing else.
-/

namespace SgxOram.Lib

variable {ι P Q : Type*} [DecidableEq ι]

/-- An access to `name`, which draws the position `next`. -/
structure Redraw (ι P : Type*) where
  name : ι
  next : P
  spare : P

/-- The same access with the draws renamed. -/
def Redraw.map (f : P → Q) (x : Redraw ι P) : Redraw ι Q := ⟨x.name, f x.next, f x.spare⟩

/-- The positions after an access. -/
def Redraw.place (pos : ι → Option P) (x : Redraw ι P) : ι → Option P :=
  Function.update pos x.name (some x.next)

/-- The positions after the accesses `l`. -/
def positions (pos : ι → Option P) (l : List (Redraw ι P)) : ι → Option P := l.foldl Redraw.place pos

/-- The position that an access reveals. -/
def Redraw.reveal (pos : ι → Option P) (x : Redraw ι P) : P := (pos x.name).getD x.spare

/-- The positions that the accesses reveal. -/
def reveals (pos : ι → Option P) : List (Redraw ι P) → List P
  | [] => []
  | x :: l => x.reveal pos :: reveals (x.place pos) l

/-- All draws of the accesses. -/
def drawn (l : List (Redraw ι P)) : List P := l.flatMap fun x => [x.next, x.spare]

theorem length_reveals (pos : ι → Option P) (l : List (Redraw ι P)) : (reveals pos l).length = l.length := by
  induction l generalizing pos with
  | nil => rfl
  | cons x l ih => simp [reveals, ih]

theorem positions_concat (pos : ι → Option P) (l : List (Redraw ι P)) (x : Redraw ι P) :
    positions pos (l ++ [x]) = x.place (positions pos l) := by
  simp [positions]

theorem reveals_append (pos : ι → Option P) (l l' : List (Redraw ι P)) :
    reveals pos (l ++ l') = reveals pos l ++ reveals (positions pos l) l' := by
  induction l generalizing pos with
  | nil => rfl
  | cons x l ih =>
    rw [List.cons_append, reveals, ih, reveals, List.cons_append]
    rfl

theorem reveals_concat (pos : ι → Option P) (l : List (Redraw ι P)) (x : Redraw ι P) :
    reveals pos (l ++ [x]) = reveals pos l ++ [x.reveal (positions pos l)] := by
  rw [reveals_append]
  rfl

/-! ## Which draw is revealed -/

/-- The position of a name is the draw of the last access to it. -/
theorem positions_eq_find (l : List (Redraw ι P)) (a : ι) :
    positions (fun _ => none) l a = (l.reverse.find? fun x => x.name = a).map Redraw.next := by
  induction l using List.reverseRecOn with
  | nil => rfl
  | append_singleton l x ih =>
    rw [positions_concat, List.reverse_append, List.reverse_singleton, List.singleton_append, List.find?_cons]
    by_cases hx : x.name = a
    · subst hx
      simp [Redraw.place]
    · rw [Redraw.place, Function.update_of_ne (Ne.symm hx), ih]
      simp [hx]

theorem reveals_getElem (l : List (Redraw ι P)) {i : Nat} (hi : i < l.length) :
    (reveals (fun _ => none) l)[i]? =
      some (((l.take i).reverse.find? fun x => x.name = l[i].name).elim l[i].spare Redraw.next) := by
  have hsplit : l = l.take i ++ (l[i] :: l.drop (i + 1)) := by
    rw [List.cons_getElem_drop_succ, List.take_append_drop]
  have hlen : (reveals (fun _ => none) (l.take i)).length = i := by
    rw [length_reveals, List.length_take]
    omega
  have hone : reveals (fun _ => none) l = reveals (fun _ => none) (l.take i) ++
      l[i].reveal (positions (fun _ => none) (l.take i)) ::
        reveals (l[i].place (positions (fun _ => none) (l.take i))) (l.drop (i + 1)) := by
    conv_lhs => rw [hsplit]
    rw [reveals_append]
    rfl
  rw [hone, List.getElem?_append_right hlen.le, hlen, Nat.sub_self, List.getElem?_cons_zero, Redraw.reveal,
    positions_eq_find]
  cases (l.take i).reverse.find? fun x => x.name = l[i].name <;> rfl

/-! ## No draw twice -/

theorem mem_reveals {pos : ι → Option P} {l : List (Redraw ι P)} {p : P} (h : p ∈ reveals pos l) :
    (∃ a, pos a = some p) ∨ p ∈ drawn l := by
  induction l generalizing pos with
  | nil => exact absurd h List.not_mem_nil
  | cons x l ih =>
    rcases List.mem_cons.mp h with rfl | h
    · cases hx : pos x.name with
      | none => exact Or.inr (by simp [drawn, Redraw.reveal, hx])
      | some q => exact Or.inl ⟨x.name, by simp [Redraw.reveal, hx]⟩
    · rcases ih h with ⟨a, ha⟩ | hmem
      · by_cases hax : a = x.name
        · subst hax
          rw [Redraw.place, Function.update_self] at ha
          exact Or.inr (by simp [drawn, ← Option.some.inj ha])
        · rw [Redraw.place, Function.update_of_ne hax] at ha
          exact Or.inl ⟨a, ha⟩
      · exact Or.inr (List.mem_append_right _ hmem)

/-- The positions in the table are apart from each other and from the draws to come. -/
structure Apart (pos : ι → Option P) (l : List (Redraw ι P)) : Prop where
  inj : ∀ a b p, pos a = some p → pos b = some p → a = b
  fresh : ∀ a p, pos a = some p → p ∉ drawn l

theorem Apart.place {pos : ι → Option P} {x : Redraw ι P} {l : List (Redraw ι P)} (h : Apart pos (x :: l))
    (hnd : (drawn (x :: l)).Nodup) : Apart (x.place pos) l := by
  have hnext : x.next ∉ drawn l := fun hmem =>
    (List.nodup_cons.mp hnd).1 (List.mem_cons_of_mem _ hmem)
  have hold : ∀ a, pos a ≠ some x.next := fun a ha => h.fresh a _ ha List.mem_cons_self
  refine ⟨fun a b p ha hb => ?_, fun a p ha hmem => ?_⟩
  · unfold Redraw.place at ha hb
    by_cases hax : a = x.name <;> by_cases hbx : b = x.name
    · exact hax.trans hbx.symm
    · subst hax
      rw [Function.update_self] at ha
      rw [Function.update_of_ne hbx] at hb
      exact absurd (hb.trans ha.symm) (hold b)
    · subst hbx
      rw [Function.update_self] at hb
      rw [Function.update_of_ne hax] at ha
      exact absurd (ha.trans hb.symm) (hold a)
    · rw [Function.update_of_ne hax] at ha
      rw [Function.update_of_ne hbx] at hb
      exact h.inj a b p ha hb
  · unfold Redraw.place at ha
    by_cases hax : a = x.name
    · subst hax
      rw [Function.update_self] at ha
      exact hnext (Option.some.inj ha ▸ hmem)
    · rw [Function.update_of_ne hax] at ha
      exact h.fresh a p ha (List.mem_append_right _ hmem)

theorem Apart.nodup {pos : ι → Option P} {l : List (Redraw ι P)} (h : Apart pos l) (hnd : (drawn l).Nodup) :
    (reveals pos l).Nodup := by
  induction l generalizing pos with
  | nil => exact List.nodup_nil
  | cons x l ih =>
    have hspare := (List.nodup_cons.mp (List.nodup_cons.mp hnd).2).1
    have hne : x.spare ≠ x.next := fun heq => (List.nodup_cons.mp hnd).1 (heq ▸ List.mem_cons_self)
    have hplace := h.place hnd
    refine List.nodup_cons.mpr ⟨fun hmem => ?_, ih hplace (List.nodup_append.mp hnd).2.1⟩
    cases hx : pos x.name with
    | none =>
      -- the spare draw is neither in the table nor among the draws to come
      rw [Redraw.reveal, hx, Option.getD_none] at hmem
      rcases mem_reveals hmem with ⟨a, ha⟩ | hlater
      · unfold Redraw.place at ha
        by_cases hax : a = x.name
        · rw [hax, Function.update_self] at ha
          exact hne (Option.some.inj ha).symm
        · rw [Function.update_of_ne hax] at ha
          exact h.fresh a _ ha (List.mem_cons_of_mem _ List.mem_cons_self)
      · exact hspare hlater
    | some p =>
      rw [Redraw.reveal, hx, Option.getD_some] at hmem
      rcases mem_reveals hmem with ⟨a, ha⟩ | hlater
      · unfold Redraw.place at ha
        by_cases hax : a = x.name
        · rw [hax, Function.update_self] at ha
          exact h.fresh x.name p hx (Option.some.inj ha ▸ List.mem_cons_self)
        · rw [Function.update_of_ne hax] at ha
          exact hax (h.inj a x.name p ha hx)
      · exact h.fresh x.name p hx (List.mem_append_right _ hlater)

/-- From an empty table, if the draws are pairwise different, so is what is revealed. -/
theorem nodup_reveals {l : List (Redraw ι P)} (hnd : (drawn l).Nodup) : (reveals (fun _ => none) l).Nodup :=
  Apart.nodup ⟨by simp, by simp⟩ hnd

/-! ## The draws as a family -/

/-- Renaming the draws renames what is revealed. -/
theorem reveals_map (f : P → Q) (pos : ι → Option P) (l : List (Redraw ι P)) :
    reveals (fun a => (pos a).map f) (l.map (Redraw.map f)) = (reveals pos l).map f := by
  induction l generalizing pos with
  | nil => rfl
  | cons x l ih =>
    have hplace : (x.map f).place (fun a => (pos a).map f) = fun a => (x.place pos a).map f := by
      funext a
      by_cases ha : a = x.name
      · subst ha
        simp [Redraw.place, Redraw.map]
      · simp [Redraw.place, Redraw.map, ha]
    have hhead : (x.map f).reveal (fun a => (pos a).map f) = f (x.reveal pos) := by
      simp only [Redraw.reveal, Redraw.map]
      cases pos x.name <;> rfl
    rw [List.map_cons, reveals, hplace, hhead, ih, reveals, List.map_cons]

variable {n : Nat}

/-- Accesses to `names`; access `i` draws the position `D (.inl i)` and has the spare draw `D (.inr i)`. -/
def accesses (names : Fin n → ι) (D : Fin n ⊕ Fin n → P) : List (Redraw ι P) :=
  List.ofFn fun i => ⟨names i, D (.inl i), D (.inr i)⟩

/-- The draws that are revealed. -/
def slots (names : Fin n → ι) : List (Fin n ⊕ Fin n) := reveals (fun _ => none) (accesses names id)

theorem reveals_accesses (names : Fin n → ι) (D : Fin n ⊕ Fin n → P) :
    reveals (fun _ => none) (accesses names D) = (slots names).map D := by
  rw [slots, ← reveals_map]
  congr 1
  rw [accesses, accesses, List.map_ofFn]
  rfl

theorem length_slots (names : Fin n → ι) : (slots names).length = n := by
  rw [slots, length_reveals, accesses, List.length_ofFn]

theorem nodup_slots (names : Fin n → ι) : (slots names).Nodup := by
  apply nodup_reveals
  rw [drawn, accesses, List.ofFn_eq_map, List.flatMap_map, List.nodup_flatMap]
  refine ⟨fun i _ => by simp, (List.nodup_finRange n).imp fun hij => ?_⟩
  simp [Function.onFun, Ne.symm hij]

/-- Two lists without repetition, of one length, are related by a permutation of the type. -/
theorem exists_perm_map {α : Type*} [Finite α] {l l' : List α} (hl : l.Nodup) (hl' : l'.Nodup)
    (hlen : l.length = l'.length) : ∃ π : Equiv.Perm α, l.map π = l' := by
  classical
  have := Fintype.ofFinite α
  obtain ⟨e, he⟩ : ∃ e : {x // x ∈ l} ≃ {x // x ∈ l'}, ∀ (i : Nat) (hi : i < l.length),
      (e ⟨l[i], List.getElem_mem hi⟩).1 = l'[i] := by
    refine ⟨(hl.getEquiv l).symm.trans ((finCongr hlen).trans (hl'.getEquiv l')), fun i hi => ?_⟩
    have hback : (hl.getEquiv l).symm ⟨l[i], List.getElem_mem hi⟩ = ⟨i, hi⟩ := by
      rw [Equiv.symm_apply_eq]
      rfl
    rw [Equiv.trans_apply, hback]
    rfl
  refine ⟨e.extendSubtype, List.ext_getElem (by simpa using hlen) fun i hi hi' => ?_⟩
  have hil : i < l.length := by simpa using hi
  rw [List.getElem_map, Equiv.extendSubtype_apply_of_mem _ _ (List.getElem_mem hil)]
  exact he i hil

/-- Two lists of names reveal the same positions after a permutation of the draws. -/
theorem exists_coupling (names names' : Fin n → ι) : ∃ π : Equiv.Perm (Fin n ⊕ Fin n),
    ∀ D : Fin n ⊕ Fin n → P, reveals (fun _ => none) (accesses names' (D ∘ π)) =
      reveals (fun _ => none) (accesses names D) := by
  obtain ⟨π, hπ⟩ := exists_perm_map (nodup_slots names') (nodup_slots names)
    ((length_slots names').trans (length_slots names).symm)
  refine ⟨π, fun D => ?_⟩
  rw [reveals_accesses, reveals_accesses, ← hπ, List.map_map]

/-- The families with prescribed values along a list without repetition. -/
theorem card_map_eq {α : Type*} [Fintype α] {l : List α} (hl : l.Nodup) {v : List P}
    (hlen : v.length = l.length) :
    Nat.card {D : α → P // l.map D = v} = Nat.card P ^ (Fintype.card α - l.length) := by
  classical
  have hval : ∀ a : {a // a ∈ l}, l.idxOf a.1 < v.length := fun a => by
    rw [hlen]
    exact List.idxOf_lt_length_of_mem a.2
  have hiff : ∀ D : α → P, l.map D = v ↔ D ∘ Subtype.val = fun a : {a // a ∈ l} => v.get ⟨l.idxOf a.1, hval a⟩ := by
    intro D
    constructor
    · rintro rfl
      funext a
      simp
    · intro h
      refine List.ext_getElem (by simp [hlen]) fun i hi hi' => ?_
      have hil : i < l.length := by simpa using hi
      have hi := congrFun h ⟨l[i], List.getElem_mem hil⟩
      simpa [hl.idxOf_getElem] using hi
  have hcard : Nat.card {a // a ∉ l} = Fintype.card α - l.length := by
    rw [Nat.card_eq_fintype_card, Fintype.card_subtype_compl, Fintype.card_subtype, ← List.toFinset_card_of_nodup hl]
    congr 2
    ext a
    simp
  rw [Nat.card_congr (Equiv.subtypeEquivRight hiff), Nat.card_congr (Equiv.subtypePreimage _ _), Nat.card_fun,
    hcard]

/-- Equally many families of draws reveal each list of positions. -/
theorem card_draws (names : Fin n → ι) {v : List P} (hv : v.length = n) :
    Nat.card {D : Fin n ⊕ Fin n → P // reveals (fun _ => none) (accesses names D) = v} = Nat.card P ^ n := by
  have hlen : v.length = (slots names).length := hv.trans (length_slots names).symm
  have hcard : Fintype.card (Fin n ⊕ Fin n) - (slots names).length = n := by
    rw [length_slots, Fintype.card_sum, Fintype.card_fin, Nat.add_sub_cancel]
  rw [Nat.card_congr (Equiv.subtypeEquivRight fun D => by rw [reveals_accesses]),
    card_map_eq (nodup_slots names) hlen, hcard]

/-! ## Given spare values -/

/-- Access `i` is the first one to its name. -/
def FirstAt (names : Fin n → ι) (i : Fin n) : Prop := ∀ j < i, names j ≠ names i

/-- A first access reveals its spare draw, another access a draw for a position. -/
theorem slots_getElem (names : Fin n → ι) (i : Fin n) :
    (FirstAt names i ∧ (slots names)[i.1]? = some (.inr i)) ∨
      ¬ FirstAt names i ∧ ∃ j, (slots names)[i.1]? = some (.inl j) := by
  have hget : ∀ j : Fin n, (accesses names (id : Fin n ⊕ Fin n → Fin n ⊕ Fin n))[j.1]? =
      some ⟨names j, .inl j, .inr j⟩ := fun j => by
    rw [accesses, List.getElem?_ofFn, dif_pos j.2]
    rfl
  unfold slots
  generalize accesses names (id : Fin n ⊕ Fin n → Fin n ⊕ Fin n) = l at hget
  obtain ⟨hi, hat⟩ := List.getElem?_eq_some_iff.mp (hget i)
  have hreveal := reveals_getElem l hi
  rw [hat] at hreveal
  have hmem : ∀ x ∈ l.take i.1, ∃ j < i, x = ⟨names j, .inl j, .inr j⟩ := by
    intro x hx
    obtain ⟨k, hk, rfl⟩ := List.mem_take_iff_getElem.mp hx
    obtain ⟨hki, hkl⟩ := lt_min_iff.mp hk
    have hat := (List.getElem?_eq_getElem hkl).symm.trans (hget ⟨k, hki.trans i.2⟩)
    exact ⟨⟨k, hki.trans i.2⟩, hki, Option.some.inj hat⟩
  cases hlast : (l.take i.1).reverse.find? fun x => x.name = names i with
  | none =>
    rw [hlast] at hreveal
    refine Or.inl ⟨fun j hj heq => ?_, hreveal⟩
    have hj' : (⟨names j, .inl j, .inr j⟩ : Redraw ι (Fin n ⊕ Fin n)) ∈ (l.take i.1).reverse :=
      List.mem_reverse.mpr (List.mem_of_getElem? ((List.getElem?_take_of_lt hj).trans (hget j)))
    exact List.find?_eq_none.mp hlast _ hj' (decide_eq_true heq)
  | some x =>
    rw [hlast] at hreveal
    obtain ⟨j, hj, rfl⟩ := hmem x (List.mem_reverse.mp (List.mem_of_find?_eq_some hlast))
    refine Or.inr ⟨fun hfirst => ?_, j, hreveal⟩
    have hname := List.find?_some hlast
    exact hfirst j hj (of_decide_eq_true hname)

section Lefts
variable {α β : Type*} {l l' : List (α ⊕ β)}

theorem length_lefts (h : List.Forall₂ (fun x y => x.getRight? = y.getRight?) l l') :
    (l.filterMap Sum.getLeft?).length = (l'.filterMap Sum.getLeft?).length := by
  induction h with
  | nil => rfl
  | @cons x y l l' hxy _ ih => cases x <;> cases y <;> simp_all [List.filterMap_cons]

theorem map_of_lefts {π : α → α} (h : List.Forall₂ (fun x y => x.getRight? = y.getRight?) l l')
    (hπ : (l.filterMap Sum.getLeft?).map π = l'.filterMap Sum.getLeft?) : l.map (Sum.map π id) = l' := by
  induction h with
  | nil => rfl
  | @cons x y l l' hxy _ ih => cases x <;> cases y <;> simp_all [List.filterMap_cons]

theorem nodup_lefts (hl : l.Nodup) : (l.filterMap Sum.getLeft?).Nodup := by
  refine hl.filterMap fun x y a hx hy => ?_
  rw [Option.mem_def, Sum.getLeft?_eq_some_iff] at hx hy
  rw [hx, hy]

/-- Two lists without repetition with the same right entries at the same places are related by a permutation of the
left type. -/
theorem exists_perm_lefts [Finite α] (hl : l.Nodup) (hl' : l'.Nodup)
    (h : List.Forall₂ (fun x y => x.getRight? = y.getRight?) l l') :
    ∃ π : Equiv.Perm α, l.map (Sum.map π id) = l' := by
  obtain ⟨π, hπ⟩ := exists_perm_map (nodup_lefts hl) (nodup_lefts hl') (length_lefts h)
  exact ⟨π, map_of_lefts h hπ⟩

end Lefts

theorem slots_sameRights {names names' : Fin n → ι} (h : ∀ i, FirstAt names i ↔ FirstAt names' i) :
    List.Forall₂ (fun x y => x.getRight? = y.getRight?) (slots names') (slots names) := by
  refine List.forall₂_iff_get.mpr ⟨(length_slots names').trans (length_slots names).symm, fun i hi hi' => ?_⟩
  rw [length_slots] at hi
  rw [List.get_eq_getElem, List.get_eq_getElem]
  have hget := List.getElem?_eq_getElem hi'
  have hget' := List.getElem?_eq_getElem (l := slots names') (i := i) (by rwa [length_slots])
  rcases slots_getElem names ⟨i, hi⟩ with ⟨hfirst, hat⟩ | ⟨hfirst, j, hat⟩ <;>
    rcases slots_getElem names' ⟨i, hi⟩ with ⟨hfirst', hat'⟩ | ⟨hfirst', j', hat'⟩
  · rw [Option.some.inj (hget.symm.trans hat), Option.some.inj (hget'.symm.trans hat')]
  · exact absurd ((h ⟨i, hi⟩).mp hfirst) hfirst'
  · exact absurd ((h ⟨i, hi⟩).mpr hfirst') hfirst
  · rw [Option.some.inj (hget.symm.trans hat), Option.some.inj (hget'.symm.trans hat')]
    rfl

/-- Two lists of names with their first accesses at the same places reveal the same after a permutation of the
draws. -/
theorem exists_coupling_first {names names' : Fin n → ι} (h : ∀ i, FirstAt names i ↔ FirstAt names' i) :
    ∃ π : Equiv.Perm (Fin n), ∀ next spare : Fin n → P,
      reveals (fun _ => none) (accesses names' (Sum.elim (next ∘ π) spare)) =
        reveals (fun _ => none) (accesses names (Sum.elim next spare)) := by
  obtain ⟨π, hπ⟩ := exists_perm_lefts (nodup_slots names') (nodup_slots names) (slots_sameRights h)
  refine ⟨π, fun next spare => ?_⟩
  rw [reveals_accesses, reveals_accesses, ← hπ, List.map_map, Sum.elim_comp_map, Function.comp_id]

/-- A spare value that no draw takes shows where the first accesses are. -/
theorem reveals_spare_iff (names : Fin n → ι) {next spare : Fin n → P} {i : Fin n} (hne : ∀ j, next j ≠ spare i) :
    (reveals (fun _ => none) (accesses names (Sum.elim next spare)))[i.1]? = some (spare i) ↔ FirstAt names i := by
  rw [reveals_accesses, List.getElem?_map]
  rcases slots_getElem names i with ⟨hfirst, hat⟩ | ⟨hfirst, j, hat⟩
  · exact iff_of_true (by rw [hat]; rfl) hfirst
  · rw [hat]
    exact iff_of_false (fun heq => hne j (Option.some.inj heq)) hfirst

end SgxOram.Lib
