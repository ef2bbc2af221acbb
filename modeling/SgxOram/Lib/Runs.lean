import SgxOram.Lib.Loop

/-!
# Runs whose steps may stop

Rules for folds in `Except ε`, whose errors say how a run has stopped:

* `Ends P Q` : a run either completes with `P` or stops with `Q`; `foldlM_ends` : an invariant of such a run;
* `EndsAlike R S` : two runs complete together, related by `R`, or stop together, related by `S`;
  `foldlM_endsAlike` : the two runs step by step;
* `foldlM_toOption` : the runs that complete, as a fold in `Option`.
-/

namespace SgxOram.Lib

universe u

variable {σ σ' τ τ' : Type u} {ι ε ε' : Type*}

/-- The result is a value with `P` or an error with `Q`. -/
def Ends (P : σ → Prop) (Q : ε → Prop) : Except ε σ → Prop
  | .ok s => P s
  | .error e => Q e

@[simp] theorem ends_ok {P : σ → Prop} {Q : ε → Prop} {s : σ} : Ends P Q (.ok s) ↔ P s := Iff.rfl

@[simp] theorem ends_error {P : σ → Prop} {Q : ε → Prop} {e : ε} : Ends P Q (.error e) ↔ Q e := Iff.rfl

theorem Ends.imp {P P' : σ → Prop} {Q Q' : ε → Prop} {r : Except ε σ} (h : Ends P Q r) (hP : ∀ s, P s → P' s)
    (hQ : ∀ e, Q e → Q' e) : Ends P' Q' r := by
  cases r with
  | ok s => exact hP s h
  | error e => exact hQ e h

theorem Ends.bind {P : σ → Prop} {P' : τ → Prop} {Q : ε → Prop} {r : Except ε σ} (h : Ends P Q r)
    {f : σ → Except ε τ} (hf : ∀ s, P s → Ends P' Q (f s)) : Ends P' Q (r >>= f) := by
  cases r with
  | ok s => exact hf s h
  | error e => exact h

/-- One more step of a run that has not stopped. -/
theorem foldlM_concat {f : σ → ι → Except ε σ} {l : List ι} {s t : σ} (h : l.foldlM f s = .ok t) (i : ι) :
    (l ++ [i]).foldlM f s = f t i := by
  rw [List.foldlM_append, h]
  exact bind_pure (f t i)

/-- An invariant of a run, indexed by the steps already done. -/
theorem foldlM_ends {f : σ → ι → Except ε σ} {P : List ι → σ → Prop} {Q : ε → Prop} (l : List ι) (s : σ) (h₀ : P [] s)
    (hstep : ∀ done i t, done ++ [i] <+: l → done.foldlM f s = .ok t → P done t → Ends (P (done ++ [i])) Q (f t i)) :
    Ends (P l) Q (l.foldlM f s) := by
  induction l using List.reverseRecOn with
  | nil => exact h₀
  | append_singleton l i ih =>
    have hl := ih fun done j t hd => hstep done j t (hd.trans (List.prefix_append l [i]))
    cases hrun : l.foldlM f s with
    | ok t =>
      rw [hrun] at hl
      rw [foldlM_concat hrun]
      exact hstep l i t (List.prefix_refl _) hrun hl
    | error e =>
      rw [hrun] at hl
      rw [List.foldlM_append, hrun]
      exact hl

/-- Both results are values related by `R`, or both are errors related by `S`. -/
inductive EndsAlike (R : σ → τ → Prop) (S : ε → ε' → Prop) : Except ε σ → Except ε' τ → Prop
  | ok {s : σ} {t : τ} : R s t → EndsAlike R S (.ok s) (.ok t)
  | error {e : ε} {e' : ε'} : S e e' → EndsAlike R S (.error e) (.error e')

theorem EndsAlike.bind {R : σ → τ → Prop} {R' : σ' → τ' → Prop} {S : ε → ε' → Prop} {r : Except ε σ}
    {r' : Except ε' τ} (h : EndsAlike R S r r') {f : σ → Except ε σ'} {g : τ → Except ε' τ'}
    (hfg : ∀ s t, R s t → EndsAlike R' S (f s) (g t)) : EndsAlike R' S (r >>= f) (r' >>= g) := by
  cases h with
  | ok h => exact hfg _ _ h
  | error h => exact .error h

theorem EndsAlike.bind_eq {R : σ → τ → Prop} {r : Except ε σ} {r' : Except ε τ} (h : EndsAlike R Eq r r')
    {f : σ → Except ε σ'} {g : τ → Except ε σ'} (hfg : ∀ s t, R s t → f s = g t) : r >>= f = r' >>= g := by
  cases h with
  | ok h => exact hfg _ _ h
  | error h =>
    rw [h]
    rfl

/-- Two runs over the same indices, related step by step, end alike. -/
theorem foldlM_endsAlike {f : σ → ι → Except ε σ} {g : τ → ι → Except ε' τ} {R : List ι → σ → τ → Prop}
    {S : ε → ε' → Prop} (l : List ι) (s : σ) (t : τ) (h₀ : R [] s t)
    (hstep : ∀ done i s t, done ++ [i] <+: l → R done s t → EndsAlike (R (done ++ [i])) S (f s i) (g t i)) :
    EndsAlike (R l) S (l.foldlM f s) (l.foldlM g t) := by
  induction l using List.reverseRecOn with
  | nil => exact .ok h₀
  | append_singleton l i ih =>
    rw [List.foldlM_append, List.foldlM_append]
    refine (ih fun done j s t hd => hstep done j s t (hd.trans (List.prefix_append l [i]))).bind fun u v huv => ?_
    simpa using hstep l i u v (List.prefix_refl _) huv

@[simp] theorem toOption_ok (s : σ) : (Except.ok s : Except ε σ).toOption = some s := rfl

@[simp] theorem toOption_error (e : ε) : (Except.error e : Except ε σ).toOption = none := rfl

theorem toOption_eq_some {r : Except ε σ} {s : σ} : r.toOption = some s ↔ r = .ok s := by
  cases r <;> simp

/-- The runs that complete. -/
theorem foldlM_toOption (f : σ → ι → Except ε σ) (l : List ι) (s : σ) :
    (l.foldlM f s).toOption = l.foldlM (fun s i => (f s i).toOption) s := by
  induction l generalizing s with
  | nil => rfl
  | cons i l ih =>
    rw [List.foldlM_cons, List.foldlM_cons]
    cases hi : f s i with
    | ok t => exact ih t
    | error e => rfl

end SgxOram.Lib
