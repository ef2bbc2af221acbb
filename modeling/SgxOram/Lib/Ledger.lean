import Mathlib

/-!
# Heap ledgers

The allocations, uses and frees of a program over named cells.

* `HeapOp`, `HeapOp.step`, `runHeap` : the live cells after a list of operations; `none` as soon as one of them
  uses or frees a cell that is not live;
* `runHeap_alloc`, `runHeap_use`, `runHeap_free` : lists of one kind;
* `runHeap_dead` : a list that touches a dead cell fails.
-/

namespace SgxOram.Lib

inductive HeapOp (χ : Type*)
  | alloc (c : χ)
  | use (c : χ)
  | free (c : χ)

variable {χ : Type*} [DecidableEq χ] {live live' : Finset χ} {l l' : List (HeapOp χ)} {cells : List χ} {c : χ}

/-- The live cells after one operation. An allocator does not hand out a live cell. -/
def HeapOp.step (live : Finset χ) : HeapOp χ → Option (Finset χ)
  | .alloc c => if c ∈ live then none else some (insert c live)
  | .use c => if c ∈ live then some live else none
  | .free c => if c ∈ live then some (live.erase c) else none

def runHeap (live : Finset χ) (l : List (HeapOp χ)) : Option (Finset χ) := l.foldlM HeapOp.step live

theorem runHeap_nil (live : Finset χ) : runHeap live [] = some live := rfl

theorem runHeap_cons (live : Finset χ) (x : HeapOp χ) (l : List (HeapOp χ)) :
    runHeap live (x :: l) = (x.step live).bind fun m => runHeap m l := rfl

theorem runHeap_append (live : Finset χ) (l l' : List (HeapOp χ)) :
    runHeap live (l ++ l') = (runHeap live l).bind fun m => runHeap m l' := by
  rw [runHeap, List.foldlM_append]
  rfl

theorem runHeap_append_of (h : runHeap live l = some live') : runHeap live (l ++ l') = runHeap live' l' := by
  rw [runHeap_append, h, Option.bind_some]

theorem runHeap_alloc (hnd : cells.Nodup) (hnew : ∀ c ∈ cells, c ∉ live) :
    runHeap live (cells.map .alloc) = some (live ∪ cells.toFinset) := by
  induction cells generalizing live with
  | nil => simp [runHeap_nil]
  | cons c cells ih =>
    obtain ⟨hc, hnd⟩ := List.nodup_cons.mp hnd
    rw [List.map_cons, runHeap_cons, HeapOp.step, if_neg (hnew c List.mem_cons_self), Option.bind_some, ih hnd]
    · rw [List.toFinset_cons, Finset.insert_union, Finset.union_insert]
    · intro x hx hmem
      rcases Finset.mem_insert.mp hmem with rfl | hmem
      · exact hc hx
      · exact hnew x (List.mem_cons_of_mem c hx) hmem

theorem runHeap_use (h : ∀ c ∈ cells, c ∈ live) : runHeap live (cells.map .use) = some live := by
  induction cells with
  | nil => rfl
  | cons c cells ih =>
    rw [List.map_cons, runHeap_cons, HeapOp.step, if_pos (h c List.mem_cons_self), Option.bind_some]
    exact ih fun x hx => h x (List.mem_cons_of_mem c hx)

theorem runHeap_free (hnd : cells.Nodup) (h : ∀ c ∈ cells, c ∈ live) :
    runHeap live (cells.map .free) = some (live \ cells.toFinset) := by
  induction cells generalizing live with
  | nil => simp [runHeap_nil]
  | cons c cells ih =>
    obtain ⟨hc, hnd⟩ := List.nodup_cons.mp hnd
    rw [List.map_cons, runHeap_cons, HeapOp.step, if_pos (h c List.mem_cons_self), Option.bind_some, ih hnd]
    · rw [List.toFinset_cons, Finset.sdiff_insert, Finset.erase_sdiff_comm]
    · intro x hx
      exact Finset.mem_erase.mpr ⟨fun e => hc (e ▸ hx), h x (List.mem_cons_of_mem c hx)⟩

/-- No operation but its allocation brings a cell to life. -/
theorem HeapOp.step_dead {x : HeapOp χ} (hstep : x.step live = some live') (hc : c ∉ live) (hno : x ≠ .alloc c) :
    c ∉ live' := by
  cases x with
  | alloc a =>
    simp only [HeapOp.step, Option.ite_none_left_eq_some, Option.some.injEq] at hstep
    obtain ⟨-, rfl⟩ := hstep
    intro hmem
    rcases Finset.mem_insert.mp hmem with rfl | hmem
    · exact hno rfl
    · exact hc hmem
  | use a =>
    simp only [HeapOp.step, Option.ite_none_right_eq_some, Option.some.injEq] at hstep
    exact hstep.2 ▸ hc
  | free a =>
    simp only [HeapOp.step, Option.ite_none_right_eq_some, Option.some.injEq] at hstep
    rw [← hstep.2]
    exact fun hmem => hc (Finset.mem_of_mem_erase hmem)

/-- A dead cell that is not allocated cannot be touched. -/
theorem runHeap_dead (hc : c ∉ live) (hno : .alloc c ∉ l) (h : .use c ∈ l ∨ .free c ∈ l) :
    runHeap live l = none := by
  induction l generalizing live with
  | nil => simp at h
  | cons x l ih =>
    rw [runHeap_cons]
    cases hstep : x.step live with
    | none => rfl
    | some live' =>
      have hx : x ≠ .use c ∧ x ≠ .free c := by
        constructor <;> rintro rfl <;> simp [HeapOp.step, hc] at hstep
      have hno' := List.ne_and_not_mem_of_not_mem_cons hno
      refine ih (HeapOp.step_dead hstep hc hno'.1.symm) hno'.2 ?_
      exact h.imp (fun h => (List.mem_cons.mp h).resolve_left hx.1.symm)
        fun h => (List.mem_cons.mp h).resolve_left hx.2.symm

end SgxOram.Lib
