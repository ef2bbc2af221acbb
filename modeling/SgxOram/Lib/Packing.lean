import Mathlib

/-!
# Cells packed into blocks

Cells of `s` bytes are stored `n` to a block: cell `i` at offset `i % n * s` of block `i / n`. The blocks
are the cells of the next level, so that `c` cells need `c ⌈/⌉ n` of them.

* `cell_fits`, `cell_apart` : a cell lies in its block, and two cells share no byte;
* `div_lt_ceilDiv` : the cells below `c` lie in the first `c ⌈/⌉ n` blocks;
* `ceilDiv_lt`, `ceilDiv_le_mul_pow` : a level is smaller than the one before, by a factor of `n` above
  any base.
-/

namespace SgxOram.Lib

variable {n : Nat}

/-! ## Cells -/

theorem mul_add_le_of_lt {a b : Nat} (h : a < b) (s : Nat) : a * s + s ≤ b * s := by
  rw [← Nat.succ_mul]
  exact Nat.mul_le_mul_right s h

theorem cell_fits (hn : 0 < n) (s i : Nat) : i % n * s + s ≤ n * s := mul_add_le_of_lt (Nat.mod_lt i hn) s

theorem mod_ne_of_div_eq {i j : Nat} (hne : i ≠ j) (hdiv : i / n = j / n) : i % n ≠ j % n := by
  intro hmod
  apply hne
  rw [← Nat.div_add_mod i n, ← Nat.div_add_mod j n, hdiv, hmod]

/-- Two cells of one block share no byte. -/
theorem cell_apart {i j : Nat} (hne : i ≠ j) (hdiv : i / n = j / n) (s : Nat) :
    i % n * s + s ≤ j % n * s ∨ j % n * s + s ≤ i % n * s :=
  (Nat.lt_or_gt_of_ne (mod_ne_of_div_eq hne hdiv)).imp (mul_add_le_of_lt · s) (mul_add_le_of_lt · s)

/-! ## Levels -/

theorem div_lt_ceilDiv (hn : 0 < n) {c i : Nat} (hi : i < c) : i / n < c ⌈/⌉ n := by
  rw [Nat.div_lt_iff_lt_mul hn, Nat.mul_comm]
  exact hi.trans_le (le_smul_ceilDiv hn)

theorem ceilDiv_lt (hn : 1 < n) {c : Nat} (hc : 1 < c) : c ⌈/⌉ n < c := by
  have hmul : 2 * (c - 1) ≤ n * (c - 1) := Nat.mul_le_mul_right _ hn
  have hle : c ⌈/⌉ n ≤ c - 1 := (ceilDiv_le_iff_le_mul (by omega)).mpr (by omega)
  omega

/-- `k + 1` levels above `m` cells, one level up. -/
theorem ceilDiv_le_mul_pow (hn : 0 < n) {c m k : Nat} (hc : c ≤ m * n ^ (k + 1)) : c ⌈/⌉ n ≤ m * n ^ k := by
  rw [ceilDiv_le_iff_le_mul hn, Nat.mul_left_comm, ← Nat.pow_succ']
  exact hc

end SgxOram.Lib
