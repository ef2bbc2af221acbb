import Mathlib

/-!
# Fields of equal width in a word

The fields of `b` bits of a word are its digits in base `2 ^ b`, the low one first: `Nat.ofDigits (2 ^ b)` packs
a list of them, `unpack b k` takes the first `k` out again.

* `unpack_ofDigits` : packed fields come out again, and zeros after them; `ofDigits_unpack` : the other way;
* `unpack_eq_map` : field `i` is a shift by `b * i` and a mask;
* `shiftLeft_or` : a field is set by a shift and an `or` into clear bits.
-/

namespace SgxOram.Lib

variable {b : Nat}

def unpack (b : Nat) : Nat → Nat → List Nat
  | 0, _ => []
  | k + 1, w => w % 2 ^ b :: unpack b k (w / 2 ^ b)

@[simp] theorem length_unpack (b k w : Nat) : (unpack b k w).length = k := by
  induction k generalizing w with
  | zero => rfl
  | succ k ih => rw [unpack, List.length_cons, ih]

theorem unpack_zero (b k : Nat) : unpack b k 0 = List.replicate k 0 := by
  induction k with
  | zero => rfl
  | succ k ih => rw [unpack, Nat.zero_mod, Nat.zero_div, ih, List.replicate_succ]

/-- Packed fields come out again, and zeros after them. -/
theorem unpack_ofDigits {xs : List Nat} (hxs : ∀ x ∈ xs, x < 2 ^ b) {k : Nat} (hk : xs.length ≤ k) :
    unpack b k (Nat.ofDigits (2 ^ b) xs) = xs ++ List.replicate (k - xs.length) 0 := by
  induction xs generalizing k with
  | nil => simp [unpack_zero]
  | cons x xs ih =>
    obtain ⟨k, rfl⟩ : ∃ k', k = k' + 1 := ⟨k - 1, by simp at hk; omega⟩
    rw [List.forall_mem_cons] at hxs
    obtain ⟨hx, hxs⟩ := hxs
    simp only [List.length_cons, Nat.add_le_add_iff_right] at hk
    have hdiv : (x + 2 ^ b * Nat.ofDigits (2 ^ b) xs) / 2 ^ b = Nat.ofDigits (2 ^ b) xs := by
      rw [Nat.add_mul_div_left _ _ (Nat.two_pow_pos b), Nat.div_eq_of_lt hx, Nat.zero_add]
    rw [Nat.ofDigits_cons, unpack, hdiv, Nat.add_mul_mod_self_left, Nat.mod_eq_of_lt hx, ih hxs hk,
      List.length_cons, Nat.add_sub_add_right, List.cons_append]

/-- The fields taken out, packed again. -/
theorem ofDigits_unpack (b k w : Nat) : Nat.ofDigits (2 ^ b) (unpack b k w) = w % 2 ^ (b * k) := by
  induction k generalizing w with
  | zero => simp [unpack, Nat.mod_one]
  | succ k ih => rw [unpack, Nat.ofDigits_cons, ih, Nat.mul_succ, Nat.add_comm (b * k), pow_add, Nat.mod_mul]

theorem unpack_eq_map (b k w : Nat) : unpack b k w = (List.range k).map fun i => w / 2 ^ (b * i) % 2 ^ b := by
  induction k generalizing w with
  | zero => rfl
  | succ k ih =>
    rw [unpack, ih, List.range_succ_eq_map, List.map_cons, List.map_map, Nat.mul_zero, pow_zero, Nat.div_one]
    refine congrArg _ (List.map_congr_left fun i _ => ?_)
    rw [Function.comp_apply, Nat.div_div_eq_div_mul, ← pow_add, Nat.succ_eq_add_one, Nat.mul_succ, Nat.add_comm b]

theorem lt_of_mem_unpack {k w x : Nat} (hx : x ∈ unpack b k w) : x < 2 ^ b := by
  rw [unpack_eq_map, List.mem_map] at hx
  obtain ⟨i, -, rfl⟩ := hx
  exact Nat.mod_lt _ (Nat.two_pow_pos b)

/-- A value shifted into clear bits. -/
theorem shiftLeft_or {w s : Nat} (hw : w < 2 ^ s) (x : Nat) : w ||| x * 2 ^ s = w + 2 ^ s * x := by
  rw [Nat.or_comm, Nat.mul_comm, ← Nat.two_pow_add_eq_or_of_lt hw, Nat.add_comm]

end SgxOram.Lib
