import Mathlib

/-!
# Paths in a binary tree stored as an array

The children of node `a` are `2 a + 1` and `2 a + 2`. A path is a number read from its low bit:
bit `h` says which child the path takes below level `h`. `nodeAddr p h` is the node of path `p` at
level `h`.

* `nodeAddr_lt`, `le_nodeAddr` : level `h` occupies the addresses `2^h - 1 .. 2^(h+1) - 2`, so that
  the level of an address is a logarithm (`log2_nodeAddr`);
* `nodeAddr_eq_iff` : two paths meet at a level exactly when their low bits agree there; `level_unique` : and
  at no other level;
* `nodeAddr_congr_of_le` : paths that meet at a level meet at all levels above.
-/

namespace SgxOram.Lib

/-- The node of path `p` at level `h`. -/
def nodeAddr (p : Nat) : Nat → Nat
  | 0 => 0
  | h + 1 => 2 * nodeAddr p h + 1 + p / 2 ^ h % 2

@[simp] theorem nodeAddr_zero (p : Nat) : nodeAddr p 0 = 0 := rfl

theorem nodeAddr_succ (p h : Nat) : nodeAddr p (h + 1) = 2 * nodeAddr p h + 1 + p / 2 ^ h % 2 := rfl

theorem le_nodeAddr (p h : Nat) : 2 ^ h ≤ nodeAddr p h + 1 := by
  induction h with
  | zero => simp
  | succ h ih =>
    rw [nodeAddr_succ, pow_succ]
    omega

theorem nodeAddr_lt (p h : Nat) : nodeAddr p h + 1 < 2 ^ (h + 1) := by
  induction h with
  | zero => simp
  | succ h ih =>
    have hb : p / 2 ^ h % 2 < 2 := Nat.mod_lt _ (by decide)
    rw [nodeAddr_succ, pow_succ]
    omega

/-- A node lies on one level only. -/
theorem level_unique {p q g h : Nat} (heq : nodeAddr p g = nodeAddr q h) : g = h := by
  have hlt : ∀ {a b c d : Nat}, nodeAddr a b = nodeAddr c d → ¬ b < d := by
    intro a b c d he hbd
    have h1 := nodeAddr_lt a b
    have h2 := le_nodeAddr c d
    have h3 : 2 ^ (b + 1) ≤ 2 ^ d := Nat.pow_le_pow_right (by decide) hbd
    omega
  have := hlt heq
  have := hlt heq.symm
  omega

/-- The level of an address. -/
theorem log2_nodeAddr (p h : Nat) : Nat.log2 (nodeAddr p h + 1) = h :=
  (Nat.log2_eq_iff (Nat.succ_ne_zero _)).mpr ⟨le_nodeAddr p h, nodeAddr_lt p h⟩

theorem mod_two_pow_succ (p h : Nat) : p % 2 ^ (h + 1) = p % 2 ^ h + 2 ^ h * (p / 2 ^ h % 2) := by
  rw [pow_succ, Nat.mod_mul]

theorem nodeAddr_eq_iff (p q h : Nat) : nodeAddr p h = nodeAddr q h ↔ p % 2 ^ h = q % 2 ^ h := by
  induction h with
  | zero => simp [Nat.mod_one]
  | succ n ih =>
    rw [nodeAddr_succ, nodeAddr_succ, mod_two_pow_succ, mod_two_pow_succ]
    constructor
    · intro heq
      have hbit : p / 2 ^ n % 2 = q / 2 ^ n % 2 := by omega
      rw [ih.mp (by omega), hbit]
    · intro heq
      have hlow : p % 2 ^ n = q % 2 ^ n := by
        have := congrArg (· % 2 ^ n) heq
        simpa [Nat.add_mul_mod_self_left] using this
      have hbit : p / 2 ^ n % 2 = q / 2 ^ n % 2 :=
        Nat.eq_of_mul_eq_mul_left (Nat.two_pow_pos n) (by omega)
      rw [ih.mpr hlow, hbit]

theorem nodeAddr_congr_of_le {p q g h : Nat} (hgh : g ≤ h) (heq : nodeAddr p h = nodeAddr q h) :
    nodeAddr p g = nodeAddr q g := by
  rw [nodeAddr_eq_iff] at heq ⊢
  have hdvd : 2 ^ g ∣ 2 ^ h := Nat.pow_dvd_pow 2 hgh
  rw [← Nat.mod_mod_of_dvd p hdvd, heq, Nat.mod_mod_of_dvd q hdvd]

theorem nodeAddr_lt_two_pow {p h height : Nat} (hh : h < height) : nodeAddr p h < 2 ^ height := by
  have h1 := nodeAddr_lt p h
  have h2 : 2 ^ (h + 1) ≤ 2 ^ height := Nat.pow_le_pow_right (by decide) hh
  omega

theorem nodeAddr_injective (p : Nat) : Function.Injective (nodeAddr p) :=
  fun _ _ heq => level_unique heq

end SgxOram.Lib
