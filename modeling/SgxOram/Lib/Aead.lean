import Mathlib

/-!
# Authenticated encryption

`Aead α γ` : an authenticated cipher from plaintexts `α` to ciphertexts `γ`. The initialization
vectors come from a random source; `encrypt n` is encryption under its `n`-th draw. Decryption
gives a status, `true` for success, and the content of its output buffer, which on a failed
authentication is arbitrary.

* `Aead.Correct` : decryption undoes encryption; `Aead.Accepts`, `Aead.Rejects` : the status;
* `Aead.pairing` : the identity cipher that only tags its ciphertexts, an instance for tests.
-/

namespace SgxOram.Lib

structure Aead (α γ : Type*) where
  encrypt : Nat → α → γ
  decrypt : γ → Bool × α

variable {α γ : Type*}

/-- Decryption undoes encryption. -/
def Aead.Correct (K : Aead α γ) : Prop := ∀ n a, K.decrypt (K.encrypt n a) = (true, a)

/-- A ciphertext that fails authentication. -/
def Aead.Rejects (K : Aead α γ) (c : γ) : Prop := (K.decrypt c).1 = false

def Aead.Accepts (K : Aead α γ) (c : γ) : Prop := (K.decrypt c).1 = true

theorem Aead.Correct.accepts {K : Aead α γ} (hK : K.Correct) (n : Nat) (a : α) : K.Accepts (K.encrypt n a) := by
  rw [Aead.Accepts, hK]

theorem Aead.Rejects.not_accepts {K : Aead α γ} {c : γ} (h : K.Rejects c) : ¬ K.Accepts c := fun ha =>
  Bool.false_ne_true (h.symm.trans ha)

/-- The cipher whose ciphertexts are plaintexts with a valid tag; a buffer without one fails
authentication and leaves `garbage`. -/
def Aead.pairing (garbage : α) : Aead α (Option α) where
  encrypt _ a := some a
  decrypt
    | some a => (true, a)
    | none => (false, garbage)

theorem Aead.pairing_correct (garbage : α) : (Aead.pairing garbage).Correct := fun _ _ => rfl

end SgxOram.Lib
