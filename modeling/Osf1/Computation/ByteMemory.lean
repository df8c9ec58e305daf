import Mathlib

/-!
# A memory of bytes

Numbers are loaded from some bytes and stored there, the least byte first.
-/

set_option autoImplicit false

namespace Osf1.Computation

/-- Bytes by their address. -/
abbrev Bytes := ℕ → BitVec 8

variable {m m' : Bytes} {n k a b i v : ℕ}

/-- The number in `n` bytes. -/
def load (m : Bytes) : ℕ → ℕ → ℕ
  | 0, _ => 0
  | n + 1, a => (m a).toNat + 256 * load m n (a + 1)

/-- A number is stored in `n` bytes. -/
def store (m : Bytes) : ℕ → ℕ → ℕ → Bytes
  | 0, _, _ => m
  | n + 1, a, v => store (Function.update m a (BitVec.ofNat 8 v)) n (a + 1) (v / 256)

/-- A number is loaded from its own bytes only. -/
theorem load_congr (h : ∀ i, a ≤ i → i < a + n → m' i = m i) : load m' n a = load m n a := by
  induction n generalizing a with
  | zero => rfl
  | succ n ih =>
    rw [load, load, h a (Nat.le_refl a) (by omega), ih fun i hlo hhi => h i (by omega) (by omega)]

theorem store_other (hi : i < a ∨ a + n ≤ i) : store m n a v i = m i := by
  induction n generalizing m a v with
  | zero => rfl
  | succ n ih =>
    have hne : i ≠ a := by omega
    rw [store, ih (by omega), Function.update_of_ne hne]

/-- What is stored can be loaded. -/
theorem load_store (m : Bytes) (n a v : ℕ) : load (store m n a v) n a = v % 256 ^ n := by
  induction n generalizing m a v with
  | zero => simp [load, Nat.mod_one]
  | succ n ih =>
    have hfirst : (store (Function.update m a (BitVec.ofNat 8 v)) n (a + 1) (v / 256) a).toNat = v % 256 := by
      rw [store_other (.inl (Nat.lt_succ_self a)), Function.update_self, BitVec.toNat_ofNat]
    rw [load, store, ih, hfirst, Nat.pow_succ, Nat.mul_comm (256 ^ n) 256, Nat.mod_mul]

/-- The 64-bit word at an address. -/
def word (m : Bytes) (a : ℕ) : BitVec 64 := BitVec.ofNat 64 (load m 8 a)

def setWord (m : Bytes) (a : ℕ) (w : BitVec 64) : Bytes := store m 8 a w.toNat

theorem word_setWord (m : Bytes) (a : ℕ) (w : BitVec 64) : word (setWord m a w) a = w := by
  unfold word setWord
  rw [load_store]
  apply BitVec.eq_of_toNat_eq
  rw [BitVec.toNat_ofNat]
  have := w.isLt
  omega

theorem word_congr (h : ∀ i, a ≤ i → i < a + 8 → m' i = m i) : word m' a = word m a := by
  unfold word
  rw [load_congr h]

theorem setWord_other {w : BitVec 64} (hi : i < a ∨ a + 8 ≤ i) : setWord m a w i = m i := store_other hi

end Osf1.Computation
