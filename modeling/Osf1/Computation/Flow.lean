import Mathlib

/-!
# Serial numbers

The positions of an unbounded sequence are told by numbers of `w` bits, counted from a base. Two numbers are
compared by the sign of their difference.
-/

set_option autoImplicit false

namespace Osf1.Computation.Serial

variable {w : ℕ} {base : BitVec w} {p q : ℕ}

/-- The number of a position. -/
def number (base : BitVec w) (p : ℕ) : BitVec w := base + BitVec.ofNat w p

theorem number_zero (base : BitVec w) : number base 0 = base := by
  simp [number]

theorem number_add (base : BitVec w) (p n : ℕ) : number base p + BitVec.ofNat w n = number base (p + n) := by
  rw [number, number, BitVec.add_assoc, BitVec.ofNat_add]

theorem number_sub (base : BitVec w) (p q : ℕ) : number base p - number base q = BitVec.ofInt w ((p : ℤ) - q) := by
  have hp : BitVec.ofNat w p = BitVec.ofInt w p := (BitVec.ofInt_natCast ..).symm
  have hq : BitVec.ofNat w q = BitVec.ofInt w q := (BitVec.ofInt_natCast ..).symm
  have hsub : BitVec.ofInt w ((p : ℤ) - q) + BitVec.ofInt w q = BitVec.ofInt w p := by
    rw [← BitVec.ofInt_add, Int.sub_add_cancel]
  rw [number, number, hp, hq, ← hsub]
  generalize BitVec.ofInt w ((p : ℤ) - q) = d
  rw [BitVec.add_comm d, ← BitVec.add_assoc, BitVec.add_comm, BitVec.add_sub_cancel]

/-- The signed difference of two numbers is that of the positions if these are less than half of
the number space apart. -/
theorem toInt_number_sub (hlow : q < p + 2 ^ (w - 1)) (hhigh : p < q + 2 ^ (w - 1)) (hw : 0 < w) :
    (number base p - number base q).toInt = (p : ℤ) - q := by
  have hpow : 2 ^ w = 2 * 2 ^ (w - 1) := by
    rw [← Nat.pow_succ', Nat.succ_eq_add_one, Nat.sub_add_cancel hw]
  rw [number_sub, BitVec.toInt_ofInt, hpow]
  apply Int.bmod_eq_of_le
  · omega
  · omega

/-- The numbers of two positions are the same only if the positions are, or are a whole number space
apart. -/
theorem number_inj (hlow : q < p + 2 ^ w) (hhigh : p < q + 2 ^ w) : number base p = number base q ↔ p = q := by
  constructor
  · intro h
    have hmod : p ≡ q [MOD 2 ^ w] := by
      have hnat := congrArg BitVec.toNat ((BitVec.add_right_inj base).mp h)
      rwa [BitVec.toNat_ofNat, BitVec.toNat_ofNat] at hnat
    apply hmod.eq_of_abs_lt
    rw [abs_lt]
    omega
  · rintro rfl
    rfl

/-- How far a number is ahead. -/
theorem toNat_number_sub (hle : q ≤ p) (hlt : p < q + 2 ^ w) : (number base p - number base q).toNat = p - q := by
  have hadd : number base p = number base q + BitVec.ofNat w (p - q) := by
    rw [number_add, Nat.add_sub_cancel' hle]
  rw [hadd, BitVec.add_comm, BitVec.add_sub_cancel, BitVec.toNat_ofNat]
  apply Nat.mod_eq_of_lt
  omega

/-- Where the newest of a list of numbers is, counted from the oldest one, if two that follow each other
are less than half of the number space apart. -/
def position : List (BitVec w) → ℤ
  | [] => 0
  | [_] => 0
  | e :: e' :: es => position (e' :: es) + (e - e').toInt

def positions : List (BitVec w) → List ℤ
  | [] => []
  | e :: es => position (e :: es) :: positions es

/-- A number that is not behind the newest one is not behind any. -/
theorem positions_cons_pairwise {e : BitVec w} {es : List (BitVec w)}
    (h : (positions es).Pairwise (· ≥ ·)) (hnew : ∀ e' ∈ es.head?, 0 ≤ (e - e').toInt) :
    (positions (e :: es)).Pairwise (· ≥ ·) := by
  cases es with
  | nil => exact List.pairwise_singleton ..
  | cons e' es =>
    have hstep := hnew e' rfl
    have hall := (List.pairwise_cons.mp h).1
    refine List.pairwise_cons.mpr ⟨fun p hp => ?_, h⟩
    have hle : p ≤ position (e' :: es) := by
      rcases List.mem_cons.mp hp with heq | hmem
      · rw [heq]
      · exact hall p hmem
    exact hle.trans (le_add_of_nonneg_right hstep)

end Osf1.Computation.Serial

/-!
## Functions with several exits

A long function goes on from one part to the next, or leaves at one of its labels, or panics.
-/

namespace Osf1.Computation

/-- Where a part of a function ends. -/
inductive Flow (π ρ α : Type*) where
  | go (a : α)
  | leave (r : ρ)
  | panic (p : π)
deriving DecidableEq

namespace Flow

universe u

variable {π ρ : Type*} {α β : Type u}

/-- The next part is entered unless the function has been left. -/
def bind (m : Flow π ρ α) (f : α → Flow π ρ β) : Flow π ρ β :=
  match m with
  | go a => f a
  | leave r => leave r
  | panic p => panic p

instance {π ρ : Type*} : Monad (Flow π ρ) where
  pure := go
  bind := bind

@[simp] theorem go_bind (a : α) (f : α → Flow π ρ β) : (go a >>= f) = f a := rfl

@[simp] theorem leave_bind (r : ρ) (f : α → Flow π ρ β) : (leave r >>= f) = leave r := rfl

/-- If there is no panic, `Q` holds where the function goes on, and `R` where it is left. -/
def Ends (Q : α → Prop) (R : ρ → Prop) : Flow π ρ α → Prop
  | go a => Q a
  | leave r => R r
  | panic _ => True

theorem Ends.bind {m : Flow π ρ α} {f : α → Flow π ρ β} {P : α → Prop} {Q : β → Prop} {R : ρ → Prop}
    (h : m.Ends P R) (hf : ∀ a, P a → (f a).Ends Q R) : (m >>= f).Ends Q R := by
  cases m with
  | go a => exact hf a h
  | leave r => exact h
  | panic p => trivial

end Flow

end Osf1.Computation
