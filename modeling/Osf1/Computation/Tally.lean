import Mathlib

/-!
# How many threads are in a given place

The state of a system of threads has a place for every thread, and a counter in shared memory is compared with
the number of threads in certain places.
-/

set_option autoImplicit false

namespace Osf1.Computation

open Function List

section Tally

variable {ι α : Type*} [Fintype ι]

/-- The number of threads whose place meets `P`. -/
def tally (P : α → Prop) [DecidablePred P] (f : ι → α) : ℕ := (Finset.univ.filter fun i => P (f i)).card

variable {P : α → Prop} [DecidablePred P] {f : ι → α} {i : ι}

theorem tally_eq_sum (f : ι → α) : tally P f = ∑ i, if P (f i) then 1 else 0 := Finset.card_filter ..

/-- A sum changes by what one of its terms loses and gains. -/
theorem sum_update {κ M : Type*} [DecidableEq κ] [AddCommMonoid M] (s : Finset κ) (g : α → M)
    (f : κ → α) {i : κ} (hi : i ∈ s) (x : α) :
    (∑ j ∈ s, g (update f i x j)) + g (f i) = (∑ j ∈ s, g (f j)) + g x := by
  have hrest : ∑ j ∈ s.erase i, g (update f i x j) = ∑ j ∈ s.erase i, g (f j) := by
    apply Finset.sum_congr rfl
    intro j hj
    rw [update_of_ne (Finset.ne_of_mem_erase hj)]
  rw [← Finset.add_sum_erase _ _ hi, ← Finset.add_sum_erase s (fun j => g (f j)) hi, hrest, update_self]
  ac_rfl

/-- Moving one thread changes the number by what it leaves and what it enters. -/
theorem tally_update [DecidableEq ι] (f : ι → α) (t : ι) (x : α) :
    tally P (update f t x) + (if P (f t) then 1 else 0) =
      tally P f + if P x then 1 else 0 := by
  rw [tally_eq_sum, tally_eq_sum]
  exact sum_update Finset.univ (fun x => if P x then 1 else 0) f (Finset.mem_univ t) x

/-- Moving threads into places that count. -/
theorem tally_mono {Q : α → Prop} [DecidablePred Q] {g : ι → α} (h : ∀ i, P (f i) → Q (g i)) : tally P f ≤ tally Q g := by
  apply Finset.card_le_card
  intro i hi
  simp only [Finset.mem_filter, Finset.mem_univ, true_and] at hi ⊢
  exact h i hi

/-- No more threads are counted than there are, and fewer if one is not. -/
theorem tally_lt_card (h : ¬P (f i)) : tally P f < Fintype.card ι := by
  apply Finset.card_lt_univ_of_notMem (x := i)
  simpa using h

theorem tally_eq_zero_iff (f : ι → α) : tally P f = 0 ↔ ∀ i, ¬P (f i) := by
  simp [tally, Finset.filter_eq_empty_iff]

/-- A thread in a place is counted. -/
theorem tally_pos (h : P (f i)) : 0 < tally P f := by
  apply Nat.pos_of_ne_zero
  intro h0
  exact (tally_eq_zero_iff f).mp h0 i h

/-- If one thread is counted there is no other. -/
theorem eq_of_tally_le_one {j : ι} (h : tally P f ≤ 1) (hi : P (f i)) (hj : P (f j)) : i = j :=
  Finset.card_le_one.mp h i (by simpa using hi) j (by simpa using hj)

end Tally

/-!
## Lists kept in order by a relation on their elements

Kernel chains are kept in order by inserting at a position that a scan has found.
-/

section OrderedList

variable {α : Type*} {R : α → α → Prop} {l l' : List α} {x a b : α} {bound : ℕ}

/-- An element may go in at position `n` exactly when it is in order with the elements on
either side. -/
theorem pairwise_insert {n : ℕ} :
    (l.take n ++ x :: l.drop n).Pairwise R ↔
      l.Pairwise R ∧ (∀ a ∈ l.take n, R a x) ∧ ∀ b ∈ l.drop n, R x b := by
  have hl : l.Pairwise R ↔ (l.take n ++ l.drop n).Pairwise R := by rw [take_append_drop]
  rw [hl, pairwise_append, pairwise_append, pairwise_cons]
  grind

section

variable (h : (l ++ x :: l').Pairwise R)
include h

/-- An element of a list in order may leave. -/
theorem pairwise_remove : (l ++ l').Pairwise R :=
  h.sublist ((List.Sublist.refl l).append (sublist_cons_self x l'))

/-- An element may be replaced by one that is in order wherever the old one was. -/
theorem pairwise_replace {y : α} (hl : ∀ a ∈ l, R a x → R a y) (hr : ∀ b ∈ l', R x b → R y b) :
    (l ++ y :: l').Pairwise R := by
  rw [pairwise_append, pairwise_cons] at h ⊢
  simp only [mem_cons, forall_eq_or_imp] at h ⊢
  exact ⟨h.1, ⟨fun b hb => hr b hb (h.2.1.1 b hb), h.2.1.2⟩, fun a ha => ⟨hl a ha (h.2.2 a ha).1, (h.2.2 a ha).2⟩⟩

/-- Elements on either side of a split are in order. -/
theorem pairwise_append_cons : (∀ a ∈ l, R a x) ∧ (∀ b ∈ l', R x b) ∧ ∀ a ∈ l, ∀ b ∈ l', R a b := by
  rw [pairwise_append, pairwise_cons] at h
  exact ⟨fun a ha => h.2.2 a ha x (mem_cons_self ..), h.2.1.1,
    fun a ha b hb => h.2.2 a ha b (mem_cons_of_mem _ hb)⟩

end

/-- Two different elements are in order one way or the other. -/
theorem pairwise_or (h : l.Pairwise R) (ha : a ∈ l) (hb : b ∈ l) (hne : a ≠ b) : R a b ∨ R b a := by
  have hsym : Std.Symm fun a b => R a b ∨ R b a := ⟨fun _ _ => Or.symm⟩
  exact (h.imp fun hab => .inl hab : l.Pairwise fun a b => R a b ∨ R b a).forall ha hb hne

/-- In a list sorted by a key, no element after the run of elements below a bound is
below the bound. -/
theorem le_of_mem_drop_takeWhile (key : α → ℕ) (h : l.Pairwise fun a b => key a ≤ key b)
    (hb : b ∈ l.drop (l.takeWhile fun a => key a < bound).length) : bound ≤ key b := by
  induction l with
  | nil => simp at hb
  | cons a l ih =>
    rw [pairwise_cons] at h
    by_cases ha : key a < bound
    · simp only [ha, decide_true, takeWhile_cons_of_pos, length_cons, drop_succ_cons] at hb
      exact ih h.2 hb
    · simp only [ha, decide_false, Bool.false_eq_true, not_false_eq_true,
        takeWhile_cons_of_neg, length_nil, drop_zero, mem_cons] at hb
      rcases hb with rfl | hb
      · omega
      · have := h.1 b hb
        omega

/-- The run of elements below a bound consists of elements below the bound. -/
theorem lt_of_mem_take_takeWhile (key : α → ℕ) (ha : a ∈ l.take (l.takeWhile fun a => key a < bound).length) : key a < bound := by
  have hpre := takeWhile_prefix (fun a => decide (key a < bound)) (l := l)
  rw [prefix_iff_eq_take.mp hpre, length_take, Nat.min_eq_left hpre.length_le, ← prefix_iff_eq_take.mp hpre] at ha
  simpa using mem_takeWhile_imp ha

end OrderedList

end Osf1.Computation
