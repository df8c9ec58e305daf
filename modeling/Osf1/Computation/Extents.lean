import Mathlib

/-!
# Sets of units as lists of ranges

A set of units of some resource is kept as a list of half-open ranges, in order and with a gap
between any two of them.
-/

set_option autoImplicit false

namespace Osf1.Computation

open List

section Extents

variable {α : Type*} [LinearOrder α]

/-- The units in the ranges of a list. -/
def units (l : List (α × α)) : Set α := {x | ∃ e ∈ l, x ∈ Set.Ico e.1 e.2}

/-- No range is empty, and there is a gap between any two. -/
structure Apart (l : List (α × α)) : Prop where
  nonempty : ∀ e ∈ l, e.1 < e.2
  gaps : l.Pairwise fun a b => a.2 < b.1

variable {l l₁ l₂ q : List (α × α)} {e : α × α} {c d : α}

theorem units_nil : units ([] : List (α × α)) = ∅ := by
  simp [units]

theorem units_cons (e : α × α) (l : List (α × α)) : units (e :: l) = Set.Ico e.1 e.2 ∪ units l := by
  ext x
  simp [units]

theorem units_append (l₁ l₂ : List (α × α)) : units (l₁ ++ l₂) = units l₁ ∪ units l₂ := by
  ext x
  simp [units, or_and_right, exists_or]

theorem apart_nil : Apart ([] : List (α × α)) := ⟨fun _ he => absurd he not_mem_nil, List.Pairwise.nil⟩

theorem apart_cons : Apart (e :: l) ↔ e.1 < e.2 ∧ (∀ b ∈ l, e.2 < b.1) ∧ Apart l := by
  constructor
  · intro h
    obtain ⟨hgaps, hl⟩ := pairwise_cons.mp h.gaps
    exact ⟨h.nonempty e (mem_cons_self ..), hgaps, fun b hb => h.nonempty b (mem_cons_of_mem _ hb), hl⟩
  · rintro ⟨he, hgaps, hl⟩
    refine ⟨fun b hb => ?_, pairwise_cons.mpr ⟨hgaps, hl.gaps⟩⟩
    rcases mem_cons.mp hb with heq | hb
    · exact heq ▸ he
    · exact hl.nonempty b hb

theorem apart_append : Apart (l₁ ++ l₂) ↔ Apart l₁ ∧ Apart l₂ ∧ ∀ a ∈ l₁, ∀ b ∈ l₂, a.2 < b.1 := by
  constructor
  · intro h
    obtain ⟨h₁, h₂, hgaps⟩ := pairwise_append.mp h.gaps
    exact ⟨⟨fun a ha => h.nonempty a (mem_append_left _ ha), h₁⟩,
      ⟨fun b hb => h.nonempty b (mem_append_right _ hb), h₂⟩, hgaps⟩
  · rintro ⟨h₁, h₂, hgaps⟩
    refine ⟨fun a ha => ?_, pairwise_append.mpr ⟨h₁.gaps, h₂.gaps, hgaps⟩⟩
    rcases mem_append.mp ha with ha | ha
    · exact h₁.nonempty a ha
    · exact h₂.nonempty a ha

theorem Apart.sublist (h : Apart l) (hs : l₁.Sublist l) : Apart l₁ :=
  ⟨fun e he => h.nonempty e (hs.subset he), h.gaps.sublist hs⟩

theorem apart_singleton (h : e.1 < e.2) : Apart [e] :=
  apart_cons.mpr ⟨h, fun _ hb => absurd hb not_mem_nil, apart_nil⟩

/-- What is in front of a range ends before it, and what is behind it begins after it. -/
theorem apart_split : Apart (l₁ ++ e :: l₂) ↔ Apart l₁ ∧ Apart l₂ ∧ e.1 < e.2 ∧
    (∀ a ∈ l₁, a.2 < e.1) ∧ (∀ b ∈ l₂, e.2 < b.1) ∧ ∀ a ∈ l₁, ∀ b ∈ l₂, a.2 < b.1 := by
  rw [apart_append, apart_cons]
  constructor
  · rintro ⟨h₁, ⟨he, hbehind, h₂⟩, hgaps⟩
    exact ⟨h₁, h₂, he, fun a ha => hgaps a ha e (mem_cons_self ..), hbehind,
      fun a ha b hb => hgaps a ha b (mem_cons_of_mem _ hb)⟩
  · rintro ⟨h₁, h₂, he, hfront, hbehind, hgaps⟩
    refine ⟨h₁, ⟨he, hbehind, h₂⟩, fun a ha b hb => ?_⟩
    rcases mem_cons.mp hb with heq | hb
    · exact heq ▸ hfront a ha
    · exact hgaps a ha b hb

section

variable (h : Apart (l₁ ++ e :: l₂))
include h

/-- Ranges within the bounds of another take its place. -/
theorem Apart.replace (hq : Apart q) (hin : ∀ x ∈ q, e.1 ≤ x.1 ∧ x.2 ≤ e.2) : Apart (l₁ ++ q ++ l₂) := by
  obtain ⟨h₁, h₂, -, hfront, hbehind, hgaps⟩ := apart_split.mp h
  rw [apart_append, apart_append]
  refine ⟨⟨h₁, hq, fun a ha x hx => (hfront a ha).trans_le (hin x hx).1⟩, h₂, fun a ha b hb => ?_⟩
  rcases mem_append.mp ha with ha | ha
  · exact hgaps a ha b hb
  · exact (hin a ha).2.trans_lt (hbehind b hb)

/-- The units of a range are in no other one. -/
theorem Apart.notMem {x : α} (hx : x ∈ Set.Ico e.1 e.2) : x ∉ units l₁ ∧ x ∉ units l₂ := by
  obtain ⟨-, -, -, hfront, hbehind, -⟩ := apart_split.mp h
  constructor
  · rintro ⟨a, ha, hxa⟩
    exact absurd (hxa.2.trans (hfront a ha)) (not_lt.mpr hx.1)
  · rintro ⟨b, hb, hxb⟩
    exact absurd (hx.2.trans (hbehind b hb)) (not_lt.mpr hxb.1)

/-- Part of a range is taken out. -/
theorem Apart.units_remove (hsub : Set.Ico c d ⊆ Set.Ico e.1 e.2) (hq : units q = Set.Ico e.1 e.2 \ Set.Ico c d) :
    units (l₁ ++ q ++ l₂) = units (l₁ ++ e :: l₂) \ Set.Ico c d := by
  rw [units_append, units_append, units_append, units_cons, hq]
  ext x
  by_cases hx : x ∈ Set.Ico c d
  · have hout := h.notMem (hsub hx)
    simp [hx, hout.1, hout.2]
  · simp only [Set.mem_union, Set.mem_sdiff, hx, not_false_iff, and_true]
    tauto

end

end Extents

/-!
## First fit among ordered intervals

Intervals of naturals are in order in a list.
-/

section FirstFit

variable {ι : Type*} {lo hi : ι → ℕ} {up : ℕ → ℕ} {ok : ℕ → Prop} {size a x : ℕ} {e prev : ι} {l l₁ l₂ : List ι}

/-- The intervals are not empty, and each ends before the next one starts. -/
structure Intervals (lo hi : ι → ℕ) (l : List ι) : Prop where
  lt : ∀ e ∈ l, lo e < hi e
  ordered : l.Pairwise fun d e => hi d ≤ lo e

/-- The range from `a` on meets no interval of the list. -/
def Vacant (lo hi : ι → ℕ) (size : ℕ) (l : List ι) (a : ℕ) : Prop := ∀ e ∈ l, a + size ≤ lo e ∨ hi e ≤ a

/-- `up` leads to the next place of a kind. -/
structure RoundsUp (up : ℕ → ℕ) (P : ℕ → Prop) : Prop where
  le : ∀ x, x ≤ up x
  holds : ∀ x, P (up x)
  least : ∀ x a, x ≤ a → P a → up x ≤ a

theorem Intervals.tail (h : Intervals lo hi (e :: l)) : Intervals lo hi l where
  lt := fun d hd => h.lt d (mem_cons_of_mem _ hd)
  ordered := (pairwise_cons.mp h.ordered).2

theorem Intervals.right (h : Intervals lo hi (l₁ ++ l₂)) : Intervals lo hi l₂ where
  lt := fun d hd => h.lt d (mem_append_right _ hd)
  ordered := (pairwise_append.mp h.ordered).2.1

/-- What comes after an interval starts behind its end. -/
theorem Intervals.hi_le (h : Intervals lo hi (e :: l)) {d : ι} (hd : d ∈ l) : hi e ≤ lo d :=
  (pairwise_cons.mp h.ordered).1 d hd

/-- What comes before an interval ends before its start. -/
theorem Intervals.le_lo (h : Intervals lo hi (l₁ ++ e :: l₂)) {d : ι} (hd : d ∈ l₁) : hi d ≤ lo e :=
  (pairwise_append.mp h.ordered).2.2 d hd e (mem_cons_self ..)

/-- The intervals that end at or before a place come first. -/
theorem Intervals.split (h : Intervals lo hi l) (x : ℕ) :
    ∃ l₁ l₂, l = l₁ ++ l₂ ∧ (∀ e ∈ l₁, hi e ≤ x) ∧ ∀ e ∈ l₂, x < hi e := by
  induction l with
  | nil => exact ⟨[], [], rfl, nofun, nofun⟩
  | cons e l ih =>
    by_cases hle : hi e ≤ x
    · obtain ⟨l₁, l₂, rfl, hbefore, hafter⟩ := ih h.tail
      refine ⟨e :: l₁, l₂, rfl, ?_, hafter⟩
      intro d hd
      rcases mem_cons.mp hd with heq | hmem
      · exact heq ▸ hle
      · exact hbefore d hmem
    · refine ⟨[], e :: l, rfl, nofun, ?_⟩
      intro d hd
      rcases mem_cons.mp hd with heq | hmem
      · exact heq ▸ not_le.mp hle
      · calc x < hi e := not_le.mp hle
          _ ≤ lo d := h.hi_le hmem
          _ ≤ hi d := (h.tail.lt d hmem).le

/-- The next multiple of a power of two. -/
def alignUp (k x : ℕ) : ℕ := (x + (2 ^ k - 1)) / 2 ^ k * 2 ^ k

theorem roundsUp_alignUp (k : ℕ) : RoundsUp (alignUp k) fun a => a % 2 ^ k = 0 where
  le x := by
    have hmod := Nat.div_add_mod' (x + (2 ^ k - 1)) (2 ^ k)
    unfold alignUp
    omega
  holds x := Nat.mul_mod_left ..
  least x a hle ha := by
    have hpos := Nat.two_pow_pos k
    calc alignUp k x ≤ (a + (2 ^ k - 1)) / 2 ^ k * 2 ^ k := by
          apply Nat.mul_le_mul_right
          exact Nat.div_le_div_right (Nat.add_le_add_right hle _)
      _ = a := by
          obtain ⟨b, rfl⟩ := Nat.dvd_of_mod_eq_zero ha
          rw [Nat.mul_add_div hpos, Nat.div_eq_of_lt (by omega), Nat.add_zero, Nat.mul_comm]

/-- The search from a place behind an interval, in front of a list of them: the place, and the interval in front
of it. -/
def firstFit (lo hi : ι → ℕ) (up : ℕ → ℕ) (ok : ℕ → Prop) [DecidablePred ok] (size : ℕ) :
    ι → ℕ → List ι → Option (ℕ × ι)
  | prev, x, [] => if ok (up x) then some (up x, prev) else none
  | prev, x, next :: l =>
    if ok (up x) then
      if up x + size ≤ lo next then some (up x, prev) else firstFit lo hi up ok size next (hi next) l
    else none

variable {P : ℕ → Prop} [DecidablePred ok]

/-- The place that is found. -/
structure Found (lo hi : ι → ℕ) (P ok : ℕ → Prop) (size : ℕ) (prev : ι) (x : ℕ) (l : List ι) (a : ℕ) (p : ι) :
    Prop where
  ge : x ≤ a
  kind : P a
  admissible : ok a
  between : ∃ l₁ l₂, l = l₁ ++ l₂ ∧ p = (prev :: l₁).getLast (List.cons_ne_nil _ _) ∧ (∀ e ∈ l₁, hi e ≤ a) ∧
    ∀ e ∈ l₂, a + size ≤ lo e

theorem firstFit_some (h : Intervals lo hi l) (hup : RoundsUp up P) (hx : ∀ e ∈ l, x ≤ hi e) {p : ι}
    (hfound : firstFit lo hi up ok size prev x l = some (a, p)) : Found lo hi P ok size prev x l a p := by
  induction l generalizing prev x with
  | nil =>
    rw [firstFit] at hfound
    split at hfound
    · rename_i hok
      obtain ⟨rfl, rfl⟩ := Prod.mk.inj (Option.some.inj hfound)
      exact ⟨hup.le x, hup.holds x, hok, [], [], rfl, rfl, nofun, nofun⟩
    · cases hfound
  | cons next l ih =>
    have hlt := h.lt next (mem_cons_self ..)
    rw [firstFit] at hfound
    split at hfound
    · rename_i hok
      split at hfound
      · rename_i hle
        obtain ⟨rfl, rfl⟩ := Prod.mk.inj (Option.some.inj hfound)
        refine ⟨hup.le x, hup.holds x, hok, [], next :: l, rfl, rfl, nofun, ?_⟩
        intro d hd
        rcases mem_cons.mp hd with heq | hmem
        · exact heq ▸ hle
        · have := h.hi_le hmem
          omega
      · have hx' : ∀ e ∈ l, hi next ≤ hi e := fun d hd => (h.hi_le hd).trans (h.tail.lt d hd).le
        have hrest := ih h.tail hx' hfound
        obtain ⟨l₁, l₂, hl, hp, hbefore, hafter⟩ := hrest.between
        refine ⟨?_, hrest.kind, hrest.admissible, next :: l₁, l₂, by rw [hl, cons_append], ?_, ?_, hafter⟩
        · exact (hx next (mem_cons_self ..)).trans hrest.ge
        · rw [hp, getLast_cons (cons_ne_nil next l₁)]
        · intro d hd
          rcases mem_cons.mp hd with heq | hmem
          · exact heq ▸ hrest.ge
          · exact hbefore d hmem
    · cases hfound

omit [DecidablePred ok] in
/-- What is found is vacant. -/
theorem Found.vacant {p : ι} (h : Found lo hi P ok size prev x l a p) : Vacant lo hi size l a := by
  obtain ⟨l₁, l₂, rfl, -, hbefore, hafter⟩ := h.between
  intro e he
  rcases mem_append.mp he with hmem | hmem
  · exact .inr (hbefore e hmem)
  · exact .inl (hafter e hmem)

/-- A search that finds nothing has left out no place: whatever is not admissible stays so further on. -/
theorem firstFit_none (h : Intervals lo hi l) (hup : RoundsUp up P) (hok : ∀ a b, a ≤ b → ok b → ok a)
    (hnone : firstFit lo hi up ok size prev x l = none) : ∀ a, x ≤ a → P a → ok a → ¬Vacant lo hi size l a := by
  induction l generalizing prev x with
  | nil =>
    intro a hxa ha hoka _
    rw [firstFit] at hnone
    split at hnone
    · cases hnone
    · rename_i hnot
      exact hnot (hok (up x) a (hup.least x a hxa ha) hoka)
  | cons next l ih =>
    intro a hxa ha hoka hvacant
    have hle : up x ≤ a := hup.least x a hxa ha
    rw [firstFit, if_pos (hok (up x) a hle hoka)] at hnone
    split at hnone
    · cases hnone
    · rename_i hnot
      -- the range does not end before the next interval, so that it starts behind it
      rcases hvacant next (mem_cons_self ..) with hbefore | hafter
      · omega
      · exact ih h.tail hnone a hafter ha hoka fun d hd => hvacant d (mem_cons_of_mem _ hd)

end FirstFit

end Osf1.Computation
