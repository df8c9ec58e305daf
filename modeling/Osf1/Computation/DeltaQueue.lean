import Mathlib

/-!
# Queues of deltas

Every entry of a queue is due at some time, and the queue keeps for each entry the time from when the entry in
front of it is due, or from now on if that one is overdue.
-/

set_option autoImplicit false

namespace Osf1.Computation.DeltaQueue

open Function List

variable {α : Type*} {time time' due due' : α → ℤ} {b now : ℤ} {p q : α} {l l' : List α}

/-- From which time on the entry behind `l` counts. -/
def top (due : α → ℤ) : ℤ → List α → ℤ
  | b, [] => b
  | b, p :: l => top due (max b (due p)) l

/-- Every entry tells the time from `b` on, or from when the latest entry in front of it is due. -/
def Tells (time due : α → ℤ) : ℤ → List α → Prop
  | _, [] => True
  | b, p :: l => time p = due p - b ∧ Tells time due (max b (due p)) l

theorem Tells.congr (h : Tells time due b l) (htime : ∀ p ∈ l, time' p = time p)
    (hdue : ∀ p ∈ l, due' p = due p) : Tells time' due' b l := by
  induction l generalizing b with
  | nil => trivial
  | cons p l ih =>
    refine ⟨?_, ?_⟩
    · rw [htime p (mem_cons_self ..), hdue p (mem_cons_self ..)]
      exact h.1
    · rw [hdue p (mem_cons_self ..)]
      apply ih h.2
      · intro q hq
        exact htime q (mem_cons_of_mem _ hq)
      · intro q hq
        exact hdue q (mem_cons_of_mem _ hq)

theorem tells_append : Tells time due b (l ++ l') ↔ Tells time due b l ∧ Tells time due (top due b l) l' := by
  induction l generalizing b with
  | nil => simp [Tells, top]
  | cons p l ih => simp [Tells, top, ih, and_assoc]

theorem le_top : b ≤ top due b l := by
  induction l generalizing b with
  | nil => exact le_rfl
  | cons p l ih => exact le_trans (le_max_left b (due p)) ih

theorem top_lt {d : ℤ} (hb : b < d) (h : ∀ p ∈ l, due p < d) : top due b l < d := by
  induction l generalizing b with
  | nil => exact hb
  | cons p l ih =>
    apply ih
    · exact max_lt hb (h p (mem_cons_self ..))
    · intro q hq
      exact h q (mem_cons_of_mem _ hq)

/-- Whatever it is counted from, an entry that is due no later tells the same. -/
theorem Tells.rebase {c : ℤ} (h : Tells time due b (p :: l)) (hb : b ≤ due p) (hc : c ≤ due p) :
    Tells time due (max c (due p)) l := by
  rw [max_eq_right hc, ← max_eq_right hb]
  exact h.2

/-- The queue is in the order of the times at which the entries are due. -/
def InOrder (due : α → ℤ) (l : List α) : Prop := l.Pairwise fun p q => due p ≤ due q

/-- What is not after the first entry is not after any. -/
theorem InOrder.le_all {d : ℤ} (h : InOrder due l) (hd : ∀ q k, l = q :: k → d ≤ due q) : ∀ q ∈ l, d ≤ due q := by
  intro q hq
  cases l with
  | nil => cases hq
  | cons r k =>
    have hr := hd r k rfl
    rcases mem_cons.mp hq with heq | hmem
    · exact heq ▸ hr
    · exact le_trans hr ((pairwise_cons.mp h).1 q hmem)

/-- The order is kept if an entry is put in behind those that are due before it. -/
theorem InOrder.insert (h : InOrder due (l ++ l')) (hdue : ∀ q ∈ l ++ l', due' q = due q)
    (hl : ∀ q ∈ l, due q < due' p) (hl' : ∀ q ∈ l', due' p ≤ due q) : InOrder due' (l ++ p :: l') := by
  obtain ⟨hfront, hback, hcross⟩ := pairwise_append.mp h
  have hdue₁ (q : α) (hq : q ∈ l) : due' q = due q := hdue q (mem_append_left _ hq)
  have hdue₂ (q : α) (hq : q ∈ l') : due' q = due q := hdue q (mem_append_right _ hq)
  refine pairwise_append.mpr ⟨?_, pairwise_cons.mpr ⟨?_, ?_⟩, ?_⟩
  · apply hfront.imp_of_mem
    intro q r hq hr hle
    rwa [hdue₁ q hq, hdue₁ r hr]
  · intro q hq
    rw [hdue₂ q hq]
    exact hl' q hq
  · apply hback.imp_of_mem
    intro q r hq hr hle
    rwa [hdue₂ q hq, hdue₂ r hr]
  · intro q hq r hr
    rw [hdue₁ q hq]
    rcases mem_cons.mp hr with heq | hmem
    · rw [heq]
      exact le_of_lt (hl q hq)
    · rw [hdue₂ r hmem]
      exact hcross q hq r hmem

/-- What an entry tells is between when it is due and now. -/
theorem Tells.bounds (h : Tells time due b l) (horder : InOrder due l) (hp : p ∈ l) :
    (due p ≤ b → time p = due p - b) ∧ (b ≤ due p → 0 ≤ time p ∧ time p ≤ due p - b) := by
  induction l generalizing b with
  | nil => cases hp
  | cons q l ih =>
    have hhead := h.1
    rcases mem_cons.mp hp with heq | hmem
    · rw [heq]
      exact ⟨fun _ => hhead, fun hle => ⟨by omega, by omega⟩⟩
    · have hqp : due q ≤ due p := (pairwise_cons.mp horder).1 p hmem
      obtain ⟨hearly, hlate⟩ := ih h.2 (pairwise_cons.mp horder).2 hmem
      constructor
      · intro hle
        rw [max_eq_left (le_trans hqp hle)] at hearly
        exact hearly hle
      · intro hle
        have := hlate (max_le hle hqp)
        have := le_max_left b (due q)
        omega

/-- An entry is due if and only if it and those in front of it tell nothing more to wait for. -/
theorem Tells.due_iff (h : Tells time due now (l ++ p :: l')) (horder : InOrder due (l ++ p :: l')) :
    (∀ q ∈ l ++ [p], time q ≤ 0) ↔ due p ≤ now := by
  have hbefore (q : α) (hq : q ∈ l ++ [p]) : due q ≤ due p := by
    rcases mem_append.mp hq with hl | hp
    · exact (pairwise_append.mp horder).2.2 q hl p (mem_cons_self ..)
    · rw [mem_singleton.mp hp]
  have hmem (q : α) (hq : q ∈ l ++ [p]) : q ∈ l ++ p :: l' := by
    rcases mem_append.mp hq with hl | hp
    · exact mem_append_left _ hl
    · rw [mem_singleton.mp hp]
      exact mem_append_right _ (mem_cons_self ..)
  constructor
  · intro hall
    -- the latest time in front of the entry is not after now, so that it counts from now on
    have htop (k : List α) (hk : ∀ q ∈ k, time q ≤ 0) (ht : Tells time due now k) :
        ∀ q ∈ k, due q ≤ now := by
      induction k with
      | nil => exact fun q hq => nomatch hq
      | cons r k ih =>
        have hr : due r ≤ now := by
          have := hk r (mem_cons_self ..)
          have := ht.1
          omega
        have hrest := ht.2
        rw [max_eq_left hr] at hrest
        intro q hq
        rcases mem_cons.mp hq with heq | hq'
        · exact heq ▸ hr
        · exact ih (fun x hx => hk x (mem_cons_of_mem _ hx)) hrest q hq'
    have hsplit : l ++ p :: l' = (l ++ [p]) ++ l' := by simp
    rw [hsplit] at h
    exact htop (l ++ [p]) hall (tells_append.mp h).1 p (by simp)
  · intro hle q hq
    have hq' := (h.bounds horder (hmem q hq)).1 (le_trans (hbefore q hq) hle)
    have := hbefore q hq
    omega

section Changes

variable [DecidableEq α]

/-- Time goes on: the entries are counted down up to the first one that is not overdue then. -/
def tick : List α → (α → ℤ) → (α → ℤ)
  | [], time => time
  | p :: l, time =>
    if 0 ≤ time p - 1 then update time p (time p - 1)
    else tick l (update time p (time p - 1))

theorem tick_of_notMem (hp : p ∉ l) : tick l time p = time p := by
  induction l generalizing time with
  | nil => rfl
  | cons q l ih =>
    have hne : p ≠ q := ne_of_not_mem_cons hp
    unfold tick
    split
    · exact update_of_ne hne ..
    · rw [ih fun hmem => hp (mem_cons_of_mem _ hmem)]
      exact update_of_ne hne ..

/-- When time goes on, the entries tell what they should. -/
theorem Tells.tick (h : Tells time due now l) (hnodup : l.Nodup) : Tells (tick l time) due (now + 1) l := by
  induction l generalizing time with
  | nil => trivial
  | cons p l ih =>
    obtain ⟨hp, hl⟩ := h
    obtain ⟨hpl, hnodup⟩ := nodup_cons.mp hnodup
    have hupdate : ∀ q ∈ l, update time p (time p - 1) q = time q := fun q hq =>
      update_of_ne (ne_of_mem_of_not_mem hq hpl) ..
    unfold DeltaQueue.tick
    by_cases hlate : 0 ≤ time p - 1
    · rw [if_pos hlate]
      refine ⟨?_, ?_⟩
      · rw [update_self]
        omega
      · rw [max_eq_right (by omega), ← max_eq_right (by omega : now ≤ due p)]
        exact hl.congr hupdate fun _ _ => rfl
    · rw [if_neg hlate]
      refine ⟨?_, ?_⟩
      · rw [tick_of_notMem hpl, update_self]
        omega
      · rw [max_eq_left (by omega)] at hl ⊢
        exact ih (hl.congr hupdate fun _ _ => rfl) hnodup

omit [DecidableEq α] in
/-- An entry is put in: it tells the rest of its time, by which the next entry is shortened. -/
theorem Tells.insert (h : Tells time due b (l ++ l')) (hb : b < due' p)
    (hl : ∀ q ∈ l, due q < due' p) (hl' : ∀ q ∈ l', due' p ≤ due q)
    (hdue : ∀ q ∈ l ++ l', due' q = due q) (hp : time' p = due' p - top due b l)
    (hfront : ∀ q ∈ l, time' q = time q)
    (hnext : ∀ q k, l' = q :: k → time' q = time q - time' p ∧ ∀ r ∈ k, time' r = time r) :
    Tells time' due' b (l ++ p :: l') := by
  obtain ⟨hbefore, hbehind⟩ := tells_append.mp h
  have htop : top due' b l = top due b l := by
    clear h hb hl hl' hp hfront hbefore hbehind hnext
    induction l generalizing b with
    | nil => rfl
    | cons q l ih =>
      rw [top, top, hdue q (mem_cons_self ..)]
      exact ih fun r hr => hdue r (mem_cons_of_mem _ hr)
  refine tells_append.mpr ⟨?_, ?_⟩
  · exact hbefore.congr hfront fun q hq => hdue q (mem_append_left _ hq)
  · have hlt := top_lt hb hl
    rw [htop]
    refine ⟨hp, ?_⟩
    rw [max_eq_right (le_of_lt hlt)]
    cases l' with
    | nil => trivial
    | cons q k =>
      have hq := hbehind.1
      have hpq := hl' q (mem_cons_self ..)
      have hdueq := hdue q (mem_append_right _ (mem_cons_self ..))
      obtain ⟨htimeq, hk⟩ := hnext q k rfl
      refine ⟨by omega, ?_⟩
      rw [hdueq]
      apply (hbehind.rebase (by omega) hpq).congr hk
      intro r hr
      exact hdue r (mem_append_right _ (mem_cons_of_mem _ hr))

omit [DecidableEq α] in
/-- An entry is taken out: the next one gets what it had still to wait for. -/
theorem Tells.remove (h : Tells time due b (l ++ p :: l')) (horder : InOrder due (l ++ p :: l'))
    (hfront : ∀ q ∈ l, time' q = time q)
    (hnext : ∀ q k, l' = q :: k →
      time' q = time q + (if 0 < time p then time p else 0) ∧ ∀ r ∈ k, time' r = time r) :
    Tells time' due b (l ++ l') := by
  obtain ⟨hbefore, hp, hbehind⟩ := tells_append.mp h
  refine tells_append.mpr ⟨hbefore.congr hfront fun _ _ => rfl, ?_⟩
  cases l' with
  | nil => trivial
  | cons q k =>
    obtain ⟨htimeq, hk⟩ := hnext q k rfl
    have hpq : due p ≤ due q := by
      have htail := (pairwise_append.mp horder).2.1
      exact (pairwise_cons.mp htail).1 q (mem_cons_self ..)
    have hq := hbehind.1
    by_cases hpos : 0 < time p
    · rw [if_pos hpos] at htimeq
      rw [max_eq_right (by omega)] at hbehind hq
      refine ⟨by omega, ?_⟩
      exact (hbehind.rebase hpq (by omega)).congr hk fun _ _ => rfl
    · rw [if_neg hpos] at htimeq
      rw [max_eq_left (by omega)] at hbehind hq
      refine ⟨by omega, ?_⟩
      exact hbehind.2.congr hk fun _ _ => rfl

end Changes

end Osf1.Computation.DeltaQueue
