import Mathlib

/-!
# Queues whose items wait for the earlier items they conflict with

An item of a queue runs or waits. It may run only when no earlier item of the queue conflicts with it, whether
that one runs or waits, so that conflicting items run in the order of the queue.
-/

set_option autoImplicit false

namespace Osf1.Computation

open List

/-- An item of a queue. -/
structure Ticket (α : Type*) where
  item : α
  waits : Bool
  deriving DecidableEq

variable {α : Type*} {R : α → α → Prop} {x : α} {older older' : List α}
  {q q₁ q₂ : List (Ticket α)} {t : Ticket α}

/-- The items of a queue that run. -/
def running (q : List (Ticket α)) : List α := (q.filter fun t => !t.waits).map Ticket.item

/-- No item that runs conflicts with an earlier one.  The items of `older` come before the queue. -/
def Exclusive (R : α → α → Prop) : List α → List (Ticket α) → Prop
  | _, [] => True
  | older, t :: ts =>
    (t.waits = false → ∀ a ∈ older, ¬R a t.item) ∧ Exclusive R (older ++ [t.item]) ts

/-- Each item that waits conflicts with an earlier one. -/
def Justified (R : α → α → Prop) : List α → List (Ticket α) → Prop
  | _, [] => True
  | older, t :: ts =>
    (t.waits = true → ∃ a ∈ older, R a t.item) ∧ Justified R (older ++ [t.item]) ts

/-- Items may leave. -/
theorem Exclusive.sublist (hsub : older' ⊆ older) (hq : q₁.Sublist q)
    (h : Exclusive R older q) : Exclusive R older' q₁ := by
  induction hq generalizing older older' with
  | slnil => trivial
  | cons t _ ih => exact ih (fun a ha => mem_append_left _ (hsub ha)) h.2
  | cons_cons t _ ih =>
    refine ⟨fun hruns a ha => h.1 hruns a (hsub ha), ih ?_ h.2⟩
    exact append_subset.mpr
      ⟨fun a ha => mem_append_left _ (hsub ha), subset_append_right ..⟩

theorem exclusive_append : Exclusive R older (q₁ ++ q₂) ↔
    Exclusive R older q₁ ∧ Exclusive R (older ++ q₁.map Ticket.item) q₂ := by
  induction q₁ generalizing older with
  | nil =>
    rw [map_nil, append_nil]
    exact ⟨fun h => ⟨trivial, h⟩, fun h => h.2⟩
  | cons t ts ih =>
    rw [cons_append, Exclusive, Exclusive, ih, map_cons, append_assoc, and_assoc]
    rfl

theorem justified_append : Justified R older (q₁ ++ q₂) ↔
    Justified R older q₁ ∧ Justified R (older ++ q₁.map Ticket.item) q₂ := by
  induction q₁ generalizing older with
  | nil =>
    rw [map_nil, append_nil]
    exact ⟨fun h => ⟨trivial, h⟩, fun h => h.2⟩
  | cons t ts ih =>
    rw [cons_append, Justified, Justified, ih, map_cons, append_assoc, and_assoc]
    rfl

/-- Among the items that run there is no conflict. -/
theorem Exclusive.pairwise (h : Exclusive R older q) :
    q.Pairwise fun s t => t.waits = false → ¬R s.item t.item := by
  induction q generalizing older with
  | nil => exact .nil
  | cons s ts ih =>
    refine .cons ?_ (ih h.2)
    intro t ht hruns
    obtain ⟨l₁, l₂, rfl⟩ := append_of_mem ht
    have hrest := (exclusive_append.mp h.2).2
    exact hrest.1 hruns s.item
      (mem_append_left _ (mem_append_right _ (mem_singleton_self _)))

theorem Justified.exists_earlier (h : Justified R [] (q₁ ++ t :: q₂)) (ht : t.waits = true) :
    ∃ s ∈ q₁, R s.item t.item := by
  obtain ⟨a, ha, hconflict⟩ := (justified_append.mp h).2.1 ht
  obtain ⟨s, hs, rfl⟩ := mem_map.mp ha
  exact ⟨s, hs, hconflict⟩

/-- An item that comes last. -/
theorem Exclusive.concat (h : Exclusive R [] q)
    (ht : t.waits = false → ∀ s ∈ q, ¬R s.item t.item) : Exclusive R [] (q ++ [t]) := by
  refine exclusive_append.mpr ⟨h, fun hruns a ha => ?_, trivial⟩
  obtain ⟨s, hs, rfl⟩ := mem_map.mp ha
  exact ht hruns s hs

/-- In a list without duplicates one of two items comes first. -/
theorem not_pair_sublist_swap {m : List α} {a b : α} (hm : m.Nodup) (h : [a, b].Sublist m) : ¬[b, a].Sublist m := by
  intro hswap
  have h : ([a] ++ [b]).Sublist m := h
  obtain ⟨r₁, r₂, rfl, ha, hb⟩ := append_sublist_iff.mp h
  have ha := singleton_sublist.mp ha
  have hb := singleton_sublist.mp hb
  have hdisjoint := disjoint_of_nodup_append hm
  have hright : [b, a].Sublist r₂ := by
    obtain ⟨l₁, l₂, heq, h₁, h₂⟩ := sublist_append_iff.mp hswap
    cases l₁ with
    | nil =>
      rw [heq]
      exact h₂
    | cons c l₁ =>
      obtain ⟨rfl, -⟩ := cons.inj heq
      exact absurd hb (hdisjoint (h₁.subset (mem_cons_self ..)))
  exact hdisjoint ha (hright.subset (mem_cons_of_mem _ (mem_singleton_self _)))

theorem pair_sublist_of_concat {m : List α} {a b : α} (hm : (m ++ [x]).Nodup) (hb : b ∈ m)
    (h : [a, b].Sublist (m ++ [x])) : [a, b].Sublist m := by
  have hbx : b ≠ x := fun heq =>
    disjoint_of_nodup_append hm hb (mem_singleton.mpr heq)
  have hax : a ≠ x := by
    rintro rfl
    exact not_pair_sublist_swap hm h
      ((singleton_sublist.mpr hb).append (List.Sublist.refl [a]))
  apply List.Sublist.of_sublist_append_left _ h
  intro c hc
  rw [mem_singleton]
  rcases mem_pair.mp hc with rfl | rfl
  · exact hax
  · exact hbx

section Admit

variable [DecidableRel R]

/-- Each item that waits is let run when no earlier one conflicts with it. -/
def admitFrom (R : α → α → Prop) [DecidableRel R] : List α → List (Ticket α) → List (Ticket α)
  | _, [] => []
  | older, t :: ts =>
    ⟨t.item, t.waits && decide (∃ a ∈ older, R a t.item)⟩ :: admitFrom R (older ++ [t.item]) ts

/-- The items that are let run, in turn. -/
def admitted (R : α → α → Prop) [DecidableRel R] : List α → List (Ticket α) → List α
  | _, [] => []
  | older, t :: ts =>
    if t.waits = true ∧ ¬∃ a ∈ older, R a t.item then
      t.item :: admitted R (older ++ [t.item]) ts
    else admitted R (older ++ [t.item]) ts

theorem map_item_admitFrom : (admitFrom R older q).map Ticket.item = q.map Ticket.item := by
  induction q generalizing older with
  | nil => rfl
  | cons t ts ih => rw [admitFrom, map_cons, map_cons, ih]

theorem Exclusive.admitFrom (h : Exclusive R older q) : Exclusive R older (admitFrom R older q) := by
  induction q generalizing older with
  | nil => trivial
  | cons t ts ih =>
    refine ⟨fun hruns a ha hconflict => ?_, ih h.2⟩
    rcases Bool.and_eq_false_iff.mp hruns with hruns | hclear
    · exact h.1 hruns a ha hconflict
    · exact of_decide_eq_false hclear ⟨a, ha, hconflict⟩

theorem justified_admitFrom : Justified R older (admitFrom R older q) := by
  induction q generalizing older with
  | nil => trivial
  | cons t ts ih =>
    refine ⟨fun hwaits => ?_, ih⟩
    exact of_decide_eq_true (Bool.and_eq_true_iff.mp hwaits).2

theorem admitted_sublist : (admitted R older q).Sublist (q.map Ticket.item) := by
  induction q generalizing older with
  | nil => exact .slnil
  | cons t ts ih =>
    rw [admitted]
    split
    · exact ih.cons_cons _
    · exact ih.cons _

theorem admitFrom_append :
    admitFrom R older (q₁ ++ q₂) =
      admitFrom R older q₁ ++ admitFrom R (older ++ q₁.map Ticket.item) q₂ := by
  induction q₁ generalizing older with
  | nil => rw [map_nil, append_nil, admitFrom, nil_append, nil_append]
  | cons t ts ih =>
    rw [cons_append, admitFrom, admitFrom, ih, map_cons, append_assoc, cons_append]
    rfl

theorem admitted_append :
    admitted R older (q₁ ++ q₂) =
      admitted R older q₁ ++ admitted R (older ++ q₁.map Ticket.item) q₂ := by
  induction q₁ generalizing older with
  | nil => rw [map_nil, append_nil, admitted, nil_append, nil_append]
  | cons t ts ih =>
    rw [cons_append, admitted, admitted, ih, map_cons, append_assoc]
    split
    · rfl
    · rfl

/-- Where each item that waits has its reason, nothing changes. -/
theorem Justified.admitFrom_eq (h : Justified R older q) : admitFrom R older q = q := by
  induction q generalizing older with
  | nil => rfl
  | cons t ts ih =>
    have hwaits : (t.waits && decide (∃ a ∈ older, R a t.item)) = t.waits := by
      cases hw : t.waits with
      | true => exact decide_eq_true (h.1 hw)
      | false => rfl
    rw [admitFrom, ih h.2, hwaits]

theorem Justified.admitted_eq_nil (h : Justified R older q) : admitted R older q = [] := by
  induction q generalizing older with
  | nil => rfl
  | cons t ts ih =>
    rw [admitted, if_neg fun hadmit => hadmit.2 (h.1 hadmit.1)]
    exact ih h.2

/-- What is let run has waited, and no item before it conflicts with it. -/
theorem clear_of_admitted (hx : x ∈ admitted R older q) :
    ∃ q₁ q₂, q = q₁ ++ ⟨x, true⟩ :: q₂ ∧ ∀ a ∈ older ++ q₁.map Ticket.item, ¬R a x := by
  induction q generalizing older with
  | nil => cases hx
  | cons t ts ih =>
    have hrest (hx : x ∈ admitted R (older ++ [t.item]) ts) :
        ∃ q₁ q₂, t :: ts = q₁ ++ ⟨x, true⟩ :: q₂ ∧
          ∀ a ∈ older ++ q₁.map Ticket.item, ¬R a x := by
      obtain ⟨q₁, q₂, rfl, hclear⟩ := ih hx
      refine ⟨t :: q₁, q₂, rfl, ?_⟩
      rw [map_cons, ← append_cons] at *
      exact hclear
    rw [admitted] at hx
    split at hx
    · next hadmit =>
      rcases mem_cons.mp hx with rfl | hx
      · refine ⟨[], ts, ?_, ?_⟩
        · rw [nil_append, ← hadmit.1]
        · rw [map_nil, append_nil]
          exact fun a ha hconflict => hadmit.2 ⟨a, ha, hconflict⟩
      · exact hrest hx
    · exact hrest hx

/-- An item runs when it has run before or is let run. -/
theorem running_admitFrom (x : α) : x ∈ running (admitFrom R older q) ↔ x ∈ running q ∨ x ∈ admitted R older q := by
  induction q generalizing older with
  | nil => simp [running, admitFrom, admitted]
  | cons t ts ih =>
    have hcons (t : Ticket α) (ts : List (Ticket α)) :
        running (t :: ts) = if t.waits then running ts else t.item :: running ts := by
      unfold running
      cases h : t.waits with
      | true => simp [h]
      | false => simp [h]
    rw [admitFrom, admitted, hcons, hcons]
    cases hwaits : t.waits with
    | true =>
      by_cases hconflict : ∃ a ∈ older, R a t.item
      · simp [hconflict, ih]
      · simp only [hconflict, decide_false, Bool.and_false, Bool.false_eq_true, if_false,
          not_false_eq_true, and_self, if_true, mem_cons, ih]
        tauto
    | false => simp [ih, or_assoc]

end Admit

end Osf1.Computation
