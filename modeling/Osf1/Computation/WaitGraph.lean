import Mathlib

/-!
# Wait-for graphs

A relation "waits for" is acyclic if nobody waits for himself through any number of others. Dropping edges
keeps a relation acyclic, and so does a new edge from a node that its target does not lead to.
-/

set_option autoImplicit false

namespace Osf1.Computation

open Relation Option

variable {α : Type*} {r r' : α → α → Prop} {a b : α} {f : α → Option α} {l : List α}

/-- Nobody waits for himself through any number of others. -/
def Acyclic (r : α → α → Prop) : Prop := ∀ a, ¬TransGen r a a

theorem Acyclic.mono (h : Acyclic r) (hsub : ∀ a b, r' a b → r a b) : Acyclic r' :=
  fun a hcycle => h a (TransGen.mono hsub a a hcycle)

/-- A path that may use one new edge either does without it, or leads to its source and from
its target. -/
theorem transGen_insert (hsub : ∀ x y, r' x y → r x y ∨ (x = a ∧ y = b)) {x y : α} (h : TransGen r' x y) :
    TransGen r x y ∨ (ReflTransGen r x a ∧ ReflTransGen r b y) := by
  induction h with
  | single hxy =>
    rcases hsub _ _ hxy with hr | ⟨rfl, rfl⟩
    · exact .inl (.single hr)
    · exact .inr ⟨.refl, .refl⟩
  | tail _ hyz ih =>
    rcases hsub _ _ hyz with hr | ⟨rfl, rfl⟩
    · rcases ih with hxy | hvia
      · exact .inl (hxy.tail hr)
      · exact .inr ⟨hvia.1, hvia.2.tail hr⟩
    · rcases ih with hxy | hvia
      · exact .inr ⟨hxy.to_reflTransGen, .refl⟩
      · exact .inr ⟨hvia.1, .refl⟩

/-- A new edge closes no cycle if its target does not lead to its source. -/
theorem Acyclic.insert (h : Acyclic r) (hsub : ∀ x y, r' x y → r x y ∨ (x = a ∧ y = b)) (hno : ¬ReflTransGen r b a) :
    Acyclic r' := by
  intro x hcycle
  rcases transGen_insert hsub hcycle with hr | hvia
  · exact h x hr
  · exact hno (hvia.2.trans hvia.1)

/-- Follow the edges of a partial function for a number of steps. -/
def follow (f : α → Option α) : ℕ → α → Option α
  | 0, a => some a
  | n + 1, a => (f a).bind (follow f n)

theorem follow_add (f : α → Option α) (m n : ℕ) (a : α) :
    follow f (m + n) a = (follow f m a).bind (follow f n) := by
  induction m generalizing a with
  | zero => simp [follow]
  | succ m ih =>
    rw [Nat.succ_add, follow, follow, bind_assoc]
    exact bind_congr fun b _ => ih b

/-- Following edges leads along a path. -/
theorem transGen_of_follow {n : ℕ} (h : follow f (n + 1) a = some b) : TransGen (fun x y => f x = some y) a b := by
  induction n generalizing a with
  | zero =>
    obtain ⟨c, hc, hb⟩ := bind_eq_some_iff.mp h
    cases hb
    exact .single hc
  | succ n ih =>
    obtain ⟨c, hc, hb⟩ := bind_eq_some_iff.mp h
    exact .head hc (ih hb)

/-- A path that stays within a list and is longer than it comes back to where it was. -/
theorem exists_follow_repeat [DecidableEq α] (h : ∀ i ≤ l.length, ∃ b ∈ l, follow f i a = some b) :
    ∃ i j, i < j ∧ j ≤ l.length ∧ follow f i a = follow f j a := by
  have hcard : (l.toFinset.image some).card < (Finset.range (l.length + 1)).card := by
    rw [Finset.card_range]
    have h1 : (l.toFinset.image some).card ≤ l.toFinset.card := Finset.card_image_le
    have h2 := List.toFinset_card_le l
    omega
  have hmaps : ∀ i ∈ Finset.range (l.length + 1), follow f i a ∈ l.toFinset.image some := by
    intro i hi
    obtain ⟨b, hb, hfb⟩ := h i (by simpa [Nat.lt_succ_iff] using hi)
    rw [hfb, Finset.mem_image]
    exact ⟨b, List.mem_toFinset.mpr hb, rfl⟩
  obtain ⟨i, hi, j, hj, hne, heq⟩ := Finset.exists_ne_map_eq_of_card_lt_of_maps_to hcard hmaps
  rw [Finset.mem_range] at hi hj
  rcases Nat.lt_or_gt_of_ne hne with hlt | hlt
  · exact ⟨i, j, hlt, by omega, heq⟩
  · exact ⟨j, i, hlt, by omega, heq.symm⟩

/-- Once a path has come back it visits nothing new. -/
theorem follow_of_repeat {i j : ℕ} (hij : i < j)
    (heq : follow f i a = follow f j a) (m : ℕ) : ∃ k < j, follow f k a = follow f m a := by
  induction m using Nat.strong_induction_on with
  | _ m ih =>
    by_cases hm : m < j
    · exact ⟨m, hm, rfl⟩
    · obtain ⟨k, rfl⟩ : ∃ k, m = j + k := ⟨m - j, by omega⟩
      obtain ⟨k', hk', hfk⟩ := ih (i + k) (by omega)
      refine ⟨k', hk', ?_⟩
      rw [hfk, follow_add, follow_add, heq]

/-- In an acyclic graph a path ends within as many steps as there are nodes with an edge. -/
theorem Acyclic.follow_ends [DecidableEq α]
    (h : Acyclic fun x y => f x = some y) (hdom : ∀ x y, f x = some y → x ∈ l) (a : α) :
    follow f (l.length + 1) a = none := by
  by_contra hne
  obtain ⟨c, hc⟩ := ne_none_iff_exists'.mp hne
  have hvisit : ∀ i ≤ l.length, ∃ b ∈ l, follow f i a = some b := by
    intro i hi
    obtain ⟨k, hk⟩ : ∃ k, l.length + 1 = i + (k + 1) := ⟨l.length - i, by omega⟩
    rw [hk, follow_add] at hc
    obtain ⟨b, hb, hrest⟩ := bind_eq_some_iff.mp hc
    obtain ⟨d, hd, -⟩ := bind_eq_some_iff.mp hrest
    exact ⟨b, hdom b d hd, hb⟩
  obtain ⟨i, j, hij, hj, heq⟩ := exists_follow_repeat hvisit
  obtain ⟨b, -, hb⟩ := hvisit i (by omega)
  obtain ⟨k, rfl⟩ : ∃ k, j = i + (k + 1) := ⟨j - i - 1, by omega⟩
  rw [follow_add, hb, bind_some] at heq
  exact h b (transGen_of_follow heq.symm)

end Osf1.Computation
