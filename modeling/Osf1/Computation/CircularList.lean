import Mathlib

/-!
# Circular doubly linked lists

A list of nodes is linked in both directions, and its last node leads to the first one.  This file
says what following the links meets, what turning the anchor does, and what taking a node out and
putting one in front of the anchor does to the list and to the others.
-/

set_option autoImplicit false

namespace Osf1.Computation

open Function List

variable {ι : Type*} {next prev next' prev' : ι → ι} {a e x y z : ι} {l l' m : List ι} {u : ι}

/-- From `x` the links lead through the nodes of a list to `y`, and back. -/
def Path (next prev : ι → ι) (x : ι) : List ι → ι → Prop
  | [], y => next x = y ∧ prev y = x
  | z :: l, y => (next x = z ∧ prev z = x) ∧ Path next prev z l y

instance decidablePath [DecidableEq ι] (next prev : ι → ι) :
    ∀ (x : ι) (l : List ι) (y : ι), Decidable (Path next prev x l y)
  | x, [], y => inferInstanceAs (Decidable (next x = y ∧ prev y = x))
  | x, z :: l, y =>
    have := decidablePath next prev z l y
    inferInstanceAs (Decidable ((next x = z ∧ prev z = x) ∧ Path next prev z l y))

theorem path_append : Path next prev x (l ++ z :: l') y ↔ Path next prev x l z ∧ Path next prev z l' y := by
  induction l generalizing x with
  | nil => rfl
  | cons w l ih => exact (and_congr_right fun _ => ih).trans and_assoc.symm

/-- The link back from the end of a path. -/
theorem Path.prev_eq (h : Path next prev x l y) : prev y = (x :: l).getLast (List.cons_ne_nil _ _) := by
  induction l generalizing x with
  | nil => exact h.2
  | cons w l ih => exact ih h.2

/-- The link from the start of a path. -/
theorem Path.next_eq (h : Path next prev x l y) : (l ++ [y]).head? = some (next x) := by
  cases l with
  | nil => exact congrArg some h.1.symm
  | cons w l => exact congrArg some h.1.1.symm

/-- The link from the end of the first part of a path. -/
theorem Path.next_getLast (h : Path next prev x (l ++ l') y) :
    (l' ++ [y]).head? = some (next ((x :: l).getLast (List.cons_ne_nil _ _))) := by
  induction l generalizing x with
  | nil => exact h.next_eq
  | cons w l ih =>
    exact ih h.2

/-- A path whose own links are the same, but whose end is another one. -/
theorem Path.retarget (h : Path next prev x l y) (hnodup : (x :: l).Nodup)
    (hnext : ∀ u ∈ x :: l, u ≠ prev y → next' u = next u) (hend : next' (prev y) = z)
    (hprev : ∀ u ∈ l, prev' u = prev u) (hback : prev' z = prev y) : Path next' prev' x l z := by
  induction l generalizing x with
  | nil =>
    have hx : prev y = x := h.2
    rw [hx] at hend hback
    exact ⟨hend, hback⟩
  | cons w l ih =>
    have hnodup' := nodup_cons.mp hnodup
    have hx : x ≠ prev y := by
      rintro rfl
      have hlast := h.2.prev_eq
      exact hnodup'.1 (hlast ▸ getLast_mem _)
    refine ⟨⟨?_, ?_⟩, ih h.2 hnodup'.2 (fun u hu => hnext u (mem_cons_of_mem _ hu))
      fun u hu => hprev u (mem_cons_of_mem _ hu)⟩
    · rw [hnext x (mem_cons_self ..) hx]
      exact h.1.1
    · rw [hprev w (mem_cons_self ..)]
      exact h.1.2

/-- The anchor and the nodes that follow it are a circular list without repetition. -/
structure Circular (next prev : ι → ι) (a : ι) (m : List ι) : Prop where
  path : Path next prev a m a
  nodup : (a :: m).Nodup

/-- The anchor moves on to the next node. -/
theorem Circular.turn (h : Circular next prev a (x :: m)) : Circular next prev x (m ++ [a]) where
  path := path_append.mpr ⟨h.path.2, h.path.1⟩
  nodup := (perm_append_singleton a (x :: m)).nodup_iff.mpr h.nodup

/-- The anchor moves back to the last node. -/
theorem Circular.turnBack (h : Circular next prev a (m ++ [x])) : Circular next prev x (a :: m) where
  path := by
    obtain ⟨hm, hx⟩ := path_append.mp h.path
    exact ⟨hx, hm⟩
  nodup := (perm_append_singleton x (a :: m)).symm.nodup_iff.mpr h.nodup

section

variable (h : Circular next prev a m)
include h

/-- The link back from a node is to the one in front of it. -/
theorem Circular.prev_eq {l₁ l₂ : List ι} (hm : a :: m = l₁ ++ y :: x :: l₂) : prev x = y := by
  match l₁ with
  | [] =>
    obtain ⟨rfl, rfl⟩ := cons_eq_cons.mp hm
    exact h.path.1.2
  | b :: l₁ =>
    obtain ⟨rfl, rfl⟩ := cons_eq_cons.mp hm
    exact (path_append.mp h.path).2.1.2

/-- The link back from the anchor is to the last node. -/
theorem Circular.prev_anchor (hm : a :: m = l ++ [x]) : prev a = x := by
  rw [h.path.prev_eq]
  simp only [hm, getLast_append_singleton]

/-- A node that another one follows is not the last one. -/
theorem Circular.prev_anchor_ne (hm : a :: m = l ++ e :: z :: l') : prev a ≠ e := by
  have hnodup := h.nodup
  rw [hm] at hnodup
  have he : e ∉ z :: l' := (nodup_cons.mp (nodup_append.mp hnodup).2.1).1
  have hlast : prev a = (z :: l').getLast (cons_ne_nil _ _) := by
    rw [h.path.prev_eq]
    simp [hm]
  intro heq
  exact he (heq ▸ hlast ▸ getLast_mem _)

end

/-- Only the links of the nodes on a path count. -/
theorem Path.congr (h : Path next prev x l y) (hnext : ∀ u ∈ x :: l, next' u = next u)
    (hprev : ∀ u ∈ l, prev' u = prev u) (hend : prev' y = prev y) : Path next' prev' x l y := by
  induction l generalizing x with
  | nil => exact ⟨(hnext x (mem_cons_self ..)).trans h.1, hend.trans h.2⟩
  | cons w l ih =>
    refine ⟨⟨?_, ?_⟩, ih h.2 (fun u hu => hnext u (mem_cons_of_mem _ hu))
      fun u hu => hprev u (mem_cons_of_mem _ hu)⟩
    · rw [hnext x (mem_cons_self ..)]
      exact h.1.1
    · rw [hprev w (mem_cons_self ..)]
      exact h.1.2

/-- Only the links of its nodes count for a circular list. -/
theorem Circular.congr (h : Circular next prev a m) (hnext : ∀ u ∈ a :: m, next' u = next u)
    (hprev : ∀ u ∈ a :: m, prev' u = prev u) : Circular next' prev' a m where
  path := h.path.congr hnext (fun u hu => hprev u (mem_cons_of_mem _ hu))
    (hprev a (mem_cons_self ..))
  nodup := h.nodup

/-- The links of a path lead to nodes of the path. -/
theorem Path.next_mem (h : Path next prev x l y) (hu : u ∈ x :: l) : next u ∈ l ++ [y] := by
  induction l generalizing x with
  | nil =>
    rw [mem_singleton.mp hu, h.1]
    exact mem_singleton_self y
  | cons w l ih =>
    rcases mem_cons.mp hu with hux | hu
    · rw [hux, h.1.1]
      exact mem_cons_self ..
    · exact mem_cons_of_mem _ (ih h.2 hu)

theorem Circular.next_mem (h : Circular next prev a m) (hu : u ∈ a :: m) : next u ∈ a :: m :=
  (perm_append_singleton a m).subset (h.path.next_mem hu)

/-- Read backwards, a path is a path of the links the other way round. -/
theorem Path.reverse (h : Path next prev x l y) : Path prev next y l.reverse x := by
  induction l generalizing x with
  | nil => exact ⟨h.2, h.1⟩
  | cons w l ih =>
    rw [reverse_cons]
    exact path_append.mpr ⟨ih h.2, h.1.2, h.1.1⟩

theorem Circular.reverse (h : Circular next prev a m) : Circular prev next a m.reverse where
  path := h.path.reverse
  nodup := ((reverse_perm m).cons a).nodup_iff.mpr h.nodup

theorem Circular.prev_mem (h : Circular next prev a m) (hu : u ∈ a :: m) : prev u ∈ a :: m := by
  have hperm : (a :: m.reverse).Perm (a :: m) := (reverse_perm m).cons a
  exact hperm.subset (h.reverse.next_mem (hperm.symm.subset hu))

section Splice

variable [DecidableEq ι] {m₁ m₂ m' : List ι} {b : ι}

/-- The links after `e` has been taken out. -/
def unlinkNext (next prev : ι → ι) (e : ι) : ι → ι := update next (prev e) (next e)

def unlinkPrev (next prev : ι → ι) (e : ι) : ι → ι := update prev (next e) (prev e)

/-- The links after `e` has been put in front of the anchor. -/
def linkNext (next prev : ι → ι) (a e : ι) : ι → ι := update (update next e a) (prev a) e

def linkPrev (prev : ι → ι) (a e : ι) : ι → ι := update (update prev e (prev a)) a e

theorem unlinkNext_of_ne (hx : x ≠ prev e) : unlinkNext next prev e x = next x := update_of_ne hx ..

theorem unlinkPrev_of_ne (hx : x ≠ next e) : unlinkPrev next prev e x = prev x := update_of_ne hx ..

/-- A node is taken out. -/
theorem Circular.unlink (h : Circular next prev a (m₁ ++ e :: m₂)) :
    Circular (unlinkNext next prev e) (unlinkPrev next prev e) a (m₁ ++ m₂) := by
  obtain ⟨hfront, hback⟩ := path_append.mp h.path
  have hnodup := h.nodup
  rw [← cons_append, nodup_append] at hnodup
  obtain ⟨hnodup₁, hnodup', hdisj⟩ := hnodup
  obtain ⟨-, hnodup₂⟩ := nodup_cons.mp hnodup'
  have hprevMem : prev e ∈ a :: m₁ := hfront.prev_eq ▸ getLast_mem _
  have hsubset : (m₁ ++ m₂).Sublist (m₁ ++ e :: m₂) := (sublist_cons_self e m₂).append_left m₁
  refine ⟨?_, (hsubset.cons_cons a).nodup h.nodup⟩
  cases m₂ with
  | nil =>
    have hea : next e = a := hback.1
    rw [append_nil]
    refine hfront.retarget hnodup₁ (fun u _ hu => unlinkNext_of_ne hu) ?_ (fun u hu => ?_) ?_
    · exact (update_self ..).trans hea
    · refine unlinkPrev_of_ne ?_
      rintro rfl
      exact (nodup_cons.mp hnodup₁).1 (hea ▸ hu)
    · rw [← hea]
      exact update_self ..
  | cons z m₂ =>
    obtain ⟨⟨hez, -⟩, hrest⟩ := hback
    have hne (u : ι) (hu : u ∈ a :: m₁) (v : ι) (hv : v ∈ z :: m₂) : u ≠ v :=
      hdisj u hu v (mem_cons_of_mem _ hv)
    refine path_append.mpr ⟨?_, ?_⟩
    · refine hfront.retarget hnodup₁ (fun u _ hu => unlinkNext_of_ne hu) ?_ (fun u hu => ?_) ?_
      · exact (update_self ..).trans hez
      · exact unlinkPrev_of_ne (hez ▸ hne u (mem_cons_of_mem _ hu) z (mem_cons_self ..))
      · rw [← hez]
        exact update_self ..
    · refine hrest.congr (fun u hu => ?_) (fun u hu => ?_) ?_
      · exact unlinkNext_of_ne (hne _ hprevMem u hu).symm
      · refine unlinkPrev_of_ne ?_
        rintro rfl
        exact (nodup_cons.mp hnodup₂).1 (hez ▸ hu)
      · exact unlinkPrev_of_ne (hez ▸ hne a (mem_cons_self ..) z (mem_cons_self ..))

/-- A circular list that the node is not on is left as it is. -/
theorem Circular.unlink_other (h : Circular next prev a m) (he : e ∈ a :: m)
    (h' : Circular next prev b m') (hdisj : (a :: m).Disjoint (b :: m')) :
    Circular (unlinkNext next prev e) (unlinkPrev next prev e) b m' := by
  refine h'.congr (fun u hu => ?_) fun u hu => ?_
  · refine unlinkNext_of_ne ?_
    rintro rfl
    exact hdisj (h.prev_mem he) hu
  · refine unlinkPrev_of_ne ?_
    rintro rfl
    exact hdisj (h.next_mem he) hu

theorem linkNext_of_ne (ha : x ≠ prev a) (he : x ≠ e) : linkNext next prev a e x = next x :=
  (update_of_ne ha ..).trans (update_of_ne he ..)

theorem linkPrev_of_ne (ha : x ≠ a) (he : x ≠ e) : linkPrev prev a e x = prev x :=
  (update_of_ne ha ..).trans (update_of_ne he ..)

/-- A node is put in front of the anchor. -/
theorem Circular.link (h : Circular next prev a m) (he : e ∉ a :: m) :
    Circular (linkNext next prev a e) (linkPrev prev a e) a (m ++ [e]) := by
  have hlast : prev a ∈ a :: m := h.path.prev_eq ▸ getLast_mem _
  have hea : e ≠ a := fun heq => he (heq ▸ mem_cons_self ..)
  have hue (u : ι) (hu : u ∈ a :: m) : u ≠ e := fun heq => he (heq ▸ hu)
  constructor
  · refine path_append.mpr ⟨?_, ?_, ?_⟩
    · refine h.path.retarget h.nodup (fun u hu hl => ?_) ?_ (fun u hu => ?_) ?_
      · exact linkNext_of_ne hl (hue u hu)
      · exact update_self ..
      · have hua : u ≠ a := fun heq => (nodup_cons.mp h.nodup).1 (heq ▸ hu)
        exact linkPrev_of_ne hua (hue u (mem_cons_of_mem _ hu))
      · unfold linkPrev
        rw [update_of_ne hea, update_self]
    · unfold linkNext
      rw [update_of_ne (hue _ hlast).symm, update_self]
    · exact update_self ..
  · exact ((perm_append_singleton e (a :: m)).nodup_iff).mpr (nodup_cons.mpr ⟨he, h.nodup⟩)

/-- A circular list that has neither the node nor any of the others is left as it is. -/
theorem Circular.link_other (h : Circular next prev a m)
    (h' : Circular next prev b m') (he : e ∉ b :: m') (hdisj : (a :: m).Disjoint (b :: m')) :
    Circular (linkNext next prev a e) (linkPrev prev a e) b m' := by
  have hlast : prev a ∈ a :: m := h.path.prev_eq ▸ getLast_mem _
  have hue (u : ι) (hu : u ∈ b :: m') : u ≠ e := fun heq => he (heq ▸ hu)
  have hother (v : ι) (hv : v ∈ a :: m) (u : ι) (hu : u ∈ b :: m') : u ≠ v := by
    rintro rfl
    exact hdisj hv hu
  refine h'.congr (fun u hu => ?_) fun u hu => ?_
  · exact linkNext_of_ne (hother _ hlast u hu) (hue u hu)
  · exact linkPrev_of_ne (hother a (mem_cons_self ..) u hu) (hue u hu)

/-- A node that is neither the anchor nor the last one is moved in front of the anchor. -/
theorem Circular.splice (h : Circular next prev a (m₁ ++ e :: z :: m₂)) :
    Circular (linkNext (unlinkNext next prev e) (unlinkPrev next prev e) a e)
      (linkPrev (unlinkPrev next prev e) a e) e (a :: m₁ ++ z :: m₂) := by
  have he : e ∉ a :: (m₁ ++ z :: m₂) := by
    have hperm : (a :: (m₁ ++ e :: z :: m₂)).Perm (e :: a :: (m₁ ++ z :: m₂)) :=
      (perm_middle.cons a).trans (.swap e a _)
    exact (nodup_cons.mp (hperm.nodup_iff.mp h.nodup)).1
  exact (h.unlink.link he).turnBack

end Splice

end Osf1.Computation
