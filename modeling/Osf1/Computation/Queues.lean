import Mathlib

/-!
# Exclusive queues

A family of queues such that an element is in at most one of them, and only once.  `w` says in which
one an element is.
-/

set_option autoImplicit false

namespace Osf1.Computation.Queues

open Function

variable {K B : Type*}

/-- An element is in the queue that it is said to be in, once, and in no other. -/
structure Placed (q : K → List B) (w : B → Option K) : Prop where
  nodup : ∀ k, (q k).Nodup
  mem : ∀ k b, b ∈ q k ↔ w b = some k

variable {q : K → List B} {w w' : B → Option K} {b : B} {k : K}

theorem Placed.congr (h : Placed q w) (hw : ∀ b, w' b = w b) : Placed q w' :=
  ⟨h.nodup, fun k b => by rw [hw, h.mem]⟩

theorem placed_empty : Placed (fun _ : K => ([] : List B)) fun _ => none :=
  ⟨fun _ => List.nodup_nil, fun k b => by simp⟩

/-- An element that is in no queue is not in this one. -/
theorem Placed.notMem (h : Placed q w) (hb : w b = none) : b ∉ q k := by
  rw [h.mem, hb]
  exact Option.some_ne_none k ∘ Eq.symm

section Operations

variable [DecidableEq B]

/-- An element is taken out of the queue that it is in. -/
theorem Placed.remove (h : Placed q w) : Placed (fun k => (q k).erase b) (update w b none) := by
  refine ⟨fun k => (h.nodup k).erase b, fun k c => ?_⟩
  by_cases hc : c = b
  · rw [hc, update_self]
    exact iff_of_false (h.nodup k).not_mem_erase (Option.some_ne_none k ∘ Eq.symm)
  · rw [update_of_ne hc, List.mem_erase_of_ne hc, h.mem]

variable [DecidableEq K]

/-- An element that is in no queue is put into one, wherever in it. -/
theorem Placed.insert (h : Placed q w) (hb : w b = none) {l : List B} (hl : l.Perm (b :: q k)) :
    Placed (update q k l) (update w b (some k)) := by
  have hnot : b ∉ q k := h.notMem hb
  refine ⟨fun k' => ?_, fun k' c => ?_⟩
  · by_cases hk : k' = k
    · rw [hk, update_self]
      exact hl.nodup_iff.mpr (List.nodup_cons.mpr ⟨hnot, h.nodup k⟩)
    · rw [update_of_ne hk]
      exact h.nodup k'
  · by_cases hk : k' = k
    · rw [hk, update_self, hl.mem_iff, List.mem_cons, h.mem]
      by_cases hc : c = b
      · simp [hc]
      · rw [update_of_ne hc]
        exact or_iff_right hc
    · rw [update_of_ne hk, h.mem]
      by_cases hc : c = b
      · rw [hc, update_self, hb]
        exact iff_of_false (Option.some_ne_none k' ∘ Eq.symm) fun heq => hk (Option.some_inj.mp heq).symm
      · rw [update_of_ne hc]

theorem Placed.pushFront (h : Placed q w) (hb : w b = none) :
    Placed (update q k (b :: q k)) (update w b (some k)) :=
  h.insert hb (List.Perm.refl _)

theorem Placed.pushBack (h : Placed q w) (hb : w b = none) :
    Placed (update q k (q k ++ [b])) (update w b (some k)) :=
  h.insert hb (List.perm_append_singleton ..)

end Operations

end Osf1.Computation.Queues

/-!
## Arrays of queues

The first queues of a sequence are the buckets of a priority queue.
-/

namespace Osf1.Computation.Buckets

open Function

variable {B : Type*} {q : ℕ → List B} {i j k n : ℕ} {b : B} {l : List B}

/-- How many elements the first `n` queues hold. -/
def total (n : ℕ) (q : ℕ → List B) : ℕ := ∑ i ∈ Finset.range n, (q i).length

/-- The first of the `n` queues from `i` on that is not empty. -/
def firstFrom (q : ℕ → List B) : ℕ → ℕ → Option ℕ
  | _, 0 => none
  | i, n + 1 => if q i ≠ [] then some i else firstFrom q (i + 1) n

theorem firstFrom_some (h : firstFrom q i n = some j) :
    i ≤ j ∧ j < i + n ∧ q j ≠ [] ∧ ∀ k, i ≤ k → k < j → q k = [] := by
  induction n generalizing i with
  | zero => cases h
  | succ n ih =>
    rw [firstFrom] at h
    split at h
    · rename_i hne
      obtain rfl := Option.some.inj h
      exact ⟨le_rfl, by omega, hne, fun k hik hki => by omega⟩
    · rename_i hempty
      obtain ⟨hle, hlt, hne, hbetween⟩ := ih h
      refine ⟨by omega, by omega, hne, ?_⟩
      intro k hik hkj
      by_cases hk : k = i
      · rw [hk]
        exact not_not.mp hempty
      · exact hbetween k (by omega) hkj

theorem firstFrom_none (h : firstFrom q i n = none) : ∀ k, i ≤ k → k < i + n → q k = [] := by
  induction n generalizing i with
  | zero => exact fun k hik hki => by omega
  | succ n ih =>
    rw [firstFrom] at h
    split at h
    · cases h
    · rename_i hempty
      intro k hik hki
      by_cases hk : k = i
      · rw [hk]
        exact not_not.mp hempty
      · exact ih h k (by omega) (by omega)

/-- One queue has changed its length. -/
theorem total_update (q : ℕ → List B) (hi : i < n) (l : List B) :
    total n (update q i l) + (q i).length = total n q + l.length := by
  have hmem : i ∈ Finset.range n := Finset.mem_range.mpr hi
  have hsum (q : ℕ → List B) : total n q = (q i).length + ∑ j ∈ (Finset.range n).erase i, (q j).length :=
    (Finset.add_sum_erase _ _ hmem).symm
  have hrest : ∑ j ∈ (Finset.range n).erase i, (update q i l j).length =
      ∑ j ∈ (Finset.range n).erase i, (q j).length := by
    apply Finset.sum_congr rfl
    intro j hj
    rw [update_of_ne (Finset.ne_of_mem_erase hj)]
  rw [hsum, hsum q, hrest, update_self]
  omega

/-- Nothing is counted exactly when the queues are empty. -/
theorem total_eq_zero_iff : total n q = 0 ↔ ∀ i < n, q i = [] := by
  simp only [total, Finset.sum_eq_zero_iff, Finset.mem_range, List.length_eq_zero_iff]

/-- One queue holds no more than all of them. -/
theorem length_le_total (hi : i < n) : (q i).length ≤ total n q := by
  have hle (f : ℕ → ℕ) : f i ≤ ∑ k ∈ Finset.range n, f k :=
    Finset.single_le_sum (fun k _ => Nat.zero_le (f k)) (Finset.mem_range.mpr hi)
  exact hle fun k => (q k).length

/-- How many elements the queues from `i` on and below `n` hold. -/
def totalFrom (i n : ℕ) (q : ℕ → List B) : ℕ := ∑ k ∈ Finset.Ico i n, (q k).length

theorem totalFrom_eq_zero (h : n ≤ i) : totalFrom i n q = 0 := by
  rw [totalFrom, Finset.Ico_eq_empty_of_le h, Finset.sum_empty]

/-- The first of the queues apart from the others. -/
theorem totalFrom_eq_add (h : i < n) : totalFrom i n q = (q i).length + totalFrom (i + 1) n q :=
  Finset.sum_eq_sum_Ico_succ_bot h _

theorem totalFrom_mono {q' : ℕ → List B} (h : ∀ k, i ≤ k → (q k).length ≤ (q' k).length) :
    totalFrom i n q ≤ totalFrom i n q' :=
  Finset.sum_le_sum fun k hk => h k (Finset.mem_Ico.mp hk).1

/-- The queues in front that are empty do not count. -/
theorem total_eq_totalFrom (h : ∀ k < i, q k = []) : total n q = totalFrom i n q := by
  apply (Finset.sum_subset ?_ ?_).symm
  · intro k hk
    exact Finset.mem_range.mpr (Finset.mem_Ico.mp hk).2
  · intro k hk hnot
    have hki : k < i := by
      by_contra hle
      exact hnot (Finset.mem_Ico.mpr ⟨not_lt.mp hle, Finset.mem_range.mp hk⟩)
    rw [h k hki, List.length_nil]

/-- What the first `n` queues hold, in their order. -/
def contents (n : ℕ) (q : ℕ → List B) : List B := (List.range n).flatMap q

theorem contents_eq_nil (h : ∀ k < n, q k = []) : contents n q = [] :=
  List.flatMap_eq_nil_iff.mpr fun k hk => h k (List.mem_range.mp hk)

/-- The head of the first queue that is not empty comes first. -/
theorem contents_eq_cons (hi : i < n) (hempty : ∀ k < i, q k = []) (hq : q i = b :: l) :
    contents n q = b :: contents n (update q i l) := by
  induction n with
  | zero => cases hi
  | succ n ih =>
    have hsucc (q : ℕ → List B) : contents (n + 1) q = contents n q ++ q n := by simp [contents, List.range_succ]
    rw [hsucc, hsucc]
    by_cases hn : i = n
    · subst hn
      have hother (k : ℕ) (hk : k < i) : update q i l k = [] := (update_of_ne hk.ne ..).trans (hempty k hk)
      rw [contents_eq_nil hempty, contents_eq_nil hother, update_self, hq]
      rfl
    · rw [ih (by omega), update_of_ne (Ne.symm hn)]
      rfl

end Osf1.Computation.Buckets

/-!
## Sweeps round a ring

A writer goes round a ring of places and stamps each place it comes to.
-/

namespace Osf1.Computation

open Function

/-- Round the ring from `c`, the writer comes to `l` no later than to `m`. -/
def NoLater (c l m : ℕ) : Prop := (c ≤ l ∧ (m < c ∨ l ≤ m)) ∨ (l < c ∧ m < c ∧ l ≤ m)

/-- The first place from `c` on. -/
structure NextPlace (place : ℕ → Prop) (c n : ℕ) : Prop where
  isPlace : place n
  first : ∀ m, place m → NoLater c n m

/-- The places with a stamp of at least `s` are the last ones from `c` on. -/
def Trailing (place : ℕ → Prop) (stamp : ℕ → ℤ) (s : ℤ) (c : ℕ) : Prop :=
  ∀ l m, place l → place m → NoLater c l m → s ≤ stamp l → s ≤ stamp m

variable {place place' : ℕ → Prop} {stamp : ℕ → ℤ} {s : ℤ} {c n : ℕ}

/-- What is not a place is passed by. -/
theorem NextPlace.skip (hc : ¬ place c) (h : NextPlace place (c + 1) n) : NextPlace place c n where
  isPlace := h.isPlace
  first m hm := by
    have hmc : m ≠ c := fun heq => hc (heq ▸ hm)
    have hlater := h.first m hm
    unfold NoLater at hlater ⊢
    omega

/-- Behind the last place the ring starts again. -/
theorem NextPlace.wrap (hc : ∀ m, place m → m < c) (h : NextPlace place 0 n) : NextPlace place c n where
  isPlace := h.isPlace
  first m hm := by
    have hmc := hc m hm
    have hlater := h.first m hm
    unfold NoLater at hlater ⊢
    omega

theorem NextPlace.refl (hc : place c) : NextPlace place c c where
  isPlace := hc
  first m _ := by
    unfold NoLater
    omega

section

variable (h : Trailing place stamp s c)
include h

/-- The writer goes on to the next place. -/
theorem Trailing.next (hn : NextPlace place c n) : Trailing place stamp s n := by
  intro l m hl hm hlater
  refine h l m hl hm ?_
  have hfl := hn.first l hl
  have hfm := hn.first m hm
  unfold NoLater at hlater hfl hfm ⊢
  omega

/-- When the next place has the update, all places have it. -/
theorem Trailing.all (hn : NextPlace place c n) (hs : s ≤ stamp n) {m : ℕ} (hm : place m) : s ≤ stamp m :=
  h n m hn.isPlace hm (hn.first m hm) hs

/-- The writer stamps the place it is at. -/
theorem Trailing.write {v : ℤ} (hv : s ≤ v) : Trailing place (update stamp c v) s (c + 1) := by
  intro l m hl hm hlater hs
  rcases eq_or_ne m c with rfl | hmc
  · rwa [update_self]
  have hlc : l ≠ c := by
    rintro rfl
    unfold NoLater at hlater
    omega
  rw [update_of_ne hlc] at hs
  rw [update_of_ne hmc]
  refine h l m hl hm ?_ hs
  unfold NoLater at hlater ⊢
  omega

/-- Places go away. -/
theorem Trailing.anti (hsub : ∀ l, place' l → place l) : Trailing place' stamp s c :=
  fun l m hl hm => h l m (hsub l hl) (hsub m hm)

/-- The place that the writer is at is gone. -/
theorem Trailing.gone (hc : ¬ place c) : Trailing place stamp s (c + 1) := by
  intro l m hl hm hlater
  refine h l m hl hm ?_
  have hmc : m ≠ c := fun heq => hc (heq ▸ hm)
  unfold NoLater at hlater ⊢
  omega

/-- Places come that have not the update, each before the places that have it. -/
theorem Trailing.grow {stamp' : ℕ → ℤ} (hold : ∀ l, place l → stamp' l = stamp l)
    (hnew : ∀ l, place' l → ¬ place l → stamp' l < s ∧ ∀ m, place m → s ≤ stamp m → NoLater c l m) :
    Trailing place' stamp' s c := by
  intro l m hl hm hlater hs
  by_cases hpl : place l
  · rw [hold l hpl] at hs
    by_cases hpm : place m
    · rw [hold m hpm]
      exact h l m hpl hpm hlater hs
    · have hback := (hnew m hm hpm).2 l hpl hs
      have hne : l ≠ m := fun heq => hpm (heq ▸ hpl)
      unfold NoLater at hlater hback
      omega
  · exact absurd (hnew l hl hpl).1 (Int.not_lt.mpr hs)

end

/-- No place has an update that is made now. -/
theorem Trailing.of_lt (h : ∀ l, place l → stamp l < s) : Trailing place stamp s c := by
  intro l m hl _ _ hs
  exact absurd (h l hl) (Int.not_lt.mpr hs)

end Osf1.Computation
