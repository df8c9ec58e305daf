import Mathlib

/-!
# Resequencing of pieces

The pieces of an unbounded sequence come in any order, more than once and with overlaps. They are queued in
order and without overlaps: a new piece loses at its front what the piece before it has already, and the
pieces after it lose what the new one has.
-/

set_option autoImplicit false

namespace Osf1.Computation.Resequencing

open List Option

/-- The positions from `start` on, as many as `len` tells, and whether the sequence ends there. -/
structure Piece where
  start : ℕ
  len : ℕ
  last : Bool
deriving DecidableEq

def Piece.stop (p : Piece) : ℕ := p.start + p.len

/-- The pieces are at or beyond a position, in order and without overlaps. -/
def Ordered : ℕ → List Piece → Prop
  | _, [] => True
  | lo, p :: ps => lo ≤ p.start ∧ Ordered p.stop ps

/-- A part of a piece up to its end, not empty unless it is the whole of it. -/
structure Piece.IsPart (a b : Piece) : Prop where
  start_le : b.start ≤ a.start
  stop_eq : a.stop = b.stop
  last_eq : a.last = b.last
  pos : a = b ∨ 0 < a.len

theorem Piece.IsPart.refl (a : Piece) : a.IsPart a := ⟨Nat.le_refl _, rfl, rfl, .inl rfl⟩

/-- The piece without the positions before `n`. -/
def Piece.from (p : Piece) (n : ℕ) : Piece := { p with start := n, len := p.stop - n }

theorem Piece.from_isPart {p : Piece} {n : ℕ} (hlow : p.start ≤ n) (hhigh : n < p.stop) : (p.from n).IsPart p := by
  refine ⟨hlow, ?_, rfl, .inr ?_⟩
  · show n + (p.stop - n) = p.stop
    omega
  · exact Nat.sub_pos_of_lt hhigh

section Queue

/-- What a new piece still has to offer after the one before it. -/
def trimFront (prev : Option Piece) (p : Piece) : Option Piece :=
  match prev with
  | none => some p
  | some q =>
    if p.start < q.stop then
      if p.stop ≤ q.stop then none else some (p.from q.stop)
    else some p

/-- The pieces after a new one that ends at `stop`. -/
def trimFollowing (stop : ℕ) : List Piece → List Piece
  | [] => []
  | q :: qs =>
    if stop ≤ q.start then q :: qs
    else if stop < q.stop then q.from stop :: qs
    else trimFollowing stop qs

/-- The pieces that start no later, and those that start later. -/
def before (p : Piece) (qs : List Piece) : List Piece := qs.takeWhile fun q => q.start ≤ p.start

def after (p : Piece) (qs : List Piece) : List Piece := qs.dropWhile fun q => q.start ≤ p.start

/-- Put a new piece into the queue, unless the piece before it has all of it. -/
def enqueue (qs : List Piece) (p : Piece) : Option (List Piece) :=
  (trimFront (before p qs).getLast? p).map fun p' =>
    before p qs ++ p' :: trimFollowing p'.stop (after p qs)

/-- Take the pieces that continue at `n`: where they end, whether the last one taken was marked,
and what stays queued. -/
def take : ℕ → Bool → List Piece → ℕ × Bool × List Piece
  | n, last, [] => (n, last, [])
  | n, last, p :: ps => if p.start = n then take p.stop p.last ps else (n, last, p :: ps)

end Queue

section Order

variable {lo n : ℕ} {p : Piece} {qs : List Piece} {q : Piece}

theorem Ordered.lo_le (h : Ordered lo qs) (hq : q ∈ qs) : lo ≤ q.start := by
  induction qs generalizing lo with
  | nil => cases hq
  | cons r rs ih =>
    rcases mem_cons.mp hq with hr | hrs
    · exact hr ▸ h.1
    · have hle := ih h.2 hrs
      have hr := h.1
      unfold Piece.stop at hle
      omega

/-- Where a part of the queue that starts at `lo` ends. -/
def endOf : ℕ → List Piece → ℕ
  | lo, [] => lo
  | _, p :: ps => endOf p.stop ps

theorem ordered_append {rs : List Piece} : Ordered lo (qs ++ rs) ↔ Ordered lo qs ∧ Ordered (endOf lo qs) rs := by
  induction qs generalizing lo with
  | nil => exact ⟨fun h => ⟨trivial, h⟩, And.right⟩
  | cons q qs ih =>
    show lo ≤ q.start ∧ Ordered q.stop (qs ++ rs) ↔ (lo ≤ q.start ∧ Ordered q.stop qs) ∧ _
    rw [ih, and_assoc]
    rfl

theorem endOf_eq (lo : ℕ) (qs : List Piece) : endOf lo qs = (qs.getLast?.map Piece.stop).getD lo := by
  induction qs generalizing lo with
  | nil => rfl
  | cons q qs ih =>
    show endOf q.stop qs = _
    rw [ih, getLast?_cons]
    cases qs.getLast? <;> rfl

/-- The scan finds all the pieces that start no later. -/
theorem Ordered.mem_before (h : Ordered lo qs) : q ∈ before p qs ↔ q ∈ qs ∧ q.start ≤ p.start := by
  unfold before
  induction qs generalizing lo with
  | nil => simp
  | cons r rs ih =>
    by_cases hr : r.start ≤ p.start
    · rw [takeWhile_cons_of_pos (by simpa using hr), mem_cons, mem_cons, ih h.2]
      constructor
      · rintro (rfl | ⟨hq, hle⟩)
        · exact ⟨.inl rfl, hr⟩
        · exact ⟨.inr hq, hle⟩
      · rintro ⟨rfl | hq, hle⟩
        · exact .inl rfl
        · exact .inr ⟨hq, hle⟩
    · rw [takeWhile_cons_of_neg (by simpa using hr)]
      constructor
      · intro hq
        cases hq
      · rintro ⟨hq, hle⟩
        exfalso
        have hge : r.start ≤ q.start := by
          rcases mem_cons.mp hq with rfl | hq'
          · exact Nat.le_refl _
          · have := h.2.lo_le hq'
            unfold Piece.stop at this
            omega
        omega

theorem Ordered.mem_after (h : Ordered lo qs) : q ∈ after p qs ↔ q ∈ qs ∧ p.start < q.start := by
  unfold after
  induction qs generalizing lo with
  | nil => simp
  | cons r rs ih =>
    by_cases hr : r.start ≤ p.start
    · rw [dropWhile_cons_of_pos (by simpa using hr), ih h.2, mem_cons]
      constructor
      · rintro ⟨hq, hlt⟩
        exact ⟨.inr hq, hlt⟩
      · rintro ⟨rfl | hq, hlt⟩
        · omega
        · exact ⟨hq, hlt⟩
    · rw [dropWhile_cons_of_neg (by simpa using hr)]
      constructor
      · intro hq
        refine ⟨hq, ?_⟩
        rcases mem_cons.mp hq with rfl | hq'
        · omega
        · have := h.2.lo_le hq'
          unfold Piece.stop at this
          omega
      · exact And.left

theorem before_append_after (p : Piece) (qs : List Piece) : before p qs ++ after p qs = qs :=
  takeWhile_append_dropWhile

end Order

section Enqueue

variable {lo : ℕ} {p p' : Piece} {qs qs' : List Piece} {prev : Option Piece} {b a q : Piece} {stop : ℕ}

theorem trimFront_isPart (hstart : ∀ b, prev = some b → b.start ≤ p.start) (h : trimFront prev p = some p') : p'.IsPart p := by
  unfold trimFront at h
  split at h
  · obtain rfl := some_inj.mp h
    exact .refl p
  · split_ifs at h with hlt hle
    · obtain rfl := some_inj.mp h
      exact Piece.from_isPart (Nat.le_of_lt hlt) (Nat.lt_of_not_le hle)
    · obtain rfl := some_inj.mp h
      exact .refl p

/-- What is left of a new piece starts where the piece before it ends, or later. -/
theorem trimFront_start (h : trimFront prev p = some p') (hb : prev = some b) : b.stop ≤ p'.start := by
  subst hb
  unfold trimFront at h
  simp only at h
  split_ifs at h with hlt hle
  · obtain rfl := some_inj.mp h
    exact Nat.le_refl _
  · obtain rfl := some_inj.mp h
    exact Nat.le_of_not_lt hlt

theorem trimFollowing_ordered (h : Ordered lo qs) : Ordered stop (trimFollowing stop qs) := by
  induction qs generalizing lo with
  | nil => trivial
  | cons q qs ih =>
    unfold trimFollowing
    split_ifs with hle hlt
    · exact ⟨hle, h.2⟩
    · have hstop : (q.from stop).stop = q.stop := (Piece.from_isPart (Nat.le_of_not_le hle) hlt).stop_eq
      refine ⟨Nat.le_refl _, ?_⟩
      rw [hstop]
      exact h.2
    · exact ih h.2

theorem trimFollowing_isPart (ha : a ∈ trimFollowing stop qs) : ∃ q ∈ qs, a.IsPart q := by
  induction qs with
  | nil => cases ha
  | cons q qs ih =>
    unfold trimFollowing at ha
    split_ifs at ha with hle hlt
    · exact ⟨a, ha, .refl a⟩
    · rcases mem_cons.mp ha with rfl | ha'
      · exact ⟨q, mem_cons_self .., Piece.from_isPart (Nat.le_of_not_le hle) hlt⟩
      · exact ⟨a, mem_cons_of_mem _ ha', .refl a⟩
    · obtain ⟨r, hr, hpart⟩ := ih ha
      exact ⟨r, mem_cons_of_mem _ hr, hpart⟩

/-- A later piece that reaches beyond the new one stays, as does an empty one at its end. -/
theorem mem_trimFollowing (hq : q ∈ qs) (hkeep : stop < q.stop ∨ stop ≤ q.start) :
    ∃ a ∈ trimFollowing stop qs, a.last = q.last := by
  induction qs with
  | nil => cases hq
  | cons r rs ih =>
    unfold trimFollowing
    split_ifs with hle hlt
    · exact ⟨q, hq, rfl⟩
    · rcases mem_cons.mp hq with rfl | hq'
      · exact ⟨_, mem_cons_self .., rfl⟩
      · exact ⟨q, mem_cons_of_mem _ hq', rfl⟩
    · rcases mem_cons.mp hq with rfl | hq'
      · omega
      · exact ih hq'

section

variable (hord : Ordered lo qs)
include hord

theorem prev_spec (hb : (before p qs).getLast? = some b) : b ∈ qs ∧ b.start ≤ p.start :=
  hord.mem_before.mp (mem_of_getLast? hb)

/-- A new piece is put into a queue in order. -/
theorem enqueue_ordered (hlo : lo ≤ p.start) (h : enqueue qs p = some qs') : Ordered lo qs' := by
  obtain ⟨p', hp', rfl⟩ := map_eq_some_iff.mp h
  have hpart := trimFront_isPart (fun b hb => (prev_spec hord hb).2) hp'
  rw [← before_append_after p qs, ordered_append] at hord
  rw [ordered_append]
  refine ⟨hord.1, ?_, trimFollowing_ordered hord.2⟩
  rw [endOf_eq]
  cases hb : (before p qs).getLast? with
  | none => exact hlo.trans hpart.start_le
  | some b => exact trimFront_start hp' hb

/-- Every queued piece is part of one that was queued or is new. -/
theorem enqueue_isPart (h : enqueue qs p = some qs') (ha : a ∈ qs') : ∃ b ∈ p :: qs, a.IsPart b := by
  obtain ⟨p', hp', rfl⟩ := map_eq_some_iff.mp h
  rcases mem_append.mp ha with hbefore | hrest
  · exact ⟨a, mem_cons_of_mem _ (hord.mem_before.mp hbefore).1, .refl a⟩
  · rcases mem_cons.mp hrest with rfl | hafter
    · exact ⟨p, mem_cons_self .., trimFront_isPart (fun b hb => (prev_spec hord hb).2) hp'⟩
    · obtain ⟨q, hq, hpart⟩ := trimFollowing_isPart hafter
      exact ⟨q, mem_cons_of_mem _ (hord.mem_after.mp hq).1, hpart⟩

/-- A new piece is dropped only if a piece that starts no later has all of it. -/
theorem enqueue_none (h : enqueue qs p = none) :
    ∃ b ∈ qs, b.start ≤ p.start ∧ p.start < b.stop ∧ p.stop ≤ b.stop := by
  have hfront := map_eq_none_iff.mp h
  unfold trimFront at hfront
  split at hfront
  · cases hfront
  · rename_i b hb
    split_ifs at hfront with hlt hle
    obtain ⟨hmem, hstart⟩ := prev_spec hord hb
    exact ⟨b, hmem, hstart, hlt, hle⟩

/-- The mark of a new piece is queued with it. -/
theorem enqueue_last (h : enqueue qs p = some qs') : ∃ a ∈ qs', a.last = p.last := by
  obtain ⟨p', hp', rfl⟩ := map_eq_some_iff.mp h
  have hpart := trimFront_isPart (fun b hb => (prev_spec hord hb).2) hp'
  exact ⟨p', mem_append_right _ (mem_cons_self ..), hpart.last_eq⟩

/-- A queued piece that the new one does not cover keeps its mark in the queue. -/
theorem enqueue_keeps (h : enqueue qs p = some qs')
    (hq : q ∈ qs) (hkeep : q.start ≤ p.start ∨ p.stop < q.stop ∨ p.stop ≤ q.start) :
    ∃ a ∈ qs', a.last = q.last := by
  obtain ⟨p', hp', rfl⟩ := map_eq_some_iff.mp h
  have hpart := trimFront_isPart (fun b hb => (prev_spec hord hb).2) hp'
  by_cases hstart : q.start ≤ p.start
  · exact ⟨q, mem_append_left _ (hord.mem_before.mpr ⟨hq, hstart⟩), rfl⟩
  · have hafter : q ∈ after p qs := hord.mem_after.mpr ⟨hq, Nat.lt_of_not_le hstart⟩
    have hreach : p'.stop < q.stop ∨ p'.stop ≤ q.start := by
      rw [hpart.stop_eq]
      exact hkeep.resolve_left hstart
    obtain ⟨a, ha, hlast⟩ := mem_trimFollowing hafter hreach
    exact ⟨a, mem_append_right _ (mem_cons_of_mem _ ha), hlast⟩

end

end Enqueue

section Take

variable {n F : ℕ} {last : Bool} {qs : List Piece}

/-- What has been taken only grows, and what stays queued is beyond it. -/
theorem take_ordered (last : Bool) (hord : Ordered n qs) :
    n ≤ (take n last qs).1 ∧ Ordered (take n last qs).1 (take n last qs).2.2 := by
  induction qs generalizing n last with
  | nil => exact ⟨Nat.le_refl _, trivial⟩
  | cons p ps ih =>
    unfold take
    split_ifs with hstart
    · obtain ⟨hle, hrest⟩ := ih p.last hord.2
      refine ⟨?_, hrest⟩
      unfold Piece.stop at hle ⊢
      omega
    · exact ⟨Nat.le_refl _, hord⟩

theorem take_mem {p : Piece} (hp : p ∈ (take n last qs).2.2) : p ∈ qs := by
  induction qs generalizing n last with
  | nil => cases hp
  | cons q qs ih =>
    unfold take at hp
    split_ifs at hp with hstart
    · exact mem_cons_of_mem _ (ih hp)
    · exact hp

/-- What stays queued does not continue what has been taken. -/
theorem take_ne (last : Bool) (hord : Ordered n qs) {p : Piece} (hp : p ∈ (take n last qs).2.2) :
    p.start ≠ (take n last qs).1 := by
  induction qs generalizing n last with
  | nil => cases hp
  | cons q qs ih =>
    unfold take at hp ⊢
    split_ifs at hp ⊢ with hstart
    · exact ih _ hord.2 hp
    · have hq := hord.1
      rcases mem_cons.mp hp with rfl | hp'
      · exact hstart
      · have := hord.2.lo_le hp'
        unfold Piece.stop at this
        omega

theorem take_fst_le {hi : ℕ} (hn : n ≤ hi) (hqs : ∀ p ∈ qs, p.stop ≤ hi) : (take n last qs).1 ≤ hi := by
  induction qs generalizing n last with
  | nil => exact hn
  | cons q qs ih =>
    unfold take
    split_ifs with hstart
    · exact ih (hqs q (mem_cons_self ..)) fun p hp => hqs p (mem_cons_of_mem _ hp)
    · exact hn

/-- Where all that is due is empty nothing is passed over. -/
theorem take_fst_eq (hqs : ∀ p ∈ qs, p.start = n → p.len = 0) : (take n last qs).1 = n := by
  induction qs generalizing last with
  | nil => rfl
  | cons q qs ih =>
    unfold take
    split_ifs with hstart
    · have hstop : q.stop = n := by
        have := hqs q (mem_cons_self ..) hstart
        unfold Piece.stop
        omega
      rw [hstop]
      exact ih fun p hp => hqs p (mem_cons_of_mem _ hp)
    · rfl

/-- The mark is that of a piece of the queue. -/
theorem exists_of_take_last (h : (take n last qs).2.1 = true) : last = true ∨ ∃ p ∈ qs, p.last = true := by
  induction qs generalizing n last with
  | nil => exact .inl h
  | cons q qs ih =>
    unfold take at h
    split_ifs at h with hstart
    · right
      rcases ih h with hq | hp
      · exact ⟨q, mem_cons_self .., hq⟩
      · obtain ⟨p, hp, hlast⟩ := hp
        exact ⟨p, mem_cons_of_mem _ hp, hlast⟩
    · exact .inl h

/-- The pieces of a sequence that ends at `F`: those that are marked end there, none goes beyond,
and the empty ones are marked. -/
structure Fits (F : ℕ) (p : Piece) : Prop where
  stop_le : p.stop ≤ F
  stop_eq : p.last = true → p.stop = F
  empty : p.len = 0 → p.last = true

/-- After a marked piece all the others are empty and marked. -/
theorem take_end (hord : Ordered F qs) (hqs : ∀ p ∈ qs, Fits F p) : take F true qs = (F, true, []) := by
  induction qs with
  | nil => rfl
  | cons p ps ih =>
    have hp := hqs p (mem_cons_self ..)
    have hstop := hp.stop_le
    have hstart := hord.1
    have heq : p.start = F ∧ p.len = 0 := by
      unfold Piece.stop at hstop
      omega
    have hstopF : p.stop = F := by
      unfold Piece.stop
      omega
    unfold take
    rw [if_pos heq.1, hstopF, hp.empty heq.2]
    exact ih (hstopF ▸ hord.2) fun q hq => hqs q (mem_cons_of_mem _ hq)

/-- Either a marked piece has been taken, and with it everything, or all marked pieces stay. -/
theorem take_last (hord : Ordered n qs) (hqs : ∀ p ∈ qs, Fits F p) :
    take n false qs = (F, true, []) ∨
      (take n false qs).2.1 = false ∧ ∀ p ∈ qs, p.last = true → p ∈ (take n false qs).2.2 := by
  induction qs generalizing n with
  | nil => exact .inr ⟨rfl, fun p hp => by cases hp⟩
  | cons q qs ih =>
    have hq := hqs q (mem_cons_self ..)
    have hrest : ∀ p ∈ qs, Fits F p := fun p hp => hqs p (mem_cons_of_mem _ hp)
    unfold take
    split_ifs with hstart
    · cases hlast : q.last with
      | true =>
        left
        have hord' := hord.2
        rw [hq.stop_eq hlast] at hord' ⊢
        exact take_end hord' hrest
      | false =>
        refine (ih hord.2 hrest).imp_right fun h => ⟨h.1, fun p hp hplast => ?_⟩
        rcases mem_cons.mp hp with rfl | hp'
        · rw [hlast] at hplast
          cases hplast
        · exact h.2 p hp' hplast
    · exact .inr ⟨rfl, fun p hp _ => hp⟩

end Take

end Osf1.Computation.Resequencing
