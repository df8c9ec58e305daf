import Mathlib

/-!
# Queues of places in chained blocks

A block at `b` has the places from `b + lo` up to, but without, `b + hi`.  A queue takes its places from a
list of blocks: from some place in the first block on, all of the blocks between, and up to some place of
the last one.
-/

set_option autoImplicit false

namespace Osf1.Computation.BlockQueue

open List

variable {lo hi : ℕ} {f e n a b z : ℕ} {bs : List ℕ}

/-- The places of a queue from `f` in the first block up to `e` in the last one. -/
def places (lo hi : ℕ) : ℕ → List ℕ → ℕ → List ℕ
  | _, [], _ => []
  | f, [_], e => List.range' f (e - f)
  | f, b :: b' :: bs, e => List.range' f (b + hi - f) ++ places lo hi (b' + lo) (b' :: bs) e

/-- The ends of a queue are within its first and its last block, and there is a place between. -/
def Spans (lo hi : ℕ) : ℕ → List ℕ → ℕ → Prop
  | _, [], _ => False
  | f, [b], e => b + lo ≤ f ∧ f < e ∧ e ≤ b + hi
  | f, b :: b' :: bs, e => b + lo ≤ f ∧ f < b + hi ∧ Spans lo hi (b' + lo) (b' :: bs) e

/-- How many places the queue has in its first block. -/
def room (hi : ℕ) (f b : ℕ) (bs : List ℕ) (e : ℕ) : ℕ := if bs = [] then e - f else b + hi - f

section

variable (h : Spans lo hi f (b :: bs) e)
include h

theorem Spans.first : b + lo ≤ f ∧ f < b + hi := by
  cases bs with
  | nil =>
    obtain ⟨hlo, hlt, hhi⟩ := h
    omega
  | cons b' bs => exact ⟨h.1, h.2.1⟩

theorem Spans.room_pos : 0 < room hi f b bs e := by
  unfold room
  cases bs with
  | nil =>
    obtain ⟨hlo, hlt, hhi⟩ := h
    rw [if_pos rfl]
    omega
  | cons b' bs =>
    have := h.2.1
    rw [if_neg (cons_ne_nil _ _)]
    omega

theorem Spans.room_le : f + room hi f b bs e ≤ b + hi := by
  unfold room
  cases bs with
  | nil =>
    obtain ⟨hlo, hlt, hhi⟩ := h
    rw [if_pos rfl]
    omega
  | cons b' bs =>
    have := h.2.1
    rw [if_neg (cons_ne_nil _ _)]
    omega

end

/-- The places in the first block, and the other ones. -/
theorem places_cons : places lo hi f (b :: bs) e =
    List.range' f (room hi f b bs e) ++
      match bs with
      | [] => []
      | b' :: bs' => places lo hi (b' + lo) (b' :: bs') e := by
  cases bs with
  | nil => simp [places, room]
  | cons b' bs => simp [places, room]

/-- Some places are taken from the first block, and it has some left. -/
theorem Spans.advance (h : Spans lo hi f (b :: bs) e) (hn : n < room hi f b bs e) :
    Spans lo hi (f + n) (b :: bs) e ∧
      places lo hi f (b :: bs) e = List.range' f n ++ places lo hi (f + n) (b :: bs) e := by
  have hle := h.room_le
  cases bs with
  | nil =>
    obtain ⟨hlo, hlt, hhi⟩ := h
    have hn' : n < e - f := hn
    refine ⟨⟨by omega, by omega, hhi⟩, ?_⟩
    have hsplit : e - f = n + (e - (f + n)) := by omega
    simp only [places]
    rw [hsplit, ← range'_append_1]
  | cons b' bs =>
    obtain ⟨hlo, hlt, hrest⟩ := h
    refine ⟨⟨by omega, by omega, hrest⟩, ?_⟩
    have hsplit : b + hi - f = n + (b + hi - (f + n)) := by omega
    simp only [places]
    rw [hsplit, ← range'_append_1, append_assoc]

/-- The places of the first block are taken, and the queue goes on in the next one. -/
theorem Spans.next {b' : ℕ} (h : Spans lo hi f (b :: b' :: bs) e) :
    Spans lo hi (b' + lo) (b' :: bs) e ∧
      places lo hi f (b :: b' :: bs) e = List.range' f (b + hi - f) ++ places lo hi (b' + lo) (b' :: bs) e :=
  ⟨h.2.2, rfl⟩

/-- The end is in the last block. -/
theorem Spans.last (h : Spans lo hi f (bs ++ [z]) e) : z + lo < e ∧ e ≤ z + hi := by
  induction bs generalizing f with
  | nil =>
    obtain ⟨hlo, hlt, hhi⟩ := h
    exact ⟨by omega, hhi⟩
  | cons b bs ih =>
    cases bs with
    | nil => exact ih h.2.2
    | cons b' bs => exact ih h.2.2

/-- What happens at the end of a queue is the same behind more blocks. -/
theorem Spans.behind {d : ℕ} {w v k l : List ℕ} (h : Spans lo hi f (bs ++ z :: w) e)
    (hend : ∀ f, Spans lo hi f (z :: w) e → Spans lo hi f (z :: v) d ∧
      places lo hi f (z :: v) d ++ k = places lo hi f (z :: w) e ++ l) :
    Spans lo hi f (bs ++ z :: v) d ∧
      places lo hi f (bs ++ z :: v) d ++ k = places lo hi f (bs ++ z :: w) e ++ l := by
  induction bs generalizing f with
  | nil => exact hend f h
  | cons b bs ih =>
    cases bs <;>
    · obtain ⟨hspans, hplaces⟩ := ih h.2.2
      refine ⟨⟨h.1, h.2.1, hspans⟩, ?_⟩
      simp only [cons_append, nil_append, places] at hplaces ⊢
      rw [append_assoc, append_assoc, hplaces]

/-- The end is in front of a place if the queue is. -/
theorem Spans.extend (h : Spans lo hi f (bs ++ [z]) e) (hn : e + n ≤ z + hi) :
    Spans lo hi f (bs ++ [z]) (e + n) ∧
      places lo hi f (bs ++ [z]) (e + n) = places lo hi f (bs ++ [z]) e ++ List.range' e n := by
  rw [← append_nil (places lo hi f (bs ++ [z]) (e + n))]
  apply h.behind
  rintro f ⟨hlo, hlt, hhi⟩
  refine ⟨⟨hlo, by omega, hn⟩, ?_⟩
  have hsplit : e + n - f = (e - f) + n := by omega
  simp only [places, append_nil]
  rw [hsplit, ← range'_append_1]
  congr 2
  omega

/-- The queue goes on in a new block when the last one is full. -/
theorem Spans.grow {y : ℕ} (h : Spans lo hi f (bs ++ [z]) (z + hi)) (hn : 0 < n) (hhi : lo + n ≤ hi) :
    Spans lo hi f (bs ++ [z] ++ [y]) (y + lo + n) ∧
      places lo hi f (bs ++ [z] ++ [y]) (y + lo + n) =
        places lo hi f (bs ++ [z]) (z + hi) ++ List.range' (y + lo) n := by
  rw [← append_nil (places lo hi f (bs ++ [z] ++ [y]) _), append_assoc]
  apply h.behind
  rintro f ⟨hlo, hlt, -⟩
  refine ⟨⟨hlo, hlt, by omega, by omega, by omega⟩, ?_⟩
  simp [places, Nat.add_sub_cancel_left]

/-- The last place is given back, and the last block has some left. -/
theorem Spans.retract (h : Spans lo hi f (bs ++ [z]) (e + 1)) (hmore : bs = [] → f < e)
    (hlast : bs ≠ [] → z + lo < e) :
    Spans lo hi f (bs ++ [z]) e ∧
      places lo hi f (bs ++ [z]) (e + 1) = places lo hi f (bs ++ [z]) e ++ [e] := by
  have hspans : Spans lo hi f (bs ++ [z]) e := by
    induction bs generalizing f with
    | nil =>
      obtain ⟨hlo, hlt, hhi⟩ := h
      exact ⟨hlo, hmore rfl, by omega⟩
    | cons b bs ih =>
      have hz := hlast (cons_ne_nil _ _)
      cases bs with
      | nil => exact ⟨h.1, h.2.1, ih h.2.2 (fun _ => hz) (fun hne => absurd rfl hne)⟩
      | cons b' bs => exact ⟨h.1, h.2.1, ih h.2.2 nofun (fun _ => hz)⟩
  exact ⟨hspans, (hspans.extend h.last.2).2⟩

/-- The last place is the only one in the last block, which is given back. -/
theorem Spans.shrink {y : ℕ} (h : Spans lo hi f (bs ++ [z] ++ [y]) (y + lo + 1)) :
    Spans lo hi f (bs ++ [z]) (z + hi) ∧
      places lo hi f (bs ++ [z] ++ [y]) (y + lo + 1) =
        places lo hi f (bs ++ [z]) (z + hi) ++ [y + lo] := by
  rw [append_assoc] at h ⊢
  have hend := h.behind (d := z + hi) (v := []) (k := [y + lo]) (l := []) fun f hspans => by
    obtain ⟨hlo, hlt, -⟩ := hspans
    exact ⟨⟨hlo, by omega, le_rfl⟩, by simp [places]⟩
  exact ⟨hend.1, by simpa using hend.2.symm⟩

/-- Every place is in a block of the queue. -/
theorem Spans.mem (h : Spans lo hi f bs e) (ha : a ∈ places lo hi f bs e) : ∃ b ∈ bs, b + lo ≤ a ∧ a < b + hi := by
  induction bs generalizing f with
  | nil => cases ha
  | cons b bs ih =>
    cases bs with
    | nil =>
      obtain ⟨hlo, hlt, hhi⟩ := h
      have hin := mem_range'_1.mp ha
      exact ⟨b, mem_cons_self .., by omega, by omega⟩
    | cons b' bs =>
      obtain ⟨hlo, hlt, hrest⟩ := h
      rcases mem_append.mp ha with hfirst | hother
      · have hin := mem_range'_1.mp hfirst
        exact ⟨b, mem_cons_self .., by omega, by omega⟩
      · obtain ⟨b'', hmem, hbounds⟩ := ih hrest hother
        exact ⟨b'', mem_cons_of_mem _ hmem, hbounds⟩

/-- Blocks that have no place in common. -/
def Apart (hi : ℕ) (bs : List ℕ) : Prop := bs.Pairwise fun b b' => b + hi ≤ b' ∨ b' + hi ≤ b

/-- No place is taken twice. -/
theorem Spans.nodup (h : Spans lo hi f bs e) (hbs : Apart hi bs) : (places lo hi f bs e).Nodup := by
  induction bs generalizing f with
  | nil => exact nodup_nil
  | cons b bs ih =>
    cases bs with
    | nil => exact nodup_range'
    | cons b' bs =>
      obtain ⟨hlo, hlt, hrest⟩ := h
      obtain ⟨hb, hapart⟩ := pairwise_cons.mp hbs
      refine nodup_append.mpr ⟨nodup_range', ih hrest hapart, ?_⟩
      rintro a hfirst _ hother rfl
      have hin := mem_range'_1.mp hfirst
      obtain ⟨b'', hmem, hbounds⟩ := hrest.mem hother
      have := hb b'' hmem
      omega

/-- The last place is the one in front of the end. -/
theorem Spans.getLast? (h : Spans lo hi f bs e) : (places lo hi f bs e).getLast? = some (e - 1) := by
  induction bs generalizing f with
  | nil => exact h.elim
  | cons b bs ih =>
    cases bs with
    | nil =>
      obtain ⟨hlo, hlt, hhi⟩ := h
      have hlen : e - f = (e - 1 - f) + 1 := by omega
      have hlast : f + (e - 1 - f) = e - 1 := by omega
      rw [places, hlen, range'_concat, getLast?_concat, Nat.one_mul, hlast]
    | cons b' bs =>
      rw [places, getLast?_append, ih h.2.2]
      rfl

end Osf1.Computation.BlockQueue
