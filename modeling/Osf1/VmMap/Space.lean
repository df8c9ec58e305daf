import Osf1.VmMap.Model

/-!
# The search for space

The loop of `vm_map_space` is a first fit from some entry on. The first search starts at the hint of the
caller; the second one starts behind the entries without a hole and ends at that hint.
-/

set_option autoImplicit false

namespace Osf1.VmMap

open Osf1.Computation List

variable {ι : Type} {map : Map ι} {entries l₁ l₂ : List ι} {address size mask hint start : VmOffset} {entry : ι}
  {k : ℕ}

section Masks

variable (hmask : mask.toNat + 1 = 2 ^ k)
include hmask

theorem toNat_and_not (x : VmOffset) : (x &&& ~~~mask).toNat = x.toNat / 2 ^ k * 2 ^ k := by
  have hbit (i : ℕ) : mask.getLsbD i = decide (i < k) := by
    rw [← BitVec.testBit_toNat, show mask.toNat = 2 ^ k - 1 by omega, Nat.testBit_two_pow_sub_one]
  have hshift : x &&& ~~~mask = (x >>> k) <<< k := by
    apply BitVec.eq_of_getLsbD_eq
    intro i hi
    simp only [BitVec.getLsbD_and, BitVec.getLsbD_not, BitVec.getLsbD_shiftLeft, BitVec.getLsbD_ushiftRight, hbit, hi]
    by_cases hik : i < k
    · simp [hik]
    · simp [hik, Nat.add_sub_cancel' (not_lt.mp hik)]
  rw [hshift, BitVec.toNat_shiftLeft, BitVec.toNat_ushiftRight, Nat.shiftRight_eq_div_pow, Nat.shiftLeft_eq]
  exact Nat.mod_eq_of_lt (Nat.lt_of_le_of_lt (Nat.div_mul_le_self ..) x.isLt)

theorem toNat_and_mask (x : VmOffset) : (x &&& mask).toNat = x.toNat % 2 ^ k := by
  rw [BitVec.toNat_and, show mask.toNat = 2 ^ k - 1 by omega, Nat.and_two_pow_sub_one_eq_mod]

theorem toNat_round (hover : start.toNat + mask.toNat < 2 ^ 64) :
    ((start + mask) &&& ~~~mask).toNat = alignUp k start.toNat := by
  rw [toNat_and_not hmask, BitVec.toNat_add, Nat.mod_eq_of_lt hover, alignUp, ← hmask, Nat.add_sub_cancel]

end Masks

/-- A range of the size from `a` on may be given out. -/
structure Fits (map : Map ι) (entries : List ι) (size mask a : VmOffset) : Prop where
  aligned : a &&& mask = 0
  low : map.vmMinOffset ≤ a
  high : a.toNat + size.toNat ≤ map.vmMaxOffset.toNat
  free : Vacant (fun e => (map.vmeStart e).toNat) (fun e => (map.vmeEnd e).toNat) size.toNat entries a.toNat

/-- A place at which the loop may stop: the range ends inside the bounds, and in the second search it is before
the hint. -/
def Admissible (map : Map ι) (size hint : VmOffset) (firstTime : Bool) (a : ℕ) : Prop :=
  a + size.toNat ≤ map.vmMaxOffset.toNat ∧ (hint ≠ 0 → firstTime = false → a < hint.toNat)

instance (map : Map ι) (size hint : VmOffset) (firstTime : Bool) : DecidablePred (Admissible map size hint firstTime) :=
  fun _ => inferInstanceAs (Decidable (_ ∧ _))

/-- The loop from an entry on as a first fit. -/
def search (map : Map ι) (size hint : VmOffset) (k : ℕ) (firstTime : Bool) (entry : ι) (start : ℕ) (l : List ι) :
    Option (ℕ × ι) :=
  firstFit (fun e => (map.vmeStart e).toNat) (fun e => (map.vmeEnd e).toNat) (alignUp k)
    (Admissible map size hint firstTime) size.toNat entry start l

theorem stop_iff {firstTime : Bool} (start : VmOffset) :
    (map.vmMaxOffset < start + size ∨ start + size < start ∨ (hint ≠ 0 ∧ firstTime = false ∧ hint ≤ start)) ↔
      ¬Admissible map size hint firstTime start.toNat := by
  have hsum : (start + size).toNat = (start.toNat + size.toNat) % 2 ^ 64 := BitVec.toNat_add ..
  have hfirst : (hint ≠ 0 ∧ firstTime = false ∧ hint ≤ start) ↔ ¬(hint ≠ 0 → firstTime = false → start.toNat < hint.toNat) := by
    simp only [BitVec.le_def, Classical.not_imp, not_lt]
  rw [hfirst, Admissible, not_and_or, ← or_assoc]
  apply or_congr_left
  simp only [BitVec.lt_def, hsum]
  omega

variable [DecidableEq ι] {next : ι}

/-- The start of every search, and the end of every entry, may be rounded up without an overflow. -/
def NoOverflow (map : Map ι) (entries : List ι) (address mask : VmOffset) : Prop :=
  ∀ x, x = address ∨ x = map.vmMinOffset ∨ (∃ e ∈ entries, x = map.vmeEnd e) → x.toNat + mask.toNat < 2 ^ 64

omit [DecidableEq ι] in
theorem NoOverflow.right (h : NoOverflow map (l₁ ++ l₂) start mask) :
    ∀ x, x = start ∨ (∃ e ∈ l₂, x = map.vmeEnd e) → x.toNat + mask.toNat < 2 ^ 64 := by
  rintro x (rfl | ⟨e, he, rfl⟩)
  · exact h _ (.inl rfl)
  · exact h _ (.inr (.inr ⟨e, mem_append_right _ he, rfl⟩))

section

variable (h : NoOverflow map entries address mask)
include h

omit [DecidableEq ι] in
theorem NoOverflow.restart (hstart : start.toNat + mask.toNat < 2 ^ 64) : NoOverflow map entries start mask := by
  rintro x (rfl | hrest)
  · exact hstart
  · exact h x (.inr hrest)

theorem NoOverflow.firstFree (hfirst : map.FirstFree entries) :
    NoOverflow map entries
      (if map.vmFirstFree ≠ map.vmMapToEntry then map.vmeEnd map.vmFirstFree else map.vmMinOffset) mask := by
  apply h.restart
  split
  · rename_i hne
    exact h _ (.inr (.inr ⟨_, (mem_cons.mp hfirst.mem).resolve_left hne, rfl⟩))
  · exact h _ (.inr (.inl rfl))

omit [DecidableEq ι] in
theorem NoOverflow.lookup {found : Bool} (ha : Answers map entries address found entry) :
    NoOverflow map entries (if found = true then map.vmeEnd entry else address) mask := by
  apply h.restart
  split
  · rename_i hfound
    exact h _ (.inr (.inr ⟨_, (ha.present hfound).1, rfl⟩))
  · exact h _ (.inl rfl)

end

/-- One turn of the loop at a place from which it can go on. -/
theorem spaceLoop_next (h : map.Sorted (l₁ ++ l₂)) (hmask : mask.toNat + 1 = 2 ^ k)
    (hentry : entry = (map.vmMapToEntry :: l₁).getLast (List.cons_ne_nil _ _))
    (hover : start.toNat + mask.toNat < 2 ^ 64) {firstTime : Bool} (fuel : ℕ)
    (hok : Admissible map size hint firstTime (alignUp k start.toNat)) :
    spaceLoop map size mask hint (fuel + 1) firstTime entry start =
      match l₂ with
      | [] => some (.success ((start + mask) &&& ~~~mask) entry)
      | next :: _ =>
        if alignUp k start.toNat + size.toNat ≤ (map.vmeStart next).toNat then
          some (.success ((start + mask) &&& ~~~mask) entry)
        else spaceLoop map size mask hint fuel firstTime next (map.vmeEnd next) := by
  have hround := toNat_round hmask hover
  rw [spaceLoop]
  simp only [stop_iff]
  rw [if_neg (by rw [hround]; exact not_not.mpr hok)]
  have hnext : (l₂ ++ [map.vmMapToEntry]).head? = some (map.vmeNext entry) := by
    rw [hentry]
    exact h.ring.path.next_getLast
  cases l₂ with
  | nil =>
    obtain heq : map.vmMapToEntry = map.vmeNext entry := by simpa using hnext
    rw [if_pos heq.symm]
  | cons next l₂ =>
    obtain heq : next = map.vmeNext entry := by simpa using hnext
    have hne : next ≠ map.vmMapToEntry := by
      rintro rfl
      exact (nodup_cons.mp h.ring.nodup).1 (mem_append_right _ (mem_cons_self ..))
    -- the range ends inside the bounds, so that its end does not wrap around
    have hend : ((start + mask) &&& ~~~mask) + size ≤ map.vmeStart next ↔
        alignUp k start.toNat + size.toNat ≤ (map.vmeStart next).toNat := by
      have hlt := Nat.lt_of_le_of_lt hok.1 map.vmMaxOffset.isLt
      rw [BitVec.le_def, BitVec.toNat_add, hround, Nat.mod_eq_of_lt hlt]
    rw [← heq, if_neg hne]
    simp only [hend]

/-- The turn at a place that is not admissible. -/
theorem spaceLoop_stop (hmask : mask.toNat + 1 = 2 ^ k) (hover : start.toNat + mask.toNat < 2 ^ 64)
    {firstTime : Bool} (fuel : ℕ) (hok : ¬Admissible map size hint firstTime (alignUp k start.toNat)) :
    spaceLoop map size mask hint (fuel + 1) firstTime entry start =
      if hint ≠ 0 ∧ firstTime = true then
        if map.vmFirstFree ≠ map.vmMapToEntry then
          spaceLoop map size mask hint fuel false map.vmFirstFree (map.vmeEnd map.vmFirstFree)
        else spaceLoop map size mask hint fuel false map.vmFirstFree map.vmMinOffset
      else if map.vmWaitForSpace = true ∧ size ≤ map.vmMaxOffset - map.vmMinOffset then some .again
      else some (.failed .noSpace) := by
  rw [spaceLoop]
  simp only [stop_iff]
  rw [if_pos (by rwa [toNat_round hmask hover])]

omit [DecidableEq ι] in
theorem entries_moveOn (h : map.Sorted (l₁ ++ next :: l₂)) : map.Sorted (l₁ ++ [next] ++ l₂) := by
  rwa [append_assoc, singleton_append]

omit [DecidableEq ι] in
theorem getLast_moveOn (e next : ι) (l : List ι) : next = (e :: (l ++ [next])).getLast (List.cons_ne_nil _ _) := by
  simp only [← cons_append, getLast_append_singleton]

omit [DecidableEq ι] in
theorem overflow_moveOn
    (hover : ∀ x, x = start ∨ (∃ e ∈ next :: l₂, x = map.vmeEnd e) → x.toNat + mask.toNat < 2 ^ 64) :
    ∀ x, x = map.vmeEnd next ∨ (∃ e ∈ l₂, x = map.vmeEnd e) → x.toNat + mask.toNat < 2 ^ 64 := by
  rintro x (rfl | ⟨e, he, rfl⟩)
  · exact hover _ (.inr ⟨next, mem_cons_self .., rfl⟩)
  · exact hover _ (.inr ⟨e, mem_cons_of_mem _ he, rfl⟩)

theorem spaceLoop_found (h : map.Sorted (l₁ ++ l₂)) (hmask : mask.toNat + 1 = 2 ^ k)
    (hentry : entry = (map.vmMapToEntry :: l₁).getLast (List.cons_ne_nil _ _))
    (hover : ∀ x, x = start ∨ (∃ e ∈ l₂, x = map.vmeEnd e) → x.toNat + mask.toNat < 2 ^ 64) {firstTime : Bool}
    {a : ℕ} {p : ι} (hfound : search map size hint k firstTime entry start.toNat l₂ = some (a, p)) :
    ∃ s, s.toNat = a ∧ ∀ fuel, l₂.length ≤ fuel →
      spaceLoop map size mask hint (fuel + 1) firstTime entry start = some (.success s p) := by
  induction l₂ generalizing l₁ start entry with
  | nil =>
    rw [search, firstFit] at hfound
    split at hfound
    · rename_i hok
      obtain ⟨rfl, rfl⟩ := Prod.mk.inj (Option.some.inj hfound)
      have hstart := hover start (.inl rfl)
      exact ⟨_, toNat_round hmask hstart, fun fuel _ => spaceLoop_next h hmask hentry hstart fuel hok⟩
    · cases hfound
  | cons next l₂ ih =>
    rw [search, firstFit] at hfound
    split at hfound
    · rename_i hok
      have hstart := hover start (.inl rfl)
      have hturn (fuel : ℕ) := spaceLoop_next h hmask hentry hstart fuel hok
      split at hfound
      · rename_i hle
        obtain ⟨rfl, rfl⟩ := Prod.mk.inj (Option.some.inj hfound)
        exact ⟨_, toNat_round hmask hstart, fun fuel _ => (hturn fuel).trans (if_pos hle)⟩
      · rename_i hle
        obtain ⟨s, hs, hrest⟩ := ih (entries_moveOn h) (getLast_moveOn ..) (overflow_moveOn hover) hfound
        refine ⟨s, hs, ?_⟩
        intro fuel hfuel
        obtain ⟨fuel, rfl⟩ := Nat.exists_eq_succ_of_ne_zero (Nat.ne_zero_of_lt hfuel)
        rw [hturn, ← hrest fuel (Nat.le_of_succ_le_succ hfuel)]
        exact if_neg hle
    · cases hfound

/-- Where the first fit finds nothing, the loop stops at a place that is not admissible. -/
theorem spaceLoop_exhausted (h : map.Sorted (l₁ ++ l₂)) (hmask : mask.toNat + 1 = 2 ^ k)
    (hentry : entry = (map.vmMapToEntry :: l₁).getLast (List.cons_ne_nil _ _))
    (hover : ∀ x, x = start ∨ (∃ e ∈ l₂, x = map.vmeEnd e) → x.toNat + mask.toNat < 2 ^ 64) {firstTime : Bool}
    (hnone : search map size hint k firstTime entry start.toNat l₂ = none) :
    ∃ turns ≤ l₂.length, ∀ fuel, spaceLoop map size mask hint (fuel + turns + 1) firstTime entry start =
      if hint ≠ 0 ∧ firstTime = true then
        if map.vmFirstFree ≠ map.vmMapToEntry then
          spaceLoop map size mask hint fuel false map.vmFirstFree (map.vmeEnd map.vmFirstFree)
        else spaceLoop map size mask hint fuel false map.vmFirstFree map.vmMinOffset
      else if map.vmWaitForSpace = true ∧ size ≤ map.vmMaxOffset - map.vmMinOffset then some .again
      else some (.failed .noSpace) := by
  induction l₂ generalizing l₁ start entry with
  | nil =>
    rw [search, firstFit] at hnone
    split at hnone
    · cases hnone
    · rename_i hok
      exact ⟨0, le_rfl, fun fuel => spaceLoop_stop hmask (hover start (.inl rfl)) fuel hok⟩
  | cons next l₂ ih =>
    rw [search, firstFit] at hnone
    split at hnone
    · rename_i hok
      split at hnone
      · cases hnone
      · rename_i hle
        obtain ⟨turns, hturns, hrest⟩ := ih (entries_moveOn h) (getLast_moveOn ..) (overflow_moveOn hover) hnone
        refine ⟨turns + 1, Nat.succ_le_succ hturns, ?_⟩
        intro fuel
        rw [← hrest fuel, ← Nat.add_assoc, spaceLoop_next h hmask hentry (hover start (.inl rfl)) _ hok]
        exact if_neg hle
    · rename_i hok
      exact ⟨0, Nat.zero_le _, fun fuel => spaceLoop_stop hmask (hover start (.inl rfl)) fuel hok⟩

section Passes

variable {origin : VmOffset} {firstTime : Bool} {a : VmOffset}

omit [DecidableEq ι]

/-- The search may start behind an entry: what fits from the origin on is behind the start, and the entries are
in front of it and behind it. -/
structure Starts (map : Map ι) (l₁ l₂ : List ι) (size mask origin : VmOffset) (entry : ι) (start : VmOffset) :
    Prop where
  entry_eq : entry = (map.vmMapToEntry :: l₁).getLast (List.cons_ne_nil _ _)
  before : ∀ e ∈ l₁, map.vmeEnd e ≤ start
  after : ∀ e ∈ l₂, start < map.vmeEnd e
  ge : origin ≤ start
  least : ∀ a, Fits map (l₁ ++ l₂) size mask a → origin ≤ a → start ≤ a

theorem Fits.not_holds (h : Fits map entries size mask a) (hsize : 0 < size) {e : ι} (he : e ∈ entries) :
    ¬map.Holds e a := by
  intro hholds
  have hstart := BitVec.le_def.mp hholds.1
  have hend := BitVec.lt_def.mp hholds.2
  have hpos : 0 < size.toNat := BitVec.lt_def.mp hsize
  have hfree : a.toNat + size.toNat ≤ (map.vmeStart e).toNat ∨ (map.vmeEnd e).toNat ≤ a.toNat := h.free e he
  omega

theorem starts_firstFree [DecidableEq ι] (h : map.Sorted entries) (hfirst : map.FirstFree entries) (hsize : 0 < size) :
    ∃ l₁ l₂, entries = l₁ ++ l₂ ∧ Starts map l₁ l₂ size mask map.vmMinOffset map.vmFirstFree
      (if map.vmFirstFree ≠ map.vmMapToEntry then map.vmeEnd map.vmFirstFree else map.vmMinOffset) := by
  by_cases hheader : map.vmFirstFree = map.vmMapToEntry
  · rw [if_neg (not_not.mpr hheader)]
    refine ⟨[], entries, rfl, hheader, nofun, ?_, BitVec.le_refl _, fun a _ ha => ha⟩
    intro e he
    exact BitVec.lt_def.mpr (Nat.lt_of_le_of_lt (h.low e he) (h.start_lt_end he))
  · rw [if_pos hheader]
    obtain ⟨l₁, l₂, heq⟩ := append_of_mem ((mem_cons.mp hfirst.mem).resolve_left hheader)
    have hmem : map.vmFirstFree ∈ entries := by
      rw [heq]
      exact mem_append_right _ (mem_cons_self ..)
    have hlt := h.start_lt_end hmem
    rw [heq] at h
    refine ⟨l₁ ++ [map.vmFirstFree], l₂, by rw [heq, append_cons], getLast_moveOn .., ?_, ?_, ?_, ?_⟩
    · intro e he
      rcases mem_append.mp he with hleft | hself
      · exact BitVec.le_trans (h.end_le_start hleft) (BitVec.le_of_lt hlt)
      · exact mem_singleton.mp hself ▸ BitVec.le_refl _
    · intro e he
      have hle : map.vmeEnd map.vmFirstFree ≤ map.vmeStart e := h.intervals.right.hi_le he
      exact BitVec.lt_def.mpr (Nat.lt_of_le_of_lt hle (h.start_lt_end (by simp [he])))
    · exact BitVec.le_trans (h.low _ (by simp)) (BitVec.le_of_lt hlt)
    · intro a hfits ha
      apply BitVec.not_lt.mp
      intro hbelow
      obtain ⟨e, he, hholds⟩ := hfirst.full hheader a ha hbelow
      rw [← append_cons, ← heq] at hfits
      exact hfits.not_holds hsize he hholds

theorem starts_lookup (h : map.Sorted entries) (hsize : 0 < size) {found : Bool} (ha : Answers map entries address found entry) :
    ∃ l₁ l₂, entries = l₁ ++ l₂ ∧ Starts map l₁ l₂ size mask address entry
      (if found = true then map.vmeEnd entry else address) := by
  cases found with
  | true =>
    obtain ⟨hmem, hholds⟩ := ha.present rfl
    obtain ⟨l₁, l₂, rfl⟩ := append_of_mem hmem
    refine ⟨l₁ ++ [entry], l₂, append_cons .., getLast_moveOn .., ?_, ?_, ?_, ?_⟩
    · intro e he
      rcases mem_append.mp he with hleft | hself
      · exact BitVec.le_trans (h.end_le_start hleft) (BitVec.le_of_lt (h.start_lt_end hmem))
      · exact mem_singleton.mp hself ▸ BitVec.le_refl _
    · intro e he
      have hle : map.vmeEnd entry ≤ map.vmeStart e := h.intervals.right.hi_le he
      exact BitVec.lt_def.mpr (Nat.lt_of_le_of_lt hle (h.start_lt_end (by simp [he])))
    · exact BitVec.le_of_lt hholds.2
    · intro a hfits haddress
      apply BitVec.not_lt.mp
      intro hbelow
      rw [← append_cons] at hfits
      exact hfits.not_holds hsize hmem ⟨BitVec.le_trans hholds.1 haddress, hbelow⟩
  | false =>
    obtain ⟨l₁, l₂, rfl, hbefore, hafter⟩ := h.intervals.split address.toNat
    have hstart : ∀ e ∈ l₂, address < map.vmeStart e := by
      intro e he
      apply BitVec.not_le.mp
      intro hle
      exact (ha.absent rfl).1 e (mem_append_right _ he) ⟨hle, hafter e he⟩
    have hentry := (ha.unique h (answers_absent h hbefore hstart)).2
    exact ⟨l₁, l₂, rfl, hentry, hbefore, hafter, BitVec.le_refl _, fun a _ ha => ha⟩

theorem Starts.found (h : map.Sorted (l₁ ++ l₂)) (hs : Starts map l₁ l₂ size mask origin entry start)
    (hmin : map.vmMinOffset ≤ origin) (hmask : mask.toNat + 1 = 2 ^ k) (hsize : 0 < size) {p : ι}
    (hfound : search map size hint k firstTime entry start.toNat l₂ = some (a.toNat, p)) :
    Fits map (l₁ ++ l₂) size mask a ∧ p = map.preceding (l₁ ++ l₂) a := by
  have hf := firstFit_some h.intervals.right (roundsUp_alignUp k) (fun e he => (hs.after e he).le) hfound
  have hvacant := hf.vacant
  obtain ⟨k₁, k₂, rfl, hp, hbefore, hafter⟩ := hf.between
  have hpos : 0 < size.toNat := BitVec.lt_def.mp hsize
  have hfront : ∀ e ∈ l₁ ++ k₁, map.vmeEnd e ≤ a := by
    intro e he
    rcases mem_append.mp he with hleft | hright
    · exact BitVec.le_trans (hs.before e hleft) hf.ge
    · exact hbefore e hright
  constructor
  · refine ⟨?_, BitVec.le_trans hmin (BitVec.le_trans hs.ge hf.ge), hf.admissible.1, ?_⟩
    · apply BitVec.eq_of_toNat_eq
      exact (toNat_and_mask hmask a).trans hf.kind
    · intro e he
      rcases mem_append.mp he with hleft | hright
      · exact .inr (BitVec.le_trans (hs.before e hleft) hf.ge)
      · exact hvacant e hright
  · have hback : ∀ e ∈ k₂, a < map.vmeStart e := by
      intro e he
      have := hafter e he
      exact BitVec.lt_def.mpr (by omega)
    rw [← append_assoc] at h ⊢
    have hanswer := (answers_absent h hfront hback).absent rfl
    rw [← hanswer.2, hp, hs.entry_eq]
    cases k₁ with
    | nil => simp
    | cons d k₁ =>
      simp only [← cons_append, getLast_append_of_ne_nil _ (cons_ne_nil d k₁)]
      rw [getLast_cons (cons_ne_nil d k₁)]

theorem Starts.none (h : map.Sorted (l₁ ++ l₂)) (hs : Starts map l₁ l₂ size mask origin entry start)
    (hmask : mask.toNat + 1 = 2 ^ k) (hnone : search map size hint k firstTime entry start.toNat l₂ = none)
    (hfits : Fits map (l₁ ++ l₂) size mask a) (horigin : origin ≤ a) :
    ¬(hint ≠ 0 → firstTime = false → a < hint) := by
  intro hlimit
  have hclosed : ∀ a b, a ≤ b → Admissible map size hint firstTime b → Admissible map size hint firstTime a := by
    intro a b hle hok
    exact ⟨by have := hok.1; omega, fun hhint hfirst => Nat.lt_of_le_of_lt hle (hok.2 hhint hfirst)⟩
  have haligned : a.toNat % 2 ^ k = 0 := by
    rw [← toNat_and_mask hmask, hfits.aligned]
    rfl
  apply firstFit_none h.intervals.right (roundsUp_alignUp k) hclosed hnone a.toNat (hs.least a hfits horigin) haligned
  · exact ⟨hfits.high, hlimit⟩
  · exact fun e he => hfits.free e (mem_append_right _ he)

end Passes

section Outcomes

variable {origin : VmOffset} {firstTime : Bool} {Q : VmOffset → Prop}

/-- How a search ends: with something that fits and the entry in front of it, or with the error, when nothing
fits among the places that are looked at. -/
def Outcome (map : Map ι) (entries : List ι) (size mask : VmOffset) (Q : VmOffset → Prop) (r : Space ι) : Prop :=
  (∃ s, r = .success s (map.preceding entries s) ∧ Fits map entries size mask s) ∨
    r = .failed .noSpace ∧ ∀ a, Fits map entries size mask a → ¬Q a

theorem lastSearch (h : map.Sorted (l₁ ++ l₂)) (hs : Starts map l₁ l₂ size mask origin entry start)
    (hmin : map.vmMinOffset ≤ origin) (hmask : mask.toNat + 1 = 2 ^ k) (hsize : 0 < size)
    (hover : ∀ x, x = start ∨ (∃ e ∈ l₂, x = map.vmeEnd e) → x.toNat + mask.toNat < 2 ^ 64)
    (hwait : map.vmWaitForSpace = false) (hlast : ¬(hint ≠ 0 ∧ firstTime = true)) :
    ∃ r, (∀ fuel, l₂.length < fuel → spaceLoop map size mask hint fuel firstTime entry start = some r) ∧
      Outcome map (l₁ ++ l₂) size mask (fun a => origin ≤ a ∧ (hint ≠ 0 → a < hint)) r := by
  cases hsearch : search map size hint k firstTime entry start.toNat l₂ with
  | none =>
    obtain ⟨turns, hturns, hstop⟩ := spaceLoop_exhausted h hmask hs.entry_eq hover hsearch
    refine ⟨.failed .noSpace, ?_, .inr ⟨rfl, ?_⟩⟩
    · intro fuel hfuel
      obtain ⟨rest, rfl⟩ : ∃ rest, fuel = rest + turns + 1 := ⟨fuel - turns - 1, by omega⟩
      rw [hstop, if_neg hlast, if_neg (by simp [hwait])]
    · rintro a hfits ⟨horigin, hlimit⟩
      exact hs.none h hmask hsearch hfits horigin fun hhint _ => hlimit hhint
  | some found =>
    obtain ⟨a, p⟩ := found
    obtain ⟨s, rfl, hloop⟩ := spaceLoop_found h hmask hs.entry_eq hover hsearch
    obtain ⟨hfits, rfl⟩ := hs.found h hmin hmask hsize hsearch
    refine ⟨.success s (map.preceding (l₁ ++ l₂) s), ?_, .inl ⟨s, rfl, hfits⟩⟩
    intro fuel hfuel
    obtain ⟨fuel, rfl⟩ := Nat.exists_eq_succ_of_ne_zero (Nat.ne_zero_of_lt hfuel)
    exact hloop fuel (Nat.le_of_lt_succ hfuel)

theorem twoSearches (h : map.Sorted (l₁ ++ l₂)) (hfirst : map.FirstFree (l₁ ++ l₂))
    (hs : Starts map l₁ l₂ size mask hint entry start) (hmin : map.vmMinOffset ≤ hint)
    (hmask : mask.toNat + 1 = 2 ^ k) (hsize : 0 < size) (hover : NoOverflow map (l₁ ++ l₂) start mask)
    (hwait : map.vmWaitForSpace = false) (hhint : hint ≠ 0) :
    ∃ r, (∀ fuel, 2 * (l₁ ++ l₂).length + 1 < fuel → spaceLoop map size mask hint fuel true entry start = some r) ∧
      Outcome map (l₁ ++ l₂) size mask (fun _ => True) r := by
  cases hsearch : search map size hint k true entry start.toNat l₂ with
  | none =>
    obtain ⟨turns, hturns, hstop⟩ := spaceLoop_exhausted h hmask hs.entry_eq hover.right hsearch
    obtain ⟨k₁, k₂, heq, hs'⟩ := starts_firstFree h hfirst hsize
    have hover' := hover.firstFree hfirst
    rw [heq] at hover'
    have hlast : ¬(hint ≠ 0 ∧ false = true) := by simp
    have hlength := congrArg length heq
    rw [length_append, length_append] at hlength
    obtain ⟨r, hloop, hout⟩ := lastSearch (heq ▸ h) hs' (BitVec.le_refl _) hmask hsize hover'.right hwait hlast
    rw [← heq] at hout
    refine ⟨r, ?_, hout.imp_right ?_⟩
    · intro fuel hfuel
      rw [length_append] at hfuel
      obtain ⟨rest, rfl⟩ : ∃ rest, fuel = rest + turns + 1 := ⟨fuel - turns - 1, by omega⟩
      rw [hstop, if_pos ⟨hhint, rfl⟩, ← hloop rest (by omega)]
      split
      · rfl
      · rfl
    · rintro ⟨hr, hnone⟩
      refine ⟨hr, ?_⟩
      intro a hfits _
      -- what is not before the hint would have been found by the first search
      by_cases hbelow : a < hint
      · exact hnone a hfits ⟨hfits.low, fun _ => hbelow⟩
      · exact hs.none h hmask hsearch hfits (BitVec.not_lt.mp hbelow) nofun
  | some found =>
    obtain ⟨a, p⟩ := found
    obtain ⟨s, rfl, hloop⟩ := spaceLoop_found h hmask hs.entry_eq hover.right hsearch
    obtain ⟨hfits, rfl⟩ := hs.found h hmin hmask hsize hsearch
    refine ⟨.success s (map.preceding (l₁ ++ l₂) s), ?_, .inl ⟨s, rfl, hfits⟩⟩
    intro fuel hfuel
    rw [length_append] at hfuel
    obtain ⟨fuel, rfl⟩ := Nat.exists_eq_succ_of_ne_zero (Nat.ne_zero_of_lt hfuel)
    exact hloop fuel (by omega)

end Outcomes

section Calls

/-- A call ends, leaves the map as it is but for the hint, and succeeds exactly when it can; what it returns fits
and is behind the entry that it names. -/
def Exact (map : Map ι) (entries : List ι) (address size mask : VmOffset) (anywhere : Bool) (possible : Prop) : Prop :=
  ∃ r, ∃ hint ∈ map.vmMapToEntry :: entries,
    (∀ fuel, 2 * entries.length + 1 < fuel →
      vmMapSpace fuel map address size mask anywhere = some (r, map.saveHint hint)) ∧
    ((∃ s p, r = .success s p) ↔ possible) ∧
    ∀ s p, r = .success s p → Fits map entries size mask s ∧ p = map.preceding entries s

omit [DecidableEq ι] in
theorem Outcome.exact {r : Space ι} (h : Outcome map entries size mask (fun _ => True) r) :
    ((∃ s p, r = .success s p) ↔ ∃ a, Fits map entries size mask a) ∧
      ∀ s p, r = .success s p → Fits map entries size mask s ∧ p = map.preceding entries s := by
  rcases h with ⟨s, rfl, hfits⟩ | ⟨rfl, hnone⟩
  · refine ⟨⟨fun _ => ⟨s, hfits⟩, fun _ => ⟨s, _, rfl⟩⟩, ?_⟩
    intro s' p heq
    obtain ⟨rfl, rfl⟩ := Space.success.inj heq
    exact ⟨hfits, rfl⟩
  · refine ⟨⟨?_, ?_⟩, nofun⟩
    · rintro ⟨s, p, heq⟩
      cases heq
    · rintro ⟨a, hfits⟩
      exact absurd trivial (hnone a hfits)

theorem spaceLoop_saveHint (e : ι) (fuel : ℕ) {firstTime : Bool} :
    spaceLoop (map.saveHint e) size mask hint fuel firstTime entry start =
      spaceLoop map size mask hint fuel firstTime entry start := by
  induction fuel generalizing firstTime entry start with
  | zero => rfl
  | succ fuel ih =>
    simp only [spaceLoop, ih]
    rfl

theorem vmMapSpace_anywhere (h : map.Sorted entries) (hfirst : map.FirstFree entries)
    (hhint : map.vmHint ∈ map.vmMapToEntry :: entries) (hmask : mask.toNat + 1 = 2 ^ k) (hsize : 0 < size)
    (hover : NoOverflow map entries address mask) (hwait : map.vmWaitForSpace = false) :
    Exact map entries address size mask true
      (address ≤ map.vmMaxOffset ∧ ∃ a, Fits map entries size mask a) := by
  have hself : map.saveHint map.vmHint = map := rfl
  by_cases hpast : map.vmMaxOffset < address
  · -- the address is past the map
    have hnot : ¬address < map.vmMinOffset := BitVec.not_lt.mpr (BitVec.le_trans h.bounds (BitVec.le_of_lt hpast))
    refine ⟨.failed .noSpace, map.vmHint, hhint, ?_, ⟨?_, ?_⟩, nofun⟩
    · intro fuel _
      simp only [vmMapSpace, if_true, if_neg hnot, if_pos hpast, hself]
    · rintro ⟨s, p, heq⟩
      cases heq
    · rintro ⟨hle, -⟩
      exact absurd hpast (BitVec.not_lt.mpr hle)
  · by_cases hmin : address ≤ map.vmMinOffset
    · -- the search starts where there is no hole before
      have hstart : (if address < map.vmMinOffset then map.vmMinOffset else address) = map.vmMinOffset := by
        split
        · rfl
        · rename_i hnot
          exact BitVec.le_antisymm hmin (BitVec.not_lt.mp hnot)
      have hstarts : ∃ l₁ l₂, entries = l₁ ++ l₂ ∧ Starts map l₁ l₂ size mask map.vmMinOffset map.vmFirstFree _ :=
        starts_firstFree h hfirst hsize
      obtain ⟨l₁, l₂, rfl, hs⟩ := hstarts
      have hover' := hover.firstFree hfirst
      have hlast : ¬((0 : VmOffset) ≠ 0 ∧ true = true) := by simp
      obtain ⟨r, hloop, hout⟩ := lastSearch h hs (BitVec.le_refl _) hmask hsize hover'.right hwait hlast
      have hout' : Outcome map (l₁ ++ l₂) size mask (fun _ => True) r :=
        hout.imp_right fun hnone => ⟨hnone.1, fun a hfits _ => hnone.2 a hfits ⟨hfits.low, fun hne => absurd rfl hne⟩⟩
      obtain ⟨hiff, hfound⟩ := hout'.exact
      refine ⟨r, map.vmHint, hhint, ?_, ?_, hfound⟩
      · intro fuel hfuel
        rw [length_append] at hfuel
        simp only [vmMapSpace, if_true, hstart, if_neg (BitVec.not_lt.mpr h.bounds), hself]
        rw [hloop fuel (by omega)]
        rfl
      · rw [hiff]
        exact (and_iff_right (BitVec.not_lt.mp hpast)).symm
    · -- the search starts at the hint of the caller
      have hlow : map.vmMinOffset ≤ address := BitVec.le_of_lt (BitVec.not_le.mp hmin)
      have hne : address ≠ map.vmMinOffset := fun heq => hmin (heq ▸ BitVec.le_refl _)
      have hzero : address ≠ 0 := by
        rintro rfl
        exact hmin (BitVec.le_def.mpr (Nat.zero_le _))
      obtain ⟨found, entry, ha, hint', hint'mem, hlookup⟩ := vmMapLookupEntry_answers h hhint
      have hstarts : ∃ l₁ l₂, entries = l₁ ++ l₂ ∧ Starts map l₁ l₂ size mask address entry _ := starts_lookup h hsize ha
      obtain ⟨l₁, l₂, rfl, hs⟩ := hstarts
      obtain ⟨r, hloop, hout⟩ := twoSearches h hfirst hs hlow hmask hsize (hover.lookup ha) hwait hzero
      obtain ⟨hiff, hfound⟩ := hout.exact
      refine ⟨r, hint', hint'mem, ?_, ?_, hfound⟩
      · intro fuel hfuel
        have hclamp : ¬address < map.vmMinOffset := BitVec.not_lt.mpr hlow
        simp only [vmMapSpace, if_true, if_neg hclamp, if_neg hpast, if_neg hne]
        rw [hlookup fuel (by omega), Option.bind_some]
        have hrun := (spaceLoop_saveHint hint' fuel).trans (hloop fuel hfuel)
        exact congrArg (Option.map fun r => (r, map.saveHint hint')) hrun
      · rw [hiff]
        exact (and_iff_right (BitVec.not_lt.mp hpast)).symm

theorem vmMapSpace_at (h : map.Sorted entries) (hhint : map.vmHint ∈ map.vmMapToEntry :: entries) (hsize : 0 < size) :
    Exact map entries address size mask false (Fits map entries size mask address) := by
  have hself : map.saveHint map.vmHint = map := rfl
  have hpos : 0 < size.toNat := BitVec.lt_def.mp hsize
  have hsum : (address + size).toNat = (address.toNat + size.toNat) % 2 ^ 64 := BitVec.toNat_add ..
  have hfail {r : KernReturn} (hnot : ¬Fits map entries size mask address) :
      ((∃ s p, (Space.failed r : Space ι) = .success s p) ↔ Fits map entries size mask address) := by
    refine ⟨?_, fun hfits => absurd hfits hnot⟩
    rintro ⟨s, p, heq⟩
    cases heq
  by_cases hmask : address &&& mask = 0
  · by_cases hrange : address < map.vmMinOffset ∨ map.vmMaxOffset < address + size ∨ address + size ≤ address
    · refine ⟨.failed .invalidAddress, map.vmHint, hhint, ?_, hfail ?_, nofun⟩
      · intro fuel _
        simp only [vmMapSpace, Bool.false_eq_true, if_false, if_neg (not_not.mpr hmask), if_pos hrange, hself]
      · intro hfits
        have hlow := BitVec.le_def.mp hfits.low
        have hhigh := hfits.high
        simp only [BitVec.lt_def, BitVec.le_def, hsum] at hrange
        omega
    · have hanswers : ∃ found entry, Answers map entries address found entry ∧ _ := vmMapLookupEntry_answers h hhint
      obtain ⟨found, entry, ha, hint', hint'mem, hlookup⟩ := hanswers
      have hcall (fuel : ℕ) (hfuel : 2 * entries.length + 1 < fuel) :
          vmMapSpace fuel map address size mask false =
            if found = true then some (.failed .noSpace, map.saveHint hint')
            else if map.vmeNext entry ≠ map.vmMapToEntry ∧ map.vmeStart (map.vmeNext entry) < address + size then
              some (.failed .noSpace, map.saveHint hint')
            else some (.success address entry, map.saveHint hint') := by
        simp only [vmMapSpace, Bool.false_eq_true, if_false, if_neg (not_not.mpr hmask), if_neg hrange]
        rw [hlookup fuel (by omega), Option.map_some]
        simp only [apply_ite some]
        rfl
      cases found with
      | true =>
        refine ⟨.failed .noSpace, hint', hint'mem, fun fuel hfuel => hcall fuel hfuel, hfail ?_, nofun⟩
        intro hfits
        exact hfits.not_holds hsize (ha.present rfl).1 (ha.present rfl).2
      | false =>
        have hstarts : ∃ l₁ l₂, entries = l₁ ++ l₂ ∧ Starts map l₁ l₂ size mask address entry address :=
          starts_lookup h hsize ha
        obtain ⟨l₁, l₂, rfl, hs⟩ := hstarts
        have hnext : (l₂ ++ [map.vmMapToEntry]).head? = some (map.vmeNext entry) := by
          rw [hs.entry_eq]
          exact h.ring.path.next_getLast
        -- the end of the range does not wrap around
        simp only [BitVec.lt_def, BitVec.le_def, hsum, not_or, not_lt, not_le] at hrange
        have hend : (address.toNat + size.toNat) % 2 ^ 64 = address.toNat + size.toNat := by omega
        by_cases hover : map.vmeNext entry ≠ map.vmMapToEntry ∧ map.vmeStart (map.vmeNext entry) < address + size
        · have hrun (fuel : ℕ) (hfuel : 2 * (l₁ ++ l₂).length + 1 < fuel) := (hcall fuel hfuel).trans (if_pos hover)
          refine ⟨.failed .noSpace, hint', hint'mem, hrun, hfail ?_, nofun⟩
          intro hfits
          cases l₂ with
          | nil => exact hover.1 (by simpa using hnext.symm)
          | cons next l₂ =>
            obtain rfl : next = map.vmeNext entry := by simpa using hnext
            have hafter := BitVec.lt_def.mp (hs.after _ (mem_cons_self ..))
            have hlt := BitVec.lt_def.mp hover.2
            have hfree : address.toNat + size.toNat ≤ (map.vmeStart (map.vmeNext entry)).toNat ∨
                (map.vmeEnd (map.vmeNext entry)).toNat ≤ address.toNat :=
              hfits.free _ (mem_append_right _ (mem_cons_self ..))
            omega
        · have hrun (fuel : ℕ) (hfuel : 2 * (l₁ ++ l₂).length + 1 < fuel) := (hcall fuel hfuel).trans (if_neg hover)
          have hfits : Fits map (l₁ ++ l₂) size mask address := by
            refine ⟨hmask, hrange.1, by omega, ?_⟩
            intro e he
            rcases mem_append.mp he with hleft | hright
            · exact Or.inr (hs.before e hleft)
            · apply Or.inl
              cases l₂ with
              | nil => cases hright
              | cons next l₂ =>
                obtain rfl : next = map.vmeNext entry := by simpa using hnext
                have hne : map.vmeNext entry ≠ map.vmMapToEntry := by
                  intro heq
                  apply (nodup_cons.mp h.ring.nodup).1
                  rw [← heq]
                  exact mem_append_right _ (mem_cons_self ..)
                have hle := BitVec.le_def.mp (BitVec.not_lt.mp (not_and.mp hover hne))
                rw [hsum, hend] at hle
                rcases mem_cons.mp hright with heq | hmem
                · exact heq ▸ hle
                · have hlt := h.intervals.right.lt _ (mem_cons_self ..)
                  have hnextle := h.intervals.right.hi_le hmem
                  exact hle.trans (hlt.le.trans hnextle)
          refine ⟨.success address entry, hint', hint'mem, hrun, ⟨fun _ => hfits, fun _ => ⟨_, _, rfl⟩⟩, ?_⟩
          intro s p heq
          obtain ⟨rfl, rfl⟩ := Space.success.inj heq
          exact ⟨hfits, (ha.absent rfl).2⟩
  · refine ⟨.failed .noSpace, map.vmHint, hhint, ?_, hfail ?_, nofun⟩
    · intro fuel _
      simp only [vmMapSpace, Bool.false_eq_true, if_false, if_pos hmask, hself]
    · exact fun hfits => hmask hfits.aligned

/-- `vm_map_space` is sound and complete, but for a hint past the map. -/
theorem vmMapSpace_exact (h : map.Sorted entries) (hhint : map.vmHint ∈ map.vmMapToEntry :: entries)
    (hsize : 0 < size) :
    (map.FirstFree entries → mask.toNat + 1 = 2 ^ k → NoOverflow map entries address mask →
      map.vmWaitForSpace = false → Exact map entries address size mask true
        (address ≤ map.vmMaxOffset ∧ ∃ a, Fits map entries size mask a)) ∧
      Exact map entries address size mask false (Fits map entries size mask address) :=
  ⟨fun hfirst hmask hover hwait => vmMapSpace_anywhere h hfirst hhint hmask hsize hover hwait,
    vmMapSpace_at h hhint hsize⟩

theorem twoEntries_firstFree : twoEntries.FirstFree [1, 2] := ⟨by decide, fun hne => absurd rfl hne⟩

theorem twoEntries_noOverflow {address : VmOffset} (h : address.toNat < 2 ^ 63) :
    NoOverflow twoEntries [1, 2] address 15 := by
  rintro x (rfl | rfl | ⟨e, he, rfl⟩)
  · have hmask : (15 : VmOffset).toNat = 15 := rfl
    omega
  · decide
  · have hends : ∀ e ∈ [1, 2], (twoEntries.vmeEnd e).toNat + (15 : VmOffset).toNat < 2 ^ 64 := by decide
    exact hends e he

/-- Sixteen aligned addresses from 40 on: there is space behind entry 1, but not at 40. -/
theorem vmMapSpace_exact_twoEntries :
    Exact twoEntries [1, 2] 40 16 15 true
        ((40 : VmOffset) ≤ twoEntries.vmMaxOffset ∧ ∃ a, Fits twoEntries [1, 2] 16 15 a) ∧
      Exact twoEntries [1, 2] 40 16 15 false (Fits twoEntries [1, 2] 16 15 40) := by
  have hexact := @vmMapSpace_exact _ twoEntries [1, 2] 40 16 15 4 _ twoEntries_sorted (by decide) (by decide)
  exact ⟨hexact.1 twoEntries_firstFree rfl (twoEntries_noOverflow (by decide)) rfl, hexact.2⟩

/-- The hint 200 is past the map, which has space: the function gives up. -/
theorem vmMapSpace_past_map : ¬∀ (map : Map ℕ) (entries : List ℕ) (address size mask : VmOffset) (k : ℕ),
    map.Sorted entries → map.vmHint ∈ map.vmMapToEntry :: entries → 0 < size → map.FirstFree entries →
    mask.toNat + 1 = 2 ^ k → NoOverflow map entries address mask → map.vmWaitForSpace = false →
    Exact map entries address size mask true (∃ a, Fits map entries size mask a) := by
  intro hall
  have hfits : Fits twoEntries [1, 2] 16 15 16 := ⟨by decide, by decide, by decide, by unfold Vacant; decide⟩
  obtain ⟨r, hint, -, hrun, hiff, -⟩ := hall twoEntries [1, 2] 200 16 15 4 twoEntries_sorted (by decide) (by decide)
    twoEntries_firstFree (by decide) (twoEntries_noOverflow (by decide)) rfl
  obtain ⟨s, p, rfl⟩ := hiff.mpr ⟨16, hfits⟩
  have hcall : vmMapSpace 6 twoEntries 200 16 15 true = some (.failed .noSpace, twoEntries) := rfl
  have hpair := Option.some.inj ((hrun 6 (by decide)).symm.trans hcall)
  exact absurd (congrArg Prod.fst hpair) nofun

end Calls

end Osf1.VmMap
