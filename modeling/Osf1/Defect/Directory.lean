import Mathlib

/-!
# Reading the defect directory

`lv_bbdirinit` reads one copy of the defect directory or the other one until a read succeeds.
-/

set_option autoImplicit false

namespace Osf1.Defect.Directory

open Option

section Model

/-- SRC: lvm/pvres.h:85-87 -/
def PVRA_BBDIR_SN1 : ℤ := 9

def PVRA_BBDIR_SN2 : ℤ := 73

def PVRA_BBDIR_LENGTH : ℕ := 55

def DEV_BSIZE : ℕ := 512

/-- What `lv_bufio` returns, 0 when everything has been read, and the `b_resid` it leaves. -/
structure Outcome where
  error : ℕ
  b_resid : ℕ

/-- What `lv_bbdirinit` returns and leaves in the volume, and the reads with their blocks. -/
structure Result where
  error : ℕ
  pv_bbdir : Bool
  bbdirsize : ℕ
  reads : List (ℤ × Outcome)

/-- The loop, from the read `n` on.  What is assigned to `error` is the whole condition.
SRC: lvm/lv_defect.c:770-778 -/
def readLoop (lv_bufio : ℕ → Outcome) : ℕ → ℕ → ℕ → ℤ → ℤ → Option (ℕ × List (ℤ × Outcome))
  | 0, _, _, _, _ => none
  | fuel + 1, n, failcount, b_blkno, switchends =>
    let error := if (lv_bufio n).error ≠ 0 ∧ failcount < 2 then 1 else 0
    if error ≠ 0 then
      (readLoop lv_bufio fuel (n + 1)
        (if PVRA_BBDIR_LENGTH * DEV_BSIZE = (lv_bufio n).b_resid then failcount + 1 else 1)
        (b_blkno + switchends) (-switchends)).map fun r => (r.1, (b_blkno, lv_bufio n) :: r.2)
    else some (error, [(b_blkno, lv_bufio n)])

/-- SRC: lvm/lv_defect.c:741-786 -/
def lv_bbdirinit (kalloc : Bool) (lv_bufio : ℕ → Outcome) (ENOMEM fuel : ℕ) : Option Result :=
  if kalloc = false then some ⟨ENOMEM, false, 0, []⟩
  else (readLoop lv_bufio fuel 0 0 PVRA_BBDIR_SN1 (PVRA_BBDIR_SN2 - PVRA_BBDIR_SN1)).map fun (error, reads) =>
    if error ≠ 0 then ⟨error, false, 0, reads⟩ else ⟨error, true, PVRA_BBDIR_LENGTH * DEV_BSIZE, reads⟩

end Model

section Reads

variable {o : ℕ → Outcome} {n m fuel : ℕ} {b sw : ℤ} {r : ℕ × List (ℤ × Outcome)}

/-- Nothing of the directory has been read. -/
def Outcome.Full (x : Outcome) : Prop := PVRA_BBDIR_LENGTH * DEV_BSIZE = x.b_resid

instance (x : Outcome) : Decidable x.Full := inferInstanceAs (Decidable (_ = _))

/-- `failcount` before a read. -/
def failcount (o : ℕ → Outcome) : ℕ → ℕ
  | 0 => 0
  | n + 1 => if (o n).Full then failcount o n + 1 else 1

/-- There is another read after this one. -/
def Goes (o : ℕ → Outcome) (n : ℕ) : Prop := (o n).error ≠ 0 ∧ failcount o n < 2

instance : DecidablePred (Goes o) := fun _ => inferInstanceAs (Decidable (_ ∧ _))

theorem failcount_lt : failcount o (n + 2) < 2 ↔ ¬ (o (n + 1)).Full := by
  have hpos : 0 < failcount o (n + 1) := by
    rw [failcount]
    split_ifs <;> omega
  rw [failcount]
  split_ifs with h
  · simp only [h, not_true_eq_false, iff_false]
    omega
  · simp [h]

theorem readLoop_succ : readLoop o (fuel + 1) n (failcount o n) b sw =
    if Goes o n then
      (readLoop o fuel (n + 1) (failcount o (n + 1)) (b + sw) (-sw)).map fun r => (r.1, (b, o n) :: r.2)
    else some (0, [(b, o n)]) := by
  by_cases h : Goes o n
  · rw [if_pos h, readLoop, if_pos (by simpa [Goes] using h)]
    rfl
  · have h' : ¬ ((o n).error ≠ 0 ∧ failcount o n < 2) := h
    rw [if_neg h, readLoop, if_neg (not_not.mpr (if_neg h')), if_neg h']

/-- The loop ends with a read that isn't followed by another one, and `error` is 0 then. -/
theorem readLoop_ends (h : readLoop o fuel n (failcount o n) b sw = some r) :
    r.1 = 0 ∧ ∃ m, n ≤ m ∧ ¬ Goes o m ∧ (∀ j, n ≤ j → j < m → Goes o j) ∧ ((∃ x ∈ r.2, x.2.error = 0) ↔ (o m).error = 0) := by
  induction fuel generalizing n b sw r with
  | zero => nomatch h
  | succ fuel ih =>
    rw [readLoop_succ] at h
    split_ifs at h with hgo
    · obtain ⟨r', hr', rfl⟩ := map_eq_some_iff.mp h
      obtain ⟨h0, m, hm, hstop, hall, hread⟩ := ih hr'
      refine ⟨h0, m, by omega, hstop, fun j hj hjm => ?_, ?_⟩
      · rcases Nat.eq_or_lt_of_le hj with rfl | hlt
        · exact hgo
        · exact hall j hlt hjm
      · rw [← hread]
        simp [hgo.1]
    · obtain rfl := some.inj h
      exact ⟨rfl, n, le_rfl, hgo, fun j hj hjm => by omega, by simp⟩

/-- The two copies are read in turn. -/
theorem readLoop_copies {a c : ℤ} (hb : b = a ∧ b + sw = c ∨ b = c ∧ b + sw = a) (n k : ℕ)
    (h : readLoop o fuel n k b sw = some r) : ∀ x ∈ r.2, x.1 = a ∨ x.1 = c := by
  induction fuel generalizing n k b sw r with
  | zero => nomatch h
  | succ fuel ih =>
    have hthis : b = a ∨ b = c := hb.imp And.left And.left
    by_cases hgo : (o n).error ≠ 0 ∧ k < 2
    · simp only [readLoop, if_pos hgo] at h
      obtain ⟨r', hr', rfl⟩ := map_eq_some_iff.mp h
      exact List.forall_mem_cons.mpr ⟨hthis, ih (by omega) _ _ hr'⟩
    · simp only [readLoop, if_neg hgo] at h
      obtain rfl := some.inj h
      simpa using hthis

theorem exists_readLoop (hm : ¬ Goes o m) (d : ℕ) (hd : n + d = m) (b sw : ℤ) :
    ∃ fuel r, readLoop o fuel n (failcount o n) b sw = some r := by
  induction d generalizing n b sw with
  | zero =>
    rw [Nat.add_zero] at hd
    exact ⟨1, _, by rw [readLoop_succ, if_neg (hd ▸ hm)]⟩
  | succ d ih =>
    by_cases h : Goes o n
    · obtain ⟨fuel, r, hr⟩ := ih (by omega : n + 1 + d = m) (b + sw) (-sw)
      exact ⟨fuel + 1, _, by rw [readLoop_succ, if_pos h, hr]; rfl⟩
    · exact ⟨1, _, by rw [readLoop_succ, if_neg h]⟩

/-- The retry goes on to the read `n` exactly when all reads before it fail and none of them but the first and
the last one have read nothing. -/
theorem forall_goes_iff : (∀ j < n, Goes o j) ↔ ∀ j < n, (o j).error ≠ 0 ∧ (1 ≤ j → j + 1 < n → ¬ (o j).Full) := by
  constructor
  · intro h j hj
    refine ⟨(h j hj).1, fun h1 hn => ?_⟩
    obtain ⟨i, rfl⟩ := Nat.exists_eq_add_of_le' h1
    exact failcount_lt.mp (h (i + 2) hn).2
  · intro h j hj
    refine ⟨(h j hj).1, ?_⟩
    match j with
    | 0 => exact Nat.zero_lt_two
    | 1 => simp [failcount]
    | i + 2 => exact failcount_lt.mpr ((h (i + 1) (by omega)).2 (by omega) hj)

theorem lv_bbdirinit_ends {r : Result} (h : lv_bbdirinit true o 12 fuel = some r) : r.error = 0 ∧
    ∃ m, ¬ Goes o m ∧ (∀ j < m, Goes o j) ∧ ((∃ x ∈ r.reads, x.2.error = 0) ↔ (o m).error = 0) ∧
      ∀ x ∈ r.reads, x.1 = PVRA_BBDIR_SN1 ∨ x.1 = PVRA_BBDIR_SN2 := by
  obtain ⟨⟨error, reads⟩, hr', rfl⟩ := map_eq_some_iff.mp h
  obtain ⟨rfl, m, -, hm, hall, hread⟩ := readLoop_ends hr'
  exact ⟨rfl, m, hm, fun j => hall j (Nat.zero_le j), hread, readLoop_copies (.inl ⟨rfl, rfl⟩) _ _ hr'⟩

/-- What reading the directory is to come to. -/
def ReadOk (o : ℕ → Outcome) : Prop := ∃ fuel r, lv_bbdirinit true o 12 fuel = some r ∧
  (r.error = 0 → ∃ x ∈ r.reads, x.2.error = 0 ∧ (x.1 = PVRA_BBDIR_SN1 ∨ x.1 = PVRA_BBDIR_SN2)) ∧
  (r.error ≠ 0 → (∃ x ∈ r.reads, x.2.error = r.error) ∧ r.pv_bbdir = false ∧ r.bbdirsize = 0)

theorem ReadOk.exists_read (h : ReadOk o) : ∃ n, (o n).error = 0 ∧ ∀ j < n, Goes o j := by
  obtain ⟨fuel, r, hr, hok, -⟩ := h
  obtain ⟨h0, m, -, hall, hread, -⟩ := lv_bbdirinit_ends hr
  obtain ⟨x, hx, hx0, -⟩ := hok h0
  exact ⟨m, hread.mp ⟨x, hx, hx0⟩, hall⟩

/-- A read succeeds, and of the reads before it none but the first and the last one have read nothing. -/
theorem read_ok_iff (o : ℕ → Outcome) : ReadOk o ↔
    ∃ n, (o n).error = 0 ∧ ∀ j < n, (o j).error ≠ 0 ∧ (1 ≤ j → j + 1 < n → ¬ (o j).Full) := by
  constructor
  · intro h
    obtain ⟨n, hn, hall⟩ := h.exists_read
    exact ⟨n, hn, forall_goes_iff.mp hall⟩
  · rintro ⟨n, hn, hall⟩
    obtain ⟨fuel, r', hr'⟩ := exists_readLoop (fun h : Goes o n => h.1 hn) n (Nat.zero_add n) PVRA_BBDIR_SN1
      (PVRA_BBDIR_SN2 - PVRA_BBDIR_SN1)
    obtain ⟨r, hr⟩ : ∃ r, lv_bbdirinit true o 12 fuel = some r := ⟨_, map_eq_some_iff.mpr ⟨r', hr', rfl⟩⟩
    obtain ⟨h0, m, hstop, hm, hread, hcopies⟩ := lv_bbdirinit_ends hr
    have hmn : m = n := by
      rcases Nat.lt_trichotomy m n with hlt | heq | hgt
      · exact absurd (forall_goes_iff.mpr hall m hlt) hstop
      · exact heq
      · exact absurd hn (hm n hgt).1
    obtain ⟨x, hx, hx0⟩ := hread.mpr (hmn ▸ hn)
    exact ⟨fuel, r, hr, fun _ => ⟨x, hx, hx0, hcopies x hx⟩, fun h => absurd h0 h⟩

/-- Neither copy can be read. -/
theorem not_read_ok : ¬ ReadOk fun _ => ⟨5, PVRA_BBDIR_LENGTH * DEV_BSIZE⟩ := by
  intro h
  obtain ⟨n, hn, -⟩ := h.exists_read
  cases hn

end Reads

end Osf1.Defect.Directory
