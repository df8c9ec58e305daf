import Osf1.Defect.Model

/-!
# What `lv_validblk` finds

The search goes through one chain, that of the block that the request is at.  It ends at the lowest
defective block of the request exactly when that block is of the same hash class, and then
`lv_validblk` answers right if it does not panic.
-/

set_option autoImplicit false

namespace Osf1.Defect

open List Option

section Lookup

open Osf1.Computation

/-- A defective block of a request. -/
def Defective (pv : Pvol) (pb : Pbuf) (d : ℕ) : Prop :=
  (pb.blkno ≤ d ∧ d < pb.blkno + BYTE2BLK pb.bcount) ∧ ∃ dp, pv.listed dp ∧ pv.number dp = d

/-- The lowest defective block of a request. -/
def Lowest (pv : Pvol) (pb : Pbuf) (d : ℕ) : Prop := Defective pv pb d ∧ ∀ d', Defective pv pb d' → d ≤ d'

/-- What `lv_validblk` says about block `d`. -/
inductive AnswersAt (pv : Pvol) (pb : Pbuf) (d : ℕ) : Bool → Pbuf → Prop
  | stopsBefore {pb' : Pbuf} : pb.fixup = false → pb.blkno < d → pb'.blkno = pb.blkno →
      pb'.bcount = BLK2BYTE (d - pb.blkno) → pb'.bad = none → AnswersAt pv pb d true pb'
  | refuses {pb' : Pbuf} : pb.fixup = true ∨ d = pb.blkno → pb'.blkno = d → AnswersAt pv pb d false pb'
  | substitutes {pb' : Pbuf} {dp : ℕ} : pb.fixup = true ∨ d = pb.blkno → pv.listed dp →
      pv.number dp = d → (pv.entry dp).status = REL_DONE →
      pb'.blkno = (pv.entry dp).alternate → pb'.bcount = DEV_BSIZE → pb'.bad = some dp →
      AnswersAt pv pb d true pb'
  | relocates {pb' : Pbuf} {dp : ℕ} : pb.fixup = true ∨ d = pb.blkno → pv.listed dp →
      pv.number dp = d → pb'.blkno = d → pb'.hwreloc = true → pb'.bcount = DEV_BSIZE →
      pb'.bad = some dp → AnswersAt pv pb d true pb'

/-- `lv_validblk` reports no defect: an ordinary request goes on as it is. -/
structure ReportsNone (pb : Pbuf) (ok : Bool) (pb' : Pbuf) : Prop where
  ok : ok = true
  bad : pb'.bad = none
  whole : pb.fixup = false → pb'.blkno = pb.blkno ∧ pb'.bcount = pb.bcount

/-- The answer is right: no defect is reported only if there is none, and otherwise the answer is
about the lowest one. -/
def Answers (pv : Pvol) (pb : Pbuf) : Option (Bool × Pvol × Pbuf) → Prop
  | none => False
  | some (ok, _, pb') =>
    (ReportsNone pb ok pb' ∧ ∀ d, ¬Defective pv pb d) ∨ ∃ d, Lowest pv pb d ∧ AnswersAt pv pb d ok pb'

/-- The entry under which the table lists a block is neither being relocated nor damaged. -/
def Settled (pv : Pvol) (d : ℕ) : Prop :=
  ∀ e, (pv.defects (BBHASHINX d)).find? (fun e => decide (pv.number e.2 = d)) = some e →
    (pv.entry e.2).status = REL_DONE ∨ (pv.entry e.2).status = REL_DESIRED

/-- The condition: the lowest defective block is of the hash class that is searched, and if it is
reached and may be relocated its entry is settled. -/
def Searched (pv : Pvol) (pb : Pbuf) : Prop :=
  ∀ d, Lowest pv pb d → BBHASHINX d = BBHASHINX pb.blkno ∧
    (pb.fixup = true ∨ d = pb.blkno → pb.noreloc = false → Settled pv d)

variable {pv : Pvol} {pb pb' : Pbuf} {d d' : ℕ} {ok : Bool} {e : Link × ℕ} {blkno : ℕ}

theorem exists_lowest (h : Defective pv pb d) : ∃ d, Lowest pv pb d := by
  classical
  exact ⟨Nat.find ⟨d, h⟩, Nat.find_spec ⟨d, h⟩, fun d' hd' => Nat.find_min' ⟨d, h⟩ hd'⟩

theorem AnswersAt.unique (h : AnswersAt pv pb d ok pb') (h' : AnswersAt pv pb d' ok pb') : d = d' := by
  cases h with
  | stopsBefore _ hlt _ hcount hbad =>
    cases h' with
    | stopsBefore _ hlt' _ hcount' _ =>
      have heq := hcount.symm.trans hcount'
      simp only [BLK2BYTE, DEV_BSIZE] at heq
      omega
    | substitutes _ _ _ _ _ _ hbad' => cases hbad.symm.trans hbad'
    | relocates _ _ _ _ _ _ hbad' => cases hbad.symm.trans hbad'
  | refuses _ hblk =>
    cases h' with
    | refuses _ hblk' => exact hblk.symm.trans hblk'
  | substitutes _ _ hnum _ _ _ hbad =>
    cases h' with
    | stopsBefore _ _ _ _ hbad' => cases hbad.symm.trans hbad'
    | substitutes _ _ hnum' _ _ _ hbad' =>
      cases hbad.symm.trans hbad'
      exact hnum.symm.trans hnum'
    | relocates _ _ hnum' _ _ _ hbad' =>
      cases hbad.symm.trans hbad'
      exact hnum.symm.trans hnum'
  | relocates _ _ hnum _ _ _ hbad =>
    cases h' with
    | stopsBefore _ _ _ _ hbad' => cases hbad.symm.trans hbad'
    | substitutes _ _ hnum' _ _ _ hbad' =>
      cases hbad.symm.trans hbad'
      exact hnum.symm.trans hnum'
    | relocates _ _ hnum' _ _ _ hbad' =>
      cases hbad.symm.trans hbad'
      exact hnum.symm.trans hnum'

theorem AnswersAt.not_reportsNone (h : AnswersAt pv pb d ok pb') (hd : Defective pv pb d) :
    ¬ReportsNone pb ok pb' := by
  intro hnone
  cases h with
  | stopsBefore hfix hlt _ hcount _ =>
    have heq := (hnone.whole hfix).2.symm.trans hcount
    have hrange := hd.1.2
    rw [heq, BYTE2BLK, BLK2BYTE, Nat.mul_div_cancel _ (by decide)] at hrange
    omega
  | refuses => cases hnone.ok
  | substitutes _ _ _ _ _ _ hbad => cases hnone.bad.symm.trans hbad
  | relocates _ _ _ _ _ _ hbad => cases hnone.bad.symm.trans hbad

theorem lv_validblk_none
    (hf : (pv.defects (BBHASHINX pb.blkno)).find? (fun e => decide (pb.blkno ≤ pv.number e.2)) =
      none) : lv_validblk pv pb = some (true, pv, { pb with bad := none }) := by
  simp only [lv_validblk, hf]

theorem lv_validblk_beyond
    (hf : (pv.defects (BBHASHINX pb.blkno)).find? (fun e => decide (pb.blkno ≤ pv.number e.2)) =
      some e) (hbeyond : pb.blkno + BYTE2BLK pb.bcount ≤ pv.number e.2) :
    ∃ pb', lv_validblk pv pb = some (true, pv, pb') ∧ ReportsNone pb true pb' := by
  simp only [lv_validblk, hf]
  rw [if_pos hbeyond]
  cases hfix : pb.fixup with
  | false => exact ⟨_, rfl, ⟨rfl, rfl, fun _ => ⟨rfl, rfl⟩⟩⟩
  | true => exact ⟨_, rfl, ⟨rfl, rfl, fun h => Bool.noConfusion (hfix.symm.trans h)⟩⟩

/-- What is found is in the request: the answer is about it, unless `lv_validblk` panics. -/
theorem lv_validblk_found (hlisted : pv.listed e.2)
    (hf : (pv.defects (BBHASHINX pb.blkno)).find? (fun e => decide (pb.blkno ≤ pv.number e.2)) =
      some e) (hle : pb.blkno ≤ pv.number e.2) (hin : pv.number e.2 < pb.blkno + BYTE2BLK pb.bcount) :
    (∃ pv' ok pb', lv_validblk pv pb = some (ok, pv', pb') ∧
      AnswersAt pv pb (pv.number e.2) ok pb' ∧
      (pb.fixup = true ∨ pv.number e.2 = pb.blkno → pb.noreloc = false →
        (pv.entry e.2).status = REL_DONE ∨ (pv.entry e.2).status = REL_DESIRED)) ∨
    lv_validblk pv pb = none ∧ (pb.fixup = true ∨ pv.number e.2 = pb.blkno) ∧
      pb.noreloc = false ∧
      ¬((pv.entry e.2).status = REL_DONE ∨ (pv.entry e.2).status = REL_DESIRED) := by
  simp only [lv_validblk, hf]
  rw [if_neg (not_le.mpr hin)]
  by_cases hstop : pb.blkno < pv.number e.2 ∧ pb.fixup = false
  · rw [if_pos hstop]
    refine .inl ⟨pv, true, _, rfl, .stopsBefore hstop.2 hstop.1 rfl rfl rfl, ?_⟩
    rintro (hfix | heq)
    · exact absurd (hfix.symm.trans hstop.2) Bool.noConfusion
    · exact absurd hstop.1 (by omega)
  have hat : pb.fixup = true ∨ pv.number e.2 = pb.blkno := by
    rw [not_and_or, Bool.not_eq_false] at hstop
    rcases hstop with hge | hfix
    · exact .inr (by omega)
    · exact .inl hfix
  rw [if_neg hstop]
  cases hno : pb.noreloc with
  | true =>
    exact .inl ⟨pv, false, _, rfl, .refuses hat rfl, fun _ h => Bool.noConfusion h⟩
  | false =>
    rw [if_neg Bool.false_ne_true]
    by_cases hdone : (pv.entry e.2).status = REL_DONE
    · rw [if_pos hdone]
      exact .inl ⟨pv, true, _, rfl, .substitutes hat hlisted rfl hdone rfl rfl rfl, fun _ _ => .inl hdone⟩
    rw [if_neg hdone]
    by_cases hdesired : (pv.entry e.2).status = REL_DESIRED
    · rw [if_pos hdesired]
      split
      · exact .inl ⟨pv, false, _, rfl, .refuses hat rfl, fun _ _ => .inr hdesired⟩
      · exact .inl ⟨_, true, _, rfl, .relocates hat hlisted rfl rfl rfl rfl rfl, fun _ _ => .inr hdesired⟩
    · rw [if_neg hdesired]
      exact .inr ⟨rfl, hat, rfl, not_or.mpr ⟨hdone, hdesired⟩⟩

theorem not_answers (h : Table pv) (hd : Lowest pv pb d)
    (hclass : BBHASHINX d ≠ BBHASHINX pb.blkno) : ¬Answers pv pb (lv_validblk pv pb) := by
  cases hf : (pv.defects (BBHASHINX pb.blkno)).find?
      (fun e => decide (pb.blkno ≤ pv.number e.2)) with
  | none =>
    rw [lv_validblk_none hf]
    rintro (⟨-, hno⟩ | ⟨d', hd', hat⟩)
    · exact hno d hd.1
    · exact hat.not_reportsNone hd'.1 ⟨rfl, rfl, fun _ => ⟨rfl, rfl⟩⟩
  | some e =>
    obtain ⟨hlisted, hcls, hle, -, -⟩ := h.hashed.find?_eq_some hf
    by_cases hin : pv.number e.2 < pb.blkno + BYTE2BLK pb.bcount
    · rcases lv_validblk_found hlisted hf hle hin with
        ⟨pv', ok, pb', heq, hat, -⟩ | ⟨heq, -⟩
      · rw [heq]
        rintro (⟨-, hno⟩ | ⟨d', hd', hat'⟩)
        · exact hno d hd.1
        · have hdd : d = d' := le_antisymm (hd.2 d' hd'.1) (hd'.2 d hd.1)
          rw [hdd, hat'.unique hat] at hclass
          exact hclass hcls
      · rw [heq]
        exact id
    · obtain ⟨pb', heq, hnone⟩ := lv_validblk_beyond hf (not_lt.mp hin)
      rw [heq]
      rintro (⟨-, hno⟩ | ⟨d', hd', hat⟩)
      · exact hno d hd.1
      · exact hat.not_reportsNone hd'.1 hnone

theorem answers_iff_settled (h : Table pv) (hd : Lowest pv pb d) (hclass : BBHASHINX d = BBHASHINX pb.blkno) :
    Answers pv pb (lv_validblk pv pb) ↔
      (pb.fixup = true ∨ d = pb.blkno → pb.noreloc = false → Settled pv d) := by
  obtain ⟨dp, hdp, hnum⟩ := hd.1.2
  cases hf : (pv.defects (BBHASHINX pb.blkno)).find?
      (fun e => decide (pb.blkno ≤ pv.number e.2)) with
  | none =>
    have := h.hashed.find?_eq_none.mp hf dp hdp (hnum.symm ▸ hclass)
    exact absurd hd.1.1.1 (by omega)
  | some e =>
    obtain ⟨hlisted, -, hle, hmin, hfirst⟩ := h.hashed.find?_eq_some hf
    have hed : pv.number e.2 ≤ d := hnum ▸ hmin dp hdp (hnum.symm ▸ hclass) (hnum.symm ▸ hd.1.1.1)
    have hin : pv.number e.2 < pb.blkno + BYTE2BLK pb.bcount := hed.trans_lt hd.1.1.2
    have heq : pv.number e.2 = d := le_antisymm hed (hd.2 _ ⟨⟨hle, hin⟩, e.2, hlisted, rfl⟩)
    have hsettled : Settled pv d ↔
        ((pv.entry e.2).status = REL_DONE ∨ (pv.entry e.2).status = REL_DESIRED) := by
      rw [heq, ← hclass] at hfirst
      unfold Settled
      rw [hfirst]
      exact ⟨fun hs => hs e rfl, fun hs _ he => some.inj he ▸ hs⟩
    rw [hsettled]
    rcases lv_validblk_found hlisted hf hle hin with
      ⟨pv', ok, pb', hr, hat, hst⟩ | ⟨hr, hat, hno, hst⟩
    · rw [hr, ← heq]
      refine iff_of_true (.inr ⟨_, ?_, hat⟩) hst
      rw [heq]
      exact hd
    · rw [hr, ← heq]
      exact iff_of_false id fun hs => hst (hs hat hno)

theorem answers_iff (h : Table pv) (pb : Pbuf) : Answers pv pb (lv_validblk pv pb) ↔ Searched pv pb := by
  by_cases hnone : ∀ d, ¬Defective pv pb d
  · refine iff_of_true ?_ fun d hd => absurd hd.1 (hnone d)
    cases hf : (pv.defects (BBHASHINX pb.blkno)).find?
        (fun e => decide (pb.blkno ≤ pv.number e.2)) with
    | none =>
      rw [lv_validblk_none hf]
      exact .inl ⟨⟨rfl, rfl, fun _ => ⟨rfl, rfl⟩⟩, hnone⟩
    | some e =>
      obtain ⟨hlisted, -, hle, -, -⟩ := h.hashed.find?_eq_some hf
      have hbeyond := not_lt.mp fun hin => hnone _ ⟨⟨hle, hin⟩, e.2, hlisted, rfl⟩
      obtain ⟨pb', heq, hreports⟩ := lv_validblk_beyond hf hbeyond
      rw [heq]
      exact .inl ⟨hreports, hnone⟩
  · obtain ⟨d₀, hd₀⟩ := not_forall_not.mp hnone
    obtain ⟨d, hd⟩ := exists_lowest hd₀
    have huniq (d' : ℕ) (hd' : Lowest pv pb d') : d' = d := le_antisymm (hd'.2 d hd.1) (hd.2 d' hd'.1)
    by_cases hclass : BBHASHINX d = BBHASHINX pb.blkno
    · rw [answers_iff_settled h hd hclass]
      constructor
      · intro hs d' hd'
        rw [huniq d' hd']
        exact ⟨hclass, hs⟩
      · exact fun hs => (hs d hd).2
    · exact iff_of_false (not_answers h hd hclass) fun hs => hclass (hs d hd).1

/-- In every run whose steps meet the conditions, the table is sound in every state reached, and
there the answer to every request is right exactly under the condition on the lookup. -/
theorem table_and_lookup (h : (tableSystem.restrict Orderly).Reachable pv) :
    Table pv ∧ ∀ pb, Answers pv pb (lv_validblk pv pb) ↔ Searched pv pb :=
  ⟨table_of_reachable h, answers_iff (table_of_reachable h)⟩

/-- A directory that lists one block, as it is on the disk. -/
def dirOne (blkno : ℕ) : List Bblk :=
  ⟨4, low 0x5464544, 3, low 0x1305443⟩ :: ⟨DEFECT_SYS, low blkno, REL_DESIRED, 0⟩ ::
    List.replicate (PVRA_BBDIR_LENGTH * DEFECTPERBLK - 2) Bblk.null

/-- The volume with this directory is attached. -/
def attachOne (blkno : ℕ) : InitInput := ⟨0, some (dirOne blkno), false, true⟩

def volumeOne (blkno : ℕ) : Pvol := lv_initdefects (freshPvol 0 0 0) (attachOne blkno)

theorem bbdir_hashEntry (pv : Pvol) (dp : ℕ) : (hashEntry pv dp).bbdir = pv.bbdir := by
  unfold hashEntry lv_defecthash
  split
  · split
    · rfl
    · rename_i hsome
      split at hsome
      · cases hsome
      · cases hsome
        rfl
  · rfl

theorem bbdir_foldl_hashEntry (l : List ℕ) (pv : Pvol) : (l.foldl hashEntry pv).bbdir = pv.bbdir := by
  induction l generalizing pv with
  | nil => rfl
  | cons dp l ih => rw [foldl_cons, ih, bbdir_hashEntry]

theorem kept_attachOne (blkno : ℕ) (dir : List Bblk) : (attachOne blkno).kept dir = dir :=
  if_neg fun h => Bool.noConfusion h.2

theorem bbdir_volumeOne (blkno : ℕ) : (volumeOne blkno).bbdir = dirOne blkno := by
  unfold volumeOne lv_initdefects
  have hdir : (attachOne blkno).dir = some (dirOne blkno) := rfl
  simp only [hdir, closePool, bbdir_foldl_hashEntry, initPool]
  exact kept_attachOne blkno _

theorem entry_dirOne (hpv : pv.bbdir = dirOne blkno) : pv.entry 1 = ⟨DEFECT_SYS, low blkno, REL_DESIRED, 0⟩ := by
  unfold Pvol.entry
  rw [hpv]
  rfl

theorem listed_dirOne {dp : ℕ} (hpv : pv.bbdir = dirOne blkno) : pv.listed dp ↔ dp = 1 := by
  match dp with
  | 0 => exact iff_of_false (fun h => absurd h.1 (by decide)) (by decide)
  | 1 =>
    refine iff_of_true ⟨le_rfl, by simp [hpv, dirOne], ?_⟩ rfl
    rw [entry_dirOne hpv]
    exact show DEFECT_SYS ≠ 0 by decide
  | dp + 2 =>
    refine iff_of_false (fun h => h.2.2 ?_) (by omega)
    unfold Pvol.listed Pvol.entry at *
    rw [hpv] at *
    have hdp : dp < PVRA_BBDIR_LENGTH * DEFECTPERBLK - 2 := by
      have := h.2.1
      simp only [dirOne, length_cons, length_replicate] at this
      omega
    simp only [dirOne, getD_eq_getElem?_getD, getElem?_cons_succ, getElem?_replicate, hdp, if_true, getD_some]
    rfl

theorem orderly_attachOne (blkno : ℕ) : InitOrderly (freshPvol 0 0 0) (attachOne blkno) := by
  refine ⟨fun _ => rfl, fun dir hdir dp hdp => ⟨rfl, ?_⟩⟩
  cases hdir
  rw [(listed_dirOne (kept_attachOne blkno _)).mp hdp]
  unfold InitInput.size roundDefects
  simp only [Nat.shiftLeft_eq, DEFECTSHIFT]
  omega

theorem reachable_volumeOne (blkno : ℕ) : (tableSystem.restrict Orderly).Reachable (volumeOne blkno) :=
  .step (i := .initdefects (attachOne blkno)) (.init ⟨0, 0, 0, rfl⟩) ⟨orderly_attachOne blkno, rfl⟩

/-- An ordinary read. -/
def readRequest (blkno nblocks : ℕ) : Pbuf :=
  { blkno := blkno, bcount := BLK2BYTE nblocks, resid := 0, read := true, writev := false
    error := false, hwreloc := false, berror := .none, noreloc := false, fixup := false, op := .none
    swretry := 0, bad := none, start := blkno, addr := 0, startaddr := 0
    endaddr := BLK2BYTE nblocks }

/-- In every run whose steps meet the conditions: the volume that lists block 256. -/
theorem table_and_lookup_volumeOne :
    Table (volumeOne 256) ∧ ∀ pb, Answers (volumeOne 256) pb (lv_validblk (volumeOne 256) pb) ↔
      Searched (volumeOne 256) pb :=
  table_and_lookup (reachable_volumeOne 256)

/-- A read of blocks 255 and 256 is said to have no defect, and block 256 is defective. -/
theorem lookup_not_always :
    ¬∀ pv, tableSystem.Reachable pv → Table pv ∧ ∀ pb : Pbuf, pb.bcount ≤ BLK2BYTE BLKPTRK →
      Answers pv pb (lv_validblk pv pb) := by
  intro hall
  obtain ⟨pv, hreach, hpv⟩ : ∃ pv, tableSystem.Reachable pv ∧ pv.bbdir = dirOne 256 :=
    ⟨_, (reachable_volumeOne 256).of_restrict, bbdir_volumeOne 256⟩
  obtain ⟨htable, hanswers⟩ := hall pv hreach
  have hsize : (readRequest 255 2).bcount ≤ BLK2BYTE BLKPTRK := Nat.mul_le_mul_right DEV_BSIZE (by decide)
  have hnum : pv.number 1 = 256 := by
    unfold Pvol.number
    rw [entry_dirOne hpv]
    exact Nat.mod_eq_of_lt (by decide)
  have hlowest : Lowest pv (readRequest 255 2) 256 := by
    refine ⟨⟨⟨by decide, by decide⟩, 1, (listed_dirOne hpv).mpr rfl, hnum⟩, ?_⟩
    rintro d ⟨-, dp, hdp, rfl⟩
    rw [(listed_dirOne hpv).mp hdp, hnum]
  have hsearched := (answers_iff htable _).mp (hanswers (readRequest 255 2) hsize)
  exact absurd (hsearched 256 hlowest).1 (by decide)

end Lookup

/-!
## Physical transfers: `lv_begin`, `lv_end` and `lv_resume`

A request is sent to the driver piece by piece.
-/

section Physical

open Osf1.Computation

/-- What becomes of a request: it is on the queue of the driver, or its directory block is being
written, or the scheduler has been told that it is done. -/
inductive Outcome
  | queued (pv : Pvol) (pb : Pbuf)
  | updating (pv : Pvol) (pb : Pbuf)
  | done (pv : Pvol) (pb : Pbuf)

/-- Check the block that a request is at, and send the request to the driver.
SRC: lvm/lv_phys.c:97-113 and 275-294 -/
def issue (pv : Pvol) (pb : Pbuf) : Option Outcome :=
  (lv_validblk pv pb).bind fun
    | (true, pv, pb) => some (if pb.bcount ≠ 0 then .queued pv pb else .done pv pb)
    | (false, pv, pb) =>
      if pb.fixup then none
      else some (.done pv { pb with error := true, berror := .emedia })

/-- Begin physical I/O.
SRC: lvm/lv_phys.c:85-114 -/
def lv_begin (pv : Pvol) (pb : Pbuf) : Option Outcome :=
  issue pv { pb with blkno := pb.start, swretry := 0, op := .none }

/-- Resume physical I/O.
SRC: lvm/lv_phys.c:263-295 -/
def lv_resume (pv : Pvol) (pb : Pbuf) : Option Outcome :=
  issue pv
    { pb with
      bcount := pb.endaddr - pb.addr
      blkno := pb.start + BYTE2BLK (pb.addr - pb.startaddr) }

/-- The relocation that a piece has needed.
SRC: lvm/lv_phys.c:151-173 -/
def endRelocation (pv : Pvol) (pb : Pbuf) : Option (Pvol × Pbuf) :=
  match pb.bad with
  | none => some (pv, pb)
  | some bad =>
    if pb.read = false ∧ (pv.entry bad).status ≠ REL_DONE then
      if pb.writev then
        some (pv, { pb with error := true, read := true, writev := false, berror := .esoft })
      else if pb.error ∧ pb.berror ≠ .erelocated then lv_swreloc pv pb
      else lv_relocdone pv pb
    else some (pv, pb)

/-- A new media error.
SRC: lvm/lv_phys.c:179-181 -/
def endError (pv : Pvol) (pb : Pbuf) : Option (Pvol × Pbuf) :=
  if pb.error ∧ (pb.berror = .emedia ∨ pb.berror = .esoft) then lv_hwreloc pv pb
  else some (pv, pb)

/-- Whether the I/O is complete.
SRC: lvm/lv_phys.c:189-220 -/
def endContinue (pv : Pvol) (pb : Pbuf) : Option Outcome :=
  if pb.op = .updatePending then some (.updating pv pb)
  else
    let pb := { pb with error := pb.error || (pb.bad.isNone && !pb.error && decide (0 < pb.resid)) }
    if pb.error ∨ pb.addr = pb.endaddr then some (.done pv pb)
    else if pb.bad.any fun bad => (pv.entry bad).status ≠ REL_DONE then some (.queued pv pb)
    else lv_resume pv pb

/-- The buffer address behind the bytes that have been processed.
SRC: lvm/lv_phys.c:140 -/
def Pbuf.advanced (pb : Pbuf) : Pbuf := { pb with addr := pb.addr + (pb.bcount - pb.resid) }

/-- The driver has completed a piece.
SRC: lvm/lv_phys.c:133-221 -/
def lv_end (pv : Pvol) (pb : Pbuf) : Option Outcome :=
  (endRelocation pv pb.advanced).bind fun r => (endError r.1 r.2).bind fun r => endContinue r.1 r.2

theorem lv_end_eq {pv pv' : Pvol} {pb pb' : Pbuf}
    (h : endRelocation pv pb.advanced = some (pv', pb')) (herror : pb'.error = false) :
    lv_end pv pb = endContinue pv' pb' := by
  have hnone : endError pv' pb' = some (pv', pb') := by
    unfold endError
    rw [if_neg fun he => Bool.noConfusion (herror.symm.trans he.1)]
  unfold lv_end
  rw [h, bind_some, hnone, bind_some]

/-- What a piece asks the driver for: `bcount` bytes of the buffer from `addr` on, and blocks from
`blkno` on. -/
structure Transfer where
  read : Bool
  addr : ℕ
  bcount : ℕ
  blkno : ℕ

def Pbuf.transfer (pb : Pbuf) : Transfer := ⟨pb.read, pb.addr, pb.bcount, pb.blkno⟩

/-- The driver completes a piece with all its bytes and without an error. -/
def Pbuf.completed (pb : Pbuf) : Pbuf := { pb with resid := 0, error := false, berror := .none }

/-- The transfers of a request whose pieces are all completed so, and what is there when the
scheduler is told. -/
inductive Runs : Outcome → List Transfer → Pvol → Pbuf → Prop
  | done {pv : Pvol} {pb : Pbuf} : Runs (.done pv pb) [] pv pb
  | piece {pv pv' : Pvol} {pb pb' : Pbuf} {o : Outcome} {ts : List Transfer} :
      lv_end pv pb.completed = some o → Runs o ts pv' pb' →
      Runs (.queued pv pb) (pb.transfer :: ts) pv' pb'

/-- The entry under which the table lists a block. -/
def Pvol.lookup (pv : Pvol) (x : ℕ) : Option Bblk :=
  ((pv.defects (BBHASHINX x)).find? fun e => decide (pv.number e.2 = x)).map fun e => pv.entry e.2

/-- The block that holds block `x`: the alternate if `x` has been relocated. -/
def Pvol.place (pv : Pvol) (x : ℕ) : ℕ :=
  match pv.lookup x with
  | some e => if e.status = REL_DONE then e.alternate else x
  | none => x

/-- Every defective block of a range is relocated, or is to be. -/
def AllSettled (pv : Pvol) (lo hi : ℕ) : Prop :=
  ∀ dp, pv.listed dp → lo ≤ pv.number dp → pv.number dp < hi →
    (pv.entry dp).status = REL_DONE ∨ (pv.entry dp).status = REL_DESIRED

section Tables

variable {pv pv' : Pvol} {x : ℕ} {e : Link × ℕ}

theorem lookup_eq_none (h : Table pv) (x : ℕ) : pv.lookup x = none ↔ ∀ dp, pv.listed dp → pv.number dp ≠ x := by
  unfold Pvol.lookup
  rw [map_eq_none_iff, find?_eq_none]
  constructor
  · intro hf dp hdp hnum
    obtain ⟨l, hl⟩ := h.hashed.exists_mem hdp
    rw [hnum] at hl
    exact hf (l, dp) hl (by simpa using hnum)
  · intro hf e he
    simpa using hf e.2 (h.hashed.used_of_mem he).1

theorem lookup_eq_some (h : Table pv) {e : Bblk} (he : pv.lookup x = some e) :
    ∃ dp, pv.listed dp ∧ pv.number dp = x ∧ pv.entry dp = e := by
  obtain ⟨a, ha, rfl⟩ := map_eq_some_iff.mp he
  refine ⟨a.2, (h.hashed.used_of_mem (mem_of_find?_eq_some ha)).1, ?_, rfl⟩
  simpa using find?_some ha

theorem lookup_congr {l₁ l₂ : List (Link × ℕ)}
    (hc : pv.defects (BBHASHINX x) = l₁ ++ e :: l₂) (hc' : pv'.defects (BBHASHINX x) = l₁ ++ l₂)
    (he : pv.number e.2 ≠ x) (hentry : ∀ a, a ∈ l₁ ∨ a ∈ l₂ → pv'.entry a.2 = pv.entry a.2) :
    pv'.lookup x = pv.lookup x := by
  have hfind : (l₁ ++ l₂).find? (fun a => decide (pv'.number a.2 = x)) =
      (l₁ ++ e :: l₂).find? (fun a => decide (pv.number a.2 = x)) := by
    have hsame : (l₁ ++ l₂).find? (fun a => decide (pv'.number a.2 = x)) =
        (l₁ ++ l₂).find? (fun a => decide (pv.number a.2 = x)) := by
      apply find?_congr
      intro a ha
      unfold Pvol.number
      rw [hentry a (mem_append.mp ha)]
    rw [hsame, find?_append, find?_append, find?_cons_of_neg (by simpa using he)]
  unfold Pvol.lookup
  rw [hc, hc', hfind]
  cases hf : (l₁ ++ e :: l₂).find? (fun a => decide (pv.number a.2 = x)) with
  | none => rfl
  | some a =>
    have hmem := mem_of_find?_eq_some hf
    have hnum : pv.number a.2 = x := by simpa using find?_some hf
    refine congrArg some (hentry a ?_)
    rw [mem_append, mem_cons] at hmem
    rcases hmem with hmem | rfl | hmem
    · exact .inl hmem
    · exact absurd hnum he
    · exact .inr hmem

theorem lookup_congr_chain (hc : pv'.defects (BBHASHINX x) = pv.defects (BBHASHINX x))
    (hentry : ∀ a ∈ pv.defects (BBHASHINX x), pv'.entry a.2 = pv.entry a.2) : pv'.lookup x = pv.lookup x := by
  have hfind : (pv.defects (BBHASHINX x)).find? (fun a => decide (pv'.number a.2 = x)) =
      (pv.defects (BBHASHINX x)).find? (fun a => decide (pv.number a.2 = x)) := by
    apply find?_congr
    intro a ha
    unfold Pvol.number
    rw [hentry a ha]
  unfold Pvol.lookup
  rw [hc, hfind]
  cases hf : (pv.defects (BBHASHINX x)).find? (fun a => decide (pv.number a.2 = x)) with
  | none => rfl
  | some a => exact congrArg some (hentry a (mem_of_find?_eq_some hf))

theorem delete_relocated (h : Table pv) {lo hi : ℕ} (hs : AllSettled pv lo hi) {d : ℕ}
    (hfirst : (pv.defects (BBHASHINX d)).find? (fun a => decide (pv.number a.2 = d)) = some e) :
    ∃ pv', lv_deletedefect (pv.setStatus e.2 REL_DEVICE) e.2 = some pv' ∧ Table pv' ∧
      AllSettled pv' lo hi ∧ (∀ x, x ≠ d → pv'.lookup x = pv.lookup x) ∧ pv'.roreloc = pv.roreloc := by
  have hstatus := h.setStatus e.2 REL_DEVICE
  have hnumber (i : ℕ) : (pv.setStatus e.2 REL_DEVICE).number i = pv.number i :=
    number_setEntry pv e.2 i _ fun _ => rfl
  have hd : pv.number e.2 = d := by simpa using find?_some hfirst
  have hsome : ∃ pv', lv_deletedefect (pv.setStatus e.2 REL_DEVICE) e.2 = some pv' := by
    unfold lv_deletedefect
    simp only [hnumber, hd]
    rw [show (pv.setStatus e.2 REL_DEVICE).defects = pv.defects from rfl, hfirst]
    exact ⟨_, rfl⟩
  obtain ⟨pv', hdel⟩ := hsome
  refine ⟨pv', hdel, hstatus.lv_deletedefect hdel, ?_⟩
  obtain ⟨hp, l₁, l₂, hl, hnum, hne, rfl⟩ := lv_deletedefect_eq hdel
  simp only [hnumber, hd] at hl hnum hne
  have hhp : hp = e := by
    have hfind : (pv.defects (BBHASHINX d)).find? (fun a => decide (pv.number a.2 = d)) =
        some hp := by
      refine find?_eq_some_iff_append.mpr ⟨by simpa using hnum, l₁, l₂, hl, fun a ha => ?_⟩
      simpa using hne a ha
    exact some.inj (hfind.symm.trans hfirst)
  subst hhp
  -- The deleted entry is on no chain any more, so that its fields do not matter.
  have hentry (i : ℕ) (hi : i ≠ hp.2) :
      ((pv.setStatus hp.2 REL_DEVICE).setEntry hp.2 fun _ => Bblk.null).entry i = pv.entry i := by
    rw [entry_setEntry_of_ne _ _ _ _ hi]
    exact entry_setEntry_of_ne pv _ _ _ hi
  have hmem : hp ∈ pv.defects (BBHASHINX d) := mem_of_find?_eq_some hfirst
  refine ⟨fun i hi hlo hhi => ?_, fun x hx => ?_, rfl⟩
  · have hip : i ≠ hp.2 := by
      rintro rfl
      refine hi.2.2 (congrArg Bblk.reason (entry_setEntry_self _ hp.2 _ ?_))
      rw [Pvol.setStatus, length_setEntry]
      exact (h.hashed.used_of_mem hmem).1.2.1
    have hlisted : pv.listed i := by
      have := (listed_setEntry_of_ne (pv.setStatus hp.2 REL_DEVICE) hp.2 i _ hip).mp hi
      exact (listed_setEntry_of_ne pv hp.2 i _ hip).mp this
    have hnum := congrArg (fun e : Bblk => (e.defect : ℕ)) (hentry i hip)
    exact (congrArg Bblk.status (hentry i hip)).symm ▸ hs i hlisted (hlo.trans_eq hnum) (hnum.symm.trans_lt hhi)
  · by_cases hxd : BBHASHINX x = BBHASHINX d
    · have hnodup := h.hashed.nodup (BBHASHINX d)
      rw [show pv.defects (BBHASHINX d) = l₁ ++ hp :: l₂ from hl, map_append, map_cons,
        nodup_middle, nodup_cons, mem_append] at hnodup
      have hchain : pv.defects (BBHASHINX x) = l₁ ++ hp :: l₂ := by
        rw [hxd]
        exact hl
      refine lookup_congr hchain ?_ ?_ ?_
      · simp only [hnumber, hd]
        rw [hxd, Function.update_self]
      · rw [hd]
        exact hx.symm
      · intro a ha
        refine hentry a.2 fun heq => hnodup.1 ?_
        rw [← heq]
        exact ha.imp (mem_map_of_mem ·) (mem_map_of_mem ·)
    · refine lookup_congr_chain ?_ fun a ha => hentry a.2 fun heq => hxd ?_
      · simp only [hnumber, hd]
        rw [Function.update_of_ne hxd]
        rfl
      · rw [← (h.hashed.used_of_mem ha).2, heq, hd]

end Tables

end Physical

end Osf1.Defect
