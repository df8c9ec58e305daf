import Osf1.Defect.Lookup

/-!
# The alternates of the defects

`lv_initdefects` puts `altpool_next` above the alternates of the entries that it hashes, and `lv_swreloc` only
moves it on.
-/

set_option autoImplicit false

namespace Osf1.Defect.Alternates

open Osf1.Computation List

/-- An entry of the directory on the disk. -/
def slot (dir : List Bblk) (dp : ℕ) : Bblk := dir.getD dp Bblk.null

/-- The alternates of a directory on the disk are distinct and lie in the pool. -/
structure Sound (pv : Pvol) (dir : List Bblk) : Prop where
  inside : ∀ dp, 1 ≤ dp → (slot dir dp).reason ≠ 0 → (slot dir dp).alternate ≠ 0 →
    pv.altpoolPsn ≤ (slot dir dp).alternate ∧ (slot dir dp).alternate.val < pv.altpoolPsn + pv.altpoolLen
  distinct : ∀ dp dq, 1 ≤ dp → 1 ≤ dq → (slot dir dp).reason ≠ 0 → (slot dir dq).reason ≠ 0 →
    (slot dir dp).alternate ≠ 0 → (slot dir dp).alternate = (slot dir dq).alternate → dp = dq

/-- `lv_initdefects`, and then calls of `lv_swreloc` for entries of the directory. -/
def relocations (pv : Pvol) (i : InitInput) : System Pvol Pbuf where
  init s := s = lv_initdefects pv i
  step s pb s' := ∃ bad pb', pb.bad = some bad ∧ bad < s.bbdir.length ∧ lv_swreloc s pb = some (s', pb')

/-- No two entries share an alternate, what is handed out is of the pool, and every entry in use is in the hash
table. -/
structure Kept (s : Pvol) : Prop where
  distinct : ∀ dp dq, s.listed dp → s.listed dq → (s.entry dp).alternate ≠ 0 →
    (s.entry dp).alternate = (s.entry dq).alternate → dp = dq
  handed : ∀ bad pb s' pb', pb.bad = some bad → bad < s.bbdir.length → lv_swreloc s pb = some (s', pb') →
    s'.altpoolNext ≠ s.altpoolNext → s.altpoolPsn ≤ pb'.blkno ∧ pb'.blkno < s.altpoolEnd
  hashed : ∀ dp, s.listed dp → ∃ l, (l, dp) ∈ s.defects (BBHASHINX (s.number dp))

/-- Nothing is hashed yet, the block numbers of the pool have 28 bits, there is memory for links, and the loop of
`lv_initdefects` comes to every entry of the disk that is in use. -/
def Covered (pv : Pvol) (i : InitInput) (dir : List Bblk) : Prop :=
  (∀ c, pv.defects c = []) ∧ pv.altpoolPsn + pv.altpoolLen ≤ 2 ^ 28 ∧
    ∀ dp, 1 ≤ dp → (slot dir dp).reason ≠ 0 → i.freelist ∧ dp < i.size dir

/-- What keeps the alternates apart: all of them are below `altpool_next`. -/
structure Pool (s : Pvol) : Prop where
  table : Table s
  psn_lt : s.altpoolPsn < s.altpoolNext
  end_le : s.altpoolEnd ≤ 2 ^ 28
  below : ∀ dp, s.listed dp → (s.entry dp).alternate.val < s.altpoolNext
  distinct : ∀ dp dq, s.listed dp → s.listed dq → (s.entry dp).alternate ≠ 0 →
    (s.entry dp).alternate = (s.entry dq).alternate → dp = dq

/-- An entry has lost its alternate, or is deleted, or nothing happened to them. -/
def Lost (e e' : Bblk) : Prop := e' = Bblk.null ∨ e'.reason = e.reason ∧ (e'.alternate = e.alternate ∨ e'.alternate = 0)

section Relocation

variable {pv pv' : Pvol} {pb pb' : Pbuf} {bad dp : ℕ}

theorem entry_setStatus (pv : Pvol) (bad dp : ℕ) (status : Fin 16) :
    ((pv.setStatus bad status).entry dp).reason = (pv.entry dp).reason ∧
      ((pv.setStatus bad status).entry dp).alternate = (pv.entry dp).alternate := by
  unfold Pvol.setStatus
  rw [entry_setEntry]
  split <;> exact ⟨rfl, rfl⟩

theorem lost_setStatus (pv : Pvol) (bad : ℕ) (status : Fin 16) :
    Lost (pv.entry dp) ((pv.setStatus bad status).entry dp) :=
  .inr ((entry_setStatus pv bad dp status).imp_right .inl)

theorem lost_clear (pv : Pvol) (bad : ℕ) (status : Fin 16) :
    Lost (pv.entry dp) (((pv.setStatus bad status).setAlternate bad 0).entry dp) := by
  obtain ⟨hreason, halt⟩ := entry_setStatus pv bad dp status
  unfold Pvol.setAlternate
  rw [entry_setEntry]
  split
  · exact .inr ⟨hreason, .inr rfl⟩
  · exact .inr ⟨hreason, .inl halt⟩

theorem lost_deletedefect (hs : lv_deletedefect pv bad = some pv') (dp : ℕ) :
    Lost (pv.entry dp) (pv'.entry dp) ∧ pv'.altpoolNext = pv.altpoolNext ∧ pv'.altpoolPsn = pv.altpoolPsn ∧
      pv'.altpoolEnd = pv.altpoolEnd := by
  obtain ⟨hp, l₁, l₂, -, -, -, rfl⟩ := lv_deletedefect_eq hs
  refine ⟨?_, rfl, rfl, rfl⟩
  change Lost _ ((pv.setEntry hp.2 fun _ => Bblk.null).entry dp)
  rw [entry_setEntry]
  split
  · exact .inl rfl
  · exact .inr ⟨rfl, .inl rfl⟩

/-- What `lv_swreloc` does to the directory and to the pool: it hands out the next alternate, or none. -/
theorem lv_swreloc_cases (hbad : pb.bad = some bad) (hs : lv_swreloc pv pb = some (pv', pb')) :
    pv'.altpoolPsn = pv.altpoolPsn ∧ pv'.altpoolEnd = pv.altpoolEnd ∧
      ((pv'.altpoolNext = pv.altpoolNext ∧ ∀ dp, Lost (pv.entry dp) (pv'.entry dp)) ∨
        pv.altpoolNext < pv.altpoolEnd ∧ pv'.altpoolNext = pv.altpoolNext + 1 ∧
          pb'.blkno = (pv'.entry bad).alternate ∧
          ∀ dp, pv'.entry dp = ((pv.setAlternate bad pv.altpoolNext).setStatus bad REL_PENDING).entry dp) := by
  simp only [lv_swreloc, hbad] at hs
  split at hs
  · cases hs
    exact ⟨rfl, rfl, .inl ⟨rfl, fun _ => lost_setStatus ..⟩⟩
  split at hs
  · split at hs
    next hnext =>
      cases hs
      exact ⟨rfl, rfl, .inr ⟨hnext.2, rfl, rfl, fun _ => rfl⟩⟩
    split at hs
    · cases hs
      exact ⟨rfl, rfl, .inl ⟨rfl, fun _ => lost_clear ..⟩⟩
    · obtain ⟨u, hu, hr⟩ := Option.map_eq_some_iff.mp hs
      cases hr
      have h := lost_deletedefect hu
      exact ⟨(h 0).2.2.1, (h 0).2.2.2, .inl ⟨(h 0).2.1, fun dp => (h dp).1⟩⟩
  split at hs
  · cases hs
    exact ⟨rfl, rfl, .inl ⟨rfl, fun _ => lost_clear ..⟩⟩
  · obtain ⟨u, hu, hr⟩ := Option.map_eq_some_iff.mp hs
    cases hr
    have h := lost_deletedefect hu
    exact ⟨(h 0).2.2.1, (h 0).2.2.2, .inl ⟨(h 0).2.1, fun dp => (h dp).1⟩⟩

theorem Lost.listed (h : Lost (pv.entry dp) (pv'.entry dp)) (hl : pv'.listed dp) :
    pv.listed dp ∧ ((pv'.entry dp).alternate = (pv.entry dp).alternate ∨ (pv'.entry dp).alternate = 0) := by
  rcases h with hnull | ⟨hreason, halt⟩
  · exact absurd (congrArg Bblk.reason hnull) hl.2.2
  · exact ⟨listed_of_reason hl.1 (hreason ▸ hl.2.2), halt⟩

theorem entry_handed (hbad : bad < pv.bbdir.length) (hnext : pv.altpoolNext < 2 ^ 28) :
    (((pv.setAlternate bad pv.altpoolNext).setStatus bad REL_PENDING).entry bad).alternate.val = pv.altpoolNext := by
  rw [(entry_setStatus ..).2, Pvol.setAlternate, entry_setEntry_self _ _ _ hbad]
  exact Nat.mod_eq_of_lt hnext

theorem entry_handed_of_ne (hdp : dp ≠ bad) :
    ((pv.setAlternate bad pv.altpoolNext).setStatus bad REL_PENDING).entry dp = pv.entry dp := by
  rw [Pvol.setStatus, entry_setEntry_of_ne _ _ _ _ hdp, Pvol.setAlternate, entry_setEntry_of_ne _ _ _ _ hdp]

theorem Pool.handed (h : Pool pv) (hbad : pb.bad = some bad) (hlt : bad < pv.bbdir.length)
    (hs : lv_swreloc pv pb = some (pv', pb')) (hne : pv'.altpoolNext ≠ pv.altpoolNext) :
    pv.altpoolPsn ≤ pb'.blkno ∧ pb'.blkno < pv.altpoolEnd := by
  obtain ⟨-, -, ⟨hsame, -⟩ | ⟨hnext, -, hblk, hentry⟩⟩ := lv_swreloc_cases hbad hs
  · exact absurd hsame hne
  · rw [hblk, hentry, entry_handed hlt (hnext.trans_le h.end_le)]
    exact ⟨h.psn_lt.le, hnext⟩

theorem Pool.swreloc (h : Pool pv) (hbad : pb.bad = some bad) (hlt : bad < pv.bbdir.length)
    (hs : lv_swreloc pv pb = some (pv', pb')) : Pool pv' := by
  obtain ⟨hpsn, hend, hcases⟩ := lv_swreloc_cases hbad hs
  have htable := h.table.lv_swreloc hs
  rcases hcases with ⟨hnext, hlost⟩ | ⟨hroom, hnext, -, hentry⟩
  · refine ⟨htable, by rw [hpsn, hnext]; exact h.psn_lt, hend ▸ h.end_le, fun dp hdp => ?_, fun dp dq hdp hdq hne heq => ?_⟩
    · obtain ⟨hl, halt | halt⟩ := (hlost dp).listed hdp
      · rw [halt, hnext]
        exact h.below dp hl
      · rw [halt, hnext]
        exact Nat.zero_lt_of_lt h.psn_lt
    · obtain ⟨hl, halt⟩ := (hlost dp).listed hdp
      obtain ⟨hl', halt'⟩ := (hlost dq).listed hdq
      have halt := halt.resolve_right hne
      have halt' := halt'.resolve_right (heq ▸ hne)
      exact h.distinct dp dq hl hl' (halt ▸ hne) (by rw [← halt, ← halt', heq])
  · have hbelow (dp : ℕ) (hdp : pv'.listed dp) (hne : dp ≠ bad) :
        pv'.entry dp = pv.entry dp ∧ pv.listed dp := by
      have heq : pv'.entry dp = pv.entry dp := by rw [hentry, entry_handed_of_ne hne]
      exact ⟨heq, listed_of_reason hdp.1 (heq ▸ hdp.2.2)⟩
    have hself : (pv'.entry bad).alternate.val = pv.altpoolNext := by
      rw [hentry, entry_handed hlt (hroom.trans_le h.end_le)]
    have hother (dp : ℕ) (hdp : pv'.listed dp) (hne : dp ≠ bad) : (pv'.entry dp).alternate ≠ (pv'.entry bad).alternate := by
      intro heq
      obtain ⟨hsame, hl⟩ := hbelow dp hdp hne
      have := h.below dp hl
      rw [← hsame, heq, hself] at this
      exact lt_irrefl _ this
    refine ⟨htable, by rw [hpsn, hnext]; exact h.psn_lt.trans (Nat.lt_succ_self _), hend ▸ h.end_le, fun dp hdp => ?_,
      fun dp dq hdp hdq hne heq => ?_⟩
    · rw [hnext]
      by_cases hd : dp = bad
      · rw [hd, hself]
        exact Nat.lt_succ_self _
      · obtain ⟨hsame, hl⟩ := hbelow dp hdp hd
        rw [hsame]
        exact (h.below dp hl).trans (Nat.lt_succ_self _)
    · by_cases hd : dp = bad
      · by_contra hdq'
        exact hother dq hdq (fun hq => hdq' (hd.trans hq.symm)) (hd ▸ heq.symm)
      · by_cases hq : dq = bad
        · exact absurd (hq ▸ heq) (hother dp hdp hd)
        · obtain ⟨hsame, hl⟩ := hbelow dp hdp hd
          obtain ⟨hsame', hl'⟩ := hbelow dq hdq hq
          rw [hsame] at hne heq
          rw [hsame'] at heq
          exact h.distinct dp dq hl hl' hne heq

theorem Pool.kept (h : Pool pv) : Kept pv where
  distinct := h.distinct
  handed _ _ _ _ hbad hlt hs hne := h.handed hbad hlt hs hne
  hashed _ hdp := h.table.hashed.exists_mem hdp

end Relocation

section Attach

variable {pv : Pvol} {i : InitInput} {dir : List Bblk} {size k n : ℕ}

theorem entry_initPool (pv : Pvol) (i : InitInput) (dir : List Bblk) (dp : ℕ) :
    (initPool pv i dir).entry dp = slot dir dp ∨ i.size dir ≤ dp ∧ (initPool pv i dir).entry dp = Bblk.null := by
  change (i.kept dir).getD dp _ = _ ∨ _ ∧ (i.kept dir).getD dp _ = _
  unfold InitInput.kept
  split
  · simp only [slot, getD_eq_getElem?_getD, getElem?_take]
    split
    · exact .inl rfl
    · refine .inr ⟨?_, rfl⟩
      unfold keptBlocks DEFECTPERBLK at *
      omega
  · exact .inl rfl

theorem listed_initPool (hc : Covered pv i dir) {dp : ℕ} :
    (initPool pv i dir).listed dp ↔ 1 ≤ dp ∧ (slot dir dp).reason ≠ 0 := by
  constructor
  · intro hl
    rcases entry_initPool pv i dir dp with he | ⟨-, he⟩
    · exact ⟨hl.1, he ▸ hl.2.2⟩
    · exact absurd (congrArg Bblk.reason he) hl.2.2
  · rintro ⟨hdp, hr⟩
    rcases entry_initPool pv i dir dp with he | ⟨hsize, -⟩
    · exact listed_of_reason hdp (he ▸ hr)
    · exact absurd (hc.2.2 dp hdp hr).2 (not_lt.mpr hsize)

theorem Covered.orderly (hc : Covered pv i dir) (hdir : i.dir = some dir) : InitOrderly pv i := by
  refine ⟨hc.1, fun d hd dp hl => ?_⟩
  obtain rfl := Option.some.inj (hdir.symm.trans hd)
  obtain ⟨hdp, hr⟩ := (listed_initPool hc).mp hl
  exact hc.2.2 dp hdp hr

/-- What the loop of `lv_initdefects` has done when it comes to `k`. -/
structure Passed (pv₀ pv : Pvol) (k : ℕ) : Prop where
  bbdir : pv.bbdir = pv₀.bbdir
  psn : pv.altpoolPsn = pv₀.altpoolPsn
  poolEnd : pv.altpoolEnd = pv₀.altpoolEnd
  le : pv.altpoolPsn ≤ pv.altpoolNext
  below : ∀ dp, pv₀.listed dp → dp < k → (pv₀.entry dp).alternate.val ≤ pv.altpoolNext

theorem Passed.hashEntry {pv₀ : Pvol} (h : Passed pv₀ pv k) (hb : HashedBelow size k pv) (hk : 1 ≤ k) :
    Passed pv₀ (hashEntry pv k) (k + 1) := by
  have hentry : pv.entry k = pv₀.entry k := by rw [Pvol.entry, h.bbdir]; rfl
  by_cases hl : pv.listed k
  · obtain ⟨hp, rest, -, heq⟩ := hb.hashEntry_eq hl
    rw [heq]
    refine ⟨h.bbdir, h.psn, h.poolEnd, h.le.trans (le_max_left ..), fun dp hdp hlt => ?_⟩
    rcases Nat.lt_succ_iff_lt_or_eq.mp hlt with hlt | rfl
    · exact (h.below dp hdp hlt).trans (le_max_left ..)
    · exact hentry ▸ le_max_right ..
  · rw [hashEntry_of_not_listed hk hl]
    refine ⟨h.bbdir, h.psn, h.poolEnd, h.le, fun dp hdp hlt => ?_⟩
    rcases Nat.lt_succ_iff_lt_or_eq.mp hlt with hlt | rfl
    · exact h.below dp hdp hlt
    · exact absurd (listed_of_reason hk (hentry ▸ hdp.2.2)) hl

theorem Passed.foldl {pv₀ : Pvol} (n : ℕ) (h : Passed pv₀ pv k) (hb : HashedBelow size k pv) (hk : 1 ≤ k) :
    Passed pv₀ ((range' k n).foldl Defect.hashEntry pv) (k + n) := by
  induction n generalizing k pv with
  | zero => exact h
  | succ n ih =>
    rw [range'_succ, foldl_cons, Nat.add_left_comm, Nat.add_comm n]
    exact ih (h.hashEntry hb hk) (hb.hashEntry hk) (hk.trans (Nat.le_succ k))

theorem entry_initdefects (pv : Pvol) (hdir : i.dir = some dir) (dp : ℕ) :
    (lv_initdefects pv i).entry dp = (initPool pv i dir).entry dp := by
  simp only [lv_initdefects, hdir, Pvol.entry, closePool, bbdir_foldl_hashEntry]

theorem pool_initdefects (hdir : i.dir = some dir) (hc : Covered pv i dir) (hsound : Sound pv dir) :
    Pool (lv_initdefects pv i) := by
  have horderly := hc.orderly hdir
  have hentry := entry_initdefects pv hdir
  have hb := hashedBelow_initPool horderly hdir
  have hstart : Passed (initPool pv i dir) (initPool pv i dir) 1 :=
    ⟨rfl, rfl, rfl, le_rfl, fun dp hdp hlt => absurd hdp.1 (not_le.mpr hlt)⟩
  obtain ⟨t, heq, hpassed⟩ : ∃ t, lv_initdefects pv i = closePool t ∧ Passed (initPool pv i dir) t (1 + (i.size dir - 1)) :=
    ⟨(range' 1 (i.size dir - 1)).foldl hashEntry (initPool pv i dir), by simp only [lv_initdefects, hdir],
      hstart.foldl (i.size dir - 1) hb le_rfl⟩
  have hlisted (dp : ℕ) (hl : (lv_initdefects pv i).listed dp) : (initPool pv i dir).listed dp :=
    listed_of_reason hl.1 (hentry dp ▸ hl.2.2)
  have hslot (dp : ℕ) (hl : (lv_initdefects pv i).listed dp) :
      (lv_initdefects pv i).entry dp = slot dir dp ∧ 1 ≤ dp ∧ (slot dir dp).reason ≠ 0 := by
    obtain ⟨hdp, hr⟩ := (listed_initPool hc).mp (hlisted dp hl)
    rcases entry_initPool pv i dir dp with he | ⟨hsize, -⟩
    · exact ⟨(hentry dp).trans he, hdp, hr⟩
    · exact absurd (hc.2.2 dp hdp hr).2 (not_lt.mpr hsize)
  refine ⟨Table.lv_initdefects horderly, ?_, ?_, fun dp hl => ?_, fun dp dq hl hl' hne halt => ?_⟩
  · rw [heq]
    exact Nat.lt_succ_of_le hpassed.le
  · rw [heq]
    exact hpassed.poolEnd.le.trans hc.2.1
  · have hlt := (hb.links dp (hlisted dp hl)).1
    rw [hentry, heq]
    exact Nat.lt_succ_of_le (hpassed.below dp (hlisted dp hl) (by omega))
  · obtain ⟨he, hdp, hr⟩ := hslot dp hl
    obtain ⟨he', hdq, hr'⟩ := hslot dq hl'
    rw [he] at hne halt
    exact hsound.distinct dp dq hdp hdq hr hr' hne (halt.trans (congrArg _ he'))

end Attach

/-- A directory that lists block 256, which has no alternate yet, at place 1, and block 512, whose alternate is
block 101, at place 63. -/
def sparseBlock : List Bblk :=
  ⟨4, low 0x5464544, 3, low 0x1305443⟩ :: ⟨DEFECT_SYS, 256, REL_DESIRED, 0⟩ ::
    (replicate 61 Bblk.null ++ [⟨DEFECT_SYS, 512, REL_DONE, 101⟩])

def sparse : List Bblk := sparseBlock ++ replicate ((PVRA_BBDIR_LENGTH - 1) * DEFECTPERBLK) Bblk.null

def attachSparse : InitInput := ⟨0, some sparse, false, true⟩

/-- The write of block 256 has failed. -/
def failedWrite : Pbuf :=
  { blkno := 256, bcount := DEV_BSIZE, resid := DEV_BSIZE, read := false, writev := false, error := true
    hwreloc := true, berror := .emedia, noreloc := false, fixup := false, op := .none, swretry := 0
    bad := some 1, start := 256, addr := 0, startaddr := 0, endaddr := DEV_BSIZE }

theorem used_sparse {dp : ℕ} (hdp : 1 ≤ dp) (hne : (slot sparse dp).alternate ≠ 0) : dp = 63 := by
  by_cases hlt : dp < 64
  · have hall : ∀ d < 64, 1 ≤ d → (slot sparse d).alternate ≠ 0 → d = 63 := by decide +kernel
    exact hall dp hlt hdp hne
  · refine absurd ?_ hne
    rw [slot, sparse, getD_eq_getElem?_getD, getElem?_append_right (not_lt.mp hlt), getElem?_replicate]
    split <;> rfl

end Osf1.Defect.Alternates
