import Osf1.Semaphore.Wakeup

/-!
# Every step of the semaphore facility keeps its sleepers

Every step leaves the counters and the sleepers in order, and wakes the sleepers for whom it
has done something.
-/

set_option autoImplicit false

namespace Osf1.Semaphore

open Function Option

open Osf1.Computation Osf1.Ipc

variable {si : SemInfo} {zalloc : Bool} {p : Pid} {s t : State} {sema : ℕ → SemidDs} {semid : ℤ} {i base : ℕ} {c : Chan}
  {q : Pid} {f : Frame} {r : Pass} {user : Option (List Sembuf)}

theorem WakeupInv.answered (h : WakeupInv si s) (hw : Wakes s t) : WakeupInv si t ∧ Answers s t :=
  ⟨h.wakes hw, hw.answers⟩

theorem awaitedBy_happens {a : Awaited} {v val : UInt16} (h : a.Happens v val) : a ∈ [awaitedBy val] := by
  unfold awaitedBy
  cases a with
  | semncnt =>
    have hlt : v.toNat < val.toNat := UInt16.lt_iff_toNat_lt.mp h
    have hne : val ≠ 0 := by
      rintro rfl
      cases hlt
    simp [hne]
  | semzcnt => simp [h.2]

section

variable (h : WakeupInv si s)
include h

theorem WakeupInv.setval (cred : Cred) (semid semnum arg : ℤ) :
    WakeupInv si (setval si p cred semid semnum arg s).1 ∧
      Answers s (setval si p cred semid semnum arg s).1 := by
  unfold Semaphore.setval
  split
  · exact h.answered (.refl s)
  simp only
  split
  · exact h.answered (.refl s)
  split
  · exact h.answered (.refl s)
  split
  · exact h.answered (.refl s)
  · apply h.answered
    apply Wakes.withUndo
    exact wakes_setSem h _ _ _ (fun semp a => by cases a <;> rfl) fun a hhap =>
      awaitedBy_happens hhap

theorem WakeupInv.setall (cred : Cred) (semid : ℤ) (semvals : Option (ℕ → UInt16)) :
    WakeupInv si (setall si p cred semid semvals s).1 ∧
      Answers s (setall si p cred semid semvals s).1 := by
  unfold Semaphore.setall
  cases semconv si s.sema semid with
  | none => exact h.answered (.refl s)
  | some i =>
    simp only
    split
    · exact h.answered (.refl s)
    split
    · exact h.answered (.refl s)
    split
    · exact h.answered (.refl s)
    · apply h.answered
      have hundo := (Wakes.refl s).withUndo (semunrm semid 0 (s.sema i).semNsems s.undo)
      exact hundo.trans (wakes_setSems (h.wakes hundo) _ _ (fun num semp a => by cases a <;> rfl)
        fun num semp a hhap => awaitedBy_happens hhap)

theorem wakes_semexitEntry (e : UndoEntry) : Wakes s (semexitEntry si s e) := by
  have hvmx := si.semvmx_lt
  unfold semexitEntry
  cases semconv si s.sema e.uentId with
  | none => exact .refl s
  | some i =>
    simp only
    split
    · exact .refl s
    · rename_i hval
      apply wakes_setSem h
      · intro semp a
        cases a <;> rfl
      · -- the value that is written is the sum
        intro a hhap
        generalize s.mem (s.sema i).semBase e.uentNum = semp at hhap hval
        have hsum : (UInt16.ofInt (semp.semval.toNat + e.uentAoe)).toNat =
            semp.semval.toNat + e.uentAoe := by
          simp only [UInt16.ofInt, UInt16.toNat_ofNat']
          omega
        cases a with
        | semncnt =>
          have hlt : semp.semval.toNat < (UInt16.ofInt (semp.semval.toNat + e.uentAoe)).toNat :=
            UInt16.lt_iff_toNat_lt.mp hhap
          have hpos : e.uentAoe > 0 := by omega
          simp [hpos]
        | semzcnt =>
          have hzero : (UInt16.ofInt (semp.semval.toNat + e.uentAoe)).toNat = 0 := congrArg UInt16.toNat hhap.2
          have h0 : semp.semval.toNat + e.uentAoe = 0 := by omega
          simp [h0]

theorem WakeupInv.semexit : WakeupInv si (semexit si p s) ∧ Answers s (semexit si p s) := by
  unfold Semaphore.semexit
  cases s.undo.uSemundo p with
  | none => exact h.answered (.refl s)
  | some undop =>
    simp only
    split
    · exact h.answered ((Wakes.refl s).withUndo _)
    · exact h.answered ((wakes_foldl (fun _ e h => wakes_semexitEntry h e) undop.unEntp h).withUndo _)

end

theorem semconv_some (h : semconv si sema semid = some i) :
    i = (semid % si.semmni).toNat ∧ i < si.semmni ∧ (sema i).semPerm.Alloc := by
  have hmni := si.semmni_pos
  unfold semconv at h
  split at h
  · cases h
  simp only at h
  split at h
  · cases h
  · rename_i halloc
    cases h
    refine ⟨rfl, ?_, ?_⟩
    · have hlt := Int.emod_lt_of_pos semid (Int.natCast_pos.mpr hmni)
      omega
    · exact not_not.mp fun hnot => halloc (.inl hnot)

theorem WakeupInv.resema (h : WakeupInv si s) (hlive : ∀ q f, s.proc q = .asleep f → Live si sema f.chan) :
    WakeupInv si { s with sema := sema } :=
  ⟨h.awaited, h.bounded, hlive, h.blocked, h.sp⟩

theorem Live.update {sp : SemidDs} (h : Live si sema c)
    (hi : (sema i).semPerm.Alloc → (sema i).semBase = c.base → c.num < (sema i).semNsems →
      sp.semPerm.Alloc ∧ sp.semBase = c.base ∧ c.num < sp.semNsems) : Live si (update sema i sp) c := by
  obtain ⟨j, hj, halloc, hbase, hnum⟩ := h
  refine ⟨j, hj, ?_⟩
  by_cases hji : j = i
  · subst hji
    rw [update_self]
    exact hi halloc hbase hnum
  · rw [update_of_ne hji]
    exact ⟨halloc, hbase, hnum⟩

section

variable (h : WakeupInv si s)
include h

theorem WakeupInv.ipcSet (cred : Cred) (semid : ℤ) (uid gid mode : ℕ) :
    WakeupInv si (ipcSet si cred semid uid gid mode s).1 ∧
      Answers s (ipcSet si cred semid uid gid mode s).1 := by
  unfold Semaphore.ipcSet
  cases semconv si s.sema semid with
  | none => exact h.answered (.refl s)
  | some i =>
    simp only
    split
    · exact h.answered (.refl s)
    · refine ⟨h.resema fun q f hf => (h.live q f hf).update fun _ hbase hnum => ?_, ?_⟩
      · exact ⟨alloc_or (by decide), hbase, hnum⟩
      · exact (Wakes.refl s).answers

theorem setSems_cleared {n : ℕ} {f : ℕ → Sem → Sem}
    {awaited : ℕ → List Awaited} (hf : ∀ num semp a, (f num semp).count a = semp.count a)
    (hall : ∀ num a, a ∈ awaited num) {fr : Frame} (hq : (setSems base n f awaited s).proc q = .asleep fr) :
    ¬(fr.chan.base = base ∧ fr.chan.num < n) := by
  induction n with
  | zero => exact fun hlt => absurd hlt.2 (Nat.not_lt_zero _)
  | succ n ih =>
    have hwakes : Wakes s (setSems base n f awaited s) := wakes_setSems h base n hf fun num _ a _ => hall num a
    have hlast : setSems base (n + 1) f awaited s =
        setSem base n (f n) (awaited n) (setSems base n f awaited s) := by
      unfold setSems
      rw [List.range_succ, List.foldl_append]
      rfl
    rw [hlast] at hq
    have hn := setSem_cleared (h.wakes hwakes) (hf n) hq (hall n _)
    have hrest := ih (wakeup_asleep.mp hq).1
    rintro ⟨hbase, hlt⟩
    by_cases heq : fr.chan.num = n
    · exact hn ⟨hbase, heq⟩
    · exact hrest ⟨hbase, by omega⟩

theorem WakeupInv.rmid (cred : Cred) (semid : ℤ) :
    WakeupInv si (rmid si cred semid s).1 ∧ Answers s (rmid si cred semid s).1 := by
  unfold Semaphore.rmid
  cases semconv si s.sema semid with
  | none => exact h.answered (.refl s)
  | some i =>
    simp only
    split
    · exact h.answered (.refl s)
    · have hundo := (Wakes.refl s).withUndo (semunrm semid 0 (s.sema i).semNsems s.undo)
      have hf (num : ℕ) (semp : Sem) (a : Awaited) :
          ({ semp with semval := 0, sempid := 0 } : Sem).count a = semp.count a := by
        cases a <;> rfl
      have hall (num : ℕ) (a : Awaited) : a ∈ [Awaited.semncnt, .semzcnt] := by
        cases a <;> decide
      have hsems := wakes_setSems (h.wakes hundo) (s.sema i).semBase (s.sema i).semNsems hf
        fun num _ a _ => hall num a
      have hwakes := hundo.trans hsems
      refine ⟨(h.wakes hwakes).resema fun q f hq => ?_, hwakes.answers⟩
      have hlive := h.live q f (hwakes.asleep hq)
      rw [hwakes.sema]
      apply hlive.update
      intro _ hbase hnum
      exact absurd ⟨hbase.symm, hnum⟩ (setSems_cleared (h.wakes hundo) hf hall hq)

theorem WakeupInv.semget (cred : Cred) (key nsems : ℤ) (semflg : ℕ) (hunused : Unused si s base) :
    WakeupInv si (semget si cred key nsems semflg base s).1 ∧
      Answers s (semget si cred key nsems semflg base s).1 := by
  unfold Semaphore.semget
  split
  · exact h.answered (.refl s)
  · split
    · exact h.answered (.refl s)
    · exact h.answered (.refl s)
  · rename_i i hgot
    obtain ⟨hi, hfree⟩ := ipcget_fresh hgot
    simp only [List.getElem_map, List.getElem_range] at hfree
    have hresema {sp : SemidDs} : ∀ q f, s.proc q = .asleep f → Live si (update s.sema i sp) f.chan :=
      fun q f hf => (h.live q f hf).update fun halloc => absurd halloc hfree
    split
    · exact ⟨h.resema hresema, (Wakes.refl s).answers⟩
    · -- nobody sleeps on the block that is cleared
      have hnone (q : Pid) (f : Frame) (hf : s.proc q = .asleep f) : f.chan.base ≠ base := by
        obtain ⟨j, hj, halloc, hbase, -⟩ := h.live q f hf
        rw [← hbase]
        exact hunused j hj halloc
      have hwakes : Wakes s { s with mem := update s.mem base fun num =>
          if num < nsems.toNat then Sem.zero else s.mem base num } := by
        refine ⟨rfl, fun _ => .inl rfl, fun c => ?_, fun q f hf => ?_⟩
        · by_cases hc : c.base = base ∧ c.num < nsems.toNat
          · refine .inr ⟨?_, fun q f hf heq => hnone q f hf (heq ▸ hc.1)⟩
            unfold State.count
            rw [hc.1]
            simp only [update_self, if_pos hc.2]
            cases c.awaited <;> rfl
          · refine .inl ⟨?_, fun _ _ hf _ => hf⟩
            unfold State.count
            by_cases hbase : c.base = base
            · have hnum : ¬c.num < nsems.toNat := fun hlt => hc ⟨hbase, hlt⟩
              rw [hbase]
              simp only [update_self, if_neg hnum]
            · simp [hbase]
        · have hsame : State.semval { s with mem := update s.mem base fun num =>
              if num < nsems.toNat then Sem.zero else s.mem base num } f.chan =
                s.semval f.chan := by
            simp [State.semval, hnone q f hf]
          rw [hsame]
          exact f.chan.awaited.not_happens_self _
      exact ⟨(h.wakes hwakes).resema hresema, hwakes.answers⟩

theorem WakeupInv.quiet (hsema : t.sema = s.sema) (hval : ∀ c, t.semval c = s.semval c)
    (hasleep : ∀ q f, t.proc q = .asleep f → s.proc q = .asleep f ∧ t.count f.chan ≠ 0)
    (hwoken : ∀ q f, t.proc q = .woken f → s.proc q = .asleep f ∨ s.proc q = .woken f)
    (hbounded : ∀ c, (t.count c).toNat ≤ tally (Proc.CountedBy c) t.proc) : WakeupInv si t ∧ Answers s t := by
  refine ⟨⟨fun q f hf => (hasleep q f hf).2, hbounded, fun q f hf => ?_, fun q f hf => ?_,
    fun q f hf => ?_⟩, fun q f _ hhap => ?_⟩
  · exact hsema ▸ h.live q f (hasleep q f hf).1
  · rw [hval]
    exact h.blocked q f (hasleep q f hf).1
  · rcases hf with hf | hf
    · exact h.sp q f (.inl (hasleep q f hf).1)
    · exact h.sp q f (hwoken q f hf)
  · rw [hval] at hhap
    exact absurd hhap (f.chan.awaited.not_happens_self _)

end

theorem setProc_elim {x y : Proc} (h : (s.setProc p x).proc q = y) (hxy : x ≠ y) : q ≠ p ∧ s.proc q = y := by
  by_cases hqp : q = p
  · subst hqp
    rw [State.setProc_self] at h
    exact absurd h hxy
  · rw [State.setProc_of_ne s _ hqp] at h
    exact ⟨hqp, h⟩

theorem WakeupInv.run (h : WakeupInv si s) (hp : ∀ c, ¬(s.proc p).CountedBy c) :
    WakeupInv si (s.setProc p .running) := by
  refine (h.quiet (t := s.setProc p .running) rfl (fun _ => rfl) (fun q f hf => ?_)
    (fun q f hf => ?_) fun c => ?_).1
  · have hold := (setProc_elim hf nofun).2
    exact ⟨hold, h.awaited q f hold⟩
  · exact .inr (setProc_elim hf nofun).2
  · have hmoved := tally_update (P := Proc.CountedBy c) s.proc p .running
    rw [if_neg (hp c)] at hmoved
    have hbounded : ((s.setProc p .running).count c).toNat ≤ _ := h.bounded c
    have hproc : (s.setProc p .running).proc = update s.proc p .running := rfl
    rw [hproc]
    omega

theorem Answers.setProc (h : Answers s t) (hp : ∀ f, s.proc p ≠ .asleep f) (x : Proc) :
    Answers s (t.setProc p x) := by
  intro q f hf hhap
  have hqp : q ≠ p := by
    rintro rfl
    exact hp f hf
  rw [State.setProc_of_ne t x hqp]
  exact h q f hf hhap

/-- `semp->awaitmember++`, and the process sleeps. -/
def State.countIn (s : State) (p : Pid) (f : Frame) : State :=
  (s.setCount f.chan (s.count f.chan + 1)).setProc p (.asleep f)

theorem State.countIn_count (s : State) (p : Pid) (f : Frame) (c : Chan) :
    (s.countIn p f).count c = if c = f.chan then s.count f.chan + 1 else s.count c :=
  State.setCount_count s f.chan c (s.count f.chan + 1)

theorem State.countIn_semval (s : State) (p : Pid) (f : Frame) (c : Chan) : (s.countIn p f).semval c = s.semval c :=
  State.setCount_semval s f.chan c (s.count f.chan + 1)

theorem State.countIn_proc (s : State) (p : Pid) (f : Frame) :
    (s.countIn p f).proc = update s.proc p (.asleep f) := rfl

theorem WakeupInv.countIn (h : WakeupInv si s) (hp : ∀ c, ¬(s.proc p).CountedBy c) (hlive : Live si s.sema f.chan)
    (hblocked : f.op.semNum = f.chan.num ∧ f.Blocked (s.semval f.chan))
    (hsp : f.sp = (f.semid % si.semmni).toNat) : WakeupInv si (s.countIn p f) := by
  have hpid : Fintype.card Pid = 32768 := Fintype.card_fin _
  have hlt : tally (Proc.CountedBy f.chan) s.proc < 32768 := hpid ▸ tally_lt_card (hp f.chan)
  have hbounded := h.bounded f.chan
  have hsucc : (s.count f.chan + 1).toNat = (s.count f.chan).toNat + 1 := by
    rw [UInt16.toNat_add]
    exact Nat.mod_eq_of_lt (by simp only [UInt16.reduceToNat]; omega)
  have hcases {q : Pid} {g : Frame} (hg : (s.countIn p f).proc q = .asleep g) :
      g = f ∨ s.proc q = .asleep g := by
    by_cases hq : q = p
    · subst hq
      simp only [State.countIn_proc, update_self, Proc.asleep.injEq] at hg
      exact .inl hg.symm
    · simp only [State.countIn_proc, update_of_ne hq] at hg
      exact .inr hg
  refine ⟨fun q g hg => ?_, fun c => ?_, fun q g hg => ?_, fun q g hg => ?_, fun q g hg => ?_⟩
  · rw [State.countIn_count]
    split
    · intro hzero
      have hzero' := congrArg UInt16.toNat hzero
      rw [hsucc] at hzero'
      exact absurd hzero' (Nat.succ_ne_zero _)
    · rename_i hne
      rcases hcases hg with heq | hold
      · exact absurd (heq ▸ rfl) hne
      · exact h.awaited q g hold
  · have hmoved := tally_update (P := Proc.CountedBy c) s.proc p (.asleep f)
    rw [if_neg (hp c)] at hmoved
    rw [State.countIn_count, State.countIn_proc]
    by_cases hc : c = f.chan
    · subst hc
      have hin : (Proc.asleep f).CountedBy f.chan := rfl
      rw [if_pos hin] at hmoved
      rw [if_pos rfl, hsucc]
      omega
    · have hold := h.bounded c
      rw [if_neg hc]
      omega
  · rcases hcases hg with heq | hold
    · exact heq ▸ hlive
    · exact h.live q g hold
  · rw [State.countIn_semval]
    rcases hcases hg with heq | hold
    · exact heq ▸ hblocked
    · exact h.blocked q g hold
  · by_cases hq : q = p
    · subst hq
      simp only [State.countIn_proc, update_self] at hg
      rcases hg with hg | hg
      · cases hg
        exact hsp
      · cases hg
    · simp only [State.countIn_proc, update_of_ne hq] at hg
      exact h.sp q g hg

theorem Wakes.notCounted (h : Wakes s t) (hp : ¬(s.proc p).CountedBy c) : ¬(t.proc p).CountedBy c := by
  rcases h.proc p with heq | ⟨f, -, hf⟩
  · rw [heq]
    exact hp
  · rw [hf]
    exact id

/-- A `semop` at the label `check`, of a process that is not asleep and for a set in use. -/
structure Pass.Ready (si : SemInfo) (p : Pid) (s : State) (r : Pass) : Prop where
  notAsleep : ∀ f, s.proc p ≠ .asleep f
  notCounted : ∀ c, ¬(s.proc p).CountedBy c
  sp : r.sp = (r.semid % si.semmni).toNat
  lt : r.sp < si.semmni
  alloc : (s.sema r.sp).semPerm.Alloc

section

variable (h : WakeupInv si s)
include h

theorem WakeupInv.semopRun (hu : UndoWf si (s.undo.undop p))
    (hr : r.Ready si p s) (hnofault : (semopRun si zalloc p r s).2 ≠ .fault) :
    WakeupInv si (semopRun si zalloc p r s).1 ∧ Answers s (semopRun si zalloc p r s).1 := by
  have hend : LoopEnd si zalloc p r.semid (s.sema r.sp).semNsems (s.work r.sp) r.ops _ :=
    semopLoop_end (List.nil_append r.ops).symm (.nil rfl rfl) hu
  have hclears : LoopClears (s.work r.sp)
      (semopLoop si zalloc p r.semid (s.sema r.sp).semNsems r.ops [] (s.work r.sp)) :=
    semopLoop_clears r.ops [] ((Clears.refl (s.work r.sp)).informs fun _ => rfl)
  unfold Semaphore.semopRun Pass.run semopPass at hnofault ⊢
  generalize semopLoop si zalloc p r.semid (s.sema r.sp).semNsems r.ops [] (s.work r.sp) = x
    at hend hclears hnofault ⊢
  have hwakes {w : Work} (hw : Informs (s.work r.sp) w) : Wakes s (s.putWork r.sp w) :=
    wakes_of_informs h w.undo ⟨rfl, rfl⟩ hw
  -- the call returns
  have hreturns {w : Work} (hw : Informs (s.work r.sp) w) :
      WakeupInv si ((s.putWork r.sp w).setProc p .running) ∧ Answers s ((s.putWork r.sp w).setProc p .running) :=
    ⟨(h.wakes (hwakes hw)).run fun c => (hwakes hw).notCounted (hr.notCounted c),
      (hwakes hw).answers.setProc hr.notAsleep .running⟩
  cases hclears with
  | done hw =>
    exact hreturns (hw.trans (setPids_informs r.ops _))
  | error errno hw =>
    cases hend with
    | error _ _ _ hback => exact hreturns (hw.informs hback.semval)
  | fault w => simp at hnofault
  | @sleep w op done a hw =>
    cases hend with
    | sleep _ _ _ rest _ hops hnum hlow hwaits hback =>
      have hval (n : ℕ) : (w.sems n).semval = ((s.work r.sp).sems n).semval := by
        rw [← hback.semval n]
        unfold Work.modify
        by_cases hn : n = op.semNum <;> simp [hn]
      have hu := hwakes (hw.informs hval)
      have hinv := h.wakes hu
      let f : Frame := ⟨r.semid, r.nsops, r.cred, r.sp, ⟨(s.sema r.sp).semBase, op.semNum, a⟩, op, done⟩
      have hstate : (s.putWork r.sp (w.modify op.semNum
          fun semp => semp.setCount a (semp.count a + 1))).setProc p (.asleep f) =
            (s.putWork r.sp w).countIn p f := by
        simp [State.putWork, State.setProc, State.countIn, State.setCount, State.count, Work.modify, f]
      have hlive : Live si (s.putWork r.sp w).sema f.chan := ⟨r.sp, hr.lt, hr.alloc, rfl, hnum⟩
      have hsemval : (s.putWork r.sp w).semval f.chan = ((s.work r.sp).sems op.semNum).semval := by
        rw [← hval]
        simp [State.semval, State.putWork, f]
      have hblocked : f.Blocked ((s.putWork r.sp w).semval f.chan) := by
        rw [hsemval]
        cases a with
        | semncnt => exact hwaits
        | semzcnt =>
          refine ⟨hwaits.1, fun hsum hzero => hwaits.2 ?_⟩
          rw [hzero] at hlow ⊢
          exact le_antisymm (by simpa using hsum) hlow
      have hnot (c : Chan) : ¬((s.putWork r.sp w).proc p).CountedBy c := hu.notCounted (hr.notCounted c)
      simp only [reduceCtorEq, if_false]
      refine ⟨?_, ?_⟩
      · have hwaiting := hinv.countIn hnot hlive ⟨rfl, hblocked⟩ hr.sp
        rw [← hstate] at hwaiting
        exact hwaiting
      · intro q g hq hhap
        have hqp : q ≠ p := fun heq => hr.notAsleep g (heq ▸ hq)
        have hold : (s.putWork r.sp w).proc q = .woken g := by
          apply hu.answers q g hq
          rw [← State.countIn_semval (s.putWork r.sp w) p f, ← hstate]
          exact hhap
        rw [State.setProc_of_ne _ _ hqp]
        exact hold

theorem WakeupInv.semop (hu : UndoWf si (s.undo.undop p))
    (hp : ∀ f, s.proc p ≠ .asleep f) (hcount : ∀ c, ¬(s.proc p).CountedBy c)
    {start : Except ℕ Pass} (hstart : ∀ r, start = .ok r → r.Ready si p s)
    (ht : ofReply (semop si zalloc p start s) = some t) : WakeupInv si t ∧ Answers s t := by
  unfold ofReply at ht
  split at ht
  · cases ht
  rename_i hnofault
  obtain rfl := some_inj.mp ht
  cases start with
  | error errno => exact ⟨h.run hcount, (Wakes.refl s).answers.setProc hp .running⟩
  | ok r => exact h.semopRun hu (hstart r rfl) hnofault

theorem WakeupInv.eintr (hp : s.proc p = .signalled f) :
    WakeupInv si (semopEintr p f s) ∧ Answers s (semopEintr p f s) := by
  unfold semopEintr
  simp only
  split
  · -- the counter is cleared, and whoever sleeps on it is woken
    have hcount (c : Chan) :
        ((s.setProc p .running).setCount f.chan 0).count c =
          if c = f.chan then 0 else s.count c :=
      State.setCount_count (s.setProc p .running) f.chan c 0
    have hval (c : Chan) : ((s.setProc p .running).setCount f.chan 0).semval c = s.semval c :=
      State.setCount_semval (s.setProc p .running) f.chan c 0
    refine h.quiet rfl hval ?_ ?_ ?_
    · intro q g hg
      obtain ⟨hg, hnot⟩ := wakeup_asleep.mp hg
      have hold := (setProc_elim hg nofun).2
      refine ⟨hold, ?_⟩
      have hne : g.chan ≠ f.chan := fun heq => hnot (List.mem_singleton.mpr heq)
      refine ne_of_eq_of_ne (hcount g.chan) ?_
      rw [if_neg hne]
      exact h.awaited q g hold
    · intro q g hg
      rcases wakeup_proc [f.chan] (s.setProc p .running).proc q with heq | hwoken
      · have hg : (s.setProc p .running).proc q = .woken g := heq.symm.trans hg
        exact .inr (setProc_elim hg nofun).2
      · obtain ⟨g', hg', -, hwoken⟩ := hwoken
        obtain rfl : g' = g := Proc.woken.inj (hwoken.symm.trans hg)
        exact .inl (setProc_elim hg' nofun).2
    · intro c
      refine le_of_eq_of_le (congrArg UInt16.toNat (hcount c)) ?_
      split
      · exact Nat.zero_le _
      · rename_i hne
        refine (h.bounded c).trans (tally_mono fun q hq => ?_)
        have hqp : q ≠ p := by
          rintro rfl
          rw [hp] at hq
          exact hne hq.symm
        rw [← State.setProc_of_ne s .running hqp] at hq
        rcases wakeup_proc [f.chan] (s.setProc p .running).proc q with heq | ⟨g, hg, hmem, -⟩
        · rw [← heq] at hq
          exact hq
        · rw [hg] at hq
          exact absurd (hq.symm.trans (List.mem_singleton.mp hmem)) hne
  · rename_i hmany
    replace hmany : 1 < (s.count f.chan).toNat := by
      have hlt := UInt16.not_le.mp hmany
      exact UInt16.lt_iff_toNat_lt.mp hlt
    have hpred : (s.count f.chan - 1).toNat = (s.count f.chan).toNat - 1 := by
      apply UInt16.toNat_sub_of_le
      exact UInt16.le_iff_toNat_le.mpr hmany.le
    have hcount (c : Chan) :
        ((s.setProc p .running).setCount f.chan (s.count f.chan - 1)).count c =
          if c = f.chan then s.count f.chan - 1 else s.count c :=
      State.setCount_count (s.setProc p .running) f.chan c (s.count f.chan - 1)
    have hval (c : Chan) :
        ((s.setProc p .running).setCount f.chan (s.count f.chan - 1)).semval c = s.semval c :=
      State.setCount_semval (s.setProc p .running) f.chan c (s.count f.chan - 1)
    refine h.quiet rfl hval ?_ ?_ ?_
    · intro q g hg
      have hold := (setProc_elim hg nofun).2
      refine ⟨hold, ne_of_eq_of_ne (hcount g.chan) ?_⟩
      split
      · intro hzero
        have hzero' := congrArg UInt16.toNat hzero
        rw [hpred, UInt16.toNat_zero] at hzero'
        omega
      · exact h.awaited q g hold
    · exact fun q g hg => .inr (setProc_elim hg nofun).2
    · intro c
      refine le_of_eq_of_le (congrArg UInt16.toNat (hcount c)) ?_
      have hmoved := tally_update (P := Proc.CountedBy c) s.proc p .running
      have hbounded := h.bounded c
      have hproc : ((s.setProc p .running).setCount f.chan (s.count f.chan - 1)).proc =
          update s.proc p .running := rfl
      have hout : ¬Proc.running.CountedBy c := id
      have hcounted : (s.proc p).CountedBy c ↔ f.chan = c := by
        rw [hp]
        exact Iff.rfl
      simp only [hcounted, ← hproc] at hmoved
      change _ ≤ tally _ ((s.setProc p .running).setCount f.chan (s.count f.chan - 1)).proc
      split
      · rename_i heq
        rw [if_pos heq.symm] at hmoved
        subst heq
        omega
      · rename_i hne
        rw [if_neg (Ne.symm hne)] at hmoved
        omega

theorem WakeupInv.signal (hp : s.proc p = .asleep f ∨ s.proc p = .woken f) :
    WakeupInv si (s.setProc p (.signalled f)) ∧ Answers s (s.setProc p (.signalled f)) := by
  refine h.quiet rfl (fun _ => rfl) (fun q g hg => ?_) (fun q g hg => ?_) fun c => ?_
  · have hold := (setProc_elim hg nofun).2
    exact ⟨hold, h.awaited q g hold⟩
  · exact .inr (setProc_elim hg nofun).2
  · refine (h.bounded c).trans (tally_mono fun q hq => ?_)
    by_cases hqp : q = p
    · subst hqp
      rw [State.setProc_self]
      rcases hp with hp | hp
      · rw [hp] at hq
        exact hq
      · rw [hp] at hq
        exact hq.elim
    · rw [State.setProc_of_ne s _ hqp]
      exact hq

end

theorem Pass.ready_enter {nsops : ℕ} {cred : Cred}
    (hp : s.proc p = .running) (h : semopEnter si semid nsops cred user s = .ok r) : r.Ready si p s := by
  unfold semopEnter at h
  split at h
  · cases h
  rename_i sp hsp
  split at h
  · cases h
  split at h
  · cases h
  split at h
  · cases h
  · cases h
    obtain ⟨hmod, hlt, halloc⟩ := semconv_some hsp
    refine ⟨fun f => ?_, fun c => ?_, hmod, hlt, halloc⟩
    · rw [hp]
      nofun
    · rw [hp]
      exact id

theorem WakeupInv.ready_again (h : WakeupInv si s) (hp : s.proc p = .woken f) (hr : semopAgain si f user s = .ok r) :
    r.Ready si p s := by
  unfold semopAgain at hr
  split at hr
  · cases hr
  rename_i sp hsp
  split at hr
  · cases hr
  · cases hr
    obtain ⟨hmod, hlt, halloc⟩ := semconv_some hsp
    have hfsp := h.sp p f (.inr hp)
    have hsame : f.sp = sp := hfsp.trans hmod.symm
    refine ⟨fun g => ?_, fun c => ?_, hfsp, hsame ▸ hlt, hsame ▸ halloc⟩
    · rw [hp]
      nofun
    · rw [hp]
      exact id

theorem WakeupInv.step (h : WakeupInv si s) (hu : TableInv si s.undo) {e : Event}
    (hs : step si s e = some t) : WakeupInv si t ∧ Answers s t := by
  cases e with
  | semget cred key nsems semflg base =>
    simp only [Semaphore.step, ite_none_right_eq_some, some.injEq] at hs
    obtain ⟨hunused, rfl⟩ := hs
    exact h.semget cred key nsems semflg hunused
  | semop zalloc p semid nsops cred user =>
    simp only [Semaphore.step, ite_none_right_eq_some] at hs
    obtain ⟨⟨hp, -⟩, hs⟩ := hs
    apply h.semop (hu.wf p) ?_ ?_ (fun r hr => Pass.ready_enter hp hr) hs
    · intro f
      rw [hp]
      rintro ⟨⟩
    · intro c
      rw [hp]
      exact id
  | again zalloc p user =>
    simp only [Semaphore.step] at hs
    split at hs
    · rename_i f hp
      simp only [ite_none_right_eq_some] at hs
      apply h.semop (hu.wf p) ?_ ?_ (fun r hr => h.ready_again hp hr) hs.2
      · intro g
        rw [hp]
        rintro ⟨⟩
      · intro c
        rw [hp]
        exact id
    · cases hs
  | signal p =>
    simp only [Semaphore.step] at hs
    split at hs
    · obtain rfl := some_inj.mp hs
      exact h.signal (.inl ‹_›)
    · obtain rfl := some_inj.mp hs
      exact h.signal (.inr ‹_›)
    · cases hs
  | eintr p =>
    simp only [Semaphore.step] at hs
    split at hs
    · obtain rfl := some_inj.mp hs
      exact h.eintr ‹_›
    · cases hs
  | setval p cred semid semnum arg =>
    obtain rfl := some_inj.mp hs
    exact h.setval cred semid semnum arg
  | setall p cred semid semvals =>
    obtain rfl := some_inj.mp hs
    exact h.setall cred semid semvals
  | rmid cred semid =>
    obtain rfl := some_inj.mp hs
    exact h.rmid cred semid
  | ipcSet cred semid uid gid mode =>
    obtain rfl := some_inj.mp hs
    exact h.ipcSet cred semid uid gid mode
  | semexit p =>
    simp only [Semaphore.step, ite_none_right_eq_some, some.injEq] at hs
    obtain ⟨-, rfl⟩ := hs
    exact h.semexit

theorem wakeupInv_start : WakeupInv si State.start := by
  refine ⟨nofun, fun c => ?_, nofun, nofun, fun q f hf => ?_⟩
  · have hzero : State.start.count c = 0 := by
      unfold State.count State.start
      cases c.awaited <;> rfl
    rw [hzero]
    exact Nat.zero_le _
  · rcases hf with hf | hf
    · cases hf
    · cases hf

theorem wakeupInv_reachable (h : (semSystem si).Reachable s) : WakeupInv si s := by
  apply h.invariant
  · rintro s rfl
    exact wakeupInv_start
  · intro s e t hs hinv hstep
    exact (hinv.step (tableInv_reachable hs) hstep).1

/-- A counter that a process sleeps on is not zero, the process is woken by every step that raises the value it
waits for, or makes it zero, and could not go on, unless operations of its own call have changed the value. -/
theorem semop_wakeups (h : (semSystem si).Reachable s) {q : Pid} {f : Frame} (hq : s.proc q = .asleep f) :
    s.count f.chan ≠ 0 ∧
    (∀ e t, step si s e = some t →
      f.chan.awaited.Happens (s.semval f.chan) (t.semval f.chan) → t.proc q = .woken f) ∧ f.op.semNum = f.chan.num ∧
    (f.chan.awaited = .semncnt → 0 ≤ opSum f.done f.op.semNum → (s.semval f.chan).toNat < -f.op.semOp) ∧
    (f.chan.awaited = .semzcnt → f.op.semOp = 0 ∧
      (opSum f.done f.op.semNum ≤ 0 → s.semval f.chan ≠ 0)) := by
  have hinv := wakeupInv_reachable h
  obtain ⟨hnum, hblocked⟩ := hinv.blocked q f hq
  refine ⟨hinv.awaited q f hq, fun e t hstep => ?_, hnum, fun ha hsum => ?_, fun ha => ?_⟩
  · exact (hinv.step (tableInv_reachable h) hstep).2 q f hq
  · simp only [Frame.Blocked, ha] at hblocked
    omega
  · simp only [Frame.Blocked, ha] at hblocked
    exact hblocked

/-- Process 1 sleeps for semaphore 0 to rise. -/
def oneSleeper : State := (semop seminfo true 1 (semopEnter seminfo 0 1 root (some [⟨0, -1, 0⟩]) oneSet) oneSet).1

theorem semop_wakeups_oneSleeper :
    oneSleeper.count ⟨0, 0, .semncnt⟩ ≠ 0 ∧ ∀ e t, step seminfo oneSleeper e = some t →
      oneSleeper.semval ⟨0, 0, .semncnt⟩ < t.semval ⟨0, 0, .semncnt⟩ →
        t.proc 1 = .woken ⟨0, 1, root, 0, ⟨0, 0, .semncnt⟩, ⟨0, -1, 0⟩, []⟩ := by
  have hset : (semSystem seminfo).Reachable oneSet :=
    .step (.init rfl) (i := .semget root IPC_PRIVATE 2 0o600 0) (by rfl)
  have hs : (semSystem seminfo).Reachable oneSleeper :=
    .step hset (i := .semop true 1 0 1 root (some [⟨0, -1, 0⟩])) (by rfl)
  have hq : oneSleeper.proc 1 = .asleep ⟨0, 1, root, 0, ⟨0, 0, .semncnt⟩, ⟨0, -1, 0⟩, []⟩ := by
    decide
  have hwakeups := semop_wakeups hs hq
  exact ⟨hwakeups.1, hwakeups.2.1⟩

/-- Process 1 adds to semaphore 0 and then waits for it to be zero, as it was before the call
and is again while the process sleeps.  A call that fails leaves it there. -/
theorem semop_sleeps_satisfied :
    ∃ s : State, (semSystem seminfo).Reachable s ∧
      ∃ f, s.proc 1 = .asleep f ∧ f.op = ⟨0, 0, 0⟩ ∧ f.chan.awaited = .semzcnt ∧
        s.semval f.chan = 0 ∧ step seminfo s (.setval 2 root (-1) 0 0) = some s := by
  have hset : (semSystem seminfo).Reachable oneSet :=
    .step (.init rfl) (i := .semget root IPC_PRIVATE 2 0o600 0) (by rfl)
  obtain ⟨s, hstep, f, hrest⟩ : ∃ s,
      step seminfo oneSet (.semop true 1 0 2 root (some [⟨0, 1, 0⟩, ⟨0, 0, 0⟩])) = some s ∧
      ∃ f, s.proc 1 = .asleep f ∧ f.op = ⟨0, 0, 0⟩ ∧ f.chan.awaited = .semzcnt ∧
        s.semval f.chan = 0 ∧ step seminfo s (.setval 2 root (-1) 0 0) = some s := by
    refine ⟨_, rfl, ⟨0, 2, root, 0, ⟨0, 0, .semzcnt⟩, ⟨0, 0, 0⟩, [⟨0, 1, 0⟩]⟩, ?_⟩
    exact ⟨by decide, rfl, rfl, by decide, rfl⟩
  exact ⟨s, hset.step hstep, f, hrest⟩

end Osf1.Semaphore
