import Osf1.Semaphore.Rollback
import Osf1.Semaphore.UndoTable

/-!
# `semop` does all its operations or none

A `semop` that returns zero has done every operation of its array, and subtracted those with
`SEM_UNDO` from the adjustments of the process; one that returns an error or goes to sleep
has changed no value and no adjustment.
-/

set_option autoImplicit false

namespace Osf1.Semaphore

section Atomicity

open Osf1.Computation Osf1.Ipc

variable {si : SemInfo} {zalloc : Bool} {p : Pid}

/-- The adjustment of a process for a semaphore. -/
def State.aoe (s : State) (p : Pid) (id : ℤ) (num : ℕ) : ℤ := adjustment (s.undo.entries p) id num

/-- What a `semop` with the operations `ops` has done to the set in the block `base`: all, if
it returns zero, and nothing otherwise. -/
def AllOrNothing (p : Pid) (semid : ℤ) (ops : List Sembuf) (base : ℕ) (s : State)
    (r : State × Reply) : Prop :=
  if r.2 = .returns 0 then
    (∀ num, ((r.1.mem base num).semval.toNat : ℤ) = (s.mem base num).semval.toNat + opSum ops num) ∧
    ∀ id num, r.1.aoe p id num = s.aoe p id num - if id = semid then undoSum ops num else 0
  else
    (∀ num, (r.1.mem base num).semval = (s.mem base num).semval) ∧
    ∀ id num, r.1.aoe p id num = s.aoe p id num

variable {s : State}

theorem allOrNothing_refused {semid : ℤ} {ops : List Sembuf} {base errno : ℕ} {t : State}
    (ht : t.mem = s.mem) (hu : t.undo = s.undo) (herrno : errno ≠ 0) :
    AllOrNothing p semid ops base s (t, .returns errno) := by
  unfold AllOrNothing State.aoe
  simp [herrno, ht, hu]

theorem semopRun_allOrNothing {r : Pass} (h : UndoWf si (s.undo.undop p))
    (hops : ∀ op ∈ r.ops, op.semNum < (s.sema r.sp).semNsems) :
    AllOrNothing p r.semid r.ops (s.sema r.sp).semBase s (semopRun si zalloc p r s) := by
  have hend : LoopEnd si zalloc p r.semid (s.sema r.sp).semNsems (s.work r.sp) r.ops _ :=
    semopLoop_end (List.nil_append r.ops).symm (.nil rfl rfl) h
  unfold semopRun Pass.run semopPass
  generalize semopLoop si zalloc p r.semid (s.sema r.sp).semNsems r.ops [] (s.work r.sp) = x
    at hend
  -- a state whose values and entries are the old ones
  have hnothing {t : State} {w : Work} (hw : Agrees p w (s.work r.sp))
      (hmem : t.mem (s.sema r.sp).semBase = w.sems) (hundo : t.undo = w.undo) {reply : Reply}
      (hreply : reply ≠ .returns 0) :
      AllOrNothing p r.semid r.ops (s.sema r.sp).semBase s (t, reply) := by
    unfold AllOrNothing State.aoe
    rw [if_neg hreply]
    refine ⟨fun num => ?_, fun id num => ?_⟩
    · simp only
      rw [hmem]
      exact hw.semval num
    · rw [entries_eq_undop, entries_eq_undop, hundo, hw.undop]
      rfl
  cases hend with
  | done w hd =>
    unfold AllOrNothing State.aoe
    rw [if_pos rfl]
    refine ⟨fun num => ?_, fun id num => ?_⟩
    · have hval := hd.semval_eq num
      rw [opSum_reverse] at hval
      simp only [State.setProc, State.putWork, Function.update_self]
      rw [setPids_semval]
      exact hval
    · have hadj := hd.adjustment_eq h id num
      rw [undoSum_reverse] at hadj
      rw [entries_eq_undop, entries_eq_undop]
      simp only [State.setProc, State.putWork]
      rw [setPids_undo]
      exact hadj
  | error w errno herrno hw =>
    apply hnothing hw
    · simp [State.setProc, State.putWork]
    · simp [State.setProc, State.putWork]
    · simpa using herrno
  | sleep w op done rest a hsplit hnum hlow hwaits hw =>
    apply hnothing hw
    · simp [State.setProc, State.putWork]
    · simp [State.setProc, State.putWork]
    · simp
  | fault w op hop hnum =>
    have hlt := hops op hop
    omega

/-- `semop` is all-or-nothing: from the start, whatever the array, and after a sleep, for
every array that stays within the set. -/
theorem semop_allOrNothing (h : UndoWf si (s.undo.undop p)) :
    (∀ semid sp nsops cred user, semconv si s.sema semid = some sp →
      AllOrNothing p semid (user.getD []) (s.sema sp).semBase s
        (semop si zalloc p (semopEnter si semid nsops cred user s) s)) ∧
    ∀ f user, (∀ ops ∈ user, ∀ op ∈ ops, op.semNum < (s.sema f.sp).semNsems) →
      AllOrNothing p f.semid (user.getD []) (s.sema f.sp).semBase s
        (semop si zalloc p (semopAgain si f user s) s) := by
  refine ⟨fun semid sp nsops cred user hsp => ?_, fun f user huser => ?_⟩
  · unfold semopEnter
    rw [hsp]
    simp only
    split
    · exact allOrNothing_refused rfl rfl (by decide)
    cases user with
    | none => exact allOrNothing_refused rfl rfl (by decide)
    | some ops =>
      simp only
      split
      · exact allOrNothing_refused rfl rfl ‹_›
      · rename_i hcheck
        have hwithin := checkOps_eq_zero_iff.mp (not_not.mp hcheck)
        exact semopRun_allOrNothing (r := ⟨semid, nsops, cred, sp, ops⟩) h
          fun op hop => (hwithin op hop).1
  · unfold semopAgain
    split
    · exact allOrNothing_refused rfl rfl (by decide)
    · cases user with
      | none => exact allOrNothing_refused rfl rfl (by decide)
      | some ops =>
        exact semopRun_allOrNothing (r := ⟨f.semid, f.nsops, f.cred, f.sp, ops⟩) h
          (huser ops rfl)

/-- Process 1 adds to both semaphores of a set. -/
theorem semop_allOrNothing_oneSet :
    AllOrNothing 1 0 [⟨0, 1, SEM_UNDO⟩, ⟨1, 2, 0⟩] 0 oneSet
      (semop seminfo true 1
        (semopEnter seminfo 0 2 root (some [⟨0, 1, SEM_UNDO⟩, ⟨1, 2, 0⟩]) oneSet) oneSet) ∧
    (semop seminfo true 1
      (semopEnter seminfo 0 2 root (some [⟨0, 1, SEM_UNDO⟩, ⟨1, 2, 0⟩]) oneSet) oneSet).2 =
      .returns 0 := by
  refine ⟨?_, by decide⟩
  have hwf : UndoWf seminfo (oneSet.undo.undop 1) := undoWf_empty
  exact (semop_allOrNothing hwf).1 0 0 2 root (some [⟨0, 1, SEM_UNDO⟩, ⟨1, 2, 0⟩]) rfl

end Atomicity

/-!
## No wakeup is lost

A counter that has been cleared may be counted down again by a process that was interrupted before, so that it
may fall below the number of its sleepers.
-/

section Wakeup

open Osf1.Computation Osf1.Ipc

variable {si : SemInfo} {zalloc : Bool} {p : Pid}

/-- The value of the semaphore of a counter. -/
def State.semval (s : State) (c : Chan) : UInt16 := (s.mem c.base c.num).semval

theorem State.setCount_count (s : State) (c d : Chan) (n : UInt16) :
    (s.setCount c n).count d = if d = c then n else s.count d := by
  unfold State.setCount State.count
  by_cases hbase : d.base = c.base
  · by_cases hnum : d.num = c.num
    · have heq : d = c ↔ c.awaited = d.awaited := by
        refine ⟨fun heq => heq ▸ rfl, fun heq => ?_⟩
        have heta : d = ⟨d.base, d.num, d.awaited⟩ := rfl
        rw [heta, hbase, hnum, ← heq]
      simp [hbase, hnum, heq]
    · have hne : d ≠ c := fun heq => hnum (heq ▸ rfl)
      simp [hbase, hnum, hne]
  · have hne : d ≠ c := fun heq => hbase (heq ▸ rfl)
    simp [hbase, hne]

theorem State.setCount_semval (s : State) (c d : Chan) (n : UInt16) : (s.setCount c n).semval d = s.semval d := by
  unfold State.semval State.setCount
  by_cases hbase : d.base = c.base
  · by_cases hnum : d.num = c.num
    · simp [hbase, hnum]
    · simp [hbase, hnum]
  · simp [hbase]

/-- A process has counted itself, and has not been woken. -/
def Proc.CountedBy (c : Chan) : Proc → Prop
  | .asleep f | .signalled f => f.chan = c
  | .running | .woken _ => False

instance (c : Chan) : DecidablePred (Proc.CountedBy c) := fun x => by
  cases x <;> unfold Proc.CountedBy <;> infer_instance

/-- The operation that a process sleeps for cannot be done, if the value is `v`. -/
def Frame.Blocked (f : Frame) (v : UInt16) : Prop :=
  match f.chan.awaited with
  | .semncnt => f.op.semOp < 0 ∧ v.toNat + opSum f.done f.op.semNum < -f.op.semOp
  | .semzcnt => f.op.semOp = 0 ∧ (opSum f.done f.op.semNum ≤ 0 → v ≠ 0)

/-- A counter is that of a semaphore of a set in use. -/
def Live (si : SemInfo) (sema : ℕ → SemidDs) (c : Chan) : Prop :=
  ∃ i < si.semmni, (sema i).semPerm.Alloc ∧ (sema i).semBase = c.base ∧ c.num < (sema i).semNsems

/-- What is true of sleepers and counters between two steps. -/
structure WakeupInv (si : SemInfo) (s : State) : Prop where
  awaited : ∀ q f, s.proc q = .asleep f → s.count f.chan ≠ 0
  bounded : ∀ c, (s.count c).toNat ≤ tally (Proc.CountedBy c) s.proc
  live : ∀ q f, s.proc q = .asleep f → Live si s.sema f.chan
  blocked : ∀ q f, s.proc q = .asleep f → f.op.semNum = f.chan.num ∧ f.Blocked (s.semval f.chan)
  sp : ∀ q f, s.proc q = .asleep f ∨ s.proc q = .woken f → f.sp = (f.semid % si.semmni).toNat

/-- Values have been written, and counters have been cleared with a wakeup, so that whoever
still sleeps has nothing to be told. -/
structure Wakes (s t : State) : Prop where
  sema : t.sema = s.sema
  proc : ∀ q, t.proc q = s.proc q ∨ ∃ f, s.proc q = .asleep f ∧ t.proc q = .woken f
  count : ∀ c,
    (t.count c = s.count c ∧ ∀ q f, s.proc q = .asleep f → f.chan = c → t.proc q = .asleep f) ∨
      (t.count c = 0 ∧ ∀ q f, t.proc q = .asleep f → f.chan ≠ c)
  untold : ∀ q f, t.proc q = .asleep f → ¬f.chan.awaited.Happens (s.semval f.chan) (t.semval f.chan)

/-- Whoever has waited for what a step does has been woken. -/
def Answers (s t : State) : Prop :=
  ∀ q f, s.proc q = .asleep f → f.chan.awaited.Happens (s.semval f.chan) (t.semval f.chan) → t.proc q = .woken f

variable {s t u : State} {q : Pid} {f : Frame} {base : ℕ}

theorem Wakes.asleep (h : Wakes s t) (ht : t.proc q = .asleep f) : s.proc q = .asleep f := by
  rcases h.proc q with heq | ⟨g, -, hg⟩
  · exact heq ▸ ht
  · rw [ht] at hg
    cases hg

theorem Wakes.refl (s : State) : Wakes s s where
  sema := rfl
  proc _ := .inl rfl
  count _ := .inl ⟨rfl, fun _ _ h _ => h⟩
  untold _ f _ := f.chan.awaited.not_happens_self _

theorem Wakes.trans (h : Wakes s t) (h' : Wakes t u) : Wakes s u where
  sema := h'.sema.trans h.sema
  proc q := by
    rcases h'.proc q with heq | ⟨f, hf, hu⟩
    · rw [heq]
      exact h.proc q
    · exact .inr ⟨f, h.asleep hf, hu⟩
  count c := by
    cases h'.count c with
    | inr hzero => exact .inr hzero
    | inl hsame =>
      obtain ⟨hcount', hkeep'⟩ := hsame
      rcases h.count c with ⟨hcount, hkeep⟩ | ⟨hcount, hnone⟩
      · exact .inl ⟨hcount'.trans hcount, fun q f hf hc => hkeep' q f (hkeep q f hf hc) hc⟩
      · exact .inr ⟨hcount'.trans hcount, fun q f hf => hnone q f (h'.asleep hf)⟩
  untold q f hf hhap := by
    rcases hhap.split (t.semval f.chan) with hhap | hhap
    · exact h.untold q f (h'.asleep hf) hhap
    · exact h'.untold q f hf hhap

theorem Wakes.answers (h : Wakes s t) : Answers s t := by
  intro q f hf hhap
  rcases h.proc q with heq | hwoken
  · exact absurd hhap (h.untold q f (heq.trans hf))
  · obtain ⟨g, hg, hwoken⟩ := hwoken
    rw [hf] at hg
    cases hg
    exact hwoken

theorem Frame.Blocked.persists {v v' : UInt16} (h : f.Blocked v) (hhap : ¬f.chan.awaited.Happens v v') : f.Blocked v' := by
  unfold Frame.Blocked Awaited.Happens at *
  cases ha : f.chan.awaited with
  | semncnt =>
    rw [ha] at h hhap
    have hle : v'.toNat ≤ v.toNat := UInt16.not_lt.mp hhap
    exact ⟨h.1, by have hlt := h.2; omega⟩
  | semzcnt =>
    rw [ha] at h hhap
    exact ⟨h.1, fun hsum hv' => hhap ⟨h.2 hsum, hv'⟩⟩

theorem WakeupInv.wakes (h : WakeupInv si s) (hw : Wakes s t) : WakeupInv si t where
  awaited q f hf := by
    rcases hw.count f.chan with hsame | hzero
    · rw [hsame.1]
      exact h.awaited q f (hw.asleep hf)
    · exact absurd rfl (hzero.2 q f hf)
  bounded c := by
    rcases hw.count c with hsame | hzero
    · rw [hsame.1]
      refine (h.bounded c).trans (tally_mono fun q hq => ?_)
      rcases hw.proc q with heq | ⟨f, hf, -⟩
      · rw [heq]
        exact hq
      · rw [hf] at hq
        rw [hsame.2 q f hf hq]
        exact hq
    · rw [hzero.1]
      exact Nat.zero_le _
  live q f hf := hw.sema ▸ h.live q f (hw.asleep hf)
  blocked q f hf := by
    obtain ⟨hnum, hblocked⟩ := h.blocked q f (hw.asleep hf)
    exact ⟨hnum, hblocked.persists (hw.untold q f hf)⟩
  sp q f hf := by
    rcases hw.proc q with heq | hwoken
    · exact h.sp q f (heq ▸ hf)
    · obtain ⟨g, hg, hwoken⟩ := hwoken
      rw [hwoken] at hf
      rcases hf with hf | hf
      · cases hf
      · cases hf
        exact h.sp q f (.inl hg)

theorem wakeup_proc (chans : List Chan) (proc : Pid → Proc) (q : Pid) :
    wakeup chans proc q = proc q ∨
      ∃ f, proc q = .asleep f ∧ f.chan ∈ chans ∧ wakeup chans proc q = .woken f := by
  unfold wakeup
  split
  · split
    · exact .inr ⟨_, ‹_›, ‹_›, rfl⟩
    · exact .inl (Eq.symm ‹_›)
  · exact .inl rfl

theorem wakeup_asleep {chans : List Chan} {proc : Pid → Proc} :
    wakeup chans proc q = .asleep f ↔ proc q = .asleep f ∧ f.chan ∉ chans := by
  unfold wakeup
  cases proc q with
  | asleep g =>
    simp only [Proc.asleep.injEq]
    split
    · rename_i hmem
      refine iff_of_false nofun ?_
      rintro ⟨rfl, hnot⟩
      exact hnot hmem
    · rename_i hnot
      refine ⟨fun heq => ?_, fun heq => ?_⟩
      · cases heq
        exact ⟨rfl, hnot⟩
      · rw [heq.1]
  | _ => simp

theorem wakes_of_informs (h : WakeupInv si s) {w₀ w : Work} (u : UndoTable)
    (hw₀ : w₀.sems = s.mem base ∧ w₀.wakes = []) (hw : Informs w₀ w) :
    Wakes s ⟨s.sema, Function.update s.mem base w.sems, u,
      wakeup (w.wakes.map fun c => ⟨base, c.1, c.2⟩) s.proc⟩ := by
  have hmem (c : Chan) : c ∈ (w.wakes.map fun c => (⟨base, c.1, c.2⟩ : Chan)) ↔
      c.base = base ∧ (c.num, c.awaited) ∈ w.wakes := by
    rw [List.mem_map]
    refine ⟨fun ⟨x, hx, heq⟩ => heq ▸ ⟨rfl, hx⟩, fun ⟨hbase, hx⟩ => ⟨_, hx, ?_⟩⟩
    rw [← hbase]
  have hproc (q : Pid) : wakeup (w.wakes.map fun c => ⟨base, c.1, c.2⟩) s.proc q = s.proc q ∨
      ∃ f, s.proc q = .asleep f ∧
        wakeup (w.wakes.map fun c => ⟨base, c.1, c.2⟩) s.proc q = .woken f := by
    rcases wakeup_proc (w.wakes.map fun c => ⟨base, c.1, c.2⟩) s.proc q with heq | hwoken
    · exact .inl heq
    · obtain ⟨f, hf, -, hwoken⟩ := hwoken
      exact .inr ⟨f, hf, hwoken⟩
  refine ⟨rfl, hproc, fun c => ?_, fun q f hf hhap => ?_⟩
  · by_cases hbase : c.base = base
    · have hcount := hw.count c.num c.awaited
      rw [hw₀.1, hw₀.2, ← hbase] at hcount
      rcases hcount with hsame | hzero
      · refine .inl ⟨?_, fun q f hf hc => wakeup_asleep.mpr ⟨hf, ?_⟩⟩
        · simpa [State.count, ← hbase] using hsame.1
        · rw [hmem, hc]
          exact fun hwakes => List.not_mem_nil (hsame.2 hwakes.2)
      · refine .inr ⟨?_, fun q f hf hc => ?_⟩
        · simpa [State.count, ← hbase] using hzero.1
        · apply (wakeup_asleep.mp hf).2
          rw [hmem, hc]
          exact ⟨hbase, hzero.2⟩
    · refine .inl ⟨?_, fun q f hf hc => wakeup_asleep.mpr ⟨hf, ?_⟩⟩
      · simp [State.count, hbase]
      · rw [hmem, hc]
        exact fun hwakes => hbase hwakes.1
  · obtain ⟨hf, hnot⟩ := wakeup_asleep.mp hf
    by_cases hbase : f.chan.base = base
    · have hcount := h.awaited q f hf
      apply hnot
      rw [hmem]
      refine ⟨hbase, hw.happens f.chan.num f.chan.awaited ?_ ?_⟩
      · rw [hw₀.1, ← hbase]
        simpa [State.semval, ← hbase] using hhap
      · rw [hw₀.1, ← hbase]
        exact hcount
    · apply f.chan.awaited.not_happens_self (s.semval f.chan)
      simpa [State.semval, hbase] using hhap

theorem Wakes.withUndo (h : Wakes s t) (u : UndoTable) : Wakes s { t with undo := u } :=
  ⟨h.sema, h.proc, h.count, h.untold⟩

theorem wakes_setSem (h : WakeupInv si s) (base num : ℕ) {f : Sem → Sem} (awaited : List Awaited)
    (hf : ∀ semp a, (f semp).count a = semp.count a)
    (hval : ∀ a, a.Happens (s.mem base num).semval (f (s.mem base num)).semval → a ∈ awaited) :
    Wakes s (setSem base num f awaited s) :=
  wakes_of_informs h s.undo ⟨rfl, rfl⟩ (informs_write _ num awaited hf hval)

theorem setSem_cleared (h : WakeupInv si s) {num : ℕ} {f : Sem → Sem}
    {awaited : List Awaited} (hf : ∀ semp a, (f semp).count a = semp.count a) {fr : Frame}
    (hq : (setSem base num f awaited s).proc q = .asleep fr) (ha : fr.chan.awaited ∈ awaited) :
    ¬(fr.chan.base = base ∧ fr.chan.num = num) := by
  obtain ⟨hs, hnot⟩ := wakeup_asleep.mp hq
  rintro ⟨hbase, hnum⟩
  have hcount := h.awaited q fr hs
  apply hnot
  refine List.mem_map.mpr ⟨(num, fr.chan.awaited), mem_wakeAll ha ?_, ?_⟩
  · simpa [Work.modify, hf, State.count, hbase, hnum] using hcount
  · rw [← hbase, ← hnum]

theorem wakes_foldl {α : Type*} {g : State → α → State}
    (hg : ∀ s a, WakeupInv si s → Wakes s (g s a)) (l : List α) (h : WakeupInv si s) : Wakes s (l.foldl g s) := by
  induction l generalizing s with
  | nil => exact .refl s
  | cons a l ih => exact (hg s a h).trans (ih (h.wakes (hg s a h)))

theorem wakes_setSems (h : WakeupInv si s) (base n : ℕ) {f : ℕ → Sem → Sem}
    {awaited : ℕ → List Awaited} (hf : ∀ num semp a, (f num semp).count a = semp.count a)
    (hval : ∀ num semp a, a.Happens semp.semval (f num semp).semval → a ∈ awaited num) :
    Wakes s (setSems base n f awaited s) :=
  wakes_foldl (fun _ num h =>
    wakes_setSem h base num (awaited num) (hf num) fun a => hval num _ a) _ h

end Wakeup

end Osf1.Semaphore
