import Osf1.Computation.Transition
import Osf1.Semaphore.Model

/-!
# The semaphore facility as a transition system

The state is the table of sets, the semaphores at every address that has been allocated for
a set, the undo table, and for every process whether it sleeps in `semop`.  A step is a
system call, or the part of a `semop` between two sleeps.  The arrays that `semop` reads
from user memory are part of the step, since another thread may write there at any time.
`tsleep` returns zero to a process that has been woken, or an error if there is a signal,
also where the signal comes between the wakeup and the process running.
-/

set_option autoImplicit false

namespace Osf1.Semaphore

open Function List

section System

open Osf1.Computation Osf1.Ipc

/-- SRC: sys/sem.h:91-97 -/
structure SemidDs where
  semPerm : IpcPerm
  semBase : ℕ
  semNsems : ℕ

/-- An address that processes sleep on: a counter of a semaphore. -/
structure Chan where
  base : ℕ
  num : ℕ
  awaited : Awaited
  deriving DecidableEq, Repr

/-- A sleeping call of `semop`: its arguments, the set `sp`, the address it sleeps on, and
the operation that has to wait with those before it, last to first. -/
structure Frame where
  semid : ℤ
  nsops : ℕ
  cred : Cred
  sp : ℕ
  chan : Chan
  op : Sembuf
  done : List Sembuf
  deriving DecidableEq, Repr

/-- A process as `semop` sees it. -/
inductive Proc where
  | running
  | asleep (f : Frame)
  /-- Its `tsleep` will return zero. -/
  | woken (f : Frame)
  /-- Its `tsleep` will return an error. -/
  | signalled (f : Frame)
  deriving DecidableEq, Repr

structure State where
  sema : ℕ → SemidDs
  mem : ℕ → ℕ → Sem
  undo : UndoTable
  proc : Pid → Proc

/-- No sets and no undo structures. -/
def State.start : State where
  sema _ := ⟨⟨0, 0, 0, 0, 0, 0, 0⟩, 0, 0⟩
  mem _ _ := Sem.zero
  undo := ⟨fun _ => none, []⟩
  proc _ := .running

/-- How a call of `semop` goes on. -/
inductive Reply where
  | returns (errno : ℕ)
  | sleeps
  | fault
  deriving DecidableEq, Repr

/-- `SEM_A` and `SEM_R`.
SRC: sys/sem.h:144-145 -/
def SEM_A : ℕ := IPC_W

def SEM_R : ℕ := IPC_R

variable (si : SemInfo)

/-- The set of an identifier.
SRC: bsd/svipc_sem.c:283-300 -/
def semconv (sema : ℕ → SemidDs) (s : ℤ) : Option ℕ :=
  if s < 0 then none
  else
    let sp := (s % si.semmni).toNat
    if ¬(sema sp).semPerm.Alloc ∨ s / si.semmni ≠ (sema sp).semPerm.seq.toNat then none
    else some sp

/-- The processes that sleep on one of the addresses are woken. -/
def wakeup (chans : List Chan) (proc : Pid → Proc) (q : Pid) : Proc :=
  match proc q with
  | .asleep f => if f.chan ∈ chans then .woken f else .asleep f
  | x => x

/-- What the loop of `semop` works on. -/
def State.work (s : State) (sp : ℕ) : Work := ⟨s.mem (s.sema sp).semBase, s.undo, [], []⟩

/-- The state that the loop of `semop` leaves. -/
def State.putWork (s : State) (sp : ℕ) (w : Work) : State :=
  let base := (s.sema sp).semBase
  { s with
    mem := update s.mem base w.sems
    undo := w.undo
    proc := wakeup (w.wakes.map fun c => ⟨base, c.1, c.2⟩) s.proc }

/-- A process goes to another place. -/
def State.setProc (s : State) (p : Pid) (x : Proc) : State := { s with proc := update s.proc p x }

@[simp] theorem State.setProc_self (s : State) (p : Pid) (x : Proc) : (s.setProc p x).proc p = x := update_self ..

@[simp] theorem State.setProc_of_ne (s : State) {p q : Pid} (x : Proc) (h : q ≠ p) :
    (s.setProc p x).proc q = s.proc q := update_of_ne h ..

/-- The permission that an operation needs. -/
def Sembuf.access (op : Sembuf) : ℕ := if op.semOp ≠ 0 then SEM_A else SEM_R

/-- Whether a process may do the operations, and the set has the semaphores for them.
SRC: bsd/svipc_sem.c:856-881 -/
def checkOps (cred : Cred) (sp : SemidDs) : List Sembuf → ℕ
  | [] => 0
  | op :: rest =>
    if ipcaccess cred sp.semPerm op.access = false then EACCES
    else if sp.semNsems ≤ op.semNum then EFBIG
    else checkOps cred sp rest

theorem checkOps_eq_zero_iff {cred : Cred} {sp : SemidDs} {ops : List Sembuf} :
    checkOps cred sp ops = 0 ↔
      ∀ op ∈ ops, op.semNum < sp.semNsems ∧ ipcaccess cred sp.semPerm op.access = true := by
  induction ops with
  | nil => simp [checkOps]
  | cons op ops ih =>
    rw [checkOps, forall_mem_cons, ← ih]
    by_cases hacc : ipcaccess cred sp.semPerm op.access = false
    · simp [hacc, EACCES]
    · rw [if_neg hacc]
      by_cases hnum : sp.semNsems ≤ op.semNum
      · simp [hnum, EFBIG, Nat.not_lt.mpr hnum]
      · rw [if_neg hnum]
        simp [hacc, Nat.lt_of_not_le hnum]

variable (zalloc : Bool) (p : Pid)

/-- A call of `semop` at the label `check`, with its array in `semtmp`. -/
structure Pass where
  semid : ℤ
  nsops : ℕ
  cred : Cred
  sp : ℕ
  ops : List Sembuf

/-- `semop` up to the label `check`.  `user` is what `uiomove` reads, if it can.
SRC: bsd/svipc_sem.c:831-881 -/
def semopEnter (semid : ℤ) (nsops : ℕ) (cred : Cred) (user : Option (List Sembuf)) (s : State) :
    Except ℕ Pass :=
  match semconv si s.sema semid with
  | none => .error EINVAL
  | some sp =>
    if nsops > si.semopm then .error E2BIG
    else
      match user with
      | none => .error EFAULT
      | some ops =>
        if checkOps cred (s.sema sp) ops ≠ 0 then .error (checkOps cred (s.sema sp) ops)
        else .ok ⟨semid, nsops, cred, sp, ops⟩

/-- `semop` after a sleep: the array is read again.
SRC: bsd/svipc_sem.c:890-910 -/
def semopAgain (f : Frame) (user : Option (List Sembuf)) (s : State) : Except ℕ Pass :=
  match semconv si s.sema f.semid with
  | none => .error EIDRM
  | some _ =>
    match user with
    | none => .error EFAULT
    | some ops => .ok ⟨f.semid, f.nsops, f.cred, f.sp, ops⟩

/-- What the loop of `semop` leaves, and how it ends. -/
def Pass.run (r : Pass) (s : State) : Work × Stop :=
  semopPass si zalloc p r.semid (s.sema r.sp).semNsems r.ops (s.work r.sp)

/-- `semop` from the label `check` up to its return or its sleep.
SRC: bsd/svipc_sem.c:893-992 -/
def semopRun (r : Pass) (s : State) : State × Reply :=
  let (w, stop) := r.run si zalloc p s
  let s := s.putWork r.sp w
  match stop with
  | .done => (s.setProc p .running, .returns 0)
  | .error errno => (s.setProc p .running, .returns errno)
  | .sleep op done a =>
    (s.setProc p (.asleep
      ⟨r.semid, r.nsops, r.cred, r.sp, ⟨(s.sema r.sp).semBase, op.semNum, a⟩, op, done⟩), .sleeps)
  | .fault => (s, .fault)

/-- A stretch of `semop` up to its return or its next sleep. -/
def semop (start : Except ℕ Pass) (s : State) : State × Reply :=
  match start with
  | .error errno => (s.setProc p .running, .returns errno)
  | .ok r => semopRun si zalloc p r s

/-- The counter at an address. -/
def State.count (s : State) (c : Chan) : UInt16 := (s.mem c.base c.num).count c.awaited

/-- Write to a counter. -/
def State.setCount (s : State) (c : Chan) (n : UInt16) : State :=
  { s with
    mem := update s.mem c.base
      (update (s.mem c.base) c.num ((s.mem c.base c.num).setCount c.awaited n)) }

/-- The end of a `semop` whose `tsleep` has returned an error.
SRC: bsd/svipc_sem.c:130-138 -/
def semopEintr (f : Frame) (s : State) : State :=
  let s := s.setProc p .running
  if s.count f.chan ≤ 1 then
    let s := s.setCount f.chan 0
    { s with proc := wakeup [f.chan] s.proc }
  else s.setCount f.chan (s.count f.chan - 1)

/-- What `semctl` and `semexit` do to one semaphore: they write to it, and clear and wake
those of the counters `awaited` that count a process. -/
def setSem (base num : ℕ) (f : Sem → Sem) (awaited : List Awaited) (s : State) : State :=
  let w := (Work.modify ⟨s.mem base, s.undo, [], []⟩ num f).wakeAll num awaited
  { s with
    mem := update s.mem base w.sems
    proc := wakeup (w.wakes.map fun c => ⟨base, c.1, c.2⟩) s.proc }

/-- `semctl` on the `n` semaphores of a set, in order. -/
def setSems (base n : ℕ) (f : ℕ → Sem → Sem) (awaited : ℕ → List Awaited) (s : State) : State :=
  (List.range n).foldl (fun s num => setSem base num (f num) (awaited num) s) s

/-- The counter that `semctl` looks at when it has set a value. -/
def awaitedBy (val : UInt16) : Awaited := if val ≠ 0 then .semncnt else .semzcnt

/-- `(unsigned)`. -/
def toUnsigned (x : ℤ) : ℕ := (x % 2 ^ 32).toNat

/-- SRC: bsd/svipc_sem.c:563-603 -/
def setval (cred : Cred) (semid semnum arg : ℤ) (s : State) : State × ℕ :=
  match semconv si s.sema semid with
  | none => (s, EINVAL)
  | some i =>
    let sp := s.sema i
    if ipcaccess cred sp.semPerm SEM_A = false then (s, EACCES)
    else if semnum ≥ sp.semNsems ∨ semnum < 0 then (s, EINVAL)
    else if toUnsigned arg > si.semvmx then (s, ERANGE)
    else
      let num := semnum.toNat
      let val := UInt16.ofInt arg
      let s := setSem sp.semBase num (fun semp => { semp with semval := val, sempid := p })
        [awaitedBy val] s
      ({ s with undo := semunrm semid num num s.undo }, 0)

/-- `semvals` is what `uiomove` reads, if it can.
SRC: bsd/svipc_sem.c:606-657 -/
def setall (cred : Cred) (semid : ℤ) (semvals : Option (ℕ → UInt16)) (s : State) : State × ℕ :=
  match semconv si s.sema semid with
  | none => (s, EINVAL)
  | some i =>
    let sp := s.sema i
    if ipcaccess cred sp.semPerm SEM_A = false then (s, EACCES)
    else
      match semvals with
      | none => (s, EFAULT)
      | some semvals =>
        if (List.range sp.semNsems).any fun num => (semvals num).toNat > si.semvmx then (s, ERANGE)
        else
          let s := { s with undo := semunrm semid 0 sp.semNsems s.undo }
          (setSems sp.semBase sp.semNsems (fun num semp => { semp with semval := semvals num, sempid := p })
            (fun num => [awaitedBy (semvals num)]) s, 0)

/-- The owner, the creator or the super-user.
SRC: bsd/svipc_sem.c:347-349,394-396 -/
def owns (cred : Cred) (perm : IpcPerm) : Prop := cred.uid = perm.uid ∨ cred.uid = perm.cuid ∨ cred.uid = 0

instance (cred : Cred) (perm : IpcPerm) : Decidable (owns cred perm) := inferInstanceAs (Decidable (_ ∨ _))

/-- SRC: bsd/svipc_sem.c:341-384 -/
def rmid (cred : Cred) (semid : ℤ) (s : State) : State × ℕ :=
  match semconv si s.sema semid with
  | none => (s, EINVAL)
  | some i =>
    let sp := s.sema i
    if ¬owns cred sp.semPerm then (s, EPERM)
    else
      let s := { s with undo := semunrm semid 0 sp.semNsems s.undo }
      let s := setSems sp.semBase sp.semNsems
        (fun _ semp => { semp with semval := 0, sempid := 0 }) (fun _ => [.semncnt, .semzcnt]) s
      let seq := if semid + si.semmni < 0 then 0 else sp.semPerm.seq + 1
      ({ s with
        sema := update s.sema i
          { sp with semPerm := { sp.semPerm with seq := seq, mode := 0 } } }, 0)

/-- SRC: bsd/svipc_sem.c:387-430 -/
def ipcSet (cred : Cred) (semid : ℤ) (uid gid mode : ℕ) (s : State) : State × ℕ :=
  match semconv si s.sema semid with
  | none => (s, EINVAL)
  | some i =>
    let sp := s.sema i
    if ¬owns cred sp.semPerm then (s, EPERM)
    else
      let perm := { sp.semPerm with uid := uid, gid := gid, mode := (mode &&& 0o777) ||| IPC_ALLOC }
      ({ s with sema := update s.sema i { sp with semPerm := perm } }, 0)

/-- One undo entry of a process that exits.
SRC: bsd/svipc_sem.c:677-702 -/
def semexitEntry (s : State) (uentp : UndoEntry) : State :=
  match semconv si s.sema uentp.uentId with
  | none => s
  | some i =>
    let base := (s.sema i).semBase
    let val := (s.mem base uentp.uentNum).semval.toNat + uentp.uentAoe
    if val < 0 ∨ val > si.semvmx then s
    else
      setSem base uentp.uentNum (fun semp => { semp with semval := UInt16.ofInt val })
        ((if val = 0 then [.semzcnt] else []) ++ if uentp.uentAoe > 0 then [.semncnt] else []) s

/-- SRC: bsd/svipc_sem.c:658-715 -/
def semexit (s : State) : State :=
  match s.undo.uSemundo p with
  | none => s
  | some undop =>
    let gone (u : UndoTable) := update u.uSemundo p none
    if undop.unEntp = [] then { s with undo := ⟨gone s.undo, s.undo.semundoHead⟩ }
    else
      let s := undop.unEntp.foldl (semexitEntry si) s
      { s with undo := ⟨gone s.undo, unlinkUndo p s.undo.semundoHead⟩ }

/-- A block that `kalloc` may return: no set in use has its semaphores there. -/
def Unused (s : State) (base : ℕ) : Prop := ∀ i < si.semmni, (s.sema i).semPerm.Alloc → (s.sema i).semBase ≠ base

instance (s : State) (base : ℕ) : Decidable (Unused si s base) := inferInstanceAs (Decidable (∀ i < si.semmni, _))

/-- `base` is what `kalloc` returns.
SRC: bsd/svipc_sem.c:722-766 -/
def semget (cred : Cred) (key nsems : ℤ) (semflg : ℕ) (base : ℕ) (s : State) : State × ℕ :=
  match ipcget key semflg ((List.range si.semmni).map fun i => (s.sema i).semPerm) with
  | .error errno => (s, errno)
  | .existing i =>
    if nsems < 0 ∨ (nsems ≠ 0 ∧ (s.sema i).semNsems < nsems) then (s, EINVAL) else (s, 0)
  | .fresh i =>
    let sp := s.sema i
    let perm := sp.semPerm.initialize cred key semflg
    if nsems ≤ 0 ∨ nsems > si.semmsl then
      ({ s with sema := update s.sema i { sp with semPerm := { perm with mode := 0 } } }, EINVAL)
    else
      let n := nsems.toNat
      ({ s with
        sema := update s.sema i ⟨perm, base, n⟩
        mem := update s.mem base fun num =>
          if num < n then Sem.zero else s.mem base num }, 0)

/-- What happens to the facility. -/
inductive Event where
  | semget (cred : Cred) (key nsems : ℤ) (semflg base : ℕ)
  | semop (zalloc : Bool) (p : Pid) (semid : ℤ) (nsops : ℕ) (cred : Cred)
      (user : Option (List Sembuf))
  /-- A process whose `tsleep` returns zero goes on. -/
  | again (zalloc : Bool) (p : Pid) (user : Option (List Sembuf))
  /-- A signal for a process that sleeps, or has been woken and has not run yet. -/
  | signal (p : Pid)
  /-- A process whose `tsleep` returns an error goes on. -/
  | eintr (p : Pid)
  | setval (p : Pid) (cred : Cred) (semid semnum arg : ℤ)
  | setall (p : Pid) (cred : Cred) (semid : ℤ) (semvals : Option (ℕ → UInt16))
  | rmid (cred : Cred) (semid : ℤ)
  | ipcSet (cred : Cred) (semid : ℤ) (uid gid mode : ℕ)
  | semexit (p : Pid)

/-- A run of the loop is a step, unless it leaves the set. -/
def ofReply (r : State × Reply) : Option State := if r.2 = .fault then none else some r.1

/-- The array that `uiomove` reads has `nsops` operations. -/
def reads (nsops : ℕ) (user : Option (List Sembuf)) : Prop := ∀ ops ∈ user, ops.length = nsops

instance (nsops : ℕ) (user : Option (List Sembuf)) : Decidable (reads nsops user) :=
  inferInstanceAs (Decidable (∀ ops ∈ user, _))

/-- One step. -/
def step (s : State) : Event → Option State
  | .semget cred key nsems semflg base =>
    if Unused si s base then some (semget si cred key nsems semflg base s).1 else none
  | .semop zalloc p semid nsops cred user =>
    if s.proc p = .running ∧ reads nsops user then
      ofReply (semop si zalloc p (semopEnter si semid nsops cred user s) s)
    else none
  | .again zalloc p user =>
    match s.proc p with
    | .woken f =>
      if reads f.nsops user then ofReply (semop si zalloc p (semopAgain si f user s) s) else none
    | _ => none
  | .signal p =>
    match s.proc p with
    | .asleep f | .woken f => some (s.setProc p (.signalled f))
    | _ => none
  | .eintr p =>
    match s.proc p with
    | .signalled f => some (semopEintr p f s)
    | _ => none
  | .setval p cred semid semnum arg => some (setval si p cred semid semnum arg s).1
  | .setall p cred semid semvals => some (setall si p cred semid semvals s).1
  | .rmid cred semid => some (rmid si cred semid s).1
  | .ipcSet cred semid uid gid mode => some (ipcSet si cred semid uid gid mode s).1
  | .semexit p => if s.proc p = .running then some (semexit si p s) else none

/-- The semaphore facility. -/
def semSystem : System State Event := System.ofFun State.start (step si)

/-- The super-user. -/
def root : Cred := ⟨0, 0⟩

/-- A set of two semaphores. -/
def oneSet : State := (semget seminfo root IPC_PRIVATE 2 0o600 0 State.start).1

end System

/-!
## The accesses of `semop`

The record of a run notes every operation whose semaphore `semop` has accessed, in the loop, in `semundo` and
where it sets `sempid`, with the set and the credentials of the process. All of them are operations of the
array.
-/

section Bounds

open Osf1.Computation Osf1.Ipc

variable {si : SemInfo} {zalloc : Bool} {p : Pid} {id : ℤ} {f : Frame} {user : Option (List Sembuf)}

/-- An access to `sp->sem_base + op->sem_num` by a process. -/
structure Access where
  cred : Cred
  sp : SemidDs
  op : Sembuf

/-- The access is within the set, and the process may do the operation. -/
def Access.Within (a : Access) : Prop :=
  a.op.semNum < a.sp.semNsems ∧ ipcaccess a.cred a.sp.semPerm a.op.access = true

theorem wake_accessed (w : Work) (num : ℕ) (a : Awaited) : (w.wake num a).accessed = w.accessed := by
  unfold Work.wake
  split <;> rfl

theorem semundo_accessed (done : List Sembuf) (w : Work) :
    ∀ op ∈ (semundo si zalloc p id done w).accessed, op ∈ w.accessed ∨ op ∈ done := by
  induction done generalizing w with
  | nil => exact fun op hop => .inl hop
  | cons d done ih =>
    intro op hop
    have hturn : ∀ op ∈ (semundoOp si zalloc p id w d).accessed, op ∈ w.accessed ∨ op = d := by
      intro op hop
      unfold semundoOp at hop
      split at hop
      · exact .inl hop
      · have hcons : op ∈ d :: w.accessed := by
          split at hop <;> exact hop
        rcases mem_cons.mp hcons with heq | hop
        · exact .inr heq
        · exact .inl hop
    rcases ih (semundoOp si zalloc p id w d) op hop with hop | hop
    · rcases hturn op hop with hop | heq
      · exact .inl hop
      · exact .inr (heq ▸ mem_cons_self ..)
    · exact .inr (mem_cons_of_mem _ hop)

theorem semopLoop_accessed {nsems : ℕ} (ops done : List Sembuf) (w : Work) {all : List Sembuf}
    (hops : ∀ op ∈ ops, op ∈ all) (hdone : ∀ op ∈ done, op ∈ all) (hw : ∀ op ∈ w.accessed, op ∈ all) :
    ∀ op ∈ (semopLoop si zalloc p id nsems ops done w).1.accessed, op ∈ all := by
  have hundo {w : Work} (hw : ∀ op ∈ w.accessed, op ∈ all) {done : List Sembuf}
      (hdone : ∀ op ∈ done, op ∈ all) :
      ∀ op ∈ (semundo si zalloc p id done w).accessed, op ∈ all := by
    intro op hop
    rcases semundo_accessed done w op hop with hop | hop
    · exact hw op hop
    · exact hdone op hop
  induction ops generalizing done w with
  | nil => exact hw
  | cons op rest ih =>
    have hrest : ∀ op ∈ rest, op ∈ all := fun o ho => hops o (mem_cons_of_mem _ ho)
    have hdone' : ∀ o ∈ op :: done, o ∈ all := by
      intro o ho
      rcases mem_cons.mp ho with heq | ho
      · exact heq ▸ hops op (mem_cons_self ..)
      · exact hdone o ho
    have hw' : ∀ o ∈ (w.access op).accessed, o ∈ all := by
      intro o ho
      rcases mem_cons.mp ho with heq | ho
      · exact heq ▸ hops op (mem_cons_self ..)
      · exact hw o ho
    have hwait (a : Awaited) {w : Work} (hw : ∀ op ∈ w.accessed, op ∈ all) :
        ∀ o ∈ (waitForSem si zalloc p id op done a w).1.accessed, o ∈ all := by
      unfold waitForSem
      split <;> exact hundo hw hdone
    rw [semopLoop]
    simp only
    generalize w.access op = w at hw'
    have hfails : ∀ o ∈ (semundo si zalloc p id done
        { w with undo := (semaoeIf si zalloc p id op w.undo).1 }).accessed, o ∈ all :=
      hundo (w := { w with undo := (semaoeIf si zalloc p id op w.undo).1 }) hw' hdone
    split
    · exact hw'
    split
    · split
      · exact hundo hw' hdone
      split
      · exact hfails
      · apply ih _ _ hrest hdone'
        rw [wake_accessed]
        exact hw'
    split
    · split
      · split
        · exact hfails
        · apply ih _ _ hrest hdone'
          split
          · rw [wake_accessed]
            exact hw'
          · exact hw'
      · exact hwait _ hw'
    split
    · exact hwait _ hw'
    · exact ih _ _ hrest hdone' hw'

theorem setPids_accessed (ops : List Sembuf) (w : Work) :
    ∀ op ∈ (setPids p ops w).accessed, op ∈ w.accessed ∨ op ∈ ops := by
  induction ops generalizing w with
  | nil => exact fun op hop => .inl hop
  | cons o ops ih =>
    intro op hop
    rcases ih _ op hop with hop | hop
    · rcases mem_cons.mp hop with heq | hop
      · exact .inr (heq ▸ mem_cons_self ..)
      · exact .inl hop
    · exact .inr (mem_cons_of_mem _ hop)

theorem Pass.run_accessed (r : Pass) (s : State) : ∀ op ∈ (r.run si zalloc p s).1.accessed, op ∈ r.ops := by
  have hloop : ∀ op ∈ (semopLoop si zalloc p r.semid (s.sema r.sp).semNsems r.ops []
      (s.work r.sp)).1.accessed, op ∈ r.ops := by
    apply semopLoop_accessed r.ops [] _ (fun op hop => hop)
    · intro op hop
      cases hop
    · intro op hop
      cases hop
  unfold Pass.run semopPass
  simp only
  split
  · intro op hop
    rcases setPids_accessed r.ops _ op hop with hop | hop
    · exact hloop op hop
    · exact hop
  · exact hloop

/-- The accesses of a stretch of `semop`. -/
def Pass.accesses (si : SemInfo) (zalloc : Bool) (p : Pid) (s : State) (r : Pass) :
    List Access :=
  (r.run si zalloc p s).1.accessed.map fun op => ⟨r.cred, s.sema r.sp, op⟩

/-- The stretch of `semop` that a step is. -/
def passOf (si : SemInfo) (s : State) : Event → Option (Bool × Pid × Except ℕ Pass)
  | .semop zalloc p semid nsops cred user =>
    if s.proc p = .running ∧ reads nsops user then
      some (zalloc, p, semopEnter si semid nsops cred user s)
    else none
  | .again zalloc p user =>
    match s.proc p with
    | .woken f => if reads f.nsops user then some (zalloc, p, semopAgain si f user s) else none
    | _ => none
  | _ => none

/-- The accesses of a step. -/
def accesses (si : SemInfo) (s : State) (e : Event) : List Access :=
  match passOf si s e with
  | some (zalloc, p, .ok r) => r.accesses si zalloc p s
  | _ => []

/-- The facility with a record of the accesses. -/
def accessSystem (si : SemInfo) : System (State × List Access) Event :=
  System.traced State.start (step si) (accesses si)

/-- An array that is read after a sleep would pass the check that the first one has passed. -/
def rereadsPass (s : State × List Access) : Event → Prop
  | .again _ p user => ∀ f, s.1.proc p = .woken f → ∀ ops ∈ user, checkOps f.cred (s.1.sema f.sp) ops = 0
  | _ => True

theorem rereadsPass_again {s : State × List Access} {p : Pid} (hf : s.1.proc p = .woken f)
    (hops : ∀ ops ∈ user, checkOps f.cred (s.1.sema f.sp) ops = 0) : rereadsPass s (.again zalloc p user) := by
  intro g hg
  obtain rfl : f = g := Proc.woken.inj (hf.symm.trans hg)
  exact hops

variable {s : State} {r : Pass}

theorem semopEnter_checked {semid : ℤ} {nsops : ℕ} {cred : Cred} (h : semopEnter si semid nsops cred user s = .ok r) :
    checkOps r.cred (s.sema r.sp) r.ops = 0 := by
  unfold semopEnter at h
  split at h
  · cases h
  split at h
  · cases h
  split at h
  · cases h
  split at h
  · cases h
  · rename_i hcheck
    cases h
    exact not_not.mp hcheck

theorem semopAgain_ok (h : semopAgain si f user s = .ok r) : user = some r.ops ∧ r.cred = f.cred ∧ r.sp = f.sp := by
  unfold semopAgain at h
  split at h
  · cases h
  split at h
  · cases h
  · cases h
    exact ⟨rfl, rfl, rfl⟩

theorem Pass.within (h : checkOps r.cred (s.sema r.sp) r.ops = 0) : ∀ a ∈ r.accesses si zalloc p s, a.Within := by
  intro a ha
  obtain ⟨op, hop, rfl⟩ := mem_map.mp ha
  exact checkOps_eq_zero_iff.mp h op (r.run_accessed s op hop)

theorem accesses_within {s : State × List Access} {e : Event} (h : rereadsPass s e) :
    ∀ a ∈ accesses si s.1 e, a.Within := by
  intro a ha
  unfold accesses at ha
  split at ha
  · rename_i zalloc p r hpass
    apply Pass.within ?_ a ha
    cases e with
    | semop z q semid nsops cred user =>
      unfold passOf at hpass
      simp only at hpass
      split at hpass
      · simp only [Option.some.injEq, Prod.mk.injEq] at hpass
        exact semopEnter_checked hpass.2.2
      · cases hpass
    | again z q user =>
      unfold passOf at hpass
      simp only at hpass
      split at hpass
      · rename_i f hproc
        split at hpass
        · simp only [Option.some.injEq, Prod.mk.injEq] at hpass
          obtain ⟨huser, hcred, hsp⟩ := semopAgain_ok hpass.2.2
          rw [hcred, hsp]
          exact h f hproc r.ops huser
        · cases hpass
      · cases hpass
    | _ => cases hpass
  · cases ha

/-- Process 1 has slept for semaphore 0, and process 2 has woken it. -/
def wakesUp : List Event :=
  [.semget root IPC_PRIVATE 2 0o600 0, .semop true 1 0 1 root (some [⟨0, -1, 0⟩]),
    .semop true 2 0 1 root (some [⟨0, 1, 0⟩])]

end Bounds

end Osf1.Semaphore
