import Osf1.Computation.Tally
import Osf1.Ipc.Perm

/-!
# Semaphores: the data of `svipc_sem.c`

A semaphore set, the operations of a `semop` call, and the adjustments that are to be made
when a process exits: every process has a list of undo entries, ordered by identifier and
number, and the processes with entries are chained from `semundo_head`.
-/

set_option autoImplicit false

namespace Osf1.Semaphore

section Model

/-- The limits, with what the types of the fields they bound can hold.
SRC: sys/sem.h:168-176; conf/param.c:483-490 -/
structure SemInfo where
  semmni : ℕ
  semmsl : ℕ
  semopm : ℕ
  semume : ℕ
  semvmx : ℕ
  semaem : ℕ
  semmni_pos : 0 < semmni
  semmsl_le : semmsl ≤ 32768
  semume_lt : semume < 32768
  semvmx_lt : semvmx < 65536
  semaem_le : semaem ≤ 16384

/-- The limits as they are shipped.
SRC: sys/param.h:257-277 -/
def seminfo : SemInfo where
  semmni := 10
  semmsl := 25
  semopm := 10
  semume := 10
  semvmx := 32767
  semaem := 16384
  semmni_pos := by decide
  semmsl_le := by decide
  semume_lt := by decide
  semvmx_lt := by decide
  semaem_le := by decide

/-- SRC: sys/sem.h:58 -/
def SEM_UNDO : ℕ := 0o10000

/-- A semaphore.
SRC: sys/sem.h:79-84 -/
structure Sem where
  semval : UInt16
  sempid : Pid
  semncnt : UInt16
  semzcnt : UInt16
  deriving DecidableEq

/-- `bzero`. -/
def Sem.zero : Sem := ⟨0, 0, 0, 0⟩

/-- The two counters of sleeping processes, whose addresses they sleep on. -/
inductive Awaited where
  | semncnt
  | semzcnt
  deriving DecidableEq, Repr

/-- The value of a counter. -/
def Sem.count (semp : Sem) : Awaited → UInt16
  | .semncnt => semp.semncnt
  | .semzcnt => semp.semzcnt

/-- A semaphore with another value of a counter. -/
def Sem.setCount (semp : Sem) (a : Awaited) (n : UInt16) : Sem :=
  match a with
  | .semncnt => { semp with semncnt := n }
  | .semzcnt => { semp with semzcnt := n }

@[simp] theorem Sem.setCount_semval (semp : Sem) (a : Awaited) (n : UInt16) :
    (semp.setCount a n).semval = semp.semval := by
  cases a <;> rfl

@[simp] theorem Sem.count_setCount (semp : Sem) (a b : Awaited) (n : UInt16) :
    (semp.setCount a n).count b = if a = b then n else semp.count b := by
  cases a <;> cases b <;> rfl

/-- SRC: sys/sem.h:104-108 -/
structure Sembuf where
  semNum : ℕ
  semOp : ℤ
  semFlg : ℕ
  deriving DecidableEq, Repr

/-- `op->sem_flg & SEM_UNDO`. -/
def Sembuf.Undo (op : Sembuf) : Prop := op.semFlg &&& SEM_UNDO ≠ 0

instance (op : Sembuf) : Decidable op.Undo := inferInstanceAs (Decidable (_ ≠ _))

/-- `op->sem_flg & IPC_NOWAIT`. -/
def Sembuf.Nowait (op : Sembuf) : Prop := op.semFlg &&& Ipc.IPC_NOWAIT ≠ 0

instance (op : Sembuf) : Decidable op.Nowait := inferInstanceAs (Decidable (_ ≠ _))

/-- SRC: sys/sem.h:158-163 -/
structure UndoEntry where
  uentId : ℤ
  uentNum : ℕ
  uentAoe : ℤ
  deriving DecidableEq, Repr

/-- The undo structure of a process.
SRC: sys/sem.h:152-156 -/
structure SemUndo where
  unCnt : ℤ
  unEntp : List UndoEntry
  deriving DecidableEq, Repr

/-- `u.u_semundo` of every process, and the chain from `semundo_head`. -/
structure UndoTable where
  uSemundo : Pid → Option SemUndo
  semundoHead : List Pid

/-- The undo entries of a process. -/
def UndoTable.entries (u : UndoTable) (p : Pid) : List UndoEntry := ((u.uSemundo p).map SemUndo.unEntp).getD []

/-- A process gets another undo structure. -/
def UndoTable.put (u : UndoTable) (p : Pid) (undop : SemUndo) : UndoTable :=
  { u with uSemundo := Function.update u.uSemundo p (some undop) }

/-- Conversion to `short`. -/
def toShort (x : ℤ) : ℤ := Int.bmod x 65536

theorem toShort_of_mem {x : ℤ} (hlo : -32768 ≤ x) (hhi : x < 32768) : toShort x = x := by
  apply Int.bmod_eq_of_le
  · omega
  · omega

end Model

/-!
## Undo entries

`semaoe` adds a value to the adjustment of a process for one semaphore; `semunrm` removes
the entries for semaphores that are set or removed.  The first half of this file is the
code; the second half says what `semaoe` does to the list, and that giving it the opposite
value puts the list back as it was.
-/

section Undo

open Osf1.Computation

/-- The entry comes before the place of a semaphore.
SRC: bsd/svipc_sem.c:186-187 -/
def UndoEntry.Before (e : UndoEntry) (id : ℤ) (num : ℕ) : Prop := e.uentId < id ∨ (e.uentId = id ∧ e.uentNum < num)

instance (e : UndoEntry) (id : ℤ) (num : ℕ) : Decidable (e.Before id num) := inferInstanceAs (Decidable (_ ∨ _))

/-- The entry is for the semaphore. -/
def UndoEntry.For (e : UndoEntry) (id : ℤ) (num : ℕ) : Prop := e.uentId = id ∧ e.uentNum = num

instance (e : UndoEntry) (id : ℤ) (num : ℕ) : Decidable (e.For id num) := inferInstanceAs (Decidable (_ ∧ _))

variable (si : SemInfo)

/-- Put in a new entry, if the process may have another.
SRC: bsd/svipc_sem.c:201-237 -/
def newEntry (val id : ℤ) (num : ℕ) (undop : SemUndo) (passed rest : List UndoEntry) :
    SemUndo × ℕ :=
  if undop.unCnt < si.semume then
    (⟨undop.unCnt + 1, passed ++ ⟨id, num, toShort (-val)⟩ :: rest⟩, 0)
  else (undop, EINVAL)

/-- `semaoe` on the entries of the process.
SRC: bsd/svipc_sem.c:176-265 -/
def adjustEntry (val id : ℤ) (num : ℕ) (undop : SemUndo) : SemUndo × ℕ :=
  let passed := undop.unEntp.takeWhile fun e => e.Before id num
  match undop.unEntp.dropWhile fun e => e.Before id num with
  | [] => newEntry si val id num undop passed []
  | uentp :: next =>
    if uentp.For id num then
      let aoe := toShort (uentp.uentAoe - val)
      if aoe > si.semaem ∨ aoe < -si.semaem then
        ({ undop with unEntp := passed ++ { uentp with uentAoe := toShort (aoe + val) } :: next }, ERANGE)
      else if aoe = 0 then (⟨undop.unCnt - 1, passed ++ next⟩, 0)
      else ({ undop with unEntp := passed ++ { uentp with uentAoe := aoe } :: next }, 0)
    else newEntry si val id num undop passed (uentp :: next)

/-- Search the chain for the structure before `undop`, and take `undop` out.
SRC: bsd/svipc_sem.c:96-106 -/
def unlinkProcUndo (undop : Pid) : List Pid → List Pid
  | [] => []
  | [up] => [up]
  | up :: next :: rest =>
    if next = undop then up :: rest else up :: unlinkProcUndo undop (next :: rest)

/-- Take a structure out of the chain.
SRC: bsd/svipc_sem.c:267-270,706-709 -/
def unlinkUndo (undop : Pid) : List Pid → List Pid
  | [] => []
  | head :: rest => if head = undop then rest else unlinkProcUndo undop (head :: rest)

/-- Create or update an adjust-on-exit entry.  `zalloc` tells whether there is a structure to
be had for a process without one.
SRC: bsd/svipc_sem.c:146-276 -/
def semaoe (zalloc : Bool) (p : Pid) (val id : ℤ) (num : ℕ) (u : UndoTable) : UndoTable × ℕ :=
  if val = 0 then (u, 0)
  else if val > si.semaem ∨ val < -si.semaem then (u, ERANGE)
  else if u.uSemundo p = none ∧ zalloc = false then (u, ENOSPC)
  else
    let undop := (u.uSemundo p).getD ⟨0, []⟩
    let r := adjustEntry si val id num undop
    let u := u.put p r.1
    if r.2 ≠ 0 then (u, r.2)
    else if undop.unEntp = [] then ({ u with semundoHead := p :: u.semundoHead }, 0)
    else if r.1.unEntp = [] then ({ u with semundoHead := unlinkUndo p u.semundoHead }, 0)
    else (u, 0)

/-- The inner loop of `semunrm`: it goes as far as the first entry past the identifier or
past the highest number.
SRC: bsd/svipc_sem.c:1042-1064 -/
def semunrmEntries (id : ℤ) (low high : ℕ) : List UndoEntry → ℤ → SemUndo
  | [], unCnt => ⟨unCnt, []⟩
  | uentp :: next, unCnt =>
    if uentp.uentId ≤ id ∧ uentp.uentNum ≤ high then
      if uentp.uentId = id ∧ low ≤ uentp.uentNum then semunrmEntries id low high next (unCnt - 1)
      else
        let undop := semunrmEntries id low high next unCnt
        { undop with unEntp := uentp :: undop.unEntp }
    else ⟨unCnt, uentp :: next⟩

/-- The outer loop of `semunrm`, from the structure `undop` on; those before it that stay in
the chain are `kept`.
SRC: bsd/svipc_sem.c:1036-1081 -/
def semunrmLoop (id : ℤ) (low high : ℕ) : List Pid → List Pid → (Pid → Option SemUndo) → UndoTable
  | [], kept, uSemundo => ⟨uSemundo, kept⟩
  | undop :: next, kept, uSemundo =>
    let left := (uSemundo undop).map fun s => semunrmEntries id low high s.unEntp s.unCnt
    let uSemundo := Function.update uSemundo undop left
    if left.any fun s => s.unEntp ≠ [] then semunrmLoop id low high next (kept ++ [undop]) uSemundo
    else semunrmLoop id low high next kept uSemundo

/-- Remove the undo entries of all processes for the semaphores from `low` to `high`.
SRC: bsd/svipc_sem.c:1026-1082 -/
def semunrm (id : ℤ) (low high : ℕ) (u : UndoTable) : UndoTable :=
  semunrmLoop id low high u.semundoHead [] u.uSemundo

end Undo

/-!
## The loop of `semop`

From the label `check` on, `semop` does the operations of an array one by one; where one has
to wait or fails, those before it are undone.  The loop runs on the semaphores of one set,
the undo table, and the `wakeup` calls made so far.
-/

section Semop

/-- What the loop works on: `sp->sem_base`, the undo table, and the addresses that `wakeup`
has been called for.  `accessed` notes the operations whose semaphores have been accessed. -/
structure Work where
  sems : ℕ → Sem
  undo : UndoTable
  wakes : List (ℕ × Awaited)
  accessed : List Sembuf

/-- `semp = sp->sem_base + op->sem_num`. -/
def Work.access (w : Work) (op : Sembuf) : Work := { w with accessed := op :: w.accessed }

/-- Write to a semaphore. -/
def Work.modify (w : Work) (num : ℕ) (f : Sem → Sem) : Work :=
  { w with sems := Function.update w.sems num (f (w.sems num)) }

/-- `if (semp->semncnt) { semp->semncnt = 0; wakeup(&semp->semncnt); }`, and the same for
`semzcnt`. -/
def Work.wake (w : Work) (num : ℕ) (a : Awaited) : Work :=
  if (w.sems num).count a ≠ 0 then
    { w.modify num fun semp => semp.setCount a 0 with wakes := (num, a) :: w.wakes }
  else w

/-- Several counters of a semaphore are cleared. -/
def Work.wakeAll (w : Work) (num : ℕ) (awaited : List Awaited) : Work := awaited.foldl (fun w a => w.wake num a) w

@[simp] theorem Work.wake_semval (w : Work) (num : ℕ) (a : Awaited) (n : ℕ) :
    ((w.wake num a).sems n).semval = (w.sems n).semval := by
  unfold Work.wake Work.modify
  split
  · by_cases hn : n = num <;> simp [hn]
  · rfl

@[simp] theorem Work.wake_undo (w : Work) (num : ℕ) (a : Awaited) : (w.wake num a).undo = w.undo := by
  unfold Work.wake Work.modify
  split <;> rfl

/-- `semp->semval += op`. -/
def Sem.add (semp : Sem) (op : ℤ) : Sem := { semp with semval := semp.semval + UInt16.ofInt op }

/-- `semp->semval -= op`. -/
def Sem.sub (semp : Sem) (op : ℤ) : Sem := { semp with semval := semp.semval - UInt16.ofInt op }

/-- How the loop ends.  An operation that waits does so for `awaited`, with `done` the
operations before it, last to first.  An access outside the set is a `fault`, of which
nothing more is said. -/
inductive Stop where
  | done
  | error (errno : ℕ)
  | sleep (op : Sembuf) (done : List Sembuf) (awaited : Awaited)
  | fault
  deriving DecidableEq, Repr

variable (si : SemInfo) (zalloc : Bool) (p : Pid) (id : ℤ)

/-- One turn of `semundo`. -/
def semundoOp (w : Work) (op : Sembuf) : Work :=
  if op.semOp = 0 then w
  else
    let w := (w.access op).modify op.semNum fun semp => semp.sub op.semOp
    if op.Undo then { w with undo := (semaoe si zalloc p (-op.semOp) id op.semNum w.undo).1 }
    else w

/-- Undo the operations that were done, last to first.
SRC: bsd/svipc_sem.c:998-1016 -/
def semundo (done : List Sembuf) (w : Work) : Work := done.foldl (semundoOp si zalloc p id) w

/-- `semaoe`, if the operation asks for it. -/
def semaoeIf (op : Sembuf) (u : UndoTable) : UndoTable × ℕ :=
  if op.Undo then semaoe si zalloc p op.semOp id op.semNum u else (u, 0)

/-- Reverse what was done, and sleep unless the operation says not to.
SRC: bsd/svipc_sem.c:123-129 -/
def waitForSem (op : Sembuf) (done : List Sembuf) (awaited : Awaited) (w : Work) : Work × Stop :=
  let w := semundo si zalloc p id done w
  if op.Nowait then (w, .error EAGAIN)
  else
    (w.modify op.semNum fun semp => semp.setCount awaited (semp.count awaited + 1), .sleep op done awaited)

/-- The loop over the operations of an array, for a set of `nsems` semaphores.
SRC: bsd/svipc_sem.c:893-978 -/
def semopLoop (nsems : ℕ) : List Sembuf → List Sembuf → Work → Work × Stop
  | [], _, w => (w, .done)
  | op :: rest, done, w =>
    let w := w.access op
    if nsems ≤ op.semNum then (w, .fault)
    else
      let semp := w.sems op.semNum
      if 0 < op.semOp then
        if op.semOp + semp.semval.toNat > si.semvmx then
          (semundo si zalloc p id done w, .error ERANGE)
        else
          let r := semaoeIf si zalloc p id op w.undo
          let w := { w with undo := r.1 }
          if r.2 ≠ 0 then (semundo si zalloc p id done w, .error r.2)
          else
            semopLoop nsems rest (op :: done)
              ((w.modify op.semNum fun semp => semp.add op.semOp).wake op.semNum .semncnt)
      else if op.semOp < 0 then
        if -op.semOp ≤ semp.semval.toNat then
          let r := semaoeIf si zalloc p id op w.undo
          let w := { w with undo := r.1 }
          if r.2 ≠ 0 then (semundo si zalloc p id done w, .error r.2)
          else
            let w := w.modify op.semNum fun semp => semp.add op.semOp
            semopLoop nsems rest (op :: done)
              (if (w.sems op.semNum).semval = 0 then w.wake op.semNum .semzcnt else w)
        else waitForSem si zalloc p id op done .semncnt w
      else if semp.semval ≠ 0 then waitForSem si zalloc p id op done .semzcnt w
      else semopLoop nsems rest (op :: done) w

/-- The loop that sets `sempid`.
SRC: bsd/svipc_sem.c:984-985 -/
def setPids (ops : List Sembuf) (w : Work) : Work :=
  ops.foldl (fun w op => (w.access op).modify op.semNum fun semp => { semp with sempid := p }) w

theorem setPids_semval (ops : List Sembuf) (w : Work) (n : ℕ) :
    ((setPids p ops w).sems n).semval = (w.sems n).semval := by
  induction ops generalizing w with
  | nil => rfl
  | cons op ops ih =>
    refine (ih ((w.access op).modify op.semNum fun semp => { semp with sempid := p })).trans ?_
    unfold Work.modify Work.access
    by_cases hn : n = op.semNum <;> simp [hn]

theorem setPids_undo (ops : List Sembuf) (w : Work) : (setPids p ops w).undo = w.undo := by
  induction ops generalizing w with
  | nil => rfl
  | cons op ops ih => exact ih _

/-- `semop` from the label `check` on, once the array has been read.
SRC: bsd/svipc_sem.c:893-992 -/
def semopPass (nsems : ℕ) (ops : List Sembuf) (w : Work) : Work × Stop :=
  let r := semopLoop si zalloc p id nsems ops [] w
  if r.2 = .done then (setPids p ops r.1, .done) else r

end Semop

end Osf1.Semaphore
