import Osf1.Computation.Queues

/-!
# Run queues

A run queue holds the runnable threads by their scheduled priority; every processor has one for the threads
bound to it, and every processor set one for the others.  `low` is where `choose_thread` starts to look.  This
is the configuration without the realtime policies and with several processors.
-/

set_option autoImplicit false

namespace Osf1.Runq

open Function

open Osf1.Computation

/-- SRC: kern/sched.h:152 -/
def NRQS : ℕ := 32

/-- SRC: kern/sched.h:227 -/
def BASEPRI_USER : ℕ := NRQS - 20

/-- SRC: kern/sched.h:233 -/
def BASEPRI_LOWEST : ℕ := NRQS - 1

/-- SRC: mach/policy.h:72 -/
def POLICY_TIMESHARE : ℕ := 1

/-- SRC: mach/policy.h:73 -/
def POLICY_FIXEDPRI : ℕ := 2

/-- The run queue of a processor, or of a processor set. -/
inductive RunqOf (P S : Type) where
  | processor (p : P)
  | pset (s : S)
deriving DecidableEq

/-- SRC: kern/sched.h:178-201 -/
structure RunQueue (T : Type) where
  runq : ℕ → List T
  low : ℕ
  count : ℤ

/-- What the run queue code looks at in a thread.  Priorities pass `invalid_pri` where they are set, so that they
are not negative.  `kernelVmSpace` is that of the thread's task, and `astTerminate` the bit `AST_TERMINATE` of
`ast`.
SRC: kern/thread.h:115-240 -/
structure Thread (P S : Type) where
  policy : ℕ
  priority : ℕ
  schedPri : ℕ
  depressPriority : ℤ
  cpuUsage : BitVec 32
  schedUsage : BitVec 32
  schedStamp : BitVec 32
  cpuDelta : BitVec 32
  schedDelta : BitVec 32
  kernelVmSpace : Bool
  astTerminate : Bool
  halted : Bool
  boundProcessor : Option P
  processorSet : S
  runq : Option (RunqOf P S)
deriving DecidableEq

/-- SRC: kern/processor.h:205-210 -/
inductive ProcessorState where
  | offLine
  | running
  | idle
  | dispatching
  | assign
  | shutdown
deriving DecidableEq

/-- `ast` is that `aston` or `cause_ast_check` has been called for the processor.
SRC: kern/processor.h:131-160 -/
structure Processor (T S : Type) where
  state : ProcessorState
  processorSet : S
  nextThread : Option T
  idleThread : T
  currentThread : T
  firstQuantum : Bool
  ast : Bool

/-- The idle processors of a set are counted by `idle_count`, which every function below changes together with the
queue.
SRC: kern/processor.h:94-123 -/
structure ProcessorSet (P : Type) where
  idleQueue : List P
  policies : ℕ
  schedLoad : BitVec 32

def ProcessorSet.idleCount {P : Type} (pset : ProcessorSet P) : ℕ := pset.idleQueue.length

structure Sched (T P S : Type) where
  thread : T → Thread P S
  runQueue : RunqOf P S → RunQueue T
  processor : P → Processor T S
  pset : S → ProcessorSet P
  schedTick : BitVec 32
  masterProcessor : P
  kernelThreadFixedPriDisable : Bool

/-- How a function fails to end: with a panic, outside of the array of queues, or out of turns. -/
inductive Stop where
  | panic (message : String)
  | outside
  | endless
deriving DecidableEq

/-- What comes from the rest of the kernel: the time a thread has used since it was looked at last, and what
`rss_adjust` adds.
SRC: kern/sched.h:287-297; kern/sched_prim.c:1567-1573 -/
structure Env (T : Type) where
  timerDelta : T → BitVec 32
  rssAdjust : T → ℕ

variable {T P S : Type} [DecidableEq T] [DecidableEq P] [DecidableEq S]

namespace Sched

def setThread (s : Sched T P S) (th : T) (x : Thread P S) : Sched T P S := { s with thread := update s.thread th x }

def setRunQueue (s : Sched T P S) (rq : RunqOf P S) (x : RunQueue T) : Sched T P S :=
  { s with runQueue := update s.runQueue rq x }

def setProcessor (s : Sched T P S) (p : P) (x : Processor T S) : Sched T P S :=
  { s with processor := update s.processor p x }

def setPset (s : Sched T P S) (pset : S) (x : ProcessorSet P) : Sched T P S :=
  { s with pset := update s.pset pset x }

variable {s : Sched T P S}

omit [DecidableEq P] [DecidableEq S] in
@[simp] theorem setThread_self (th : T) (x : Thread P S) : (s.setThread th x).thread th = x := update_self ..

omit [DecidableEq P] [DecidableEq S] in
@[simp] theorem setThread_of_ne {th u : T} (hu : u ≠ th) (x : Thread P S) :
    (s.setThread th x).thread u = s.thread u := update_of_ne hu ..

omit [DecidableEq P] [DecidableEq S] in
@[simp] theorem setThread_setThread (th : T) (x y : Thread P S) :
    (s.setThread th x).setThread th y = s.setThread th y := by
  simp [setThread]

omit [DecidableEq P] [DecidableEq S] in
@[simp] theorem setThread_runQueue (th : T) (x : Thread P S) : (s.setThread th x).runQueue = s.runQueue := rfl

omit [DecidableEq T] in
@[simp] theorem setRunQueue_self (rq : RunqOf P S) (x : RunQueue T) : (s.setRunQueue rq x).runQueue rq = x :=
  update_self ..

omit [DecidableEq T] in
@[simp] theorem setRunQueue_of_ne {rq r : RunqOf P S} (hr : r ≠ rq) (x : RunQueue T) :
    (s.setRunQueue rq x).runQueue r = s.runQueue r := update_of_ne hr ..

omit [DecidableEq T] in
theorem setThread_setRunQueue [DecidableEq T] (th : T) (x : Thread P S) (rq : RunqOf P S) (q : RunQueue T) :
    (s.setThread th x).setRunQueue rq q = (s.setRunQueue rq q).setThread th x := rfl

omit [DecidableEq T] in
@[simp] theorem setRunQueue_thread (rq : RunqOf P S) (x : RunQueue T) : (s.setRunQueue rq x).thread = s.thread := rfl

end Sched

section Priorities

/-- SRC: kern/sched_prim.c:1508-1512 -/
def waitShift : List (ℕ × ℤ) :=
  [(1, 1), (1, 3), (1, -3), (2, -7), (3, 5), (3, -5), (4, -8), (5, 7),
    (5, -7), (6, -10), (7, 10), (7, -9), (8, -11), (9, 12), (9, -11), (10, -13),
    (11, 14), (11, -13), (12, -15), (13, 17), (13, -15), (14, -17), (15, 19), (16, 18),
    (16, -19), (17, 22), (18, 20), (18, -20), (19, 26), (20, 22), (20, -22), (21, -27)]

/-- SRC: kern/sched_prim.c:1753-1768 -/
def aged (usage : BitVec 32) (shift : ℕ × ℤ) : BitVec 32 :=
  if 0 < shift.2 then (usage >>> shift.1) + (usage >>> shift.2.toNat)
  else (usage >>> shift.1) - (usage >>> (-shift.2).toNat)

/-- The usage of a thread is brought up to date.
SRC: kern/sched_prim.c:1728-1776; kern/sched.h:287-297 -/
def updateUsage (env : Env T) (s : Sched T P S) (th : T) : Except Stop (Thread P S) :=
  let thread := s.thread th
  let ticks := s.schedTick - thread.schedStamp
  if ticks = 0 then .error (.panic "Bad update")
  else
    let delta := env.timerDelta th
    let cpuDelta := thread.cpuDelta + delta
    let schedDelta := thread.schedDelta + delta * (s.pset thread.processorSet).schedLoad
    let thread := { thread with schedStamp := thread.schedStamp + ticks, cpuDelta := 0, schedDelta := 0 }
    if 30 < ticks.toNat then .ok { thread with cpuUsage := 0, schedUsage := 0 }
    else
      let shift := waitShift.getD ticks.toNat (0, 0)
      .ok { thread with
        cpuUsage := aged (thread.cpuUsage + cpuDelta) shift
        schedUsage := aged thread.schedUsage shift + schedDelta }

/-- With `PRI_SHIFT` 18 and `SCHED_SHIFT` 7.
SRC: kern/sched_prim.c:1592-1598 -/
def doPriorityComputation (env : Env T) (th : T) (thread : Thread P S) : ℕ :=
  min (thread.priority + ((thread.schedUsage + thread.schedDelta) >>> 25).toNat + env.rssAdjust th) BASEPRI_LOWEST

/-- A thread of a kernel task below the user priorities keeps its priority. -/
def variesPri (s : Sched T P S) (thread : Thread P S) : Bool :=
  thread.kernelVmSpace = false ∨ BASEPRI_USER ≤ thread.priority ∨ s.kernelThreadFixedPriDisable = true

/-- SRC: kern/sched_prim.c:1656-1677 -/
def computeMyPriority (env : Env T) (s : Sched T P S) (th : T) (thread : Thread P S) : Thread P S :=
  if variesPri s thread then { thread with schedPri := doPriorityComputation env th thread } else thread

/-- SRC: kern/sched_prim.c:1799-1851 -/
def updatePriority (env : Env T) (s : Sched T P S) (th : T) : Except Stop (Thread P S) :=
  (updateUsage env s th).map fun thread =>
    if thread.policy = POLICY_TIMESHARE ∧ thread.depressPriority < 0 then computeMyPriority env s th thread
    else thread

end Priorities

section Setrun

/-- The index at which a thread is queued.
SRC: kern/sched_prim.c:1908-1913 -/
def Thread.whichq (thread : Thread P S) : ℕ := if NRQS ≤ thread.schedPri then NRQS - 1 else thread.schedPri

/-- SRC: kern/sched_prim.c:1906-1924 -/
def runQueueEnqueue (s : Sched T P S) (rq : RunqOf P S) (th : T) : Sched T P S :=
  let thread := s.thread th
  let q := s.runQueue rq
  let whichq := thread.whichq
  let s := s.setRunQueue rq
    { runq := update q.runq whichq (q.runq whichq ++ [th])
      low := if whichq < q.low ∨ q.count = 0 then whichq else q.low
      count := q.count + 1 }
  s.setThread th { thread with runq := some rq }

/-- A thread goes directly to an idle processor.
SRC: kern/sched_prim.c:2016-2022 -/
def dispatch (s : Sched T P S) (th : T) (processor : P) (pset : S) : Sched T P S :=
  let s := s.setPset pset { s.pset pset with idleQueue := (s.pset pset).idleQueue.erase processor }
  s.setProcessor processor { s.processor processor with nextThread := some th, state := .dispatching }

/-- `aston` on a processor. -/
def aston (s : Sched T P S) (processor : P) : Sched T P S :=
  s.setProcessor processor { s.processor processor with ast := true }

/-- The part of `thread_setrun` behind the checks, on the processor `me`: the thread goes to an idle processor or on
a run queue.
SRC: kern/sched_prim.c:1988-2135 -/
def place (me : P) (s : Sched T P S) (th : T) (mayPreempt : Bool) : Sched T P S :=
  let thread := s.thread th
  match thread.boundProcessor with
  | none =>
    let pset := thread.processorSet
    match (s.pset pset).idleQueue with
    | processor :: _ => dispatch s th processor pset
    | [] =>
      let rq := RunqOf.pset pset
      let s := runQueueEnqueue s rq th
      if mayPreempt = true ∧ (s.runQueue rq).low < (s.thread (s.processor me).currentThread).schedPri then
        aston (s.setProcessor me { s.processor me with firstQuantum := false }) me
      else s
  | some processor =>
    if (s.processor processor).state = .idle then dispatch s th processor (s.processor processor).processorSet
    else
      let s := runQueueEnqueue s (.processor processor) th
      if processor = me then aston s me
      else if processor ≠ s.masterProcessor ∧ (s.processor processor).state ≠ .offLine then aston s processor
      else s

/-- SRC: kern/sched_prim.c:1935-2178 -/
def threadSetrun (env : Env T) (me : P) (s : Sched T P S) (th : T) (mayPreempt : Bool) :
    Except Stop (Sched T P S) :=
  let thread := s.thread th
  (if thread.schedStamp ≠ s.schedTick ∧ thread.priority ≤ thread.schedPri then updatePriority env s th
    else .ok thread).bind fun thread =>
      if thread.runq ≠ none then .error (.panic "thread_setrun")
      else if thread.astTerminate = true ∧ thread.halted = true then .error (.panic "zombie awakened!!")
      else .ok (place me (s.setThread th thread) th mayPreempt)

end Setrun

section Removal

/-- `remqueue`, which finds the neighbours of an element by its links. -/
def RunQueue.remqueue (q : RunQueue T) (th : T) : RunQueue T := { q with runq := fun i => (q.runq i).erase th }

/-- `rem_runq`, when `rq` has been read from the thread before the run queue was locked: the thread may have left
the queue since.
SRC: kern/sched_prim.c:2199-2277 -/
def remRunqFrom (s : Sched T P S) (th : T) (rq : Option (RunqOf P S)) : Sched T P S × Option (RunqOf P S) :=
  match rq with
  | none => (s, none)
  | some rq =>
    if (s.thread th).runq = some rq then
      let q := (s.runQueue rq).remqueue th
      let s := s.setRunQueue rq { q with count := q.count - 1 }
      (s.setThread th { s.thread th with runq := none }, some rq)
    else (s, none)

/-- SRC: kern/sched_prim.c:2199-2277 -/
def remRunq (s : Sched T P S) (th : T) : Sched T P S × Option (RunqOf P S) := remRunqFrom s th (s.thread th).runq

/-- SRC: kern/sched_prim.c:1536-1551 -/
def setPri (env : Env T) (me : P) (s : Sched T P S) (th : T) (pri : ℕ) : Except Stop (Sched T P S) :=
  let (s, rq) := remRunq s th
  let thread := s.thread th
  let s := s.setThread th (if variesPri s thread then { thread with schedPri := pri } else thread)
  if rq ≠ none then threadSetrun env me s th true else .ok s

/-- SRC: kern/sched_prim.c:1612-1642 -/
def computePriority (env : Env T) (me : P) (s : Sched T P S) (th : T) : Except Stop (Sched T P S) :=
  let thread := s.thread th
  if thread.policy = POLICY_TIMESHARE then
    let pri := doPriorityComputation env th thread
    if thread.depressPriority < 0 then setPri env me s th pri
    else .ok (s.setThread th { thread with depressPriority := pri })
  else setPri env me s th thread.priority

end Removal

section Choosing

/-- The thread at the head of a queue is taken out.
SRC: kern/sched_prim.c:2328-2331 -/
def dequeue (s : Sched T P S) (rq : RunqOf P S) (i : ℕ) (th : T) : Sched T P S :=
  let q := s.runQueue rq
  let s := s.setRunQueue rq { q with runq := update q.runq i (q.runq i).tail, count := q.count - 1 }
  s.setThread th { s.thread th with runq := none }

/-- Where the next thread of a queue is looked for: the first queue from `i` on that is not empty, or the end.
SRC: kern/sched_prim.c:2388-2391 -/
def nextQueue (q : ℕ → List T) (i : ℕ) : ℕ := (Buckets.firstFrom q i (NRQS - i)).getD (max i NRQS)

def setLow (s : Sched T P S) (rq : RunqOf P S) (i : ℕ) : Sched T P S :=
  s.setRunQueue rq { s.runQueue rq with low := i }

/-- The part of `choose_thread` for the queue of the processor: the loop stops at the first queue that is not
empty.
SRC: kern/sched_prim.c:2303-2344 -/
def chooseLocal (s : Sched T P S) (myprocessor : P) : Except Stop (T × Sched T P S) :=
  let rq := RunqOf.processor myprocessor
  let runq := s.runQueue rq
  match Buckets.firstFrom runq.runq runq.low (NRQS - runq.low) with
  | none => .error (.panic "choose_thread 1")
  | some i =>
    match runq.runq i with
    | [] => .error (.panic "choose_thread 1")
    | th :: _ => .ok (th, setLow (dequeue s rq i th) rq i)

/-- The part for the queue of the processor set.
SRC: kern/sched_prim.c:2350-2410 -/
def chooseGlobal (s : Sched T P S) (pset : S) : Except Stop (T × Sched T P S) :=
  let rq := RunqOf.pset pset
  let runq := s.runQueue rq
  match Buckets.firstFrom runq.runq runq.low (NRQS - runq.low) with
  | none => .error (.panic "choose_thread 2")
  | some i =>
    match runq.runq i with
    | [] => .error (.panic "choose_thread 2")
    | th :: _ =>
      let s := dequeue s rq i th
      if 0 < (s.runQueue rq).count then
        let low := if (s.pset pset).policies &&& POLICY_FIXEDPRI ≠ 0 then nextQueue (s.runQueue rq).runq i else i
        .ok (th, setLow s rq low)
      else .ok (th, s)

/-- SRC: kern/sched_prim.c:2292-2441 -/
def chooseThread (s : Sched T P S) (myprocessor : P) : Except Stop (T × Sched T P S) :=
  let pset := (s.processor myprocessor).processorSet
  if 0 < (s.runQueue (.processor myprocessor)).count then chooseLocal s myprocessor
  else if 0 < (s.runQueue (.pset pset)).count then chooseGlobal s pset
  else
    let idleThread := (s.processor myprocessor).idleThread
    if (s.processor myprocessor).state = .running then
      let queue := (s.pset pset).idleQueue
      let s := s.setProcessor myprocessor { s.processor myprocessor with state := .idle }
      .ok (idleThread, s.setPset pset { s.pset pset with
        idleQueue := if myprocessor = s.masterProcessor then queue ++ [myprocessor] else myprocessor :: queue })
    else .ok (idleThread, s)

end Choosing

section Update

/-- What follows an element of a queue. -/
def nextIn (l : List T) (th : T) : Option T := (l.dropWhile (· ≠ th)).tail.head?

/-- A thread whose lock has been got.
SRC: kern/sched_prim.c:2740-2757 -/
def updateThread (env : Env T) (s : Sched T P S) (rq : RunqOf P S) (th : T) : Except Stop (Sched T P S) :=
  let thread := s.thread th
  if thread.priority < thread.schedPri ∧ s.schedTick ≠ thread.schedStamp then
    (updateUsage env s th).map fun thread =>
      let newPri := doPriorityComputation env th thread
      let s := s.setThread th thread
      if newPri ≠ thread.schedPri then
        if thread.depressPriority < 0 then
          let q := (s.runQueue rq).remqueue th
          let s := s.setRunQueue rq { q with
            runq := update q.runq newPri (q.runq newPri ++ [th])
            low := if newPri < q.low ∨ q.count = 0 then newPri else q.low }
          s.setThread th { thread with schedPri := newPri }
        else s.setThread th { thread with depressPriority := newPri }
      else s
  else .ok s

/-- The inner loop, from a thread of the queue `i` on.  `tryLock` says which thread locks are free.
SRC: kern/sched_prim.c:2723-2761 -/
def updateQueue (env : Env T) (tryLock : T → Bool) (rq : RunqOf P S) (i : ℕ) :
    ℕ → Sched T P S → Option T → ℤ → Except Stop (Sched T P S × ℤ)
  | _, s, none, count => .ok (s, count)
  | 0, _, some _, _ => .error .endless
  | fuel + 1, s, some thread, count =>
    let threadNext := nextIn ((s.runQueue rq).runq i) thread
    (if tryLock thread = true then updateThread env s rq thread else .ok s).bind fun s =>
      updateQueue env tryLock rq i fuel s threadNext (count - 1)

/-- The outer loop: `rest` queues are left in the array.
SRC: kern/sched_prim.c:2721-2763 -/
def updateQueues (env : Env T) (tryLock : T → Bool) (rq : RunqOf P S) (fuel : ℕ) :
    ℕ → ℕ → Sched T P S → ℤ → Except Stop (Sched T P S)
  | rest, i, s, count =>
    if 0 < count then
      match rest with
      | 0 => .error .outside
      | rest + 1 =>
        (updateQueue env tryLock rq i fuel s ((s.runQueue rq).runq i).head? count).bind fun (s, count) =>
          updateQueues env tryLock rq fuel rest (i + 1) s count
    else .ok s

/-- SRC: kern/sched_prim.c:2709-2769 -/
def updateRunqPri (env : Env T) (tryLock : T → Bool) (fuel : ℕ) (s : Sched T P S) (rq : RunqOf P S) :
    Except Stop (Sched T P S) :=
  let runq := s.runQueue rq
  updateQueues env tryLock rq fuel (NRQS - runq.low) runq.low s runq.count

end Update

end Osf1.Runq
