import Osf1.Computation.Queues
import Osf1.Computation.Transition

/-!
# Waiting for events

A thread asserts a wait for an event, may set a timer, and blocks; a wakeup of the event, `clear_wait` or the
timer ends the wait.  The steps are the sections under the lock of a thread or of a wait queue; what `clear_wait`
and `thread_timeout` know between their sections is in the state of the call.  Run queues and priorities are left
out: a thread that is set running is `queued` until a processor takes it.
-/

set_option autoImplicit false

namespace Osf1.Wait

open Function

section Model

open Osf1.Computation

/-- Event 0 is none. -/
abbrev Event := BitVec 64

/-- SRC: kern/sched_prim.c:253 -/
def NUMQUEUES : ℕ := 59

/-- SRC: kern/sched_prim.c:258-259 -/
def waitHash (event : Event) : ℕ := (if event.slt 0 then event ^^^ -1 else event).toNat % NUMQUEUES

/-- SRC: kern/sched_prim.h:61-65 -/
inductive Result where
  | awakened
  | timedOut
  | interrupted
  | shouldTerminate
  | restart
deriving DecidableEq

/-- The bits `TH_WAIT`, `TH_SUSP`, `TH_RUN`, `TH_SWAPPED` and `TH_IDLE`.
SRC: kern/thread.h:157-163 -/
structure ThState where
  wait : Bool
  susp : Bool
  run : Bool
  swapped : Bool
  idle : Bool
deriving DecidableEq

/-- SRC: kern/thread.h:147-156 -/
structure Thread where
  waitEvent : Event
  interruptible : Bool
  waitResult : Result
  timerSet : Bool
  state : ThState
deriving DecidableEq

/-- Where a thread is: on a processor, on a processor that is about to go on with another thread, taken by a
processor, set running, or nowhere. -/
inductive Place (T : Type) where
  | running
  | leaving (newThread : T)
  | coming
  | queued
  | away
deriving DecidableEq

/-- Who ends a wait: a wakeup, a caller of `clear_wait`, or the timer that was set in the wait with a number. -/
inductive Cause where
  | wakeup
  | clearWait (interruptOnly : Bool)
  | timeout (number : ℕ)
deriving DecidableEq

/-- A wait of a thread has ended. -/
structure Ended (T : Type) where
  thread : T
  number : ℕ
  result : Result
  cause : Cause
deriving DecidableEq

/-- A wait as it was asserted. -/
structure Asserted where
  event : Event
  interruptible : Bool
deriving DecidableEq

/-- Where a call is between two sections: `thread_wakeup_prim` has dropped the lock of the wait queue, or not
started (`before` are the waits asserted when it was called); `clear_wait` has read the event of a thread in the wait
`seen`; a callout has left the list, and `thread_timeout` has cleared `timer_set`. -/
inductive Pc (T : Type) where
  | none
  | wakeup (event : Event) (result : Result) (oneThread : Bool) (before : T → ℕ)
  | clearing (thread : T) (event : Event) (result : Result) (cause : Cause) (seen : ℕ)
  | expired (thread : T) (number : ℕ)
  | timeout (thread : T) (number : ℕ)

/-- `asserted` counts the waits of a thread, which `waits` says; `callouts` are the timers that are set, each with the
number of the wait it was set in; `woken` are the wakeups of all threads that have been carried out. -/
structure St (T C : Type) where
  thread : T → Thread
  place : T → Place T
  waitQueue : ℕ → List T
  callouts : List (T × ℕ)
  pc : C → Pc T
  asserted : T → ℕ
  waits : T → ℕ → Asserted
  ended : List (Ended T)
  woken : List (Event × (T → ℕ))

variable {T C : Type} [DecidableEq T] [DecidableEq C]

namespace St

def setThread (s : St T C) (t : T) (x : Thread) : St T C := { s with thread := update s.thread t x }

def setPlace (s : St T C) (t : T) (p : Place T) : St T C := { s with place := update s.place t p }

def setPc (s : St T C) (c : C) (p : Pc T) : St T C := { s with pc := update s.pc c p }

variable {s : St T C} {t u : T}

omit [DecidableEq C] in
@[simp] theorem setThread_self (x : Thread) : (s.setThread t x).thread t = x := update_self ..

omit [DecidableEq C] in
@[simp] theorem setThread_of_ne (h : u ≠ t) (x : Thread) : (s.setThread t x).thread u = s.thread u :=
  update_of_ne h ..

omit [DecidableEq C] in
@[simp] theorem setPlace_self (p : Place T) : (s.setPlace t p).place t = p := update_self ..

omit [DecidableEq C] in
@[simp] theorem setPlace_of_ne (h : u ≠ t) (p : Place T) : (s.setPlace t p).place u = s.place u := update_of_ne h ..

end St

section Ending

/-- A timer of the thread is taken off the list of callouts.
SRC: kern/sched_prim.c:594-606,710-713,836-839 -/
def cancelTimer (s : St T C) (t : T) : St T C :=
  if (s.thread t).timerSet = true then
    { s.setThread t { s.thread t with timerSet := false } with callouts := s.callouts.eraseP fun c => c.1 = t }
  else s

def record (s : St T C) (t : T) (result : Result) (cause : Cause) : St T C :=
  { s with ended := ⟨t, s.asserted t, result, cause⟩ :: s.ended }

/-- The switch on the state of a thread whose wait ends; a thread that does not wait is left alone.
SRC: kern/sched_prim.c:608-645,714-766,842-869 -/
def resume (s : St T C) (t : T) (result : Result) (cause : Cause) : St T C :=
  let thread := s.thread t
  let state := thread.state
  if state = ⟨true, true, false, false, false⟩ ∧ thread.interruptible = true then
    (record s t result cause).setThread t { thread with
      state := ⟨false, true, false, false, false⟩, waitResult := result }
  else if state = ⟨true, true, false, false, false⟩ ∨ state = ⟨true, false, false, false, false⟩ then
    ((record s t result cause).setThread t { thread with
      state := { state with wait := false, run := true }, waitResult := result }).setPlace t .queued
  else if state = ⟨true, false, false, true, false⟩ then
    (record s t result cause).setThread t { thread with
      state := ⟨false, false, true, true, false⟩, waitResult := result }
  else if state.wait = true then
    (record s t result cause).setThread t { thread with
      state := { state with wait := false }, waitResult := result, interruptible := true }
  else s

/-- A thread leaves its wait queue. -/
def unqueue (s : St T C) (t : T) : St T C :=
  { s.setThread t { s.thread t with waitEvent := 0 } with waitQueue := fun i => (s.waitQueue i).erase t }

end Ending

section Wakeups

/-- A thread on the wait queue is woken.
SRC: kern/sched_prim.c:702-769,826-872 -/
def wakeThread (s : St T C) (t : T) (result : Result) (message : String) : Except String (St T C) :=
  let s := cancelTimer (unqueue s t) t
  if (s.thread t).state.wait = false then .error message else .ok (resume s t result .wakeup)

/-- How a section of `thread_wakeup_prim` ends. -/
inductive ScanEnd where
  | finished
  | one
  | restart
deriving DecidableEq

/-- The loop over a wait queue.  After a thread that is swapped out it starts again, as the lock has been dropped.
SRC: kern/sched_prim.c:690-771 -/
def wakeupScan (event : Event) (result : Result) (oneThread : Bool) :
    List T → St T C → Except String (St T C × ScanEnd)
  | [], s => .ok (s, .finished)
  | t :: rest, s =>
    if (s.thread t).waitEvent = event then
      let swapped := decide ((s.thread t).state = ⟨true, false, false, true, false⟩)
      (wakeThread s t result "thread_wakeup").bind fun s =>
        if oneThread = true then .ok (s, .one)
        else if swapped = true then .ok (s, .restart)
        else wakeupScan event result oneThread rest s
    else wakeupScan event result oneThread rest s

/-- The first of the best threads that wait for the event.
SRC: kern/sched_prim.c:800-814 -/
def hipri (s : St T C) (schedPri : T → ℕ) (event : Event) : List T → Option T → Option T
  | [], best => best
  | t :: rest, best =>
    if (s.thread t).waitEvent = event then
      match best with
      | none => hipri s schedPri event rest (some t)
      | some b => hipri s schedPri event rest (some (if schedPri t < schedPri b then t else b))
    else hipri s schedPri event rest best

/-- SRC: kern/sched_prim.c:776-875 -/
def threadWakeupHi (s : St T C) (schedPri : T → ℕ) (event : Event) (result : Result) : Except String (St T C) :=
  match hipri s schedPri event (s.waitQueue (waitHash event)) none with
  | none => .ok s
  | some t => wakeThread s t result "thread_wakeup_high"

/-- A section of `thread_wakeup_prim`, which ends the call or leaves it at the start of the queue.
SRC: kern/sched_prim.c:661-773 -/
def threadWakeupPrim (s : St T C) (c : C) (event : Event) (result : Result) (oneThread : Bool) (before : T → ℕ) :
    Except String (St T C) :=
  (wakeupScan event result oneThread (s.waitQueue (waitHash event)) s).bind fun (s, scanEnd) =>
    match scanEnd with
    | .finished => .ok ({ s with woken := (event, before) :: s.woken }.setPc c .none)
    | .one => .ok (s.setPc c .none)
    | .restart => .ok s

end Wakeups

section Clearing

/-- The end of `clear_wait`, with the lock of the thread.
SRC: kern/sched_prim.c:590-646 -/
def finishWait (s : St T C) (t : T) (result : Result) (cause : Cause) : St T C := resume (cancelTimer s t) t result cause

/-- The first section of `clear_wait`.
SRC: kern/sched_prim.c:562-572,590-649 -/
def clearWait (s : St T C) (c : C) (t : T) (result : Result) (interruptOnly : Bool) (cause : Cause) : St T C :=
  let thread := s.thread t
  if interruptOnly = true ∧ thread.interruptible = false then s.setPc c .none
  else if thread.waitEvent ≠ 0 then s.setPc c (.clearing t thread.waitEvent result cause (s.asserted t))
  else (finishWait s t result cause).setPc c .none

/-- The second section: the thread may not wait for the event any more.
SRC: kern/sched_prim.c:573-649 -/
def clearWait₂ (s : St T C) (c : C) (t : T) (event : Event) (result : Result) (cause : Cause) : St T C :=
  if (s.thread t).waitEvent = event then (finishWait (unqueue s t) t result cause).setPc c .none
  else s.setPc c .none

end Clearing

section Blocking

/-- SRC: kern/sched_prim.c:485-532 -/
def assertWait (s : St T C) (t : T) (event : Event) (interruptible : Bool) : Except String (St T C) :=
  let thread := s.thread t
  if thread.waitEvent ≠ 0 then .error "assert_wait"
  else
    let number := s.asserted t + 1
    let s := { s with
      asserted := update s.asserted t number
      waits := update s.waits t (update (s.waits t) number ⟨event, interruptible⟩) }
    let thread := { thread with interruptible := interruptible, state := { thread.state with wait := true } }
    if event ≠ 0 then
      let i := waitHash event
      .ok { s.setThread t { thread with waitEvent := event } with
        waitQueue := update s.waitQueue i (s.waitQueue i ++ [t]) }
    else .ok (s.setThread t thread)

/-- The timer goes to the place in the list of callouts that its time gives.
SRC: kern/sched_prim.c:458-474 -/
def threadSetTimeout (s : St T C) (t : T) (i : ℕ) : St T C :=
  if (s.thread t).state.wait = true then
    { s.setThread t { s.thread t with timerSet := true } with callouts := s.callouts.insertIdx i (t, s.asserted t) }
  else s

/-- The part of `thread_block` that takes another thread.
SRC: kern/sched_prim.c:1136-1200 -/
def takeThread (s : St T C) (t newThread : T) : St T C :=
  ((s.setThread newThread { s.thread newThread with interruptible := true }).setPlace newThread .coming).setPlace t
    (.leaving newThread)

/-- The processor of a thread goes on with `newThread`.
SRC: kern/sched_prim.c:1320-1404 -/
def threadContinue (s : St T C) (t newThread : T) : Except String (St T C) :=
  let thread := s.thread t
  let state := thread.state
  let s := s.setPlace newThread .running
  if state = ⟨false, true, true, false, false⟩ ∧ thread.interruptible = true then
    .ok ((s.setThread t { thread with state := ⟨false, true, false, false, false⟩ }).setPlace t .away)
  else if state = ⟨false, true, true, false, false⟩ ∨ state = ⟨false, false, true, false, false⟩ then
    .ok (s.setPlace t .queued)
  else if state = ⟨true, true, true, false, false⟩ ∧ thread.interruptible = true then
    .ok ((s.setThread t { thread with state := ⟨true, true, false, false, false⟩ }).setPlace t .away)
  else if state = ⟨true, true, true, false, false⟩ ∨ state = ⟨true, false, true, false, false⟩ then
    .ok ((s.setThread t { thread with state := { state with run := false } }).setPlace t .away)
  else if state = ⟨false, false, true, false, true⟩ then .ok (s.setPlace t .away)
  else .error "thread_continue"

end Blocking

section Suspending

/-- SRC: kern/thread.c:1376-1389 -/
def threadHold (s : St T C) (t : T) : St T C :=
  s.setThread t { s.thread t with state := { (s.thread t).state with susp := true } }

/-- A thread that is released for the last time.
SRC: kern/thread.c:1491-1523 -/
def threadRelease (s : St T C) (t : T) : St T C :=
  let state := { (s.thread t).state with susp := false }
  if state.wait = false ∧ state.run = false then
    let s := s.setThread t { s.thread t with state := { state with run := true } }
    if state.swapped = true then s else s.setPlace t .queued
  else s.setThread t { s.thread t with state := state }

/-- A thread that `thread_dowait` finds on a run queue is stopped.
SRC: kern/thread.c:1446-1457 -/
def stopQueued (s : St T C) (t : T) : St T C :=
  if (s.thread t).state = ⟨false, true, true, false, false⟩ ∧ (s.thread t).interruptible = true ∧ s.place t = .queued then
    (s.setThread t { s.thread t with state := ⟨false, true, false, false, false⟩ }).setPlace t .away
  else s

/-- SRC: kern/thread_swap.c:355-360; kern/task_swap.c:226-230 -/
def markSwapped (s : St T C) (t : T) : St T C :=
  if (s.thread t).state.run = false ∧ (s.thread t).state.swapped = false then
    s.setThread t { s.thread t with state := { (s.thread t).state with swapped := true } }
  else s

/-- The last section of `thread_doswapin`.
SRC: kern/thread_swap.c:204-208 -/
def threadDoswapin (s : St T C) (t : T) : St T C :=
  if (s.thread t).state.swapped = true then
    let s := s.setThread t { s.thread t with state := { (s.thread t).state with swapped := false } }
    if (s.thread t).state.run = true then s.setPlace t .queued else s
  else s

end Suspending

/-- The sections, each with who takes it. -/
inductive Label (T C : Type) where
  | assertWait (t : T) (event : Event) (interruptible : Bool)
  | setTimeout (t : T) (i : ℕ)
  | take (t newThread : T)
  | continue' (t : T)
  | wakeup (c : C) (event : Event) (result : Result) (oneThread : Bool)
  | wakeupSection (c : C)
  | wakeupHi (schedPri : T → ℕ) (event : Event) (result : Result)
  | clearWait (c : C) (t : T) (result : Result) (interruptOnly : Bool)
  | clearWait₂ (c : C)
  | expire (c : C)
  | threadTimeout (c : C)
  | timeoutClear (c : C)
  | hold (t : T)
  | release (t : T)
  | stop (t : T)
  | swapout (t : T)
  | swapin (t : T)

/-- The section that a label names, if it can be taken.  An idle thread asserts no wait and is not suspended, and is
taken when nothing is queued for its processor; the processor of a thread that is leaving does nothing else.
SRC: kern/sched_prim.c:432-449 -/
def exec (s : St T C) : Label T C → Option (Except String (St T C))
  | .assertWait t event interruptible =>
    if s.place t = .running ∧ (s.thread t).state.idle = false then some (assertWait s t event interruptible) else none
  | .setTimeout t i => if s.place t = .running then some (.ok (threadSetTimeout s t i)) else none
  | .take t newThread =>
    if s.place t = .running ∧
        (s.place newThread = .queued ∨ s.place newThread = .away ∧ (s.thread newThread).state.idle = true) then
      some (.ok (takeThread s t newThread))
    else none
  | .continue' t =>
    match s.place t with
    | .leaving newThread => some (threadContinue s t newThread)
    | _ => none
  | .wakeup c event result oneThread =>
    match s.pc c with
    | .none => some (.ok (s.setPc c (.wakeup event result oneThread s.asserted)))
    | _ => none
  | .wakeupSection c =>
    match s.pc c with
    | .wakeup event result oneThread before => some (threadWakeupPrim s c event result oneThread before)
    | _ => none
  | .wakeupHi schedPri event result => some (threadWakeupHi s schedPri event result)
  | .clearWait c t result interruptOnly =>
    match s.pc c with
    | .none => some (.ok (clearWait s c t result interruptOnly (.clearWait interruptOnly)))
    | _ => none
  | .clearWait₂ c =>
    match s.pc c with
    | .clearing t event result cause _ => some (.ok (clearWait₂ s c t event result cause))
    | _ => none
  | .expire c =>
    match s.pc c, s.callouts with
    | .none, (t, number) :: rest => some (.ok ({ s with callouts := rest }.setPc c (.expired t number)))
    | _, _ => none
  | .threadTimeout c =>
    match s.pc c with
    | .expired t number =>
      some (.ok ((s.setThread t { s.thread t with timerSet := false }).setPc c (.timeout t number)))
    | _ => none
  | .timeoutClear c =>
    match s.pc c with
    | .timeout t number => some (.ok (clearWait s c t .timedOut false (.timeout number)))
    | _ => none
  | .hold t => if (s.thread t).state.idle = false then some (.ok (threadHold s t)) else none
  | .release t => if (s.thread t).state.idle = false then some (.ok (threadRelease s t)) else none
  | .stop t => some (.ok (stopQueued s t))
  | .swapout t => some (.ok (markSwapped s t))
  | .swapin t => some (.ok (threadDoswapin s t))

end Model

/-!
## What holds of threads and wait queues in every run

A thread is on the wait queue that its event hashes to, once, and then waits; what its state may be depends on
where it is.  `Ends` says what ending a wait changes, and every section that ends one is shown to do that.
-/

section Invariant

open Osf1.Computation

variable {T C : Type} {p : Place T} {state : ThState}

/-- The wait queue that a thread is on. -/
def Thread.queue (thread : Thread) : Option ℕ := if thread.waitEvent = 0 then none else some (waitHash thread.waitEvent)

theorem Thread.queue_eq_none {thread : Thread} (h : thread.waitEvent = 0) : thread.queue = none := if_pos h

theorem Thread.queue_eq_some_iff {thread : Thread} {i : ℕ} :
    thread.queue = some i ↔ thread.waitEvent ≠ 0 ∧ i = waitHash thread.waitEvent := by
  unfold Thread.queue
  by_cases h : thread.waitEvent = 0
  · rw [if_pos h]
    exact iff_of_false nofun fun hne => hne.1 h
  · rw [if_neg h, Option.some_inj]
    exact ⟨fun heq => ⟨h, heq.symm⟩, fun hne => hne.2.symm⟩

/-- The states of a thread that is at a place. -/
def Place.Allows : Place T → ThState → Prop
  | .running, state | .leaving _, state => state.run = true ∧ state.swapped = false
  | .coming, state | .queued, state => state.run = true ∧ state.swapped = false ∧ state.wait = false
  | .away, state => state.run = true → state.wait = false

/-- The state of a thread is one that it can have where it is. -/
structure Fits (p : Place T) (state : ThState) : Prop where
  stopped : state.run = false → state.susp = false → state.wait = true
  idle : state.idle = true → state = ⟨false, false, true, false, true⟩
  place : p.Allows state

theorem Fits.away (h : Fits p state) (hrun : state.run = false) : p = .away := by
  have hplace := h.place
  cases p with
  | running => simp [Place.Allows, hrun] at hplace
  | leaving newThread => simp [Place.Allows, hrun] at hplace
  | coming => simp [Place.Allows, hrun] at hplace
  | queued => simp [Place.Allows, hrun] at hplace
  | away => rfl

theorem Fits.away_of_swapped (h : Fits p state) (hswapped : state.swapped = true) : p = .away := by
  have hplace := h.place
  cases p with
  | running => simp [Place.Allows, hswapped] at hplace
  | leaving newThread => simp [Place.Allows, hswapped] at hplace
  | coming => simp [Place.Allows, hswapped] at hplace
  | queued => simp [Place.Allows, hswapped] at hplace
  | away => rfl

theorem Fits.idle_eq_false (h : Fits p state) (hwait : state.wait = true) : state.idle = false := by
  apply Bool.eq_false_iff.mpr
  intro hidle
  rw [h.idle hidle] at hwait
  cases hwait

theorem Place.Allows.congr {state' : ThState} (h : p.Allows state) (hrun : state'.run = state.run)
    (hswapped : state'.swapped = state.swapped) (hwait : state'.wait = state.wait) : p.Allows state' := by
  cases p with
  | running => exact ⟨hrun.trans h.1, hswapped.trans h.2⟩
  | leaving newThread => exact ⟨hrun.trans h.1, hswapped.trans h.2⟩
  | coming => exact ⟨hrun.trans h.1, hswapped.trans h.2.1, hwait.trans h.2.2⟩
  | queued => exact ⟨hrun.trans h.1, hswapped.trans h.2.1, hwait.trans h.2.2⟩
  | away => exact fun hrun' => hwait.trans (h (hrun.symm.trans hrun'))

/-- The invariant of every run. -/
structure Sound (s : St T C) : Prop where
  placed : Queues.Placed s.waitQueue fun t => (s.thread t).queue
  waits : ∀ t, (s.thread t).waitEvent ≠ 0 → (s.thread t).state.wait = true
  fits : ∀ t, Fits (s.place t) (s.thread t).state
  coming : ∀ t u, s.place t = .leaving u → s.place u = .coming
  alone : ∀ t t' u, s.place t = .leaving u → s.place t' = .leaving u → t = t'
  clearing : ∀ c t event result cause seen, s.pc c = .clearing t event result cause seen → event ≠ 0

variable {s s' : St T C} {t : T}

theorem Sound.mem_iff (h : Sound s) {i : ℕ} :
    t ∈ s.waitQueue i ↔ (s.thread t).waitEvent ≠ 0 ∧ i = waitHash (s.thread t).waitEvent :=
  (h.placed.mem i t).trans Thread.queue_eq_some_iff

theorem Sound.change (h : Sound s) (hqueue : s'.waitQueue = s.waitQueue) (hpc : s'.pc = s.pc)
    (hthread : ∀ u, u ≠ t → s'.thread u = s.thread u) (hplace : ∀ u, u ≠ t → s'.place u = s.place u)
    (hevent : (s'.thread t).waitEvent = (s.thread t).waitEvent)
    (hwait : (s.thread t).waitEvent ≠ 0 → (s'.thread t).state.wait = true)
    (hfits : Fits (s'.place t) (s'.thread t).state)
    (hstay : s'.place t = s.place t ∨ s.place t ≠ .coming ∧ ∀ u, s'.place t ≠ .leaving u) : Sound s' := by
  have hleaving {u v : T} (hu : s'.place u = .leaving v) : s.place u = .leaving v := by
    by_cases hut : u = t
    · rw [hut] at hu ⊢
      rcases hstay with hsame | hnot
      · rw [← hsame, hu]
      · exact absurd hu (hnot.2 v)
    · rw [← hplace u hut, hu]
  constructor
  · rw [hqueue]
    apply h.placed.congr
    intro u
    by_cases hu : u = t
    · rw [hu, Thread.queue, Thread.queue, hevent]
    · rw [hthread u hu]
  · intro u hne
    by_cases hu : u = t
    · rw [hu] at hne ⊢
      rw [hevent] at hne
      exact hwait hne
    · rw [hthread u hu] at hne ⊢
      exact h.waits u hne
  · intro u
    by_cases hu : u = t
    · rw [hu]
      exact hfits
    · rw [hthread u hu, hplace u hu]
      exact h.fits u
  · intro u v hu
    have hv := h.coming u v (hleaving hu)
    by_cases hvt : v = t
    · rw [hvt] at hv ⊢
      rcases hstay with hsame | hnot
      · rw [hsame, hv]
      · exact absurd hv hnot.1
    · rw [hplace v hvt, hv]
  · intro u u' v hu hu'
    exact h.alone u u' v (hleaving hu) (hleaving hu')
  · rw [hpc]
    exact h.clearing

theorem Sound.setPc [DecidableEq C] (h : Sound s) (c : C) {q : Pc T}
    (hq : ∀ t event result cause seen, q = .clearing t event result cause seen → event ≠ 0) : Sound (s.setPc c q) := by
  refine ⟨h.placed, h.waits, h.fits, h.coming, h.alone, ?_⟩
  intro d t event result cause seen hd
  by_cases hdc : d = c
  · simp only [hdc, St.setPc, update_self] at hd
    exact hq t event result cause seen hd
  · simp only [St.setPc, update_of_ne hdc] at hd
    exact h.clearing d t event result cause seen hd

section Ending

variable [DecidableEq T] {result : Result} {cause : Cause}

/-- Ending the wait of a thread: the thread leaves its wait queue, and the end is recorded. -/
structure Ends (s : St T C) (t : T) (result : Result) (cause : Cause) (s' : St T C) : Prop where
  wait : (s.thread t).state.wait = true
  thread : ∀ u, u ≠ t → s'.thread u = s.thread u
  place : ∀ u, u ≠ t → s'.place u = s.place u
  waitEvent : (s'.thread t).waitEvent = 0
  wait_eq : (s'.thread t).state.wait = false
  fits : Fits (s'.place t) (s'.thread t).state
  stay : s'.place t = s.place t ∨ s.place t ≠ .coming ∧ ∀ u, s'.place t ≠ .leaving u
  waitQueue : s'.waitQueue = fun i => (s.waitQueue i).erase t
  ended : s'.ended = ⟨t, s.asserted t, result, cause⟩ :: s.ended
  asserted : s'.asserted = s.asserted
  waits : s'.waits = s.waits
  pc : s'.pc = s.pc
  woken : s'.woken = s.woken

theorem Sound.unqueue (h : Sound s) (t : T) : Sound (unqueue s t) := by
  constructor
  · apply h.placed.remove.congr
    intro u
    by_cases hu : u = t
    · rw [hu, update_self]
      apply Thread.queue_eq_none
      simp [Wait.unqueue]
    · rw [update_of_ne hu]
      simp [Wait.unqueue, hu]
  · intro u hne
    by_cases hu : u = t
    · rw [hu] at hne
      simp [Wait.unqueue] at hne
    · simp only [Wait.unqueue, St.setThread_of_ne hu] at hne ⊢
      exact h.waits u hne
  · intro u
    by_cases hu : u = t
    · rw [hu]
      simp only [Wait.unqueue, St.setThread_self]
      exact h.fits t
    · simp only [Wait.unqueue, St.setThread_of_ne hu]
      exact h.fits u
  · exact h.coming
  · exact h.alone
  · exact h.clearing

theorem Sound.ends (h : Sound s) (hends : Ends s t result cause s') : Sound s' := by
  apply @Sound.change _ _ (Wait.unqueue s t) s' t (h.unqueue t)
  · exact hends.waitQueue
  · exact hends.pc
  · intro u hu
    rw [hends.thread u hu]
    simp [Wait.unqueue, hu]
  · exact hends.place
  · rw [hends.waitEvent]
    simp [Wait.unqueue]
  · intro hne
    simp [Wait.unqueue] at hne
  · exact hends.fits
  · exact hends.stay

/-- The timers are all that `cancelTimer` changes. -/
structure Retimed (s : St T C) (t : T) (s' : St T C) : Prop where
  thread : ∀ u, u ≠ t → s'.thread u = s.thread u
  self : ∃ b, s'.thread t = { s.thread t with timerSet := b }
  place : s'.place = s.place
  waitQueue : s'.waitQueue = s.waitQueue
  pc : s'.pc = s.pc
  asserted : s'.asserted = s.asserted
  waits : s'.waits = s.waits
  ended : s'.ended = s.ended
  woken : s'.woken = s.woken

theorem cancelTimer_retimed (s : St T C) (t : T) : Retimed s t (cancelTimer s t) := by
  unfold cancelTimer
  by_cases hset : (s.thread t).timerSet = true
  · rw [if_pos hset]
    exact ⟨fun u hu => St.setThread_of_ne hu _, ⟨false, St.setThread_self _⟩, rfl, rfl, rfl, rfl, rfl, rfl, rfl⟩
  · rw [if_neg hset]
    exact ⟨fun _ _ => rfl, ⟨(s.thread t).timerSet, rfl⟩, rfl, rfl, rfl, rfl, rfl, rfl, rfl⟩

omit [DecidableEq T] in
theorem Sound.retimed (h : Sound s) (hretimed : Retimed s t s') : Sound s' := by
  obtain ⟨b, hself⟩ := hretimed.self
  apply @Sound.change _ _ s s' t h
  · exact hretimed.waitQueue
  · exact hretimed.pc
  · exact hretimed.thread
  · intro u _
    rw [hretimed.place]
  · rw [hself]
  · rw [hself]
    exact h.waits t
  · rw [hself, hretimed.place]
    exact h.fits t
  · rw [hretimed.place]
    exact .inl rfl

theorem Ends.of_retimed {s₁ : St T C} (hretimed : Retimed s t s₁) (hends : Ends s₁ t result cause s') :
    Ends s t result cause s' := by
  obtain ⟨b, hself⟩ := hretimed.self
  constructor
  · have hwait := hends.wait
    rw [hself] at hwait
    exact hwait
  · intro u hu
    rw [hends.thread u hu, hretimed.thread u hu]
  · intro u hu
    rw [hends.place u hu, hretimed.place]
  · exact hends.waitEvent
  · exact hends.wait_eq
  · exact hends.fits
  · rw [← hretimed.place]
    exact hends.stay
  · rw [← hretimed.waitQueue]
    exact hends.waitQueue
  · rw [← hretimed.ended, ← hretimed.asserted]
    exact hends.ended
  · rw [← hretimed.asserted]
    exact hends.asserted
  · rw [← hretimed.waits]
    exact hends.waits
  · rw [← hretimed.pc]
    exact hends.pc
  · rw [← hretimed.woken]
    exact hends.woken

theorem Ends.of_unqueue (hends : Ends (unqueue s t) t result cause s') (hnodup : ∀ i, (s.waitQueue i).Nodup) :
    Ends s t result cause s' := by
  constructor
  · have hwait := hends.wait
    simp only [unqueue, St.setThread_self] at hwait
    exact hwait
  · intro u hu
    rw [hends.thread u hu]
    simp [unqueue, hu]
  · exact hends.place
  · exact hends.waitEvent
  · exact hends.wait_eq
  · exact hends.fits
  · exact hends.stay
  · rw [hends.waitQueue]
    funext i
    exact List.erase_of_not_mem (hnodup i).not_mem_erase
  · exact hends.ended
  · exact hends.asserted
  · exact hends.waits
  · exact hends.pc
  · exact hends.woken

theorem ends_write (h : Sound s) (hwait : (s.thread t).state.wait = true) (hevent : (s.thread t).waitEvent = 0)
    {x : Thread} {q : Place T} (hx : x.waitEvent = 0) (hxwait : x.state.wait = false) (hfits : Fits q x.state)
    (hstay : q = s.place t ∨ s.place t ≠ .coming ∧ ∀ u, q ≠ .leaving u) :
    Ends s t result cause (((record s t result cause).setThread t x).setPlace t q) := by
  have hself : (((record s t result cause).setThread t x).setPlace t q).thread t = x := update_self ..
  have hplace : (((record s t result cause).setThread t x).setPlace t q).place t = q := update_self ..
  constructor
  · exact hwait
  · exact fun u hu => update_of_ne hu ..
  · exact fun u hu => update_of_ne hu ..
  · rw [hself, hx]
  · rw [hself, hxwait]
  · rw [hself, hplace]
    exact hfits
  · rw [hplace]
    exact hstay
  · funext i
    exact (List.erase_of_not_mem (h.placed.notMem (Thread.queue_eq_none hevent))).symm
  · rfl
  · rfl
  · rfl
  · rfl
  · rfl

theorem ends_write_stay (h : Sound s) (hwait : (s.thread t).state.wait = true) (hevent : (s.thread t).waitEvent = 0)
    {x : Thread} (hx : x.waitEvent = 0) (hxwait : x.state.wait = false) (hfits : Fits (s.place t) x.state) :
    Ends s t result cause ((record s t result cause).setThread t x) := by
  have hends := @ends_write _ _ s t _ result cause h hwait hevent x (s.place t) hx hxwait hfits (.inl rfl)
  have hsame : ((record s t result cause).setThread t x).setPlace t (s.place t) =
      (record s t result cause).setThread t x := by
    simp [St.setPlace, St.setThread, record]
  rwa [hsame] at hends

theorem resume_of_not_wait (hwait : (s.thread t).state.wait = false) : resume s t result cause = s := by
  have hne {susp swapped : Bool} : (s.thread t).state ≠ ⟨true, susp, false, swapped, false⟩ := by
    intro heq
    rw [heq] at hwait
    cases hwait
  simp [resume, hne, hwait]

omit [DecidableEq T] in
theorem Place.Allows.wake (h : p.Allows state) : p.Allows { state with wait := false } := by
  cases p with
  | running => exact h
  | leaving newThread => exact h
  | coming => exact ⟨h.1, h.2.1, rfl⟩
  | queued => exact ⟨h.1, h.2.1, rfl⟩
  | away => exact fun _ => rfl

theorem resume_ends (h : Sound s) (hevent : (s.thread t).waitEvent = 0) (hwait : (s.thread t).state.wait = true) :
    Ends s t result cause (resume s t result cause) := by
  have hfits := h.fits t
  have hidle := hfits.idle_eq_false hwait
  have hbits : (s.thread t).state = ⟨true, (s.thread t).state.susp, (s.thread t).state.run, (s.thread t).state.swapped,
      false⟩ := by
    rw [← hidle, ← hwait]
  unfold resume
  by_cases h₁ : (s.thread t).state = ⟨true, true, false, false, false⟩ ∧ (s.thread t).interruptible = true
  · have haway := hfits.away (by rw [h₁.1])
    simp only [if_pos h₁]
    apply ends_write_stay h hwait hevent
    · exact hevent
    · rfl
    · rw [haway]
      exact ⟨nofun, nofun, fun _ => rfl⟩
  simp only [if_neg h₁]
  by_cases h₂ : (s.thread t).state = ⟨true, true, false, false, false⟩ ∨
      (s.thread t).state = ⟨true, false, false, false, false⟩
  · have hrun : (s.thread t).state.run = false ∧ (s.thread t).state.swapped = false := by
      rcases h₂ with heq | heq
      · simp [heq]
      · simp [heq]
    have haway := hfits.away hrun.1
    simp only [if_pos h₂]
    apply ends_write h hwait hevent
    · exact hevent
    · rfl
    · exact ⟨nofun, fun heq => (nomatch hidle.symm.trans heq), rfl, hrun.2, rfl⟩
    · rw [haway]
      exact .inr ⟨nofun, nofun⟩
  simp only [if_neg h₂]
  by_cases h₃ : (s.thread t).state = ⟨true, false, false, true, false⟩
  · have haway := hfits.away (by rw [h₃])
    simp only [if_pos h₃]
    apply ends_write_stay h hwait hevent
    · exact hevent
    · rfl
    · rw [haway]
      exact ⟨nofun, nofun, fun _ => rfl⟩
  · simp only [if_neg h₃, if_pos hwait]
    apply ends_write_stay h hwait hevent
    · exact hevent
    · rfl
    · refine ⟨?_, fun heq => (nomatch hidle.symm.trans heq), hfits.place.wake⟩
      -- a thread that is neither running nor suspended is in one of the cases before
      intro hrun hsusp
      exfalso
      rw [hrun, hsusp] at hbits
      by_cases hswapped : (s.thread t).state.swapped = true
      · rw [hswapped] at hbits
        exact h₃ hbits
      · rw [Bool.eq_false_iff.mpr hswapped] at hbits
        exact h₂ (.inr hbits)

theorem finishWait_ends (h : Sound s) (hevent : (s.thread t).waitEvent = 0) (hwait : (s.thread t).state.wait = true) :
    Ends s t result cause (finishWait s t result cause) := by
  have hretimed := cancelTimer_retimed s t
  obtain ⟨b, hself⟩ := hretimed.self
  apply Ends.of_retimed hretimed
  apply resume_ends (h.retimed hretimed)
  · rw [hself]
    exact hevent
  · rw [hself]
    exact hwait

theorem finishWait_retimed (hwait : (s.thread t).state.wait = false) : Retimed s t (finishWait s t result cause) := by
  have hretimed := cancelTimer_retimed s t
  obtain ⟨b, hself⟩ := hretimed.self
  have hwait' : ((cancelTimer s t).thread t).state.wait = false := by
    rw [hself]
    exact hwait
  rw [finishWait, resume_of_not_wait hwait']
  exact hretimed

theorem finishWait_unqueue_ends (h : Sound s) (hevent : (s.thread t).waitEvent ≠ 0) :
    Ends s t result cause (finishWait (unqueue s t) t result cause) := by
  apply Ends.of_unqueue _ h.placed.nodup
  apply finishWait_ends (h.unqueue t)
  · simp [unqueue]
  · have hwait := h.waits t hevent
    simp only [unqueue, St.setThread_self]
    exact hwait

theorem wakeThread_ends (h : Sound s) (hevent : (s.thread t).waitEvent ≠ 0) (message : String) :
    ∃ s', wakeThread s t result message = .ok s' ∧ Ends s t result .wakeup s' := by
  refine ⟨_, ?_, @finishWait_unqueue_ends _ _ s t _ result .wakeup h hevent⟩
  obtain ⟨b, hself⟩ := (cancelTimer_retimed (unqueue s t) t).self
  have hwait : ((cancelTimer (unqueue s t) t).thread t).state.wait = true := by
    rw [hself]
    simp only [unqueue, St.setThread_self]
    exact h.waits t hevent
  simp [wakeThread, hwait, finishWait]

end Ending

end Invariant

end Osf1.Wait
