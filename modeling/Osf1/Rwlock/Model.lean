import Osf1.Computation.Tally
import Osf1.Computation.Transition

/-!
# Read/write locks

The sleep locks of `kern/lock.c`.  Every routine works on the lock with its interlock held, and lets go of
the interlock only to spin or to sleep while it waits, and when it returns: what it does in between is one
step.  `thread_sleep` lets go of the interlock after the thread has become a sleeper, and `thread_wakeup`
wakes all the threads that sleep on the lock.

For each thread there is, next to where it is in a routine, what it has got and not given back: its read
holds, its recursive write holds, and whether it was the one who set `want_write` and `want_upgrade`.
Nothing in the lock depends on that.
-/

set_option autoImplicit false

namespace Osf1.Rwlock

section Model

open Osf1.Computation

/-- `struct lock`.
SRC: kern/lock.h:247-303 -/
structure Lock (T : Type) where
  want_write : Bool
  want_upgrade : Bool
  waiting : Bool
  can_sleep : Bool
  read_count : ℕ
  thread : Option T
  recursion_depth : ℕ
  deriving DecidableEq

/-- Where a thread is: in no routine, or in one of the loops of `lock_write`, `lock_read`,
`lock_read_to_write` and `lock_try_read_to_write`. -/
inductive Pc where
  | idle
  | wantWrite
  | drain
  | wantRead
  | upgrade
  | tryUpgrade
  deriving DecidableEq

/-- A thread: where it is, whether it sleeps and has not been woken since, what it holds, and what the
last routine that returns something has returned. -/
structure Thread where
  pc : Pc
  asleep : Bool
  reads : ℕ
  depth : ℕ
  hasWrite : Bool
  hasUpgrade : Bool
  result : Option Bool
  deriving DecidableEq

/-- A lock and the threads that use it. -/
structure State (T : Type) where
  lock : Lock T
  th : T → Thread

variable {T : Type} [DecidableEq T]

/-- A thread goes on. -/
def State.setThread (s : State T) (t : T) (th : Thread) : State T := { s with th := Function.update s.th t th }

/-- A routine returns. -/
def State.returns (s : State T) (t : T) (result : Option Bool) : State T :=
  s.setThread t { s.th t with pc := .idle, result := result }

/-- Wake who sleeps on the lock. -/
def State.thread_wakeup (s : State T) : State T := { s with th := fun t => { s.th t with asleep := false } }

/-- Wake who waits, if somebody does.
SRC: kern/lock.c:541-544 -/
def State.wake (s : State T) : State T :=
  if s.lock.waiting then { s with lock := { s.lock with waiting := false } }.thread_wakeup else s

/-- Sleep on the lock. -/
def State.thread_sleep (s : State T) (t : T) : State T :=
  { s with lock := { s.lock with waiting := true } }.setThread t { s.th t with asleep := true }

/-- Wait in a loop: spin with the interlock released, or sleep if that is allowed.
SRC: kern/lock.c:458-477 -/
def State.wait (s : State T) (t : T) (nap : Bool) : Option (State T) :=
  if nap then if s.lock.can_sleep then some (s.thread_sleep t) else none else some s

section Holds

/-- A thread gets a read hold. -/
def State.addRead (s : State T) (t : T) : State T :=
  { s with lock := { s.lock with read_count := s.lock.read_count + 1 } }.setThread t
    { s.th t with reads := (s.th t).reads + 1 }

/-- A read hold is given up. -/
def State.dropRead (s : State T) (t : T) : State T :=
  { s with lock := { s.lock with read_count := s.lock.read_count - 1 } }.setThread t
    { s.th t with reads := (s.th t).reads - 1 }

/-- A thread gets the lock for writing once more. -/
def State.addDepth (s : State T) (t : T) : State T :=
  { s with lock := { s.lock with recursion_depth := s.lock.recursion_depth + 1 } }.setThread t
    { s.th t with depth := (s.th t).depth + 1 }

/-- A thread sets `want_write`, and waits for the readers next. -/
def State.takeWrite (s : State T) (t : T) : State T :=
  { s with lock := { s.lock with want_write := true } }.setThread t
    { s.th t with pc := .drain, hasWrite := true }

/-- A thread sets `want_upgrade`, and waits for the other readers next. -/
def State.takeUpgrade (s : State T) (t : T) (pc : Pc) : State T :=
  { s with lock := { s.lock with want_upgrade := true } }.setThread t
    { s.th t with pc := pc, hasUpgrade := true }

/-- A thread has the lock for writing. -/
def Thread.Writing (th : Thread) : Prop :=
  th.depth ≠ 0 ∨ (th.hasWrite ∧ th.pc ≠ .drain) ∨ (th.hasUpgrade ∧ th.pc ≠ .upgrade ∧ th.pc ≠ .tryUpgrade)

instance (th : Thread) : Decidable th.Writing := by
  unfold Thread.Writing
  infer_instance

/-- What a thread gives up of its write holds: the latest one. -/
def Thread.giveWrite (th : Thread) : Thread :=
  if th.depth ≠ 0 then { th with depth := th.depth - 1 }
  else if th.hasUpgrade then { th with hasUpgrade := false }
  else { th with hasWrite := false }

end Holds

section Waiting

/-- The second loop of `lock_write`: wait for readers and upgrades to finish.
SRC: kern/lock.c:480-502 -/
def drain (s : State T) (t : T) (nap : Bool) : Option (State T) :=
  if s.lock.read_count ≠ 0 ∨ s.lock.want_upgrade then s.wait t nap else some (s.returns t none)

/-- The first loop of `lock_write`: try to acquire the want_write bit.
SRC: kern/lock.c:455-478 -/
def wantWrite (s : State T) (t : T) (nap : Bool) : Option (State T) :=
  if s.lock.want_write then (s.setThread t { s.th t with pc := .wantWrite }).wait t nap
  else drain (s.takeWrite t) t nap

/-- The loop of `lock_read`.
SRC: kern/lock.c:584-609 -/
def wantRead (s : State T) (t : T) (nap : Bool) : Option (State T) :=
  if s.lock.want_write ∨ s.lock.want_upgrade then
    (s.setThread t { s.th t with pc := .wantRead }).wait t nap
  else some ((s.addRead t).returns t none)

/-- The loop of `lock_read_to_write`.  It returns whether the upgrade has failed.
SRC: kern/lock.c:668-693 -/
def upgrade (s : State T) (t : T) (nap : Bool) : Option (State T) :=
  if s.lock.read_count ≠ 0 then s.wait t nap else some (s.returns t (some false))

/-- The loop of `lock_try_read_to_write`, which sleeps whatever the lock allows.  It returns whether the
upgrade has succeeded.
SRC: kern/lock.c:838-849 -/
def tryUpgrade (s : State T) (t : T) : Option (State T) :=
  if s.lock.read_count ≠ 0 then some (s.thread_sleep t) else some (s.returns t (some true))

end Waiting

section Routines

/-- SRC: kern/lock.c:427-512 -/
def lock_write (s : State T) (t : T) (nap : Bool) : Option (State T) :=
  if s.lock.thread = some t then some ((s.addDepth t).returns t none) else wantWrite s t nap

/-- What `lock_done` changes in the lock.
SRC: kern/lock.c:521-538 -/
def Lock.done (l : Lock T) : Lock T :=
  if l.read_count ≠ 0 then { l with read_count := l.read_count - 1 }
  else if l.recursion_depth ≠ 0 then { l with recursion_depth := l.recursion_depth - 1 }
  else if l.want_upgrade then { l with want_upgrade := false }
  else { l with want_write := false }

/-- What a thread gives up by `lock_done`: a read hold if it has one. -/
def Thread.done (th : Thread) : Thread :=
  if th.reads ≠ 0 then { th with reads := th.reads - 1 } else th.giveWrite

/-- SRC: kern/lock.c:515-560 -/
def lock_done (s : State T) (t : T) : Option (State T) :=
  some ({ s with lock := s.lock.done }.setThread t (s.th t).done).wake

/-- SRC: kern/lock.c:562-613 -/
def lock_read (s : State T) (t : T) (nap : Bool) : Option (State T) :=
  if s.lock.thread = some t then some ((s.addRead t).returns t none) else wantRead s t nap

/-- Improve a read-only lock to one with write permission.  If another reader has already requested an
upgrade, no lock is held upon return.
SRC: kern/lock.c:614-694 -/
def lock_read_to_write (s : State T) (t : T) (nap : Bool) : Option (State T) :=
  if s.lock.read_count = 0 then none
  else
    let s := s.dropRead t
    if s.lock.thread = some t then some ((s.addDepth t).returns t (some false))
    else if s.lock.want_upgrade then some (s.wake.returns t (some true))
    else upgrade (s.takeUpgrade t .upgrade) t nap

/-- What `lock_write_to_read` changes in the lock, apart from the new reader.
SRC: kern/lock.c:703-709 -/
def Lock.giveWrite (l : Lock T) : Lock T :=
  if l.recursion_depth ≠ 0 then { l with recursion_depth := l.recursion_depth - 1 }
  else if l.want_upgrade then { l with want_upgrade := false }
  else { l with want_write := false }

/-- SRC: kern/lock.c:696-717 -/
def lock_write_to_read (s : State T) (t : T) : Option (State T) :=
  let s := s.addRead t
  some ({ s with lock := s.lock.giveWrite }.setThread t (s.th t).giveWrite).wake

/-- SRC: kern/lock.c:728-765 -/
def lock_try_write (s : State T) (t : T) : Option (State T) :=
  if s.lock.thread = some t then some ((s.addDepth t).returns t (some true))
  else if s.lock.want_write ∨ s.lock.want_upgrade ∨ s.lock.read_count ≠ 0 then
    some (s.returns t (some false))
  else some ((s.takeWrite t).returns t (some true))

/-- SRC: kern/lock.c:776-799 -/
def lock_try_read (s : State T) (t : T) : Option (State T) :=
  if s.lock.thread = some t then some ((s.addRead t).returns t (some true))
  else if s.lock.want_write ∨ s.lock.want_upgrade then some (s.returns t (some false))
  else some ((s.addRead t).returns t (some true))

/-- Improve a read-only lock to one with write permission.  If another reader has already requested an
upgrade, the read lock is still held upon return.
SRC: kern/lock.c:801-850 -/
def lock_try_read_to_write (s : State T) (t : T) : Option (State T) :=
  if s.lock.thread = some t then
    if s.lock.read_count = 0 then none
    else some (((s.dropRead t).addDepth t).returns t (some true))
  else if s.lock.want_upgrade then some (s.returns t (some false))
  else if s.lock.read_count = 0 then none
  else tryUpgrade ((s.takeUpgrade t .tryUpgrade).dropRead t) t

/-- SRC: kern/lock.c:856-866 -/
def lock_set_recursive (s : State T) (t : T) : Option (State T) :=
  if s.lock.want_write then some { s with lock := { s.lock with thread := some t } } else none

/-- SRC: kern/lock.c:871-882 -/
def lock_clear_recursive (s : State T) (t : T) : Option (State T) :=
  if s.lock.thread = some t then
    if s.lock.recursion_depth = 0 then some { s with lock := { s.lock with thread := none } }
    else some s
  else none

end Routines

/-- The routines. -/
inductive Routine where
  | write
  | done
  | read
  | readToWrite
  | writeToRead
  | tryWrite
  | tryRead
  | tryReadToWrite
  | setRecursive
  | clearRecursive
  deriving DecidableEq

/-- A thread calls a routine, or goes on in the loop that it is in.  It says what to do if it has to wait. -/
inductive Event (T : Type) where
  | call (t : T) (routine : Routine) (nap : Bool)
  | resume (t : T) (nap : Bool)
  deriving DecidableEq

/-- Whether a thread has what a routine gives up, or works on. -/
def Thread.May (th : Thread) : Routine → Prop
  | .done => th.reads ≠ 0 ∨ th.Writing
  | .readToWrite | .tryReadToWrite => th.reads ≠ 0
  | .writeToRead | .setRecursive => th.Writing
  | .write | .read | .tryWrite | .tryRead | .clearRecursive => True

instance (th : Thread) (routine : Routine) : Decidable (th.May routine) := by
  unfold Thread.May
  cases routine <;> infer_instance

/-- A routine is called. -/
def call (s : State T) (t : T) (nap : Bool) : Routine → Option (State T)
  | .write => lock_write s t nap
  | .done => lock_done s t
  | .read => lock_read s t nap
  | .readToWrite => lock_read_to_write s t nap
  | .writeToRead => lock_write_to_read s t
  | .tryWrite => lock_try_write s t
  | .tryRead => lock_try_read s t
  | .tryReadToWrite => lock_try_read_to_write s t
  | .setRecursive => lock_set_recursive s t
  | .clearRecursive => lock_clear_recursive s t

/-- A thread that spins, or has been woken, tests again. -/
def resume (s : State T) (t : T) (nap : Bool) : Option (State T) :=
  match (s.th t).pc with
  | .idle => none
  | .wantWrite => wantWrite s t nap
  | .drain => drain s t nap
  | .wantRead => wantRead s t nap
  | .upgrade => upgrade s t nap
  | .tryUpgrade => tryUpgrade s t

/-- A step of a thread. -/
def step (s : State T) : Event T → Option (State T)
  | .call t routine nap =>
    if (s.th t).pc = .idle ∧ (s.th t).May routine then call s t nap routine else none
  | .resume t nap => if (s.th t).asleep then none else resume s t nap

/-- A new lock.
SRC: kern/lock.c:316-330 -/
def lock_init (T : Type) (can_sleep : Bool) : Lock T where
  want_write := false
  want_upgrade := false
  waiting := false
  can_sleep := can_sleep
  read_count := 0
  thread := none
  recursion_depth := 0

/-- Nobody has done anything with the lock. -/
def start (T : Type) (can_sleep : Bool) : State T where
  lock := lock_init T can_sleep
  th _ := ⟨.idle, false, 0, 0, false, false, none⟩

/-- The runs of the threads with a lock. -/
def system (T : Type) [DecidableEq T] (can_sleep : Bool) : System (State T) (Event T) :=
  System.ofFun (start T can_sleep) step

end Model

/-!
## What the threads hold is what the lock says

The invariant has a part for every thread with the lock, one for every two threads, and the sums over all
threads.  A step changes the lock and one thread, or wakes the sleepers, so that each change of a hold is
one lemma.
-/

section Invariant

open Osf1.Computation

variable {T : Type} [DecidableEq T] {s s' : State T} {l l' : Lock T} {t u : T} {x y : Thread} {pc : Pc}

/-- A thread waits for the other readers before it has what it wants to upgrade to. -/
def Pc.Upgrading (pc : Pc) : Prop := pc = .upgrade ∨ pc = .tryUpgrade

/-- A thread is not between two parts of getting the lock for writing. -/
def Pc.Plain (pc : Pc) : Prop := pc ≠ .drain ∧ ¬pc.Upgrading

theorem plain_idle : Pc.idle.Plain := ⟨nofun, by rintro (h | h) <;> cases h⟩

theorem plain_wantWrite : Pc.wantWrite.Plain := ⟨nofun, by rintro (h | h) <;> cases h⟩

theorem plain_wantRead : Pc.wantRead.Plain := ⟨nofun, by rintro (h | h) <;> cases h⟩

theorem not_upgrading_drain : ¬Pc.drain.Upgrading := by
  rintro (h | h) <;> cases h

/-- A thread with the lock. -/
structure One (l : Lock T) (t : T) (x : Thread) : Prop where
  write : x.hasWrite → l.want_write
  upgrade : x.hasUpgrade → l.want_upgrade
  drains : x.pc = .drain → x.hasWrite
  upgrades : x.pc.Upgrading → x.hasUpgrade
  other : l.thread ≠ some t → x.depth = 0
  own : l.thread = some t → l.recursion_depth = x.depth ∧
    ((x.hasWrite ∧ x.pc ≠ .drain) ∨ (x.hasUpgrade ∧ ¬x.pc.Upgrading))
  asleep : x.asleep → l.waiting

/-- A thread and another one. -/
structure Two (x y : Thread) : Prop where
  write : x.hasWrite → y.hasWrite = false
  upgrade : x.hasUpgrade → y.hasUpgrade = false
  writer : x.hasWrite → x.pc ≠ .drain → y.reads = 0 ∧ y.hasUpgrade = false
  upgrader : x.hasUpgrade → ¬x.pc.Upgrading → y.reads = 0 ∧ (y.hasWrite → y.pc = .drain)

variable [Fintype T]

/-- What the threads hold. -/
structure Inv (s : State T) : Prop where
  reads : s.lock.read_count = ∑ t, (s.th t).reads
  write : s.lock.want_write → ∃ t, (s.th t).hasWrite
  upgrade : s.lock.want_upgrade → ∃ t, (s.th t).hasUpgrade
  nobody : s.lock.thread = none → s.lock.recursion_depth = 0
  one : ∀ t, One s.lock t (s.th t)
  two : ∀ t u, t ≠ u → Two (s.th t) (s.th u)

omit [DecidableEq T] in
theorem start_inv (can_sleep : Bool) : Inv (start T can_sleep) := by
  refine ⟨?_, nofun, nofun, fun _ => rfl, fun t => ?_, fun t u _ => ?_⟩
  · simp [start, lock_init]
  · exact ⟨nofun, nofun, nofun, fun h => absurd h plain_idle.2, fun _ => rfl, nofun, nofun⟩
  · exact ⟨nofun, nofun, nofun, nofun⟩

theorem Inv.update (h : Inv s) (t : T) (l' : Lock T) (x : Thread)
    (hreads : l'.read_count + (s.th t).reads = s.lock.read_count + x.reads)
    (hwrite : l'.want_write → x.hasWrite ∨ (s.lock.want_write ∧ ((s.th t).hasWrite → x.hasWrite)))
    (hupgrade : l'.want_upgrade → x.hasUpgrade ∨ (s.lock.want_upgrade ∧ ((s.th t).hasUpgrade → x.hasUpgrade)))
    (hnobody : l'.thread = none → l'.recursion_depth = 0) (hone : One l' t x)
    (hothers : ∀ u, u ≠ t → One l' u (s.th u)) (htwo : ∀ u, u ≠ t → Two x (s.th u) ∧ Two (s.th u) x) :
    Inv ({ s with lock := l' }.setThread t x) := by
  refine ⟨?_, fun hw => ?_, fun hw => ?_, hnobody, fun u => ?_, fun u v huv => ?_⟩
  · have hsum := sum_update Finset.univ Thread.reads s.th (Finset.mem_univ t) x
    have hold := h.reads
    change l'.read_count = ∑ u, (Function.update s.th t x u).reads
    omega
  · rcases hwrite hw with hx | hold
    · exact ⟨t, by simpa [State.setThread] using hx⟩
    · obtain ⟨u, hu⟩ := h.write hold.1
      by_cases hut : u = t
      · exact ⟨t, by simpa [State.setThread] using hold.2 (hut ▸ hu)⟩
      · exact ⟨u, by simpa [State.setThread, Function.update_of_ne hut] using hu⟩
  · rcases hupgrade hw with hx | hold
    · exact ⟨t, by simpa [State.setThread] using hx⟩
    · obtain ⟨u, hu⟩ := h.upgrade hold.1
      by_cases hut : u = t
      · exact ⟨t, by simpa [State.setThread] using hold.2 (hut ▸ hu)⟩
      · exact ⟨u, by simpa [State.setThread, Function.update_of_ne hut] using hu⟩
  · by_cases hut : u = t
    · rw [hut]
      simpa [State.setThread] using hone
    · simpa [State.setThread, Function.update_of_ne hut] using hothers u hut
  · by_cases hut : u = t
    · have hvt : v ≠ t := fun heq => huv (hut.trans heq.symm)
      rw [hut]
      simpa [State.setThread, Function.update_of_ne hvt] using (htwo v hvt).1
    · by_cases hvt : v = t
      · rw [hvt]
        simpa [State.setThread, Function.update_of_ne hut] using (htwo u hut).2
      · simpa [State.setThread, Function.update_of_ne hut, Function.update_of_ne hvt] using h.two u v huv

omit [DecidableEq T] in
theorem Inv.wake (h : Inv s) : Inv s.wake := by
  unfold State.wake
  split
  · refine ⟨h.reads, h.write, h.upgrade, h.nobody, fun t => ?_, fun t u htu => ?_⟩
    · exact { h.one t with asleep := nofun }
    · exact { h.two t u htu with }
  · exact h

omit [DecidableEq T] in
theorem Inv.wake_asleep (h : Inv s) (t : T) : (s.wake.th t).asleep = false := by
  unfold State.wake
  split
  · rfl
  · rename_i hwaiting
    rw [← Bool.not_eq_true]
    exact fun hasleep => hwaiting ((h.one t).asleep hasleep)

omit [DecidableEq T] in
theorem Inv.reads_le (h : Inv s) (t : T) : (s.th t).reads ≤ s.lock.read_count := by
  rw [h.reads]
  exact Finset.single_le_sum (f := fun u => (s.th u).reads) (fun _ _ => Nat.zero_le _)
    (Finset.mem_univ t)

omit [DecidableEq T] in
theorem Inv.reads_zero (h : Inv s) (hzero : s.lock.read_count = 0) (t : T) : (s.th t).reads = 0 := by
  have := h.reads_le t
  omega

section Changes

/-- Nobody else has the lock for writing. -/
def Free (s : State T) (t : T) : Prop :=
  ∀ u, u ≠ t → ((s.th u).hasWrite → (s.th u).pc = .drain) ∧ ((s.th u).hasUpgrade → (s.th u).pc.Upgrading)

section

variable (h : Inv s)
include h

theorem Inv.addRead (hfree : Free s t) : Inv (s.addRead t) := by
  apply h.update t
  · dsimp only
    omega
  · exact fun hw => .inr ⟨hw, id⟩
  · exact fun hw => .inr ⟨hw, id⟩
  · exact h.nobody
  · exact { h.one t with }
  · exact fun u _ => { h.one u with }
  · intro u hut
    refine ⟨{ h.two t u (Ne.symm hut) with }, { h.two u t hut with writer := ?_, upgrader := ?_ }⟩
    · exact fun hw hpc => absurd ((hfree u hut).1 hw) hpc
    · exact fun hw hpc => absurd ((hfree u hut).2 hw) hpc

theorem Inv.dropRead (hreads : (s.th t).reads ≠ 0) : Inv (s.dropRead t) := by
  have hcount := h.reads_le t
  apply h.update t
  · dsimp only
    omega
  · exact fun hw => .inr ⟨hw, id⟩
  · exact fun hw => .inr ⟨hw, id⟩
  · exact h.nobody
  · exact { h.one t with }
  · exact fun u _ => { h.one u with }
  · intro u hut
    refine ⟨{ h.two t u (Ne.symm hut) with }, { h.two u t hut with writer := ?_, upgrader := ?_ }⟩
    · exact fun hw hpc => absurd ((h.two u t hut).writer hw hpc).1 hreads
    · exact fun hw hpc => absurd ((h.two u t hut).upgrader hw hpc).1 hreads

theorem Inv.addDepth (hown : s.lock.thread = some t) : Inv (s.addDepth t) := by
  apply h.update t
  · rfl
  · exact fun hw => .inr ⟨hw, id⟩
  · exact fun hw => .inr ⟨hw, id⟩
  · exact fun hnone => absurd (hown.symm.trans hnone) nofun
  · exact { h.one t with
      other := fun hne => absurd hown hne
      own := fun _ => ⟨congrArg (· + 1) ((h.one t).own hown).1, ((h.one t).own hown).2⟩ }
  · intro u hut
    exact { h.one u with
      own := fun hu => absurd (Option.some_inj.mp (hu.symm.trans hown)) hut }
  · exact fun u hut => ⟨{ h.two t u (Ne.symm hut) with }, { h.two u t hut with }⟩

theorem Inv.takeWrite (hwrite : s.lock.want_write = false) (hplain : (s.th t).pc.Plain) : Inv (s.takeWrite t) := by
  have hnone (u : T) : (s.th u).hasWrite = false := by
    rw [← Bool.not_eq_true] at hwrite ⊢
    exact fun hw => hwrite ((h.one u).write hw)
  have hno (u : T) : ¬(s.th u).hasWrite := Bool.not_eq_true _ ▸ hnone u
  apply h.update t
  · rfl
  · exact fun _ => .inl rfl
  · exact fun hw => .inr ⟨hw, id⟩
  · exact h.nobody
  · refine { h.one t with
      write := fun _ => rfl
      drains := fun _ => rfl
      upgrades := fun hup => absurd hup not_upgrading_drain
      own := fun hown => ⟨((h.one t).own hown).1, ?_⟩ }
    rcases ((h.one t).own hown).2 with hw | hup
    · exact absurd hw.1 (hno t)
    · exact .inr ⟨hup.1, not_upgrading_drain⟩
  · exact fun u _ => { h.one u with write := fun _ => rfl }
  · intro u hut
    refine ⟨?_, ?_⟩
    · exact { h.two t u (Ne.symm hut) with
        write := fun _ => hnone u
        writer := fun _ hpc => absurd rfl hpc
        upgrader := fun hup _ => (h.two t u (Ne.symm hut)).upgrader hup hplain.2 }
    · exact { h.two u t hut with
        write := fun hw => absurd hw (hno u)
        writer := fun hw => absurd hw (hno u)
        upgrader := fun hup hpc => ⟨((h.two u t hut).upgrader hup hpc).1, fun _ => rfl⟩ }

theorem Inv.takeUpgrade (hupgrade : s.lock.want_upgrade = false) (hplain : (s.th t).pc.Plain) (hpc : pc.Upgrading)
    (hdrain : ∀ u, u ≠ t → (s.th u).hasWrite → (s.th u).pc = .drain) : Inv (s.takeUpgrade t pc) := by
  have hnone (u : T) : (s.th u).hasUpgrade = false := by
    rw [← Bool.not_eq_true] at hupgrade ⊢
    exact fun hup => hupgrade ((h.one u).upgrade hup)
  have hno (u : T) : ¬(s.th u).hasUpgrade := Bool.not_eq_true _ ▸ hnone u
  have hpcDrain : pc ≠ .drain := fun heq => not_upgrading_drain (heq ▸ hpc)
  apply h.update t
  · rfl
  · exact fun hw => .inr ⟨hw, id⟩
  · exact fun _ => .inl rfl
  · exact h.nobody
  · refine { h.one t with
      upgrade := fun _ => rfl
      drains := fun heq => absurd heq hpcDrain
      upgrades := fun _ => rfl
      own := fun hown => ⟨((h.one t).own hown).1, ?_⟩ }
    rcases ((h.one t).own hown).2 with hw | hup
    · exact .inl ⟨hw.1, hpcDrain⟩
    · exact absurd hup.1 (hno t)
  · exact fun u _ => { h.one u with upgrade := fun _ => rfl }
  · intro u hut
    refine ⟨?_, ?_⟩
    · exact { h.two t u (Ne.symm hut) with
        upgrade := fun _ => hnone u
        writer := fun hw _ => (h.two t u (Ne.symm hut)).writer hw hplain.1
        upgrader := fun _ hup => absurd hpc hup }
    · exact { h.two u t hut with
        upgrade := fun hup => absurd hup (hno u)
        writer := fun hw hne => absurd (hdrain u hut hw) hne
        upgrader := fun hup => absurd hup (hno u) }

theorem Inv.move (hx : x = { s.th t with pc := x.pc, asleep := x.asleep, result := x.result })
    (hasleep : x.asleep → s.lock.waiting) (hplain : x.pc.Plain)
    (hdrain : (s.th t).pc = .drain → s.lock.read_count = 0 ∧ s.lock.want_upgrade = false)
    (hupgrading : (s.th t).pc.Upgrading → s.lock.read_count = 0) : Inv (s.setThread t x) := by
  have hwrites : x.hasWrite = (s.th t).hasWrite := by rw [hx]
  have hupgrades : x.hasUpgrade = (s.th t).hasUpgrade := by rw [hx]
  have hreads : x.reads = (s.th t).reads := by rw [hx]
  have hdepth : x.depth = (s.th t).depth := by rw [hx]
  refine h.update t s.lock x ?_ ?_ ?_ h.nobody ?_ (fun u _ => h.one u) ?_
  · rw [hreads]
  · exact fun hw => .inr ⟨hw, hwrites ▸ id⟩
  · exact fun hw => .inr ⟨hw, hupgrades ▸ id⟩
  · refine ⟨?_, ?_, fun heq => absurd heq hplain.1, fun hup => absurd hup hplain.2, ?_, ?_, hasleep⟩
    · exact hwrites ▸ (h.one t).write
    · exact hupgrades ▸ (h.one t).upgrade
    · exact hdepth ▸ (h.one t).other
    · intro hown
      obtain ⟨hrec, hbase⟩ := (h.one t).own hown
      refine ⟨hdepth ▸ hrec, ?_⟩
      rw [hwrites, hupgrades]
      rcases hbase with hw | hup
      · exact .inl ⟨hw.1, hplain.1⟩
      · exact .inr ⟨hup.1, hplain.2⟩
  · intro u hut
    have htu := h.two t u (Ne.symm hut)
    have hother := h.two u t hut
    refine ⟨⟨hwrites ▸ htu.write, hupgrades ▸ htu.upgrade, ?_, ?_⟩, ⟨?_, ?_, ?_, ?_⟩⟩
    · intro hw _
      rw [hwrites] at hw
      by_cases hpc : (s.th t).pc = .drain
      · -- the readers are gone, and there is no upgrade
        obtain ⟨hzero, hup⟩ := hdrain hpc
        refine ⟨h.reads_zero hzero u, ?_⟩
        rw [← Bool.not_eq_true] at hup ⊢
        exact fun hu => hup ((h.one u).upgrade hu)
      · exact htu.writer hw hpc
    · intro hup _
      rw [hupgrades] at hup
      by_cases hpc : (s.th t).pc.Upgrading
      · -- the other readers are gone, and a writer would not have let this one upgrade
        refine ⟨h.reads_zero (hupgrading hpc) u, fun hw => ?_⟩
        by_contra hne
        exact absurd hup (Bool.not_eq_true _ ▸ (hother.writer hw hne).2)
      · exact htu.upgrader hup hpc
    · exact hwrites ▸ hother.write
    · exact hupgrades ▸ hother.upgrade
    · rw [hreads, hupgrades]
      exact hother.writer
    · intro hup hpc
      rw [hreads, hwrites]
      refine ⟨(hother.upgrader hup hpc).1, fun hw => ?_⟩
      obtain ⟨-, hnone⟩ := hdrain ((hother.upgrader hup hpc).2 hw)
      exact absurd ((h.one u).upgrade hup) (Bool.not_eq_true _ ▸ hnone)

end

end Changes

end Invariant

end Osf1.Rwlock
