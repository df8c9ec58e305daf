import Osf1.Computation.LinkedChain
import Osf1.Computation.Transition
import Osf1.Computation.DeltaQueue

/-!
# Callouts

The callout table of `bsd/kern_clock.c`: the calls that are to be made are chained from `calltodo`, with
the time of each as an increment to the one before, and the slots that are free from `callfree`.  The
queue is only changed with `callout_lock` held at `splhigh`, so that a call of `timeout` or `untimeout`,
the part of `hardclock` on the queue, and one round of `softclock_scan`, up to where it drops the lock to
run what it has found, are one step each.

Addresses are numbers: `calltodo`, which is itself a `struct callout`, is at 0, and the `ncallout` slots
of the table behind it.
-/

set_option autoImplicit false

namespace Osf1.Callout

open Function

open Osf1.Computation

/-- A value is kept in an `int`. -/
def int (x : ℤ) : ℤ := Int.bmod x (2 ^ 32)

/-- The callout table, with the members of every `struct callout` by address.  Apart from these, `now`
counts the ticks so far, and `due` is the tick for which the call in a slot has been asked.
SRC: sys/callout.h:68-73, bsd/kern_clock.c:380-402 -/
structure Table (Func Arg : Type) where
  c_time : ℕ → ℤ
  c_arg : ℕ → Arg
  c_func : ℕ → Func
  c_next : ℕ → Option ℕ
  callfree : Option ℕ
  now : ℤ
  due : ℕ → ℤ

/-- `&calltodo`. -/
def calltodo : ℕ := 0

/-- The slots of the table. -/
def slots (ncallout : ℕ) : List ℕ := (List.range ncallout).map (· + 1)

variable {Func Arg : Type}

/-- The table after it has been set up: every slot is free.
SRC: arch/alpha/startup.c:211-214 -/
def startup (ncallout : ℕ) (func₀ : Func) (arg₀ : Arg) : Table Func Arg where
  c_time _ := 0
  c_arg _ := arg₀
  c_func _ := func₀
  c_next p := if 1 ≤ p ∧ p < ncallout then some (p + 1) else none
  callfree := if 0 < ncallout then some 1 else none
  now := 0
  due _ := 0

section Hardclock

/-- Decrement the times up to the first that is not overdue.  It says too whether something is due.
SRC: bsd/kern_clock.c:393-401 -/
def countDown (next : ℕ → Option ℕ) : ℕ → Option ℕ → (ℕ → ℤ) → Bool → Option ((ℕ → ℤ) × Bool)
  | 0, _, _, _ => none
  | _ + 1, none, time, needsoft => some (time, needsoft)
  | fuel + 1, some p1, time, needsoft =>
    let time' := update time p1 (int (time p1 - 1))
    if 0 < time' p1 then some (time', needsoft)
    else if time' p1 = 0 then some (time', true)
    else countDown next fuel (next p1) time' true

/-- What `hardclock` does with the queue.
SRC: bsd/kern_clock.c:380-402 -/
def hardclock (ncallout : ℕ) (s : Table Func Arg) : Option (Table Func Arg × Bool) := do
  let (time, needsoft) ← countDown s.c_next (ncallout + 1) (s.c_next calltodo) s.c_time false
  some ({ s with c_time := time, now := s.now + 1 }, needsoft)

end Hardclock

section Timeout

/-- Find the place of a call, and what remains of its time there.
SRC: bsd/kern_clock.c:793-797 -/
def place (next : ℕ → Option ℕ) (time : ℕ → ℤ) : ℕ → ℕ → ℤ → Option (ℕ × ℤ)
  | 0, _, _ => none
  | fuel + 1, p1, t =>
    match next p1 with
    | none => some (p1, t)
    | some p2 =>
      if time p2 < t then place next time fuel p2 (if 0 < time p2 then int (t - time p2) else t)
      else some (p1, t)

/-- Arrange that a function is called in `t` ticks.  There is no next state if the table is full, which
is a panic.
SRC: bsd/kern_clock.c:771-816 -/
def timeout (ncallout : ℕ) (s : Table Func Arg) (fn : Func) (arg : Arg) (t : ℤ) :
    Option (Table Func Arg) := do
  let t := if int t ≤ 0 then 1 else int t
  let pnew ← s.callfree
  let (p1, t') ← place s.c_next s.c_time (ncallout + 1) calltodo t
  let p2 := s.c_next p1
  let time := update s.c_time pnew t'
  some
    { c_time :=
        match p2 with
        | none => time
        | some p2 => update time p2 (int (time p2 - t'))
      c_arg := update s.c_arg pnew arg
      c_func := update s.c_func pnew fn
      c_next := update (update s.c_next pnew p2) p1 (some pnew)
      callfree := s.c_next pnew
      now := s.now
      due := update s.due pnew (s.now + t) }

end Timeout

section Untimeout

variable [DecidableEq Func] [DecidableEq Arg]

/-- Find a call, and what is in front of it.
SRC: bsd/kern_clock.c:835-848 -/
def find (s : Table Func Arg) (fn : Func) (arg : Arg) : ℕ → ℕ → Option (Option (ℕ × ℕ))
  | 0, _ => none
  | fuel + 1, p1 =>
    match s.c_next p1 with
    | none => some none
    | some p2 =>
      if s.c_func p2 = fn ∧ s.c_arg p2 = arg then some (some (p1, p2)) else find s fn arg fuel p2

/-- Take the call in `p2` behind `p1` out of the queue.
SRC: bsd/kern_clock.c:836-847 -/
def takeOut (s : Table Func Arg) (p1 p2 : ℕ) : Table Func Arg :=
  { s with
    c_time :=
      match s.c_next p2 with
      | none => s.c_time
      | some p3 =>
        if 0 < s.c_time p2 then update s.c_time p3 (int (s.c_time p3 + s.c_time p2))
        else s.c_time
    c_next := update (update s.c_next p1 (s.c_next p2)) p2 s.callfree
    callfree := some p2 }

/-- Remove a function timeout call.
SRC: bsd/kern_clock.c:822-855 -/
def untimeout (ncallout : ℕ) (s : Table Func Arg) (fn : Func) (arg : Arg) :
    Option (Table Func Arg) := do
  match ← find s fn arg (ncallout + 1) calltodo with
  | none => some s
  | some (p1, p2) => some (takeOut s p1 p2)

end Untimeout

/-- One round of `softclock_scan`: the first call is taken off if it is due, and what is to be called
with which arguments is returned.
SRC: bsd/kern_clock.c:704-731 -/
def softclock_scan (s : Table Func Arg) : Table Func Arg × Option (Func × Arg × ℤ) :=
  match s.c_next calltodo with
  | none => (s, none)
  | some p1 =>
    if 0 < s.c_time p1 then (s, none)
    else
      ({ s with
          c_next := update (update s.c_next calltodo (s.c_next p1)) p1 s.callfree
          callfree := some p1 },
        some (s.c_func p1, s.c_arg p1, s.c_time p1))

/-- What may happen to the table. -/
inductive Event (Func Arg : Type) where
  | timeout (fn : Func) (arg : Arg) (t : ℤ)
  | untimeout (fn : Func) (arg : Arg)
  | hardclock
  | softclock
  deriving DecidableEq

variable [DecidableEq Func] [DecidableEq Arg]

/-- The table after an event. -/
def step (ncallout : ℕ) (s : Table Func Arg) : Event Func Arg → Option (Table Func Arg)
  | .timeout fn arg t => timeout ncallout s fn arg t
  | .untimeout fn arg => untimeout ncallout s fn arg
  | .hardclock => (hardclock ncallout s).map Prod.fst
  | .softclock => some (softclock_scan s).1

/-- The runs of a table of `ncallout` slots. -/
def system (ncallout : ℕ) (func₀ : Func) (arg₀ : Arg) : System (Table Func Arg) (Event Func Arg) :=
  System.ofFun (startup ncallout func₀ arg₀) (step ncallout)

end Osf1.Callout
