import Osf1.Computation.Handover
import Osf1.Computation.Transition

/-!
# Messages on their way through a port

`msg_queue` and `msg_dequeue` on one port, as they are without `MACH_NP` and without `MACH_IPC_WWA`, and
`obj_entry_remove`.  What a thread does from taking a lock to giving one up is one step.  A thread that has
the lock of the port and waits for the one of the queue is stopped there, and so is a thread that has given
the lock of the port up and still has the other; the remaining sections are done with one lock, which nobody
else may have.  A blocked thread goes on at any time, for any reason.

Each call of `msg_queue` has a message of its own.  The lists at the end of the state say what has happened
so far; nothing depends on them.
-/

set_option autoImplicit false

namespace Osf1.Delivery

open Function

section Model

section Types

/-- The options of `msg_queue` that matter here. -/
structure SendOptions where
  /-- `SEND_ALWAYS` -/
  always : Bool
  /-- `SEND_NOTIFY` -/
  notify : Bool
  /-- `SEND_TIMEOUT` -/
  timeout : Bool
  deriving DecidableEq

/-- What `msg_queue` returns.
SRC: mach/message.h:236-249 -/
inductive SendResult where
  | SEND_SUCCESS
  | SEND_INVALID_PORT
  | SEND_TIMED_OUT
  | SEND_WILL_NOTIFY
  | SEND_NOTIFY_IN_PROGRESS
  | SEND_INTERRUPTED
  deriving DecidableEq

/-- The field `ipc_state` of a thread. -/
inductive IpcState where
  | SEND_IN_PROGRESS
  | SEND_SUCCESS
  | RCV_IN_PROGRESS
  | RCV_SUCCESS
  | RCV_TOO_LARGE
  deriving DecidableEq

/-- The union `ipc_data` of a thread.
SRC: kern/thread.h:211-214 -/
inductive IpcData where
  | msize (n : ℕ)
  | kmsg (k : ℕ)
  deriving DecidableEq

def IpcData.size : IpcData → ℕ
  | .msize n => n
  | .kmsg _ => 0

/-- Why a blocked thread goes on: its field `wait_result`. -/
inductive WaitResult where
  | THREAD_AWAKENED
  | THREAD_TIMED_OUT
  | THREAD_INTERRUPTED
  deriving DecidableEq

/-- A message in the kernel: the size in its header and its `sender_entry`. -/
structure Kmsg where
  msg_size : ℕ
  sender_entry : Option ℕ
  deriving DecidableEq

/-- A capability for the port: its task, its name there, and the message that has promised a notification. -/
structure PortHash where
  task : ℕ
  local_name : ℕ
  kmsg : Option ℕ
  deriving DecidableEq

/-- Where a thread is. -/
inductive Pc where
  | idle
  /-- at the start of `msg_queue` -/
  | queueing (k : ℕ) (o : SendOptions) (tout : ℕ)
  /-- blocked in `msg_queue` -/
  | blocked (k : ℕ) (o : SendOptions) (tout : ℕ)
  /-- it has counted its message, and has the lock of the port and waits for the one of the queue -/
  | counted (k : ℕ) (r : SendResult)
  /-- it has the lock of the queue -/
  | placing (k : ℕ) (r : SendResult)
  /-- blocked in `msg_dequeue` -/
  | receiving (max_size : ℕ) (timeout : Bool) (tout : ℕ)
  /-- it has got a message, which it has not accounted for -/
  | taken (k max_size : ℕ)
  /-- it has accounted for it, and sends a notification -/
  | notifying (task name : ℕ) (k max_size : ℕ)
  deriving DecidableEq

/-- A port with its queue, its capabilities and the threads that use it. -/
structure State (T : Type) where
  port_in_use : Bool
  /-- `port_receiver` is `kernel_task`. -/
  kernel_port : Bool
  port_message_count : ℤ
  port_backlog : ℤ
  port_blocked_threads : List T
  messages : List ℕ
  blocked_threads : List T
  obj_translations : List ℕ
  entry : ℕ → PortHash
  kmsg : ℕ → Kmsg
  ipc_state : T → IpcState
  ipc_data : T → IpcData
  pc : T → Pc
  port_lock : Option T
  queue_lock : Option T
  /-- The number of messages there have been. -/
  made : ℕ
  /-- What has been queued when, with its options and the count of the port before. -/
  admitted : List (SendOptions × ℤ)
  /-- The messages in the order in which they have come to the queue. -/
  placed : List ℕ
  /-- The messages in the order in which receivers have got them. -/
  reached : List ℕ
  /-- What `msg_queue` has returned for which message. -/
  sent : List (ℕ × SendResult)
  /-- The messages that `msg_dequeue` has returned, and its `max_size`. -/
  received : List (ℕ × ℕ)
  /-- The `max_size` and the size it has returned with `RCV_TOO_LARGE`. -/
  too_large : List (ℕ × ℕ)
  /-- The messages that have been given to `mach_msg`. -/
  served : List ℕ
  /-- The messages for which a notification has been promised. -/
  promised : List ℕ
  /-- Those whose capability has been removed before the receiver has accounted for them. -/
  dropped : List ℕ
  /-- The messages for which `NOTIFY_MSG_ACCEPTED` has been sent. -/
  notified : List ℕ

end Types

section Sending

variable {T : Type} [DecidableEq T]

def State.setPc (s : State T) (t : T) (p : Pc) : State T := { s with pc := update s.pc t p }

/-- `GiveUp`: the message is destroyed.
SRC: kern/ipc_basics.c:633-638 -/
def State.giveUp (s : State T) (t : T) (k : ℕ) (r : SendResult) : State T :=
  { s.setPc t .idle with sent := s.sent ++ [(k, r)] }

/-- Block in `msg_queue`.
SRC: kern/ipc_basics.c:642-660 -/
def State.block (s : State T) (t : T) (k : ℕ) (o : SendOptions) (tout : ℕ) : State T :=
  { s.setPc t (.blocked k o tout) with
    ipc_state := update s.ipc_state t .SEND_IN_PROGRESS
    port_blocked_threads := s.port_blocked_threads ++ [t] }

/-- Count the message, and wait for the queue.
SRC: kern/ipc_basics.c:695-722 -/
def State.count (s : State T) (t : T) (k : ℕ) (o : SendOptions) (r : SendResult) : State T :=
  if !s.port_in_use then s.giveUp t k .SEND_INVALID_PORT
  else
    { s.setPc t (.counted k r) with
      port_message_count := s.port_message_count + 1
      port_lock := some t
      admitted := s.admitted ++ [(o, s.port_message_count)] }

/-- Promise a notification.
SRC: kern/ipc_basics.c:622-623 -/
def State.promise (s : State T) (e k : ℕ) : State T :=
  { s with
    entry := update s.entry e { s.entry e with kmsg := some k }
    kmsg := update s.kmsg k { s.kmsg k with sender_entry := some e }
    promised := s.promised ++ [k] }

/-- One round of the loop that obeys the backlog, with what `obj_entry_find` has found.
SRC: kern/ipc_basics.c:584-660 -/
def State.obeyBacklog (s : State T) (t : T) (k : ℕ) (o : SendOptions) (tout : ℕ) (found : Option ℕ) : State T :=
  if s.port_message_count < s.port_backlog ∨ o.always then s.count t k o .SEND_SUCCESS
  else if !s.port_in_use then s.giveUp t k .SEND_INVALID_PORT
  else
    let tout := if o.timeout then tout else 0
    if tout ≠ 0 then s.block t k o tout
    else if o.notify then
      match found with
      | none => s.giveUp t k .SEND_INVALID_PORT
      | some e =>
        if (s.entry e).kmsg ≠ none then s.giveUp t k .SEND_NOTIFY_IN_PROGRESS
        else (s.promise e k).count t k o .SEND_WILL_NOTIFY
    else if o.timeout then s.giveUp t k .SEND_TIMED_OUT
    else s.block t k o tout

/-- What `obj_entry_find` can find for a task: one of its capabilities if there is one. -/
def State.Finds (s : State T) (task : ℕ) : Option ℕ → Prop
  | none => ∀ e ∈ s.obj_translations, (s.entry e).task ≠ task
  | some e => e ∈ s.obj_translations ∧ (s.entry e).task = task

instance (s : State T) (task : ℕ) (found : Option ℕ) : Decidable (s.Finds task found) := by
  cases found with
  | none => exact inferInstanceAs (Decidable (∀ e ∈ s.obj_translations, (s.entry e).task ≠ task))
  | some e => exact inferInstanceAs (Decidable (e ∈ s.obj_translations ∧ (s.entry e).task = task))

/-- Start `msg_queue`; the kernel's own messages go to `mach_msg`, which may have been aborted.
SRC: kern/ipc_basics.c:541-581 -/
def State.msg_queue (s : State T) (t : T) (k : ℕ) (o : SendOptions) (tout : ℕ) (found : Option ℕ)
    (aborted : Bool) : State T :=
  if s.kernel_port then
    { s.setPc t .idle with
      sent := s.sent ++ [(k, if aborted then .SEND_INTERRUPTED else .SEND_SUCCESS)]
      served := s.served ++ [k] }
  else
    { s with kmsg := update s.kmsg k { s.kmsg k with sender_entry := none } }.obeyBacklog t k o tout found

/-- Go on after having been blocked in `msg_queue`.
SRC: kern/ipc_basics.c:662-692 -/
def State.awake (s : State T) (t : T) (k : ℕ) (o : SendOptions) (tout : ℕ) (found : Option ℕ)
    (w : WaitResult) : State T :=
  if s.ipc_state t = .SEND_SUCCESS then s.obeyBacklog t k o tout found
  else
    let s := { s with port_blocked_threads := s.port_blocked_threads.erase t }
    match w with
    | .THREAD_INTERRUPTED => s.giveUp t k .SEND_INTERRUPTED
    | .THREAD_TIMED_OUT => s.obeyBacklog t k o 0 found
    | .THREAD_AWAKENED => s.obeyBacklog t k o tout found

/-- Look for a receiver, and queue the message if there is none.
SRC: kern/ipc_basics.c:739-800 -/
def State.place (s : State T) (k : ℕ) : List T → State T
  | [] => { s with blocked_threads := [], messages := s.messages ++ [k] }
  | t :: l =>
    if (s.kmsg k).msg_size ≤ (s.ipc_data t).size then
      { s with
        blocked_threads := l
        ipc_state := update s.ipc_state t .RCV_SUCCESS
        ipc_data := update s.ipc_data t (.kmsg k)
        reached := s.reached ++ [k] }
    else
      State.place
        { s with
          ipc_state := update s.ipc_state t .RCV_TOO_LARGE
          ipc_data := update s.ipc_data t (.msize (s.kmsg k).msg_size) } k l

end Sending

section Receiving

variable {T : Type} [DecidableEq T]

/-- Take the first message, or block in `msg_dequeue`.
SRC: kern/ipc_basics.c:865-912 -/
def State.msg_dequeue (s : State T) (t : T) (max_size : ℕ) (timeout : Bool) (tout : ℕ) : State T :=
  match s.messages with
  | k :: l =>
    if max_size < (s.kmsg k).msg_size then
      { s.setPc t .idle with too_large := s.too_large ++ [(max_size, (s.kmsg k).msg_size)] }
    else { s.setPc t (.taken k max_size) with messages := l, reached := s.reached ++ [k] }
  | [] =>
    let s :=
      { s with
        ipc_state := update s.ipc_state t .RCV_IN_PROGRESS
        ipc_data := update s.ipc_data t (.msize max_size) }
    if timeout ∧ tout = 0 then s.setPc t .idle
    else { s.setPc t (.receiving max_size timeout tout) with blocked_threads := s.blocked_threads ++ [t] }

/-- Go on after having been blocked in `msg_dequeue`.
SRC: kern/ipc_basics.c:913-962 -/
def State.resume (s : State T) (t : T) (max_size : ℕ) (timeout : Bool) (tout : ℕ) (w : WaitResult) : State T :=
  match s.ipc_state t, s.ipc_data t with
  | .RCV_SUCCESS, .kmsg k => s.setPc t (.taken k max_size)
  | .RCV_TOO_LARGE, d => { s.setPc t .idle with too_large := s.too_large ++ [(max_size, d.size)] }
  | .RCV_IN_PROGRESS, _ =>
    let s := { s with blocked_threads := s.blocked_threads.erase t }
    match w with
    | .THREAD_AWAKENED => s.msg_dequeue t max_size timeout tout
    | _ => s.setPc t .idle
  -- `panic`
  | _, _ => s

/-- `wakeup_waiting_sender`, for all of them.
SRC: kern/ipc_basics.c:814-823, 1009-1016 -/
def wakeupWaitingSenders : List T → (T → IpcState) → T → IpcState
  | [], f => f
  | t :: l, f => wakeupWaitingSenders l (update f t .SEND_SUCCESS)

/-- `msg_dequeue` returns a message. -/
def State.receive (s : State T) (t : T) (k max_size : ℕ) : State T :=
  { s.setPc t .idle with received := s.received ++ [(k, max_size)] }

/-- The receiver accounts for its message.
SRC: kern/ipc_basics.c:974-1041 -/
def State.account (s : State T) (t : T) (k max_size : ℕ) : State T :=
  let s := { s with port_message_count := s.port_message_count - 1 }
  let s :=
    if s.port_message_count = 0 then
      { s with
        ipc_state := wakeupWaitingSenders s.port_blocked_threads s.ipc_state
        port_blocked_threads := [] }
    else s
  match (s.kmsg k).sender_entry with
  | none => s.receive t k max_size
  | some e =>
    { s.setPc t (.notifying (s.entry e).task (s.entry e).local_name k max_size) with
      entry := update s.entry e { s.entry e with kmsg := none } }

end Receiving

section Steps

variable {T : Type} [DecidableEq T]

/-- A new capability.
SRC: kern/ipc_prims.c:290-313 -/
def State.obj_entry_insert (s : State T) (e task name : ℕ) : State T :=
  { s with
    entry := update s.entry e ⟨task, name, none⟩
    obj_translations := s.obj_translations ++ [e] }

/-- Remove a capability.
SRC: kern/ipc_prims.c:177-214 -/
def State.obj_entry_remove (s : State T) (e : ℕ) : State T :=
  match (s.entry e).kmsg with
  | none => { s with obj_translations := s.obj_translations.erase e }
  | some k =>
    { s with
      obj_translations := s.obj_translations.erase e
      kmsg := update s.kmsg k { s.kmsg k with sender_entry := none }
      dropped := s.dropped ++ [k] }

/-- What happens next. -/
inductive Event (T : Type) where
  /-- `msg_queue` is called with a new message, whose `sender_entry` is not set. -/
  | send (t : T) (msg_size : ℕ) (sender_entry : Option ℕ) (o : SendOptions) (tout : ℕ)
  /-- A thread gets the lock of the port at the start of `msg_queue`. -/
  | start (t : T) (found : Option ℕ) (aborted : Bool)
  /-- It gets it after having been blocked. -/
  | awake (t : T) (found : Option ℕ) (w : WaitResult)
  /-- It gets the lock of the queue, and gives up that of the port. -/
  | pass (t : T)
  /-- It gives the message away and gives up the lock of the queue. -/
  | place (t : T)
  /-- `msg_dequeue` is called, and the thread has the lock of the queue. -/
  | receive (t : T) (max_size : ℕ) (timeout : Bool) (tout : ℕ)
  /-- It gets it after having been blocked. -/
  | resume (t : T) (w : WaitResult)
  /-- It gets the lock of the port. -/
  | account (t : T)
  /-- It has sent the notification. -/
  | notify (t : T)
  | insert (e task name : ℕ)
  | remove (e : ℕ)
  deriving DecidableEq

/-- A thread can time out when it has set a timeout. -/
def WaitResult.Can (w : WaitResult) (timed : Bool) : Prop := w = .THREAD_TIMED_OUT → timed = true

instance (w : WaitResult) (timed : Bool) : Decidable (w.Can timed) :=
  inferInstanceAs (Decidable (w = .THREAD_TIMED_OUT → timed = true))

/-- A step, if it can be taken.  The tasks of the threads are given. -/
def step (task : T → ℕ) (s : State T) : Event T → Option (State T)
  | .send t msg_size sender_entry o tout =>
    if s.pc t = .idle then
      some { s.setPc t (.queueing s.made o tout) with
        kmsg := update s.kmsg s.made ⟨msg_size, sender_entry⟩
        made := s.made + 1 }
    else none
  | .start t found aborted =>
    match s.pc t with
    | .queueing k o tout =>
      if s.port_lock = none ∧ s.Finds (task t) found then some (s.msg_queue t k o tout found aborted) else none
    | _ => none
  | .awake t found w =>
    match s.pc t with
    | .blocked k o tout =>
      if s.port_lock = none ∧ s.Finds (task t) found ∧ w.Can (tout ≠ 0) then some (s.awake t k o tout found w)
      else none
    | _ => none
  | .pass t =>
    match s.pc t with
    | .counted k r =>
      if s.queue_lock = none then
        some { s.setPc t (.placing k r) with port_lock := none, queue_lock := some t }
      else none
    | _ => none
  | .place t =>
    match s.pc t with
    | .placing k r =>
      let s' := s.place k s.blocked_threads
      some { s'.setPc t .idle with
        queue_lock := none
        placed := s.placed ++ [k]
        sent := s.sent ++ [(k, r)] }
    | _ => none
  | .receive t max_size timeout tout =>
    if s.pc t = .idle ∧ s.queue_lock = none then some (s.msg_dequeue t max_size timeout tout) else none
  | .resume t w =>
    match s.pc t with
    | .receiving max_size timeout tout =>
      if s.queue_lock = none ∧ w.Can timeout then some (s.resume t max_size timeout tout w) else none
    | _ => none
  | .account t =>
    match s.pc t with
    | .taken k max_size => if s.port_lock = none then some (s.account t k max_size) else none
    | _ => none
  | .notify t =>
    match s.pc t with
    | .notifying _ _ k max_size => some { s.receive t k max_size with notified := s.notified ++ [k] }
    | _ => none
  | .insert e task name =>
    if s.port_lock = none ∧ e ∉ s.obj_translations then some (s.obj_entry_insert e task name) else none
  | .remove e => if s.port_lock = none ∧ e ∈ s.obj_translations then some (s.obj_entry_remove e) else none

/-- A port in use without messages and capabilities, and threads that do not use it. -/
def start (T : Type) (kernel_port : Bool) (port_backlog : ℤ) : State T where
  port_in_use := true
  kernel_port := kernel_port
  port_message_count := 0
  port_backlog := port_backlog
  port_blocked_threads := []
  messages := []
  blocked_threads := []
  obj_translations := []
  entry _ := ⟨0, 0, none⟩
  kmsg _ := ⟨0, none⟩
  ipc_state _ := .SEND_SUCCESS
  ipc_data _ := .msize 0
  pc _ := .idle
  port_lock := none
  queue_lock := none
  made := 0
  admitted := []
  placed := []
  reached := []
  sent := []
  received := []
  too_large := []
  served := []
  promised := []
  dropped := []
  notified := []

/-- The runs of the port. -/
def system (task : T → ℕ) (kernel_port : Bool) (port_backlog : ℤ) : Computation.System (State T) (Event T) :=
  .ofFun (start T kernel_port port_backlog) (step task)

end Steps

end Model

/-!
## What is kept of a port

The threads that sleep in the queue of the port are those that wait for a message there, and there are none
when there are messages; the threads that sleep on the port are those that wait to send.  A message on the
count and the capability that it has promised a notification for point at each other.
-/

section Invariant

open Osf1.Computation

variable {T : Type} {s s' : State T} {t t' : T} {k e max_size tout : ℕ} {timeout : Bool} {o : SendOptions}
  {r : SendResult}

section Invariants

/-- The message that a thread has, and how far it is. -/
def State.stage (s : State T) (t : T) : Option (ℕ × Stage) :=
  match s.pc t with
  | .idle => none
  | .queueing k _ _ => some (k, .offered)
  | .blocked k _ _ => some (k, .offered)
  | .counted k _ => some (k, .counted)
  | .placing k _ => some (k, .counted)
  | .receiving _ _ _ =>
    match s.ipc_state t, s.ipc_data t with
    | .RCV_SUCCESS, .kmsg k => some (k, .handed)
    | _, _ => none
  | .taken k _ => some (k, .handed)
  | .notifying _ _ k _ => some (k, .settled)

/-- The port as a counted queue. -/
def State.office (s : State T) : Office T where
  has := s.stage
  queue := s.messages
  made := s.made
  count := s.port_message_count
  placed := s.placed
  reached := s.reached
  received := s.received.map Prod.fst
  promised := s.promised
  dropped := s.dropped
  notified := s.notified

/-- A thread is blocked in `msg_dequeue`. -/
def State.Receiving (s : State T) (t : T) : Prop := ∃ max_size timeout tout, s.pc t = .receiving max_size timeout tout

/-- A thread is blocked in `msg_queue` with this message. -/
def State.Blocked (s : State T) (t : T) (k : ℕ) : Prop := ∃ o tout, s.pc t = .blocked k o tout

/-- A thread is blocked in `msg_queue`. -/
def State.Sending (s : State T) (t : T) : Prop := ∃ k, s.Blocked t k

/-- What a thread finds that has been blocked in `msg_dequeue`: it is still asleep, or it has got a message
that is not too large for it, or there was one that is. -/
def State.Finding (s : State T) (t : T) (max_size : ℕ) : Prop :=
  t ∈ s.blocked_threads ∧ s.ipc_state t = .RCV_IN_PROGRESS ∧ s.ipc_data t = .msize max_size ∨
  s.ipc_state t = .RCV_SUCCESS ∧ (∃ k, s.ipc_data t = .kmsg k ∧ (s.kmsg k).msg_size ≤ max_size) ∨
  s.ipc_state t = .RCV_TOO_LARGE ∧ ∃ n, s.ipc_data t = .msize n ∧ max_size < n

structure Receivers (s : State T) : Prop where
  nodup : s.blocked_threads.Nodup
  asleep : ∀ t ∈ s.blocked_threads, s.Receiving t ∧ s.ipc_state t = .RCV_IN_PROGRESS
  finding : ∀ t max_size timeout tout, s.pc t = .receiving max_size timeout tout → s.Finding t max_size
  empty : s.blocked_threads ≠ [] → s.messages = []

structure Senders (s : State T) : Prop where
  nodup : s.port_blocked_threads.Nodup
  asleep : ∀ t ∈ s.port_blocked_threads, s.Sending t ∧ s.ipc_state t = .SEND_IN_PROGRESS
  woken : ∀ t, s.Sending t → t ∈ s.port_blocked_threads ∨ s.ipc_state t = .SEND_SUCCESS

/-- The notifications that have been promised. -/
structure Notices (s : State T) : Prop where
  nodup : s.obj_translations.Nodup
  link : ∀ k e, s.office.Open k → (s.kmsg k).sender_entry = some e →
    e ∈ s.obj_translations ∧ (s.entry e).kmsg = some k
  back : ∀ e k, e ∈ s.obj_translations → (s.entry e).kmsg = some k →
    s.office.Open k ∧ (s.kmsg k).sender_entry = some e
  owed : ∀ k, s.office.Open k → ((s.kmsg k).sender_entry ≠ none ↔ k ∈ s.promised ∧ k ∉ s.dropped)
  notifying : ∀ t task name k max_size, s.pc t = .notifying task name k max_size → k ∈ s.promised ∧ k ∉ s.dropped
  blocked : ∀ t k, s.Blocked t k → (s.kmsg k).sender_entry = none

/-- What `msg_queue` is going to return for a message that has been counted. -/
def State.Returns (s : State T) (k : ℕ) (r : SendResult) : Prop :=
  r = .SEND_WILL_NOTIFY ∧ k ∈ s.promised ∨ r = .SEND_SUCCESS ∧ k ∉ s.promised

/-- What `msg_queue` returns. -/
structure Results (s : State T) : Prop where
  returning : ∀ t k r, s.pc t = .counted k r ∨ s.pc t = .placing k r → s.Returns k r
  sent : ∀ x ∈ s.sent, x.2 = .SEND_SUCCESS ∨ x.2 = .SEND_WILL_NOTIFY →
    x.1 ∈ s.placed ∧ s.Returns x.1 x.2 ∨ s.kernel_port = true ∧ x.1 ∈ s.served ∧ x.2 = .SEND_SUCCESS

/-- A thread has got a message, which it is going to return. -/
def State.Has (s : State T) (t : T) (k max_size : ℕ) : Prop :=
  s.pc t = .taken k max_size ∨ ∃ task name, s.pc t = .notifying task name k max_size

/-- The messages that are returned are not too large. -/
structure Sizes (s : State T) : Prop where
  taken : ∀ t k max_size, s.Has t k max_size → (s.kmsg k).msg_size ≤ max_size
  received : ∀ x ∈ s.received, (s.kmsg x.1).msg_size ≤ x.2
  too_large : ∀ x ∈ s.too_large, x.1 < x.2

structure Inv (s : State T) : Prop where
  in_use : s.port_in_use = true
  office : ∃ f, s.office.Sound f
  receivers : Receivers s
  senders : Senders s
  notices : Notices s
  results : Results s
  sizes : Sizes s
  admitted : ∀ x ∈ s.admitted, x.1.always = true ∨ x.1.notify = true ∨ x.2 < s.port_backlog

end Invariants

section Frames

theorem stage_congr (hpc : s'.pc t = s.pc t) (hstate : s'.ipc_state t = s.ipc_state t)
    (hdata : s'.ipc_data t = s.ipc_data t) : s'.stage t = s.stage t := by
  unfold State.stage
  rw [hpc, hstate, hdata]

theorem stage_update [DecidableEq T] (h : ∀ t' ≠ t, s'.stage t' = s.stage t') :
    s'.stage = update s.stage t (s'.stage t) := by
  funext t'
  by_cases ht : t' = t
  · subst ht
    rw [update_self]
  · rw [update_of_ne ht, h t' ht]

theorem Receivers.frame (h : Receivers s) (hblocked : s'.blocked_threads = s.blocked_threads)
    (hmessages : s'.messages = s.messages)
    (hsize : ∀ t k, s.stage t = some (k, .handed) → (s'.kmsg k).msg_size = (s.kmsg k).msg_size)
    (hthreads : ∀ t, s'.pc t = s.pc t ∧ s'.ipc_state t = s.ipc_state t ∧ s'.ipc_data t = s.ipc_data t ∨
      ¬s.Receiving t ∧ ¬s'.Receiving t) : Receivers s' := by
  refine ⟨hblocked ▸ h.nodup, ?_, ?_, ?_⟩
  · intro t ht
    rw [hblocked] at ht
    obtain ⟨hreceiving, hstate⟩ := h.asleep t ht
    rcases hthreads t with ⟨hpc, hstate', -⟩ | ⟨hnot, -⟩
    · unfold State.Receiving
      rw [hpc, hstate']
      exact ⟨hreceiving, hstate⟩
    · exact absurd hreceiving hnot
  · intro t max_size timeout tout hpc'
    rcases hthreads t with ⟨hpc, hstate, hdata⟩ | ⟨-, hnot⟩
    · rw [hpc] at hpc'
      have hfinding := h.finding t max_size timeout tout hpc'
      unfold State.Finding at hfinding ⊢
      rw [hblocked, hstate, hdata]
      rcases hfinding with hasleep | ⟨hsuccess, k, hk, hle⟩ | hlarge
      · exact .inl hasleep
      · have hstage : s.stage t = some (k, .handed) := by
          unfold State.stage
          rw [hpc', hsuccess, hk]
        rw [← hsize t k hstage] at hle
        exact .inr (.inl ⟨hsuccess, k, hk, hle⟩)
      · exact .inr (.inr hlarge)
    · exact absurd ⟨max_size, timeout, tout, hpc'⟩ hnot
  · rw [hblocked, hmessages]
    exact h.empty

theorem Senders.frame (h : Senders s) (hblocked : s'.port_blocked_threads = s.port_blocked_threads)
    (hthreads : ∀ t, s'.pc t = s.pc t ∧ s'.ipc_state t = s.ipc_state t ∨ ¬s.Sending t ∧ ¬s'.Sending t) :
    Senders s' := by
  refine ⟨hblocked ▸ h.nodup, ?_, ?_⟩
  · intro t ht
    rw [hblocked] at ht
    obtain ⟨hsending, hstate⟩ := h.asleep t ht
    rcases hthreads t with ⟨hpc, hstate'⟩ | ⟨hnot, -⟩
    · unfold State.Sending State.Blocked
      rw [hpc, hstate']
      exact ⟨hsending, hstate⟩
    · exact absurd hsending hnot
  · intro t hsending
    rcases hthreads t with ⟨hpc, hstate⟩ | ⟨-, hnot⟩
    · unfold State.Sending State.Blocked at hsending
      rw [hpc] at hsending
      rw [hblocked, hstate]
      exact h.woken t hsending
    · exact absurd hsending hnot

theorem Notices.frame (h : Notices s) (hopen : ∀ k, s'.office.Open k ↔ s.office.Open k)
    (hkmsg : ∀ k, s.office.Open k ∨ (∃ t, s.Blocked t k) → (s'.kmsg k).sender_entry = (s.kmsg k).sender_entry)
    (htranslations : s'.obj_translations = s.obj_translations) (hentry : s'.entry = s.entry)
    (hpromised : s'.promised = s.promised) (hdropped : s'.dropped = s.dropped)
    (hnotifying : ∀ t task name k max_size, s'.pc t = .notifying task name k max_size →
      s.pc t = .notifying task name k max_size)
    (hblocked : ∀ t k, s'.Blocked t k → s.Blocked t k ∨ (s'.kmsg k).sender_entry = none) : Notices s' := by
  refine ⟨htranslations ▸ h.nodup, ?_, ?_, ?_, ?_, ?_⟩
  · intro k e hk hsender
    rw [hopen] at hk
    rw [hkmsg k (.inl hk)] at hsender
    rw [htranslations, hentry]
    exact h.link k e hk hsender
  · intro e k he hk
    rw [htranslations] at he
    rw [hentry] at hk
    obtain ⟨hk', hsender⟩ := h.back e k he hk
    rw [hopen, hkmsg k (.inl hk')]
    exact ⟨hk', hsender⟩
  · intro k hk
    rw [hopen] at hk
    rw [hkmsg k (.inl hk), hpromised, hdropped]
    exact h.owed k hk
  · intro t task name k max_size hpc
    rw [hpromised, hdropped]
    exact h.notifying t task name k max_size (hnotifying t task name k max_size hpc)
  · intro t k hpc
    rcases hblocked t k hpc with hold | hnone
    · rw [hkmsg k (.inr ⟨t, hold⟩)]
      exact h.blocked t k hold
    · exact hnone

theorem Results.frame (h : Results s) (hpromised : s'.promised = s.promised) (hsent : s'.sent = s.sent)
    (hplaced : s'.placed = s.placed) (hkernel : s'.kernel_port = s.kernel_port) (hserved : s'.served = s.served)
    (hreturning : ∀ t k r, s'.pc t = .counted k r ∨ s'.pc t = .placing k r →
      s.pc t = .counted k r ∨ s.pc t = .placing k r) : Results s' := by
  refine ⟨?_, ?_⟩
  · intro t k r hpc
    unfold State.Returns
    rw [hpromised]
    exact h.returning t k r (hreturning t k r hpc)
  · unfold State.Returns
    rw [hsent, hplaced, hkernel, hserved, hpromised]
    exact h.sent

theorem State.Has.stage (h : s.Has t k max_size) : ∃ g, s.stage t = some (k, g) := by
  unfold State.stage
  rcases h with hpc | ⟨task, name, hpc⟩
  · rw [hpc]
    exact ⟨_, rfl⟩
  · rw [hpc]
    exact ⟨_, rfl⟩

theorem Sizes.frame (h : Sizes s) (hreceived : s'.received = s.received) (hlarge : s'.too_large = s.too_large)
    (hsize : ∀ k, (∃ t g, s.stage t = some (k, g)) ∨ k ∈ s.office.received →
      (s'.kmsg k).msg_size = (s.kmsg k).msg_size)
    (htaken : ∀ t k max_size, s'.Has t k max_size → s.Has t k max_size) : Sizes s' := by
  refine ⟨?_, ?_, ?_⟩
  · intro t k max_size hhas
    have hold := htaken t k max_size hhas
    rw [hsize k (.inl ⟨t, hold.stage⟩)]
    exact h.taken t k max_size hold
  · rw [hreceived]
    intro x hx
    rw [hsize x.1 (.inr (List.mem_map_of_mem hx))]
    exact h.received x hx
  · rw [hlarge]
    exact h.too_large

end Frames

section Alone

/-- Only one thread has gone on. -/
structure Alone (s s' : State T) (t : T) : Prop where
  pc : ∀ t' ≠ t, s'.pc t' = s.pc t'
  state : ∀ t' ≠ t, s'.ipc_state t' = s.ipc_state t'
  data : ∀ t' ≠ t, s'.ipc_data t' = s.ipc_data t'

variable {p : Pc}

theorem Alone.stage (h : Alone s s' t) (ht : t' ≠ t) : s'.stage t' = s.stage t' :=
  stage_congr (h.pc t' ht) (h.state t' ht) (h.data t' ht)

theorem Alone.stages [DecidableEq T] (h : Alone s s' t) : s'.stage = update s.stage t (s'.stage t) :=
  stage_update fun _ ht => h.stage ht

theorem Alone.receivers (ha : Alone s s' t) (h : Receivers s) (hblocked : s'.blocked_threads = s.blocked_threads)
    (hmessages : s'.messages = s.messages)
    (hsize : ∀ t k, s.stage t = some (k, .handed) → (s'.kmsg k).msg_size = (s.kmsg k).msg_size)
    (hold : ¬s.Receiving t) (hnew : ¬s'.Receiving t) : Receivers s' := by
  apply h.frame hblocked hmessages hsize
  intro t'
  by_cases ht : t' = t
  · subst ht
    exact .inr ⟨hold, hnew⟩
  · exact .inl ⟨ha.pc t' ht, ha.state t' ht, ha.data t' ht⟩

theorem Alone.senders (ha : Alone s s' t) (h : Senders s)
    (hblocked : s'.port_blocked_threads = s.port_blocked_threads) (hold : ¬s.Sending t) (hnew : ¬s'.Sending t) :
    Senders s' := by
  apply h.frame hblocked
  intro t'
  by_cases ht : t' = t
  · subst ht
    exact .inr ⟨hold, hnew⟩
  · exact .inl ⟨ha.pc t' ht, ha.state t' ht⟩

theorem other_pc {P : Pc → Prop} (hpcs : ∀ t' ≠ t, s'.pc t' = s.pc t') (hpc : s'.pc t = p) (hp : ¬P p)
    (h : P (s'.pc t')) : t' ≠ t ∧ P (s.pc t') := by
  have ht : t' ≠ t := by
    rintro rfl
    exact hp (hpc ▸ h)
  exact ⟨ht, hpcs t' ht ▸ h⟩

theorem Alone.office [DecidableEq T] {q : Office T} {x : Option (ℕ × Stage)} (ha : Alone s s' t)
    (hstage : s'.stage t = x) (hrest : { s'.office with has := update s.stage t x } = q) : s'.office = q := by
  rw [← hrest, ← hstage, ← ha.stages]
  rfl

theorem Alone.same_office [DecidableEq T] {x : Option (ℕ × Stage)} (ha : Alone s s' t) (hold : s.stage t = x)
    (hnew : s'.stage t = x) (hrest : { s'.office with has := s.stage } = s.office) : s'.office = s.office := by
  apply ha.office hnew
  rw [← hold, update_eq_self]
  exact hrest

/-- What is written down about the notifications. -/
def State.notes (s : State T) : List ℕ × (ℕ → PortHash) × List ℕ × List ℕ :=
  (s.obj_translations, s.entry, s.promised, s.dropped)

theorem Notices.moved (h : Notices s) (hpcs : ∀ t' ≠ t, s'.pc t' = s.pc t') (hpc : s'.pc t = p)
    (hnotifying : ∀ task name k max_size, p ≠ .notifying task name k max_size)
    (hblocked : ∀ k o tout, p = .blocked k o tout → (s'.kmsg k).sender_entry = none)
    (hopen : ∀ k, s'.office.Open k ↔ s.office.Open k)
    (hkmsg : ∀ k, s.office.Open k ∨ (∃ t, s.Blocked t k) → (s'.kmsg k).sender_entry = (s.kmsg k).sender_entry)
    (hnotes : s'.notes = s.notes) : Notices s' := by
  simp only [State.notes, Prod.mk.injEq] at hnotes
  obtain ⟨htranslations, hentry, hpromised, hdropped⟩ := hnotes
  apply h.frame hopen hkmsg htranslations hentry hpromised hdropped
  · intro t' task name k max_size hpc'
    exact (other_pc (P := (· = .notifying task name k max_size)) hpcs hpc (hnotifying task name k max_size) hpc').2
  · rintro t' k ⟨o, tout, hpc'⟩
    by_cases ht : t' = t
    · subst ht
      exact .inr (hblocked k o tout (hpc ▸ hpc'))
    · rw [hpcs t' ht] at hpc'
      exact .inl ⟨o, tout, hpc'⟩

/-- A thread that has gone on is not blocked on the port, and no notification has been called off. -/
theorem Notices.moved_of (h : Notices s) (hpcs : ∀ t' ≠ t, s'.pc t' = s.pc t') (hpc : s'.pc t = p)
    (hblocked : ∀ k o tout, p ≠ .blocked k o tout) (htranslations : s'.obj_translations = s.obj_translations)
    (hlink : ∀ k e, s'.office.Open k → (s'.kmsg k).sender_entry = some e →
      e ∈ s.obj_translations ∧ (s'.entry e).kmsg = some k)
    (hback : ∀ e k, e ∈ s.obj_translations → (s'.entry e).kmsg = some k →
      s'.office.Open k ∧ (s'.kmsg k).sender_entry = some e)
    (howed : ∀ k, s'.office.Open k → ((s'.kmsg k).sender_entry ≠ none ↔ k ∈ s'.promised ∧ k ∉ s'.dropped))
    (hnotifying : ∀ task name k max_size, p = .notifying task name k max_size → k ∈ s'.promised ∧ k ∉ s'.dropped)
    (hkept : ∀ k, k ∈ s.promised ∧ k ∉ s.dropped → k ∈ s'.promised ∧ k ∉ s'.dropped)
    (hclear : ∀ t' ≠ t, ∀ k, s.Blocked t' k → (s'.kmsg k).sender_entry = none) : Notices s' := by
  refine ⟨htranslations ▸ h.nodup, htranslations ▸ hlink, htranslations ▸ hback, howed, ?_, ?_⟩
  · intro t' task name k max_size hpc'
    by_cases ht : t' = t
    · subst ht
      exact hnotifying task name k max_size (hpc ▸ hpc')
    · rw [hpcs t' ht] at hpc'
      exact hkept k (h.notifying t' task name k max_size hpc')
  · intro t' k hpc'
    obtain ⟨ht, hold⟩ := other_pc (P := fun p => ∃ o tout, p = .blocked k o tout) hpcs hpc
      (fun ⟨o, tout, heq⟩ => hblocked k o tout heq) hpc'
    exact hclear t' ht k hold

/-- What is written down about the messages that have been sent. -/
def State.answers (s : State T) : List ℕ × List (ℕ × SendResult) × List ℕ × Bool × List ℕ :=
  (s.promised, s.sent, s.placed, s.kernel_port, s.served)

theorem returning_other (hpcs : ∀ t' ≠ t, s'.pc t' = s.pc t') (hpc : s'.pc t = p)
    (hp : ∀ k r, p ≠ .counted k r ∧ p ≠ .placing k r) (t' : T) (k : ℕ) (r : SendResult) (hpc' : s'.pc t' = .counted k r ∨ s'.pc t' = .placing k r) :
    s.pc t' = .counted k r ∨ s.pc t' = .placing k r :=
  (other_pc (P := fun p => p = .counted k r ∨ p = .placing k r) hpcs hpc
    (fun h => h.elim (hp k r).1 (hp k r).2) hpc').2

theorem Results.moved (h : Results s) (hpcs : ∀ t' ≠ t, s'.pc t' = s.pc t') (hpc : s'.pc t = p)
    (hp : ∀ k r, p ≠ .counted k r ∧ p ≠ .placing k r) (hanswers : s'.answers = s.answers) : Results s' := by
  simp only [State.answers, Prod.mk.injEq] at hanswers
  obtain ⟨hpromised, hsent, hplaced, hkernel, hserved⟩ := hanswers
  exact h.frame hpromised hsent hplaced hkernel hserved (returning_other hpcs hpc hp)

theorem Sizes.moved (h : Sizes s) (hpcs : ∀ t' ≠ t, s'.pc t' = s.pc t') (hpc : s'.pc t = p)
    (htaken : ∀ k max_size, p ≠ .taken k max_size)
    (hnotifying : ∀ task name k max_size, p ≠ .notifying task name k max_size) (hkmsg : s'.kmsg = s.kmsg)
    (hreceived : s'.received = s.received) (hlarge : s'.too_large = s.too_large) : Sizes s' := by
  apply h.frame hreceived hlarge
  · intro k _
    rw [hkmsg]
  · intro t' k max_size hhas
    apply (other_pc (P := fun p => p = .taken k max_size ∨ ∃ task name, p = .notifying task name k max_size)
      hpcs hpc _ hhas).2
    rintro (heq | ⟨task, name, heq⟩)
    · exact htaken k max_size heq
    · exact hnotifying task name k max_size heq

end Alone

end Invariant

end Osf1.Delivery
