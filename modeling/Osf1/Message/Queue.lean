import Osf1.Computation.Tally
import Osf1.Computation.Transition
import Osf1.Message.Model

/-!
# The message facility as a transition system

A step is what a call does under `msg_lock`: a system call, or a turn of the loop of `msgsnd` or `msgrcv`
between two sleeps. What the copies from and to user memory yield and which addresses the zones hand out is
part of the step.
-/

set_option autoImplicit false

namespace Osf1.Message

open Function List

section System

open Osf1.Computation Osf1.Ipc

/-- What a pass finds: whether the copies of type and text succeed and what they read, and
the address from the zone. -/
structure Io where
  typeIn : Option Int64
  textIn : Option (List UInt8)
  typeOut : Bool
  textOut : Bool
  zalloc : ℕ

/-- How a pass of the loop ends. -/
inductive Outcome where
  | returns (errno : ℕ)
  | delivers (d : Delivery)
  | sleeps (f : Frame)

variable (mi : MsgInfo) (p : Pid)

/-- The end of a pass: the process returns, or goes to sleep. -/
def finish (s : State) (o : Outcome) : State × Outcome :=
  match o with
  | .sleeps f => (s.setProc p (.asleep f), o)
  | _ => (s.setProc p .running, o)

/-- Copy a message out, and take it off the queue.
SRC: bsd/svipc_msg.c:496-560 -/
def receive (a : Rcv) (i : ℕ) (preMp : Option ℕ) (mp : ℕ) (io : Io) (s : State) :
    State × Outcome :=
  let m := s.msg mp
  if a.msgsz < m.msgTs ∧ a.msgflg &&& MSG_NOERROR = 0 then finish p s (.returns E2BIG)
  else
    let size : ℤ := if a.msgsz < m.msgTs then a.msgsz else m.msgTs
    if io.typeOut = false then finish p s (.returns EFAULT)
    else if size ≠ 0 ∧ io.textOut = false then finish p s (.returns EFAULT)
    else
      let s := s.modify i fun qp =>
        { qp with msgCbytes := qp.msgCbytes - UInt16.ofNat m.msgTs, msgLrpid := p }
      let s := msgfree i preMp mp s
      finish p { s with delivered := s.delivered ++ [⟨i, a.msgtyp, m, size⟩] }
        (.delivers ⟨i, a.msgtyp, m, size⟩)

/-- No message matches.
SRC: bsd/svipc_msg.c:562-627 -/
def await (a : Rcv) (i : ℕ) (io : Io) (s : State) : State × Outcome :=
  if a.msgflg &&& IPC_NOWAIT ≠ 0 then finish p s (.returns ENOMSG)
  else if a.msgtyp > 0 then
    let r := joinWait a.msgtyp io.zalloc s.serial (s.msgque i).msgWaitList
    let s := s.modify i fun qp => { qp with msgWaitList := r.1 }
    finish p { s with serial := s.serial + 1 } (.sleeps ⟨.rcv a, .wait r.2.addr, r.2.serial⟩)
  else
    let s := s.modify i fun qp =>
      { qp with msgPerm := { qp.msgPerm with mode := qp.msgPerm.mode ||| MSG_RWAIT } }
    finish p s (.sleeps ⟨.rcv a, .qnum i, 0⟩)

/-- A turn of the loop of `msgrcv`, if it ends.
SRC: bsd/svipc_msg.c:432-628 -/
def msgrcv (a : Rcv) (firstpass : Bool) (io : Io) (s : State) : Option (State × Outcome) :=
  match msgconv mi s a.msqid with
  | none => some (finish p s (.returns (if firstpass then EINVAL else EIDRM)))
  | some i =>
    if ipcaccess a.cred (s.msgque i).msgPerm MSG_R = false then
      some (finish p s (.returns EACCES))
    else if a.msgsz < 0 then some (finish p s (.returns EINVAL))
    else
      match search s i a.msgtyp with
      | none => none
      | some (some mp, preMp) => some (receive p a i preMp mp io s)
      | some (none, _) => some (await p a i io s)

/-- `MSG_TAG` makes the process identifier the type.
SRC: bsd/svipc_msg.c:423-426 -/
def Rcv.tag (a : Rcv) : Rcv :=
  if a.msgflg &&& MSG_TAG ≠ 0 then { a with msgtyp := Int64.ofNat p.val } else a

/-- The receivers that sleep on elements of a wait list are woken. -/
def wakeElements (l : List MsgWait) (s : State) : State := l.foldl (fun s w => wakeup (.wait w.addr) s) s

/-- The receivers of a type are woken, and their element goes.
SRC: bsd/svipc_msg.c:806-819 -/
def wakeWaiters (typ : Int64) (i : ℕ) (s : State) : State :=
  let l := (s.msgque i).msgWaitList
  let s := wakeElements (l.filter fun w => w.msgWaitType = typ) s
  s.modify i fun qp => { qp with msgWaitList := l.filter fun w => ¬w.msgWaitType = typ }

/-- Put a message on a queue.
SRC: bsd/svipc_msg.c:776-792 -/
def link (i mp : ℕ) (typ : Int64) (cnt : ℕ) (text : List UInt8) (s : State) : State :=
  let last := (s.msgque i).msgLast
  let s := s.modify i fun qp =>
    { qp with
      msgQnum := qp.msgQnum + 1, msgCbytes := qp.msgCbytes + UInt16.ofNat cnt, msgLspid := p }
  let msg := update s.msg mp ⟨none, typ, cnt, text, s.serial⟩
  let s := { s with msg := msg, serial := s.serial + 1 }
  match last with
  | none => s.modify i fun qp => { qp with msgFirst := some mp, msgLast := some mp }
  | some q =>
    { s.modify i fun qp => { qp with msgLast := some mp } with
      msg := update s.msg q { s.msg q with msgNext := some mp } }

/-- SRC: bsd/svipc_msg.c:794-804 -/
def wakeReaders (i : ℕ) (s : State) : State :=
  if (s.msgque i).msgPerm.mode &&& MSG_RWAIT ≠ 0 then
    wakeup (.qnum i) (s.modify i fun qp =>
      { qp with msgPerm := { qp.msgPerm with mode := clearBits qp.msgPerm.mode MSG_RWAIT } })
  else s

/-- SRC: bsd/svipc_msg.c:776-819 -/
def enqueue (i mp : ℕ) (typ : Int64) (cnt : ℕ) (text : List UInt8) (s : State) : State :=
  wakeWaiters typ i (wakeReaders i (link p i mp typ cnt text s))

/-- Everything is available: allocate a header, and copy the text in.
SRC: bsd/svipc_msg.c:745-819 -/
def send (i : ℕ) (typ : Int64) (cnt : ℕ) (io : Io) (s : State) : State × Outcome :=
  let mp := io.zalloc
  let s := { s with msghdrZone := mp :: s.msghdrZone, curMsghdrs := s.curMsghdrs + 1 }
  match if cnt = 0 then some [] else io.textIn with
  | none => finish p (freeMsghdr mp s) (.returns EFAULT)
  | some text => finish p (enqueue p i mp typ cnt text s) (.returns 0)

/-- A turn of the loop of `msgsnd`, with what follows the loop.
SRC: bsd/svipc_msg.c:668-826 -/
def msgsnd (a : Snd) (firstpass : Bool) (io : Io) (s : State) : State × Outcome :=
  match msgconv mi s a.msqid with
  | none => finish p s (.returns (if firstpass then EINVAL else EIDRM))
  | some i =>
    let qp := s.msgque i
    let cnt := toInt a.msgsz
    if ipcaccess a.cred qp.msgPerm MSG_W = false then finish p s (.returns EACCES)
    else if cnt < 0 ∨ cnt > mi.msgmax then finish p s (.returns EINVAL)
    else
      match if a.msgflg &&& MSG_TAG ≠ 0 then some (Int64.ofNat p.val) else io.typeIn with
      | none => finish p s (.returns EFAULT)
      | some typ =>
        if typ < 1 then finish p s (.returns EINVAL)
        else if cnt + qp.msgCbytes.toNat > qp.msgQbytes then
          if a.msgflg &&& IPC_NOWAIT ≠ 0 then finish p s (.returns EAGAIN)
          else
            let s := s.modify i fun qp =>
              { qp with msgPerm := { qp.msgPerm with mode := qp.msgPerm.mode ||| MSG_WWAIT } }
            finish p s (.sleeps ⟨.snd a, .queue i, 0⟩)
        else if s.curMsghdrs ≥ mi.msgtql then
          if a.msgflg &&& IPC_NOWAIT ≠ 0 then finish p s (.returns EAGAIN)
          else
            finish p { s with msghdrWait := s.msghdrWait + 1 }
              (.sleeps ⟨.snd a, .msghdrWait, 0⟩)
        else send p i typ cnt.toNat io s

/-- A pass of a call. -/
def pass (call : Call) (firstpass : Bool) (io : Io) (s : State) : Option (State × Outcome) :=
  match call with
  | .rcv a => msgrcv mi p a firstpass io s
  | .snd a => some (msgsnd mi p a firstpass io s)

/-- The end of a call whose `mpsleep` has returned an error.
SRC: bsd/svipc_msg.c:588-618,624-626,717-722,736-738 -/
def interrupted (f : Frame) (s : State) : State :=
  let s := s.setProc p .running
  match f.call, f.chan with
  | .rcv a, .wait _ =>
    match msgconv mi s a.msqid with
    | none => s
    | some i =>
      s.modify i fun qp => { qp with msgWaitList := leaveWait a.msgtyp qp.msgWaitList }
  | .snd _, .queue i =>
    wakeup (.queue i) (s.modify i fun qp =>
      { qp with msgPerm := { qp.msgPerm with mode := clearBits qp.msgPerm.mode MSG_WWAIT } })
  | _, _ => s

/-- The owner, the creator or the super-user.
SRC: bsd/svipc_msg.c:160-163 -/
def owns (cred : Cred) (perm : IpcPerm) : Prop := cred.uid = perm.uid ∨ cred.uid = perm.cuid ∨ cred.uid = 0

instance (cred : Cred) (perm : IpcPerm) : Decidable (owns cred perm) := inferInstanceAs (Decidable (_ ∨ _))

/-- `while (qp->msg_first) msgfree(qp, NULL, qp->msg_first);`, if it ends. -/
def freeAll (i : ℕ) : ℕ → State → Option State
  | 0, _ => none
  | fuel + 1, s =>
    match (s.msgque i).msgFirst with
    | none => some s
    | some mp => freeAll i fuel (msgfree i none mp s)

/-- Wake everybody who sleeps on a queue, and take it out of use.
SRC: bsd/svipc_msg.c:188-215 -/
def discard (msqid : ℤ) (i : ℕ) (s : State) : State :=
  let l := (s.msgque i).msgWaitList
  let perm := (s.msgque i).msgPerm
  let s := wakeElements l s
  let s := if perm.mode &&& MSG_RWAIT ≠ 0 then wakeup (.qnum i) s else s
  let s := if perm.mode &&& MSG_WWAIT ≠ 0 then wakeup (.queue i) s else s
  s.modify i fun qp =>
    { qp with
      msgCbytes := 0
      msgWaitList := []
      msgPerm := { perm with mode := 0, seq := if msqid + mi.msgmni < 0 then 0 else perm.seq + 1 } }

/-- SRC: bsd/svipc_msg.c:155-218 -/
def rmid (cred : Cred) (msqid : ℤ) (s : State) : Option (State × ℕ) :=
  match msgconv mi s msqid with
  | none => some (s, EINVAL)
  | some i =>
    if ¬owns cred (s.msgque i).msgPerm then some (s, EPERM)
    else (freeAll i (s.msghdrZone.length + 1) s).map fun s => (discard mi msqid i s, 0)

/-- What `IPC_SET` copies in. -/
structure Ds where
  uid : ℕ
  gid : ℕ
  mode : ℕ
  msgQbytes : ℕ

/-- SRC: bsd/svipc_msg.c:220-268 -/
def ipcSet (cred : Cred) (msqid : ℤ) (ds : Option Ds) (s : State) : State × ℕ :=
  match msgconv mi s msqid with
  | none => (s, EINVAL)
  | some i =>
    if ¬owns cred (s.msgque i).msgPerm then (s, EPERM)
    else
      match ds with
      | none => (s, EFAULT)
      | some ds =>
        if ds.msgQbytes > (s.msgque i).msgQbytes ∧ cred.uid ≠ 0 then (s, EPERM)
        else
          (s.modify i fun qp =>
            { qp with
              msgPerm :=
                { qp.msgPerm with
                  uid := ds.uid, gid := ds.gid
                  mode := clearBits qp.msgPerm.mode 0o777 ||| (ds.mode &&& 0o777) }
              msgQbytes := ds.msgQbytes }, 0)

/-- SRC: bsd/svipc_msg.c:337-371 -/
def msgget (cred : Cred) (key : ℤ) (msgflg : ℕ) (s : State) : State × ℕ :=
  match ipcget key msgflg ((List.range mi.msgmni).map fun i => (s.msgque i).msgPerm) with
  | .error errno => (s, errno)
  | .existing _ => (s, 0)
  | .fresh i =>
    (s.modify i fun qp =>
      { qp with
        msgPerm := qp.msgPerm.initialize cred key msgflg
        msgFirst := none, msgLast := none, msgQnum := 0, msgQbytes := mi.msgmnb
        msgLspid := 0, msgLrpid := 0 }, 0)

/-- What happens to the facility. -/
inductive Event where
  | msgget (cred : Cred) (key : ℤ) (msgflg : ℕ)
  | msgsnd (p : Pid) (a : Snd) (io : Io)
  | msgrcv (p : Pid) (a : Rcv) (io : Io)
  /-- A process whose `mpsleep` returns zero goes on. -/
  | again (p : Pid) (io : Io)
  /-- A signal for a process that sleeps, or has been woken and has not run yet. -/
  | signal (p : Pid)
  /-- A process whose `mpsleep` returns an error goes on. -/
  | eintr (p : Pid)
  | rmid (cred : Cred) (msqid : ℤ)
  | ipcSet (cred : Cred) (msqid : ℤ) (ds : Option Ds)

/-- The zones hand out addresses that are not in use, and `uiomove` reads as many bytes as it
is asked for. -/
structure Io.Sound (s : State) (call : Call) (io : Io) : Prop where
  header : io.zalloc ∉ s.msghdrZone
  element : ∀ i < mi.msgmni, ∀ w ∈ (s.msgque i).msgWaitList, w.addr ≠ io.zalloc
  text : ∀ a, call = .snd a → ∀ text ∈ io.textIn, (text.length : ℤ) = toInt a.msgsz

/-- The part of a call that a step is, if it is one. -/
def passOf (s : State) : Event → Option (Pid × Call × Bool × Io)
  | .msgsnd p a io => if s.proc p = .running then some (p, .snd a, true, io) else none
  | .msgrcv p a io => if s.proc p = .running then some (p, .rcv (a.tag p), true, io) else none
  | .again p io =>
    match s.proc p with
    | .woken f => some (p, f.call, false, io)
    | _ => none
  | _ => none

/-- One step. -/
inductive Step : State → Event → State → Prop where
  | pass {s : State} {e : Event} {p : Pid} {call : Call} {firstpass : Bool} {io : Io}
      {t : State} {o : Outcome} (he : passOf s e = some (p, call, firstpass, io))
      (hio : io.Sound mi s call) (ht : pass mi p call firstpass io s = some (t, o)) : Step s e t
  | msgget {s : State} (cred : Cred) (key : ℤ) (msgflg : ℕ) :
      Step s (.msgget cred key msgflg) (msgget mi cred key msgflg s).1
  | signal {s : State} {p : Pid} {f : Frame} (hp : s.proc p = .asleep f ∨ s.proc p = .woken f) :
      Step s (.signal p) (s.setProc p (.signalled f))
  | eintr {s : State} {p : Pid} {f : Frame} (hp : s.proc p = .signalled f) :
      Step s (.eintr p) (interrupted mi p f s)
  | rmid {s t : State} {cred : Cred} {msqid : ℤ} {errno : ℕ}
      (ht : rmid mi cred msqid s = some (t, errno)) : Step s (.rmid cred msqid) t
  | ipcSet {s : State} (cred : Cred) (msqid : ℤ) (ds : Option Ds) :
      Step s (.ipcSet cred msqid ds) (ipcSet mi cred msqid ds s).1

/-- The message facility. -/
def msgSystem : System State Event := ⟨fun s => s = State.start, Step mi⟩

end System

/-!
## The queues and the headers on them

Every queue is a chain of headers that ends, with its last header and its length as they are
recorded, and every header that is allocated is on exactly one queue.
-/

section Queue

open Osf1.Computation Osf1.Ipc

variable {mi : MsgInfo} {p : Pid} {s t : State} {q : ℕ → List ℕ} {i mp : ℕ} {j mode bits : ℕ} {f : MsqidDs → MsqidDs}

/-- The links between headers. -/
def State.next (s : State) (a : ℕ) : Option ℕ := (s.msg a).msgNext

/-- A message without its link. -/
def Msg.unlinked (m : Msg) : Msg := { m with msgNext := none }

/-- The queues are the chains of the headers in `q`. -/
structure Chains (mi : MsgInfo) (s : State) (q : ℕ → List ℕ) : Prop where
  chain : ∀ i < mi.msgmni, Leads s.next (s.msgque i).msgFirst (q i) none
  last : ∀ i < mi.msgmni, (s.msgque i).msgLast = (q i).getLast?
  qnum : ∀ i < mi.msgmni, (s.msgque i).msgQnum = (q i).length
  idle : ∀ i < mi.msgmni, ¬(s.msgque i).msgPerm.Alloc → q i = []
  nodup : ∀ i < mi.msgmni, (q i).Nodup
  own : ∀ i < mi.msgmni, ∀ j < mi.msgmni, ∀ a ∈ q i, a ∈ q j → i = j

/-- The headers that are allocated are those on the queues, and are counted. -/
structure Headers (mi : MsgInfo) (s : State) (q : ℕ → List ℕ) : Prop where
  sub : ∀ i < mi.msgmni, ∀ a ∈ q i, a ∈ s.msghdrZone
  nodup : s.msghdrZone.Nodup
  cur : s.curMsghdrs = s.msghdrZone.length
  total : s.msghdrZone.length = ∑ i ∈ Finset.range mi.msgmni, (q i).length

/-- The messages of a queue. -/
def messages (s : State) (l : List ℕ) : List Msg := l.map fun a => (s.msg a).unlinked

/-- The bytes of a queue. -/
def bytes (s : State) (l : List ℕ) : ℕ := ((messages s l).map Msg.msgTs).sum

/-- The bytes are counted, as far as the counter goes. -/
def Counted (mi : MsgInfo) (s : State) (q : ℕ → List ℕ) : Prop :=
  ∀ i < mi.msgmni, (s.msgque i).msgCbytes = UInt16.ofNat (bytes s (q i))

/-- The messages of a queue are in the order of their numbers, no number is on two messages,
and none that has been delivered is still on a queue. -/
structure Numbers (mi : MsgInfo) (s : State) (q : ℕ → List ℕ) : Prop where
  lt : ∀ i < mi.msgmni, ∀ a ∈ q i, (s.msg a).serial < s.serial
  order : ∀ i < mi.msgmni, (q i).Pairwise fun a b => (s.msg a).serial < (s.msg b).serial
  inj : ∀ i < mi.msgmni, ∀ j < mi.msgmni, ∀ a ∈ q i, ∀ b ∈ q j, (s.msg a).serial = (s.msg b).serial → a = b
  past : ∀ d ∈ s.delivered, d.msg.serial < s.serial
  once : (s.delivered.map fun d => d.msg.serial).Nodup
  gone : ∀ d ∈ s.delivered, ∀ i < mi.msgmni, ∀ a ∈ q i, (s.msg a).serial ≠ d.msg.serial

/-- The chains and the headers are left alone. -/
structure SameChains (s t : State) : Prop where
  first : ∀ i, (t.msgque i).msgFirst = (s.msgque i).msgFirst
  last : ∀ i, (t.msgque i).msgLast = (s.msgque i).msgLast
  qnum : ∀ i, (t.msgque i).msgQnum = (s.msgque i).msgQnum
  alloc : ∀ i, (t.msgque i).msgPerm.Alloc ↔ (s.msgque i).msgPerm.Alloc
  msg : t.msg = s.msg
  zone : t.msghdrZone = s.msghdrZone
  cur : t.curMsghdrs = s.curMsghdrs

/-- So are the counters of bytes, and what has been delivered. -/
structure SameQueues (s t : State) : Prop extends SameChains s t where
  cbytes : ∀ i, (t.msgque i).msgCbytes = (s.msgque i).msgCbytes
  serial : s.serial ≤ t.serial
  delivered : t.delivered = s.delivered

theorem SameQueues.refl (s : State) : SameQueues s s :=
  ⟨⟨fun _ => rfl, fun _ => rfl, fun _ => rfl, fun _ => Iff.rfl, rfl, rfl, rfl⟩, fun _ => rfl, le_rfl, rfl⟩

theorem SameQueues.trans {u : State} (h : SameQueues s t) (h' : SameQueues t u) : SameQueues s u where
  first i := (h'.first i).trans (h.first i)
  last i := (h'.last i).trans (h.last i)
  qnum i := (h'.qnum i).trans (h.qnum i)
  cbytes i := (h'.cbytes i).trans (h.cbytes i)
  alloc i := (h'.alloc i).trans (h.alloc i)
  msg := h'.msg.trans h.msg
  zone := h'.zone.trans h.zone
  cur := h'.cur.trans h.cur
  serial := h.serial.trans h'.serial
  delivered := h'.delivered.trans h.delivered

theorem SameQueues.withProc (h : SameQueues s t) (proc : Pid → Proc) : SameQueues s { t with proc := proc } :=
  ⟨⟨h.first, h.last, h.qnum, h.alloc, h.msg, h.zone, h.cur⟩, h.cbytes, h.serial, h.delivered⟩

theorem State.modify_self (s : State) (i : ℕ) (f : MsqidDs → MsqidDs) : (s.modify i f).msgque i = f (s.msgque i) :=
  update_self ..

theorem State.modify_of_ne (s : State) {i : ℕ} (f : MsqidDs → MsqidDs) (h : j ≠ i) :
    (s.modify i f).msgque j = s.msgque j :=
  update_of_ne h ..

theorem modify_field {α : Sort*} (s : State) (i : ℕ) (g : MsqidDs → α) (h : g (f (s.msgque i)) = g (s.msgque i)) (j : ℕ) :
    g ((s.modify i f).msgque j) = g (s.msgque j) := by
  unfold State.modify
  by_cases hj : j = i
  · subst hj
    simpa using h
  · simp [hj]

theorem SameChains.modify (s : State) (i : ℕ) (hfirst : (f (s.msgque i)).msgFirst = (s.msgque i).msgFirst)
    (hlast : (f (s.msgque i)).msgLast = (s.msgque i).msgLast) (hqnum : (f (s.msgque i)).msgQnum = (s.msgque i).msgQnum)
    (halloc : (f (s.msgque i)).msgPerm.mode &&& IPC_ALLOC =
      (s.msgque i).msgPerm.mode &&& IPC_ALLOC) : SameChains s (s.modify i f) := by
  refine ⟨modify_field s i _ hfirst, modify_field s i _ hlast, modify_field s i _ hqnum, fun j => ?_, rfl, rfl, rfl⟩
  unfold IpcPerm.Alloc
  rw [modify_field s i (fun qp => qp.msgPerm.mode &&& IPC_ALLOC) halloc j]

theorem SameQueues.modify (s : State) (i : ℕ) (hfirst : (f (s.msgque i)).msgFirst = (s.msgque i).msgFirst)
    (hlast : (f (s.msgque i)).msgLast = (s.msgque i).msgLast) (hqnum : (f (s.msgque i)).msgQnum = (s.msgque i).msgQnum)
    (hcbytes : (f (s.msgque i)).msgCbytes = (s.msgque i).msgCbytes) (halloc : (f (s.msgque i)).msgPerm.mode &&& IPC_ALLOC =
      (s.msgque i).msgPerm.mode &&& IPC_ALLOC) : SameQueues s (s.modify i f) :=
  ⟨.modify s i hfirst hlast hqnum halloc, modify_field s i _ hcbytes, le_rfl, rfl⟩

theorem Chains.same (h : Chains mi s q) (hs : SameChains s t) : Chains mi t q where
  chain i hi := by
    rw [hs.first]
    exact (h.chain i hi).congr fun a _ => congrArg Msg.msgNext (congrFun hs.msg a)
  last i hi := (hs.last i).trans (h.last i hi)
  qnum i hi := (hs.qnum i).trans (h.qnum i hi)
  idle i hi hfree := h.idle i hi fun halloc => hfree ((hs.alloc i).mpr halloc)
  nodup := h.nodup
  own := h.own

theorem Headers.same (h : Headers mi s q) (hs : SameChains s t) : Headers mi t q := by
  refine ⟨?_, ?_, ?_, ?_⟩
  · rw [hs.zone]
    exact h.sub
  · rw [hs.zone]
    exact h.nodup
  · rw [hs.zone, hs.cur]
    exact h.cur
  · rw [hs.zone]
    exact h.total

theorem Counted.same (h : Counted mi s q) (hs : SameQueues s t) : Counted mi t q := by
  intro i hi
  rw [hs.cbytes, h i hi]
  unfold bytes messages
  rw [hs.msg]

theorem Numbers.same (h : Numbers mi s q) (hs : SameQueues s t) : Numbers mi t q := by
  refine ⟨fun i hi a ha => ?_, ?_, ?_, fun d hd => ?_, ?_, ?_⟩
  · rw [hs.msg]
    exact (h.lt i hi a ha).trans_le hs.serial
  · rw [hs.msg]
    exact h.order
  · rw [hs.msg]
    exact h.inj
  · rw [hs.delivered] at hd
    exact (h.past d hd).trans_le hs.serial
  · rw [hs.delivered]
    exact h.once
  · rw [hs.delivered, hs.msg]
    exact h.gone

/-- All that is true of the queues between two steps. -/
structure QueueInv (mi : MsgInfo) (s : State) (q : ℕ → List ℕ) : Prop where
  chains : Chains mi s q
  headers : Headers mi s q
  counted : Counted mi s q
  numbers : Numbers mi s q

theorem QueueInv.same (h : QueueInv mi s q) (hs : SameQueues s t) : QueueInv mi t q :=
  ⟨h.chains.same hs.toSameChains, h.headers.same hs.toSameChains, h.counted.same hs, h.numbers.same hs⟩

theorem alloc_clearBits (h : bits &&& IPC_ALLOC = 0) : clearBits mode bits &&& IPC_ALLOC = mode &&& IPC_ALLOC := by
  unfold clearBits
  rw [Nat.and_xor_distrib_right, Nat.and_assoc, h, Nat.and_zero, Nat.xor_zero]

theorem alloc_orBits (h : bits &&& IPC_ALLOC = 0) : (mode ||| bits) &&& IPC_ALLOC = mode &&& IPC_ALLOC := by
  rw [Nat.and_or_distrib_right, h, Nat.or_zero]

theorem alloc_setBits : (clearBits mode 0o777 ||| (bits &&& 0o777)) &&& IPC_ALLOC = mode &&& IPC_ALLOC := by
  have hbits : 0o777 &&& IPC_ALLOC = 0 := by decide
  rw [Nat.and_or_distrib_right, alloc_clearBits (by decide), Nat.and_assoc, hbits, Nat.and_zero, Nat.or_zero]

theorem sameQueues_wakeup (c : Chan) (s : State) : SameQueues s (wakeup c s) := (SameQueues.refl s).withProc _

theorem sameQueues_setProc (s : State) (p : Pid) (x : Proc) : SameQueues s (s.setProc p x) :=
  (SameQueues.refl s).withProc _

theorem sameQueues_wakeWriters (i : ℕ) (s : State) : SameQueues s (wakeWriters i s) := by
  unfold wakeWriters
  split
  · exact .trans (.modify s i rfl rfl rfl rfl (alloc_clearBits (by decide)))
      (sameQueues_wakeup _ _)
  · exact .refl s

theorem sameQueues_wakeReaders (i : ℕ) (s : State) : SameQueues s (wakeReaders i s) := by
  unfold wakeReaders
  split
  · exact .trans (.modify s i rfl rfl rfl rfl (alloc_clearBits (by decide)))
      (sameQueues_wakeup _ _)
  · exact .refl s

theorem sameQueues_wakeElements (l : List MsgWait) (s : State) : SameQueues s (wakeElements l s) := by
  induction l generalizing s with
  | nil => exact .refl s
  | cons w l ih => exact (sameQueues_wakeup (.wait w.addr) s).trans (ih _)

theorem sameQueues_wakeWaiters (typ : Int64) (i : ℕ) (s : State) : SameQueues s (wakeWaiters typ i s) := by
  unfold wakeWaiters
  exact (sameQueues_wakeElements _ s).trans (.modify _ i rfl rfl rfl rfl rfl)

theorem length_update (q : ℕ → List ℕ) (hi : i < mi.msgmni) (l : List ℕ) :
    (∑ j ∈ Finset.range mi.msgmni, (update q i l j).length) + (q i).length =
      (∑ j ∈ Finset.range mi.msgmni, (q j).length) + l.length :=
  sum_update _ length q (Finset.mem_range.mpr hi) l

variable {l₁ l₂ : List ℕ} {a : ℕ} {q' : ℕ → List ℕ}

theorem unlink_next (s : State) (i : ℕ) (preMp : Option ℕ) (mp : ℕ) :
    (unlink i preMp mp s).next =
      match preMp with
      | none => s.next
      | some q => update s.next q (s.next mp) := by
  cases preMp with
  | none => rfl
  | some q =>
    funext a
    unfold State.next unlink State.modify
    by_cases ha : a = q
    · subst ha
      simp
    · simp [ha]

theorem unlink_unlinked (s : State) (i : ℕ) (preMp : Option ℕ) (mp a : ℕ) :
    ((unlink i preMp mp s).msg a).unlinked = (s.msg a).unlinked := by
  cases preMp with
  | none => rfl
  | some q =>
    unfold unlink State.modify Msg.unlinked
    by_cases ha : a = q
    · subst ha
      simp
    · simp [ha]

theorem unlink_msgque (s : State) (i : ℕ) (preMp : Option ℕ) (mp j : ℕ) :
    (unlink i preMp mp s).msgque j =
      if j = i then
        { s.msgque i with
          msgFirst := if preMp = none then s.next mp else (s.msgque i).msgFirst
          msgLast := if s.next mp = none then preMp else (s.msgque i).msgLast
          msgQnum := (s.msgque i).msgQnum - 1 }
      else s.msgque j := by
  unfold unlink State.modify State.next
  by_cases hj : j = i
  · subst hj
    cases preMp with
    | none => simp
    | some q => simp
  · cases preMp with
    | none => simp [hj]
    | some q => simp [hj]

section

variable (hq : q i = l₁ ++ mp :: l₂)
include hq

theorem sublist_remove (j : ℕ) : (update q i (l₁ ++ l₂) j).Sublist (q j) := by
  by_cases hj : j = i
  · subst hj
    rw [update_self, hq]
    exact (sublist_cons_self mp l₂).append_left l₁
  · rw [update_of_ne hj]

theorem mem_of_mem_remove (ha : a ∈ update q i (l₁ ++ l₂) j) : a ∈ q j :=
  (sublist_remove hq j).subset ha

theorem notMem_remove (hi : i < mi.msgmni) (hnodup : (q i).Nodup)
    (hown : ∀ i < mi.msgmni, ∀ j < mi.msgmni, ∀ a ∈ q i, a ∈ q j → i = j) (hj : j < mi.msgmni) : mp ∉ update q i (l₁ ++ l₂) j := by
  intro hmem
  have hmp : mp ∈ q i := by
    rw [hq]
    simp
  obtain rfl := hown j hj i hi mp (mem_of_mem_remove hq hmem) hmp
  rw [update_self] at hmem
  rw [hq, nodup_middle] at hnodup
  exact (nodup_cons.mp hnodup).1 hmem

end

theorem getLast?_remove (h : Leads s.next (s.next mp) l₂ none) :
    (l₁ ++ l₂).getLast? =
      if s.next mp = none then l₁.getLast? else (l₁ ++ mp :: l₂).getLast? := by
  cases l₂ with
  | nil =>
    have hnone : s.next mp = none := h
    rw [if_pos hnone, append_nil]
  | cons a l₂ =>
    have hsome : s.next mp ≠ none := by
      rw [h.1]
      nofun
    rw [if_neg hsome, getLast?_append_cons, getLast?_append_cons, getLast?_cons_cons]

theorem Chains.unlink (h : Chains mi s q) (hi : i < mi.msgmni) (hq : q i = l₁ ++ mp :: l₂) :
    Chains mi (unlink i l₁.getLast? mp s) (update q i (l₁ ++ l₂)) := by
  have hchain := h.chain i hi
  have hnodup := h.nodup i hi
  rw [hq] at hchain hnodup
  have hbehind : Leads s.next (s.next mp) l₂ none := by
    obtain ⟨b, -, -, hl₂⟩ := leads_append.mp hchain
    exact hl₂
  refine ⟨fun j hj => ?_, fun j hj => ?_, fun j hj => ?_, fun j hj hfree => ?_, fun j hj => ?_,
    fun j hj k hk a ha hb => ?_⟩
  · rw [unlink_next, unlink_msgque]
    by_cases hji : j = i
    · subst hji
      rw [update_self, if_pos rfl]
      rcases eq_nil_or_concat l₁ with hnil | ⟨k, pre, rfl⟩
      · subst hnil
        exact hbehind
      · rw [concat_eq_append, append_assoc] at hchain hnodup
        rw [concat_eq_append, getLast?_concat, append_assoc]
        exact hchain.unlink hnodup
    · rw [update_of_ne hji, if_neg hji]
      cases hlast : l₁.getLast? with
      | none => exact h.chain j hj
      | some pre =>
        refine (h.chain j hj).update (fun hmem => hji ?_) _
        apply h.own j hj i hi pre hmem
        rw [hq]
        exact mem_append_left _ (mem_of_getLast? hlast)
  · rw [unlink_msgque]
    by_cases hji : j = i
    · subst hji
      rw [update_self, if_pos rfl, getLast?_remove hbehind, ← hq, ← h.last j hj]
    · rw [update_of_ne hji, if_neg hji]
      exact h.last j hj
  · rw [unlink_msgque]
    by_cases hji : j = i
    · subst hji
      have hlen := h.qnum j hj
      rw [hq] at hlen
      rw [update_self, if_pos rfl]
      simp only [length_append, length_cons] at hlen ⊢
      omega
    · rw [update_of_ne hji, if_neg hji]
      exact h.qnum j hj
  · rw [unlink_msgque] at hfree
    by_cases hji : j = i
    · subst hji
      rw [if_pos rfl] at hfree
      have hempty := h.idle j hj hfree
      rw [hq] at hempty
      exact absurd hempty (by simp)
    · rw [if_neg hji] at hfree
      rw [update_of_ne hji]
      exact h.idle j hj hfree
  · by_cases hji : j = i
    · subst hji
      rw [update_self]
      exact hnodup.sublist ((sublist_cons_self mp l₂).append_left l₁)
    · rw [update_of_ne hji]
      exact h.nodup j hj
  · exact h.own j hj k hk a (mem_of_mem_remove hq ha) (mem_of_mem_remove hq hb)

theorem freeMsghdr_eq (mp : ℕ) (s : State) :
    ∃ proc wait, freeMsghdr mp s =
      { s with
        msghdrZone := s.msghdrZone.erase mp, curMsghdrs := s.curMsghdrs - 1
        msghdrWait := wait, proc := proc } := by
  unfold freeMsghdr
  simp only
  split
  · exact ⟨_, _, rfl⟩
  · exact ⟨_, _, rfl⟩

theorem Chains.freeMsghdr (h : Chains mi s q) (mp : ℕ) : Chains mi (freeMsghdr mp s) q := by
  obtain ⟨proc, wait, heq⟩ := freeMsghdr_eq mp s
  rw [heq]
  exact ⟨h.chain, h.last, h.qnum, h.idle, h.nodup, h.own⟩

theorem Headers.freeMsghdr (h : Headers mi s q) (hi : i < mi.msgmni) (hq : q i = l₁ ++ mp :: l₂)
    (hnodup : (q i).Nodup) (hown : ∀ i < mi.msgmni, ∀ j < mi.msgmni, ∀ a ∈ q i, a ∈ q j → i = j) :
    Headers mi (freeMsghdr mp s) (update q i (l₁ ++ l₂)) := by
  obtain ⟨proc, wait, heq⟩ := freeMsghdr_eq mp s
  have hmem : mp ∈ q i := by
    rw [hq]
    simp
  have hin : mp ∈ s.msghdrZone := h.sub i hi mp hmem
  have hcur := h.cur
  have htotal := h.total
  have hsum := length_update q hi (l₁ ++ l₂)
  rw [hq] at hsum
  simp only [length_append, length_cons] at hsum
  have hlen := length_erase_of_mem hin
  rw [heq]
  refine ⟨fun j hj a ha => ?_, h.nodup.erase mp, ?_, ?_⟩
  · have ha' := mem_of_mem_remove hq ha
    refine (h.nodup.mem_erase_iff).mpr ⟨?_, h.sub j hj a ha'⟩
    rintro rfl
    exact notMem_remove hq hi hnodup hown hj ha
  · simp only
    omega
  · simp only
    omega

theorem messages_congr (hmsg : ∀ a, (t.msg a).unlinked = (s.msg a).unlinked) (l : List ℕ) :
    messages t l = messages s l :=
  map_congr_left fun a _ => hmsg a

theorem serial_congr (hmsg : ∀ a, (t.msg a).unlinked = (s.msg a).unlinked) (a : ℕ) :
    (t.msg a).serial = (s.msg a).serial := by
  have h : (t.msg a).unlinked.serial = (s.msg a).unlinked.serial := congrArg Msg.serial (hmsg a)
  exact h

theorem chains_msgfree (hc : Chains mi s q) (hh : Headers mi s q) (hi : i < mi.msgmni) (hq : q i = l₁ ++ mp :: l₂) :
    Chains mi (msgfree i l₁.getLast? mp s) (update q i (l₁ ++ l₂)) ∧
      Headers mi (msgfree i l₁.getLast? mp s) (update q i (l₁ ++ l₂)) := by
  have hwake := sameQueues_wakeWriters i (unlink i l₁.getLast? mp s)
  have hunlinked : Headers mi (unlink i l₁.getLast? mp s) q := by
    unfold unlink
    split
    · exact ⟨hh.sub, hh.nodup, hh.cur, hh.total⟩
    · exact ⟨hh.sub, hh.nodup, hh.cur, hh.total⟩
  exact ⟨((hc.unlink hi hq).same hwake.toSameChains).freeMsghdr mp,
    (hunlinked.same hwake.toSameChains).freeMsghdr hi hq (hc.nodup i hi) hc.own⟩

theorem msgfree_rest (s : State) (i : ℕ) (preMp : Option ℕ) (mp : ℕ) :
    (∀ a, ((msgfree i preMp mp s).msg a).unlinked = (s.msg a).unlinked) ∧
      (∀ j, ((msgfree i preMp mp s).msgque j).msgCbytes = (s.msgque j).msgCbytes) ∧
      (msgfree i preMp mp s).serial = s.serial ∧
      (msgfree i preMp mp s).delivered = s.delivered := by
  obtain ⟨proc, wait, heq⟩ := freeMsghdr_eq mp (wakeWriters i (unlink i preMp mp s))
  have hwake := sameQueues_wakeWriters i (unlink i preMp mp s)
  have hserial : (wakeWriters i (unlink i preMp mp s)).serial = s.serial := by
    have hunlink : (unlink i preMp mp s).serial = s.serial := by
      cases preMp <;> rfl
    rw [← hunlink]
    unfold wakeWriters
    split <;> rfl
  have hdelivered : (unlink i preMp mp s).delivered = s.delivered := by
    cases preMp <;> rfl
  unfold msgfree
  rw [heq]
  refine ⟨fun a => ?_, fun j => ?_, hserial, hwake.delivered.trans hdelivered⟩
  · simp only [hwake.msg]
    exact unlink_unlinked s i preMp mp a
  · simp only [hwake.cbytes]
    rw [unlink_msgque]
    split
    · rename_i hj
      rw [hj]
    · rfl

theorem Numbers.sub (h : Numbers mi s q) (hsub : ∀ j < mi.msgmni, (q' j).Sublist (q j))
    (hmsg : ∀ a, (t.msg a).unlinked = (s.msg a).unlinked) (hserial : t.serial = s.serial)
    (hdelivered : t.delivered = s.delivered) : Numbers mi t q' := by
  refine ⟨fun j hj a ha => ?_, fun j hj => ?_, fun j hj k hk a ha b hb heq => ?_,
    fun d hd => ?_, ?_, fun d hd j hj a ha => ?_⟩
  · rw [serial_congr hmsg, hserial]
    exact h.lt j hj a ((hsub j hj).subset ha)
  · simp only [serial_congr hmsg]
    exact (h.order j hj).sublist (hsub j hj)
  · rw [serial_congr hmsg, serial_congr hmsg] at heq
    exact h.inj j hj k hk a ((hsub j hj).subset ha) b ((hsub k hk).subset hb) heq
  · rw [hdelivered] at hd
    rw [hserial]
    exact h.past d hd
  · rw [hdelivered]
    exact h.once
  · rw [hdelivered] at hd
    rw [serial_congr hmsg]
    exact h.gone d hd j hj a ((hsub j hj).subset ha)

theorem Numbers.deliver (h : Numbers mi s q) (hi : i < mi.msgmni)
    (hmp : mp ∈ q i) (hsub : ∀ j < mi.msgmni, (q' j).Sublist (q j))
    (hout : ∀ j < mi.msgmni, mp ∉ q' j) {d : Delivery} (hd : d.msg.serial = (s.msg mp).serial) :
    Numbers mi { s with delivered := s.delivered ++ [d] } q' := by
  refine ⟨fun j hj a ha => h.lt j hj a ((hsub j hj).subset ha),
    fun j hj => (h.order j hj).sublist (hsub j hj), fun j hj k hk a ha b hb =>
    h.inj j hj k hk a ((hsub j hj).subset ha) b ((hsub k hk).subset hb), fun e he => ?_, ?_,
    fun e he j hj a ha => ?_⟩
  · rcases mem_append.mp he with he | he
    · exact h.past e he
    · obtain rfl := mem_singleton.mp he
      rw [hd]
      exact h.lt i hi mp hmp
  · simp only [map_append, map_cons, map_nil]
    rw [nodup_append]
    refine ⟨h.once, nodup_singleton _, fun x hx y hy => ?_⟩
    obtain ⟨e, he, rfl⟩ := mem_map.mp hx
    obtain rfl := mem_singleton.mp hy
    rw [hd]
    exact (h.gone e he i hi mp hmp).symm
  · rcases mem_append.mp he with he | he
    · exact h.gone e he j hj a ((hsub j hj).subset ha)
    · obtain rfl := mem_singleton.mp he
      rw [hd]
      intro heq
      exact hout j hj (h.inj j hj i hi a ((hsub j hj).subset ha) mp hmp heq ▸ ha)

theorem link_next (s : State) (i mp : ℕ) (typ : Int64) (cnt : ℕ) (text : List UInt8) :
    (link p i mp typ cnt text s).next =
      match (s.msgque i).msgLast with
      | none => update s.next mp none
      | some q => update (update s.next mp none) q (some mp) := by
  unfold link
  cases (s.msgque i).msgLast with
  | none =>
    funext a
    unfold State.next State.modify
    by_cases ha : a = mp
    · subst ha
      simp
    · simp [ha]
  | some q =>
    funext a
    unfold State.next State.modify
    by_cases hq : a = q
    · subst hq
      simp
    · by_cases ha : a = mp
      · subst ha
        simp [hq]
      · simp [hq, ha]

theorem link_msgque (s : State) (i mp j : ℕ) (typ : Int64) (cnt : ℕ) (text : List UInt8) :
    (link p i mp typ cnt text s).msgque j =
      if j = i then
        { s.msgque i with
          msgFirst := if (s.msgque i).msgLast = none then some mp else (s.msgque i).msgFirst
          msgLast := some mp
          msgQnum := (s.msgque i).msgQnum + 1
          msgCbytes := (s.msgque i).msgCbytes + UInt16.ofNat cnt
          msgLspid := p }
      else s.msgque j := by
  unfold link State.modify
  by_cases hj : j = i
  · subst hj
    cases hlast : (s.msgque j).msgLast with
    | none => simp
    | some q => simp
  · cases hlast : (s.msgque i).msgLast with
    | none => simp [hj]
    | some q => simp [hj]

theorem link_unlinked (s : State) (i mp : ℕ) (typ : Int64) (cnt : ℕ) (text : List UInt8) (a : ℕ) :
    ((link p i mp typ cnt text s).msg a).unlinked =
      if a = mp then ⟨none, typ, cnt, text, s.serial⟩ else (s.msg a).unlinked := by
  unfold link State.modify Msg.unlinked
  cases (s.msgque i).msgLast with
  | none => by_cases ha : a = mp <;> simp [ha]
  | some q => by_cases ha : a = mp <;> by_cases hq : a = q <;> simp_all

theorem link_rest (s : State) (i mp : ℕ) (typ : Int64) (cnt : ℕ) (text : List UInt8) :
    (link p i mp typ cnt text s).msghdrZone = s.msghdrZone ∧
      (link p i mp typ cnt text s).curMsghdrs = s.curMsghdrs ∧
      (link p i mp typ cnt text s).serial = s.serial + 1 ∧
      (link p i mp typ cnt text s).delivered = s.delivered := by
  unfold link
  cases (s.msgque i).msgLast with
  | none => exact ⟨rfl, rfl, rfl, rfl⟩
  | some q => exact ⟨rfl, rfl, rfl, rfl⟩

theorem mem_update_push (ha : a ∈ update q i (q i ++ [mp]) j) : a ∈ q j ∨ (a = mp ∧ j = i) := by
  by_cases hj : j = i
  · subst hj
    rw [update_self, mem_append, mem_singleton] at ha
    exact ha.imp_right fun h => ⟨h, rfl⟩
  · rw [update_of_ne hj] at ha
    exact .inl ha

theorem Chains.link (h : Chains mi s q) (hi : i < mi.msgmni) (halloc : (s.msgque i).msgPerm.Alloc)
    (hmp : ∀ j < mi.msgmni, mp ∉ q j) (typ : Int64) (cnt : ℕ) (text : List UInt8) :
    Chains mi (link p i mp typ cnt text s) (update q i (q i ++ [mp])) := by
  have hchain := h.chain i hi
  refine ⟨fun j hj => ?_, fun j hj => ?_, fun j hj => ?_, fun j hj hfree => ?_, fun j hj => ?_,
    fun j hj k hk a ha hb => ?_⟩
  · rw [link_next, link_msgque]
    by_cases hji : j = i
    · subst hji
      rw [update_self, if_pos rfl]
      rcases eq_nil_or_concat (q j) with hnil | ⟨k, x, hk⟩
      · have hlast : (s.msgque j).msgLast = none := by
          rw [h.last j hj, hnil]
          rfl
        rw [hnil, hlast]
        exact ⟨rfl, update_self ..⟩
      · rw [concat_eq_append] at hk
        have hlast : (s.msgque j).msgLast = some x := by
          rw [h.last j hj, hk, getLast?_concat]
        have hnodup := h.nodup j hj
        have hout := hmp j hj
        rw [hk] at hchain hnodup hout
        rw [hk, hlast]
        apply hchain.push ?_ hout
        exact fun hmem => (nodup_append.mp hnodup).2.2 x hmem x (mem_singleton_self x) rfl
    · rw [update_of_ne hji, if_neg hji]
      have hkept := (h.chain j hj).update (hmp j hj) none
      cases hlast : (s.msgque i).msgLast with
      | none => exact hkept
      | some x =>
        refine hkept.update (fun hmem => hji ?_) _
        rw [h.last i hi] at hlast
        exact h.own j hj i hi x hmem (mem_of_getLast? hlast)
  · rw [link_msgque]
    by_cases hji : j = i
    · subst hji
      rw [update_self, if_pos rfl, getLast?_concat]
    · rw [update_of_ne hji, if_neg hji]
      exact h.last j hj
  · rw [link_msgque]
    by_cases hji : j = i
    · subst hji
      simp [h.qnum j hj]
    · rw [update_of_ne hji, if_neg hji]
      exact h.qnum j hj
  · rw [link_msgque] at hfree
    by_cases hji : j = i
    · subst hji
      rw [if_pos rfl] at hfree
      exact absurd halloc hfree
    · rw [if_neg hji] at hfree
      rw [update_of_ne hji]
      exact h.idle j hj hfree
  · by_cases hji : j = i
    · subst hji
      rw [update_self, nodup_append]
      refine ⟨h.nodup j hj, nodup_singleton mp, fun a ha b hb => ?_⟩
      obtain rfl := mem_singleton.mp hb
      rintro rfl
      exact hmp j hj ha
    · rw [update_of_ne hji]
      exact h.nodup j hj
  · rcases mem_update_push ha with ha | ha
    · rcases mem_update_push hb with hb | hb
      · exact h.own j hj k hk a ha hb
      · exact absurd (hb.1 ▸ ha) (hmp j hj)
    · rcases mem_update_push hb with hb | hb
      · exact absurd (ha.1 ▸ hb) (hmp k hk)
      · exact ha.2.trans hb.2.symm

end Queue

end Osf1.Message
