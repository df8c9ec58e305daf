import Osf1.Computation.Transition
import Osf1.Flock.Model

/-!
# The record-lock facility as a transition system

The state is the chain of every vnode and the three queues; a step is one section of the
code that runs under `FICHAIN_LOCK` or `SLEEPLCK_LOCK`: a `setflck` or `locked` call up to
its return or its sleep, the cleanup after an interrupted sleep, and the stretches of
`cleanlocks`, `kill_proc_locks` and `purge_fs_locks` between two acquisitions of locks.
`klm_callbacks` runs after the chain lock has been released and is a step of its own.
-/

set_option autoImplicit false

namespace Osf1.Flock

open Option

section System

open Osf1.Computation

/-- The chains of all vnodes, the queues, and the number of `ZALLOC` calls made. -/
structure State where
  chain : Vnode → List Filock
  sleeplcks : List Filock
  grantlcks : List Filock
  klmlcks : List Filock
  zcnt : ℕ

/-- No locks and nobody waiting. -/
def State.start : State := ⟨fun _ => [], [], [], [], 0⟩

/-- A request as the callers make it: `fcntl`, the lock manager, `vn_read` and `vn_write`
pass a range that is not empty, and only the lock manager passes a remote identity.
SRC: bsd/kern_descrip.c:488-538; vfs/vfs_vnops.c:453-469,577-592 -/
structure Request where
  ld : Eflock
  cls : LockClass
  nonempty : ld.lStart < ld.lEnd
  le_maxend : ld.lEnd ≤ MAXEND
  loc : Local ld cls

/-- How a call ends: it returns a value and perhaps sets `l_xxx`, goes on to
`klm_callbacks`, or goes to sleep. -/
inductive Reply where
  | done (retval : ℕ) (lXxx : Option ℤ)
  | callbacks
  | sleeps
  deriving DecidableEq, Repr

/-- `chk_granted` in the middle of its pass over `sleeplcks`: `kept` are the entries looked
at that stay. -/
structure Pass where
  chain : List Filock
  kept : List Filock
  grantlcks : List Filock
  klmlcks : List Filock
  zcnt : ℕ
  retval : ℕ

variable (zalloc : ℕ → Bool)

/-- A granted request of the lock manager is queued for the reply; running out of records
is ignored here.
SRC: vfs/vfs_flock.c:1354-1372 -/
def queueGranted (vp : Vnode) (cls : LockClass) (sf : Filock) (p : Pass) : Pass :=
  let new := newFilock sf.set vp sf.cls sf.set.lPid
  let queued := { p with zcnt := p.zcnt + 1, retval := GRANT_LOCK_FLAG }
  if zalloc p.zcnt = false then queued
  else if cls = .fileLock then { queued with klmlcks := new :: p.klmlcks }
  else { queued with grantlcks := new :: p.grantlcks }

/-- How `chk_granted` goes on after an entry. -/
inductive PassNext where
  | next (p : Pass)
  | ret (p : Pass)

/-- The body of the loop of `chk_granted` at the entry `sf`, with `nsf` the entries behind.
SRC: vfs/vfs_flock.c:1309-1381 -/
def chkGrantedTurn (vp : Vnode) (cls : LockClass) (sf : Filock) (nsf : List Filock)
    (p : Pass) : PassNext :=
  if sf.vp = vp then
    match blocked p.chain sf.set sf.cls sf.set.lPid with
    | (none, insrt) =>
      if sf.cls = .ioLock then .next p
      else
        let r := flckadj zalloc vp p.chain insrt sf.set sf.cls sf.set.lPid p.zcnt
        let p := { p with chain := r.chain, zcnt := r.zcnt }
        if r.rv = ENOLCK then
          -- the rest of the queue is not looked at
          .ret { p with kept := p.kept ++ { sf with set := r.ld } :: nsf, retval := ENOLCK }
        else if sf.cls = .lockmgr then
          .next (queueGranted zalloc vp cls { sf with set := r.ld } p)
        else .next p
    | (some found, _) => .next { p with kept := p.kept ++ [{ sf with blk := found.set.owner }] }
  else .next { p with kept := p.kept ++ [sf] }

/-- The loop of `chk_granted`.
SRC: vfs/vfs_flock.c:1308-1382 -/
def chkGrantedLoop (vp : Vnode) (cls : LockClass) : List Filock → Pass → Pass
  | [], p => p
  | sf :: nsf, p =>
    match chkGrantedTurn zalloc vp cls sf nsf p with
    | .next p => chkGrantedLoop vp cls nsf p
    | .ret p => p

/-- Where `chk_granted` starts. -/
def Pass.start (vp : Vnode) (s : State) : Pass := ⟨s.chain vp, [], s.grantlcks, s.klmlcks, s.zcnt, 0⟩

/-- Grant the requests on a vnode that can be granted.
SRC: vfs/vfs_flock.c:1296-1385 -/
def chkGranted (vp : Vnode) (cls : LockClass) (s : State) : State × ℕ :=
  let p := chkGrantedLoop zalloc vp cls s.sleeplcks (Pass.start vp s)
  (⟨Function.update s.chain vp p.chain, p.kept, p.grantlcks, p.klmlcks, p.zcnt⟩, p.retval)

/-- The `do` loop of `deadflck`, for at most `fuel` turns: `none` if it goes on.
SRC: vfs/vfs_flock.c:1409-1428 -/
def deadflckFrom (sleeplcks : List Filock) (o : Owner) : ℕ → Owner → Option Bool
  | 0, _ => none
  | fuel + 1, blck =>
    if blck = o then some true
    else
      match sleeplcks.find? fun sf => sf.set.owner = blck with
      | none => some false
      | some sf => deadflckFrom sleeplcks o fuel sf.blk

/-- Whether waiting for `flp` would close a cycle; `none` if the loop does not end, which
it then never does (`deadflckFrom_none`).
SRC: vfs/vfs_flock.c:1394-1430 -/
def deadflck (sleeplcks : List Filock) (flp : Filock) (o : Owner) : Option Bool :=
  deadflckFrom sleeplcks o (sleeplcks.length + 1) flp.set.owner

/-- Queue a request on `sleeplcks`, unless that would be a deadlock.
SRC: vfs/vfs_flock.c:1075-1119,1555-1572 -/
def enqueue (vp : Vnode) (ld : Eflock) (cls : LockClass) (pid : ℤ) (found : Filock)
    (reply : Reply) (s : State) : Option (State × Reply) :=
  (deadflck s.sleeplcks found (callerOwner ld cls pid)).map fun dead =>
    if dead then (s, .done EDEADLK none)
    else if zalloc s.zcnt then
      let sf := { newFilock ld vp cls pid with blk := found.set.owner }
      ({ s with sleeplcks := s.sleeplcks ++ [sf], zcnt := s.zcnt + 1 }, reply)
    else ({ s with zcnt := s.zcnt + 1 }, .done ENOLCK none)

/-- What the caller of `chk_granted` reports.
SRC: vfs/vfs_flock.c:1027-1043,1173-1188 -/
def afterGrants (cls : LockClass) (retval : ℕ) : Reply :=
  if cls = .lockmgr then
    if retval = GRANT_LOCK_FLAG then .done 0 (some (GRANT_LOCK_FLAG : ℤ))
    else .done retval (some (-1))
  else if cls = .fileLock ∧ retval = GRANT_LOCK_FLAG then .callbacks
  else .done retval none

/-- The state in which `flckadj` leaves the vnode. -/
def adjusted (vp : Vnode) (r : Adjusted) (s : State) : State :=
  { s with chain := Function.update s.chain vp r.chain, zcnt := r.zcnt }

/-- `flckadj` and, where it has released or downgraded a lock, `chk_granted`.
SRC: vfs/vfs_flock.c:1016-1043,1165-1182 -/
def adjustAndGrant (vp : Vnode) (insrtp : ℕ) (ld : Eflock) (cls : LockClass) (pid : ℤ)
    (s : State) : State × Reply :=
  let r := flckadj zalloc vp (s.chain vp) insrtp ld cls pid s.zcnt
  if r.rv = 1 ∧ r.ld.lType ≠ .wrlck then
    let (s, retval) := chkGranted zalloc vp cls (adjusted vp r s)
    (s, afterGrants cls retval)
  else (adjusted vp r s, .done (if r.rv = 1 then 0 else r.rv) none)

/-- Set or clear a lock.  `fid` tells whether there is a `flino` for the vnode or
`allocfid` made one; `none` is a call that never comes back from `deadflck`.
SRC: vfs/vfs_flock.c:968-1199 -/
def setflck (fid : Bool) (vp : Vnode) (ld : Eflock) (slpflg : Bool) (pid : ℤ)
    (cls : LockClass) (s : State) : Option (State × Reply) :=
  if fid = false then some (s, .done (if ld.lType = .unlck then 0 else ENOLCK) none)
  else if ld.lType = .unlck then
    if cls = .lockmgr ∧ ∃ sf ∈ s.sleeplcks, sf.set.owner = ld.owner then
      some ({ s with sleeplcks := s.sleeplcks.eraseP fun sf => sf.set.owner = ld.owner }, .done 0 none)
    else some (adjustAndGrant zalloc vp (flFlck (s.chain vp)) ld cls pid s)
  else
    match blocked (s.chain vp) ld cls pid with
    | (none, insrt) => some (adjustAndGrant zalloc vp insrt ld cls pid s)
    | (some found, _) =>
      if slpflg = false then some (s, .done EACCES none)
      else if cls = .lockmgr ∧ ∃ sf ∈ s.sleeplcks, sf.set.owner = ld.owner then
        some (s, .done EINTR none)
      else
        enqueue zalloc vp ld cls pid found
          (if cls = .lockmgr then .done EINTR none else .sleeps) s

/-- A read or write on a file with mandatory locks.  The flag `SLPFLCK` stands for
`O_NDELAY` here.
SRC: vfs/vfs_flock.c:1489-1582 -/
def locked (fid : Bool) (vp : Vnode) (ld : Eflock) (slpflck : Bool) (pid : ℤ) (s : State) :
    Option (State × Reply) :=
  if fid = false then some (s, .done 0 none)
  else
    match blocked (s.chain vp) ld .ioLock pid with
    | (none, _) => some (s, .done 0 none)
    | (some found, _) =>
      if slpflck then some (s, .done EAGAIN none)
      else enqueue zalloc vp ld .ioLock pid found .sleeps s

/-- The cleanup after an interrupted sleep.
SRC: vfs/vfs_flock.c:552-566 -/
def delsleeplck (pid : ℤ) (s : State) : State :=
  { s with sleeplcks := s.sleeplcks.eraseP fun sf => sf.set.lPid = pid ∧ sf.cls = .fileLock }

/-- The records of a chain that meet a condition are deleted. -/
def released (vp : Vnode) (del : Filock → Bool) (s : State) : State :=
  { s with chain := Function.update s.chain vp ((s.chain vp).filter fun f => !del f) }

/-- Delete the records of a chain that meet a condition, and grant what that frees, always
or only if a record went.
SRC: vfs/vfs_flock.c:1452-1470,1659-1669,1720-1725 -/
def releaseIf (vp : Vnode) (cls : LockClass) (del : Filock → Bool) (always : Bool)
    (s : State) : State :=
  if always ∨ (s.chain vp).any del then (chkGranted zalloc vp cls (released vp del s)).1
  else released vp del s

/-- SRC: vfs/vfs_flock.c:1434-1482 -/
def cleanlocks (vp : Vnode) (pid : ℤ) (s : State) : State :=
  releaseIf zalloc vp .fileLock (fun f => f.set.owner = ⟨pid, 0, 0⟩) false s

/-- `kill_proc_locks` on the sleep queue.
SRC: vfs/vfs_flock.c:1629-1637 -/
def killSleepers (rsys : ℤ) (s : State) : State :=
  { s with sleeplcks := s.sleeplcks.filter fun sf => sf.set.lRsys ≠ rsys }

/-- `kill_proc_locks` on one vnode.
SRC: vfs/vfs_flock.c:1653-1675 -/
def killLocks (rsys : ℤ) (vp : Vnode) (s : State) : State :=
  releaseIf zalloc vp .lockmgr (fun f => f.set.lRsys = rsys) false s

/-- `purge_fs_list` on one queue, for the vnodes of a file system.
SRC: vfs/vfs_flock.c:1747-1768 -/
def purgeFsList (fs : Vnode → Bool) (q : List Filock) : List Filock :=
  q.filter fun t => !(fs t.vp && t.cls = .lockmgr)

/-- `purge_fs_locks` on one vnode.
SRC: vfs/vfs_flock.c:1690-1739 -/
def purgeLocks (vp : Vnode) (s : State) : State := releaseIf zalloc vp .lockmgr (fun f => f.cls = .lockmgr) true s

/-- Hand a granted request to the lock manager.
SRC: vfs/vfs_flock.c:1201-1254 -/
def doGrantLocks (cb : ℤ) (s : State) : State := { s with grantlcks := s.grantlcks.eraseP fun f => f.set.lCb = cb }

/-- What the threads do to the facility. -/
inductive Event where
  | setflck (fid : Bool) (vp : Vnode) (rq : Request) (slpflg : Bool) (pid : ℤ)
  | locked (fid : Bool) (vp : Vnode) (rq : Request) (slpflck : Bool) (pid : ℤ)
  | delsleeplck (pid : ℤ)
  | cleanlocks (vp : Vnode) (pid : ℤ)
  | killSleepers (rsys : ℤ)
  | killLocks (rsys : ℤ) (vp : Vnode)
  | purgeSleepers (fs : Vnode → Bool)
  | purgeLocks (vp : Vnode)
  | purgeQueues (fs : Vnode → Bool)
  | doGrantLocks (cb : ℤ)
  | klmCallbacks

/-- One step.  A vnode with locks has a `flino`, so that `findfid` finds one. -/
def step (s : State) : Event → Option State
  | .setflck fid vp rq slpflg pid =>
    if (fid = true ∨ s.chain vp = []) ∧ rq.cls ≠ .ioLock then
      (setflck zalloc fid vp rq.ld slpflg pid rq.cls s).map Prod.fst
    else none
  | .locked fid vp rq slpflck pid =>
    if (fid = true ∨ s.chain vp = []) ∧ rq.cls = .ioLock ∧ rq.ld.lType ≠ .unlck then
      (locked zalloc fid vp rq.ld slpflck pid s).map Prod.fst
    else none
  | .delsleeplck pid => some (delsleeplck pid s)
  | .cleanlocks vp pid => some (cleanlocks zalloc vp pid s)
  | .killSleepers rsys => some (killSleepers rsys s)
  | .killLocks rsys vp => some (killLocks zalloc rsys vp s)
  | .purgeSleepers fs => some { s with sleeplcks := purgeFsList fs s.sleeplcks }
  | .purgeLocks vp => some (purgeLocks zalloc vp s)
  | .purgeQueues fs => some
      { s with klmlcks := purgeFsList fs s.klmlcks, grantlcks := purgeFsList fs s.grantlcks }
  | .doGrantLocks cb => some (doGrantLocks cb s)
  | .klmCallbacks => some { s with klmlcks := [] }

/-- The record-lock facility, for a given course of `ZALLOC`. -/
def flockSystem : System State Event := System.ofFun State.start (step zalloc)

end System

/-!
## What the steps of the record-lock facility do

Each step is one of four things: a call of `flckadj` with the grants that follow it, a new entry on
`sleeplcks`, a release with the grants that follow it, or a change that leaves every chain alone and takes
entries off `sleeplcks` at most. `Effect` says which, and `TurnKind` says the same of one turn of
`chk_granted`.
-/

section Steps

open Osf1.Computation

variable (zalloc : ℕ → Bool) {vp : Vnode}

/-- The ways in which `chk_granted` deals with the entry `sf`. -/
inductive TurnKind (vp : Vnode) (sf : Filock) (nsf : List Filock) (p : Pass) :
    PassNext → Prop where
  /-- The entry waits for another vnode. -/
  | other (hvp : sf.vp ≠ vp) : TurnKind vp sf nsf p (.next { p with kept := p.kept ++ [sf] })
  /-- The entry is blocked, and notes by whom. -/
  | redirect (hvp : sf.vp = vp) (found : Filock)
      (hb : (blocked p.chain sf.set sf.cls sf.set.lPid).1 = some found) :
      TurnKind vp sf nsf p (.next { p with kept := p.kept ++ [{ sf with blk := found.set.owner }] })
  /-- A read or write may go on. -/
  | wake (hvp : sf.vp = vp) (hb : (blocked p.chain sf.set sf.cls sf.set.lPid).1 = none)
      (hio : sf.cls = .ioLock) : TurnKind vp sf nsf p (.next p)
  /-- The lock is granted; the queues of the lock manager may have changed as well. -/
  | grant (hvp : sf.vp = vp) (hb : (blocked p.chain sf.set sf.cls sf.set.lPid).1 = none)
      (hio : sf.cls ≠ .ioLock) (r : Adjusted)
      (hr : r = flckadj zalloc vp p.chain (blocked p.chain sf.set sf.cls sf.set.lPid).2
        sf.set sf.cls sf.set.lPid p.zcnt)
      (hrv : r.rv ≠ ENOLCK) (p' : Pass) (hchain : p'.chain = r.chain)
      (hkept : p'.kept = p.kept) : TurnKind vp sf nsf p (.next p')
  /-- There is no record for the lock. -/
  | fail (hvp : sf.vp = vp) (hb : (blocked p.chain sf.set sf.cls sf.set.lPid).1 = none)
      (hio : sf.cls ≠ .ioLock) (r : Adjusted)
      (hr : r = flckadj zalloc vp p.chain (blocked p.chain sf.set sf.cls sf.set.lPid).2
        sf.set sf.cls sf.set.lPid p.zcnt)
      (hrv : r.rv = ENOLCK) (p' : Pass) (hchain : p'.chain = r.chain)
      (hkept : p'.kept = p.kept ++ { sf with set := r.ld } :: nsf) :
      TurnKind vp sf nsf p (.ret p')

theorem queueGranted_chain (vp : Vnode) (cls : LockClass) (sf : Filock) (p : Pass) :
    (queueGranted zalloc vp cls sf p).chain = p.chain ∧
      (queueGranted zalloc vp cls sf p).kept = p.kept := by
  unfold queueGranted
  split
  · exact ⟨rfl, rfl⟩
  · split <;> exact ⟨rfl, rfl⟩

theorem chkGrantedTurn_kind (vp : Vnode) (cls : LockClass) (sf : Filock) (nsf : List Filock)
    (p : Pass) : TurnKind zalloc vp sf nsf p (chkGrantedTurn zalloc vp cls sf nsf p) := by
  unfold chkGrantedTurn
  by_cases hvp : sf.vp = vp
  swap
  · rw [if_neg hvp]
    exact .other hvp
  rw [if_pos hvp]
  cases hb : blocked p.chain sf.set sf.cls sf.set.lPid with
  | mk found insrt =>
    have hfst : (blocked p.chain sf.set sf.cls sf.set.lPid).1 = found := by rw [hb]
    have hsnd : (blocked p.chain sf.set sf.cls sf.set.lPid).2 = insrt := by rw [hb]
    cases found with
    | some found => exact .redirect hvp found hfst
    | none =>
      by_cases hio : sf.cls = .ioLock
      · simp only [hio, if_true]
        exact .wake hvp hfst hio
      simp only [hio, if_false]
      by_cases hrv : (flckadj zalloc vp p.chain insrt sf.set sf.cls sf.set.lPid p.zcnt).rv = ENOLCK
      · rw [if_pos hrv]
        exact .fail hvp hfst hio _ (by rw [hsnd]) hrv _ rfl rfl
      · rw [if_neg hrv]
        by_cases hmgr : sf.cls = .lockmgr
        · rw [if_pos hmgr]
          obtain ⟨hchain, hkept⟩ := queueGranted_chain zalloc vp cls _ _
          exact .grant hvp hfst hio _ (by rw [hsnd]) hrv _ hchain hkept
        · rw [if_neg hmgr]
          exact .grant hvp hfst hio _ (by rw [hsnd]) hrv _ rfl rfl

/-- What a run may be asked to meet: at the call of `flckadj` a request makes, at each turn
of `chk_granted`, and when a request of an owner is queued because of a blocker. -/
structure Conditions where
  adjust : State → Vnode → Eflock → LockClass → ℤ → Prop
  turn : Vnode → Filock → List Filock → Pass → Prop
  enqueue : State → Owner → Owner → Prop

/-- Every turn of a pass meets a condition. -/
def PassMeets (vp : Vnode) (cls : LockClass)
    (C : Filock → List Filock → Pass → Prop) : List Filock → Pass → Prop
  | [], _ => True
  | sf :: nsf, p => C sf nsf p ∧
    match chkGrantedTurn zalloc vp cls sf nsf p with
    | .next p => PassMeets vp cls C nsf p
    | .ret _ => True

/-- What holds after a turn, with `nsf` still to come unless the pass is over. -/
def PassNext.Keeps (I : List Filock → Pass → Prop) (nsf : List Filock) : PassNext → Prop
  | .next p => I nsf p
  | .ret p => I [] p

theorem chkGrantedLoop_invariant {cls : LockClass} {C : Filock → List Filock → Pass → Prop} {I : List Filock → Pass → Prop}
    (hturn : ∀ sf nsf p r, I (sf :: nsf) p → C sf nsf p → TurnKind zalloc vp sf nsf p r →
      r.Keeps I nsf) {q : List Filock} {p : Pass} (h : I q p) (hC : PassMeets zalloc vp cls C q p) :
    I [] (chkGrantedLoop zalloc vp cls q p) := by
  induction q generalizing p with
  | nil => exact h
  | cons sf nsf ih =>
    have hstep := hturn sf nsf p _ h hC.1 (chkGrantedTurn_kind zalloc vp cls sf nsf p)
    have hrest := hC.2
    rw [chkGrantedLoop]
    generalize chkGrantedTurn zalloc vp cls sf nsf p = r at hstep hrest
    cases r with
    | next p' => exact ih hstep hrest
    | ret p' => exact hstep

variable (K : Conditions)

/-- The grants of a `chk_granted` call meet the conditions. -/
def GrantsMeet (vp : Vnode) (cls : LockClass) (s : State) : Prop :=
  PassMeets zalloc vp cls (K.turn vp) s.sleeplcks (Pass.start vp s)

/-- A request meets the conditions, with the grants it gives rise to. -/
def AdjustMeets (vp : Vnode) (insrtp : ℕ) (ld : Eflock) (cls : LockClass) (pid : ℤ)
    (s : State) : Prop :=
  let r := flckadj zalloc vp (s.chain vp) insrtp ld cls pid s.zcnt
  K.adjust s vp ld cls pid ∧ (r.rv = 1 ∧ r.ld.lType ≠ .wrlck → GrantsMeet zalloc K vp cls (adjusted vp r s))

/-- A release meets the conditions. -/
def ReleaseMeets (vp : Vnode) (cls : LockClass) (del : Filock → Bool) (always : Bool)
    (s : State) : Prop :=
  always ∨ (s.chain vp).any del → GrantsMeet zalloc K vp cls (released vp del s)

/-- A step meets the conditions. -/
def StepMeets (s : State) : Event → Prop
  | .setflck fid vp rq slpflg pid =>
    fid = true →
      if rq.ld.lType = .unlck then
        ¬(rq.cls = .lockmgr ∧ ∃ sf ∈ s.sleeplcks, sf.set.owner = rq.ld.owner) →
          AdjustMeets zalloc K vp (flFlck (s.chain vp)) rq.ld rq.cls pid s
      else
        match blocked (s.chain vp) rq.ld rq.cls pid with
        | (none, insrt) => AdjustMeets zalloc K vp insrt rq.ld rq.cls pid s
        | (some found, _) =>
          slpflg = true → K.enqueue s (callerOwner rq.ld rq.cls pid) found.set.owner
  | .locked fid vp rq slpflck pid =>
    fid = true → slpflck = false →
      ∀ found, (blocked (s.chain vp) rq.ld .ioLock pid).1 = some found →
        K.enqueue s (callerOwner rq.ld .ioLock pid) found.set.owner
  | .cleanlocks vp pid =>
    ReleaseMeets zalloc K vp .fileLock (fun f => f.set.owner = ⟨pid, 0, 0⟩) false s
  | .killLocks rsys vp =>
    ReleaseMeets zalloc K vp .lockmgr (fun f => f.set.lRsys = rsys) false s
  | .purgeLocks vp => ReleaseMeets zalloc K vp .lockmgr (fun f => f.cls = .lockmgr) true s
  | _ => True

/-- The place that a caller passes to `flckadj`. -/
def CallerPlace (c : List Filock) (ld : Eflock) (cls : LockClass) (pid : ℤ) (n : ℕ) : Prop :=
  (ld.lType ≠ .unlck ∧ blocked c ld cls pid = (none, n)) ∨ (ld.lType = .unlck ∧ n = flFlck c)

/-- What a step that meets the conditions does. -/
inductive Effect (s : State) : State → Prop where
  /-- A request goes through. -/
  | adjust (vp : Vnode) (n : ℕ) (rq : Request) (pid : ℤ)
      (hcall : CallerPlace (s.chain vp) rq.ld rq.cls pid n)
      (hK : AdjustMeets zalloc K vp n rq.ld rq.cls pid s) :
      Effect s (adjustAndGrant zalloc vp n rq.ld rq.cls pid s).1
  /-- A request is queued. -/
  | enqueue (vp : Vnode) (rq : Request) (pid : ℤ) (found : Filock)
      (htype : rq.ld.lType ≠ .unlck)
      (hb : (blocked (s.chain vp) rq.ld rq.cls pid).1 = some found)
      (hdead : deadflck s.sleeplcks found (callerOwner rq.ld rq.cls pid) = some false)
      (hK : K.enqueue s (callerOwner rq.ld rq.cls pid) found.set.owner) :
      Effect s
        { s with
          sleeplcks := s.sleeplcks ++ [{ newFilock rq.ld vp rq.cls pid with blk := found.set.owner }],
          zcnt := s.zcnt + 1 }
  /-- Locks go. -/
  | release (vp : Vnode) (cls : LockClass) (del : Filock → Bool) (always : Bool)
      (hK : ReleaseMeets zalloc K vp cls del always s) :
      Effect s (releaseIf zalloc vp cls del always s)
  /-- No chain changes, and nobody is queued. -/
  | dequeue (t : State) (hchain : t.chain = s.chain)
      (hsleep : t.sleeplcks.Sublist s.sleeplcks) : Effect s t

variable {zalloc K} {s t : State} {rep : Reply} {rq : Request} {pid : ℤ} {fid : Bool}

theorem Effect.answer {u : State} {r : Reply} (h : some (u, r) = some (t, rep)) (hchain : u.chain = s.chain)
    (hsleep : u.sleeplcks.Sublist s.sleeplcks) : Effect zalloc K s t := by
  cases h
  exact .dequeue _ hchain hsleep

theorem enqueue_effect {found : Filock} {reply : Reply} (htype : rq.ld.lType ≠ .unlck)
    (hb : (blocked (s.chain vp) rq.ld rq.cls pid).1 = some found)
    (h : enqueue zalloc vp rq.ld rq.cls pid found reply s = some (t, rep))
    (hK : K.enqueue s (callerOwner rq.ld rq.cls pid) found.set.owner) : Effect zalloc K s t := by
  obtain ⟨dead, hdead, hrest⟩ := map_eq_some_iff.mp h
  cases dead with
  | true =>
    exact .answer (congrArg some hrest) rfl (.refl _)
  | false =>
    cases hz : zalloc s.zcnt with
    | true =>
      simp only [Bool.false_eq_true, if_false, hz, if_true, Prod.mk.injEq] at hrest
      rw [← hrest.1]
      exact .enqueue vp rq pid found htype hb hdead hK
    | false =>
      simp only [Bool.false_eq_true, if_false, hz] at hrest
      exact .answer (congrArg some hrest) rfl (.refl _)

theorem setflck_effect {slpflg : Bool} (h : setflck zalloc fid vp rq.ld slpflg pid rq.cls s = some (t, rep))
    (hK : StepMeets zalloc K s (.setflck fid vp rq slpflg pid)) : Effect zalloc K s t := by
  unfold setflck at h
  cases fid with
  | false =>
    exact .answer h rfl (.refl _)
  | true =>
    have hK' := hK rfl
    simp only [Bool.true_eq_false, if_false] at h
    by_cases hun : rq.ld.lType = .unlck
    · rw [if_pos hun] at h hK'
      by_cases hcancel : rq.cls = .lockmgr ∧ ∃ sf ∈ s.sleeplcks, sf.set.owner = rq.ld.owner
      · rw [if_pos hcancel] at h
        exact .answer h rfl List.eraseP_sublist
      · rw [if_neg hcancel, some.injEq] at h
        have ht : t = (adjustAndGrant zalloc vp (flFlck (s.chain vp)) rq.ld rq.cls pid s).1 := by
          rw [h]
        rw [ht]
        exact .adjust vp _ rq pid (.inr ⟨hun, rfl⟩) (hK' hcancel)
    · rw [if_neg hun] at h hK'
      cases hb : blocked (s.chain vp) rq.ld rq.cls pid with
      | mk found insrt =>
        rw [hb] at h hK'
        cases found with
        | none =>
          simp only [some.injEq] at h
          have ht : t = (adjustAndGrant zalloc vp insrt rq.ld rq.cls pid s).1 := by rw [h]
          rw [ht]
          exact .adjust vp _ rq pid (.inl ⟨hun, hb⟩) hK'
        | some found =>
          cases slpflg with
          | false =>
            exact .answer h rfl (.refl _)
          | true =>
            simp only [Bool.true_eq_false, if_false] at h
            by_cases hdup : rq.cls = .lockmgr ∧ ∃ sf ∈ s.sleeplcks, sf.set.owner = rq.ld.owner
            · rw [if_pos hdup] at h
              exact .answer h rfl (.refl _)
            · rw [if_neg hdup] at h
              have hfound : (blocked (s.chain vp) rq.ld rq.cls pid).1 = some found := by rw [hb]
              exact enqueue_effect hun hfound h (hK' rfl)

theorem locked_effect {slpflck : Bool} (hio : rq.cls = .ioLock) (htype : rq.ld.lType ≠ .unlck)
    (h : locked zalloc fid vp rq.ld slpflck pid s = some (t, rep))
    (hK : StepMeets zalloc K s (.locked fid vp rq slpflck pid)) : Effect zalloc K s t := by
  unfold locked at h
  cases fid with
  | false =>
    exact .answer h rfl (.refl _)
  | true =>
    cases hb : blocked (s.chain vp) rq.ld .ioLock pid with
    | mk found insrt =>
      rw [hb] at h
      cases found with
      | none =>
        exact .answer h rfl (.refl _)
      | some found =>
        cases slpflck with
        | true =>
          exact .answer h rfl (.refl _)
        | false =>
          have hfound : (blocked (s.chain vp) rq.ld rq.cls pid).1 = some found := by rw [hio, hb]
          have hq : K.enqueue s (callerOwner rq.ld rq.cls pid) found.set.owner := by
            rw [hio]
            exact hK rfl rfl found (by rw [hb])
          rw [← hio] at h
          exact enqueue_effect htype hfound h hq

theorem step_effect {e : Event} (h : step zalloc s e = some t) (hK : StepMeets zalloc K s e) : Effect zalloc K s t := by
  cases e with
  | setflck fid vp rq slpflg pid =>
    rw [step] at h
    split at h
    · obtain ⟨⟨t', rep⟩, h', rfl⟩ := map_eq_some_iff.mp h
      exact setflck_effect h' hK
    · cases h
  | locked fid vp rq slpflck pid =>
    rw [step] at h
    split at h
    · rename_i hg
      obtain ⟨⟨t', rep⟩, h', rfl⟩ := map_eq_some_iff.mp h
      exact locked_effect hg.2.1 hg.2.2 h' hK
    · cases h
  | delsleeplck pid =>
    obtain rfl := some_inj.mp h
    exact .dequeue _ rfl List.eraseP_sublist
  | cleanlocks vp pid =>
    obtain rfl := some_inj.mp h
    exact .release vp _ _ _ hK
  | killLocks rsys vp =>
    obtain rfl := some_inj.mp h
    exact .release vp _ _ _ hK
  | killSleepers | purgeSleepers =>
    obtain rfl := some_inj.mp h
    exact .dequeue _ rfl List.filter_sublist
  | purgeLocks vp =>
    obtain rfl := some_inj.mp h
    exact .release vp _ _ _ hK
  | purgeQueues | doGrantLocks | klmCallbacks =>
    obtain rfl := some_inj.mp h
    exact .dequeue _ rfl (List.Sublist.refl _)

end Steps

end Osf1.Flock
