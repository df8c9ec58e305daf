import Osf1.Computation.Tally
import Osf1.Errno

/-!
# Record locks: the data of `vfs_flock.c`

The lock record (`struct filock`), the request it is made from (`struct eflock`), the
owner of a lock, and `regflck`, which places a request relative to a record.  `l_len`
is used by the kernel under the name `l_end` once `setflck` has added the start to it
(`#define l_end l_len`); the field is `lEnd` here throughout.
-/

set_option autoImplicit false

namespace Osf1.Flock

open List

section Model

/-- A vnode, named by its address. -/
abbrev Vnode := ℕ

/-- `F_RDLCK`, `F_WRLCK`, `F_UNLCK`.
SRC: sys/fcntl.h:77-79 -/
inductive LockType where
  | rdlck
  | wrlck
  | unlck
  deriving DecidableEq, Repr

/-- `FILE_LOCK`, `IO_LOCK`, `LOCKMGR`.
SRC: sys/flock.h:142-145 -/
inductive LockClass where
  | fileLock
  | ioLock
  | lockmgr
  deriving DecidableEq, Repr

/-- Whose lock it is: the local pid, and for the lock manager the remote pid and system. -/
structure Owner where
  pid : ℤ
  rpid : ℤ
  rsys : ℤ
  deriving DecidableEq, Repr

/-- A lock request, and the `set` field of a lock record.
SRC: sys/fcntl.h:266-276 -/
structure Eflock where
  lType : LockType
  lStart : ℕ
  lEnd : ℕ
  lPid : ℤ
  lRpid : ℤ
  lRsys : ℤ
  lCb : ℤ
  deriving DecidableEq, Repr

/-- The owner recorded in a request. -/
def Eflock.owner (ld : Eflock) : Owner := ⟨ld.lPid, ld.lRpid, ld.lRsys⟩

/-- A lock record.  `blk` is `stat.blkpid`, `blkrpid` and `blkrsys`, which only the
records of `sleeplcks` use.
SRC: sys/flock.h:62-79 -/
structure Filock where
  set : Eflock
  cls : LockClass
  vp : Vnode
  blk : Owner
  deriving DecidableEq, Repr

/-- SRC: sys/fcntl.h:160 -/
def MAXEND : ℕ := 2 ^ 63 - 1

/-- SRC: vfs/vfs_flock.c:83 -/
def GRANT_LOCK_FLAG : ℕ := 0xf

/-- The owner a caller acts for: the lock manager names it in the request, every other
class acts for the local process `upid`.
SRC: vfs/vfs_flock.c:646-650 -/
def callerOwner (ld : Eflock) (cls : LockClass) (upid : ℤ) : Owner :=
  if cls = .lockmgr then ld.owner else ⟨upid, 0, 0⟩

/-- The record `insflck` fills in: a copy of the request, under the caller's pid unless
the lock manager asks.
SRC: vfs/vfs_flock.c:411-418 -/
def newFilock (lckdat : Eflock) (vp : Vnode) (cls : LockClass) (upid : ℤ) : Filock where
  set := if cls ≠ .lockmgr then { lckdat with lPid := upid } else lckdat
  cls := cls
  vp := vp
  blk := ⟨0, 0, 0⟩

/-- Where a request starts relative to a record: `S_BEFORE` .. `S_AFTER`. -/
inductive StartRegion where
  | before
  | start
  | middle
  | ending
  | after
  deriving DecidableEq, Repr

/-- Where a request ends relative to a record: `E_BEFORE` .. `E_AFTER`. -/
inductive EndRegion where
  | before
  | start
  | middle
  | ending
  | after
  deriving DecidableEq, Repr

/-- The end half of `regflck`, reached unless the request starts at or past the end.
SRC: vfs/vfs_flock.c:606-616 -/
def regflckEnd (ld : Eflock) (flp : Filock) : EndRegion :=
  if ld.lEnd > flp.set.lStart then
    if ld.lEnd > flp.set.lEnd then .after
    else if ld.lEnd = flp.set.lEnd then .ending
    else .middle
  else if ld.lEnd = flp.set.lStart then .start
  else .before

/-- The span of a request relative to an existing record.
SRC: vfs/vfs_flock.c:586-619 -/
def regflck (ld : Eflock) (flp : Filock) : StartRegion × EndRegion :=
  if ld.lStart > flp.set.lStart then
    if ld.lStart > flp.set.lEnd then (.after, .after)
    else if ld.lStart = flp.set.lEnd then (.ending, .after)
    else (.middle, regflckEnd ld flp)
  else if ld.lStart = flp.set.lStart then (.start, regflckEnd ld flp)
  else (.before, regflckEnd ld flp)

@[simp] theorem newFilock_lStart (ld : Eflock) (vp : Vnode) (cls : LockClass) (upid : ℤ) :
    (newFilock ld vp cls upid).set.lStart = ld.lStart := by
  unfold newFilock
  split <;> rfl

@[simp] theorem newFilock_lEnd (ld : Eflock) (vp : Vnode) (cls : LockClass) (upid : ℤ) :
    (newFilock ld vp cls upid).set.lEnd = ld.lEnd := by
  unfold newFilock
  split <;> rfl

@[simp] theorem newFilock_lType (ld : Eflock) (vp : Vnode) (cls : LockClass) (upid : ℤ) :
    (newFilock ld vp cls upid).set.lType = ld.lType := by
  unfold newFilock
  split <;> rfl

/-- The pid `flckadj` hands on to `insflck`.
SRC: vfs/vfs_flock.c:646-647 -/
def insertPid (ld : Eflock) (cls : LockClass) (upid : ℤ) : ℤ :=
  if cls = .lockmgr then ld.lPid else upid

/-- A request carries no remote identity unless the lock manager makes it: `fcntl` and
the mandatory-lock checks of `vn_read` and `vn_write` clear both fields.
SRC: bsd/kern_descrip.c:417-418,492-493; vfs/vfs_vnops.c:461-462,584-585 -/
def Local (ld : Eflock) (cls : LockClass) : Prop := cls ≠ .lockmgr → ld.lRpid = 0 ∧ ld.lRsys = 0

variable {ld : Eflock} {vp : Vnode} {cls : LockClass} {upid : ℤ}

theorem newFilock_owner (h : Local ld cls) :
    (newFilock ld vp cls (insertPid ld cls upid)).set.owner = callerOwner ld cls upid := by
  by_cases hc : cls = .lockmgr
  · simp [newFilock, callerOwner, hc]
  · obtain ⟨hp, hs⟩ := h hc
    simp [newFilock, insertPid, callerOwner, hc, Eflock.owner, hp, hs]

theorem newFilock_owner_caller
    (h : Local ld cls) : (newFilock ld vp cls upid).set.owner = callerOwner ld cls upid := by
  by_cases hc : cls = .lockmgr
  · simp [newFilock, callerOwner, hc]
  · obtain ⟨hp, hs⟩ := h hc
    simp [newFilock, callerOwner, hc, Eflock.owner, hp, hs]

end Model

/-!
## `flckadj` and `blocked` on a chain of records

The chain of a `flino` as the list of its records, first to last. A position in the chain stands for a record
pointer: `0` is `NULL` and `n + 1` the record with `n` records before it, so that "insert after `insrtp`"
keeps the first `insrtp` records in front. `zalloc n` says whether the `n`-th `ZALLOC` from `lockrec_zone`
succeeds.
-/

section Chain

/-- `flckadj` in mid-walk: the records it has passed, the place where the request will
go, the request as far as it has been widened, the return value so far, and the number of
`ZALLOC` calls made.  Once the walk is over `passed` is the whole chain. -/
structure Adj where
  passed : List Filock
  insrtp : ℕ
  ld : Eflock
  rv : ℕ
  zcnt : ℕ
  deriving DecidableEq, Repr

/-- What one turn of the `while` loop does: go on to the next record, leave the loop
(`nflp = NULL`), or return from `flckadj`. -/
inductive AdjNext where
  | next (a : Adj)
  | stop (a : Adj)
  | ret (a : Adj)
  deriving DecidableEq, Repr

/-- How many records a scan `while (f->set.l_start < start)` that begins at the head of
`l` leaves in front: the head stays in front in any case.
SRC: vfs/vfs_flock.c:722-728,810-816 -/
def scanFrom (start : ℕ) (l : List Filock) : ℕ := max 1 (l.takeWhile fun f => f.set.lStart < start).length

/-- `insflck` after position `n` of a chain.
SRC: vfs/vfs_flock.c:391-464 -/
def insflck (zalloc : ℕ → Bool) (zcnt : ℕ) (c : List Filock) (n : ℕ) (new : Filock) :
    Option (List Filock) :=
  if zalloc zcnt then some (c.take n ++ new :: c.drop n) else none

/-- `if (insrtp == flp) insrtp = flp->prev`. -/
def Adj.stepBack (a : Adj) : ℕ :=
  if a.insrtp = a.passed.length + 1 then a.passed.length else a.insrtp

/-- `flp->set.l_end = ld->l_start`. -/
def trim (flp : Filock) (ld : Eflock) : Filock := { flp with set := { flp.set with lEnd := ld.lStart } }

/-- The piece of a record after the end of a request: `td`.
SRC: vfs/vfs_flock.c:718-719,749-750 -/
def severed (flp : Filock) (ld : Eflock) : Eflock := { flp.set with lStart := ld.lEnd }

/-- The body of the `while` loop of `flckadj` at the record `flp`, with `nflp` the
records after it.
SRC: vfs/vfs_flock.c:652-807 -/
def flckadjStep (zalloc : ℕ → Bool) (vp : Vnode) (cls : LockClass) (upid : ℤ) (o : Owner)
    (flp : Filock) (nflp : List Filock) (a : Adj) : AdjNext :=
  let whole := a.passed ++ flp :: nflp
  let same : Bool := a.ld.lType = flp.set.lType
  -- the severed piece goes where a scan from `flp` for the start of the request ends
  let sever := insflck zalloc a.zcnt (flp :: nflp) (scanFrom a.ld.lStart (flp :: nflp))
    (newFilock (severed flp a.ld) vp cls upid)
  if flp.set.owner = o then
    match regflck a.ld flp with
    | (.before, .before) => .stop { a with passed := whole }
    | (.before, .start) =>
      if same then
        .next { a with ld := { a.ld with lEnd := flp.set.lEnd }, insrtp := a.stepBack }
      else .stop { a with passed := whole }
    | (.start, .ending) =>
      if same then .ret { a with passed := whole }
      else .next { a with insrtp := a.passed.length, rv := 1 }
    | (.start, .after) => .next { a with insrtp := a.passed.length, rv := 1 }
    | (.before, .ending) =>
      if same then .stop { a with passed := a.passed ++ nflp, insrtp := a.stepBack, rv := 1 }
      else .next { a with insrtp := a.stepBack, rv := 1 }
    | (.before, .after) => .next { a with insrtp := a.stepBack, rv := 1 }
    | (.before, .middle) =>
      if same then
        .stop { a with
          passed := a.passed ++ nflp, insrtp := a.stepBack,
          ld := { a.ld with lEnd := flp.set.lEnd }, rv := 1 }
      else
        match sever with
        | none => .ret { a with passed := whole, rv := ENOLCK, zcnt := a.zcnt + 1 }
        | some l =>
          .stop { a with
            passed := a.passed ++ l.tail, insrtp := a.stepBack, rv := 1,
            zcnt := a.zcnt + 1 }
    | (.start, .middle) =>
      if same then .ret { a with passed := whole }
      else
        match sever with
        | none => .ret { a with passed := whole, rv := ENOLCK, zcnt := a.zcnt + 1 }
        | some l =>
          .stop { a with
            passed := a.passed ++ l.tail, insrtp := a.passed.length, rv := 1,
            zcnt := a.zcnt + 1 }
    | (.middle, .middle) =>
      if same then .ret { a with passed := whole }
      else
        match sever with
        | none => .ret { a with passed := whole, rv := ENOLCK, zcnt := a.zcnt + 1 }
        | some l =>
          .stop { a with
            passed := a.passed ++ trim flp a.ld :: l.tail, insrtp := a.passed.length + 1,
            rv := 1, zcnt := a.zcnt + 1 }
    | (.middle, .ending) =>
      if same then .ret { a with passed := whole }
      else
        .next { a with
          passed := a.passed ++ [trim flp a.ld], insrtp := a.passed.length + 1, rv := 1 }
    | (.middle, .after) | (.ending, .after) =>
      if same then
        .next { a with
          ld := { a.ld with lStart := flp.set.lStart }, insrtp := a.passed.length }
      else
        .next { a with
          passed := a.passed ++ [trim flp a.ld], insrtp := a.passed.length + 1, rv := 1 }
    | (.after, .after) =>
      .next { a with passed := a.passed ++ [flp], insrtp := a.passed.length + 1 }
    | _ => .next { a with passed := a.passed ++ [flp] }
  else if flp.set.lStart > a.ld.lEnd then .stop { a with passed := whole }
  else .next { a with passed := a.passed ++ [flp] }

/-- The `while` loop of `flckadj` over the records from `nflp` on. -/
def flckadjLoop (zalloc : ℕ → Bool) (vp : Vnode) (cls : LockClass) (upid : ℤ) (o : Owner) :
    List Filock → Adj → AdjNext
  | [], a => .stop a
  | flp :: nflp, a =>
    match flckadjStep zalloc vp cls upid o flp nflp a with
    | .next a => flckadjLoop zalloc vp cls upid o nflp a
    | r => r

/-- What `flckadj` leaves: the chain, the request it was passed by reference, the return
value and the number of `ZALLOC` calls made. -/
structure Adjusted where
  chain : List Filock
  ld : Eflock
  rv : ℕ
  zcnt : ℕ
  deriving DecidableEq, Repr

/-- The end of `flckadj`: the request itself goes in, unless it is an unlock.
SRC: vfs/vfs_flock.c:809-827 -/
def flckadjInsert (zalloc : ℕ → Bool) (vp : Vnode) (cls : LockClass) (upid : ℤ) (a : Adj) :
    Adjusted :=
  if a.ld.lType ≠ .unlck then
    let n :=
      if a.insrtp = 0 then 0
      else a.insrtp - 1 + scanFrom a.ld.lStart (a.passed.drop (a.insrtp - 1))
    match insflck zalloc a.zcnt a.passed n (newFilock a.ld vp cls upid) with
    | none => ⟨a.passed, a.ld, ENOLCK, a.zcnt + 1⟩
    | some c => ⟨c, a.ld, a.rv, a.zcnt + 1⟩
  else ⟨a.passed, a.ld, a.rv, a.zcnt⟩

/-- Adjust the chain for a request, starting at the record `insrtp`, or at the head when
`insrtp` is `NULL`.
SRC: vfs/vfs_flock.c:627-828 -/
def flckadj (zalloc : ℕ → Bool) (vp : Vnode) (c : List Filock) (insrtp : ℕ) (ld : Eflock)
    (cls : LockClass) (upid : ℤ) (zcnt : ℕ) : Adjusted :=
  let o := callerOwner ld cls upid
  let pid := insertPid ld cls upid
  match flckadjLoop zalloc vp cls pid o (c.drop (insrtp - 1))
      ⟨c.take (insrtp - 1), insrtp, ld, 0, zcnt⟩ with
  | .ret a => ⟨a.passed, a.ld, a.rv, a.zcnt⟩
  | .next a | .stop a => flckadjInsert zalloc vp cls pid a

/-- The head of the chain, `fl_flck`, as a place. -/
def flFlck (c : List Filock) : ℕ := if c = [] then 0 else 1

/-- The record `f` of another owner keeps a request of the given type and range out. -/
def Conflicts (o : Owner) (ld : Eflock) (f : Filock) : Prop :=
  f.set.owner ≠ o ∧ ld.lStart < f.set.lEnd ∧ f.set.lStart < ld.lEnd ∧
    (f.set.lType = .wrlck ∨ (f.set.lType = .rdlck ∧ ld.lType = .wrlck))

instance (o : Owner) (ld : Eflock) (f : Filock) : Decidable (Conflicts o ld f) :=
  inferInstanceAs (Decidable (_ ∧ _ ∧ _ ∧ _))

/-- The second loop of `blocked`: every record up to the first that starts past the end.
SRC: vfs/vfs_flock.c:889-901 -/
def blockedRest (o : Owner) (lckdat : Eflock) : List Filock → Option Filock
  | [] => none
  | f :: next =>
    if Conflicts o lckdat f then some f
    else if f.set.lStart > lckdat.lEnd then none
    else blockedRest o lckdat next

/-- The first loop of `blocked`, over the records that start before the request;
`insrt` counts them.
SRC: vfs/vfs_flock.c:868-887 -/
def blockedFrom (o : Owner) (lckdat : Eflock) : List Filock → ℕ → Option Filock × ℕ
  | [], insrt => (none, insrt)
  | f :: next, insrt =>
    if f.set.lStart < lckdat.lStart then
      if f.set.owner = o ∧ lckdat.lStart ≤ f.set.lEnd ∧ lckdat.lEnd ≥ f.set.lStart then
        (blockedRest o lckdat (f :: next), insrt + 1)
      else if Conflicts o lckdat f then (some f, insrt + 1)
      else blockedFrom o lckdat next (insrt + 1)
    else (blockedRest o lckdat (f :: next), insrt)

/-- The record that blocks a request, if `blocked` finds one, and the place `*insrt` where
the request would go.
SRC: vfs/vfs_flock.c:847-904 -/
def blocked (c : List Filock) (lckdat : Eflock) (cls : LockClass) (upid : ℤ) :
    Option Filock × ℕ :=
  blockedFrom (callerOwner lckdat cls upid) lckdat c 0

end Chain

/-!
## Well-formed chains, what they hold, and where a request may go

A chain is well formed when it is sorted by start, no record is empty, and the records of one owner are
disjoint. `Holds` is what a chain means: which type of lock an owner has on a byte.
-/

section WellFormed

open Osf1.Computation

/-- The order of the chain: by start, and past the end within one owner. -/
def Precedes (f g : Filock) : Prop :=
  f.set.lStart ≤ g.set.lStart ∧ (f.set.owner = g.set.owner → f.set.lEnd ≤ g.set.lStart)

/-- The representation invariant of a chain. -/
structure WellFormed (c : List Filock) : Prop where
  sorted : c.Pairwise fun f g => f.set.lStart ≤ g.set.lStart
  nonempty : ∀ f ∈ c, f.set.lStart < f.set.lEnd
  disjoint : c.Pairwise fun f g =>
    f.set.owner = g.set.owner → f.set.lEnd ≤ g.set.lStart ∨ g.set.lEnd ≤ f.set.lStart

variable {c passed rest : List Filock} {start n : ℕ}

theorem WellFormed.ordered (h : WellFormed c) : c.Pairwise Precedes := by
  have hboth := pairwise_and_iff.mpr ⟨h.sorted, h.disjoint⟩
  refine hboth.imp_of_mem ?_
  intro f g hf hg ⟨hle, hdis⟩
  refine ⟨hle, fun hown => ?_⟩
  have hng := h.nonempty g hg
  rcases hdis hown with h1 | h1
  · exact h1
  · omega

theorem WellFormed.of_ordered (h : c.Pairwise Precedes) (hne : ∀ f ∈ c, f.set.lStart < f.set.lEnd) : WellFormed c where
  sorted := h.imp fun hfg => hfg.1
  nonempty := hne
  disjoint := h.imp fun hfg hown => .inl (hfg.2 hown)

/-- The owner has a lock of the given type on a byte. -/
def Holds (c : List Filock) (o : Owner) (x : ℕ) (t : LockType) : Prop :=
  ∃ f ∈ c, f.set.owner = o ∧ f.set.lStart ≤ x ∧ x < f.set.lEnd ∧ f.set.lType = t

theorem Holds.unique (hc : c.Pairwise Precedes) {o : Owner} {x : ℕ}
    {t t' : LockType} (h : Holds c o x t) (h' : Holds c o x t') : t = t' := by
  obtain ⟨f, hf, hfo, hfl, hfu, hft⟩ := h
  obtain ⟨g, hg, hgo, hgl, hgu, hgt⟩ := h'
  by_contra hne
  have hfg : f ≠ g := by
    rintro rfl
    exact hne (hft.symm.trans hgt)
  rcases pairwise_or hc hf hg hfg with h | h
  · have := h.2 (hfo.trans hgo.symm)
    omega
  · have := h.2 (hgo.trans hfo.symm)
    omega

/-- `n` is a place to insert a record that starts at `start`: what is in front starts no
later, and the head of the chain is taken only if everything starts no earlier. -/
structure InsertPoint (c : List Filock) (n start : ℕ) : Prop where
  le_length : n ≤ c.length
  front : ∀ f ∈ c.take n, f.set.lStart ≤ start
  head : n = 0 → ∀ f ∈ c, start ≤ f.set.lStart

/-- The request severs a record of its owner while a later record starts inside the
request: the severed piece is put in front of that record, which starts before it. -/
def Misplaces (o : Owner) (ld : Eflock) : List Filock → Prop
  | [] => False
  | flp :: nflp =>
    (flp.set.owner = o ∧ ld.lType ≠ flp.set.lType ∧ flp.set.lStart < ld.lEnd ∧ ld.lEnd < flp.set.lEnd ∧
      ∃ e ∈ nflp, ld.lStart ≤ e.set.lStart ∧ e.set.lStart < ld.lEnd) ∨
    Misplaces o ld nflp

instance decidableMisplaces (o : Owner) (ld : Eflock) :
    (c : List Filock) → Decidable (Misplaces o ld c)
  | [] => inferInstanceAs (Decidable False)
  | _ :: nflp =>
    have := decidableMisplaces o ld nflp
    inferInstanceAs (Decidable ((_ ∧ _ ∧ _ ∧ _ ∧ _) ∨ _))

theorem InsertPoint.behind
    (hfront : ∀ f ∈ passed, f.set.lStart ≤ start) (hhead : passed = [] → ∀ f ∈ rest, start ≤ f.set.lStart) :
    InsertPoint (passed ++ rest) passed.length start where
  le_length := by simp
  front f hf := by
    rw [take_left] at hf
    exact hfront f hf
  head h0 f hf := by
    have hnil : passed = [] := length_eq_zero_iff.mp h0
    subst hnil
    exact hhead rfl f hf

theorem InsertPoint.remove {flp : Filock} (h : InsertPoint (passed ++ flp :: rest) n start) (hn : n ≤ passed.length) :
    InsertPoint (passed ++ rest) n start where
  le_length := by simp only [length_append]; omega
  front f hf := by
    apply h.front f
    rw [take_append_of_le_length hn] at hf ⊢
    exact hf
  head h0 f hf := by
    apply h.head h0 f
    rw [mem_append] at hf ⊢
    exact hf.imp_right (mem_cons_of_mem _)

theorem InsertPoint.scan (h : InsertPoint c n start) (hs : c.Pairwise fun f g => f.set.lStart ≤ g.set.lStart) (hn : n ≠ 0) :
    (∀ f ∈ c.take (n - 1 + scanFrom start (c.drop (n - 1))), f.set.lStart ≤ start) ∧
      ∀ f ∈ c.drop (n - 1 + scanFrom start (c.drop (n - 1))), start ≤ f.set.lStart := by
  obtain ⟨k, rfl⟩ := Nat.exists_eq_succ_of_ne_zero hn
  have hlen := h.le_length
  have hsplit := take_append_drop k c
  have hk : (c.take k).length = k := by
    rw [length_take]
    omega
  obtain ⟨g, tl, hg⟩ : ∃ g tl, c.drop k = g :: tl := by
    cases hd : c.drop k with
    | nil =>
      rw [drop_eq_nil_iff] at hd
      omega
    | cons g tl => exact ⟨g, tl, rfl⟩
  have hgle : g.set.lStart ≤ start := by
    apply h.front g
    rw [← hsplit, hg, take_append, hk]
    simp
  have hstail : (c.drop k).Pairwise fun f g => f.set.lStart ≤ g.set.lStart := hs.sublist (drop_sublist k c)
  have hfront (f : Filock) (hf : f ∈ c.take k) : f.set.lStart ≤ start := by
    apply h.front f
    rw [Nat.succ_eq_add_one, take_add]
    exact mem_append_left _ hf
  simp only [Nat.succ_eq_add_one, Nat.add_sub_cancel]
  set m := ((c.drop k).takeWhile fun f => f.set.lStart < start).length with hm
  -- the record at the place itself either starts earlier, or exactly at the request
  by_cases hlt : g.set.lStart < start
  · have hm1 : 1 ≤ m := by
      rw [hm, hg, takeWhile_cons_of_pos (by simpa using hlt)]
      simp
    have hscan : scanFrom start (c.drop k) = m := by
      unfold scanFrom
      omega
    rw [hscan, take_add, ← drop_drop]
    refine ⟨fun f hf => ?_, fun f hf => ?_⟩
    · rcases mem_append.mp hf with hf | hf
      · exact hfront f hf
      · exact (lt_of_mem_take_takeWhile (fun f : Filock => f.set.lStart) hf).le
    · exact le_of_mem_drop_takeWhile (fun f : Filock => f.set.lStart) hstail hf
  · have hm0 : m = 0 := by
      rw [hm, hg, takeWhile_cons_of_neg (by simpa using hlt)]
      rfl
    have hscan : scanFrom start (c.drop k) = 1 := by
      unfold scanFrom
      omega
    rw [hscan]
    refine ⟨fun f hf => h.front f hf, fun f hf => ?_⟩
    rw [← drop_drop, hg, drop_succ_cons, drop_zero] at hf
    rw [hg, pairwise_cons] at hstail
    have := hstail.1 f hf
    omega

end WellFormed

end Osf1.Flock
