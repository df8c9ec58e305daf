import Osf1.Computation.Transition

/-!
# The buffer cache

Buffers with their locks, the free lists, the hash chains and the lists of the vnodes, and what changes
them.
-/

set_option autoImplicit false

namespace Osf1.Bio

open Function

section Buffers

section Data

/-- The flags of a buffer that the cache looks at.  SRC: sys/buf.h:252-284 -/
structure Flags where
  B_READ : Bool
  B_ERROR : Bool
  B_ASYNC : Bool
  B_DELWRI : Bool
  B_AGE : Bool
  B_CACHE : Bool
  B_INVAL : Bool
  B_LOCKED : Bool
  B_NOCACHE : Bool
deriving DecidableEq

def Flags.none : Flags := ⟨false, false, false, false, false, false, false, false, false⟩

/-- A buffer, with the pages of memory that are mapped at `b_un.b_addr`.
SRC: sys/buf.h:129-188 -/
structure Buf (V H : Type) where
  b_flags : Flags
  b_bcount : ℕ
  b_bufsize : ℕ
  b_lblkno : ℤ
  b_vp : Option V
  b_rvp : Option V
  b_hash_chain : Option H
  b_iocomplete : Bool
  pages : List ℕ

/-- SRC: sys/buf.h:207-212 -/
inductive Queue where
  | BQ_LOCKED
  | BQ_LRU
  | BQ_AGE
  | BQ_EMPTY
deriving DecidableEq

/-- Who can hold a buffer: a thread, or the completion of the I/O on a buffer that has been given
away. -/
inductive Agent (T B : Type) where
  | thread (t : T)
  | intr (b : B)
deriving DecidableEq

/-- What the driver does with a buffer. -/
inductive Io (V : Type) where
  | read
  | write (vp : V)
deriving DecidableEq

/-- What `allocbuf` is called for. -/
inductive After (V : Type) where
  | ret
  | getblk (vp : V) (blkno : ℤ)
deriving DecidableEq

/-- What gets the buffer that `getnewbuf` finds. -/
inductive Cont (B V : Type) where
  | getblk (vp : V) (blkno : ℤ) (size : ℕ) (stamp : ℤ)
  | geteblk (size : ℕ)
  | alloc (tp : B) (size : ℕ) (k : After V)
deriving DecidableEq

/-- What comes when a buffer has been written or released. -/
inductive Next (B V : Type) where
  | ret
  | getblk (vp : V) (blkno : ℤ) (size : ℕ)
  | getnewbuf (c : Cont B V)
  | alloc (tp : B) (size : ℕ) (k : After V)
  | shrunk (tp : B) (size : ℕ) (k : After V)
  | vflush (vp : V) (sync : Bool)
  | vinval (vp : V) (save : Bool) (dirty : ℤ) (list : Bool)
deriving DecidableEq

/-- Where a thread or an interrupt is.  `got` is the return of `getblk`. -/
inductive Pc (B V : Type) where
  | idle
  | search (vp : V) (blkno : ℤ) (size : ℕ)
  | lock (vp : V) (blkno : ℤ) (size : ℕ) (bp : B)
  | getnewbuf (c : Cont B V)
  | reset (bp : B) (c : Cont B V)
  | assign (vp : V) (blkno : ℤ) (size : ℕ) (stamp : ℤ) (bp : B)
  | insert (vp : V) (blkno : ℤ) (size : ℕ) (stamp : ℤ) (bp : B)
  | got (vp : V) (blkno : ℤ) (size : ℕ) (bp : B)
  | alloc (tp : B) (size : ℕ) (k : After V)
  | grow (tp : B) (size : ℕ) (k : After V) (bp : B)
  | shrunk (tp : B) (size : ℕ) (k : After V)
  | bwrite (bp : B) (n : Next B V)
  | output (bp : B) (n : Next B V)
  | io (bp : B)
  | biowait (bp : B) (n : Next B V)
  | breadwait (bp : B)
  | brelse (bp : B) (n : Next B V)
  | free (bp : B) (q : Queue) (inshead had_error : Bool) (n : Next B V)
  | vflush (vp : V) (sync : Bool)
  | vwait (vp : V)
  | vinval (vp : V) (save : Bool) (dirty : ℤ) (list : Bool)
  | vlock (vp : V) (save : Bool) (dirty : ℤ) (list : Bool) (bp : B)
  | vdone (vp : V) (dirty : ℤ)
deriving DecidableEq

variable (T B V H : Type)

/-- The cache: the buffers, who has locked them, the free lists, the hash chains with their time stamps,
the lists of the vnodes (`(vp, true)` is `v_dirtyblkhd` and `(vp, false)` is `v_cleanblkhd`), what goes
on in the drivers, and where everyone is.  A time stamp counts, from 0 in a `u_long`, the buffers that
have come on a chain; 2⁶⁴ are taken not to come. -/
structure State where
  buf : B → Buf V H
  owner : B → Option (Agent T B)
  bfreelist : Queue → List B
  bufhash : H → List B
  bhd_stamp : H → ℕ
  blkhd : V × Bool → List B
  v_numoutput : V → ℤ
  vioerror : V → Bool
  io : B → Option (Io V)
  pc : Agent T B → Pc B V

end Data

section Operations

variable {T B V H : Type} [DecidableEq T] [DecidableEq B] [DecidableEq V] [DecidableEq H]

namespace State

def setBuf (s : State T B V H) (b : B) (x : Buf V H) : State T B V H := { s with buf := update s.buf b x }

def setFlags (s : State T B V H) (b : B) (f : Flags) : State T B V H := s.setBuf b { s.buf b with b_flags := f }

def setPc (s : State T B V H) (a : Agent T B) (p : Pc B V) : State T B V H := { s with pc := update s.pc a p }

/-- `BUF_LOCK`, `BUF_GIVE_AWAY` and `BUF_ACCEPT`. -/
def lock (s : State T B V H) (b : B) (a : Agent T B) : State T B V H :=
  { s with owner := update s.owner b (some a) }

/-- `BUF_UNLOCK`. -/
def unlock (s : State T B V H) (b : B) : State T B V H := { s with owner := update s.owner b none }

/-- SRC: sys/buf.h:319-325 -/
def bremfree (s : State T B V H) (b : B) : State T B V H := { s with bfreelist := fun q => (s.bfreelist q).erase b }

/-- SRC: sys/buf.h:327-341 -/
def binsfree (s : State T B V H) (b : B) (q : Queue) (inshead : Bool) : State T B V H :=
  { s with
    bfreelist := update s.bfreelist q
      (if inshead then b :: s.bfreelist q else s.bfreelist q ++ [b]) }

/-- SRC: sys/buf.h:299-304 -/
def bremhash (s : State T B V H) (b : B) : State T B V H :=
  { s.setBuf b { s.buf b with b_hash_chain := none } with
    bufhash := fun h => (s.bufhash h).erase b }

/-- SRC: sys/buf.h:305-313 -/
def binshash (s : State T B V H) (b : B) (h : H) : State T B V H :=
  { s.setBuf b { s.buf b with b_hash_chain := some h } with
    bufhash := update s.bufhash h (b :: s.bufhash h)
    bhd_stamp := update s.bhd_stamp h (s.bhd_stamp h + 1) }

/-- A buffer is taken off the list of a vnode, and put in front on another. -/
def relist (s : State T B V H) (b : B) (vp : V) (dirty : Bool) : State T B V H :=
  let blkhd := fun k => (s.blkhd k).erase b
  { s with blkhd := update blkhd (vp, dirty) (b :: blkhd (vp, dirty)) }

/-- Associate a buffer with a vnode.  SRC: vfs/vfs_bio.c:1444-1479 -/
def bgetvp (s : State T B V H) (vp : V) (b : B) : Option (State T B V H) :=
  if (s.buf b).b_vp ≠ none ∨ (s.buf b).b_rvp ≠ none then none
  else some ((s.setBuf b { s.buf b with b_vp := some vp, b_rvp := some vp }).relist b vp false)

/-- Disassociate a buffer from a vnode.  SRC: vfs/vfs_bio.c:1484-1510 -/
def brelvp (s : State T B V H) (b : B) : State T B V H :=
  { s.setBuf b { s.buf b with b_vp := none, b_rvp := none } with
    blkhd := fun k => (s.blkhd k).erase b }

/-- Reassign a buffer from one vnode to another.  SRC: vfs/vfs_bio.c:1517-1565 -/
def reassignbuf (s : State T B V H) (b : B) (newvp : Option V) : Option (State T B V H) :=
  newvp.map fun vp => (s.setBuf b { s.buf b with b_rvp := some vp }).relist b vp
    (s.buf b).b_flags.B_DELWRI

end State

end Operations

end Buffers

/-!
## Runs of the buffer cache

Threads call the functions of the cache at any time, and a driver is done with a buffer at any time.  A
thread goes on from where it has let go of the lock of a free list, of a hash chain, of the lists of a
vnode or of a buffer, or from where it has slept.
-/

section Steps

open Osf1.Computation

section Parameters

variable {B V H : Type}

def MAXBSIZE : ℕ := 8192

/-- What the functions need to know: the hash chain of a block, the size of a page, and the vnodes of
tape drives. -/
structure Config (V H : Type) where
  hash : V → ℤ → H
  page_size : ℕ
  page_pos : 0 < page_size
  tape : V → Bool

def Config.round_page (k : Config V H) (size : ℕ) : ℕ := (size + k.page_size - 1) / k.page_size * k.page_size

/-- A time stamp in a variable of type `int`, which is how `getblk` remembers it. -/
def int (stamp : ℕ) : ℤ := Int.bmod stamp (2 ^ 32)

/-- Where a thread goes on. -/
def Next.pc : Next B V → Pc B V
  | ret => .idle
  | getblk vp blkno size => .search vp blkno size
  | getnewbuf c => .getnewbuf c
  | alloc tp size k => .alloc tp size k
  | shrunk tp size k => .shrunk tp size k
  | vflush vp sync => .vflush vp sync
  | vinval vp save dirty list => .vinval vp save dirty list

/-- Where a thread goes on when `allocbuf` is done. -/
def After.pc (tp : B) (size : ℕ) : After V → Pc B V
  | ret => .idle
  | getblk vp blkno => .got vp blkno size tp

/-- The buffer is for the block. -/
def Buf.isFor (vp : V) (blkno : ℤ) [DecidableEq V] (x : Buf V H) : Bool := x.b_lblkno = blkno ∧ x.b_vp = some vp

end Parameters

namespace State

variable {T B V H : Type} [DecidableEq T] [DecidableEq B] [DecidableEq V] [DecidableEq H]
variable (k : Config V H) (a : Agent T B) (s : State T B V H)

section Getblk

/-- The hash chain is searched.  SRC: vfs/vfs_bio.c:676-692 and 740-744 -/
def searchStep (vp : V) (blkno : ℤ) (size : ℕ) : State T B V H :=
  match (s.bufhash (k.hash vp blkno)).find? fun b => (s.buf b).isFor vp blkno with
  | some bp => s.setPc a (.lock vp blkno size bp)
  | none => s.setPc a (.getnewbuf (.getblk vp blkno size (int (s.bhd_stamp (k.hash vp blkno)))))

/-- A buffer that has been found is locked, if it is still the one.
SRC: vfs/vfs_bio.c:693-738 -/
def lockStep (vp : V) (blkno : ℤ) (size : ℕ) (bp : B) : Option (State T B V H) :=
  let x := s.buf bp
  if s.owner bp ≠ none then none
  else if ¬x.isFor vp blkno then some (s.setPc a (.search vp blkno size))
  else if x.b_flags.B_INVAL then some ((s.bremhash bp).setPc a (.search vp blkno size))
  else
    let s := (s.lock bp a).bremfree bp
    if x.b_bcount ≠ size then
      some ((s.setFlags bp { x.b_flags with B_INVAL := true }).setPc a (.bwrite bp (.getblk vp blkno size)))
    else
      some ((s.setFlags bp { x.b_flags with B_CACHE := true }).setPc a (.got vp blkno size bp))

/-- The buffer can be taken by `getnewbuf`. -/
def Available (bp : B) : Prop :=
  s.owner bp = none ∧ (bp ∈ s.bfreelist .BQ_AGE ∨ bp ∈ s.bfreelist .BQ_LRU ∨ bp ∈ s.bfreelist .BQ_LOCKED)

instance (bp : B) : Decidable (s.Available bp) := inferInstanceAs (Decidable (_ ∧ _))

/-- A buffer that can be locked is taken off its free list.  Which of them it is stays open.
SRC: vfs/vfs_bio.c:829-875 -/
def getnewbufStep (c : Cont B V) : Option B → Option (State T B V H)
  | none => none
  | some bp =>
    if ¬s.Available bp then none
    else
      let x := s.buf bp
      let s := (s.lock bp a).bremfree bp
      if x.b_flags.B_DELWRI then
        some ((s.setFlags bp { x.b_flags with B_ASYNC := true }).setPc a (.bwrite bp (.getnewbuf c)))
      else some ((s.bremhash bp).setPc a (.reset bp c))

/-- What `getnewbuf` has found is reset.  SRC: vfs/vfs_bio.c:880-897 and 800-805 -/
def resetStep (bp : B) (c : Cont B V) : State T B V H :=
  let s := if (s.buf bp).b_vp ≠ none then s.brelvp bp else s
  let x := { s.buf bp with b_flags := Flags.none, b_iocomplete := false }
  match c with
  | .getblk vp blkno size stamp => (s.setBuf bp x).setPc a (.assign vp blkno size stamp bp)
  | .geteblk size =>
    (s.setBuf bp { x with b_flags := { Flags.none with B_INVAL := true }, b_bcount := 0 }).setPc a
      (if size ≠ 0 then .alloc bp size .ret else .idle)
  | .alloc tp size k => (s.setBuf bp x).setPc a (.grow tp size k bp)

/-- SRC: vfs/vfs_bio.c:746-751 -/
def assignStep (vp : V) (blkno : ℤ) (size : ℕ) (stamp : ℤ) (bp : B) : Option (State T B V H) :=
  (s.setBuf bp { s.buf bp with b_bcount := 0, b_lblkno := blkno }).bgetvp vp bp |>.map
    fun s => s.setPc a (.insert vp blkno size stamp bp)

/-- The buffer is put on the hash chain, unless another one for the block has come.
SRC: vfs/vfs_bio.c:752-785 -/
def insertStep (vp : V) (blkno : ℤ) (size : ℕ) (stamp : ℤ) (bp : B) : State T B V H :=
  let h := k.hash vp blkno
  if stamp ≠ (s.bhd_stamp h : ℤ) ∧ (s.bufhash h).any fun b => (s.buf b).isFor vp blkno then
    (s.setFlags bp { (s.buf bp).b_flags with B_INVAL := true }).setPc a
      (.brelse bp (.getblk vp blkno size))
  else
    (s.binshash bp h).setPc a
      (if size ≠ (s.buf bp).b_bcount then .alloc bp size (.getblk vp blkno)
        else .got vp blkno size bp)

end Getblk

section Allocbuf

/-- The count of the buffer is set, and `allocbuf` is done. -/
def allocated (tp : B) (size : ℕ) (c : After V) : State T B V H :=
  (s.setBuf tp { s.buf tp with b_bcount := size }).setPc a (c.pc tp size)

/-- The memory beyond a size is moved to an empty buffer.
SRC: vfs/vfs_bio.c:1629-1636 -/
def shrink (tp ep : B) (sizealloc : ℕ) : State T B V H :=
  let t := s.buf tp
  let e := s.buf ep
  let e' := { e with
    pages := t.pages.drop (sizealloc / k.page_size)
    b_bufsize := t.b_bufsize - sizealloc
    b_flags := { e.b_flags with B_INVAL := true }
    b_bcount := 0 }
  let t' := { t with
    pages := t.pages.take (sizealloc / k.page_size)
    b_bufsize := sizealloc }
  (s.setBuf ep e').setBuf tp t'

/-- SRC: vfs/vfs_bio.c:1590-1648 -/
def allocStep (tp : B) (size : ℕ) (c : After V) (choice : Option B) : Option (State T B V H) :=
  let sizealloc := k.round_page size
  if sizealloc = (s.buf tp).b_bufsize then some (s.allocated a tp size c)
  else if sizealloc < (s.buf tp).b_bufsize then
    match choice with
    | none => some (s.allocated a tp size c)
    | some ep =>
      if s.owner ep ≠ none ∨ ep ∉ s.bfreelist .BQ_EMPTY then none
      else
        some ((((s.lock ep a).bremfree ep).shrink k tp ep sizealloc).setPc a (.brelse ep (.shrunk tp size c)))
  else some (s.setPc a (.getnewbuf (.alloc tp size c)))

/-- Memory is moved from a buffer that `getnewbuf` has found.
SRC: vfs/vfs_bio.c:1649-1670 -/
def growStep (tp : B) (size : ℕ) (c : After V) (bp : B) : State T B V H :=
  let t := s.buf tp
  let x := s.buf bp
  let take := min (k.round_page size - t.b_bufsize) x.b_bufsize
  let n := x.pages.length - take / k.page_size
  let left := x.b_bufsize - take
  let x' := { x with
    pages := x.pages.take n
    b_bufsize := left
    b_bcount := min x.b_bcount left
    b_flags := { x.b_flags with B_INVAL := x.b_flags.B_INVAL || decide (left = 0) } }
  let t' := { t with
    pages := t.pages ++ x.pages.drop n
    b_bufsize := t.b_bufsize + take }
  ((s.setBuf bp x').setBuf tp t').setPc a (.brelse bp (.alloc tp size c))

end Allocbuf

section Write

/-- SRC: vfs/vfs_bio.c:352-376 -/
def bwriteStep (bp : B) (n : Next B V) : Option (State T B V H) :=
  let x := s.buf bp
  let f := x.b_flags
  let s := s.setFlags bp { f with
    B_READ := false
    B_ERROR := false
    B_DELWRI := false
    B_AGE := f.B_AGE || (f.B_ASYNC && f.B_DELWRI) }
  if x.b_bufsize < x.b_bcount then none
  else (if f.B_DELWRI then s.reassignbuf bp x.b_vp else some s).map fun s => s.setPc a (.output bp n)

/-- The driver gets the buffer.  If it is not waited for, it is given away.
SRC: vfs/vfs_bio.c:377-424 -/
def outputStep (bp : B) (n : Next B V) : Option (State T B V H) :=
  (s.buf bp).b_vp.map fun vp =>
    let s := s.setBuf bp { s.buf bp with b_iocomplete := false }
    let s := { s with
      v_numoutput := update s.v_numoutput vp (s.v_numoutput vp + 1)
      io := update s.io bp (some (.write vp)) }
    if (s.buf bp).b_flags.B_ASYNC then
      ((s.lock bp (.intr bp)).setPc (.intr bp) (.io bp)).setPc a n.pc
    else s.setPc a (.biowait bp n)

/-- The driver is done with a buffer.  SRC: vfs/vfs_bio.c:929-1003 -/
def biodone (bp : B) (error : Bool) : Option (State T B V H) :=
  let x := s.buf bp
  if s.io bp = none ∨ x.b_iocomplete then none
  else
    let s := { s with
      io := update s.io bp none
      v_numoutput := match x.b_flags.B_READ, x.b_vp with
        | false, some vp => update s.v_numoutput vp (s.v_numoutput vp - 1)
        | _, _ => s.v_numoutput }
    let s := s.setBuf bp { x with
      b_iocomplete := true
      b_flags := { x.b_flags with B_ERROR := x.b_flags.B_ERROR || error } }
    some (if x.b_flags.B_ASYNC then (s.lock bp (.intr bp)).setPc (.intr bp) (.brelse bp .ret) else s)

/-- A buffer that had an asynchronous write error becomes dirty, and one that had a synchronous one
marks its vnode.  SRC: vfs/vfs_bio.c:504-536 -/
def keepError (bp : B) : Option (State T B V H) :=
  let x := s.buf bp
  let f := x.b_flags
  let f := { f with B_ERROR := f.B_ERROR && !f.B_LOCKED }
  let s := s.setFlags bp f
  if f.B_ERROR && !(f.B_READ || f.B_INVAL || f.B_NOCACHE) && 0 < x.b_bufsize then
    if f.B_ASYNC then
      (s.setFlags bp { f with B_ERROR := false, B_DELWRI := true }).reassignbuf bp x.b_rvp
    else x.b_vp.map fun vp => { s with vioerror := update s.vioerror vp true }
  else some s

/-- A buffer that is no longer valid is disassociated, and where it goes is found out.
SRC: vfs/vfs_bio.c:538-568 -/
def discard (bp : B) (had_error : Bool) (n : Next B V) : State T B V H :=
  let x := s.buf bp
  let f : Flags := { x.b_flags with
    B_INVAL := x.b_flags.B_INVAL || x.b_flags.B_NOCACHE || x.b_flags.B_ERROR }
  let gone := decide (x.b_bufsize = 0) || f.B_ERROR || f.B_INVAL
  let q : Queue := if x.b_bufsize = 0 then .BQ_EMPTY
    else if f.B_ERROR ∨ f.B_INVAL then .BQ_AGE
    else if f.B_LOCKED ∨ f.B_DELWRI then .BQ_LOCKED else .BQ_LRU
  let s := if gone ∧ x.b_vp ≠ none then s.brelvp bp else s
  (s.setFlags bp { f with
    B_DELWRI := f.B_DELWRI && !gone
    B_ASYNC := false
    B_AGE := false
    B_NOCACHE := false }).setPc a (.free bp q gone had_error n)

/-- SRC: vfs/vfs_bio.c:478-568 -/
def brelseStep (bp : B) (n : Next B V) : Option (State T B V H) :=
  let f := (s.buf bp).b_flags
  let had_error := f.B_ERROR && !f.B_LOCKED && !(f.B_READ || f.B_INVAL || f.B_NOCACHE) &&
    0 < (s.buf bp).b_bufsize && f.B_ASYNC
  (s.keepError bp).map fun s => s.discard a bp had_error n

/-- The buffer is put on a free list and unlocked.  SRC: vfs/vfs_bio.c:569-590 -/
def freeStep (bp : B) (q : Queue) (inshead had_error : Bool) (n : Next B V) : State T B V H :=
  let f := (s.buf bp).b_flags
  (((s.setFlags bp { f with B_ERROR := f.B_ERROR || had_error }).binsfree bp q inshead).unlock bp).setPc
    a n.pc

end Write

section Flush

/-- The errors of the dirty buffers of a vnode that are not locked are cleared.
SRC: vfs/vfs_bio.c:1163-1172 and 1355-1364 -/
def clearErrors (vp : V) : State T B V H :=
  { s with
    buf := fun b =>
      let x := s.buf b
      if b ∈ s.blkhd (vp, true) ∧ s.owner b = none then
        { x with b_flags := { x.b_flags with B_ERROR := false } }
      else x }

/-- A dirty buffer is written, or there is none that can be.
SRC: vfs/vfs_bio.c:1178-1231 -/
def vflushStep (vp : V) (sync : Bool) : Option B → Option (State T B V H)
  | none => some (s.setPc a (if sync then .vwait vp else .idle))
  | some bp =>
    let x := s.buf bp
    if s.owner bp ≠ none ∨ bp ∉ s.blkhd (vp, true) ∨ x.b_flags.B_ERROR then none
    else
      let s := (s.lock bp a).bremfree bp
      some ((s.setFlags bp { x.b_flags with
        B_ASYNC := x.b_flags.B_ASYNC || x.b_vp = some vp || !sync }).setPc a
          (.bwrite bp (.vflush vp sync)))

/-- The next buffer of a list, or of the dirty and the clean one.
SRC: vfs/vfs_bio.c:1365-1374 -/
def vinvalStep (vp : V) (save : Bool) (dirty : ℤ) (list : Bool) : State T B V H :=
  match s.blkhd (vp, list), s.blkhd (vp, true), s.blkhd (vp, false) with
  | bp :: _, _, _ => s.setPc a (.vlock vp save dirty list bp)
  | [], bp :: _, _ => s.setPc a (.vlock vp save dirty true bp)
  | [], [], bp :: _ => s.setPc a (.vlock vp save dirty false bp)
  | [], [], [] => s.setPc a (.vdone vp dirty)

/-- SRC: vfs/vfs_bio.c:1375-1425 -/
def vlockStep (vp : V) (save : Bool) (dirty : ℤ) (list : Bool) (bp : B) : Option (State T B V H) :=
  let x := s.buf bp
  let f := x.b_flags
  if s.owner bp ≠ none then none
  else if (s.blkhd (vp, list)).head? ≠ some bp then some (s.setPc a (.vinval vp save dirty list))
  else
    let s := (s.lock bp a).bremfree bp
    if save ∧ f.B_DELWRI ∧ ¬f.B_ERROR then
      some ((s.setFlags bp { f with B_ASYNC := true }).setPc a (.bwrite bp (.vinval vp save (dirty + 1) list)))
    else
      let failed := save && f.B_DELWRI
      let s := if failed then { s with vioerror := update s.vioerror vp true } else s
      let dirty := if failed then dirty - 1 else dirty
      (if x.b_vp ≠ some vp then s.reassignbuf bp x.b_vp
        else some (s.setFlags bp { f with B_INVAL := true })).map fun s =>
          s.setPc a (.brelse bp (.vinval vp save dirty list))

end Flush

/-- A thread or an interrupt goes on. -/
def run (choice : Option B) : Option (State T B V H) :=
  match s.pc a with
  | .idle => none
  | .search vp blkno size => some (s.searchStep k a vp blkno size)
  | .lock vp blkno size bp => s.lockStep a vp blkno size bp
  | .getnewbuf c => s.getnewbufStep a c choice
  | .reset bp c => some (s.resetStep a bp c)
  | .assign vp blkno size stamp bp => s.assignStep a vp blkno size stamp bp
  | .insert vp blkno size stamp bp => some (s.insertStep k a vp blkno size stamp bp)
  | .got _ _ _ _ => some (s.setPc a .idle)
  | .alloc tp size c => s.allocStep k a tp size c choice
  | .grow tp size c bp => some (s.growStep k a tp size c bp)
  | .shrunk tp size c => some (s.allocated a tp size c)
  | .bwrite bp n => s.bwriteStep a bp n
  | .output bp n => s.outputStep a bp n
  | .io _ => none
  | .biowait bp n => if (s.buf bp).b_iocomplete then some (s.setPc a (.brelse bp n)) else none
  | .breadwait bp => if (s.buf bp).b_iocomplete then some (s.setPc a .idle) else none
  | .brelse bp n => s.brelseStep a bp n
  | .free bp q inshead had_error n => some (s.freeStep a bp q inshead had_error n)
  | .vflush vp sync => s.vflushStep a vp sync choice
  | .vwait vp => if s.v_numoutput vp = 0 then some (s.setPc a .idle) else none
  | .vinval vp save dirty list => some (s.vinvalStep a vp save dirty list)
  | .vlock vp save dirty list bp => s.vlockStep a vp save dirty list bp
  | .vdone vp dirty =>
    if dirty = 0 ∨ s.v_numoutput vp = 0 then some (s.setPc a .idle) else none

end State

section Runs

variable {T B V H : Type} [DecidableEq T] [DecidableEq B] [DecidableEq V] [DecidableEq H]

/-- What a thread calls. -/
inductive Op (B V : Type) where
  | getblk (vp : V) (blkno : ℤ) (size : ℕ)
  | geteblk (size : ℕ)
  | read (bp : B) (async : Bool)
  | bwrite (bp : B)
  | bawrite (bp : B)
  | bdwrite (bp : B) (vp : V)
  | brelse (bp : B)
  | allocbuf (bp : B) (size : ℕ)
  | vflushbuf (vp : V) (sync : Bool)
  | vinvalbuf (vp : V) (save : Bool)

/-- The buffer that a thread calls a function for, which it has to hold. -/
def Op.buffer : Op B V → Option B
  | getblk _ _ _ => none
  | geteblk _ => none
  | read bp _ => some bp
  | bwrite bp => some bp
  | bawrite bp => some bp
  | bdwrite bp _ => some bp
  | brelse bp => some bp
  | allocbuf bp _ => some bp
  | vflushbuf _ _ => none
  | vinvalbuf _ _ => none

namespace State

variable (k : Config V H) (a : Agent T B) (s : State T B V H)

/-- The read that `bread` and `breada` start when the contents are not there.
SRC: vfs/vfs_bio.c:193-204 and 283-299 -/
def startRead (bp : B) (async : Bool) : Option (State T B V H) :=
  let x := s.buf bp
  if x.b_iocomplete ∨ x.b_bufsize < x.b_bcount then none
  else
    let s := s.setFlags bp { x.b_flags with
      B_READ := true
      B_ASYNC := x.b_flags.B_ASYNC || async }
    let s := { s with io := update s.io bp (some .read) }
    some (if async then (s.lock bp (.intr bp)).setPc (.intr bp) (.io bp)
      else s.setPc a (.breadwait bp))

/-- SRC: vfs/vfs_bio.c:441-460 -/
def bdwrite (bp : B) (vp : V) : Option (State T B V H) :=
  let x := s.buf bp
  let s' := if x.b_flags.B_DELWRI then some s
    else (s.setFlags bp { x.b_flags with B_DELWRI := true }).reassignbuf bp (some vp)
  match s', x.b_vp with
  | some s, some v =>
    let y := s.buf bp
    if k.tape v then
      some ((s.setFlags bp { y.b_flags with B_ASYNC := true }).setPc a (.bwrite bp .ret))
    else
      some ((s.setBuf bp { y with
        b_flags := { y.b_flags with B_DELWRI := true }
        b_iocomplete := true }).setPc a (.brelse bp .ret))
  | _, _ => none

/-- A thread calls a function. -/
def call (t : T) (op : Op B V) : Option (State T B V H) :=
  let a := Agent.thread t
  if s.pc a ≠ .idle ∨ ∃ bp ∈ op.buffer, s.owner bp ≠ some a then none
  else
    match op with
    | .getblk vp blkno size =>
      if MAXBSIZE < size then none else some (s.setPc a (.search vp blkno size))
    | .geteblk size =>
      if MAXBSIZE < size then none else some (s.setPc a (.getnewbuf (.geteblk size)))
    | .read bp async => s.startRead a bp async
    | .bwrite bp => some (s.setPc a (.bwrite bp .ret))
    | .bawrite bp =>
      some ((s.setFlags bp { (s.buf bp).b_flags with B_ASYNC := true }).setPc a (.bwrite bp .ret))
    | .bdwrite bp vp => s.bdwrite k a bp vp
    | .brelse bp => some (s.setPc a (.brelse bp .ret))
    | .allocbuf bp size => some (s.setPc a (.alloc bp size .ret))
    | .vflushbuf vp sync => some ((s.clearErrors vp).setPc a (.vflush vp sync))
    | .vinvalbuf vp save => some ((s.clearErrors vp).setPc a (.vinval vp save 0 true))

end State

/-- What happens to the cache: a call, a step, with the buffer that is taken if one is, or the end of the
I/O on a buffer. -/
inductive Event (T B V : Type) where
  | call (t : T) (op : Op B V)
  | run (a : Agent T B) (choice : Option B)
  | done (bp : B) (error : Bool)

def step (k : Config V H) (s : State T B V H) : Event T B V → Option (State T B V H)
  | .call t op => s.call k t op
  | .run a choice => s.run k a choice
  | .done bp error => s.biodone bp error

end Runs

end Steps

end Osf1.Bio
