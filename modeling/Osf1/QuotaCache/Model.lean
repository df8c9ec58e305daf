import Osf1.Computation.CircularList
import Osf1.Computation.Transition
import Osf1.Quota.Model

/-!
# The cache of dquots

A dquot in use is on a hash chain, and the ones that nobody refers to are on the free list as well,
from which `dqget` takes them for other identifiers.  A state has the calls in progress, each in
front of its next section, and `refs`, the references that `dqget` has handed out and that have not
been given back.  The quota file is read and written between the sections.  The lock of a dquot is
left out, which only lets more runs be.
-/

set_option autoImplicit false

namespace Osf1.QuotaCache

open Function List

section Model

open Osf1.Computation Osf1.Quota

abbrev Vnode := BitVec 64

/-- What a link is to: the header of a list, a dquot, or nothing.  A link `dq_freef` to the header
of the free list is `NODQUOT`, and a link `dq_freeb` to it is `&dqfreel`. -/
inductive Link (α : Type)
  | head (a : α)
  | dquot (q : ℕ)
  | null
deriving DecidableEq

/-- SRC: ufs/quota.h:152-164 -/
structure Dquot where
  dq_readerror : Bool
  dq_cnt : ℤ
  dq_type : QuotaType
  dq_id : u_int
  dq_ump : Option ℕ
  dq_hash : ℕ

/-- What is asked of `dqget`, with the vnode of the quota file that it finds. -/
structure Get where
  id : u_int
  ump : ℕ
  type : QuotaType
  dqvp : Vnode
deriving DecidableEq

/-- A call in progress, in front of
- the search at `again`;
- the lock of the dquot it has found;
- the search for a dquot to use, with the time stamp it has seen;
- the insertion of the dquot it builds;
- the result of the read;
- the two sections of `dqput`, after which it ends or starts again. -/
inductive Call
  | look (g : Get)
  | found (g : Get) (q : ℕ)
  | missed (g : Get) (otimestamp : ℕ)
  | building (g : Get) (otimestamp q : ℕ)
  | reading (g : Get) (q : ℕ)
  | putting (q : ℕ) (again : Option Get)
  | dropping (q : ℕ) (again : Option Get)
deriving DecidableEq

/-- The chains and the free list, the dquots, the quota files of the mount points, and the calls.
`dqh_timestamp` is not reduced to a `u_int`; the comparison does it.  `flushing` is for the holder
of the write lock of a mount point that runs `dqflush`: the quota file it is for, and how many
chains are left.
SRC: ufs/ufs_quota.c:1155-1186 -/
structure Cache where
  dq_forw : Link ℕ → Link ℕ
  dq_back : Link ℕ → Link ℕ
  dqh_timestamp : ℕ → ℕ
  dq_freef : Link Unit → Link Unit
  dq_freeb : Link Unit → Link Unit
  dquot : ℕ → Dquot
  numdquot : ℕ
  desireddquot : ℕ
  um_quotas : ℕ → QuotaType → Option Vnode
  flushing : ℕ → Option (QuotaType × ℕ)
  refs : ℕ → ℕ
  calls : List Call

def DQUOTINC : ℕ := 5

/-- A dquot as `bzero` leaves it. -/
def zeroDquot : Dquot := ⟨false, 0, .USRQUOTA, 0, none, 0⟩

/-- The headers lead to themselves, and there are no dquots.
SRC: ufs/ufs_quota.c:1214-1243 -/
def dqinit : Cache where
  dq_forw
    | .head h => .head h
    | _ => .null
  dq_back
    | .head h => .head h
    | _ => .null
  dqh_timestamp _ := 0
  dq_freef _ := .head ()
  dq_freeb
    | .head _ => .head ()
    | _ => .null
  dquot _ := zeroDquot
  numdquot := 0
  desireddquot := DQUOTINC
  um_quotas _ _ := none
  flushing _ := none
  refs _ := 0
  calls := []

/-- `++` and `--` on a `short`. -/
def incShort (n : ℤ) : ℤ := if n = 32767 then -32768 else n + 1

def decShort (n : ℤ) : ℤ := if n = -32768 then 32767 else n - 1

/-- The hash chain of an identifier. -/
def dqhashOf (dqhash : u_int) (dqvp : Vnode) (id : u_int) : ℕ :=
  (((dqvp.setWidth 32).sshiftRight 8 + id) &&& dqhash).toNat

namespace Cache

section Links

variable (s : Cache) (q : ℕ)

def setDquot (d : Dquot) : Cache := { s with dquot := update s.dquot q d }

/-- SRC: kern/queue.c:156-162 -/
def remque : Cache :=
  { s with
    dq_forw := unlinkNext s.dq_forw s.dq_back (.dquot q)
    dq_back := unlinkPrev s.dq_forw s.dq_back (.dquot q) }

/-- Insert in front of the first one.  To the links backward this is the end of the list.
SRC: kern/queue.c:146-154 -/
def insque (h : ℕ) : Cache :=
  { s with
    dq_forw := linkPrev s.dq_forw (.head h) (.dquot q)
    dq_back := linkNext s.dq_back s.dq_forw (.head h) (.dquot q) }

/-- On a private, unfindable hash.
SRC: ufs/ufs_quota.c:1436-1437 and 1604-1605 -/
def selfLink : Cache :=
  { s with
    dq_forw := update s.dq_forw (.dquot q) (.dquot q)
    dq_back := update s.dq_back (.dquot q) (.dquot q) }

/-- Take the structure off the free list.
SRC: ufs/ufs_quota.c:1300-1305 and 1340-1345 -/
def unfree : Cache :=
  { s with
    dq_freef := unlinkNext s.dq_freef s.dq_freeb (.dquot q)
    dq_freeb := unlinkPrev s.dq_freef s.dq_freeb (.dquot q) }

/-- Where the free list ends. -/
def freeEnd : Link Unit :=
  if s.dq_freef (.head ()) ≠ .head () then s.dq_freeb (.head ()) else .head ()

/-- SRC: ufs/ufs_quota.c:1519-1527 -/
def appendFree : Cache :=
  { s with
    dq_freef := update (update s.dq_freef s.freeEnd (.dquot q)) (.dquot q) (.head ())
    dq_freeb := update (update s.dq_freeb (.dquot q) s.freeEnd) (.head ()) (.dquot q) }

/-- A call goes on, or it ends. -/
def become (c : Call) (c' : List Call) : Cache := { s with calls := c' ++ s.calls.erase c }

end Links

section Search

variable (s : Cache)

/-- Whether a dquot is the one asked for.
SRC: ufs/ufs_quota.c:1290-1292 and 1395-1397 -/
def isFor (g : Get) (q : ℕ) : Bool :=
  decide ((s.dquot q).dq_id = g.id ∧ (s.dquot q).dq_ump = some g.ump ∧
    s.um_quotas g.ump (s.dquot q).dq_type = some g.dqvp)

/-- Along a chain to the first one that is asked for.  There is no answer for a chain that does not
lead back to its header.
SRC: ufs/ufs_quota.c:1283-1293 and 1393-1398 -/
def searchFrom (g : Get) (h : ℕ) : ℕ → Link ℕ → Option (Option ℕ)
  | 0, _ => none
  | _ + 1, .null => none
  | _ + 1, .head h' => if h' = h then some none else none
  | fuel + 1, .dquot q =>
    if s.isFor g q then some (some q) else searchFrom g h fuel (s.dq_forw (.dquot q))

def search (g : Get) (h : ℕ) : Option (Option ℕ) := s.searchFrom g h (s.numdquot + 1) (s.dq_forw (.head h))

/-- Whether the loop over the free list comes to a dquot.
SRC: ufs/ufs_quota.c:1337 -/
def freeFrom (q : ℕ) : ℕ → Link Unit → Bool
  | fuel + 1, .dquot q' => decide (q' = q) || freeFrom q fuel (s.dq_freef (.dquot q'))
  | _, _ => false

def onFree (q : ℕ) : Bool := s.freeFrom q s.numdquot (s.dq_freef (.head ()))

/-- Along a chain, off which the dquots of the file are taken.  There is no answer either for
`panic("dqflush: stray dquot")`.
SRC: ufs/ufs_quota.c:1595-1607 -/
def flushFrom (ump : ℕ) (vp : Vnode) (h : ℕ) : ℕ → Link ℕ → Cache → Option Cache
  | 0, _, _ => none
  | _ + 1, .null, _ => none
  | _ + 1, .head h', s => if h' = h then some s else none
  | fuel + 1, .dquot q, s =>
    let next := s.dq_forw (.dquot q)
    if (s.dquot q).dq_ump = some ump ∧ s.um_quotas ump (s.dquot q).dq_type = some vp then
      if (s.dquot q).dq_cnt ≠ 0 then none
      else
        flushFrom ump vp h fuel next
          (((s.remque q).selfLink q).setDquot q { s.dquot q with dq_ump := none })
    else flushFrom ump vp h fuel next s

end Search

end Cache

/-- The sections of the calls, and what happens between them:
- `dqget`: a call begins, for a quota file that it finds;
- `search`: the search at `again`;
- `lock`: the dquot lock has been taken after a hit;
- `allocate`, `desire`, `reuse`, `tablefull`: a new dquot, more of them, one of the free list whose
  chain is not locked, and none;
- `hash`: the new dquot is initialized, and inserted unless a similar one has been;
- `read`: the quota file has been read, with or without an error;
- `put`, `drop`: the sections of `dqput`;
- `dqrele`: a reference is given back;
- `quotaon`, `quotaoff`, `flush`, `off`: the quota file of a mount point is set, and it is cleared
  after each chain has been flushed. -/
inductive Event
  | dqget (g : Get)
  | search (g : Get)
  | lock (g : Get) (q : ℕ)
  | allocate (g : Get) (ots : ℕ)
  | desire (g : Get) (ots : ℕ)
  | reuse (g : Get) (ots q : ℕ)
  | tablefull (g : Get) (ots : ℕ)
  | hash (g : Get) (ots q : ℕ)
  | read (g : Get) (q : ℕ) (error : Bool)
  | put (q : ℕ) (again : Option Get)
  | drop (q : ℕ) (again : Option Get)
  | dqrele (q : ℕ)
  | quotaon (ump : ℕ) (type : QuotaType) (vp : Vnode)
  | quotaoff (ump : ℕ) (type : QuotaType)
  | flush (ump : ℕ)
  | off (ump : ℕ)

/-- What a call of `dqget` is for. -/
def Call.get? : Call → Option Get
  | .look g | .found g _ | .missed g _ | .building g _ _ | .reading g _ => some g
  | .putting _ again | .dropping _ again => again

section Sections

variable (dqhash : u_int) (MAXDQUOT : ℕ) (s : Cache)

/-- No `dqget` of a mount point is in progress, nor a `dqflush`: the lock of the mount point can be
taken for writing. -/
def Cache.Quiet (ump : ℕ) : Prop := (∀ c ∈ s.calls, ∀ g ∈ c.get?, g.ump ≠ ump) ∧ s.flushing ump = none

instance (ump : ℕ) : Decidable (s.Quiet ump) := by
  unfold Cache.Quiet
  infer_instance

/-- The hash chain that a call looks at. -/
def Get.dh (g : Get) : ℕ := dqhashOf dqhash g.dqvp g.id

/-- Check the cache first.
SRC: ufs/ufs_quota.c:1281-1321 -/
def dqgetSearch (g : Get) : Option Cache :=
  match s.search g (g.dh dqhash) with
  | none => none
  | some (some q) =>
    let s' := if (s.dquot q).dq_cnt = 0 then s.unfree q else s
    let d := s.dquot q
    some ((s'.setDquot q { d with dq_cnt := incShort d.dq_cnt }).become (.look g) [.found g q])
  | some none =>
    some (s.become (.look g) [.missed g (s.dqh_timestamp (g.dh dqhash))])

/-- SRC: ufs/ufs_quota.c:1310-1317 -/
def dqgetLock (g : Get) (q : ℕ) : Cache :=
  if (s.dquot q).dq_readerror then s.become (.found g q) [.putting q none]
  else { s.become (.found g q) [] with refs := update s.refs q (s.refs q + 1) }

/-- A dquot that has been allocated.
SRC: ufs/ufs_quota.c:1325-1331 -/
def dqgetAllocate (g : Get) (ots : ℕ) : Option Cache :=
  if s.numdquot < s.desireddquot then
    some { (s.setDquot s.numdquot zeroDquot).become (.missed g ots) [.building g ots s.numdquot] with
      numdquot := s.numdquot + 1 }
  else none

/-- More dquots are desired, when there is no free one, or when the chains of all of them are locked.
SRC: ufs/ufs_quota.c:1333-1336 and 1353-1357 -/
def dqgetDesire : Option Cache :=
  if s.desireddquot ≤ s.numdquot ∧ s.numdquot < MAXDQUOT then
    some { s with desireddquot := min (s.desireddquot + DQUOTINC) MAXDQUOT }
  else none

/-- A dquot of the free list.
SRC: ufs/ufs_quota.c:1337-1351 -/
def dqgetReuse (g : Get) (ots q : ℕ) : Cache := ((s.unfree q).remque q).become (.missed g ots) [.building g ots q]

/-- SRC: ufs/ufs_quota.c:1352-1361 -/
def dqgetTablefull (g : Get) (ots : ℕ) : Option Cache :=
  if MAXDQUOT ≤ s.numdquot then some (s.become (.missed g ots) []) else none

/-- The contents of the new dquot. -/
def Get.dquot (g : Get) (d : Dquot) : Dquot where
  dq_readerror := false
  dq_cnt := incShort d.dq_cnt
  dq_type := g.type
  dq_id := g.id
  dq_ump := some g.ump
  dq_hash := g.dh dqhash

/-- Insert the new dquot, unless there is a collision.
SRC: ufs/ufs_quota.c:1374-1411 -/
def dqgetHash (g : Get) (ots q : ℕ) : Option Cache :=
  let h := g.dh dqhash
  let t := s.setDquot q (g.dquot dqhash (s.dquot q))
  let insert : Cache := { (t.insque q h).become (.building g ots q) [.reading g q] with
    dqh_timestamp := update t.dqh_timestamp h (t.dqh_timestamp h + 1) }
  if ots % 2 ^ 32 ≠ t.dqh_timestamp h % 2 ^ 32 then
    match t.search g h with
    | none => none
    | some (some _) => some (t.become (.building g ots q) [.putting q (some g)])
    | some none => some insert
  else some insert

/-- After the read.
SRC: ufs/ufs_quota.c:1430-1443 and 1463-1465 -/
def dqgetRead (g : Get) (q : ℕ) (error : Bool) : Cache :=
  if error then
    let t := (s.remque q).selfLink q
    (t.setDquot q { s.dquot q with dq_readerror := true, dq_hash := 0 }).become (.reading g q)
      [.putting q none]
  else { s.become (.reading g q) [] with refs := update s.refs q (s.refs q + 1) }

/-- Whether the call starts again. -/
def resume (again : Option Get) : List Call := again.toList.map .look

/-- The first section of `dqput`.
SRC: ufs/ufs_quota.c:1495-1502 -/
def dqputFirst (q : ℕ) (again : Option Get) : Cache :=
  if 1 < (s.dquot q).dq_cnt then
    (s.setDquot q { s.dquot q with dq_cnt := decShort (s.dquot q).dq_cnt }).become
      (.putting q again) (resume again)
  else s.become (.putting q again) [.dropping q again]

/-- The second section of `dqput`.
SRC: ufs/ufs_quota.c:1509-1530 -/
def dqputLast (q : ℕ) (again : Option Get) : Cache :=
  let t := s.setDquot q { s.dquot q with dq_cnt := decShort (s.dquot q).dq_cnt }
  if 0 < (t.dquot q).dq_cnt then t.become (.dropping q again) (resume again)
  else (t.appendFree q).become (.dropping q again) (resume again)

/-- One chain of `dqflush`.
SRC: ufs/ufs_quota.c:1593-1609 -/
def dqflushChain (ump : ℕ) : Option Cache :=
  match s.flushing ump with
  | some (type, h + 1) =>
    match s.um_quotas ump type with
    | none => none
    | some vp =>
      (Cache.flushFrom ump vp h (s.numdquot + 1) (s.dq_forw (.head h)) s).map fun t =>
        { t with flushing := update t.flushing ump (some (type, h)) }
  | _ => none

/-- The quota file is set, or it is cleared. -/
def Cache.setQuota (ump : ℕ) (type : QuotaType) (vp : Option Vnode) : Cache :=
  { s with
    um_quotas := update s.um_quotas ump (update (s.um_quotas ump) type vp) }

/-- One section of a call. -/
def step : Event → Option Cache
  | .dqget g =>
    if s.um_quotas g.ump g.type = some g.dqvp ∧ s.flushing g.ump = none then
      some { s with calls := .look g :: s.calls }
    else none
  | .search g => if .look g ∈ s.calls then dqgetSearch dqhash s g else none
  | .lock g q => if .found g q ∈ s.calls then some (dqgetLock s g q) else none
  | .allocate g ots => if .missed g ots ∈ s.calls then dqgetAllocate s g ots else none
  | .desire g ots => if .missed g ots ∈ s.calls then dqgetDesire MAXDQUOT s else none
  | .reuse g ots q =>
    if .missed g ots ∈ s.calls ∧ s.desireddquot ≤ s.numdquot ∧ s.onFree q then
      some (dqgetReuse s g ots q)
    else none
  | .tablefull g ots => if .missed g ots ∈ s.calls then dqgetTablefull MAXDQUOT s g ots else none
  | .hash g ots q => if .building g ots q ∈ s.calls then dqgetHash dqhash s g ots q else none
  | .read g q error => if .reading g q ∈ s.calls then some (dqgetRead s g q error) else none
  | .put q again => if .putting q again ∈ s.calls then some (dqputFirst s q again) else none
  | .drop q again => if .dropping q again ∈ s.calls then some (dqputLast s q again) else none
  | .dqrele q =>
    if 0 < s.refs q then
      some { s with
        refs := update s.refs q (s.refs q - 1)
        calls := .putting q none :: s.calls }
    else none
  | .quotaon ump type vp =>
    if s.um_quotas ump type = none ∧ s.Quiet ump then some (s.setQuota ump type (some vp))
    else none
  | .quotaoff ump type =>
    if s.um_quotas ump type ≠ none ∧ s.Quiet ump then
      some { s with flushing := update s.flushing ump (some (type, dqhash.toNat + 1)) }
    else none
  | .flush ump => dqflushChain s ump
  | .off ump =>
    match s.flushing ump with
    | some (type, 0) =>
      some { s.setQuota ump type none with flushing := update s.flushing ump none }
    | _ => none

end Sections

end Model

/-!
## The links of the chains and of the free list

What the operations on the links do to the lists, and what the loops over the lists find.
-/

section Links

open Osf1.Computation Osf1.Quota

/-- The links are those of the chains and of the free list. -/
structure Linked (s : Cache) (chain : ℕ → List ℕ) (free : List ℕ) : Prop where
  chains : ∀ h, Circular s.dq_forw s.dq_back (.head h) ((chain h).map .dquot)
  frees : Circular s.dq_freef s.dq_freeb (.head ()) (free.map .dquot)
  apart : ∀ h h' q, q ∈ chain h → q ∈ chain h' → h = h'

/-- A dquot is self-linked. -/
def Alone (s : Cache) (q : ℕ) : Prop := s.dq_forw (.dquot q) = .dquot q ∧ s.dq_back (.dquot q) = .dquot q

variable {s : Cache} {chain : ℕ → List ℕ} {free : List ℕ} {q q' h h' : ℕ}

theorem dquot_mem_cons {α : Type} {a : α} {l : List ℕ} :
    Link.dquot q ∈ Link.head a :: l.map Link.dquot ↔ q ∈ l := by
  simp

theorem nodup_of_circular {α : Type} {next prev : Link α → Link α} {a : α} {l : List ℕ}
    (hl : Circular next prev (.head a) (l.map .dquot)) : l.Nodup :=
  (nodup_cons.mp hl.nodup).2.of_map _

namespace Linked

theorem chain_nodup (hs : Linked s chain free) (h : ℕ) : (chain h).Nodup := nodup_of_circular (hs.chains h)

theorem free_nodup (hs : Linked s chain free) : free.Nodup := nodup_of_circular hs.frees

theorem disjoint (hs : Linked s chain free) (hne : h ≠ h') :
    (Link.head h :: (chain h).map Link.dquot).Disjoint
      (Link.head h' :: (chain h').map Link.dquot) := by
  intro x hx hx'
  cases x with
  | head k => simp_all
  | dquot q => exact hne (hs.apart h h' q (dquot_mem_cons.mp hx) (dquot_mem_cons.mp hx'))
  | null => simp at hx

end Linked

section Splitting

variable {α : Type} [DecidableEq α] {next prev : Link α → Link α} {a : α} {l : List ℕ}

theorem circular_erase (hl : Circular next prev (.head a) (l.map .dquot)) (hq : q ∈ l) :
    Circular (unlinkNext next prev (.dquot q)) (unlinkPrev next prev (.dquot q)) (.head a)
      ((l.erase q).map .dquot) := by
  have hnodup := nodup_of_circular hl
  obtain ⟨l₁, l₂, rfl⟩ := append_of_mem hq
  have hnot : q ∉ l₁ := fun hmem =>
    (nodup_append.mp hnodup).2.2 q hmem q (mem_cons_self ..) rfl
  rw [erase_append_right _ hnot, erase_cons_head, map_append]
  rw [map_append, map_cons] at hl
  exact hl.unlink

end Splitting

section Operations

theorem Linked.remque (hs : Linked s chain free) (hq : q ∈ chain h) :
    Linked (s.remque q) (update chain h ((chain h).erase q)) free where
  chains h' := by
    by_cases hh : h' = h
    · subst hh
      rw [update_self]
      exact circular_erase (hs.chains h') hq
    · rw [update_of_ne hh]
      exact (hs.chains h).unlink_other (dquot_mem_cons.mpr hq) (hs.chains h') (hs.disjoint (Ne.symm hh))
  frees := hs.frees
  apart h₁ h₂ x hx₁ hx₂ := by
    have hsub (k : ℕ) (hk : x ∈ update chain h ((chain h).erase q) k) : x ∈ chain k := by
      by_cases hkh : k = h
      · subst hkh
        rw [update_self] at hk
        exact mem_of_mem_erase hk
      · rwa [update_of_ne hkh] at hk
    exact hs.apart h₁ h₂ x (hsub h₁ hx₁) (hsub h₂ hx₂)

theorem Alone.remque (hq : Alone s q) : s.remque q = s := by
  unfold Cache.remque unlinkNext unlinkPrev
  rw [hq.1, hq.2]
  congr 1
  · exact update_eq_self_iff.mpr hq.1.symm
  · exact update_eq_self_iff.mpr hq.2.symm

theorem Alone.remque_other (hq' : Alone s q') (hs : Linked s chain free) (hq : q ∈ chain h)
    (hnot : q' ∉ chain h) : Alone (s.remque q) q' := by
  have hmem := dquot_mem_cons (a := h) |>.mpr hq
  refine ⟨(unlinkNext_of_ne ?_).trans hq'.1, (unlinkPrev_of_ne ?_).trans hq'.2⟩
  · intro heq
    exact hnot (dquot_mem_cons.mp (heq ▸ (hs.chains h).prev_mem hmem))
  · intro heq
    exact hnot (dquot_mem_cons.mp (heq ▸ (hs.chains h).next_mem hmem))

theorem mem_update_cons {x : ℕ} (k : ℕ) : x ∈ update chain h (q :: chain h) k ↔ x ∈ chain k ∨ (k = h ∧ x = q) := by
  by_cases hk : k = h
  · subst hk
    simp [or_comm]
  · rw [update_of_ne hk]
    simp [hk]

theorem mem_update_erase (hs : Linked s chain free) {x : ℕ} (k : ℕ) :
    x ∈ update chain h ((chain h).erase q) k ↔ x ∈ chain k ∧ ¬(k = h ∧ x = q) := by
  by_cases hk : k = h
  · subst hk
    rw [update_self, (hs.chain_nodup k).mem_erase_iff]
    simp [and_comm]
  · rw [update_of_ne hk]
    simp [hk]

theorem Linked.insque (hs : Linked s chain free) (hq : ∀ h, q ∉ chain h) (h : ℕ) :
    Linked (s.insque q h) (update chain h (q :: chain h)) free where
  chains h' := by
    have hback (k : ℕ) : Circular s.dq_back s.dq_forw (.head k) ((chain k).map .dquot).reverse :=
      (hs.chains k).reverse
    have hmem (k : ℕ) :
        Link.dquot q ∉ Link.head k :: ((chain k).map Link.dquot).reverse := by
      simpa using hq k
    by_cases hh : h' = h
    · subst hh
      have hnew := ((hback h').link (hmem h')).reverse
      rw [reverse_append, reverse_reverse] at hnew
      rw [update_self]
      exact hnew
    · have hdisj : (Link.head h :: ((chain h).map Link.dquot).reverse).Disjoint
          (Link.head h' :: ((chain h').map Link.dquot).reverse) := by
        intro x hx hx'
        refine hs.disjoint (Ne.symm hh) (a := x) ?_ ?_
        · simpa using hx
        · simpa using hx'
      have hnew := ((hback h).link_other (hback h') (hmem h') hdisj).reverse
      rw [reverse_reverse] at hnew
      rw [update_of_ne hh]
      exact hnew
  frees := hs.frees
  apart h₁ h₂ x hx₁ hx₂ := by
    rw [mem_update_cons] at hx₁ hx₂
    rcases hx₁ with hx₁ | ⟨rfl, rfl⟩
    · rcases hx₂ with hx₂ | ⟨rfl, rfl⟩
      · exact hs.apart h₁ h₂ x hx₁ hx₂
      · exact absurd hx₁ (hq h₁)
    · rcases hx₂ with hx₂ | ⟨rfl, -⟩
      · exact absurd hx₂ (hq h₂)
      · rfl

theorem Alone.insque_other (hq' : Alone s q') (hs : Linked s chain free) (hne : q' ≠ q)
    (hnot : q' ∉ chain h) : Alone (s.insque q h) q' := by
  have hfirst : s.dq_forw (.head h) ≠ .dquot q' := by
    intro heq
    exact hnot (dquot_mem_cons.mp (heq ▸ (hs.chains h).next_mem (mem_cons_self ..)))
  have hdq : (Link.dquot q' : Link ℕ) ≠ .dquot q := fun heq => hne (Link.dquot.inj heq)
  have hhead : Link.dquot q' ≠ Link.head h := nofun
  exact ⟨(linkPrev_of_ne hhead hdq).trans hq'.1, (linkNext_of_ne hfirst.symm hdq).trans hq'.2⟩

theorem Linked.selfLink (hs : Linked s chain free) (hq : ∀ h, q ∉ chain h) : Linked (s.selfLink q) chain free where
  chains h := by
    have hne (u : Link ℕ) (hu : u ∈ Link.head h :: (chain h).map Link.dquot) : u ≠ .dquot q := by
      rintro rfl
      exact hq h (dquot_mem_cons.mp hu)
    exact (hs.chains h).congr (fun u hu => update_of_ne (hne u hu) ..)
      fun u hu => update_of_ne (hne u hu) ..
  frees := hs.frees
  apart := hs.apart

theorem alone_selfLink : Alone (s.selfLink q) q := ⟨update_self .., update_self ..⟩

theorem Alone.selfLink_other (hq' : Alone s q') : Alone (s.selfLink q) q' := by
  by_cases hne : q' = q
  · rw [hne]
    exact alone_selfLink
  · have hdq : (Link.dquot q' : Link ℕ) ≠ .dquot q := fun heq => hne (Link.dquot.inj heq)
    exact ⟨(update_of_ne hdq ..).trans hq'.1, (update_of_ne hdq ..).trans hq'.2⟩

theorem Linked.unfree (hs : Linked s chain free) (hq : q ∈ free) : Linked (s.unfree q) chain (free.erase q) where
  chains := hs.chains
  frees := circular_erase hs.frees hq
  apart := hs.apart

theorem Linked.freeEnd (hs : Linked s chain free) : s.freeEnd = s.dq_freeb (.head ()) := by
  unfold Cache.freeEnd
  split
  · rfl
  rename_i hempty
  have hnext := not_not.mp hempty
  cases free with
  | nil => exact (hs.frees.prev_anchor (l := []) rfl).symm
  | cons x l =>
    have hx : s.dq_freef (.head ()) = .dquot x := hs.frees.path.1.1
    exact absurd (hx.symm.trans hnext) nofun

theorem Linked.appendFree (hs : Linked s chain free) (hq : q ∉ free) :
    Linked (s.appendFree q) chain (free ++ [q]) where
  chains := hs.chains
  frees := by
    have hnot : Link.dquot q ∉ Link.head () :: free.map Link.dquot := fun hmem =>
      hq (dquot_mem_cons.mp hmem)
    have hlast : s.dq_freeb (.head ()) ≠ .dquot q := by
      intro heq
      exact hnot (heq ▸ hs.frees.prev_mem (mem_cons_self ..))
    have hnew := hs.frees.link hnot
    rw [map_append]
    unfold Cache.appendFree
    rw [hs.freeEnd]
    unfold linkNext linkPrev at hnew
    rw [update_comm hlast.symm] at hnew
    exact hnew
  apart := hs.apart

end Operations

section Loops

/-- Where the rest of a list starts. -/
def startOf {α : Type} (a : α) : List ℕ → Link α
  | [] => .head a
  | q :: _ => .dquot q

theorem next_eq_startOf {α : Type} {next prev : Link α → Link α} {a : α} {x : Link α} {l : List ℕ}
    (hl : Path next prev x (l.map .dquot) (.head a)) : next x = startOf a l := by
  cases l with
  | nil => exact hl.1
  | cons q l => exact hl.1.1

theorem next_dquot_eq {α : Type} {next prev : Link α → Link α} {a : α} {l l₁ l₂ : List ℕ}
    (hl : Circular next prev (.head a) (l.map .dquot)) (hsplit : l = l₁ ++ q :: l₂) :
    next (.dquot q) = startOf a l₂ := by
  have hpath := hl.path
  rw [hsplit, map_append, map_cons] at hpath
  exact next_eq_startOf (path_append.mp hpath).2

section

variable (hs : Linked s chain free)
include hs

theorem searchFrom_eq (g : Get) {u w : List ℕ} (hsplit : chain h = u ++ w) {fuel : ℕ} (hfuel : w.length < fuel) :
    s.searchFrom g h fuel (startOf h w) = some (w.find? (s.isFor g)) := by
  induction w generalizing u fuel with
  | nil =>
    cases fuel with
    | zero => cases hfuel
    | succ fuel => simp [startOf, Cache.searchFrom]
  | cons q w ih =>
    cases fuel with
    | zero => cases hfuel
    | succ fuel =>
      have hnext : s.dq_forw (.dquot q) = startOf h w := next_dquot_eq (hs.chains h) hsplit
      have hrest := @ih (u ++ [q]) (by simpa using hsplit) fuel (Nat.lt_of_succ_lt_succ hfuel)
      rw [startOf, Cache.searchFrom, hnext, find?_cons]
      cases s.isFor g q with
      | true => rfl
      | false => exact hrest

theorem search_eq (g : Get) (hlen : (chain h).length ≤ s.numdquot) :
    s.search g h = some ((chain h).find? (s.isFor g)) := by
  unfold Cache.search
  rw [next_eq_startOf (hs.chains h).path]
  exact searchFrom_eq (u := []) hs g rfl (Nat.lt_succ_of_le hlen)

theorem mem_of_freeFrom {u w : List ℕ} (hsplit : free = u ++ w)
    {fuel : ℕ} (hq : s.freeFrom q fuel (startOf () w) = true) : q ∈ w := by
  induction w generalizing u fuel with
  | nil =>
    cases fuel with
    | zero => cases hq
    | succ fuel => cases hq
  | cons x w ih =>
    cases fuel with
    | zero => cases hq
    | succ fuel =>
      have hnext : s.dq_freef (.dquot x) = startOf () w := next_dquot_eq hs.frees hsplit
      rw [startOf, Cache.freeFrom, hnext, Bool.or_eq_true, decide_eq_true_eq] at hq
      rcases hq with rfl | hq
      · exact mem_cons_self ..
      · exact mem_cons_of_mem _ (ih (u := u ++ [x]) (by simpa using hsplit) hq)

theorem mem_of_onFree (hq : s.onFree q) : q ∈ free := by
  unfold Cache.onFree at hq
  rw [next_eq_startOf hs.frees.path] at hq
  exact mem_of_freeFrom (u := []) hs rfl hq

end

/-- A dquot is of a quota file of a mount point. -/
def Cache.IsOf (s : Cache) (ump : ℕ) (vp : Vnode) (q : ℕ) : Prop :=
  (s.dquot q).dq_ump = some ump ∧ s.um_quotas ump (s.dquot q).dq_type = some vp

/-- What `dqflush` does with one dquot. -/
def Cache.expel (s : Cache) (q : ℕ) : Cache :=
  ((s.remque q).selfLink q).setDquot q { s.dquot q with dq_ump := none }

theorem flushFrom_spec {I : Cache → (ℕ → List ℕ) → Prop} {ump : ℕ} {vp : Vnode}
    (hlinked : ∀ s chain, I s chain → Linked s chain free)
    (hexpel : ∀ s chain q, I s chain → q ∈ chain h → s.IsOf ump vp q → (s.dquot q).dq_cnt = 0 →
      I (s.expel q) (update chain h ((chain h).erase q)))
    {t : Cache} {u w : List ℕ} {fuel : ℕ} (hs : I s chain) (hsplit : chain h = u ++ w)
    (hfront : ∀ q ∈ u, ¬s.IsOf ump vp q) (ht : Cache.flushFrom ump vp h fuel (startOf h w) s = some t) :
    ∃ chain', I t chain' ∧ ∀ q ∈ chain' h, ¬t.IsOf ump vp q := by
  induction w generalizing u fuel s chain with
  | nil =>
    cases fuel with
    | zero => cases ht
    | succ fuel =>
      rw [startOf, Cache.flushFrom, if_pos rfl, Option.some_inj] at ht
      rw [append_nil] at hsplit
      exact ⟨chain, ht ▸ hs, ht ▸ hsplit ▸ hfront⟩
  | cons q w ih =>
    cases fuel with
    | zero => cases ht
    | succ fuel =>
      have hlink := hlinked s chain hs
      have hnext : s.dq_forw (.dquot q) = startOf h w := next_dquot_eq (hlink.chains h) hsplit
      have hq : q ∈ chain h := by
        rw [hsplit]
        exact mem_append_right _ (mem_cons_self ..)
      rw [startOf, Cache.flushFrom, hnext] at ht
      split at ht
      · rename_i hof
        split at ht
        · cases ht
        rename_i hcnt
        have hnodup := hlink.chain_nodup h
        rw [hsplit, nodup_append] at hnodup
        have hnot : q ∉ u := fun hmem =>
          hnodup.2.2 q hmem q (mem_cons_self ..) rfl
        refine ih (u := u) (hexpel s chain q hs hq hof (not_not.mp hcnt)) ?_ (fun x hx => ?_) ht
        · rw [update_self, hsplit, erase_append_right _ hnot, erase_cons_head]
        · have hxq : x ≠ q := fun heq => hnot (heq ▸ hx)
          have hsame : (s.expel q).dquot x = s.dquot x := update_of_ne hxq ..
          unfold Cache.IsOf
          rw [hsame]
          exact hfront x hx
      · rename_i hof
        refine ih (u := u ++ [q]) hs (by simpa using hsplit) (fun x hx => ?_) ht
        rcases mem_append.mp hx with hx | hx
        · exact hfront x hx
        · rw [mem_singleton.mp hx]
          exact hof

end Loops

end Links

end Osf1.QuotaCache
