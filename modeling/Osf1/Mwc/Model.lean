import Osf1.Computation.CircularList
import Osf1.Computation.Transition

/-!
# The mirror write consistency cache of a volume group

A write to a mirrored logical volume may proceed only when its track group is marked in a cache
record on the disk.  The entries of the cache are on a circular list in the order of their use, and
those that are in use are hashed.  One step is one section under `vg_ca_intlock`, or something that
the driver or the rest of the system does in between.  The loops over several requests take one
request at a time, so that there are more interleavings here than in the code.
-/

set_option autoImplicit false

namespace Osf1.Mwc

open Function List

section Model

open Osf1.Computation

abbrev LVM_NUMMWC : ℕ := 32
def MWCHSIZE : ℕ := 8

/-- An entry of the cache. -/
abbrev Slot := Fin LVM_NUMMWC

/-- A physical volume, by its number. -/
abbrev Pvnum := Fin 255

scoped instance pvnum_pos : NeZero 255 := ⟨by decide⟩

/-- The hash class of a track group.
SRC: lvm/lvmd.h:506 -/
def MWC_THASH (trk : ℕ) : ℕ := trk % MWCHSIZE

/-- SRC: lvm/ltg.h:63 -/
def BLK2TRK (blk : ℕ) : ℕ := blk / 256

/-- A write request: the logical volume and the block. -/
structure Buf where
  minor : ℕ
  blkno : ℕ
deriving DecidableEq

/-- What is logged of a request: the logical volume and the track group. -/
def Buf.key (lb : Buf) : ℕ × ℕ := (lb.minor, BLK2TRK lb.blkno)

/-- `ca_mwc_mp` with its `ca_mwc_dp`.  `changing` and `frozen` are the bits of `ca_state`.
SRC: lvm/lvmd.h:514-528, lvm/vgres.h:129-133 -/
structure Entry where
  iocnt : ℕ
  changing : Bool
  frozen : Bool
  pvol : Option Pvnum
  ltg : ℕ
  minor : ℕ

def Entry.key (e : Entry) : ℕ × ℕ := (e.minor, e.ltg)

/-- The part of the cache that is in memory only.  The hash chains are lists of entries. -/
structure Cache where
  entry : Slot → Entry
  next : Slot → Slot
  prev : Slot → Slot
  lst : Slot
  hash : ℕ → List Slot
  free : ℕ

/-- The panics. -/
inductive Panic
  | searchLoop
  | mwcDone
  | dupMwcDone
  | changed
  | cacheDone
  | dupCacheDone
  | maxmirrors
  | newNotHashed
  | newNotFree
  | removeNotHashed
  | scrubBusy
deriving DecidableEq

/-- Why a step does not lead to a state: it cannot happen, or the kernel panics or follows a null
pointer. -/
inductive Stop
  | disabled
  | fault
  | panic (p : Panic)

/-- `ca_iocnt` is an unsigned short. -/
def incIocnt (n : ℕ) : ℕ := (n + 1) % 2 ^ 16
def decIocnt (n : ℕ) : ℕ := if n = 0 then 2 ^ 16 - 1 else n - 1

/-- `ca_free` is an unsigned char. -/
def incFree (n : ℕ) : ℕ := (n + 1) % 2 ^ 8
def decFree (n : ℕ) : ℕ := if n = 0 then 2 ^ 8 - 1 else n - 1

def Cache.setEntry (c : Cache) (h : Slot) (e : Entry) : Cache := { c with entry := update c.entry h e }

/-- Scan a hash chain; `length` entries have been looked at.
SRC: lvm/lv_mircons.c:633-661 -/
def searchFrom (c : Cache) (minor ltg : ℕ) : ℕ → List Slot → Except Stop (Option Slot)
  | _, [] => .ok none
  | length, h :: rest =>
    if LVM_NUMMWC < length + 1 then .error (.panic .searchLoop)
    else if (c.entry h).ltg = ltg ∧ (c.entry h).minor = minor then .ok (some h)
    else searchFrom c minor ltg (length + 1) rest

def lv_search_cache (c : Cache) (k : ℕ × ℕ) : Except Stop (Option Slot) :=
  searchFrom c k.1 k.2 0 (c.hash (MWC_THASH k.2))

/-- Take an entry out of the list of use, and put it in front of the anchor.
SRC: lvm/lv_mircons.c:809-818 -/
def Cache.splice (c : Cache) (h : Slot) : Cache :=
  { c with
    next := linkNext (unlinkNext c.next c.prev h) (unlinkPrev c.next c.prev h) c.lst h
    prev := linkPrev (unlinkPrev c.next c.prev h) c.lst h }

/-- Make an entry the most recently used one.
SRC: lvm/lv_mircons.c:769-784 and 803-825 -/
def Cache.useMru (c : Cache) (h : Slot) : Cache :=
  if h = c.lst then c
  else if h = c.prev c.lst then { c with lst := c.prev c.lst }
  else { c.splice h with lst := h }

/-- Make an entry the least recently used one.
SRC: lvm/lv_mircons.c:785-825 -/
def Cache.useLru (c : Cache) (h : Slot) : Cache :=
  if h = c.prev c.lst then c
  else if h = c.lst then { c with lst := c.next c.lst }
  else c.splice h

/-- The loop of `lv_cache_new`, from the least recently used entry back to it.
SRC: lvm/lv_mircons.c:866-893 -/
def findIdle (c : Cache) (lststrt : Slot) : ℕ → Slot → Option Slot
  | 0, _ => none
  | n + 1, h =>
    if (c.entry h).iocnt = 0 then some h
    else if c.prev h = lststrt then none
    else findIdle c lststrt n (c.prev h)

/-- The idle entry that `lv_cache_new` takes. -/
def Cache.idle (c : Cache) : Option Slot := findIdle c (c.prev c.lst) LVM_NUMMWC (c.prev c.lst)

/-- Take an entry off a hash chain. -/
def Cache.unhash (c : Cache) (cls : ℕ) (h : Slot) : Cache :=
  { c with hash := update c.hash cls ((c.hash cls).erase h) }

/-- Find an available entry, and take it off its hash chain.
SRC: lvm/lv_mircons.c:846-900 -/
def lv_cache_new (c : Cache) : Except Stop (Option (Slot × Cache)) :=
  if c.free = 0 then .ok none
  else
    match c.idle with
    | none => .error (.panic .newNotFree)
    | some h =>
      if (c.entry h).minor ≠ 0 then
        if h ∈ c.hash (MWC_THASH (c.entry h).ltg) then
          .ok (some (h, c.unhash (MWC_THASH (c.entry h).ltg) h))
        else .error (.panic .newNotHashed)
      else .ok (some (h, c))

/-- Remove an entry from a hash chain, and clear it.
SRC: lvm/lv_mircons.c:1672-1694 -/
def lv_cache_remove (c : Cache) (cls : ℕ) (h : Slot) : Except Stop Cache :=
  if h ∈ c.hash cls then
    .ok ((c.unhash cls h).setEntry h
      { iocnt := (c.entry h).iocnt, changing := false, frozen := false, pvol := none, ltg := 0
        minor := 0 })
  else .error (.panic .removeNotHashed)

/-- A copy of a logical extent: its volume, and `PX_NOMWC`. -/
structure Copy where
  pvnum : Option Pvnum
  nomwc : Bool

/-- A physical volume.  `latest` is `pv_mwc_latest`. -/
structure Pv where
  missing : Bool
  queued : Bool
  toggle : Bool
  wait : List Buf
  latest : ℕ

/-- A record: the time stamps at its two ends, and its entries.
SRC: lvm/vgres.h:141-145 -/
structure Rec where
  bstamp : ℕ
  estamp : ℕ
  pairs : Slot → ℕ × ℕ

/-- A volume group.  `inflight` is the volume that the record is being written to, and `landed`
tells whether all of the record has got there.  `drains` are the loops of `lv_mwc_cache_done` that
are going on, each with its error and the requests that it has still to take.  `sched` are the
requests that have been put on a `sched_Q` and are not done.  `disk` is what is
on the two places of each volume, where `none` stands for a record that has been written in part,
and `last` is the last volume that a record was written to. -/
structure Volgrp where
  cache : Cache
  pv : Pvnum → Pv
  maxmirrors : ℕ → ℕ
  copies : ℕ → ℕ → ℕ → Copy
  extshift : ℕ
  waiting : List Buf
  retrying : List Buf
  cacheWrite : List Pvnum
  changed : Bool
  clean : Bool
  cleanMinor : ℕ
  inflight : Option Pvnum
  landed : Bool
  bstamp : ℕ
  estamp : ℕ
  clock : ℕ
  disk : Pvnum → Bool → Option Rec
  drains : List (Bool × List Buf)
  sched : List Buf
  last : Option Pvnum

def Volgrp.setPv (s : Volgrp) (v : Pvnum) (p : Pv) : Volgrp := { s with pv := update s.pv v p }

/-- A copy of the extent that a request is in. -/
def Volgrp.copy (s : Volgrp) (lb : Buf) (i : ℕ) : Copy := s.copies lb.minor (lb.blkno >>> s.extshift) i

/-- The search of `lv_cache_queue` through the mirrors below `i`; `pv` is the last one looked at.
SRC: lvm/lv_mircons.c:709-724 -/
def pickPv (s : Volgrp) (lb : Buf) : ℕ → Option Pvnum → Option Pvnum
  | 0, pv => pv
  | i + 1, pv =>
    match (s.copy lb i).pvnum with
    | none => pickPv s lb i pv
    | some v =>
      if (s.pv v).missing then pickPv s lb i (some v)
      else if (s.copy lb i).nomwc then pickPv s lb i (some v)
      else if (s.pv v).wait ≠ [] then some v
      else pickPv s lb i (some v)

/-- The volume that a request is to wait for, if there is one.
SRC: lvm/lv_mircons.c:726 -/
def Volgrp.target (s : Volgrp) (lb : Buf) : Option Pvnum :=
  (pickPv s lb (s.maxmirrors lb.minor + 1) none).filter fun v => !(s.pv v).missing

/-- Put a request on the queue of a volume whose record is to be written.
SRC: lvm/lv_mircons.c:734-739 -/
def Volgrp.enqueue (s : Volgrp) (v : Pvnum) (lb : Buf) : Volgrp :=
  { s.setPv v { s.pv v with queued := true, wait := (s.pv v).wait ++ [lb] } with
    cacheWrite := if (s.pv v).queued then s.cacheWrite else s.cacheWrite ++ [v] }

/-- `lv_cache_queue` with the entry left out: `none` is the failure.
SRC: lvm/lv_mircons.c:675-744 -/
def lv_cache_queue (s : Volgrp) (lb : Buf) : Except Stop (Option (Pvnum × Volgrp)) :=
  if s.maxmirrors lb.minor = 0 then .error (.panic .maxmirrors)
  else .ok ((s.target lb).map fun v => (v, s.enqueue v lb))

/-- One more write is charged to an entry, which is then the most recently used one.
SRC: lvm/lv_mircons.c:545-548 -/
def Cache.charge (c : Cache) (h : Slot) : Cache :=
  let e := c.entry h
  let c := c.useMru h
  { c with
    entry := update c.entry h { e with iocnt := incIocnt e.iocnt }
    free := if e.iocnt = 0 then decFree c.free else c.free }

/-- A request hits an entry.
SRC: lvm/lv_mircons.c:545-562 -/
def hit (s : Volgrp) (h : Slot) (lb : Buf) : Except Stop Volgrp :=
  let e := s.cache.entry h
  if e.changing ∧ e.frozen = false then
    match e.pvol with
    | none => .error .fault
    | some v =>
      .ok { s.setPv v { s.pv v with wait := (s.pv v).wait ++ [lb] } with cache := s.cache.charge h }
  else .ok { s with cache := s.cache.charge h, sched := s.sched ++ [lb] }

/-- Fill an entry, and make it the most recently used one.
SRC: lvm/lv_mircons.c:582 and 596-604 -/
def Cache.fill (c : Cache) (h : Slot) (v : Pvnum) (k : ℕ × ℕ) : Cache :=
  { c with
    entry := update c.entry h
      { iocnt := 1, changing := true, frozen := false, pvol := some v, ltg := k.2, minor := k.1 }
    hash := update c.hash (MWC_THASH k.2) (h :: c.hash (MWC_THASH k.2))
    free := decFree c.free : Cache }.useMru h

/-- A request misses.  The result tells whether it fails.
SRC: lvm/lv_mircons.c:568-612 -/
def miss (s : Volgrp) (lb : Buf) : Except Stop (Bool × Volgrp) :=
  if s.inflight.isSome then .ok (false, { s with waiting := s.waiting ++ [lb] })
  else
    match lv_cache_new s.cache with
    | .error e => .error e
    | .ok none => .ok (false, { s with waiting := s.waiting ++ [lb] })
    | .ok (some (h, c)) =>
      match lv_cache_queue { s with cache := c } lb with
      | .error e => .error e
      | .ok none => .ok (true, { s with cache := c })
      | .ok (some (v, s)) =>
        .ok (false, { s with cache := s.cache.fill h v lb.key, changed := true })

/-- Check the cache for a request.
SRC: lvm/lv_mircons.c:520-615 -/
def lv_checkcache (s : Volgrp) (lb : Buf) : Except Stop (Bool × Volgrp) :=
  match lv_search_cache s.cache lb.key with
  | .error e => .error e
  | .ok none => miss s lb
  | .ok (some h) =>
    if (s.cache.entry h).iocnt ≠ 0 ∨ (s.cache.entry h).frozen = false then
      (hit s h lb).map fun s => (false, s)
    else miss s lb

/-- A record that has changed gets a new time stamp at both of its ends.
SRC: lvm/lv_mircons.c:1505-1511 -/
def Volgrp.stampRecord (s : Volgrp) : Volgrp :=
  if s.changed then
    { s with changed := false, bstamp := s.clock + 1, estamp := s.clock + 1, clock := s.clock + 1 }
  else s

/-- Begin to write the record, if it is not being written and a volume waits for it.
SRC: lvm/lv_mircons.c:1493-1535 -/
def lv_cache_start (s : Volgrp) : Volgrp :=
  match s.inflight, s.cacheWrite with
  | none, v :: rest =>
    let s := s.stampRecord
    { s.setPv v { s.pv v with queued := false, toggle := !(s.pv v).toggle } with
      inflight := some v
      landed := false
      cacheWrite := rest }
  | _, _ => s

/-- The record in memory. -/
def Volgrp.record (s : Volgrp) : Rec := ⟨s.bstamp, s.estamp, fun h => (s.cache.entry h).key⟩

/-- Queue a changed cache to be written to every volume that has one.
SRC: lvm/lv_mircons.c:1648-1659 -/
def updatePv (s : Volgrp) (v : Pvnum) : Volgrp :=
  if (s.pv v).missing ∨ (s.pv v).latest = 0 ∨ (s.pv v).queued then s
  else
    { s.setPv v { s.pv v with queued := true } with cacheWrite := s.cacheWrite ++ [v] }

/-- SRC: lvm/lv_mircons.c:1639-1670 -/
def lv_cache_update (s : Volgrp) : Volgrp :=
  let s := (List.finRange 255).foldl updatePv s
  { s with bstamp := s.clock + 1, clock := s.clock + 1, changed := true }

/-- One entry of the walk of `lv_cache_scrub`.  The result tells whether it was removed.
SRC: lvm/lv_mircons.c:1617-1628 -/
def scrubEntry (c : Cache) (minor : ℕ) (h : Slot) : Except Stop (Bool × Cache) :=
  let e := c.entry h
  if e.minor = minor ∧ e.frozen = false then
    if e.iocnt ≠ 0 then .error (.panic .scrubBusy)
    else (lv_cache_remove c (MWC_THASH e.ltg) h).map fun c => (true, c.useLru h)
  else .ok (false, c)

/-- The walk, from the least recently used entry to `lststart`, which was the most recently used.
SRC: lvm/lv_mircons.c:1609-1629 -/
def scrubFrom (minor : ℕ) (lststart : Slot) : ℕ → Slot → Bool → Cache → Except Stop (Bool × Cache)
  | 0, _, chg, c => .ok (chg, c)
  | n + 1, h, chg, c =>
    let nextEnt := c.prev h
    match scrubEntry c minor h with
    | .error e => .error e
    | .ok (removed, c) =>
      if h = lststart then .ok (chg || removed, c)
      else scrubFrom minor lststart n nextEnt (chg || removed) c

/-- Remove the entries of a logical volume.  The result tells whether there was one.
SRC: lvm/lv_mircons.c:1593-1637 -/
def lv_cache_scrub (s : Volgrp) (minor : ℕ) : Except Stop (Bool × Volgrp) :=
  match scrubFrom minor s.cache.lst LVM_NUMMWC (s.cache.prev s.cache.lst) false s.cache with
  | .error e => .error e
  | .ok (chg, c) =>
    let s := { s with cache := c }
    .ok (chg, if chg then lv_cache_update s else s)

/-- The record has been written to a volume, or could not be: its requests are taken.
SRC: lvm/lv_mircons.c:408-417 -/
def Volgrp.takeWaiters (s : Volgrp) (v : Pvnum) (error : Bool) : Volgrp :=
  let p := s.pv v
  let p := if error then { p with toggle := !p.toggle } else { p with latest := s.bstamp }
  { s.setPv v { p with wait := [] } with
    clean := false
    drains := s.drains ++ [(error, p.wait)]
    last := if error then s.last else some v }

/-- The first section of `lv_mwc_cache_done`.
SRC: lvm/lv_mircons.c:396-420 -/
def cacheDone (s : Volgrp) (error : Bool) : Except Stop Volgrp :=
  match s.inflight with
  | none => .error .disabled
  | some v =>
    if error = false ∧ s.landed = false then .error .disabled
    else
      let s := { s with inflight := none }
      if s.changed then .error (.panic .changed)
      else if s.clean then (lv_cache_scrub s s.cleanMinor).map fun r => r.2.takeWaiters v error
      else .ok (s.takeWaiters v error)

/-- The loop that is at place `i` goes on after its first request. -/
def Volgrp.advance (s : Volgrp) (i : ℕ) : Volgrp := { s with drains := s.drains.modify i fun d => (d.1, d.2.tail) }

/-- A request whose record has not been written finds no other volume: it fails.
SRC: lvm/lv_mircons.c:456-468 -/
def failWaiter (s : Volgrp) (h : Slot) (k : ℕ × ℕ) : Except Stop Volgrp :=
  let e := s.cache.entry h
  if (decIocnt e.iocnt : ℤ) < 0 then .error (.panic .dupCacheDone)
  else
    let c := s.cache.setEntry h { e with iocnt := decIocnt e.iocnt }
    if decIocnt e.iocnt = 0 then
      (lv_cache_remove { c with free := incFree c.free } (MWC_THASH k.2) h).map fun c =>
        { s with cache := c.useLru h }
    else .ok { s with cache := c }

/-- One round of the loop of `lv_mwc_cache_done`.  The result tells whether the request fails.
SRC: lvm/lv_mircons.c:422-485 -/
def drain (s : Volgrp) (i : ℕ) : Except Stop (Bool × Volgrp) :=
  match s.drains[i]? with
  | some (error, lb :: _) =>
    let s := s.advance i
    match lv_search_cache s.cache lb.key with
    | .error e => .error e
    | .ok none => .error (.panic .cacheDone)
    | .ok (some h) =>
      let e := s.cache.entry h
      if error = false then
        .ok (false, { s with
          cache := s.cache.setEntry h { e with changing := false }
          sched := s.sched ++ [lb] })
      else
        match lv_cache_queue s lb with
        | .error e => .error e
        | .ok (some (v, s)) =>
          .ok (false, { s with cache := s.cache.setEntry h { e with pvol := some v } })
        | .ok none => (failWaiter s h lb.key).map fun s => (true, s)
  | _ => .error .disabled

/-- A scheduled request is done; `vgsaFailed` is its `LVM_VGSA_FAILED`.
SRC: lvm/lv_mircons.c:271-295 -/
def complete (s : Volgrp) (lb : Buf) (vgsaFailed : Bool) : Except Stop Volgrp :=
  if lb ∈ s.sched then
    match lv_search_cache s.cache lb.key with
    | .error e => .error e
    | .ok none => .error (.panic .mwcDone)
    | .ok (some h) =>
      let e := s.cache.entry h
      if (decIocnt e.iocnt : ℤ) < 0 then .error (.panic .dupMwcDone)
      else
        let e := { e with iocnt := decIocnt e.iocnt, frozen := e.frozen || vgsaFailed }
        let c := s.cache.setEntry h e
        .ok { s with
          sched := s.sched.erase lb
          cache :=
            { c with
              free := if e.iocnt = 0 ∧ e.frozen = false then incFree c.free else c.free } }
  else .error .disabled

/-- Remove the entries of a logical volume, or have it done when the record has been written.
SRC: lvm/lv_mircons.c:1547-1591 -/
def lv_cache_clean (s : Volgrp) (minor : ℕ) : Except Stop Volgrp :=
  if s.inflight.isSome then .ok { s with clean := true, cleanMinor := minor }
  else (lv_cache_scrub s minor).map fun r => if r.1 then lv_cache_start r.2 else r.2

/-- What happens.  `submit` and `retry` are `lv_checkcache` for a new request and for one that has
waited for the cache; `take` takes the requests that wait.  `tear` and `land` are what the driver
does while it writes the record, and `env` is a change of the volumes and of the extents. -/
inductive Event
  | submit (lb : Buf)
  | start
  | tear
  | land
  | cacheDone (error : Bool)
  | drain (i : ℕ)
  | complete (lb : Buf) (vgsaFailed : Bool)
  | take
  | retry
  | clean (minor : ℕ)
  | env (missing : Pvnum → Bool) (maxmirrors : ℕ → ℕ) (copies : ℕ → ℕ → ℕ → Copy)

/-- The driver overwrites the place that the record is being written to. -/
def Volgrp.overwrite (s : Volgrp) (r : Option Rec) : Except Stop Volgrp :=
  match s.inflight with
  | none => .error .disabled
  | some v =>
    .ok { s with
      disk := update s.disk v (update (s.disk v) (s.pv v).toggle r)
      landed := r.isSome }

/-- One step, and the request that fails with `EIO` in it. -/
def stepFails (s : Volgrp) : Event → Except Stop (Option Buf × Volgrp)
  | .submit lb =>
    -- `lv_mwcm` passes on what is not mirrored; so it is with all requests to lvol 0
    if lb.minor = 0 ∨ s.maxmirrors lb.minor = 0 then .error .disabled
    else (lv_checkcache s lb).map fun r => (if r.1 then some lb else none, r.2)
  | .start => .ok (none, lv_cache_start s)
  | .tear => (s.overwrite none).map fun s => (none, s)
  | .land => (s.overwrite (some s.record)).map fun s => (none, s)
  | .cacheDone error => (cacheDone s error).map fun s => (none, s)
  | .drain i =>
    (drain s i).map fun r =>
      (if r.1 then (s.drains[i]?).bind fun d => d.2.head? else none, r.2)
  | .complete lb vgsaFailed => (complete s lb vgsaFailed).map fun s => (none, s)
  | .take =>
    if s.cache.free ≠ 0 ∧ s.inflight = none ∧ s.retrying = [] then
      .ok (none, { s with retrying := s.waiting, waiting := [] })
    else .error .disabled
  | .retry =>
    match s.retrying with
    | [] => .error .disabled
    | lb :: rest =>
      (lv_checkcache { s with retrying := rest } lb).map fun r => (if r.1 then some lb else none, r.2)
  | .clean minor =>
    if minor = 0 then .error .disabled
    else (lv_cache_clean s minor).map fun s => (none, s)
  | .env missing maxmirrors copies =>
    .ok (none, { s with
      pv := fun v => { s.pv v with missing := missing v }, maxmirrors := maxmirrors
      copies := copies })

def step (s : Volgrp) (i : Event) : Except Stop Volgrp := (stepFails s i).map Prod.snd

/-- The cache as `lv_cache_init` makes it. -/
def initCache : Cache where
  entry := fun _ => ⟨0, false, false, none, 0, 0⟩
  next := fun h => h + 1
  prev := fun h => h - 1
  lst := 0
  hash := fun _ => []
  free := LVM_NUMMWC

/-- The cache has been activated: it is empty, no request is there, and no time stamp on the disk
is later than the clock.  The cache may have been changed, and volumes may be queued for it.
SRC: lvm/lv_mircons.c:913-1161 -/
structure Activated (s : Volgrp) : Prop where
  cache : s.cache = initCache
  wait : ∀ v, (s.pv v).wait = []
  waiting : s.waiting = []
  retrying : s.retrying = []
  drains : s.drains = []
  sched : s.sched = []
  inflight : s.inflight = none
  clean : s.clean = false
  last : s.last = none
  cacheWrite : s.changed = false → s.cacheWrite = []
  bstamp : s.bstamp ≤ s.clock
  estamp : s.changed = false → s.estamp = s.bstamp
  disk : ∀ v b r, s.disk v b = some r → r.bstamp ≤ s.clock

/-- The cache over time. -/
def mwcSystem : System Volgrp Event where
  init := Activated
  step s i t := step s i = .ok t

end Model

/-!
## The hash chains of the cache and the count of the writes

What holds of the chains in every state, also after a logical volume has lost its extents or a
`VGSA` write has failed: the search for the track group of an outstanding write ends at the entry
that the write is charged to.
-/

section Chains

open Osf1.Computation

/-- The entry that a search ends at. -/
def Cache.find (c : Cache) (k : ℕ × ℕ) : Option Slot :=
  (c.hash (MWC_THASH k.2)).find? fun h => decide ((c.entry h).key = k)

/-- The chains of the cache, with the track groups of the outstanding writes. -/
structure Sound (c : Cache) (M : Multiset (ℕ × ℕ)) : Prop where
  nodup : ∀ cls, (c.hash cls).Nodup
  class_eq : ∀ cls h, h ∈ c.hash cls → MWC_THASH (c.entry h).ltg = cls ∧ (c.entry h).minor ≠ 0
  busy : ∀ h, (c.entry h).iocnt ≠ 0 → c.find (c.entry h).key = some h
  count : ∀ k, M.count k = match c.find k with
    | some h => (c.entry h).iocnt
    | none => 0
  small : ∀ h, (c.entry h).iocnt < 2 ^ 16

variable {c : Cache} {M : Multiset (ℕ × ℕ)} {h h' : Slot} {k : ℕ × ℕ} {c' : Cache}

section Entry

variable (c h) (e : Entry)

@[simp] theorem setEntry_self : (c.setEntry h e).entry h = e := update_self ..

theorem setEntry_of_ne (hh : h' ≠ h) : (c.setEntry h e).entry h' = c.entry h' := update_of_ne hh ..

end Entry

section Use

variable (c h)

@[simp] theorem useMru_entry : (c.useMru h).entry = c.entry := by
  unfold Cache.useMru
  split
  · rfl
  · split <;> rfl

@[simp] theorem useMru_hash : (c.useMru h).hash = c.hash := by
  unfold Cache.useMru
  split
  · rfl
  · split <;> rfl

@[simp] theorem useMru_free : (c.useMru h).free = c.free := by
  unfold Cache.useMru
  split
  · rfl
  · split <;> rfl

@[simp] theorem useLru_entry : (c.useLru h).entry = c.entry := by
  unfold Cache.useLru
  split
  · rfl
  · split <;> rfl

@[simp] theorem useLru_hash : (c.useLru h).hash = c.hash := by
  unfold Cache.useLru
  split
  · rfl
  · split <;> rfl

@[simp] theorem useLru_free : (c.useLru h).free = c.free := by
  unfold Cache.useLru
  split
  · rfl
  · split <;> rfl

end Use

theorem find_key (hf : c.find k = some h) : (c.entry h).key = k := by
  simpa using find?_some hf

theorem find_mem (hf : c.find k = some h) : h ∈ c.hash (MWC_THASH (c.entry h).ltg) := by
  have hkey := find_key hf
  rw [show (c.entry h).ltg = k.2 from congrArg Prod.snd hkey]
  exact mem_of_find?_eq_some hf

theorem find_congr (hhash : c'.hash (MWC_THASH k.2) = c.hash (MWC_THASH k.2))
    (hkey : ∀ h ∈ c.hash (MWC_THASH k.2), (c'.entry h).key = (c.entry h).key) : c'.find k = c.find k := by
  unfold Cache.find
  rw [hhash]
  apply find?_congr
  intro h hh
  rw [hkey h hh]

theorem searchFrom_eq (c : Cache) (k : ℕ × ℕ) (l : List Slot) {length : ℕ} (hl : length + l.length ≤ LVM_NUMMWC) :
    searchFrom c k.1 k.2 length l = .ok (l.find? fun h => decide ((c.entry h).key = k)) := by
  induction l generalizing length with
  | nil => rfl
  | cons h l ih =>
    rw [length_cons] at hl
    have hkey : ((c.entry h).ltg = k.2 ∧ (c.entry h).minor = k.1) ↔ (c.entry h).key = k := by
      rw [Entry.key, Prod.ext_iff]
      exact and_comm
    unfold searchFrom
    rw [if_neg (by omega)]
    by_cases hk : (c.entry h).key = k
    · rw [if_pos (hkey.mpr hk), find?_cons_of_pos (by simpa using hk)]
    · rw [if_neg (mt hkey.mp hk), find?_cons_of_neg (by simpa using hk)]
      exact ih (by omega)

section

variable (hs : Sound c M)
include hs

theorem Sound.search (k : ℕ × ℕ) : lv_search_cache c k = .ok (c.find k) := by
  refine searchFrom_eq c k _ ?_
  have hlen := (hs.nodup (MWC_THASH k.2)).length_le_card
  rw [Fintype.card_fin] at hlen
  omega

theorem Sound.find_of_mem (hk : k ∈ M) : ∃ h, c.find k = some h ∧ (c.entry h).iocnt = M.count k := by
  have hpos := Multiset.count_pos.mpr hk
  rw [hs.count] at hpos
  have hcount := hs.count k
  cases hf : c.find k with
  | none =>
    rw [hf] at hpos
    exact absurd hpos (lt_irrefl 0)
  | some h =>
    rw [hf] at hcount
    exact ⟨h, rfl, hcount.symm⟩

theorem Sound.count_of_find (hf : c.find k = some h) : M.count k = (c.entry h).iocnt := by
  rw [hs.count, hf]

theorem Sound.count_of_none (hf : c.find k = none) : M.count k = 0 := by
  rw [hs.count, hf]

theorem Sound.congr (hhash : c'.hash = c.hash)
    (hentry : ∀ h, (c'.entry h).key = (c.entry h).key ∧ (c'.entry h).iocnt = (c.entry h).iocnt) : Sound c' M := by
  have hfind (k : ℕ × ℕ) : c'.find k = c.find k := find_congr (congrFun hhash _) fun h _ => (hentry h).1
  refine ⟨fun cls => by rw [hhash]; exact hs.nodup cls, fun cls h hh => ?_, fun h hh => ?_,
    fun k => ?_, fun h => by rw [(hentry h).2]; exact hs.small h⟩
  · rw [hhash] at hh
    have := hs.class_eq cls h hh
    rwa [← show (c'.entry h).ltg = (c.entry h).ltg from congrArg Prod.snd (hentry h).1,
      ← show (c'.entry h).minor = (c.entry h).minor from congrArg Prod.fst (hentry h).1] at this
  · rw [(hentry h).2] at hh
    rw [hfind, (hentry h).1]
    exact hs.busy h hh
  · rw [hfind, hs.count]
    cases c.find k with
    | none => rfl
    | some h => exact (hentry h).2.symm

theorem Sound.setIocnt {M' : Multiset (ℕ × ℕ)} {e : Entry}
    (hf : c.find k = some h) (hkey : e.key = (c.entry h).key) (hcount : M'.count k = e.iocnt)
    (hother : ∀ k', k' ≠ k → M'.count k' = M.count k') (hsmall : e.iocnt < 2 ^ 16) : Sound (c.setEntry h e) M' := by
  have hk := find_key hf
  have hkeys (h' : Slot) : ((c.setEntry h e).entry h').key = (c.entry h').key := by
    unfold Cache.setEntry
    by_cases hh : h' = h
    · subst hh
      simpa using hkey
    · simp [hh]
  have hfind (k : ℕ × ℕ) : (c.setEntry h e).find k = c.find k := find_congr rfl fun h' _ => hkeys h'
  have hsmall' (h' : Slot) : ((c.setEntry h e).entry h').iocnt < 2 ^ 16 := by
    unfold Cache.setEntry
    by_cases hh : h' = h
    · subst hh
      simpa using hsmall
    · simpa [hh] using hs.small h'
  refine ⟨hs.nodup, fun cls h' hh' => ?_, fun h' hh' => ?_, fun k' => ?_, hsmall'⟩
  · have := hs.class_eq cls h' hh'
    rwa [← show ((c.setEntry h e).entry h').ltg = (c.entry h').ltg from congrArg Prod.snd (hkeys h'),
      ← show ((c.setEntry h e).entry h').minor = (c.entry h').minor from
        congrArg Prod.fst (hkeys h')] at this
  · rw [hfind, hkeys]
    by_cases hh : h' = h
    · rw [hh, hk]
      exact hf
    · refine hs.busy h' ?_
      simpa [Cache.setEntry, hh] using hh'
  · rw [hfind]
    by_cases hkk : k' = k
    · rw [hkk, hf, hcount]
      simp [Cache.setEntry]
    · rw [hother k' hkk, hs.count]
      cases hf' : c.find k' with
      | none => rfl
      | some h' =>
        have hh : h' ≠ h := fun hh => hkk (by rw [← find_key hf', hh, hk])
        simp [Cache.setEntry, hh]

end

section Unhash

variable (c h) {cls cls' : ℕ}

theorem unhash_self (cls : ℕ) : (c.unhash cls h).hash cls = (c.hash cls).erase h := update_self ..

theorem unhash_of_ne (hc : cls' ≠ cls) : (c.unhash cls h).hash cls' = c.hash cls' :=
  update_of_ne hc ..

theorem mem_of_mem_unhash (hh : h' ∈ (c.unhash cls h).hash cls') : h' ∈ c.hash cls' := by
  by_cases hc : cls' = cls
  · subst hc
    rw [unhash_self] at hh
    exact mem_of_mem_erase hh
  · rwa [unhash_of_ne c h hc] at hh

end Unhash

/-- An entry is on no chain. -/
def Cache.Unhashed (c : Cache) (h : Slot) : Prop := ∀ cls, h ∉ c.hash cls

theorem Sound.unhashed_of_minor (hs : Sound c M) (hm : (c.entry h).minor = 0) : c.Unhashed h :=
  fun cls hh => (hs.class_eq cls h hh).2 hm

theorem Sound.unhashed_unhash (hs : Sound c M) (h : Slot) :
    (c.unhash (MWC_THASH (c.entry h).ltg) h).Unhashed h := by
  intro cls hh
  by_cases hc : cls = MWC_THASH (c.entry h).ltg
  · subst hc
    rw [unhash_self] at hh
    exact absurd hh (hs.nodup _).not_mem_erase
  · rw [unhash_of_ne c h hc] at hh
    exact hc (hs.class_eq cls h hh).1.symm

theorem find?_erase {p : Slot → Bool} {l : List Slot} (hf : l.find? p ≠ some h) :
    (l.erase h).find? p = l.find? p := by
  induction l with
  | nil => rfl
  | cons a l ih =>
    by_cases hp : p a = true
    · rw [find?_cons_of_pos hp] at hf
      have ha : a ≠ h := fun ha => hf (congrArg some ha)
      rw [erase_cons_tail (by simpa using ha), find?_cons_of_pos hp, find?_cons_of_pos hp]
    · rw [find?_cons_of_neg hp] at hf
      rw [find?_cons_of_neg hp]
      by_cases ha : a = h
      · subst ha
        rw [erase_cons_head]
      · rw [erase_cons_tail (by simpa using ha), find?_cons_of_neg hp]
        exact ih hf

theorem find_unhash (hk : c.find k ≠ some h) : (c.unhash (MWC_THASH (c.entry h).ltg) h).find k = c.find k := by
  by_cases hc : MWC_THASH k.2 = MWC_THASH (c.entry h).ltg
  · unfold Cache.find at hk ⊢
    rw [hc, unhash_self]
    rw [hc] at hk
    exact find?_erase hk
  · exact find_congr (unhash_of_ne c h hc) fun _ _ => rfl

section

variable (hs : Sound c M)
include hs

theorem Sound.unhash (hidle : (c.entry h).iocnt = 0) : Sound (c.unhash (MWC_THASH (c.entry h).ltg) h) M := by
  refine ⟨fun cls => ?_, fun cls h' hh' => hs.class_eq cls h' (mem_of_mem_unhash c h hh'),
    fun h' hh' => ?_, fun k => ?_, hs.small⟩
  · by_cases hc : cls = MWC_THASH (c.entry h).ltg
    · subst hc
      rw [unhash_self]
      exact (hs.nodup _).erase h
    · rw [unhash_of_ne c h hc]
      exact hs.nodup cls
  · have hbusy := hs.busy h' hh'
    refine (find_unhash fun hf => hh' ?_).trans hbusy
    rw [Option.some.inj (hbusy.symm.trans hf)]
    exact hidle
  · by_cases hk : c.find k = some h
    · rw [hs.count, hk]
      cases hf : (c.unhash (MWC_THASH (c.entry h).ltg) h).find k with
      | none => exact hidle
      | some h' =>
        -- An entry behind the idle one has the same key, and is idle, too.
        refine hidle.trans (Eq.symm (by_contra fun hh' => ?_))
        have hbusy := hs.busy h' hh'
        have hkey : ((c.unhash (MWC_THASH (c.entry h).ltg) h).entry h').key = k := find_key hf
        change (c.entry h').key = k at hkey
        rw [hkey, hk] at hbusy
        rw [← Option.some.inj hbusy] at hf
        exact hs.unhashed_unhash h _ (find_mem hf)
    · rw [find_unhash hk]
      exact hs.count k

theorem Sound.clear {e : Entry} (hun : c.Unhashed h) (he : e.iocnt = 0) : Sound (c.setEntry h e) M := by
  have hne (cls : ℕ) (h' : Slot) (hh' : h' ∈ c.hash cls) : h' ≠ h := fun heq => hun cls (heq ▸ hh')
  have hentry (h' : Slot) (hh' : h' ≠ h) : (c.setEntry h e).entry h' = c.entry h' := update_of_ne hh' ..
  have hfind (k : ℕ × ℕ) : (c.setEntry h e).find k = c.find k :=
    find_congr rfl fun h' hh' => by rw [hentry h' (hne _ h' hh')]
  have hsmall (h' : Slot) : ((c.setEntry h e).entry h').iocnt < 2 ^ 16 := by
    by_cases hh : h' = h
    · rw [hh, show (c.setEntry h e).entry h = e from update_self .., he]
      decide
    · rw [hentry h' hh]
      exact hs.small h'
  refine ⟨hs.nodup, fun cls h' hh' => ?_, fun h' hh' => ?_, fun k => ?_, hsmall⟩
  · rw [hentry h' (hne cls h' hh')]
    exact hs.class_eq cls h' hh'
  · by_cases heq : h' = h
    · subst heq
      refine absurd ?_ hh'
      rw [show (c.setEntry h' e).entry h' = e from update_self ..]
      exact he
    · rw [hentry h' heq] at hh' ⊢
      rw [hfind]
      exact hs.busy h' hh'
  · rw [hfind, hs.count]
    cases hf : c.find k with
    | none => rfl
    | some h' => exact congrArg Entry.iocnt (hentry h' (hne _ h' (find_mem hf))).symm

theorem Sound.fill {e : Entry} (hun : c.Unhashed h)
    (hk : M.count k = 0) (hminor : k.1 ≠ 0) (hkey : e.key = k) (hcnt : e.iocnt = 1) (hentry : c'.entry = update c.entry h e)
    (hhash : c'.hash = update c.hash (MWC_THASH k.2) (h :: c.hash (MWC_THASH k.2))) : Sound c' (k ::ₘ M) := by
  have hne (cls : ℕ) (h' : Slot) (hh' : h' ∈ c.hash cls) : h' ≠ h := fun heq => hun cls (heq ▸ hh')
  have hself : c'.entry h = e := by rw [hentry, update_self]
  have hother (h' : Slot) (hh' : h' ≠ h) : c'.entry h' = c.entry h' := by
    rw [hentry, update_of_ne hh']
  have hchain (cls : ℕ) (hc : cls ≠ MWC_THASH k.2) : c'.hash cls = c.hash cls := by
    rw [hhash, update_of_ne hc]
  have hfront : c'.hash (MWC_THASH k.2) = h :: c.hash (MWC_THASH k.2) := by
    rw [hhash, update_self]
  have hfindk : c'.find k = some h := by
    unfold Cache.find
    rw [hfront, find?_cons_of_pos (by rw [hself, hkey]; simp)]
  have hfind (k' : ℕ × ℕ) (hkk : k' ≠ k) : c'.find k' = c.find k' := by
    have hsame : (c.hash (MWC_THASH k'.2)).find? (fun h => decide ((c'.entry h).key = k')) =
        (c.hash (MWC_THASH k'.2)).find? (fun h => decide ((c.entry h).key = k')) := by
      apply find?_congr
      intro h' hh'
      rw [hother h' (hne _ h' hh')]
    unfold Cache.find
    by_cases hc : MWC_THASH k'.2 = MWC_THASH k.2
    · rw [hc] at hsame ⊢
      rw [hfront, find?_cons_of_neg (by rw [hself, hkey]; simpa using hkk.symm), hsame]
    · rw [hchain _ hc, hsame]
  have hsmall (h' : Slot) : (c'.entry h').iocnt < 2 ^ 16 := by
    by_cases hh : h' = h
    · rw [hh, hself, hcnt]
      decide
    · rw [hother h' hh]
      exact hs.small h'
  refine ⟨fun cls => ?_, fun cls h' hh' => ?_, fun h' hh' => ?_, fun k' => ?_, hsmall⟩
  · by_cases hc : cls = MWC_THASH k.2
    · rw [hc, hfront, nodup_cons]
      exact ⟨hun _, hs.nodup _⟩
    · rw [hchain cls hc]
      exact hs.nodup cls
  · by_cases heq : h' = h
    · subst heq
      rw [hself, show e.minor = k.1 from congrArg Prod.fst hkey,
        show e.ltg = k.2 from congrArg Prod.snd hkey]
      refine ⟨by_contra fun hc => hun cls ?_, hminor⟩
      rwa [hchain cls fun h => hc h.symm] at hh'
    · rw [hother h' heq]
      apply hs.class_eq
      by_cases hc : cls = MWC_THASH k.2
      · rw [hc, hfront] at hh'
        rw [hc]
        exact mem_of_ne_of_mem heq hh'
      · rwa [hchain cls hc] at hh'
  · by_cases heq : h' = h
    · rw [heq, hself, hkey]
      exact hfindk
    · rw [hother h' heq] at hh' ⊢
      have hbusy := hs.busy h' hh'
      rw [hfind _ fun hkk => ?_]
      · exact hbusy
      · have hcount := hs.count_of_find hbusy
        rw [hkk, hk] at hcount
        exact hh' hcount.symm
  · by_cases hkk : k' = k
    · rw [hkk, Multiset.count_cons_self, hk, hfindk]
      exact (congrArg Entry.iocnt hself).trans hcnt |>.symm
    · rw [Multiset.count_cons_of_ne hkk, hfind k' hkk, hs.count]
      cases hf : c.find k' with
      | none => rfl
      | some h' => exact congrArg Entry.iocnt (hother h' (hne _ h' (find_mem hf))).symm

theorem Sound.lv_cache_new (hnew : lv_cache_new c = .ok (some (h, c'))) :
    c.idle = some h ∧ (c.entry h).iocnt = 0 ∧ c'.Unhashed h ∧ Sound c' M ∧
      (c' = c ∧ (c.entry h).minor = 0 ∨
        c' = c.unhash (MWC_THASH (c.entry h).ltg) h ∧ (c.entry h).minor ≠ 0) := by
  have hidle (n : ℕ) (a start : Slot) (hf : findIdle c start n a = some h) :
      (c.entry h).iocnt = 0 := by
    induction n generalizing a with
    | zero => cases hf
    | succ n ih =>
      unfold findIdle at hf
      split at hf
      · cases hf
        assumption
      · split at hf
        · cases hf
        · exact ih _ hf
  unfold Mwc.lv_cache_new at hnew
  split at hnew
  · cases hnew
  split at hnew
  · cases hnew
  rename_i a ha
  split at hnew
  · rename_i hm
    split at hnew
    · cases hnew
      exact ⟨ha, hidle _ _ _ ha, hs.unhashed_unhash h, hs.unhash (hidle _ _ _ ha), .inr ⟨rfl, hm⟩⟩
    · cases hnew
  · rename_i hm
    cases hnew
    have hm := not_not.mp hm
    exact ⟨ha, hidle _ _ _ ha, hs.unhashed_of_minor hm, hs, .inl ⟨rfl, hm⟩⟩

theorem Sound.lv_cache_remove (hidle : (c.entry h).iocnt = 0)
    (hrem : lv_cache_remove c (MWC_THASH (c.entry h).ltg) h = .ok c') :
    Sound c' M ∧ c'.Unhashed h ∧
      c' = (c.unhash (MWC_THASH (c.entry h).ltg) h).setEntry h ⟨0, false, false, none, 0, 0⟩ := by
  unfold Mwc.lv_cache_remove at hrem
  split at hrem
  · cases hrem
    rw [hidle]
    exact ⟨(hs.unhash hidle).clear (hs.unhashed_unhash h) rfl, hs.unhashed_unhash h, rfl⟩
  · cases hrem

end

end Chains

end Osf1.Mwc
