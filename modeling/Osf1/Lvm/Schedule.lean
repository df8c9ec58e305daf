import Mathlib

/-!
# Mirrored writes: the code of `lv_schedule.c`

A logical extent has up to three copies.  A write goes to all the copies that are there, at once
or one after the other, and when it is over the copies that missed it are marked stale.
A mask is the set of the mirrors whose bits are on.
-/

set_option autoImplicit false

namespace Osf1.Lvm

open List

section Schedule

/-- `LVM_MAXCOPIES` is three.
SRC: lvm/lvm.h:277 -/
abbrev Mirror := Fin 3

scoped instance mirror_pos : NeZero 3 := ⟨by decide⟩

abbrev Mask := Finset Mirror

/-- A physical extent.  `PX_NOPV` is no volume.
SRC: lvm/lvmd.h:317-331 -/
structure Extent where
  pvnum : Option ℕ
  stale : Bool
  changing : Bool
  deriving DecidableEq

/-- SRC: lvm/lvmd.h:336-340 -/
structure Lextent where
  synctrk : ℤ
  syncmsk : Mask
  syncerr : Mask
  deriving DecidableEq

/-- A logical extent and its copies. -/
structure Copies where
  ext : Mirror → Extent
  lext : Lextent

/-- What is read of the logical volume and its group: `lv_maxmirrors`, whether a physical volume
has `LVM_PVMISSING`, and `TRKPEREXT`. -/
structure Volume where
  maxmirrors : Mirror
  missing : ℕ → Bool
  trkPerExt : ℤ

/-- A logical request.  `miravoid` is what `LVM_MIRAVOID` covers of its options.
SRC: lvm/lvmd.h:462-476 -/
structure Buf where
  read : Bool
  resync : Bool
  recovery : Bool
  miravoid : Mask

/-- A physical request.  `error` is its `B_ERROR`. -/
structure Pbuf where
  mirror : Mirror
  mirdone : Mask
  mirbad : Mask
  miract : Mask
  miravoid : Mask
  error : Bool

/-- `for (mirror = 0; mirror < (lv->lv_maxmirrors+1); mirror++)` -/
def Volume.mirrors (v : Volume) : List Mirror := (List.finRange 3).filter (· ≤ v.maxmirrors)

/-- `while ((mirror = FIRST_MASK(mask)) != LVM_MAXCOPIES)`, when each mirror that is found is
taken from the mask. -/
def Mask.mirrors (mask : Mask) : List Mirror := (List.finRange 3).filter (· ∈ mask)

/-- SRC: lvm/lvmd.h:445 -/
def firstMask (mask : Mask) : Option Mirror := (List.finRange 3).find? (· ∈ mask)

/-- How a request ends: with or without `B_ERROR`. -/
inductive Finish where
  | panic
  | done (error : Bool) (x : Copies)

/-- Reset the changing flag for each extent marked stale.
SRC: lvm/lv_schedule.c:1205-1241 -/
def lvStaleppDone (vgsaFailed : Bool) (mirbad : Mask) (x : Copies) : Copies :=
  let reset (ext : Mirror → Extent) (m : Mirror) := Function.update ext m { ext m with changing := false }
  if vgsaFailed then x else { x with ext := mirbad.mirrors.foldl reset x.ext }

/-- The bad mirrors are marked; those that are marked on disk go from the mask.
SRC: lvm/lv_schedule.c:1166-1179 -/
def markStale (ext : Mirror → Extent) (mirbad : Mask) : List Mirror → (Mirror → Extent) × Mask
  | [] => (ext, mirbad)
  | m :: ms =>
    if (ext m).stale && !(ext m).changing then markStale ext (mirbad.erase m) ms
    else if !(ext m).stale then
      markStale (Function.update ext m { ext m with stale := true, changing := true }) mirbad ms
    else markStale ext mirbad ms

/-- The copies whose last track is written are no longer stale.
SRC: lvm/lv_schedule.c:1131-1146 -/
def freshen (ext : Mirror → Extent) : List Mirror → Option (Mirror → Extent)
  | [] => some ext
  | m :: ms =>
    if (ext m).pvnum = none then none
    else if (ext m).stale then freshen (Function.update ext m { ext m with stale := false }) ms
    else none

/-- `pb_mirbad &= ~(MIRROR_MASK(FIRST_MASK(pb->pb_miract)))` -/
def spare (miract mirbad : Mask) : Mask :=
  match firstMask miract with
  | some m => mirbad.erase m
  | none => mirbad

/-- The bad copies are marked, and if one of them is not marked on disk, the VGSA is written.
SRC: lvm/lv_schedule.c:1166-1188 -/
def markBad (vgsaFailed : Bool) (ext : Mirror → Extent) (mirbad : Mask) (error : Bool)
    (lext : Lextent) : Finish :=
  let r := markStale ext mirbad mirbad.mirrors
  .done error (if r.2 = ∅ then ⟨r.1, lext⟩ else lvStaleppDone vgsaFailed r.2 ⟨r.1, lext⟩)

/-- Change physical extent states from active to stale.
SRC: lvm/lv_schedule.c:1084-1189 -/
def lvStalepp (v : Volume) (lb : Buf) (vgsaFailed : Bool) (x : Copies) (pb : Pbuf) : Finish :=
  let error := decide (pb.mirdone = pb.mirbad)
  let mirbad := if pb.mirdone = pb.mirbad then spare pb.miract pb.mirbad else pb.mirbad
  let mark := markBad vgsaFailed x.ext mirbad
  if lb.resync then
    let syncerr := x.lext.syncerr ∪ mirbad ∪ pb.miravoid
    let syncmsk := x.lext.syncmsk \ syncerr
    let lext : Lextent := { x.lext with syncerr, syncmsk }
    if syncmsk = ∅ then mark true lext
    else if !lb.recovery && decide (x.lext.synctrk = v.trkPerExt - 1) then
      match freshen x.ext syncmsk.mirrors with
      | none => .panic
      | some ext =>
        .done error (lvStaleppDone vgsaFailed mirbad ⟨ext, { lext with syncmsk := ∅ }⟩)
    else mark error lext
  else if mirbad ≠ ∅ then mark error { x.lext with syncerr := x.lext.syncerr ∪ mirbad }
  else mark error x.lext

/-- The last write is done.
SRC: lvm/lv_schedule.c:665-673 -/
def lvWriteDone (v : Volume) (lb : Buf) (vgsaFailed : Bool) (x : Copies) (pb : Pbuf) : Finish :=
  let pb := { pb with mirbad := pb.mirbad ∪ pb.miravoid }
  if pb.mirbad ≠ ∅ ∨ lb.resync then lvStalepp v lb vgsaFailed x pb else .done pb.error x

/-- What `lv_parallel` collects: its masks and its queue. -/
structure Setup where
  avoidmask : Mask
  donemask : Mask
  actmask : Mask
  ioQ : List Mirror

/-- For each mirror, setup the physical I/O buffer.
SRC: lvm/lv_schedule.c:487-533 -/
def setup (v : Volume) (lb : Buf) (x : Copies) : List Mirror → Setup → Setup
  | [], s => s
  | m :: ms, s =>
    let s := { s with donemask := insert m s.donemask }
    match (x.ext m).pvnum with
    | none => setup v lb x ms s
    | some pv =>
      if v.missing pv then setup v lb x ms { s with avoidmask := insert m s.avoidmask }
      else if lb.resync && decide (m ∉ x.lext.syncmsk) then setup v lb x ms s
      else setup v lb x ms { s with actmask := insert m s.actmask, ioQ := s.ioQ ++ [m] }

/-- How the physical requests of a request end: which of them fail, which of those that are
outstanding is next to end, and whether the status area is updated. -/
structure Io where
  fails : Mirror → Bool
  order : ℕ → ℕ
  vgsaFailed : Bool

/-- The result of a write, with the mirrors that have received it. -/
abbrev Written := Finish × Mask

/-- The buffers are in a ring, and each one that ends hands its mask to the next one.
SRC: lvm/lv_schedule.c:619-675 -/
def lvParwriteDone (v : Volume) (lb : Buf) (x : Copies) (io : Io) :
    ℕ → Mask → List Pbuf → Option Written
  | 0, _, _ => none
  | fuel + 1, received, ring =>
    match ring.rotate (io.order fuel) with
    | [] => none
    | pb :: rest =>
      let failed := io.fails pb.mirror
      let received := if failed then received else insert pb.mirror received
      let pb := { pb with error := failed
                          mirbad := if failed then insert pb.mirror pb.mirbad else pb.mirbad }
      match rest with
      | [] => some (lvWriteDone v lb io.vgsaFailed x pb, received)
      | q :: rest =>
        lvParwriteDone v lb x io fuel received
          ({ q with mirbad := q.mirbad ∪ pb.mirbad } :: rest)

/-- Initiate parallel mirrored physical operations, for a write.
SRC: lvm/lv_schedule.c:461-568 -/
def lvParallel (v : Volume) (lb : Buf) (x : Copies) (io : Io) : Option Written :=
  let s := setup v lb x v.mirrors ⟨∅, ∅, ∅, []⟩
  if s.ioQ = [] then some (.done true x, ∅)
  else
    lvParwriteDone v lb x io s.ioQ.length ∅
      (s.ioQ.map fun m => ⟨m, s.donemask, ∅, s.actmask, s.avoidmask, false⟩)

/-- Choose the next mirror to be processed, in sequential order.
SRC: lvm/lv_schedule.c:988-1057 -/
def lvNextmir (v : Volume) (lb : Buf) (x : Copies) : List Mirror → Pbuf → Pbuf × Option Mirror
  | [], pb => (pb, none)
  | m :: ms, pb =>
    if m ∈ pb.mirdone then lvNextmir v lb x ms pb
    else
      let pb := { pb with mirdone := insert m pb.mirdone }
      match (x.ext m).pvnum with
      -- `break`, not `continue`
      | none => (pb, none)
      | some pv =>
        if v.missing pv then
          lvNextmir v lb x ms
            (if lb.read then pb else { pb with miravoid := insert m pb.miravoid })
        else if lb.resync && decide (m ∉ x.lext.syncmsk) then lvNextmir v lb x ms pb
        else if !lb.resync && lb.read && (x.ext m).stale then lvNextmir v lb x ms pb
        else ({ pb with miract := insert m pb.miract, mirror := m }, some m)

/-- A write to a mirror ends, and the next one is begun.
SRC: lvm/lv_schedule.c:906-934 -/
def lvSeqwrite (v : Volume) (lb : Buf) (x : Copies) (io : Io) :
    ℕ → Mask → Pbuf → Option Written
  | 0, _, _ => none
  | fuel + 1, received, pb =>
    let failed := io.fails pb.mirror
    let received := if failed then received else insert pb.mirror received
    let pb := { pb with error := failed
                        mirbad := if failed then insert pb.mirror pb.mirbad else pb.mirbad }
    match lvNextmir v lb x v.mirrors pb with
    | (pb, some _) => lvSeqwrite v lb x io fuel received { pb with error := false }
    | (pb, none) => some (lvWriteDone v lb io.vgsaFailed x pb, received)

/-- Initiate sequential mirrored physical operation, for a write.  `pb_miravoid` is not set: it
is what the last user of the buffer left there.
SRC: lvm/lv_schedule.c:854-887 -/
def lvSequential (v : Volume) (lb : Buf) (x : Copies) (io : Io) (miravoid : Mask) :
    Option Written :=
  match lvNextmir v lb x v.mirrors ⟨0, ∅, ∅, ∅, miravoid, false⟩ with
  | (_, none) => some (.done true x, ∅)
  | (pb, some _) => lvSeqwrite v lb x io 3 ∅ pb

/-- SRC: lvm/lv_schedule.c:93-110 -/
inductive Policy where
  | parallel
  | sequential
  deriving DecidableEq

/-- A write request under a policy.  `miravoid` is what is left in its buffer. -/
structure Write where
  policy : Policy
  resync : Bool
  recovery : Bool
  io : Io
  miravoid : Mask

def Write.buf (w : Write) : Buf := ⟨false, w.resync, w.recovery, ∅⟩

/-- `(*lv->lv_schedule->lv_schedule)(vg, lv, lb, pb)`, for a write.
SRC: lvm/lv_schedule.c:209-214 -/
def lvWrite (v : Volume) (x : Copies) (w : Write) : Option Written :=
  match w.policy with
  | .parallel => lvParallel v w.buf x w.io
  | .sequential => lvSequential v w.buf x w.io w.miravoid

/-- How a physical read ends: with or without an error, which may be one of the media. -/
inductive Result where
  | ok
  | error (media : Bool)
  deriving DecidableEq

/-- How the physical reads of a request end, in turn, and how many transfers are active on each
volume when the next one is chosen. -/
structure ReadIo where
  result : ℕ → Mirror → Result
  curxfs : ℕ → ℕ → ℤ

/-- How a read ends: with or without `B_ERROR`, or in a call that has no defined meaning.  What
`lv_fixup` writes to other copies after a read does not change how it ends. -/
inductive ReadFinish where
  | undefined
  | done (error : Bool)
  deriving DecidableEq

/-- Find the best mirror to read: the one on the volume with the fewest transfers.
SRC: lvm/lv_schedule.c:763-835 -/
def lvBestmir (v : Volume) (lb : Buf) (x : Copies) (curxfs : ℕ → ℤ) :
    List Mirror → Pbuf → ℤ → Option Mirror → Pbuf × Option Mirror
  | [], pb, _, some m =>
    ({ pb with mirdone := insert m pb.mirdone, miract := insert m pb.miract, mirror := m }, some m)
  | [], pb, _, none => (pb, none)
  | m :: ms, pb, minxfs, bestmir =>
    if m ∈ pb.mirdone then lvBestmir v lb x curxfs ms pb minxfs bestmir
    else
      match (x.ext m).pvnum with
      | none => lvBestmir v lb x curxfs ms pb minxfs bestmir
      | some pv =>
        let done := { pb with mirdone := insert m pb.mirdone }
        if v.missing pv then
          lvBestmir v lb x curxfs ms
            (if lb.read then done else { done with miravoid := insert m pb.miravoid }) minxfs bestmir
        else if lb.read && (x.ext m).stale then lvBestmir v lb x curxfs ms done minxfs bestmir
        else if minxfs = -1 ∨ curxfs pv < minxfs then
          lvBestmir v lb x curxfs ms pb (curxfs pv) (some m)
        else lvBestmir v lb x curxfs ms pb minxfs bestmir

/-- A read of a mirror ends.  On a failure the next mirror is read.
SRC: lvm/lv_schedule.c:685-716 -/
def lvParreadDone (v : Volume) (lb : Buf) (x : Copies) (io : ReadIo) :
    ℕ → List Mirror → Pbuf → Option (ReadFinish × List Mirror)
  | 0, _, _ => none
  | fuel + 1, tried, pb =>
    match io.result tried.length pb.mirror with
    | .ok => some (.done false, tried ++ [pb.mirror])
    | .error media =>
      let pb := if media then { pb with mirbad := insert pb.mirror pb.mirbad } else pb
      match lvBestmir v lb x (io.curxfs (tried.length + 1)) v.mirrors pb (-1) none with
      | (pb', some _) => lvParreadDone v lb x io fuel (tried ++ [pb.mirror]) pb'
      | (_, none) => some (.done true, tried ++ [pb.mirror])

/-- Initiate a read from a possibly mirrored logical volume.
SRC: lvm/lv_schedule.c:580-607 -/
def lvParread (v : Volume) (lb : Buf) (x : Copies) (io : ReadIo) :
    Option (ReadFinish × List Mirror) :=
  match lvBestmir v lb x (io.curxfs 0) v.mirrors ⟨0, lb.miravoid, ∅, ∅, ∅, false⟩ (-1) none with
  | (pb, some _) => lvParreadDone v lb x io 3 [] pb
  | (_, none) => some (.done true, [])

/-- A sequential read of a mirror ends.  On a failure the source calls `lv_nextmir(pb)`, with one
argument for two parameters.
SRC: lvm/lv_schedule.c:946-975 -/
def lvSeqreadDone (io : ReadIo) (pb : Pbuf) : ReadFinish × List Mirror :=
  match io.result 0 pb.mirror with
  | .ok => (.done false, [pb.mirror])
  | .error _ => (.undefined, [pb.mirror])

/-- Initiate sequential mirrored physical operation, for a read.  `LVM_MIRAVOID` is not looked at.
SRC: lvm/lv_schedule.c:854-887 -/
def lvSequentialRead (v : Volume) (lb : Buf) (x : Copies) (io : ReadIo) :
    ReadFinish × List Mirror :=
  match lvNextmir v lb x v.mirrors ⟨0, ∅, ∅, ∅, ∅, false⟩ with
  | (_, none) => (.done true, [])
  | (pb, some _) => lvSeqreadDone io pb

/-- A read request under a policy. -/
structure Read where
  policy : Policy
  resync : Bool
  recovery : Bool
  miravoid : Mask
  io : ReadIo

def Read.buf (r : Read) : Buf := ⟨true, r.resync, r.recovery, r.miravoid⟩

/-- `(*lv->lv_schedule->lv_schedule)(vg, lv, lb, pb)`, for a read, with the mirrors that are read
in turn.
SRC: lvm/lv_schedule.c:209-214 -/
def lvRead (v : Volume) (x : Copies) (r : Read) : Option (ReadFinish × List Mirror) :=
  match r.policy with
  | .parallel => lvParread v r.buf x r.io
  | .sequential => some (lvSequentialRead v r.buf x r.io)

end Schedule

/-!
## The masks of a write

What the loops of the two policies leave in the masks of the last buffer, for any copies of the
extent and any physical requests that fail.
-/

section Masks

variable {v : Volume} {lb : Buf} {x : Copies} {io : Io} {w : Write} {m : Mirror}

theorem mem_mirrors : m ∈ v.mirrors ↔ m ≤ v.maxmirrors := by
  simp [Volume.mirrors]

theorem mem_maskMirrors {mask : Mask} : m ∈ mask.mirrors ↔ m ∈ mask := by
  simp [Mask.mirrors]

theorem nodup_maskMirrors (mask : Mask) : mask.mirrors.Nodup := (nodup_finRange 3).filter _

theorem nodup_mirrors (v : Volume) : v.mirrors.Nodup := (nodup_finRange 3).filter _

theorem firstMask_eq_some {mask : Mask} : firstMask mask = some m ↔ m ∈ mask ∧ ∀ m' < m, m' ∉ mask := by
  have hall : ∀ (mask : Mask) (m : Mirror), firstMask mask = some m ↔ m ∈ mask ∧ ∀ m' < m, m' ∉ mask := by decide
  exact hall mask m

/-- A copy is on a volume that is missing. -/
def gone (v : Volume) (x : Copies) (m : Mirror) : Bool := (x.ext m).pvnum.any v.missing

/-- A copy is there, and the request is for it. -/
def usable (v : Volume) (lb : Buf) (x : Copies) (m : Mirror) : Bool :=
  (x.ext m).pvnum.any (fun pv => !v.missing pv) && (!lb.resync || decide (m ∈ x.lext.syncmsk))

/-- The mirrors that `lv_nextmir` comes to: none behind one that is not there. -/
def walk (x : Copies) : List Mirror → List Mirror
  | [] => []
  | m :: ms => m :: if (x.ext m).pvnum = none then [] else walk x ms

/-- The mirrors that a policy comes to. -/
def visited (v : Volume) (x : Copies) : Policy → List Mirror
  | .parallel => v.mirrors
  | .sequential => walk x v.mirrors

theorem setup_eq (v : Volume) (lb : Buf) (x : Copies) (ms : List Mirror) (s : Setup) :
    setup v lb x ms s =
      ⟨s.avoidmask ∪ (ms.filter (gone v x)).toFinset, s.donemask ∪ ms.toFinset,
        s.actmask ∪ (ms.filter (usable v lb x)).toFinset, s.ioQ ++ ms.filter (usable v lb x)⟩ := by
  induction ms generalizing s with
  | nil => simp [setup]
  | cons m ms ih =>
    have hunion (s t : Mask) (m : Mirror) : insert m s ∪ t = s ∪ insert m t := by
      rw [Finset.insert_union, Finset.union_insert]
    unfold setup
    rw [filter_cons, filter_cons]
    unfold gone usable at ih ⊢
    cases hpv : (x.ext m).pvnum with
    | none =>
      simp only [ih, hunion, Option.any_none, Bool.false_and, Bool.false_eq_true, if_false, toFinset_cons]
    | some pv =>
      cases hmissing : v.missing pv
      · by_cases hsync : m ∈ x.lext.syncmsk
        · simp [ih, hunion, hmissing, hsync]
        · cases hresync : lb.resync
          · simp [ih, hunion, hmissing, hresync]
          · simp [ih, hunion, hmissing, hresync, hsync]
      · simp [ih, hunion, hmissing]

/-- A buffer at the end of its operation. -/
def Pbuf.ended (io : Io) (pb : Pbuf) : Pbuf :=
  { pb with error := io.fails pb.mirror
            mirbad := if io.fails pb.mirror then insert pb.mirror pb.mirbad else pb.mirbad }

/-- The mirrors that have received a write, when one more operation has ended. -/
def receive (io : Io) (received : Mask) (m : Mirror) : Mask :=
  if io.fails m then received else insert m received

theorem mem_ended {pb : Pbuf} {c : Mirror} :
    c ∈ (pb.ended io).mirbad ↔ c ∈ pb.mirbad ∨ (pb.mirror = c ∧ io.fails c) := by
  unfold Pbuf.ended
  cases hfail : io.fails pb.mirror
  · simp only [Bool.false_eq_true, if_false]
    refine ⟨.inl, fun h => h.resolve_right fun hc => ?_⟩
    rw [← hc.1, hfail] at hc
    exact absurd hc.2 (by simp)
  · simp only [if_true, Finset.mem_insert]
    constructor
    · rintro (rfl | h)
      · exact .inr ⟨rfl, hfail⟩
      · exact .inl h
    · rintro (h | ⟨rfl, -⟩)
      · exact .inr h
      · exact .inl rfl

theorem mem_receive {received : Mask} {c : Mirror} :
    c ∈ receive io received m ↔ c ∈ received ∨ (m = c ∧ io.fails c = false) := by
  unfold receive
  cases hfail : io.fails m
  · simp only [Bool.false_eq_true, if_false, Finset.mem_insert]
    constructor
    · rintro (rfl | h)
      · exact .inr ⟨rfl, hfail⟩
      · exact .inl h
    · rintro (h | ⟨rfl, -⟩)
      · exact .inr h
      · exact .inl rfl
  · simp only [if_true]
    refine ⟨.inl, fun h => h.resolve_right fun hc => ?_⟩
    rw [← hc.1, hfail] at hc
    exact absurd hc.2 (by simp)

variable (v lb x io) in
theorem lvParwriteDone_end {done act avoid : Mask} {fuel : ℕ} (received : Mask) (ring : List Pbuf)
    (hfuel : ring.length = fuel) (hring : ring ≠ [])
    (hsame : ∀ pb ∈ ring, pb.mirdone = done ∧ pb.miract = act ∧ pb.miravoid = avoid) :
    ∃ last ∈ ring.map Pbuf.mirror, ∃ bad received',
      lvParwriteDone v lb x io fuel received ring =
        some (lvWriteDone v lb io.vgsaFailed x
          ⟨last, done, bad, act, avoid, io.fails last⟩, received') ∧
      (∀ c, c ∈ bad ↔ ∃ pb ∈ ring, c ∈ pb.mirbad ∨ (pb.mirror = c ∧ io.fails c)) ∧
      ∀ c, c ∈ received' ↔ c ∈ received ∨ ∃ pb ∈ ring, pb.mirror = c ∧ io.fails c = false := by
  induction fuel generalizing received ring with
  | zero => exact absurd (length_eq_zero_iff.mp hfuel) hring
  | succ fuel ih =>
    have hmem (pb : Pbuf) : pb ∈ ring ↔ pb ∈ ring.rotate (io.order fuel) := mem_rotate.symm
    have hmap (m : Mirror) :
        m ∈ ring.map Pbuf.mirror ↔ m ∈ (ring.rotate (io.order fuel)).map Pbuf.mirror := by
      simp only [mem_map, hmem]
    have hlen : (ring.rotate (io.order fuel)).length = fuel + 1 := by
      rw [length_rotate, hfuel]
    unfold lvParwriteDone
    simp only [hmem] at hsame
    simp only [hmem, hmap]
    generalize ring.rotate (io.order fuel) = ring' at *
    cases ring' with
    | nil => exact absurd hlen (by simp)
    | cons pb rest =>
      obtain ⟨hdone, hact, havoid⟩ := hsame pb (mem_cons_self ..)
      cases rest with
      | nil =>
        refine ⟨pb.mirror, mem_cons_self .., (pb.ended io).mirbad,
          receive io received pb.mirror, ?_, fun c => ?_, fun c => ?_⟩
        · rw [← hdone, ← hact, ← havoid]
          rfl
        · simp only [mem_singleton, exists_eq_left]
          exact mem_ended
        · simp only [mem_singleton, exists_eq_left]
          exact mem_receive
      | cons q rest =>
        obtain ⟨hdone', hact', havoid'⟩ := hsame q (by simp)
        let q' : Pbuf := { q with mirbad := q.mirbad ∪ (pb.ended io).mirbad }
        have hsame' : ∀ r ∈ q' :: rest,
            r.mirdone = done ∧ r.miract = act ∧ r.miravoid = avoid := by
          intro r hr
          rcases mem_cons.mp hr with heq | hr
          · exact heq ▸ ⟨hdone', hact', havoid'⟩
          · exact hsame r (by simp [hr])
        obtain ⟨last, hlast, bad, received', hrun, hbad, hreceived⟩ :=
          ih (receive io received pb.mirror) (q' :: rest) (Nat.succ_inj.mp hlen)
            (cons_ne_nil q' rest) hsame'
        refine ⟨last, mem_cons_of_mem _ hlast, bad, received', hrun, fun c => ?_, fun c => ?_⟩
        · rw [hbad]
          simp only [mem_cons, exists_eq_or_imp]
          have hq : c ∈ q'.mirbad ↔ c ∈ q.mirbad ∨ c ∈ (pb.ended io).mirbad := Finset.mem_union
          have hqm : q'.mirror = q.mirror := rfl
          rw [hq, hqm, mem_ended]
          apply iff_of_eq
          ac_rfl
        · rw [hreceived, mem_receive]
          simp only [mem_cons, exists_eq_or_imp]
          have hqm : q'.mirror = q.mirror := rfl
          apply iff_of_eq
          ac_rfl

theorem lvNextmir_skip {l₁ l₂ : List Mirror} {pb : Pbuf} (hdone : ∀ m ∈ l₁, m ∈ pb.mirdone) :
    lvNextmir v lb x (l₁ ++ l₂) pb = lvNextmir v lb x l₂ pb := by
  induction l₁ with
  | nil => rfl
  | cons m l₁ ih =>
    rw [cons_append, lvNextmir, if_pos (hdone m (mem_cons_self ..))]
    exact ih fun m' hm' => hdone m' (mem_cons_of_mem _ hm')

theorem lvNextmir_cons (hwrite : lb.read = false) {l : List Mirror} {pb : Pbuf}
    (hm : m ∉ pb.mirdone) (hpv : (x.ext m).pvnum ≠ none) :
    lvNextmir v lb x (m :: l) pb =
      if usable v lb x m then
        ({ pb with mirdone := insert m pb.mirdone, miract := insert m pb.miract, mirror := m }, some m)
      else lvNextmir v lb x l { pb with
        mirdone := insert m pb.mirdone
        miravoid := pb.miravoid ∪ ([m].filter (gone v x)).toFinset } := by
  rw [lvNextmir, if_neg hm]
  unfold usable gone
  cases hpv' : (x.ext m).pvnum with
  | none => exact absurd hpv' hpv
  | some pv =>
    cases hmissing : v.missing pv
    · cases hresync : lb.resync
      · simp [hwrite, hmissing]
      · by_cases hsync : m ∈ x.lext.syncmsk
        · simp [hmissing, hsync]
        · simp [hmissing, hsync, hpv']
    · simp [hwrite, hmissing, hpv']

theorem walk_cons (hpv : (x.ext m).pvnum ≠ none) (l : List Mirror) : walk x (m :: l) = m :: walk x l := by
  rw [walk, if_neg hpv]

theorem mem_walk {l : List Mirror} (hsorted : l.Pairwise (· < ·)) :
    m ∈ walk x l ↔ m ∈ l ∧ ∀ m' ∈ l, m' < m → (x.ext m').pvnum ≠ none := by
  induction l with
  | nil => simp [walk]
  | cons c l ih =>
    obtain ⟨hfirst, hrest⟩ := pairwise_cons.mp hsorted
    unfold walk
    rw [mem_cons]
    constructor
    · intro h
      rcases h with heq | h
      · subst heq
        refine ⟨mem_cons_self .., fun m' hm' hlt => ?_⟩
        rcases mem_cons.mp hm' with heq | hm'
        · exact absurd (heq ▸ hlt) (lt_irrefl m)
        · exact absurd (hlt.trans (hfirst m' hm')) (lt_irrefl m')
      · split at h
        · exact absurd h not_mem_nil
        · rename_i hpv
          obtain ⟨hm, hall⟩ := (ih hrest).mp h
          refine ⟨mem_cons_of_mem _ hm, fun m' hm' hlt => ?_⟩
          rcases mem_cons.mp hm' with heq | hm'
          · exact heq ▸ hpv
          · exact hall m' hm' hlt
    · rintro ⟨hm, hall⟩
      rcases mem_cons.mp hm with heq | hm
      · exact .inl heq
      · right
        rw [if_neg (hall c (mem_cons_self ..) (hfirst m hm))]
        exact (ih hrest).mpr ⟨hm, fun m' hm' => hall m' (mem_cons_of_mem _ hm')⟩

theorem pairwise_mirrors (v : Volume) : v.mirrors.Pairwise (· < ·) := (pairwise_lt_finRange 3).filter _

theorem mem_walk_mirrors : m ∈ walk x v.mirrors ↔ m ≤ v.maxmirrors ∧ ∀ m' < m, (x.ext m').pvnum ≠ none := by
  rw [mem_walk (pairwise_mirrors v), mem_mirrors]
  simp only [mem_mirrors]
  exact and_congr_right fun hm => forall_congr' fun m' =>
    ⟨fun h hlt => h (hlt.le.trans hm) hlt, fun h _ hlt => h hlt⟩

theorem lvNextmir_cases (hwrite : lb.read = false) {l : List Mirror} (hnodup : l.Nodup) (pb : Pbuf)
    (hfresh : ∀ m ∈ l, m ∉ pb.mirdone) :
    ((∀ m ∈ walk x l, usable v lb x m = false) ∧
      lvNextmir v lb x l pb = ({ pb with
        mirdone := pb.mirdone ∪ (walk x l).toFinset
        miravoid := pb.miravoid ∪ ((walk x l).filter (gone v x)).toFinset }, none)) ∨
    ∃ l₁ m l₂, l = l₁ ++ m :: l₂ ∧ (∀ m ∈ l₁, usable v lb x m = false) ∧ usable v lb x m ∧
      walk x l = l₁ ++ m :: walk x l₂ ∧
      lvNextmir v lb x l pb = ({ pb with
        mirdone := pb.mirdone ∪ (l₁ ++ [m]).toFinset
        miravoid := pb.miravoid ∪ (l₁.filter (gone v x)).toFinset
        miract := insert m pb.miract
        mirror := m }, some m) := by
  induction l generalizing pb with
  | nil => exact .inl (by simp [walk, lvNextmir])
  | cons m l ih =>
    have hm : m ∉ pb.mirdone := hfresh m (mem_cons_self ..)
    rw [nodup_cons] at hnodup
    by_cases hpv : (x.ext m).pvnum = none
    · -- the walk ends here
      have hwalk : walk x (m :: l) = [m] := by
        rw [walk, if_pos hpv]
      have husable : usable v lb x m = false := by
        simp [usable, hpv]
      have hgone : gone v x m = false := by
        simp [gone, hpv]
      rw [hwalk, lvNextmir, if_neg hm, hpv]
      refine .inl ⟨fun m' hm' => mem_singleton.mp hm' ▸ husable, ?_⟩
      simp [hgone]
    rw [lvNextmir_cons hwrite hm hpv, walk_cons hpv]
    cases husable : usable v lb x m
    · -- the next mirrors
      rw [if_neg Bool.false_ne_true]
      have hnext : ∀ m' ∈ l, m' ∉ insert m pb.mirdone := by
        intro m' hm' hmem
        rcases Finset.mem_insert.mp hmem with heq | hmem
        · exact hnodup.1 (heq ▸ hm')
        · exact hfresh m' (mem_cons_of_mem _ hm') hmem
      have hfilter (l : List Mirror) :
          (m :: l).filter (gone v x) = [m].filter (gone v x) ++ l.filter (gone v x) :=
        filter_append [m] l
      rcases ih hnodup.2 { pb with
          mirdone := insert m pb.mirdone
          miravoid := pb.miravoid ∪ ([m].filter (gone v x)).toFinset } hnext with hend | hfound
      · obtain ⟨hnone, hrun⟩ := hend
        refine .inl ⟨fun m' hm' => ?_, ?_⟩
        · rcases mem_cons.mp hm' with heq | hm'
          · exact heq ▸ husable
          · exact hnone m' hm'
        · rw [hrun, hfilter (walk x l), toFinset_append, toFinset_cons, ← Finset.union_assoc,
            Finset.insert_union, Finset.union_insert]
      · obtain ⟨l₁, m₁, l₂, rfl, hl₁, hm₁, hwalk, hrun⟩ := hfound
        refine .inr ⟨m :: l₁, m₁, l₂, rfl, fun m' hm' => ?_, hm₁, ?_, ?_⟩
        · rcases mem_cons.mp hm' with heq | hm'
          · exact heq ▸ husable
          · exact hl₁ m' hm'
        · rw [hwalk, cons_append]
        · rw [hrun, hfilter l₁, toFinset_append (l := [m].filter (gone v x)),
            cons_append, toFinset_cons, ← Finset.union_assoc, Finset.insert_union,
            Finset.union_insert]
    · refine .inr ⟨[], m, l, rfl, fun m' hm' => absurd hm' not_mem_nil, husable, rfl, ?_⟩
      simp

theorem walk_found {l a b : List Mirror} (ha : ∀ m ∈ a, usable v lb x m = false)
    (hm : usable v lb x m) (hwalk : walk x l = a ++ m :: walk x b) :
    (walk x l).filter (usable v lb x) = m :: (walk x b).filter (usable v lb x) ∧
      ((walk x l).filter (gone v x)).toFinset =
        (a.filter (gone v x)).toFinset ∪ ((walk x b).filter (gone v x)).toFinset := by
  have hempty : a.filter (usable v lb x) = [] :=
    filter_eq_nil_iff.mpr fun m hm => by
      rw [ha m hm]
      exact Bool.false_ne_true
  have hgone : gone v x m = false := by
    unfold usable at hm
    unfold gone
    cases hpv : (x.ext m).pvnum with
    | none => rfl
    | some pv =>
      rw [hpv] at hm
      simp only [Option.any_some, Bool.and_eq_true, Bool.not_eq_true'] at hm
      exact hm.1
  constructor
  · rw [hwalk, filter_append, hempty, nil_append, filter_cons_of_pos hm]
  · rw [hwalk, filter_append, filter_cons_of_neg (by rw [hgone]; exact Bool.false_ne_true), toFinset_append]

variable (io) in
/-- A sequential write comes to its end with the masks of its whole walk. -/
theorem lvSeqwrite_end (hwrite : lb.read = false) {fuel : ℕ} {l₁ l₂ : List Mirror}
    (hl : v.mirrors = l₁ ++ l₂) (hfuel : l₂.length < fuel) (received : Mask) (pb : Pbuf)
    (hdone : ∀ m, m ∈ pb.mirdone ↔ m ∈ l₁) :
    ∃ last bad received',
      lvSeqwrite v lb x io fuel received pb =
        some (lvWriteDone v lb io.vgsaFailed x
          ⟨last, pb.mirdone ∪ (walk x l₂).toFinset, bad,
            pb.miract ∪ ((walk x l₂).filter (usable v lb x)).toFinset,
            pb.miravoid ∪ ((walk x l₂).filter (gone v x)).toFinset, io.fails last⟩, received') ∧
      (last = pb.mirror ∨ last ∈ (walk x l₂).filter (usable v lb x)) ∧
      (∀ c, c ∈ bad ↔ c ∈ pb.mirbad ∨ ((c = pb.mirror ∨ c ∈ (walk x l₂).filter (usable v lb x)) ∧ io.fails c)) ∧
      ∀ c, c ∈ received' ↔ c ∈ received ∨
        ((c = pb.mirror ∨ c ∈ (walk x l₂).filter (usable v lb x)) ∧ io.fails c = false) := by
  induction fuel generalizing l₁ l₂ pb received with
  | zero => cases hfuel
  | succ fuel ih =>
    have hnodup := nodup_mirrors v
    rw [hl, nodup_append] at hnodup
    have hnext : lvNextmir v lb x v.mirrors (pb.ended io) = lvNextmir v lb x l₂ (pb.ended io) := by
      rw [hl]
      exact lvNextmir_skip fun m hm => (hdone m).mpr hm
    have hfresh : ∀ m ∈ l₂, m ∉ (pb.ended io).mirdone := fun m hm hmem =>
      hnodup.2.2 m ((hdone m).mp hmem) m hm rfl
    have hrun : lvSeqwrite v lb x io (fuel + 1) received pb =
        match lvNextmir v lb x l₂ (pb.ended io) with
        | (pb', some _) => lvSeqwrite v lb x io fuel (receive io received pb.mirror)
            { pb' with error := false }
        | (pb', none) => some (lvWriteDone v lb io.vgsaFailed x pb', receive io received pb.mirror) := by
      rw [← hnext]
      rfl
    rcases lvNextmir_cases hwrite hnodup.2.1 (pb.ended io) hfresh with
        ⟨hnone, hlast⟩ | ⟨a, m, b, rfl, ha, hm, hwalk, hbegun⟩
    · have hempty : (walk x l₂).filter (usable v lb x) = [] :=
        filter_eq_nil_iff.mpr fun m hm => by rw [hnone m hm]; exact Bool.false_ne_true
      rw [hrun, hlast, hempty]
      refine ⟨pb.mirror, (pb.ended io).mirbad, receive io received pb.mirror, ?_, .inl rfl,
        fun c => ?_, fun c => ?_⟩
      · rw [toFinset_nil, Finset.union_empty]
        rfl
      · rw [mem_ended, eq_comm (a := pb.mirror)]
        simp only [not_mem_nil, or_false]
      · rw [mem_receive, eq_comm (a := pb.mirror)]
        simp only [not_mem_nil, or_false]
    · obtain ⟨hfilter, hgones⟩ := walk_found ha hm hwalk
      have hl' : v.mirrors = (l₁ ++ (a ++ [m])) ++ b := by
        rw [hl]
        simp
      have hfuel' : b.length < fuel := by
        simp only [length_append, length_cons] at hfuel
        omega
      have hdone' : ∀ c, c ∈ pb.mirdone ∪ (a ++ [m]).toFinset ↔ c ∈ l₁ ++ (a ++ [m]) := by
        intro c
        rw [Finset.mem_union, hdone, mem_toFinset, mem_append (s := l₁)]
      let next : Pbuf := { pb.ended io with
        mirdone := pb.mirdone ∪ (a ++ [m]).toFinset
        miravoid := pb.miravoid ∪ (a.filter (gone v x)).toFinset
        miract := insert m pb.miract
        mirror := m
        error := false }
      obtain ⟨last, bad, received', hrest, hlast, hbad, hreceived⟩ :=
        ih hl' hfuel' (receive io received pb.mirror) next hdone'
      have hmasks : (⟨last, next.mirdone ∪ (walk x b).toFinset, bad,
          next.miract ∪ ((walk x b).filter (usable v lb x)).toFinset,
          next.miravoid ∪ ((walk x b).filter (gone v x)).toFinset, io.fails last⟩ : Pbuf) =
          ⟨last, pb.mirdone ∪ (walk x (a ++ m :: b)).toFinset, bad,
            pb.miract ∪ (m :: (walk x b).filter (usable v lb x)).toFinset,
            pb.miravoid ∪ ((walk x (a ++ m :: b)).filter (gone v x)).toFinset, io.fails last⟩ := by
        have h₁ : next.mirdone ∪ (walk x b).toFinset =
            pb.mirdone ∪ (walk x (a ++ m :: b)).toFinset := by
          rw [hwalk, Finset.union_assoc, ← toFinset_append, append_assoc, singleton_append]
        have h₂ : next.miract ∪ ((walk x b).filter (usable v lb x)).toFinset =
            pb.miract ∪ (m :: (walk x b).filter (usable v lb x)).toFinset := by
          rw [toFinset_cons, Finset.union_insert, ← Finset.insert_union]
        have h₃ : next.miravoid ∪ ((walk x b).filter (gone v x)).toFinset =
            pb.miravoid ∪ ((walk x (a ++ m :: b)).filter (gone v x)).toFinset := by
          rw [hgones, ← Finset.union_assoc]
        rw [h₁, h₂, h₃]
      rw [hrun, hbegun, hfilter]
      refine ⟨last, bad, received', ?_, .inr ?_, fun c => ?_, fun c => ?_⟩
      · rw [← hmasks]
        exact hrest
      · rcases hlast with heq | hmem
        · exact heq ▸ mem_cons_self ..
        · exact mem_cons_of_mem _ hmem
      · have hold : c ∈ next.mirbad ↔ c ∈ pb.mirbad ∨ (pb.mirror = c ∧ io.fails c) := mem_ended
        rw [hbad, hold, mem_cons, eq_comm (a := pb.mirror), or_assoc, ← or_and_right]
      · rw [hreceived, mem_receive, mem_cons, eq_comm (a := pb.mirror), or_assoc, ← or_and_right]

/-- What is in the buffer of a write before it is used. -/
def Write.leftover (w : Write) : Mask := if w.policy = .sequential then w.miravoid else ∅

/-- The mirrors that a write goes to. -/
def targets (v : Volume) (x : Copies) (w : Write) : List Mirror := (visited v x w.policy).filter (usable v w.buf x)

/-- The mirrors that a write leaves out, or that were left out by the last user of its buffer. -/
def avoided (v : Volume) (x : Copies) (w : Write) : Mask :=
  w.leftover ∪ ((visited v x w.policy).filter (gone v x)).toFinset

theorem lvParallel_end (hw : w.policy = .parallel) :
    (targets v x w = [] ∧ lvParallel v w.buf x w.io = some (.done true x, ∅)) ∨
    ∃ last ∈ targets v x w, ∃ bad received,
      lvParallel v w.buf x w.io = some (lvWriteDone v w.buf w.io.vgsaFailed x
        ⟨last, (visited v x w.policy).toFinset, bad, (targets v x w).toFinset, avoided v x w,
          w.io.fails last⟩, received) ∧
      (∀ c, c ∈ bad ↔ c ∈ targets v x w ∧ w.io.fails c) ∧
      ∀ c, c ∈ received ↔ c ∈ targets v x w ∧ w.io.fails c = false := by
  have hvisited : visited v x w.policy = v.mirrors := by
    rw [hw]
    rfl
  have hleft : w.leftover = ∅ := if_neg (by rw [hw]; decide)
  unfold lvParallel avoided targets
  rw [setup_eq, hvisited, hleft]
  simp only [Finset.empty_union, nil_append]
  generalize v.mirrors.filter (usable v w.buf x) = ts
  cases ts with
  | nil => exact .inl ⟨rfl, if_pos rfl⟩
  | cons t ts =>
    let ring : List Pbuf := (t :: ts).map fun m => ⟨m, v.mirrors.toFinset, ∅, (t :: ts).toFinset,
      (v.mirrors.filter (gone v x)).toFinset, false⟩
    have hmem {P : Pbuf → Prop} : (∃ pb ∈ ring, P pb) ↔ ∃ m ∈ t :: ts, P ⟨m, v.mirrors.toFinset, ∅,
        (t :: ts).toFinset, (v.mirrors.filter (gone v x)).toFinset, false⟩ := by
      simp only [ring, mem_map, exists_exists_and_eq_and]
    have hsame : ∀ pb ∈ ring, pb.mirdone = v.mirrors.toFinset ∧ pb.miract = (t :: ts).toFinset ∧
        pb.miravoid = (v.mirrors.filter (gone v x)).toFinset := by
      intro pb hpb
      obtain ⟨m, -, rfl⟩ := mem_map.mp hpb
      exact ⟨rfl, rfl, rfl⟩
    obtain ⟨last, hlast, bad, received, hrun, hbad, hreceived⟩ :=
      lvParwriteDone_end v w.buf x w.io ∅ ring (length_map ..) (cons_ne_nil _ _) hsame
    obtain ⟨pb, hpb, rfl⟩ := mem_map.mp hlast
    obtain ⟨m, hm, rfl⟩ := mem_map.mp hpb
    refine .inr ⟨m, hm, bad, received, hrun, fun c => ?_, fun c => ?_⟩
    · rw [hbad, hmem]
      simp only [Finset.notMem_empty, false_or]
      exact ⟨fun ⟨m, hm, heq, hfail⟩ => heq ▸ ⟨hm, heq ▸ hfail⟩, fun ⟨hm, hfail⟩ => ⟨c, hm, rfl, hfail⟩⟩
    · rw [hreceived, hmem]
      simp only [Finset.notMem_empty, false_or]
      exact ⟨fun ⟨m, hm, heq, hfail⟩ => heq ▸ ⟨hm, heq ▸ hfail⟩, fun ⟨hm, hfail⟩ => ⟨c, hm, rfl, hfail⟩⟩

theorem lvSequential_end (hw : w.policy = .sequential) :
    (targets v x w = [] ∧ lvSequential v w.buf x w.io w.miravoid = some (.done true x, ∅)) ∨
    ∃ last ∈ targets v x w, ∃ bad received,
      lvSequential v w.buf x w.io w.miravoid = some (lvWriteDone v w.buf w.io.vgsaFailed x
        ⟨last, (visited v x w.policy).toFinset, bad, (targets v x w).toFinset, avoided v x w,
          w.io.fails last⟩, received) ∧
      (∀ c, c ∈ bad ↔ c ∈ targets v x w ∧ w.io.fails c) ∧
      ∀ c, c ∈ received ↔ c ∈ targets v x w ∧ w.io.fails c = false := by
  have hvisited : visited v x w.policy = walk x v.mirrors := by
    rw [hw]
    rfl
  have hleft : w.leftover = w.miravoid := if_pos hw
  unfold lvSequential avoided targets
  rw [hvisited, hleft]
  have hwrite : w.buf.read = false := rfl
  cases lvNextmir_cases (v := v) (x := x) hwrite (nodup_mirrors v)
      ⟨0, ∅, ∅, ∅, w.miravoid, false⟩ fun m _ => Finset.notMem_empty m with
  | inl hend =>
    obtain ⟨hnone, hrun⟩ := hend
    refine .inl ⟨filter_eq_nil_iff.mpr fun m hm => ?_, ?_⟩
    · rw [hnone m hm]
      exact Bool.false_ne_true
    · rw [hrun]
  | inr hfound =>
    obtain ⟨a, m, b, hl, ha, hm, hwalk, hbegun⟩ := hfound
    obtain ⟨hfilter, hgones⟩ := walk_found ha hm hwalk
    have hl' : v.mirrors = (a ++ [m]) ++ b := by
      rw [hl, append_assoc, singleton_append]
    have hfuel : b.length < 3 := by
      have hle : v.mirrors.length ≤ 3 := length_filter_le ..
      rw [hl, length_append, length_cons] at hle
      omega
    let first : Pbuf := ⟨m, ∅ ∪ (a ++ [m]).toFinset, ∅, insert m ∅,
      w.miravoid ∪ (a.filter (gone v x)).toFinset, false⟩
    have hdone : ∀ c, c ∈ first.mirdone ↔ c ∈ a ++ [m] := by
      intro c
      simp only [first, Finset.empty_union, mem_toFinset]
    obtain ⟨last, bad, received, hrun, hlast, hbad, hreceived⟩ :=
      lvSeqwrite_end (x := x) w.io hwrite hl' hfuel ∅ first hdone
    have hmasks : (⟨last, first.mirdone ∪ (walk x b).toFinset, bad,
        first.miract ∪ ((walk x b).filter (usable v w.buf x)).toFinset,
        first.miravoid ∪ ((walk x b).filter (gone v x)).toFinset, w.io.fails last⟩ : Pbuf) =
        ⟨last, (walk x v.mirrors).toFinset, bad, (m :: (walk x b).filter (usable v w.buf x)).toFinset,
          w.miravoid ∪ ((walk x v.mirrors).filter (gone v x)).toFinset, w.io.fails last⟩ := by
      have h₁ : first.mirdone ∪ (walk x b).toFinset = (walk x v.mirrors).toFinset := by
        simp only [first, Finset.empty_union]
        rw [hwalk, ← toFinset_append, append_assoc, singleton_append]
      have h₂ : first.miract ∪ ((walk x b).filter (usable v w.buf x)).toFinset =
          (m :: (walk x b).filter (usable v w.buf x)).toFinset := by
        rw [toFinset_cons, Finset.insert_union, Finset.empty_union]
      have h₃ : first.miravoid ∪ ((walk x b).filter (gone v x)).toFinset =
          w.miravoid ∪ ((walk x v.mirrors).filter (gone v x)).toFinset := by
        rw [hgones, ← Finset.union_assoc]
      rw [h₁, h₂, h₃]
    have hmem {c : Mirror} : (c = first.mirror ∨ c ∈ (walk x b).filter (usable v w.buf x)) ↔
        c ∈ m :: (walk x b).filter (usable v w.buf x) := mem_cons.symm
    simp only [hmem] at hlast hbad hreceived
    rw [hbegun, hfilter]
    refine .inr ⟨last, hlast, bad, received, ?_, fun c => ?_, fun c => ?_⟩
    · rw [← hmasks]
      exact hrun
    · rw [hbad]
      simp only [first, Finset.notMem_empty, false_or]
    · rw [hreceived]
      simp only [Finset.notMem_empty, false_or]

theorem lvWrite_end (v : Volume) (x : Copies) (w : Write) :
    (targets v x w = [] ∧ lvWrite v x w = some (.done true x, ∅)) ∨
    ∃ last ∈ targets v x w, ∃ bad received,
      lvWrite v x w = some (lvWriteDone v w.buf w.io.vgsaFailed x
        ⟨last, (visited v x w.policy).toFinset, bad, (targets v x w).toFinset, avoided v x w,
          w.io.fails last⟩, received) ∧
      (∀ c, c ∈ bad ↔ c ∈ targets v x w ∧ w.io.fails c) ∧
      ∀ c, c ∈ received ↔ c ∈ targets v x w ∧ w.io.fails c = false := by
  have hpolicy : w.policy = .parallel ∨ w.policy = .sequential := by
    cases w.policy
    · exact .inl rfl
    · exact .inr rfl
  rcases hpolicy with hw | hw
  · have hrun : lvWrite v x w = lvParallel v w.buf x w.io := by
      unfold lvWrite
      rw [hw]
    rw [hrun]
    exact lvParallel_end hw
  · have hrun : lvWrite v x w = lvSequential v w.buf x w.io w.miravoid := by
      unfold lvWrite
      rw [hw]
    rw [hrun]
    exact lvSequential_end hw

end Masks

end Osf1.Lvm
