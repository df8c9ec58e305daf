import Osf1.Computation.Admission
import Osf1.Errno

/-!
# Logical requests: the code of `lv_block.c`, and of `lv_strategy.c` around it

A logical request is within one logical track group, and it is hashed by the group to a chain of
`work_Q`.  It is blocked as long as an earlier request on the chain works on one of its pages.
While a volume is paused every new request is blocked.
-/

set_option autoImplicit false

namespace Osf1.Strategy

open List

section Model

open Osf1.Computation (Ticket)

/-- A logical request.  The `id` tells one request from another one for the same blocks.
SRC: sys/buf.h -/
structure Request where
  id : ℕ
  blkno : BitVec 32
  bcount : BitVec 32
  read : Bool
  resync : Bool
  deriving DecidableEq

/-- A request on a chain; it waits when its `b_error` is `ELBBLOCKED`. -/
abbrev Entry := Ticket Request

/-- `DEV_BSIZE` -/
def DEV_BSIZE : ℕ := 512

/-- SRC: lvm/ltg.h:51-53 -/
def PGPTRK : ℕ := 32

def TRKSHIFT : ℕ := 5

/-- SRC: lvm/ltg.h:75 -/
def WORKQ_SIZE : ℕ := 64

/-- `BPPGSHIFT` is the `shift` of the pages of the machine.
SRC: lvm/ltg.h:62 -/
def blk2trk (shift : ℕ) (blkno : BitVec 32) : ℕ := blkno.toNat / 2 ^ (TRKSHIFT + shift)

/-- SRC: lvm/ltg.h:80-81 -/
def lvHash (shift : ℕ) (lb : Request) : Fin 64 := Fin.ofNat 64 (blk2trk shift lb.blkno)

/-- The offset of the first page within the logical track group. -/
def pwt (shift : ℕ) (lb : Request) : ℕ := lb.blkno.toNat / 2 ^ shift % PGPTRK

/-- The count of the pages affected.  The subtraction is unsigned. -/
def pct (shift : ℕ) (lb : Request) : ℕ :=
  let bwp := lb.blkno.toNat % 2 ^ shift
  let bct := lb.bcount.toNat / DEV_BSIZE
  (bwp + bct + (2 ^ 32 - 1)) % 2 ^ 32 / 2 ^ shift + 1

/-- `b_work`.
SRC: lvm/lv_block.c:239 -/
def work (shift : ℕ) (lb : Request) : ℕ := ((2 ^ 32 - 1) >>> (PGPTRK - pct shift lb)) <<< pwt shift lb % 2 ^ 32

/-- SRC: lvm/lv_block.c:208-246 -/
def lvWorkmask (shift : ℕ) (lb : Request) : ℕ :=
  if PGPTRK < pwt shift lb + pct shift lb then EINVAL else 0

/-- The pages in use by the requests of a track group. -/
def conflictsOf (shift ltgno : ℕ) (chain : List Entry) : ℕ :=
  chain.foldl (fun conflicts e =>
    if blk2trk shift e.item.blkno = ltgno then conflicts ||| work shift e.item else conflicts) 0

/-- A chain and the requests that are added to the queue. -/
structure Chain where
  bp : List Entry
  ready : List Request

/-- There is none when `lv_workmask` fails.
SRC: lvm/lv_block.c:75-128 -/
def lvBlock (shift : ℕ) (bp : List Entry) (lb : Request) (flag : Bool) : Option Chain :=
  if lvWorkmask shift lb ≠ 0 then none
  else
    let conflicts := conflictsOf shift (blk2trk shift lb.blkno) bp
    if !flag && decide (conflicts &&& work shift lb = 0) then some ⟨bp ++ [⟨lb, false⟩], [lb]⟩
    else some ⟨bp ++ [⟨lb, true⟩], []⟩

/-- Scan newer blocked requests on the same hash chain to see if they can be unblocked.
SRC: lvm/lv_block.c:181-205 -/
def unblockNewer (shift : ℕ) : List Entry → List Entry → Chain
  | _, [] => ⟨[], []⟩
  | chain, next :: newer =>
    if next.waits then
      let conflicts := conflictsOf shift (blk2trk shift next.item.blkno) chain
      if conflicts &&& work shift next.item = 0 then
        let r := unblockNewer shift (chain ++ [⟨next.item, false⟩]) newer
        ⟨⟨next.item, false⟩ :: r.bp, next.item :: r.ready⟩
      else
        let r := unblockNewer shift (chain ++ [next]) newer
        ⟨next :: r.bp, r.ready⟩
    else
      let r := unblockNewer shift (chain ++ [next]) newer
      ⟨next :: r.bp, r.ready⟩

/-- There is none when it panics: the request is not on the chain.
SRC: lvm/lv_block.c:140-206 -/
def lvUnblock (shift : ℕ) (bp : List Entry) (lb : Request) (flag : Bool) : Option Chain :=
  match bp.dropWhile (fun e => e.item ≠ lb) with
  | [] => none
  | _ :: newer =>
    let older := bp.takeWhile (fun e => e.item ≠ lb)
    if flag then some ⟨older ++ newer, []⟩
    else
      let r := unblockNewer shift older newer
      some ⟨older ++ r.bp, r.ready⟩

/-- The requests in progress on a chain.
SRC: lvm/lv_block.c:257-270 -/
def lvWorkqcount (q : List Entry) : ℕ := q.countP fun e => !e.waits

/-- What `lv_intlock` protects of a logical volume.  `pausing` is `LV_PAUSING`, `paused` is
`LV_PAUSED`.
SRC: lvm/lvmd.h:262-300 -/
structure Lvol where
  workQ : Fin 64 → List Entry
  pausing : Bool
  paused : Bool
  complcnt : ℤ
  requestcount : ℤ

/-- A volume when it is opened. -/
def Lvol.idle : Lvol := ⟨fun _ => [], false, false, 0, 0⟩

/-- All requests on `work_Q`. -/
def Lvol.requests (lv : Lvol) : List Entry := (List.finRange 64).flatMap lv.workQ

/-- The volume and the requests that are added to `lv_ready_Q`. -/
structure Turn where
  lv : Lvol
  ready : List Request

/-- A request comes to the volume.
SRC: lvm/lv_strategy.c:384-405 -/
def lvStrategy (shift : ℕ) (lv : Lvol) (lb : Request) : Option Turn :=
  let hash := lvHash shift lb
  (lvBlock shift (lv.workQ hash) lb (lv.pausing || lv.paused)).map fun r =>
    ⟨{ lv with
      workQ := Function.update lv.workQ hash r.bp
      requestcount := lv.requestcount + 1 }, r.ready⟩

/-- A request is done.  There is none when it panics.
SRC: lvm/lv_strategy.c:693-735 -/
def lvComplete (shift : ℕ) (lv : Lvol) (lb : Request) : Option Turn :=
  let hash := lvHash shift lb
  (lvUnblock shift (lv.workQ hash) lb lv.pausing).bind fun r =>
    if lv.paused then none
    else
      some ⟨{ lv with
        workQ := Function.update lv.workQ hash r.bp
        complcnt := if lv.pausing then lv.complcnt - 1 else lv.complcnt
        requestcount := lv.requestcount - 1 }, r.ready⟩

/-- The volume starts to pause.  There is none when it panics.
SRC: lvm/lv_strategy.c:752-778 -/
def lvPause (lv : Lvol) : Option Lvol :=
  if lv.paused || lv.pausing then none
  else
    some { lv with
      pausing := true
      complcnt := lv.complcnt + ((List.finRange 64).map fun q => lvWorkqcount (lv.workQ q)).sum }

/-- The loop of `lv_pause` is left.
SRC: lvm/lv_strategy.c:780-794 -/
def lvPaused (lv : Lvol) : Option Lvol :=
  if lv.pausing && decide (lv.complcnt = 0) then some { lv with pausing := false, paused := true }
  else none

/-- A chain is built again from its requests.
SRC: lvm/lv_strategy.c:826-835 -/
def reblock (shift : ℕ) : List Entry → List Entry → Option Chain
  | bp, [] => some ⟨bp, []⟩
  | bp, lb :: next =>
    (lvBlock shift bp lb.item false).bind fun r =>
      (reblock shift r.bp next).map fun r' => ⟨r'.bp, r.ready ++ r'.ready⟩

/-- There is none when it panics.
SRC: lvm/lv_strategy.c:806-843 -/
def lvContinue (shift : ℕ) (lv : Lvol) : Option Turn :=
  let chains (q : Fin 64) := reblock shift [] (lv.workQ q)
  if lv.paused && !lv.pausing && decide (∀ q, (chains q).isSome) then
    some ⟨{ lv with paused := false, workQ := fun q => ((chains q).getD ⟨[], []⟩).bp },
      (List.finRange 64).flatMap fun q => ((chains q).getD ⟨[], []⟩).ready⟩
  else none

end Model

/-!
## The work mask of a request

For a request that `lv_workmask` accepts, the bits of `b_work` are the pages of the request within
its logical track group.  So two requests of one track group have a common bit exactly when they
have a common page, and requests of two track groups have no common page.
-/

section Workmask

open Osf1.Computation (Ticket)

variable {shift : ℕ} {lb a b : Request} {bp : List Entry} {p i : ℕ}

/-- The pages of the device that `lv_workmask` counts as affected by a request. -/
def pages (shift : ℕ) (lb : Request) : Finset ℕ :=
  Finset.Ico (lb.blkno.toNat / 2 ^ shift) (lb.blkno.toNat / 2 ^ shift + pct shift lb)

/-- Two requests of one logical track group work on a common page. -/
def Conflict (shift : ℕ) (a b : Request) : Prop :=
  blk2trk shift a.blkno = blk2trk shift b.blkno ∧ work shift a &&& work shift b ≠ 0

instance : DecidableRel (Conflict shift) := fun a b => by
  unfold Conflict
  infer_instance

theorem pct_le_of_accepted (h : lvWorkmask shift lb = 0) : pwt shift lb + pct shift lb ≤ PGPTRK := by
  by_contra hlt
  have hinval : lvWorkmask shift lb = EINVAL := if_pos (Nat.lt_of_not_le hlt)
  rw [hinval] at h
  cases h

theorem testBit_work (h : lvWorkmask shift lb = 0) :
    (work shift lb).testBit i =
      decide (pwt shift lb ≤ i ∧ i < pwt shift lb + pct shift lb) := by
  have hle : pwt shift lb + pct shift lb ≤ 32 := pct_le_of_accepted h
  unfold work
  rw [Nat.testBit_mod_two_pow, Nat.testBit_shiftLeft, Nat.testBit_shiftRight,
    Nat.testBit_two_pow_sub_one, ← Bool.decide_and, ← Bool.decide_and]
  apply decide_eq_decide.mpr
  unfold PGPTRK
  omega

theorem first_page (shift : ℕ) (lb : Request) :
    lb.blkno.toNat / 2 ^ shift = blk2trk shift lb.blkno * PGPTRK + pwt shift lb := by
  unfold blk2trk pwt
  rw [Nat.pow_add, Nat.mul_comm (2 ^ TRKSHIFT), ← Nat.div_div_eq_div_mul]
  exact (Nat.div_add_mod' _ _).symm

theorem mem_pages_iff (h : lvWorkmask shift lb = 0) :
    p ∈ pages shift lb ↔
      p / PGPTRK = blk2trk shift lb.blkno ∧ (work shift lb).testBit (p % PGPTRK) := by
  have hle := pct_le_of_accepted h
  have hfirst := first_page shift lb
  rw [testBit_work h, decide_eq_true_eq, pages, Finset.mem_Ico, hfirst]
  unfold PGPTRK at *
  omega

theorem and_eq_zero_iff {x y : ℕ} : x &&& y = 0 ↔ ∀ i, ¬(x.testBit i ∧ y.testBit i) := by
  constructor
  · intro h i hi
    have hbit := Nat.testBit_and x y i
    rw [h, hi.1, hi.2, Nat.zero_testBit] at hbit
    cases hbit
  · intro h
    apply Nat.eq_of_testBit_eq
    intro i
    rw [Nat.testBit_and, Nat.zero_testBit]
    exact Bool.eq_false_iff.mpr fun hi => h i (Bool.and_eq_true_iff.mp hi)

theorem conflict_iff (ha : lvWorkmask shift a = 0) (hb : lvWorkmask shift b = 0) :
    Conflict shift a b ↔ ¬Disjoint (pages shift a) (pages shift b) := by
  rw [Finset.not_disjoint_iff]
  constructor
  · rintro ⟨htrk, hwork⟩
    rw [Ne, and_eq_zero_iff, not_forall] at hwork
    obtain ⟨i, hi⟩ := hwork
    obtain ⟨hia, hib⟩ := not_not.mp hi
    have hlt : i < PGPTRK := by
      have hrange := of_decide_eq_true ((testBit_work ha).symm.trans hia)
      have hle := pct_le_of_accepted ha
      omega
    have hdiv : (blk2trk shift a.blkno * PGPTRK + i) / PGPTRK = blk2trk shift a.blkno := by
      unfold PGPTRK at *
      omega
    have hmod : (blk2trk shift a.blkno * PGPTRK + i) % PGPTRK = i := by
      unfold PGPTRK at *
      omega
    refine ⟨blk2trk shift a.blkno * PGPTRK + i, ?_, ?_⟩
    · exact (mem_pages_iff ha).mpr ⟨hdiv, by rw [hmod]; exact hia⟩
    · exact (mem_pages_iff hb).mpr ⟨hdiv.trans htrk, by rw [hmod]; exact hib⟩
  · rintro ⟨p, hpa, hpb⟩
    obtain ⟨htrka, hbita⟩ := (mem_pages_iff ha).mp hpa
    obtain ⟨htrkb, hbitb⟩ := (mem_pages_iff hb).mp hpb
    exact ⟨htrka.symm.trans htrkb, fun h => and_eq_zero_iff.mp h _ ⟨hbita, hbitb⟩⟩

theorem Conflict.lvHash_eq (h : Conflict shift a b) : lvHash shift a = lvHash shift b := by
  unfold lvHash
  rw [h.1]

theorem conflictsOf_and_eq_zero {ltgno w : ℕ} :
    conflictsOf shift ltgno bp &&& w = 0 ↔
      ∀ e ∈ bp, blk2trk shift e.item.blkno = ltgno → work shift e.item &&& w = 0 := by
  have hfold (conflicts : ℕ) :
      bp.foldl (fun conflicts e => if blk2trk shift e.item.blkno = ltgno then
          conflicts ||| work shift e.item else conflicts) conflicts &&& w = 0 ↔
        conflicts &&& w = 0 ∧
          ∀ e ∈ bp, blk2trk shift e.item.blkno = ltgno → work shift e.item &&& w = 0 := by
    induction bp generalizing conflicts with
    | nil => simp
    | cons e es ih =>
      rw [foldl_cons, ih, forall_mem_cons]
      split
      · next htrk =>
        rw [Nat.and_or_distrib_right, Nat.or_eq_zero_iff, and_assoc]
        simp [htrk]
      · next htrk => simp [htrk]
  rw [conflictsOf, hfold, Nat.zero_and]
  exact and_iff_right rfl

theorem conflictsOf_and_work :
    conflictsOf shift (blk2trk shift lb.blkno) bp &&& work shift lb = 0 ↔
      ¬∃ a ∈ bp.map Ticket.item, Conflict shift a lb := by
  rw [conflictsOf_and_eq_zero]
  constructor
  · rintro h ⟨a, ha, htrk, hwork⟩
    obtain ⟨e, he, rfl⟩ := mem_map.mp ha
    exact hwork (h e he htrk)
  · intro h e he htrk
    by_contra hwork
    exact h ⟨e.item, mem_map_of_mem he, htrk, hwork⟩

end Workmask

/-!
## The chains of `work_Q`

On a chain of accepted requests the routines of `lv_block.c` let a request run when no earlier one
conflicts with it.  `lv_block` puts the request behind the others, `lv_unblock` takes one out and
lets run what waited for it, and `lv_continue` goes through the whole chain.
-/

section Block

open Osf1.Computation

variable {shift : ℕ} {lb : Request} {bp newer : List Entry} {e : Entry}

/-- A request is put on a chain and waits. -/
abbrev waiting (lb : Request) : Entry := ⟨lb, true⟩

theorem lvBlock_of_flag (h : lvWorkmask shift lb = 0) :
    lvBlock shift bp lb true = some ⟨bp ++ [waiting lb], []⟩ := by
  rw [lvBlock, if_neg (not_not.mpr h)]
  rfl

theorem lvBlock_eq (h : lvWorkmask shift lb = 0) :
    lvBlock shift bp lb false =
      some ⟨bp ++ admitFrom (Conflict shift) (bp.map Ticket.item) [waiting lb],
        admitted (Conflict shift) (bp.map Ticket.item) [waiting lb]⟩ := by
  rw [lvBlock, if_neg (not_not.mpr h), admitFrom, admitFrom, admitted, admitted]
  by_cases hconflict : ∃ a ∈ bp.map Ticket.item, Conflict shift a lb
  · have hmask := mt conflictsOf_and_work.mp (not_not.mpr hconflict)
    simp only [hmask, hconflict, Bool.not_false, decide_false, decide_true, Bool.and_false,
      Bool.and_true, Bool.false_eq_true, if_false, not_true_eq_false, and_false]
  · have hmask := conflictsOf_and_work.mpr hconflict
    simp only [hmask, hconflict, Bool.not_false, decide_false, decide_true, Bool.and_false,
      Bool.and_true, if_true, not_false_eq_true, and_self]

theorem unblockNewer_eq :
    unblockNewer shift bp newer =
      ⟨admitFrom (Conflict shift) (bp.map Ticket.item) newer,
        admitted (Conflict shift) (bp.map Ticket.item) newer⟩ := by
  induction newer generalizing bp with
  | nil => rfl
  | cons next newer ih =>
    have hitems (w : Bool) : (bp ++ [(⟨next.item, w⟩ : Entry)]).map Ticket.item =
        bp.map Ticket.item ++ [next.item] := by
      rw [map_append, map_singleton]
    have hnext : next = ⟨next.item, next.waits⟩ := rfl
    rw [unblockNewer, admitFrom, admitted]
    generalize hwaits : next.waits = w at hnext
    cases w with
    | true =>
      by_cases hconflict : ∃ a ∈ bp.map Ticket.item, Conflict shift a next.item
      · have hmask := mt conflictsOf_and_work.mp (not_not.mpr hconflict)
        simp only [hmask, hconflict, if_true, if_false, ih, decide_true, Bool.and_true,
          not_true_eq_false, and_false]
        rw [hnext, hitems]
      · have hmask := conflictsOf_and_work.mpr hconflict
        simp only [hmask, hconflict, if_true, ih, hitems, decide_false, Bool.and_false, not_false_eq_true, and_self]
    | false =>
      simp only [Bool.false_eq_true, if_false, ih, Bool.false_and, false_and]
      rw [hnext, hitems]

theorem lvUnblock_eq {older : List Entry} (he : e.item = lb) (hnot : lb ∉ older.map Ticket.item) (flag : Bool) :
    lvUnblock shift (older ++ e :: newer) lb flag =
      if flag then some ⟨older ++ newer, []⟩
      else
        some ⟨older ++ admitFrom (Conflict shift) (older.map Ticket.item) newer,
          admitted (Conflict shift) (older.map Ticket.item) newer⟩ := by
  have hne : ∀ a ∈ older, decide (a.item ≠ lb) = true := by
    intro a ha
    exact decide_eq_true fun heq => hnot (heq ▸ mem_map_of_mem ha)
  have hdrop : (older ++ e :: newer).dropWhile (fun e => e.item ≠ lb) = e :: newer := by
    rw [dropWhile_append_of_pos hne]
    exact dropWhile_cons_of_neg (by simp [he])
  have htake : (older ++ e :: newer).takeWhile (fun e => e.item ≠ lb) = older := by
    rw [takeWhile_append_of_pos hne, takeWhile_cons, if_neg (by simp [he]), append_nil]
  rw [lvUnblock, hdrop]
  simp only [htake, unblockNewer_eq]

theorem reblock_eq (hmask : ∀ e ∈ newer, lvWorkmask shift e.item = 0) (hwaits : ∀ e ∈ newer, e.waits = true) :
    reblock shift bp newer =
      some ⟨bp ++ admitFrom (Conflict shift) (bp.map Ticket.item) newer,
        admitted (Conflict shift) (bp.map Ticket.item) newer⟩ := by
  induction newer generalizing bp with
  | nil => rw [reblock, admitFrom, admitted, append_nil]
  | cons next newer ih =>
    obtain ⟨hm, hmask⟩ := forall_mem_cons.mp hmask
    obtain ⟨hw, hwaits⟩ := forall_mem_cons.mp hwaits
    have hnext : next :: newer = [waiting next.item] ++ newer := by
      rw [waiting, ← hw]
      rfl
    have hitems : (bp ++ admitFrom (Conflict shift) (bp.map Ticket.item)
        [waiting next.item]).map Ticket.item = bp.map Ticket.item ++ [next.item] := by
      rw [map_append, map_item_admitFrom]
      rfl
    rw [reblock, lvBlock_eq hm, Option.bind_some, ih hmask hwaits, hitems, hnext,
      admitFrom_append, admitted_append, append_assoc]
    rfl

end Block

end Osf1.Strategy
