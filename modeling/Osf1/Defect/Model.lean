import Osf1.Computation.HashChain
import Osf1.Computation.Transition

/-!
# The defect directory of a physical volume

The directory is an array in memory.  The entries in use are hashed by track group on the chains
`pv_defects`, whose links come from `freelist`.  A routine that panics or follows a null or wild
pointer has no result.  Memory that has been freed keeps what is in it; `kalloc` numbers what it
returns.
-/

set_option autoImplicit false

namespace Osf1.Defect

open List Option

section Model

open Osf1.Computation

/-- An entry of the directory: two words, each of four bits and of 28 bits.
SRC: lvm/lv_defect.h:85-88 -/
structure Bblk where
  reason : Fin 16
  defect : Fin (2 ^ 28)
  status : Fin 16
  alternate : Fin (2 ^ 28)
deriving DecidableEq

scoped instance field_pos : NeZero 16 := ⟨by decide⟩
scoped instance block_pos : NeZero (2 ^ 28) := ⟨by decide⟩

/-- An entry of zeroes. -/
def Bblk.null : Bblk := ⟨0, 0, 0, 0⟩

/-- The low 28 bits of a block number. -/
def low (n : ℕ) : Fin (2 ^ 28) := Fin.ofNat (2 ^ 28) n

def REL_DONE : Fin 16 := 0
def REL_PENDING : Fin 16 := 1
def REL_DEVICE : Fin 16 := 2
def REL_DESIRED : Fin 16 := 8

def DEFECT_SYS : Fin 16 := 0x0B

def MAX_SWRETRY : ℕ := 3
def HASHSIZE : ℕ := 64
def DEFECTPERBLK : ℕ := 64
def DEFECTSHIFT : ℕ := 6
def PVRA_BBDIR_LENGTH : ℕ := 55
def DEV_BSIZE : ℕ := 512
def BLKPTRK : ℕ := 256

def BYTE2BLK (nbytes : ℕ) : ℕ := nbytes / DEV_BSIZE
def BLK2BYTE (nblocks : ℕ) : ℕ := nblocks * DEV_BSIZE
def BLK2TRK (blk : ℕ) : ℕ := blk / BLKPTRK

/-- The chain for a block.
SRC: lvm/lv_defect.h:118 -/
def BBHASHINX (blkno : ℕ) : ℕ := BLK2TRK blkno % HASHSIZE

theorem BBHASHINX_lt (blkno : ℕ) : BBHASHINX blkno < HASHSIZE := Nat.mod_lt _ (by decide)

/-- A link: which `kalloc` it is from, and where it is in that array. -/
abbrev Link := ℕ × ℕ

/-- A physical volume.  `serial` counts the calls of `kalloc` for links, and `links` are the links
of the last one. -/
structure Pvol where
  bbdir : List Bblk
  defects : ℕ → List (Link × ℕ)
  freelist : List Link
  links : List Link
  serial : ℕ
  maxdefects : ℕ
  altpoolPsn : ℕ
  altpoolLen : ℕ
  altpoolNext : ℕ
  altpoolEnd : ℕ
  roreloc : Bool

/-- What the entry at a place of the directory holds. -/
def Pvol.entry (pv : Pvol) (dp : ℕ) : Bblk := pv.bbdir.getD dp Bblk.null

/-- `BB_DEFECT` of an entry. -/
def Pvol.number (pv : Pvol) (dp : ℕ) : ℕ := (pv.entry dp).defect

/-- Change an entry. -/
def Pvol.setEntry (pv : Pvol) (dp : ℕ) (f : Bblk → Bblk) : Pvol := { pv with bbdir := pv.bbdir.modify dp f }

/-- `SET_BB_STATUS` -/
def Pvol.setStatus (pv : Pvol) (dp : ℕ) (status : Fin 16) : Pvol :=
  pv.setEntry dp fun e => { e with status := status }

/-- `SET_BB_ALTERNATE` -/
def Pvol.setAlternate (pv : Pvol) (dp alternate : ℕ) : Pvol :=
  pv.setEntry dp fun e => { e with alternate := low alternate }

/-- `SET_BB_REASON` -/
def Pvol.setReason (pv : Pvol) (dp : ℕ) (reason : Fin 16) : Pvol :=
  pv.setEntry dp fun e => { e with reason := reason }

/-- `SET_BB_DEFECT` -/
def Pvol.setDefect (pv : Pvol) (dp blkno : ℕ) : Pvol := pv.setEntry dp fun e => { e with defect := low blkno }

/-- `b_error` -/
inductive IoError
  | none
  | eio
  | emedia
  | esoft
  | erelocated
  | other
deriving DecidableEq

/-- `pb_op` -/
inductive FixOp
  | none
  | readError
  | esoft
  | updatePending
deriving DecidableEq

/-- A physical request.  `read`, `writev`, `error` and `hwreloc` are bits of `b_flags`, `noreloc`
is `LVM_NORELOC`, and `fixup` says that `pb_sched` is `lv_fixup`. -/
structure Pbuf where
  blkno : ℕ
  bcount : ℕ
  resid : ℕ
  read : Bool
  writev : Bool
  error : Bool
  hwreloc : Bool
  berror : IoError
  noreloc : Bool
  fixup : Bool
  op : FixOp
  swretry : ℕ
  bad : Option ℕ
  start : ℕ
  addr : ℕ
  startaddr : ℕ
  endaddr : ℕ

/-- Validate the block that a request is at.
SRC: lvm/lv_defect.c:87-181 -/
def lv_validblk (pv : Pvol) (pb : Pbuf) : Option (Bool × Pvol × Pbuf) :=
  let pb := { pb with bad := none }
  match (pv.defects (BBHASHINX pb.blkno)).find? fun e => pb.blkno ≤ pv.number e.2 with
  | none => some (true, pv, pb)
  | some (_, defect) =>
    let defectNo := pv.number defect
    if pb.blkno + BYTE2BLK pb.bcount ≤ defectNo then
      if pb.fixup then
        some (true, pv, { pb with bcount := 0, blkno := pb.start + BYTE2BLK (pb.endaddr - pb.startaddr) })
      else some (true, pv, pb)
    else if pb.blkno < defectNo ∧ pb.fixup = false then
      some (true, pv, { pb with bcount := BLK2BYTE (defectNo - pb.blkno) })
    else
      let pb := { pb with blkno := defectNo }
      if pb.noreloc then some (false, pv, pb)
      else
        let pb := { pb with bad := some defect, bcount := DEV_BSIZE }
        let status := (pv.entry defect).status
        if status = REL_DONE then
          some (true, pv, { pb with blkno := (pv.entry defect).alternate })
        else if status = REL_DESIRED then
          if pb.read || pv.roreloc then some (false, pv, pb)
          else
            some (true, pv.setStatus defect REL_DEVICE, { pb with hwreloc := true, op := .readError })
        else none

/-- Enter a defect into the hash table.
SRC: lvm/lv_defect.c:652-674 -/
def lv_defecthash (pv : Pvol) (dp : ℕ) : Option Pvol :=
  let inx := BBHASHINX (pv.number dp)
  match pv.freelist with
  | [] => none
  | hp :: rest =>
    some { pv with
      defects := Function.update pv.defects inx
        (insertLink pv.number (hp, dp) (pv.defects inx))
      freelist := rest }

/-- Delete a defect, found by its number.
SRC: lvm/lv_defect.c:692-714 -/
def lv_deletedefect (pv : Pvol) (dp : ℕ) : Option Pvol :=
  let inx := BBHASHINX (pv.number dp)
  let same : Link × ℕ → Bool := fun e => pv.number e.2 = pv.number dp
  match (pv.defects inx).find? same with
  | none => none
  | some hp =>
    some { pv.setEntry hp.2 fun _ => Bblk.null with
      defects := Function.update pv.defects inx ((pv.defects inx).eraseP same)
      freelist := hp.1 :: pv.freelist }

/-- Software relocation.
SRC: lvm/lv_defect.c:200-304 -/
def lv_swreloc (pv : Pvol) (pb : Pbuf) : Option (Pvol × Pbuf) :=
  match pb.bad with
  | none => none
  | some bad =>
    if pv.roreloc then
      some (pv.setStatus bad REL_DESIRED,
        if pb.op = .esoft then
          { pb with addr := pb.addr + pb.resid, berror := .none, resid := 0, error := false }
        else { pb with berror := .eio })
    else if (pv.entry bad).status ≠ REL_PENDING ∨ pb.berror = .emedia then
      let pb := { pb with swretry := pb.swretry + 1 }
      if pb.swretry < MAX_SWRETRY ∧ pv.altpoolNext < pv.altpoolEnd then
        let pv := (pv.setAlternate bad pv.altpoolNext).setStatus bad REL_PENDING
        some ({ pv with altpoolNext := pv.altpoolNext + 1 },
          { pb with error := false, hwreloc := false, blkno := (pv.entry bad).alternate })
      else if pb.op ≠ .esoft then
        some ({ (pv.setStatus bad REL_DESIRED).setAlternate bad 0 with roreloc := true },
          { pb with error := true, berror := .eio })
      else
        (lv_deletedefect pv bad).map fun pv =>
          ({ pv with roreloc := true },
            { pb with
              read := true, error := false, berror := .none, op := .none, addr := pb.endaddr
              bad := none })
    else if pb.op ≠ .esoft then
      some ((pv.setStatus bad REL_DESIRED).setAlternate bad 0, pb)
    else
      (lv_deletedefect pv bad).map fun pv =>
        (pv, { pb with
          read := true, error := false, berror := .none, op := .none, addr := pb.endaddr
          bad := none })

/-- The slot that `lv_hwreloc` takes for a new defect.  `none` is returned when a slot beyond the
directory is read.
SRC: lvm/lv_defect.c:350-355 -/
def openSlot (pv : Pvol) : Option (Option ℕ) :=
  match (List.range' 1 (pv.maxdefects - 1)).find? fun i =>
      decide (pv.bbdir.length ≤ i) || decide ((pv.entry i).reason = 0) with
  | none => some none
  | some i => if i < pv.bbdir.length then some (some i) else none

/-- The block that an error is reported at. -/
def Pbuf.failedBlock (pb : Pbuf) : ℕ := pb.blkno + BYTE2BLK (pb.bcount - pb.resid)

/-- The first part of `lv_hwreloc`: the entry for the defect.  `Sum.inr` is the return when there
is no slot.
SRC: lvm/lv_defect.c:337-391 -/
def hwrelocEntry (pv : Pvol) (pb : Pbuf) : Option ((Pvol × Pbuf × ℕ) ⊕ (Pvol × Pbuf)) :=
  match pb.op, pb.bad with
  | .esoft, none => none
  | .esoft, some defect => some (.inl (pv, pb, defect))
  | _, some defect =>
    some (.inl ((pv.setStatus defect REL_DESIRED).setReason defect DEFECT_SYS,
      if pb.berror = .esoft then { pb with op := .esoft } else pb, defect))
  | _, none =>
    (openSlot pv).bind fun
      | none =>
        some (.inr (pv,
          if pb.berror = .esoft then
            { pb with
              addr := pb.addr + pb.resid, berror := .none, resid := 0, error := false
              bad := none }
          else { pb with berror := .eio }))
      | some defect =>
        (lv_defecthash pv defect).map fun pv =>
          .inl (((pv.setDefect defect pb.failedBlock).setStatus defect REL_DESIRED).setReason
            defect DEFECT_SYS, { pb with bad := some defect }, defect)

/-- Set up a hardware relocation.
SRC: lvm/lv_defect.c:321-433 -/
def lv_hwreloc (pv : Pvol) (pb : Pbuf) : Option (Pvol × Pbuf) :=
  (hwrelocEntry pv pb).bind fun
    | .inr r => some r
    | .inl (pv, pb, defect) =>
      if pb.read ∧ pb.berror = .emedia then
        some (pv.setAlternate defect 0, { pb with op := .updatePending })
      else
        let pv := pv.setStatus defect REL_DEVICE
        let pb := { pb with error := false, blkno := pv.number defect, bcount := DEV_BSIZE, resid := 0 }
        if (pv.entry defect).alternate ≠ 0 then lv_swreloc pv pb
        else if pb.read ∧ pb.berror = .esoft ∧ pb.op = .none then
          some (pv, { pb with read := false, writev := true, op := .esoft })
        else some (pv, { pb with hwreloc := true })

/-- A request that relocated a block has ended.
SRC: lvm/lv_defect.c:449-510 -/
def lv_relocdone (pv : Pvol) (pb : Pbuf) : Option (Pvol × Pbuf) :=
  match pb.bad with
  | none => none
  | some bad =>
    let status := (pv.entry bad).status
    if status = REL_PENDING then
      let pb :=
        if pb.op = .esoft then { pb with read := true, addr := pb.endaddr } else pb
      some (pv.setStatus bad REL_DONE, { pb with op := .updatePending, swretry := 0 })
    else if status = REL_DEVICE then
      let pb :=
        if pb.op = .esoft then { pb with read := true, addr := pb.endaddr } else pb
      (lv_deletedefect pv bad).map fun pv =>
        (pv, { pb with error := false, berror := .none, bad := none, op := .none, swretry := 0 })
    else if status = REL_DESIRED then none
    else some (pv, pb)

/-- The number of entries in use in the blocks up to the first one that is zero.
SRC: lvm/lv_defect.c:558-565 -/
def countDefects (dir : List Bblk) : ℕ → ℕ
  | 0 => 0
  | n + 1 =>
    if (dir.take DEFECTPERBLK).all (· = Bblk.null) then 0
    else ((dir.take DEFECTPERBLK).countP fun e => decide (e.reason ≠ 0)) + countDefects (dir.drop DEFECTPERBLK) n

/-- The size of the directory in memory.
SRC: lvm/lv_defect.c:570-578 -/
def roundDefects (maxdefects : ℤ) (current : ℕ) : ℕ :=
  let dirsize := (PVRA_BBDIR_LENGTH - 1) * DEFECTPERBLK
  let maxdefects := min dirsize (max maxdefects current).toNat
  ((maxdefects >>> DEFECTSHIFT) + 1) <<< DEFECTSHIFT - 1

/-- The number of blocks that are kept of the directory.
SRC: lvm/lv_defect.c:580 -/
def keptBlocks (maxdefects : ℕ) : ℕ := (maxdefects + 1) / DEFECTPERBLK + 1

/-- One round of the loop that hashes the entries.
SRC: lvm/lv_defect.c:619-625 -/
def hashEntry (pv : Pvol) (dp : ℕ) : Pvol :=
  if (pv.entry dp).reason ≠ 0 then
    match lv_defecthash pv dp with
    | none => pv
    | some pv =>
      { pv with altpoolNext := max pv.altpoolNext (pv.entry dp).alternate }
  else pv

/-- What `lv_initdefects` finds: what `lv_bbdirinit` has read, if it has, and whether memory is
there for a smaller directory and for links. -/
structure InitInput where
  maxdefects : ℤ
  dir : Option (List Bblk)
  newdir : Bool
  freelist : Bool

/-- The size that the directory in memory gets. -/
def InitInput.size (i : InitInput) (dir : List Bblk) : ℕ :=
  roundDefects i.maxdefects (countDefects dir PVRA_BBDIR_LENGTH)

/-- The directory in memory. -/
def InitInput.kept (i : InitInput) (dir : List Bblk) : List Bblk :=
  if keptBlocks (i.size dir) < PVRA_BBDIR_LENGTH ∧ i.newdir then
    dir.take (keptBlocks (i.size dir) * DEFECTPERBLK)
  else dir

/-- The links of a `kalloc`. -/
def kallocLinks (serial size : ℕ) : List Link := (List.range size).map fun i => (serial, i)

/-- The volume before the entries are hashed.
SRC: lvm/lv_defect.c:546-613 -/
def initPool (pv : Pvol) (i : InitInput) (dir : List Bblk) : Pvol :=
  let links := if i.freelist then kallocLinks pv.serial (i.size dir) else []
  { pv with
    bbdir := i.kept dir
    freelist := links
    links := links
    serial := pv.serial + 1
    altpoolNext := pv.altpoolPsn
    altpoolEnd := pv.altpoolPsn + pv.altpoolLen }

/-- The last lines of `lv_initdefects`.
SRC: lvm/lv_defect.c:631-632 -/
def closePool (pv : Pvol) : Pvol :=
  { pv with
    altpoolNext := pv.altpoolNext + 1
    roreloc := pv.roreloc || decide (pv.altpoolEnd < pv.altpoolNext + 1) || pv.freelist.isEmpty }

/-- Initialize the defect hash table.
SRC: lvm/lv_defect.c:527-634 -/
def lv_initdefects (pv : Pvol) (i : InitInput) : Pvol :=
  match i.dir with
  | none => { pv with bbdir := [], freelist := [], links := [] }
  | some dir =>
    closePool ((List.range' 1 (i.size dir - 1)).foldl hashEntry (initPool pv i dir))

/-- What changes the table. -/
inductive TableEvent
  | initdefects (i : InitInput)
  | validblk (pb : Pbuf)
  | hwreloc (pb : Pbuf)
  | swreloc (pb : Pbuf)
  | relocdone (pb : Pbuf)
  | deletedefect (dp : ℕ)

/-- One event. -/
def tableStep (pv : Pvol) : TableEvent → Option Pvol
  | .initdefects i => some (lv_initdefects pv i)
  | .validblk pb => (lv_validblk pv pb).map fun r => r.2.1
  | .hwreloc pb => (lv_hwreloc pv pb).map Prod.fst
  | .swreloc pb => (lv_swreloc pv pb).map Prod.fst
  | .relocdone pb => (lv_relocdone pv pb).map Prod.fst
  | .deletedefect dp => lv_deletedefect pv dp

/-- A volume that has just been cleared.  No routine assigns `pv_maxdefects`, and the LVM record
tells where the alternates are. -/
def freshPvol (maxdefects altpoolPsn altpoolLen : ℕ) : Pvol :=
  ⟨[], fun _ => [], [], [], 0, maxdefects, altpoolPsn, altpoolLen, 0, 0, false⟩

/-- The defect table over time. -/
def tableSystem : System Pvol TableEvent where
  init pv := ∃ maxdefects altpoolPsn altpoolLen, pv = freshPvol maxdefects altpoolPsn altpoolLen
  step pv i pv' := tableStep pv i = some pv'

end Model

/-!
## What the defect table keeps

Every entry in use is on its chain, the chains are in order, and no link is lost. `lv_deletedefect` keeps this
whatever entry it is called with.
-/

section Table

open Osf1.Computation

/-- An entry in use.  The entry at place 0 is the mark of the directory. -/
def Pvol.listed (pv : Pvol) (dp : ℕ) : Prop := 1 ≤ dp ∧ dp < pv.bbdir.length ∧ (pv.entry dp).reason ≠ 0

instance (pv : Pvol) (dp : ℕ) : Decidable (pv.listed dp) := inferInstanceAs (Decidable (_ ∧ _ ∧ _))

/-- The table is sound. -/
structure Table (pv : Pvol) : Prop where
  hashed : Hashed pv.number BBHASHINX pv.listed pv.defects
  pooled : Pooled HASHSIZE pv.defects pv.freelist (pv.links : Multiset Link)
  nodup : pv.links.Nodup

section Entries

variable (pv : Pvol) (dp i : ℕ) (f : Bblk → Bblk)

theorem entry_setEntry :
    (pv.setEntry dp f).entry i =
      if i = dp ∧ i < pv.bbdir.length then f (pv.entry i) else pv.entry i := by
  simp only [Pvol.entry, Pvol.setEntry, getD_eq_getElem?_getD, getElem?_modify]
  by_cases hi : i < pv.bbdir.length
  · by_cases hd : dp = i
    · simp [hd, hi]
    · simp [hd, hi, Ne.symm hd]
  · simp [hi]

theorem entry_setEntry_of_ne (h : i ≠ dp) : (pv.setEntry dp f).entry i = pv.entry i := by
  rw [entry_setEntry, if_neg fun hi => h hi.1]

theorem entry_setEntry_self (h : dp < pv.bbdir.length) : (pv.setEntry dp f).entry dp = f (pv.entry dp) := by
  rw [entry_setEntry, if_pos ⟨rfl, h⟩]

@[simp]
theorem length_setEntry : (pv.setEntry dp f).bbdir.length = pv.bbdir.length := by
  simp [Pvol.setEntry]

theorem number_setEntry_of_ne (h : i ≠ dp) : (pv.setEntry dp f).number i = pv.number i := by
  unfold Pvol.number
  rw [entry_setEntry_of_ne pv dp i f h]

theorem listed_setEntry_of_ne (h : i ≠ dp) : (pv.setEntry dp f).listed i ↔ pv.listed i := by
  unfold Pvol.listed
  rw [entry_setEntry_of_ne pv dp i f h, length_setEntry]

theorem number_setEntry (hf : ∀ e, (f e).defect = e.defect) : (pv.setEntry dp f).number i = pv.number i := by
  unfold Pvol.number
  rw [entry_setEntry]
  split
  · rw [hf]
  · rfl

theorem listed_setEntry (hf : (f (pv.entry dp)).reason ≠ 0 ↔ (pv.entry dp).reason ≠ 0) :
    (pv.setEntry dp f).listed i ↔ pv.listed i := by
  unfold Pvol.listed
  rw [entry_setEntry, length_setEntry]
  split
  next h =>
    rw [h.1, hf]
  next => rfl

end Entries

variable {pv pv' : Pvol} {pb pb' : Pbuf} {size k : ℕ}

section

variable (h : Table pv)
include h

theorem Table.congr (hlisted : ∀ dp, pv'.listed dp ↔ pv.listed dp)
    (hnumber : ∀ dp, pv'.number dp = pv.number dp) (hdefects : pv'.defects = pv.defects)
    (hfree : pv'.freelist = pv.freelist) (hlinks : pv'.links = pv.links) : Table pv' where
  hashed := by
    rw [hdefects]
    exact (h.hashed.congr_key fun dp _ => hnumber dp).congr_used hlisted
  pooled := by
    rw [hdefects, hfree, hlinks]
    exact h.pooled
  nodup := by
    rw [hlinks]
    exact h.nodup

theorem Table.setStatus (dp : ℕ) (status : Fin 16) : Table (pv.setStatus dp status) :=
  h.congr (fun i => listed_setEntry pv dp i _ Iff.rfl)
    (fun i => number_setEntry pv dp i _ fun _ => rfl) rfl rfl rfl

theorem Table.setAlternate (dp alternate : ℕ) : Table (pv.setAlternate dp alternate) :=
  h.congr (fun i => listed_setEntry pv dp i _ Iff.rfl)
    (fun i => number_setEntry pv dp i _ fun _ => rfl) rfl rfl rfl

theorem Table.setReason {dp : ℕ} (hdp : pv.listed dp) {reason : Fin 16}
    (hr : reason ≠ 0) : Table (pv.setReason dp reason) :=
  h.congr (fun i => listed_setEntry pv dp i _ (iff_of_true hr hdp.2.2))
    (fun i => number_setEntry pv dp i _ fun _ => rfl) rfl rfl rfl

theorem Table.setPool (altpoolNext altpoolEnd : ℕ) (roreloc : Bool) :
    Table { pv with altpoolNext := altpoolNext, altpoolEnd := altpoolEnd, roreloc := roreloc } :=
  h.congr (fun _ => Iff.rfl) (fun _ => rfl) rfl rfl rfl

end

theorem lv_deletedefect_eq {dp : ℕ} (hs : lv_deletedefect pv dp = some pv') :
    ∃ hp l₁ l₂, pv.defects (BBHASHINX (pv.number dp)) = l₁ ++ hp :: l₂ ∧
      pv.number hp.2 = pv.number dp ∧ (∀ a ∈ l₁, pv.number a.2 ≠ pv.number dp) ∧
      pv' = { pv.setEntry hp.2 fun _ => Bblk.null with
        defects := Function.update pv.defects (BBHASHINX (pv.number dp)) (l₁ ++ l₂)
        freelist := hp.1 :: pv.freelist } := by
  simp only [lv_deletedefect] at hs
  split at hs
  · cases hs
  · rename_i hp hfind
    obtain ⟨hnum, l₁, l₂, hl, hne⟩ := find?_eq_some_iff_append.mp hfind
    have hnum : pv.number hp.2 = pv.number dp := by simpa using hnum
    have hne : ∀ a ∈ l₁, pv.number a.2 ≠ pv.number dp := fun a ha => by simpa using hne a ha
    have herase : (pv.defects (BBHASHINX (pv.number dp))).eraseP
        (fun e => decide (pv.number e.2 = pv.number dp)) = l₁ ++ l₂ := by
      rw [hl, eraseP_append_right _ (fun a ha => by simpa using hne a ha),
        eraseP_cons_of_pos (by simpa using hnum)]
    rw [herase] at hs
    exact ⟨hp, l₁, l₂, hl, hnum, hne, (some.inj hs).symm⟩

theorem Table.lv_deletedefect (h : Table pv) {dp : ℕ} (hs : lv_deletedefect pv dp = some pv') : Table pv' := by
  obtain ⟨hp, l₁, l₂, hl, -, -, rfl⟩ := lv_deletedefect_eq hs
  have hused := h.hashed.used_of_mem
    (show hp ∈ pv.defects (BBHASHINX (pv.number dp)) by rw [hl]; simp)
  constructor
  · refine (h.hashed.remove hl fun y _ hy => ?_).congr_used fun y => ?_
    · exact number_setEntry_of_ne pv hp.2 y _ hy
    · by_cases hy : y = hp.2
      · subst hy
        refine iff_of_false (fun hlisted => hlisted.2.2 ?_) fun hn => hn.2 rfl
        exact congrArg Bblk.reason (entry_setEntry_self pv _ _ hused.1.2.1)
      · rw [and_iff_left hy]
        exact listed_setEntry_of_ne pv hp.2 y _ hy
  · exact h.pooled.remove (BBHASHINX_lt _) hl
  · exact h.nodup

theorem Table.lv_swreloc (h : Table pv) (hs : lv_swreloc pv pb = some (pv', pb')) : Table pv' := by
  unfold Defect.lv_swreloc at hs
  split at hs
  · cases hs
  rename_i bad _
  have hdeleted (u : Pvol) (hu : Defect.lv_deletedefect pv bad = some u) : Table u := h.lv_deletedefect hu
  split at hs
  · cases hs
    exact h.setStatus ..
  split at hs
  · simp only at hs
    split at hs
    · cases hs
      exact ((h.setAlternate bad pv.altpoolNext).setStatus bad REL_PENDING).setPool ..
    split at hs
    · cases hs
      exact ((h.setStatus bad REL_DESIRED).setAlternate bad 0).setPool ..
    · obtain ⟨u, hu, hr⟩ := map_eq_some_iff.mp hs
      cases hr
      exact (hdeleted u hu).setPool ..
  · split at hs
    · cases hs
      exact (h.setStatus ..).setAlternate ..
    · obtain ⟨u, hu, hr⟩ := map_eq_some_iff.mp hs
      cases hr
      exact hdeleted _ hu

theorem Table.lv_relocdone (h : Table pv) (hs : lv_relocdone pv pb = some (pv', pb')) : Table pv' := by
  unfold Defect.lv_relocdone at hs
  split at hs
  · cases hs
  simp only at hs
  split at hs
  · cases hs
    exact h.setStatus ..
  split at hs
  · obtain ⟨u, hu, hr⟩ := map_eq_some_iff.mp hs
    cases hr
    exact h.lv_deletedefect hu
  split at hs
  · cases hs
  · cases hs
    exact h

theorem Table.lv_validblk (h : Table pv) {ok : Bool} (hs : lv_validblk pv pb = some (ok, pv', pb')) : Table pv' := by
  simp only [Defect.lv_validblk] at hs
  split at hs
  · cases hs
    exact h
  split at hs
  · split at hs <;> cases hs <;> exact h
  split at hs
  · cases hs
    exact h
  split at hs
  · cases hs
    exact h
  split at hs
  · cases hs
    exact h
  split at hs
  · split at hs
    · cases hs
      exact h
    · cases hs
      exact h.setStatus ..
  · cases hs

/-- The slot of a new defect: its number may change to `blkno` where the old number has put it. -/
def SlotFits (pv : Pvol) (dp blkno : ℕ) : Prop :=
  BBHASHINX (low blkno) = BBHASHINX (pv.number dp) ∧
    ∀ i, pv.listed i → BBHASHINX (pv.number i) = BBHASHINX (pv.number dp) →
      (pv.number i < pv.number dp → pv.number i ≤ low blkno) ∧
        (pv.number dp ≤ pv.number i → low blkno ≤ pv.number i)

theorem Table.newDefect (h : Table pv) {dp blkno : ℕ} (hdp : 1 ≤ dp)
    (hlen : dp < pv.bbdir.length) (hfree : (pv.entry dp).reason = 0)
    (hfits : SlotFits pv dp blkno) (hs : lv_defecthash pv dp = some pv') :
    Table (((pv'.setDefect dp blkno).setStatus dp REL_DESIRED).setReason dp DEFECT_SYS) := by
  unfold lv_defecthash at hs
  split at hs
  · cases hs
  · rename_i hp rest hfreelist
    cases hs
    have hunused : ¬pv.listed dp := fun hl => hl.2.2 hfree
    have hself : (((pv.setDefect dp blkno).setStatus dp REL_DESIRED).setReason
        dp DEFECT_SYS).entry dp = ⟨DEFECT_SYS, low blkno, REL_DESIRED, (pv.entry dp).alternate⟩ := by
      unfold Pvol.setReason Pvol.setStatus Pvol.setDefect
      simp only [entry_setEntry, length_setEntry, hlen, and_self, if_true]
    have hother (i : ℕ) (hi : i ≠ dp) :
        (((pv.setDefect dp blkno).setStatus dp REL_DESIRED).setReason dp DEFECT_SYS).entry i =
          pv.entry i := by
      unfold Pvol.setReason Pvol.setStatus Pvol.setDefect
      simp only [entry_setEntry, hi, false_and, if_false]
    have hlength : (((pv.setDefect dp blkno).setStatus dp REL_DESIRED).setReason
        dp DEFECT_SYS).bbdir.length = pv.bbdir.length := by
      unfold Pvol.setReason Pvol.setStatus Pvol.setDefect
      simp only [length_setEntry]
    have hnumber : (((pv.setDefect dp blkno).setStatus dp REL_DESIRED).setReason
        dp DEFECT_SYS).number dp = low blkno := by
      unfold Pvol.number
      rw [hself]
    constructor
    · refine (h.hashed.insert hunused hp (fun y hy => ?_) ?_ ?_).congr_used fun y => ?_
      · refine congrArg (fun e : Bblk => (e.defect : ℕ)) (hother y fun hyd => hunused ?_)
        rwa [← hyd]
      · exact (congrArg BBHASHINX hnumber).trans hfits.1
      · intro y hy hc
        have := hfits.2 y hy hc
        rw [← hnumber] at this
        exact this
      · by_cases hy : y = dp
        · subst hy
          refine iff_of_true ⟨hdp, hlength.symm ▸ hlen, ?_⟩ (.inl rfl)
          exact (congrArg Bblk.reason hself).trans_ne (show DEFECT_SYS ≠ 0 by decide)
        · rw [or_iff_right hy]
          exact and_congr_right fun _ =>
            and_congr (iff_of_eq (congrArg (y < ·) hlength))
              (not_congr (iff_of_eq (congrArg (fun e : Bblk => e.reason = 0) (hother y hy))))
    · have hpool := h.pooled
      rw [hfreelist] at hpool
      exact hpool.insert (BBHASHINX_lt _)
    · exact h.nodup

theorem openSlot_eq {dp : ℕ} (hs : openSlot pv = some (some dp)) :
    1 ≤ dp ∧ dp < pv.bbdir.length ∧ (pv.entry dp).reason = 0 := by
  unfold openSlot at hs
  split at hs
  · cases hs
  · rename_i i hfind
    split at hs
    · rename_i hlen
      cases hs
      have hmem := mem_range'_1.mp (mem_of_find?_eq_some hfind)
      have hp := find?_some hfind
      simp only [Bool.or_eq_true, decide_eq_true_eq] at hp
      rcases hp with hp | hp
      · exact absurd hlen (not_lt.mpr hp)
      · exact ⟨hmem.1, hlen, hp⟩
    · cases hs

/-- The condition on `lv_hwreloc`: an entry that the request already has is still in use, and the
slot for a new defect fits. -/
def HwrelocOrderly (pv : Pvol) (pb : Pbuf) : Prop :=
  pb.op ≠ .esoft →
    (∀ dp, pb.bad = some dp → pv.listed dp) ∧
      (pb.bad = none → ∀ dp, openSlot pv = some (some dp) → SlotFits pv dp pb.failedBlock)

theorem Table.hwrelocEntry (h : Table pv) (hok : HwrelocOrderly pv pb)
    {r : (Pvol × Pbuf × ℕ) ⊕ (Pvol × Pbuf)} (hs : hwrelocEntry pv pb = some r) : match r with
    | .inl (pv', _, _) => Table pv'
    | .inr (pv', _) => Table pv' := by
  unfold Defect.hwrelocEntry at hs
  split at hs
  · cases hs
  · cases hs
    exact h
  · rename_i hbad hop
    cases hs
    have hlisted := (hok hop).1 _ hbad
    refine (h.setStatus _ _).setReason ?_ (by decide)
    exact (listed_setEntry pv _ _ _ Iff.rfl).mpr hlisted
  · rename_i hbad hop
    obtain ⟨slot, hslot, hs⟩ := bind_eq_some_iff.mp hs
    match slot with
    | none =>
      cases hs
      exact h
    | some dp =>
      obtain ⟨u, hu, rfl⟩ := map_eq_some_iff.mp hs
      obtain ⟨hdp, hlen, hreason⟩ := openSlot_eq hslot
      exact h.newDefect hdp hlen hreason ((hok hop).2 hbad dp hslot) hu

theorem Table.lv_hwreloc (h : Table pv) (hok : HwrelocOrderly pv pb) (hs : lv_hwreloc pv pb = some (pv', pb')) : Table pv' := by
  obtain ⟨r, hr, hs⟩ := bind_eq_some_iff.mp hs
  have hentry := h.hwrelocEntry hok hr
  match r with
  | .inr _ =>
    cases hs
    exact hentry
  | .inl (u, pb₁, defect) =>
    simp only at hentry hs
    split at hs
    · cases hs
      exact hentry.setAlternate ..
    split at hs
    · exact (hentry.setStatus defect REL_DEVICE).lv_swreloc hs
    split at hs
    · cases hs
      exact hentry.setStatus ..
    · cases hs
      exact hentry.setStatus ..

/-- The condition on `lv_initdefects`: nothing is hashed yet, there is memory for links, and no
entry in use is at a place from `size` on. -/
def InitOrderly (pv : Pvol) (i : InitInput) : Prop :=
  (∀ c, pv.defects c = []) ∧
    ∀ dir, i.dir = some dir → ∀ dp, (initPool pv i dir).listed dp → i.freelist ∧ dp < i.size dir

/-- The table while the entries are hashed: those below `k` have been. -/
structure HashedBelow (size k : ℕ) (pv : Pvol) : Prop where
  hashed : Hashed pv.number BBHASHINX (fun dp => pv.listed dp ∧ dp < k) pv.defects
  pooled : Pooled HASHSIZE pv.defects pv.freelist (pv.links : Multiset Link)
  nodup : pv.links.Nodup
  links : ∀ dp, pv.listed dp → dp < size ∧ size < pv.freelist.length + k

theorem listed_of_reason {dp : ℕ} (hdp : 1 ≤ dp) (hr : (pv.entry dp).reason ≠ 0) : pv.listed dp := by
  refine ⟨hdp, ?_, hr⟩
  by_contra hlen
  apply hr
  unfold Pvol.entry
  rw [getD_eq_getElem?_getD, getElem?_eq_none (not_lt.mp hlen)]
  rfl

theorem HashedBelow.hashEntry_eq (h : HashedBelow size k pv) (hlisted : pv.listed k) :
    ∃ hp rest, pv.freelist = hp :: rest ∧ Defect.hashEntry pv k =
      { pv with
        defects := Function.update pv.defects (BBHASHINX (pv.number k))
          (insertLink pv.number (hp, k) (pv.defects (BBHASHINX (pv.number k))))
        freelist := rest
        altpoolNext := max pv.altpoolNext (pv.entry k).alternate } := by
  obtain ⟨hlt, hlen⟩ := h.links k hlisted
  match hfree : pv.freelist with
  | [] =>
    rw [hfree, length_nil] at hlen
    exact absurd hlen (by omega)
  | hp :: rest =>
    refine ⟨hp, rest, rfl, ?_⟩
    unfold Defect.hashEntry lv_defecthash
    rw [if_pos hlisted.2.2]
    simp only [hfree]
    rfl

theorem hashEntry_of_not_listed (hk : 1 ≤ k) (h : ¬pv.listed k) : hashEntry pv k = pv := by
  unfold hashEntry
  rw [if_neg fun hr => h (listed_of_reason hk hr)]

theorem HashedBelow.hashEntry (h : HashedBelow size k pv) (hk : 1 ≤ k) :
    HashedBelow size (k + 1) (hashEntry pv k) := by
  have hsplit (dp : ℕ) : pv.listed dp ∧ dp < k + 1 ↔
      (dp = k ∧ pv.listed k) ∨ (pv.listed dp ∧ dp < k) := by
    constructor
    · rintro ⟨hl, hlt⟩
      rcases Nat.lt_succ_iff_lt_or_eq.mp hlt with hlt | rfl
      · exact .inr ⟨hl, hlt⟩
      · exact .inl ⟨rfl, hl⟩
    · rintro (⟨rfl, hl⟩ | ⟨hl, hlt⟩)
      · exact ⟨hl, Nat.lt_succ_self _⟩
      · exact ⟨hl, hlt.trans (Nat.lt_succ_self _)⟩
  by_cases hlisted : pv.listed k
  · obtain ⟨hp, rest, hfree, heq⟩ := h.hashEntry_eq hlisted
    rw [heq]
    constructor
    · refine (h.hashed.insert (fun hl => absurd hl.2 (lt_irrefl k)) hp (fun _ _ => rfl) rfl
        fun y _ _ => ⟨le_of_lt, id⟩).congr_used fun dp => ?_
      refine (hsplit dp).trans (or_congr_left ?_)
      exact and_iff_left hlisted
    · have hpool := h.pooled
      rw [hfree] at hpool
      exact hpool.insert (BBHASHINX_lt _)
    · exact h.nodup
    · intro dp hdp
      have := h.links dp hdp
      rw [hfree, length_cons] at this
      exact ⟨this.1, by simp only; omega⟩
  · have hrest (dp : ℕ) : pv.listed dp ∧ dp < k + 1 ↔ pv.listed dp ∧ dp < k := by
      rw [hsplit dp, or_iff_right fun hl => hlisted hl.2]
    rw [hashEntry_of_not_listed hk hlisted]
    refine ⟨h.hashed.congr_used hrest, h.pooled, h.nodup, fun dp hdp => ?_⟩
    have := h.links dp hdp
    exact ⟨this.1, by omega⟩

theorem HashedBelow.foldl (n : ℕ) (h : HashedBelow size k pv) (hk : 1 ≤ k) :
    HashedBelow size (k + n) ((List.range' k n).foldl Defect.hashEntry pv) := by
  induction n generalizing k pv with
  | zero => exact h
  | succ n ih =>
    rw [range'_succ, foldl_cons, Nat.add_left_comm, Nat.add_comm n]
    exact ih (h.hashEntry hk) (hk.trans (Nat.le_succ k))

theorem kallocLinks_nodup (serial size : ℕ) : (kallocLinks serial size).Nodup :=
  nodup_range.map fun _ _ h => (Prod.mk.inj h).2

theorem hashedBelow_initPool {i : InitInput} {dir : List Bblk} (hok : InitOrderly pv i)
    (hdir : i.dir = some dir) : HashedBelow (i.size dir) 1 (initPool pv i dir) := by
  have hempty : (initPool pv i dir).defects = fun _ => [] := funext hok.1
  constructor
  · rw [hempty]
    constructor
    · intro c dp
      refine iff_of_false not_mem_nil ?_
      rintro ⟨⟨hl, hlt⟩, -⟩
      exact absurd hl.1 (not_le.mpr hlt)
    · exact fun _ => nodup_nil
    · exact fun _ => List.Pairwise.nil
  · unfold Pooled
    rw [hempty]
    simp only [map_nil, Multiset.coe_nil, Finset.sum_const_zero, zero_add]
    rfl
  · unfold initPool
    split
    · exact kallocLinks_nodup ..
    · exact nodup_nil
  · intro dp hdp
    obtain ⟨hfree, hlt⟩ := hok.2 dir hdir dp hdp
    refine ⟨hlt, ?_⟩
    unfold initPool
    simp only [hfree, if_true, kallocLinks, length_map, length_range]
    omega

theorem Table.lv_initdefects {i : InitInput} (hok : InitOrderly pv i) : Table (lv_initdefects pv i) := by
  unfold Defect.lv_initdefects
  split
  · have hempty : pv.defects = fun _ => [] := funext hok.1
    have hunused (dp : ℕ) (h : { pv with bbdir := [], freelist := [], links := [] }.listed dp) :
        False := absurd h.2.1 (Nat.not_lt_zero dp)
    refine ⟨?_, ?_, nodup_nil⟩
    · simp only [hempty]
      exact ⟨fun c dp => iff_of_false not_mem_nil fun h => hunused dp h.1,
        fun _ => nodup_nil, fun _ => List.Pairwise.nil⟩
    · unfold Pooled
      simp only [hempty, map_nil, Multiset.coe_nil, Finset.sum_const_zero, zero_add]
  · rename_i dir hdir
    have h := (hashedBelow_initPool hok hdir).foldl (i.size dir - 1) le_rfl
    have htable : Table ((range' 1 (i.size dir - 1)).foldl hashEntry (initPool pv i dir)) := by
      refine ⟨h.hashed.congr_used fun dp => (and_iff_left_of_imp fun hdp => ?_).symm, h.pooled, h.nodup⟩
      have := h.links dp hdp
      omega
    exact htable.setPool ..

theorem table_freshPvol (maxdefects altpoolPsn altpoolLen : ℕ) :
    Table (freshPvol maxdefects altpoolPsn altpoolLen) := by
  refine ⟨⟨fun c dp => iff_of_false not_mem_nil ?_, fun _ => nodup_nil,
    fun _ => List.Pairwise.nil⟩, ?_, nodup_nil⟩
  · rintro ⟨hl, -⟩
    exact absurd hl.2.1 (Nat.not_lt_zero dp)
  · unfold Pooled freshPvol
    simp only [map_nil, Multiset.coe_nil, Finset.sum_const_zero, zero_add]

/-- The conditions under which the events keep the table. -/
def Orderly (pv : Pvol) : TableEvent → Prop
  | .initdefects i => InitOrderly pv i
  | .hwreloc pb => HwrelocOrderly pv pb
  | _ => True

theorem Table.step (h : Table pv) {i : TableEvent} (hok : Orderly pv i)
    (hs : tableStep pv i = some pv') : Table pv' := by
  cases i with
  | initdefects i =>
    cases hs
    exact Table.lv_initdefects hok
  | validblk pb =>
    obtain ⟨r, hr, rfl⟩ := map_eq_some_iff.mp hs
    exact h.lv_validblk hr
  | hwreloc pb =>
    obtain ⟨r, hr, rfl⟩ := map_eq_some_iff.mp hs
    exact h.lv_hwreloc hok hr
  | swreloc pb =>
    obtain ⟨r, hr, rfl⟩ := map_eq_some_iff.mp hs
    exact h.lv_swreloc hr
  | relocdone pb =>
    obtain ⟨r, hr, rfl⟩ := map_eq_some_iff.mp hs
    exact h.lv_relocdone hr
  | deletedefect dp => exact h.lv_deletedefect hs

theorem table_of_reachable (h : (tableSystem.restrict Orderly).Reachable pv) : Table pv := by
  refine h.invariant ?_ fun _ _ _ _ ht hs => ht.step hs.1 hs.2
  rintro s ⟨maxdefects, altpoolPsn, altpoolLen, rfl⟩
  exact table_freshPvol ..

end Table

end Osf1.Defect
