import Osf1.Computation.Transition

/-!
# Zones and their collection

`zalloc`, `zget`, `zfree`, `zcram` and `zone_gc` as the sections that they run with a lock held, or that call the
allocator of the zone map.  The list of free elements of a zone is a list of addresses; the page table has the counters
of a page or, in the same words, a link.  A page of the zone map is its index in the page table.
-/

set_option autoImplicit false

namespace Osf1.Zalloc

open Function

open Osf1.Computation

/-- What `zinit` and `zchange` give a zone.  `kentry` is the zone of the kernel map entries.
SRC: kern/zalloc.h:84-102 -/
structure Zone where
  elemSize : ℕ
  allocSize : ℕ
  pageable : Bool
  exhaustible : Bool
  expandable : Bool
  collectable : Bool
  kentry : Bool
deriving DecidableEq

/-- The zone map, the zones, and the address of `zone_page_table`. -/
structure Kernel (Z : Type) where
  pageSize : ℕ
  zoneMapMin : ℕ
  zoneMapMax : ℕ
  pageTable : ℕ
  zones : List Z
  zone : Z → Zone
  ignoreOverflow : Bool
  pageSize_pos : 0 < pageSize
  zoneMapMin_pos : 0 < zoneMapMin
  elemSize_pos : ∀ z, 0 < (zone z).elemSize
  allocSize_pos : ∀ z, 0 < (zone z).allocSize
  allocSize_dvd : ∀ z, pageSize ∣ (zone z).allocSize

/-- An entry of the page table: the counters, or the index of the next entry on a list of free pages.
SRC: kern/zalloc.h:105-111 -/
inductive Entry where
  | z (inFreeList allocCount : ℤ)
  | next (p : Option ℕ)
deriving DecidableEq

abbrev Table := ℕ → Entry

section PageTable

variable {Z : Type} (k : Kernel Z)

/-- SRC: kern/zalloc.h:122-123 -/
def zonePage (addr : ℕ) : ℕ := (addr - k.zoneMapMin) / k.pageSize

/-- The address that a link holds. -/
def entryAddress : Option ℕ → ℕ
  | none => 0
  | some p => k.pageTable + 8 * p

/-- The counters are the two halves of a link. -/
def inFreeList : Entry → ℤ
  | .z inFreeList _ => inFreeList
  | .next p => (entryAddress k p : ℤ).bmod (2 ^ 32)

def allocCount : Entry → ℤ
  | .z _ allocCount => allocCount
  | .next p => ((entryAddress k p / 2 ^ 32 : ℕ) : ℤ).bmod (2 ^ 32)

@[simp] theorem inFreeList_z (i a : ℤ) : inFreeList k (.z i a) = i := rfl

@[simp] theorem allocCount_z (i a : ℤ) : allocCount k (.z i a) = a := rfl

def ZONE_PAGE_USED : ℤ := 0

def ZONE_PAGE_UNUSED : ℤ := -1

/-- The pages of a range; those of a range that is not in the zone map are none. -/
def Spans (addr size p : ℕ) : Prop :=
  k.zoneMapMin ≤ addr ∧ addr + size ≤ k.zoneMapMax ∧ zonePage k addr ≤ p ∧ p ≤ zonePage k (addr + size - 1)

instance (addr size p : ℕ) : Decidable (Spans k addr size p) := inferInstanceAs (Decidable (_ ∧ _))

/-- The loop over the entries of a range. -/
def forPages (f : Entry → Entry) (table : Table) (addr size : ℕ) : Table :=
  fun p => if Spans k addr size p then f (table p) else table p

/-- SRC: kern/zalloc.c:646-660 -/
def zonePageInUse : Table → ℕ → ℕ → Table := forPages k fun e => .z (inFreeList k e - 1) (allocCount k e)

/-- SRC: kern/zalloc.c:662-683 -/
def zonePageFree : Table → ℕ → ℕ → Table :=
  forPages k fun e =>
    if inFreeList k e = ZONE_PAGE_UNUSED then .z 1 (allocCount k e) else .z (inFreeList k e + 1) (allocCount k e)

/-- SRC: kern/zalloc.c:685-701 -/
def zonePageInit (value : ℤ) : Table → ℕ → ℕ → Table := forPages k fun _ => .z 0 value

/-- SRC: kern/zalloc.c:703-724 -/
def zonePageAlloc : Table → ℕ → ℕ → Table :=
  forPages k fun e =>
    if allocCount k e = ZONE_PAGE_UNUSED then .z (inFreeList k e) 1 else .z (inFreeList k e) (allocCount k e + 1)

/-- SRC: kern/zalloc.c:726-740 -/
def zonePageDealloc : Table → ℕ → ℕ → Table := forPages k fun e => .z (inFreeList k e) (allocCount k e - 1)

/-- An entry whose count is 0 goes onto the list. -/
def addFreePage (p : ℕ) (s : Table × Option ℕ) : Table × Option ℕ :=
  if allocCount k (s.1 p) = 0 then (update s.1 p (.next s.2), some p) else s

/-- SRC: kern/zalloc.c:742-764 -/
def zoneAddFreePageList (table : Table) (freeList : Option ℕ) (addr size : ℕ) : Table × Option ℕ :=
  if k.zoneMapMin ≤ addr ∧ addr + size ≤ k.zoneMapMax then
    let i := zonePage k addr
    let j := zonePage k (addr + size - 1)
    (List.range' i (j + 1 - i)).foldl (fun s p => addFreePage k p s) (table, freeList)
  else (table, freeList)

/-- The size of a `struct zone_free_entry`. -/
def FREE_ENTRY_SIZE : ℕ := 8

/-- An element leaves the counters of its pages; its pages go onto the list when its first page, or that of a scaled
address, has no element any more.
SRC: kern/zalloc.c:827-834 -/
def collectElement (size elt : ℕ) (table : Table) (freeList : Option ℕ) : Table × Option ℕ :=
  let table := zonePageDealloc k (zonePageInUse k table elt size) elt size
  if allocCount k (table (zonePage k elt)) = 0 ∨
      allocCount k (table (zonePage k (elt + FREE_ENTRY_SIZE * (size - 1)))) = 0 then
    zoneAddFreePageList k table freeList elt size
  else (table, freeList)

/-- What the second loop of `zone_gc` changes. -/
structure Collected where
  kept : List ℕ
  table : Table
  freeList : Option ℕ
  curSize : ℤ

/-- SRC: kern/zalloc.c:818-857 -/
def collectLoop (size : ℕ) : List ℕ → Table → Option ℕ → ℤ → Collected
  | [], table, freeList, curSize => ⟨[], table, freeList, curSize⟩
  | elt :: rest, table, freeList, curSize =>
    let entry := table (zonePage k elt)
    if k.zoneMapMin ≤ elt ∧ elt ≤ k.zoneMapMax ∧ inFreeList k entry = allocCount k entry then
      let (table, freeList) := collectElement k size elt table freeList
      collectLoop size rest table freeList (curSize - size)
    else
      let table :=
        if k.zoneMapMin ≤ elt ∧ elt ≤ k.zoneMapMax then
          update table (zonePage k elt) (.z 0 (allocCount k entry))
        else table
      let r := collectLoop size rest table freeList curSize
      { r with kept := elt :: r.kept }

/-- A zone is collected.
SRC: kern/zalloc.c:804-858 -/
def collectZone (size : ℕ) (freeElements : List ℕ) (table : Table) (freeList : Option ℕ) (curSize : ℤ) : Collected :=
  collectLoop k size freeElements (freeElements.foldl (fun table elt => zonePageFree k table elt size) table)
    freeList curSize

end PageTable

/-- What changes of a zone. -/
structure ZoneState where
  count : ℤ
  freeElements : List ℕ
  curSize : ℤ
  maxSize : ℤ
  doingAlloc : Bool
deriving DecidableEq

/-- Where a call is between two sections: `zalloc` looks for an element, or waits for memory that another gets, or gets
memory, or has memory to cram; `zget_space` looks for space, with new memory or without, or gets memory, or has found
space; `zone_gc` has zones before it, and pages to free. -/
inductive Pc (Z : Type) where
  | none
  | zalloc (z : Z) (crammed : Bool)
  | waiting (z : Z)
  | grow (z : Z)
  | cram (z : Z) (addr size : ℕ)
  | space (z : Z) (newSpace : Option ℕ)
  | spaceGrow (z : Z)
  | spaced (z : Z) (result : ℕ) (newSpace : Option ℕ)
  | gc (zones : List Z) (freeList : Option ℕ)

/-- Who has a byte: an element of a zone, a call that has memory from the zone map or from the space of `zget_space`,
or that space. -/
inductive Owner (Z C : Type) where
  | element (z : Z) (addr : ℕ)
  | chunk (c : C)
  | hand (c : C)
  | space
deriving DecidableEq

/-- What a page of the zone map has been allocated for. -/
inductive Use (Z : Type) where
  | zone (z : Z)
  | space
deriving DecidableEq

/-- `mapped` are the pages of the zone map that are allocated, `use` says what for, and `crammed` which of them have had
an element.  `live` are the elements that have been allocated from a zone; `owner` says whose a byte is. -/
structure St (Z C : Type) where
  zone : Z → ZoneState
  table : Table
  nextSpace : ℕ
  endOfSpace : ℕ
  mapped : ℕ → Bool
  pc : C → Pc Z
  live : Z → List ℕ
  owner : ℕ → Option (Owner Z C)
  use : ℕ → Option (Use Z)
  crammed : ℕ → Bool

variable {Z C : Type} [DecidableEq Z] [DecidableEq C]

namespace St

def setZone (s : St Z C) (z : Z) (x : ZoneState) : St Z C := { s with zone := update s.zone z x }

def setPc (s : St Z C) (c : C) (p : Pc Z) : St Z C := { s with pc := update s.pc c p }

/-- A range of bytes goes to someone. -/
def give (s : St Z C) (addr size : ℕ) (o : Option (Owner Z C)) : St Z C :=
  { s with owner := fun b => if addr ≤ b ∧ b < addr + size then o else s.owner b }

end St

section Calls

variable (k : Kernel Z) (s : St Z C)

/-- `ADD_TO_ZONE`
SRC: kern/zalloc.h:140-145 -/
def addToZone (z : Z) (element : ℕ) : St Z C :=
  let x := s.zone z
  s.setZone z { x with freeElements := element :: x.freeElements, count := x.count - 1 }

/-- `REMOVE_FROM_ZONE`
SRC: kern/zalloc.h:147-154 -/
def removeFromZone (z : Z) : Option (St Z C) :=
  let x := s.zone z
  match x.freeElements with
  | [] => none
  | ret :: rest =>
    some { s.setZone z { x with freeElements := rest, count := x.count + 1 } with
      live := update s.live z (ret :: s.live z) }

/-- SRC: kern/zalloc.c:555-573 -/
def zget (z : Z) : St Z C := (removeFromZone s z).getD s

/-- SRC: kern/zalloc.c:578-592 -/
def zfree (z : Z) (elem : ℕ) : St Z C := { addToZone s z elem with live := update s.live z ((s.live z).erase elem) }

/-- A round of the loop of `zcram`.
SRC: kern/zalloc.c:281-287 -/
def cramElement (z : Z) (newmem : ℕ) : St Z C :=
  let zone := k.zone z
  let s := addToZone s z newmem
  let table := if zone.kentry = false then zonePageAlloc k s.table newmem zone.elemSize else s.table
  let x := s.zone z
  let s := s.setZone z { x with count := x.count + 1, curSize := x.curSize + zone.elemSize }
  { s.give newmem zone.elemSize (some (.element z newmem)) with
    table := table
    crammed := fun p => if Spans k newmem zone.elemSize p then true else s.crammed p }

/-- The loop of `zcram`, which goes as often as the memory has room for an element.
SRC: kern/zalloc.c:280-288 -/
def cramLoop (z : Z) : ℕ → ℕ → St Z C → St Z C
  | 0, _, s => s
  | n + 1, newmem, s => cramLoop z n (newmem + (k.zone z).elemSize) (cramElement k s z newmem)

/-- SRC: kern/zalloc.c:265-290 -/
def zcram (z : Z) (newmem size : ℕ) : Except String (St Z C) :=
  if newmem = 0 then .error "zcram: system cannot continue, zone subsystem out of kernel virtual address space. \n"
  else .ok (cramLoop k z (size / (k.zone z).elemSize) newmem s)

/-- A zone has no room for more memory.
SRC: kern/zalloc.c:473-475 -/
def isFull (z : Z) : Bool :=
  let zone := k.zone z
  (s.zone z).curSize + (if zone.pageable = true then zone.allocSize else zone.elemSize) > (s.zone z).maxSize

/-- The body of the loop of `zalloc` up to where the lock of the zone is dropped.
SRC: kern/zalloc.c:454-508 -/
def zallocBody (c : C) (z : Z) : Except String (St Z C) :=
  let zone := k.zone z
  let x := s.zone z
  if zone.kentry = true then .error "zalloc: no more kernel map entries\n"
  else if x.doingAlloc = true then .ok (s.setPc c (.waiting z))
  else
    if isFull k s z = true ∧ zone.exhaustible = true then .ok (s.setPc c .none)
    else if isFull k s z = true ∧ zone.expandable = false ∧ k.ignoreOverflow = false then .error "zalloc"
    else
      let maxSize := if isFull k s z = true ∧ zone.expandable = true then x.maxSize + x.maxSize / 2 else x.maxSize
      .ok ((s.setZone z { x with maxSize := maxSize, doingAlloc := zone.pageable }).setPc c
        (if zone.pageable = true ∨ zone.collectable = true then .grow z else .space z none))

/-- `zalloc` from where it looks for an element.
SRC: kern/zalloc.c:452-455,515-521,527-528 -/
def zallocSection (c : C) (z : Z) (crammed : Bool) : Except String (St Z C) :=
  let s :=
    if crammed = true ∧ (k.zone z).pageable = true then s.setZone z { s.zone z with doingAlloc := false } else s
  match removeFromZone s z with
  | some s => .ok (s.setPc c .none)
  | none => zallocBody k s c z

/-- The pages of a range become allocated, and a call has the range; there may be no room.
SRC: kern/zalloc.c:332,512,522 -/
def kmemAlloc (c : C) (u : Use Z) (addr size : ℕ) : St Z C :=
  if addr = 0 then s
  else { s.give addr size (some (.chunk c)) with
    mapped := fun p => if Spans k addr size p then true else s.mapped p
    use := fun p => if Spans k addr size p then some u else s.use p
    crammed := fun p => if Spans k addr size p then false else s.crammed p }

def kmemFree (addr size : ℕ) : St Z C :=
  { s.give addr size none with
    mapped := fun p => if Spans k addr size p then false else s.mapped p
    use := fun p => if Spans k addr size p then none else s.use p
    crammed := fun p => if Spans k addr size p then false else s.crammed p }

/-- SRC: kern/zalloc.c:510-525 -/
def growSection (c : C) (z : Z) (addr : ℕ) : St Z C :=
  let zone := k.zone z
  let s := kmemAlloc k s c (.zone z) addr zone.allocSize
  let table := if zone.pageable = true then s.table else zonePageInit k ZONE_PAGE_USED s.table addr zone.allocSize
  { s with table := table }.setPc c (.cram z addr zone.allocSize)

def cramSection (c : C) (z : Z) (addr size : ℕ) : Except String (St Z C) :=
  (zcram k s z addr size).map fun s => s.setPc c (.zalloc z true)

/-- SRC: kern/zalloc.c:313-314 -/
def spaceToAdd (size : ℕ) : ℕ :=
  if k.pageSize < size then (size + k.pageSize - 1) / k.pageSize * k.pageSize else k.pageSize

/-- The space is big enough, or memory is needed.
SRC: kern/zalloc.c:308,330,363-365 -/
def takeSpace (c : C) (z : Z) (newSpace : Option ℕ) : St Z C :=
  let size := (k.zone z).elemSize
  if s.nextSpace + size > s.endOfSpace then s.setPc c (.spaceGrow z)
  else { s.give s.nextSpace size (some (.hand c)) with nextSpace := s.nextSpace + size }.setPc c
    (.spaced z s.nextSpace newSpace)

/-- New memory is put behind the space, or in its place.
SRC: kern/zalloc.c:351-359 -/
def addSpace (size newSpace : ℕ) : St Z C :=
  { s.give newSpace (spaceToAdd k size) (some .space) with
    nextSpace := if newSpace ≠ s.endOfSpace then newSpace else s.nextSpace
    endOfSpace := newSpace + spaceToAdd k size }

/-- A section of `zget_space` under its lock.
SRC: kern/zalloc.c:307-365 -/
def zgetSpace (c : C) (z : Z) : Option ℕ → St Z C
  | some newSpace =>
    let size := (k.zone z).elemSize
    if s.nextSpace + size > s.endOfSpace then takeSpace k (addSpace k s size newSpace) c z none
    else takeSpace k s c z (some newSpace)
  | none => takeSpace k s c z none

/-- SRC: kern/zalloc.c:332-339,531-532 -/
def spaceGrow (c : C) (z : Z) (addr : ℕ) : Except String (St Z C) :=
  let size := spaceToAdd k (k.zone z).elemSize
  let s := kmemAlloc k s c .space addr size
  if addr = 0 then .error "zalloc"
  else .ok ({ s with table := zonePageInit k ZONE_PAGE_USED s.table addr size }.setPc c (.space z (some addr)))

/-- Memory that was not needed is given back.
SRC: kern/zalloc.c:367-370 -/
def spaceFree (c : C) (z : Z) (result newSpace : ℕ) : St Z C :=
  (kmemFree k s newSpace (spaceToAdd k (k.zone z).elemSize)).setPc c (.spaced z result none)

/-- The element is counted.
SRC: kern/zalloc.c:534-539 -/
def spaceAccount (c : C) (z : Z) (result : ℕ) : St Z C :=
  let size := (k.zone z).elemSize
  let x := s.zone z
  let s := s.setZone z { x with count := x.count + 1, curSize := x.curSize + size }
  { s.give result size (some (.element z result)) with
    table := zonePageAlloc k s.table result size
    live := update s.live z (result :: s.live z) }.setPc c .none

/-- SRC: kern/zalloc.c:800-859 -/
def gcZone (c : C) (z : Z) (zones : List Z) (freeList : Option ℕ) : St Z C :=
  let zone := k.zone z
  if zone.pageable = false ∧ zone.collectable = true then
    let x := s.zone z
    let r := collectZone k zone.elemSize x.freeElements s.table freeList x.curSize
    { s.setZone z { x with freeElements := r.kept, curSize := r.curSize } with table := r.table }.setPc c
      (.gc zones r.freeList)
  else s.setPc c (.gc zones freeList)

/-- What the entry of a page on the list has as its link. -/
def Entry.link : Entry → Option ℕ
  | .next p => p
  | .z .. => none

/-- SRC: kern/zalloc.c:867-876 -/
def gcFree (c : C) (freep : ℕ) : St Z C :=
  let nextfreep := (s.table freep).link
  (kmemFree k s (k.zoneMapMin + k.pageSize * freep) k.pageSize).setPc c (.gc [] nextfreep)

end Calls

/-- The sections.  `addr` is what the allocator of the zone map returns, 0 for no room. -/
inductive Label (Z C : Type) where
  | zget (z : Z)
  | zfree (z : Z) (elem : ℕ)
  | zcram (z : Z) (newmem size : ℕ)
  | zalloc (c : C) (z : Z)
  | section' (c : C)
  | memory (c : C) (addr : ℕ)
  | zoneGc (c : C)

/-- A range of pages that are not allocated. -/
def Fresh (k : Kernel Z) (s : St Z C) (addr size : ℕ) : Prop :=
  k.zoneMapMin ≤ addr ∧ addr + size ≤ k.zoneMapMax ∧ k.pageSize ∣ addr - k.zoneMapMin ∧
    ∀ p, Spans k addr size p → s.mapped p = false

/-- Memory of a caller of `zcram`: it is not in the zone map, and nobody has it. -/
def Outside (k : Kernel Z) (s : St Z C) (newmem size : ℕ) : Prop :=
  (newmem + size ≤ k.zoneMapMin ∨ k.zoneMapMax ≤ newmem) ∧ ∀ b, newmem ≤ b → b < newmem + size → s.owner b = none

/-- The next section of a call, that needs no memory. -/
def execSection (k : Kernel Z) (s : St Z C) (c : C) : Option (Except String (St Z C)) :=
  match s.pc c with
  | .zalloc z crammed => some (zallocSection k s c z crammed)
  | .waiting z => some (zallocBody k s c z)
  | .cram z addr size => some (cramSection k s c z addr size)
  | .space z newSpace => some (.ok (zgetSpace k s c z newSpace))
  | .spaced z result (some newSpace) => some (.ok (spaceFree k s c z result newSpace))
  | .spaced z result .none => some (.ok (spaceAccount k s c z result))
  | .gc (z :: zones) freeList => some (.ok (gcZone k s c z zones freeList))
  | .gc [] (some freep) => some (.ok (gcFree k s c freep))
  | .gc [] .none => some (.ok (s.setPc c .none))
  | .none | .grow _ | .spaceGrow _ => none

/-- A step: a call that is made, or a section of one.  Only an element that has been allocated is freed. -/
inductive Step (k : Kernel Z) (s : St Z C) : Label Z C → Except String (St Z C) → Prop where
  | zget (z : Z) : Step k s (.zget z) (.ok (zget s z))
  | zfree {z : Z} {elem : ℕ} : elem ∈ s.live z → Step k s (.zfree z elem) (.ok (zfree s z elem))
  | zcram {z : Z} {newmem size : ℕ} : Outside k s newmem size → Step k s (.zcram z newmem size) (zcram k s z newmem size)
  | zalloc {c : C} {z : Z} : s.pc c = .none → Step k s (.zalloc c z) (.ok (s.setPc c (.zalloc z false)))
  | section' {c : C} {r : Except String (St Z C)} : execSection k s c = some r → Step k s (.section' c) r
  | grow {c : C} {z : Z} {addr : ℕ} : s.pc c = .grow z → addr = 0 ∨ Fresh k s addr (k.zone z).allocSize →
      Step k s (.memory c addr) (.ok (growSection k s c z addr))
  | spaceGrow {c : C} {z : Z} {addr : ℕ} : s.pc c = .spaceGrow z →
      addr = 0 ∨ Fresh k s addr (spaceToAdd k (k.zone z).elemSize) →
      Step k s (.memory c addr) (spaceGrow k s c z addr)
  | zoneGc {c : C} : s.pc c = .none → Step k s (.zoneGc c) (.ok (s.setPc c (.gc k.zones none)))

end Osf1.Zalloc
