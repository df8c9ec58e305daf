import Osf1.Computation.Transition
import Osf1.Errno

/-!
# Shared memory segments: the code of `svipc_shm.c` and `u_mape_shm.c`

A segment is attached to a map by an entry of the map.  Three counters go with it: the number of
attaches of the segment, the reference count of its object, and the attach array, which counts
the attaches of each map.  The system calls, the operations of a map entry and the deallocation of
the object each see to some of them.
-/

set_option autoImplicit false

namespace Osf1.Shm

open List

section Model

/-- SRC: mach/kern_return.h:86 -/
def KERN_RESOURCE_SHORTAGE : ℕ := 6

/-- An element of the attach array.
SRC: vm/vm_anon.h:79-83 -/
structure Attach where
  atCount : ℕ
  atMap : ℕ
  atPid : ℕ
  deriving DecidableEq

/-- A segment: what `shmem` has of it and its object, which point at each other from `shmget` to
`shm_free_entry`.  `removed` is `SHM_REMOVED`.  A segment that is freed is kept, as it was last,
so that a later one of the same slot is another segment.
SRC: sys/shm.h:92-125, vm/vm_anon.h:70-76 -/
structure Segment where
  soRefcnt : ℕ
  shmNattch : ℕ
  shmLpid : ℕ
  soAttach : List Attach
  removed : Bool
  freed : Bool
  deriving DecidableEq

/-- A map entry whose object is the object of a segment. -/
structure Entry where
  vmeMap : ℕ
  vmeStart : ℕ
  vmeEnd : ℕ
  vmeObject : ℕ
  deriving DecidableEq

/-- The segments there have been, in the order of their `shmget`, and their entries in all maps. -/
structure State where
  shmem : List Segment
  entries : List Entry
  deriving DecidableEq

/-- How a call ends. -/
inductive Turn where
  | done (s : State) (error : ℕ)
  | panic
  deriving DecidableEq

def Turn.state? : Turn → Option State
  | .done s _ => some s
  | .panic => none

/-- SRC: vm/u_mape_shm.c:228-266 -/
def uShmAttach (pid map : ℕ) : List Attach → List Attach
  | [] => [⟨1, map, pid⟩]
  | attach :: rest =>
    if map = attach.atMap then { attach with atCount := attach.atCount + 1 } :: rest
    else attach :: uShmAttach pid map rest

/-- The process and the array that is left.  There is none when it panics.
SRC: vm/u_mape_shm.c:268-314 -/
def uShmDettach (map : ℕ) : List Attach → Option (ℕ × List Attach)
  | [] => none
  | attach :: rest =>
    if map = attach.atMap then
      if attach.atCount - 1 ≠ 0 then
        some (attach.atPid, { attach with atCount := attach.atCount - 1 } :: rest)
      else some (attach.atPid, rest)
    else (uShmDettach map rest).map fun (pid, left) => (pid, attach :: left)

/-- SRC: vm/u_mape_shm.c:121-181 -/
def uShmOopDeallocate (sop : Segment) : Segment :=
  if sop.soRefcnt ≤ sop.shmNattch then sop
  else if sop.soRefcnt - 1 ≠ 0 then { sop with soRefcnt := sop.soRefcnt - 1 }
  -- `shm_free_entry` and `vm_object_free`.
  else { sop with soRefcnt := sop.soRefcnt - 1, freed := true }

/-- The counters of the new entry of the map `newmap`.  The object is shared, and `u_anon_dupu`
takes a reference to it.
SRC: vm/u_mape_shm.c:187-203, vm/u_mape_anon.c:823-830 -/
def uShmDup (pid newmap : ℕ) (sop : Segment) : Segment :=
  { sop with
    soRefcnt := sop.soRefcnt + 1
    shmNattch := sop.shmNattch + 1
    soAttach := uShmAttach pid newmap sop.soAttach }

/-- The number of attaches is unsigned. -/
def decrement (n : ℕ) : ℕ := if n = 0 then 2 ^ 64 - 1 else n - 1

/-- The counters when all of an entry of the map is unmapped.
SRC: vm/u_mape_shm.c:209-222 -/
def uShmUnmap (map : ℕ) (sop : Segment) : Option Segment :=
  (uShmDettach map sop.soAttach).map fun (pid, left) =>
    { sop with shmNattch := decrement sop.shmNattch, shmLpid := pid, soAttach := left }

/-- A new object with its first reference.
SRC: bsd/svipc_shm.c:440-492 -/
def shmget (s : State) : State := { s with shmem := s.shmem ++ [⟨1, 0, 0, [], false, false⟩] }

/-- `u_map_delete` of one entry: `vme_unmap`, then `vm_map_entry_delete`.  An entry of a segment
can only be unmapped as a whole.
SRC: vm/vm_umap.c:876-903, vm/vm_map.c:937-946 -/
def unmap (s : State) (i addr len : ℕ) : Option Turn :=
  s.entries[i]?.bind fun ep =>
    s.shmem[ep.vmeObject]?.map fun sop =>
      if ep.vmeStart ≠ addr ∨ ep.vmeEnd ≠ addr + len then .done s EINVAL
      else
        match uShmUnmap ep.vmeMap sop with
        | none => .panic
        | some sop =>
          .done { shmem := s.shmem.set ep.vmeObject (uShmOopDeallocate sop)
                  entries := s.entries.eraseIdx i } ESUCCESS

/-- How `u_map_enter` ends: it fails and deallocates the object, it links the entry but cannot
wire it, as `um_lock_future` asks, or it links the entry.  `nomem` is that the error is one of
`KERN_NO_SPACE`, `KERN_MEMORY_FAILURE` and `KERN_MEMORY_ERROR`.  An entry of a segment never
grows, as its object is shared.
SRC: vm/vm_umap.c:420-533 -/
inductive Enter where
  | failed (nomem : Bool)
  | wireFailed (nomem : Bool)
  | entered
  deriving DecidableEq

/-- The errors of `u_map_enter` as `shmat` returns them. -/
def enterError (nomem : Bool) : ℕ := if nomem then ENOMEM else EINVAL

/-- The entry is linked.  `vm_object_reference` has taken the reference that goes with it. -/
def link (s : State) (ep : Entry) (sop : Segment) : State where
  shmem := s.shmem.set ep.vmeObject sop
  entries := ep :: s.entries

/-- `denied` is the error of the permission checks and of the limit `shmseg`.
SRC: bsd/svipc_shm.c:140-238, vm/vm_umap.c:539-552 -/
def shmat (s : State) (ep : Entry) (pid : ℕ) (denied : Option ℕ) (enter : Enter) : Option Turn :=
  s.shmem[ep.vmeObject]?.bind fun sp =>
    if sp.freed = true ∨ sp.soRefcnt ≤ sp.shmNattch then some (.done s EINVAL)
    else
      match denied with
      | some error => some (.done s error)
      | none =>
        let sp := { sp with soRefcnt := sp.soRefcnt + 1 }
        match enter with
        | .failed nomem =>
          some (.done { s with shmem := s.shmem.set ep.vmeObject (uShmOopDeallocate sp) } (enterError nomem))
        | .wireFailed nomem =>
          -- `u_map_lock_vas_expand` deletes the entry.
          (unmap (link s ep sp) 0 ep.vmeStart (ep.vmeEnd - ep.vmeStart)).map fun
            | .done s _ => .done s (enterError nomem)
            | .panic => .panic
        | .entered =>
          some (.done (link s ep
            { sp with
              soAttach := uShmAttach pid ep.vmeMap sp.soAttach
              shmLpid := pid
              shmNattch := sp.shmNattch + 1 }) ESUCCESS)

/-- What `u_map_fork` does for one entry.
SRC: vm/vm_umap.c:1573-1592 -/
def dup (s : State) (i newmap pid : ℕ) : Option Turn :=
  s.entries[i]?.bind fun oep =>
    s.shmem[oep.vmeObject]?.map fun sop =>
      .done (link s { oep with vmeMap := newmap } (uShmDup pid newmap sop)) ESUCCESS

/-- The pieces of an entry that is clipped to a range of it.
SRC: vm/vm_map.c:297-322 -/
def vmMapEntrySplit (ep : Entry) (start stop : ℕ) : List Entry :=
  (if ep.vmeStart < start then [{ ep with vmeEnd := start }] else []) ++
    { ep with vmeStart := max ep.vmeStart start, vmeEnd := min ep.vmeEnd stop } ::
      (if stop < ep.vmeEnd then [{ ep with vmeStart := stop }] else [])

/-- A change of the inheritance, or of what is kept on `exec`, of a range of the entry.  A
reference is taken for each new piece.  `short` is that `u_map_entry_clip_check` fails.
SRC: vm/u_mape_anon.c:1442-1486 -/
def control (s : State) (i addr size : ℕ) (short : Bool) : Option Turn :=
  s.entries[i]?.bind fun ep =>
    s.shmem[ep.vmeObject]?.bind fun sop =>
      if ep.vmeStart ≤ addr ∧ 0 < size ∧ addr + size ≤ ep.vmeEnd then
        if short then some (.done s KERN_RESOURCE_SHORTAGE)
        else
          let pieces := vmMapEntrySplit ep addr (addr + size)
          some (.done
            { shmem := s.shmem.set ep.vmeObject
                { sop with soRefcnt := sop.soRefcnt + (pieces.length - 1) }
              entries := pieces ++ s.entries.eraseIdx i } ESUCCESS)
      else none

/-- `shmctl` with `IPC_RMID`.  `denied` is the error of the permission checks.
SRC: bsd/svipc_shm.c:262-296 -/
def shmctlRmid (s : State) (shmid : ℕ) (denied : Option ℕ) : Option Turn :=
  s.shmem[shmid]?.map fun sp =>
    if sp.freed then .done s EINVAL
    else
      match denied with
      | some error => .done s error
      | none =>
        .done { s with shmem := s.shmem.set shmid { uShmOopDeallocate sp with removed := true } }
          ESUCCESS

/-- What happens to segments and to entries.  A `shmget` that makes no segment changes none.  A
fork is a `dup` of each entry of a map, and an exit, an `exec` or a deallocation of a range is an
`unmap` of some entries. -/
inductive Event where
  | shmget
  | shmat (ep : Entry) (pid : ℕ) (denied : Option ℕ) (enter : Enter)
  | dup (i newmap pid : ℕ)
  | control (i addr size : ℕ) (short : Bool)
  | unmap (i addr len : ℕ)
  | rmid (shmid : ℕ) (denied : Option ℕ)

def step (s : State) : Event → Option Turn
  | .shmget => some (.done (shmget s) ESUCCESS)
  | .shmat ep pid denied enter => shmat s ep pid denied enter
  | .dup i newmap pid => dup s i newmap pid
  | .control i addr size short => control s i addr size short
  | .unmap i addr len => unmap s i addr len
  | .rmid shmid denied => shmctlRmid s shmid denied

/-- The runs of the facility from the time it is started. -/
def shmSystem : Computation.System State Event :=
  Computation.System.ofFun ⟨[], []⟩ fun s e => (step s e).bind Turn.state?

/-- A wiring that fails after the entry is linked undoes an attach that has not been counted.  A
control of a part of an entry makes attaches that are not counted. -/
def Orderly (s : State) : Event → Prop
  | .shmat _ _ _ enter => ∀ nomem, enter ≠ .wireFailed nomem
  | .control i addr size short =>
    short = false → ∀ ep, s.entries[i]? = some ep → addr = ep.vmeStart ∧ addr + size = ep.vmeEnd
  | _ => True

end Model

/-!
## The attach array and the entries

The attach array counts the attaches of each map.  The counts are taken over the maps that a test
picks, so that the count of one map and the sum of all counts are two cases of one.
-/

section Attach

variable {p : ℕ → Bool} {pid map o : ℕ} {as left : List Attach} {es : List Entry} {ep : Entry}

/-- The sum of the counts of the maps that `p` picks. -/
def attached (p : ℕ → Bool) (as : List Attach) : ℕ := ((as.filter fun a => p a.atMap).map Attach.atCount).sum

/-- The entries of the segment `o` in the maps that `p` picks. -/
def mapped (p : ℕ → Bool) (o : ℕ) (es : List Entry) : ℕ := es.countP fun ep => ep.vmeObject = o && p ep.vmeMap

theorem attached_cons (a : Attach) (as : List Attach) :
    attached p (a :: as) = (if p a.atMap then a.atCount else 0) + attached p as := by
  unfold attached
  cases h : p a.atMap with
  | true => simp [h]
  | false => simp [h]

theorem attached_true (as : List Attach) : attached (fun _ => true) as = (as.map Attach.atCount).sum := by
  simp [attached]

theorem attached_pos (h : 0 < attached p as) : ∃ a ∈ as, p a.atMap = true := by
  induction as with
  | nil => exact absurd h (Nat.lt_irrefl 0)
  | cons a as ih =>
    rw [attached_cons] at h
    by_cases ha : p a.atMap = true
    · exact ⟨a, mem_cons_self .., ha⟩
    · rw [if_neg ha, Nat.zero_add] at h
      obtain ⟨b, hb, hpb⟩ := ih h
      exact ⟨b, mem_cons_of_mem _ hb, hpb⟩

theorem attached_uShmAttach : attached p (uShmAttach pid map as) = attached p as + if p map then 1 else 0 := by
  induction as with
  | nil =>
    rw [uShmAttach, attached_cons]
    exact Nat.add_comm ..
  | cons a as ih =>
    rw [uShmAttach]
    by_cases heq : map = a.atMap
    · subst heq
      rw [if_pos rfl, attached_cons, attached_cons]
      by_cases hp : p a.atMap = true
      · simp only [if_pos hp]
        omega
      · simp only [if_neg hp, Nat.add_zero]
    · rw [if_neg heq, attached_cons, attached_cons, ih, Nat.add_assoc]

theorem atCount_pos_uShmAttach (h : ∀ a ∈ as, 0 < a.atCount) : ∀ a ∈ uShmAttach pid map as, 0 < a.atCount := by
  induction as with
  | nil =>
    intro a ha
    rw [uShmAttach, mem_singleton] at ha
    rw [ha]
    exact Nat.one_pos
  | cons b as ih =>
    intro a ha
    rw [uShmAttach] at ha
    split at ha
    · rcases mem_cons.mp ha with rfl | ha
      · exact Nat.succ_pos _
      · exact h a (mem_cons_of_mem _ ha)
    · rcases mem_cons.mp ha with rfl | ha
      · exact h a (mem_cons_self ..)
      · exact ih (fun c hc => h c (mem_cons_of_mem _ hc)) a ha

theorem exists_uShmDettach (h : ∃ a ∈ as, a.atMap = map) : ∃ pid left, uShmDettach map as = some (pid, left) := by
  induction as with
  | nil =>
    obtain ⟨a, ha, -⟩ := h
    cases ha
  | cons b as ih =>
    rw [uShmDettach]
    by_cases heq : map = b.atMap
    · rw [if_pos heq]
      split
      · exact ⟨_, _, rfl⟩
      · exact ⟨_, _, rfl⟩
    · rw [if_neg heq]
      obtain ⟨a, ha, hmap⟩ := h
      rcases mem_cons.mp ha with rfl | ha
      · exact absurd hmap.symm heq
      · obtain ⟨pid, left, hleft⟩ := ih ⟨a, ha, hmap⟩
        rw [hleft]
        exact ⟨_, _, rfl⟩

theorem uShmDettach_spec (h : uShmDettach map as = some (pid, left)) (hpos : ∀ a ∈ as, 0 < a.atCount) :
    (∀ p, attached p left + (if p map then 1 else 0) = attached p as) ∧
      ∀ a ∈ left, 0 < a.atCount := by
  induction as generalizing left with
  | nil => cases h
  | cons b as ih =>
    have hb := hpos b (mem_cons_self ..)
    have hrest (a : Attach) (ha : a ∈ as) : 0 < a.atCount := hpos a (mem_cons_of_mem _ ha)
    rw [uShmDettach] at h
    by_cases heq : map = b.atMap
    · rw [if_pos heq] at h
      subst heq
      by_cases hlast : b.atCount - 1 ≠ 0
      · rw [if_pos hlast] at h
        cases h
        constructor
        · intro p
          rw [attached_cons, attached_cons]
          by_cases hp : p b.atMap = true
          · simp only [if_pos hp]
            omega
          · simp only [if_neg hp, Nat.add_zero]
        · intro a ha
          rcases mem_cons.mp ha with rfl | ha
          · exact Nat.pos_of_ne_zero hlast
          · exact hrest a ha
      · rw [if_neg hlast] at h
        cases h
        refine ⟨fun p => ?_, hrest⟩
        rw [attached_cons]
        split <;> omega
    · rw [if_neg heq] at h
      obtain ⟨⟨pid', rest⟩, hdettach, hpair⟩ := Option.map_eq_some_iff.mp h
      cases hpair
      obtain ⟨hsum, hleft⟩ := ih hdettach hrest
      constructor
      · intro p
        rw [attached_cons, attached_cons, ← hsum p, Nat.add_assoc]
      · intro a ha
        rcases mem_cons.mp ha with rfl | ha
        · exact hb
        · exact hleft a ha

theorem mapped_cons (ep : Entry) (es : List Entry) :
    mapped p o (ep :: es) = mapped p o es + if ep.vmeObject = o ∧ p ep.vmeMap then 1 else 0 := by
  unfold mapped
  rw [countP_cons]
  simp

theorem mapped_eraseIdx {i : ℕ} (h : es[i]? = some ep) :
    mapped p o es =
      mapped p o (es.eraseIdx i) + if ep.vmeObject = o ∧ p ep.vmeMap then 1 else 0 := by
  obtain ⟨hi, rfl⟩ := List.getElem?_eq_some_iff.mp h
  rw [← mapped_cons]
  exact ((List.getElem_cons_eraseIdx_perm hi).countP_eq _).symm

theorem mapped_pos (hep : ep ∈ es) (hp : p ep.vmeMap = true) : 0 < mapped p ep.vmeObject es :=
  countP_pos_iff.mpr ⟨ep, hep, by simp [hp]⟩

theorem mapped_of_ne {es : List Entry} (h : ∀ ep ∈ es, ep.vmeObject ≠ o) : mapped p o es = 0 := by
  rw [mapped, countP_eq_zero]
  intro ep hep
  simp [h ep hep]

end Attach

end Osf1.Shm
