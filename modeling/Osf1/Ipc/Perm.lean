import Osf1.Errno

/-!
# Process identifiers

The processes that the facilities are used by, as far as they count them.
-/

set_option autoImplicit false

namespace Osf1

/-- SRC: sys/limits.h:221 -/
def PID_MAX : ℕ := 32767

/-- A process identifier. -/
abbrev Pid := Fin (PID_MAX + 1)

instance (priority := 2000) pid_pos : NeZero (PID_MAX + 1) := ⟨by decide⟩

end Osf1

/-!
## Permissions and slots of the System V facilities

Semaphore sets and message queues live in tables whose entries begin with a `struct ipc_perm`.
-/

namespace Osf1.Ipc

/-- SRC: sys/ipc.h:57-65 -/
structure IpcPerm where
  uid : ℕ
  gid : ℕ
  cuid : ℕ
  cgid : ℕ
  mode : ℕ
  seq : UInt16
  key : ℤ
  deriving DecidableEq, Repr

/-- `u.u_uid` and `u.u_gid`. -/
structure Cred where
  uid : ℕ
  gid : ℕ
  deriving DecidableEq, Repr

/-- SRC: sys/ipc.h:86-88 -/
def IPC_ALLOC : ℕ := 0o100000

def IPC_R : ℕ := 0o400

def IPC_W : ℕ := 0o200

/-- SRC: sys/ipc.h:68-70 -/
def IPC_CREAT : ℕ := 0o1000

def IPC_EXCL : ℕ := 0o2000

def IPC_NOWAIT : ℕ := 0o4000

/-- `(key_t)0`.
SRC: sys/ipc.h:73 -/
def IPC_PRIVATE : ℤ := 0

/-- The entry is in use. -/
def IpcPerm.Alloc (p : IpcPerm) : Prop := p.mode &&& IPC_ALLOC ≠ 0

instance (p : IpcPerm) : Decidable p.Alloc := inferInstanceAs (Decidable (_ ≠ _))

theorem alloc_or {x y : ℕ} (h : y &&& IPC_ALLOC ≠ 0) : (x ||| y) &&& IPC_ALLOC ≠ 0 := by
  rw [Nat.and_or_distrib_right]
  intro h0
  exact h (Nat.or_eq_zero_iff.mp h0).2

/-- Whether a process has an access permission.
SRC: bsd/svipc_ipc.c:70-95 -/
def ipcaccess (u : Cred) (p : IpcPerm) (mode : ℕ) : Bool :=
  if u.uid = 0 then true
  else
    let mode :=
      if u.uid ≠ p.uid ∧ u.uid ≠ p.cuid then
        if u.gid ≠ p.gid ∧ u.gid ≠ p.cgid then mode >>> 6 else mode >>> 3
      else mode
    mode &&& p.mode ≠ 0

/-- What `ipcget` returns: an error, an entry that exists, or an entry for a new object. -/
inductive Got where
  | error (errno : ℕ)
  | existing (slot : ℕ)
  | fresh (slot : ℕ)
  deriving DecidableEq, Repr

/-- Find the entry for a key, or a free one.
SRC: bsd/svipc_ipc.c:118-178 -/
def ipcget (key : ℤ) (flag : ℕ) (table : List IpcPerm) : Got :=
  let free := table.findIdx? fun p => !decide p.Alloc
  let found := table.zipIdx.find? fun q => decide q.1.Alloc && decide (q.1.key = key)
  match (if key = IPC_PRIVATE then none else found) with
  | some (p, i) =>
    if flag &&& (IPC_CREAT ||| IPC_EXCL) = IPC_CREAT ||| IPC_EXCL then .error EEXIST
    else if (flag &&& 0o777) &&& p.mode ≠ flag &&& 0o777 then .error EACCES
    else .existing i
  | none =>
    if key ≠ IPC_PRIVATE ∧ flag &&& IPC_CREAT = 0 then .error ENOENT
    else
      match free with
      | some a => .fresh a
      | none => .error ENOSPC

theorem ipcget_fresh {key : ℤ} {flag : ℕ} {table : List IpcPerm} {i : ℕ}
    (h : ipcget key flag table = .fresh i) : ∃ hi : i < table.length, ¬table[i].Alloc := by
  unfold ipcget at h
  simp only at h
  split at h
  · split at h
    · cases h
    split at h
    · cases h
    · cases h
  · split at h
    · cases h
    split at h
    · rename_i hfree
      cases h
      obtain ⟨hi, hfree, -⟩ := List.findIdx?_eq_some_iff_getElem.mp hfree
      exact ⟨hi, by simpa using hfree⟩
    · cases h

/-- What `ipcget` writes to an entry it has made.
SRC: bsd/svipc_ipc.c:165-173 -/
def IpcPerm.initialize (p : IpcPerm) (u : Cred) (key : ℤ) (flag : ℕ) : IpcPerm :=
  { p with
    mode := IPC_ALLOC ||| (flag &&& 0o777), key := key,
    cuid := u.uid, uid := u.uid, cgid := u.gid, gid := u.gid }

end Osf1.Ipc
