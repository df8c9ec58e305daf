import Osf1.Computation.ByteMemory

/-!
# Messages and how they are walked

`msg_copyin`, `msg_copyout` and `msg_destroy`, as they are on a machine with pointers of 8 bytes, with
`MACH_IPC_XXXHACK` and without `MACH_ASSERT` and `MACH_XP_FPD`.  Each of them walks the items of a message
on its own.  Addresses in a message are offsets from its header, which is aligned to 8 bytes; for every item
that has been walked over the model keeps where it begins and where the next one does, and for every access
to the message its first byte and how many bytes it reads or writes.

What the ports and the virtual memory do is left open.
-/

set_option autoImplicit false

namespace Osf1.Mach

open List

section Model

open Osf1.Computation

section Types

/-- `MSG_TYPE_PORT_ANY`.
SRC: mach/message.h:173-175 -/
def MSG_TYPE_PORT_ANY (tn : ℕ) : Bool := 3 ≤ tn && tn ≤ 6

/-- SRC: mach/message.h:158 -/
def MSG_TYPE_INTERNAL_MEMORY : ℕ := 14

/-- SRC: mach/message.h:151 -/
def MSG_TYPE_INTEGER_8 : ℕ := 9

/-- SRC: mach/message.h:81 -/
def MSG_SIZE_MAX : ℕ := 8192

/-- The size of a header. -/
def headerSize : ℕ := 40

/-- SRC: kern/kern_obj.h:86 -/
def KERN_OBJ_INVALID : BitVec 64 := -1

/-- SRC: mach/message.h:236-268 -/
def SEND_SUCCESS : ℤ := 0
def SEND_INVALID_MEMORY : ℤ := -101
def SEND_INVALID_PORT : ℤ := -102
def SEND_MSG_TOO_LARGE : ℤ := -109
def SEND_MSG_TOO_SMALL : ℤ := -110
def RCV_SUCCESS : ℤ := 0
def RCV_INVALID_MEMORY : ℤ := -201
def RCV_NOT_ENOUGH_MEMORY : ℤ := -205

/-- A type descriptor, as `msg_copyin` reads it.
SRC: mach/message.h:113-128 -/
structure Desc where
  tn : ℕ
  ts : ℕ
  elts : ℕ
  isInline : Bool
  longform : Bool
  deallocate : Bool

/-- SRC: kern/ipc_copyin.c:547-558 -/
def Desc.read (b : Bytes) (s : ℕ) : Desc :=
  let w := load b 4 s
  if w.testBit 29 then
    ⟨load b 2 (s + 4), load b 2 (s + 6), load b 4 (s + 8), w.testBit 28, true, w.testBit 30⟩
  else ⟨w % 256, w / 256 % 256, w / 65536 % 4096, w.testBit 28, false, w.testBit 30⟩

/-- `sizeof(msg_type_long_t)` or `sizeof(msg_type_t)`. -/
def Desc.size (d : Desc) : ℕ := if d.longform then 12 else 4

/-- The accesses that read it. -/
def Desc.accesses (d : Desc) (s : ℕ) : List (ℕ × ℕ) := (s, 4) :: if d.longform then [(s + 4, 8)] else []

/-- SRC: kern/ipc_copyin.c:560 -/
def Desc.numbytes (d : Desc) : ℕ := (d.elts * d.ts + 7) / 8

/-- SRC: kern/ipc_copyin.c:578 -/
def Desc.is_port (d : Desc) : Bool := MSG_TYPE_PORT_ANY d.tn

/-- `MSG_TYPE_ALIGN_64`.
SRC: mach/message.h:182-185 -/
def Desc.align64 (d : Desc) : Bool := MSG_TYPE_PORT_ANY d.tn || d.tn == 0 || d.tn == 15 || d.tn == 16 || !d.isInline

/-- Where the data of an item are whose descriptor ends at `s`.
SRC: kern/ipc_copyin.c:593-600 -/
def Desc.aligned (d : Desc) (s : ℕ) : ℕ := if d.align64 then (s + 7) / 8 * 8 else s

/-- `(numbytes+3) & (~0x3)`. -/
def Desc.rounded (d : Desc) : ℕ := (d.numbytes + 3) / 4 * 4

/-- How much data an item has in the message. -/
def Desc.need (d : Desc) : ℕ := if d.isInline then d.numbytes else 8

/-- `endaddr - saddr`, as an unsigned number. -/
def remaining (endaddr saddr : ℕ) : ℕ := (2 ^ 64 + endaddr - saddr) % 2 ^ 64

end Types

section Walks

/-- A message, and the arrays of ports that have been copied to `ipc_kernel_map`, by their address. -/
structure Mem where
  buf : Bytes
  ool : BitVec 64 → ℕ → BitVec 64

/-- Where a list of ports is. -/
inductive PortList where
  | body (s : ℕ)
  | map (a : BitVec 64)

/-- An element of a list of ports. -/
def Mem.port (m : Mem) : PortList → ℕ → BitVec 64
  | .body s, k => word m.buf (s + 8 * k)
  | .map a, k => m.ool a k

def Mem.setPort (m : Mem) : PortList → ℕ → BitVec 64 → Mem
  | .body s, k, p => { m with buf := setWord m.buf (s + 8 * k) p }
  | .map a, k, p => { m with ool := Function.update m.ool a (Function.update (m.ool a) k p) }

/-- The access to an element, if it is one to the message. -/
def PortList.accesses : PortList → ℕ → List (ℕ × ℕ)
  | .body s, k => [(s + 8 * k, 8)]
  | .map _, _ => []

/-- What the walks use of the ports, of the task and of the virtual memory.  An address that
`vm_map_copyout` gives for an array of ports is not one that is in use, and a translated port is a
pointer, which is not `KERN_OBJ_INVALID`. -/
structure Kernel (σ : Type) where
  /-- The user's message can be read. -/
  copyin : σ → Bool × σ
  obj_cache_copyin : σ → BitVec 64 → Option (BitVec 64) × σ
  object_copyin : σ → BitVec 64 → ℕ → Bool → Option (BitVec 64) × σ
  vm_map_copyin : σ → BitVec 64 → ℕ → Bool → Option (BitVec 64) × σ
  /-- `vm_map_copyout` to `ipc_kernel_map`: the address, and what is there. -/
  kernel_copyout : σ → BitVec 64 → Option (BitVec 64 × (ℕ → BitVec 64)) × σ
  object_destroy : σ → BitVec 64 → ℕ → σ
  vm_object_deallocate : σ → BitVec 64 → σ
  vm_deallocate : σ → BitVec 64 → ℕ → σ
  vm_map_copy_discard : σ → BitVec 64 → σ
  obj_release : σ → BitVec 64 → σ
  /-- The ports of the header are translated for the receiver. -/
  header_copyout : σ → BitVec 64 → BitVec 64 → (BitVec 64 × BitVec 64) × σ
  object_copyout : σ → BitVec 64 → ℕ → BitVec 64 × σ
  vm_map_find : σ → BitVec 64 → ℕ → Option (BitVec 64) × σ
  /-- `vm_map_copyin` from `ipc_kernel_map`. -/
  kernel_copyin : σ → BitVec 64 → ℕ → Option (BitVec 64) × σ
  vm_map_copyout : σ → BitVec 64 → Option (BitVec 64) × σ
  copyout : σ → Bool × σ
  /-- The addresses in use. -/
  mapped : σ → BitVec 64 → Prop
  valid : ∀ k name tn dealloc p, (object_copyin k name tn dealloc).1 = some p → p ≠ KERN_OBJ_INVALID
  fresh : ∀ k c a l, (kernel_copyout k c).1 = some (a, l) → ¬mapped k a ∧ mapped (kernel_copyout k c).2 a
  object_copyin_mapped : ∀ k name tn dealloc a, mapped k a → mapped (object_copyin k name tn dealloc).2 a
  vm_map_copyin_mapped : ∀ k v n dealloc a, mapped k a → mapped (vm_map_copyin k v n dealloc).2 a
  kernel_copyout_mapped : ∀ k c a, mapped k a → mapped (kernel_copyout k c).2 a

/-- A walk over a message: what it has done so far. -/
structure Walk (σ : Type) where
  kern : σ
  mem : Mem
  items : List (ℕ × ℕ)
  touched : List (ℕ × ℕ)

variable {σ : Type}

def Walk.touch (w : Walk σ) (l : List (ℕ × ℕ)) : Walk σ := { w with touched := w.touched ++ l }

/-- An item has been walked over. -/
def Walk.passed (w : Walk σ) (s t : ℕ) : Walk σ := { w with items := w.items ++ [(s, t)] }

end Walks

section Copyin

variable {σ : Type}

/-- How the walk of `msg_copyin` ends: at the end of the message, or with an error, and then it has set
`msg_size`. -/
inductive Ended where
  | done (is_simple : Bool)
  | failed (ret : ℤ) (size : ℕ)

/-- Translate the ports of a list from the user's names, until there is one that cannot be.
SRC: kern/ipc_copyin.c:664-692 -/
def copyinPorts (K : Kernel σ) (d : Desc) (p : PortList) : ℕ → ℕ → Walk σ → Bool × Walk σ
  | 0, _, w => (true, w)
  | n + 1, k, w =>
    let name := w.mem.port p k
    let w := w.touch (p.accesses k)
    if name = 0 then copyinPorts K d p n (k + 1) { w with mem := w.mem.setPort p k name }
    else
      match K.object_copyin w.kern name d.tn d.deallocate with
      | (none, kern) => (false, { w with kern := kern, mem := w.mem.setPort p k KERN_OBJ_INVALID })
      | (some obj, kern) =>
        copyinPorts K d p n (k + 1) { w with kern := kern, mem := w.mem.setPort p k obj }

/-- Copy out-of-line data in, and ports to where they can be translated.  It gives the list of the ports, if
the item has ports, or `none` if the memory is bad.
SRC: kern/ipc_copyin.c:611-652 -/
def copyinData (K : Kernel σ) (d : Desc) (s : ℕ) (w : Walk σ) : Option PortList × Walk σ :=
  if d.tn ≠ MSG_TYPE_INTERNAL_MEMORY then
    let w := w.touch [(s, 8)]
    match K.vm_map_copyin w.kern (word w.mem.buf s) d.numbytes d.deallocate with
    | (none, kern) => (none, { w with kern := kern })
    | (some copy, kern) =>
      if d.is_port then
        match K.kernel_copyout kern copy with
        | (none, kern) => (none, { w with kern := kern })
        | (some (a, l), kern) =>
          (some (.map a),
            { w with
              kern := kern
              mem := ⟨setWord w.mem.buf s a, Function.update w.mem.ool a l⟩ })
      else
        (some (.body s), { w with kern := kern, mem := { w.mem with buf := setWord w.mem.buf s copy } })
  else (some (.body s), w)

/-- The loop of `msg_copyin` over the items.
SRC: kern/ipc_copyin.c:531-693 -/
def copyinItems (K : Kernel σ) (endaddr : ℕ) : ℕ → ℕ → Bool → Walk σ → Option (Ended × Walk σ)
  | 0, _, _, _ => none
  | fuel + 1, staddr, is_simple, w =>
    if staddr < endaddr then
      let d := Desc.read w.mem.buf staddr
      let w := w.touch (d.accesses staddr)
      let saddr := staddr + d.size
      if remaining endaddr saddr < d.need then some (.failed SEND_MSG_TOO_SMALL staddr, w)
      else if d.is_port ∧ d.ts ≠ 64 then some (.failed SEND_INVALID_PORT staddr, w)
      else
        let saddr := d.aligned saddr
        let (list, w) := if d.isInline then (some (.body saddr), w) else copyinData K d saddr w
        match list with
        | none => some (.failed SEND_INVALID_MEMORY staddr, w)
        | some p =>
          let next := saddr + if d.isInline then d.rounded else 8
          let is_simple := is_simple && d.isInline && !d.is_port
          let (ok, w) := if d.is_port then copyinPorts K d p d.elts 0 w else (true, w)
          if ok then copyinItems K endaddr fuel next is_simple (w.passed staddr next)
          else some (.failed SEND_INVALID_PORT endaddr, w)
    else some (.done is_simple, w)

end Copyin

section Destroy

variable {σ : Type}

/-- Destroy the rights of a list of ports, up to one that has not been translated.
SRC: kern/ipc_copyout.c:662-671 -/
def destroyPorts (K : Kernel σ) (d : Desc) (p : PortList) : ℕ → ℕ → Walk σ → Bool × Walk σ
  | 0, _, w => (true, w)
  | n + 1, k, w =>
    let pobj := w.mem.port p k
    let w := w.touch (p.accesses k)
    if pobj = KERN_OBJ_INVALID then (false, w)
    else if pobj ≠ 0 then destroyPorts K d p n (k + 1) { w with kern := K.object_destroy w.kern pobj d.tn }
    else destroyPorts K d p n (k + 1) w

/-- Deallocate the data of an item.  It gives the address of the next one.
SRC: kern/ipc_copyout.c:679-699 -/
def destroyData (K : Kernel σ) (d : Desc) (s : ℕ) (w : Walk σ) : ℕ × Walk σ :=
  if d.tn = MSG_TYPE_INTERNAL_MEMORY then
    let w := w.touch [(s, 8)]
    (s + 8, { w with kern := K.vm_object_deallocate w.kern (word w.mem.buf s) })
  else if d.isInline then (s + d.rounded, w)
  else
    let w := w.touch [(s, 8)]
    (s + 8,
      { w with
        kern :=
          if d.is_port then K.vm_deallocate w.kern (word w.mem.buf s) d.numbytes
          else K.vm_map_copy_discard w.kern (word w.mem.buf s) })

/-- Where the ports of an item are, for `msg_destroy` and `msg_copyout`. -/
def Walk.portList (w : Walk σ) (d : Desc) (s : ℕ) : PortList × Walk σ :=
  if d.isInline then (.body s, w) else (.map (word w.mem.buf s), w.touch [(s, 8)])

/-- The loop of `msg_destroy` over the items.
SRC: kern/ipc_copyout.c:623-700 -/
def destroyItems (K : Kernel σ) (endaddr : ℕ) : ℕ → ℕ → Walk σ → Option (Walk σ)
  | 0, _, _ => none
  | fuel + 1, staddr, w =>
    if staddr < endaddr then
      let d := Desc.read w.mem.buf staddr
      let w := w.touch (d.accesses staddr)
      let saddr := d.aligned (staddr + d.size)
      let (ok, w) :=
        if d.is_port then
          let (p, w) := w.portList d saddr
          destroyPorts K d p d.elts 0 w
        else (true, w)
      if ok then
        let (next, w) := destroyData K d saddr w
        destroyItems K endaddr fuel next (w.passed staddr next)
      else some w
    else some w

/-- Destroy a message: its ports and memory.
SRC: kern/ipc_copyout.c:594-704 -/
def msg_destroy (K : Kernel σ) (kern : σ) (mem : Mem) (msg_size : ℕ) (msg_simple : Bool) : Option (Walk σ) :=
  let rp := word mem.buf 24
  let kern := if rp ≠ 0 then K.obj_release kern rp else kern
  let lp := word mem.buf 16
  let kern := if lp ≠ 0 then K.obj_release kern lp else kern
  if msg_simple then some ⟨kern, mem, [], []⟩
  else destroyItems K msg_size (msg_size + 1) headerSize ⟨kern, mem, [], []⟩

end Destroy

section Copyout

variable {σ : Type}

/-- Translate the ports of a list to the receiver's names.
SRC: kern/ipc_copyout.c:481-491 -/
def copyoutPorts (K : Kernel σ) (d : Desc) (p : PortList) : ℕ → ℕ → Walk σ → Walk σ
  | 0, _, w => w
  | n + 1, k, w =>
    let obj := w.mem.port p k
    let w := w.touch (p.accesses k)
    if obj ≠ 0 then
      let (name, kern) := K.object_copyout w.kern obj d.tn
      copyoutPorts K d p n (k + 1) { w with kern := kern, mem := w.mem.setPort p k name }
    else copyoutPorts K d p n (k + 1) w

/-- A word of the message is written. -/
def Walk.setWord (w : Walk σ) (s : ℕ) (v : BitVec 64) : Walk σ :=
  { w with mem := { w.mem with buf := Computation.setWord w.mem.buf s v } }

/-- Move the data of an item to the receiver.  It gives the address of the next item, or `none` if there is
no memory.
SRC: kern/ipc_copyout.c:498-562 -/
def copyoutData (K : Kernel σ) (d : Desc) (staddr s : ℕ) (w : Walk σ) : Option ℕ × Walk σ :=
  if d.tn = MSG_TYPE_INTERNAL_MEMORY then
    let w := w.touch [(s, 8)]
    let object := word w.mem.buf s
    let w := w.setWord s 0
    match K.vm_map_find w.kern object d.numbytes with
    | (none, kern) => (none, { w with kern := kern })
    | (some a, kern) =>
      let w := { w with kern := kern }.setWord s a
      -- `tp->msg_type_long_name = MSG_TYPE_INTEGER_8`
      let w := w.touch [(staddr + 4, 2)]
      let w := { w with mem := { w.mem with buf := store w.mem.buf 2 (staddr + 4) MSG_TYPE_INTEGER_8 } }
      (some (s + 8), w)
  else if d.isInline then (some (s + d.rounded), w)
  else
    let w := w.touch [(s, 8)]
    let (ok, w) :=
      if d.is_port then
        match K.kernel_copyin w.kern (word w.mem.buf s) d.numbytes with
        | (none, kern) => (false, { w with kern := kern }.setWord s 0)
        | (some copy, kern) => (true, { w with kern := kern }.setWord s copy)
      else (true, w)
    if ok then
      match K.vm_map_copyout w.kern (word w.mem.buf s) with
      | (none, kern) =>
        (none, { w with kern := K.vm_map_copy_discard kern (word w.mem.buf s) }.setWord s 0)
      | (some a, kern) => (some (s + 8), { w with kern := kern }.setWord s a)
    else (none, w)

/-- The loop of `msg_copyout` over the items.  It says whether the end of the message has been reached.
SRC: kern/ipc_copyout.c:440-566 -/
def copyoutItems (K : Kernel σ) (endaddr : ℕ) : ℕ → ℕ → Walk σ → Option (Bool × Walk σ)
  | 0, _, _ => none
  | fuel + 1, staddr, w =>
    if staddr < endaddr then
      let d := Desc.read w.mem.buf staddr
      let w := w.touch (d.accesses staddr)
      let saddr := d.aligned (staddr + d.size)
      let w :=
        if d.is_port then
          let (p, w) := w.portList d saddr
          copyoutPorts K d p d.elts 0 w
        else w
      match copyoutData K d staddr saddr w with
      | (none, w) => some (false, w)
      | (some next, w) => copyoutItems K endaddr fuel next (w.passed staddr next)
    else some (true, w)

/-- Transfer a message to the receiver.
SRC: kern/ipc_copyout.c:375-583 -/
def msg_copyout (K : Kernel σ) (kern : σ) (mem : Mem) (msg_size : ℕ) (msg_simple : Bool) :
    Option (ℤ × Walk σ) := do
  let ((local_port, remote_port), kern) := K.header_copyout kern (word mem.buf 16) (word mem.buf 24)
  let mem := { mem with buf := setWord (setWord mem.buf 16 local_port) 24 remote_port }
  let (ok, w) ←
    if msg_simple then some (true, ⟨kern, mem, [], []⟩)
    else copyoutItems K msg_size (msg_size + 1) headerSize ⟨kern, mem, [], []⟩
  if ok then
    let (ok, kern) := K.copyout w.kern
    some (if ok then RCV_SUCCESS else RCV_INVALID_MEMORY, { w with kern := kern })
  else some (RCV_NOT_ENOUGH_MEMORY, w)

end Copyout

section Message

variable {σ : Type}

/-- What `msg_copyin` has made of a message: what it returns, the kernel message, its walk, and the walk of
`msg_destroy` if it has called that. -/
structure Sent (σ : Type) where
  ret : ℤ
  size : ℕ
  simple : Bool
  walk : Walk σ
  destroyed : Option (Walk σ)

/-- It returns an error before the items are looked at. -/
def Sent.error (ret : ℤ) (size : ℕ) (kern : σ) (mem : Mem) : Sent σ := ⟨ret, size, true, ⟨kern, mem, [], []⟩, none⟩

/-- The ports of the header.  The byte behind `msg_unused` is `msg_simple`.
SRC: kern/ipc_copyin.c:466-515 -/
def copyinHeader (K : Kernel σ) (kern : σ) (buf : Bytes) : Option Bytes × σ :=
  let lp := word buf 16
  let rp := word buf 24
  if rp = 0 then (none, kern)
  else
    match K.obj_cache_copyin kern rp with
    | (none, kern) => (none, kern)
    | (some dest_port, kern) =>
      if lp = 0 then (some (setWord (setWord buf 16 dest_port) 24 0), kern)
      else
        match K.obj_cache_copyin kern lp with
        | (none, kern) => (none, K.obj_release kern dest_port)
        | (some reply_port, kern) => (some (setWord (setWord buf 16 dest_port) 24 reply_port), kern)

/-- Copy a message in: what is in the buffer behind its `msg_size` bytes has been there before.
SRC: kern/ipc_copyin.c:414-698 -/
def msg_copyin (K : Kernel σ) (kern : σ) (msg_size : ℕ) (buf : Bytes) : Option (Sent σ) :=
  let mem : Mem := ⟨buf, fun _ _ => 0⟩
  if msg_size < headerSize then some (.error SEND_MSG_TOO_SMALL msg_size kern mem)
  else if MSG_SIZE_MAX < msg_size then some (.error SEND_MSG_TOO_LARGE msg_size kern mem)
  else
    match K.copyin kern with
    | (false, kern) => some (.error SEND_INVALID_MEMORY msg_size kern mem)
    | (true, kern) =>
      match copyinHeader K kern buf with
      | (none, kern) => some (.error SEND_INVALID_PORT msg_size kern mem)
      | (some buf, kern) =>
        let w : Walk σ := ⟨kern, { mem with buf := buf }, [], []⟩
        if buf 3 ≠ 0 then some ⟨SEND_SUCCESS, msg_size, true, w, none⟩
        else do
          let (ended, w) ← copyinItems K msg_size (msg_size + 1) headerSize true w
          match ended with
          | .done is_simple => some ⟨SEND_SUCCESS, msg_size, is_simple, w, none⟩
          | .failed ret size => do
            let destroyed ← msg_destroy K w.kern w.mem size false
            some ⟨ret, size, false, w, some destroyed⟩

end Message

end Model

/-!
## Items that are walked over

What `msg_destroy` needs of the items in front of some place to get there, and that it walks over such
items.  It does not change the message, and what it needs of an item are the bytes of it and the array of its
ports.
-/

section Passing

open Osf1.Computation

variable {σ : Type} {K : Kernel σ} {m m' : Mem} {live live' : BitVec 64 → Prop} {d : Desc} {p : PortList}
  {e z s t a i k n f : ℕ} {l l' : List (ℕ × ℕ)} {w w' : Walk σ} {b b' : Bytes}

/-- Accesses to the first `e` bytes only. -/
def Inside (e : ℕ) (l : List (ℕ × ℕ)) : Prop := ∀ x ∈ l, x.1 + x.2 ≤ e

theorem inside_nil (e : ℕ) : Inside e [] := nofun

theorem Inside.append (h : Inside e l) (h' : Inside e l') : Inside e (l ++ l') := by
  intro x hx
  rcases mem_append.mp hx with hmem | hmem
  · exact h x hmem
  · exact h' x hmem

theorem Inside.left (h : Inside e (l ++ l')) : Inside e l := fun x hx => h x (mem_append_left _ hx)

theorem Inside.right (h : Inside e (l ++ l')) : Inside e l' := fun x hx => h x (mem_append_right _ hx)

theorem inside_one (h : s + n ≤ e) : Inside e [(s, n)] := by
  intro x hx
  rw [mem_singleton.mp hx]
  exact h

section Descriptors

theorem Desc.size_pos (d : Desc) : 4 ≤ d.size := by
  unfold Desc.size
  split <;> omega

theorem Desc.le_aligned (d : Desc) (s : ℕ) : s ≤ d.aligned s := by
  unfold Desc.aligned
  split <;> omega

theorem Desc.numbytes_le (d : Desc) : d.numbytes ≤ d.rounded := by
  unfold Desc.rounded
  omega

theorem Desc.accesses_inside (h : s + d.size ≤ e) : Inside e (d.accesses s) := by
  unfold Desc.accesses
  unfold Desc.size at h
  intro x hx
  cases hlong : d.longform with
  | true =>
    rw [hlong, if_pos rfl] at hx h
    simp only [mem_cons, not_mem_nil, or_false] at hx
    rcases hx with rfl | rfl
    · dsimp only
      omega
    · dsimp only
      omega
  | false =>
    rw [hlong] at hx h
    simp at hx h
    subst hx
    exact h

theorem Desc.read_congr (h : ∀ i, s ≤ i → i < s + (Desc.read b s).size → b' i = b i) :
    Desc.read b' s = Desc.read b s := by
  have hsize := (Desc.read b s).size_pos
  have hfirst : load b' 4 s = load b 4 s := load_congr fun i hlo hhi => h i hlo (by omega)
  cases hlong : (load b 4 s).testBit 29 with
  | true =>
    have hlen : (Desc.read b s).size = 12 := by
      unfold Desc.read
      rw [if_pos hlong]
      rfl
    rw [hlen] at h
    unfold Desc.read
    rw [hfirst, load_congr (a := s + 4) fun i hlo hhi => h i (by omega) (by omega),
      load_congr (a := s + 6) fun i hlo hhi => h i (by omega) (by omega),
      load_congr (a := s + 8) fun i hlo hhi => h i (by omega) (by omega)]
  | false =>
    have hnot : ¬(load b 4 s).testBit 29 = true := by
      rw [hlong]
      exact Bool.false_ne_true
    unfold Desc.read
    rw [hfirst]
    rw [if_neg hnot, if_neg hnot]

/-- Where the data of the item at `s` are. -/
def Desc.data (d : Desc) (s : ℕ) : ℕ := d.aligned (s + d.size)

/-- The data of an item fit into a message of `e` bytes. -/
def Desc.FitsAt (d : Desc) (e s : ℕ) : Prop := d.need = 0 ∨ d.data s + d.need ≤ e

theorem Desc.FitsAt.outside (h : d.FitsAt e s) (hinline : d.isInline = false) : d.data s + 8 ≤ e := by
  unfold Desc.FitsAt Desc.need at h
  rw [hinline, if_neg Bool.false_ne_true] at h
  omega

/-- Where the next item is, as `msg_copyin` goes on. -/
def Desc.next (d : Desc) (s : ℕ) : ℕ := d.data s + if d.isInline then d.rounded else 8

/-- Where the next item is, as `msg_destroy` and `msg_copyout` go on. -/
def Desc.after (d : Desc) (s : ℕ) : ℕ :=
  if d.tn = MSG_TYPE_INTERNAL_MEMORY then d.data s + 8
  else d.data s + if d.isInline then d.rounded else 8

/-- Where the ports of an item are. -/
def Mem.portList (m : Mem) (d : Desc) (s : ℕ) : PortList :=
  if d.isInline then .body (d.data s) else .map (word m.buf (d.data s))

theorem Mem.portList_inline (m : Mem) (s : ℕ) (h : d.isInline = true) : m.portList d s = .body (d.data s) := by
  unfold Mem.portList
  rw [h, if_pos rfl]

theorem Mem.portList_map (m : Mem) (s : ℕ) (h : d.isInline = false) :
    m.portList d s = .map (word m.buf (d.data s)) := by
  unfold Mem.portList
  rw [h, if_neg Bool.false_ne_true]

theorem Mem.portList_body (h : m.portList d s = .body i) : d.isInline = true ∧ i = d.data s := by
  cases hinline : d.isInline with
  | true =>
    rw [m.portList_inline s hinline] at h
    cases h
    exact ⟨rfl, rfl⟩
  | false =>
    rw [m.portList_map s hinline] at h
    cases h

theorem Desc.size_le_data (d : Desc) (s : ℕ) : s + d.size ≤ d.data s := d.le_aligned _

theorem Desc.data_le_next (d : Desc) (s : ℕ) : d.data s ≤ d.next s := Nat.le_add_right ..

theorem Desc.data_le_after (d : Desc) (s : ℕ) : d.data s ≤ d.after s := by
  unfold Desc.after
  split
  · exact Nat.le_add_right ..
  · exact Nat.le_add_right ..

theorem Desc.lt_next (d : Desc) (s : ℕ) : s < d.next s := by
  have := d.size_pos
  have := d.size_le_data s
  have := d.data_le_next s
  omega

theorem Desc.lt_after (d : Desc) (s : ℕ) : s < d.after s := by
  have := d.size_pos
  have := d.size_le_data s
  have := d.data_le_after s
  omega

theorem Desc.port_tn (h : d.is_port = true) : d.tn ≠ MSG_TYPE_INTERNAL_MEMORY := by
  unfold Desc.is_port MSG_TYPE_PORT_ANY at h
  intro heq
  rw [heq] at h
  cases h

theorem Desc.port_bytes (h : d.ts = 64) : d.numbytes = 8 * d.elts := by
  unfold Desc.numbytes
  rw [h]
  omega

end Descriptors

section Passing

/-- `msg_destroy` walks over the item at `s`, and then it is at `t`. -/
structure Passes (m : Mem) (live : BitVec 64 → Prop) (e s t : ℕ) : Prop where
  desc : s + (Desc.read m.buf s).size ≤ e
  after : t = (Desc.read m.buf s).after s
  fits : (Desc.read m.buf s).FitsAt e s
  internal : (Desc.read m.buf s).tn = MSG_TYPE_INTERNAL_MEMORY → (Desc.read m.buf s).data s + 8 ≤ e
  ports : (Desc.read m.buf s).is_port = true → (Desc.read m.buf s).ts = 64 ∧
    ((Desc.read m.buf s).isInline = false → live (word m.buf ((Desc.read m.buf s).data s))) ∧
    ∀ k < (Desc.read m.buf s).elts, m.port (m.portList (Desc.read m.buf s) s) k ≠ KERN_OBJ_INVALID

/-- It walks over some items, from `s` to `t`. -/
def Passed (m : Mem) (live : BitVec 64 → Prop) (e : ℕ) : List (ℕ × ℕ) → ℕ → ℕ → Prop
  | [], s, t => s = t
  | (s', t') :: l, s, t => s = s' ∧ Passes m live e s' t' ∧ Passed m live e l t' t

theorem Passes.lt (h : Passes m live e s t) : s < t := by
  rw [h.after]
  exact Desc.lt_after _ _

theorem Passed.le (h : Passed m live e l s t) : s ≤ t := by
  induction l generalizing s with
  | nil => exact Nat.le_of_eq h
  | cons x l ih =>
    obtain ⟨rfl, hpasses, hrest⟩ := h
    exact Nat.le_trans (Nat.le_of_lt hpasses.lt) (ih hrest)

theorem Passed.snoc (h : Passed m live e l s t) (hpasses : Passes m live e t i) :
    Passed m live e (l ++ [(t, i)]) s i := by
  induction l generalizing s with
  | nil =>
    obtain rfl : s = t := h
    exact ⟨rfl, hpasses, rfl⟩
  | cons x l ih => exact ⟨h.1, h.2.1, ih h.2.2⟩

theorem Passes.frame (h : Passes m live e s t) (hbuf : ∀ i, i < t → m'.buf i = m.buf i)
    (hool : ∀ a, live a → m'.ool a = m.ool a) (hlive : ∀ a, live a → live' a) : Passes m' live' e s t := by
  have hdata := (Desc.read m.buf s).size_le_data s
  have hnext := (Desc.read m.buf s).data_le_after s
  have hafter := h.after
  have hread : Desc.read m'.buf s = Desc.read m.buf s := Desc.read_congr fun i _ hhi => hbuf i (by omega)
  have hword : (Desc.read m.buf s).isInline = false →
      word m'.buf ((Desc.read m.buf s).data s) = word m.buf ((Desc.read m.buf s).data s) := by
    intro hout
    have hend : t = (Desc.read m.buf s).data s + 8 := by
      rw [hafter]
      unfold Desc.after
      rw [hout]
      simp
    exact word_congr fun i _ hhi => hbuf i (by omega)
  refine ⟨hread ▸ h.desc, hread ▸ h.after, hread ▸ h.fits, hread ▸ h.internal, ?_⟩
  rw [hread]
  intro hport
  obtain ⟨hts, hout, hvalid⟩ := h.ports hport
  refine ⟨hts, ?_, ?_⟩
  · intro hfalse
    rw [hword hfalse]
    exact hlive _ (hout hfalse)
  · intro k hk
    have hk' := hvalid k hk
    unfold Mem.portList at hk' ⊢
    cases hinline : (Desc.read m.buf s).isInline with
    | true =>
      have hbytes := Desc.port_bytes hts
      have hrounded := (Desc.read m.buf s).numbytes_le
      have hend : t = (Desc.read m.buf s).data s + (Desc.read m.buf s).rounded := by
        rw [hafter]
        unfold Desc.after
        rw [if_neg (Desc.port_tn hport), hinline]
        rfl
      rw [hinline, if_pos rfl] at hk'
      rw [if_pos rfl]
      have hsame : word m'.buf ((Desc.read m.buf s).data s + 8 * k) =
          word m.buf ((Desc.read m.buf s).data s + 8 * k) :=
        word_congr fun i _ hhi => hbuf i (by omega)
      unfold Mem.port at hk' ⊢
      dsimp only at hk' ⊢
      rw [hsame]
      exact hk'
    | false =>
      have hfalse : ¬false = true := Bool.false_ne_true
      rw [hinline, if_neg hfalse] at hk'
      rw [if_neg hfalse, hword hinline]
      unfold Mem.port at hk' ⊢
      dsimp only at hk' ⊢
      rw [hool _ (hout hinline)]
      exact hk'

theorem Passed.frame (h : Passed m live e l s t) (hbuf : ∀ i, i < t → m'.buf i = m.buf i)
    (hool : ∀ a, live a → m'.ool a = m.ool a) (hlive : ∀ a, live a → live' a) : Passed m' live' e l s t := by
  induction l generalizing s with
  | nil => exact h
  | cons x l ih =>
    obtain ⟨rfl, hpasses, hrest⟩ := h
    have hle := hrest.le
    exact ⟨rfl, hpasses.frame (fun i hi => hbuf i (by omega)) hool hlive, ih hrest⟩

end Passing

section Destroying

theorem destroyPorts_reads (h : ∀ j < n, m.port p (k + j) ≠ KERN_OBJ_INVALID) (hw : w.mem = m) :
    ∃ kern, destroyPorts K d p n k w =
      (true, ⟨kern, m, w.items, w.touched ++ (List.range' k n).flatMap p.accesses⟩) := by
  induction n generalizing k w with
  | zero =>
    refine ⟨w.kern, ?_⟩
    rw [destroyPorts, ← hw]
    simp
  | succ n ih =>
    have hfirst := h 0 (Nat.succ_pos n)
    rw [Nat.add_zero, ← hw] at hfirst
    have hrest : ∀ j < n, m.port p (k + 1 + j) ≠ KERN_OBJ_INVALID := by
      intro j hj
      have hnext := h (j + 1) (Nat.succ_lt_succ hj)
      rwa [Nat.add_comm j 1, ← Nat.add_assoc] at hnext
    have hnot : ¬(w.mem.port p k = KERN_OBJ_INVALID) := hfirst
    rw [destroyPorts]
    rw [if_neg hnot]
    by_cases hnull : w.mem.port p k ≠ 0
    · rw [if_pos hnull]
      obtain ⟨kern, heq⟩ := ih (w := { w.touch (p.accesses k) with
        kern := K.object_destroy (w.touch (p.accesses k)).kern (w.mem.port p k) d.tn }) hrest hw
      refine ⟨kern, heq.trans ?_⟩
      simp [Walk.touch, range'_succ]
    · rw [if_neg hnull]
      obtain ⟨kern, heq⟩ := ih (w := w.touch (p.accesses k)) hrest hw
      refine ⟨kern, heq.trans ?_⟩
      simp [Walk.touch, range'_succ]

theorem destroyPorts_stops {j : ℕ} (h : ∀ i < j, m.port p (k + i) ≠ KERN_OBJ_INVALID)
    (hj : m.port p (k + j) = KERN_OBJ_INVALID) (hn : j < n) (hw : w.mem = m) :
    ∃ kern, destroyPorts K d p n k w =
      (false, ⟨kern, m, w.items, w.touched ++ (List.range' k (j + 1)).flatMap p.accesses⟩) := by
  induction j generalizing k n w with
  | zero =>
    obtain ⟨n, rfl⟩ : ∃ n', n = n' + 1 := ⟨n - 1, by omega⟩
    rw [Nat.add_zero, ← hw] at hj
    refine ⟨w.kern, ?_⟩
    rw [destroyPorts, if_pos hj, ← hw]
    simp [Walk.touch]
  | succ j ih =>
    obtain ⟨n, rfl⟩ : ∃ n', n = n' + 1 := ⟨n - 1, by omega⟩
    have hfirst := h 0 (Nat.succ_pos j)
    rw [Nat.add_zero, ← hw] at hfirst
    have hshift : ∀ i, k + 1 + i = k + (i + 1) := fun i => by omega
    have hrest : ∀ i < j, m.port p (k + 1 + i) ≠ KERN_OBJ_INVALID := fun i hi => by
      rw [hshift]
      exact h (i + 1) (Nat.succ_lt_succ hi)
    have hlast : m.port p (k + 1 + j) = KERN_OBJ_INVALID := by
      rw [hshift]
      exact hj
    have hnot : ¬(w.mem.port p k = KERN_OBJ_INVALID) := hfirst
    rw [destroyPorts, if_neg hnot]
    by_cases hnull : w.mem.port p k ≠ 0
    · rw [if_pos hnull]
      obtain ⟨kern, heq⟩ := ih (w := { w.touch (p.accesses k) with
        kern := K.object_destroy (w.touch (p.accesses k)).kern (w.mem.port p k) d.tn }) hrest hlast
        (Nat.lt_of_succ_lt_succ hn) hw
      refine ⟨kern, heq.trans ?_⟩
      simp [Walk.touch, range'_succ]
    · rw [if_neg hnull]
      obtain ⟨kern, heq⟩ := ih (w := w.touch (p.accesses k)) hrest hlast (Nat.lt_of_succ_lt_succ hn) hw
      refine ⟨kern, heq.trans ?_⟩
      simp [Walk.touch, range'_succ]

theorem ports_inside (h : ∀ s, p = .body s → s + 8 * (k + n) ≤ e) :
    Inside e ((List.range' k n).flatMap p.accesses) := by
  intro x hx
  obtain ⟨j, hj, hmem⟩ := mem_flatMap.mp hx
  have hbound := mem_range'_1.mp hj
  cases p with
  | body s =>
    have := h s rfl
    obtain rfl := mem_singleton.mp hmem
    omega
  | map a => cases hmem

theorem Desc.FitsAt.ports (h : d.FitsAt e s) (hts : d.ts = 64) :
    Inside e ((List.range' 0 d.elts).flatMap (m.portList d s).accesses) := by
  by_cases hnone : d.elts = 0
  · rw [hnone]
    exact inside_nil e
  · apply ports_inside
    intro s' hs'
    obtain ⟨hinline, rfl⟩ := Mem.portList_body hs'
    have hneed : d.need = 8 * d.elts := by
      unfold Desc.need
      rw [hinline, if_pos rfl, Desc.port_bytes hts]
    unfold Desc.FitsAt at h
    omega

theorem destroyData_reads (hw : w.mem = m) :
    ∃ kern l, destroyData K d (d.data s) w = (d.after s, ⟨kern, m, w.items, w.touched ++ l⟩) ∧
      ((d.tn = MSG_TYPE_INTERNAL_MEMORY ∨ d.isInline = false → d.data s + 8 ≤ e) → Inside e l) := by
  subst hw
  unfold destroyData Desc.after
  by_cases htn : d.tn = MSG_TYPE_INTERNAL_MEMORY
  · rw [if_pos htn, if_pos htn]
    exact ⟨_, [(d.data s, 8)], rfl, fun h => inside_one (h (.inl htn))⟩
  · rw [if_neg htn, if_neg htn]
    cases hinline : d.isInline with
    | true =>
      rw [if_pos rfl, if_pos rfl]
      refine ⟨w.kern, [], ?_, fun _ => inside_nil e⟩
      rw [append_nil]
    | false =>
      rw [if_neg Bool.false_ne_true, if_neg Bool.false_ne_true]
      exact ⟨_, [(d.data s, 8)], rfl, fun h => inside_one (h (.inr rfl))⟩

theorem portList_reads (hw : w.mem = m) :
    ∃ l, w.portList d (d.data s) = (m.portList d s, ⟨w.kern, m, w.items, w.touched ++ l⟩) ∧
      ((d.isInline = false → d.data s + 8 ≤ e) → Inside e l) := by
  subst hw
  unfold Walk.portList Mem.portList
  cases hinline : d.isInline with
  | true =>
    rw [if_pos rfl, if_pos rfl]
    refine ⟨[], ?_, fun _ => inside_nil e⟩
    rw [append_nil]
  | false =>
    rw [if_neg Bool.false_ne_true, if_neg Bool.false_ne_true]
    exact ⟨[(d.data s, 8)], rfl, fun h => inside_one (h rfl)⟩

theorem Passes.destroyPorts (h : Passes m live e s t) (hd : Desc.read m.buf s = d)
    (hport : d.is_port = true) (hw : w.mem = m) :
    ∃ kern l, Inside e l ∧
      Mach.destroyPorts K d (w.portList d (d.data s)).1 d.elts 0 (w.portList d (d.data s)).2 =
        (true, ⟨kern, m, w.items, w.touched ++ l⟩) := by
  subst hd
  obtain ⟨hts, -, hvalid⟩ := h.ports hport
  obtain ⟨l₁, hlist, hl₁⟩ := portList_reads (d := Desc.read m.buf s) (s := s) (e := e) hw
  rw [hlist]
  have hvalid' : ∀ j < (Desc.read m.buf s).elts,
      m.port (m.portList (Desc.read m.buf s) s) (0 + j) ≠ KERN_OBJ_INVALID := by
    intro j hj
    rw [Nat.zero_add]
    exact hvalid j hj
  obtain ⟨kern, heq⟩ := destroyPorts_reads (K := K) (d := Desc.read m.buf s)
    (w := ⟨w.kern, m, w.items, w.touched ++ l₁⟩) hvalid' rfl
  refine ⟨kern, l₁ ++
    (range' 0 (Desc.read m.buf s).elts).flatMap (m.portList (Desc.read m.buf s) s).accesses, ?_, heq.trans ?_⟩
  · exact (hl₁ h.fits.outside).append (h.fits.ports hts)
  · simp only [append_assoc]

theorem Passes.destroy (h : Passes m live e s t) (hs : s < z) (hw : w.mem = m) :
    ∃ kern l, Inside e l ∧
      destroyItems K z (f + 1) s w =
        destroyItems K z f t ⟨kern, m, w.items ++ [(s, t)], w.touched ++ l⟩ := by
  subst hw
  obtain ⟨d, hd⟩ : ∃ d, Desc.read w.mem.buf s = d := ⟨_, rfl⟩
  have hacc : Inside e (d.accesses s) := Desc.accesses_inside (hd ▸ h.desc)
  have hports : ∃ kern l, Inside e l ∧
      (if d.is_port = true then
        Mach.destroyPorts K d ((w.touch (d.accesses s)).portList d (d.data s)).1 d.elts 0
          ((w.touch (d.accesses s)).portList d (d.data s)).2
      else (true, w.touch (d.accesses s))) = (true, ⟨kern, w.mem, w.items, w.touched ++ l⟩) := by
    by_cases hport : d.is_port = true
    · rw [if_pos hport]
      obtain ⟨kern, l, hl, heq⟩ := h.destroyPorts (K := K) (w := w.touch (d.accesses s)) hd hport rfl
      refine ⟨kern, d.accesses s ++ l, hacc.append hl, heq.trans ?_⟩
      rw [← append_assoc]
      rfl
    · rw [if_neg hport]
      exact ⟨w.kern, _, hacc, rfl⟩
  obtain ⟨kern, l, hl, heq⟩ := hports
  obtain ⟨kern', l', hdata, hl'⟩ := destroyData_reads (K := K) (d := d) (s := s) (e := e)
    (w := ⟨kern, w.mem, w.items, w.touched ++ l⟩) rfl
  refine ⟨kern', l ++ l', hl.append (hl' fun hout => hout.elim (hd ▸ h.internal) (hd ▸ h.fits.outside)), ?_⟩
  have hafter : d.after s = t := by
    rw [h.after, hd]
  have hplace : d.aligned (s + d.size) = d.data s := rfl
  refine Eq.trans (if_pos hs) ?_
  simp only [hd]
  rw [hplace, heq, if_pos rfl, hdata, hafter, ← append_assoc]
  rfl

theorem Passed.destroy (h : Passed m live e l s t) (ht : t ≤ z ∨ e ≤ z) (hw : w.mem = m) :
    ∃ kern l', Inside e l' ∧
      destroyItems K z (f + l.length) s w =
        destroyItems K z f t ⟨kern, m, w.items ++ l, w.touched ++ l'⟩ := by
  induction l generalizing s w with
  | nil =>
    obtain rfl : s = t := h
    subst hw
    refine ⟨w.kern, [], inside_nil e, ?_⟩
    rw [append_nil, append_nil]
    rfl
  | cons x l ih =>
    obtain ⟨rfl, hpasses, hrest⟩ := h
    have hlt : x.1 < z := by
      have := hpasses.lt
      have := hrest.le
      have := hpasses.desc
      have := (Desc.read m.buf x.1).size_pos
      omega
    obtain ⟨kern, l₁, hl₁, heq⟩ := hpasses.destroy (K := K) (f := f + l.length) hlt hw
    obtain ⟨kern', l₂, hl₂, heq'⟩ := ih (w := ⟨kern, m, w.items ++ [(x.1, x.2)], w.touched ++ l₁⟩) hrest rfl
    refine ⟨kern', l₁ ++ l₂, hl₁.append hl₂, ?_⟩
    rw [length_cons, ← Nat.add_assoc, heq, heq']
    simp only [append_assoc, cons_append, nil_append]

end Destroying

end Passing

end Osf1.Mach
