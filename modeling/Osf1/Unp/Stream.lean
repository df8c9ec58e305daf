import Osf1.Computation.Transition
import Osf1.Sockbuf.Buffer

/-!
# Stream sockets in the Unix domain

What is sent on a connected pair goes into the receive buffer of the peer, and the limits of the send
buffer go down by what is queued there.  A receive gives up its lock while it copies and while it
waits, so sends and changes of the limits come in between.
-/

set_option autoImplicit false

namespace Osf1.Unp

open Function List Option

section Stream

open Osf1.Computation
open Osf1.Sockbuf

section Machine

inductive Arch where
  | mips
  | alpha
deriving DecidableEq

/-- The bits of a `long`. -/
def Arch.long : Arch → ℕ
  | .mips => 32
  | .alpha => 64

/-- A value that is converted to an `u_long`. -/
def u_long (arch : Arch) (x : ℤ) : ℤ := x % 2 ^ arch.long

/-- `min`, of unsigned values of 32 bits. -/
def umin (a b : ℤ) : ℤ := a % 2 ^ 32 ⊓ b % 2 ^ 32

end Machine

section Buffers

/-- A socket buffer: its records and its limits.  SRC: sys/socketvar.h:128-147 -/
structure Sockbuf where
  sb_mb : List (List Buf)
  sb_hiwat : ℤ
  sb_mbmax : ℤ
  sb_lowat : ℤ

/-- The count of bytes that goes with the records. -/
def Sockbuf.sb_cc (sb : Sockbuf) : ℤ := (bytes sb.sb_mb.flatten).length

/-- The count of storage that goes with the records. -/
def Sockbuf.sb_mbcnt (sb : Sockbuf) : ℤ := storage sb.sb_mb.flatten

def Sockbuf.sbspace (sb : Sockbuf) : ℤ := int (sb.sb_hiwat - sb.sb_cc) ⊓ int (sb.sb_mbmax - sb.sb_mbcnt)

def SB_MAX : ℤ := 128 * 1024

/-- SRC: bsd/uipc_socket2.c:775-791 -/
def Sockbuf.sbreserve (arch : Arch) (cc : ℤ) (sb : Sockbuf) : Option Sockbuf :=
  if SB_MAX < cc then none
  else
    let mbmax := umin (cc * 4) (SB_MAX * 4)
    some { sb with
      sb_hiwat := cc
      sb_mbmax := if arch = .alpha then mbmax * 2 else mbmax
      sb_lowat := if cc < u_long arch sb.sb_lowat then cc else sb.sb_lowat }

/-- The records after `sbappendcontrol`, which adds nothing if there is no space.
SRC: bsd/uipc_socket2.c:992-1022 -/
def Sockbuf.sbappendcontrol (m control : List Buf) (sb : Sockbuf) : Sockbuf :=
  if sb.sbspace < int ((bytes control).length + (bytes m).length) then sb
  else { sb with sb_mb := sb.sb_mb ++ [control ++ m] }

def Sockbuf.sbappend (m : List Buf) (sb : Sockbuf) : Sockbuf := { sb with sb_mb := append sb.sb_mb m }

end Buffers

section State

/-- A receive that has started: the bytes still asked for, `MSG_WAITALL`, the type of the data, and
the length that it copies. -/
structure Reader where
  resid : ℕ
  waitall : Bool
  type : MType
  len : ℕ

/-- What goes one way: `so_snd` of the sender with `SS_CANTSENDMORE`, `so_rcv` of the receiver with the
copies of its counts in the `unpcb`, the receive that has the lock `SB_LOCK` and copies, and those that
wait for more.  The other way shares nothing with it. -/
structure Flow where
  snd : Sockbuf
  cantsendmore : Bool
  rcv : Sockbuf
  unp_cc : ℤ
  unp_mbcnt : ℤ
  copying : Option Reader
  waiting : List Reader

end State

section Transfer

variable (arch : Arch)

/-- SRC: bsd/uipc_usrreq.c:237-244 -/
def Flow.pruRcvd (f : Flow) : Flow :=
  { f with
    snd := { f.snd with
      sb_mbmax := u_long arch (f.snd.sb_mbmax + (f.unp_mbcnt - f.rcv.sb_mbcnt))
      sb_hiwat := u_long arch (f.snd.sb_hiwat + (f.unp_cc - f.rcv.sb_cc)) }
    unp_mbcnt := int f.rcv.sb_mbcnt
    unp_cc := int f.rcv.sb_cc }

/-- What is queued goes off the limits of the sender.
SRC: bsd/uipc_usrreq.c:330-334 -/
def Flow.charge (f : Flow) : Flow :=
  { f with
    snd := { f.snd with
      sb_mbmax := u_long arch (f.snd.sb_mbmax - (f.rcv.sb_mbcnt - f.unp_mbcnt))
      sb_hiwat := u_long arch (f.snd.sb_hiwat - (f.rcv.sb_cc - f.unp_cc)) }
    unp_mbcnt := int f.rcv.sb_mbcnt
    unp_cc := int f.rcv.sb_cc }

/-- The receive buffer after a message, with what `unp_internalize` has made of its control data.
SRC: bsd/uipc_usrreq.c:325-329 -/
def Flow.queued (m : List Buf) (control : Option (List Buf)) (f : Flow) : Sockbuf :=
  match control with
  | some control => f.rcv.sbappendcontrol m control
  | none => f.rcv.sbappend m

/-- SRC: bsd/uipc_usrreq.c:304-346 -/
def Flow.pruSend (m : List Buf) (control : Option (List Buf)) (f : Flow) : Flow :=
  if f.cantsendmore then f else ({ f with rcv := f.queued m control }).charge arch

end Transfer

section Receive

/-- The control data in front, which is given out or not.  An error in giving it out ends this.
SRC: bsd/uipc_socket.c:962-987 -/
def takeControl (externalize : Buf → Bool) : List Buf → List Buf × Bool
  | [] => ([], false)
  | m :: r =>
    if m.m_type = .MT_CONTROL then
      if externalize m then takeControl externalize r else (r, true)
    else (m :: r, false)

def MType.plain (t : MType) : Bool := t == .MT_DATA || t == .MT_HEADER

/-- What comes at the head of the loop of `soreceive`. -/
inductive Turn where
  | panic
  | stop
  | copy (rd : Reader)

/-- SRC: bsd/uipc_socket.c:995-1013 -/
def turn (rd : Reader) (r : List Buf) (error : Bool) : Turn :=
  match r with
  | [] => .stop
  | m :: _ =>
    if rd.resid = 0 ∨ error then .stop
    else if m.m_type ≠ rd.type ∧ ¬(MType.plain m.m_type ∧ MType.plain rd.type) then .stop
    else if m.m_type ≠ .MT_OOBDATA ∧ ¬MType.plain m.m_type then .panic
    else .copy { rd with type := m.m_type, len := rd.resid ⊓ m.m_len }

/-- The records when the first one is what is left of it. -/
def left (r : List Buf) (q : List (List Buf)) : List (List Buf) := if r = [] then q else r :: q

variable (arch : Arch)

/-- The loop goes on with the first record, or the receive ends with `PRU_RCVD`.
SRC: bsd/uipc_socket.c:1099-1115 -/
def Flow.advance (rd : Reader) (r : List Buf) (error : Bool) (f : Flow) : Option Flow :=
  match turn rd r error with
  | .panic => none
  | .stop => some ({ f with copying := none }.pruRcvd arch)
  | .copy rd => some { f with copying := some rd }

/-- There is less in the only record than is asked for and has to be there at once.
SRC: bsd/uipc_socket.c:908-911 -/
def Sockbuf.short (resid : ℕ) (waitall : Bool) (q : List (List Buf)) (sb : Sockbuf) : Prop :=
  sb.sb_cc < resid ∧ (sb.sb_cc < u_long arch sb.sb_lowat ∨ waitall ∧ resid ≤ sb.sb_hiwat) ∧ q = []

instance (resid : ℕ) (waitall : Bool) (q : List (List Buf)) (sb : Sockbuf) :
    Decidable (sb.short arch resid waitall q) :=
  inferInstanceAs (Decidable (_ ∧ _ ∧ _))

/-- A receive gets the lock, and there is something to receive.
SRC: bsd/uipc_socket.c:905-995 -/
def Flow.soreceive (resid : ℕ) (waitall : Bool) (externalize : Buf → Bool) (f : Flow) : Option Flow :=
  match f.copying, f.rcv.sb_mb with
  | none, r :: q =>
    if f.rcv.short arch resid waitall q then none
    else
      let (r, error) := takeControl externalize r
      let type := (r.head?.map Buf.m_type).getD .MT_FREE
      { f with rcv := { f.rcv with sb_mb := left r q } }.advance arch ⟨resid, waitall, type, 0⟩ r error
  | _, _ => none

/-- What is asked for after a length has been copied, all of it unless there was an error. -/
def Reader.moved (rd : Reader) (error : Bool) (n : ℕ) : Reader :=
  { rd with resid := rd.resid - if error then n ⊓ rd.len else rd.len }

/-- The first mbuf has been freed, and `r` and `q` are behind it.
SRC: bsd/uipc_socket.c:1033-1096 -/
def Flow.freed (eor : Bool) (rd : Reader) (r : List Buf) (q : List (List Buf)) (error : Bool)
    (f : Flow) : Option Flow :=
  if eor then some ({ f with copying := none }.pruRcvd arch)
  else if r = [] ∧ q = [] ∧ rd.waitall ∧ 0 < rd.resid then
    some { f with copying := none, waiting := rd :: f.waiting }
  else f.advance arch rd r error

/-- A length has been copied.
SRC: bsd/uipc_socket.c:1020-1058 -/
def Flow.copied (error : Bool) (n : ℕ) (f : Flow) : Option Flow :=
  match f.copying, f.rcv.sb_mb with
  | some rd, (m :: r) :: q =>
    if rd.len = m.m_len then
      { f with rcv := { f.rcv with sb_mb := left r q } }.freed arch m.m_eor (rd.moved error n) r q error
    else
      let m := { m with m_off := m.m_off + rd.len, data := m.data.drop rd.len }
      { f with rcv := { f.rcv with sb_mb := (m :: r) :: q } }.advance arch (rd.moved error n) (m :: r)
        error
  | _, _ => none

/-- How a wait for more ends: there is an error of the wait, or of the socket or the end of the data,
or there may be data. -/
inductive Wake where
  | error
  | stop
  | data
deriving DecidableEq

/-- A wait for more is over.
SRC: bsd/uipc_socket.c:1085-1097 -/
def Flow.woken (k : ℕ) (w : Wake) (f : Flow) : Option Flow :=
  match f.copying, f.waiting[k]? with
  | none, some rd =>
    let f' := { f with waiting := f.waiting.eraseIdx k }
    if w = .error then some f'
    else if w = .data ∧ f.rcv.sb_mb = [] then some f
    else f'.advance arch rd (f.rcv.sb_mb.headD []) false
  | _, _ => none

end Receive

section System

/-- What happens to a flow. -/
inductive Event where
  | send (m : List Buf) (control : Option (List Buf))
  | recv (resid : ℕ) (waitall : Bool) (externalize : Buf → Bool)
  | copied (error : Bool) (n : ℕ)
  | woken (k : ℕ) (w : Wake)
  | sndbuf (cc : ℤ)
  | rcvbuf (cc : ℤ)
  | sndlowat (n : ℤ)
  | rcvlowat (n : ℤ)

/-- A flow with the reservation of the sender, which are the limits that the last `sbreserve` has set. -/
structure Line extends Flow where
  reserved : ℤ × ℤ

variable (arch : Arch)

/-- A size for `so_snd`.  SRC: bsd/uipc_socket.c:1285-1292 -/
def Line.setSndbuf (cc : ℤ) (l : Line) : Line :=
  match l.snd.sbreserve arch (u_long arch cc) with
  | none => l
  | some sb => { l with snd := sb, reserved := (sb.sb_hiwat, sb.sb_mbmax) }

/-- A size for `so_rcv`.  SRC: bsd/uipc_socket.c:1295-1302 -/
def Line.setRcvbuf (cc : ℤ) (l : Line) : Line :=
  match l.rcv.sbreserve arch (u_long arch cc) with
  | none => l
  | some sb => { l with rcv := sb }

def Line.step (l : Line) : Event → Option Line
  | .send m control =>
    if control = some [] then none else some { l with toFlow := l.pruSend arch m control }
  | .recv resid waitall externalize =>
    (l.soreceive arch resid waitall externalize).map fun f => { l with toFlow := f }
  | .copied error n => (l.toFlow.copied arch error n).map fun f => { l with toFlow := f }
  | .woken k w => (l.toFlow.woken arch k w).map fun f => { l with toFlow := f }
  | .sndbuf cc => some (l.setSndbuf arch cc)
  | .rcvbuf cc => some (l.setRcvbuf arch cc)
  | .sndlowat n => some { l with snd := { l.snd with sb_lowat := n } }
  | .rcvlowat n => some { l with rcv := { l.rcv with sb_lowat := n } }

/-- A connected pair: `p i` is what goes from socket `i` to the other one. -/
abbrev Pair := Bool → Line

/-- Two sockets that have just been connected, with what `soreserve` has given them. -/
def Line.Fresh (l : Line) : Prop :=
  ∃ snd cc lowat rcv rcc rlowat,
    (⟨[], 0, 0, lowat⟩ : Sockbuf).sbreserve arch (u_long arch cc) = some snd ∧
    (⟨[], 0, 0, rlowat⟩ : Sockbuf).sbreserve arch (u_long arch rcc) = some rcv ∧
    l = ⟨⟨snd, false, rcv, 0, 0, none, []⟩, (snd.sb_hiwat, snd.sb_mbmax)⟩

/-- Any events, each on what goes one way. -/
def system : System Pair (Bool × Event) where
  init p := ∀ i, (p i).Fresh arch
  step p e p' := ∃ l, (p e.1).step arch e.2 = some l ∧ p' = update p e.1 l

end System

end Stream

/-!
## The limits of a sender are conserved

The limits of the send buffer and the counts that the peer keeps of its receive buffer add up to the
reservation, and a receive that is over has brought these counts up to date.
-/

section Backpressure

open Osf1.Computation
open Osf1.Sockbuf

section Records

variable {m n : Buf} {r : List Buf} {q : List (List Buf)}

theorem bytes_left (r : List Buf) (q : List (List Buf)) :
    bytes (left r q).flatten = bytes r ++ bytes q.flatten := by
  unfold left
  split_ifs with hr
  · rw [hr, bytes_nil, nil_append]
  · rw [flatten_cons, bytes_append]

theorem storage_left (r : List Buf) (q : List (List Buf)) :
    storage (left r q).flatten = storage r + storage q.flatten := by
  unfold left
  split_ifs with hr
  · rw [hr, storage_nil, Nat.zero_add]
  · rw [flatten_cons, storage_append]

theorem takeControl_le (externalize : Buf → Bool) (r : List Buf) :
    (bytes (takeControl externalize r).1).length ≤ (bytes r).length ∧
      storage (takeControl externalize r).1 ≤ storage r := by
  induction r with
  | nil => exact ⟨le_rfl, le_rfl⟩
  | cons m r ih =>
    rw [takeControl, bytes_cons, length_append, storage_cons]
    by_cases hcontrol : m.m_type = .MT_CONTROL
    · by_cases hext : externalize m = true
      · simp only [hcontrol, hext, if_true]
        omega
      · simp only [hcontrol, hext, if_true]
        dsimp
        omega
    · simp only [hcontrol, if_false, bytes_cons, length_append, storage_cons]
      omega

theorem compress_head (eor : Bool) (n : Buf) (ms : List Buf) :
    ∃ n' r, compress eor (some n) ms = n' :: r ∧ n.m_len ≤ n'.m_len := by
  induction ms generalizing eor n with
  | nil => exact ⟨_, [], rfl, le_rfl⟩
  | cons m ms ih =>
    rw [compress]
    by_cases hempty : m.m_len = 0
    · rw [if_pos hempty]
      exact ih _ n
    · rw [if_neg hempty]
      by_cases hroom : room n m = true
      · rw [if_pos hroom]
        obtain ⟨n', r, heq, hle⟩ := ih (eor || m.m_eor) { n with data := n.data ++ m.data }
        refine ⟨n', r, heq, le_trans ?_ hle⟩
        simp [Buf.m_len]
      · rw [if_neg hroom]
        exact ⟨n, _, rfl, le_rfl⟩

theorem append_head (ms : List Buf) :
    ∃ m' r' q', append ((m :: r) :: q) ms = (m' :: r') :: q' ∧ m.m_len ≤ m'.m_len := by
  have hrecord : ∃ q', appendrecord ((m :: r) :: q) ms = (m :: r) :: q' := by
    unfold appendrecord
    split_ifs
    · exact ⟨q, rfl⟩
    · exact ⟨q ++ [newRecord ms], rfl⟩
  unfold append
  by_cases hms : ms = []
  · rw [if_pos hms]
    exact ⟨m, r, q, rfl, le_rfl⟩
  rw [if_neg hms]
  rcases eq_nil_or_concat' q with rfl | ⟨q, l, rfl⟩
  · show ∃ m' r' q', (if unended (m :: r) then [] ++ [(m :: r).dropLast ++
        compress false (m :: r).getLast? ms] else _) = _ ∧ _
    by_cases hunended : unended (m :: r) = true
    · rw [if_pos hunended]
      cases r with
      | nil =>
        obtain ⟨n', r', heq, hle⟩ := compress_head false m ms
        refine ⟨n', r', [], ?_, hle⟩
        show [compress false (some m) ms] = _
        rw [heq]
      | cons m₁ r =>
        exact ⟨m, _, [], rfl, le_rfl⟩
    · rw [if_neg hunended]
      obtain ⟨q', heq⟩ := hrecord
      exact ⟨m, r, q', heq, le_rfl⟩
  · have hlast : ((m :: r) :: (q ++ [l])).getLast? = some l := by
      rw [← cons_append, getLast?_concat]
    rw [hlast]
    show ∃ m' r' q', (if unended l then _ else _) = _ ∧ _
    by_cases hunended : unended l = true
    · rw [if_pos hunended, ← cons_append, dropLast_concat]
      exact ⟨m, r, _, rfl, le_rfl⟩
    · rw [if_neg hunended]
      obtain ⟨q', heq⟩ := hrecord
      exact ⟨m, r, q', heq, le_rfl⟩

end Records

section Arithmetic

variable {arch : Arch} {x : ℤ}

theorem two_pow_le_long (arch : Arch) : (2 : ℤ) ^ 32 ≤ 2 ^ arch.long := by
  cases arch <;> decide

theorem u_long_of_lt (h₀ : 0 ≤ x) (h : x < 2 ^ 32) : u_long arch x = x :=
  Int.emod_eq_of_lt h₀ (lt_of_lt_of_le h (two_pow_le_long arch))

theorem int_of_nonneg (h₀ : 0 ≤ x) (h : x < 2 ^ 31) : int x = x := by
  unfold int
  rw [BitVec.toInt_ofInt]
  apply Int.bmod_eq_of_le
  · omega
  · omega

theorem sbreserve_bounds {sb sb' : Sockbuf} {cc : ℤ} (h : sb.sbreserve arch (u_long arch cc) = some sb') :
    sb'.sb_mb = sb.sb_mb ∧ 0 ≤ sb'.sb_hiwat ∧ sb'.sb_hiwat ≤ SB_MAX ∧ 0 ≤ sb'.sb_mbmax ∧
      sb'.sb_mbmax ≤ 8 * SB_MAX := by
  have hpos : 0 ≤ u_long arch cc := Int.emod_nonneg _ (by cases arch <;> decide)
  unfold Sockbuf.sbreserve at h
  obtain ⟨hlarge, h⟩ := ite_none_left_eq_some.mp h
  obtain rfl := some_inj.mp h
  have hmbmax : 0 ≤ umin (u_long arch cc * 4) (SB_MAX * 4) ∧
      umin (u_long arch cc * 4) (SB_MAX * 4) ≤ 4 * SB_MAX := by
    unfold umin SB_MAX
    omega
  refine ⟨rfl, hpos, not_lt.mp hlarge, ?_, ?_⟩
  · dsimp
    split_ifs <;> omega
  · dsimp
    split_ifs <;> omega

end Arithmetic

section Invariant

/-- The limits of the sender and the counts of the peer add up to the reservation. -/
structure Balanced (l : Line) : Prop where
  hiwat_le : l.reserved.1 ≤ SB_MAX
  mbmax_le : l.reserved.2 ≤ 8 * SB_MAX
  hiwat : l.snd.sb_hiwat + l.unp_cc = l.reserved.1
  mbmax : l.snd.sb_mbmax + l.unp_mbcnt = l.reserved.2
  hiwat_nonneg : 0 ≤ l.snd.sb_hiwat
  mbmax_nonneg : 0 ≤ l.snd.sb_mbmax

/-- The counts of the peer are no less than what is queued, and the same if no receive is going on.  A
receive that copies does so from the first mbuf. -/
structure Sound (l : Line) : Prop extends Balanced l where
  cc : l.rcv.sb_cc ≤ l.unp_cc
  mbcnt : l.rcv.sb_mbcnt ≤ l.unp_mbcnt
  idle : l.copying = none → l.waiting = [] → l.rcv.sb_cc = l.unp_cc ∧ l.rcv.sb_mbcnt = l.unp_mbcnt
  copying : ∀ rd ∈ l.copying, ∃ m r q, l.rcv.sb_mb = (m :: r) :: q ∧ rd.len ≤ m.m_len

variable {arch : Arch} {l : Line} {rd : Reader} {error : Bool} {f : Flow}

theorem pruRcvd_eq_charge (f : Flow) : f.pruRcvd arch = f.charge arch := by
  have hsub (a b c : ℤ) : a + (b - c) = a - (c - b) := by omega
  unfold Flow.pruRcvd Flow.charge
  rw [hsub, hsub]

theorem Balanced.charge (h : Balanced l) (hcc : l.rcv.sb_cc ≤ l.reserved.1) (hmbcnt : l.rcv.sb_mbcnt ≤ l.reserved.2)
    (hcopying : ∀ rd ∈ l.copying, ∃ m r q, l.rcv.sb_mb = (m :: r) :: q ∧ rd.len ≤ m.m_len) :
    Sound { l with toFlow := l.toFlow.charge arch } := by
  have hcc₀ : 0 ≤ l.rcv.sb_cc := Int.natCast_nonneg _
  have hmbcnt₀ : 0 ≤ l.rcv.sb_mbcnt := Int.natCast_nonneg _
  have hcc₁ := h.hiwat_le
  have hmbcnt₁ := h.mbmax_le
  have hhiwat := h.hiwat
  have hmbmax := h.mbmax
  unfold SB_MAX at hcc₁ hmbcnt₁
  have hint : int l.rcv.sb_cc = l.rcv.sb_cc := int_of_nonneg hcc₀ (by omega)
  have hint' : int l.rcv.sb_mbcnt = l.rcv.sb_mbcnt := int_of_nonneg hmbcnt₀ (by omega)
  have hlong : u_long arch (l.snd.sb_hiwat - (l.rcv.sb_cc - l.unp_cc)) =
      l.reserved.1 - l.rcv.sb_cc := by
    rw [u_long_of_lt (by omega) (by omega)]
    omega
  have hlong' : u_long arch (l.snd.sb_mbmax - (l.rcv.sb_mbcnt - l.unp_mbcnt)) =
      l.reserved.2 - l.rcv.sb_mbcnt := by
    rw [u_long_of_lt (by omega) (by omega)]
    omega
  refine ⟨⟨h.hiwat_le, h.mbmax_le, ?_, ?_, ?_, ?_⟩, ?_, ?_, fun _ _ => ⟨?_, ?_⟩, hcopying⟩
  · show u_long arch _ + int _ = l.reserved.1
    omega
  · show u_long arch _ + int _ = l.reserved.2
    omega
  · show 0 ≤ u_long arch _
    omega
  · show 0 ≤ u_long arch _
    omega
  · exact hint.ge
  · exact hint'.ge
  · exact hint.symm
  · exact hint'.symm

theorem Balanced.finish (h : Balanced l) (hcc : l.rcv.sb_cc ≤ l.unp_cc) (hmbcnt : l.rcv.sb_mbcnt ≤ l.unp_mbcnt) :
    Sound { l with toFlow := { l.toFlow with copying := none }.pruRcvd arch } := by
  rw [pruRcvd_eq_charge]
  have h' : Balanced { l with toFlow := { l.toFlow with copying := none } } :=
    ⟨h.hiwat_le, h.mbmax_le, h.hiwat, h.mbmax, h.hiwat_nonneg, h.mbmax_nonneg⟩
  have hhiwat := h.hiwat
  have hmbmax := h.mbmax
  have hhiwat₀ := h.hiwat_nonneg
  have hmbmax₀ := h.mbmax_nonneg
  exact h'.charge (show l.rcv.sb_cc ≤ l.reserved.1 by omega)
    (show l.rcv.sb_mbcnt ≤ l.reserved.2 by omega) nofun

theorem Balanced.advance (h : Balanced l) (hcc : l.rcv.sb_cc ≤ l.unp_cc) (hmbcnt : l.rcv.sb_mbcnt ≤ l.unp_mbcnt) {r : List Buf}
    (hfirst : r ≠ [] → ∃ q, l.rcv.sb_mb = r :: q) (hrun : l.toFlow.advance arch rd r error = some f) : Sound { l with toFlow := f } := by
  unfold Flow.advance at hrun
  generalize hturn : turn rd r error = w at hrun
  cases w with
  | panic =>
    cases hrun
  | stop =>
    obtain rfl := some_inj.mp hrun
    exact h.finish hcc hmbcnt
  | copy rd' =>
    obtain rfl := some_inj.mp hrun
    refine ⟨⟨h.hiwat_le, h.mbmax_le, h.hiwat, h.mbmax, h.hiwat_nonneg, h.mbmax_nonneg⟩, hcc, hmbcnt, nofun, ?_⟩
    rintro _ ⟨⟩
    unfold turn at hturn
    cases r with
    | nil => cases hturn
    | cons m r =>
      obtain ⟨q, hq⟩ := hfirst (cons_ne_nil _ _)
      refine ⟨m, r, q, hq, ?_⟩
      dsimp only at hturn
      split_ifs at hturn
      cases hturn
      exact min_le_right _ _

theorem Balanced.freed (h : Balanced l) (hcc : l.rcv.sb_cc ≤ l.unp_cc)
    (hmbcnt : l.rcv.sb_mbcnt ≤ l.unp_mbcnt) {eor : Bool} {r : List Buf} {q : List (List Buf)} (hmb : l.rcv.sb_mb = left r q)
    (hrun : l.toFlow.freed arch eor rd r q error = some f) : Sound { l with toFlow := f } := by
  unfold Flow.freed at hrun
  split_ifs at hrun
  · obtain rfl := some_inj.mp hrun
    exact h.finish hcc hmbcnt
  · obtain rfl := some_inj.mp hrun
    refine ⟨⟨h.hiwat_le, h.mbmax_le, h.hiwat, h.mbmax, h.hiwat_nonneg, h.mbmax_nonneg⟩, hcc, hmbcnt,
      fun _ hnil => ?_, nofun⟩
    cases hnil
  · refine h.advance hcc hmbcnt (fun hne => ⟨q, ?_⟩) hrun
    rw [hmb]
    exact if_neg hne

end Invariant

section Steps

variable {arch : Arch} {l l' : Line} {f : Flow}

theorem sound_of_fresh (h : l.Fresh arch) : Sound l := by
  obtain ⟨snd, cc, lowat, rcv, rcc, rlowat, hsnd, hrcv, rfl⟩ := h
  obtain ⟨-, h₀, h₁, h₀', h₁'⟩ := sbreserve_bounds hsnd
  obtain ⟨hmb, -⟩ := sbreserve_bounds hrcv
  have hcc : rcv.sb_cc = 0 := by simp [Sockbuf.sb_cc, hmb]
  have hmbcnt : rcv.sb_mbcnt = 0 := by simp [Sockbuf.sb_mbcnt, hmb]
  exact ⟨⟨h₁, h₁', add_zero _, add_zero _, h₀, h₀'⟩, hcc.le, hmbcnt.le, fun _ _ => ⟨hcc, hmbcnt⟩, nofun⟩

theorem Sound.soreceive (h : Sound l) {resid : ℕ} {waitall : Bool} {externalize : Buf → Bool}
    (hrun : l.toFlow.soreceive arch resid waitall externalize = some f) : Sound { l with toFlow := f } := by
  unfold Flow.soreceive at hrun
  cases hcopying : l.copying with
  | some rd =>
    rw [hcopying] at hrun
    cases hrun
  | none =>
    cases hmb : l.rcv.sb_mb with
    | nil =>
      rw [hcopying, hmb] at hrun
      cases hrun
    | cons r q =>
      rw [hcopying, hmb] at hrun
      dsimp only at hrun
      split_ifs at hrun
      obtain ⟨hbytes, hstorage⟩ := takeControl_le externalize r
      have hcc := h.cc
      have hmbcnt := h.mbcnt
      simp only [Sockbuf.sb_cc, Sockbuf.sb_mbcnt, hmb, flatten_cons, bytes_append,
        storage_append, length_append] at hcc hmbcnt
      refine Balanced.advance (l := { l with rcv.sb_mb := left (takeControl externalize r).1 q })
        ⟨h.hiwat_le, h.mbmax_le, h.hiwat, h.mbmax, h.hiwat_nonneg, h.mbmax_nonneg⟩ ?_ ?_ ?_ hrun
      · simp only [Sockbuf.sb_cc, bytes_left, length_append]
        omega
      · simp only [Sockbuf.sb_mbcnt, storage_left]
        omega
      · intro hne
        exact ⟨q, if_neg hne⟩

theorem Sound.copied (h : Sound l) {error : Bool} {n : ℕ} (hrun : l.toFlow.copied arch error n = some f) : Sound { l with toFlow := f } := by
  unfold Flow.copied at hrun
  cases hcopying : l.copying with
  | none =>
    rw [hcopying] at hrun
    cases hrun
  | some rd =>
    obtain ⟨m, r, q, hmb, hlen⟩ := h.copying rd hcopying
    rw [hcopying, hmb] at hrun
    dsimp only at hrun
    have hcc := h.cc
    have hmbcnt := h.mbcnt
    simp only [Sockbuf.sb_cc, Sockbuf.sb_mbcnt, hmb, flatten_cons, bytes_append, bytes_cons,
      storage_append, storage_cons, length_append] at hcc hmbcnt
    by_cases hall : rd.len = m.m_len
    · rw [if_pos hall] at hrun
      refine Balanced.freed (l := { l with rcv.sb_mb := left r q })
        ⟨h.hiwat_le, h.mbmax_le, h.hiwat, h.mbmax, h.hiwat_nonneg, h.mbmax_nonneg⟩ ?_ ?_ rfl hrun
      · simp only [Sockbuf.sb_cc, bytes_left, length_append]
        omega
      · simp only [Sockbuf.sb_mbcnt, storage_left]
        omega
    · rw [if_neg hall] at hrun
      obtain ⟨m', hm'⟩ : ∃ m' : Buf, m' =
        { m with m_off := m.m_off + rd.len, data := m.data.drop rd.len } := ⟨_, rfl⟩
      rw [← hm'] at hrun
      have hdata : m'.data.length ≤ m.data.length := by
        rw [hm']
        exact (drop_sublist ..).length_le
      have hstorage : m'.storage = m.storage := by rw [hm']; rfl
      refine Balanced.advance (l := { l with rcv.sb_mb := (m' :: r) :: q })
        ⟨h.hiwat_le, h.mbmax_le, h.hiwat, h.mbmax, h.hiwat_nonneg, h.mbmax_nonneg⟩ ?_ ?_ ?_ hrun
      · simp only [Sockbuf.sb_cc, flatten_cons, bytes_append, bytes_cons, length_append]
        omega
      · simp only [Sockbuf.sb_mbcnt, flatten_cons, storage_append, storage_cons]
        omega
      · intro _
        exact ⟨q, rfl⟩

theorem Sound.woken (h : Sound l) {k : ℕ} {w : Wake} (hok : w = .error → l.rcv.sb_cc = l.unp_cc ∧ l.rcv.sb_mbcnt = l.unp_mbcnt)
    (hrun : l.toFlow.woken arch k w = some f) : Sound { l with toFlow := f } := by
  unfold Flow.woken at hrun
  cases hcopying : l.copying with
  | some rd =>
    rw [hcopying] at hrun
    cases hrun
  | none =>
    cases hwait : l.waiting[k]? with
    | none =>
      rw [hcopying, hwait] at hrun
      cases hrun
    | some rd =>
      rw [hcopying, hwait] at hrun
      dsimp only at hrun
      by_cases herror : w = .error
      · rw [if_pos herror] at hrun
        obtain rfl := some_inj.mp hrun
        refine ⟨⟨h.hiwat_le, h.mbmax_le, h.hiwat, h.mbmax, h.hiwat_nonneg, h.mbmax_nonneg⟩, h.cc,
          h.mbcnt, fun _ _ => hok herror, nofun⟩
      · rw [if_neg herror] at hrun
        by_cases hdata : w = .data ∧ l.rcv.sb_mb = []
        · rw [if_pos hdata] at hrun
          obtain rfl := some_inj.mp hrun
          exact h
        · rw [if_neg hdata] at hrun
          refine Balanced.advance (l := { l with waiting := l.waiting.eraseIdx k })
            ⟨h.hiwat_le, h.mbmax_le, h.hiwat, h.mbmax, h.hiwat_nonneg, h.mbmax_nonneg⟩ h.cc h.mbcnt
            ?_ hrun
          intro hne
          cases hmb : l.rcv.sb_mb with
          | nil =>
            rw [hmb] at hne
            exact absurd rfl hne
          | cons r q => exact ⟨q, rfl⟩

theorem queued_head (f : Flow) (ms : List Buf) (control : Option (List Buf)) {m : Buf} {r : List Buf}
    {q : List (List Buf)} (hmb : f.rcv.sb_mb = (m :: r) :: q) :
    ∃ m' r' q', (f.queued ms control).sb_mb = (m' :: r') :: q' ∧ m.m_len ≤ m'.m_len := by
  cases control with
  | none =>
    show ∃ m' r' q', append f.rcv.sb_mb ms = _ ∧ _
    rw [hmb]
    exact append_head ms
  | some control =>
    show ∃ m' r' q', (f.rcv.sbappendcontrol ms control).sb_mb = _ ∧ _
    unfold Sockbuf.sbappendcontrol
    split_ifs
    · exact ⟨m, r, q, hmb, le_rfl⟩
    · refine ⟨m, r, q ++ [control ++ ms], ?_, le_rfl⟩
      rw [hmb]
      rfl

/-- A message that fits in the reservation with what is queued. -/
def Fits (m : List Buf) (control : Option (List Buf)) (l : Line) : Prop :=
  (l.queued m control).sb_cc ≤ l.reserved.1 ∧ (l.queued m control).sb_mbcnt ≤ l.reserved.2

theorem Sound.send (h : Sound l) {m : List Buf} {control : Option (List Buf)}
    (hfits : l.cantsendmore = false → Fits m control l) :
    Sound { l with toFlow := l.toFlow.pruSend arch m control } := by
  unfold Flow.pruSend
  by_cases hcant : l.cantsendmore = true
  · rw [if_pos hcant]
    exact h
  · rw [if_neg hcant]
    obtain ⟨hcc, hmbcnt⟩ := hfits (Bool.eq_false_iff.mpr hcant)
    refine Balanced.charge (l := { l with rcv := l.queued m control })
      ⟨h.hiwat_le, h.mbmax_le, h.hiwat, h.mbmax, h.hiwat_nonneg, h.mbmax_nonneg⟩ hcc hmbcnt ?_
    intro rd hrd
    obtain ⟨n, r, q, hmb, hlen⟩ := h.copying rd hrd
    obtain ⟨n', r', q', heq, hle⟩ := queued_head l.toFlow m control hmb
    exact ⟨n', r', q', heq, hlen.trans hle⟩

theorem Sound.setSndbuf (h : Sound l) {cc : ℤ} (hnone : u_long arch cc ≤ SB_MAX → l.unp_cc = 0 ∧ l.unp_mbcnt = 0) :
    Sound (l.setSndbuf arch cc) := by
  unfold Line.setSndbuf
  cases hsnd : l.snd.sbreserve arch (u_long arch cc) with
  | none => exact h
  | some sb =>
    obtain ⟨-, h₀, h₁, h₀', h₁'⟩ := sbreserve_bounds hsnd
    have hle : u_long arch cc ≤ SB_MAX := by
      by_contra hlarge
      rw [Sockbuf.sbreserve, if_pos (not_le.mp hlarge)] at hsnd
      cases hsnd
    refine ⟨⟨h₁, h₁', ?_, ?_, h₀, h₀'⟩, h.cc, h.mbcnt, h.idle, h.copying⟩
    · show sb.sb_hiwat + l.unp_cc = sb.sb_hiwat
      omega
    · show sb.sb_mbmax + l.unp_mbcnt = sb.sb_mbmax
      omega

theorem Sound.setRcvbuf (h : Sound l) (cc : ℤ) : Sound (l.setRcvbuf arch cc) := by
  unfold Line.setRcvbuf
  cases hrcv : l.rcv.sbreserve arch (u_long arch cc) with
  | none => exact h
  | some sb =>
    obtain ⟨hmb, -⟩ := sbreserve_bounds hrcv
    have hcc : sb.sb_cc = l.rcv.sb_cc := by rw [Sockbuf.sb_cc, hmb]; rfl
    have hmbcnt : sb.sb_mbcnt = l.rcv.sb_mbcnt := by rw [Sockbuf.sb_mbcnt, hmb]; rfl
    refine ⟨⟨h.hiwat_le, h.mbmax_le, h.hiwat, h.mbmax, h.hiwat_nonneg, h.mbmax_nonneg⟩,
      hcc.le.trans h.cc, hmbcnt.le.trans h.mbcnt, fun hcopying hwaiting => ?_, fun rd hrd => ?_⟩
    · exact ⟨hcc.trans (h.idle hcopying hwaiting).1, hmbcnt.trans (h.idle hcopying hwaiting).2⟩
    · show ∃ m r q, sb.sb_mb = _ ∧ _
      rw [hmb]
      exact h.copying rd hrd

end Steps

section Runs

variable {arch : Arch}

/-- What keeps the limits right: a message fits in the reservation, a size for `so_snd` is set when
nothing is counted at the peer, and a wait of a receive does not fail before it has given back what it
has taken. -/
def Careful (arch : Arch) (l : Line) : Event → Prop
  | .send m control => l.cantsendmore = false → Fits m control l
  | .sndbuf cc => u_long arch cc ≤ SB_MAX → l.unp_cc = 0 ∧ l.unp_mbcnt = 0
  | .woken _ w => w = .error → l.rcv.sb_cc = l.unp_cc ∧ l.rcv.sb_mbcnt = l.unp_mbcnt
  | _ => True

theorem Sound.step {l l' : Line} {e : Event} (h : Sound l) (hok : Careful arch l e)
    (hstep : l.step arch e = some l') : Sound l' := by
  cases e with
  | send m control =>
    simp only [Line.step] at hstep
    split_ifs at hstep
    obtain rfl := some_inj.mp hstep
    exact h.send hok
  | recv resid waitall externalize =>
    obtain ⟨f, hf, rfl⟩ := map_eq_some_iff.mp hstep
    exact h.soreceive hf
  | copied error n =>
    obtain ⟨f, hf, rfl⟩ := map_eq_some_iff.mp hstep
    exact h.copied hf
  | woken k w =>
    obtain ⟨f, hf, rfl⟩ := map_eq_some_iff.mp hstep
    exact h.woken hok hf
  | sndbuf cc =>
    obtain rfl := some_inj.mp hstep
    exact h.setSndbuf hok
  | rcvbuf cc =>
    obtain rfl := some_inj.mp hstep
    exact h.setRcvbuf cc
  | sndlowat n =>
    obtain rfl := some_inj.mp hstep
    exact ⟨⟨h.hiwat_le, h.mbmax_le, h.hiwat, h.mbmax, h.hiwat_nonneg, h.mbmax_nonneg⟩, h.cc, h.mbcnt,
      h.idle, h.copying⟩
  | rcvlowat n =>
    obtain rfl := some_inj.mp hstep
    exact ⟨⟨h.hiwat_le, h.mbmax_le, h.hiwat, h.mbmax, h.hiwat_nonneg, h.mbmax_nonneg⟩, h.cc, h.mbcnt,
      h.idle, h.copying⟩

/-- The runs whose events are careful. -/
def careful (arch : Arch) : System Pair (Bool × Event) := (system arch).restrict fun p e => Careful arch (p e.1) e.2

theorem sound_of_reachable {p : Pair} (hp : (careful arch).Reachable p) (i : Bool) : Sound (p i) := by
  revert i
  refine hp.invariant (fun p (hinit : ∀ i, (p i).Fresh arch) i => sound_of_fresh (hinit i)) ?_
  rintro p ⟨k, e⟩ p' - hsound ⟨hok, l, hstep, rfl⟩ i
  by_cases hi : i = k
  · rw [hi, update_self]
    exact (hsound k).step hok hstep
  · rw [update_of_ne hi]
    exact hsound i

/-- The limits of a sender and what is queued for the peer. -/
def Conserved (l : Line) : Prop :=
  l.snd.sb_hiwat + l.rcv.sb_cc = l.reserved.1 ∧ l.snd.sb_mbmax + l.rcv.sb_mbcnt = l.reserved.2

instance (l : Line) : Decidable (Conserved l) := inferInstanceAs (Decidable (_ ∧ _))

/-- In a careful run the limits of a sender and what is queued add up to the reservation. -/
theorem limits_conserved {p : Pair} (hp : (careful arch).Reachable p) (i : Bool) :
    ((p i).copying = none → (p i).waiting = [] →
      Conserved (p i) ∧ ((p i).rcv.sb_mb = [] →
        (p i).snd.sb_hiwat = (p i).reserved.1 ∧ (p i).snd.sb_mbmax = (p i).reserved.2)) ∧
      ((p i).snd.sb_hiwat + (p i).unp_cc = (p i).reserved.1 ∧
        (p i).snd.sb_mbmax + (p i).unp_mbcnt = (p i).reserved.2) ∧
      0 ≤ (p i).snd.sb_hiwat ∧ 0 ≤ (p i).snd.sb_mbmax ∧
      (p i).rcv.sb_cc ≤ (p i).unp_cc ∧ (p i).rcv.sb_mbcnt ≤ (p i).unp_mbcnt := by
  have h := sound_of_reachable hp i
  refine ⟨fun hcopying hwaiting => ?_, ⟨h.hiwat, h.mbmax⟩, h.hiwat_nonneg, h.mbmax_nonneg, h.cc, h.mbcnt⟩
  obtain ⟨hcc, hmbcnt⟩ := h.idle hcopying hwaiting
  have hconserved : Conserved (p i) := ⟨hcc ▸ h.hiwat, hmbcnt ▸ h.mbmax⟩
  refine ⟨hconserved, fun hmb => ?_⟩
  obtain ⟨h₁, h₂⟩ := hconserved
  simp only [Sockbuf.sb_cc, Sockbuf.sb_mbcnt, hmb, flatten_nil, bytes_nil, storage_nil, length_nil] at h₁ h₂
  omega

end Runs

section Examples

theorem reachable_of_runFrom {arch : Arch} {ok : Line → Event → Prop} {p : Pair} {i : Bool}
    {l : Line} (es : List Event) (hp : ((system arch).restrict fun p e => ok (p e.1) e.2).Reachable p)
    (hok : System.MeetsAlong (Line.step arch) ok (p i) es)
    (hrun : System.runFrom (Line.step arch) (p i) es = some l) :
    ((system arch).restrict fun p e => ok (p e.1) e.2).Reachable (update p i l) := by
  induction es generalizing p with
  | nil =>
    obtain rfl := some_inj.mp hrun
    rwa [update_eq_self]
  | cons e es ih =>
    obtain ⟨u, hu, hl⟩ := bind_eq_some_iff.mp hrun
    have hstep := hp.step (t := update p i u) (i := (i, e)) ⟨hok.1, u, hu, rfl⟩
    have hrest := ih hstep (by rw [update_self]; exact hok.2 u hu)
      (by rw [update_self]; exact hl)
    rwa [update_idem] at hrest

instance (m : List Buf) (control : Option (List Buf)) (l : Line) : Decidable (Fits m control l) :=
  inferInstanceAs (Decidable (_ ∧ _))

instance (arch : Arch) (l : Line) : (e : Event) → Decidable (Careful arch l e)
  | .send _ _ => inferInstanceAs (Decidable (_ → _))
  | .sndbuf _ => inferInstanceAs (Decidable (_ → _))
  | .woken _ _ => inferInstanceAs (Decidable (_ → _))
  | .recv .. => .isTrue trivial
  | .copied .. => .isTrue trivial
  | .rcvbuf _ => .isTrue trivial
  | .sndlowat _ => .isTrue trivial
  | .rcvlowat _ => .isTrue trivial

/-- Two sockets with the limits of a pipe. -/
def pipe : Pair := fun _ =>
  ⟨⟨⟨[], 4096, 16384, 1⟩, false, ⟨[], 4096, 16384, 1⟩, 0, 0, none, []⟩, (4096, 16384)⟩

theorem pipe_fresh (i : Bool) : (pipe i).Fresh .mips := ⟨_, 4096, 1, _, 4096, 1, rfl, rfl, rfl⟩

/-- An mbuf of data, and one of control data. -/
def data (n : ℕ) : Buf := ⟨.MT_DATA, none, 0, List.replicate n 0, false, none⟩

def control (n : ℕ) : Buf := ⟨.MT_CONTROL, none, 0, List.replicate n 0, false, none⟩

/-- What is there when of three bytes two have been received. -/
def received : Line :=
  ⟨⟨⟨[], 4095, 16128, 1⟩, false, ⟨[[{ data 1 with m_off := 2 }]], 4096, 16384, 1⟩, 1, 256, none, []⟩, (4096, 16384)⟩

theorem limits_conserved_received : Conserved received := by
  have hpipe : (careful .mips).Reachable pipe := .init pipe_fresh
  have hp : (careful .mips).Reachable (update pipe false received) :=
    reachable_of_runFrom [.send [data 3] none, .recv 2 false fun _ => true, .copied false 2] hpipe
      (System.MeetsAlong.of_stepsPass (by decide)) rfl
  exact ((limits_conserved hp false).1 rfl rfl).1

/-- A size is set while a byte is queued.  A message is put where there is less space for mbufs.  A
receive of more than `sb_hiwat` is interrupted after it has taken three bytes. -/
def careless : List (List Event) :=
  [[.send [data 1] none, .sndbuf 4096], [.sndbuf 100, .send [data 1] (some [control 12])],
    [.send [data 3] none, .recv 5000 true fun _ => true, .copied false 3, .woken 0 .error]]

theorem limits_not_conserved : careless.length = 3 ∧ ∀ es ∈ careless, ∃ p : Pair, (system .mips).Reachable p ∧
    System.runFrom (Line.step .mips) (pipe false) es = some (p false) ∧
    (p false).copying = none ∧ (p false).waiting = [] ∧ ¬Conserved (p false) := by
  have hpipe : ((system .mips).restrict fun _ _ => True).Reachable pipe := .init pipe_fresh
  have hrun (es : List Event) (l : Line)
      (h : System.runFrom (Line.step .mips) (pipe false) es = some l) :
      (system .mips).Reachable (update pipe false l) :=
    (reachable_of_runFrom es hpipe (System.MeetsAlong.of_forall fun _ _ => trivial) h).of_restrict
  refine ⟨rfl, fun es hes => ?_⟩
  obtain ⟨l, hl, hidle⟩ : ∃ l, System.runFrom (Line.step .mips) (pipe false) es = some l ∧
      l.copying = none ∧ l.waiting = [] ∧ ¬Conserved l := by
    simp only [careless, mem_cons, not_mem_nil, or_false] at hes
    rcases hes with rfl | rfl | rfl
    · exact ⟨_, rfl, rfl, rfl, by decide⟩
    · exact ⟨_, rfl, rfl, rfl, by decide⟩
    · exact ⟨_, rfl, rfl, rfl, by decide⟩
  exact ⟨_, hrun es l hl, hl, hidle⟩

end Examples

end Backpressure

end Osf1.Unp
