import Osf1.Computation.RecordQueue

/-!
# Socket buffers

The functions that add data to a socket buffer and drop it, on mbufs in memory.  A loop over a chain
gets an amount of fuel, and running out of it is an outcome of its own.
-/

set_option autoImplicit false

namespace Osf1.Sockbuf

open List

section Buffer

open Osf1.Computation.RecordQueue

abbrev Byte := BitVec 8

section Mbufs

/-- SRC: sys/mbuf.h:205-221 -/
inductive MType where
  | MT_FREE
  | MT_DATA
  | MT_HEADER
  | MT_SOCKET
  | MT_PCB
  | MT_RTABLE
  | MT_HTABLE
  | MT_ATABLE
  | MT_SONAME
  | MT_SOOPTS
  | MT_FTABLE
  | MT_RIGHTS
  | MT_IFADDR
  | MT_CONTROL
  | MT_OOBDATA
deriving DecidableEq

/-- SRC: sys/mbuf.h:86 and 106 -/
def MSIZE : ℕ := 256

def MLEN : ℕ := 184

/-- An mbuf but for its links: its type, `ext_size` if it has external storage, where its data starts
in `m_dat`, the data, the flag `M_EOR`, and the length in the packet header if there is one.
SRC: sys/mbuf.h:126-196 -/
structure Buf where
  m_type : MType
  m_ext : Option ℕ
  m_off : ℕ
  data : List Byte
  m_eor : Bool
  m_pkthdr : Option ℕ
deriving DecidableEq

def Buf.m_len (m : Buf) : ℕ := m.data.length

/-- The storage of an mbuf. -/
def Buf.storage (m : Buf) : ℕ := MSIZE + m.m_ext.getD 0

/-- An mbuf: `next` is `m_next`, and `record` is `m_nextpkt`. -/
abbrev Mbuf := Cell Buf

end Mbufs

section State

/-- What a function does not return for: a panic, an access to an mbuf that is free, or that the fuel
does not suffice. -/
inductive Stop where
  | fuel
  | fault
  | sbappendaddr
  | sbappendcontrol
  | sbflush
  | sbflush_2
  | sbdrop
deriving DecidableEq

/-- A socket buffer with the memory of its mbufs; `sb_lock` is `SB_LOCK` in `sb_flags`.
SRC: sys/socketvar.h:128-147 -/
structure Sb where
  mem : Cells Buf
  sb_cc : ℤ
  sb_hiwat : ℤ
  sb_mbcnt : ℤ
  sb_mbmax : ℤ
  sb_mb : Option ℕ
  sb_lock : Bool

def Sb.get (s : Sb) (a : ℕ) : Except Stop Mbuf :=
  match s.mem a with
  | some c => .ok c
  | none => .error .fault

def Sb.put (s : Sb) (a : ℕ) (c : Mbuf) : Sb := { s with mem := Function.update s.mem a (some c) }

/-- The mbuf is freed, by `MFREE`. -/
def Sb.free (s : Sb) (a : ℕ) : Sb := { s with mem := Function.update s.mem a none }

/-- A value that is converted to an `int`. -/
def int (x : ℤ) : ℤ := (BitVec.ofInt 32 x).toInt

/-- SRC: sys/socketvar.h:316-324 -/
def Sb.sbspace (s : Sb) : ℤ := int (s.sb_hiwat - s.sb_cc) ⊓ int (s.sb_mbmax - s.sb_mbcnt)

/-- SRC: sys/socketvar.h:357-363 -/
def Sb.sballoc (s : Sb) (m : Buf) : Sb := { s with sb_cc := s.sb_cc + m.m_len, sb_mbcnt := s.sb_mbcnt + m.storage }

/-- SRC: sys/socketvar.h:365-371 -/
def Sb.sbfree (s : Sb) (m : Buf) : Sb := { s with sb_cc := s.sb_cc - m.m_len, sb_mbcnt := s.sb_mbcnt - m.storage }

end State

section Append

/-- There is room in an mbuf for the data of the next one, and they are of one type.
SRC: bsd/uipc_socket2.c:1044-1047 -/
def room (n m : Buf) : Bool :=
  n.m_ext.isNone && !n.m_eor && decide (n.m_off + n.m_len + m.m_len ≤ MLEN) && n.m_type == m.m_type

/-- Compress mbuf chain `m` into the socket buffer following mbuf `n`.
SRC: bsd/uipc_socket2.c:1024-1065 -/
def sbcompress : ℕ → Bool → Option ℕ → Option ℕ → Sb → Except Stop Sb
  | 0, _, _, _, _ => .error .fuel
  | _ + 1, _, none, none, s => .ok s
  | _ + 1, eor, none, some n, s => do
    let d ← s.get n
    .ok (s.put n { d with val := { d.val with m_eor := d.val.m_eor || eor } })
  | fuel + 1, eor, some m, none, s => do
    let c ← s.get m
    let eor := eor || c.val.m_eor
    if c.val.m_len = 0 then sbcompress fuel eor c.next none (s.free m)
    else
      let s := { s with sb_mb := some m }.sballoc c.val
      let s := s.put m { c with val := { c.val with m_eor := false }, next := none }
      sbcompress fuel eor c.next (some m) s
  | fuel + 1, eor, some m, some n, s => do
    let c ← s.get m
    let eor := eor || c.val.m_eor
    if c.val.m_len = 0 then sbcompress fuel eor c.next (some n) (s.free m)
    else
      let d ← s.get n
      if room d.val c.val then
        let s := s.put n { d with val := { d.val with data := d.val.data ++ c.val.data } }
        let s := { s with sb_cc := s.sb_cc + c.val.m_len }
        sbcompress fuel eor c.next (some n) (s.free m)
      else
        let s := (s.put n { d with next := some m }).sballoc c.val
        let s := s.put m { c with val := { c.val with m_eor := false }, next := none }
        sbcompress fuel eor c.next (some m) s

/-- The first mbuf of the last record. -/
def lastRecord : ℕ → ℕ → Sb → Except Stop ℕ
  | 0, _, _ => .error .fuel
  | fuel + 1, n, s => do
    match (← s.get n).record with
    | some n' => lastRecord fuel n' s
    | none => .ok n

/-- The last mbuf of a record, unless there is `M_EOR` in front of it. -/
def lastMbuf : ℕ → ℕ → Sb → Except Stop (Option ℕ)
  | 0, _, _ => .error .fuel
  | fuel + 1, n, s => do
    let c ← s.get n
    match c.next with
    | some n' => if c.val.m_eor then .ok none else lastMbuf fuel n' s
    | none => .ok (some n)

/-- The chain behind the first mbuf of a new record is put into the record.
SRC: bsd/uipc_socket2.c:885-891 and 930-936 -/
def startRecord (fuel : ℕ) (m0 : ℕ) (s : Sb) : Except Stop Sb := do
  let c0 ← s.get m0
  match c0.next with
  | none => sbcompress fuel false none (some m0) (s.put m0 { c0 with next := none })
  | some m =>
    if c0.val.m_eor then
      let s := s.put m0 { c0 with val := { c0.val with m_eor := false }, next := none }
      let c ← s.get m
      sbcompress fuel false (some m) (some m0)
        (s.put m { c with val := { c.val with m_eor := true } })
    else sbcompress fuel false (some m) (some m0) (s.put m0 { c0 with next := none })

/-- A record is put behind the last one. -/
def linkRecord (fuel : ℕ) (m0 : ℕ) (s : Sb) : Except Stop Sb := do
  match s.sb_mb with
  | none => .ok { s with sb_mb := some m0 }
  | some n =>
    let n ← lastRecord fuel n s
    let d ← s.get n
    .ok (s.put n { d with record := some m0 })

/-- As `sbappend`, except the mbuf chain begins a new record.
SRC: bsd/uipc_socket2.c:859-892 -/
def sbappendrecord (fuel : ℕ) (m0 : Option ℕ) (s : Sb) : Except Stop Sb := do
  match m0 with
  | none => .ok s
  | some m0 =>
    let c0 ← s.get m0
    let s ← linkRecord fuel m0 (s.sballoc c0.val)
    startRecord fuel m0 s

/-- Append mbuf chain `m` to the last record in the socket buffer.
SRC: bsd/uipc_socket2.c:830-857 -/
def sbappend (fuel : ℕ) (m : Option ℕ) (s : Sb) : Except Stop Sb := do
  match m, s.sb_mb with
  | none, _ => .ok s
  | some m, none => sbcompress fuel false (some m) none s
  | some m, some n =>
    let n ← lastRecord fuel n s
    match ← lastMbuf fuel n s with
    | none => sbappendrecord fuel (some m) s
    | some n => sbcompress fuel false (some m) (some n) s

/-- The chain has out-of-band data in front, but for control messages.
SRC: bsd/uipc_socket2.c:911-921 -/
def isOob : ℕ → ℕ → Sb → Except Stop Bool
  | 0, _, _ => .error .fuel
  | fuel + 1, m, s => do
    let c ← s.get m
    match c.val.m_type, c.next with
    | .MT_OOBDATA, _ => .ok true
    | .MT_CONTROL, some m => isOob fuel m s
    | _, _ => .ok false

/-- Where a record of out-of-band data goes: `mp` is `&sb->sb_mb` or the `m_nextpkt` of a record.
SRC: bsd/uipc_socket2.c:910-922 -/
def oobPlace : ℕ → Option ℕ → Option ℕ → Sb → Except Stop (Option ℕ × Option ℕ)
  | 0, _, _, _ => .error .fuel
  | _ + 1, mp, none, _ => .ok (mp, none)
  | fuel + 1, mp, some m, s => do
    if ← isOob fuel m s then
      let c ← s.get m
      oobPlace fuel (some m) c.record s
    else .ok (mp, some m)

/-- `*mp = m0`. -/
def setPlace (mp : Option ℕ) (m0 : ℕ) (s : Sb) : Except Stop Sb :=
  match mp with
  | none => .ok { s with sb_mb := some m0 }
  | some n => do
    let d ← s.get n
    .ok (s.put n { d with record := some m0 })

/-- As `sbappendrecord`, except that the record is put in front, but behind other out-of-band data.
SRC: bsd/uipc_socket2.c:894-937 -/
def sbinsertoob (fuel : ℕ) (m0 : Option ℕ) (s : Sb) : Except Stop Sb := do
  match m0 with
  | none => .ok s
  | some m0 =>
    let (mp, m) ← oobPlace fuel none s.sb_mb s
    let c0 ← s.get m0
    let s ← setPlace mp m0 ((s.sballoc c0.val).put m0 { c0 with record := m })
    startRecord fuel m0 s

/-- The length of a chain, and its last mbuf. -/
def chainLength : ℕ → Option ℕ → Sb → Except Stop (ℤ × Option ℕ)
  | 0, _, _ => .error .fuel
  | _ + 1, none, _ => .ok (0, none)
  | fuel + 1, some m, s => do
    let c ← s.get m
    let (len, last) ← chainLength fuel c.next s
    .ok (c.val.m_len + len, if last.isNone then some m else last)

/-- All mbufs of a chain are charged. -/
def sballocs : ℕ → Option ℕ → Sb → Except Stop Sb
  | 0, _, _ => .error .fuel
  | _ + 1, none, s => .ok s
  | fuel + 1, some m, s => do
    let c ← s.get m
    sballocs fuel c.next (s.sballoc c.val)

/-- The record is charged, and put behind the last one.
SRC: bsd/uipc_socket2.c:981-988 and 1013-1020 -/
def addRecord (fuel : ℕ) (m : ℕ) (s : Sb) : Except Stop Sb := do
  let s ← sballocs fuel (some m) s
  linkRecord fuel m s

/-- `m_pkthdr.len` of data that has to have a packet header.
SRC: bsd/uipc_socket2.c:954-957 -/
def headerLength (m0 : Option ℕ) (s : Sb) : Except Stop ℕ :=
  match m0 with
  | none => .ok 0
  | some m0 => do
    match (← s.get m0).val.m_pkthdr with
    | none => .error .sbappendaddr
    | some len => .ok len

/-- Concatenate data to control.
SRC: bsd/uipc_socket2.c:976-979 and 1012 -/
def concat (n m0 : Option ℕ) (s : Sb) : Except Stop Sb :=
  match n with
  | none => .ok s
  | some n => do
    let d ← s.get n
    .ok (s.put n { d with next := m0 })

/-- Append address and data, and optionally control data.  `mget` is the mbuf that `MGET` returns.
SRC: bsd/uipc_socket2.c:939-990 -/
def sbappendaddr (fuel : ℕ) (asa : List Byte) (m0 control mget : Option ℕ) (s : Sb) :
    Except Stop (Bool × Sb) := do
  let len ← headerLength m0 s
  let (clen, n) ← chainLength fuel control s
  if s.sbspace < int (asa.length + len + clen) then .ok (false, s)
  else if MLEN < asa.length then .ok (false, s)
  else
    match mget with
    | none => .ok (false, s)
    | some m =>
      let s ← concat n m0 s
      let name : Buf := ⟨.MT_SONAME, none, 0, asa, false, none⟩
      let s ← addRecord fuel m (s.put m ⟨name, if n.isNone then m0 else control, none⟩)
      .ok (true, s)

/-- Append control data and data.
SRC: bsd/uipc_socket2.c:992-1022 -/
def sbappendcontrol (fuel : ℕ) (m0 control : Option ℕ) (s : Sb) :
    Except Stop (Bool × Sb) := do
  match control with
  | none => .error .sbappendcontrol
  | some control =>
    let (clen, n) ← chainLength fuel (some control) s
    let (len, _) ← chainLength fuel m0 s
    if s.sbspace < int (clen + len) then .ok (false, s)
    else
      let s ← concat n m0 s
      let s ← addRecord fuel control s
      .ok (true, s)

end Append

section Drop

/-- SRC: bsd/uipc_socket2.c:1099-1117 -/
def dropLoop : ℕ → ℤ → Option ℕ → Option ℕ → Sb → Except Stop (Option ℕ × Option ℕ × Sb)
  | 0, _, _, _, _ => .error .fuel
  | fuel + 1, len, m, next, s =>
    if len ≤ 0 then .ok (m, next, s)
    else
      match m with
      | none =>
        match next with
        | none => .error .sbdrop
        | some m => do
          let c ← s.get m
          dropLoop fuel len (some m) c.record s
      | some m => do
        let c ← s.get m
        if len < c.val.m_len then
          let left := { c.val with m_off := c.val.m_off + len.toNat, data := c.val.data.drop len.toNat }
          .ok (some m, next, { s.put m { c with val := left } with sb_cc := s.sb_cc - len })
        else dropLoop fuel (len - c.val.m_len) c.next next ((s.sbfree c.val).free m)

/-- The mbufs in front that have become empty are freed.
SRC: bsd/uipc_socket2.c:1118-1122 -/
def dropEmpty : ℕ → Option ℕ → Sb → Except Stop (Option ℕ × Sb)
  | 0, _, _ => .error .fuel
  | _ + 1, none, s => .ok (none, s)
  | fuel + 1, some m, s => do
    let c ← s.get m
    if c.val.m_len = 0 then dropEmpty fuel c.next ((s.sbfree c.val).free m) else .ok (some m, s)

/-- `m_nextpkt` of the first record.
SRC: bsd/uipc_socket2.c:1098 -/
def Sb.nextpkt (s : Sb) : Except Stop (Option ℕ) :=
  match s.sb_mb with
  | none => .ok none
  | some m => do
    let c ← s.get m
    .ok c.record

/-- Drop data from the front of a sockbuf.
SRC: bsd/uipc_socket2.c:1086-1128 -/
def sbdrop (fuel : ℕ) (len : ℤ) (s : Sb) : Except Stop Sb := do
  let next ← s.nextpkt
  let (m, next, s) ← dropLoop fuel len s.sb_mb next s
  let (m, s) ← dropEmpty fuel m s
  match m with
  | none => .ok { s with sb_mb := next }
  | some m =>
    let c ← s.get m
    .ok { s.put m { c with record := next } with sb_mb := some m }

/-- All mbufs of a chain are given back and freed. -/
def freeChain : ℕ → Option ℕ → Sb → Except Stop Sb
  | 0, _, _ => .error .fuel
  | _ + 1, none, s => .ok s
  | fuel + 1, some m, s => do
    let c ← s.get m
    freeChain fuel c.next ((s.sbfree c.val).free m)

/-- Drop a record off the front of a sockbuf.
SRC: bsd/uipc_socket2.c:1130-1149 -/
def sbdroprecord (fuel : ℕ) (s : Sb) : Except Stop Sb := do
  match s.sb_mb with
  | none => .ok s
  | some m =>
    let c ← s.get m
    freeChain fuel (some m) { s with sb_mb := c.record }

/-- The turns of the loop of `sbflush`. -/
def flushLoop : ℕ → Sb → Except Stop Sb
  | 0, _ => .error .fuel
  | fuel + 1, s =>
    if s.sb_mbcnt = 0 then .ok s
    else do
      let s ← sbdrop fuel (int s.sb_cc) s
      flushLoop fuel s

/-- Free all mbufs in a sockbuf.
SRC: bsd/uipc_socket2.c:1067-1084 -/
def sbflush (fuel : ℕ) (s : Sb) : Except Stop Sb := do
  if s.sb_lock then .error .sbflush
  else
    let s ← flushLoop fuel s
    if s.sb_cc ≠ 0 ∨ s.sb_mb ≠ none then .error .sbflush_2 else .ok s

end Drop

end Buffer

/-!
## Socket buffers as lists of records

What the functions on socket buffers do to the mbufs of the records, and what that means for the bytes
and the storage.
-/

section Records

section Definitions

/-- The data of a chain. -/
def bytes (r : List Buf) : List Byte := r.flatMap Buf.data

/-- The storage of a chain. -/
def storage (r : List Buf) : ℕ := (r.map Buf.storage).sum

/-- The chain `ms` is compressed into a record whose last mbuf is `n`: what comes of `n` and the
mbufs behind it. -/
def compress : Bool → Option Buf → List Buf → List Buf
  | _, none, [] => []
  | eor, some n, [] => [{ n with m_eor := n.m_eor || eor }]
  | eor, none, m :: ms =>
    if m.m_len = 0 then compress (eor || m.m_eor) none ms
    else compress (eor || m.m_eor) (some { m with m_eor := false }) ms
  | eor, some n, m :: ms =>
    if m.m_len = 0 then compress (eor || m.m_eor) (some n) ms
    else if room n m then compress (eor || m.m_eor) (some { n with data := n.data ++ m.data }) ms
    else n :: compress (eor || m.m_eor) (some { m with m_eor := false }) ms

/-- A chain as a record of its own. -/
def newRecord : List Buf → List Buf
  | [] => []
  | m0 :: [] => compress false (some m0) []
  | m0 :: m :: ms =>
    if m0.m_eor then
      compress false (some { m0 with m_eor := false }) ({ m with m_eor := true } :: ms)
    else compress false (some m0) (m :: ms)

/-- A chain becomes the last record. -/
def appendrecord (q : List (List Buf)) (ms : List Buf) : List (List Buf) :=
  if ms = [] then q else q ++ [newRecord ms]

/-- Whether a record can be added to: there is no `M_EOR` in front of its last mbuf. -/
def unended (r : List Buf) : Bool := r.dropLast.all fun m => !m.m_eor

/-- A chain is appended to the last record. -/
def append (q : List (List Buf)) (ms : List Buf) : List (List Buf) :=
  if ms = [] then q
  else
    match q.getLast? with
    | none => if compress false none ms = [] then [] else [compress false none ms]
    | some r =>
      if unended r then q.dropLast ++ [r.dropLast ++ compress false r.getLast? ms]
      else appendrecord q ms

/-- There is out-of-band data in front, but for control messages. -/
def oob : List Buf → Bool
  | [] => false
  | m :: ms =>
    match m.m_type with
    | .MT_OOBDATA => true
    | .MT_CONTROL => oob ms
    | _ => false

/-- A chain of out-of-band data is put in. -/
def insertoob (q : List (List Buf)) (ms : List Buf) : List (List Buf) :=
  if ms = [] then q else q.takeWhile oob ++ newRecord ms :: q.dropWhile oob

/-- A length of data is taken from a record and those behind it. -/
def dropData : ℕ → List Buf → List (List Buf) → List Buf × List (List Buf)
  | _, [], [] => ([], [])
  | len, [], r :: q => if len = 0 then ([], r :: q) else dropData len r q
  | len, m :: r, q =>
    if len = 0 then (m :: r, q)
    else if len < m.m_len then
      ({ m with m_off := m.m_off + len, data := m.data.drop len } :: r, q)
    else dropData (len - m.m_len) r q
termination_by _ r q => (q.length, r.length)

/-- The record in front without the mbufs that have become empty. -/
def settle (r : List Buf) (q : List (List Buf)) : List (List Buf) :=
  match r.dropWhile fun m => m.m_len = 0 with
  | [] => q
  | r => r :: q

/-- A length of data is dropped. -/
def drop (len : ℕ) (q : List (List Buf)) : List (List Buf) :=
  match q with
  | [] => []
  | r :: q =>
    let (r, q) := dropData len r q
    settle r q

end Definitions

section Bytes

variable {r r' : List Buf} {m n : Buf} {q : List (List Buf)}

@[simp] theorem bytes_nil : bytes [] = [] := rfl

@[simp] theorem bytes_cons : bytes (m :: r) = m.data ++ bytes r := flatMap_cons

@[simp] theorem bytes_append : bytes (r ++ r') = bytes r ++ bytes r' := flatMap_append

@[simp] theorem storage_nil : storage [] = 0 := rfl

@[simp] theorem storage_cons : storage (m :: r) = m.storage + storage r := by
  simp [storage]

@[simp] theorem storage_append : storage (r ++ r') = storage r + storage r' := by
  simp [storage]

theorem data_eq_nil (h : m.m_len = 0) : m.data = [] := length_eq_zero_iff.mp h

theorem bytes_compress (eor : Bool) (n : Option Buf) (ms : List Buf) :
    bytes (compress eor n ms) = bytes n.toList ++ bytes ms := by
  induction ms generalizing eor n with
  | nil =>
    cases n with
    | none => rfl
    | some n => simp [compress]
  | cons m ms ih =>
    cases n with
    | none =>
      by_cases hlen : m.m_len = 0
      · rw [compress, if_pos hlen, ih]
        simp [data_eq_nil hlen]
      · rw [compress, if_neg hlen, ih]
        simp
    | some n =>
      by_cases hlen : m.m_len = 0
      · rw [compress, if_pos hlen, ih]
        simp [data_eq_nil hlen]
      · rw [compress, if_neg hlen]
        by_cases hroom : room n m = true
        · rw [if_pos hroom, ih]
          simp
        · rw [if_neg hroom, bytes_cons, ih]
          simp

theorem bytes_newRecord (ms : List Buf) : bytes (newRecord ms) = bytes ms := by
  match ms with
  | [] => rfl
  | m0 :: [] => simp [newRecord, bytes_compress]
  | m0 :: m :: ms =>
    rw [newRecord]
    split_ifs
    · simp [bytes_compress]
    · simp [bytes_compress]

theorem bytes_appendrecord (q : List (List Buf)) (ms : List Buf) :
    bytes (appendrecord q ms).flatten = bytes q.flatten ++ bytes ms := by
  unfold appendrecord
  split_ifs with hms
  · simp [hms]
  · simp [bytes_newRecord]

theorem bytes_append_record (q : List (List Buf)) (ms : List Buf) :
    bytes (append q ms).flatten = bytes q.flatten ++ bytes ms := by
  unfold append
  by_cases hms : ms = []
  · rw [if_pos hms, hms]
    simp
  · rw [if_neg hms]
    cases hq : q.getLast? with
    | none =>
      obtain rfl := getLast?_eq_none_iff.mp hq
      have hbytes := bytes_compress false none ms
      by_cases hnil : compress false none ms = []
      · rw [hnil] at hbytes
        simpa [hnil] using hbytes
      · simpa [hnil] using hbytes
    | some r =>
      obtain ⟨q, rfl⟩ := getLast?_eq_some_iff.mp hq
      by_cases hend : unended r = true
      · have hlast : r.dropLast ++ r.getLast?.toList = r := by
          cases hr : r.getLast? with
          | none => simp [getLast?_eq_none_iff.mp hr]
          | some m => exact dropLast_append_getLast? m hr
        simp only [hend, if_true, dropLast_concat, flatten_append, flatten_cons,
          flatten_nil, append_nil, bytes_append, bytes_compress]
        rw [← append_assoc (bytes r.dropLast), ← bytes_append, hlast, append_assoc]
      · simp only [hend]
        exact bytes_appendrecord ..

theorem bytes_insertoob (q : List (List Buf)) (ms : List Buf) :
    bytes (insertoob q ms).flatten =
      bytes (q.takeWhile oob).flatten ++ bytes ms ++ bytes (q.dropWhile oob).flatten := by
  unfold insertoob
  split_ifs with hms
  · rw [hms, bytes_nil, append_nil, ← bytes_append, ← flatten_append, takeWhile_append_dropWhile]
  · simp [bytes_newRecord]

theorem bytes_dropWhile (r : List Buf) : bytes (r.dropWhile fun m => m.m_len = 0) = bytes r := by
  induction r with
  | nil => rfl
  | cons m r ih =>
    by_cases hlen : m.m_len = 0
    · rw [dropWhile_cons_of_pos (by simpa using hlen), ih]
      simp [data_eq_nil hlen]
    · rw [dropWhile_cons_of_neg (by simpa using hlen)]

theorem bytes_settle (r : List Buf) (q : List (List Buf)) :
    bytes (settle r q).flatten = bytes r ++ bytes q.flatten := by
  have hdrop := bytes_dropWhile r
  unfold settle
  split
  · rename_i hnil
    rw [hnil] at hdrop
    rw [← hdrop]
    rfl
  · rw [flatten_cons, bytes_append, hdrop]

theorem bytes_dropData (len : ℕ) (r : List Buf) (q : List (List Buf)) :
    bytes (dropData len r q).1 ++ bytes (dropData len r q).2.flatten =
      (bytes r ++ bytes q.flatten).drop len := by
  induction len, r, q using dropData.induct with
  | case1 len => simp [dropData]
  | case2 r q => simp [dropData]
  | case3 len r q hlen ih =>
    rw [dropData, if_neg hlen, ih]
    simp
  | case4 m r q => simp [dropData]
  | case5 len m r q hlen hlt =>
    have hsub : len - m.data.length = 0 := Nat.sub_eq_zero_of_le (Nat.le_of_lt hlt)
    rw [dropData, if_neg hlen, if_pos hlt, bytes_cons, bytes_cons, append_assoc, append_assoc, drop_append, hsub]
    rfl
  | case6 len m r q hlen hlt ih =>
    have hle : m.data.length ≤ len := Nat.le_of_not_lt hlt
    have hdrop : (m.data ++ (bytes r ++ bytes q.flatten)).drop len =
        (bytes r ++ bytes q.flatten).drop (len - m.data.length) := by
      rw [drop_append, drop_eq_nil_of_le hle, nil_append]
    rw [dropData, if_neg hlen, if_neg hlt, ih, bytes_cons, append_assoc, hdrop]
    rfl

theorem bytes_drop (len : ℕ) (q : List (List Buf)) : bytes (drop len q).flatten = (bytes q.flatten).drop len := by
  cases q with
  | nil => simp [drop]
  | cons r q =>
    unfold drop
    rw [bytes_settle, bytes_dropData, flatten_cons, bytes_append]

end Bytes

end Records

end Osf1.Sockbuf
