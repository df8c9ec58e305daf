import Osf1.Computation.Transition

/-!
# Reassembly of IP datagrams

A fragment is put into the queue of its datagram in the order of the offsets.  What an earlier
fragment has already is taken from its front, and what it has itself is taken from the front of the
later ones.  The space of the mbufs is charged for a fragment while it is queued.

The header is in the first mbuf of a packet, so that the model keeps it apart from the data.
`m_pullup` has been done, and statistics are left out.
-/

set_option autoImplicit false

namespace Osf1.Reassembly

open List Option

section Model

open Osf1.Computation

abbrev Byte := BitVec 8

def u_short (n : ℕ) : ℕ := n % 2 ^ 16

def int32 (x : ℤ) : ℤ := x.bmod (2 ^ 32)

/-- SRC: sys/mbuf.h:86 and 106 -/
def MSIZE : ℕ := 256

def MLEN : ℕ := 184

/-- An mbuf: `ext_size` if it has a cluster, where its data starts in `m_dat`, and the data. -/
structure Mbuf where
  m_ext : Option ℕ
  m_off : ℕ
  data : List Byte
deriving DecidableEq

/-- The space that an mbuf takes. -/
def Mbuf.space (m : Mbuf) : ℕ := MSIZE + m.m_ext.getD 0

def space (m : List Mbuf) : ℕ := (m.map Mbuf.space).sum

def content (m : List Mbuf) : List Byte := m.flatMap Mbuf.data

section Chains

/-- Trim from head.
SRC: bsd/uipc_mbuf.c:585-595 -/
def m_adj : ℕ → List Mbuf → List Mbuf
  | _, [] => []
  | len, m :: ms =>
    if len = 0 then m :: ms
    else if m.data.length ≤ len then { m with data := [] } :: m_adj (len - m.data.length) ms
    else { m with m_off := m.m_off + len, data := m.data.drop len } :: ms

/-- Data is copied into the last mbuf as long as there is room.
SRC: bsd/uipc_mbuf.c:552-567 -/
def catLast (m : Mbuf) : List Mbuf → List Mbuf
  | [] => [m]
  | n :: ns =>
    if m.m_ext.isSome ∨ MLEN ≤ m.m_off + m.data.length + n.data.length then
      if n.data.length = 0 then m :: ns else m :: n :: ns
    else catLast { m with data := m.data ++ n.data } ns

/-- SRC: bsd/uipc_mbuf.c:547-568 -/
def m_cat : List Mbuf → List Mbuf → List Mbuf
  | [], n => n
  | [m], n => catLast m n
  | m :: m' :: ms, n => m :: m_cat (m' :: ms) n

end Chains

/-- An IP header as `ipintr` has left it: the length is that of the data and the offset is in bytes.
`ip_mff` is the flag `IPFRAG_MFF` in `ip_vhl`, and `ip_rest` is for what is only copied.
SRC: netinet/ip.h:91-115, netinet/ip_input.c:479-483 -/
structure Ip where
  ip_hl : ℕ
  ip_mff : Bool
  ip_len : ℕ
  ip_off : ℕ
  ip_id : ℕ
  ip_p : ℕ
  ip_src : ℕ
  ip_dst : ℕ
  ip_rest : List Byte
deriving DecidableEq

/-- What `ipintr` passes to `ip_reass`.  The header is at least 20 bytes long, the data has been
trimmed to its length, and it is not a datagram of its own.  The memory of all mbufs is less than
`_MALLOC_MAX_VIRT`.
SRC: netinet/ip_input.c:288-339 and 471-490, bsd/kern_malloc.c:768-773 -/
structure Packet where
  ip : Ip
  m : List Mbuf
  hl_ge : 5 ≤ ip.ip_hl
  hl_lt : ip.ip_hl < 16
  off_lt : ip.ip_off < 2 ^ 16
  off_mod : 8 ∣ ip.ip_off
  len_eq : (content m).length = ip.ip_len
  len_lt : ip.ip_len + 4 * ip.ip_hl < 2 ^ 16
  is_frag : ip.ip_mff = true ∨ ip.ip_off ≠ 0
  space_lt : space m < 2 ^ 29

/-- A fragment in a queue.  `charge` is for the space that it has been charged for. -/
structure Frag where
  ip : Ip
  m : List Mbuf
  charge : ℕ
deriving DecidableEq

/-- The address and identification that the fragments of a datagram share. -/
structure Key where
  id : ℕ
  src : ℕ
  dst : ℕ
  p : ℕ
deriving DecidableEq

def Ip.key (ip : Ip) : Key := ⟨ip.ip_id, ip.ip_src, ip.ip_dst, ip.ip_p⟩

/-- SRC: netinet/ip_var.h:94-103 -/
structure Ipq where
  key : Key
  ipq_ttl : ℕ
  frags : List Frag
deriving DecidableEq

/-- What is handed up: the header, the data, and `m_pkthdr.len`. -/
structure Datagram where
  ip : Ip
  m : List Mbuf
  pkthdr_len : ℕ
deriving DecidableEq

/-- The limit that `ip_init` computes, at most `_MALLOC_MAX_VIRT`, and the time to live.
SRC: netinet/ip_input.c:198-202 -/
structure Limits where
  ipr_max : ℤ
  ipfragttl : ℕ
  max_nonneg : 0 ≤ ipr_max
  max_lt : ipr_max < 2 ^ 29

section Accounting

/-- SRC: netinet/ip_input.c:792-805 -/
def ip_dealloc : ℤ → List Mbuf → ℤ
  | inuse, [] => inuse
  | inuse, m :: ms => ip_dealloc (int32 (int32 (inuse - MSIZE) - m.m_ext.getD 0)) ms

/-- SRC: netinet/ip_input.c:811-825 -/
def ip_freef (inuse : ℤ) (fp : Ipq) : ℤ := fp.frags.foldl (fun n q => ip_dealloc n q.m) inuse

end Accounting

section Insertion

/-- The end of the data of a fragment. -/
def Ip.stop (ip : Ip) : ℕ := ip.ip_off + ip.ip_len

/-- Some of the data is taken from the front. -/
def Frag.trim (q : Frag) (i : ℕ) : Frag :=
  { q with
    ip := { q.ip with ip_off := u_short (q.ip.ip_off + i), ip_len := q.ip.ip_len - i }
    m := m_adj i q.m }

/-- If there is a preceding segment, it may provide some of our data already.  If it provides all of
our data, drop us.
SRC: netinet/ip_input.c:643-656 -/
def trimFront (prev : Option Frag) (f : Frag) : Option Frag :=
  match prev with
  | none => some f
  | some p =>
    if p.ip.stop ≤ f.ip.ip_off then some f
    else if f.ip.ip_len ≤ p.ip.stop - f.ip.ip_off then none
    else some (f.trim (p.ip.stop - f.ip.ip_off))

/-- While we overlap succeeding segments trim them or, if they are completely covered, dequeue them.
SRC: netinet/ip_input.c:662-689 -/
def trimBack (f : Frag) : List Frag → ℤ → List Frag × ℤ
  | [], inuse => ([], inuse)
  | q :: qs, inuse =>
    if q.ip.ip_off < f.ip.stop then
      if f.ip.stop - q.ip.ip_off < q.ip.ip_len then (q.trim (f.ip.stop - q.ip.ip_off) :: qs, inuse)
      else trimBack f qs (ip_dealloc inuse q.m)
    else (q :: qs, inuse)

/-- Whether the segments follow each other, and where they end.
SRC: netinet/ip_input.c:701-711 -/
def nextFrom : ℕ → List Frag → Option ℕ
  | next, [] => some next
  | next, q :: qs => if q.ip.ip_off ≠ next then none else nextFrom (next + q.ip.ip_len) qs

/-- Where a datagram ends of which all fragments are there.
SRC: netinet/ip_input.c:700-717 -/
def complete (frags : List Frag) : Option ℕ :=
  match nextFrom 0 frags, frags.getLast? with
  | some next, some q => if q.ip.ip_mff then none else some next
  | _, _ => none

/-- Concatenate fragments, with the header of the first one.
SRC: netinet/ip_input.c:739-779 -/
def concatenate (key : Key) (next : ℕ) : List Frag → Option Datagram
  | [] => none
  | q :: qs =>
    some {
      ip := { q.ip with
        ip_len := u_short next, ip_mff := false, ip_src := key.src, ip_dst := key.dst }
      m := qs.foldl (fun m q => m_cat m q.m) q.m
      pkthdr_len := next }

/-- How `ip_reass` ends:
- `dropped`: the fragment is dropped, for it has nothing new or there is no mbuf;
- `refused`: there is not enough space;
- `queued`: it is in the queue, which is incomplete;
- `overquota`: it was, but the queue has been freed because too much space is used;
- `delivered`: the datagram is complete. -/
inductive Outcome
  | dropped
  | refused
  | queued (fp : Ipq) (inuse : ℤ)
  | overquota (fp : Ipq) (inuse : ℤ)
  | delivered (fp : Ipq) (d : Datagram) (inuse : ℤ)
deriving DecidableEq

variable (lim : Limits)

/-- Stick new segment in its place; check for complete reassembly.
SRC: netinet/ip_input.c:695-771 -/
def insertFrag (fp : Ipq) (front back : List Frag) (f : Frag) (inuse : ℤ) : Outcome :=
  let fp' := { fp with frags := front ++ f :: back }
  let inuse' := int32 (inuse + f.charge)
  match complete fp'.frags with
  | none => if lim.ipr_max < inuse' then .overquota fp' (ip_freef inuse' fp') else .queued fp' inuse'
  | some next =>
    match concatenate fp.key next fp'.frags with
    | none => .queued fp' inuse'
    | some d => .delivered fp' d (int32 (inuse' - (fp'.frags.map fun q => space q.m).sum))

/-- The segments which begin no later than an offset, and the others.
SRC: netinet/ip_input.c:629-636 -/
def before (off : ℕ) (frags : List Frag) : List Frag := frags.takeWhile fun q => decide (q.ip.ip_off ≤ off)

def after (off : ℕ) (frags : List Frag) : List Frag := frags.dropWhile fun q => decide (q.ip.ip_off ≤ off)

/-- Take incoming datagram fragment and try to reassemble it into whole datagram.  `mget` tells
whether there is an mbuf for a new queue.
SRC: netinet/ip_input.c:539-788 -/
def ip_reass (pkt : Packet) (fp : Option Ipq) (mget : Bool) (inuse : ℤ) : Outcome :=
  let f : Frag := ⟨pkt.ip, pkt.m, space pkt.m⟩
  match fp with
  | none =>
    if lim.ipr_max < int32 (inuse + f.charge) then .refused
    else if mget then insertFrag lim ⟨pkt.ip.key, lim.ipfragttl % 256, []⟩ [] [] f inuse
    else .dropped
  | some fp =>
    let front := before f.ip.ip_off fp.frags
    match trimFront front.getLast? f with
    | none => .dropped
    | some f' =>
      let (back, inuse') := trimBack f' (after f.ip.ip_off fp.frags) inuse
      insertFrag lim fp front back f' inuse'

end Insertion

/-- The queues, and the space in use.
SRC: netinet/ip_input.c:127-129 -/
structure State where
  ipq : List Ipq
  ipr_inuse : ℤ

/-- The first queue of a datagram is replaced, or it is removed. -/
def replaceFirst (key : Key) (r : List Ipq) : List Ipq → List Ipq
  | [] => []
  | fp :: fps => if fp.key = key then r ++ fps else fp :: replaceFirst key r fps

/-- Look for queue of fragments of this datagram.
SRC: netinet/ip_input.c:462-471 -/
def findQueue (key : Key) (ipq : List Ipq) : Option Ipq := ipq.find? fun fp => decide (fp.key = key)

/-- The time to live of the queues is decremented, and those whose time is over are freed.
SRC: netinet/ip_input.c:866-889 -/
def ip_slowtimo : List Ipq → ℤ → List Ipq × ℤ
  | [], inuse => ([], inuse)
  | fp :: fps, inuse =>
    let ttl := (fp.ipq_ttl + 255) % 256
    if ttl = 0 then ip_slowtimo fps (ip_freef inuse fp)
    else
      let (fps', inuse') := ip_slowtimo fps inuse
      ({ fp with ipq_ttl := ttl } :: fps', inuse')

/-- Drain off all datagram fragments.
SRC: netinet/ip_input.c:932-945 -/
def ip_drain : List Ipq → ℤ → ℤ
  | [], inuse => inuse
  | fp :: fps, inuse => ip_drain fps (ip_freef inuse fp)

/-- The steps, which are taken under the lock of the queues:
- `frag`: a fragment has arrived;
- `whole`: an unfragmented datagram has arrived for which there is a queue;
- `slowtimo`, `drain`: the timer, and a lack of memory. -/
inductive Event
  | frag (pkt : Packet) (mget : Bool)
  | whole (key : Key)
  | slowtimo
  | drain

section Steps

variable (lim : Limits) (s : State)

/-- What `ip_reass` does with a fragment. -/
def outcome (pkt : Packet) (mget : Bool) : Outcome := ip_reass lim pkt (findQueue pkt.ip.key s.ipq) mget s.ipr_inuse

/-- The queues after a fragment. -/
def State.settle (key : Key) : Outcome → State
  | .dropped | .refused => s
  | .queued fp inuse =>
    match findQueue key s.ipq with
    | none => ⟨fp :: s.ipq, inuse⟩
    | some _ => ⟨replaceFirst key [fp] s.ipq, inuse⟩
  | .overquota _ inuse | .delivered _ _ inuse => ⟨replaceFirst key [] s.ipq, inuse⟩

/-- SRC: netinet/ip_input.c:454-510 -/
def step : Event → Option State
  | .frag pkt mget => some (s.settle pkt.ip.key (outcome lim s pkt mget))
  | .whole key =>
    match findQueue key s.ipq with
    | none => some s
    | some fp => some ⟨replaceFirst key [] s.ipq, ip_freef s.ipr_inuse fp⟩
  | .slowtimo =>
    let (ipq, inuse) := ip_slowtimo s.ipq s.ipr_inuse
    some ⟨ipq, inuse⟩
  | .drain => some ⟨[], ip_drain s.ipq s.ipr_inuse⟩

end Steps

/-- There are no queues at first. -/
def reassemblySystem (lim : Limits) : System State Event := System.ofFun ⟨[], 0⟩ (step lim)

end Model

/-!
## The space in use for reassembly

The count is the sum of what the queued fragments have been charged for.  What is taken back is
computed again from the mbufs, which `m_adj` does not free.
-/

section Accounting

open Osf1.Computation

/-- The space that the fragments of a list have been charged for. -/
def charges (frags : List Frag) : ℕ := (frags.map Frag.charge).sum

/-- The space that all queued fragments have been charged for. -/
def total (ipq : List Ipq) : ℕ := (ipq.map fun fp => charges fp.frags).sum

def State.charged (s : State) : ℕ := total s.ipq

/-- What fragments have been charged for is the space of their mbufs. -/
def Exact (frags : List Frag) : Prop := ∀ q ∈ frags, q.charge = space q.m

variable {lim : Limits} {s t : State} {e : Event} {pkt : Packet} {mget : Bool} {m : List Mbuf}
  {f q : Frag} {qs back front : List Frag} {fp : Ipq} {ipq : List Ipq} {key : Key} {n : ℤ} {i : ℕ}

theorem int32_eq {x : ℤ} (hlo : -2 ^ 31 ≤ x) (hhi : x < 2 ^ 31) : int32 x = x := by
  apply Int.bmod_eq_of_le <;> omega

section Spaces

theorem space_m_adj (i : ℕ) (m : List Mbuf) : space (m_adj i m) = space m := by
  induction m generalizing i with
  | nil => rfl
  | cons b m ih =>
    unfold m_adj
    split
    · rfl
    · split
      · exact congrArg (b.space + ·) (ih _)
      · rfl

theorem ip_dealloc_eq (hlo : (space m : ℤ) ≤ n) (hhi : n < 2 ^ 31) : ip_dealloc n m = n - space m := by
  induction m generalizing n with
  | nil => exact (Int.sub_zero n).symm
  | cons b m ih =>
    have hspace : space (b :: m) = MSIZE + b.m_ext.getD 0 + space m := sum_cons
    unfold ip_dealloc
    rw [int32_eq (x := n - MSIZE) (by omega) (by omega), int32_eq (by omega) (by omega), ih (by omega) (by omega)]
    omega

theorem charges_cons : charges (q :: qs) = q.charge + charges qs := sum_cons

theorem charges_append : charges (front ++ back) = charges front + charges back := by
  unfold charges
  rw [map_append, sum_append]

theorem freef_eq (hexact : Exact qs) (hlo : (charges qs : ℤ) ≤ n) (hhi : n < 2 ^ 31) :
    qs.foldl (fun n q => ip_dealloc n q.m) n = n - charges qs := by
  induction qs generalizing n with
  | nil => exact (Int.sub_zero n).symm
  | cons q qs ih =>
    have hq := hexact q (mem_cons_self ..)
    rw [charges_cons] at hlo ⊢
    rw [foldl_cons, ip_dealloc_eq (by omega) hhi,
      ih (fun x hx => hexact x (mem_cons_of_mem _ hx)) (by omega) (by omega)]
    omega

theorem sum_space_eq (hexact : Exact qs) : (qs.map fun q => space q.m).sum = charges qs := by
  congr 1
  exact map_congr_left fun q hq => (hexact q hq).symm

end Spaces

section Trimming

theorem Exact.append (hfront : Exact front) (hback : Exact back) : Exact (front ++ back) := by
  intro q hq
  rcases mem_append.mp hq with hq | hq
  · exact hfront q hq
  · exact hback q hq

theorem exact_trim (hq : q.charge = space q.m) (i : ℕ) : (q.trim i).charge = space (q.trim i).m :=
  hq.trans (space_m_adj i q.m).symm

theorem trimFront_charge {prev : Option Frag} {f' : Frag} (h : trimFront prev f = some f') :
    f'.charge = f.charge ∧ space f'.m = space f.m := by
  cases prev with
  | none =>
    obtain rfl := some_inj.mp h
    exact ⟨rfl, rfl⟩
  | some p =>
    unfold trimFront at h
    simp only at h
    split at h
    · obtain rfl := some_inj.mp h
      exact ⟨rfl, rfl⟩
    · split at h
      · cases h
      · obtain rfl := some_inj.mp h
        exact ⟨rfl, space_m_adj _ f.m⟩

theorem trimBack_charges (hexact : Exact qs) (hlo : (charges qs : ℤ) ≤ n) (hhi : n < 2 ^ 31) :
    Exact (trimBack f qs n).1 ∧ charges (trimBack f qs n).1 ≤ charges qs ∧
      (trimBack f qs n).2 = n - charges qs + charges (trimBack f qs n).1 := by
  induction qs generalizing n with
  | nil => exact ⟨hexact, le_rfl, (Int.sub_add_cancel n _).symm⟩
  | cons q qs ih =>
    have hq := hexact q (mem_cons_self ..)
    have hrest : Exact qs := fun x hx => hexact x (mem_cons_of_mem _ hx)
    unfold trimBack
    split
    · split
      · refine ⟨fun x hx => ?_, le_rfl, (Int.sub_add_cancel n _).symm⟩
        cases hx with
        | head => exact exact_trim hq _
        | tail _ hx => exact hrest x hx
      · rw [charges_cons] at hlo
        rw [ip_dealloc_eq (by omega) hhi, charges_cons]
        obtain ⟨hexact', hle, heq⟩ := @ih (n - space q.m) hrest (by omega) (by omega)
        refine ⟨hexact', by omega, ?_⟩
        omega
    · exact ⟨hexact, le_rfl, (Int.sub_add_cancel n _).symm⟩

end Trimming

section Queues

theorem total_cons (fp : Ipq) (ipq : List Ipq) : total (fp :: ipq) = charges fp.frags + total ipq := sum_cons

theorem total_append (r ipq : List Ipq) : total (r ++ ipq) = total r + total ipq := by
  unfold total
  rw [map_append, sum_append]

theorem findQueue_cons (fp : Ipq) (fps : List Ipq) :
    findQueue key (fp :: fps) = if fp.key = key then some fp else findQueue key fps := by
  unfold findQueue
  rw [find?_cons]
  by_cases hkey : fp.key = key
  · rw [if_pos hkey, decide_eq_true hkey]
  · rw [if_neg hkey, decide_eq_false hkey]

/-- The charges of the queue that is found. -/
def found (key : Key) (ipq : List Ipq) : ℕ := ((findQueue key ipq).map fun fp => charges fp.frags).getD 0

theorem charged_replaceFirst {r : List Ipq} (hfound : findQueue key ipq ≠ none) :
    total (replaceFirst key r ipq) + found key ipq = total ipq + total r := by
  induction ipq with
  | nil => exact absurd rfl hfound
  | cons fp fps ih =>
    unfold found at ih ⊢
    unfold replaceFirst
    rw [findQueue_cons] at hfound ⊢
    rw [total_cons]
    by_cases hkey : fp.key = key
    · rw [if_pos hkey, if_pos hkey, total_append, map_some, getD_some]
      omega
    · rw [if_neg hkey] at hfound
      rw [if_neg hkey, if_neg hkey, total_cons]
      have hrest := ih hfound
      omega

theorem replaceFirst_of_none {r : List Ipq} (hnone : findQueue key ipq = none) : replaceFirst key r ipq = ipq := by
  induction ipq with
  | nil => rfl
  | cons fp fps ih =>
    rw [findQueue_cons] at hnone
    split at hnone
    · cases hnone
    · rename_i hkey
      unfold replaceFirst
      rw [if_neg hkey, ih hnone]

theorem mem_replaceFirst {r : List Ipq} {x : Ipq} (hx : x ∈ replaceFirst key r ipq) : x ∈ r ∨ x ∈ ipq := by
  induction ipq with
  | nil => cases hx
  | cons fp fps ih =>
    unfold replaceFirst at hx
    split at hx
    · exact (mem_append.mp hx).imp_right (mem_cons_of_mem _)
    · cases hx with
      | head => exact .inr (mem_cons_self ..)
      | tail _ hx => exact (ih hx).imp_right (mem_cons_of_mem _)

theorem found_le : found key ipq ≤ total ipq := by
  unfold found
  cases hfp : findQueue key ipq with
  | none => exact Nat.zero_le _
  | some fp =>
    exact single_le_sum (fun _ _ => Nat.zero_le _) _
      (mem_map_of_mem (mem_of_find?_eq_some hfp))

end Queues

/-- The count is that of the charges, which are within the limit. -/
structure Accounted (lim : Limits) (s : State) : Prop where
  inuse : s.ipr_inuse = s.charged
  le_max : (s.charged : ℤ) ≤ lim.ipr_max
  exact : ∀ fp ∈ s.ipq, Exact fp.frags

/-- What holds of the outcome for a fragment: the count is that of the other queues and of the one
that has been made, if it is kept. -/
def Outcome.Accounted (lim : Limits) (s : State) (pkt : Packet) : Outcome → Prop
  | .dropped => True
  | .refused => findQueue pkt.ip.key s.ipq = none ∧ lim.ipr_max < s.charged + space pkt.m
  | .queued fp inuse =>
    Exact fp.frags ∧ inuse = s.charged - found pkt.ip.key s.ipq + charges fp.frags ∧ inuse ≤ lim.ipr_max
  | .overquota fp inuse =>
    inuse = s.charged - found pkt.ip.key s.ipq ∧ lim.ipr_max < inuse + charges fp.frags
  | .delivered _ _ inuse => inuse = s.charged - found pkt.ip.key s.ipq

section Fragments

theorem insertFrag_accounted (hfront : Exact front) (hback : Exact back)
    (hf : f.charge = space f.m) (hn : n = s.charged - found pkt.ip.key s.ipq + charges (front ++ back))
    (hlo : 0 ≤ n - charges (front ++ back)) (hhi : n + f.charge < 2 ^ 31) :
    (insertFrag lim fp front back f n).Accounted lim s pkt := by
  have hall : Exact (front ++ f :: back) := by
    refine hfront.append fun x hx => ?_
    cases hx with
    | head => exact hf
    | tail _ hx => exact hback x hx
  have hsum : charges (front ++ f :: back) = charges (front ++ back) + f.charge := by
    rw [charges_append, charges_append, charges_cons]
    omega
  unfold insertFrag
  simp only
  rw [int32_eq (x := n + f.charge) (by omega) hhi]
  split
  · split
    · rename_i hover
      have hfree := freef_eq hall (n := n + f.charge) (by omega) hhi
      refine ⟨?_, ?_⟩
      · exact hfree.trans (by omega)
      · have hsame : ip_freef (n + f.charge) { fp with frags := front ++ f :: back } =
            n + f.charge - charges (front ++ f :: back) := hfree
        simp only
        omega
    · rename_i hover
      exact ⟨hall, by simp only; omega, by omega⟩
  · rw [sum_space_eq hall, int32_eq (by omega) (by omega)]
    have hrest : n + f.charge - charges (front ++ f :: back) = s.charged - found pkt.ip.key s.ipq := by omega
    cases front with
    | nil => exact hrest
    | cons x front => exact hrest

theorem exact_before (hexact : Exact qs) : Exact (before i qs) := fun q hq =>
  hexact q (takeWhile_subset _ hq)

theorem exact_after (hexact : Exact qs) : Exact (after i qs) := fun q hq =>
  hexact q (dropWhile_subset _ hq)

theorem charges_before_after : charges (before i qs) + charges (after i qs) = charges qs := by
  rw [← charges_append]
  unfold before after
  rw [takeWhile_append_dropWhile]

theorem Accounted.outcome (hs : Accounted lim s) (pkt : Packet) (mget : Bool) :
    (outcome lim s pkt mget).Accounted lim s pkt := by
  have hmax := lim.max_lt
  have hspace := pkt.space_lt
  have hle := hs.le_max
  have hfound := @found_le s.ipq pkt.ip.key
  unfold Reassembly.outcome ip_reass
  rw [hs.inuse]
  cases hfp : findQueue pkt.ip.key s.ipq with
  | none =>
    have hzero : found pkt.ip.key s.ipq = 0 := by
      unfold found
      rw [hfp]
      rfl
    simp only
    rw [int32_eq (by omega) (by omega)]
    split
    · rename_i hover
      exact ⟨hfp, hover⟩
    · split
      · refine insertFrag_accounted nofun nofun rfl ?_ ?_ ?_
        · rw [hzero]
          simp [charges]
        · simp [charges]
        · simp only
          omega
      · trivial
  | some fp =>
    have hexact := hs.exact fp (mem_of_find?_eq_some hfp)
    have hfoundEq : found pkt.ip.key s.ipq = charges fp.frags := by
      unfold found
      rw [hfp]
      rfl
    have hcharged : s.charged = total s.ipq := rfl
    have hsplit := @charges_before_after fp.frags pkt.ip.ip_off
    simp only
    split
    · trivial
    · rename_i f' htrim
      obtain ⟨hcharge, hsp⟩ := trimFront_charge htrim
      obtain ⟨hback, hbackle, hn⟩ := trimBack_charges (f := f') (n := s.charged)
        (exact_after (i := pkt.ip.ip_off) hexact) (by omega) (by omega)
      have hf : f'.charge = space f'.m := by rw [hcharge, hsp]
      refine insertFrag_accounted (exact_before hexact) hback hf ?_ ?_ ?_
      · rw [hn, hfoundEq, charges_append]
        omega
      · rw [hn, charges_append]
        omega
      · rw [hn, hcharge]
        simp only
        omega

end Fragments

section Steps

theorem Exact.freef (hexact : Exact fp.frags) (hlo : (charges fp.frags : ℤ) ≤ n) (hhi : n < 2 ^ 31) :
    ip_freef n fp = n - charges fp.frags :=
  freef_eq hexact hlo hhi

theorem accounted_mk (hn : n = total ipq) (hmax : (total ipq : ℤ) ≤ lim.ipr_max)
    (hexact : ∀ fp ∈ ipq, Exact fp.frags) : Accounted lim ⟨ipq, n⟩ :=
  ⟨hn, hmax, hexact⟩

theorem total_remove : total (replaceFirst key [] ipq) + found key ipq = total ipq := by
  cases hfp : findQueue key ipq with
  | none =>
    rw [replaceFirst_of_none hfp]
    unfold found
    rw [hfp]
    rfl
  | some fp =>
    have hne : findQueue key ipq ≠ none := by
      rw [hfp]
      nofun
    exact charged_replaceFirst hne

theorem Accounted.settle (hs : Accounted lim s) {o : Outcome} (ho : o.Accounted lim s pkt) :
    Accounted lim (s.settle pkt.ip.key o) := by
  have hcharged : s.charged = total s.ipq := rfl
  have hle := hs.le_max
  have hgone (n : ℤ) (hn : n = s.charged - found pkt.ip.key s.ipq) :
      Accounted lim ⟨replaceFirst pkt.ip.key [] s.ipq, n⟩ := by
    have hremove := @total_remove s.ipq pkt.ip.key
    refine accounted_mk (by omega) (by omega) fun fp hfp => ?_
    exact hs.exact fp ((mem_replaceFirst hfp).resolve_left nofun)
  cases o with
  | dropped => exact hs
  | refused => exact hs
  | queued fp n =>
    obtain ⟨hexact, hn, hmax⟩ := ho
    unfold State.settle
    simp only
    split
    · rename_i hfp
      have hzero : found pkt.ip.key s.ipq = 0 := by
        unfold found
        rw [hfp]
        rfl
      have hnew := total_cons fp s.ipq
      refine accounted_mk (by omega) (by omega) fun x hx => ?_
      cases hx with
      | head => exact hexact
      | tail _ hx => exact hs.exact x hx
    · rename_i old hfp
      have hne : findQueue pkt.ip.key s.ipq ≠ none := by
        rw [hfp]
        nofun
      have hnew := charged_replaceFirst (r := [fp]) hne
      have hone : total [fp] = charges fp.frags := total_cons fp []
      refine accounted_mk (by omega) (by omega) fun x hx => ?_
      rcases mem_replaceFirst hx with hx | hx
      · exact mem_singleton.mp hx ▸ hexact
      · exact hs.exact x hx
  | overquota fp n => exact hgone n ho.1
  | delivered fp d n => exact hgone n ho

theorem slowtimo_charges (hexact : ∀ fp ∈ ipq, Exact fp.frags) (hlo : (total ipq : ℤ) ≤ n) (hhi : n < 2 ^ 31) :
    (∀ fp ∈ (ip_slowtimo ipq n).1, Exact fp.frags) ∧
      total (ip_slowtimo ipq n).1 ≤ total ipq ∧
      (ip_slowtimo ipq n).2 = n - total ipq + total (ip_slowtimo ipq n).1 := by
  induction ipq generalizing n with
  | nil => exact ⟨hexact, le_rfl, (Int.sub_add_cancel n _).symm⟩
  | cons fp fps ih =>
    have hfp := hexact fp (mem_cons_self ..)
    have hrest (x : Ipq) (hx : x ∈ fps) : Exact x.frags := hexact x (mem_cons_of_mem _ hx)
    rw [total_cons] at hlo ⊢
    unfold ip_slowtimo
    simp only
    split
    · rw [hfp.freef (by omega) hhi]
      obtain ⟨hexact', hle, hn⟩ := @ih (n - charges fp.frags) hrest (by omega) (by omega)
      exact ⟨hexact', by omega, by omega⟩
    · obtain ⟨hexact', hle, hn⟩ := @ih n hrest (by omega) hhi
      have hnew := total_cons { fp with ipq_ttl := (fp.ipq_ttl + 255) % 256 } (ip_slowtimo fps n).1
      refine ⟨fun x hx => ?_, ?_, ?_⟩
      · cases hx with
        | head => exact hfp
        | tail _ hx => exact hexact' x hx
      · rw [hnew]
        exact Nat.add_le_add_left hle _
      · rw [hnew]
        simp only
        omega

theorem drain_eq (hexact : ∀ fp ∈ ipq, Exact fp.frags) (hlo : (total ipq : ℤ) ≤ n)
    (hhi : n < 2 ^ 31) : ip_drain ipq n = n - total ipq := by
  induction ipq generalizing n with
  | nil => exact (Int.sub_zero n).symm
  | cons fp fps ih =>
    have hfp := hexact fp (mem_cons_self ..)
    rw [total_cons] at hlo ⊢
    unfold ip_drain
    rw [hfp.freef (by omega) hhi, ih (fun x hx => hexact x (mem_cons_of_mem _ hx)) (by omega) (by omega)]
    omega

theorem Accounted.step (hs : Accounted lim s) (ht : Reassembly.step lim s e = some t) : Accounted lim t := by
  have hmax := lim.max_lt
  have hle := hs.le_max
  have hcharged : s.charged = total s.ipq := rfl
  cases e with
  | frag pkt mget =>
    obtain rfl := some_inj.mp ht
    exact hs.settle (hs.outcome pkt mget)
  | whole key =>
    simp only [Reassembly.step] at ht
    split at ht
    · exact some_inj.mp ht ▸ hs
    · rename_i fp hfp
      obtain rfl := some_inj.mp ht
      have hfoundLe := @found_le s.ipq key
      have hfound : found key s.ipq = charges fp.frags := by
        unfold found
        rw [hfp]
        rfl
      have hremove := @total_remove s.ipq key
      have hfree := (hs.exact fp (mem_of_find?_eq_some hfp)).freef (n := s.charged) (by omega)
        (by omega)
      rw [hs.inuse, hfree]
      refine accounted_mk (by omega) (by omega) fun x hx => ?_
      exact hs.exact x ((mem_replaceFirst hx).resolve_left nofun)
  | slowtimo =>
    obtain rfl := some_inj.mp ht
    rw [hs.inuse]
    obtain ⟨hexact, hless, hn⟩ := slowtimo_charges (n := s.charged) hs.exact (by omega) (by omega)
    exact accounted_mk (by omega) (by omega) hexact
  | drain =>
    obtain rfl := some_inj.mp ht
    have hdrain := drain_eq (n := s.charged) hs.exact (by omega) (by omega)
    rw [hs.inuse, hdrain]
    refine accounted_mk ?_ lim.max_nonneg nofun
    exact Int.sub_self _

/-- The space in use is the sum of what the queued fragments have been charged for. -/
theorem inuse_eq_charged (h : (reassemblySystem lim).Reachable s) : s.ipr_inuse = s.charged ∧ 0 ≤ s.ipr_inuse ∧
    ((∀ fp ∈ s.ipq, fp.frags = []) → s.ipr_inuse = 0) ∧
    ∀ (pkt : Packet) (mget : Bool),
      (outcome lim s pkt mget = .refused → lim.ipr_max < s.charged + space pkt.m) ∧
      ∀ fp n, outcome lim s pkt mget = .overquota fp n →
        n = (s.settle pkt.ip.key (.overquota fp n)).charged ∧ lim.ipr_max < n + charges fp.frags := by
  have hs : Accounted lim s := by
    refine h.invariant (I := Accounted lim) ?_ fun s e t _ hs ht => hs.step ht
    rintro s rfl
    exact ⟨rfl, lim.max_nonneg, nofun⟩
  refine ⟨hs.inuse, ?_, fun hempty => ?_, fun pkt mget => ⟨fun ho => ?_, fun fp n ho => ?_⟩⟩
  · rw [hs.inuse]
    exact Int.natCast_nonneg _
  · have hzero : s.charged = 0 := by
      refine sum_eq_zero fun x hx => ?_
      obtain ⟨fp, hfp, rfl⟩ := mem_map.mp hx
      rw [hempty fp hfp]
      rfl
    rw [hs.inuse, hzero]
    rfl
  · have hacc := hs.outcome pkt mget
    rw [ho] at hacc
    exact hacc.2
  · have hacc := hs.outcome pkt mget
    rw [ho] at hacc
    exact ⟨(hs.settle hacc).inuse, hacc.2⟩

/-- The first eight bytes of a datagram. -/
def firstPacket : Packet where
  ip := ⟨5, true, 8, 0, 1, 17, 10, 11, []⟩
  m := [⟨none, 92, List.replicate 8 0⟩]
  hl_ge := by decide
  hl_lt := by decide
  off_lt := by decide
  off_mod := by decide
  len_eq := by decide
  len_lt := by decide
  is_frag := .inl rfl
  space_lt := by decide

def someLimits : Limits := ⟨2 ^ 20, 60, by decide, by decide⟩

theorem inuse_eq_charged_firstPacket :
    ∃ s, System.runFrom (step someLimits) ⟨[], 0⟩ [.frag firstPacket true] = some s ∧
      s.ipr_inuse = 256 ∧ s.ipr_inuse = s.charged := by
  have hrun : (System.runFrom (step someLimits) ⟨[], 0⟩ [.frag firstPacket true]).map
      State.ipr_inuse = some 256 := by
    decide
  obtain ⟨s, hs, hval⟩ := map_eq_some_iff.mp hrun
  exact ⟨s, hs, hval, (inuse_eq_charged (System.reachable_of_runFrom hs)).1⟩

end Steps

end Accounting

end Osf1.Reassembly
