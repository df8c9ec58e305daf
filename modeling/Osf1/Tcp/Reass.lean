import Osf1.Computation.Flow
import Osf1.Computation.Resequencing
import Osf1.Computation.Transition

/-!
# The TCP control block

The sequence variables of a connection, its sequencing queue and its socket.  An mbuf chain is the
data that it holds.
-/

set_option autoImplicit false

namespace Osf1.Tcp

open List

section Control

open Osf1.Computation

abbrev Byte := BitVec 8

/-- SRC: netinet/tcp.h:76 -/
abbrev tcp_seq := BitVec 32

section Seq

/-- SRC: netinet/tcp_seq.h:67-70 -/
def SEQ_LT (a b : tcp_seq) : Bool := (a - b).toInt < 0

def SEQ_LEQ (a b : tcp_seq) : Bool := (a - b).toInt ≤ 0

def SEQ_GT (a b : tcp_seq) : Bool := 0 < (a - b).toInt

def SEQ_GEQ (a b : tcp_seq) : Bool := 0 ≤ (a - b).toInt

end Seq

/-- SRC: netinet/tcp_fsm.h:69-83 -/
inductive State where
  | CLOSED
  | LISTEN
  | SYN_SENT
  | SYN_RECEIVED
  | ESTABLISHED
  | CLOSE_WAIT
  | FIN_WAIT_1
  | CLOSING
  | LAST_ACK
  | FIN_WAIT_2
  | TIME_WAIT
deriving DecidableEq

def State.num : State → ℕ
  | CLOSED => 0
  | LISTEN => 1
  | SYN_SENT => 2
  | SYN_RECEIVED => 3
  | ESTABLISHED => 4
  | CLOSE_WAIT => 5
  | FIN_WAIT_1 => 6
  | CLOSING => 7
  | LAST_ACK => 8
  | FIN_WAIT_2 => 9
  | TIME_WAIT => 10

/-- SRC: netinet/tcp_fsm.h:85-86 -/
def TCPS_HAVERCVDSYN (s : State) : Bool := State.SYN_RECEIVED.num ≤ s.num

def TCPS_HAVERCVDFIN (s : State) : Bool := State.TIME_WAIT.num ≤ s.num

/-- A segment with what the sequencing queue uses of its header: `th_fin` is the flag `TH_FIN` in
`ti_flags`, and `m` the data.
SRC: netinet/tcpip.h:66-109 -/
structure Tcpiphdr where
  ti_seq : tcp_seq
  ti_len : ℕ
  th_fin : Bool
  m : List Byte
deriving DecidableEq

/-- The control block: the sequencing queue from `seg_next` on, and of `t_flags` those for the
acknowledgements.
SRC: netinet/tcp_var.h:78-164 -/
structure Tcpcb where
  seg : List Tcpiphdr
  t_state : State
  tf_acknow : Bool
  tf_delack : Bool
  rcv_nxt : tcp_seq
deriving DecidableEq

/-- The socket: `SS_CANTRCVMORE` and what is in the receive buffer.
SRC: sys/socketvar.h:128-146 and 175 -/
structure Socket where
  cantrcvmore : Bool
  so_rcv : List Byte
deriving DecidableEq

/-- The rest of the control block.  The timers are those of `TCPT_REXMT`, `TCPT_PERSIST`, `TCPT_KEEP`
and `TCPT_2MSL`, and `template` is whether `t_template` has been filled in.
SRC: netinet/tcp_var.h:86-164, netinet/tcp_timer.h:69-72 -/
structure Tcb extends Tcpcb where
  t_rexmt : ℤ
  t_persist : ℤ
  t_keep : ℤ
  t_2msl : ℤ
  t_rxtshift : ℕ
  t_rxtcur : ℤ
  t_dupacks : ℤ
  t_maxseg : ℕ
  t_force : Bool
  tf_nodelay : Bool
  tf_noopt : Bool
  tf_sentfin : Bool
  tf_req_scale : Bool
  tf_rcvd_scale : Bool
  template : Bool
  t_softerror : ℕ
  snd_una : tcp_seq
  snd_nxt : tcp_seq
  snd_up : tcp_seq
  snd_wl1 : tcp_seq
  snd_wl2 : tcp_seq
  iss : tcp_seq
  snd_wnd : tcp_seq
  rcv_wnd : tcp_seq
  rcv_up : tcp_seq
  irs : tcp_seq
  rcv_adv : tcp_seq
  snd_max : tcp_seq
  snd_cwnd : tcp_seq
  snd_ssthresh : tcp_seq
  t_idle : ℤ
  t_rtt : ℤ
  t_rtseq : tcp_seq
  t_srtt : ℤ
  t_rttvar : ℤ
  t_rttmin : ℤ
  max_rcvd : tcp_seq
  max_sndwnd : tcp_seq
  snd_scale : ℕ
  rcv_scale : ℕ
  request_r_scale : ℕ
  requested_s_scale : ℕ
  t_oob : Bool
  t_iobc : Byte
deriving DecidableEq

/-- The rest of the socket: of `so_state` the bits `SS_CANTSENDMORE`, `SS_ISCONNECTED`, `SS_NOFDREF`
and `SS_RCVATMARK`, of `so_options` `SO_OOBINLINE` and `SO_KEEPALIVE`, the size of the receive
buffer, and what is in the send buffer.
SRC: sys/socketvar.h:101-196 -/
structure Sock extends Socket where
  cantsendmore : Bool
  isconnected : Bool
  nofdref : Bool
  rcvatmark : Bool
  oobinline : Bool
  keepalive : Bool
  so_error : ℕ
  so_oobmark : BitVec 64
  rcv_hiwat : ℕ
  so_snd : List Byte
deriving DecidableEq

section Kernel

/-- SRC: bsd/subr_xxx.c:122-128 -/
def min (a b : BitVec 32) : BitVec 32 := if a < b then a else b

/-- A value that is stored in a `short`. -/
def short (x : ℤ) : ℤ := (BitVec.ofInt 16 x).toInt

/-- SRC: netinet/tcp_timer.h:152-158 -/
def TCPT_RANGESET (value tvmin tvmax : ℤ) : ℤ :=
  if short value < tvmin then tvmin else if tvmax < short value then tvmax else short value

/-- SRC: netinet/tcp.h:121-123 -/
def TCP_MAXWIN : ℕ := 65535

def TCP_MAX_WINSHIFT : ℕ := 14

/-- SRC: sys/protosw.h:109, netinet/tcp_timer.h:119-139 -/
def PR_SLOWHZ : ℤ := 2

def TCPTV_MSL : ℤ := 30 * PR_SLOWHZ

def TCPTV_PERSMIN : ℤ := 5 * PR_SLOWHZ

def TCPTV_PERSMAX : ℤ := 60 * PR_SLOWHZ

def TCPTV_KEEP_INIT : ℤ := 75 * PR_SLOWHZ

def TCPTV_REXMTMAX : ℤ := 64 * PR_SLOWHZ

def TCP_MAXRXTSHIFT : ℕ := 12

/-- SRC: netinet/tcp_input.c:81 -/
def tcprexmtthresh : ℤ := 3

end Kernel

/-- SRC: bsd/uipc_socket2.c:836-861 -/
def sbappend (sb m : List Byte) : List Byte := sb ++ m

end Control

/-!
## The TCP sequencing queue

`tcp_reass` queues a segment and presents to the user what continues the data received.  The macro
`TCP_REASS` does the common case inline.  The data comes from a peer that sends one stream.
-/

section Reass

open Osf1.Computation

section Queue

/-- How far a segment reaches beyond a sequence number.
SRC: netinet/tcp_input.c:213 and 252 -/
def Tcpiphdr.reach (q : Tcpiphdr) (seq : tcp_seq) : ℤ := (q.ti_seq + BitVec.ofNat 32 q.ti_len - seq).toInt

/-- Take bytes off the front of a segment.
SRC: netinet/tcp_input.c:223-225 and 256-258 -/
def Tcpiphdr.adj (q : Tcpiphdr) (i : ℤ) : Tcpiphdr :=
  { q with
    ti_seq := q.ti_seq + BitVec.ofInt 32 i
    ti_len := q.ti_len - i.toNat
    m := q.m.drop i.toNat }

/-- If there is a preceding segment, it may provide some of our data already.
SRC: netinet/tcp_input.c:201-226 -/
def trimFront (prev : Option Tcpiphdr) (ti : Tcpiphdr) : Option Tcpiphdr :=
  match prev with
  | none => some ti
  | some q =>
    let i := q.reach ti.ti_seq
    if 0 < i then
      if ti.ti_len ≤ i then none else some (ti.adj i)
    else some ti

/-- While we overlap succeeding segments trim them or, if they are completely covered, dequeue them.
SRC: netinet/tcp_input.c:240-282 -/
def trimFollowing (ti : Tcpiphdr) : List Tcpiphdr → List Tcpiphdr
  | [] => []
  | q :: qs =>
    let i := ti.reach q.ti_seq
    if i ≤ 0 then q :: qs
    else if i < q.ti_len then q.adj i :: qs
    else trimFollowing ti qs

/-- The segments before the first one that begins after this one does, and the others.
SRC: netinet/tcp_input.c:179-195 -/
def before (ti : Tcpiphdr) (seg : List Tcpiphdr) : List Tcpiphdr :=
  seg.takeWhile fun q => !SEQ_GT q.ti_seq ti.ti_seq

def after (ti : Tcpiphdr) (seg : List Tcpiphdr) : List Tcpiphdr := seg.dropWhile fun q => !SEQ_GT q.ti_seq ti.ti_seq

/-- Stick a new segment in its place, unless it has nothing new.
SRC: netinet/tcp_input.c:176-293 -/
def enqueue (seg : List Tcpiphdr) (ti : Tcpiphdr) : Option (List Tcpiphdr) :=
  (trimFront (before ti seg).getLast? ti).map fun new =>
    before ti seg ++ new :: trimFollowing new (after ti seg)

end Queue

section Present

/-- The loop over the segments that are next: `rcv_nxt`, the receive buffer, the flags of the last
segment and what stays queued.
SRC: netinet/tcp_input.c:313-341 -/
def presentLoop (cantrcvmore : Bool) : tcp_seq → List Byte → Bool → List Tcpiphdr →
    tcp_seq × List Byte × Bool × List Tcpiphdr
  | rcv_nxt, sb, flags, [] => (rcv_nxt, sb, flags, [])
  | rcv_nxt, sb, flags, ti :: seg =>
    if ti.ti_seq = rcv_nxt then
      presentLoop cantrcvmore (rcv_nxt + BitVec.ofNat 32 ti.ti_len)
        (if cantrcvmore then sb else sbappend sb ti.m) ti.th_fin seg
    else (rcv_nxt, sb, flags, ti :: seg)

/-- Whether there is something to present.  Data waits in `SYN_RECEIVED`.
SRC: netinet/tcp_input.c:300-312 -/
def presents (tp : Tcpcb) : Bool :=
  TCPS_HAVERCVDSYN tp.t_state &&
    match tp.seg with
    | [] => false
    | ti :: _ => ti.ti_seq == tp.rcv_nxt && !(tp.t_state == .SYN_RECEIVED && ti.ti_len != 0)

/-- SRC: netinet/tcp_input.c:295-343 -/
def present (tp : Tcpcb) (so : Socket) : Tcpcb × Socket × Bool :=
  if presents tp then
    let (rcv_nxt, sb, flags, seg) := presentLoop so.cantrcvmore tp.rcv_nxt so.so_rcv false tp.seg
    ({ tp with rcv_nxt := rcv_nxt, seg := seg }, { so with so_rcv := sb }, flags)
  else (tp, so, false)

/-- Insert a segment into the sequencing queue, or with none force queued data up to the user.
The flag is `TH_FIN` in what is returned.
SRC: netinet/tcp_input.c:157-343 -/
def tcp_reass (tp : Tcpcb) (so : Socket) : Option Tcpiphdr → Tcpcb × Socket × Bool
  | none => present tp so
  | some ti =>
    match enqueue tp.seg ti with
    | none => (tp, so, false)
    | some seg => present { tp with seg := seg } so

/-- The segment is the next to be received on an established connection and the queue is empty. -/
def inline (tp : Tcpcb) (ti : Tcpiphdr) : Bool :=
  ti.ti_seq == tp.rcv_nxt && tp.seg.isEmpty && tp.t_state == .ESTABLISHED

/-- SRC: netinet/tcp_input.c:135-154 -/
def TCP_REASS (tp : Tcpcb) (so : Socket) (ti : Tcpiphdr) : Tcpcb × Socket × Bool :=
  if inline tp ti then
    ({ tp with tf_delack := true, rcv_nxt := tp.rcv_nxt + BitVec.ofNat 32 ti.ti_len },
      { so with so_rcv := sbappend so.so_rcv ti.m }, ti.th_fin)
  else
    let (tp, so, flags) := tcp_reass tp so (some ti)
    ({ tp with tf_acknow := true }, so, flags)

end Present

section Connection

/-- The state that a FIN from the peer leads to.
SRC: netinet/tcp_input.c:1366-1405 -/
def State.finReceived : State → State
  | .SYN_RECEIVED | .ESTABLISHED => .CLOSE_WAIT
  | .FIN_WAIT_1 => .CLOSING
  | .FIN_WAIT_2 => .TIME_WAIT
  | s => s

/-- The state that a close of the user leads to, as long as the control block stays.
SRC: netinet/tcp_usrreq.c:597-625 -/
def State.usrclosed : State → State
  | .SYN_RECEIVED | .ESTABLISHED => .FIN_WAIT_1
  | .CLOSE_WAIT => .LAST_ACK
  | s => s

/-- The state that an acknowledgement of our FIN leads to, as long as the control block stays.
SRC: netinet/tcp_input.c:1196-1240 -/
def State.finAcked : State → State
  | .FIN_WAIT_1 => .FIN_WAIT_2
  | .CLOSING => .TIME_WAIT
  | s => s

/-- What tcp_input does with the text and the FIN of a segment.
SRC: netinet/tcp_input.c:1330-1408 -/
def dodata (tp : Tcpcb) (so : Socket) (ti : Tcpiphdr) : Tcpcb × Socket × Bool :=
  if (ti.ti_len ≠ 0 ∨ ti.th_fin) ∧ TCPS_HAVERCVDFIN tp.t_state = false then
    let (tp, so, flags) := TCP_REASS tp so ti
    if flags then
      let received :=
        if TCPS_HAVERCVDFIN tp.t_state then (tp, so)
        else ({ tp with tf_acknow := true, rcv_nxt := tp.rcv_nxt + 1 }, { so with cantrcvmore := true })
      ({ received.1 with t_state := tp.t_state.finReceived }, received.2, true)
    else (tp, so, false)
  else (tp, so, false)

/-- The stream of a peer: its initial sequence number, its bytes, and where its FIN is, if it sends
one. -/
structure Peer where
  irs : tcp_seq
  byte : ℕ → Byte
  fin : Option ℕ

/-- The bytes of the stream from a position on. -/
def Peer.bytes (peer : Peer) (start len : ℕ) : List Byte := (List.range' start len).map peer.byte

/-- The segment with a part of the stream, and with the FIN or without. -/
def Peer.segment (peer : Peer) (start len : ℕ) (fin : Bool) : Tcpiphdr where
  ti_seq := Serial.number (peer.irs + 1) start
  ti_len := len
  th_fin := fin
  m := peer.bytes start len

/-- The stream has such a segment. -/
def Peer.Sends (peer : Peer) (start len : ℕ) (fin : Bool) : Prop :=
  len < 2 ^ 16 ∧ (fin = true → peer.fin = some (start + len)) ∧ ∀ f ∈ peer.fin, start + len ≤ f

instance (peer : Peer) (start len : ℕ) (fin : Bool) : Decidable (peer.Sends start len fin) :=
  inferInstanceAs (Decidable (_ ∧ _ ∧ _))

/-- A connection.  `taken` is what the user has taken from the receive buffer.  The others record
how far `rcv_nxt` has moved, how often `TH_FIN` has been returned, and whether a segment has carried
the FIN. -/
structure Conn where
  tp : Tcpcb
  so : Socket
  taken : List Byte
  moved : ℕ
  finReturned : ℕ
  finCarried : Bool
deriving DecidableEq

/-- What is passed to a connection: a segment of the stream that is in the window, an acknowledgement
of our SYN or of our FIN, and what the user does. -/
inductive Event where
  | segment (start len : ℕ) (fin : Bool) (rcv_wnd : ℕ)
  | ackSyn
  | ackFin
  | usrclosed
  | sorflush
  | soreceive (n : ℕ)
deriving DecidableEq

/-- The segment starts at `rcv_nxt` or beyond and ends in the window, which is a positive int. -/
def InWindow (c : Conn) (start len rcv_wnd : ℕ) : Prop :=
  c.moved ≤ start ∧ start + len ≤ c.moved + rcv_wnd ∧ rcv_wnd < 2 ^ 31

instance (c : Conn) (start len rcv_wnd : ℕ) : Decidable (InWindow c start len rcv_wnd) :=
  inferInstanceAs (Decidable (_ ∧ _ ∧ _))

/-- The connection after a call has returned. -/
def Conn.returned (c : Conn) (fin : Bool) (r : Tcpcb × Socket × Bool) : Conn :=
  { c with
    tp := r.1
    so := r.2.1
    moved := c.moved + (r.1.rcv_nxt - c.tp.rcv_nxt).toNat
    finReturned := c.finReturned + r.2.2.toNat
    finCarried := c.finCarried || fin }

/-- One event.  On the acknowledgement of our SYN what `tcp_reass` returns is thrown away.
SRC: netinet/tcp_input.c:1010-1036, bsd/uipc_socket.c:1167-1210 -/
def step (peer : Peer) (c : Conn) : Event → Option Conn
  | .segment start len fin rcv_wnd =>
    if peer.Sends start len fin ∧ InWindow c start len rcv_wnd then
      some (c.returned fin (dodata c.tp c.so (peer.segment start len fin)))
    else none
  | .ackSyn =>
    if c.tp.t_state = .SYN_RECEIVED then
      some (c.returned false (tcp_reass { c.tp with t_state := .ESTABLISHED } c.so none))
    else none
  | .ackFin => some { c with tp := { c.tp with t_state := c.tp.t_state.finAcked } }
  | .usrclosed => some { c with tp := { c.tp with t_state := c.tp.t_state.usrclosed } }
  | .sorflush =>
    some { c with so := { cantrcvmore := true, so_rcv := [] }, taken := c.taken ++ c.so.so_rcv }
  | .soreceive n =>
    some { c with
      so := { c.so with so_rcv := c.so.so_rcv.drop n }
      taken := c.taken ++ c.so.so_rcv.take n }

/-- A connection on which the SYN of the peer has been received, ours being acknowledged or not.
SRC: netinet/tcp_seq.h:77-78 -/
def Conn.start (peer : Peer) (acked : Bool) : Conn where
  tp :=
    { seg := []
      t_state := if acked then .ESTABLISHED else .SYN_RECEIVED
      tf_acknow := true
      tf_delack := false
      rcv_nxt := peer.irs + 1 }
  so := { cantrcvmore := false, so_rcv := [] }
  taken := []
  moved := 0
  finReturned := 0
  finCarried := false

def connSystem (peer : Peer) (acked : Bool) : System Conn Event := System.ofFun (Conn.start peer acked) (step peer)

end Connection

end Reass

/-!
## The sequencing queue in positions of the stream

As long as all segments are less than half of the sequence space apart, the queue of segments does
what a queue of pieces of the stream does, whatever the initial sequence number is.
-/

section Positions

open Osf1.Computation
open Osf1.Computation.Resequencing (Piece Ordered)

variable {peer : Peer} {n hi : ℕ} {p q : Piece} {ps : List Piece}

/-- The segment with a piece of the stream. -/
def Peer.seg (peer : Peer) (p : Piece) : Tcpiphdr := peer.segment p.start p.len p.last

/-- The piece is between two positions. -/
def Between (n hi : ℕ) (p : Piece) : Prop := n ≤ p.start ∧ p.stop ≤ hi

section Bytes

theorem Peer.bytes_length (peer : Peer) (start len : ℕ) : (peer.bytes start len).length = len := by
  rw [Peer.bytes, length_map, length_range']

theorem Peer.bytes_append (peer : Peer) (start len len' : ℕ) :
    peer.bytes start len ++ peer.bytes (start + len) len' = peer.bytes start (len + len') := by
  rw [Peer.bytes, Peer.bytes, Peer.bytes, ← map_append, ← range'_append_1]

theorem Peer.bytes_drop (peer : Peer) (start len i : ℕ) :
    (peer.bytes start len).drop i = peer.bytes (start + i) (len - i) := by
  rw [Peer.bytes, Peer.bytes, ← map_drop, drop_range', Nat.mul_one]

end Bytes

section Compare

theorem seg_end (p : Piece) :
    (peer.seg p).ti_seq + BitVec.ofNat 32 (peer.seg p).ti_len = Serial.number (peer.irs + 1) p.stop :=
  Serial.number_add ..

variable (peer) in
theorem seq_gt (hhi : hi < n + 2 ^ 31) (hp : Between n hi p) (hq : Between n hi q) :
    SEQ_GT (peer.seg q).ti_seq (peer.seg p).ti_seq = decide (p.start < q.start) := by
  unfold Between Piece.stop at hp hq
  have heq : ((peer.seg q).ti_seq - (peer.seg p).ti_seq).toInt = (q.start : ℤ) - p.start :=
    Serial.toInt_number_sub (by omega) (by omega) (by omega)
  rw [SEQ_GT, heq, decide_eq_decide]
  omega

theorem seg_reach (hhi : hi < n + 2 ^ 31) (hp : Between n hi p) (hq : Between n hi q) :
    (peer.seg q).reach (peer.seg p).ti_seq = (q.stop : ℤ) - p.start := by
  have hstart : p.start ≤ p.stop ∧ q.start ≤ q.stop := ⟨Nat.le_add_right .., Nat.le_add_right ..⟩
  unfold Between at hp hq
  rw [Tcpiphdr.reach, seg_end]
  exact Serial.toInt_number_sub (by omega) (by omega) (by omega)

theorem seg_adj {m : ℕ} (hlow : p.start ≤ m) (hhigh : m ≤ p.stop) :
    (peer.seg p).adj ((m : ℤ) - p.start) = peer.seg (p.from m) := by
  have hi : (m : ℤ) - p.start = ((m - p.start : ℕ) : ℤ) := by omega
  have hm : p.start + (m - p.start) = m := by omega
  have hlen : p.len - (m - p.start) = p.stop - m := by
    unfold Piece.stop at *
    omega
  have hseq : (peer.seg p).ti_seq + BitVec.ofInt 32 ((m - p.start : ℕ) : ℤ) =
      Serial.number (peer.irs + 1) m := by
    exact (Serial.number_add ..).trans (by rw [hm])
  have hbytes : (peer.seg p).m.drop (m - p.start) = peer.bytes m (p.stop - m) := by
    exact (Peer.bytes_drop ..).trans (by rw [hm, hlen])
  rw [Tcpiphdr.adj, hi, Int.toNat_natCast, hseq, hbytes]
  show Tcpiphdr.mk _ (p.len - (m - p.start)) _ _ = _
  rw [hlen]
  rfl

end Compare

section Simulation

theorem trimFront_seg (hhi : hi < n + 2 ^ 31) (hp : Between n hi p) {prev : Option Piece}
    (hprev : ∀ b, prev = some b → Between n hi b ∧ b.start ≤ p.start) :
    trimFront (prev.map peer.seg) (peer.seg p) =
      (Resequencing.trimFront prev p).map peer.seg := by
  cases prev with
  | none => rfl
  | some b =>
    obtain ⟨hb, hstart⟩ := hprev b rfl
    have hlen : ((peer.seg p).ti_len : ℤ) = (p.stop : ℤ) - p.start := by
      show (p.len : ℤ) = ((p.start + p.len : ℕ) : ℤ) - p.start
      omega
    show (if 0 < (peer.seg b).reach (peer.seg p).ti_seq then
        if (peer.seg p).ti_len ≤ (peer.seg b).reach (peer.seg p).ti_seq then none
        else some ((peer.seg p).adj ((peer.seg b).reach (peer.seg p).ti_seq))
      else some (peer.seg p)) = Option.map peer.seg
        (if p.start < b.stop then if p.stop ≤ b.stop then none else some (p.from b.stop)
        else some p)
    rw [seg_reach hhi hp hb, hlen]
    by_cases hlt : p.start < b.stop
    · rw [if_pos (by omega), if_pos hlt]
      by_cases hle : p.stop ≤ b.stop
      · rw [if_pos (by omega), if_pos hle]
        rfl
      · rw [if_neg (by omega), if_neg hle, seg_adj (Nat.le_of_lt hlt) (Nat.le_of_not_le hle)]
        rfl
    · rw [if_neg (by omega), if_neg hlt]
      rfl

variable (peer) in
theorem trimFollowing_seg (hhi : hi < n + 2 ^ 31) (hp : Between n hi p) (hps : ∀ q ∈ ps, Between n hi q) :
    trimFollowing (peer.seg p) (ps.map peer.seg) =
      (Resequencing.trimFollowing p.stop ps).map peer.seg := by
  induction ps with
  | nil => rfl
  | cons q qs ih =>
    have hq := hps q (mem_cons_self ..)
    have hlen : ((peer.seg q).ti_len : ℤ) = (q.stop : ℤ) - q.start := by
      show (q.len : ℤ) = ((q.start + q.len : ℕ) : ℤ) - q.start
      omega
    rw [map_cons, trimFollowing, Resequencing.trimFollowing]
    simp only [seg_reach hhi hq hp, hlen]
    by_cases hle : p.stop ≤ q.start
    · rw [if_pos (by omega), if_pos hle]
      rfl
    · rw [if_neg (by omega), if_neg hle]
      by_cases hlt : p.stop < q.stop
      · rw [if_pos (by omega), if_pos hlt, seg_adj (Nat.le_of_not_le hle) (Nat.le_of_lt hlt)]
        rfl
      · rw [if_neg (by omega), if_neg hlt]
        exact ih fun r hr => hps r (mem_cons_of_mem _ hr)

variable (peer) in
theorem scan_seg (hhi : hi < n + 2 ^ 31) (hp : Between n hi p) (hps : ∀ q ∈ ps, Between n hi q) :
    before (peer.seg p) (ps.map peer.seg) = (Resequencing.before p ps).map peer.seg ∧
      after (peer.seg p) (ps.map peer.seg) = (Resequencing.after p ps).map peer.seg := by
  unfold before after Resequencing.before Resequencing.after
  induction ps with
  | nil => exact ⟨rfl, rfl⟩
  | cons q qs ih =>
    have hgt := seq_gt peer hhi hp (hps q (mem_cons_self ..))
    have htail := ih fun r hr => hps r (mem_cons_of_mem _ hr)
    have hscan : (!SEQ_GT (peer.seg q).ti_seq (peer.seg p).ti_seq) = decide (q.start ≤ p.start) := by
      rw [hgt, ← decide_not, decide_eq_decide]
      omega
    simp only [map_cons, takeWhile_cons, dropWhile_cons, hscan, htail.1, htail.2]
    split_ifs
    · exact ⟨rfl, rfl⟩
    · exact ⟨rfl, rfl⟩

variable (peer) in
theorem enqueue_seg (hhi : hi < n + 2 ^ 31) (hp : Between n hi p) (hps : ∀ q ∈ ps, Between n hi q)
    (hord : Ordered n ps) :
    enqueue (ps.map peer.seg) (peer.seg p) =
      (Resequencing.enqueue ps p).map (List.map peer.seg) := by
  obtain ⟨hbefore, hafter⟩ := scan_seg peer hhi hp hps
  have hprev : ∀ b, (Resequencing.before p ps).getLast? = some b →
      Between n hi b ∧ b.start ≤ p.start := by
    intro b hb
    obtain ⟨hmem, hstart⟩ := Resequencing.prev_spec hord hb
    exact ⟨hps b hmem, hstart⟩
  rw [enqueue, Resequencing.enqueue, hbefore, hafter, getLast?_map, trimFront_seg hhi hp hprev]
  cases hfront : Resequencing.trimFront (Resequencing.before p ps).getLast? p with
  | none => rfl
  | some p' =>
    have hpart := Resequencing.trimFront_isPart (fun b hb => (hprev b hb).2) hfront
    have hp' : Between n hi p' := ⟨hp.1.trans hpart.start_le, hpart.stop_eq ▸ hp.2⟩
    have hlater : ∀ q ∈ Resequencing.after p ps, Between n hi q := fun q hq =>
      hps q (hord.mem_after.mp hq).1
    have hfollow := trimFollowing_seg peer hhi hp' hlater
    show some (_ ++ peer.seg p' :: trimFollowing (peer.seg p') _) = some (map peer.seg _)
    rw [hfollow, map_append, map_cons]

variable (peer) in
theorem presentLoop_seg (hhi : hi < n + 2 ^ 31) (hps : ∀ q ∈ ps, q.stop ≤ hi) (hord : Ordered n ps)
    (hn : n ≤ hi) (cantrcvmore : Bool) (sb : List Byte) (flags : Bool) :
    presentLoop cantrcvmore (Serial.number (peer.irs + 1) n) sb flags (ps.map peer.seg) =
      (Serial.number (peer.irs + 1) (Resequencing.take n flags ps).1,
        if cantrcvmore then sb
        else sb ++ peer.bytes n ((Resequencing.take n flags ps).1 - n),
        (Resequencing.take n flags ps).2.1, (Resequencing.take n flags ps).2.2.map peer.seg) := by
  induction ps generalizing n sb flags with
  | nil =>
    show (_, sb, flags, []) = _
    have hempty : peer.bytes n (n - n) = [] := by
      rw [Nat.sub_self]
      rfl
    simp only [Resequencing.take, hempty, append_nil, ite_self, map_nil]
  | cons q qs ih =>
    have hq := hps q (mem_cons_self ..)
    have hstop : q.stop = q.start + q.len := rfl
    have hseq : (peer.seg q).ti_seq = Serial.number (peer.irs + 1) n ↔ q.start = n := by
      have hle := hord.1
      exact Serial.number_inj (by omega) (by omega)
    rw [map_cons, presentLoop]
    by_cases hstart : q.start = n
    · have htake : Resequencing.take n flags (q :: qs) = Resequencing.take q.stop q.last qs := if_pos hstart
      have hnext : Serial.number (peer.irs + 1) n + BitVec.ofNat 32 (peer.seg q).ti_len =
          Serial.number (peer.irs + 1) q.stop := by
        rw [← hstart]
        exact Serial.number_add ..
      have hle : q.stop ≤ (Resequencing.take q.stop q.last qs).1 := (Resequencing.take_ordered q.last hord.2).1
      have hfin : (peer.seg q).th_fin = q.last := rfl
      rw [if_pos (hseq.mpr hstart), hnext, htake, hfin]
      refine (ih (by omega) (fun r hr => hps r (mem_cons_of_mem _ hr)) hord.2 hq _ _).trans ?_
      cases cantrcvmore with
      | true => rfl
      | false =>
        have hbytes : (peer.seg q).m = peer.bytes n (q.stop - n) := by
          show peer.bytes q.start q.len = _
          rw [hstart, hstop, hstart, Nat.add_sub_cancel_left]
        have hmid : n + (q.stop - n) = q.stop := by omega
        have htotal : q.stop - n + ((Resequencing.take q.stop q.last qs).1 - q.stop) =
            (Resequencing.take q.stop q.last qs).1 - n := by omega
        have happend := peer.bytes_append n (q.stop - n)
          ((Resequencing.take q.stop q.last qs).1 - q.stop)
        rw [hmid, htotal] at happend
        simp only [sbappend, Bool.false_eq_true, if_false, append_assoc, hbytes, happend]
    · have htake : Resequencing.take n flags (q :: qs) = (n, flags, q :: qs) := if_neg hstart
      have hempty : peer.bytes n (n - n) = [] := by
        rw [Nat.sub_self]
        rfl
      rw [if_neg (mt hseq.mp hstart), htake]
      simp only [hempty, append_nil, ite_self, map_cons]

end Simulation

end Positions

end Osf1.Tcp
