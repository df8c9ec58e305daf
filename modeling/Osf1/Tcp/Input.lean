import Osf1.Errno
import Osf1.Tcp.Reass

/-!
# TCP output

`tcp_output` sends what the windows and the state ask for, one segment for each turn of its loop.
What it cannot know beforehand is given: the space that `sbspace` finds in the receive buffer, and
for each turn the route, whether mbufs can be had, and what `ip_output` returns.
-/

set_option autoImplicit false

namespace Osf1.Tcp

section Output

open Osf1.Computation

variable {ρ : Type}

/-- The panics of the functions modelled. -/
inductive Panic where
  | tcphdr_too_big
  | tcp_output
  | tcp_output_REXMT
  | m_copym
  | sbdrop
  | tcp_pulloutofband
deriving DecidableEq

section Segments

/-- What `tcp_mss` takes from the route and the interface.
SRC: netinet/tcp_input.c:1624-1776 -/
structure Mss where
  mss : ℕ
  t_maxseg : ℕ
  snd_ssthresh : tcp_seq
  t_srtt : ℤ
  t_rttvar : ℤ
  t_rttmin : ℤ
  t_rxtcur : ℤ
  rcv_hiwat : ℕ
deriving DecidableEq

/-- A turn of the loop of `tcp_output`: the route if there is one, whether `MGETHDR` and `m_copym`
find mbufs, and the error of `ip_output`. -/
structure Attempt where
  route : Option Mss
  mgethdr : Bool
  m_copym : Bool
  error : ℕ
deriving DecidableEq

/-- What a call of `tcp_output` finds: the space is an `int`. -/
structure OutputEnv where
  space : BitVec 32
  attempts : List Attempt
deriving DecidableEq

/-- A copy of data out of the send buffer: how far from `snd_una` and how much, how much there is,
the windows, and whether a byte is forced out. -/
structure Copy where
  off : ℤ
  len : ℕ
  sb_cc : ℕ
  snd_wnd : tcp_seq
  snd_cwnd : tcp_seq
  t_force : Bool
deriving DecidableEq

/-- A connection: its control block, its socket, and a record of the data it has sent.
SRC: netinet/in_pcb.h:74-96 -/
structure Inpcb where
  tp : Tcb
  so : Sock
  copies : List Copy
deriving DecidableEq

end Segments

section Helpers

/-- SRC: netinet/tcp_fsm.h:98-102 -/
def outSYN : State → Bool
  | .SYN_SENT | .SYN_RECEIVED => true
  | _ => false

def outFIN : State → Bool
  | .FIN_WAIT_1 | .CLOSING | .LAST_ACK => true
  | _ => false

def outRST : State → Bool
  | .CLOSED => true
  | _ => false

def outACK : State → Bool
  | .LISTEN | .SYN_SENT => false
  | _ => true

/-- SRC: netinet/tcp_timer.c:238-239 -/
def tcp_backoff (shift : ℕ) : ℤ := if shift < 6 then 2 ^ shift else 64

/-- SRC: netinet/tcp_output.c:564-580 -/
def tcp_setpersist (tp : Tcb) : Flow Panic ρ Tcb :=
  let t := (tp.t_srtt / 4 + tp.t_rttvar) / 2
  if tp.t_rexmt ≠ 0 then .panic .tcp_output_REXMT
  else
    .go
      { tp with
        t_persist := TCPT_RANGESET (t * tcp_backoff tp.t_rxtshift) TCPTV_PERSMIN TCPTV_PERSMAX
        t_rxtshift := if tp.t_rxtshift < TCP_MAXRXTSHIFT then tp.t_rxtshift + 1 else tp.t_rxtshift }

/-- SRC: netinet/tcp_subr.c:525-533 -/
def tcp_quench (tp : Tcb) : Tcb := { tp with snd_cwnd := BitVec.ofNat 32 tp.t_maxseg }

/-- Without a route nothing is set.
SRC: netinet/tcp_input.c:1651-1776 -/
def tcp_mss (route : Option Mss) (p : Inpcb) : Inpcb :=
  match route with
  | none => p
  | some r =>
    { p with
      tp :=
        { p.tp with
          t_maxseg := r.t_maxseg
          snd_cwnd := BitVec.ofNat 32 r.mss
          snd_ssthresh := r.snd_ssthresh
          t_srtt := r.t_srtt
          t_rttvar := r.t_rttvar
          t_rttmin := r.t_rttmin
          t_rxtcur := r.t_rxtcur }
      so := { p.so with rcv_hiwat := r.rcv_hiwat } }

end Helpers

section Turn

variable (p : Inpcb)

/-- How far `snd_nxt` is from `snd_una`.
SRC: netinet/tcp_output.c:139 -/
def sendOff : ℤ := (p.tp.snd_nxt - p.tp.snd_una).toInt

/-- The window to send into, one byte if it is closed and a byte is forced out.
SRC: netinet/tcp_output.c:140-156 -/
def sendWin : ℕ :=
  let win := (min p.tp.snd_wnd p.tp.snd_cwnd).toNat
  if p.tp.t_force ∧ win = 0 then 1 else win

/-- SRC: netinet/tcp_output.c:148-156 -/
def leavePersist : Tcb :=
  if p.tp.t_force ∧ min p.tp.snd_wnd p.tp.snd_cwnd ≠ 0 then
    { p.tp with t_persist := 0, t_rxtshift := 0 }
  else p.tp

/-- SRC: netinet/tcp_output.c:161 -/
def sendRest : ℤ := (p.so.so_snd.length : ℤ) ⊓ sendWin p - sendOff p

/-- If the window shrank to 0, cancel pending retransmit and pull `snd_nxt` back.
SRC: netinet/tcp_output.c:163-179 -/
def pullBack : Tcb :=
  if sendRest p < 0 ∧ sendWin p = 0 then
    { leavePersist p with t_rexmt := 0, snd_nxt := p.tp.snd_una }
  else leavePersist p

/-- The length of the segment, and whether there is more.
SRC: netinet/tcp_output.c:173 and 180-183 -/
def sendLen : ℕ := if p.tp.t_maxseg < sendRest p then p.tp.t_maxseg else (sendRest p).toNat

def sendalot : Bool := p.tp.t_maxseg < sendRest p

/-- The FIN is sent if the segment goes to the end of the buffer.
SRC: netinet/tcp_output.c:184-185 -/
def sendFin (tp : Tcb) (len : ℕ) : Bool :=
  outFIN tp.t_state &&
    !SEQ_LT (tp.snd_nxt + BitVec.ofNat 32 len) (tp.snd_una + BitVec.ofNat 32 p.so.so_snd.length)

/-- Sender silly window avoidance.
SRC: netinet/tcp_output.c:199-210 -/
def dataWanted (idle : Bool) (tp : Tcb) (len : ℕ) : Bool :=
  len ≠ 0 ∧
    (len = tp.t_maxseg ∨ (idle ∨ tp.tf_nodelay) ∧ (p.so.so_snd.length : ℤ) ≤ len + sendOff p ∨ tp.t_force ∨
      tp.max_sndwnd.toNat / 2 ≤ len ∨ SEQ_LT tp.snd_nxt tp.snd_max)

/-- The increase of the window, which is computed in an `u_int`.
SRC: netinet/tcp_output.c:225-226 -/
def windowIncrease (space : ℤ) : ℕ :=
  (BitVec.ofInt 32 (space ⊓ (TCP_MAXWIN * 2 ^ p.tp.rcv_scale : ℕ)) - (p.tp.rcv_adv - p.tp.rcv_nxt)).toNat

/-- SRC: netinet/tcp_output.c:220-239 -/
def windowWanted (space : ℤ) : Bool :=
  0 < space ∧ 0 < windowIncrease p space ∧
    (2 * p.tp.t_maxseg ≤ windowIncrease p space ∨ p.so.rcv_hiwat ≤ 2 * windowIncrease p space ∨
      p.tp.t_maxseg < p.tp.max_rcvd.toNat ∧ p.tp.max_rcvd.toNat < 2 * windowIncrease p space)

/-- SRC: netinet/tcp_output.c:244-258 -/
def controlWanted (tp : Tcb) (fin : Bool) : Bool :=
  tp.tf_acknow || outSYN tp.t_state || outRST tp.t_state || SEQ_GT tp.snd_up tp.snd_una ||
    fin && (!tp.tf_sentfin || tp.snd_nxt == tp.snd_una)

end Turn

section Send

/-- The size of an mbuf with a packet header, the TCP/IP header, and the largest link-level header,
which leaves room for the options of a SYN.
SRC: sys/mbuf.h:86-107, netinet/tcp_output.c:290-315 -/
def MHLEN : ℕ := 168

def tcpiphdrLen : ℕ := 40

structure Config where
  max_linkhdr : ℕ
  fits : max_linkhdr + (tcpiphdrLen + 8) ≤ MHLEN
  tcp_compat_42 : Bool
  tcp_urgent_42 : Bool

variable (cfg : Config)

/-- The options of a SYN.
SRC: netinet/tcp_output.c:291-315 -/
def optlen (tp : Tcb) : ℕ :=
  if outSYN tp.t_state ∧ tp.tf_noopt = false then
    if tp.tf_req_scale ∧ (outACK tp.t_state = false ∨ tp.tf_rcvd_scale) then 8 else 4
  else 0

/-- What is left of the length when the data has been copied.
SRC: netinet/tcp_output.c:345-370 -/
def copyData (a : Attempt) (off : ℤ) (len : ℕ) (p : Inpcb) : Flow Panic ρ (ℕ × Inpcb) :=
  if len = 0 then .go (0, p)
  else if off < 0 ∨ (p.so.so_snd.length : ℤ) < off + len then .panic .m_copym
  else
    let sent : Copy := ⟨off, len, p.so.so_snd.length, p.tp.snd_wnd, p.tp.snd_cwnd, p.tp.t_force⟩
    let p := { p with copies := p.copies ++ [sent] }
    if len ≤ MHLEN - (tcpiphdrLen + optlen p.tp) - cfg.max_linkhdr ∨ a.m_copym then .go (len, p)
    else .go (0, p)

/-- If resending a FIN, be sure not to use a new sequence number.  The urgent pointer is pulled to
the left edge of the window when it is not sent.
SRC: netinet/tcp_output.c:409-445 -/
def fillHeader (fin : Bool) (tp : Tcb) : Tcb :=
  let tp :=
    if fin ∧ tp.tf_sentfin ∧ tp.snd_nxt = tp.snd_max then { tp with snd_nxt := tp.snd_nxt - 1 }
    else tp
  if SEQ_GT tp.snd_up tp.snd_nxt then tp else { tp with snd_up := tp.snd_una }

/-- Advance `snd_nxt` over sequence space of this segment.
SRC: netinet/tcp_output.c:467-489 -/
def advance (fin : Bool) (len : ℕ) (tp : Tcb) : Tcb :=
  let startseq := tp.snd_nxt
  let tp := if outSYN tp.t_state then { tp with snd_nxt := tp.snd_nxt + 1 } else tp
  let tp := if fin then { tp with snd_nxt := tp.snd_nxt + 1, tf_sentfin := true } else tp
  let tp := { tp with snd_nxt := tp.snd_nxt + BitVec.ofNat 32 len }
  if SEQ_GT tp.snd_nxt tp.snd_max then
    let tp := { tp with snd_max := tp.snd_nxt }
    if tp.t_rtt = 0 then { tp with t_rtt := 1, t_rtseq := startseq } else tp
  else tp

/-- SRC: netinet/tcp_output.c:491-506 -/
def startRexmt (tp : Tcb) : Tcb :=
  if tp.t_rexmt = 0 ∧ tp.snd_nxt ≠ tp.snd_una then
    let tp := { tp with t_rexmt := tp.t_rxtcur }
    if tp.t_persist ≠ 0 then { tp with t_persist := 0, t_rxtshift := 0 } else tp
  else tp

/-- In transmit state, time the transmission and arrange for the retransmit.  In persist state, just
set `snd_max`.
SRC: netinet/tcp_output.c:458-510 -/
def account (fin : Bool) (len : ℕ) (tp : Tcb) : Tcb :=
  if tp.t_force = false ∨ tp.t_persist = 0 then startRexmt (advance fin len tp)
  else if SEQ_GT (tp.snd_nxt + BitVec.ofNat 32 len) tp.snd_max then
    { tp with snd_max := tp.snd_nxt + BitVec.ofNat 32 len }
  else tp

/-- The window that is advertised.
SRC: netinet/tcp_output.c:421-431 -/
def advertised (space : ℤ) (p : Inpcb) : ℤ :=
  let win := if space < (p.so.rcv_hiwat / 4 : ℕ) ∧ space < p.tp.t_maxseg then 0 else space
  let win := win ⊓ (TCP_MAXWIN * 2 ^ p.tp.rcv_scale : ℕ)
  let left : ℤ := (p.tp.rcv_adv - p.tp.rcv_nxt).toNat
  if win < left then left else win

/-- What is remembered of a segment that has been sent.
SRC: netinet/tcp_output.c:547-555 -/
def sentOff (win : ℤ) (tp : Tcb) : Tcb :=
  let tp :=
    if 0 < win ∧ SEQ_GT (tp.rcv_nxt + BitVec.ofInt 32 win) tp.rcv_adv then
      { tp with rcv_adv := tp.rcv_nxt + BitVec.ofInt 32 win }
    else tp
  { tp with tf_acknow := false, tf_delack := false }

/-- SRC: netinet/tcp_output.c:528-541 -/
def outError (error : ℕ) (tp : Tcb) : Tcb :=
  if error = ENOBUFS then tcp_quench tp
  else if (error = EHOSTUNREACH ∨ error = ENETDOWN) ∧ TCPS_HAVERCVDSYN tp.t_state then
    { tp with t_softerror := error }
  else tp

/-- Send a segment.  The flag tells whether it has been sent.
SRC: netinet/tcp_output.c:281-555 -/
def sendSegment (space : ℤ) (a : Attempt) (off : ℤ) (len : ℕ) (fin : Bool) (p : Inpcb) :
    Flow Panic ρ (Bool × Inpcb) := do
  let p := if outSYN p.tp.t_state ∧ p.tp.tf_noopt = false then tcp_mss a.route p else p
  if MHLEN < cfg.max_linkhdr + (tcpiphdrLen + optlen p.tp) then .panic .tcphdr_too_big
  else if a.mgethdr = false then .go (false, { p with tp := tcp_quench p.tp })
  else
    let (len, p) ← copyData cfg a off len p
    if p.tp.template = false then .panic .tcp_output
    else
      let win := advertised space p
      let tp := account fin len (fillHeader fin p.tp)
      if a.error ≠ 0 then .go (false, { p with tp := outError a.error tp })
      else .go (true, { p with tp := sentOff win tp })

/-- The loop of `tcp_output`.  When no attempt is left there are no mbufs.
SRC: netinet/tcp_output.c:137-557 -/
def tcp_output_loop (space : ℤ) (idle : Bool) : List Attempt → Inpcb → Flow Panic ρ Inpcb
  | attempts, p =>
    let off := sendOff p
    let len := sendLen p
    let more := sendalot p
    let tp := pullBack p
    let fin := sendFin p tp len
    if dataWanted p idle tp len || windowWanted p space || controlWanted tp fin then
      match attempts with
      | [] => .go { p with tp := tcp_quench tp }
      | a :: attempts => do
        let (sent, p) ← sendSegment cfg space a off len fin { p with tp := tp }
        if sent && more then tcp_output_loop space idle attempts p else .go p
    else if p.so.so_snd ≠ [] ∧ tp.t_rexmt = 0 ∧ tp.t_persist = 0 then do
      let tp ← tcp_setpersist { tp with t_rxtshift := 0 }
      .go { p with tp := tp }
    else .go { p with tp := tp }

/-- SRC: netinet/tcp_output.c:103-558 -/
def tcp_output (env : OutputEnv) (p : Inpcb) : Flow Panic ρ Inpcb :=
  let idle := p.tp.snd_max == p.tp.snd_una
  let p :=
    if idle ∧ p.tp.t_rxtcur ≤ p.tp.t_idle then
      { p with tp := { p.tp with snd_cwnd := BitVec.ofNat 32 p.tp.t_maxseg } }
    else p
  tcp_output_loop cfg env.space.toInt idle env.attempts p

end Send

end Output

/-!
## TCP input

`tcp_input` from the point where the connection is found. First the two common cases of an established
connection are tried, then the segment goes through the general path.
-/

section Input

open Osf1.Computation

variable {ρ : Type}

section Segments

/-- A segment in host order.
SRC: netinet/tcp.h:79-112, netinet/tcp_input.c:372-470 -/
structure Segment extends Tcpiphdr where
  th_syn : Bool
  th_rst : Bool
  th_urg : Bool
  th_ack : Bool
  ti_ack : tcp_seq
  ti_win : BitVec 16
  ti_urp : ℕ
deriving DecidableEq

/-- The local copy `tiflags` of the flags. -/
structure Tiflags where
  fin : Bool
  syn : Bool
  rst : Bool
  urg : Bool
  ack : Bool
deriving DecidableEq

def Segment.tiflags (ti : Segment) : Tiflags := ⟨ti.th_fin, ti.th_syn, ti.th_rst, ti.th_urg, ti.th_ack⟩

/-- An option of a SYN that is heeded. -/
inductive Opt where
  | maxseg (route : Option Mss)
  | window (shift : ℕ)
deriving DecidableEq

/-- What comes with a segment: the options, the space in the receive buffer, the next initial sequence number,
whether a listening socket can be connected, and what `tcp_output` finds for a duplicate acknowledgement, when
the connection is dropped, and in the end. -/
structure Input where
  ti : Segment
  opts : List Opt
  space : BitVec 32
  tcp_iss : tcp_seq
  listen : Bool
  dupack : OutputEnv
  out : OutputEnv
deriving DecidableEq

/-- The work on a segment. -/
structure Work where
  p : Inpcb
  ti : Segment
  fl : Tiflags
  needoutput : Bool
deriving DecidableEq

/-- The labels at which the work ends, with what is left to be done there. -/
inductive Exit where
  | done (needoutput : Bool) (p : Inpcb)
  | dropafterack (rst : Bool) (p : Inpcb)
  | drop (p : Inpcb)
  | dropwithreset (p : Inpcb)
  | tcp_drop (error : ℕ) (p : Inpcb)
  | closed
deriving DecidableEq

end Segments

section Sockets

/-- SRC: bsd/uipc_socket2.c:1089-1130 -/
def sbdrop (len : ℤ) (so : Sock) : Flow Panic ρ Sock :=
  if so.so_snd.length < len then .panic .sbdrop
  else .go { so with so_snd := so.so_snd.drop len.toNat }

/-- SRC: bsd/uipc_socket2.c:162-214 -/
def soisconnected (so : Sock) : Sock := { so with isconnected := true, cantsendmore := false, cantrcvmore := false }

def soisdisconnecting (so : Sock) : Sock := { so with cantrcvmore := true, cantsendmore := true }

def soisdisconnected (so : Sock) : Sock :=
  { so with isconnected := false, cantrcvmore := true, cantsendmore := true }

end Sockets

section Prediction

/-- Collect new round-trip time estimate and update averages and current timeout.
SRC: netinet/tcp_input.c:1561-1642 -/
def tcp_xmit_timer (tp : Tcb) : Tcb :=
  let (srtt, rttvar) :=
    if tp.t_srtt ≠ 0 then
      let delta := short (tp.t_rtt - 1 - tp.t_srtt / 8)
      let srtt := short (tp.t_srtt + delta)
      let delta := if delta < 0 then short (-delta) else delta
      let delta := short (delta - tp.t_rttvar / 4)
      let rttvar := short (tp.t_rttvar + delta)
      (if srtt ≤ 0 then 1 else srtt, if rttvar ≤ 0 then 1 else rttvar)
    else (short (tp.t_rtt * 8), short (tp.t_rtt * 2))
  { tp with
    t_srtt := srtt
    t_rttvar := rttvar
    t_rtt := 0
    t_rxtshift := 0
    t_rxtcur := TCPT_RANGESET (srtt / 8 + rttvar) tp.t_rttmin TCPTV_REXMTMAX
    t_softerror := 0 }

/-- The round-trip time is measured when the timed sequence number is acknowledged.
SRC: netinet/tcp_input.c:592-593 and 1115-1116 -/
def timeAck (ack : tcp_seq) (tp : Tcb) : Tcb :=
  if tp.t_rtt ≠ 0 ∧ SEQ_GT ack tp.t_rtseq then tcp_xmit_timer tp else tp

/-- Note the amount of data that peer has sent into our window.
SRC: netinet/tcp_input.c:655-657 and 1343-1345 -/
def noteReceived (so : Sock) (tp : Tcb) : Tcb :=
  let len := BitVec.ofNat 32 so.rcv_hiwat - (tp.rcv_adv - tp.rcv_nxt)
  if tp.max_rcvd < len then { tp with max_rcvd := len } else tp

/-- SRC: netinet/tcp_input.c:580-584 -/
def predicted (tp : Tcb) (ti : Segment) (tiwin : tcp_seq) : Bool :=
  tp.t_state = .ESTABLISHED ∧ ti.tiflags = ⟨false, false, false, false, true⟩ ∧
    ti.ti_seq = tp.rcv_nxt ∧ tiwin ≠ 0 ∧ tiwin = tp.snd_wnd ∧ tp.snd_nxt = tp.snd_max

/-- This is a pure ack for outstanding data.
SRC: netinet/tcp_input.c:585-591 -/
def predictedAck (tp : Tcb) (ti : Segment) (tiwin : tcp_seq) : Bool :=
  predicted tp ti tiwin ∧ ti.ti_len = 0 ∧ SEQ_GT ti.ti_ack tp.snd_una ∧
    SEQ_LEQ ti.ti_ack tp.snd_max ∧ tp.snd_wnd ≤ tp.snd_cwnd

/-- This is a pure, in-sequence data packet with nothing on the reassembly queue and enough space.
SRC: netinet/tcp_input.c:628-635 -/
def predictedData (tp : Tcb) (ti : Segment) (tiwin : tcp_seq) (space : BitVec 32) : Bool :=
  predicted tp ti tiwin ∧ ti.ti_len ≠ 0 ∧ ti.ti_ack = tp.snd_una ∧ tp.seg = [] ∧ ti.ti_len ≤ space.toInt

/-- If all outstanding data are acked, stop retransmit timer, otherwise restart timer.
SRC: netinet/tcp_input.c:592-616 -/
def ackFastTcb (ack : tcp_seq) (tp : Tcb) : Tcb :=
  let tp := { timeAck ack tp with snd_una := ack }
  if tp.snd_una = tp.snd_max then { tp with t_rexmt := 0 }
  else if tp.t_persist = 0 then { tp with t_rexmt := tp.t_rxtcur } else tp

/-- SRC: netinet/tcp_input.c:592-626 -/
def ackFast (p : Inpcb) (ti : Segment) : Flow Panic Exit Work := do
  let so ← sbdrop (ti.ti_ack - p.tp.snd_una).toInt p.so
  .leave (.done (so.so_snd ≠ []) { p with tp := ackFastTcb ti.ti_ack p.tp, so := so })

/-- SRC: netinet/tcp_input.c:637-659 -/
def dataFast (p : Inpcb) (ti : Segment) : Exit :=
  let tp := { p.tp with rcv_nxt := p.tp.rcv_nxt + BitVec.ofNat 32 ti.ti_len }
  let so := { p.so with so_rcv := sbappend p.so.so_rcv ti.m }
  .done false { p with tp := noteReceived so { tp with tf_delack := true }, so := so }

/-- SRC: netinet/tcp_input.c:565-661 -/
def headerPrediction (tiwin : tcp_seq) (space : BitVec 32) (w : Work) : Flow Panic Exit Work :=
  if predictedAck w.p.tp w.ti tiwin then ackFast w.p w.ti
  else if predictedData w.p.tp w.ti tiwin space then .leave (dataFast w.p w.ti)
  else .go w

end Prediction

section Trim

/-- Receive window is amount of space in rcv queue, but not less than advertised window.  `max` is
that of unsigned numbers.
SRC: netinet/tcp_input.c:671-684, bsd/subr_xxx.c:130-136 -/
def receiveWindow (space : BitVec 32) (tp : Tcb) : Tcb :=
  let win := if space.toInt < 0 then 0 else space
  let left := tp.rcv_adv - tp.rcv_nxt
  { tp with rcv_wnd := if left < win then win else left }

/-- Take a SYN off the front of a segment.
SRC: netinet/tcp_input.c:865-873 -/
def dropSyn (w : Work) : Work :=
  { w with
    ti :=
      { w.ti with
        ti_seq := w.ti.ti_seq + 1
        ti_urp := if 1 < w.ti.ti_urp then w.ti.ti_urp - 1 else w.ti.ti_urp }
    fl := { w.fl with syn := false, urg := w.fl.urg && decide (1 < w.ti.ti_urp) } }

/-- Take data off the front of a segment.
SRC: netinet/tcp_input.c:905-913 -/
def dropFront (todrop : ℤ) (w : Work) : Work :=
  { w with
    ti :=
      { w.ti with
        m := w.ti.m.drop todrop.toNat
        ti_seq := w.ti.ti_seq + BitVec.ofInt 32 todrop
        ti_len := w.ti.ti_len - todrop.toNat
        ti_urp := if todrop < w.ti.ti_urp then w.ti.ti_urp - todrop.toNat else 0 }
    fl := { w.fl with urg := w.fl.urg && decide (todrop < w.ti.ti_urp) } }

variable (cfg : Config)

/-- If the segment begins before `rcv_nxt`, drop leading data and SYN; if nothing left, just ack.
SRC: netinet/tcp_input.c:858-914 -/
def trimHead (w : Work) : Flow Panic Exit Work :=
  let todrop := (w.p.tp.rcv_nxt - w.ti.ti_seq).toInt
  if todrop ≤ 0 then .go w
  else
    let todrop := if w.fl.syn then todrop - 1 else todrop
    let w := if w.fl.syn then dropSyn w else w
    if w.ti.ti_len < todrop ∨ todrop = w.ti.ti_len ∧ w.fl.fin = false then
      if w.fl.fin ∧ todrop = w.ti.ti_len + 1 ∨ cfg.tcp_compat_42 ∧ w.fl.rst ∧ w.ti.ti_seq = w.p.tp.rcv_nxt - 1 then
        .go (dropFront w.ti.ti_len
          { w with
            p := { w.p with tp := { w.p.tp with tf_acknow := true } }
            fl := { w.fl with fin := false } })
      else .leave (.dropafterack w.fl.rst w.p)
    else .go (dropFront todrop w)

/-- Take data off the end of a segment.
SRC: netinet/tcp_input.c:970-972 -/
def dropBack (todrop : ℤ) (w : Work) : Work :=
  { w with
    ti :=
      { w.ti with
        m := w.ti.m.take (w.ti.m.length - todrop.toNat)
        ti_len := w.ti.ti_len - todrop.toNat }
    fl := { w.fl with fin := false } }

/-- If the segment ends after the window, drop trailing data and FIN; if nothing left, just ACK.
SRC: netinet/tcp_input.c:928-973 -/
def trimTail (w : Work) : Flow Panic Exit Work :=
  let todrop := (w.ti.ti_seq + BitVec.ofNat 32 w.ti.ti_len - (w.p.tp.rcv_nxt + w.p.tp.rcv_wnd)).toInt
  if todrop ≤ 0 then .go w
  else if w.ti.ti_len ≤ todrop then
    if w.fl.syn ∧ w.p.tp.t_state = .TIME_WAIT ∧ SEQ_GT w.ti.ti_seq w.p.tp.rcv_nxt then
      -- the segment is looked up again, and finds the listening socket
      .leave .closed
    else if w.p.tp.rcv_wnd = 0 ∧ w.ti.ti_seq = w.p.tp.rcv_nxt then
      .go (dropBack todrop { w with p := { w.p with tp := { w.p.tp with tf_acknow := true } } })
    else .leave (.dropafterack w.fl.rst w.p)
  else .go (dropBack todrop w)

/-- The segment is trimmed to the window; a RST, a SYN in the window and a missing ACK end the work.
SRC: netinet/tcp_input.c:852-1018 -/
def trim (w : Work) : Flow Panic Exit Work := do
  let w ← trimHead cfg w
  if w.p.so.nofdref ∧ State.CLOSE_WAIT.num < w.p.tp.t_state.num ∧ w.ti.ti_len ≠ 0 then .leave .closed
  else
    let w ← trimTail w
    if w.fl.rst then .leave .closed
    else if w.fl.syn then .leave (.tcp_drop ECONNRESET w.p)
    else if w.fl.ack = false then .leave (.drop w.p)
    else .go w

end Trim

section Ack

variable (cfg : Config)

/-- SRC: netinet/tcp_input.c:795-802 and 1029-1034 -/
def windowScaling (tp : Tcb) : Tcb :=
  if tp.tf_rcvd_scale ∧ tp.tf_req_scale then
    { tp with snd_scale := tp.requested_s_scale, rcv_scale := tp.request_r_scale }
  else tp

/-- `(void) tcp_reass(tp, 0, 0)`. -/
def presentQueued (p : Inpcb) : Inpcb :=
  let r := tcp_reass p.tp.toTcpcb p.so.toSocket none
  { p with tp := { p.tp with toTcpcb := r.1 }, so := { p.so with toSocket := r.2.1 } }

/-- In `SYN_RECEIVED` state if the ack ACKs our SYN then enter `ESTABLISHED` state.
SRC: netinet/tcp_input.c:1019-1037 -/
def ackSyn (w : Work) : Flow Panic Exit Work :=
  if w.p.tp.t_state = .SYN_RECEIVED then
    if SEQ_GT w.p.tp.snd_una w.ti.ti_ack ∨ SEQ_GT w.ti.ti_ack w.p.tp.snd_max then
      .leave (.dropwithreset w.p)
    else
      let p := presentQueued
        { w.p with
          tp := windowScaling { w.p.tp with t_state := .ESTABLISHED }
          so := soisconnected w.p.so }
      .go { w with p := { p with tp := { p.tp with snd_wl1 := w.ti.ti_seq - 1 } } }
  else .go w

/-- The slow start threshold after a loss.
SRC: netinet/tcp_input.c:1088-1094, netinet/tcp_timer.c:371-377 -/
def halfWindow (tp : Tcb) : tcp_seq :=
  let win := min tp.snd_wnd tp.snd_cwnd / 2 / BitVec.ofNat 32 tp.t_maxseg
  (if win < 2 then 2 else win) * BitVec.ofNat 32 tp.t_maxseg

/-- A packet has been dropped: retransmit it, and only it.
SRC: netinet/tcp_input.c:1086-1105 -/
def fastRetransmit (env : OutputEnv) (ack : tcp_seq) (p : Inpcb) : Flow Panic Exit Work := do
  let onxt := p.tp.snd_nxt
  let p ← tcp_output cfg env
    { p with
      tp :=
        { p.tp with
          snd_ssthresh := halfWindow p.tp
          t_rexmt := 0
          t_rtt := 0
          snd_nxt := ack
          snd_cwnd := BitVec.ofNat 32 p.tp.t_maxseg } }
  let tp :=
    { p.tp with
      snd_cwnd := p.tp.snd_ssthresh + BitVec.ofNat 32 p.tp.t_maxseg * BitVec.ofInt 32 p.tp.t_dupacks }
  .leave (.drop { p with tp := if SEQ_GT onxt tp.snd_nxt then { tp with snd_nxt := onxt } else tp })

/-- An ack that does not advance `snd_una`.
SRC: netinet/tcp_input.c:1054-1113 -/
def duplicateAck (env : OutputEnv) (tiwin : tcp_seq) (w : Work) : Flow Panic Exit Work :=
  let tp := w.p.tp
  if w.ti.ti_len = 0 ∧ tiwin = tp.snd_wnd then
    if tp.t_rexmt = 0 ∨ w.ti.ti_ack ≠ tp.snd_una then
      .go { w with p := { w.p with tp := { tp with t_dupacks := 0 } } }
    else
      let p := { w.p with tp := { tp with t_dupacks := short (tp.t_dupacks + 1) } }
      if p.tp.t_dupacks = tcprexmtthresh then fastRetransmit cfg env w.ti.ti_ack p
      else if tcprexmtthresh < p.tp.t_dupacks then do
        let p ← tcp_output cfg env
          { p with
            tp := { p.tp with snd_cwnd := p.tp.snd_cwnd + BitVec.ofNat 32 p.tp.t_maxseg } }
        .leave (.drop p)
      else .go { w with p := p }
  else .go { w with p := { w.p with tp := { tp with t_dupacks := 0 } } }

/-- When new data is acked, open the congestion window.
SRC: netinet/tcp_input.c:1154-1160 -/
def openWindow (tp : Tcb) : Tcb :=
  let cw := tp.snd_cwnd
  let incr := BitVec.ofNat 32 tp.t_maxseg
  let incr := if tp.snd_ssthresh < cw then incr * incr / cw + incr / 8 else incr
  { tp with snd_cwnd := min (cw + incr) (BitVec.ofNat 32 (TCP_MAXWIN * 2 ^ tp.snd_scale)) }

/-- If all outstanding data is acked, stop retransmit timer, otherwise restart it.
SRC: netinet/tcp_input.c:1135-1144 -/
def restartRexmt (ack : tcp_seq) (tp : Tcb) : Tcb :=
  if ack = tp.snd_max then { tp with t_rexmt := 0 }
  else if tp.t_persist = 0 then { tp with t_rexmt := tp.t_rxtcur } else tp

/-- What has been acked is dropped from the send buffer.  The flag is `ourfinisacked`.
SRC: netinet/tcp_input.c:1161-1171 -/
def dropAcked (acked : ℤ) (p : Inpcb) : Flow Panic Exit (Bool × Inpcb) := do
  if p.so.so_snd.length < acked then
    let so ← sbdrop p.so.so_snd.length p.so
    .go (true,
      { p with
        tp := { p.tp with snd_wnd := p.tp.snd_wnd - BitVec.ofNat 32 p.so.so_snd.length }
        so := so })
  else
    let so ← sbdrop acked p.so
    .go (false, { p with tp := { p.tp with snd_wnd := p.tp.snd_wnd - BitVec.ofInt 32 acked }, so := so })

/-- SRC: netinet/tcp_timer.h:119-137, netinet/tcp_timer.c:106-108 and 194 -/
def tcp_keepidle : ℤ := 120 * 60 * PR_SLOWHZ

def tcp_keepintvl : ℤ := 75 * PR_SLOWHZ

def tcp_maxidle : ℤ := 8 * tcp_keepintvl

/-- SRC: netinet/tcp_timer.c:228-236 -/
def tcp_canceltimers (tp : Tcb) : Tcb := { tp with t_rexmt := 0, t_persist := 0, t_keep := 0, t_2msl := 0 }

/-- What the acknowledgement of our FIN changes.
SRC: netinet/tcp_input.c:1183-1247 -/
def ackFin (ourfinisacked : Bool) (w : Work) : Flow Panic Exit Work :=
  match w.p.tp.t_state with
  | .FIN_WAIT_1 =>
    if ourfinisacked then
      let p :=
        if w.p.so.cantrcvmore then
          { w.p with tp := { w.p.tp with t_2msl := tcp_maxidle }, so := soisdisconnected w.p.so }
        else w.p
      .go { w with p := { p with tp := { p.tp with t_state := .FIN_WAIT_2 } } }
    else .go w
  | .CLOSING =>
    if ourfinisacked then
      .go { w with
        p :=
          { w.p with
            tp := { tcp_canceltimers { w.p.tp with t_state := .TIME_WAIT } with
              t_2msl := 2 * TCPTV_MSL }
            so := soisdisconnected w.p.so } }
    else .go w
  | .LAST_ACK => if ourfinisacked then .leave .closed else .go w
  | .TIME_WAIT =>
    .leave (.dropafterack w.fl.rst { w.p with tp := { w.p.tp with t_2msl := 2 * TCPTV_MSL } })
  | _ => .go w

/-- If the congestion window was inflated to account for the other side's cached packets, retract it.
SRC: netinet/tcp_input.c:1118-1122 -/
def retractWindow (tp : Tcb) : Tcb :=
  let tp :=
    if tcprexmtthresh < tp.t_dupacks ∧ tp.snd_ssthresh < tp.snd_cwnd then
      { tp with snd_cwnd := tp.snd_ssthresh }
    else tp
  { tp with t_dupacks := 0 }

/-- `snd_una` is advanced.
SRC: netinet/tcp_input.c:1177-1180 -/
def advanceUna (ack : tcp_seq) (tp : Tcb) : Tcb :=
  { tp with snd_una := ack, snd_nxt := if SEQ_LT tp.snd_nxt ack then ack else tp.snd_nxt }

/-- An ack of outstanding data, or of data that has not been sent.
SRC: netinet/tcp_input.c:1114-1248 -/
def newAck (w : Work) : Flow Panic Exit Work := do
  let tp := retractWindow w.p.tp
  if SEQ_GT w.ti.ti_ack tp.snd_max then .leave (.dropafterack w.fl.rst { w.p with tp := tp })
  else
    let acked := (w.ti.ti_ack - tp.snd_una).toInt
    let tp := openWindow (restartRexmt w.ti.ti_ack (timeAck w.ti.ti_ack tp))
    let (ourfinisacked, p) ← dropAcked acked { w.p with tp := tp }
    ackFin ourfinisacked
      { w with
        p := { p with tp := advanceUna w.ti.ti_ack p.tp }
        needoutput := w.needoutput || w.ti.ti_ack == tp.snd_max }

/-- SRC: netinet/tcp_input.c:1010-1249 -/
def ackProcessing (env : OutputEnv) (tiwin : tcp_seq) (w : Work) : Flow Panic Exit Work := do
  let w ← ackSyn w
  if SEQ_LEQ w.ti.ti_ack w.p.tp.snd_una then duplicateAck cfg env tiwin w else newAck w

end Ack

section Step6

variable (cfg : Config)

/-- The window of the segment is more recent than the one known.
SRC: netinet/tcp_input.c:1256-1259 -/
def windowIsNew (tiwin : tcp_seq) (fl : Tiflags) (ti : Segment) (tp : Tcb) : Bool :=
  fl.ack &&
    (SEQ_LT tp.snd_wl1 ti.ti_seq || tp.snd_wl1 == ti.ti_seq &&
      (SEQ_LT tp.snd_wl2 ti.ti_ack || tp.snd_wl2 == ti.ti_ack && decide (tp.snd_wnd < tiwin)))

/-- Update window information.
SRC: netinet/tcp_input.c:1251-1275 -/
def updateWindow (tiwin : tcp_seq) (w : Work) : Work :=
  if windowIsNew tiwin w.fl w.ti w.p.tp then
    { w with
      p :=
        { w.p with
          tp :=
            { w.p.tp with
              snd_wnd := tiwin
              snd_wl1 := w.ti.ti_seq
              snd_wl2 := w.ti.ti_ack
              max_sndwnd := if w.p.tp.max_sndwnd < tiwin then tiwin else w.p.tp.max_sndwnd } }
      needoutput := true }
  else w

/-- SRC: bsd/uipc_socket2.c:120 -/
def sb_max : ℕ := 128 * 1024

/-- Pull out of band byte out of a segment so it doesn't appear in the user's data queue.
SRC: netinet/tcp_input.c:1532-1557 -/
def tcp_pulloutofband (w : Work) : Flow Panic Exit Work :=
  match w.ti.m.drop (w.ti.ti_urp - 1) with
  | [] => .panic .tcp_pulloutofband
  | c :: rest =>
    .go { w with
      p := { w.p with tp := { w.p.tp with t_iobc := c, t_oob := true } }
      ti := { w.ti with m := w.ti.m.take (w.ti.ti_urp - 1) ++ rest } }

/-- The urgent pointer of the segment, if it advances the known one.
SRC: netinet/tcp_input.c:1309-1317 -/
def advanceUrgent (w : Work) : Work :=
  let tp := w.p.tp
  let up := w.ti.ti_seq + BitVec.ofNat 32 w.ti.ti_urp
  if SEQ_GT (up - (if cfg.tcp_urgent_42 then 0 else 1)) tp.rcv_up then
    let mark := BitVec.ofNat 64 w.p.so.so_rcv.length + (up - tp.rcv_nxt).setWidth 64 - 1
    { w with
      p :=
        { w.p with
          tp := { tp with rcv_up := up, t_oob := false }
          so := { w.p.so with
            so_oobmark := mark, rcvatmark := w.p.so.rcvatmark || mark == 0 } } }
  else w

/-- Process segments with URG.
SRC: netinet/tcp_input.c:1277-1329 -/
def urgent (w : Work) : Flow Panic Exit Work :=
  if w.fl.urg ∧ w.ti.ti_urp ≠ 0 ∧ TCPS_HAVERCVDFIN w.p.tp.t_state = false then
    if sb_max < w.ti.ti_urp + w.p.so.so_rcv.length then
      .go { w with ti := { w.ti with ti_urp := 0 }, fl := { w.fl with urg := false } }
    else
      let w := advanceUrgent cfg w
      if w.ti.ti_urp ≤ w.ti.ti_len ∧ w.p.so.oobinline = false then tcp_pulloutofband w else .go w
  else
    .go { w with
      p :=
        { w.p with
          tp :=
            if SEQ_GT w.p.tp.rcv_nxt w.p.tp.rcv_up then { w.p.tp with rcv_up := w.p.tp.rcv_nxt }
            else w.p.tp } }

/-- Process the segment text, merging it into the TCP sequencing queue.  The flag is `TH_FIN` in
`tiflags` after it.
SRC: netinet/tcp_input.c:1330-1350 -/
def segmentText (w : Work) : Bool × Inpcb :=
  if (w.ti.ti_len ≠ 0 ∨ w.fl.fin) ∧ TCPS_HAVERCVDFIN w.p.tp.t_state = false then
    let r := TCP_REASS w.p.tp.toTcpcb w.p.so.toSocket w.ti.toTcpiphdr
    let so := { w.p.so with toSocket := r.2.1 }
    (r.2.2, { w.p with tp := noteReceived so { w.p.tp with toTcpcb := r.1 }, so := so })
  else (false, w.p)

/-- If FIN is received ACK the FIN and let the user know that the connection is closing.
SRC: netinet/tcp_input.c:1352-1408 -/
def receiveFin (p : Inpcb) : Inpcb :=
  let p :=
    if TCPS_HAVERCVDFIN p.tp.t_state then p
    else
      { p with
        tp := { p.tp with tf_acknow := true, rcv_nxt := p.tp.rcv_nxt + 1 }
        so := { p.so with cantrcvmore := true } }
  match p.tp.t_state with
  | .FIN_WAIT_2 =>
    { p with
      tp := { tcp_canceltimers { p.tp with t_state := .TIME_WAIT } with t_2msl := 2 * TCPTV_MSL }
      so := soisdisconnected p.so }
  | .TIME_WAIT => { p with tp := { p.tp with t_2msl := 2 * TCPTV_MSL } }
  | s => { p with tp := { p.tp with t_state := s.finReceived } }

/-- SRC: netinet/tcp_input.c:1251-1415 -/
def step6 (tiwin : tcp_seq) (w : Work) : Flow Panic Exit Work := do
  let w ← urgent cfg (updateWindow tiwin w)
  let (fin, p) := segmentText w
  .leave (.done w.needoutput (if fin then receiveFin p else p))

end Step6

section Open

/-- Advance `ti_seq` to correspond to first data byte.  If data, trim to stay within window,
dropping FIN if necessary.
SRC: netinet/tcp_input.c:819-840 -/
def trimSyn (w : Work) : Work :=
  let ti := { w.ti with ti_seq := w.ti.ti_seq + 1 }
  let w :=
    if w.p.tp.rcv_wnd.toNat < ti.ti_len then
      { w with
        ti := { ti with ti_len := w.p.tp.rcv_wnd.toNat, m := ti.m.take w.p.tp.rcv_wnd.toNat }
        fl := { w.fl with fin := false } }
    else { w with ti := ti }
  { w with
    p := { w.p with tp := { w.p.tp with snd_wl1 := w.ti.ti_seq - 1, rcv_up := w.ti.ti_seq } } }

/-- SRC: netinet/tcp_input.c:1496-1525 -/
def dooption (p : Inpcb) : Opt → Inpcb
  | .maxseg route => tcp_mss route p
  | .window shift =>
    { p with
      tp := { p.tp with tf_rcvd_scale := true, requested_s_scale := shift ⊓ TCP_MAX_WINSHIFT } }

/-- Only the options of a SYN are heeded.
SRC: netinet/tcp_input.c:1484-1530 -/
def tcp_dooptions (ti : Segment) (opts : List Opt) (p : Inpcb) : Inpcb :=
  if ti.th_syn then opts.foldl dooption p else p

/-- SRC: netinet/tcp_input.c:686-767 -/
def listening (inp : Input) (w : Work) : Flow Panic Exit Work :=
  if w.fl.rst then .leave (.drop w.p)
  else if w.fl.ack then .leave (.dropwithreset w.p)
  else if w.fl.syn = false ∨ inp.listen = false then .leave (.drop w.p)
  else
    let p := tcp_dooptions w.ti inp.opts { w.p with tp := { w.p.tp with template := true } }
    .go (trimSyn
      { w with
        p :=
          { p with
            tp :=
              { p.tp with
                iss := inp.tcp_iss
                snd_una := inp.tcp_iss
                snd_nxt := inp.tcp_iss
                snd_max := inp.tcp_iss
                snd_up := inp.tcp_iss
                irs := w.ti.ti_seq
                rcv_adv := w.ti.ti_seq + 1
                rcv_nxt := w.ti.ti_seq + 1
                tf_acknow := true
                t_state := .SYN_RECEIVED
                t_keep := TCPTV_KEEP_INIT } } })

/-- SRC: netinet/tcp_input.c:785-817 -/
def synReceived (w : Work) : Inpcb :=
  let tp := w.p.tp
  if w.fl.ack ∧ SEQ_GT tp.snd_una tp.iss then
    let p := presentQueued
      { w.p with
        tp := windowScaling { tp with t_state := .ESTABLISHED }
        so := soisconnected w.p.so }
    if p.tp.t_rtt ≠ 0 then { p with tp := tcp_xmit_timer p.tp } else p
  else { w.p with tp := { tp with t_state := .SYN_RECEIVED } }

/-- SRC: netinet/tcp_input.c:769-817 -/
def synSent (w : Work) : Flow Panic Exit Work :=
  let tp := w.p.tp
  if w.fl.ack ∧ (SEQ_LEQ w.ti.ti_ack tp.iss ∨ SEQ_GT w.ti.ti_ack tp.snd_max) then
    .leave (.dropwithreset w.p)
  else if w.fl.rst then
    .leave (if w.fl.ack then .tcp_drop ECONNREFUSED w.p else .drop w.p)
  else if w.fl.syn = false then .leave (.drop w.p)
  else
    let tp := if w.fl.ack then advanceUna w.ti.ti_ack tp else tp
    let tp :=
      { tp with
        t_rexmt := 0
        irs := w.ti.ti_seq
        rcv_adv := w.ti.ti_seq + 1
        rcv_nxt := w.ti.ti_seq + 1
        tf_acknow := true }
    .go (trimSyn { w with p := synReceived { w with p := { w.p with tp := tp } } })

end Open

section Input

variable (cfg : Config)

/-- Unscale the window into a 32-bit value.
SRC: netinet/tcp_input.c:492-497 -/
def unscale (ti : Segment) (tp : Tcb) : tcp_seq :=
  if ti.th_syn then ti.ti_win.setWidth 32
  else BitVec.ofNat 32 (ti.ti_win.toNat * 2 ^ tp.snd_scale)

/-- Everything below header prediction.
SRC: netinet/tcp_input.c:663-1415 -/
def generalPath (inp : Input) (tiwin : tcp_seq) (w : Work) : Flow Panic Exit Work := do
  let w := { w with p := { w.p with tp := receiveWindow inp.space w.p.tp } }
  match w.p.tp.t_state with
  | .LISTEN =>
    let w ← listening inp w
    step6 cfg tiwin w
  | .SYN_SENT =>
    let w ← synSent w
    step6 cfg tiwin w
  | _ =>
    let w ← trim cfg w
    let w ← ackProcessing cfg inp.dupack tiwin w
    step6 cfg tiwin w

/-- The work on a segment up to a label.
SRC: netinet/tcp_input.c:488-1415 -/
def processSegment (inp : Input) (p : Inpcb) : Flow Panic Exit Work :=
  if p.tp.t_state = .CLOSED then .leave (.drop p)
  else do
    let tiwin := unscale inp.ti p.tp
    let p := { p with tp := { p.tp with t_idle := 0, t_keep := tcp_keepidle } }
    let p := if p.tp.t_state = .LISTEN then p else tcp_dooptions inp.ti inp.opts p
    let w ← headerPrediction tiwin inp.space ⟨p, inp.ti, inp.ti.tiflags, false⟩
    generalPath cfg inp tiwin w

end Input

end Input

end Osf1.Tcp
