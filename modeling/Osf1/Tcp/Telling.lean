import Osf1.Tcp.Input

/-!
# The window that is advertised

A connection with the segments that `tcp_output` has sent on it, called by `tcp_input`, by the user and by the
timers. The peer multiplies the window of a segment by the scale that it has been told.
-/

set_option autoImplicit false

namespace Osf1.Tcp

open List

section Window

open Osf1.Computation

section Segments

/-- A segment with an acknowledgement, told by the space that `tcp_output` has found and the connection
as it was when the header was filled in. -/
structure Sent where
  space : ℤ
  p : Inpcb

variable (x : Sent)

/-- SRC: netinet/tcp_output.c:414 -/
def Sent.ti_ack : tcp_seq := x.p.tp.rcv_nxt

/-- The window is divided by a power of two, and stored in 16 bits.
SRC: netinet/tcp_output.c:435 -/
def Sent.ti_win : BitVec 16 := BitVec.ofInt 16 (advertised x.space x.p / 2 ^ x.p.tp.rcv_scale)

/-- The window that the peer reconstructs.  That of a SYN is not scaled.
SRC: netinet/tcp_input.c:492-497 -/
def Sent.told : ℕ :=
  if outSYN x.p.tp.t_state then x.ti_win.toNat else x.ti_win.toNat * 2 ^ x.p.tp.rcv_scale

/-- The right edge of the window as the peer reconstructs it. -/
def Sent.edge : tcp_seq := x.ti_ack + BitVec.ofNat 32 x.told

/-- What is left of the window that has been told before. -/
def Sent.left : ℕ := (x.p.tp.rcv_adv - x.p.tp.rcv_nxt).toNat

/-- The largest window that can be told. -/
def Sent.largest : ℕ := TCP_MAXWIN * 2 ^ x.p.tp.rcv_scale

/-- The space is too small to be told.
SRC: netinet/tcp_output.c:429-430 -/
def Sent.silly : Prop := x.space < (x.p.so.rcv_hiwat / 4 : ℕ) ∧ x.space < x.p.tp.t_maxseg

/-- `rcv_nxt` is not beyond `rcv_adv`, and the division leaves nothing: neither of the space, where it is
more than what is left of the window and can be told, nor of what is left, where it is not. -/
def Sent.Exact : Prop :=
  x.left ≤ x.largest ∧
    (x.left < x.space → ¬x.silly → (2 ^ x.p.tp.rcv_scale : ℤ) ∣ x.space ∨ x.largest ≤ x.space) ∧
    (x.silly ∨ x.space ≤ x.left → 2 ^ x.p.tp.rcv_scale ∣ x.left)

instance : Decidable x.silly := inferInstanceAs (Decidable (_ ∧ _))

instance : Decidable x.Exact := inferInstanceAs (Decidable (_ ∧ _ ∧ _))

end Segments

section Output

variable (cfg : Config)

/-- The connection after the options of a SYN. -/
def withMss (a : Attempt) (p : Inpcb) : Inpcb :=
  if outSYN p.tp.t_state ∧ p.tp.tf_noopt = false then tcp_mss a.route p else p

/-- The segment with an acknowledgement that a turn of the loop sends, if it sends one. -/
def turnSent (space : ℤ) (a : Attempt) (p : Inpcb) : List Sent :=
  if outACK p.tp.t_state then [⟨space, withMss a p⟩] else []

/-- Whether a turn of the loop has something to send.
SRC: netinet/tcp_output.c:199-258 -/
def turnWanted (space : ℤ) (idle : Bool) (p : Inpcb) : Bool :=
  dataWanted p idle (pullBack p) (sendLen p) || windowWanted p space ||
    controlWanted (pullBack p) (sendFin p (pullBack p) (sendLen p))

/-- What a turn of the loop does when it has something to send. -/
def turn (space : ℤ) (a : Attempt) (p : Inpcb) : Flow Panic Exit (Bool × Inpcb) :=
  sendSegment cfg space a (sendOff p) (sendLen p) (sendFin p (pullBack p) (sendLen p))
    { p with tp := pullBack p }

/-- What a turn of the loop and those after it send, the last segment first. -/
def turnsSent (now : List Sent) (later : Inpcb → List Sent) : Flow Panic Exit (Bool × Inpcb) → List Sent
  | .go r => if r.1 then later r.2 ++ now else []
  | .leave _ => []
  | .panic _ => []

/-- The segments with an acknowledgement that `tcp_output` sends, the last one first.
SRC: netinet/tcp_output.c:137-557 -/
def loopSent (space : ℤ) (idle : Bool) : List Attempt → Inpcb → List Sent
  | [], _ => []
  | a :: attempts, p =>
    if turnWanted space idle p then
      turnsSent (turnSent space a { p with tp := pullBack p })
        (fun q => if sendalot p then loopSent space idle attempts q else []) (turn cfg space a p)
    else []

/-- SRC: netinet/tcp_output.c:103-558 -/
def outputSent (env : OutputEnv) (p : Inpcb) : List Sent :=
  let idle := p.tp.snd_max == p.tp.snd_una
  let p :=
    if idle ∧ p.tp.t_rxtcur ≤ p.tp.t_idle then
      { p with tp := { p.tp with snd_cwnd := BitVec.ofNat 32 p.tp.t_maxseg } }
    else p
  loopSent cfg env.space.toInt idle env.attempts p

end Output

section Input

variable (cfg : Config)

/-- The work on a segment up to its acknowledgement, if the connection is past the opening.
SRC: netinet/tcp_input.c:488-1037 -/
def toAck (inp : Input) (p : Inpcb) : Flow Panic Exit Work :=
  if p.tp.t_state = .CLOSED then .leave (.drop p)
  else do
    let tiwin := unscale inp.ti p.tp
    let p := { p with tp := { p.tp with t_idle := 0, t_keep := tcp_keepidle } }
    let p := if p.tp.t_state = .LISTEN then p else tcp_dooptions inp.ti inp.opts p
    let w ← headerPrediction tiwin inp.space ⟨p, inp.ti, inp.ti.tiflags, false⟩
    let w := { w with p := { w.p with tp := receiveWindow inp.space w.p.tp } }
    match w.p.tp.t_state with
    | .LISTEN => .leave .closed
    | .SYN_SENT => .leave .closed
    | _ => do
      let w ← trim cfg w
      ackSyn w

/-- The connection for which `tcp_output` is called on a duplicate acknowledgement.
SRC: netinet/tcp_input.c:1054-1113 -/
def duplicateCall (tiwin : tcp_seq) (w : Work) : Option Inpcb :=
  let tp := w.p.tp
  if w.ti.ti_len = 0 ∧ tiwin = tp.snd_wnd then
    if tp.t_rexmt = 0 ∨ w.ti.ti_ack ≠ tp.snd_una then none
    else
      let p := { w.p with tp := { tp with t_dupacks := short (tp.t_dupacks + 1) } }
      if p.tp.t_dupacks = tcprexmtthresh then
        some { p with
          tp :=
            { p.tp with
              snd_ssthresh := halfWindow p.tp
              t_rexmt := 0
              t_rtt := 0
              snd_nxt := w.ti.ti_ack
              snd_cwnd := BitVec.ofNat 32 p.tp.t_maxseg } }
      else if tcprexmtthresh < p.tp.t_dupacks then
        some { p with
          tp := { p.tp with snd_cwnd := p.tp.snd_cwnd + BitVec.ofNat 32 p.tp.t_maxseg } }
      else none
  else none

/-- What is sent if the acknowledgement of a segment turns out to be a duplicate. -/
def ackSent (env : OutputEnv) (tiwin : tcp_seq) : Flow Panic Exit Work → List Sent
  | .go w =>
    if SEQ_LEQ w.ti.ti_ack w.p.tp.snd_una then (duplicateCall tiwin w).elim [] (outputSent cfg env)
    else []
  | .leave _ => []
  | .panic _ => []

/-- What is sent on a duplicate acknowledgement. -/
def duplicateSent (inp : Input) (p : Inpcb) : List Sent :=
  ackSent cfg inp.dupack (unscale inp.ti p.tp) (toAck cfg inp p)

/-- What is left to be done at a label: whether `tcp_output` is called, and for which connection.
SRC: netinet/tcp_input.c:1417-1482, netinet/tcp_subr.c:314-335 -/
def Exit.reply : Exit → Option (Bool × Inpcb)
  | .done needoutput p => some (needoutput || p.tp.tf_acknow, p)
  | .dropafterack rst p =>
    if rst then some (false, p) else some (true, { p with tp := { p.tp with tf_acknow := true } })
  | .drop p => some (false, p)
  | .dropwithreset p => some (false, p)
  | .tcp_drop _ p =>
    if TCPS_HAVERCVDSYN p.tp.t_state then
      some (true, { p with tp := { p.tp with t_state := .CLOSED } })
    else none
  | .closed => none

/-- What `tcp_input` has left to be done, if it does not panic and the connection is there. -/
def inputReply (inp : Input) (p : Inpcb) : Option (Bool × Inpcb) :=
  match processSegment cfg inp p with
  | .leave e => e.reply
  | _ => none

/-- The connection after `tcp_output`, if it does not panic. -/
def outputGo (env : OutputEnv) (p : Inpcb) : Option Inpcb :=
  match (tcp_output cfg env p : Flow Panic Exit Inpcb) with
  | .go q => some q
  | _ => none

end Input

section System

/-- What happens to a connection: a segment comes, `tcp_output` is called, or the user and the timers
change it. -/
inductive Call where
  | tcp_input (inp : Input)
  | tcp_output (env : OutputEnv)
  | other (q : Inpcb)

/-- What the user and the timers leave: the receive variables, and the state but for a close. -/
structure Elsewhere (p q : Inpcb) : Prop where
  rcv_nxt : q.tp.rcv_nxt = p.tp.rcv_nxt
  rcv_adv : q.tp.rcv_adv = p.tp.rcv_adv
  irs : q.tp.irs = p.tp.irs
  rcv_scale : q.tp.rcv_scale = p.tp.rcv_scale
  request_r_scale : q.tp.request_r_scale = p.tp.request_r_scale
  t_state : q.tp.t_state = p.tp.t_state ∨ q.tp.t_state = p.tp.t_state.usrclosed

instance (p q : Inpcb) : Decidable (Elsewhere p q) :=
  decidable_of_iff (q.tp.rcv_nxt = p.tp.rcv_nxt ∧ q.tp.rcv_adv = p.tp.rcv_adv ∧ q.tp.irs = p.tp.irs ∧
      q.tp.rcv_scale = p.tp.rcv_scale ∧ q.tp.request_r_scale = p.tp.request_r_scale ∧
      (q.tp.t_state = p.tp.t_state ∨ q.tp.t_state = p.tp.t_state.usrclosed))
    ⟨fun ⟨h, h', h'', h''', hr, hs⟩ => ⟨h, h', h'', h''', hr, hs⟩,
      fun ⟨h, h', h'', h''', hr, hs⟩ => ⟨h, h', h'', h''', hr, hs⟩⟩

variable (cfg : Config)

/-- The connection after a call.  When it is closed its control block is no more. -/
def after_call (p : Inpcb) : Call → Option Inpcb
  | .tcp_input inp => do
    let (out, q) ← inputReply cfg inp p
    if out then outputGo cfg inp.out q else some q
  | .tcp_output env => outputGo cfg env p
  | .other q => if Elsewhere p q then some q else none

/-- What is sent in a call, the last segment first. -/
def callSent (p : Inpcb) : Call → List Sent
  | .tcp_input inp =>
    match inputReply cfg inp p with
    | some (true, q) => outputSent cfg inp.out q ++ duplicateSent cfg inp p
    | _ => duplicateSent cfg inp p
  | .tcp_output env => outputSent cfg env p
  | .other _ => []

/-- A connection with what has been sent on it, the last segment first. -/
structure Channel where
  p : Inpcb
  sent : List Sent

def callStep (s : Channel) (e : Call) : Option Channel :=
  (after_call cfg s.p e).map fun q => ⟨q, callSent cfg s.p e ++ s.sent⟩

/-- A connection that listens or has been asked for, and has no scale yet.
SRC: netinet/tcp_subr.c:264-312, netinet/tcp_usrreq.c:245-262 -/
structure Opening (p : Inpcb) : Prop where
  t_state : p.tp.t_state = .LISTEN ∨ p.tp.t_state = .SYN_SENT
  rcv_scale : p.tp.rcv_scale = 0
  request_r_scale : p.tp.request_r_scale ≤ TCP_MAX_WINSHIFT

def channel (p : Inpcb) : System Channel Call := System.ofFun ⟨p, []⟩ (callStep cfg)

/-- The peer is not told less than before, nor more than there was space for, and what it has been told
is remembered. -/
structure Honest (s : Channel) : Prop where
  sorted : (Serial.positions (s.sent.map Sent.edge)).Pairwise (· ≥ ·)
  granted : ∀ x r, x :: r <:+ s.sent →
    x.edge = s.p.tp.irs + 1 ∨ ∃ y ∈ x :: r, y.edge = x.edge ∧ (y.told : ℤ) ≤ 0 ⊔ y.space
  told : ∀ x ∈ s.sent.head?, x.edge = s.p.tp.rcv_adv

end System

end Window

/-!
## What the peer has been told

The right edge that the connection remembers is the one that the peer reconstructs, as long as nothing
is lost when a window is divided.
-/

section Telling

open Osf1.Computation

section Segments

variable {x : Sent} {win : ℕ}

theorem Sent.largest_le (h : x.p.tp.rcv_scale ≤ TCP_MAX_WINSHIFT) : x.largest < 2 ^ 31 := by
  unfold Sent.largest TCP_MAXWIN
  have hpow : 2 ^ x.p.tp.rcv_scale ≤ 2 ^ TCP_MAX_WINSHIFT := Nat.pow_le_pow_right (by omega) h
  have hmax : 2 ^ TCP_MAX_WINSHIFT = 16384 := rfl
  omega

theorem Sent.advertised_eq (hle : x.left ≤ x.largest) :
    advertised x.space x.p =
      if x.silly ∨ x.space ≤ x.left then (x.left : ℤ) else x.space ⊓ x.largest := by
  have heq : advertised x.space x.p =
      if (if x.silly then 0 else x.space) ⊓ (x.largest : ℤ) < x.left then (x.left : ℤ)
      else (if x.silly then 0 else x.space) ⊓ (x.largest : ℤ) := rfl
  rw [heq]
  by_cases hs : x.silly
  · rw [if_pos hs, if_pos (Or.inl hs), inf_eq_left.mpr (Int.natCast_nonneg _)]
    split_ifs
    · rfl
    · omega
  · rw [if_neg hs]
    by_cases hspace : x.space ≤ x.left
    · rw [if_pos (Or.inr hspace), inf_eq_left.mpr (by omega)]
      split_ifs
      · rfl
      · omega
    · rw [if_neg (not_or.mpr ⟨hs, hspace⟩)]
      refine if_neg (not_lt.mpr (le_inf ?_ ?_))
      · omega
      · exact_mod_cast hle

/-- A window that can be told and that nothing is lost of. -/
structure Sent.Fits (x : Sent) (win : ℕ) : Prop where
  eq : advertised x.space x.p = win
  left : x.left ≤ win
  largest : win ≤ x.largest
  dvd : 2 ^ x.p.tp.rcv_scale ∣ win

theorem Sent.Exact.fits (h : x.Exact) : ∃ win, x.Fits win := by
  obtain ⟨hle, hspace, hleft⟩ := h
  have heq := Sent.advertised_eq hle
  by_cases hcase : x.silly ∨ x.space ≤ x.left
  · rw [if_pos hcase] at heq
    exact ⟨x.left, heq, le_refl _, hle, hleft hcase⟩
  · rw [if_neg hcase] at heq
    obtain ⟨hsilly, hmore⟩ := not_or.mp hcase
    rw [not_le] at hmore
    have hpos : 0 ≤ x.space := (Int.natCast_nonneg _).trans hmore.le
    by_cases hlarge : (x.largest : ℤ) ≤ x.space
    · rw [inf_eq_right.mpr hlarge] at heq
      exact ⟨x.largest, heq, hle, le_refl _, Nat.dvd_mul_left ..⟩
    · rw [inf_eq_left.mpr (not_le.mp hlarge).le] at heq
      have hdvd := (hspace hmore hsilly).resolve_right hlarge
      refine ⟨x.space.toNat, ?_, by omega, by omega, ?_⟩
      · rw [heq, Int.toNat_of_nonneg hpos]
      · have hcast : ((2 ^ x.p.tp.rcv_scale : ℕ) : ℤ) ∣ (x.space.toNat : ℤ) := by
          rw [Int.toNat_of_nonneg hpos]
          exact_mod_cast hdvd
        exact Int.natCast_dvd_natCast.mp hcast

theorem Sent.Fits.told (h : x.Fits win) (hsyn : outSYN x.p.tp.t_state = true → x.p.tp.rcv_scale = 0) : x.told = win := by
  obtain ⟨n, hn⟩ := h.dvd
  have hpos : 0 < 2 ^ x.p.tp.rcv_scale := Nat.two_pow_pos _
  have hquot : advertised x.space x.p / 2 ^ x.p.tp.rcv_scale = (n : ℤ) := by
    have hcast : (2 : ℤ) ^ x.p.tp.rcv_scale = ((2 ^ x.p.tp.rcv_scale : ℕ) : ℤ) := by norm_cast
    rw [h.eq, hn, hcast, Int.natCast_mul]
    exact Int.mul_ediv_cancel_left _ (Int.natCast_ne_zero.mpr hpos.ne')
  have hle : n ≤ TCP_MAXWIN := by
    have hlarge := h.largest
    rw [hn, Nat.mul_comm] at hlarge
    exact Nat.le_of_mul_le_mul_right hlarge hpos
  have hwin : x.ti_win.toNat = n := by
    unfold Sent.ti_win
    rw [hquot, BitVec.ofInt_natCast, BitVec.toNat_ofNat]
    unfold TCP_MAXWIN at hle
    omega
  unfold Sent.told
  rw [hwin, hn]
  split_ifs with hs
  · rw [hsyn hs, Nat.pow_zero, Nat.one_mul]
  · exact Nat.mul_comm ..

theorem Sent.Fits.remembered (h : x.Fits win) (hscale : x.p.tp.rcv_scale ≤ TCP_MAX_WINSHIFT) (htold : x.told = win) :
    (sentOff win x.p.tp).rcv_adv = x.edge ∧ 0 ≤ (x.edge - x.p.tp.rcv_adv).toInt ∧
      (win = x.left → x.edge = x.p.tp.rcv_adv) := by
  have hlt := h.largest.trans_lt (Sent.largest_le hscale)
  have hleft := h.left
  have hedge : x.edge = Serial.number x.p.tp.rcv_nxt win := by
    unfold Sent.edge Sent.ti_ack
    rw [htold]
    rfl
  have hadv : x.p.tp.rcv_adv = Serial.number x.p.tp.rcv_nxt x.left := by
    unfold Serial.number Sent.left
    rw [BitVec.ofNat_toNat, BitVec.setWidth_eq, BitVec.add_comm, BitVec.sub_add_cancel]
  have hwin : x.p.tp.rcv_nxt + BitVec.ofInt 32 win = Serial.number x.p.tp.rcv_nxt win := by
    rfl
  have hdiff : (Serial.number x.p.tp.rcv_nxt win - Serial.number x.p.tp.rcv_nxt x.left).toInt =
      (win : ℤ) - x.left := Serial.toInt_number_sub (by omega) (by omega) (by omega)
  refine ⟨?_, ?_, fun heq => by rw [hedge, hadv, heq]⟩
  · unfold sentOff
    rw [hwin, hedge]
    by_cases hgt : 0 < (win : ℤ) ∧ SEQ_GT (Serial.number x.p.tp.rcv_nxt win) x.p.tp.rcv_adv = true
    · rw [if_pos hgt]
    · rw [if_neg hgt]
      have heq : win = x.left := by
        by_contra hne
        refine hgt ⟨by omega, ?_⟩
        unfold SEQ_GT
        rw [hadv, hdiff]
        exact decide_eq_true (by omega)
      rw [hadv, ← heq]
  · rw [hedge, hadv, hdiff]
    omega

end Segments

section Invariant

/-- The states in which the scale of the window has not been agreed. -/
def State.opening (t : State) : Bool := t = .LISTEN || outSYN t

/-- What of a connection tells what the peer has been told. -/
def Tcb.view (tp : Tcb) : tcp_seq × tcp_seq × ℕ × ℕ × State :=
  (tp.rcv_adv, tp.irs, tp.rcv_scale, tp.request_r_scale, tp.t_state)

/-- What holds of a connection and of what has been sent on it. -/
structure Kept (p : Inpcb) (log : List Sent) : Prop where
  honest : Honest ⟨p, log⟩
  rcv_scale : p.tp.rcv_scale ≤ TCP_MAX_WINSHIFT
  request : p.tp.request_r_scale ≤ TCP_MAX_WINSHIFT
  opening : p.tp.t_state.opening = true → p.tp.rcv_scale = 0
  fresh : outACK p.tp.t_state = false → log = []
  start : log = [] → outACK p.tp.t_state = true → p.tp.rcv_adv = p.tp.irs + 1

variable {p q : Inpcb} {log : List Sent}

theorem Honest.nil (p : Inpcb) : Honest ⟨p, []⟩ where
  sorted := List.Pairwise.nil
  granted _ _ hx := nomatch eq_nil_of_suffix_nil hx
  told _ hx := nomatch hx

theorem Honest.congr (h : Honest ⟨p, log⟩) (hirs : q.tp.irs = p.tp.irs)
    (hadv : q.tp.rcv_adv = p.tp.rcv_adv) : Honest ⟨q, log⟩ where
  sorted := h.sorted
  granted := by
    rw [hirs]
    exact h.granted
  told := by
    rw [hadv]
    exact h.told

theorem Kept.goto (h : Kept p log) (hirs : q.tp.irs = p.tp.irs) (hadv : q.tp.rcv_adv = p.tp.rcv_adv)
    (hrequest : q.tp.request_r_scale = p.tp.request_r_scale)
    (hscale : q.tp.rcv_scale = p.tp.rcv_scale ∨ q.tp.rcv_scale = p.tp.request_r_scale)
    (hack : outACK p.tp.t_state = true) (hack' : outACK q.tp.t_state = true)
    (hopening : q.tp.t_state.opening = false) : Kept q log where
  honest := h.honest.congr hirs hadv
  rcv_scale := by
    rcases hscale with heq | heq
    · exact heq ▸ h.rcv_scale
    · exact heq ▸ h.request
  request := hrequest ▸ h.request
  opening ho := Bool.noConfusion (hopening.symm.trans ho)
  fresh hno := Bool.noConfusion (hno.symm.trans hack')
  start hnil _ := by rw [hadv, hirs, h.start hnil hack]

theorem Kept.congr (h : Kept p log) (hview : q.tp.view = p.tp.view) : Kept q log := by
  unfold Tcb.view at hview
  simp only [Prod.mk.injEq] at hview
  obtain ⟨hadv, hirs, hscale, hrequest, hstate⟩ := hview
  exact ⟨h.honest.congr hirs hadv, hscale ▸ h.rcv_scale, hrequest ▸ h.request,
    fun ho => hscale ▸ h.opening (hstate ▸ ho), fun hno => h.fresh (hstate ▸ hno),
    fun hnil hack => by rw [hadv, hirs, h.start hnil (hstate ▸ hack)]⟩

theorem Kept.send (h : Kept p log) {space : ℤ} (hack : outACK p.tp.t_state = true) (hexact : Sent.Exact ⟨space, p⟩)
    (hadv : q.tp.rcv_adv = (sentOff (advertised space p) p.tp).rcv_adv)
    (hview : { q.tp with rcv_adv := p.tp.rcv_adv }.view = p.tp.view) : Kept q (⟨space, p⟩ :: log) := by
  unfold Tcb.view at hview
  simp only [Prod.mk.injEq, true_and] at hview
  obtain ⟨hirs, hscale, hrequest, hstate⟩ := hview
  obtain ⟨win, hfits⟩ := hexact.fits
  have htold := hfits.told fun hsyn => h.opening (Bool.or_eq_true_iff.mpr (.inr hsyn))
  obtain ⟨hedge, hahead, hsame⟩ := hfits.remembered h.rcv_scale htold
  have hwin : advertised space p = win := hfits.eq
  rw [hwin] at hadv
  have htold' : q.tp.rcv_adv = Sent.edge ⟨space, p⟩ := hadv.trans hedge
  refine ⟨⟨?_, fun x r hx => ?_, fun x hx => ?_⟩, hscale ▸ h.rcv_scale, hrequest ▸ h.request,
    fun ho => hscale ▸ h.opening (hstate ▸ ho), fun hno => ?_, fun hnil => nomatch hnil⟩
  · refine Serial.positions_cons_pairwise h.honest.sorted fun e he => ?_
    rw [head?_map] at he
    obtain ⟨x, hx, rfl⟩ := Option.map_eq_some_iff.mp he
    have hlast : x.edge = p.tp.rcv_adv := h.honest.told x hx
    rw [hlast]
    exact hahead
  · change x.edge = q.tp.irs + 1 ∨ _
    rw [hirs]
    cases suffix_cons_iff.mp hx with
    | inr hold => exact h.honest.granted x r hold
    | inl hnew =>
      obtain ⟨rfl, rfl⟩ := cons.inj hnew
      by_cases hspace : (win : ℤ) ≤ 0 ⊔ space
      · refine .inr ⟨_, mem_cons_self .., rfl, ?_⟩
        rw [htold]
        exact hspace
      · have hleft : win = Sent.left ⟨space, p⟩ := by
          have heq := Sent.advertised_eq hexact.1
          rw [hfits.eq] at heq
          by_cases hcase : Sent.silly ⟨space, p⟩ ∨ space ≤ (Sent.left ⟨space, p⟩ : ℤ)
          · rw [if_pos hcase] at heq
            exact_mod_cast heq
          · rw [if_neg hcase] at heq
            have hle : (win : ℤ) ≤ space := heq ▸ inf_le_left
            exact (hspace (hle.trans le_sup_right)).elim
        have hold := hsame hleft
        cases hlog : r with
        | nil => exact .inl (hold.trans (h.start hlog hack))
        | cons y l =>
          have hy : y.edge = p.tp.rcv_adv := h.honest.told y (by rw [hlog]; rfl)
          have hxy : Sent.edge ⟨space, p⟩ = y.edge := hold.trans hy.symm
          rw [hxy]
          refine (h.honest.granted y l ⟨[], by rw [hlog]; rfl⟩).imp id fun ⟨z, hz, hedge, hle⟩ => ?_
          exact ⟨z, mem_cons_of_mem _ hz, hedge, hle⟩
  · cases hx
    exact htold'.symm
  · exact Bool.noConfusion ((hstate ▸ hno).symm.trans hack)

end Invariant

section Output

variable (cfg : Config) {p q : Inpcb} {log : List Sent} {space : ℤ} {fin : Bool} {len : ℕ} {tp : Tcb} {tp' : Tcb} {ρ : Type}
  {R : Exit → Prop} {idle : Bool}

/-- What tells the window that is advertised. -/
def Tcb.recv (tp : Tcb) : tcp_seq × tcp_seq × tcp_seq × ℕ × ℕ × State := (tp.rcv_nxt, tp.view)

theorem recv_fillHeader : (fillHeader fin tp).recv = tp.recv := by
  unfold fillHeader
  dsimp only
  split_ifs <;> rfl

theorem recv_advance : (advance fin len tp).recv = tp.recv := by
  unfold advance
  dsimp only
  split_ifs <;> rfl

theorem recv_startRexmt : (startRexmt tp).recv = tp.recv := by
  unfold startRexmt
  dsimp only
  split_ifs <;> rfl

theorem recv_account : (account fin len tp).recv = tp.recv := by
  unfold account
  split_ifs
  · exact recv_startRexmt.trans recv_advance
  · rfl
  · rfl

theorem recv_outError (error : ℕ) : (outError error tp).recv = tp.recv := by
  unfold outError
  split_ifs <;> rfl

theorem recv_withMss (a : Attempt) : (withMss a p).tp.recv = p.tp.recv := by
  unfold withMss tcp_mss
  split_ifs
  · split <;> rfl
  · rfl

theorem recv_pullBack : (pullBack p).recv = p.tp.recv := by
  unfold pullBack leavePersist
  split_ifs <;> rfl

theorem view_of_recv (h : tp'.recv = tp.recv) : tp'.view = tp.view := congrArg Prod.snd h

theorem sentOff_recv (win : ℤ) (h : tp'.recv = tp.recv) :
    (sentOff win tp').rcv_adv = (sentOff win tp).rcv_adv ∧
      { sentOff win tp' with rcv_adv := tp.rcv_adv }.view = tp.view := by
  have hnxt : tp'.rcv_nxt = tp.rcv_nxt := congrArg Prod.fst h
  have hview := view_of_recv h
  unfold Tcb.view at hview
  simp only [Prod.mk.injEq] at hview
  obtain ⟨hadv, hirs, hscale, hrequest, hstate⟩ := hview
  constructor
  · unfold sentOff
    rw [hnxt, hadv]
    split_ifs
    · rfl
    · exact hadv
  · unfold sentOff Tcb.view
    split_ifs
    · rw [hirs, hscale, hrequest, hstate]
    · rw [hirs, hscale, hrequest, hstate]

theorem Kept.silent (h : Kept p log) (hno : outACK p.tp.t_state = false)
    (hview : { q.tp with rcv_adv := p.tp.rcv_adv }.view = p.tp.view) : Kept q log := by
  unfold Tcb.view at hview
  simp only [Prod.mk.injEq, true_and] at hview
  obtain ⟨-, hscale, hrequest, hstate⟩ := hview
  rw [h.fresh hno]
  refine ⟨.nil q, hscale ▸ h.rcv_scale, hrequest ▸ h.request, fun ho => hscale ▸ h.opening (hstate ▸ ho),
    fun _ => rfl, fun _ hack => ?_⟩
  exact Bool.noConfusion ((hstate ▸ hno).symm.trans hack)

theorem copyData_ends {R : ρ → Prop} (a : Attempt) (off : ℤ) :
    (copyData cfg a off len p : Flow Panic ρ (ℕ × Inpcb)).Ends
      (fun r => r.2.tp = p.tp ∧ r.2.so = p.so) R := by
  unfold copyData
  dsimp only
  split_ifs
  · exact ⟨rfl, rfl⟩
  · trivial
  · exact ⟨rfl, rfl⟩
  · exact ⟨rfl, rfl⟩

theorem Kept.sendSegment {R : ρ → Prop} (h : Kept p log) (a : Attempt) (off : ℤ) :
    (Tcp.sendSegment cfg space a off len fin p : Flow Panic ρ (Bool × Inpcb)).Ends
      (fun r => (r.1 = true → (∀ x ∈ turnSent space a p, x.Exact) →
        Kept r.2 (turnSent space a p ++ log)) ∧ (r.1 = false → Kept r.2 log)) R := by
  have hmss := recv_withMss (p := p) a
  change (if _ then _ else _ : Flow Panic ρ (Bool × Inpcb)).Ends _ _
  have hp : (if outSYN p.tp.t_state = true ∧ p.tp.tf_noopt = false then tcp_mss a.route p else p) =
      withMss a p := rfl
  rw [hp]
  by_cases hlen : MHLEN < cfg.max_linkhdr + (tcpiphdrLen + optlen (withMss a p).tp)
  · rw [if_pos hlen]
    trivial
  rw [if_neg hlen]
  by_cases hget : a.mgethdr = false
  · rw [if_pos hget]
    refine ⟨fun hno => Bool.noConfusion hno, fun _ => h.congr (view_of_recv ?_)⟩
    exact hmss
  · rw [if_neg hget]
    refine (copyData_ends cfg a off).bind fun r hr => ?_
    obtain ⟨len', p'⟩ := r
    obtain ⟨htp, hso⟩ := hr
    dsimp only at htp hso ⊢
    split_ifs
    · trivial
    · refine ⟨fun hno => Bool.noConfusion hno, fun _ => h.congr (view_of_recv ?_)⟩
      rw [recv_outError, recv_account, recv_fillHeader, htp, hmss]
    · refine ⟨fun _ hexact => ?_, fun hno => Bool.noConfusion hno⟩
      have hwin : advertised space p' = advertised space (withMss a p) := by
        unfold advertised
        rw [htp, hso]
      have hrecv : (account fin len' (fillHeader fin p'.tp)).recv = (withMss a p).tp.recv := by
        rw [recv_account, recv_fillHeader, htp]
      have hstate : (withMss a p).tp.t_state = p.tp.t_state := congrArg (fun v => v.2.2.2.2.2) hmss
      obtain ⟨hadv, hview⟩ := sentOff_recv (advertised space p') hrecv
      rw [hwin] at hadv hview ⊢
      have hkept : Kept (withMss a p) log := h.congr (view_of_recv hmss)
      unfold turnSent at hexact ⊢
      by_cases hack : outACK p.tp.t_state = true
      · rw [if_pos hack] at hexact ⊢
        exact hkept.send (hstate ▸ hack) (hexact _ (mem_singleton_self _)) hadv hview
      · rw [if_neg hack] at hexact ⊢
        rw [← hstate, Bool.not_eq_true] at hack
        exact hkept.silent hack hview

theorem Kept.pullBack (h : Kept p log) : Kept { p with tp := Tcp.pullBack p } log :=
  h.congr (view_of_recv recv_pullBack)

theorem tcp_output_loop_nil : (tcp_output_loop cfg space idle [] p : Flow Panic Exit Inpcb) =
    if turnWanted space idle p then .go { p with tp := tcp_quench (Tcp.pullBack p) }
    else if p.so.so_snd ≠ [] ∧ (Tcp.pullBack p).t_rexmt = 0 ∧ (Tcp.pullBack p).t_persist = 0 then do
      let tp ← tcp_setpersist { Tcp.pullBack p with t_rxtshift := 0 }
      .go { p with tp := tp }
    else .go { p with tp := Tcp.pullBack p } := by
  conv_lhs => unfold tcp_output_loop
  rfl

theorem tcp_output_loop_cons (a : Attempt) (attempts : List Attempt) :
    (tcp_output_loop cfg space idle (a :: attempts) p : Flow Panic Exit Inpcb) =
      if turnWanted space idle p then do
        let (sent, q) ← turn cfg space a p
        if sent && sendalot p then tcp_output_loop cfg space idle attempts q else .go q
      else if p.so.so_snd ≠ [] ∧ (Tcp.pullBack p).t_rexmt = 0 ∧ (Tcp.pullBack p).t_persist = 0 then do
        let tp ← tcp_setpersist { Tcp.pullBack p with t_rxtshift := 0 }
        .go { p with tp := tp }
      else .go { p with tp := Tcp.pullBack p } := by
  conv_lhs => unfold tcp_output_loop
  rfl

theorem Kept.rest (h : Kept p log) :
    (if p.so.so_snd ≠ [] ∧ (Tcp.pullBack p).t_rexmt = 0 ∧ (Tcp.pullBack p).t_persist = 0 then do
        let tp ← tcp_setpersist { Tcp.pullBack p with t_rxtshift := 0 }
        .go { p with tp := tp }
      else .go { p with tp := Tcp.pullBack p } : Flow Panic Exit Inpcb).Ends
      (fun q => Kept q log) R := by
  have hback := h.pullBack
  split_ifs
  · have hset : (tcp_setpersist { Tcp.pullBack p with t_rxtshift := 0 } : Flow Panic Exit Tcb).Ends
        (fun tp => tp.view = (Tcp.pullBack p).view) R := by
      unfold tcp_setpersist
      split_ifs
      · trivial
      · rfl
      · rfl
    exact hset.bind fun tp htp => hback.congr htp
  · exact hback

theorem Kept.loop {attempts : List Attempt} (h : Kept p log) (hexact : ∀ x ∈ loopSent cfg space idle attempts p, x.Exact) :
    (tcp_output_loop cfg space idle attempts p : Flow Panic Exit Inpcb).Ends
      (fun q => Kept q (loopSent cfg space idle attempts p ++ log)) R := by
  induction attempts generalizing p log with
  | nil =>
    rw [tcp_output_loop_nil]
    by_cases hwanted : turnWanted space idle p = true
    · rw [if_pos hwanted]
      exact h.pullBack.congr rfl
    · rw [if_neg hwanted]
      exact h.rest
  | cons a attempts ih =>
    rw [tcp_output_loop_cons]
    unfold loopSent at hexact ⊢
    by_cases hwanted : turnWanted space idle p = true
    · rw [if_pos hwanted] at hexact ⊢ 
      rw [if_pos hwanted]
      have hturn : (turn cfg space a p).Ends
          (fun r => (r.1 = true → (∀ x ∈ turnSent space a { p with tp := Tcp.pullBack p }, x.Exact) →
              Kept r.2 (turnSent space a { p with tp := Tcp.pullBack p } ++ log)) ∧
            (r.1 = false → Kept r.2 log)) R :=
        h.pullBack.sendSegment cfg a (sendOff p)
      cases hr : turn cfg space a p with
      | go r =>
        rw [hr] at hturn hexact
        obtain ⟨sent, q⟩ := r
        obtain ⟨hsent, hnot⟩ := hturn
        cases sent with
        | true =>
          generalize turnSent space a { p with tp := Tcp.pullBack p } = now at hexact hsent
          change ∀ x ∈ (if sendalot p then loopSent cfg space idle attempts q else []) ++ now, x.Exact
            at hexact
          have hq : Kept q (now ++ log) := hsent rfl fun x hx => hexact x (mem_append_right _ hx)
          change Flow.Ends (fun r => Kept r
            (((if sendalot p then loopSent cfg space idle attempts q else []) ++ now) ++ log)) _
            (if (true && sendalot p) = true then tcp_output_loop cfg space idle attempts q else .go q)
          rw [append_assoc, Bool.true_and]
          by_cases hmore : sendalot p = true
          · rw [if_pos hmore] at hexact ⊢
            rw [if_pos hmore]
            exact ih hq fun x hx => hexact x (mem_append_left _ hx)
          · rw [if_neg hmore, if_neg hmore]
            exact hq
        | false => exact hnot rfl
      | leave e =>
        rw [hr] at hturn
        exact hturn
      | panic e => trivial
    · rw [if_neg hwanted, if_neg hwanted]
      exact h.rest

/-- SRC: netinet/tcp_output.c:103-558 -/
theorem Kept.tcp_output (h : Kept p log) {env : OutputEnv} (hexact : ∀ x ∈ outputSent cfg env p, x.Exact) :
    (Tcp.tcp_output cfg env p : Flow Panic Exit Inpcb).Ends
      (fun q => Kept q (outputSent cfg env p ++ log)) R := by
  unfold Tcp.tcp_output
  refine Kept.loop cfg ?_ hexact
  split_ifs
  · exact h.congr rfl
  · exact h

end Output

end Telling

end Osf1.Tcp
