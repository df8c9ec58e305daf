import Osf1.Tcp.Prediction
import Osf1.Tcp.Telling

/-!
# The window over a run

Each part of `tcp_input` leaves what the peer has been told as it is.  So in every run that loses nothing
when a window is divided, the right edge does not go back.
-/

set_option autoImplicit false

namespace Osf1.Tcp

open Osf1.Computation Option

variable (cfg : Config) {p q : Inpcb} {log : List Sent} {w : Work}

section Exits

/-- What is left to be done at a label keeps what holds. -/
def Exit.Kept (log : List Sent) (e : Exit) : Prop := ∀ out q, e.reply = some (out, q) → Tcp.Kept q log

theorem Kept.exit (h : Kept p log) :
    (∀ needoutput, (Exit.done needoutput p).Kept log) ∧ (∀ rst, (Exit.dropafterack rst p).Kept log) ∧
      (Exit.drop p).Kept log ∧ (Exit.dropwithreset p).Kept log ∧
      ∀ error, (Exit.tcp_drop error p).Kept log := by
  refine ⟨fun needoutput out q hq => ?_, fun rst out q hq => ?_, fun out q hq => ?_,
    fun out q hq => ?_, fun error out q hq => ?_⟩
  · cases hq
    exact h
  · cases rst with
    | true =>
      cases hq
      exact h
    | false =>
      cases hq
      exact h.congr rfl
  · cases hq
    exact h
  · cases hq
    exact h
  · simp only [Exit.reply] at hq
    split_ifs at hq with hsyn
    cases hq
    have hack : outACK p.tp.t_state = true := by
      revert hsyn
      cases p.tp.t_state <;> decide
    exact h.goto rfl rfl rfl (.inl rfl) hack rfl rfl

theorem Kept.closed : Exit.closed.Kept log := fun _ _ hq => nomatch hq

end Exits

section Trim

theorem Kept.trimHead (h : Kept w.p log) : (Tcp.trimHead cfg w).Ends (fun w' => Kept w'.p log) (Exit.Kept log) := by
  unfold Tcp.trimHead
  dsimp only
  split_ifs
  all_goals first
    | exact h
    | exact h.congr rfl
    | exact h.exit.2.1 _

theorem Kept.trimTail (h : Kept w.p log) : (Tcp.trimTail w).Ends (fun w' => Kept w'.p log) (Exit.Kept log) := by
  unfold Tcp.trimTail
  dsimp only
  split_ifs
  · exact h
  · exact Kept.closed
  · exact h.congr rfl
  · exact h.exit.2.1 _
  · exact h

theorem Kept.trim (h : Kept w.p log) : (Tcp.trim cfg w).Ends (fun w' => Kept w'.p log) (Exit.Kept log) := by
  refine (h.trimHead cfg).bind fun w hw => ?_
  by_cases hgone : w.p.so.nofdref = true ∧ State.CLOSE_WAIT.num < w.p.tp.t_state.num ∧ w.ti.ti_len ≠ 0
  · rw [if_pos hgone]
    exact Kept.closed
  · rw [if_neg hgone]
    refine hw.trimTail.bind fun w hw => ?_
    split_ifs
    · exact Kept.closed
    · exact hw.exit.2.2.2.2 _
    · exact hw.exit.2.2.1
    · exact hw

end Trim

section Queue

theorem presentLoop_state (tp : Tcpcb) (so : Socket) : (present tp so).1.t_state = tp.t_state := by
  unfold present
  split_ifs <;> rfl

theorem tcp_reass_state (tp : Tcpcb) (so : Socket) (ti : Option Tcpiphdr) :
    (tcp_reass tp so ti).1.t_state = tp.t_state := by
  cases ti with
  | none => exact presentLoop_state tp so
  | some ti =>
    unfold tcp_reass
    dsimp only
    split
    · rfl
    · exact presentLoop_state _ so

theorem TCP_REASS_state (tp : Tcpcb) (so : Socket) (ti : Tcpiphdr) :
    (TCP_REASS tp so ti).1.t_state = tp.t_state := by
  unfold TCP_REASS
  split_ifs
  · rfl
  · exact tcp_reass_state tp so (some ti)

theorem view_presentQueued : (presentQueued p).tp.view = p.tp.view := by
  have hstate := tcp_reass_state p.tp.toTcpcb p.so.toSocket none
  unfold presentQueued Tcb.view
  rw [hstate]

theorem view_noteReceived (so : Sock) (tp : Tcb) : (noteReceived so tp).view = tp.view := by
  unfold noteReceived
  dsimp only
  split_ifs <;> rfl

end Queue

section Ack

theorem opening_of_num {t : State} (h : State.ESTABLISHED.num ≤ t.num) : t.opening = false ∧ outACK t = true := by
  revert h
  cases t <;> decide

theorem windowScaling_scale (tp : Tcb) :
    (windowScaling tp).rcv_scale = tp.rcv_scale ∨ (windowScaling tp).rcv_scale = tp.request_r_scale := by
  unfold windowScaling
  split_ifs
  · exact .inr rfl
  · exact .inl rfl

theorem windowScaling_view (tp : Tcb) : { windowScaling tp with rcv_scale := tp.rcv_scale }.view = tp.view := by
  unfold windowScaling
  split_ifs <;> rfl

theorem Kept.established (h : Kept p log) (hack : outACK p.tp.t_state = true) (so : Sock) :
    Kept { p with tp := windowScaling { p.tp with t_state := .ESTABLISHED }, so := so } log := by
  have hview := windowScaling_view { p.tp with t_state := .ESTABLISHED }
  unfold Tcb.view at hview
  simp only [Prod.mk.injEq, true_and] at hview
  obtain ⟨hadv, hirs, hrequest, hstate⟩ := hview
  refine h.goto hirs hadv hrequest (windowScaling_scale _) hack ?_ ?_
  · exact (congrArg outACK hstate).trans rfl
  · exact (congrArg State.opening hstate).trans rfl

theorem Kept.ackSyn (h : Kept w.p log) : (Tcp.ackSyn w).Ends (fun w' => Kept w'.p log) (Exit.Kept log) := by
  unfold Tcp.ackSyn
  by_cases hstate : w.p.tp.t_state = .SYN_RECEIVED
  · rw [if_pos hstate]
    split_ifs
    · exact h.exit.2.2.2.1
    · have hack : outACK w.p.tp.t_state = true := congrArg outACK hstate
      exact ((h.established hack (soisconnected w.p.so)).congr view_presentQueued).congr rfl
  · rw [if_neg hstate]
    exact h

variable {tiwin : tcp_seq} {env : OutputEnv}

theorem Kept.resend (h : Kept p log) {R : Exit → Prop}
    (hexact : ∀ x ∈ (some q).elim [] (outputSent cfg env), x.Exact) (hview : q.tp.view = p.tp.view) :
    (Tcp.tcp_output cfg env q : Flow Panic Exit Inpcb).Ends
      (fun r => Kept r ((some q).elim [] (outputSent cfg env) ++ log)) R :=
  Kept.tcp_output cfg (h.congr hview) hexact

theorem Kept.duplicateAck (h : Kept w.p log)
    (hexact : ∀ x ∈ (duplicateCall tiwin w).elim [] (outputSent cfg env), x.Exact) :
    (Tcp.duplicateAck cfg env tiwin w).Ends
      (fun w' => Kept w'.p ((duplicateCall tiwin w).elim [] (outputSent cfg env) ++ log))
      (Exit.Kept ((duplicateCall tiwin w).elim [] (outputSent cfg env) ++ log)) := by
  unfold Tcp.duplicateAck duplicateCall at *
  by_cases hdup : w.ti.ti_len = 0 ∧ tiwin = w.p.tp.snd_wnd
  · simp only [if_pos hdup] at hexact ⊢
    by_cases hno : w.p.tp.t_rexmt = 0 ∨ w.ti.ti_ack ≠ w.p.tp.snd_una
    · simp only [if_pos hno]
      exact h.congr rfl
    · simp only [if_neg hno] at hexact ⊢
      by_cases hthird : short (w.p.tp.t_dupacks + 1) = tcprexmtthresh
      · simp only [if_pos hthird] at hexact ⊢
        refine (h.resend cfg hexact rfl).bind fun q hq => ?_
        refine (Kept.exit (hq.congr ?_)).2.2.1
        split_ifs <;> rfl
      · simp only [if_neg hthird] at hexact ⊢
        by_cases hmore : tcprexmtthresh < short (w.p.tp.t_dupacks + 1)
        · simp only [if_pos hmore] at hexact ⊢
          refine (h.resend cfg hexact rfl).bind fun q hq => ?_
          exact hq.exit.2.2.1
        · simp only [if_neg hmore]
          exact h.congr rfl
  · simp only [if_neg hdup]
    exact h.congr rfl

theorem view_retractWindow (tp : Tcb) : (retractWindow tp).view = tp.view := by
  unfold retractWindow
  split_ifs <;> rfl

theorem view_timeAck (ack : tcp_seq) (tp : Tcb) : (timeAck ack tp).view = tp.view := by
  unfold timeAck
  split_ifs <;> rfl

theorem view_restartRexmt (ack : tcp_seq) (tp : Tcb) : (restartRexmt ack tp).view = tp.view := by
  unfold restartRexmt
  split_ifs <;> rfl

theorem Kept.later (h : Kept p log) (hview : { q.tp with t_state := p.tp.t_state }.view = p.tp.view)
    (hack : outACK p.tp.t_state = true) (t : State) (ht : q.tp.t_state = t)
    (hnum : State.ESTABLISHED.num ≤ t.num) : Kept q log := by
  unfold Tcb.view at hview
  simp only [Prod.mk.injEq, and_true] at hview
  obtain ⟨hadv, hirs, hscale, hrequest⟩ := hview
  obtain ⟨hopening, hack'⟩ := opening_of_num hnum
  exact h.goto hirs hadv hrequest (.inl hscale) hack (ht ▸ hack') (ht ▸ hopening)

theorem Kept.ackFin (h : Kept w.p log) (ourfinisacked : Bool) :
    (Tcp.ackFin ourfinisacked w).Ends (fun w' => Kept w'.p log) (Exit.Kept log) := by
  unfold Tcp.ackFin
  cases hstate : w.p.tp.t_state with
  | FIN_WAIT_1 =>
    have hack := congrArg outACK hstate
    split_ifs
    · exact h.later rfl hack .FIN_WAIT_2 rfl (by decide)
    · exact h.later rfl hack .FIN_WAIT_2 rfl (by decide)
    · exact h
  | CLOSING =>
    have hack := congrArg outACK hstate
    dsimp only
    split_ifs
    · exact h.later rfl hack .TIME_WAIT rfl (by decide)
    · exact h
  | LAST_ACK =>
    dsimp only
    split_ifs
    · exact Kept.closed
    · exact h
  | TIME_WAIT =>
    have hwait : Kept { w.p with tp := { w.p.tp with t_2msl := 2 * TCPTV_MSL } } log := h.congr rfl
    exact hwait.exit.2.1 _
  | _ => exact h

theorem Kept.dropAcked (h : Kept p log) (acked : ℤ) :
    (Tcp.dropAcked acked p).Ends (fun r => Kept r.2 log) (Exit.Kept log) := by
  have hdrop (len : ℤ) : (sbdrop len p.so : Flow Panic Exit Sock).Ends (fun _ => True)
      (Exit.Kept log) := by
    unfold sbdrop
    split_ifs
    · trivial
    · trivial
  unfold Tcp.dropAcked
  split_ifs
  · exact (hdrop _).bind fun so _ => h.congr rfl
  · exact (hdrop _).bind fun so _ => h.congr rfl

theorem Kept.newAck (h : Kept w.p log) : (Tcp.newAck w).Ends (fun w' => Kept w'.p log) (Exit.Kept log) := by
  have hretract : Kept { w.p with tp := retractWindow w.p.tp } log := h.congr (view_retractWindow _)
  unfold Tcp.newAck
  dsimp only
  split_ifs
  · exact hretract.exit.2.1 _
  · have hopen : Kept { w.p with tp := openWindow (restartRexmt w.ti.ti_ack
        (timeAck w.ti.ti_ack (retractWindow w.p.tp))) } log := by
      refine hretract.congr ?_
      change (restartRexmt _ _).view = _
      rw [view_restartRexmt, view_timeAck]
    refine (hopen.dropAcked _).bind fun r hr => ?_
    refine Kept.ackFin ?_ _
    exact hr.congr rfl

end Ack

section Step6

theorem view_advanceUrgent : (advanceUrgent cfg w).p.tp.view = w.p.tp.view := by
  unfold advanceUrgent
  dsimp only
  split_ifs <;> rfl

theorem Kept.urgent (h : Kept w.p log) : (Tcp.urgent cfg w).Ends (fun w' => Kept w'.p log) (Exit.Kept log) := by
  have hadvance : Kept (advanceUrgent cfg w).p log := h.congr (view_advanceUrgent cfg)
  unfold Tcp.urgent
  dsimp only
  split_ifs
  · exact h
  · unfold tcp_pulloutofband
    split
    · trivial
    · exact hadvance.congr rfl
  · exact hadvance
  · exact h.congr rfl
  · exact h.congr rfl

theorem view_updateWindow (tiwin : tcp_seq) : (updateWindow tiwin w).p.tp.view = w.p.tp.view := by
  unfold updateWindow
  split_ifs <;> rfl

theorem view_segmentText : (segmentText w).2.tp.view = w.p.tp.view := by
  have hstate := TCP_REASS_state w.p.tp.toTcpcb w.p.so.toSocket w.ti.toTcpiphdr
  unfold segmentText
  split_ifs
  · dsimp only
    rw [view_noteReceived]
    unfold Tcb.view
    rw [hstate]
  · rfl

theorem Kept.receiveFin (h : Kept p log) : Kept (Tcp.receiveFin p) log := by
  unfold Tcp.receiveFin
  have hfirst : Kept (if TCPS_HAVERCVDFIN p.tp.t_state = true then p
      else
        { p with
          tp := { p.tp with tf_acknow := true, rcv_nxt := p.tp.rcv_nxt + 1 }
          so := { p.so with cantrcvmore := true } }) log := by
    split_ifs
    · exact h
    · exact h.congr rfl
  generalize (if TCPS_HAVERCVDFIN p.tp.t_state = true then p
      else
        { p with
          tp := { p.tp with tf_acknow := true, rcv_nxt := p.tp.rcv_nxt + 1 }
          so := { p.so with cantrcvmore := true } }) = q at hfirst
  dsimp only
  cases hstate : q.tp.t_state with
  | FIN_WAIT_2 => exact hfirst.later rfl (congrArg outACK hstate) .TIME_WAIT rfl (by decide)
  | TIME_WAIT => exact hfirst.congr rfl
  | SYN_RECEIVED => exact hfirst.later rfl (congrArg outACK hstate) .CLOSE_WAIT rfl (by decide)
  | ESTABLISHED => exact hfirst.later rfl (congrArg outACK hstate) .CLOSE_WAIT rfl (by decide)
  | FIN_WAIT_1 => exact hfirst.later rfl (congrArg outACK hstate) .CLOSING rfl (by decide)
  | _ =>
    refine hfirst.congr ?_
    unfold Tcb.view
    rw [hstate]
    rfl

theorem Kept.step6 (h : Kept w.p log) (tiwin : tcp_seq) :
    (Tcp.step6 cfg tiwin w).Ends (fun _ => True) (Exit.Kept log) := by
  refine Flow.Ends.bind (Kept.urgent cfg (h.congr (view_updateWindow tiwin))) fun w' hw => ?_
  have htext := hw.congr view_segmentText
  refine (Kept.exit ?_).1 _
  split_ifs
  · exact htext.receiveFin
  · exact htext

end Step6

section Open

theorem view_tcp_mss (route : Option Mss) : (tcp_mss route p).tp.view = p.tp.view := by
  unfold tcp_mss
  split <;> rfl

theorem view_tcp_dooptions (ti : Segment) (opts : List Opt) : (tcp_dooptions ti opts p).tp.view = p.tp.view := by
  unfold tcp_dooptions
  split_ifs
  · induction opts generalizing p with
    | nil => rfl
    | cons o opts ih =>
      refine ih.trans ?_
      cases o with
      | maxseg route => exact view_tcp_mss route
      | window shift => rfl
  · rfl

theorem view_trimSyn : (trimSyn w).p.tp.view = w.p.tp.view := by
  unfold trimSyn
  dsimp only
  split_ifs <;> rfl

theorem Kept.opened (h : Kept p log) (hno : outACK p.tp.t_state = false)
    (hadv : q.tp.rcv_adv = q.tp.irs + 1) (hrequest : q.tp.request_r_scale = p.tp.request_r_scale)
    (hscale : q.tp.rcv_scale = p.tp.rcv_scale) : Kept q log := by
  rw [h.fresh hno]
  have hopening : p.tp.t_state.opening = true := by
    revert hno
    cases p.tp.t_state <;> decide
  have hzero := h.opening hopening
  exact ⟨.nil q, hscale ▸ h.rcv_scale, hrequest ▸ h.request, fun _ => hscale.trans hzero, fun _ => rfl,
    fun _ _ => hadv⟩

theorem Kept.listening (h : Kept w.p log) (hstate : w.p.tp.t_state = .LISTEN) (inp : Input) :
    (Tcp.listening inp w).Ends (fun w' => Kept w'.p log) (Exit.Kept log) := by
  unfold Tcp.listening
  split_ifs
  · exact h.exit.2.2.1
  · exact h.exit.2.2.2.1
  · exact h.exit.2.2.1
  · have hview := view_tcp_dooptions (p := { w.p with tp := { w.p.tp with template := true } }) w.ti inp.opts
    generalize tcp_dooptions w.ti inp.opts { w.p with tp := { w.p.tp with template := true } } = q at hview
    have hno : outACK q.tp.t_state = false := by
      have hq : q.tp.t_state = w.p.tp.t_state := congrArg (fun v => v.2.2.2.2) hview
      exact congrArg outACK (hq.trans hstate)
    have hq : Kept q log := h.congr hview
    refine Kept.congr ?_ view_trimSyn
    exact hq.opened hno rfl rfl rfl

theorem view_tcp_xmit_timer (tp : Tcb) : (tcp_xmit_timer tp).view = tp.view := by
  rfl

theorem Kept.synReceived (h : Kept { w.p with tp := { w.p.tp with t_state := .SYN_RECEIVED } } log) :
    Kept (Tcp.synReceived w) log := by
  unfold Tcp.synReceived
  dsimp only
  have hqueued : Kept (presentQueued
      { w.p with
        tp := windowScaling { w.p.tp with t_state := .ESTABLISHED }
        so := soisconnected w.p.so }) log :=
    (h.established rfl (soisconnected w.p.so)).congr view_presentQueued
  split_ifs
  · exact hqueued.congr (view_tcp_xmit_timer _)
  · exact hqueued
  · exact h

theorem Kept.synSent (h : Kept w.p log) (hstate : w.p.tp.t_state = .SYN_SENT) :
    (Tcp.synSent w).Ends (fun w' => Kept w'.p log) (Exit.Kept log) := by
  have hno := congrArg outACK hstate
  unfold Tcp.synSent
  by_cases hbad : w.fl.ack = true ∧
      (SEQ_LEQ w.ti.ti_ack w.p.tp.iss = true ∨ SEQ_GT w.ti.ti_ack w.p.tp.snd_max = true)
  · rw [if_pos hbad]
    exact h.exit.2.2.2.1
  rw [if_neg hbad]
  by_cases hrst : w.fl.rst = true
  · rw [if_pos hrst]
    by_cases hack : w.fl.ack = true
    · rw [if_pos hack]
      exact h.exit.2.2.2.2 _
    · rw [if_neg hack]
      exact h.exit.2.2.1
  rw [if_neg hrst]
  by_cases hsyn : w.fl.syn = false
  · rw [if_pos hsyn]
    exact h.exit.2.2.1
  rw [if_neg hsyn]
  have huna : (if w.fl.ack = true then advanceUna w.ti.ti_ack w.p.tp else w.p.tp).view = w.p.tp.view := by
    split_ifs <;> rfl
  generalize (if w.fl.ack = true then advanceUna w.ti.ti_ack w.p.tp else w.p.tp) = tp at huna
  have hscale : tp.rcv_scale = w.p.tp.rcv_scale := congrArg (fun v => v.2.2.1) huna
  have hrequest : tp.request_r_scale = w.p.tp.request_r_scale := congrArg (fun v => v.2.2.2.1) huna
  refine Kept.congr (Kept.synReceived ?_) view_trimSyn
  exact h.opened hno rfl hrequest hscale

end Open

section Input

theorem Kept.headerPrediction (h : Kept w.p log) (tiwin : tcp_seq) (space : BitVec 32) :
    (Tcp.headerPrediction tiwin space w).Ends (fun w' => Kept w'.p log) (Exit.Kept log) := by
  unfold Tcp.headerPrediction
  split_ifs
  · have hfast : (ackFastTcb w.ti.ti_ack w.p.tp).view = w.p.tp.view := by
      unfold ackFastTcb
      dsimp only
      split_ifs
      · exact view_timeAck w.ti.ti_ack w.p.tp
      · exact view_timeAck w.ti.ti_ack w.p.tp
      · exact view_timeAck w.ti.ti_ack w.p.tp
    unfold ackFast sbdrop
    split_ifs
    · trivial
    · exact (Kept.exit (h.congr hfast)).1 _
  · unfold dataFast
    exact (Kept.exit (h.congr (view_noteReceived _ _))).1 _
  · exact h

variable {inp : Input} {tiwin : tcp_seq}

theorem Kept.acknowledged (h : Kept w.p log) {env : OutputEnv}
    (hexact : ∀ x ∈ ackSent cfg env tiwin (.go w), x.Exact) :
    ((if SEQ_LEQ w.ti.ti_ack w.p.tp.snd_una then Tcp.duplicateAck cfg env tiwin w
        else Tcp.newAck w) >>= Tcp.step6 cfg tiwin).Ends (fun _ => True)
      (Exit.Kept (ackSent cfg env tiwin (.go w) ++ log)) := by
  unfold ackSent at hexact ⊢
  dsimp only at hexact ⊢
  by_cases hdup : SEQ_LEQ w.ti.ti_ack w.p.tp.snd_una = true
  · rw [if_pos hdup] at hexact ⊢
    rw [if_pos hdup]
    exact (h.duplicateAck cfg hexact).bind fun w' hw => hw.step6 cfg tiwin
  · rw [if_neg hdup, if_neg hdup]
    exact h.newAck.bind fun w' hw => hw.step6 cfg tiwin

theorem Kept.past (h : Kept w.p log) {env : OutputEnv}
    (hexact : ∀ x ∈ ackSent cfg env tiwin (do
        let w ← Tcp.trim cfg w
        Tcp.ackSyn w), x.Exact) :
    (do
        let w ← Tcp.trim cfg w
        let w ← Tcp.ackProcessing cfg env tiwin w
        Tcp.step6 cfg tiwin w).Ends (fun _ => True)
      (Exit.Kept (ackSent cfg env tiwin (do
        let w ← Tcp.trim cfg w
        Tcp.ackSyn w) ++ log)) := by
  have htrim := h.trim cfg
  cases ht : Tcp.trim cfg w with
  | leave e =>
    rw [ht] at htrim
    exact htrim
  | panic e => trivial
  | go w1 =>
    rw [ht] at htrim hexact
    have hack := Kept.ackSyn htrim
    change (Tcp.ackProcessing cfg env tiwin w1 >>= _).Ends _ _
    unfold Tcp.ackProcessing
    change ∀ x ∈ ackSent cfg env tiwin (Tcp.ackSyn w1), x.Exact at hexact
    change Flow.Ends _ (Exit.Kept (ackSent cfg env tiwin (Tcp.ackSyn w1) ++ log)) _
    cases ha : Tcp.ackSyn w1 with
    | leave e =>
      rw [ha] at hack
      exact hack
    | panic e => trivial
    | go w2 =>
      rw [ha] at hack hexact
      exact Kept.acknowledged cfg hack hexact

theorem Kept.processSegment (h : Kept p log) (hexact : ∀ x ∈ duplicateSent cfg inp p, x.Exact) :
    (Tcp.processSegment cfg inp p).Ends (fun _ => True)
      (Exit.Kept (duplicateSent cfg inp p ++ log)) := by
  unfold duplicateSent toAck at hexact ⊢
  unfold Tcp.processSegment
  generalize unscale inp.ti p.tp = tiwin at hexact ⊢
  by_cases hclosed : p.tp.t_state = .CLOSED
  · rw [if_pos hclosed, if_pos hclosed]
    exact h.exit.2.2.1
  rw [if_neg hclosed] at hexact ⊢
  rw [if_neg hclosed]
  dsimp only at hexact ⊢
  have hopts : Kept (if p.tp.t_state = .LISTEN then
        { p with tp := { p.tp with t_idle := 0, t_keep := tcp_keepidle } }
      else tcp_dooptions inp.ti inp.opts
        { p with tp := { p.tp with t_idle := 0, t_keep := tcp_keepidle } }) log := by
    split_ifs
    · exact h.congr rfl
    · exact h.congr (view_tcp_dooptions _ _)
  generalize (if p.tp.t_state = .LISTEN then
        { p with tp := { p.tp with t_idle := 0, t_keep := tcp_keepidle } }
      else tcp_dooptions inp.ti inp.opts
        { p with tp := { p.tp with t_idle := 0, t_keep := tcp_keepidle } }) = q at hopts hexact ⊢
  have hpred := Kept.headerPrediction (w := ⟨q, inp.ti, inp.ti.tiflags, false⟩) hopts tiwin inp.space
  cases hr : Tcp.headerPrediction tiwin inp.space ⟨q, inp.ti, inp.ti.tiflags, false⟩ with
  | leave e =>
    rw [hr] at hpred
    exact hpred
  | panic e => trivial
  | go w =>
    rw [hr] at hpred hexact
    have hwindow : Kept { w.p with tp := receiveWindow inp.space w.p.tp } log := hpred.congr rfl
    simp only [Flow.go_bind] at hexact ⊢
    unfold Tcp.generalPath
    cases hstate : (receiveWindow inp.space w.p.tp).t_state with
    | LISTEN =>
      simp only [hstate] at hexact ⊢
      have hlisten := Kept.listening (w := { w with p := { w.p with tp := receiveWindow inp.space w.p.tp } })
        hwindow hstate inp
      exact hlisten.bind fun w hw => hw.step6 cfg tiwin
    | SYN_SENT =>
      simp only [hstate] at hexact ⊢
      have hsyn := Kept.synSent (w := { w with p := { w.p with tp := receiveWindow inp.space w.p.tp } })
        hwindow hstate
      exact hsyn.bind fun w hw => hw.step6 cfg tiwin
    | _ =>
      simp only [hstate] at hexact ⊢
      exact Kept.past cfg hwindow hexact

end Input

section Run

theorem Kept.init (h : Opening p) : Kept p [] := by
  obtain ⟨hstate, hscale, hrequest⟩ := h
  have hno : outACK p.tp.t_state = false := by
    rcases hstate with heq | heq
    · exact congrArg outACK heq
    · exact congrArg outACK heq
  refine ⟨.nil p, hscale ▸ Nat.zero_le _, hrequest, fun _ => hscale, fun _ => rfl, fun _ hack => ?_⟩
  exact Bool.noConfusion (hno.symm.trans hack)

theorem Kept.outputGo (h : Kept p log) {env : OutputEnv} (hexact : ∀ x ∈ outputSent cfg env p, x.Exact)
    (hq : Tcp.outputGo cfg env p = some q) : Kept q (outputSent cfg env p ++ log) := by
  have hends := h.tcp_output cfg hexact (R := fun _ => True)
  unfold Tcp.outputGo at hq
  cases hr : (Tcp.tcp_output cfg env p : Flow Panic Exit Inpcb) with
  | go r =>
    rw [hr] at hends hq
    cases hq
    exact hends
  | leave e =>
    rw [hr] at hq
    cases hq
  | panic e =>
    rw [hr] at hq
    cases hq

theorem Kept.elsewhere (h : Kept p log) (hq : Elsewhere p q) : Kept q log := by
  obtain ⟨-, hadv, hirs, hscale, hrequest, hstate⟩ := hq
  have hview (hsame : q.tp.t_state = p.tp.t_state) : q.tp.view = p.tp.view := by
    unfold Tcb.view
    rw [hadv, hirs, hscale, hrequest, hsame]
  rcases hstate with hsame | hclose
  · exact h.congr (hview hsame)
  · by_cases hsame : p.tp.t_state.usrclosed = p.tp.t_state
    · exact h.congr (hview (hclose.trans hsame))
    · have hlater : outACK p.tp.t_state = true ∧
          State.ESTABLISHED.num ≤ p.tp.t_state.usrclosed.num := by
        revert hsame
        cases p.tp.t_state <;> decide
      obtain ⟨hopening, hack⟩ := opening_of_num hlater.2
      exact h.goto hirs hadv hrequest (.inl hscale) hlater.1 (hclose ▸ hack) (hclose ▸ hopening)

theorem Kept.inputReply (h : Kept p log) {inp : Input} {out : Bool}
    (hexact : ∀ x ∈ duplicateSent cfg inp p, x.Exact) (hq : Tcp.inputReply cfg inp p = some (out, q)) :
    Kept q (duplicateSent cfg inp p ++ log) := by
  have hends := h.processSegment cfg hexact
  unfold Tcp.inputReply at hq
  cases hr : Tcp.processSegment cfg inp p with
  | go r =>
    rw [hr] at hq
    cases hq
  | leave e =>
    rw [hr] at hends hq
    exact hends out q hq
  | panic e =>
    rw [hr] at hq
    cases hq

theorem Kept.step {s t : Channel} (h : Kept s.p s.sent) {e : Call}
    (hexact : ∀ x ∈ callSent cfg s.p e, x.Exact) (ht : callStep cfg s e = some t) : Kept t.p t.sent := by
  obtain ⟨q, hq, rfl⟩ := map_eq_some_iff.mp ht
  cases e with
  | tcp_input inp =>
    obtain ⟨⟨out, r⟩, hr, hq⟩ := bind_eq_some_iff.mp hq
    unfold callSent at hexact ⊢
    dsimp only at hexact ⊢
    rw [hr] at hexact ⊢
    cases out with
    | false =>
      cases hq
      exact h.inputReply cfg hexact hr
    | true =>
      have hreply := h.inputReply cfg (fun x hx => hexact x (List.mem_append_right _ hx)) hr
      have hgo := hreply.outputGo cfg (fun x hx => hexact x (List.mem_append_left _ hx)) hq
      rwa [← List.append_assoc] at hgo
  | tcp_output env => exact h.outputGo cfg hexact hq
  | other q' =>
    obtain ⟨hsame, hq⟩ := ite_none_right_eq_some.mp hq
    exact some_inj.mp hq ▸ h.elsewhere hsame

/-- In every run in which nothing is lost when a window is divided, the peer is told a right edge that does not
go back. -/
theorem window_honest {s : Channel} (hp : Opening p)
    (h : ((channel cfg p).restrict fun s e => ∀ x ∈ callSent cfg s.p e, x.Exact).Reachable s) : Honest s := by
  have hkept : Kept s.p s.sent := by
    apply h.invariant
    · rintro s rfl
      exact Kept.init hp
    · intro s e t _ hs hstep
      exact hs.step cfg hstep.1 hstep.2
  exact hkept.honest

/-- A connection that listens, and asks for a scale. -/
def listener (rcv_hiwat shift : ℕ) : Inpcb :=
  { established with
    tp :=
      { established.tp with
        t_state := .LISTEN
        tf_req_scale := true
        request_r_scale := shift
        t_rexmt := 0
        t_dupacks := 0
        template := false }
    so := { established.so with rcv_hiwat := rcv_hiwat, so_snd := [] } }

/-- The SYN of a peer that scales its window, and its answer. -/
def synInput (space : BitVec 32) : Input :=
  { nextInput 0 [] with
    ti := { nextSegment 0 [] with ti_seq := 399, th_syn := true, th_ack := false }
    opts := [.window 0]
    space := space
    tcp_iss := 999
    listen := true
    out := ⟨space, [⟨none, true, true, 0⟩]⟩ }

/-- A segment after the SYN, with the space before it and after it. -/
def dataInput (seq : tcp_seq) (m : List Byte) (fin : Bool) (before after : BitVec 32) : Input :=
  { nextInput 1000 m with
    ti := { nextSegment 1000 m with ti_seq := seq, th_fin := fin }
    space := before
    out := ⟨after, [⟨none, true, true, 0⟩]⟩ }

/-- The connection is established, and two bytes come before the one that is next. -/
def reordered : List Call :=
  [.tcp_input (synInput 100000), .tcp_input (dataInput 400 [] false 100000 100000),
    .tcp_input (dataInput 401 [1, 2] false 100000 100000)]

theorem window_honest_reordered : ∃ s : Channel,
    System.runFrom (callStep bsdConfig) ⟨listener 100000 1, []⟩ reordered = some s ∧
      s.sent.map Sent.told = [100000, 100000, 65535] ∧ Honest s := by
  have hsome : (System.runFrom (callStep bsdConfig) ⟨listener 100000 1, []⟩ reordered).map
      (fun s => s.sent.map Sent.told) = some [100000, 100000, 65535] := by decide +kernel
  have hexact : System.MeetsAlong (callStep bsdConfig)
      (fun s e => ∀ x ∈ callSent bsdConfig s.p e, x.Exact) ⟨listener 100000 1, []⟩ reordered :=
    .of_stepsPass (by decide +kernel)
  obtain ⟨s, hs, htold⟩ := map_eq_some_iff.mp hsome
  exact ⟨s, hs, htold, window_honest bsdConfig ⟨.inl rfl, rfl, by decide⟩
    (System.Reachable.runFrom_restrict (.init rfl) hexact hs)⟩

/-- The right edge goes back when the byte that is next comes.  A FIN at the end of the window lets a
window be told for which there is no space. -/
theorem window_dishonest :
    (Opening (listener 100000 1) ∧ ∃ s : Channel, (channel bsdConfig (listener 100000 1)).Reachable s ∧
      s.sent.map Sent.edge = [100399, 100400, 100400, 65935] ∧ ¬Honest s) ∧
    Opening (listener 3 0) ∧ ∃ s : Channel, (channel bsdConfig (listener 3 0)).Reachable s ∧
      (s.sent.map fun x => (x.told, x.space)) = [(65535, 0), (3, 3)] ∧ ¬Honest s := by
  refine ⟨⟨⟨.inl rfl, rfl, by decide⟩, ?_⟩, ⟨.inl rfl, rfl, by decide⟩, ?_⟩
  · have hsome : (System.runFrom (callStep bsdConfig) ⟨listener 100000 1, []⟩
        (reordered ++ [.tcp_input (dataInput 400 [0] false 100000 99997)])).map
        (fun s => s.sent.map Sent.edge) = some [100399, 100400, 100400, 65935] := by decide +kernel
    obtain ⟨s, hs, hedges⟩ := map_eq_some_iff.mp hsome
    refine ⟨s, System.reachable_of_runFrom hs, hedges, fun hhonest => ?_⟩
    have hsorted := hhonest.sorted
    rw [hedges] at hsorted
    revert hsorted
    decide
  · have hsome : (System.runFrom (callStep bsdConfig) ⟨listener 3 0, []⟩
        [.tcp_input (synInput 3), .tcp_input (dataInput 400 [1, 2, 3] true 3 0)]).map
        (fun s => (s.sent.map fun x => (x.told, x.space), s.sent.map Sent.edge, s.p.tp.rcv_adv)) =
        some ([(65535, 0), (3, 3)], [65939, 403], 403) := by decide +kernel
    obtain ⟨s, hs, hmap⟩ := map_eq_some_iff.mp hsome
    simp only [Prod.mk.injEq] at hmap
    obtain ⟨htold, hedges, hadv⟩ := hmap
    refine ⟨s, System.reachable_of_runFrom hs, htold, fun hhonest => ?_⟩
    have hlast := hhonest.told
    cases hsent : s.sent with
    | nil =>
      rw [hsent] at hedges
      cases hedges
    | cons x r =>
      rw [hsent, List.map_cons] at hedges
      have hx := hlast x (by rw [hsent]; rfl)
      rw [(List.cons.inj hedges).1, hadv] at hx
      revert hx
      decide

end Run

end Osf1.Tcp
