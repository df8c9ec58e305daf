import Osf1.Tcp.Input

/-!
# Header prediction against the general path

For a segment that is predicted the general path takes the segment whole, acknowledges and delivers
the same bytes, and restarts the same timers.  What it does beyond that is told by the fields that
header prediction leaves as they are.
-/

set_option autoImplicit false

namespace Osf1.Tcp

open Osf1.Computation

section Statement

/-- What header prediction leaves as it is: the windows, the counter of duplicate acknowledgements,
and what tells which window is the most recent one. -/
def withWindows (tp : Tcb) (g : Tcb) : Tcb :=
  { g with
    snd_wnd := tp.snd_wnd
    snd_cwnd := tp.snd_cwnd
    t_dupacks := tp.t_dupacks
    snd_wl1 := tp.snd_wl1
    snd_wl2 := tp.snd_wl2
    max_sndwnd := tp.max_sndwnd
    rcv_wnd := tp.rcv_wnd
    rcv_up := tp.rcv_up }

/-- A connection like another, but for the fields that header prediction leaves. -/
structure Agrees (p f g : Inpcb) : Prop where
  tp : f.tp = withWindows p.tp g.tp
  so : f.so = g.so
  copies : f.copies = g.copies

/-- The segment is later than the one whose window is known, or acknowledges more. -/
def fresh (ti : Segment) (tp : Tcb) : Bool :=
  SEQ_LT tp.snd_wl1 ti.ti_seq || tp.snd_wl1 == ti.ti_seq && SEQ_LT tp.snd_wl2 ti.ti_ack

/-- How header prediction and the general path end for a segment that is predicted. -/
structure Predicted (p : Inpcb) (ti : Segment) (quick general : Flow Panic Exit Work) (f g : Inpcb)
    (fout gout : Bool) : Prop where
  left : quick = .leave (.done fout f)
  passed : general = .leave (.done gout g)
  agrees : Agrees p f g
  window : ti.ti_len ≠ 0 ∨ fresh ti p.tp → g.tp.snd_wnd = p.tp.snd_wnd
  most : p.tp.snd_wnd ≤ p.tp.max_sndwnd → g.tp.max_sndwnd = p.tp.max_sndwnd
  congestion : ti.ti_len ≠ 0 → g.tp.snd_cwnd = p.tp.snd_cwnd
  output : ti.ti_len ≠ 0 ∨ fresh ti p.tp → fout = true → gout = true

end Statement

section Windows

variable (x : Tcb) (ack : tcp_seq) (tp : Tcb)

theorem withWindows_self : withWindows tp tp = tp := rfl

theorem withWindows_receiveWindow (space : BitVec 32) :
    withWindows x (receiveWindow space tp) = withWindows x tp := rfl

theorem withWindows_retractWindow : withWindows x (retractWindow tp) = withWindows x tp := by
  unfold retractWindow
  split_ifs
  · rfl
  · rfl

theorem withWindows_openWindow : withWindows x (openWindow tp) = withWindows x tp := rfl

theorem withWindows_timeAck : withWindows x (timeAck ack tp) = timeAck ack (withWindows x tp) := by
  by_cases h : tp.t_rtt ≠ 0 ∧ SEQ_GT ack tp.t_rtseq
  · have hx : (withWindows x tp).t_rtt ≠ 0 ∧ SEQ_GT ack (withWindows x tp).t_rtseq := h
    rw [timeAck, timeAck, if_pos h, if_pos hx]
    rfl
  · have hx : ¬((withWindows x tp).t_rtt ≠ 0 ∧ SEQ_GT ack (withWindows x tp).t_rtseq) := h
    rw [timeAck, timeAck, if_neg h, if_neg hx]

theorem withWindows_restartRexmt : withWindows x (restartRexmt ack tp) = restartRexmt ack (withWindows x tp) := by
  by_cases hack : ack = tp.snd_max
  · have hx : ack = (withWindows x tp).snd_max := hack
    rw [restartRexmt, restartRexmt, if_pos hack, if_pos hx]
    rfl
  · have hx : ¬ack = (withWindows x tp).snd_max := hack
    rw [restartRexmt, restartRexmt, if_neg hack, if_neg hx]
    by_cases hpersist : tp.t_persist = 0
    · have hxpersist : (withWindows x tp).t_persist = 0 := hpersist
      rw [if_pos hpersist, if_pos hxpersist]
      rfl
    · have hxpersist : ¬(withWindows x tp).t_persist = 0 := hpersist
      rw [if_neg hpersist, if_neg hxpersist]

theorem withWindows_noteReceived (so : Sock) :
    withWindows x (noteReceived so tp) = noteReceived so (withWindows x tp) := by
  by_cases h : tp.max_rcvd < BitVec.ofNat 32 so.rcv_hiwat - (tp.rcv_adv - tp.rcv_nxt)
  · have hx : (withWindows x tp).max_rcvd <
        BitVec.ofNat 32 so.rcv_hiwat - ((withWindows x tp).rcv_adv - (withWindows x tp).rcv_nxt) := h
    rw [noteReceived, noteReceived, if_pos h, if_pos hx]
    rfl
  · have hx : ¬(withWindows x tp).max_rcvd <
        BitVec.ofNat 32 so.rcv_hiwat - ((withWindows x tp).rcv_adv - (withWindows x tp).rcv_nxt) := h
    rw [noteReceived, noteReceived, if_neg h, if_neg hx]

end Windows

section Trim

variable (cfg : Config) {space : BitVec 32} {w : Work}

theorem receiveWindow_spec {tp : Tcb} (hadv : 0 ≤ (tp.rcv_adv - tp.rcv_nxt).toInt) {n : ℕ}
    (hn : (n : ℤ) ≤ space.toInt ∨ n = 0) :
    n ≤ (receiveWindow space tp).rcv_wnd.toNat ∧
      (receiveWindow space tp).rcv_wnd.toNat < 2 ^ 31 := by
  unfold receiveWindow
  generalize tp.rcv_adv - tp.rcv_nxt = left at hadv ⊢
  have hleft := BitVec.toInt_eq_toNat_cond left
  have hspace := BitVec.toInt_eq_toNat_cond space
  have hzero : (0 : BitVec 32).toNat = 0 := rfl
  simp only [BitVec.lt_def]
  split_ifs at hleft hspace ⊢ <;> simp only [hzero] at * <;> omega

theorem trim_whole (hseq : w.ti.ti_seq = w.p.tp.rcv_nxt)
    (hle : w.ti.ti_len ≤ w.p.tp.rcv_wnd.toNat) (hlt : w.p.tp.rcv_wnd.toNat < 2 ^ 31)
    (hstate : w.p.tp.t_state = .ESTABLISHED) (hfl : w.fl = ⟨false, false, false, false, true⟩) :
    trim cfg w = .go w := by
  have hhead : trimHead cfg w = .go w := by
    have htodrop : (w.p.tp.rcv_nxt - w.ti.ti_seq).toInt ≤ 0 := by
      rw [hseq, BitVec.sub_self]
      decide
    exact if_pos htodrop
  have htail : trimTail w = .go w := by
    have hwnd : w.p.tp.rcv_nxt + w.p.tp.rcv_wnd =
        Serial.number w.p.tp.rcv_nxt w.p.tp.rcv_wnd.toNat := by
      rw [Serial.number, BitVec.ofNat_toNat, BitVec.setWidth_eq]
    have hend : w.ti.ti_seq + BitVec.ofNat 32 w.ti.ti_len =
        Serial.number w.p.tp.rcv_nxt w.ti.ti_len := by
      rw [hseq]
      rfl
    have htodrop : (w.ti.ti_seq + BitVec.ofNat 32 w.ti.ti_len -
        (w.p.tp.rcv_nxt + w.p.tp.rcv_wnd)).toInt ≤ 0 := by
      rw [hwnd, hend, Serial.toInt_number_sub (by omega) (by omega) (by omega)]
      omega
    exact if_pos htodrop
  have hnum : ¬(w.p.so.nofdref = true ∧ State.CLOSE_WAIT.num < w.p.tp.t_state.num ∧
      w.ti.ti_len ≠ 0) := by
    rw [hstate]
    rintro ⟨-, h, -⟩
    exact absurd h (by decide)
  unfold trim
  rw [hhead, Flow.go_bind, if_neg hnum, htail, Flow.go_bind, hfl]
  rfl

end Trim

section Ack

variable {ack : tcp_seq} {tp : Tcb}

/-- What the general path makes of the control block for an acknowledgement of outstanding data. -/
def ackedTcb (ack : tcp_seq) (acked : ℤ) (tp : Tcb) : Tcb :=
  let tp := openWindow (restartRexmt ack (timeAck ack (retractWindow tp)))
  advanceUna ack { tp with snd_wnd := tp.snd_wnd - BitVec.ofInt 32 acked }

theorem ackFastTcb_eq (ack : tcp_seq) (tp : Tcb) :
    ackFastTcb ack tp = { restartRexmt ack (timeAck ack tp) with snd_una := ack } := by
  by_cases hack : ack = (timeAck ack tp).snd_max
  · rw [restartRexmt, if_pos hack]
    exact if_pos hack
  · by_cases hpersist : (timeAck ack tp).t_persist = 0
    · rw [restartRexmt, if_neg hack, if_pos hpersist]
      exact (if_neg hack).trans (if_pos hpersist)
    · rw [restartRexmt, if_neg hack, if_neg hpersist]
      exact (if_neg hack).trans (if_neg hpersist)

theorem restartRexmt_timeAck (ack : tcp_seq) (tp : Tcb) :
    (restartRexmt ack (timeAck ack tp)).snd_nxt = tp.snd_nxt ∧
      (restartRexmt ack (timeAck ack tp)).snd_max = tp.snd_max ∧
      (restartRexmt ack (timeAck ack tp)).t_state = tp.t_state ∧
      withWindows tp (restartRexmt ack (timeAck ack tp)) = restartRexmt ack (timeAck ack tp) := by
  unfold restartRexmt timeAck
  split_ifs <;> exact ⟨rfl, rfl, rfl, rfl⟩

theorem seq_lt_false {una max : tcp_seq} (hout : SEQ_GEQ max una = true)
    (hgt : SEQ_GT ack una = true) (hle : SEQ_LEQ ack max = true) : SEQ_LT max ack = false := by
  simp only [SEQ_GEQ, SEQ_GT, SEQ_LEQ, SEQ_LT, decide_eq_true_iff, decide_eq_false_iff_not] at *
  have hnumber : ∀ y : tcp_seq, y = Serial.number una (y - una).toNat := by
    intro y
    rw [Serial.number, BitVec.ofNat_toNat, BitVec.setWidth_eq, BitVec.add_comm, BitVec.sub_add_cancel]
  have hmax := BitVec.toInt_eq_toNat_cond (max - una)
  have hack := BitVec.toInt_eq_toNat_cond (ack - una)
  rw [hnumber max, hnumber ack] at hle ⊢
  generalize max - una = d at *
  generalize ack - una = a at *
  split_ifs at hmax hack
  · rw [Serial.toInt_number_sub (by omega) (by omega) (by omega)] at hle ⊢
    omega
  · omega
  · omega
  · omega

theorem withWindows_ackedTcb (space : BitVec 32) (acked : ℤ) (hlt : SEQ_LT tp.snd_nxt ack = false) :
    withWindows tp (ackedTcb ack acked (receiveWindow space tp)) = ackFastTcb ack tp := by
  obtain ⟨hnxt, -⟩ := restartRexmt_timeAck ack tp
  rw [ackFastTcb_eq]
  unfold ackedTcb
  have hbut : withWindows tp (openWindow (restartRexmt ack (timeAck ack
      (retractWindow (receiveWindow space tp))))) = restartRexmt ack (timeAck ack tp) := by
    rw [withWindows_openWindow, withWindows_restartRexmt, withWindows_timeAck,
      withWindows_retractWindow, withWindows_receiveWindow, withWindows_self]
  generalize openWindow (restartRexmt ack (timeAck ack (retractWindow (receiveWindow space tp)))) = r
    at hbut
  have hr : SEQ_LT r.snd_nxt ack = false := by
    have hrnxt : r.snd_nxt = tp.snd_nxt := (congrArg (·.snd_nxt) hbut).trans hnxt
    rw [hrnxt, hlt]
  rw [← hbut]
  unfold advanceUna
  simp only [hr, Bool.false_eq_true, if_false]
  rfl

/-- What tells the most recent window, and the largest one. -/
def lastWindow (tp : Tcb) : tcp_seq × tcp_seq × tcp_seq := (tp.snd_wl1, tp.snd_wl2, tp.max_sndwnd)

theorem lastWindow_retractWindow (tp : Tcb) : lastWindow (retractWindow tp) = lastWindow tp := by
  unfold retractWindow
  split_ifs
  · rfl
  · rfl

theorem lastWindow_timeAck (ack : tcp_seq) (tp : Tcb) : lastWindow (timeAck ack tp) = lastWindow tp := by
  unfold timeAck
  split_ifs
  · rfl
  · rfl

theorem lastWindow_restartRexmt (ack : tcp_seq) (tp : Tcb) : lastWindow (restartRexmt ack tp) = lastWindow tp := by
  unfold restartRexmt
  split_ifs
  · rfl
  · rfl
  · rfl

theorem lastWindow_ackedTcb (ack : tcp_seq) (acked : ℤ) (tp : Tcb) :
    lastWindow (ackedTcb ack acked tp) = lastWindow tp := by
  have hrestart : lastWindow (restartRexmt ack (timeAck ack (retractWindow tp))) = lastWindow tp := by
    rw [lastWindow_restartRexmt, lastWindow_timeAck, lastWindow_retractWindow]
  exact hrestart

theorem newAck_established {w : Work} {so : Sock} (hstate : w.p.tp.t_state = .ESTABLISHED)
    (hmax : SEQ_GT w.ti.ti_ack w.p.tp.snd_max = false)
    (hacked : (w.ti.ti_ack - w.p.tp.snd_una).toInt ≤ w.p.so.so_snd.length)
    (hso : { w.p.so with
      so_snd := w.p.so.so_snd.drop (w.ti.ti_ack - w.p.tp.snd_una).toInt.toNat } = so) :
    newAck w = .go { w with
      p :=
        { w.p with
          tp := ackedTcb w.ti.ti_ack (w.ti.ti_ack - w.p.tp.snd_una).toInt w.p.tp
          so := so }
      needoutput := w.needoutput || w.ti.ti_ack == w.p.tp.snd_max } := by
  obtain ⟨p, ti, fl, needoutput⟩ := w
  have hretract : (retractWindow p.tp).snd_max = p.tp.snd_max ∧
      (retractWindow p.tp).snd_una = p.tp.snd_una ∧
      (retractWindow p.tp).t_state = p.tp.t_state := by
    unfold retractWindow
    split_ifs
    · exact ⟨rfl, rfl, rfl⟩
    · exact ⟨rfl, rfl, rfl⟩
  obtain ⟨hrmax, hruna, hrstate⟩ := hretract
  unfold newAck
  simp only [hrmax, hruna, hmax, Bool.false_eq_true, if_false]
  have hdrop : ∀ tp : Tcb, dropAcked (ti.ti_ack - p.tp.snd_una).toInt { p with tp := tp } =
      .go (false,
        { p with
          tp := { tp with
            snd_wnd := tp.snd_wnd - BitVec.ofInt 32 (ti.ti_ack - p.tp.snd_una).toInt }
          so := so }) := by
    intro tp
    unfold dropAcked sbdrop
    simp only [if_neg (Int.not_lt.mpr hacked), Flow.go_bind, hso]
  have hfin : ∀ w : Work, w.p.tp.t_state = .ESTABLISHED → ackFin false w = .go w := by
    intro w hw
    unfold ackFin
    rw [hw]
  obtain ⟨-, hneed, hsame, -⟩ := restartRexmt_timeAck ti.ti_ack (retractWindow p.tp)
  have hopen : (openWindow (restartRexmt ti.ti_ack (timeAck ti.ti_ack (retractWindow p.tp)))).snd_max =
      p.tp.snd_max := hneed.trans hrmax
  rw [hdrop, Flow.go_bind, hfin]
  · exact congrArg (fun max => Flow.go (⟨_, ti, fl, needoutput || ti.ti_ack == max⟩ : Work)) hopen
  · exact hsame.trans (hrstate.trans hstate)

end Ack

section Rest

variable (cfg : Config) (tiwin : tcp_seq) {w : Work}

/-- The flags of a segment that is predicted. -/
def plain : Tiflags := ⟨false, false, false, false, true⟩

/-- The receive urgent pointer keeps up with `rcv_nxt`. -/
def pullUp (tp : Tcb) : Tcb :=
  if SEQ_GT tp.rcv_nxt tp.rcv_up then { tp with rcv_up := tp.rcv_nxt } else tp

theorem pullUp_eq (tp : Tcb) : ∃ up, pullUp tp = { tp with rcv_up := up } := by
  unfold pullUp
  split_ifs
  · exact ⟨tp.rcv_nxt, rfl⟩
  · exact ⟨tp.rcv_up, rfl⟩

/-- The control block once the windows are up to date. -/
def windowed (w : Work) : Tcb := pullUp (updateWindow tiwin w).p.tp

theorem withWindows_windowed (x : Tcb) : withWindows x (windowed tiwin w) = withWindows x w.p.tp := by
  obtain ⟨up, hup⟩ := pullUp_eq (updateWindow tiwin w).p.tp
  rw [windowed, hup]
  unfold updateWindow
  by_cases hnew : windowIsNew tiwin w.fl w.ti w.p.tp = true
  · rw [if_pos hnew]
    rfl
  · rw [if_neg hnew]
    rfl

theorem windowed_windows :
    (windowed tiwin w).snd_wnd = (if windowIsNew tiwin w.fl w.ti w.p.tp then tiwin else w.p.tp.snd_wnd) ∧
      (windowed tiwin w).snd_cwnd = w.p.tp.snd_cwnd ∧
      (tiwin ≤ w.p.tp.max_sndwnd → (windowed tiwin w).max_sndwnd = w.p.tp.max_sndwnd) := by
  obtain ⟨up, hup⟩ := pullUp_eq (updateWindow tiwin w).p.tp
  rw [windowed, hup]
  unfold updateWindow
  by_cases hnew : windowIsNew tiwin w.fl w.ti w.p.tp = true
  · rw [if_pos hnew, if_pos hnew]
    exact ⟨rfl, rfl, fun hle => if_neg (BitVec.not_lt.mpr hle)⟩
  · rw [if_neg hnew, if_neg hnew]
    exact ⟨rfl, rfl, fun _ => rfl⟩

theorem windowIsNew_of_fresh {ti : Segment} {tp tp' : Tcb} (hlast : lastWindow tp' = lastWindow tp)
    (h : fresh ti tp = true) : windowIsNew tiwin plain ti tp' = true := by
  have hwl1 : tp'.snd_wl1 = tp.snd_wl1 := congrArg (·.1) hlast
  have hwl2 : tp'.snd_wl2 = tp.snd_wl2 := congrArg (·.2.1) hlast
  unfold fresh at h
  unfold windowIsNew
  rw [hwl1, hwl2]
  simp only [Bool.or_eq_true, Bool.and_eq_true] at h ⊢
  exact ⟨rfl, h.imp_right fun ⟨heq, hlt⟩ => ⟨heq, .inl hlt⟩⟩

theorem noteReceived_windows (so : Sock) (tp : Tcb) :
    (noteReceived so tp).snd_wnd = tp.snd_wnd ∧ (noteReceived so tp).snd_cwnd = tp.snd_cwnd ∧
      (noteReceived so tp).max_sndwnd = tp.max_sndwnd := by
  by_cases h : tp.max_rcvd < BitVec.ofNat 32 so.rcv_hiwat - (tp.rcv_adv - tp.rcv_nxt)
  · rw [noteReceived, if_pos h]
    exact ⟨rfl, rfl, rfl⟩
  · rw [noteReceived, if_neg h]
    exact ⟨rfl, rfl, rfl⟩

theorem segmentText_inline (hinline : inline w.p.tp.toTcpcb w.ti.toTcpiphdr = true)
    (hlen : w.ti.ti_len ≠ 0) (hfin : w.ti.th_fin = false) :
    segmentText w =
      (false, { w.p with
        tp := noteReceived { w.p.so with so_rcv := sbappend w.p.so.so_rcv w.ti.m }
          { w.p.tp with
            tf_delack := true
            rcv_nxt := w.p.tp.rcv_nxt + BitVec.ofNat 32 w.ti.ti_len }
        so := { w.p.so with so_rcv := sbappend w.p.so.so_rcv w.ti.m } }) := by
  have hrcvd : TCPS_HAVERCVDFIN w.p.tp.t_state = false := by
    unfold inline at hinline
    simp only [Bool.and_eq_true, beq_iff_eq] at hinline
    rw [hinline.2]
    rfl
  refine (if_pos ⟨.inl hlen, hrcvd⟩).trans ?_
  unfold TCP_REASS
  simp only [hinline, if_true, hfin]

theorem step6_plain (hfl : w.fl = plain) {p : Inpcb}
    (htext : segmentText { w with
      p := { w.p with tp := windowed tiwin w }
      needoutput := w.needoutput || windowIsNew tiwin w.fl w.ti w.p.tp } = (false, p)) :
    step6 cfg tiwin w =
      .leave (.done (w.needoutput || windowIsNew tiwin w.fl w.ti w.p.tp) p) := by
  have hupdate : updateWindow tiwin w = { w with
      p := { w.p with tp := (updateWindow tiwin w).p.tp }
      needoutput := w.needoutput || windowIsNew tiwin w.fl w.ti w.p.tp } := by
    unfold updateWindow
    by_cases hnew : windowIsNew tiwin w.fl w.ti w.p.tp = true
    · rw [if_pos hnew, hnew, Bool.or_true]
    · rw [if_neg hnew, Bool.eq_false_iff.mpr hnew, Bool.or_false]
  have hurg : ¬(w.fl.urg = true ∧ w.ti.ti_urp ≠ 0 ∧
      TCPS_HAVERCVDFIN (updateWindow tiwin w).p.tp.t_state = false) := by
    rw [hfl]
    rintro ⟨h, -⟩
    exact absurd h (by decide)
  have hurgent : urgent cfg (updateWindow tiwin w) = .go { w with
      p := { w.p with tp := windowed tiwin w }
      needoutput := w.needoutput || windowIsNew tiwin w.fl w.ti w.p.tp } := by
    rw [hupdate]
    exact if_neg hurg
  unfold step6
  rw [hurgent, Flow.go_bind, htext]
  rfl

end Rest

section Agreement

variable (cfg : Config) {inp : Input} {tiwin : tcp_seq} {p : Inpcb} {ti : Segment}

theorem generalPath_predicted (hpred : predicted p.tp ti tiwin = true)
    (hlen : (ti.ti_len : ℤ) ≤ inp.space.toInt ∨ ti.ti_len = 0) (hadv : SEQ_GEQ p.tp.rcv_adv p.tp.rcv_nxt = true) :
    generalPath cfg inp tiwin ⟨p, ti, ti.tiflags, false⟩ =
      (if SEQ_LEQ ti.ti_ack p.tp.snd_una then
        duplicateAck cfg inp.dupack tiwin
          ⟨{ p with tp := receiveWindow inp.space p.tp }, ti, plain, false⟩
      else newAck ⟨{ p with tp := receiveWindow inp.space p.tp }, ti, plain, false⟩) >>=
        step6 cfg tiwin := by
  obtain ⟨hstate, hfl, hseq, -⟩ := of_decide_eq_true hpred
  obtain ⟨hle, hlt⟩ := receiveWindow_spec (of_decide_eq_true hadv) hlen
  have htrim := trim_whole cfg
    (w := ⟨{ p with tp := receiveWindow inp.space p.tp }, ti, ti.tiflags, false⟩) hseq hle hlt
    hstate hfl
  have hpath : generalPath cfg inp tiwin ⟨p, ti, ti.tiflags, false⟩ =
      trim cfg ⟨{ p with tp := receiveWindow inp.space p.tp }, ti, ti.tiflags, false⟩ >>= fun w =>
        ackProcessing cfg inp.dupack tiwin w >>= step6 cfg tiwin := by
    have hwin : (receiveWindow inp.space p.tp).t_state = .ESTABLISHED := hstate
    unfold generalPath
    simp only [hwin]
  have hsyn : ackSyn ⟨{ p with tp := receiveWindow inp.space p.tp }, ti, ti.tiflags, false⟩ =
      .go ⟨{ p with tp := receiveWindow inp.space p.tp }, ti, ti.tiflags, false⟩ := by
    have hne : ¬(receiveWindow inp.space p.tp).t_state = .SYN_RECEIVED := by
      show ¬p.tp.t_state = .SYN_RECEIVED
      rw [hstate]
      decide
    exact if_neg hne
  rw [hpath, htrim, Flow.go_bind, ackProcessing, hsyn, Flow.go_bind, hfl]
  rfl

theorem predicted_ack (hpred : predictedAck p.tp ti tiwin = true) (hout : SEQ_GEQ p.tp.snd_max p.tp.snd_una = true)
    (hadv : SEQ_GEQ p.tp.rcv_adv p.tp.rcv_nxt = true)
    (hacked : (ti.ti_ack - p.tp.snd_una).toInt ≤ p.so.so_snd.length) :
    ∃ f g fout gout, Predicted p ti
      (headerPrediction tiwin inp.space ⟨p, ti, ti.tiflags, false⟩)
      (generalPath cfg inp tiwin ⟨p, ti, ti.tiflags, false⟩) f g fout gout := by
  obtain ⟨hcommon, hlen, hgt, hle, -⟩ := of_decide_eq_true hpred
  obtain ⟨hstate, -, -, -, hwnd, hnxt⟩ := of_decide_eq_true hcommon
  have hnotleq : ¬SEQ_LEQ ti.ti_ack p.tp.snd_una = true := by
    have h := of_decide_eq_true hgt
    exact fun hleq => absurd (of_decide_eq_true hleq) (Int.not_le.mpr h)
  have hnotgt : SEQ_GT ti.ti_ack p.tp.snd_max = false := by
    have h := of_decide_eq_true hle
    exact decide_eq_false (Int.not_lt.mpr h)
  have hlt : SEQ_LT p.tp.snd_nxt ti.ti_ack = false := by
    rw [hnxt]
    exact seq_lt_false hout hgt hle
  let so : Sock := { p.so with so_snd := p.so.so_snd.drop (ti.ti_ack - p.tp.snd_una).toInt.toNat }
  let w : Work := ⟨{ p with
      tp := ackedTcb ti.ti_ack (ti.ti_ack - p.tp.snd_una).toInt (receiveWindow inp.space p.tp)
      so := so }, ti, plain, ti.ti_ack == p.tp.snd_max⟩
  have hquick : headerPrediction tiwin inp.space ⟨p, ti, ti.tiflags, false⟩ =
      .leave (.done (so.so_snd ≠ []) { p with tp := ackFastTcb ti.ti_ack p.tp, so := so }) := by
    have hsb : sbdrop (ti.ti_ack - p.tp.snd_una).toInt p.so = (.go so : Flow Panic Exit Sock) :=
      if_neg (Int.not_lt.mpr hacked)
    unfold headerPrediction
    rw [if_pos hpred, ackFast, hsb, Flow.go_bind]
  have hnew : newAck ⟨{ p with tp := receiveWindow inp.space p.tp }, ti, plain, false⟩ = .go w :=
    newAck_established hstate hnotgt hacked rfl
  have hwl := lastWindow_ackedTcb ti.ti_ack (ti.ti_ack - p.tp.snd_una).toInt
    (receiveWindow inp.space p.tp)
  have hmost : w.p.tp.max_sndwnd = p.tp.max_sndwnd := congrArg (·.2.2) hwl
  have hfresh : fresh ti p.tp = true → windowIsNew tiwin w.fl w.ti w.p.tp = true := windowIsNew_of_fresh tiwin hwl
  have hgeneral : generalPath cfg inp tiwin ⟨p, ti, ti.tiflags, false⟩ =
      .leave (.done (ti.ti_ack == p.tp.snd_max || windowIsNew tiwin plain ti w.p.tp)
        { p with tp := windowed tiwin w, so := so }) := by
    rw [generalPath_predicted cfg hcommon (.inr hlen) hadv, if_neg hnotleq, hnew, Flow.go_bind]
    apply step6_plain cfg tiwin rfl
    apply if_neg
    rintro ⟨h | h, -⟩
    · exact h hlen
    · exact Bool.false_ne_true h
  obtain ⟨hsndwnd, -, hmax⟩ := windowed_windows tiwin (w := w)
  refine ⟨_, _, _, _, hquick, hgeneral, ⟨?_, rfl, rfl⟩, ?_, ?_, fun h => absurd hlen h, ?_⟩
  · exact ((withWindows_windowed tiwin p.tp).trans (withWindows_ackedTcb _ _ hlt)).symm
  · intro h
    have hnewer := hfresh (h.resolve_left fun hne => hne hlen)
    exact hsndwnd.trans ((if_pos hnewer).trans hwnd)
  · intro h
    exact (hmax (by rw [hmost, hwnd]; exact h)).trans hmost
  · intro h _
    have hnewer := hfresh (h.resolve_left fun hne => hne hlen)
    rw [hnewer, Bool.or_true]

theorem predicted_data (hpred : predictedData p.tp ti tiwin inp.space = true)
    (hadv : SEQ_GEQ p.tp.rcv_adv p.tp.rcv_nxt = true) :
    ∃ f g fout gout, Predicted p ti
      (headerPrediction tiwin inp.space ⟨p, ti, ti.tiflags, false⟩)
      (generalPath cfg inp tiwin ⟨p, ti, ti.tiflags, false⟩) f g fout gout := by
  obtain ⟨hcommon, hlen, hack, hseg, hspace⟩ := of_decide_eq_true hpred
  obtain ⟨hstate, hfl, hseq, -, hwnd, -⟩ := of_decide_eq_true hcommon
  have hfin : ti.th_fin = false := congrArg Tiflags.fin hfl
  have hleq : SEQ_LEQ ti.ti_ack p.tp.snd_una = true := by
    rw [hack]
    unfold SEQ_LEQ
    rw [BitVec.sub_self]
    decide
  let so : Sock := { p.so with so_rcv := sbappend p.so.so_rcv ti.m }
  let received (tp : Tcb) : Tcb := { tp with tf_delack := true, rcv_nxt := tp.rcv_nxt + BitVec.ofNat 32 ti.ti_len }
  let w : Work := ⟨{ p with tp := { receiveWindow inp.space p.tp with t_dupacks := 0 } }, ti, plain, false⟩
  have hquick : headerPrediction tiwin inp.space ⟨p, ti, ti.tiflags, false⟩ =
      .leave (.done false { p with tp := noteReceived so (received p.tp), so := so }) := by
    have hnot : ¬predictedAck p.tp ti tiwin = true := fun h => hlen (of_decide_eq_true h).2.1
    unfold headerPrediction
    rw [if_neg hnot, if_pos hpred]
    rfl
  have hdup : duplicateAck cfg inp.dupack tiwin
      ⟨{ p with tp := receiveWindow inp.space p.tp }, ti, plain, false⟩ = .go w := by
    apply if_neg
    rintro ⟨h, -⟩
    exact hlen h
  have hbut (x : Tcb) : withWindows x (windowed tiwin w) = withWindows x p.tp := withWindows_windowed tiwin x
  have hrcv : (windowed tiwin w).rcv_nxt = p.tp.rcv_nxt := congrArg (·.rcv_nxt) (hbut p.tp)
  have hqueue : (windowed tiwin w).seg = [] := (congrArg (·.seg) (hbut p.tp)).trans hseg
  have hest : (windowed tiwin w).t_state = .ESTABLISHED := (congrArg (·.t_state) (hbut p.tp)).trans hstate
  have hinline : inline (windowed tiwin w).toTcpcb ti.toTcpiphdr = true := by
    unfold inline
    rw [hrcv, hqueue, hest, hseq]
    simp
  have hgeneral : generalPath cfg inp tiwin ⟨p, ti, ti.tiflags, false⟩ =
      .leave (.done (windowIsNew tiwin plain ti w.p.tp)
        { p with tp := noteReceived so (received (windowed tiwin w)), so := so }) := by
    rw [generalPath_predicted cfg hcommon (.inl hspace) hadv, if_pos hleq, hdup, Flow.go_bind]
    apply step6_plain cfg tiwin rfl
    exact segmentText_inline hinline hlen hfin
  obtain ⟨hsndwnd, hcwnd, hmax⟩ := windowed_windows tiwin (w := w)
  obtain ⟨hkwnd, hkcwnd, hkmax⟩ := noteReceived_windows so (received (windowed tiwin w))
  have hsame : (if windowIsNew tiwin w.fl w.ti w.p.tp then tiwin else w.p.tp.snd_wnd) =
      p.tp.snd_wnd := by
    rw [hwnd]
    exact ite_self _
  refine ⟨_, _, _, _, hquick, hgeneral, ⟨?_, rfl, rfl⟩, ?_, ?_, ?_, fun _ h => absurd h (by decide)⟩
  · have hreceived (tp : Tcb) : withWindows p.tp (received tp) = received (withWindows p.tp tp) := rfl
    rw [withWindows_noteReceived, hreceived, hbut, withWindows_self]
  · exact fun _ => hkwnd.trans (hsndwnd.trans hsame)
  · exact fun h => hkmax.trans (hmax (hwnd ▸ h))
  · exact fun _ => hkcwnd.trans hcwnd

variable (inp) in
/-- In a state whose sequence variables are in order and whose send buffer holds what the segment
acknowledges, header prediction and the general path do the same but for the windows. -/
theorem prediction_agrees (hout : SEQ_GEQ p.tp.snd_max p.tp.snd_una = true)
    (hadv : SEQ_GEQ p.tp.rcv_adv p.tp.rcv_nxt = true)
    (hacked : (ti.ti_ack - p.tp.snd_una).toInt ≤ p.so.so_snd.length)
    (hpred : predictedAck p.tp ti tiwin = true ∨ predictedData p.tp ti tiwin inp.space = true) :
    ∃ f g fout gout, Predicted p ti
      (headerPrediction tiwin inp.space ⟨p, ti, ti.tiflags, false⟩)
      (generalPath cfg inp tiwin ⟨p, ti, ti.tiflags, false⟩) f g fout gout := by
  rcases hpred with hack | hdata
  · exact predicted_ack cfg hack hout hadv hacked
  · exact predicted_data cfg hdata hadv

end Agreement

section Differences

/-- A connection with four bytes outstanding and two duplicate acknowledgements. -/
def established : Inpcb where
  tp :=
    { seg := []
      t_state := .ESTABLISHED
      tf_acknow := false
      tf_delack := false
      rcv_nxt := 500
      t_rexmt := 2
      t_persist := 0
      t_keep := tcp_keepidle
      t_2msl := 0
      t_rxtshift := 0
      t_rxtcur := 3
      t_dupacks := 2
      t_maxseg := 512
      t_force := false
      tf_nodelay := false
      tf_noopt := false
      tf_sentfin := false
      tf_req_scale := false
      tf_rcvd_scale := false
      template := true
      t_softerror := 0
      snd_una := 1000
      snd_nxt := 1004
      snd_up := 999
      snd_wl1 := 400
      snd_wl2 := 1000
      iss := 999
      snd_wnd := 4096
      rcv_wnd := 100
      rcv_up := 399
      irs := 399
      rcv_adv := 4596
      snd_max := 1004
      snd_cwnd := 8192
      snd_ssthresh := 65535
      t_idle := 0
      t_rtt := 0
      t_rtseq := 999
      t_srtt := 0
      t_rttvar := 12
      t_rttmin := 2
      max_rcvd := 0
      max_sndwnd := 4096
      snd_scale := 0
      rcv_scale := 0
      request_r_scale := 0
      requested_s_scale := 0
      t_oob := false
      t_iobc := 0 }
  so :=
    { cantrcvmore := false
      so_rcv := []
      cantsendmore := false
      isconnected := true
      nofdref := false
      rcvatmark := false
      oobinline := false
      keepalive := false
      so_error := 0
      so_oobmark := 0
      rcv_hiwat := 8192
      so_snd := [1, 2, 3, 4] }
  copies := []

/-- A later segment has told the window. -/
def stale : Inpcb := { established with tp := { established.tp with snd_wl1 := 600 } }

/-- More has been received than the window let in. -/
def passed : Inpcb := { established with tp := { established.tp with rcv_adv := 499 } }

/-- The outstanding data is not in the send buffer. -/
def emptied : Inpcb := { established with so := { established.so with so_snd := [] } }

/-- The user has shut down receiving. -/
def shut : Inpcb := { established with so := { established.so with cantrcvmore := true } }

/-- The next segment from the peer. -/
def nextSegment (ack : tcp_seq) (m : List Byte) : Segment where
  ti_seq := 500
  ti_len := m.length
  th_fin := false
  m := m
  th_syn := false
  th_rst := false
  th_urg := false
  th_ack := true
  ti_ack := ack
  ti_win := 4096
  ti_urp := 0

def nextInput (ack : tcp_seq) (m : List Byte) : Input where
  ti := nextSegment ack m
  opts := []
  space := 8192
  tcp_iss := 0
  listen := false
  dupack := ⟨8192, []⟩
  out := ⟨8192, []⟩

def bsdConfig : Config where
  max_linkhdr := 16
  fits := by decide
  tcp_compat_42 := true
  tcp_urgent_42 := true

/-- The work at header prediction. -/
def nextWork (p : Inpcb) (ack : tcp_seq) (m : List Byte) : Work :=
  ⟨p, nextSegment ack m, (nextSegment ack m).tiflags, false⟩

def fastPath (p : Inpcb) (ack : tcp_seq) (m : List Byte) : Flow Panic Exit Work :=
  headerPrediction 4096 8192 (nextWork p ack m)

def slowPath (p : Inpcb) (ack : tcp_seq) (m : List Byte) : Flow Panic Exit Work :=
  generalPath bsdConfig (nextInput ack m) 4096 (nextWork p ack m)

/-- The connection where the work is done. -/
def finished : Flow Panic Exit Work → Option Inpcb
  | .leave (.done _ p) => some p
  | _ => none

/-- The windows, what tells the most recent one, the duplicate acknowledgements, and what urgent data
is compared with. -/
def windows (p : Inpcb) : List tcp_seq × ℤ :=
  ([p.tp.snd_wnd, p.tp.snd_cwnd, p.tp.snd_wl1, p.tp.snd_wl2, p.tp.rcv_wnd, p.tp.rcv_up], p.tp.t_dupacks)

/-- All outstanding data is acknowledged. -/
theorem prediction_agrees_established :
    ∃ f g fout gout, Predicted established (nextSegment 1004 []) (fastPath established 1004 [])
      (slowPath established 1004 []) f g fout gout :=
  prediction_agrees bsdConfig (nextInput 1004 []) (by decide) (by decide) (by decide)
    (.inl (by decide))

/-- The two paths differ in the congestion window and in what is noted of a segment; and the general path may
drop a segment, or not panic. -/
theorem prediction_not_general :
    (predictedAck established.tp (nextSegment 1004 []) 4096 = true ∧
      (finished (fastPath established 1004 [])).map windows = some ([4096, 8192, 400, 1000, 100, 399], 2) ∧
      (finished (slowPath established 1004 [])).map windows = some ([4096, 8704, 500, 1004, 8192, 500], 0)) ∧
    (predictedAck stale.tp (nextSegment 1004 []) 4096 = true ∧
      (finished (fastPath stale 1004 [])).map (·.tp.snd_wnd) = some 4096 ∧
      (finished (slowPath stale 1004 [])).map (·.tp.snd_wnd) = some 4092) ∧
    (predictedData passed.tp (nextSegment 1000 [7]) 4096 8192 = true ∧
      (finished (fastPath passed 1000 [7])).map (·.so.so_rcv) = some [7] ∧
      finished (slowPath passed 1000 [7]) = none) ∧
    (predictedAck emptied.tp (nextSegment 1004 []) 4096 = true ∧
      fastPath emptied 1004 [] = .panic .sbdrop ∧
      (finished (slowPath emptied 1004 [])).map (·.so.so_snd) = some []) ∧
    (predictedData shut.tp (nextSegment 1000 [7]) 4096 8192 = true ∧
      (finished (fastPath shut 1000 [7])).map (·.so.so_rcv) = some [7] ∧
      (finished (slowPath shut 1000 [7])).map (·.so.so_rcv) = some [7]) := by
  decide +kernel

end Differences

end Osf1.Tcp
