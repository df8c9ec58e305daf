import Osf1.Tcp.Input

/-!
# Options and the urgent byte

Which bytes `tcp_dooptions` reads, and where `tcp_pulloutofband` finds the urgent byte in the mbufs of a segment.
-/

set_option autoImplicit false

namespace Osf1.Tcp.Scan

open Osf1.Computation List

section Options

/-- SRC: netinet/tcp.h:110-113 -/
def TCPOPT_EOL : Byte := 0

def TCPOPT_NOP : Byte := 1

def TCPOPT_MAXSEG : Byte := 2

def TCPOPT_WINDOW : Byte := 3

/-- A turn of the loop: the options from `cp` on, and which of these bytes are read. -/
structure Turn where
  cp : List Byte
  reads : List ℕ

/-- The loop of `tcp_dooptions`.  `next` is the byte behind the options in their mbuf.
SRC: netinet/tcp_input.c:1505-1542 -/
def scan (syn : Bool) (next : Byte) : List Byte → List Turn
  | [] => []
  | opt :: cp =>
    if opt = TCPOPT_EOL then [⟨opt :: cp, [0]⟩]
    else if opt = TCPOPT_NOP then ⟨opt :: cp, [0]⟩ :: scan syn next cp
    else
      let optlen := (cp.headD next).toNat
      if h : optlen = 0 ∨ cp.length + 1 < optlen then [⟨opt :: cp, [0, 1]⟩]
      else
        let data :=
          if opt = TCPOPT_MAXSEG ∧ optlen = 4 ∧ syn then [2, 3]
          else if opt = TCPOPT_WINDOW ∧ optlen = 3 ∧ syn then [2] else []
        ⟨opt :: cp, [0, 1] ++ data⟩ :: scan syn next ((opt :: cp).drop optlen)
termination_by cp => cp.length
decreasing_by
  · simp
  · simp only [List.length_drop, List.length_cons]
    omega

/-- The option has no length byte, or one that tells no length that it can have. -/
def Bad (cp : List Byte) : Prop :=
  cp.head? ≠ some TCPOPT_EOL ∧ cp.head? ≠ some TCPOPT_NOP ∧ ∀ n ∈ cp[1]?, n.toNat < 2 ∨ cp.length < n.toNat

/-- All bytes that are read are options, and a bad one is the last. -/
def Scanned (turns : List Turn) : Prop :=
  (∀ t ∈ turns, ∀ r ∈ t.reads, r < t.cp.length) ∧ turns.Pairwise fun t _ => ¬ Bad t.cp

/-- Every option that the others lead to has a length byte, which is not 1. -/
def Proper : List Byte → Prop
  | [] => True
  | [opt] => opt = TCPOPT_EOL ∨ opt = TCPOPT_NOP
  | opt :: n :: cp =>
    if opt = TCPOPT_EOL then True
    else if opt = TCPOPT_NOP then Proper (n :: cp)
    else if _h : n.toNat = 0 ∨ cp.length + 2 < n.toNat then True
    else n.toNat ≠ 1 ∧ Proper ((opt :: n :: cp).drop n.toNat)
termination_by cp => cp.length
decreasing_by
  · simp
  · simp only [List.length_drop, List.length_cons]
    omega

variable {syn : Bool} {next : Byte}

theorem scanned_cons {t : Turn} {turns : List Turn} (hr : ∀ r ∈ t.reads, r < t.cp.length) (hbad : ¬ Bad t.cp) :
    Scanned (t :: turns) ↔ Scanned turns := by
  simp only [Scanned, forall_mem_cons, pairwise_cons]
  exact ⟨fun h => ⟨h.1.2, h.2.2⟩, fun h => ⟨⟨hr, h.1⟩, fun _ _ => hbad, h.2⟩⟩

theorem scan_ne_nil {cp : List Byte} (h : cp ≠ []) : scan syn next cp ≠ [] := by
  cases cp with
  | nil => exact absurd rfl h
  | cons opt cp =>
    rw [scan]
    dsimp only
    split_ifs <;> exact cons_ne_nil _ _

theorem scan_iff (cp : List Byte) : Scanned (scan syn next cp) ↔ Proper cp := by
  fun_induction scan syn next cp with
  | case1 => simp [Scanned, Proper]
  | case2 cp => cases cp <;> simp [Scanned, Proper]
  | case3 cp h ih =>
    rw [scanned_cons (by simp) (by simp [Bad]), ih]
    cases cp <;> simp [Proper, h]
  | case4 opt cp hne hnop optlen h =>
    cases cp with
    | nil => simp [Scanned, Proper, hne, hnop]
    | cons n cp =>
      have h' : n.toNat = 0 ∨ cp.length + 2 < n.toNat := h
      simp [Scanned, Proper, hne, hnop, h']
  | case5 opt cp hne hnop optlen h data ih =>
    cases cp with
    | nil => simp [Scanned, Proper, hne, hnop]
    | cons n cp =>
      have h' : ¬ (n.toNat = 0 ∨ cp.length + 2 < n.toNat) := h
      rw [Proper, if_neg hne, if_neg hnop, dif_neg h']
      by_cases hone : n.toNat = 1
      · refine iff_of_false (fun hs => ?_) fun hp => hp.1 hone
        have hnil : scan syn next ((opt :: n :: cp).drop optlen) ≠ [] := by
          rw [show optlen = 1 from hone]
          exact scan_ne_nil (cons_ne_nil n cp)
        obtain ⟨t, ht⟩ := exists_mem_of_ne_nil _ hnil
        exact (pairwise_cons.mp hs.2).1 t ht (by simp [Bad, hne, hnop, hone])
      · rw [scanned_cons (fun r hr => ?_) (fun hbad => ?_), ih]
        · exact (and_iff_right hone).symm
        · have hopt : optlen = n.toNat := rfl
          simp only [data, hopt] at hr
          simp only [length_cons]
          split_ifs at hr <;> simp at hr <;> omega
        · have hlen := hbad.2.2 n rfl
          simp only [length_cons] at hlen
          omega

end Options

section Urgent

/-- `tcp_pulloutofband` on the mbufs of a segment: the byte, and what is left of them.
SRC: netinet/tcp_input.c:1552-1577 -/
def pullFrom : ℕ → List (List Byte) → Option (Byte × List (List Byte))
  | _, [] => none
  | cnt, m :: ms =>
    if h : cnt < m.length then some (m[cnt], m.eraseIdx cnt :: ms)
    else (pullFrom (cnt - m.length) ms).map fun (c, ms) => (c, m :: ms)

theorem pullFrom_flatten {cnt : ℕ} {ms : List (List Byte)} (h : cnt < ms.flatten.length) :
    ∃ ms', pullFrom cnt ms = some (ms.flatten[cnt], ms') ∧ ms'.flatten = ms.flatten.eraseIdx cnt := by
  induction ms generalizing cnt with
  | nil => cases h
  | cons m ms ih =>
    rw [pullFrom]
    by_cases hlt : cnt < m.length
    · refine ⟨m.eraseIdx cnt :: ms, ?_, ?_⟩
      · simp [hlt, getElem_append_left hlt]
      · simp [eraseIdx_append_of_lt_length hlt]
    · have hle : m.length ≤ cnt := Nat.le_of_not_lt hlt
      have h' : cnt - m.length < ms.flatten.length := by
        simp only [flatten_cons, length_append] at h
        omega
      obtain ⟨ms', hpull, hflat⟩ := ih h'
      exact ⟨m :: ms', by simp [hlt, hpull, getElem_append_right hle], by simp [hflat, eraseIdx_append_of_length_le hle]⟩

/-- The segment is as long as it says. -/
def Long (w : Work) : Prop := w.ti.m.length = w.ti.ti_len

variable {cfg : Config} {w : Work} {R : Exit → Prop}

theorem Long.trimHead (h : Long w) : (trimHead cfg w).Ends Long fun _ => True := by
  unfold Tcp.trimHead
  dsimp only
  split_ifs <;> simp_all [Flow.Ends, Long, dropFront, dropSyn]

theorem Long.trimTail (h : Long w) : (trimTail w).Ends Long fun _ => True := by
  unfold Tcp.trimTail
  dsimp only
  split_ifs <;> simp_all [Flow.Ends, Long, dropBack]

theorem Long.trim (h : Long w) : (trim cfg w).Ends Long fun _ => True := by
  refine h.trimHead.bind fun w hw => ?_
  split_ifs
  · trivial
  · refine hw.trimTail.bind fun w hw => ?_
    split_ifs
    · trivial
    · trivial
    · trivial
    · exact hw

theorem Long.trimSyn (h : Long w) : Long (trimSyn w) := by
  unfold Tcp.trimSyn
  dsimp only
  split_ifs with hlt
  · simp only [Long, length_take] at h ⊢
    omega
  · exact h

theorem Long.listening (h : Long w) (inp : Input) : (listening inp w).Ends Long fun _ => True := by
  unfold Tcp.listening
  split_ifs
  · trivial
  · trivial
  · trivial
  · exact Long.trimSyn h

theorem Long.synSent (h : Long w) : (synSent w).Ends Long fun _ => True := by
  unfold Tcp.synSent
  dsimp only
  split_ifs <;> first | trivial | exact Long.trimSyn h

theorem Long.ackSyn (h : Long w) : (ackSyn w).Ends Long fun _ => True := by
  unfold Tcp.ackSyn
  split_ifs
  · trivial
  · trivial
  · exact h

/-- What is left anyway. -/
theorem ends_leave {α : Type} (m : Flow Panic Exit α) (f : α → Exit) :
    (m >>= fun a => .leave (f a) : Flow Panic Exit Work).Ends Long fun _ => True := by
  cases m <;> trivial

theorem Long.duplicateAck (h : Long w) (env : OutputEnv) (tiwin : tcp_seq) :
    (duplicateAck cfg env tiwin w).Ends Long fun _ => True := by
  unfold Tcp.duplicateAck
  dsimp only
  split_ifs <;> first | exact h | exact ends_leave _ _

theorem Long.ackFin (h : Long w) (acked : Bool) : (ackFin acked w).Ends Long fun _ => True := by
  unfold Tcp.ackFin
  split <;> (try split_ifs) <;> first | exact h | trivial

theorem Long.newAck (h : Long w) : (newAck w).Ends Long fun _ => True := by
  unfold Tcp.newAck
  dsimp only
  split_ifs
  · trivial
  · have hdrop (m : Flow Panic Exit (Bool × Inpcb)) : m.Ends (fun _ => True) fun _ => True := by cases m <;> trivial
    exact (hdrop _).bind fun r _ => Long.ackFin (w := { w with
      p := { r.2 with tp := advanceUna w.ti.ti_ack r.2.tp }, needoutput := _ }) h r.1

theorem Long.ackProcessing (h : Long w) (env : OutputEnv) (tiwin : tcp_seq) :
    (ackProcessing cfg env tiwin w).Ends Long fun _ => True := by
  refine h.ackSyn.bind fun w hw => ?_
  split_ifs
  · exact hw.duplicateAck env tiwin
  · exact hw.newAck

/-- The general path in front of `step6`.
SRC: netinet/tcp_input.c:686-1249 -/
def toStep6 (cfg : Config) (inp : Input) (tiwin : tcp_seq) (w : Work) : Flow Panic Exit Work :=
  match w.p.tp.t_state with
  | .LISTEN => listening inp w
  | .SYN_SENT => synSent w
  | _ => do
    let w ← trim cfg w
    ackProcessing cfg inp.dupack tiwin w

/-- The work on a segment in front of its urgent data.
SRC: netinet/tcp_input.c:488-1275 -/
def toUrgent (cfg : Config) (inp : Input) (p : Inpcb) : Flow Panic Exit Work :=
  if p.tp.t_state = .CLOSED then .leave (.drop p)
  else do
    let tiwin := unscale inp.ti p.tp
    let p := { p with tp := { p.tp with t_idle := 0, t_keep := tcp_keepidle } }
    let p := if p.tp.t_state = .LISTEN then p else tcp_dooptions inp.ti inp.opts p
    let w ← headerPrediction tiwin inp.space ⟨p, inp.ti, inp.ti.tiflags, false⟩
    let w ← toStep6 cfg inp tiwin { w with p := { w.p with tp := receiveWindow inp.space w.p.tp } }
    .go (updateWindow tiwin w)

theorem Long.toStep6 (h : Long w) (inp : Input) (tiwin : tcp_seq) : (toStep6 cfg inp tiwin w).Ends Long fun _ => True := by
  unfold Scan.toStep6
  split
  · exact h.listening inp
  · exact h.synSent
  · exact h.trim.bind fun w hw => hw.ackProcessing _ _

theorem toUrgent_long {inp : Input} (h : inp.ti.m.length = inp.ti.ti_len) (p : Inpcb) :
    (toUrgent cfg inp p).Ends Long fun _ => True := by
  unfold toUrgent
  split_ifs
  · trivial
  · have hpred (tiwin : tcp_seq) {w : Work} (hw : Long w) :
        (headerPrediction tiwin inp.space w).Ends Long fun _ => True := by
      unfold headerPrediction ackFast
      split_ifs
      · exact ends_leave _ _
      · trivial
      · exact hw
    refine (hpred _ (w := ⟨_, inp.ti, _, _⟩) h).bind fun w hw => ?_
    have hwindow : Long { w with p := { w.p with tp := receiveWindow inp.space w.p.tp } } := hw
    refine (hwindow.toStep6 inp _).bind fun w hw => ?_
    unfold updateWindow
    split_ifs <;> exact hw

/-- `tcp_pulloutofband` finds the urgent byte in the mbufs, takes it out of the data, and leaves the rest. -/
def Pulled (w : Work) : Prop := ∀ ms : List (List Byte), ms.flatten = w.ti.m → ∃ c ms',
  pullFrom (w.ti.ti_urp - 1) ms = some (c, ms') ∧ w.ti.m[w.ti.ti_urp - 1]? = some c ∧
  ms'.flatten = w.ti.m.eraseIdx (w.ti.ti_urp - 1) ∧ tcp_pulloutofband w = .go { w with
    p := { w.p with tp := { w.p.tp with t_iobc := c, t_oob := true } }
    ti := { w.ti with m := ms'.flatten } }

theorem Long.pulled (h : Long w) (hpos : w.ti.ti_urp ≠ 0) (hle : w.ti.ti_urp ≤ w.ti.ti_len) : Pulled w := by
  intro ms hms
  have hlt : w.ti.ti_urp - 1 < w.ti.m.length := by
    unfold Long at h
    omega
  obtain ⟨ms', hpull, hflat⟩ := pullFrom_flatten (hms ▸ hlt)
  simp only [hms] at hpull hflat
  refine ⟨_, ms', hpull, getElem?_eq_getElem hlt, hflat, ?_⟩
  rw [hflat, eraseIdx_eq_take_drop_succ]
  unfold tcp_pulloutofband
  rw [drop_eq_getElem_cons hlt]

/-- The options are scanned well exactly if they are proper, and the urgent byte is always found. -/
theorem scanned_iff (opts : List Byte) (syn : Bool) (next : Byte) :
    (Scanned (scan syn next opts) ∧ ∀ cfg inp p, inp.ti.m.length = inp.ti.ti_len → ∀ w, toUrgent cfg inp p = .go w →
      (∃ w', urgent cfg w = .go w') ∧ (w.ti.ti_urp ≠ 0 → w.ti.ti_urp ≤ w.ti.ti_len → Pulled (advanceUrgent cfg w))) ↔
    Proper opts := by
  refine (and_iff_left fun cfg inp p hlong w hw => ?_).trans (scan_iff opts)
  have h : Long w := by simpa [hw, Flow.Ends] using @toUrgent_long cfg inp hlong p
  have hti : (advanceUrgent cfg w).ti = w.ti := by
    unfold advanceUrgent
    dsimp only
    split_ifs <;> rfl
  have hpulled (hpos : w.ti.ti_urp ≠ 0) (hle : w.ti.ti_urp ≤ w.ti.ti_len) : Pulled (advanceUrgent cfg w) :=
    Long.pulled (by simpa [Long, hti] using h) (hti ▸ hpos) (hti ▸ hle)
  refine ⟨?_, hpulled⟩
  unfold urgent
  split_ifs with hurg hmax
  · exact ⟨_, rfl⟩
  · dsimp only
    split_ifs with hcall
    · obtain ⟨c, ms', -, -, -, hgo⟩ := hpulled hurg.2.1 (hti ▸ hcall.1) [_] (flatten_singleton ..)
      exact ⟨_, hgo⟩
    · exact ⟨_, rfl⟩
  · exact ⟨_, rfl⟩
  · exact ⟨_, rfl⟩

/-- Three no-ops, and an option without a length byte. -/
theorem not_scanned : ¬ Scanned (scan true 0 [TCPOPT_NOP, TCPOPT_NOP, TCPOPT_NOP, TCPOPT_MAXSEG]) := by
  simp [scan_iff, Proper, TCPOPT_NOP, TCPOPT_EOL, TCPOPT_MAXSEG]

end Urgent

end Osf1.Tcp.Scan
