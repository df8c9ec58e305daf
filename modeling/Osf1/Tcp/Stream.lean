import Osf1.Tcp.Reass

/-!
# What is presented is the stream

While the peer has not been heard to the end, the queue holds pieces of its stream beyond what has been
received, and what has been received is a prefix.
-/

set_option autoImplicit false

namespace Osf1.Tcp

open List Option

section Stream

open Osf1.Computation
open Osf1.Computation.Resequencing (Piece Ordered)

section Statement

/-- A queued segment that begins no later has all bytes of a new one. -/
def covers (q ti : Tcpiphdr) : Bool :=
  !SEQ_GT q.ti_seq ti.ti_seq && (0 < q.reach ti.ti_seq && ti.ti_len ≤ q.reach ti.ti_seq)

/-- A new segment has all bytes of a queued one that begins later. -/
def swallows (ti q : Tcpiphdr) : Bool :=
  SEQ_GT q.ti_seq ti.ti_seq && (0 < ti.reach q.ti_seq && q.ti_len ≤ ti.reach q.ti_seq)

/-- A FIN that is known stays known: it is not on a new segment that is dropped, and the new one does
not take the place of all that have it. -/
def KeepsFin (seg : List Tcpiphdr) (ti : Tcpiphdr) : Prop :=
  (ti.th_fin = true → (∃ q ∈ seg, covers q ti) → ∃ q ∈ seg, q.th_fin = true) ∧
    (ti.th_fin = false → (∃ q ∈ seg, q.th_fin = true) → ∃ q ∈ seg, q.th_fin = true ∧ swallows ti q = false)

/-- No bytes are next. -/
def NoneDue (rcv_nxt : tcp_seq) (seg : List Tcpiphdr) : Prop := ∀ q ∈ seg, q.ti_seq = rcv_nxt → q.ti_len = 0

/-- All queued segments are next. -/
def gapless : tcp_seq → List Tcpiphdr → Bool
  | _, [] => true
  | seq, q :: qs => q.ti_seq == seq && gapless (seq + BitVec.ofNat 32 q.ti_len) qs

/-- A step keeps the FIN, and it does not come to queued bytes being presented on a socket that has
been shut for them. -/
def Intact (peer : Peer) (c : Conn) : Event → Prop
  | .segment start len fin _ =>
    KeepsFin c.tp.seg (peer.segment start len fin) ∧
      (c.so.cantrcvmore = false ∨ inline c.tp (peer.segment start len fin) = true ∨ c.tp.t_state = .SYN_RECEIVED ∨
        NoneDue c.tp.rcv_nxt (peer.segment start len fin :: c.tp.seg))
  | .ackSyn =>
    (gapless c.tp.rcv_nxt c.tp.seg → ∀ q ∈ c.tp.seg, q.th_fin = false) ∧
      (c.so.cantrcvmore = false ∨ NoneDue c.tp.rcv_nxt c.tp.seg)
  | _ => True

/-- All that has been appended to the socket. -/
def Conn.received (c : Conn) : List Byte := c.taken ++ c.so.so_rcv

/-- The queue holds segments of the stream at or beyond a position, in order and without overlaps. -/
def Held (peer : Peer) : ℕ → List Tcpiphdr → Prop
  | _, [] => True
  | lo, q :: qs =>
    ∃ start, lo ≤ start ∧ q = peer.segment start q.ti_len q.th_fin ∧ Held peer (start + q.ti_len) qs

/-- The stream has been delivered up to `rcv_nxt`, and the FIN has been returned if and only if it
has been carried and `rcv_nxt` has come to it. -/
structure Delivered (peer : Peer) (c : Conn) : Prop where
  received : c.received = peer.bytes 0 c.received.length
  rcv_nxt : c.tp.rcv_nxt = peer.irs + 1 + BitVec.ofNat 32 (c.received.length + c.finReturned)
  queue : Held peer c.received.length c.tp.seg
  once : c.finReturned ≤ 1
  fin : c.finReturned = 1 ↔ c.finCarried = true ∧ peer.fin = some c.received.length

end Statement

section Decide

instance (seg : List Tcpiphdr) (ti : Tcpiphdr) : Decidable (KeepsFin seg ti) := inferInstanceAs (Decidable (_ ∧ _))

instance (rcv_nxt : tcp_seq) (seg : List Tcpiphdr) : Decidable (NoneDue rcv_nxt seg) :=
  inferInstanceAs (Decidable (∀ q ∈ seg, _))

instance (peer : Peer) (c : Conn) : (e : Event) → Decidable (Intact peer c e)
  | .segment .. => inferInstanceAs (Decidable (_ ∧ _))
  | .ackSyn => inferInstanceAs (Decidable (_ ∧ _))
  | .ackFin => inferInstanceAs (Decidable True)
  | .usrclosed => inferInstanceAs (Decidable True)
  | .sorflush => inferInstanceAs (Decidable True)
  | .soreceive _ => inferInstanceAs (Decidable True)

end Decide

section Settled

variable {peer : Peer} {n : ℕ} {p : Piece} {ps : List Piece}

/-- A piece of the stream, with the FIN if it is empty. -/
structure OfPeer (peer : Peer) (p : Piece) : Prop where
  stop_le : ∀ f ∈ peer.fin, p.stop ≤ f
  stop_eq : p.last = true → peer.fin = some p.stop
  empty : p.len = 0 → p.last = true

theorem OfPeer.of_isPart {a b : Piece} (h : a.IsPart b) (hb : OfPeer peer b) : OfPeer peer a := by
  refine ⟨fun f hf => ?_, fun hlast => ?_, fun hlen => ?_⟩
  · rw [h.stop_eq]
    exact hb.stop_le f hf
  · rw [h.stop_eq]
    exact hb.stop_eq (h.last_eq ▸ hlast)
  · rcases h.pos with heq | hpos
    · exact heq ▸ hb.empty (heq ▸ hlen)
    · omega

theorem OfPeer.fits {hi : ℕ} (hp : OfPeer peer p) (hhi : p.stop ≤ hi) : Resequencing.Fits (peer.fin.getD hi) p := by
  refine ⟨?_, fun hlast => ?_, hp.empty⟩
  · cases hfin : peer.fin with
    | none => exact hhi
    | some f => exact hp.stop_le f hfin
  · rw [hp.stop_eq hlast]
    rfl

/-- A queue of pieces beyond `n`. -/
structure Queued (peer : Peer) (n : ℕ) (ps : List Piece) : Prop where
  order : Ordered n ps
  ofPeer : ∀ p ∈ ps, OfPeer peer p
  near : ∀ p ∈ ps, p.stop < n + 2 ^ 31

theorem Queued.nil : Queued peer n [] := ⟨trivial, (fun _ h => nomatch h), (fun _ h => nomatch h)⟩

theorem Queued.empty_of_fin (h : Queued peer n ps) (hfin : peer.fin = some n) (hp : p ∈ ps) :
    p.start = n ∧ p.len = 0 := by
  have hle := h.order.lo_le hp
  have hstop := (h.ofPeer p hp).stop_le n hfin
  unfold Piece.stop at hstop
  omega

theorem Queued.between (h : Queued peer n ps) (hp : p ∈ ps) : Between n (n + (2 ^ 31 - 1)) p := by
  refine ⟨h.order.lo_le hp, ?_⟩
  have := h.near p hp
  omega

end Settled

section Calls

variable {peer : Peer} {n : ℕ} {p : Piece} {ps : List Piece} {tp : Tcpcb} {so : Socket}

/-- A call has advanced from `n` to `n'`, and `ps'` stay queued.  `known` tells whether the FIN is
known when the call is made. -/
structure Advanced (peer : Peer) (n : ℕ) (tp : Tcpcb) (so : Socket) (known : Prop)
    (r : Tcpcb × Socket × Bool) (n' : ℕ) (ps' : List Piece) : Prop where
  le : n ≤ n'
  lt : n' < n + 2 ^ 31
  rcv_nxt : r.1.rcv_nxt = Serial.number (peer.irs + 1) n'
  seg : r.1.seg = ps'.map peer.seg
  t_state : r.1.t_state = tp.t_state
  so_eq : r.2.1 = { so with so_rcv := so.so_rcv ++ peer.bytes n (n' - n) }
  queued : Queued peer n' ps'
  started : ∀ p ∈ ps', p.start = n' → 0 < p.len
  fin : r.2.2 = true → known ∧ peer.fin = some n' ∧ ps' = []
  kept : r.2.2 = false → (known ↔ ∃ p ∈ ps', p.last = true)

theorem bytes_none (peer : Peer) (so : Socket) (n : ℕ) :
    so = { so with so_rcv := so.so_rcv ++ peer.bytes n (n - n) } := by
  have hempty : peer.bytes n (n - n) = [] := by
    rw [Nat.sub_self]
    rfl
  rw [hempty, append_nil]

variable (so) in
theorem Advanced.same (hq : Queued peer n ps) (hstarted : ∀ p ∈ ps, p.start = n → 0 < p.len)
    (hseg : tp.seg = ps.map peer.seg) (hnxt : tp.rcv_nxt = Serial.number (peer.irs + 1) n)
    {known : Prop} (hknown : known ↔ ∃ p ∈ ps, p.last = true) :
    Advanced peer n tp so known (tp, so, false) n ps where
  le := Nat.le_refl _
  lt := by omega
  rcv_nxt := hnxt
  seg := hseg
  t_state := rfl
  so_eq := bytes_none peer so n
  queued := hq
  started := hstarted
  fin := fun h => by cases h
  kept := fun _ => hknown

theorem started_of_not_presents (hq : Queued peer n ps) (hseg : tp.seg = ps.map peer.seg)
    (hnxt : tp.rcv_nxt = Serial.number (peer.irs + 1) n) (hsyn : TCPS_HAVERCVDSYN tp.t_state = true)
    (hnone : presents tp = false) (hp : p ∈ ps) (hstart : p.start = n) : 0 < p.len := by
  cases ps with
  | nil => cases hp
  | cons q qs =>
    unfold presents at hnone
    simp only [hsyn, hseg, map_cons, Bool.true_and, Bool.and_eq_false_iff] at hnone
    have hq1 := hq.order.1
    have hfirst : q.start = n ∧ (p = q ∨ q.len = 0) := by
      rcases mem_cons.mp hp with rfl | hp'
      · exact ⟨hstart, .inl rfl⟩
      · have hle := hq.order.2.lo_le hp'
        unfold Piece.stop at hle
        exact ⟨by omega, .inr (by omega)⟩
    have hseq : (peer.seg q).ti_seq = tp.rcv_nxt := by
      rw [hnxt, ← hfirst.1]
      rfl
    rcases hnone with hne | hwait
    · rw [hseq, beq_self_eq_true] at hne
      cases hne
    · have hlen : q.len ≠ 0 := by
        rw [Bool.not_eq_false', Bool.and_eq_true] at hwait
        exact bne_iff_ne.mp hwait.2
      rcases hfirst.2 with heq | hzero
      · rw [heq]
        omega
      · exact absurd hzero hlen

theorem presents_head (h : presents tp = true) (hseg : tp.seg = ps.map peer.seg) :
    ∃ q qs, ps = q :: qs ∧ (tp.t_state = .SYN_RECEIVED → q.len = 0) := by
  unfold presents at h
  rw [Bool.and_eq_true] at h
  cases ps with
  | nil =>
    rw [hseg] at h
    cases h.2
  | cons q qs =>
    rw [hseg] at h
    refine ⟨q, qs, rfl, fun hstate => ?_⟩
    have hwait := (Bool.and_eq_true_iff.mp h.2).2
    rw [hstate] at hwait
    have hlen : (peer.seg q).ti_len = 0 := by simpa using hwait
    exact hlen

variable (tp so) in
theorem present_advanced (hq : Queued peer n ps) (hseg : tp.seg = ps.map peer.seg)
    (hnxt : tp.rcv_nxt = Serial.number (peer.irs + 1) n) (hsyn : TCPS_HAVERCVDSYN tp.t_state = true)
    (hcan : so.cantrcvmore = false ∨ tp.t_state = .SYN_RECEIVED ∨ ∀ p ∈ ps, p.start = n → p.len = 0) :
    ∃ n' ps', Advanced peer n tp so (∃ p ∈ ps, p.last = true) (present tp so) n' ps' := by
  unfold present
  cases hpres : presents tp with
  | false =>
    refine ⟨n, ps, .same so hq ?_ hseg hnxt Iff.rfl⟩
    intro p hp hstart
    exact started_of_not_presents hq hseg hnxt hsyn hpres hp hstart
  | true =>
    have hle (q : Piece) (h : q ∈ ps) : q.stop ≤ n + (2 ^ 31 - 1) := (hq.between h).2
    have hhi : n + (2 ^ 31 - 1) < n + 2 ^ 31 := by omega
    have hloop := presentLoop_seg peer hhi hle hq.order (by omega) so.cantrcvmore so.so_rcv false
    have hord := Resequencing.take_ordered false hq.order
    have hfits (q : Piece) (h : q ∈ ps) :
        Resequencing.Fits (peer.fin.getD (n + (2 ^ 31 - 1))) q :=
      (hq.ofPeer q h).fits (hle q h)
    have hlast := Resequencing.take_last hq.order hfits
    have hflag : (Resequencing.take n false ps).2.1 = true →
        false = true ∨ ∃ p ∈ ps, p.last = true := Resequencing.exists_of_take_last
    have hbound : (Resequencing.take n false ps).1 ≤ n + (2 ^ 31 - 1) := Resequencing.take_fst_le (by omega) hle
    have hmem (q : Piece) (h : q ∈ (Resequencing.take n false ps).2.2) : q ∈ ps := Resequencing.take_mem h
    have hne (q : Piece) (h : q ∈ (Resequencing.take n false ps).2.2) := Resequencing.take_ne false hq.order h
    have hsb : (if so.cantrcvmore then so.so_rcv
        else so.so_rcv ++ peer.bytes n ((Resequencing.take n false ps).1 - n)) =
          so.so_rcv ++ peer.bytes n ((Resequencing.take n false ps).1 - n) := by
      cases hcant : so.cantrcvmore with
      | false => rfl
      | true =>
        have hempty : ∀ p ∈ ps, p.start = n → p.len = 0 := by
          rcases hcan with hcan | hstate | hempty
          · rw [hcan] at hcant
            cases hcant
          · -- only an empty segment is presented now, so that the stream ends here
            obtain ⟨q, qs, rfl, hlen⟩ := presents_head hpres hseg
            have hlen := hlen hstate
            have hof := hq.ofPeer q (mem_cons_self ..)
            intro p hp hstart
            have hstop := (hq.ofPeer p hp).stop_le _ (hof.stop_eq (hof.empty hlen))
            have hle : q.start ≤ p.start ∨ p = q := by
              rcases mem_cons.mp hp with rfl | hp'
              · exact .inr rfl
              · have := hq.order.2.lo_le hp'
                unfold Piece.stop at this
                exact .inl (by omega)
            rcases hle with hle | rfl
            · unfold Piece.stop at hstop
              omega
            · exact hlen
          · exact hempty
        rw [Resequencing.take_fst_eq hempty, Nat.sub_self]
        exact (append_nil _).symm
    rw [← hseg, ← hnxt, hsb] at hloop
    rw [if_pos rfl, hloop]
    generalize Resequencing.take n false ps = t at *
    obtain ⟨n', flag, ps'⟩ := t
    refine ⟨n', ps', ⟨hord.1, by omega, rfl, rfl, rfl, rfl, ⟨hord.2, fun p hp => hq.ofPeer p (hmem p hp),
      fun p hp => ?_⟩, fun p hp hstart => absurd hstart (hne p hp), fun hfin => ?_, fun hfin => ?_⟩⟩
    · have hnear := hq.near p (hmem p hp)
      omega
    · have hexists := (hflag hfin).resolve_left (by simp)
      obtain ⟨q, hqmem, hqlast⟩ := hexists
      have hpeer := (hq.ofPeer q hqmem).stop_eq hqlast
      rcases hlast with hend | hkept
      · obtain ⟨hn', -, hps'⟩ := Prod.mk.injEq .. ▸ hend
        refine ⟨⟨q, hqmem, hqlast⟩, ?_, by simp_all⟩
        rw [hpeer] at hn' ⊢
        exact congrArg some hn'.symm
      · have hfalse : flag = false := hkept.1
        have htrue : flag = true := hfin
        rw [hfalse] at htrue
        cases htrue
    · rcases hlast with hend | hkept
      · have htrue : flag = true := congrArg (fun t => t.2.1) hend
        have hfalse : flag = false := hfin
        rw [hfalse] at htrue
        cases htrue
      · constructor
        · rintro ⟨q, hqmem, hqlast⟩
          exact ⟨q, hkept.2 q hqmem hqlast, hqlast⟩
        · rintro ⟨q, hqmem, hqlast⟩
          exact ⟨q, hmem q hqmem, hqlast⟩

/-- A new segment of the stream, in the window that starts at `n`. -/
structure New (peer : Peer) (n : ℕ) (p : Piece) : Prop where
  ofPeer : OfPeer peer p
  between : Between n (n + (2 ^ 31 - 1)) p

theorem covers_seg (hp : New peer n p) {q : Piece} (hq : Between n (n + (2 ^ 31 - 1)) q) :
    covers (peer.seg q) (peer.seg p) = true ↔
      q.start ≤ p.start ∧ p.start < q.stop ∧ p.stop ≤ q.stop := by
  have hlen : ((peer.seg p).ti_len : ℤ) = (p.stop : ℤ) - p.start := by
    show (p.len : ℤ) = ((p.start + p.len : ℕ) : ℤ) - p.start
    omega
  rw [covers, seq_gt peer (by omega) hp.between hq, seg_reach (by omega) hp.between hq, hlen]
  simp only [Bool.and_eq_true, Bool.not_eq_true', decide_eq_false_iff_not, decide_eq_true_iff]
  omega

theorem swallows_seg (hp : New peer n p) {q : Piece} (hq : Between n (n + (2 ^ 31 - 1)) q) :
    swallows (peer.seg p) (peer.seg q) = false ↔
      q.start ≤ p.start ∨ p.stop ≤ q.start ∨ p.stop < q.stop := by
  have hlen : ((peer.seg q).ti_len : ℤ) = (q.stop : ℤ) - q.start := by
    show (q.len : ℤ) = ((q.start + q.len : ℕ) : ℤ) - q.start
    omega
  rw [swallows, seq_gt peer (by omega) hp.between hq, seg_reach (by omega) hq hp.between, hlen]
  simp only [Bool.and_eq_false_iff, decide_eq_false_iff_not]
  omega

section

variable (hq : Queued peer n ps)
include hq

theorem known_enqueue (hp : New peer n p) (hkeeps : KeepsFin (ps.map peer.seg) (peer.seg p)) {ps' : List Piece}
    (h : Resequencing.enqueue ps p = some ps') :
    ((∃ q ∈ ps, q.last = true) ∨ p.last = true) ↔ ∃ q ∈ ps', q.last = true := by
  constructor
  · intro hknown
    cases hlast : p.last with
    | true =>
      obtain ⟨a, ha, halast⟩ := Resequencing.enqueue_last hq.order h
      exact ⟨a, ha, halast.trans hlast⟩
    | false =>
      obtain ⟨q, hqmem, hqlast⟩ := hknown.resolve_right (by simp [hlast])
      obtain ⟨s, hs, hfin, hswallow⟩ := hkeeps.2 hlast ⟨peer.seg q, mem_map_of_mem hqmem, hqlast⟩
      obtain ⟨b, hb, rfl⟩ := mem_map.mp hs
      have hkeep := (swallows_seg hp (hq.between hb)).mp hswallow
      obtain ⟨a, ha, halast⟩ := Resequencing.enqueue_keeps hq.order h hb (by omega)
      exact ⟨a, ha, halast.trans hfin⟩
  · rintro ⟨a, ha, halast⟩
    obtain ⟨b, hb, hpart⟩ := Resequencing.enqueue_isPart hq.order h ha
    have hblast : b.last = true := hpart.last_eq ▸ halast
    rcases mem_cons.mp hb with rfl | hb'
    · exact .inr hblast
    · exact .inl ⟨b, hb', hblast⟩

theorem known_dropped (hp : New peer n p)
    (hkeeps : KeepsFin (ps.map peer.seg) (peer.seg p)) (h : Resequencing.enqueue ps p = none) :
    ((∃ q ∈ ps, q.last = true) ∨ p.last = true) ↔ ∃ q ∈ ps, q.last = true := by
  refine ⟨fun hknown => hknown.elim id fun hlast => ?_, .inl⟩
  obtain ⟨b, hb, hcover⟩ := Resequencing.enqueue_none hq.order h
  have hcovers := (covers_seg hp (hq.between hb)).mpr hcover
  obtain ⟨s, hs, hfin⟩ := hkeeps.1 hlast ⟨peer.seg b, mem_map_of_mem hb, hcovers⟩
  obtain ⟨q, hqmem, rfl⟩ := mem_map.mp hs
  exact ⟨q, hqmem, hfin⟩

theorem enqueue_queued (hp : New peer n p) {ps' : List Piece}
    (h : Resequencing.enqueue ps p = some ps') : Queued peer n ps' := by
  have hpart {a : Piece} (ha : a ∈ ps') := Resequencing.enqueue_isPart hq.order h ha
  refine ⟨Resequencing.enqueue_ordered hq.order hp.between.1 h, fun a ha => ?_, fun a ha => ?_⟩
  · obtain ⟨b, hb, hab⟩ := hpart ha
    rcases mem_cons.mp hb with rfl | hb'
    · exact .of_isPart hab hp.ofPeer
    · exact .of_isPart hab (hq.ofPeer b hb')
  · obtain ⟨b, hb, hab⟩ := hpart ha
    rw [hab.stop_eq]
    rcases mem_cons.mp hb with rfl | hb'
    · have := hp.between.2
      omega
    · exact hq.near b hb'

theorem noneDue_enqueue (hp : New peer n p) (hnxt : tp.rcv_nxt = Serial.number (peer.irs + 1) n)
    (hdue : NoneDue tp.rcv_nxt (peer.seg p :: ps.map peer.seg)) {ps' : List Piece}
    (h : Resequencing.enqueue ps p = some ps') : ∀ a ∈ ps', a.start = n → a.len = 0 := by
  intro a ha hstart
  obtain ⟨b, hb, hab⟩ := Resequencing.enqueue_isPart hq.order h ha
  have hle : n ≤ b.start := by
    rcases mem_cons.mp hb with rfl | hb'
    · exact hp.between.1
    · exact hq.order.lo_le hb'
  have hbstart : b.start = n := by
    have := hab.start_le
    omega
  have hblen : b.len = 0 := by
    apply hdue (peer.seg b)
    · rw [← map_cons]
      exact mem_map_of_mem hb
    · rw [hnxt, ← hbstart]
      rfl
  have hstop := hab.stop_eq
  unfold Piece.stop at hstop
  omega

end

variable (so) in
theorem TCP_REASS_advanced (hq : Queued peer n ps) (hstarted : ∀ p ∈ ps, p.start = n → 0 < p.len)
    (hp : New peer n p) (hseg : tp.seg = ps.map peer.seg)
    (hnxt : tp.rcv_nxt = Serial.number (peer.irs + 1) n) (hsyn : TCPS_HAVERCVDSYN tp.t_state = true)
    (hkeeps : KeepsFin tp.seg (peer.seg p))
    (hcan : so.cantrcvmore = false ∨ inline tp (peer.seg p) = true ∨ tp.t_state = .SYN_RECEIVED ∨
      NoneDue tp.rcv_nxt (peer.seg p :: tp.seg)) :
    ∃ n' ps', Advanced peer n tp so ((∃ q ∈ ps, q.last = true) ∨ p.last = true)
      (TCP_REASS tp so (peer.seg p)) n' ps' := by
  rw [hseg] at hkeeps hcan
  unfold TCP_REASS
  cases hinline : inline tp (peer.seg p) with
  | true =>
    unfold inline at hinline
    simp only [Bool.and_eq_true, beq_iff_eq, hseg, List.isEmpty_iff, List.map_eq_nil_iff] at hinline
    obtain ⟨⟨hseq, rfl⟩, -⟩ := hinline
    have hbetween := hp.between
    have hstop : p.stop = p.start + p.len := rfl
    have hstart : p.start = n := by
      unfold Between at hbetween
      rw [hnxt] at hseq
      exact (Serial.number_inj (by omega) (by omega)).mp hseq
    have hbytes : (peer.seg p).m = peer.bytes n (p.stop - n) := by
      show peer.bytes p.start p.len = _
      rw [hstop, hstart, Nat.add_sub_cancel_left]
    rw [if_pos rfl]
    refine ⟨p.stop, [], ⟨by omega, ?_, ?_, hseg, rfl, ?_, ?_, ?_, ?_, ?_⟩⟩
    · have := hbetween.2
      omega
    · show tp.rcv_nxt + BitVec.ofNat 32 p.len = _
      rw [hnxt, ← hstart]
      exact Serial.number_add ..
    · rw [sbappend, hbytes]
    · exact .nil
    · exact fun q h => by cases h
    · intro hfin
      exact ⟨.inr hfin, hp.ofPeer.stop_eq hfin, rfl⟩
    · intro hfin
      have hlast : p.last = false := hfin
      simp [hlast]
  | false =>
    rw [hinline] at hcan
    have hhi : n + (2 ^ 31 - 1) < n + 2 ^ 31 := by omega
    have henqueue := enqueue_seg peer hhi hp.between (fun q h => hq.between h) hq.order
    rw [if_neg (by simp), tcp_reass, hseg, henqueue]
    cases hnew : Resequencing.enqueue ps p with
    | none =>
      have hsame := Advanced.same so hq hstarted hseg hnxt (known_dropped hq hp hkeeps hnew)
      exact ⟨n, ps, ⟨hsame.le, hsame.lt, hsame.rcv_nxt, hsame.seg, hsame.t_state, hsame.so_eq,
        hsame.queued, hsame.started, hsame.fin, hsame.kept⟩⟩
    | some ps₁ =>
      have hq₁ := enqueue_queued hq hp hnew
      have hdue : so.cantrcvmore = false ∨ tp.t_state = .SYN_RECEIVED ∨
          ∀ a ∈ ps₁, a.start = n → a.len = 0 := by
        rcases hcan with hcan | hno | hstate | hdue
        · exact .inl hcan
        · cases hno
        · exact .inr (.inl hstate)
        · exact .inr (.inr (noneDue_enqueue hq hp hnxt hdue hnew))
      obtain ⟨n', ps', hadv⟩ := present_advanced { tp with seg := ps₁.map peer.seg } so hq₁ rfl hnxt hsyn hdue
      have hknown := known_enqueue hq hp hkeeps hnew
      refine ⟨n', ps', ⟨hadv.le, hadv.lt, hadv.rcv_nxt, hadv.seg, hadv.t_state, hadv.so_eq,
        hadv.queued, hadv.started, fun hfin => ?_, fun hfin => ?_⟩⟩
      · obtain ⟨hex, hrest⟩ := hadv.fin hfin
        exact ⟨hknown.mpr hex, hrest⟩
      · exact hknown.trans (hadv.kept hfin)

end Calls

end Stream

/-!
## Runs of a connection

Segments of one peer stream come in any order, with duplicates and overlaps.
-/

section Connection

open Osf1.Computation
open Osf1.Computation.Resequencing (Piece Ordered)

section Invariant

variable {peer : Peer} {acked : Bool} {c t : Conn} {n : ℕ} {ps : List Piece}

/-- The states in which the peer has not sent its FIN. -/
def State.peerOpen (s : State) : Bool :=
  match s with
  | .SYN_RECEIVED | .ESTABLISHED | .FIN_WAIT_1 | .FIN_WAIT_2 => true
  | _ => false

theorem State.peerOpen_spec {s : State} (h : s.peerOpen = true) :
    TCPS_HAVERCVDSYN s = true ∧ TCPS_HAVERCVDFIN s = false ∧ s.usrclosed.peerOpen = true ∧
      s.finAcked.peerOpen = true := by
  revert h
  cases s <;> decide

/-- The peer is being heard: pieces of its stream are queued beyond `n`. -/
structure Hearing (peer : Peer) (c : Conn) (n : ℕ) (ps : List Piece) : Prop where
  open_ : c.tp.t_state.peerOpen = true
  none_returned : c.finReturned = 0
  queued : Queued peer n ps
  started : ∀ p ∈ ps, p.start = n → 0 < p.len
  known : c.finCarried = true ↔ ∃ p ∈ ps, p.last = true

/-- The peer has been heard to the end of its stream at `n`. -/
structure Heard (peer : Peer) (c : Conn) (n : ℕ) (ps : List Piece) : Prop where
  returned : c.finReturned = 1
  nothing : ps = []
  fin : peer.fin = some n
  carried : c.finCarried = true

/-- The stream has been received up to `n`. -/
structure Sound (peer : Peer) (c : Conn) (n : ℕ) (ps : List Piece) : Prop where
  received : c.received = peer.bytes 0 n
  moved : c.moved = n + c.finReturned
  rcv_nxt : c.tp.rcv_nxt = Serial.number (peer.irs + 1) (n + c.finReturned)
  seg : c.tp.seg = ps.map peer.seg
  phase : Hearing peer c n ps ∨ Heard peer c n ps

theorem sound_start (peer : Peer) (acked : Bool) : Sound peer (Conn.start peer acked) 0 [] where
  received := rfl
  moved := rfl
  rcv_nxt := (Serial.number_zero _).symm
  seg := rfl
  phase := by
    refine .inl ⟨?_, rfl, .nil, (fun _ h => nomatch h), ?_⟩
    · cases acked <;> rfl
    · simp [Conn.start]

/-- What a step does to a connection: it appends a part of the stream, and `rcv_nxt` moves on. -/
structure Forward (peer : Peer) (c t : Conn) : Prop where
  received : c.received <+: t.received
  rcv_nxt : ∃ d ≤ 2 ^ 31, t.tp.rcv_nxt = c.tp.rcv_nxt + BitVec.ofNat 32 d

theorem Forward.refl (h : t.received = c.received) (hnxt : t.tp.rcv_nxt = c.tp.rcv_nxt) : Forward peer c t := by
  refine ⟨h ▸ prefix_refl _, 0, by omega, ?_⟩
  rw [hnxt]
  exact (BitVec.add_zero _).symm

theorem Sound.advance (h : Sound peer c n ps)
    (hnone : c.finReturned = 0) {tp : Tcpcb} {r : Tcpcb × Socket × Bool} {known : Prop} {n' : ℕ}
    {ps' : List Piece} (hadv : Advanced peer n tp c.so known r n' ps')
    (htp : tp.t_state.peerOpen = true) {fin : Bool}
    (hknown : known ↔ c.finCarried = true ∨ fin = true) (hfin : r.2.2 = false) :
    Sound peer (c.returned fin r) n' ps' ∧ Forward peer c (c.returned fin r) := by
  have hc := h.rcv_nxt
  rw [hnone, Nat.add_zero] at hc
  have hle := hadv.le
  have hlt := hadv.lt
  have hsplit : n + (n' - n) = n' := Nat.add_sub_cancel' hle
  have hreceived : (c.returned fin r).received = c.received ++ peer.bytes n (n' - n) := by
    show c.taken ++ r.2.1.so_rcv = c.taken ++ c.so.so_rcv ++ peer.bytes n (n' - n)
    rw [hadv.so_eq, append_assoc]
  have hcount : (c.returned fin r).finReturned = 0 := by
    show c.finReturned + r.2.2.toNat = 0
    rw [hnone, hfin]
    rfl
  refine ⟨⟨?_, ?_, ?_, hadv.seg, .inl ⟨?_, hcount, hadv.queued, hadv.started, ?_⟩⟩, ?_, ?_⟩
  · have hbytes := peer.bytes_append 0 n (n' - n)
    rw [Nat.zero_add, hsplit] at hbytes
    rw [hreceived, h.received, hbytes]
  · have hmoved : c.moved + (r.1.rcv_nxt - c.tp.rcv_nxt).toNat = n' := by
      rw [h.moved, hnone, hadv.rcv_nxt, hc, Serial.toNat_number_sub hle (by omega)]
      exact hsplit
    rw [hcount]
    exact hmoved
  · rw [hcount]
    exact hadv.rcv_nxt
  · show r.1.t_state.peerOpen = true
    rw [hadv.t_state]
    exact htp
  · show (c.finCarried || fin) = true ↔ _
    rw [Bool.or_eq_true, ← hknown]
    exact hadv.kept hfin
  · rw [hreceived]
    exact prefix_append ..
  · refine ⟨n' - n, by omega, ?_⟩
    rw [hc, Serial.number_add, hsplit]
    exact hadv.rcv_nxt

theorem Sound.finish (h : Sound peer c n ps) (hnone : c.finReturned = 0) {tp : Tcpcb}
    {r r' : Tcpcb × Socket × Bool} {known : Prop} {n' : ℕ} {ps' : List Piece}
    (hadv : Advanced peer n tp c.so known r n' ps') {fin : Bool}
    (hknown : known ↔ c.finCarried = true ∨ fin = true) (hfin : r.2.2 = true)
    (hnxt : r'.1.rcv_nxt = r.1.rcv_nxt + 1) (hseg : r'.1.seg = r.1.seg)
    (hrcv : r'.2.1.so_rcv = r.2.1.so_rcv) (hfin' : r'.2.2 = true) :
    Sound peer (c.returned fin r') n' ps' ∧ Forward peer c (c.returned fin r') := by
  have hc := h.rcv_nxt
  rw [hnone, Nat.add_zero] at hc
  have hle := hadv.le
  have hlt := hadv.lt
  have hsplit : n + (n' - n) = n' := Nat.add_sub_cancel' hle
  obtain ⟨hex, hend, hps'⟩ := hadv.fin hfin
  have hreceived : (c.returned fin r').received = c.received ++ peer.bytes n (n' - n) := by
    show c.taken ++ r'.2.1.so_rcv = c.taken ++ c.so.so_rcv ++ peer.bytes n (n' - n)
    rw [hrcv, hadv.so_eq, append_assoc]
  have hcount : (c.returned fin r').finReturned = 1 := by
    show c.finReturned + r'.2.2.toNat = 1
    rw [hnone, hfin']
    rfl
  have hnxt' : r'.1.rcv_nxt = Serial.number (peer.irs + 1) (n' + 1) := by
    rw [hnxt, hadv.rcv_nxt]
    exact Serial.number_add ..
  refine ⟨⟨?_, ?_, ?_, ?_, .inr ⟨hcount, hps', hend, ?_⟩⟩, ?_, ?_⟩
  · have hbytes := peer.bytes_append 0 n (n' - n)
    rw [Nat.zero_add, hsplit] at hbytes
    rw [hreceived, h.received, hbytes]
  · have hmoved : c.moved + (r'.1.rcv_nxt - c.tp.rcv_nxt).toNat = n' + 1 := by
      rw [h.moved, hnone, hnxt', hc, Serial.toNat_number_sub (by omega) (by omega)]
      omega
    rw [hcount]
    exact hmoved
  · rw [hcount]
    exact hnxt'
  · exact hseg.trans hadv.seg
  · show (c.finCarried || fin) = true
    rw [Bool.or_eq_true]
    exact hknown.mp hex
  · rw [hreceived]
    exact prefix_append ..
  · refine ⟨n' + 1 - n, by omega, ?_⟩
    have hsum : n + (n' + 1 - n) = n' + 1 := by omega
    rw [hc, Serial.number_add, hsum]
    exact hnxt'

end Invariant

section Steps

variable {peer : Peer} {acked : Bool} {c t : Conn} {n : ℕ} {ps : List Piece} {e : Event}

theorem Sound.segment (h : Sound peer c n ps) {start len rcv_wnd : ℕ} {fin : Bool}
    (hok : Intact peer c (.segment start len fin rcv_wnd)) (hsends : peer.Sends start len fin)
    (hwin : InWindow c start len rcv_wnd) :
    ∃ n' ps',
      Sound peer (c.returned fin (dodata c.tp c.so (peer.segment start len fin))) n' ps' ∧
        Forward peer c (c.returned fin (dodata c.tp c.so (peer.segment start len fin))) := by
  obtain ⟨hlow, hhigh, hwnd⟩ := hwin
  obtain ⟨hlen, hfin, hend⟩ := hsends
  have hmoved := h.moved
  cases h.phase with
  | inr hheard =>
    have := hend n hheard.fin
    have := hheard.returned
    omega
  | inl hhear =>
    obtain ⟨hsyn, hnofin, -⟩ := State.peerOpen_spec hhear.open_
    have hnone := hhear.none_returned
    have hnxt := h.rcv_nxt
    rw [hnone, Nat.add_zero] at hnxt
    have hknown (b : Bool) : ((∃ q ∈ ps, q.last = true) ∨ b = true) ↔
        c.finCarried = true ∨ b = true := or_congr_left hhear.known.symm
    have hpiece : peer.segment start len fin = peer.seg ⟨start, len, fin⟩ := rfl
    rw [hpiece]
    unfold dodata
    by_cases hguard : ((peer.seg ⟨start, len, fin⟩).ti_len ≠ 0 ∨
        (peer.seg ⟨start, len, fin⟩).th_fin = true) ∧ TCPS_HAVERCVDFIN c.tp.t_state = false
    · have hnew : New peer n ⟨start, len, fin⟩ := by
        refine ⟨⟨hend, hfin, fun hzero => ?_⟩, ?_, ?_⟩
        · exact hguard.1.resolve_left fun hne => hne hzero
        · show n ≤ start
          omega
        · show start + len ≤ _
          omega
      obtain ⟨n', ps', hadv⟩ := TCP_REASS_advanced c.so hhear.queued hhear.started hnew h.seg hnxt
        hsyn hok.1 hok.2
      have hstate := hadv.t_state
      rw [if_pos hguard]
      generalize TCP_REASS c.tp c.so (peer.seg ⟨start, len, fin⟩) = r at hadv hstate ⊢
      obtain ⟨tp, so, flags⟩ := r
      cases flags with
      | false => exact ⟨n', ps', h.advance hnone hadv hhear.open_ (hknown fin) rfl⟩
      | true =>
        have hopen : TCPS_HAVERCVDFIN tp.t_state = false := by
          rw [show tp.t_state = c.tp.t_state from hstate]
          exact hnofin
        simp only [if_true, hopen, Bool.false_eq_true, if_false]
        exact ⟨n', ps', h.finish hnone hadv (hknown fin) rfl rfl rfl rfl rfl⟩
    · have hempty : fin = false := by
        simp only [hnofin, and_true, not_or, Bool.not_eq_true] at hguard
        exact hguard.2
      rw [if_neg hguard]
      have hsame : (∃ q ∈ ps, q.last = true) ∨ fin = true ↔ ∃ q ∈ ps, q.last = true := by
        simp [hempty]
      have hadv := Advanced.same c.so hhear.queued hhear.started h.seg hnxt hsame
      exact ⟨n, ps, h.advance hnone hadv hhear.open_ (hknown fin) rfl⟩

theorem gapless_of_presentLoop {cantrcvmore : Bool} {rcv_nxt : tcp_seq} {sb : List Byte} {flags : Bool}
    {seg : List Tcpiphdr} (h : (presentLoop cantrcvmore rcv_nxt sb flags seg).2.2.2 = []) :
    gapless rcv_nxt seg = true := by
  induction seg generalizing rcv_nxt sb flags with
  | nil => rfl
  | cons q qs ih =>
    by_cases hseq : q.ti_seq = rcv_nxt
    · rw [presentLoop, if_pos hseq] at h
      rw [gapless, hseq, beq_self_eq_true, Bool.true_and]
      exact ih h
    · rw [presentLoop, if_neg hseq] at h
      cases h

theorem gapless_of_present {tp : Tcpcb} {so : Socket} (hfin : (present tp so).2.2 = true)
    (hseg : (present tp so).1.seg = []) : gapless tp.rcv_nxt tp.seg = true := by
  unfold present at hfin hseg
  split_ifs at hfin hseg with hpres
  exact gapless_of_presentLoop hseg

theorem Sound.ackSyn (h : Sound peer c n ps) (hok : Intact peer c .ackSyn) :
    ∃ n' ps',
      Sound peer (c.returned false (tcp_reass { c.tp with t_state := .ESTABLISHED } c.so none)) n' ps' ∧
        Forward peer c
          (c.returned false (tcp_reass { c.tp with t_state := .ESTABLISHED } c.so none)) := by
  cases h.phase with
  | inr hheard =>
    have hnil : c.tp.seg = [] := by
      rw [h.seg, hheard.nothing]
      rfl
    have hpres : tcp_reass { c.tp with t_state := .ESTABLISHED } c.so none =
        ({ c.tp with t_state := .ESTABLISHED }, c.so, false) := by
      have hno : presents { c.tp with t_state := .ESTABLISHED } = false := by
        simp [presents, hnil]
      simp [tcp_reass, present, hno]
    rw [hpres]
    refine ⟨n, ps, ⟨h.received, ?_, h.rcv_nxt, h.seg, .inr ⟨hheard.returned, hheard.nothing,
      hheard.fin, ?_⟩⟩, .refl rfl rfl⟩
    · show c.moved + (c.tp.rcv_nxt - c.tp.rcv_nxt).toNat = n + c.finReturned
      rw [BitVec.sub_self]
      exact h.moved
    · show (c.finCarried || false) = true
      rw [hheard.carried]
      rfl
  | inl hhear =>
    have hnone := hhear.none_returned
    have hnxt := h.rcv_nxt
    rw [hnone, Nat.add_zero] at hnxt
    have hdue : c.so.cantrcvmore = false ∨ State.ESTABLISHED = .SYN_RECEIVED ∨
        ∀ p ∈ ps, p.start = n → p.len = 0 := by
      refine hok.2.imp_right fun hdue => .inr fun p hp hstart => ?_
      apply hdue (peer.seg p)
      · rw [h.seg]
        exact mem_map_of_mem hp
      · rw [hnxt, ← hstart]
        rfl
    obtain ⟨n', ps', hadv⟩ := present_advanced { c.tp with t_state := .ESTABLISHED } c.so
      hhear.queued h.seg hnxt rfl hdue
    have hfin : (present { c.tp with t_state := .ESTABLISHED } c.so).2.2 = false := by
      rw [← Bool.not_eq_true]
      intro hfin
      obtain ⟨⟨q, hq, hlast⟩, -, hps'⟩ := hadv.fin hfin
      have hseg := hadv.seg
      rw [hps'] at hseg
      have hgap := gapless_of_present hfin hseg
      have hno := hok.1 hgap (peer.seg q) (h.seg ▸ mem_map_of_mem hq)
      have hyes : (peer.seg q).th_fin = true := hlast
      rw [hyes] at hno
      cases hno
    exact ⟨n', ps', h.advance hnone hadv rfl (by simp [hhear.known]) hfin⟩

theorem Sound.aside (h : Sound peer c n ps) (hreceived : t.received = c.received)
    (hmoved : t.moved = c.moved) (hcount : t.finReturned = c.finReturned)
    (hcarried : t.finCarried = c.finCarried) (hnxt : t.tp.rcv_nxt = c.tp.rcv_nxt) (hseg : t.tp.seg = c.tp.seg)
    (hopen : c.tp.t_state.peerOpen = true → t.tp.t_state.peerOpen = true) :
    Sound peer t n ps ∧ Forward peer c t := by
  refine ⟨⟨hreceived.trans h.received, ?_, ?_, hseg.trans h.seg, ?_⟩, .refl hreceived hnxt⟩
  · rw [hmoved, hcount]
    exact h.moved
  · rw [hnxt, hcount]
    exact h.rcv_nxt
  · refine h.phase.imp (fun hhear => ?_) fun hheard => ?_
    · exact ⟨hopen hhear.open_, hcount.trans hhear.none_returned, hhear.queued, hhear.started,
        hcarried ▸ hhear.known⟩
    · exact ⟨hcount.trans hheard.returned, hheard.nothing, hheard.fin, hcarried ▸ hheard.carried⟩

theorem Sound.step (h : Sound peer c n ps) (hok : Intact peer c e) (ht : Tcp.step peer c e = some t) :
    ∃ n' ps', Sound peer t n' ps' ∧ Forward peer c t := by
  cases e with
  | segment start len fin rcv_wnd =>
    simp only [Tcp.step] at ht
    split_ifs at ht with hcond
    obtain rfl := some_inj.mp ht
    exact h.segment hok hcond.1 hcond.2
  | ackSyn =>
    simp only [Tcp.step] at ht
    split_ifs at ht with hstate
    obtain rfl := some_inj.mp ht
    exact h.ackSyn hok
  | ackFin =>
    obtain rfl := some_inj.mp ht
    exact ⟨n, ps, h.aside rfl rfl rfl rfl rfl rfl fun ho => (State.peerOpen_spec ho).2.2.2⟩
  | usrclosed =>
    obtain rfl := some_inj.mp ht
    exact ⟨n, ps, h.aside rfl rfl rfl rfl rfl rfl fun ho => (State.peerOpen_spec ho).2.2.1⟩
  | sorflush =>
    obtain rfl := some_inj.mp ht
    have hreceived : (c.taken ++ c.so.so_rcv) ++ [] = c.taken ++ c.so.so_rcv := append_nil _
    exact ⟨n, ps, h.aside hreceived rfl rfl rfl rfl rfl id⟩
  | soreceive k =>
    obtain rfl := some_inj.mp ht
    have hreceived : (c.taken ++ c.so.so_rcv.take k) ++ c.so.so_rcv.drop k =
        c.taken ++ c.so.so_rcv := by
      rw [append_assoc, take_append_drop]
    exact ⟨n, ps, h.aside hreceived rfl rfl rfl rfl rfl id⟩

end Steps

section Result

variable {peer : Peer} {acked : Bool} {c : Conn} {n : ℕ} {ps : List Piece}

theorem held_of_ordered (h : Ordered n ps) : Held peer n (ps.map peer.seg) := by
  induction ps generalizing n with
  | nil => trivial
  | cons q qs ih => exact ⟨q.start, h.1, rfl, ih h.2⟩

theorem Sound.delivered (h : Sound peer c n ps) : Delivered peer c := by
  have hlen : c.received.length = n := by
    rw [h.received, Peer.bytes_length]
  refine ⟨?_, ?_, ?_, ?_, ?_⟩
  · rw [hlen]
    exact h.received
  · rw [hlen]
    exact h.rcv_nxt
  · rw [hlen, h.seg]
    rcases h.phase with hhear | hheard
    · exact held_of_ordered hhear.queued.order
    · rw [hheard.nothing]
      trivial
  · rcases h.phase with hhear | hheard
    · rw [hhear.none_returned]
      omega
    · exact Nat.le_of_eq hheard.returned
  · rw [hlen]
    rcases h.phase with hhear | hheard
    · rw [hhear.none_returned, hhear.known]
      constructor
      · intro hone
        cases hone
      · -- an empty segment that is next would have been presented
        rintro ⟨⟨p, hp, -⟩, hfin⟩
        obtain ⟨hstart, hzero⟩ := hhear.queued.empty_of_fin hfin hp
        have := hhear.started p hp hstart
        omega
    · exact ⟨fun _ => ⟨hheard.carried, hheard.fin⟩, fun _ => hheard.returned⟩

theorem exists_sound (h : ((connSystem peer acked).restrict (Intact peer)).Reachable c) :
    ∃ n ps, Sound peer c n ps := by
  refine h.invariant (I := fun c => ∃ n ps, Sound peer c n ps) ?_ ?_
  · rintro s rfl
    exact ⟨0, [], sound_start peer acked⟩
  · rintro s e t - ⟨n, ps, hs⟩ ⟨hok, ht⟩
    obtain ⟨n', ps', ht', -⟩ := hs.step hok ht
    exact ⟨n', ps', ht'⟩

/-- In every run whose steps keep the FIN the stream is delivered, and no such step takes anything
back. -/
theorem stream_delivered (h : ((connSystem peer acked).restrict (Intact peer)).Reachable c) :
    Delivered peer c ∧ ∀ e t, Intact peer c e → step peer c e = some t → Forward peer c t := by
  obtain ⟨n, ps, hs⟩ := exists_sound h
  refine ⟨hs.delivered, fun e t hok ht => ?_⟩
  obtain ⟨-, -, -, hforward⟩ := hs.step hok ht
  exact hforward

/-- A peer that sends three bytes and its FIN, across the end of the sequence space. -/
def shortPeer : Peer where
  irs := 0xfffffffd#32
  byte i := BitVec.ofNat 8 (65 + i)
  fin := some 3

/-- The last byte comes first, then the FIN on it again with the one before, and the gap is filled. -/
def outOfOrder : List Event := [.segment 2 1 true 10, .segment 1 2 true 10, .soreceive 1, .segment 0 2 false 10]

theorem stream_delivered_outOfOrder :
    ∃ c, System.runFrom (step shortPeer) (Conn.start shortPeer true) outOfOrder = some c ∧
      c.finReturned = 1 ∧ Delivered shortPeer c ∧
        ∀ e t, Intact shortPeer c e → step shortPeer c e = some t → Forward shortPeer c t := by
  have hrun : (System.runFrom (step shortPeer) (Conn.start shortPeer true) outOfOrder).map
      Conn.finReturned = some 1 := by
    decide
  obtain ⟨c, hc, hfin⟩ := map_eq_some_iff.mp hrun
  have hok : System.MeetsAlong (step shortPeer) (Intact shortPeer) (Conn.start shortPeer true)
      outOfOrder := .of_stepsPass (by decide)
  have hreach : ((connSystem shortPeer true).restrict (Intact shortPeer)).Reachable c :=
    System.Reachable.runFrom_restrict (.init rfl) hok hc
  exact ⟨c, hc, hfin, stream_delivered hreach⟩

/-- The last byte comes first and without the FIN.  When it comes again with the FIN it is dropped. -/
def finOnDuplicate : List Event := [.segment 2 1 false 10, .segment 2 1 true 10, .segment 0 2 false 10]

theorem fin_lost :
    ¬∀ (peer : Peer) (acked : Bool) (c : Conn), (connSystem peer acked).Reachable c →
      Delivered peer c := by
  intro hall
  have hrun : (System.runFrom (step shortPeer) (Conn.start shortPeer true) finOnDuplicate).map
      (fun c => (c.finReturned, c.finCarried, c.received.length)) = some (0, true, 3) := by
    decide
  obtain ⟨c, hc, hval⟩ := map_eq_some_iff.mp hrun
  simp only [Prod.mk.injEq] at hval
  obtain ⟨hreturned, hcarried, hlen⟩ := hval
  have hfin := (hall shortPeer true c (System.reachable_of_runFrom hc)).fin
  rw [hreturned, hcarried, hlen] at hfin
  have hone := hfin.mpr ⟨rfl, rfl⟩
  cases hone

end Result

end Connection

end Osf1.Tcp
