import Osf1.Message.Queue

/-!
# Messages are conserved

Every step keeps the queues, the headers, the byte counters and the numbers in order.  The
byte counter of a queue has sixteen bits: it is right as long as no message is put on a queue
that takes it further.
-/

set_option autoImplicit false

namespace Osf1.Message

open Function List

section Conservation

open Osf1.Computation Osf1.Ipc

variable {mi : MsgInfo} {p : Pid} {s t : State} {q : ℕ → List ℕ} {i mp : ℕ}

/-- The headers of a queue. -/
def State.headers (s : State) (i : ℕ) : List ℕ := trail s.next s.msghdrZone.length (s.msgque i).msgFirst

/-- The messages of a queue. -/
def State.contents (s : State) (i : ℕ) : List Msg := messages s (s.headers i)

theorem QueueInv.length_le (h : QueueInv mi s q) (hi : i < mi.msgmni) : (q i).length ≤ s.msghdrZone.length :=
  ((h.chains.nodup i hi).subperm (h.headers.sub i hi)).length_le

theorem QueueInv.headers_eq (h : QueueInv mi s q) (hi : i < mi.msgmni) : s.headers i = q i :=
  (h.chains.chain i hi).trail_eq (h.length_le hi)

theorem msgconv_some {msqid : ℤ} (h : msgconv mi s msqid = some i) :
    i < mi.msgmni ∧ (s.msgque i).msgPerm.Alloc := by
  have hmni := mi.msgmni_pos
  unfold msgconv at h
  simp only at h
  split at h
  · cases h
  split at h
  · cases h
  · rename_i halloc
    cases h
    refine ⟨?_, ?_⟩
    · have hlt := Int.emod_lt_of_pos (toInt msqid) (Int.natCast_pos.mpr hmni)
      omega
    · exact not_not.mp fun hnot => halloc (.inl hnot)

theorem sameQueues_finish (p : Pid) (s : State) (o : Outcome) : SameQueues s (finish p s o).1 := by
  unfold finish
  split
  · exact sameQueues_setProc s p _
  · exact sameQueues_setProc s p _

theorem finish_snd (p : Pid) (s : State) (o : Outcome) : (finish p s o).2 = o := by
  unfold finish
  split <;> rfl

theorem sameQueues_await (a : Rcv) (i : ℕ) (io : Io) (s : State) : SameQueues s (await p a i io s).1 := by
  unfold await
  split
  · exact sameQueues_finish p s _
  split
  · have hmod : SameQueues s (s.modify i fun qp => { qp with
        msgWaitList := (joinWait a.msgtyp io.zalloc s.serial (s.msgque i).msgWaitList).1 }) :=
      .modify s i rfl rfl rfl rfl rfl
    have hjoined : SameQueues s { s.modify i fun qp => { qp with
        msgWaitList := (joinWait a.msgtyp io.zalloc s.serial (s.msgque i).msgWaitList).1 } with
          serial := s.serial + 1 } :=
      ⟨⟨hmod.first, hmod.last, hmod.qnum, hmod.alloc, rfl, rfl, rfl⟩, hmod.cbytes, Nat.le_succ _, rfl⟩
    exact hjoined.trans (sameQueues_finish p _ _)
  · exact .trans (.modify s i rfl rfl rfl rfl (alloc_orBits (by decide)))
      (sameQueues_finish p _ _)

variable {l₁ l₂ : List ℕ}

/-- A message is copied out and leaves its queue, or the call fails and nothing happens. -/
inductive ReceiveKind (p : Pid) (a : Rcv) (i mp : ℕ) (q' : ℕ → List ℕ) (mi : MsgInfo)
    (s : State) : State × Outcome → Prop where
  | fails {t : State} (errno : ℕ) (hs : SameQueues s t) :
      ReceiveKind p a i mp q' mi s (t, .returns errno)
  | delivers {t : State} (size : ℤ) (hq : QueueInv mi t q')
      (hmsg : ∀ a, (t.msg a).unlinked = (s.msg a).unlinked)
      (hdel : t.delivered = s.delivered ++ [⟨i, a.msgtyp, s.msg mp, size⟩]) :
      ReceiveKind p a i mp q' mi s (t, .delivers ⟨i, a.msgtyp, s.msg mp, size⟩)

theorem bytes_remove (s : State) (l₁ l₂ : List ℕ) (mp : ℕ) :
    bytes s (l₁ ++ mp :: l₂) = bytes s (l₁ ++ l₂) + (s.msg mp).msgTs := by
  unfold bytes messages Msg.unlinked
  simp only [map_append, map_cons, sum_append, sum_cons]
  omega

theorem receive_kind (h : QueueInv mi s q) (a : Rcv) (hi : i < mi.msgmni) (hq : q i = l₁ ++ mp :: l₂) (io : Io) :
    ReceiveKind p a i mp (update q i (l₁ ++ l₂)) mi s
      (receive p a i l₁.getLast? mp io s) := by
  have hfails (errno : ℕ) : ReceiveKind p a i mp (update q i (l₁ ++ l₂)) mi s
      (finish p s (.returns errno)) := .fails errno (sameQueues_setProc s p .running)
  unfold receive
  simp only
  split
  · exact hfails E2BIG
  generalize (if a.msgsz < (s.msg mp).msgTs then a.msgsz else ((s.msg mp).msgTs : ℤ)) = size
  split
  · exact hfails EFAULT
  split
  · exact hfails EFAULT
  generalize hu : (s.modify i fun qp =>
    { qp with msgCbytes := qp.msgCbytes - UInt16.ofNat (s.msg mp).msgTs, msgLrpid := p }) = u
  have hsame : SameChains s u := hu ▸ .modify s i rfl rfl rfl rfl
  have hnodup := h.chains.nodup i hi
  obtain ⟨hchains, hheaders⟩ := chains_msgfree (h.chains.same hsame) (h.headers.same hsame) hi hq
  obtain ⟨hmsg, hcbytes, hserial, hdelivered⟩ := msgfree_rest u i l₁.getLast? mp
  have hmsgs : ∀ a, ((msgfree i l₁.getLast? mp u).msg a).unlinked = (s.msg a).unlinked := by
    intro a
    rw [hmsg a, hsame.msg]
  have huserial : u.serial = s.serial := by
    rw [← hu]
    rfl
  have hudelivered : u.delivered = s.delivered := by
    rw [← hu]
    rfl
  have hmem : mp ∈ q i := by
    rw [hq]
    simp
  have hnumbers : Numbers mi (msgfree i l₁.getLast? mp u) q :=
    h.numbers.sub (fun _ _ => List.Sublist.refl _) hmsgs (hserial.trans huserial)
      (hdelivered.trans hudelivered)
  refine .delivers _ ⟨?_, ?_, ?_, ?_⟩ hmsgs
    (congrArg (fun l => l ++ [(⟨i, a.msgtyp, s.msg mp, size⟩ : Delivery)])
      (hdelivered.trans hudelivered))
  · exact ⟨hchains.chain, hchains.last, hchains.qnum, hchains.idle, hchains.nodup, hchains.own⟩
  · exact ⟨hheaders.sub, hheaders.nodup, hheaders.cur, hheaders.total⟩
  · intro j hj
    have hold := h.counted j hj
    have hbytes : bytes (msgfree i l₁.getLast? mp u) (update q i (l₁ ++ l₂) j) =
        bytes s (update q i (l₁ ++ l₂) j) := by
      unfold bytes
      rw [messages_congr hmsgs]
    refine (hcbytes j).trans (Eq.trans ?_ (congrArg UInt16.ofNat hbytes.symm))
    rw [← hu]
    unfold State.modify
    by_cases hji : j = i
    · subst hji
      simp only [update_self]
      rw [hold, hq, bytes_remove, UInt16.ofNat_add, UInt16.add_sub_cancel]
    · simp only [update_of_ne hji]
      exact hold
  · have hdone := hnumbers.deliver (d := ⟨i, a.msgtyp, s.msg mp, size⟩) hi hmem
      (fun j _ => sublist_remove hq j) (fun j hj => notMem_remove hq hi hnodup h.chains.own hj)
      (serial_congr hmsgs mp).symm
    exact ⟨hdone.lt, hdone.order, hdone.inj, hdone.past, hdone.once, hdone.gone⟩

/-- What a pass of `msgrcv` does: it fails, it goes to sleep as there is no message, or it
delivers the message it should. -/
inductive RcvKind (mi : MsgInfo) (p : Pid) (a : Rcv) (q : ℕ → List ℕ) (s : State) :
    State × Outcome → Prop where
  | fails {t : State} (errno : ℕ) (hs : SameQueues s t) : RcvKind mi p a q s (t, .returns errno)
  | sleeps {t : State} {i : ℕ} (f : Frame) (hconv : msgconv mi s a.msqid = some i)
      (hnone : ∀ b ∈ q i, ¬Eligible a.msgtyp (s.msg b)) (hs : SameQueues s t) :
      RcvKind mi p a q s (t, .sleeps f)
  | delivers {t : State} {i mp : ℕ} {l₁ l₂ : List ℕ} (size : ℤ)
      (hconv : msgconv mi s a.msqid = some i) (hl : q i = l₁ ++ mp :: l₂)
      (hpicks : Picks a.msgtyp (l₁.map s.msg) (s.msg mp) (l₂.map s.msg))
      (hq : QueueInv mi t (update q i (l₁ ++ l₂)))
      (hmsg : ∀ b, (t.msg b).unlinked = (s.msg b).unlinked)
      (hdel : t.delivered = s.delivered ++ [⟨i, a.msgtyp, s.msg mp, size⟩]) :
      RcvKind mi p a q s (t, .delivers ⟨i, a.msgtyp, s.msg mp, size⟩)

theorem msgrcv_kind (h : QueueInv mi s q) (a : Rcv) (firstpass : Bool) (io : Io) :
    ∃ r, msgrcv mi p a firstpass io s = some r ∧ RcvKind mi p a q s r := by
  have hfails (errno : ℕ) : RcvKind mi p a q s (finish p s (.returns errno)) :=
    .fails errno (sameQueues_setProc s p .running)
  unfold msgrcv
  cases hconv : msgconv mi s a.msqid with
  | none => exact ⟨_, rfl, hfails _⟩
  | some i =>
    obtain ⟨hi, -⟩ := msgconv_some hconv
    simp only
    split
    · exact ⟨_, rfl, hfails _⟩
    split
    · exact ⟨_, rfl, hfails _⟩
    obtain ⟨r, hr, hend⟩ := search_end (h.chains.chain i hi) (h.length_le hi) a.msgtyp
    rw [hr]
    cases hend with
    | none preMp hnone =>
      refine ⟨_, rfl, ?_⟩
      have hsame := sameQueues_await (p := p) a i io s
      unfold await at hsame ⊢
      split
      · exact hfails ENOMSG
      · rename_i hnowait
        rw [if_neg hnowait] at hsame
        split
        · rename_i hpos
          rw [if_pos hpos] at hsame
          exact .sleeps _ hconv hnone hsame
        · rename_i hnpos
          rw [if_neg hnpos] at hsame
          exact .sleeps _ hconv hnone hsame
    | found l₁ l₂ mp hl hpicks =>
      refine ⟨_, rfl, ?_⟩
      have hkind := receive_kind (p := p) h a hi hl io
      generalize receive p a i l₁.getLast? mp io s = r at hkind
      cases hkind with
      | fails errno hs => exact .fails errno hs
      | delivers size hq hmsg hdel => exact .delivers size hconv hl hpicks hq hmsg hdel

/-- A send that is put on its queue: it passes the checks, there is room for it, and a header,
and its text can be read. -/
structure Accepted (mi : MsgInfo) (p : Pid) (s : State) (a : Snd) (io : Io) (i : ℕ) : Prop where
  conv : msgconv mi s a.msqid = some i
  access : ipcaccess a.cred (s.msgque i).msgPerm MSG_W = true
  size : 0 ≤ toInt a.msgsz ∧ toInt a.msgsz ≤ mi.msgmax
  typ : ∃ typ, (if a.msgflg &&& MSG_TAG ≠ 0 then some (Int64.ofNat p.val) else io.typeIn) = some typ ∧ ¬typ < 1
  room : toInt a.msgsz + (s.msgque i).msgCbytes.toNat ≤ (s.msgque i).msgQbytes
  header : s.curMsghdrs < mi.msgtql
  text : toInt a.msgsz = 0 ∨ io.textIn ≠ none

/-- What a turn of the loop of `msgsnd` does. -/
inductive SndKind (mi : MsgInfo) (p : Pid) (a : Snd) (io : Io) (q : ℕ → List ℕ) (s : State) :
    State × Outcome → Prop where
  | same {t : State} (o : Outcome) (hs : SameQueues s t) : SndKind mi p a io q s (t, o)
  | enqueued {t : State} {i mp : ℕ} (hacc : Accepted mi p s a io i)
      (hq : QueueInv mi t (update q i (q i ++ [mp])))
      (hbytes : ∀ j < mi.msgmni, bytes t (update q i (q i ++ [mp]) j) =
        if j = i then bytes s (q i) + (toInt a.msgsz).toNat else bytes s (q j)) :
      SndKind mi p a io q s (t, .returns 0)

theorem messages_link {l : List ℕ} (hmp : mp ∉ l) (typ : Int64) (cnt : ℕ) (text : List UInt8) :
    messages (link p i mp typ cnt text s) l = messages s l := by
  apply map_congr_left
  intro a ha
  have hne : a ≠ mp := fun heq => hmp (heq ▸ ha)
  rw [link_unlinked, if_neg hne]

theorem enqueue_kind (h : QueueInv mi s q) (hi : i < mi.msgmni) (halloc : (s.msgque i).msgPerm.Alloc)
    (hmp : mp ∉ s.msghdrZone) (typ : Int64) (cnt : ℕ) (text : List UInt8) {u : State}
    (hu : u = { s with msghdrZone := mp :: s.msghdrZone, curMsghdrs := s.curMsghdrs + 1 }) :
    QueueInv mi (enqueue p i mp typ cnt text u) (update q i (q i ++ [mp])) ∧
      ∀ j < mi.msgmni, bytes (enqueue p i mp typ cnt text u)
        (update q i (q i ++ [mp]) j) =
          if j = i then bytes s (q i) + cnt else bytes s (q j) := by
  have hout : ∀ j < mi.msgmni, mp ∉ q j := fun j hj hmem => hmp (h.headers.sub j hj mp hmem)
  have hchainsu : Chains mi u q := by
    rw [hu]
    exact ⟨h.chains.chain, h.chains.last, h.chains.qnum, h.chains.idle, h.chains.nodup, h.chains.own⟩
  have hallocu : (u.msgque i).msgPerm.Alloc := by
    rw [hu]
    exact halloc
  have hchains := hchainsu.link (p := p) hi hallocu hout typ cnt text
  obtain ⟨hzone, hcur, hserial, hdelivered⟩ := link_rest (p := p) u i mp typ cnt text
  have hunlinked := link_unlinked (p := p) u i mp typ cnt text
  have hmsgu : u.msg = s.msg := by rw [hu]
  have hqueu : u.msgque = s.msgque := by rw [hu]
  have hserialu : u.serial = s.serial := by rw [hu]
  have hdeliveredu : u.delivered = s.delivered := by rw [hu]
  -- the number of a message on a queue
  have hnumber (a : ℕ) : ((link p i mp typ cnt text u).msg a).serial =
      if a = mp then s.serial else (s.msg a).serial := by
    have hserial' := congrArg Msg.serial (hunlinked a)
    by_cases ha : a = mp
    · rw [if_pos ha] at hserial' ⊢
      exact hserial'.trans hserialu
    · rw [if_neg ha] at hserial' ⊢
      rw [hmsgu] at hserial'
      exact hserial'
  have hbytes : ∀ j < mi.msgmni, bytes (link p i mp typ cnt text u)
      (update q i (q i ++ [mp]) j) =
        if j = i then bytes s (q i) + cnt else bytes s (q j) := by
    intro j hj
    have hold : messages (link p i mp typ cnt text u) (q j) = messages s (q j) := by
      rw [messages_link (hout j hj)]
      unfold messages
      rw [hmsgu]
    by_cases hji : j = i
    · subst hji
      unfold bytes
      rw [← hold]
      unfold messages
      simp [hunlinked]
    · rw [update_of_ne hji, if_neg hji]
      unfold bytes
      rw [hold]
  have hsame := (sameQueues_wakeReaders i (link p i mp typ cnt text u)).trans
    (sameQueues_wakeWaiters typ i _)
  refine ⟨QueueInv.same ⟨hchains, ?_, ?_, ?_⟩ hsame, fun j hj => ?_⟩
  · have hsum := length_update q hi (q i ++ [mp])
    rw [length_append, length_singleton] at hsum
    have htotal := h.headers.total
    have hcurs := h.headers.cur
    refine ⟨fun j hj a ha => ?_, ?_, ?_, ?_⟩
    · rw [hzone, hu]
      rcases mem_update_push ha with ha | ha
      · exact mem_cons_of_mem _ (h.headers.sub j hj a ha)
      · exact ha.1 ▸ mem_cons_self ..
    · rw [hzone, hu]
      exact nodup_cons.mpr ⟨hmp, h.headers.nodup⟩
    · rw [hzone, hcur, hu]
      simp [hcurs]
    · rw [hzone, hu]
      simp only [length_cons]
      omega
  · intro j hj
    rw [hbytes j hj, link_msgque, hqueu]
    by_cases hji : j = i
    · subst hji
      rw [if_pos rfl, if_pos rfl, h.counted j hj, UInt16.ofNat_add]
    · rw [if_neg hji, if_neg hji]
      exact h.counted j hj
  · refine ⟨fun j hj a ha => ?_, fun j hj => ?_, fun j hj k hk a ha b hb heq => ?_,
      fun d hd => ?_, ?_, fun d hd j hj a ha => ?_⟩
    · rw [hnumber, hserial, hserialu]
      split
      · exact Nat.lt_succ_self _
      · rename_i hne
        rcases mem_update_push ha with ha | ha
        · exact Nat.lt_succ_of_lt (h.numbers.lt j hj a ha)
        · exact absurd ha.1 hne
    · have hne : ∀ a ∈ q j, a ≠ mp := fun a ha heq => hout j hj (heq ▸ ha)
      have hkept : (q j).Pairwise fun a b =>
          ((link p i mp typ cnt text u).msg a).serial <
            ((link p i mp typ cnt text u).msg b).serial := by
        refine (h.numbers.order j hj).imp_of_mem fun {a b} ha hb hab => ?_
        rwa [hnumber, hnumber, if_neg (hne a ha), if_neg (hne b hb)]
      by_cases hji : j = i
      · subst hji
        rw [update_self, pairwise_append]
        refine ⟨hkept, pairwise_singleton _ _, fun a ha b hb => ?_⟩
        obtain rfl := mem_singleton.mp hb
        rw [hnumber, hnumber, if_neg (hne a ha), if_pos rfl]
        exact h.numbers.lt j hj a ha
      · rw [update_of_ne hji]
        exact hkept
    · rw [hnumber, hnumber] at heq
      rcases mem_update_push ha with ha | ha
      · have hane : a ≠ mp := fun heq => hout j hj (heq ▸ ha)
        have halt := h.numbers.lt j hj a ha
        rcases mem_update_push hb with hb | hb
        · have hbne : b ≠ mp := fun heq => hout k hk (heq ▸ hb)
          rw [if_neg hane, if_neg hbne] at heq
          exact h.numbers.inj j hj k hk a ha b hb heq
        · rw [if_neg hane, if_pos hb.1] at heq
          omega
      · rcases mem_update_push hb with hb | hb
        · have hbne : b ≠ mp := fun heq => hout k hk (heq ▸ hb)
          have hblt := h.numbers.lt k hk b hb
          rw [if_pos ha.1, if_neg hbne] at heq
          omega
        · exact ha.1.trans hb.1.symm
    · rw [hdelivered, hdeliveredu] at hd
      rw [hserial, hserialu]
      exact Nat.lt_succ_of_lt (h.numbers.past d hd)
    · rw [hdelivered, hdeliveredu]
      exact h.numbers.once
    · rw [hdelivered, hdeliveredu] at hd
      rw [hnumber]
      split
      · exact (Nat.ne_of_lt (h.numbers.past d hd)).symm
      · rename_i hne
        rcases mem_update_push ha with ha | ha
        · exact h.numbers.gone d hd j hj a ha
        · exact absurd ha.1 hne
  · rw [← hbytes j hj]
    unfold enqueue bytes messages
    rw [hsame.msg]

theorem sameQueues_freeMsghdr (mp : ℕ) (s : State) :
    SameQueues s (freeMsghdr mp
      { s with msghdrZone := mp :: s.msghdrZone, curMsghdrs := s.curMsghdrs + 1 }) := by
  obtain ⟨proc, wait, heq⟩ := freeMsghdr_eq mp
    { s with msghdrZone := mp :: s.msghdrZone, curMsghdrs := s.curMsghdrs + 1 }
  rw [heq]
  refine ⟨⟨fun _ => rfl, fun _ => rfl, fun _ => rfl, fun _ => Iff.rfl, rfl, ?_, ?_⟩, fun _ => rfl, le_rfl, rfl⟩
  · exact erase_cons_head mp s.msghdrZone
  · simp

theorem msgsnd_kind (h : QueueInv mi s q) (a : Snd) (firstpass : Bool) (io : Io) (hio : io.zalloc ∉ s.msghdrZone) :
    SndKind mi p a io q s (msgsnd mi p a firstpass io s) := by
  have hsame {t : State} (o : Outcome) (hs : SameQueues s t) :
      SndKind mi p a io q s (finish p t o) := by
    have hdone := hs.trans (sameQueues_finish p t o)
    have hsnd := finish_snd p t o
    generalize finish p t o = r at hdone hsnd
    exact .same r.2 hdone
  have hsame' (errno : ℕ) := hsame (.returns errno) (.refl s)
  unfold msgsnd
  cases hconv : msgconv mi s a.msqid with
  | none => exact hsame' _
  | some i =>
    obtain ⟨hi, halloc⟩ := msgconv_some hconv
    simp only
    split
    · exact hsame' EACCES
    rename_i haccess
    split
    · exact hsame' EINVAL
    split
    · exact hsame' EFAULT
    rename_i typ htyp
    split
    · exact hsame' EINVAL
    rename_i hpos
    split
    · split
      · exact hsame' EAGAIN
      · exact hsame _ (.modify s i rfl rfl rfl rfl (alloc_orBits (by decide)))
    split
    · split
      · exact hsame' EAGAIN
      · exact hsame _ ⟨⟨fun _ => rfl, fun _ => rfl, fun _ => rfl, fun _ => Iff.rfl, rfl, rfl, rfl⟩,
          fun _ => rfl, le_rfl, rfl⟩
    unfold send
    split
    · exact hsame _ (sameQueues_freeMsghdr io.zalloc s)
    rename_i text htext
    have hacc : Accepted mi p s a io i := by
      refine ⟨hconv, by simpa using haccess, by omega, ⟨typ, htyp, hpos⟩, by omega, by omega, ?_⟩
      by_cases hzero : (toInt a.msgsz).toNat = 0
      · left
        omega
      · right
        rw [if_neg hzero] at htext
        rw [htext]
        nofun
    obtain ⟨hq, hbytes⟩ := enqueue_kind (p := p) h hi halloc hio typ (toInt a.msgsz).toNat text rfl
    have hdone := sameQueues_setProc (enqueue p i io.zalloc typ (toInt a.msgsz).toNat text
      { s with msghdrZone := io.zalloc :: s.msghdrZone, curMsghdrs := s.curMsghdrs + 1 }) p .running
    refine .enqueued hacc (hq.same hdone) fun j hj => ?_
    rw [← hbytes j hj]
    rfl

end Conservation

/-!
## Message accounting in every reachable state

The remaining calls keep the queues in order as well, so that every run does, as long as the
byte counters keep within their sixteen bits.
-/

section Accounting

open Osf1.Computation Osf1.Ipc

variable {mi : MsgInfo} {p : Pid} {s t : State} {q : ℕ → List ℕ} {i mp : ℕ}

/-- What `IPC_RMID` leaves when it has freed the messages of a queue. -/
structure Freed (mi : MsgInfo) (s : State) (q : ℕ → List ℕ) (i : ℕ) (t : State) : Prop where
  chains : Chains mi t (update q i [])
  headers : Headers mi t (update q i [])
  msg : ∀ a, (t.msg a).unlinked = (s.msg a).unlinked
  cbytes : ∀ j, (t.msgque j).msgCbytes = (s.msgque j).msgCbytes
  serial : t.serial = s.serial
  delivered : t.delivered = s.delivered

theorem freeAll_end (hc : Chains mi s q) (hh : Headers mi s q) (hi : i < mi.msgmni) {fuel : ℕ}
    (hfuel : (q i).length < fuel) : ∃ t, freeAll i fuel s = some t ∧ Freed mi s q i t := by
  induction fuel generalizing s q with
  | zero => cases hfuel
  | succ fuel ih =>
    have hchain := hc.chain i hi
    rw [freeAll]
    cases hq : q i with
    | nil =>
      rw [hq] at hchain
      have hfirst : (s.msgque i).msgFirst = none := hchain
      have hsame : update q i [] = q := by rw [← hq, update_eq_self]
      rw [hfirst]
      refine ⟨s, rfl, ?_, ?_, fun _ => rfl, fun _ => rfl, rfl, rfl⟩
      · rw [hsame]
        exact hc
      · rw [hsame]
        exact hh
    | cons mp l =>
      rw [hq] at hchain hfuel
      rw [hchain.1]
      have hsplit : q i = [] ++ mp :: l := hq
      obtain ⟨hc', hh'⟩ := chains_msgfree hc hh hi hsplit
      obtain ⟨hmsg, hcbytes, hserial, hdelivered⟩ := msgfree_rest s i none mp
      have hlen : (update q i ([] ++ l) i).length < fuel := by
        rw [update_self]
        exact Nat.lt_of_succ_lt_succ hfuel
      obtain ⟨t, ht, hfreed⟩ := ih hc' hh' hlen
      have hchains := hfreed.chains
      have hheaders := hfreed.headers
      rw [update_idem] at hchains hheaders
      exact ⟨t, ht, hchains, hheaders, fun a => (hfreed.msg a).trans (hmsg a),
        fun j => (hfreed.cbytes j).trans (hcbytes j), hfreed.serial.trans hserial,
        hfreed.delivered.trans hdelivered⟩

theorem QueueInv.reset {f : MsqidDs → MsqidDs} (hc : Chains mi s q) (hh : Headers mi s q) (hn : Numbers mi s q)
    (hcounted : ∀ j < mi.msgmni, j ≠ i → (s.msgque j).msgCbytes = UInt16.ofNat (bytes s (q j)))
    (hq : q i = []) (hfirst : (f (s.msgque i)).msgFirst = none)
    (hlast : (f (s.msgque i)).msgLast = none) (hqnum : (f (s.msgque i)).msgQnum = 0)
    (hcbytes : (f (s.msgque i)).msgCbytes = 0) : QueueInv mi (s.modify i f) q := by
  have hself : (s.modify i f).msgque i = f (s.msgque i) := update_self ..
  have hother {j : ℕ} (hj : j ≠ i) : (s.modify i f).msgque j = s.msgque j := update_of_ne hj ..
  refine ⟨⟨fun j hj => ?_, fun j hj => ?_, fun j hj => ?_, fun j hj hfree => ?_, hc.nodup, hc.own⟩,
    ⟨hh.sub, hh.nodup, hh.cur, hh.total⟩, fun j hj => ?_,
    ⟨hn.lt, hn.order, hn.inj, hn.past, hn.once, hn.gone⟩⟩
  · by_cases hji : j = i
    · subst hji
      rw [hself, hfirst, hq]
      rfl
    · rw [hother hji]
      exact hc.chain j hj
  · by_cases hji : j = i
    · subst hji
      rw [hself, hlast, hq]
      rfl
    · rw [hother hji]
      exact hc.last j hj
  · by_cases hji : j = i
    · subst hji
      rw [hself, hqnum, hq]
      rfl
    · rw [hother hji]
      exact hc.qnum j hj
  · by_cases hji : j = i
    · rw [hji]
      exact hq
    · rw [hother hji] at hfree
      exact hc.idle j hj hfree
  · by_cases hji : j = i
    · subst hji
      rw [hself, hcbytes, hq]
      rfl
    · rw [hother hji]
      exact hcounted j hj hji

theorem Chains.empty (hc : Chains mi s q) (hi : i < mi.msgmni) (hq : q i = []) :
    (s.msgque i).msgFirst = none ∧ (s.msgque i).msgLast = none ∧ (s.msgque i).msgQnum = 0 := by
  have hchain := hc.chain i hi
  have hlast := hc.last i hi
  have hqnum := hc.qnum i hi
  rw [hq] at hchain hlast hqnum
  exact ⟨hchain, hlast, hqnum⟩

theorem SameQueues.wakeupIf (h : SameQueues s t) {b : Prop} [Decidable b] {c : Chan} :
    SameQueues s (if b then wakeup c t else t) := by
  split
  · exact h.trans (sameQueues_wakeup c t)
  · exact h

theorem discard_eq (mi : MsgInfo) (msqid : ℤ) (i : ℕ) (s : State) :
    ∃ (u : State) (f : MsqidDs → MsqidDs), discard mi msqid i s = u.modify i f ∧ SameQueues s u ∧
      ∀ qp, (f qp).msgFirst = qp.msgFirst ∧ (f qp).msgLast = qp.msgLast ∧
        (f qp).msgQnum = qp.msgQnum ∧ (f qp).msgCbytes = 0 := by
  refine ⟨_, fun qp =>
    { qp with
      msgCbytes := 0
      msgWaitList := []
      msgPerm :=
        { (s.msgque i).msgPerm with
          mode := 0
          seq := if msqid + mi.msgmni < 0 then 0 else (s.msgque i).msgPerm.seq + 1 } },
    rfl, ?_, fun _ => ⟨rfl, rfl, rfl, rfl⟩⟩
  exact (sameQueues_wakeElements (s.msgque i).msgWaitList s).wakeupIf.wakeupIf

theorem QueueInv.discard (h : QueueInv mi s q) (hi : i < mi.msgmni) (hfreed : Freed mi s q i t)
    (msqid : ℤ) : QueueInv mi (discard mi msqid i t) (update q i []) := by
  obtain ⟨u, f, heq, hw, hf⟩ := discard_eq mi msqid i t
  have hsub : ∀ j < mi.msgmni, (update q i [] j).Sublist (q j) := by
    intro j _
    by_cases hji : j = i
    · subst hji
      rw [update_self]
      exact nil_sublist _
    · rw [update_of_ne hji]
  have hnumbers : Numbers mi t (update q i []) := h.numbers.sub hsub hfreed.msg hfreed.serial hfreed.delivered
  have hchains := hfreed.chains.same hw.toSameChains
  have hempty : update q i [] i = [] := update_self ..
  obtain ⟨hfirst, hlast, hqnum⟩ := hchains.empty hi hempty
  have hcounted : ∀ j < mi.msgmni, j ≠ i →
      (t.msgque j).msgCbytes = UInt16.ofNat (bytes t (update q i [] j)) := by
    intro j hj hji
    rw [hfreed.cbytes, h.counted j hj, update_of_ne hji]
    unfold bytes
    rw [messages_congr hfreed.msg]
  obtain ⟨hfirst', hlast', hqnum', hcbytes'⟩ := hf (u.msgque i)
  rw [heq]
  refine .reset hchains (hfreed.headers.same hw.toSameChains) (hnumbers.same hw) ?_ hempty
    (hfirst'.trans hfirst) (hlast'.trans hlast) (hqnum'.trans hqnum) hcbytes'
  intro j hj hji
  rw [hw.cbytes, hcounted j hj hji]
  unfold bytes messages
  rw [hw.msg]

theorem rmid_kind (h : QueueInv mi s q) (cred : Cred) (msqid : ℤ) :
    ∃ t errno, rmid mi cred msqid s = some (t, errno) ∧
      (t = s ∨ ∃ i, msgconv mi s msqid = some i ∧ QueueInv mi t (update q i []) ∧
        ∀ a, (t.msg a).unlinked = (s.msg a).unlinked) := by
  unfold rmid
  cases hconv : msgconv mi s msqid with
  | none => exact ⟨s, EINVAL, rfl, .inl rfl⟩
  | some i =>
    obtain ⟨hi, -⟩ := msgconv_some hconv
    simp only
    split
    · exact ⟨s, EPERM, rfl, .inl rfl⟩
    obtain ⟨u, hu, hfreed⟩ := freeAll_end h.chains h.headers hi (Nat.lt_succ_of_le (h.length_le hi))
    rw [hu]
    refine ⟨_, 0, rfl, .inr ⟨i, rfl, h.discard hi hfreed msqid, fun a => ?_⟩⟩
    rw [← hfreed.msg a]
    obtain ⟨v, f, heq, hw, -⟩ := discard_eq mi msqid i u
    rw [heq, ← hw.msg]
    rfl

theorem msgget_kind (h : QueueInv mi s q) (cred : Cred) (key : ℤ) (msgflg : ℕ) :
    QueueInv mi (msgget mi cred key msgflg s).1 q ∧ (msgget mi cred key msgflg s).1.msg = s.msg := by
  unfold msgget
  split
  · exact ⟨h, rfl⟩
  · exact ⟨h, rfl⟩
  · rename_i i hfresh
    obtain ⟨hlen, hfree⟩ := ipcget_fresh hfresh
    have hi : i < mi.msgmni := by simpa using hlen
    have hidle : ¬(s.msgque i).msgPerm.Alloc := by simpa using hfree
    have hq := h.chains.idle i hi hidle
    have hcbytes := h.counted i hi
    rw [hq] at hcbytes
    refine ⟨?_, rfl⟩
    simp only
    apply QueueInv.reset h.chains h.headers h.numbers (fun j hj _ => h.counted j hj) hq
    · rfl
    · rfl
    · rfl
    · exact hcbytes

theorem sameQueues_ipcSet (cred : Cred) (msqid : ℤ) (ds : Option Ds) (s : State) :
    SameQueues s (ipcSet mi cred msqid ds s).1 := by
  unfold ipcSet
  split
  · exact .refl s
  split
  · exact .refl s
  split
  · exact .refl s
  split
  · exact .refl s
  · simp only
    apply SameQueues.modify s
    · rfl
    · rfl
    · rfl
    · rfl
    · exact alloc_setBits

theorem sameQueues_interrupted (f : Frame) (s : State) : SameQueues s (interrupted mi p f s) := by
  have hrun := sameQueues_setProc s p .running
  unfold interrupted
  simp only
  split
  · split
    · exact hrun
    · exact hrun.trans (.modify _ _ rfl rfl rfl rfl rfl)
  · exact hrun.trans ((SameQueues.modify _ _ rfl rfl rfl rfl (alloc_clearBits (by decide))).trans
      (sameQueues_wakeup _ _))
  · exact hrun

/-- A message that is put on a queue does not take its byte counter out of range. -/
def FitsCounter (mi : MsgInfo) (s : State) (e : Event) : Prop :=
  ∀ p a firstpass io i, passOf s e = some (p, .snd a, firstpass, io) → Accepted mi p s a io i →
    toInt a.msgsz + (s.msgque i).msgCbytes.toNat < 65536

theorem fitsCounter_of_none {e : Event} (h : passOf s e = none) : FitsCounter mi s e := by
  intro p a firstpass io i he
  rw [h] at he
  cases he

/-- The byte counters are in range. -/
def Fits (mi : MsgInfo) (s : State) (q : ℕ → List ℕ) : Prop := ∀ i < mi.msgmni, bytes s (q i) < 65536

theorem Fits.same (h : Fits mi s q) (hs : SameQueues s t) : Fits mi t q := by
  intro i hi
  have hfits := h i hi
  unfold bytes messages at hfits ⊢
  rwa [hs.msg]

theorem bytes_sublist {l l' : List ℕ} (h : l'.Sublist l)
    (hmsg : ∀ a, (t.msg a).unlinked = (s.msg a).unlinked) : bytes t l' ≤ bytes s l := by
  unfold bytes
  rw [messages_congr hmsg]
  exact ((h.map fun a => (s.msg a).unlinked).map Msg.msgTs).sum_le_sum fun _ _ => Nat.zero_le _

theorem Fits.sub {q' : ℕ → List ℕ} (h : Fits mi s q) (hsub : ∀ j, (q' j).Sublist (q j))
    (hmsg : ∀ a, (t.msg a).unlinked = (s.msg a).unlinked) : Fits mi t q' :=
  fun i hi => (bytes_sublist (hsub i) hmsg).trans_lt (h i hi)

theorem QueueInv.cbytes_toNat (h : QueueInv mi s q) (hfits : Fits mi s q) (hi : i < mi.msgmni) :
    (s.msgque i).msgCbytes.toNat = bytes s (q i) := by
  rw [h.counted i hi, UInt16.toNat_ofNat']
  exact Nat.mod_eq_of_lt (hfits i hi)

theorem sublist_empty (q : ℕ → List ℕ) (i j : ℕ) : (update q i [] j).Sublist (q j) := by
  by_cases hj : j = i
  · subst hj
    rw [update_self]
    exact nil_sublist _
  · rw [update_of_ne hj]

theorem QueueInv.step {e : Event} (h : QueueInv mi s q) (hfits : Fits mi s q)
    (hok : FitsCounter mi s e) (hstep : Step mi s e t) : ∃ q', QueueInv mi t q' ∧ Fits mi t q' := by
  have hsame {t : State} (hs : SameQueues s t) : ∃ q', QueueInv mi t q' ∧ Fits mi t q' :=
    ⟨q, h.same hs, hfits.same hs⟩
  cases hstep with
  | @pass _ p call firstpass io _ o he hio ht =>
    cases call with
    | rcv a =>
      obtain ⟨r, hr, hkind⟩ := msgrcv_kind (p := p) h a firstpass io
      obtain rfl : r = (t, o) := Option.some_inj.mp (hr.symm.trans ht)
      cases hkind with
      | fails errno hs => exact hsame hs
      | sleeps f hconv hnone hs => exact hsame hs
      | delivers size hconv hl hpicks hq hmsg hdel =>
        exact ⟨_, hq, hfits.sub (sublist_remove hl) hmsg⟩
    | snd a =>
      have hkind := msgsnd_kind (p := p) h a firstpass io hio.header
      rw [Option.some_inj.mp ht] at hkind
      cases hkind with
      | same o hs => exact hsame hs
      | @enqueued _ i mp hacc hq hbytes =>
        obtain ⟨hi, -⟩ := msgconv_some hacc.conv
        have hroom := hok p a firstpass io i he hacc
        have hsize := hacc.size.1
        rw [h.cbytes_toNat hfits hi] at hroom
        refine ⟨_, hq, fun j hj => ?_⟩
        rw [hbytes j hj]
        split
        · omega
        · exact hfits j hj
  | msgget cred key msgflg =>
    obtain ⟨hq, hmsg⟩ := msgget_kind h cred key msgflg
    exact ⟨q, hq, hfits.sub (fun _ => List.Sublist.refl _) fun a => by rw [hmsg]⟩
  | signal hp => exact hsame (sameQueues_setProc s _ _)
  | eintr hp => exact hsame (sameQueues_interrupted _ s)
  | @rmid _ cred msqid errno ht =>
    obtain ⟨u, errno', hu, hkind⟩ := rmid_kind h cred msqid
    obtain ⟨rfl, -⟩ := Prod.mk.inj (Option.some_inj.mp (hu.symm.trans ht))
    rcases hkind with heq | ⟨i, -, hq, hmsg⟩
    · exact hsame (heq ▸ .refl s)
    · exact ⟨_, hq, hfits.sub (sublist_empty q i) hmsg⟩
  | ipcSet cred msqid ds => exact hsame (sameQueues_ipcSet cred msqid ds s)

theorem queueInv_start : QueueInv mi .start fun _ => [] := by
  refine ⟨⟨fun _ _ => rfl, fun _ _ => rfl, fun _ _ => rfl, fun _ _ _ => rfl, fun _ _ => nodup_nil,
    fun _ _ _ _ a ha => absurd ha not_mem_nil⟩,
    ⟨fun _ _ a ha => absurd ha not_mem_nil, nodup_nil, rfl, ?_⟩, fun _ _ => rfl,
    ⟨fun _ _ a ha => absurd ha not_mem_nil, fun _ _ => List.Pairwise.nil,
      fun _ _ _ _ a ha => absurd ha not_mem_nil, fun d hd => absurd hd not_mem_nil,
      nodup_nil, fun d hd => absurd hd not_mem_nil⟩⟩
  simp [State.start]

theorem reachable_queueInv (h : ((msgSystem mi).restrict (FitsCounter mi)).Reachable s) :
    ∃ q, QueueInv mi s q ∧ Fits mi s q := by
  apply h.invariant
  · rintro s rfl
    exact ⟨_, queueInv_start, fun _ _ => by decide⟩
  · rintro s e t _ ⟨q, hq, hfits⟩ ⟨hok, hstep⟩
    exact hq.step hfits hok hstep

/-- The queues are what their descriptors say, and no message is lost or delivered twice. -/
structure Conserved (mi : MsgInfo) (s : State) : Prop where
  chain : ∀ i < mi.msgmni, (s.msgque i).msgPerm.Alloc → Leads s.next (s.msgque i).msgFirst (s.headers i) none
  last : ∀ i < mi.msgmni, (s.msgque i).msgPerm.Alloc → (s.msgque i).msgLast = (s.headers i).getLast?
  qnum : ∀ i < mi.msgmni, (s.msgque i).msgPerm.Alloc → (s.msgque i).msgQnum = (s.headers i).length
  cbytes : ∀ i < mi.msgmni, (s.msgque i).msgPerm.Alloc →
    (s.msgque i).msgCbytes.toNat = ((s.contents i).map Msg.msgTs).sum
  cur : s.curMsghdrs = ∑ i ∈ Finset.range mi.msgmni, ((s.headers i).length : ℤ)
  order : ∀ i < mi.msgmni, (s.contents i).Pairwise fun m m' => m.serial < m'.serial
  once : (s.delivered.map fun d => d.msg.serial).Nodup
  gone : ∀ d ∈ s.delivered, ∀ i < mi.msgmni, ∀ m ∈ s.contents i, m.serial ≠ d.msg.serial

theorem QueueInv.conserved (h : QueueInv mi s q) (hfits : Fits mi s q) : Conserved mi s where
  chain i hi _ := by
    rw [h.headers_eq hi]
    exact h.chains.chain i hi
  last i hi _ := by
    rw [h.headers_eq hi]
    exact h.chains.last i hi
  qnum i hi _ := by
    rw [h.headers_eq hi]
    exact h.chains.qnum i hi
  cbytes i hi _ := by
    unfold State.contents
    rw [h.headers_eq hi]
    exact h.cbytes_toNat hfits hi
  cur := by
    rw [h.headers.cur, h.headers.total, Nat.cast_sum]
    apply Finset.sum_congr rfl
    intro i hi
    rw [h.headers_eq (Finset.mem_range.mp hi)]
  order i hi := by
    unfold State.contents messages
    rw [h.headers_eq hi, pairwise_map]
    exact h.numbers.order i hi
  once := h.numbers.once
  gone d hd i hi m hm := by
    unfold State.contents messages at hm
    rw [h.headers_eq hi] at hm
    obtain ⟨a, ha, rfl⟩ := mem_map.mp hm
    exact h.numbers.gone d hd i hi a ha

/-- What a pass of `msgrcv` does to the messages. -/
def Receives (mi : MsgInfo) (a : Rcv) (s t : State) : Outcome → Prop
  | .returns _ =>
    t.delivered = s.delivered ∧ ∀ i < mi.msgmni, t.contents i = s.contents i
  | .sleeps _ =>
    t.delivered = s.delivered ∧ (∀ i < mi.msgmni, t.contents i = s.contents i) ∧
      ∃ i, msgconv mi s a.msqid = some i ∧ ∀ m ∈ s.contents i, ¬Eligible a.msgtyp m
  | .delivers d =>
    t.delivered = s.delivered ++ [d] ∧ d.msgtyp = a.msgtyp ∧
      msgconv mi s a.msqid = some d.slot ∧
      (∃ l₁ l₂, s.contents d.slot = l₁ ++ d.msg.unlinked :: l₂ ∧
        Picks a.msgtyp l₁ d.msg.unlinked l₂ ∧ t.contents d.slot = l₁ ++ l₂) ∧
      ∀ i < mi.msgmni, i ≠ d.slot → t.contents i = s.contents i

theorem Picks.messages {msgtyp : Int64} {l₁ l₂ : List ℕ}
    (h : Picks msgtyp (l₁.map s.msg) (s.msg mp) (l₂.map s.msg)) :
    Picks msgtyp (messages s l₁) (s.msg mp).unlinked (messages s l₂) := by
  refine ⟨h.eligible, fun m hm hel => ?_, fun m hm hel hneg => ?_⟩
  · obtain ⟨a, ha, rfl⟩ := mem_map.mp hm
    exact h.earliest (s.msg a) (mem_map_of_mem ha) hel
  · obtain ⟨a, ha, rfl⟩ := mem_map.mp hm
    exact h.least (s.msg a) (mem_map_of_mem ha) hel hneg

theorem QueueInv.contents_eq (h : QueueInv mi s q) (hi : i < mi.msgmni) : s.contents i = messages s (q i) := by
  unfold State.contents
  rw [h.headers_eq hi]

theorem QueueInv.contents_same (h : QueueInv mi s q) (hs : SameQueues s t) (hi : i < mi.msgmni) :
    t.contents i = s.contents i := by
  rw [h.contents_eq hi, (h.same hs).contents_eq hi]
  unfold messages
  rw [hs.msg]

theorem RcvKind.receives {a : Rcv} {o : Outcome} (h : QueueInv mi s q)
    (hkind : RcvKind mi p a q s (t, o)) : Receives mi a s t o := by
  cases hkind with
  | fails errno hs => exact ⟨hs.delivered, fun i hi => h.contents_same hs hi⟩
  | @sleeps _ i f hconv hnone hs =>
    refine ⟨hs.delivered, fun i hi => h.contents_same hs hi, i, hconv, fun m hm => ?_⟩
    rw [h.contents_eq (msgconv_some hconv).1] at hm
    obtain ⟨b, hb, rfl⟩ := mem_map.mp hm
    exact hnone b hb
  | @delivers _ i mp l₁ l₂ size hconv hl hpicks hq hmsg hdel =>
    obtain ⟨hi, -⟩ := msgconv_some hconv
    refine ⟨hdel, rfl, hconv, ⟨messages s l₁, messages s l₂, ?_, hpicks.messages, ?_⟩, fun j hj hji => ?_⟩
    · rw [h.contents_eq hi, hl]
      unfold messages
      rw [map_append, map_cons]
    · rw [hq.contents_eq hi, messages_congr hmsg, update_self]
      unfold messages
      rw [map_append]
    · rw [hq.contents_eq hj, messages_congr hmsg, update_of_ne hji, h.contents_eq hj]

/-- The super-user makes a queue, and lets it have more bytes than its counter can count. -/
def opened : State :=
  (ipcSet msginfo ⟨0, 0⟩ 0 (some ⟨0, 0, 0o600, 100000⟩) (msgget msginfo ⟨0, 0⟩ 0 0o600 .start).1).1

/-- A message of 8192 bytes. -/
def large : Snd := ⟨0, 8192, 0, ⟨0, 0⟩⟩

def largeIo (n : ℕ) : Io := ⟨some 1, some (List.replicate 8192 0), true, true, n⟩

/-- The queue after a number of such messages. -/
def filled : ℕ → State
  | 0 => opened
  | n + 1 => (msgsnd msginfo 1 large true (largeIo n) (filled n)).1

theorem filled_ready : ∀ n < 8, (filled n).proc 1 = .running ∧ n ∉ (filled n).msghdrZone ∧
    ∀ i < msginfo.msgmni, ((filled n).msgque i).msgWaitList = [] := by
  decide +kernel

theorem filled_step {n : ℕ} (hn : n < 8) :
    passOf (filled n) (.msgsnd 1 large (largeIo n)) = some (1, .snd large, true, largeIo n) ∧
      Step msginfo (filled n) (.msgsnd 1 large (largeIo n)) (filled (n + 1)) := by
  obtain ⟨hproc, hheader, hwait⟩ := filled_ready n hn
  have hpass : passOf (filled n) (.msgsnd 1 large (largeIo n)) =
      some (1, .snd large, true, largeIo n) := if_pos hproc
  refine ⟨hpass, .pass hpass ⟨hheader, fun i hi w hw => ?_, fun a ha text htext => ?_⟩ rfl⟩
  · rw [hwait i hi] at hw
    exact absurd hw not_mem_nil
  · obtain rfl := Call.snd.inj ha
    obtain rfl := Option.some_inj.mp htext
    rw [length_replicate]
    decide

theorem opened_steps : Step msginfo .start (.msgget ⟨0, 0⟩ 0 0o600)
      (msgget msginfo ⟨0, 0⟩ 0 0o600 .start).1 ∧
    Step msginfo (msgget msginfo ⟨0, 0⟩ 0 0o600 .start).1
      (.ipcSet ⟨0, 0⟩ 0 (some ⟨0, 0, 0o600, 100000⟩)) opened :=
  ⟨.msgget _ _ _, .ipcSet _ _ _⟩

end Accounting

end Osf1.Message
