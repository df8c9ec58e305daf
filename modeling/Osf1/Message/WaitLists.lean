import Osf1.Message.Conservation

/-!
# The wait lists of the queues

A receiver of a message type sleeps on an element of the wait list of its queue, which counts
the receivers that do.  What most steps do to the lists is to leave them alone, or to take
elements off them with all who sleep on them.
-/

set_option autoImplicit false

namespace Osf1.Message

open Osf1.Computation Osf1.Ipc List

variable {mi : MsgInfo} {p : Pid} {s t : State} {i : ℕ} {f : MsqidDs → MsqidDs} {c : Chan}

/-- The wait list of a queue. -/
def State.waiting (s : State) (i : ℕ) : List MsgWait := (s.msgque i).msgWaitList

/-- A process that an element counts: it sleeps on it, or has been interrupted and has not run
yet. -/
def Counts (serial : ℕ) : Proc → Prop
  | .asleep f | .signalled f => (∃ addr, f.chan = .wait addr) ∧ f.serial = serial
  | _ => False

/-- Not on an element of a wait list. -/
def Chan.Other (c : Chan) : Prop := ∀ addr, c ≠ .wait addr

/-- A receiver that sleeps does so where a message of its type will find it. -/
def Found (mi : MsgInfo) (s : State) (f : Frame) : Prop :=
  match f.call with
  | .snd _ => f.chan.Other
  | .rcv a =>
    if a.msgtyp > 0 then
      ∃ i w, msgconv mi s a.msqid = some i ∧ w ∈ s.waiting i ∧ f.chan = .wait w.addr ∧
        f.serial = w.serial ∧ w.msgWaitType = a.msgtyp
    else f.chan.Other

instance (c : Chan) : Decidable (∃ addr, c = .wait addr) :=
  match c with
  | .wait addr => isTrue ⟨addr, rfl⟩
  | .qnum _ | .queue _ | .msghdrWait => isFalse nofun

instance (serial : ℕ) : DecidablePred (Counts serial) := fun x =>
  match x with
  | .asleep f | .signalled f =>
    inferInstanceAs (Decidable ((∃ addr, f.chan = .wait addr) ∧ f.serial = serial))
  | .running | .woken _ => isFalse id

/-- What is true of the wait lists between two steps. -/
structure WaitInv (mi : MsgInfo) (s : State) : Prop where
  nodup : ∀ i < mi.msgmni, ((s.waiting i).map MsgWait.serial).Nodup
  serials : ∀ i < mi.msgmni, ∀ j < mi.msgmni, ∀ w ∈ s.waiting i, ∀ w' ∈ s.waiting j, w.serial = w'.serial → i = j
  addrs : ∀ i < mi.msgmni, ∀ j < mi.msgmni, ∀ w ∈ s.waiting i, ∀ w' ∈ s.waiting j,
    w.addr = w'.addr → w.serial = w'.serial
  lt : ∀ i < mi.msgmni, ∀ w ∈ s.waiting i, w.serial < s.serial
  idle : ∀ i < mi.msgmni, ¬(s.msgque i).msgPerm.Alloc → s.waiting i = []
  counted : ∀ i < mi.msgmni, ∀ w ∈ s.waiting i, (tally (Counts w.serial) s.proc : ℤ) ≤ w.msgWaitCnt
  found : ∀ p f, s.proc p = .asleep f → Found mi s f
  old : ∀ p f addr, s.proc p = .asleep f ∨ s.proc p = .woken f ∨ s.proc p = .signalled f →
    f.chan = .wait addr → f.serial < s.serial
  spent : ∀ p f addr, s.proc p = .woken f → f.chan = .wait addr →
    ∀ i < mi.msgmni, ∀ w ∈ s.waiting i, w.serial ≠ f.serial

theorem WaitInv.eq (h : WaitInv mi s) {j : ℕ} (hi : i < mi.msgmni) (hj : j < mi.msgmni)
    {w w' : MsgWait} (hw : w ∈ s.waiting i) (hw' : w' ∈ s.waiting j) (heq : w.serial = w'.serial) :
    i = j ∧ w = w' := by
  obtain rfl := h.serials i hi j hj w hw w' hw' heq
  exact ⟨rfl, inj_on_of_nodup_map (h.nodup i hi) hw hw' heq⟩

theorem found_wait {f : Frame} (h : Found mi s f) {addr : ℕ} (hchan : f.chan = .wait addr) :
    ∃ a i w, f.call = .rcv a ∧ msgconv mi s a.msqid = some i ∧ w ∈ s.waiting i ∧ w.addr = addr ∧
      f.serial = w.serial ∧ w.msgWaitType = a.msgtyp := by
  unfold Found at h
  split at h
  · exact absurd hchan (h addr)
  · rename_i a hcall
    split at h
    · obtain ⟨i, w, hconv, hw, hchan', hserial, htype⟩ := h
      rw [hchan'] at hchan
      exact ⟨a, i, w, hcall, hconv, hw, Chan.wait.inj hchan, hserial, htype⟩
    · exact absurd hchan (h addr)

/-- What becomes of a process in a step that adds nobody to a wait list. -/
inductive Goes (t : State) (mi : MsgInfo) : Proc → Proc → Prop where
  | stays (x : Proc) : Goes t mi x x
  | runs (x : Proc) : Goes t mi x .running
  | woken (f : Frame) (h : ∀ i < mi.msgmni, ∀ w ∈ t.waiting i, f.chan ≠ .wait w.addr) :
      Goes t mi (.asleep f) (.woken f)
  | sleeps (x : Proc) (f : Frame) (hchan : f.chan.Other)
      (hcall : ∀ a, f.call = .rcv a → ¬a.msgtyp > 0) : Goes t mi x (.asleep f)

/-- A step that adds nothing to the wait lists: some elements go, with all that sleep on
them. -/
structure Sheds (mi : MsgInfo) (s t : State) : Prop where
  sub : ∀ i < mi.msgmni, (t.waiting i).Sublist (s.waiting i)
  kept : ∀ i < mi.msgmni, ∀ w ∈ s.waiting i, w ∉ t.waiting i → ∀ p f, t.proc p = .asleep f → f.chan ≠ .wait w.addr
  alloc : ∀ i < mi.msgmni, t.waiting i ≠ [] → ((t.msgque i).msgPerm.Alloc ↔ (s.msgque i).msgPerm.Alloc)
  seq : ∀ i < mi.msgmni, t.waiting i ≠ [] → (t.msgque i).msgPerm.seq = (s.msgque i).msgPerm.seq
  serial : s.serial ≤ t.serial
  procs : ∀ p, Goes t mi (s.proc p) (t.proc p)

theorem msgconv_congr {msqid : ℤ} (h : msgconv mi s msqid = some i)
    (halloc : (t.msgque i).msgPerm.Alloc ↔ (s.msgque i).msgPerm.Alloc)
    (hseq : (t.msgque i).msgPerm.seq = (s.msgque i).msgPerm.seq) : msgconv mi t msqid = some i := by
  unfold msgconv at h ⊢
  simp only at h ⊢
  split at h
  · cases h
  · rename_i hid
    rw [if_neg hid]
    split at h
    · cases h
    · rename_i hconv
      obtain rfl := Option.some_inj.mp h
      rw [← halloc, ← hseq] at hconv
      exact if_neg hconv

theorem Found.congr {f : Frame} (h : Found mi s f)
    (hkept : ∀ i < mi.msgmni, ∀ w ∈ s.waiting i, f.chan = .wait w.addr → f.serial = w.serial →
      (∃ w' ∈ t.waiting i, w'.addr = w.addr ∧ w'.serial = w.serial ∧ w'.msgWaitType = w.msgWaitType) ∧
      ((t.msgque i).msgPerm.Alloc ↔ (s.msgque i).msgPerm.Alloc) ∧
      (t.msgque i).msgPerm.seq = (s.msgque i).msgPerm.seq) : Found mi t f := by
  unfold Found at h ⊢
  split
  · rename_i hcall
    rw [hcall] at h
    exact h
  · rename_i a hcall
    rw [hcall] at h
    simp only at h
    split
    · rename_i hpos
      rw [if_pos hpos] at h
      obtain ⟨i, w, hconv, hw, hchan, hserial, htype⟩ := h
      obtain ⟨⟨w', hw', haddr', hserial', htype'⟩, halloc, hseq⟩ :=
        hkept i (msgconv_some hconv).1 w hw hchan hserial
      exact ⟨i, w', msgconv_congr hconv halloc hseq, hw', haddr' ▸ hchan,
        hserial.trans hserial'.symm, htype'.trans htype⟩
    · rename_i hnpos
      rw [if_neg hnpos] at h
      exact h

section

variable (h : WaitInv mi s)
include h

theorem WaitInv.sheds (hs : Sheds mi s t) : WaitInv mi t := by
  have hmem {j : ℕ} (hj : j < mi.msgmni) {w : MsgWait} (hw : w ∈ t.waiting j) :
      w ∈ s.waiting j := (hs.sub j hj).subset hw
  -- who is counted afterwards was so before
  have hcounts (serial : ℕ) (p : Pid) : Counts serial (t.proc p) → Counts serial (s.proc p) := by
    have hgoes := hs.procs p
    generalize s.proc p = x at hgoes ⊢
    generalize t.proc p = y at hgoes ⊢
    intro hy
    cases hgoes with
    | stays => exact hy
    | runs => exact hy.elim
    | woken => exact hy.elim
    | sleeps _ f hchan _ =>
      obtain ⟨⟨addr, haddr⟩, -⟩ := hy
      exact absurd haddr (hchan addr)
  refine ⟨fun j hj => ?_, fun j hj k hk w hw w' hw' => ?_, fun j hj k hk w hw w' hw' => ?_,
    fun j hj w hw => ?_, fun j hj hfree => ?_, fun j hj w hw => ?_, fun p f hp => ?_,
    fun p f addr hp hchan => ?_, fun p f addr hp hchan j hj w hw => ?_⟩
  · exact (h.nodup j hj).sublist ((hs.sub j hj).map _)
  · exact h.serials j hj k hk w (hmem hj hw) w' (hmem hk hw')
  · exact h.addrs j hj k hk w (hmem hj hw) w' (hmem hk hw')
  · exact (h.lt j hj w (hmem hj hw)).trans_le hs.serial
  · by_contra hne
    have hnil := h.idle j hj fun halloc => hfree ((hs.alloc j hj hne).mpr halloc)
    have hsub := hs.sub j hj
    rw [hnil] at hsub
    exact hne (sublist_nil.mp hsub)
  · have hle := tally_mono (hcounts w.serial)
    have hcnt := h.counted j hj w (hmem hj hw)
    omega
  · have hgoes := hs.procs p
    rw [hp] at hgoes
    generalize hx : s.proc p = x at hgoes
    cases hgoes with
    | stays =>
      refine (h.found p f hx).congr fun j hj w hw hchan _ => ?_
      have hin : w ∈ t.waiting j := by
        by_contra hout
        exact hs.kept j hj w hw hout p f hp hchan
      have hne : t.waiting j ≠ [] := ne_nil_of_mem hin
      exact ⟨⟨w, hin, rfl, rfl, rfl⟩, hs.alloc j hj hne, hs.seq j hj hne⟩
    | sleeps _ _ hchan hcall =>
      unfold Found
      split
      · exact hchan
      · rename_i a ha
        rw [if_neg (hcall a ha)]
        exact hchan
  · have hgoes := hs.procs p
    have hold : s.proc p = .asleep f ∨ s.proc p = .woken f ∨ s.proc p = .signalled f := by
      generalize s.proc p = x at hgoes ⊢
      generalize t.proc p = y at hgoes hp
      cases hgoes with
      | stays => exact hp
      | runs => simp at hp
      | woken g _ =>
        left
        simpa using hp
      | sleeps _ g hother _ =>
        obtain rfl : g = f := by simpa using hp
        exact absurd hchan (hother addr)
    exact (h.old p f addr hold hchan).trans_le hs.serial
  · have hgoes := hs.procs p
    rw [hp] at hgoes
    generalize hx : s.proc p = x at hgoes
    cases hgoes with
    | stays => exact h.spent p f addr hx hchan j hj w (hmem hj hw)
    | woken _ hgone =>
      intro heq
      obtain ⟨a, k, w', -, hconv, hw', haddr, hserial, -⟩ := found_wait (h.found p f hx) hchan
      have hk := (msgconv_some hconv).1
      obtain ⟨rfl, rfl⟩ := h.eq hj hk (hmem hj hw) hw' (heq.trans hserial)
      rw [← haddr] at hchan
      exact hgone j hj w hw hchan

theorem WaitInv.calm (hwait : ∀ i, t.waiting i = s.waiting i)
    (halloc : ∀ i, (t.msgque i).msgPerm.Alloc ↔ (s.msgque i).msgPerm.Alloc)
    (hseq : ∀ i, (t.msgque i).msgPerm.seq = (s.msgque i).msgPerm.seq)
    (hserial : s.serial ≤ t.serial) (hproc : ∀ p, Goes t mi (s.proc p) (t.proc p)) : WaitInv mi t := by
  refine h.sheds ⟨fun i _ => ?_, fun i _ w hw hout => ?_, fun i _ _ => halloc i,
    fun i _ _ => hseq i, hserial, hproc⟩
  · rw [hwait]
  · rw [hwait] at hout
    exact absurd hw hout

theorem WaitInv.congr (hqueue : t.msgque = s.msgque) (hproc : t.proc = s.proc)
    (hserial : s.serial ≤ t.serial) : WaitInv mi t := by
  apply h.calm
  · intro i
    unfold State.waiting
    rw [hqueue]
  · intro i
    rw [hqueue]
  · intro i
    rw [hqueue]
  · exact hserial
  · intro p
    rw [hproc]
    exact .stays _

theorem WaitInv.modify (i : ℕ) (hwait : (f (s.msgque i)).msgWaitList = (s.msgque i).msgWaitList)
    (halloc : (f (s.msgque i)).msgPerm.mode &&& IPC_ALLOC =
      (s.msgque i).msgPerm.mode &&& IPC_ALLOC) (hseq : (f (s.msgque i)).msgPerm.seq = (s.msgque i).msgPerm.seq) :
    WaitInv mi (s.modify i f) := by
  refine h.calm (modify_field s i _ hwait) (fun j => ?_)
    (modify_field s i (fun qp => qp.msgPerm.seq) hseq) le_rfl fun _ => .stays _
  unfold IpcPerm.Alloc
  rw [modify_field s i (fun qp => qp.msgPerm.mode &&& IPC_ALLOC) halloc j]

theorem WaitInv.wakeup (hc : c.Other) : WaitInv mi (wakeup c s) := by
  refine h.calm (fun _ => rfl) (fun _ => Iff.rfl) (fun _ => rfl) le_rfl fun p => ?_
  unfold Message.wakeup
  simp only
  cases s.proc p with
  | asleep f =>
    simp only
    split
    · rename_i hf
      exact .woken f fun _ _ w _ => hf ▸ hc w.addr
    · exact .stays _
  | running => exact .stays _
  | woken f => exact .stays _
  | signalled f => exact .stays _

theorem WaitInv.setProc {p : Pid} {x : Proc}
    (hx : Goes (s.setProc p x) mi (s.proc p) x) : WaitInv mi (s.setProc p x) := by
  refine h.calm (fun _ => rfl) (fun _ => Iff.rfl) (fun _ => rfl) le_rfl fun q => ?_
  by_cases hq : q = p
  · subst hq
    have hself : (s.setProc q x).proc q = x := Function.update_self ..
    rw [hself]
    exact hx
  · have hother : (s.setProc p x).proc q = s.proc q := Function.update_of_ne hq ..
    rw [hother]
    exact .stays _

theorem WaitInv.finish (p : Pid) {o : Outcome}
    (ho : ∀ f, o = .sleeps f → f.chan.Other ∧ ∀ a, f.call = .rcv a → ¬a.msgtyp > 0) :
    WaitInv mi (finish p s o).1 := by
  unfold Message.finish
  split
  · rename_i f
    obtain ⟨hchan, hcall⟩ := ho f rfl
    exact h.setProc (.sleeps _ f hchan hcall)
  · exact h.setProc (.runs _)

theorem WaitInv.returns (p : Pid) (errno : ℕ) : WaitInv mi (Message.finish p s (.returns errno)).1 :=
  h.finish p nofun

end

theorem queue_other (i : ℕ) : (Chan.queue i).Other := fun _ => nofun

theorem qnum_other (i : ℕ) : (Chan.qnum i).Other := fun _ => nofun

theorem msghdrWait_other : Chan.msghdrWait.Other := fun _ => nofun

section

variable (h : WaitInv mi s)
include h

theorem WaitInv.unlink (i : ℕ) (preMp : Option ℕ) (mp : ℕ) : WaitInv mi (unlink i preMp mp s) := by
  have hserial : (Message.unlink i preMp mp s).serial = s.serial := by
    cases preMp <;> rfl
  have hproc : (Message.unlink i preMp mp s).proc = s.proc := by
    cases preMp <;> rfl
  refine h.calm (fun j => ?_) (fun j => ?_) (fun j => ?_) hserial.ge fun p => ?_
  · unfold State.waiting
    rw [unlink_msgque]
    split <;> simp_all
  · rw [unlink_msgque]
    split <;> simp_all
  · rw [unlink_msgque]
    split <;> simp_all
  · rw [hproc]
    exact .stays _

theorem WaitInv.wakeWriters (i : ℕ) : WaitInv mi (wakeWriters i s) := by
  unfold Message.wakeWriters
  split
  · exact (h.modify i rfl (alloc_clearBits (by decide)) rfl).wakeup (queue_other i)
  · exact h

theorem WaitInv.wakeReaders (i : ℕ) : WaitInv mi (wakeReaders i s) := by
  unfold Message.wakeReaders
  split
  · exact (h.modify i rfl (alloc_clearBits (by decide)) rfl).wakeup (qnum_other i)
  · exact h

theorem WaitInv.freeMsghdr (mp : ℕ) : WaitInv mi (freeMsghdr mp s) := by
  unfold Message.freeMsghdr
  simp only
  split
  · have hzone : WaitInv mi { s with msghdrZone := s.msghdrZone.erase mp, msghdrWait := 0 } :=
      h.congr rfl rfl le_rfl
    exact (hzone.wakeup msghdrWait_other).congr rfl rfl le_rfl
  · exact h.congr rfl rfl le_rfl

theorem WaitInv.msgfree (i : ℕ) (preMp : Option ℕ) (mp : ℕ) : WaitInv mi (msgfree i preMp mp s) :=
  ((h.unlink i preMp mp).wakeWriters i).freeMsghdr mp

theorem WaitInv.freeAll {fuel : ℕ} (ht : freeAll i fuel s = some t) : WaitInv mi t := by
  induction fuel generalizing s with
  | zero => cases ht
  | succ fuel ih =>
    rw [Message.freeAll] at ht
    split at ht
    · obtain rfl := Option.some_inj.mp ht
      exact h
    · rename_i mp _
      exact ih (h.msgfree i none mp) ht

theorem WaitInv.receive (a : Rcv) (i : ℕ) (preMp : Option ℕ) (mp : ℕ)
    (io : Io) : WaitInv mi (receive p a i preMp mp io s).1 := by
  unfold Message.receive
  simp only
  split
  · exact h.returns p _
  generalize (if a.msgsz < (s.msg mp).msgTs then a.msgsz else ((s.msg mp).msgTs : ℤ)) = size
  split
  · exact h.returns p _
  split
  · exact h.returns p _
  · have hread : WaitInv mi (s.modify i fun qp =>
        { qp with
          msgCbytes := qp.msgCbytes - UInt16.ofNat (s.msg mp).msgTs, msgLrpid := p }) :=
      h.modify i rfl rfl rfl
    have hfree := hread.msgfree i preMp mp
    refine WaitInv.finish (hfree.congr ?_ ?_ ?_) p nofun
    · rfl
    · rfl
    · exact le_rfl

theorem WaitInv.link (p : Pid) (i mp : ℕ) (typ : Int64) (cnt : ℕ)
    (text : List UInt8) : WaitInv mi (link p i mp typ cnt text s) := by
  obtain ⟨-, -, hserial, -⟩ := link_rest (p := p) s i mp typ cnt text
  have hproc : (Message.link p i mp typ cnt text s).proc = s.proc := by
    unfold Message.link
    cases (s.msgque i).msgLast <;> rfl
  refine h.calm (fun j => ?_) (fun j => ?_) (fun j => ?_) ?_ fun q => ?_
  · unfold State.waiting
    rw [link_msgque]
    split <;> simp_all
  · rw [link_msgque]
    split <;> simp_all
  · rw [link_msgque]
    split <;> simp_all
  · rw [hserial]
    exact Nat.le_succ _
  · rw [hproc]
    exact .stays _

end

/-- Who sleeps on an element is woken. -/
def rouse (l : List MsgWait) : Proc → Proc
  | .asleep f => if ∃ w ∈ l, f.chan = .wait w.addr then .woken f else .asleep f
  | x => x

theorem wakeElements_eq (l : List MsgWait) (s : State) :
    wakeElements l s = { s with proc := fun q => rouse l (s.proc q) } := by
  unfold wakeElements
  induction l generalizing s with
  | nil =>
    have hid : (fun q => rouse [] (s.proc q)) = s.proc := by
      funext q
      unfold rouse
      cases s.proc q <;> simp
    rw [hid]
    rfl
  | cons w l ih =>
    rw [foldl_cons, ih]
    have hcons : (fun q => rouse l ((wakeup (.wait w.addr) s).proc q)) =
        fun q => rouse (w :: l) (s.proc q) := by
      funext q
      unfold wakeup
      simp only
      cases s.proc q with
      | asleep f =>
        by_cases hw : f.chan = .wait w.addr
        · simp [rouse, hw]
        · simp [rouse, hw]
      | running => rfl
      | woken f => rfl
      | signalled f => rfl
    rw [hcons]
    rfl

section

variable (h : WaitInv mi s)
include h

theorem WaitInv.drop (hi : i < mi.msgmni) (P : MsgWait → Prop) [DecidablePred P] :
    WaitInv mi ((wakeElements ((s.waiting i).filter fun w => P w) s).modify i fun qp =>
      { qp with msgWaitList := (s.waiting i).filter fun w => ¬P w }) := by
  rw [wakeElements_eq]
  generalize ht : State.modify
    { s with proc := fun q => rouse ((s.waiting i).filter fun w => P w) (s.proc q) } i
      (fun qp => { qp with msgWaitList := (s.waiting i).filter fun w => ¬P w }) = t
  have hproc (q : Pid) : t.proc q = rouse ((s.waiting i).filter fun w => P w) (s.proc q) := by
    rw [← ht]
    rfl
  have hself : t.waiting i = (s.waiting i).filter fun w => ¬P w := by
    rw [← ht]
    unfold State.waiting
    rw [State.modify_self]
  have hother {j : ℕ} (hj : j ≠ i) : t.waiting j = s.waiting j := by
    rw [← ht]
    unfold State.waiting
    rw [State.modify_of_ne _ _ hj]
  have hsub (j : ℕ) : (t.waiting j).Sublist (s.waiting j) := by
    by_cases hj : j = i
    · subst hj
      rw [hself]
      exact filter_sublist
    · rw [hother hj]
  have hpermt (j : ℕ) : (t.msgque j).msgPerm = (s.msgque j).msgPerm := by
    rw [← ht]
    exact modify_field _ i MsqidDs.msgPerm rfl j
  refine h.sheds ⟨fun j _ => hsub j, fun j hj w hw hout p f hp hchan => ?_, fun j _ _ => by rw [hpermt],
    fun j _ _ => by rw [hpermt], ?_, fun p => ?_⟩
  · -- who sleeps on an element that goes is woken
    by_cases hji : j = i
    · subst hji
      have hPw : P w := by
        by_contra hnot
        apply hout
        rw [hself]
        exact mem_filter.mpr ⟨hw, decide_eq_true hnot⟩
      rw [hproc] at hp
      unfold rouse at hp
      split at hp
      · rename_i g _
        split at hp
        · cases hp
        · rename_i hnone
          obtain rfl := Proc.asleep.inj hp
          exact hnone ⟨w, mem_filter.mpr ⟨hw, decide_eq_true hPw⟩, hchan⟩
      · rename_i hne
        exact hne _ hp
    · rw [hother hji] at hout
      exact absurd hw hout
  · rw [← ht]
    exact le_rfl
  · rw [hproc]
    cases s.proc p with
    | running => exact .stays _
    | woken f => exact .stays _
    | signalled f => exact .stays _
    | asleep f =>
      unfold rouse
      simp only
      split
      · rename_i hex
        obtain ⟨w, hw, hchan⟩ := hex
        obtain ⟨hw, hPw⟩ := mem_filter.mp hw
        refine .woken f fun j hj w' hw' hchan' => ?_
        -- the element is not the one that is left
        have haddr : w.addr = w'.addr := by
          rw [hchan] at hchan'
          exact Chan.wait.inj hchan'
        have hws := (hsub j).subset hw'
        obtain ⟨rfl, rfl⟩ := h.eq hi hj hw hws (h.addrs i hi j hj w hw w' hws haddr)
        rw [hself] at hw'
        exact of_decide_eq_true (mem_filter.mp hw').2 (of_decide_eq_true hPw)
      · exact .stays _

theorem WaitInv.wakeWaiters (hi : i < mi.msgmni) (typ : Int64) : WaitInv mi (wakeWaiters typ i s) :=
  h.drop hi fun w => w.msgWaitType = typ

theorem WaitInv.retire (hempty : s.waiting i = [])
    (hf : (f (s.msgque i)).msgWaitList = []) : WaitInv mi (s.modify i f) := by
  have hself : (s.modify i f).waiting i = [] := by
    unfold State.waiting
    rw [State.modify_self]
    exact hf
  have hwait (j : ℕ) : (s.modify i f).waiting j = s.waiting j := by
    by_cases hj : j = i
    · rw [hj, hself, hempty]
    · unfold State.waiting
      rw [State.modify_of_ne _ _ hj]
  refine h.sheds ⟨fun j _ => ?_, fun j _ w hw hout => ?_, fun j _ hne => ?_, fun j _ hne => ?_,
    le_rfl, fun _ => .stays _⟩
  · rw [hwait]
  · rw [hwait] at hout
    exact absurd hw hout
  · have hj : j ≠ i := fun hj => hne (hj ▸ hself)
    rw [State.modify_of_ne _ _ hj]
  · have hj : j ≠ i := fun hj => hne (hj ▸ hself)
    rw [State.modify_of_ne _ _ hj]

theorem WaitInv.wakeupIf {b : Prop} [Decidable b] (hc : c.Other) :
    WaitInv mi (if b then Message.wakeup c s else s) := by
  split
  · exact h.wakeup hc
  · exact h

end

theorem waiting_wakeupIf (s : State) (b : Prop) [Decidable b] (c : Chan) (i : ℕ) :
    (if b then wakeup c s else s).waiting i = s.waiting i := by
  split
  · rfl
  · rfl

theorem discard_waiting (mi : MsgInfo) (msqid : ℤ) (i : ℕ) (s : State) :
    ∃ f : MsqidDs → MsqidDs, (∀ qp, (f qp).msgWaitList = qp.msgWaitList) ∧
      discard mi msqid i s =
        (if (s.msgque i).msgPerm.mode &&& MSG_WWAIT ≠ 0 then wakeup (.queue i)
          (if (s.msgque i).msgPerm.mode &&& MSG_RWAIT ≠ 0 then wakeup (.qnum i)
            ((wakeElements (s.waiting i) s).modify i fun qp => { qp with msgWaitList := [] })
          else (wakeElements (s.waiting i) s).modify i fun qp => { qp with msgWaitList := [] })
        else if (s.msgque i).msgPerm.mode &&& MSG_RWAIT ≠ 0 then wakeup (.qnum i)
            ((wakeElements (s.waiting i) s).modify i fun qp => { qp with msgWaitList := [] })
          else (wakeElements (s.waiting i) s).modify i fun qp =>
            { qp with msgWaitList := [] }).modify i f := by
  refine ⟨fun qp =>
    { qp with
      msgCbytes := 0
      msgPerm :=
        { (s.msgque i).msgPerm with
          mode := 0
          seq := if msqid + mi.msgmni < 0 then 0 else (s.msgque i).msgPerm.seq + 1 } },
    fun _ => rfl, ?_⟩
  unfold discard State.waiting
  simp only
  split
  · split
    · simp [State.modify, wakeup]
    · simp [State.modify, wakeup]
  · split
    · simp [State.modify, wakeup]
    · simp [State.modify]

theorem WaitInv.discard (h : WaitInv mi s) (hi : i < mi.msgmni) (msqid : ℤ) :
    WaitInv mi (discard mi msqid i s) := by
  have hdrop := h.drop hi fun _ => True
  simp only [not_true_eq_false, decide_true, decide_false, filter_true, filter_false]
    at hdrop
  obtain ⟨f, hf, heq⟩ := discard_waiting mi msqid i s
  have hempty : ((wakeElements (s.waiting i) s).modify i fun qp =>
      { qp with msgWaitList := [] }).waiting i = [] := by
    unfold State.waiting
    rw [State.modify_self]
  rw [heq]
  apply ((hdrop.wakeupIf (qnum_other i)).wakeupIf (queue_other i)).retire
  · rw [waiting_wakeupIf, waiting_wakeupIf]
    exact hempty
  · refine (hf _).trans (Eq.trans ?_ hempty)
    exact (waiting_wakeupIf ..).trans (waiting_wakeupIf ..)

end Osf1.Message
