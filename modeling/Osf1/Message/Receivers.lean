import Osf1.Message.WaitLists

/-!
# Receivers that wait for a type

A receiver joins the element of its type; a message of the type takes the element off the list and wakes them
all. A receiver that was interrupted looks for its element by its type.
-/

set_option autoImplicit false

namespace Osf1.Message

open Function List Option

open Osf1.Computation Osf1.Ipc

variable {mi : MsgInfo} {p : Pid} {s t : State} {i : ℕ} {typ : Int64} {w w' : MsgWait} {l₁ l₂ : List MsgWait} {a : Rcv}
  {addr : ℕ} {f : Frame} {io : Io}

theorem countWait_split {l : List MsgWait} (h : l.find? (fun w => w.msgWaitType = typ) = some w) :
    ∃ l₁ l₂, l = l₁ ++ w :: l₂ ∧
      countWait typ l = l₁ ++ { w with msgWaitCnt := w.msgWaitCnt + 1 } :: l₂ := by
  induction l with
  | nil => cases h
  | cons x l ih =>
    rw [find?_cons] at h
    rw [countWait]
    split at h
    · rename_i hx
      obtain rfl := some_inj.mp h
      rw [if_pos (of_decide_eq_true hx)]
      exact ⟨[], l, rfl, rfl⟩
    · rename_i hx
      obtain ⟨l₁, l₂, hl, hcount⟩ := ih h
      rw [if_neg (of_decide_eq_false hx), hcount, hl]
      exact ⟨x :: l₁, l₂, rfl, rfl⟩

theorem leaveWait_split {l : List MsgWait} (h : l.find? (fun w => w.msgWaitType = typ) = some w) :
    ∃ l₁ l₂, l = l₁ ++ w :: l₂ ∧
      leaveWait typ l = if w.msgWaitCnt - 1 = 0 then l₁ ++ l₂
        else l₁ ++ { w with msgWaitCnt := w.msgWaitCnt - 1 } :: l₂ := by
  induction l with
  | nil => cases h
  | cons x l ih =>
    rw [find?_cons] at h
    rw [leaveWait]
    split at h
    · rename_i hx
      obtain rfl := some_inj.mp h
      rw [if_pos (of_decide_eq_true hx)]
      exact ⟨[], l, rfl, rfl⟩
    · rename_i hx
      obtain ⟨l₁, l₂, hl, hleave⟩ := ih h
      rw [if_neg (of_decide_eq_false hx), hleave]
      refine ⟨x :: l₁, l₂, by rw [hl, cons_append], ?_⟩
      split
      · rfl
      · rfl

theorem leaveWait_none {l : List MsgWait} (h : l.find? (fun w => w.msgWaitType = typ) = none) : leaveWait typ l = l := by
  induction l with
  | nil => rfl
  | cons x l ih =>
    rw [find?_cons] at h
    rw [leaveWait]
    split at h
    · cases h
    · rename_i hx
      rw [if_neg (of_decide_eq_false hx), ih h]

/-- A process goes from one place to another, and a wait list changes. -/
def State.rewait (s : State) (i : ℕ) (l : List MsgWait) (n : ℕ) (p : Pid) (x : Proc) : State :=
  { s with
    msgque := update s.msgque i { s.msgque i with msgWaitList := l }
    serial := n
    proc := update s.proc p x }

section Rewait

variable {l : List MsgWait} {n : ℕ} {x : Proc}

theorem rewait_waiting (s : State) (i : ℕ) (l : List MsgWait) (n : ℕ) (p : Pid) (x : Proc) (j : ℕ) :
    (s.rewait i l n p x).waiting j = if j = i then l else s.waiting j := by
  unfold State.rewait State.waiting
  by_cases hj : j = i
  · subst hj
    simp
  · simp [hj]

theorem rewait_perm (s : State) (i : ℕ) (l : List MsgWait) (n : ℕ) (p : Pid) (x : Proc) (j : ℕ) :
    ((s.rewait i l n p x).msgque j).msgPerm = (s.msgque j).msgPerm := by
  unfold State.rewait
  by_cases hj : j = i
  · subst hj
    simp
  · simp [hj]

theorem rewait_of_ne (s : State) (i : ℕ) (l : List MsgWait) (n : ℕ) (x : Proc) {p q : Pid}
    (h : q ≠ p) : (s.rewait i l n p x).proc q = s.proc q :=
  update_of_ne h ..

theorem rewait_self (s : State) (i : ℕ) (l : List MsgWait) (n : ℕ) (p : Pid) (x : Proc) :
    (s.rewait i l n p x).proc p = x :=
  update_self ..

/-- An element of the new list is an old one, or a new one with a number and an address of its
own. -/
def Listed (mi : MsgInfo) (s : State) (i n : ℕ) (w' : MsgWait) : Prop :=
  (∃ w ∈ s.waiting i, w'.addr = w.addr ∧ w'.serial = w.serial) ∨
    (w'.serial = s.serial ∧ s.serial < n ∧ ∀ j < mi.msgmni, ∀ w ∈ s.waiting j, w.addr ≠ w'.addr)

theorem WaitInv.rewait (h : WaitInv mi s) (hi : i < mi.msgmni)
    (halloc : (s.msgque i).msgPerm.Alloc) (hn : s.serial ≤ n)
    (hnodup : (l.map MsgWait.serial).Nodup) (hlisted : ∀ w' ∈ l, Listed mi s i n w')
    (hkept : ∀ w ∈ s.waiting i, ∃ w' ∈ l, w'.addr = w.addr ∧ w'.serial = w.serial ∧ w'.msgWaitType = w.msgWaitType)
    (hcounted : ∀ w' ∈ l, (tally (Counts w'.serial) (update s.proc p x) : ℤ) ≤ w'.msgWaitCnt)
    (hout : ∀ j < mi.msgmni, j ≠ i → ∀ w ∈ s.waiting j, ¬Counts w.serial x)
    (hx : x = .running ∨ ∃ f, x = .asleep f ∧ Found mi (s.rewait i l n p x) f ∧ f.serial < n) :
    WaitInv mi (s.rewait i l n p x) := by
  have hproc : (s.rewait i l n p x).proc = update s.proc p x := rfl
  have hserial : (s.rewait i l n p x).serial = n := rfl
  refine ⟨fun j hj => ?_, fun j hj k hk w hw w' hw' heq => ?_,
    fun j hj k hk w hw w' hw' heq => ?_, fun j hj w hw => ?_, fun j hj hfree => ?_,
    fun j hj w hw => ?_, fun q f hq => ?_, fun q f addr hq hchan => ?_,
    fun q f addr hq hchan j hj w hw => ?_⟩
  · rw [rewait_waiting]
    split
    · exact hnodup
    · exact h.nodup j hj
  · rw [rewait_waiting] at hw hw'
    by_cases hji : j = i
    · by_cases hki : k = i
      · rw [hji, hki]
      · rw [if_pos hji] at hw
        rw [if_neg hki] at hw'
        rcases hlisted w hw with ⟨w₀, hw₀, -, hs₀⟩ | hnew
        · exact absurd (h.serials k hk i hi w' hw' w₀ hw₀ (heq.symm.trans hs₀)) hki
        · have hlt := h.lt k hk w' hw'
          omega
    · rw [if_neg hji] at hw
      by_cases hki : k = i
      · rw [if_pos hki] at hw'
        rcases hlisted w' hw' with ⟨w₀, hw₀, -, hs₀⟩ | hnew
        · exact absurd (h.serials j hj i hi w hw w₀ hw₀ (heq.trans hs₀)) hji
        · have hlt := h.lt j hj w hw
          omega
      · rw [if_neg hki] at hw'
        exact h.serials j hj k hk w hw w' hw' heq
  · -- an old element has an old one's address, and a new one is the only one with its own
    have hold {j : ℕ} (hj : j < mi.msgmni) {w : MsgWait} (hw : w ∈ (s.rewait i l n p x).waiting j) :
        (∃ k < mi.msgmni, ∃ w₀ ∈ s.waiting k, w.addr = w₀.addr ∧ w.serial = w₀.serial) ∨
          (w.serial = s.serial ∧ ∀ j < mi.msgmni, ∀ w₀ ∈ s.waiting j, w₀.addr ≠ w.addr) := by
      rw [rewait_waiting] at hw
      split at hw
      · rcases hlisted w hw with ⟨w₀, hw₀, ha, hs⟩ | hnew
        · exact .inl ⟨i, hi, w₀, hw₀, ha, hs⟩
        · exact .inr ⟨hnew.1, hnew.2.2⟩
      · exact .inl ⟨j, hj, w, hw, rfl, rfl⟩
    rcases hold hj hw with hw₀ | hnew
    · obtain ⟨j₀, hj₀, w₀, hw₀, ha₀, hs₀⟩ := hw₀
      rcases hold hk hw' with hw₁ | hnew
      · obtain ⟨j₁, hj₁, w₁, hw₁, ha₁, hs₁⟩ := hw₁
        have haddr : w₀.addr = w₁.addr := by rw [← ha₀, ← ha₁, heq]
        rw [hs₀, hs₁, h.addrs j₀ hj₀ j₁ hj₁ w₀ hw₀ w₁ hw₁ haddr]
      · exact absurd (ha₀.symm.trans heq) (hnew.2 j₀ hj₀ w₀ hw₀)
    · rcases hold hk hw' with hw₁ | hnew'
      · obtain ⟨j₁, hj₁, w₁, hw₁, ha₁, hs₁⟩ := hw₁
        exact absurd (ha₁.symm.trans heq.symm) (hnew.2 j₁ hj₁ w₁ hw₁)
      · exact hnew.1.trans hnew'.1.symm
  · rw [hserial]
    rw [rewait_waiting] at hw
    split at hw
    · rcases hlisted w hw with ⟨w₀, hw₀, -, hs₀⟩ | hnew
      · have hlt := h.lt i hi w₀ hw₀
        omega
      · omega
    · exact (h.lt j hj w hw).trans_le hn
  · rw [rewait_perm] at hfree
    rw [rewait_waiting]
    by_cases hji : j = i
    · exact absurd halloc (hji ▸ hfree)
    · rw [if_neg hji]
      exact h.idle j hj hfree
  · rw [rewait_waiting] at hw
    rw [hproc]
    by_cases hji : j = i
    · rw [if_pos hji] at hw
      exact hcounted w hw
    · rw [if_neg hji] at hw
      have hcnt := h.counted j hj w hw
      have hupd := tally_update (P := Counts w.serial) s.proc p x
      rw [if_neg (hout j hj hji w hw)] at hupd
      omega
  · by_cases hqp : q = p
    · subst hqp
      rw [rewait_self] at hq
      rcases hx with hrun | ⟨g, hg, hfound, -⟩
      · rw [hrun] at hq
        cases hq
      · obtain rfl := Proc.asleep.inj (hg.symm.trans hq)
        exact hfound
    · rw [rewait_of_ne s i l n x hqp] at hq
      refine (h.found q f hq).congr fun j hj w hw _ _ => ⟨?_, by rw [rewait_perm], by rw [rewait_perm]⟩
      rw [rewait_waiting]
      by_cases hji : j = i
      · rw [if_pos hji]
        exact hkept w (hji ▸ hw)
      · rw [if_neg hji]
        exact ⟨w, hw, rfl, rfl, rfl⟩
  · by_cases hqp : q = p
    · subst hqp
      rw [rewait_self] at hq
      rcases hx with hrun | ⟨g, hg, -, hlt⟩
      · simp [hrun] at hq
      · obtain rfl : g = f := by simpa [hg] using hq
        exact hlt
    · rw [rewait_of_ne s i l n x hqp] at hq
      exact (h.old q f addr hq hchan).trans_le hn
  · by_cases hqp : q = p
    · subst hqp
      rw [rewait_self] at hq
      rcases hx with hrun | ⟨g, hg, -, -⟩
      · simp [hrun] at hq
      · simp [hg] at hq
    · rw [rewait_of_ne s i l n x hqp] at hq
      have hspent := h.spent q f addr hq hchan
      have hold := h.old q f addr (.inr (.inl hq)) hchan
      rw [rewait_waiting] at hw
      split at hw
      · rcases hlisted w hw with ⟨w₀, hw₀, -, hs₀⟩ | hnew
        · rw [hs₀]
          exact hspent i hi w₀ hw₀
        · omega
      · exact hspent j hj w hw

end Rewait

theorem serial_ne_of_split (h : ((l₁ ++ w :: l₂).map MsgWait.serial).Nodup) (hw' : w' ∈ l₁ ++ l₂) :
    w'.serial ≠ w.serial := by
  rw [map_append, map_cons, nodup_middle, nodup_cons, ← map_append] at h
  intro heq
  exact h.1 (heq ▸ mem_map_of_mem hw')

theorem mem_split (h : w' ∈ l₁ ++ w :: l₂) : w' = w ∨ w' ∈ l₁ ++ l₂ := by
  simp only [mem_append, mem_cons] at h ⊢
  tauto

section

variable (h : WaitInv mi s)
include h

theorem WaitInv.recount (hi : i < mi.msgmni)
    (halloc : (s.msgque i).msgPerm.Alloc) {n : ℕ} (hn : s.serial ≤ n) (hl : s.waiting i = l₁ ++ w :: l₂) {c : ℤ} {x : Proc}
    (hc : (tally (Counts w.serial) (update s.proc p x) : ℤ) ≤ c) (hout : ∀ m, m ≠ w.serial → ¬Counts m x)
    (hx : x = .running ∨ ∃ f, x = .asleep f ∧
      Found mi (s.rewait i (l₁ ++ { w with msgWaitCnt := c } :: l₂) n p x) f ∧ f.serial < n) :
    WaitInv mi (s.rewait i (l₁ ++ { w with msgWaitCnt := c } :: l₂) n p x) := by
  have hnodup := h.nodup i hi
  have hw : w ∈ s.waiting i := by
    rw [hl]
    simp
  have hrest {w' : MsgWait} (hw' : w' ∈ l₁ ++ l₂) : w' ∈ s.waiting i := by
    rw [hl]
    exact ((sublist_cons_self w l₂).append_left l₁).subset hw'
  have hkeep {w' : MsgWait} (hw' : w' ∈ l₁ ++ l₂) : w' ∈ l₁ ++ { w with msgWaitCnt := c } :: l₂ :=
    ((sublist_cons_self _ l₂).append_left l₁).subset hw'
  rw [hl] at hnodup
  refine h.rewait hi halloc hn ?_ (fun w' hw' => ?_) (fun w' hw' => ?_) (fun w' hw' => ?_)
    (fun j hj hji w' hw' => ?_) hx
  · rw [map_append, map_cons] at hnodup ⊢
    exact hnodup
  · rcases mem_split hw' with heq | hmem
    · exact .inl ⟨w, hw, heq ▸ rfl, heq ▸ rfl⟩
    · exact .inl ⟨w', hrest hmem, rfl, rfl⟩
  · rw [hl] at hw'
    rcases mem_split hw' with heq | hmem
    · exact ⟨{ w with msgWaitCnt := c }, by simp, heq ▸ rfl, heq ▸ rfl, heq ▸ rfl⟩
    · exact ⟨w', hkeep hmem, rfl, rfl, rfl⟩
  · rcases mem_split hw' with heq | hmem
    · rw [heq]
      exact hc
    · have hcnt := h.counted i hi w' (hrest hmem)
      have hupd := tally_update (P := Counts w'.serial) s.proc p x
      rw [if_neg (hout _ (serial_ne_of_split hnodup hmem))] at hupd
      omega
  · refine hout _ fun heq => hji ?_
    exact h.serials j hj i hi w' hw' w hw heq

theorem WaitInv.join (hconv : msgconv mi s a.msqid = some i)
    (hpos : a.msgtyp > 0) (haddr : ∀ j < mi.msgmni, ∀ w ∈ s.waiting j, w.addr ≠ addr) {l : List MsgWait}
    (hjoin : joinWait a.msgtyp addr s.serial (s.waiting i) = (l, w)) :
    WaitInv mi (s.rewait i l (s.serial + 1) p (.asleep ⟨.rcv a, .wait w.addr, w.serial⟩)) := by
  obtain ⟨hi, halloc⟩ := msgconv_some hconv
  -- the element is there for it to sleep on
  have hfound (w' : MsgWait) {x : Proc} (hw' : w' ∈ l) (ha : w'.addr = w.addr)
      (hs : w'.serial = w.serial) (ht : w'.msgWaitType = a.msgtyp) :
      Found mi (s.rewait i l (s.serial + 1) p x) ⟨.rcv a, .wait w.addr, w.serial⟩ := by
    unfold Found
    simp only
    rw [if_pos hpos]
    refine ⟨i, w', msgconv_congr hconv ?_ ?_, ?_, ha ▸ rfl, hs.symm, ht⟩
    · rw [rewait_perm]
    · rw [rewait_perm]
    · rw [rewait_waiting, if_pos rfl]
      exact hw'
  have hcounts (m : ℕ) : Counts m (.asleep ⟨.rcv a, .wait w.addr, w.serial⟩) ↔ w.serial = m :=
    ⟨fun hm => hm.2, fun hm => ⟨⟨_, rfl⟩, hm⟩⟩
  unfold joinWait at hjoin
  split at hjoin
  · rename_i w₀ hfind
    obtain ⟨hl, rfl⟩ := Prod.mk.inj hjoin
    have htype : w₀.msgWaitType = a.msgtyp := by simpa using find?_some hfind
    obtain ⟨l₁, l₂, hsplit, hcount⟩ := countWait_split hfind
    have hw : w₀ ∈ s.waiting i := by
      rw [hsplit]
      simp
    have hcnt := h.counted i hi w₀ hw
    have hupd := tally_update (P := Counts w₀.serial) s.proc p
      (.asleep ⟨.rcv a, .wait w₀.addr, w₀.serial⟩)
    rw [if_pos ((hcounts _).mpr rfl)] at hupd
    rw [hcount] at hl
    subst hl
    refine h.recount hi halloc (Nat.le_succ _) hsplit ?_ (fun m hm hcm => ?_) (.inr ⟨_, rfl, ?_, ?_⟩)
    · omega
    · exact hm ((hcounts m).mp hcm).symm
    · exact hfound { w₀ with msgWaitCnt := w₀.msgWaitCnt + 1 } (by simp) rfl rfl htype
    · exact Nat.lt_succ_of_lt (h.lt i hi w₀ hw)
  · obtain ⟨hl, rfl⟩ := Prod.mk.inj hjoin
    rw [countWait, if_pos rfl] at hl
    subst hl
    -- nobody bears the number yet
    have hzero : tally (Counts s.serial) s.proc = 0 := by
      rw [tally_eq_zero_iff]
      intro q hq
      unfold Counts at hq
      split at hq
      · rename_i f hf
        obtain ⟨⟨addr, hchan⟩, hserial⟩ := hq
        exact absurd hserial (Nat.ne_of_lt (h.old q f addr (.inl hf) hchan))
      · rename_i f hf
        obtain ⟨⟨addr, hchan⟩, hserial⟩ := hq
        exact absurd hserial (Nat.ne_of_lt (h.old q f addr (.inr (.inr hf)) hchan))
      · exact hq
    refine h.rewait hi halloc (Nat.le_succ _) ?_ (fun w hw => ?_)
      (fun w hw => ⟨w, mem_cons_of_mem _ hw, rfl, rfl, rfl⟩) (fun w hw => ?_)
      (fun j hj hji w hw hc => ?_) (.inr ⟨_, rfl, ?_, Nat.lt_succ_self _⟩)
    · rw [map_cons, nodup_cons]
      refine ⟨fun hmem => ?_, h.nodup i hi⟩
      obtain ⟨w, hw, hserial⟩ := mem_map.mp hmem
      exact absurd hserial (Nat.ne_of_lt (h.lt i hi w hw))
    · rcases mem_cons.mp hw with heq | hw
      · subst heq
        exact .inr ⟨rfl, Nat.lt_succ_self _, haddr⟩
      · exact .inl ⟨w, hw, rfl, rfl⟩
    · rcases mem_cons.mp hw with heq | hw
      · have hupd := tally_update (P := Counts s.serial) s.proc p
          (.asleep ⟨.rcv a, .wait addr, s.serial⟩)
        rw [if_pos ((hcounts _).mpr rfl)] at hupd
        rw [heq]
        simp only
        omega
      · have hcnt := h.counted i hi w hw
        have hlt := h.lt i hi w hw
        have hupd := tally_update (P := Counts w.serial) s.proc p
          (.asleep ⟨.rcv a, .wait addr, s.serial⟩)
        rw [if_neg fun hc => absurd ((hcounts _).mp hc) hlt.ne'] at hupd
        simp only
        omega
    · exact absurd ((hcounts _).mp hc) (h.lt j hj w hw).ne'
    · exact hfound ⟨addr, a.msgtyp, 0 + 1, s.serial⟩ (mem_cons_self ..) rfl rfl rfl

theorem WaitInv.leave (hp : s.proc p = .signalled f)
    (hchan : f.chan = .wait addr) (hconv : msgconv mi s a.msqid = some i)
    (hown : ∀ w, (s.waiting i).find? (fun w => w.msgWaitType = a.msgtyp) = some w → w.serial = f.serial) :
    WaitInv mi (s.rewait i (leaveWait a.msgtyp (s.waiting i)) s.serial p .running) := by
  obtain ⟨hi, halloc⟩ := msgconv_some hconv
  have hcounts : Counts f.serial (s.proc p) := by
    rw [hp]
    exact ⟨⟨addr, hchan⟩, rfl⟩
  cases hfind : (s.waiting i).find? (fun w => w.msgWaitType = a.msgtyp) with
  | none =>
    rw [leaveWait_none hfind]
    refine h.rewait hi halloc le_rfl (h.nodup i hi) (fun w hw => .inl ⟨w, hw, rfl, rfl⟩)
      (fun w hw => ⟨w, hw, rfl, rfl, rfl⟩) (fun w hw => ?_) (fun _ _ _ _ _ => id) (.inl rfl)
    have hcnt := h.counted i hi w hw
    have hupd := tally_update (P := Counts w.serial) s.proc p .running
    rw [if_neg (id : ¬Counts w.serial .running)] at hupd
    omega
  | some w =>
    have hserial := hown w hfind
    obtain ⟨l₁, l₂, hsplit, hleave⟩ := leaveWait_split hfind
    have hw : w ∈ s.waiting i := by
      rw [hsplit]
      simp
    have hcnt := h.counted i hi w hw
    have hupd := tally_update (P := Counts w.serial) s.proc p .running
    rw [if_neg (id : ¬Counts w.serial .running), hserial, if_pos hcounts, ← hserial] at hupd
    rw [hleave]
    split
    · rename_i hlast
      refine h.sheds ⟨fun j hj => ?_, fun j hj w' hw' hout q g hq hg => ?_,
        fun j _ _ => by rw [rewait_perm], fun j _ _ => by rw [rewait_perm], le_rfl, fun q => ?_⟩
      · rw [rewait_waiting]
        split
        · rename_i hji
          rw [hji, hsplit]
          exact (sublist_cons_self w l₂).append_left l₁
        · exact List.Sublist.refl _
      · -- who else is on the element would be counted
        rw [rewait_waiting] at hout
        split at hout
        · rename_i hji
          subst hji
          rw [hsplit] at hw'
          cases mem_split hw' with
          | inr hmem => exact hout hmem
          | inl heq =>
            subst heq
            have hqp : q ≠ p := by
              rintro rfl
              rw [rewait_self] at hq
              cases hq
            rw [rewait_of_ne s j _ _ _ hqp] at hq
            obtain ⟨b, k, w₀, -, hconv₀, hw₀, haddr₀, hserial₀, -⟩ := found_wait (h.found q g hq) hg
            have hsame := h.addrs k (msgconv_some hconv₀).1 j hj w₀ hw₀ w' hw haddr₀
            have hcq : Counts w'.serial (s.proc q) := by
              rw [hq]
              exact ⟨⟨_, hg⟩, hserial₀.trans hsame⟩
            have hle : tally (Counts w'.serial) s.proc ≤ 1 := by omega
            exact hqp (eq_of_tally_le_one hle hcq (hserial ▸ hcounts))
        · exact hout hw'
      · by_cases hqp : q = p
        · subst hqp
          rw [rewait_self]
          exact .runs _
        · rw [rewait_of_ne s i _ _ _ hqp]
          exact .stays _
    · exact h.recount hi halloc le_rfl hsplit (by omega) (fun _ _ => id) (.inl rfl)

theorem WaitInv.signal (hp : s.proc p = .asleep f ∨ s.proc p = .woken f) :
    WaitInv mi (s.setProc p (.signalled f)) := by
  have hself : (s.setProc p (.signalled f)).proc p = .signalled f := update_self ..
  have hother {q : Pid} (hq : q ≠ p) : (s.setProc p (.signalled f)).proc q = s.proc q := update_of_ne hq ..
  refine ⟨h.nodup, h.serials, h.addrs, h.lt, h.idle, fun j hj w hw => ?_, fun q g hq => ?_,
    fun q g addr hq hchan => ?_, fun q g addr hq hchan => ?_⟩
  · have hcnt := h.counted j hj w hw
    have hupd := tally_update (P := Counts w.serial) s.proc p (.signalled f)
    have hcounts : Counts w.serial (.signalled f) → Counts w.serial (s.proc p) := by
      rintro ⟨⟨addr, hchan⟩, hserial⟩
      rcases hp with hasleep | hwoken
      · rw [hasleep]
        exact ⟨⟨addr, hchan⟩, hserial⟩
      · exact absurd hserial.symm (h.spent p f addr hwoken hchan j hj w hw)
    have hproc : (s.setProc p (.signalled f)).proc = update s.proc p (.signalled f) := rfl
    rw [hproc]
    by_cases hc : Counts w.serial (.signalled f)
    · rw [if_pos hc, if_pos (hcounts hc)] at hupd
      omega
    · rw [if_neg hc] at hupd
      omega
  · by_cases hqp : q = p
    · subst hqp
      rw [hself] at hq
      cases hq
    · rw [hother hqp] at hq
      exact h.found q g hq
  · by_cases hqp : q = p
    · subst hqp
      rw [hself] at hq
      obtain rfl : f = g := by simpa using hq
      exact h.old q f addr (hp.imp_right .inl) hchan
    · rw [hother hqp] at hq
      exact h.old q g addr hq hchan
  · by_cases hqp : q = p
    · subst hqp
      rw [hself] at hq
      cases hq
    · rw [hother hqp] at hq
      exact h.spent q g addr hq hchan

theorem WaitInv.await (hconv : msgconv mi s a.msqid = some i)
    (hio : ∀ j < mi.msgmni, ∀ w ∈ s.waiting j, w.addr ≠ io.zalloc) : WaitInv mi (await p a i io s).1 := by
  unfold Message.await
  split
  · exact h.returns p _
  split
  · rename_i hpos
    exact h.join hconv hpos hio rfl
  · rename_i hnpos
    have hmode : WaitInv mi (s.modify i fun qp =>
        { qp with msgPerm := { qp.msgPerm with mode := qp.msgPerm.mode ||| MSG_RWAIT } }) :=
      h.modify i rfl (alloc_orBits (by decide)) rfl
    refine hmode.finish p fun f hf => ?_
    cases hf
    refine ⟨qnum_other i, fun b hb => ?_⟩
    cases hb
    exact hnpos

theorem WaitInv.msgrcv {firstpass : Bool} {o : Outcome}
    (hio : ∀ j < mi.msgmni, ∀ w ∈ s.waiting j, w.addr ≠ io.zalloc)
    (ht : msgrcv mi p a firstpass io s = some (t, o)) : WaitInv mi t := by
  have hreturns {errno : ℕ} (heq : some (Message.finish p s (.returns errno)) = some (t, o)) :
      WaitInv mi t := by
    have hdone := h.returns p errno
    rwa [some_inj.mp heq] at hdone
  unfold Message.msgrcv at ht
  cases hconv : msgconv mi s a.msqid with
  | none =>
    rw [hconv] at ht
    exact hreturns ht
  | some i =>
    rw [hconv] at ht
    simp only at ht
    split at ht
    · exact hreturns ht
    split at ht
    · exact hreturns ht
    split at ht
    · cases ht
    · rename_i mp preMp _
      have hdone := h.receive (p := p) a i preMp mp io
      rwa [some_inj.mp ht] at hdone
    · have hdone := h.await (p := p) hconv hio
      rwa [some_inj.mp ht] at hdone

theorem WaitInv.msgsnd (a : Snd) (firstpass : Bool) (io : Io) : WaitInv mi (msgsnd mi p a firstpass io s).1 := by
  have hreturns (errno : ℕ) := h.returns p errno
  -- a sender does not sleep on an element
  have hsleeps {u : State} (hu : WaitInv mi u) {c : Chan} (hc : c.Other) :
      WaitInv mi (Message.finish p u (.sleeps ⟨.snd a, c, 0⟩)).1 := by
    refine hu.finish p fun f hf => ?_
    cases hf
    exact ⟨hc, nofun⟩
  unfold Message.msgsnd
  cases hconv : msgconv mi s a.msqid with
  | none => exact hreturns _
  | some i =>
    simp only
    split
    · exact hreturns _
    split
    · exact hreturns _
    split
    · exact hreturns _
    split
    · exact hreturns _
    split
    · split
      · exact hreturns _
      · exact hsleeps (h.modify i rfl (alloc_orBits (by decide)) rfl) (queue_other i)
    split
    · split
      · exact hreturns _
      · have hwait : WaitInv mi { s with msghdrWait := s.msghdrWait + 1 } := h.congr rfl rfl le_rfl
        exact hsleeps hwait msghdrWait_other
    · have hzone : WaitInv mi
          { s with msghdrZone := io.zalloc :: s.msghdrZone, curMsghdrs := s.curMsghdrs + 1 } :=
        h.congr rfl rfl le_rfl
      unfold send
      split
      · exact (hzone.freeMsghdr io.zalloc).returns p _
      · exact (((hzone.link p i io.zalloc _ _ _).wakeReaders i).wakeWaiters (msgconv_some hconv).1 _).returns p _

end

/-- A receiver that was interrupted and finds an element of its type has slept on it. -/
def OwnElement (mi : MsgInfo) (s : State) (e : Event) : Prop :=
  ∀ p f a addr i w, e = .eintr p → s.proc p = .signalled f → f.call = .rcv a →
    f.chan = .wait addr → msgconv mi s a.msqid = some i →
    (s.waiting i).find? (fun w => w.msgWaitType = a.msgtyp) = some w → w.serial = f.serial

theorem WaitInv.interrupted (h : WaitInv mi s) (hp : s.proc p = .signalled f)
    (hok : OwnElement mi s (.eintr p)) : WaitInv mi (interrupted mi p f s) := by
  have hrun : WaitInv mi (s.setProc p .running) := h.setProc (.runs _)
  unfold Message.interrupted
  simp only
  split
  · rename_i a addr hcall hchan
    split
    · exact hrun
    · rename_i i hconv
      exact h.leave hp hchan hconv fun w hw => hok p f a addr i w rfl hp hcall hchan hconv hw
  · exact (hrun.modify _ rfl (alloc_clearBits (by decide)) rfl).wakeup (queue_other _)
  · exact hrun

theorem WaitInv.step {e : Event} (h : WaitInv mi s) (hok : OwnElement mi s e)
    (hstep : Step mi s e t) : WaitInv mi t := by
  cases hstep with
  | @pass _ p call firstpass io _ o he hio ht =>
    cases call with
    | rcv a => exact h.msgrcv hio.element ht
    | snd a =>
      have hdone := h.msgsnd (p := p) a firstpass io
      rwa [some_inj.mp ht] at hdone
  | msgget cred key msgflg =>
    unfold Message.msgget
    split
    · exact h
    · exact h
    · rename_i i hfresh
      obtain ⟨hlen, hfree⟩ := ipcget_fresh hfresh
      have hi : i < mi.msgmni := by simpa using hlen
      have hidle : ¬(s.msgque i).msgPerm.Alloc := by simpa using hfree
      simp only
      apply h.retire (h.idle i hi hidle)
      exact h.idle i hi hidle
  | signal hp => exact h.signal hp
  | eintr hp => exact h.interrupted hp hok
  | @rmid _ cred msqid errno ht =>
    unfold Message.rmid at ht
    split at ht
    · cases ht
      exact h
    · rename_i i hconv
      split at ht
      · cases ht
        exact h
      · obtain ⟨u, hu, htu⟩ := map_eq_some_iff.mp ht
        cases htu
        exact (h.freeAll hu).discard (msgconv_some hconv).1 msqid
  | ipcSet cred msqid ds =>
    unfold Message.ipcSet
    split
    · exact h
    split
    · exact h
    split
    · exact h
    split
    · exact h
    · simp only
      apply h.modify
      · rfl
      · exact alloc_setBits
      · rfl

theorem waitInv_start : WaitInv mi .start := by
  refine ⟨fun i _ => nodup_nil, fun i _ _ _ w hw => ?_, fun i _ _ _ w hw => ?_,
    fun i _ w hw => ?_, fun _ _ _ => rfl, fun i _ w hw => ?_, fun _ _ hp => ?_,
    fun _ _ _ hp => ?_, fun _ _ _ hp => ?_⟩
  · exact absurd hw not_mem_nil
  · exact absurd hw not_mem_nil
  · exact absurd hw not_mem_nil
  · exact absurd hw not_mem_nil
  · cases hp
  · simp [State.start] at hp
  · cases hp

theorem reachable_waitInv (h : ((msgSystem mi).restrict (OwnElement mi)).Reachable s) : WaitInv mi s := by
  apply h.invariant
  · rintro s rfl
    exact waitInv_start
  · rintro s e t _ hs ⟨hok, hstep⟩
    exact hs.step hok hstep

theorem msgsnd_accepted {a : Snd} (firstpass : Bool) (hacc : Accepted mi p s a io i)
    (htyp : (if a.msgflg &&& MSG_TAG ≠ 0 then some (Int64.ofNat p.val) else io.typeIn) = some typ) :
    ∃ text, msgsnd mi p a firstpass io s =
      finish p (enqueue p i io.zalloc typ (toInt a.msgsz).toNat text
        { s with msghdrZone := io.zalloc :: s.msghdrZone, curMsghdrs := s.curMsghdrs + 1 })
        (.returns 0) := by
  obtain ⟨typ', htyp', hpos⟩ := hacc.typ
  obtain rfl : typ = typ' := some_inj.mp (htyp.symm.trans htyp')
  have haccess : ¬ipcaccess a.cred (s.msgque i).msgPerm MSG_W = false := by simp [hacc.access]
  have hsize : ¬(toInt a.msgsz < 0 ∨ toInt a.msgsz > mi.msgmax) := by
    have hsize := hacc.size
    omega
  have hroom : ¬toInt a.msgsz + (s.msgque i).msgCbytes.toNat > (s.msgque i).msgQbytes := by
    have hroom := hacc.room
    omega
  have hheader : ¬s.curMsghdrs ≥ mi.msgtql := by
    have hheader := hacc.header
    omega
  have htext : ∃ text, (if (toInt a.msgsz).toNat = 0 then some [] else io.textIn) = some text := by
    rcases hacc.text with hzero | hsome
    · rw [hzero]
      exact ⟨[], rfl⟩
    · split
      · exact ⟨[], rfl⟩
      · exact ne_none_iff_exists'.mp hsome
  obtain ⟨text, htext⟩ := htext
  refine ⟨text, ?_⟩
  unfold msgsnd send
  rw [hacc.conv]
  simp only
  rw [if_neg haccess, if_neg hsize, htyp]
  simp only
  rw [if_neg hpos, if_neg hroom, if_neg hheader, htext]

/-- A process that sleeps on an element. -/
def SleepsOn (addr : ℕ) : Proc → Prop
  | .asleep f => f.chan = .wait addr
  | _ => False

instance (addr : ℕ) : DecidablePred (SleepsOn addr) := fun x =>
  match x with
  | .asleep f => inferInstanceAs (Decidable (f.chan = .wait addr))
  | .running | .woken _ | .signalled _ => isFalse id

theorem enqueue_wakes {q : Pid} (hp : s.proc p = .asleep f)
    (hw : w ∈ s.waiting i) (hchan : f.chan = .wait w.addr) (mp cnt : ℕ) (text : List UInt8) :
    (enqueue q i mp w.msgWaitType cnt text s).proc p = .woken f := by
  have hlink : (link q i mp w.msgWaitType cnt text s).proc p = .asleep f := by
    rw [← hp]
    unfold link
    cases (s.msgque i).msgLast <;> rfl
  have hwl : w ∈ (link q i mp w.msgWaitType cnt text s).waiting i := by
    unfold State.waiting
    rw [link_msgque, if_pos rfl]
    exact hw
  unfold enqueue
  generalize link q i mp w.msgWaitType cnt text s = u at hlink hwl
  have hreaders : (wakeReaders i u).proc p = .asleep f ∧ w ∈ (wakeReaders i u).waiting i := by
    unfold wakeReaders
    split
    · refine ⟨?_, ?_⟩
      · unfold wakeup State.modify
        simp [hlink, hchan]
      · unfold wakeup State.waiting
        rw [State.modify_self]
        exact hwl
    · exact ⟨hlink, hwl⟩
  obtain ⟨hasleep, hwr⟩ := hreaders
  have hrouse : (wakeElements (((wakeReaders i u).waiting i).filter fun w' =>
      w'.msgWaitType = w.msgWaitType) (wakeReaders i u)).proc p = .woken f := by
    rw [wakeElements_eq]
    simp only
    rw [hasleep]
    exact if_pos ⟨w, mem_filter.mpr ⟨hwr, decide_eq_true rfl⟩, hchan⟩
  exact hrouse

/-- A receiver that sleeps for a message type sleeps on the element of that type of its queue, and every element
counts at least the processes that sleep on it. -/
structure ReceiversFound (mi : MsgInfo) (s : State) : Prop where
  listed : ∀ p f a, s.proc p = .asleep f → f.call = .rcv a → a.msgtyp > 0 →
    ∃ i w, msgconv mi s a.msqid = some i ∧ w ∈ (s.msgque i).msgWaitList ∧
      f.chan = .wait w.addr ∧ w.msgWaitType = a.msgtyp ∧
      ∀ q b firstpass io, q ≠ p → Accepted mi q s b io i →
        (if b.msgflg &&& MSG_TAG ≠ 0 then some (Int64.ofNat q.val) else io.typeIn) = some a.msgtyp →
        (msgsnd mi q b firstpass io s).1.proc p = .woken f
  counted : ∀ i < mi.msgmni, ∀ w ∈ (s.msgque i).msgWaitList, (tally (SleepsOn w.addr) s.proc : ℤ) ≤ w.msgWaitCnt

/-- In every run in which no interrupted receiver takes another element of its type for its
own, no wakeup of a receiver is lost. -/
theorem typed_receivers_found (mi : MsgInfo) {s : State}
    (h : ((msgSystem mi).restrict (OwnElement mi)).Reachable s) : ReceiversFound mi s := by
  have hinv := reachable_waitInv h
  refine ⟨fun p f a hp hcall hpos => ?_, fun i hi w hw => ?_⟩
  · have hfound := hinv.found p f hp
    unfold Found at hfound
    rw [hcall] at hfound
    simp only at hfound
    rw [if_pos hpos] at hfound
    obtain ⟨i, w, hconv, hw, hchan, -, htype⟩ := hfound
    refine ⟨i, w, hconv, hw, hchan, htype, fun q b firstpass io hqp hacc htyp => ?_⟩
    obtain ⟨text, heq⟩ := msgsnd_accepted firstpass hacc htyp
    have hout (u : State) : (finish q u (.returns 0)).1.proc p = u.proc p := update_of_ne hqp.symm ..
    have hzone : ({ s with
        msghdrZone := io.zalloc :: s.msghdrZone
        curMsghdrs := s.curMsghdrs + 1 } : State).proc p = .asleep f := hp
    rw [heq, hout, ← htype]
    exact enqueue_wakes hzone hw hchan _ _ _
  · have hle : tally (SleepsOn w.addr) s.proc ≤ tally (Counts w.serial) s.proc := by
      apply tally_mono
      intro q hq
      unfold SleepsOn at hq
      split at hq
      · rename_i f hf
        obtain ⟨a, j, w', -, hconv, hw', haddr, hserial, -⟩ := found_wait (hinv.found q f hf) hq
        rw [hf]
        refine ⟨⟨_, hq⟩, hserial.trans ?_⟩
        exact hinv.addrs j (msgconv_some hconv).1 i hi w' hw' w hw haddr
      · exact hq.elim
    have hcnt := hinv.counted i hi w hw
    omega

/-- A receiver of messages of type 5, and a message of that type. -/
def fiver : Rcv := ⟨0, 0, 5, 0, ⟨0, 0⟩⟩

def five : Snd := ⟨0, 0, 0, ⟨0, 0⟩⟩

def fiveIo (n : ℕ) : Io := ⟨some 5, some [], true, true, n⟩

/-- The first part of a call. -/
def received (p : Pid) (n : ℕ) (s : State) : State :=
  ((msgrcv msginfo p fiver true (fiveIo n) s).getD (s, .returns 0)).1

/-- What it takes for the zones to hand out an address. -/
def Unused (n : ℕ) (s : State) : Prop :=
  n ∉ s.msghdrZone ∧ ∀ i < msginfo.msgmni, ∀ w ∈ (s.msgque i).msgWaitList, w.addr ≠ n

instance (n : ℕ) (s : State) : Decidable (Unused n s) := inferInstanceAs (Decidable (_ ∧ _))

theorem received_step {p : Pid} {n : ℕ} {s : State} (hp : s.proc p = .running)
    (hn : Unused n s) (hsome : (msgrcv msginfo p fiver true (fiveIo n) s).isSome) :
    Step msginfo s (.msgrcv p fiver (fiveIo n)) (received p n s) := by
  have hpass : passOf s (.msgrcv p fiver (fiveIo n)) = some (p, .rcv fiver, true, fiveIo n) := if_pos hp
  obtain ⟨⟨t, o⟩, hr⟩ := isSome_iff_exists.mp hsome
  have ht : received p n s = t := by
    unfold received
    rw [hr]
    rfl
  rw [ht]
  exact .pass hpass ⟨hn.1, hn.2, nofun⟩ hr

theorem sent_step {p : Pid} {n : ℕ} {s : State} (hp : s.proc p = .running) (hn : Unused n s) :
    Step msginfo s (.msgsnd p five (fiveIo n)) (msgsnd msginfo p five true (fiveIo n) s).1 := by
  have hpass : passOf s (.msgsnd p five (fiveIo n)) = some (p, .snd five, true, fiveIo n) := if_pos hp
  refine .pass hpass ⟨hn.1, hn.2, fun a ha text htext => ?_⟩ rfl
  obtain rfl := Call.snd.inj ha
  obtain rfl := some_inj.mp htext
  decide

/-- A queue, with a receiver. -/
def waited : State := received 1 100 (msgget msginfo ⟨0, 0⟩ 0 0o666 .start).1

theorem waited_steps : Step msginfo .start (.msgget ⟨0, 0⟩ 0 0o666)
      (msgget msginfo ⟨0, 0⟩ 0 0o666 .start).1 ∧
    Step msginfo (msgget msginfo ⟨0, 0⟩ 0 0o666 .start).1 (.msgrcv 1 fiver (fiveIo 100)) waited :=
  ⟨.msgget _ _ _, received_step (by decide +kernel) (by decide +kernel) (by decide +kernel)⟩

/-- One receiver is found. -/
theorem typed_receivers_found_one :
    waited.proc 1 = .asleep ⟨.rcv fiver, .wait 100, 0⟩ ∧ ReceiversFound msginfo waited := by
  have hreach : ((msgSystem msginfo).restrict (OwnElement msginfo)).Reachable waited :=
    .step (.step (.init rfl) ⟨fun _ _ _ _ _ _ => nofun, waited_steps.1⟩)
      ⟨fun _ _ _ _ _ _ => nofun, waited_steps.2⟩
  exact ⟨by decide +kernel, typed_receivers_found msginfo hreach⟩

/-- The receiver is interrupted, and before it runs again its element goes with a message,
which another receiver gets; a third one sleeps on a new element. -/
def signalled : State := waited.setProc 1 (.signalled ⟨.rcv fiver, .wait 100, 0⟩)

def replaced : State := received 4 101 (received 3 101 (msgsnd msginfo 2 five true (fiveIo 7) signalled).1)

/-- The first one takes that for its own. -/
def mistaken : State := interrupted msginfo 1 ⟨.rcv fiver, .wait 100, 0⟩ replaced

/-- The third receiver sleeps on an element that is on no list. -/
theorem typed_receivers_lost : ¬∀ (mi : MsgInfo) (s : State), (msgSystem mi).Reachable s → ReceiversFound mi s := by
  intro hall
  have hwaited : (msgSystem msginfo).Reachable waited := .step (.step (.init rfl) waited_steps.1) waited_steps.2
  have hasleep : waited.proc 1 = .asleep ⟨.rcv fiver, .wait 100, 0⟩ := by decide +kernel
  have hsignalled : (msgSystem msginfo).Reachable signalled := hwaited.step (.signal (.inl hasleep))
  have hsent := sent_step (p := 2) (n := 7) (s := signalled) (by decide +kernel) (by decide +kernel)
  have hreplaced : (msgSystem msginfo).Reachable replaced :=
    ((hsignalled.step hsent).step (received_step (by decide +kernel) (by decide +kernel) (by decide +kernel))).step
      (received_step (by decide +kernel) (by decide +kernel) (by decide +kernel))
  have hp : replaced.proc 1 = .signalled ⟨.rcv fiver, .wait 100, 0⟩ := by decide +kernel
  have hmistaken : (msgSystem msginfo).Reachable mistaken := hreplaced.step (.eintr hp)
  have hlost : mistaken.proc 4 = .asleep ⟨.rcv fiver, .wait 101, 2⟩ := by decide +kernel
  have hempty : ∀ i < msginfo.msgmni, (mistaken.msgque i).msgWaitList = [] := by decide +kernel
  obtain ⟨i, w, hconv, hw, -⟩ := (hall msginfo mistaken hmistaken).listed 4 _ fiver hlost rfl
    (by decide)
  rw [hempty i (msgconv_some hconv).1] at hw
  cases hw

end Osf1.Message
