import Osf1.Delivery.Placing

/-!
# Accounting for a message

A receiver that has got its message takes it off the count of the port, and if a notification has been
promised for it and the capability is still there, it sends the notification.
-/

set_option autoImplicit false

namespace Osf1.Delivery

open Function List

open Osf1.Computation

variable {T : Type} [DecidableEq T] {s s' : State T} {t t' : T} {k e max_size tout n task name : ℕ} {timeout : Bool}
  {o : SendOptions} {r : SendResult} {w : WaitResult}

section Resuming

omit [DecidableEq T] in
theorem stage_notifying (h : s.pc t = .notifying task name k max_size) : s.stage t = some (k, .settled) := by
  unfold State.stage
  rw [h]

omit [DecidableEq T] in
theorem stage_taken (h : s.pc t = .taken k max_size) : s.stage t = some (k, .handed) := by
  unfold State.stage
  rw [h]

theorem Inv.pickUp (h : Inv s) (hpc : s.pc t = .receiving max_size timeout tout)
    (hstate : s.ipc_state t = .RCV_SUCCESS) (hdata : s.ipc_data t = .kmsg k) :
    Inv (s.setPc t (.taken k max_size)) := by
  generalize hs' : s.setPc t (.taken k max_size) = s'
  have hpc' : s'.pc t = .taken k max_size := by
    rw [← hs']
    exact setPc_self ..
  have hstep : ReceiverStep s s' t := by
    subst hs'
    exact .of (alone_of_pc rfl rfl rfl) hpc hpc' trivial trivial rfl
  have hold : s.stage t = some (k, .handed) := by
    unfold State.stage
    rw [hpc, hstate, hdata]
  have hoffice : s'.office = s.office := by
    apply hstep.alone.same_office hold (stage_taken hpc')
    subst hs'
    rfl
  have hfits : (s.kmsg k).msg_size ≤ max_size := by
    rcases h.receivers.finding t max_size timeout tout hpc with ⟨-, hprogress, -⟩ | ⟨-, k', hk', hle⟩ | ⟨hlarge, -⟩
    · rw [hstate] at hprogress
      cases hprogress
    · rw [hdata] at hk'
      cases hk'
      exact hle
    · rw [hstate] at hlarge
      cases hlarge
  have hreceivers : Receivers s' := by
    apply hstep.receivers h (h.receivers.not_asleep _) hpc' nofun
    on_goal 3 =>
      rw [hstate]
      exact nofun
    all_goals subst hs'
    · rfl
    · exact id
  apply hstep.quiet h hpc' nofun _ hoffice hreceivers (l := []) _ nofun
  on_goal 3 =>
    rintro k' max_size' heq
    cases heq
    exact hfits
  all_goals subst hs'
  · rfl
  · rfl
  · exact (append_nil _).symm

theorem Inv.refused (h : Inv s) (hpc : s.pc t = .receiving max_size timeout tout)
    (hstate : s.ipc_state t = .RCV_TOO_LARGE) :
    Inv { s.setPc t .idle with too_large := s.too_large ++ [(max_size, (s.ipc_data t).size)] } := by
  have hlarge : max_size < (s.ipc_data t).size := by
    rcases h.receivers.finding t max_size timeout tout hpc with ⟨-, hprogress, -⟩ | ⟨hsuccess, -⟩ | ⟨-, n, hn, hlt⟩
    · rw [hstate] at hprogress
      cases hprogress
    · rw [hstate] at hsuccess
      cases hsuccess
    · rw [hn]
      exact hlt
  generalize hs' : ({ s.setPc t .idle with
    too_large := s.too_large ++ [(max_size, (s.ipc_data t).size)] } : State T) = s'
  have hpc' : s'.pc t = .idle := by
    rw [← hs']
    exact setPc_self ..
  have hstep : ReceiverStep s s' t := by
    subst hs'
    exact .of (alone_of_pc rfl rfl rfl) hpc hpc' trivial trivial rfl
  have hold : s.stage t = none := by
    unfold State.stage
    rw [hpc, hstate]
  have hoffice : s'.office = s.office := by
    apply hstep.alone.same_office hold (stage_idle hpc')
    subst hs'
    rfl
  have hreceivers : Receivers s' := by
    apply hstep.receivers h (h.receivers.not_asleep _) hpc' nofun
    on_goal 3 =>
      rw [hstate]
      exact nofun
    all_goals subst hs'
    · rfl
    · exact id
  apply hstep.quiet h hpc' nofun nofun hoffice hreceivers (l := [(max_size, (s.ipc_data t).size)])
  all_goals subst hs'
  · rfl
  · rw [forall_mem_singleton]
    exact hlarge
  · rfl
  · rfl

theorem Inv.resume (h : Inv s) (hpc : s.pc t = .receiving max_size timeout tout) (w : WaitResult) :
    Inv (s.resume t max_size timeout tout w) := by
  unfold State.resume
  split
  · rename_i hstate hdata
    exact h.pickUp hpc hstate hdata
  · rename_i hstate
    exact h.refused hpc hstate
  · rename_i hstate
    have hrise := h.rise hpc hstate
    cases w with
    | THREAD_AWAKENED =>
      dsimp only
      rw [← msg_dequeue_setPc _ t .idle]
      exact hrise.msg_dequeue (setPc_self ..) max_size timeout tout
    | THREAD_TIMED_OUT => exact hrise
    | THREAD_INTERRUPTED => exact hrise
  · exact h

end Resuming

section Accounting

theorem wakeup_mem {l : List T} {f : T → IpcState} (h : t ∈ l) : wakeupWaitingSenders l f t = .SEND_SUCCESS := by
  have hkeep : ∀ (l : List T) (f : T → IpcState), f t = .SEND_SUCCESS → wakeupWaitingSenders l f t = .SEND_SUCCESS := by
    intro l
    induction l with
    | nil => exact fun _ hf => hf
    | cons t' l ih =>
      intro f hf
      apply ih
      by_cases ht : t = t'
      · rw [ht, update_self]
      · rw [update_of_ne ht]
        exact hf
  induction l generalizing f with
  | nil => cases h
  | cons t' l ih =>
    rcases mem_cons.mp h with heq | hmem
    · rw [wakeupWaitingSenders, ← heq]
      apply hkeep
      exact update_self t IpcState.SEND_SUCCESS f
    · exact ih hmem

theorem wakeup_other {l : List T} {f : T → IpcState} (h : t ∉ l) : wakeupWaitingSenders l f t = f t := by
  induction l generalizing f with
  | nil => rfl
  | cons t' l ih =>
    have ht : t ≠ t' := fun heq => h (heq ▸ mem_cons_self)
    have hmem : t ∉ l := fun hmem => h (mem_cons_of_mem _ hmem)
    rw [wakeupWaitingSenders, ih hmem, update_of_ne ht]

theorem Inv.wakeAll (h : Inv s) :
    Inv { s with
      ipc_state := wakeupWaitingSenders s.port_blocked_threads s.ipc_state
      port_blocked_threads := [] } := by
  generalize hs' : ({ s with
      ipc_state := wakeupWaitingSenders s.port_blocked_threads s.ipc_state
      port_blocked_threads := [] } : State T) = s'
  have hpcs : s'.pc = s.pc := by
    rw [← hs']
  have hstate : ∀ t, s'.ipc_state t = s.ipc_state t ∨ s.Sending t := by
    intro t
    by_cases hmem : t ∈ s.port_blocked_threads
    · exact .inr (h.senders.asleep t hmem).1
    · left
      rw [← hs']
      exact wakeup_other hmem
  have hstage : s'.stage = s.stage := by
    funext t
    rcases hstate t with hsame | ⟨k, o, tout, hpc⟩
    · apply stage_congr
      · rw [hpcs]
      · exact hsame
      · rw [← hs']
    · unfold State.stage
      rw [hpcs, hpc]
  have hoffice : s'.office = s.office := by
    unfold State.office
    rw [hstage]
    subst hs'
    rfl
  have hkmsg : s'.kmsg = s.kmsg := by
    rw [← hs']
  refine ⟨?_, ?_, ?_, ?_, ?_, ?_, ?_, ?_⟩
  · rw [← hs']
    exact h.in_use
  · rw [hoffice]
    exact h.office
  · apply h.receivers.frame
    · rw [← hs']
    · rw [← hs']
    · intro t k _
      rw [hkmsg]
    · intro t
      rcases hstate t with hsame | ⟨k, o, tout, hpc⟩
      · left
        refine ⟨by rw [hpcs], hsame, ?_⟩
        rw [← hs']
      · right
        exact ⟨not_receiving hpc nofun, not_receiving (hpcs ▸ hpc : s'.pc t = .blocked k o tout) nofun⟩
  · refine ⟨?_, ?_, ?_⟩
    · rw [← hs']
      exact nodup_nil
    · rw [← hs']
      exact nofun
    · intro t hsending
      right
      unfold State.Sending State.Blocked at hsending
      rw [hpcs] at hsending
      rw [← hs']
      rcases h.senders.woken t hsending with hmem | hsuccess
      · exact wakeup_mem hmem
      · by_cases hmem : t ∈ s.port_blocked_threads
        · exact wakeup_mem hmem
        · exact (wakeup_other hmem).trans hsuccess
  · apply h.notices.frame
    · intro k
      rw [hoffice]
    · intro k _
      rw [hkmsg]
    on_goal 5 =>
      intro t task name k max_size hpc
      rw [hpcs] at hpc
      exact hpc
    on_goal 5 =>
      intro t k hblocked
      unfold State.Blocked at hblocked
      rw [hpcs] at hblocked
      exact .inl hblocked
    all_goals
      subst hs'
      rfl
  · apply h.results.frame
    on_goal 6 =>
      intro t k r hpc
      rw [hpcs] at hpc
      exact hpc
    all_goals
      subst hs'
      rfl
  · apply h.sizes.frame
    on_goal 3 =>
      intro k _
      rw [hkmsg]
    on_goal 3 =>
      intro t k max_size hhas
      unfold State.Has at hhas ⊢
      rw [← hpcs]
      exact hhas
    all_goals
      subst hs'
      rfl
  · rw [← hs']
    exact h.admitted

theorem Inv.settle (h : Inv s) (hpc : s.pc t = .taken k max_size) (hnone : (s.kmsg k).sender_entry = none) :
    Inv ({ s with port_message_count := s.port_message_count - 1 }.receive t k max_size) := by
  generalize hs' : { s with port_message_count := s.port_message_count - 1 }.receive t k max_size = s'
  have hpc' : s'.pc t = .idle := by
    rw [← hs']
    exact setPc_self ..
  have hstep : ReceiverStep s s' t := by
    subst hs'
    exact .of (alone_of_pc rfl rfl rfl) hpc hpc' trivial trivial rfl
  have hold := stage_taken hpc
  have hopenk : s.office.Open k := .inr ⟨t, .inr hold⟩
  have howed : ¬(k ∈ s.promised ∧ k ∉ s.dropped) := by
    rw [← h.notices.owed k hopenk, hnone]
    exact fun hne => hne rfl
  have hreceived : s'.received = s.received ++ [(k, max_size)] := by
    rw [← hs']
    rfl
  obtain ⟨f, hf⟩ := h.office
  obtain ⟨hlt, -⟩ := (hf.located.held t k _).mp hold
  have hsound : s'.office.Sound (update (update f k (.held t .settled)) k .received) := by
    have hoffice : s'.office = { ({ s.office.give t (some (k, .settled)) with
          count := s.office.count - 1 } : Office T).give t none with
        received := s.office.received ++ [k]
        notified := if k ∈ s.office.promised ∧ k ∉ s.office.dropped then s.office.notified ++ [k]
          else s.office.notified } := by
      apply hstep.alone.office (stage_idle hpc')
      change _ = ({ s.office with
        has := update (update s.stage t _) t none
        count := s.office.count - 1
        received := s.office.received ++ [k]
        notified := if k ∈ s.promised ∧ k ∉ s.dropped then s.notified ++ [k] else s.notified } : Office T)
      rw [update_idem, if_neg howed]
      unfold State.office
      rw [hreceived, map_append]
      subst hs'
      rfl
    rw [hoffice]
    exact (hf.settle hold).receive (update_self ..)
  rw [update_idem] at hsound
  have hopen := hf.open_move hsound (by subst hs'; rfl) hlt
  apply hstep.inv h ⟨_, hsound⟩
  · apply hstep.receivers h (h.receivers.not_mem hpc nofun) hpc' nofun
    all_goals subst hs'
    · rfl
    · exact id
  · have hother : ∀ k', s'.office.Open k' → s.office.Open k' :=
      fun k' hk' => ((hopen k').mp hk').elim And.right fun hboth => nomatch hboth.2
    apply h.notices.moved_of hstep.alone.pc hpc' nofun hstep.translations
    all_goals subst hs'
    · exact fun k' e hk' => h.notices.link k' e (hother k' hk')
    · intro e k' he hk'
      obtain ⟨hold', hsender⟩ := h.notices.back e k' he hk'
      refine ⟨(hopen k').mpr (.inl ⟨?_, hold'⟩), hsender⟩
      rintro rfl
      rw [hnone] at hsender
      cases hsender
    · exact fun k' hk' => h.notices.owed k' (hother k' hk')
    · exact nofun
    · exact fun _ => id
    · exact fun t' _ k' => h.notices.blocked t' k'
  · apply hstep.sizes h hpc' (m := []) nofun nofun hreceived _ _ nofun
    · rw [forall_mem_singleton]
      exact h.sizes.taken t k max_size (.inl hpc)
    · subst hs'
      exact (append_nil _).symm

theorem Inv.settle_notice (h : Inv s) (hpc : s.pc t = .taken k max_size) (hsender : (s.kmsg k).sender_entry = some e) :
    Inv { s.setPc t (.notifying (s.entry e).task (s.entry e).local_name k max_size) with
      port_message_count := s.port_message_count - 1
      entry := update s.entry e { s.entry e with kmsg := none } } := by
  generalize hs' : ({ s.setPc t (.notifying (s.entry e).task (s.entry e).local_name k max_size) with
      port_message_count := s.port_message_count - 1
      entry := update s.entry e { s.entry e with kmsg := none } } : State T) = s'
  have hpc' : s'.pc t = .notifying (s.entry e).task (s.entry e).local_name k max_size := by
    rw [← hs']
    exact setPc_self ..
  have hstep : ReceiverStep s s' t := by
    subst hs'
    exact .of (alone_of_pc rfl rfl rfl) hpc hpc' trivial trivial rfl
  have hold := stage_taken hpc
  have hopenk : s.office.Open k := .inr ⟨t, .inr hold⟩
  obtain ⟨he, hek⟩ := h.notices.link k e hopenk hsender
  have howed : k ∈ s.promised ∧ k ∉ s.dropped := by
    rw [← h.notices.owed k hopenk, hsender]
    exact nofun
  have hentry : s'.entry = update s.entry e { s.entry e with kmsg := none } := by
    rw [← hs']
  obtain ⟨f, hf⟩ := h.office
  obtain ⟨hlt, -⟩ := (hf.located.held t k _).mp hold
  have hsound : s'.office.Sound (update f k (.held t .settled)) := by
    have hoffice : s'.office = { s.office.give t (some (k, .settled)) with count := s.office.count - 1 } := by
      apply hstep.alone.office (stage_notifying hpc')
      subst hs'
      rfl
    rw [hoffice]
    exact hf.settle hold
  have hopen := hf.open_move hsound (by subst hs'; rfl) hlt
  have hother : ∀ k', s'.office.Open k' → k' ≠ k ∧ s.office.Open k' :=
    fun k' hk' => ((hopen k').mp hk').elim id fun hboth => nomatch hboth.2
  apply hstep.inv h ⟨_, hsound⟩
  · apply hstep.receivers h (h.receivers.not_mem hpc nofun) hpc' nofun
    all_goals subst hs'
    · rfl
    · exact id
  · apply h.notices.moved_of hstep.alone.pc hpc' nofun hstep.translations
    · intro k' e' hk' hsender'
      rw [hstep.kmsg] at hsender'
      obtain ⟨hne, hold'⟩ := hother k' hk'
      obtain ⟨he', hek'⟩ := h.notices.link k' e' hold' hsender'
      have hother : e' ≠ e := by
        rintro rfl
        rw [hek] at hek'
        cases hek'
        exact hne rfl
      rw [hentry, update_of_ne hother]
      exact ⟨he', hek'⟩
    · intro e' k' he' hek'
      rw [hentry] at hek'
      have hother : e' ≠ e := by
        rintro rfl
        rw [update_self] at hek'
        cases hek'
      rw [update_of_ne hother] at hek'
      obtain ⟨hold', hsender'⟩ := h.notices.back e' k' he' hek'
      rw [hstep.kmsg]
      refine ⟨(hopen k').mpr (.inl ⟨?_, hold'⟩), hsender'⟩
      rintro rfl
      rw [hsender] at hsender'
      cases hsender'
      exact hother rfl
    · intro k' hk'
      rw [hstep.kmsg, hstep.promised, hstep.dropped]
      exact h.notices.owed k' (hother k' hk').2
    · rintro task name k' max_size' heq
      cases heq
      rw [hstep.promised, hstep.dropped]
      exact howed
    · intro k'
      rw [hstep.promised, hstep.dropped]
      exact id
    · intro t' _ k'
      rw [hstep.kmsg]
      exact h.notices.blocked t' k'
  · apply hstep.sizes h hpc' (l := []) (m := []) nofun _ _ nofun _ nofun
    · rintro task name k' max_size' heq
      cases heq
      exact h.sizes.taken t k max_size (.inl hpc)
    all_goals
      subst hs'
      exact (append_nil _).symm

theorem Inv.account (h : Inv s) (hpc : s.pc t = .taken k max_size) : Inv (s.account t k max_size) := by
  unfold State.account
  by_cases hzero : s.port_message_count - 1 = 0
  · simp only [if_pos hzero]
    split
    · rename_i hnone
      exact h.wakeAll.settle hpc hnone
    · rename_i e hsender
      exact h.wakeAll.settle_notice hpc hsender
  · simp only [if_neg hzero]
    split
    · rename_i hnone
      exact h.settle hpc hnone
    · rename_i e hsender
      exact h.settle_notice hpc hsender

theorem Inv.notify (h : Inv s) (hpc : s.pc t = .notifying task name k max_size) :
    Inv { s.receive t k max_size with notified := s.notified ++ [k] } := by
  generalize hs' : ({ s.receive t k max_size with notified := s.notified ++ [k] } : State T) = s'
  have hpc' : s'.pc t = .idle := by
    rw [← hs']
    exact setPc_self ..
  have hstep : ReceiverStep s s' t := by
    subst hs'
    exact .of (alone_of_pc rfl rfl rfl) hpc hpc' trivial trivial rfl
  have hold := stage_notifying hpc
  have howed := h.notices.notifying t task name k max_size hpc
  have hreceived : s'.received = s.received ++ [(k, max_size)] := by
    rw [← hs']
    rfl
  obtain ⟨f, hf⟩ := h.office
  obtain ⟨hlt, hplace⟩ := (hf.located.held t k _).mp hold
  have hsound : s'.office.Sound (update f k .received) := by
    have hoffice : s'.office = { s.office.give t none with
        received := s.office.received ++ [k]
        notified := if k ∈ s.office.promised ∧ k ∉ s.office.dropped then s.office.notified ++ [k]
          else s.office.notified } := by
      apply hstep.alone.office (stage_idle hpc')
      have howed' : k ∈ s.office.promised ∧ k ∉ s.office.dropped := howed
      rw [if_pos howed']
      unfold State.office
      rw [hreceived, map_append]
      subst hs'
      rfl
    rw [hoffice]
    exact hf.receive hold
  apply hstep.inv h ⟨_, hsound⟩
  · apply hstep.receivers h (h.receivers.not_mem hpc nofun) hpc' nofun
    all_goals subst hs'
    · rfl
    · exact id
  · apply hstep.notices h hpc' nofun
    · apply hf.open_same hsound _ hlt
      · rw [hplace]
        rfl
      · subst hs'
        rfl
    · subst hs'
      rfl
  · apply hstep.sizes h hpc' (m := []) nofun nofun hreceived _ _ nofun
    · rw [forall_mem_singleton]
      exact h.sizes.taken t k max_size (.inr ⟨task, name, hpc⟩)
    · subst hs'
      exact (append_nil _).symm

end Accounting

section Capabilities

omit [DecidableEq T] in
theorem Inv.insert (h : Inv s) (he : e ∉ s.obj_translations) (task name : ℕ) : Inv (s.obj_entry_insert e task name) := by
  refine ⟨h.in_use, h.office, ?_, ?_, ?_, ?_, ?_, h.admitted⟩
  · exact ⟨h.receivers.nodup, h.receivers.asleep, h.receivers.finding, h.receivers.empty⟩
  · exact ⟨h.senders.nodup, h.senders.asleep, h.senders.woken⟩
  · have hother : ∀ e' ∈ s.obj_translations, e' ≠ e := by
      rintro e' he' rfl
      exact he he'
    have hentry : ∀ e' ≠ e, (s.obj_entry_insert e task name).entry e' = s.entry e' := by
      intro e' hne
      exact update_of_ne hne ..
    refine ⟨Office.nodup_concat h.notices.nodup he, ?_, ?_, h.notices.owed, h.notices.notifying, h.notices.blocked⟩
    · intro k e' hk hsender
      obtain ⟨he', hek⟩ := h.notices.link k e' hk hsender
      rw [hentry e' (hother e' he')]
      exact ⟨mem_append_left _ he', hek⟩
    · intro e' k he' hek
      rcases mem_append.mp he' with hmem | hmem
      · rw [hentry e' (hother e' hmem)] at hek
        exact h.notices.back e' k hmem hek
      · rw [mem_singleton.mp hmem] at hek
        change (update s.entry e _ e).kmsg = some k at hek
        rw [update_self] at hek
        cases hek
  · exact ⟨h.results.returning, h.results.sent⟩
  · exact ⟨h.sizes.taken, h.sizes.received, h.sizes.too_large⟩

omit [DecidableEq T] in
theorem Inv.erase (h : Inv s) (hnone : (s.entry e).kmsg = none) :
    Inv { s with obj_translations := s.obj_translations.erase e } := by
  refine ⟨h.in_use, h.office, ?_, ?_, ?_, ?_, ?_, h.admitted⟩
  · exact ⟨h.receivers.nodup, h.receivers.asleep, h.receivers.finding, h.receivers.empty⟩
  · exact ⟨h.senders.nodup, h.senders.asleep, h.senders.woken⟩
  · refine ⟨h.notices.nodup.erase e, ?_, ?_, h.notices.owed, h.notices.notifying, h.notices.blocked⟩
    · intro k e' hk hsender
      obtain ⟨he', hek⟩ := h.notices.link k e' hk hsender
      refine ⟨(mem_erase_of_ne ?_).mpr he', hek⟩
      rintro rfl
      rw [hnone] at hek
      cases hek
    · intro e' k he' hek
      exact h.notices.back e' k (mem_of_mem_erase he') hek
  · exact ⟨h.results.returning, h.results.sent⟩
  · exact ⟨h.sizes.taken, h.sizes.received, h.sizes.too_large⟩

omit [DecidableEq T] in
theorem Inv.unlink (h : Inv s) (he : e ∈ s.obj_translations) (hsome : (s.entry e).kmsg = some k) :
    Inv { s with
      obj_translations := s.obj_translations.erase e
      kmsg := update s.kmsg k { s.kmsg k with sender_entry := none }
      dropped := s.dropped ++ [k] } := by
  generalize hs' : ({ s with
      obj_translations := s.obj_translations.erase e
      kmsg := update s.kmsg k { s.kmsg k with sender_entry := none }
      dropped := s.dropped ++ [k] } : State T) = s'
  obtain ⟨hopenk, hsenderk⟩ := h.notices.back e k he hsome
  have howed : k ∈ s.promised ∧ k ∉ s.dropped := by
    rw [← h.notices.owed k hopenk, hsenderk]
    exact nofun
  have hkmsg : ∀ k' ≠ k, s'.kmsg k' = s.kmsg k' := by
    intro k' hne
    rw [← hs']
    exact update_of_ne hne ..
  have hnone : (s'.kmsg k).sender_entry = none := by
    rw [← hs']
    dsimp only
    rw [update_self]
  have hsize : ∀ k', (s'.kmsg k').msg_size = (s.kmsg k').msg_size := by
    intro k'
    by_cases heq : k' = k
    · subst heq
      rw [← hs']
      dsimp only
      rw [update_self]
    · rw [hkmsg k' heq]
  have hdropped : s'.dropped = s.dropped ++ [k] := by
    rw [← hs']
  have htranslations : s'.obj_translations = s.obj_translations.erase e := by
    rw [← hs']
  have hpcs : s'.pc = s.pc := by
    rw [← hs']
  have hentry : s'.entry = s.entry := by
    rw [← hs']
  have hpromised : s'.promised = s.promised := by
    rw [← hs']
  have hopen : ∀ k', s'.office.Open k' ↔ s.office.Open k' := by
    intro k'
    rw [← hs']
    exact Iff.rfl
  have hundropped : ∀ k' ≠ k, k' ∉ s'.dropped ↔ k' ∉ s.dropped := by
    intro k' hne
    rw [hdropped, mem_append, mem_singleton]
    simp [hne]
  refine ⟨?_, ?_, ?_, ?_, ?_, ?_, ?_, ?_⟩
  · rw [← hs']
    exact h.in_use
  · obtain ⟨f, hf⟩ := h.office
    refine ⟨f, ?_⟩
    rw [← hs']
    exact hf.drop hopenk howed.1
  · apply h.receivers.frame
    · rw [← hs']
    · rw [← hs']
    · intro t k' _
      exact hsize k'
    · intro t
      left
      subst hs'
      exact ⟨rfl, rfl, rfl⟩
  · rw [← hs']
    exact ⟨h.senders.nodup, h.senders.asleep, h.senders.woken⟩
  · refine ⟨htranslations ▸ h.notices.nodup.erase e, ?_, ?_, ?_, ?_, ?_⟩
    · intro k' e' hk' hsender
      have hne : k' ≠ k := by
        rintro rfl
        rw [hnone] at hsender
        cases hsender
      rw [hkmsg k' hne] at hsender
      obtain ⟨he', hek⟩ := h.notices.link k' e' ((hopen k').mp hk') hsender
      rw [htranslations, hentry]
      refine ⟨(mem_erase_of_ne ?_).mpr he', hek⟩
      rintro rfl
      rw [hsome] at hek
      cases hek
      exact hne rfl
    · intro e' k' he' hek
      rw [htranslations] at he'
      rw [hentry] at hek
      obtain ⟨hk', hsender⟩ := h.notices.back e' k' (mem_of_mem_erase he') hek
      have hne : k' ≠ k := by
        rintro rfl
        rw [hsenderk] at hsender
        cases hsender
        exact (h.notices.nodup.not_mem_erase) he'
      rw [hkmsg k' hne]
      exact ⟨(hopen k').mpr hk', hsender⟩
    · intro k' hk'
      by_cases heq : k' = k
      · subst heq
        rw [hnone, hdropped]
        simp
      · rw [hkmsg k' heq, hpromised, hundropped k' heq]
        exact h.notices.owed k' ((hopen k').mp hk')
    · intro t task name k' max_size hpc
      rw [hpcs] at hpc
      obtain ⟨hmem, hnot⟩ := h.notices.notifying t task name k' max_size hpc
      have hne : k' ≠ k := by
        rintro rfl
        -- a message whose notification is being sent is not on the count
        obtain ⟨f, hf⟩ := h.office
        have hstage := stage_notifying hpc
        rcases hopenk with hqueue | ⟨t', hhas | hhas⟩
        · exact hf.located.not_queued hstage hqueue
        · exact nomatch (hf.located.unique hstage hhas).2
        · exact nomatch (hf.located.unique hstage hhas).2
      rw [hpromised, hundropped k' hne]
      exact ⟨hmem, hnot⟩
    · intro t k' hblocked
      by_cases heq : k' = k
      · rw [heq]
        exact hnone
      · rw [hkmsg k' heq]
        apply h.notices.blocked t k'
        unfold State.Blocked at hblocked ⊢
        rw [← hpcs]
        exact hblocked
  · apply h.results.frame
    on_goal 6 =>
      intro t k' r hpc
      rw [hpcs] at hpc
      exact hpc
    all_goals
      subst hs'
      rfl
  · apply h.sizes.frame
    on_goal 3 =>
      intro k' _
      exact hsize k'
    on_goal 3 =>
      intro t k' max_size hhas
      unfold State.Has at hhas ⊢
      rw [← hpcs]
      exact hhas
    all_goals
      subst hs'
      rfl
  · rw [← hs']
    exact h.admitted

omit [DecidableEq T] in
theorem Inv.remove (h : Inv s) (he : e ∈ s.obj_translations) : Inv (s.obj_entry_remove e) := by
  unfold State.obj_entry_remove
  split
  · rename_i hnone
    exact h.erase hnone
  · rename_i k hsome
    exact h.unlink he hsome

end Capabilities

section Runs

omit [DecidableEq T] in
theorem inv_start (kernel_port : Bool) (port_backlog : ℤ) : Inv (start T kernel_port port_backlog) := by
  refine ⟨rfl, ⟨fun _ => .gone, ?_⟩, ?_, ?_, ?_, ?_, ?_, nofun⟩
  · refine ⟨⟨?_, ?_, ?_⟩, rfl, rfl, ?_, nodup_nil, nodup_nil, nofun, nofun, ?_, nodup_nil⟩
    · intro t k g
      exact ⟨nofun, fun hlt => absurd hlt.1 (Nat.not_lt_zero k)⟩
    · intro k
      exact ⟨nofun, fun hlt => absurd hlt.1 (Nat.not_lt_zero k)⟩
    · intro k
      exact ⟨nofun, fun hlt => absurd hlt.1 (Nat.not_lt_zero k)⟩
    · intro k
      exact ⟨nofun, fun hlt => absurd hlt.1 (Nat.not_lt_zero k)⟩
    · intro k
      exact ⟨nofun, fun hmem => nomatch hmem.1⟩
  · exact ⟨nodup_nil, nofun, nofun, fun _ => rfl⟩
  · refine ⟨nodup_nil, nofun, ?_⟩
    rintro t ⟨k, o, tout, hpc⟩
    cases hpc
  · refine ⟨nodup_nil, nofun, nofun, ?_, nofun, ?_⟩
    · rintro k (hmem | ⟨t, hhas | hhas⟩)
      · cases hmem
      · cases hhas
      · cases hhas
    · rintro t k ⟨o, tout, hpc⟩
      cases hpc
  · refine ⟨?_, nofun⟩
    rintro t k r (hpc | hpc)
    · cases hpc
    · cases hpc
  · refine ⟨?_, nofun, nofun⟩
    rintro t k max_size (hpc | ⟨task, name, hpc⟩)
    · cases hpc
    · cases hpc

variable {task : T → ℕ}

theorem step_rule {x : Event T} {P : State T → Prop} (hstep : step task s x = some s')
    (hsend : ∀ t msg_size sender_entry o tout, s.pc t = .idle →
      P { s.setPc t (.queueing s.made o tout) with
        kmsg := update s.kmsg s.made ⟨msg_size, sender_entry⟩
        made := s.made + 1 })
    (hstart : ∀ t k o tout found aborted, s.pc t = .queueing k o tout → s.Finds (task t) found →
      P (s.msg_queue t k o tout found aborted))
    (hawake : ∀ t k o tout found w, s.pc t = .blocked k o tout → s.Finds (task t) found →
      P (s.awake t k o tout found w))
    (hpass : ∀ t k r, s.pc t = .counted k r →
      P { s.setPc t (.placing k r) with port_lock := none, queue_lock := some t })
    (hplace : ∀ t k r, s.pc t = .placing k r →
      P { (s.place k s.blocked_threads).setPc t .idle with
        queue_lock := none
        placed := s.placed ++ [k]
        sent := s.sent ++ [(k, r)] })
    (hreceive : ∀ t max_size timeout tout, s.pc t = .idle → P (s.msg_dequeue t max_size timeout tout))
    (hresume : ∀ t max_size timeout tout w, s.pc t = .receiving max_size timeout tout →
      P (s.resume t max_size timeout tout w))
    (haccount : ∀ t k max_size, s.pc t = .taken k max_size → P (s.account t k max_size))
    (hnotify : ∀ t task name k max_size, s.pc t = .notifying task name k max_size →
      P { s.receive t k max_size with notified := s.notified ++ [k] })
    (hinsert : ∀ e task name, e ∉ s.obj_translations → P (s.obj_entry_insert e task name))
    (hremove : ∀ e, e ∈ s.obj_translations → P (s.obj_entry_remove e)) : P s' := by
  cases x
  all_goals
    simp only [step] at hstep
    split at hstep
  all_goals try split at hstep
  all_goals cases hstep
  · exact hsend _ _ _ _ _ ‹_›
  · exact hstart _ _ _ _ _ _ ‹_› (‹_ ∧ s.Finds _ _›).2
  · exact hawake _ _ _ _ _ _ ‹_› (‹_ ∧ s.Finds _ _ ∧ _›).2.1
  · exact hpass _ _ _ ‹_›
  · exact hplace _ _ _ ‹_›
  · exact hreceive _ _ _ _ (‹_ ∧ s.queue_lock = none›).1
  · exact hresume _ _ _ _ _ ‹_›
  · exact haccount _ _ _ ‹_›
  · exact hnotify _ _ _ _ _ ‹_›
  · exact hinsert _ _ _ (‹_ ∧ _ ∉ _›).2
  · exact hremove _ (‹_ ∧ _ ∈ _›).2

theorem inv_step {x : Event T} (h : Inv s) (hstep : step task s x = some s') : Inv s' := by
  apply step_rule hstep
  · exact fun t msg_size sender_entry o tout hidle => h.send hidle msg_size sender_entry o tout
  · exact fun t k o tout found aborted hpc hfinds => h.msg_queue hpc hfinds aborted
  · exact fun t k o tout found w hpc hfinds => h.awake hpc hfinds w
  · exact fun t k r hpc => h.pass hpc
  · exact fun t k r hpc => h.place hpc
  · exact fun t max_size timeout tout hidle => h.msg_dequeue hidle max_size timeout tout
  · exact fun t max_size timeout tout w hpc => h.resume hpc w
  · exact fun t k max_size hpc => h.account hpc
  · exact fun t task name k max_size hpc => h.notify hpc
  · exact fun e task name hfree => h.insert hfree task name
  · exact fun e he => h.remove he

end Runs

end Osf1.Delivery
