import Osf1.Delivery.Accounting

/-!
# What is delivered

In every run of `msg_queue` and `msg_dequeue` on one port, a message that has been sent is queued or has been
got by one receiver, the receivers get the messages in the order of the queue, the count of the port is right,
and every notification that is owed is sent once.
-/

set_option autoImplicit false

namespace Osf1.Delivery

open Function

open Osf1.Computation

variable {T : Type} {s s' : State T} {t : T} {k : ℕ}

section Statements

/-- A receiver has got the message, and is going to return it. -/
def State.Handed (s : State T) (t : T) (k : ℕ) : Prop :=
  s.Receiving t ∧ s.ipc_state t = .RCV_SUCCESS ∧ s.ipc_data t = .kmsg k ∨ ∃ max_size, s.Has t k max_size

/-- How often the message is in the queue, in the hands of a receiver, or returned: once in all. -/
structure State.Once (s : State T) (k : ℕ) : Prop where
  somewhere : k ∈ s.messages ∨ (∃ t, s.Handed t k) ∨ k ∈ s.received.map Prod.fst
  queued : s.messages.count k ≤ 1
  handed : ∀ t t', s.Handed t k → s.Handed t' k → t = t'
  received : (s.received.map Prod.fst).count k ≤ 1
  queued_only : k ∈ s.messages → (∀ t, ¬s.Handed t k) ∧ k ∉ s.received.map Prod.fst
  handed_only : (∃ t, s.Handed t k) → k ∉ s.received.map Prod.fst

/-- The message is queued or is being put into the queue, or it has been handed over and not been accounted
for. -/
def State.OnCount (s : State T) (k : ℕ) : Prop :=
  k ∈ s.messages ∨ (∃ t r, s.pc t = .counted k r ∨ s.pc t = .placing k r) ∨
  (∃ t, s.Receiving t ∧ s.ipc_state t = .RCV_SUCCESS ∧ s.ipc_data t = .kmsg k) ∨
  ∃ t max_size, s.pc t = .taken k max_size

/-- What holds in every state. -/
structure Delivered (s : State T) : Prop where
  once : ∀ x ∈ s.sent, x.2 = .SEND_SUCCESS ∨ x.2 = .SEND_WILL_NOTIFY →
    s.Once x.1 ∨ s.kernel_port = true ∧ x.1 ∈ s.served ∧ x.2 = .SEND_SUCCESS
  order : s.placed = s.reached ++ s.messages
  reached : ∀ k, k ∈ s.reached ↔ (∃ t, s.Handed t k) ∨ k ∈ s.received.map Prod.fst
  fits : ∀ x ∈ s.received, (s.kmsg x.1).msg_size ≤ x.2
  too_large : ∀ x ∈ s.too_large, x.1 < x.2
  count : ∃ l : List ℕ, l.Nodup ∧ (∀ k, k ∈ l ↔ s.OnCount k) ∧ s.port_message_count = l.length
  backlog : ∀ x ∈ s.admitted, x.1.always = true ∨ x.1.notify = true ∨ x.2 < s.port_backlog
  promised : ∀ x ∈ s.sent, x.2 = .SEND_WILL_NOTIFY → x.1 ∈ s.promised
  notified : ∀ k, k ∈ s.notified ↔ k ∈ s.received.map Prod.fst ∧ k ∈ s.promised ∧ k ∉ s.dropped
  notifiedOnce : s.notified.Nodup
  /-- A notification has been called off when its capability is gone. -/
  dropped : ∀ k, s.OnCount k → k ∈ s.promised →
    (k ∉ s.dropped ↔ ∃ e ∈ s.obj_translations, (s.entry e).kmsg = some k)

/-- When a receiver is told that a message is too large, nothing happens to the messages. -/
def Refuses (s s' : State T) : Prop :=
  s'.too_large ≠ s.too_large → s'.messages = s.messages ∧ s'.reached = s.reached ∧ s'.received = s.received ∧
    s'.port_message_count = s.port_message_count

/-- A message may be counted. -/
def State.Admits (s : State T) (o : SendOptions) : Prop :=
  o.always = true ∨ o.notify = true ∨ s.port_message_count < s.port_backlog

/-- A thread counts its message only when it may be counted. -/
def Counts (s s' : State T) : Prop :=
  ∀ t k o tout r, s.pc t = .queueing k o tout ∨ s.pc t = .blocked k o tout → s'.pc t = .counted k r → s.Admits o

end Statements

section States

theorem handed_iff (s : State T) (t : T) (k : ℕ) :
    s.Handed t k ↔ s.stage t = some (k, .handed) ∨ s.stage t = some (k, .settled) := by
  constructor
  · rintro (⟨⟨max_size, timeout, tout, hpc⟩, hstate, hdata⟩ | ⟨max_size, hpc | ⟨task, name, hpc⟩⟩)
    · left
      unfold State.stage
      rw [hpc, hstate, hdata]
    · exact .inl (stage_taken hpc)
    · exact .inr (stage_notifying hpc)
  · intro hstage
    unfold State.stage at hstage
    cases hpc : s.pc t with
    | idle => simp [hpc] at hstage
    | queueing k' o tout => simp [hpc] at hstage
    | blocked k' o tout => simp [hpc] at hstage
    | counted k' r => simp [hpc] at hstage
    | placing k' r => simp [hpc] at hstage
    | receiving max_size timeout tout =>
      left
      simp only [hpc] at hstage
      refine ⟨⟨max_size, timeout, tout, hpc⟩, ?_⟩
      split at hstage
      · rename_i hstate hdata
        simp only [Option.some.injEq, Prod.mk.injEq, and_true, reduceCtorEq, and_false, or_false] at hstage
        rw [← hstage]
        exact ⟨hstate, hdata⟩
      · simp at hstage
    | taken k' max_size =>
      right
      simp [hpc] at hstage
      exact ⟨max_size, .inl (hstage ▸ hpc)⟩
    | notifying task name k' max_size =>
      right
      simp [hpc] at hstage
      exact ⟨max_size, .inr ⟨task, name, hstage ▸ hpc⟩⟩

theorem onCount_iff (s : State T) (k : ℕ) : s.OnCount k ↔ s.office.Open k := by
  constructor
  · rintro (hmem | ⟨t, r, hpc | hpc⟩ | ⟨t, ⟨max_size, timeout, tout, hpc⟩, hstate, hdata⟩ | ⟨t, max_size, hpc⟩)
    · exact .inl hmem
    · right
      refine ⟨t, .inl ?_⟩
      change s.stage t = _
      unfold State.stage
      rw [hpc]
    · exact .inr ⟨t, .inl (stage_placing hpc)⟩
    · right
      refine ⟨t, .inr ?_⟩
      change s.stage t = _
      unfold State.stage
      rw [hpc, hstate, hdata]
    · exact .inr ⟨t, .inr (stage_taken hpc)⟩
  · rintro (hmem | ⟨t, hstage⟩)
    · exact .inl hmem
    · right
      change s.stage t = _ ∨ s.stage t = _ at hstage
      unfold State.stage at hstage
      cases hpc : s.pc t with
      | idle => simp [hpc] at hstage
      | queueing k' o tout => simp [hpc] at hstage
      | blocked k' o tout => simp [hpc] at hstage
      | counted k' r =>
        left
        simp [hpc] at hstage
        exact ⟨t, r, .inl (hstage ▸ hpc)⟩
      | placing k' r =>
        left
        simp [hpc] at hstage
        exact ⟨t, r, .inr (hstage ▸ hpc)⟩
      | receiving max_size timeout tout =>
        right
        left
        simp only [hpc] at hstage
        refine ⟨t, ⟨max_size, timeout, tout, hpc⟩, ?_⟩
        split at hstage
        · rename_i hstate hdata
          simp only [Option.some.injEq, Prod.mk.injEq, and_true, reduceCtorEq, and_false, false_or] at hstage
          rw [← hstage]
          exact ⟨hstate, hdata⟩
        · simp at hstage
      | taken k' max_size =>
        right
        right
        simp [hpc] at hstage
        exact ⟨t, max_size, hstage ▸ hpc⟩
      | notifying task name k' max_size => simp [hpc] at hstage

theorem Inv.once (h : Inv s) (hk : k ∈ s.placed) : s.Once k := by
  obtain ⟨f, hf⟩ := h.office
  have hnodup := hf.nodup
  rw [hf.order] at hnodup
  have hqueue : ∀ t, s.Handed t k → k ∉ s.messages := by
    intro t hhanded
    rcases (handed_iff s t k).mp hhanded with hhas | hhas
    · exact hf.located.not_queued hhas
    · exact hf.located.not_queued hhas
  have hreceived : ∀ t, s.Handed t k → k ∉ s.received.map Prod.fst := by
    intro t hhanded
    rcases (handed_iff s t k).mp hhanded with hhas | hhas
    · exact hf.located.not_received hhas
    · exact hf.located.not_received hhas
  refine ⟨?_, ?_, ?_, ?_, ?_, ?_⟩
  · rcases hf.arrived_at hk with hmem | ⟨t, hhas⟩ | hmem
    · exact .inl hmem
    · exact .inr (.inl ⟨t, (handed_iff s t k).mpr hhas⟩)
    · exact .inr (.inr hmem)
  · exact List.nodup_iff_count_le_one.mp (List.nodup_append.mp hnodup).2.1 k
  · intro t t' hhanded hhanded'
    rcases (handed_iff s t k).mp hhanded with hhas | hhas
    · rcases (handed_iff s t' k).mp hhanded' with hhas' | hhas'
      · exact ((hf.located.unique hhas hhas').1).symm
      · exact ((hf.located.unique hhas hhas').1).symm
    · rcases (handed_iff s t' k).mp hhanded' with hhas' | hhas'
      · exact ((hf.located.unique hhas hhas').1).symm
      · exact ((hf.located.unique hhas hhas').1).symm
  · exact List.nodup_iff_count_le_one.mp hf.once k
  · intro hmem
    exact ⟨fun t hhanded => hqueue t hhanded hmem, hf.queue_not_received hmem⟩
  · rintro ⟨t, hhanded⟩
    exact hreceived t hhanded

theorem Inv.delivered (h : Inv s) : Delivered s := by
  obtain ⟨f, hf⟩ := h.office
  refine ⟨?_, hf.order, ?_, h.sizes.received, h.sizes.too_large, ?_, h.admitted, ?_, hf.notified, hf.noticeOnce, ?_⟩
  · intro x hx hr
    rcases h.results.sent x hx hr with ⟨hplaced, -⟩ | hserved
    · exact .inl (h.once hplaced)
    · exact .inr hserved
  · intro k
    simp only [handed_iff]
    exact hf.reached_iff k
  · obtain ⟨l, hnodup, hmem, hlength⟩ := hf.count_length
    refine ⟨l, hnodup, ?_, hlength⟩
    intro k
    rw [hmem, onCount_iff]
  · intro x hx hr
    rcases h.results.sent x hx (.inr hr) with ⟨-, ⟨-, hpromised⟩ | ⟨hsuccess, -⟩⟩ | ⟨-, -, hsuccess⟩
    · exact hpromised
    · rw [hr] at hsuccess
      cases hsuccess
    · rw [hr] at hsuccess
      cases hsuccess
  · intro k hk hpromised
    have hopen := (onCount_iff s k).mp hk
    have howed := h.notices.owed k hopen
    constructor
    · intro hdropped
      obtain ⟨e, he⟩ := Option.ne_none_iff_exists'.mp (howed.mpr ⟨hpromised, hdropped⟩)
      exact ⟨e, h.notices.link k e hopen he⟩
    · rintro ⟨e, he, hek⟩
      have hsender := (h.notices.back e k he hek).2
      apply (howed.mp _).2
      rw [hsender]
      exact nofun

end States

section Steps

variable [DecidableEq T] {task : T → ℕ} {x : Event T} {p : Pc} {t' : T}

omit [DecidableEq T] in
theorem Refuses.of_same (h : s'.too_large = s.too_large) : Refuses s s' := fun hne => absurd h hne

theorem Counts.of_update (hpc : s'.pc = update s.pc t' p)
    (hp : ∀ k o tout r, s.pc t' = .queueing k o tout ∨ s.pc t' = .blocked k o tout → p = .counted k r → s.Admits o) :
    Counts s s' := by
  intro t k o tout r hold hnew
  rw [hpc] at hnew
  by_cases ht : t = t'
  · subst ht
    rw [update_self] at hnew
    exact hp k o tout r hold hnew
  · rw [update_of_ne ht] at hnew
    rcases hold with hold | hold
    · rw [hold] at hnew
      cases hnew
    · rw [hold] at hnew
      cases hnew

theorem Counts.of_other (hpc : s'.pc = update s.pc t' p) (hp : ∀ k r, p ≠ .counted k r) : Counts s s' :=
  .of_update hpc fun k _ _ r _ heq => absurd heq (hp k r)

omit [DecidableEq T] in
theorem Counts.of_same (hpc : s'.pc = s.pc) : Counts s s' := by
  intro t k o tout r hold hnew
  rw [hpc] at hnew
  rcases hold with hold | hold
  · rw [hold] at hnew
    cases hnew
  · rw [hold] at hnew
    cases hnew

theorem count_frame (s : State T) (t : T) (k : ℕ) (o : SendOptions) (r : SendResult) :
    (s.count t k o r).too_large = s.too_large ∧ ∃ p, (s.count t k o r).pc = update s.pc t p := by
  unfold State.count
  split
  · exact ⟨rfl, _, rfl⟩
  · exact ⟨rfl, _, rfl⟩

theorem obeyBacklog_frame (s : State T) (t : T) (k : ℕ) (o : SendOptions) (tout : ℕ) (found : Option ℕ) :
    (s.obeyBacklog t k o tout found).too_large = s.too_large ∧
    ∃ p, (s.obeyBacklog t k o tout found).pc = update s.pc t p ∧
      ∀ k r, p = .counted k r → s.Admits o := by
  unfold State.obeyBacklog
  by_cases hbelow : s.port_message_count < s.port_backlog ∨ o.always = true
  · obtain ⟨hlarge, p, hpc⟩ := count_frame s t k o .SEND_SUCCESS
    rw [if_pos hbelow]
    refine ⟨hlarge, p, hpc, fun _ _ _ => ?_⟩
    rcases hbelow with hbelow | halways
    · exact .inr (.inr hbelow)
    · exact .inl halways
  · rw [if_neg hbelow]
    by_cases hin : (!s.port_in_use) = true
    · rw [if_pos hin]
      exact ⟨rfl, .idle, rfl, nofun⟩
    rw [if_neg hin]
    generalize (if o.timeout = true then tout else 0) = tout
    by_cases htime : tout ≠ 0
    · rw [if_pos htime]
      exact ⟨rfl, .blocked k o tout, rfl, nofun⟩
    rw [if_neg htime]
    by_cases hnotify : o.notify = true
    · rw [if_pos hnotify]
      cases found with
      | none => exact ⟨rfl, .idle, rfl, nofun⟩
      | some e =>
        dsimp only
        by_cases hbusy : (s.entry e).kmsg ≠ none
        · rw [if_pos hbusy]
          exact ⟨rfl, .idle, rfl, nofun⟩
        · obtain ⟨hlarge, p, hpc⟩ := count_frame (s.promise e k) t k o .SEND_WILL_NOTIFY
          rw [if_neg hbusy]
          exact ⟨hlarge, p, hpc, fun _ _ _ => .inr (.inl hnotify)⟩
    rw [if_neg hnotify]
    by_cases htimeout : o.timeout = true
    · rw [if_pos htimeout]
      exact ⟨rfl, .idle, rfl, nofun⟩
    · rw [if_neg htimeout]
      exact ⟨rfl, .blocked k o tout, rfl, nofun⟩

theorem place_frame (s : State T) (k : ℕ) (l : List T) :
    (s.place k l).too_large = s.too_large ∧ (s.place k l).pc = s.pc := by
  induction l generalizing s with
  | nil => exact ⟨rfl, rfl⟩
  | cons t l ih =>
    rw [State.place]
    split
    · exact ⟨rfl, rfl⟩
    · exact ih _

theorem msg_dequeue_frame (s : State T) (t : T) (max_size : ℕ) (timeout : Bool) (tout : ℕ) :
    Refuses s (s.msg_dequeue t max_size timeout tout) ∧
    ∃ p, (s.msg_dequeue t max_size timeout tout).pc = update s.pc t p ∧ ∀ k r, p ≠ .counted k r := by
  unfold State.msg_dequeue
  split
  · split
    · exact ⟨fun _ => ⟨rfl, rfl, rfl, rfl⟩, _, rfl, nofun⟩
    · exact ⟨.of_same rfl, _, rfl, nofun⟩
  · dsimp only
    split
    · exact ⟨.of_same rfl, _, rfl, nofun⟩
    · exact ⟨.of_same rfl, _, rfl, nofun⟩

theorem resume_frame (s : State T) (t : T) (max_size : ℕ) (timeout : Bool) (tout : ℕ) (w : WaitResult) :
    Refuses s (s.resume t max_size timeout tout w) ∧ Counts s (s.resume t max_size timeout tout w) := by
  unfold State.resume
  split
  · exact ⟨.of_same rfl, .of_other (p := .taken _ _) rfl nofun⟩
  · exact ⟨fun _ => ⟨rfl, rfl, rfl, rfl⟩, .of_other (p := .idle) rfl nofun⟩
  · cases w with
    | THREAD_AWAKENED =>
      obtain ⟨hrefuses, p, hpc, hp⟩ := msg_dequeue_frame { s with blocked_threads := s.blocked_threads.erase t }
        t max_size timeout tout
      exact ⟨hrefuses, .of_other hpc hp⟩
    | THREAD_TIMED_OUT => exact ⟨.of_same rfl, .of_other (p := .idle) rfl nofun⟩
    | THREAD_INTERRUPTED => exact ⟨.of_same rfl, .of_other (p := .idle) rfl nofun⟩
  · exact ⟨.of_same rfl, .of_same rfl⟩

theorem account_frame (s : State T) (t : T) (k max_size : ℕ) : (s.account t k max_size).too_large = s.too_large ∧
    ∃ p, (s.account t k max_size).pc = update s.pc t p ∧ ∀ k r, p ≠ .counted k r := by
  unfold State.account
  by_cases hzero : s.port_message_count - 1 = 0
  · simp only [if_pos hzero]
    split
    · exact ⟨rfl, _, rfl, by rintro _ _ ⟨⟩⟩
    · exact ⟨rfl, _, rfl, by rintro _ _ ⟨⟩⟩
  · simp only [if_neg hzero]
    split
    · exact ⟨rfl, _, rfl, by rintro _ _ ⟨⟩⟩
    · exact ⟨rfl, _, rfl, by rintro _ _ ⟨⟩⟩

theorem msg_queue_frame (s : State T) (t : T) (k : ℕ) (o : SendOptions) (tout : ℕ) (found : Option ℕ) (aborted : Bool) :
    (s.msg_queue t k o tout found aborted).too_large = s.too_large ∧
    ∃ p, (s.msg_queue t k o tout found aborted).pc = update s.pc t p ∧
      ∀ k r, p = .counted k r → s.Admits o := by
  unfold State.msg_queue
  split
  · exact ⟨rfl, _, rfl, nofun⟩
  · exact obeyBacklog_frame
      { s with kmsg := update s.kmsg k { s.kmsg k with sender_entry := none } } t k o tout found

theorem awake_frame (s : State T) (t : T) (k : ℕ) (o : SendOptions) (tout : ℕ) (found : Option ℕ) (w : WaitResult) :
    (s.awake t k o tout found w).too_large = s.too_large ∧
    ∃ p, (s.awake t k o tout found w).pc = update s.pc t p ∧ ∀ k r, p = .counted k r → s.Admits o := by
  unfold State.awake
  split
  · exact obeyBacklog_frame s t k o tout found
  · cases w with
    | THREAD_AWAKENED =>
      exact obeyBacklog_frame { s with port_blocked_threads := s.port_blocked_threads.erase t } t k o tout found
    | THREAD_TIMED_OUT =>
      exact obeyBacklog_frame { s with port_blocked_threads := s.port_blocked_threads.erase t } t k o 0 found
    | THREAD_INTERRUPTED => exact ⟨rfl, _, rfl, nofun⟩

theorem step_frame (hstep : step task s x = some s') : Refuses s s' ∧ Counts s s' := by
  apply step_rule (P := fun s' => Refuses s s' ∧ Counts s s') hstep
  · exact fun t msg_size sender_entry o tout _ => ⟨.of_same rfl, .of_other (p := .queueing _ _ _) rfl nofun⟩
  · intro t k o tout found aborted hold _
    obtain ⟨hlarge, p, hpc, hp⟩ := msg_queue_frame s t k o tout found aborted
    refine ⟨.of_same hlarge, .of_update hpc ?_⟩
    intro k' o' tout' r hold' heq
    have hadmits := hp k' r heq
    rw [hold] at hold'
    rcases hold' with hold' | hold'
    · cases hold'
      exact hadmits
    · cases hold'
  · intro t k o tout found w hold _
    obtain ⟨hlarge, p, hpc, hp⟩ := awake_frame s t k o tout found w
    refine ⟨.of_same hlarge, .of_update hpc ?_⟩
    intro k' o' tout' r hold' heq
    have hadmits := hp k' r heq
    rw [hold] at hold'
    rcases hold' with hold' | hold'
    · cases hold'
    · cases hold'
      exact hadmits
  · exact fun t k r _ => ⟨.of_same rfl, .of_other (p := .placing _ _) rfl nofun⟩
  · intro t k r _
    obtain ⟨hlarge, hpc⟩ := place_frame s k s.blocked_threads
    have hidle : ((s.place k s.blocked_threads).setPc t .idle).pc = update s.pc t .idle := by
      rw [← hpc]
      rfl
    exact ⟨.of_same hlarge, .of_other hidle nofun⟩
  · intro t max_size timeout tout _
    obtain ⟨hrefuses, p, hpc, hp⟩ := msg_dequeue_frame s t max_size timeout tout
    exact ⟨hrefuses, .of_other hpc hp⟩
  · exact fun t max_size timeout tout w _ => resume_frame s t max_size timeout tout w
  · intro t k max_size _
    obtain ⟨hlarge, p, hpc, hp⟩ := account_frame s t k max_size
    exact ⟨.of_same hlarge, .of_other hpc hp⟩
  · exact fun t task name k max_size _ => ⟨.of_same rfl, .of_other (p := .idle) rfl nofun⟩
  · exact fun e task name _ => ⟨.of_same rfl, .of_same rfl⟩
  · intro e _
    unfold State.obj_entry_remove
    split
    · exact ⟨.of_same rfl, .of_same rfl⟩
    · exact ⟨.of_same rfl, .of_same rfl⟩

end Steps

section Delivering

variable [DecidableEq T]

theorem inv_of_reachable {task : T → ℕ} {kernel_port : Bool} {port_backlog : ℤ}
    (h : (system task kernel_port port_backlog).Reachable s) : Inv s := by
  apply h.invariant
  · rintro s rfl
    exact inv_start kernel_port port_backlog
  · intro s x s' _ hs hstep
    exact inv_step hs hstep

/-- What has been sent is delivered once and in order, and counted and announced as it should be. -/
theorem messages_delivered {task : T → ℕ} {kernel_port : Bool} {port_backlog : ℤ}
    (h : (system task kernel_port port_backlog).Reachable s) :
    Delivered s ∧ ∀ x s', step task s x = some s' → Refuses s s' ∧ Counts s s' :=
  ⟨(inv_of_reachable h).delivered, fun _ _ => step_frame⟩

/-- A run in which a notification is promised and sent. -/
theorem messages_delivered_notify :
    ∃ s : State Bool, (system (fun _ => 0) false 0).Reachable s ∧ Delivered s ∧
      s.sent = [(0, .SEND_WILL_NOTIFY)] ∧ s.received = [(0, 8)] ∧ s.notified = [0] := by
  have hrun : ∃ s : State Bool,
      System.runFrom (step fun _ => 0) (start Bool false 0)
        [.insert 0 0 5, .send true 8 none ⟨false, true, true⟩ 0, .start true (some 0) false, .pass true, .place true,
          .receive false 8 false 0, .account false, .notify false] = some s ∧
      s.sent = [(0, .SEND_WILL_NOTIFY)] ∧ s.received = [(0, 8)] ∧ s.notified = [0] := ⟨_, rfl, rfl, rfl, rfl⟩
  obtain ⟨s, hs, hsent, hreceived, hnotified⟩ := hrun
  have hreach := System.reachable_of_runFrom hs
  exact ⟨s, hreach, (messages_delivered hreach).1, hsent, hreceived, hnotified⟩

/-- A message to a port of the kernel has been sent, but it is not queued and no receiver ever gets it. -/
theorem kernel_message_not_queued :
    ¬∀ (kernel_port : Bool) (s : State Bool), (system (fun _ => 0) kernel_port 5).Reachable s →
      ∀ x ∈ s.sent, x.2 = .SEND_SUCCESS → s.Once x.1 := by
  intro hall
  have hrun : ∃ s : State Bool,
      System.runFrom (step fun _ => 0) (start Bool true 5)
        [.send true 8 none ⟨false, false, false⟩ 0, .start true none false] = some s ∧
      s.sent = [(0, .SEND_SUCCESS)] ∧ s.messages = [] ∧ (∀ t, s.pc t = .idle) ∧ s.received = [] :=
    ⟨_, rfl, rfl, rfl, by decide, rfl⟩
  obtain ⟨s, hs, hsent, hmessages, hidle, hreceived⟩ := hrun
  have honce := hall true s (System.reachable_of_runFrom hs) (0, .SEND_SUCCESS) (by simp [hsent]) rfl
  rcases honce.somewhere with hmem | ⟨t, ⟨⟨max_size, timeout, tout, hpc⟩, -⟩ | ⟨max_size, hpc | ⟨task, name, hpc⟩⟩⟩ | hmem
  · simp [hmessages] at hmem
  · simp [hidle] at hpc
  · simp [hidle] at hpc
  · simp [hidle] at hpc
  · simp [hreceived] at hmem

end Delivering

end Osf1.Delivery
