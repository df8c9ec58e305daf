import Osf1.Delivery.Model

/-!
# Sending a message

What `msg_queue` does up to the point where a message has been counted.
-/

set_option autoImplicit false

namespace Osf1.Delivery

open Function List

open Osf1.Computation

variable {T : Type} {s s' : State T} {t t' : T} {k e max_size tout : ℕ} {timeout : Bool}
  {o : SendOptions} {r : SendResult} {p : Pc} {task : ℕ} {found : Option ℕ} {w : WaitResult}

section Threads

theorem Inv.known (h : Inv s) (hk : (∃ t g, s.stage t = some (k, g)) ∨ k ∈ s.office.received) : k < s.made := by
  obtain ⟨f, hf⟩ := h.office
  rcases hk with ⟨t, g, hstage⟩ | hmem
  · exact ((hf.located.held t k g).mp hstage).1
  · exact ((hf.located.received k).mp hmem).1

theorem Inv.blocked_lt (h : Inv s) (hk : s.Blocked t k) : k < s.made := by
  obtain ⟨o, tout, hpc⟩ := hk
  apply h.known
  left
  refine ⟨t, .offered, ?_⟩
  unfold State.stage
  rw [hpc]

theorem Inv.open_lt (h : Inv s) (hk : s.office.Open k) : k < s.made := by
  obtain ⟨f, hf⟩ := h.office
  rcases hk with hmem | ⟨t, hstage | hstage⟩
  · exact ((hf.located.queue k).mp hmem).1
  · exact ((hf.located.held t k _).mp hstage).1
  · exact ((hf.located.held t k _).mp hstage).1

/-- A thread is not in `msg_dequeue`. -/
def Pc.Sends : Pc → Prop
  | .receiving _ _ _ => False
  | .taken _ _ => False
  | .notifying _ _ _ _ => False
  | _ => True

theorem Pc.Sends.not_receiving (h : (s.pc t).Sends) : ¬s.Receiving t := by
  rintro ⟨max_size, timeout, tout, hpc⟩
  rw [hpc] at h
  exact h

theorem Pc.Sends.not_has (h : (s.pc t).Sends) : ¬s.Has t k max_size := by
  rintro (hpc | ⟨task, name, hpc⟩)
  · rw [hpc] at h
    exact h
  · rw [hpc] at h
    exact h

/-- One thread goes on that is not in `msg_dequeue`. -/
structure SenderStep (s s' : State T) (t : T) : Prop where
  alone : Alone s s' t
  old : (s.pc t).Sends
  new : (s'.pc t).Sends
  in_use : s'.port_in_use = s.port_in_use
  backlog : s'.port_backlog = s.port_backlog
  kernel : s'.kernel_port = s.kernel_port
  blocked : s'.blocked_threads = s.blocked_threads
  messages : s'.messages = s.messages
  received : s'.received = s.received
  too_large : s'.too_large = s.too_large
  placed : s'.placed = s.placed
  translations : s'.obj_translations = s.obj_translations
  dropped : s'.dropped = s.dropped
  size : ∀ k < s.made, (s'.kmsg k).msg_size = (s.kmsg k).msg_size

theorem SenderStep.inv (hstep : SenderStep s s' t) (h : Inv s) (hoffice : ∃ f, s'.office.Sound f)
    (hsenders : Senders s') (hnotices : Notices s') (hresults : Results s')
    (hadmitted : ∀ x ∈ s'.admitted, x.1.always = true ∨ x.1.notify = true ∨ x.2 < s.port_backlog) : Inv s' := by
  refine ⟨hstep.in_use.trans h.in_use, hoffice, ?_, hsenders, hnotices, hresults, ?_, ?_⟩
  · apply hstep.alone.receivers h.receivers hstep.blocked hstep.messages
    · intro t' k hstage
      exact hstep.size k (h.known (.inl ⟨t', _, hstage⟩))
    · exact hstep.old.not_receiving
    · exact hstep.new.not_receiving
  · apply h.sizes.frame hstep.received hstep.too_large
    · intro k hk
      exact hstep.size k (h.known hk)
    · intro t' k max_size hhas
      by_cases ht : t' = t
      · subst ht
        exact absurd hhas hstep.new.not_has
      · unfold State.Has at hhas ⊢
        rw [← hstep.alone.pc t' ht]
        exact hhas
  · rw [hstep.backlog]
    exact hadmitted

/-- What a sender leaves as it is. -/
def State.unsent (s : State T) :
    Bool × ℤ × Bool × List T × List ℕ × List (ℕ × ℕ) × List (ℕ × ℕ) × List ℕ × List ℕ × List ℕ :=
  (s.port_in_use, s.port_backlog, s.kernel_port, s.blocked_threads, s.messages, s.received, s.too_large, s.placed,
    s.obj_translations, s.dropped)

theorem SenderStep.of {p p' : Pc} (ha : Alone s s' t) (hold : s.pc t = p) (hnew : s'.pc t = p') (hp : p.Sends)
    (hp' : p'.Sends) (hsame : s'.unsent = s.unsent) (hsize : ∀ k < s.made, (s'.kmsg k).msg_size = (s.kmsg k).msg_size) :
    SenderStep s s' t := by
  simp only [State.unsent, Prod.mk.injEq] at hsame
  obtain ⟨h₁, h₂, h₃, h₄, h₅, h₆, h₇, h₈, h₉, h₁₀⟩ := hsame
  exact ⟨ha, hold ▸ hp, hnew ▸ hp', h₁, h₂, h₃, h₄, h₅, h₆, h₇, h₈, h₉, h₁₀, hsize⟩

theorem SenderStep.quiet (hstep : SenderStep s s' t) (h : Inv s) (hpc : s'.pc t = p)
    (hoffice : ∃ f, s'.office.Sound f) (hopen : ∀ k, s'.office.Open k ↔ s.office.Open k) (hsenders : Senders s')
    (hresults : Results s') (hkmsg : ∀ k < s.made, s'.kmsg k = s.kmsg k)
    (hblocked : ∀ k o tout, p = .blocked k o tout → (s'.kmsg k).sender_entry = none) (hnotes : s'.notes = s.notes)
    (hadmitted : s'.admitted = s.admitted) : Inv s' := by
  apply hstep.inv h hoffice hsenders _ hresults
  · rw [hadmitted]
    exact h.admitted
  · apply h.notices.moved hstep.alone.pc hpc _ hblocked hopen _ hnotes
    · rintro task name k max_size rfl
      exact (hpc ▸ hstep.new : Pc.Sends (.notifying task name k max_size))
    · rintro k (hk | ⟨t', hk⟩)
      · rw [hkmsg k (h.open_lt hk)]
      · rw [hkmsg k (h.blocked_lt hk)]

theorem Inv.offered (h : Inv s) (hstage : s.stage t = some (k, .offered)) :
    k ∉ s.promised ∧ k ∉ s.placed ∧ ¬s.office.Open k := by
  obtain ⟨f, hf⟩ := h.office
  have hplace := ((hf.located.held t k _).mp hstage).2
  refine ⟨?_, ?_, ?_⟩
  · intro hmem
    have hcounts := (hf.promised k hmem).2
    rw [hplace] at hcounts
    rcases hcounts with hcounts | harrived
    · cases hcounts
    · cases harrived
  · intro hmem
    have harrived := ((hf.arrived k).mp hmem).2
    rw [hplace] at harrived
    cases harrived
  · rintro (hqueue | ⟨t', hhas | hhas⟩)
    · exact hf.located.not_queued hstage hqueue
    · exact nomatch (hf.located.unique hstage hhas).2
    · exact nomatch (hf.located.unique hstage hhas).2

theorem stage_idle (h : s.pc t = .idle) : s.stage t = none := by
  unfold State.stage
  rw [h]

theorem stage_queueing (h : s.pc t = .queueing k o tout) : s.stage t = some (k, .offered) := by
  unfold State.stage
  rw [h]

theorem not_sending (hpc : s.pc t = p) (hp : ∀ k o tout, p ≠ .blocked k o tout) : ¬s.Sending t := by
  rintro ⟨k, o, tout, hblocked⟩
  exact hp k o tout (hpc ▸ hblocked)

end Threads

section Steps

variable [DecidableEq T]

theorem setPc_self (s : State T) (t : T) (p : Pc) : (s.setPc t p).pc t = p := update_self ..

theorem setPc_setPc (s : State T) (t : T) (p q : Pc) : (s.setPc t p).setPc t q = s.setPc t q := by
  unfold State.setPc
  rw [update_idem]

theorem alone_of_pc (hpc : s'.pc = update s.pc t p) (hstate : s'.ipc_state = s.ipc_state)
    (hdata : s'.ipc_data = s.ipc_data) : Alone s s' t := by
  refine ⟨fun t' ht => ?_, fun t' _ => ?_, fun t' _ => ?_⟩
  · rw [hpc, update_of_ne ht]
  · rw [hstate]
  · rw [hdata]

theorem Inv.send (h : Inv s) (hidle : s.pc t = .idle) (msg_size : ℕ) (e : Option ℕ) (o : SendOptions) (tout : ℕ) :
    Inv { s.setPc t (.queueing s.made o tout) with
      kmsg := update s.kmsg s.made ⟨msg_size, e⟩
      made := s.made + 1 } := by
  generalize hs' : ({ s.setPc t (.queueing s.made o tout) with
      kmsg := update s.kmsg s.made ⟨msg_size, e⟩
      made := s.made + 1 } : State T) = s'
  have hpc : s'.pc t = .queueing s.made o tout := by
    rw [← hs']
    exact setPc_self ..
  have hkmsg : ∀ k < s.made, s'.kmsg k = s.kmsg k := by
    intro k hk
    rw [← hs']
    exact update_of_ne (Nat.ne_of_lt hk) ..
  have hstep : SenderStep s s' t := by
    refine .of ?_ hidle hpc trivial trivial ?_ fun k hk => by rw [hkmsg k hk]
    all_goals subst hs'
    · exact alone_of_pc rfl rfl rfl
    · rfl
  obtain ⟨f, hf⟩ := h.office
  have hsound : s'.office.Sound (update f s.made (.held t .offered)) := by
    have hoffice : s'.office = { s.office.give t (some (s.made, .offered)) with made := s.made + 1 } := by
      apply hstep.alone.office (stage_queueing hpc)
      subst hs'
      rfl
    rw [hoffice]
    exact hf.make (stage_idle hidle)
  refine hstep.quiet h hpc ⟨_, hsound⟩ ?_ ?_ ?_ hkmsg nofun ?_ ?_
  · apply hf.open_make hsound _ rfl
    subst hs'
    rfl
  · apply hstep.alone.senders h.senders _ (not_sending hidle nofun) (not_sending hpc nofun)
    subst hs'
    rfl
  · apply h.results.moved hstep.alone.pc hpc fun _ _ => ⟨nofun, nofun⟩
    subst hs'
    rfl
  all_goals
    subst hs'
    rfl

omit [DecidableEq T] in
theorem Inv.clear (h : Inv s) (hpc : s.pc t = .queueing k o tout) :
    Inv { s with kmsg := update s.kmsg k { s.kmsg k with sender_entry := none } } := by
  generalize hs' : ({ s with kmsg := update s.kmsg k { s.kmsg k with sender_entry := none } } : State T) = s'
  obtain ⟨f, hf⟩ := h.office
  have hstage := stage_queueing hpc
  have hpc' : s'.pc t = .queueing k o tout := by
    rw [← hs']
    exact hpc
  have hother : ∀ k', s.office.Open k' ∨ (∃ t, s.Blocked t k') → k' ≠ k := by
    rintro k' (hopen | ⟨t', o', tout', hblocked⟩) rfl
    · exact (h.offered hstage).2.2 hopen
    · have hstage' : s.stage t' = some (k', .offered) := by
        unfold State.stage
        rw [hblocked]
      obtain rfl := (hf.located.unique hstage hstage').1
      rw [hpc] at hblocked
      cases hblocked
  have ha : Alone s s' t := by
    rw [← hs']
    exact ⟨fun _ _ => rfl, fun _ _ => rfl, fun _ _ => rfl⟩
  have hstep : SenderStep s s' t := by
    refine .of ha hpc hpc' trivial trivial ?_ ?_
    all_goals subst hs'
    · rfl
    · intro k' _
      by_cases heq : k' = k
      · rw [heq]
        dsimp only
        rw [update_self]
      · dsimp only
        rw [update_of_ne heq]
  have hoffice : s'.office = s.office := by
    subst hs'
    rfl
  apply hstep.inv h
  · rw [hoffice]
    exact ⟨f, hf⟩
  · rw [← hs']
    exact ⟨h.senders.nodup, h.senders.asleep, h.senders.woken⟩
  · apply h.notices.moved ha.pc hpc' nofun nofun
    · intro k'
      rw [hoffice]
    · intro k' hk'
      rw [← hs']
      dsimp only
      rw [update_of_ne (hother k' hk')]
    · subst hs'
      rfl
  · apply h.results.moved ha.pc hpc' fun _ _ => ⟨nofun, nofun⟩
    subst hs'
    rfl
  · rw [← hs']
    exact h.admitted

theorem Inv.leave {l : List ℕ} (h : Inv s) (hpc : s.pc t = .queueing k o tout) (hserved : ∀ k ∈ s.served, k ∈ l)
    (hresult : r = .SEND_SUCCESS ∨ r = .SEND_WILL_NOTIFY → s.kernel_port = true ∧ k ∈ l ∧ r = .SEND_SUCCESS) :
    Inv { s.setPc t .idle with
      sent := s.sent ++ [(k, r)]
      served := l } := by
  generalize hs' : ({ s.setPc t .idle with
      sent := s.sent ++ [(k, r)]
      served := l } : State T) = s'
  have hpc' : s'.pc t = .idle := by
    rw [← hs']
    exact setPc_self ..
  have hstep : SenderStep s s' t := by
    subst hs'
    exact .of (alone_of_pc rfl rfl rfl) hpc hpc' trivial trivial rfl fun _ _ => rfl
  have hold := stage_queueing hpc
  obtain ⟨f, hf⟩ := h.office
  obtain ⟨hlt, hplace⟩ := (hf.located.held t k _).mp hold
  have hsound : s'.office.Sound (update f k .gone) := by
    have hoffice : s'.office = s.office.give t none := by
      apply hstep.alone.office (stage_idle hpc')
      subst hs'
      rfl
    rw [hoffice]
    exact hf.withdraw hold
  refine hstep.quiet h hpc' ⟨_, hsound⟩ ?_ ?_ ?_ ?_ nofun ?_ ?_
  · apply hf.open_same hsound _ hlt
    · rw [hplace]
      rfl
    · subst hs'
      rfl
  · apply hstep.alone.senders h.senders _ (not_sending hpc nofun) (not_sending hpc' nofun)
    subst hs'
    rfl
  · refine ⟨?_, ?_⟩
    · intro t' k' r' hplacing
      have hreturns := h.results.returning t' k' r'
        (returning_other hstep.alone.pc hpc' (fun _ _ => ⟨nofun, nofun⟩) t' k' r' hplacing)
      subst hs'
      exact hreturns
    · subst hs'
      rw [forall_mem_append, forall_mem_singleton]
      refine ⟨?_, fun hsuccess => .inr (hresult hsuccess)⟩
      intro x hmem hsuccess
      rcases h.results.sent x hmem hsuccess with hplaced | ⟨hkernel, hmem', hr⟩
      · exact .inl hplaced
      · exact .inr ⟨hkernel, hserved x.1 hmem', hr⟩
  all_goals subst hs'
  · exact fun _ _ => rfl
  · rfl
  · rfl

theorem Inv.giveUp (h : Inv s) (hpc : s.pc t = .queueing k o tout) (hr : r ≠ .SEND_SUCCESS ∧ r ≠ .SEND_WILL_NOTIFY) :
    Inv (s.giveUp t k r) :=
  h.leave hpc (fun _ hmem => hmem) fun hsuccess => hsuccess.elim (fun heq => absurd heq hr.1) fun heq => absurd heq hr.2

theorem Inv.block (h : Inv s) (hpc : s.pc t = .queueing k o tout) (hnone : (s.kmsg k).sender_entry = none)
    (n : ℕ) : Inv (s.block t k o n) := by
  generalize hs' : s.block t k o n = s'
  have hpc' : s'.pc t = .blocked k o n := by
    rw [← hs']
    exact setPc_self ..
  have hnot : t ∉ s.port_blocked_threads := by
    intro hmem
    obtain ⟨k', o', tout', hblocked⟩ := (h.senders.asleep t hmem).1
    rw [hpc] at hblocked
    cases hblocked
  have hstate : s'.ipc_state = update s.ipc_state t .SEND_IN_PROGRESS := by
    rw [← hs']
    rfl
  have hstep : SenderStep s s' t := by
    refine .of ?_ hpc hpc' trivial trivial ?_ ?_
    all_goals subst hs'
    · exact ⟨fun t' ht => update_of_ne ht .., fun t' ht => update_of_ne ht .., fun _ _ => rfl⟩
    · rfl
    · exact fun _ _ => rfl
  have hstage : s'.stage t = some (k, .offered) := by
    unfold State.stage
    rw [hpc']
  have hoffice : s'.office = s.office := by
    apply hstep.alone.same_office (stage_queueing hpc) hstage
    subst hs'
    rfl
  have hthreads : s'.port_blocked_threads = s.port_blocked_threads ++ [t] := by
    rw [← hs']
    rfl
  refine hstep.quiet h hpc' (hoffice ▸ h.office) (fun k => by rw [hoffice]) ⟨?_, ?_, ?_⟩ ?_ ?_ ?_ ?_ ?_
  · rw [hthreads]
    exact Office.nodup_concat h.senders.nodup hnot
  · rw [hthreads, forall_mem_append, forall_mem_singleton, hstate, update_self]
    refine ⟨?_, ⟨k, o, n, hpc'⟩, rfl⟩
    intro t' hmem
    have ht : t' ≠ t := by
      rintro rfl
      exact hnot hmem
    obtain ⟨hsending, hprogress⟩ := h.senders.asleep t' hmem
    unfold State.Sending State.Blocked at hsending ⊢
    rw [hstep.alone.pc t' ht, update_of_ne ht]
    exact ⟨hsending, hprogress⟩
  · intro t' hsending
    rw [hthreads, mem_append, mem_singleton]
    by_cases ht : t' = t
    · exact .inl (.inr ht)
    · unfold State.Sending State.Blocked at hsending
      rw [hstep.alone.pc t' ht] at hsending
      rw [hstep.alone.state t' ht]
      exact (h.senders.woken t' hsending).imp .inl id
  · apply h.results.moved hstep.alone.pc hpc' fun _ _ => ⟨nofun, nofun⟩
    subst hs'
    rfl
  all_goals subst hs'
  · exact fun _ _ => rfl
  · rintro k' o' tout' heq
    cases heq
    exact hnone
  · rfl
  · rfl

end Steps

section Counting

variable [DecidableEq T]

theorem Inv.counting (h : Inv s) (hpc : s.pc t = .queueing k o tout) (notice : Bool)
    (hstep : SenderStep s s' t) (hpc' : s'.pc t = .counted k r)
    (hr : r = if notice then .SEND_WILL_NOTIFY else .SEND_SUCCESS)
    (hoffice : s'.office = { s.office.give t (some (k, .counted)) with
      count := s.office.count + 1
      promised := if notice then s.office.promised ++ [k] else s.office.promised })
    (hthreads : s'.port_blocked_threads = s.port_blocked_threads) (hsent : s'.sent = s.sent)
    (hserved : s'.served = s.served)
    (hnotices : (∀ k', s'.office.Open k' ↔ k' ≠ k ∧ s.office.Open k' ∨ k' = k) → Notices s')
    (hadmitted : s'.admitted = s.admitted ++ [(o, s.port_message_count)])
    (hlimit : o.always = true ∨ o.notify = true ∨ s.port_message_count < s.port_backlog) : Inv s' := by
  have hstage := stage_queueing hpc
  obtain ⟨hpromised, hplaced, -⟩ := h.offered hstage
  have hpromised' : s'.promised = if notice then s.promised ++ [k] else s.promised :=
    congrArg Office.promised hoffice
  have hother : ∀ k' r', k' ≠ k → s.Returns k' r' → s'.Returns k' r' := by
    intro k' r' hne hreturns
    have hsame : k' ∈ s'.promised ↔ k' ∈ s.promised := by
      rw [hpromised']
      cases notice with
      | false => exact Iff.rfl
      | true =>
        rw [if_pos rfl, mem_append, mem_singleton]
        exact ⟨fun hmem => hmem.resolve_right hne, .inl⟩
    unfold State.Returns at hreturns ⊢
    rw [hsame]
    exact hreturns
  obtain ⟨f, hf⟩ := h.office
  have hsound : s'.office.Sound (update f k (.held t .counted)) := by
    rw [hoffice]
    exact hf.counted hstage notice
  refine hstep.inv h ⟨_, hsound⟩ ?_ ?_ ?_ ?_
  · exact hstep.alone.senders h.senders hthreads (not_sending hpc nofun) (not_sending hpc' nofun)
  · apply hnotices
    intro k'
    rw [hf.open_move hsound (by rw [hoffice]; rfl) ((hf.located.held t k _).mp hstage).1]
    simp [Office.Place.counts]
  · refine ⟨?_, ?_⟩
    · intro t' k' r' hplacing
      by_cases ht : t' = t
      · subst ht
        rw [hpc'] at hplacing
        rcases hplacing with heq | heq
        · cases heq
          unfold State.Returns
          rw [hpromised', hr]
          cases notice with
          | false => exact .inr ⟨rfl, hpromised⟩
          | true => exact .inl ⟨rfl, mem_append_right _ (mem_singleton_self k)⟩
        · cases heq
      · rw [hstep.alone.pc t' ht] at hplacing
        apply hother k' r' _ (h.results.returning t' k' r' hplacing)
        rintro rfl
        have hstage' : s.stage t' = some (k', .counted) := by
          unfold State.stage
          rcases hplacing with heq | heq
          · rw [heq]
          · rw [heq]
        exact nomatch (hf.located.unique hstage hstage').2
    · intro x hx hsuccess
      rw [hsent] at hx
      rw [hstep.placed, hstep.kernel, hserved]
      rcases h.results.sent x hx hsuccess with ⟨hmem, hreturns⟩ | hkernel
      · refine .inl ⟨hmem, hother x.1 x.2 ?_ hreturns⟩
        rintro heq
        rw [heq] at hmem
        exact hplaced hmem
      · exact .inr hkernel
  · rw [hadmitted]
    intro x hx
    rcases mem_append.mp hx with hmem | hmem
    · exact h.admitted x hmem
    · rw [mem_singleton.mp hmem]
      exact hlimit

theorem Inv.count (h : Inv s) (hpc : s.pc t = .queueing k o tout) (hnone : (s.kmsg k).sender_entry = none)
    (hlimit : o.always = true ∨ o.notify = true ∨ s.port_message_count < s.port_backlog) :
    Inv (s.count t k o .SEND_SUCCESS) := by
  have hin : ¬(!s.port_in_use) = true := by
    rw [h.in_use]
    exact Bool.false_ne_true
  have hcount : s.count t k o .SEND_SUCCESS = { s.setPc t (.counted k .SEND_SUCCESS) with
      port_message_count := s.port_message_count + 1
      port_lock := some t
      admitted := s.admitted ++ [(o, s.port_message_count)] } := if_neg hin
  rw [hcount]
  generalize hs' : ({ s.setPc t (.counted k .SEND_SUCCESS) with
      port_message_count := s.port_message_count + 1
      port_lock := some t
      admitted := s.admitted ++ [(o, s.port_message_count)] } : State T) = s'
  have hpc' : s'.pc t = .counted k .SEND_SUCCESS := by
    rw [← hs']
    exact setPc_self ..
  have hstage := stage_queueing hpc
  have hstage' : s'.stage t = some (k, .counted) := by
    unfold State.stage
    rw [hpc']
  have hstep : SenderStep s s' t := by
    subst hs'
    exact .of (alone_of_pc rfl rfl rfl) hpc hpc' trivial trivial rfl fun _ _ => rfl
  refine h.counting hpc false hstep hpc' rfl ?_ ?_ ?_ ?_ ?_ ?_ hlimit
  · apply hstep.alone.office hstage'
    subst hs'
    rfl
  on_goal 4 =>
    intro hopen
    have hopened : ∀ k', s'.office.Open k' → (s.office.Open k' ∨ (s.kmsg k').sender_entry = none ∧ k' ∉ s.promised) := by
      intro k' hk'
      rcases (hopen k').mp hk' with ⟨-, hold⟩ | rfl
      · exact .inl hold
      · exact .inr ⟨hnone, (h.offered hstage).1⟩
    apply h.notices.moved_of hstep.alone.pc hpc' nofun
    all_goals subst hs'
    · rfl
    · intro k' e hk' hsender
      rcases hopened k' hk' with hold | ⟨hnone, -⟩
      · exact h.notices.link k' e hold hsender
      · exact absurd (hnone.symm.trans hsender) nofun
    · intro e k' he hk'
      obtain ⟨hold, hsender⟩ := h.notices.back e k' he hk'
      refine ⟨(hopen k').mpr (.inl ⟨?_, hold⟩), hsender⟩
      rintro rfl
      exact (h.offered hstage).2.2 hold
    · intro k' hk'
      rcases hopened k' hk' with hold | ⟨hnone, hnot⟩
      · exact h.notices.owed k' hold
      · exact ⟨fun hne => absurd hnone hne, fun howed => absurd howed.1 hnot⟩
    · exact nofun
    · exact fun _ => id
    · exact fun t' _ k' => h.notices.blocked t' k'
  all_goals
    subst hs'
    rfl

theorem Inv.count_promise (h : Inv s) (hpc : s.pc t = .queueing k o tout) (he : e ∈ s.obj_translations)
    (hfree : (s.entry e).kmsg = none) (hnotify : o.notify = true) :
    Inv ((s.promise e k).count t k o .SEND_WILL_NOTIFY) := by
  have hin : ¬(!(s.promise e k).port_in_use) = true := by
    change ¬(!s.port_in_use) = true
    rw [h.in_use]
    exact Bool.false_ne_true
  have hcount : (s.promise e k).count t k o .SEND_WILL_NOTIFY =
      { (s.promise e k).setPc t (.counted k .SEND_WILL_NOTIFY) with
        port_message_count := s.port_message_count + 1
        port_lock := some t
        admitted := s.admitted ++ [(o, s.port_message_count)] } := if_neg hin
  rw [hcount]
  generalize hs' : ({ (s.promise e k).setPc t (.counted k .SEND_WILL_NOTIFY) with
      port_message_count := s.port_message_count + 1
      port_lock := some t
      admitted := s.admitted ++ [(o, s.port_message_count)] } : State T) = s'
  have hpc' : s'.pc t = .counted k .SEND_WILL_NOTIFY := by
    rw [← hs']
    exact setPc_self ..
  have hstage := stage_queueing hpc
  have hstage' : s'.stage t = some (k, .counted) := by
    unfold State.stage
    rw [hpc']
  obtain ⟨hpromised, -, hnotopen⟩ := h.offered hstage
  have hdropped : k ∉ s.dropped := by
    obtain ⟨f, hf⟩ := h.office
    exact fun hmem => hpromised (hf.dropped k hmem)
  have hkmsg : s'.kmsg = update s.kmsg k { s.kmsg k with sender_entry := some e } := by
    rw [← hs']
    rfl
  have hentry : s'.entry = update s.entry e { s.entry e with kmsg := some k } := by
    rw [← hs']
    rfl
  have hpromised' : s'.promised = s.promised ++ [k] := by
    rw [← hs']
    rfl
  have hstep : SenderStep s s' t := by
    refine .of ?_ hpc hpc' trivial trivial ?_ ?_
    · rw [← hs']
      exact alone_of_pc rfl rfl rfl
    · subst hs'
      rfl
    · intro k' _
      rw [hkmsg]
      by_cases heq : k' = k
      · rw [heq, update_self]
      · rw [update_of_ne heq]
  have hne : ∀ k', s.office.Open k' → k' ≠ k := by
    rintro k' hk' rfl
    exact hnotopen hk'
  refine h.counting hpc true hstep hpc' rfl ?_ ?_ ?_ ?_ ?_ ?_ (.inr (.inl hnotify))
  · apply hstep.alone.office hstage'
    subst hs'
    rfl
  on_goal 4 =>
    intro hopen
    apply h.notices.moved_of hstep.alone.pc hpc' nofun hstep.translations
    · intro k' e' hk' hsender
      rw [hkmsg] at hsender
      rw [hentry]
      rcases (hopen k').mp hk' with ⟨hother, hold⟩ | rfl
      · rw [update_of_ne hother] at hsender
        obtain ⟨he', hk'⟩ := h.notices.link k' e' hold hsender
        have hother : e' ≠ e := by
          rintro rfl
          rw [hfree] at hk'
          cases hk'
        rw [update_of_ne hother]
        exact ⟨he', hk'⟩
      · rw [update_self] at hsender
        cases hsender
        rw [update_self]
        exact ⟨he, rfl⟩
    · intro e' k' he' hk'
      rw [hentry] at hk'
      rw [hkmsg]
      by_cases heq : e' = e
      · rw [heq, update_self] at hk'
        cases hk'
        rw [update_self, heq]
        exact ⟨(hopen k).mpr (.inr rfl), rfl⟩
      · rw [update_of_ne heq] at hk'
        obtain ⟨hold, hsender⟩ := h.notices.back e' k' he' hk'
        rw [update_of_ne (hne k' hold)]
        exact ⟨(hopen k').mpr (.inl ⟨hne k' hold, hold⟩), hsender⟩
    · intro k' hk'
      rw [hkmsg, hpromised', hstep.dropped, mem_append, mem_singleton]
      rcases (hopen k').mp hk' with ⟨hother, hold⟩ | rfl
      · rw [update_of_ne hother, h.notices.owed k' hold]
        simp [hother]
      · rw [update_self]
        exact ⟨fun _ => ⟨.inr rfl, hdropped⟩, fun _ => nofun⟩
    · exact nofun
    · rintro k' ⟨hmem, hnot⟩
      rw [hpromised', hstep.dropped]
      exact ⟨mem_append_left _ hmem, hnot⟩
    · rintro t' ht k' ⟨o', tout', hblocked⟩
      have hother : k' ≠ k := by
        rintro rfl
        obtain ⟨f, hf⟩ := h.office
        have hstage₁ : s.stage t' = some (k', .offered) := by
          unfold State.stage
          rw [hblocked]
        exact ht (hf.located.unique hstage hstage₁).1
      rw [hkmsg, update_of_ne hother]
      exact h.notices.blocked t' k' ⟨o', tout', hblocked⟩
  all_goals
    subst hs'
    rfl

end Counting

section Backlog

variable [DecidableEq T]

theorem Inv.obeyBacklog {n : ℕ} (h : Inv s) (hpc : s.pc t = .queueing k o n) (hnone : (s.kmsg k).sender_entry = none)
    (hfound : s.Finds task found) (tout : ℕ) : Inv (s.obeyBacklog t k o tout found) := by
  unfold State.obeyBacklog
  by_cases hroom : s.port_message_count < s.port_backlog ∨ o.always = true
  · rw [if_pos hroom]
    apply h.count hpc hnone
    exact hroom.elim (fun hlt => .inr (.inr hlt)) .inl
  rw [if_neg hroom]
  have hin : ¬(!s.port_in_use) = true := by
    rw [h.in_use]
    exact Bool.false_ne_true
  rw [if_neg hin]
  generalize (if o.timeout = true then tout else 0) = tout
  by_cases htime : tout ≠ 0
  · rw [if_pos htime]
    exact h.block hpc hnone tout
  rw [if_neg htime]
  by_cases hnotify : o.notify = true
  · rw [if_pos hnotify]
    cases found with
    | none => exact h.giveUp hpc ⟨nofun, nofun⟩
    | some e =>
      dsimp only
      by_cases hbusy : (s.entry e).kmsg ≠ none
      · rw [if_pos hbusy]
        exact h.giveUp hpc ⟨nofun, nofun⟩
      · rw [if_neg hbusy]
        exact h.count_promise hpc hfound.1 (not_not.mp hbusy) hnotify
  rw [if_neg hnotify]
  by_cases htimeout : o.timeout = true
  · rw [if_pos htimeout]
    exact h.giveUp hpc ⟨nofun, nofun⟩
  · rw [if_neg htimeout]
    exact h.block hpc hnone tout

theorem obeyBacklog_setPc (s : State T) (t : T) (p : Pc) (k : ℕ) (o : SendOptions) (tout : ℕ) (found : Option ℕ) :
    (s.setPc t p).obeyBacklog t k o tout found = s.obeyBacklog t k o tout found := by
  have hgiveUp : ∀ r, (s.setPc t p).giveUp t k r = s.giveUp t k r := by
    intro r
    unfold State.giveUp
    rw [setPc_setPc]
    rfl
  have hblock : ∀ n, (s.setPc t p).block t k o n = s.block t k o n := by
    intro n
    unfold State.block
    rw [setPc_setPc]
    rfl
  have hcount : ∀ (s : State T) r, (s.setPc t p).count t k o r = s.count t k o r := by
    intro s r
    have hgiveUp' : (s.setPc t p).giveUp t k .SEND_INVALID_PORT = s.giveUp t k .SEND_INVALID_PORT := by
      unfold State.giveUp
      rw [setPc_setPc]
      rfl
    unfold State.count
    rw [hgiveUp', setPc_setPc]
    rfl
  have hpromise : ∀ e, (s.setPc t p).promise e k = (s.promise e k).setPc t p := fun e => rfl
  unfold State.obeyBacklog
  simp only [hgiveUp, hblock, hcount, hpromise]
  rfl

theorem Inv.wake (h : Inv s) (hpc : s.pc t = .blocked k o tout) :
    Inv ({ s with port_blocked_threads := s.port_blocked_threads.erase t }.setPc t (.queueing k o tout)) := by
  generalize hs' : { s with port_blocked_threads := s.port_blocked_threads.erase t }.setPc t (.queueing k o tout) = s'
  have hpc' : s'.pc t = .queueing k o tout := by
    rw [← hs']
    exact setPc_self ..
  have hstep : SenderStep s s' t := by
    subst hs'
    exact .of (alone_of_pc rfl rfl rfl) hpc hpc' trivial trivial rfl fun _ _ => rfl
  have hold : s.stage t = some (k, .offered) := by
    unfold State.stage
    rw [hpc]
  have hthreads : s'.port_blocked_threads = s.port_blocked_threads.erase t := by
    rw [← hs']
    rfl
  have hoffice : s'.office = s.office := by
    apply hstep.alone.same_office hold (stage_queueing hpc')
    subst hs'
    rfl
  refine hstep.quiet h hpc' (hoffice ▸ h.office) (fun k => by rw [hoffice]) ⟨?_, ?_, ?_⟩ ?_ ?_ nofun ?_ ?_
  · rw [hthreads]
    exact h.senders.nodup.erase t
  · intro t' ht'
    rw [hthreads] at ht'
    obtain ⟨ht, hmem⟩ := (h.senders.nodup.mem_erase_iff).mp ht'
    obtain ⟨hsending, hstate⟩ := h.senders.asleep t' hmem
    unfold State.Sending State.Blocked at hsending ⊢
    rw [hstep.alone.pc t' ht, hstep.alone.state t' ht]
    exact ⟨hsending, hstate⟩
  · rintro t' ⟨k', o', tout', hblocked⟩
    obtain ⟨ht, hblocked'⟩ := other_pc (P := (· = .blocked k' o' tout')) hstep.alone.pc hpc' nofun hblocked
    rw [hthreads, mem_erase_of_ne ht, hstep.alone.state t' ht]
    exact h.senders.woken t' ⟨k', o', tout', hblocked'⟩
  · apply h.results.moved hstep.alone.pc hpc' fun _ _ => ⟨nofun, nofun⟩
    subst hs'
    rfl
  all_goals subst hs'
  · exact fun _ _ => rfl
  · rfl
  · rfl

theorem Inv.awake (h : Inv s) (hpc : s.pc t = .blocked k o tout) (hfound : s.Finds task found) (w : WaitResult) :
    Inv (s.awake t k o tout found w) := by
  have hwake := h.wake hpc
  have hnone := h.notices.blocked t k ⟨o, tout, hpc⟩
  unfold State.awake
  by_cases hsuccess : s.ipc_state t = .SEND_SUCCESS
  · rw [if_pos hsuccess]
    have hnot : t ∉ s.port_blocked_threads := by
      intro hmem
      have hstate := (h.senders.asleep t hmem).2
      rw [hsuccess] at hstate
      cases hstate
    rw [erase_of_not_mem hnot] at hwake
    rw [← obeyBacklog_setPc s t (.queueing k o tout)]
    exact hwake.obeyBacklog (setPc_self ..) hnone hfound tout
  · rw [if_neg hsuccess]
    cases w with
    | THREAD_INTERRUPTED =>
      have hgive := hwake.giveUp (r := .SEND_INTERRUPTED) (setPc_self ..) ⟨nofun, nofun⟩
      unfold State.giveUp at hgive
      rw [setPc_setPc] at hgive
      exact hgive
    | THREAD_TIMED_OUT =>
      dsimp only
      rw [← obeyBacklog_setPc _ t (.queueing k o tout)]
      exact hwake.obeyBacklog (setPc_self ..) hnone hfound 0
    | THREAD_AWAKENED =>
      dsimp only
      rw [← obeyBacklog_setPc _ t (.queueing k o tout)]
      exact hwake.obeyBacklog (setPc_self ..) hnone hfound tout

theorem Inv.msg_queue (h : Inv s) (hpc : s.pc t = .queueing k o tout) (hfound : s.Finds task found)
    (aborted : Bool) : Inv (s.msg_queue t k o tout found aborted) := by
  unfold State.msg_queue
  by_cases hkernel : s.kernel_port = true
  · rw [if_pos hkernel]
    apply h.leave hpc
    · exact fun k' hmem => mem_append_left _ hmem
    · intro hsuccess
      cases aborted with
      | false => exact ⟨hkernel, mem_append_right _ (mem_singleton_self k), rfl⟩
      | true =>
        rcases hsuccess with heq | heq
        · cases heq
        · cases heq
  · rw [if_neg hkernel]
    apply (h.clear hpc).obeyBacklog (n := tout) hpc
    · dsimp only
      rw [update_self]
    · exact hfound

theorem Inv.pass (h : Inv s) (hpc : s.pc t = .counted k r) :
    Inv { s.setPc t (.placing k r) with port_lock := none, queue_lock := some t } := by
  generalize hs' : ({ s.setPc t (.placing k r) with port_lock := none, queue_lock := some t } : State T) = s'
  have hpc' : s'.pc t = .placing k r := by
    rw [← hs']
    exact setPc_self ..
  have hstep : SenderStep s s' t := by
    subst hs'
    exact .of (alone_of_pc rfl rfl rfl) hpc hpc' trivial trivial rfl fun _ _ => rfl
  have hold : s.stage t = some (k, .counted) := by
    unfold State.stage
    rw [hpc]
  have hstage : s'.stage t = some (k, .counted) := by
    unfold State.stage
    rw [hpc']
  have hoffice : s'.office = s.office := by
    apply hstep.alone.same_office hold hstage
    subst hs'
    rfl
  refine hstep.quiet h hpc' (hoffice ▸ h.office) (fun k => by rw [hoffice]) ?_ ?_ ?_ nofun ?_ ?_
  · apply hstep.alone.senders h.senders _ (not_sending hpc nofun) (not_sending hpc' nofun)
    subst hs'
    rfl
  · apply h.results.frame
    on_goal 6 =>
      intro t' k' r' hplacing
      by_cases ht : t' = t
      · subst ht
        rw [hpc'] at hplacing
        rcases hplacing with heq | heq
        · cases heq
        · cases heq
          exact .inl hpc
      · rw [← hstep.alone.pc t' ht]
        exact hplacing
    all_goals
      subst hs'
      rfl
  all_goals subst hs'
  · exact fun _ _ => rfl
  · rfl
  · rfl

end Backlog

end Osf1.Delivery
