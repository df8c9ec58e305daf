import Osf1.Delivery.Sending

/-!
# Giving a message away

A thread that has the lock of the queue gives its message to the first receiver that can have it, and tells
the ones before that it is too large for them; if there is no such receiver it is queued.
-/

set_option autoImplicit false

namespace Osf1.Delivery

open Function List

section Placing

open Osf1.Computation

variable {T : Type} [DecidableEq T] {s s' : State T} {t t' : T} {k e max_size tout n : ℕ} {timeout : Bool}
  {o : SendOptions} {r : SendResult} {l : List T}

section Placing

/-- The thread gives up the lock of the queue, and `msg_queue` returns. -/
def State.finish (s : State T) (t : T) (k : ℕ) (r : SendResult) : State T :=
  { s.setPc t .idle with
    queue_lock := none
    placed := s.placed ++ [k]
    sent := s.sent ++ [(k, r)] }

omit [DecidableEq T] in
theorem Inv.results_finish (h : Inv s) (hpc : s.pc t = .placing k r) (hpcs : ∀ t' ≠ t, s'.pc t' = s.pc t')
    (hpc' : s'.pc t = .idle) (hpromised : s'.promised = s.promised) (hsent : s'.sent = s.sent ++ [(k, r)])
    (hplaced : s'.placed = s.placed ++ [k]) (hkernel : s'.kernel_port = s.kernel_port)
    (hserved : s'.served = s.served) : Results s' := by
  have hreturns := h.results.returning t k r (.inr hpc)
  refine ⟨?_, ?_⟩
  · intro t' k' r' hplacing
    unfold State.Returns
    rw [hpromised]
    exact h.results.returning t' k' r' (returning_other hpcs hpc' (fun _ _ => ⟨nofun, nofun⟩) t' k' r' hplacing)
  · unfold State.Returns
    rw [hsent, forall_mem_append, forall_mem_singleton, hplaced, hkernel, hserved, hpromised]
    refine ⟨?_, fun _ => .inl ⟨mem_append_right _ (mem_singleton_self k), hreturns⟩⟩
    intro x hmem hsuccess
    exact (h.results.sent x hmem hsuccess).imp (fun hold => ⟨mem_append_left _ hold.1, hold.2⟩) id

omit [DecidableEq T] in
theorem stage_placing (h : s.pc t = .placing k r) : s.stage t = some (k, .counted) := by
  unfold State.stage
  rw [h]

theorem Inv.enqueue (h : Inv { s with blocked_threads := [] }) (hpc : s.pc t = .placing k r) :
    Inv ({ s with blocked_threads := [], messages := s.messages ++ [k] }.finish t k r) := by
  generalize hb : ({ s with blocked_threads := [] } : State T) = b at h
  generalize hs' : ({ s with blocked_threads := [], messages := s.messages ++ [k] } : State T).finish t k r = s'
  have hpcb : b.pc t = .placing k r := by
    rw [← hb]
    exact hpc
  have hpc' : s'.pc t = .idle := by
    rw [← hs']
    exact setPc_self ..
  have ha : Alone b s' t := by
    subst hb hs'
    exact alone_of_pc rfl rfl rfl
  have hold := stage_placing hpcb
  obtain ⟨f, hf⟩ := h.office
  obtain ⟨hlt, hplace⟩ := (hf.located.held t k _).mp hold
  have hsound : s'.office.Sound (update f k .queue) := by
    have hoffice : s'.office = { b.office.give t none with
        queue := b.office.queue ++ [k]
        placed := b.office.placed ++ [k] } := by
      apply ha.office (stage_idle hpc')
      subst hb hs'
      rfl
    rw [hoffice]
    exact hf.enqueue hold
  have hkmsg : s'.kmsg = b.kmsg := by
    subst hb hs'
    rfl
  refine ⟨?_, ⟨_, hsound⟩, ?_, ?_, ?_, ?_, ?_, ?_⟩
  · subst hb hs'
    exact h.in_use
  · have hempty : s'.blocked_threads = [] := by
      rw [← hs']
      rfl
    refine ⟨?_, ?_, ?_, ?_⟩
    · rw [hempty]
      exact nodup_nil
    · rw [hempty]
      exact nofun
    · intro t' max_size timeout tout hreceiving
      obtain ⟨ht, hold'⟩ := other_pc (P := (· = .receiving max_size timeout tout)) ha.pc hpc' nofun hreceiving
      have hfinding := h.receivers.finding t' max_size timeout tout hold'
      unfold State.Finding at hfinding ⊢
      rw [ha.state t' ht, ha.data t' ht, hkmsg, hempty]
      subst hb
      exact hfinding
    · rw [hempty]
      exact fun hne => absurd rfl hne
  · apply ha.senders h.senders _ (not_sending hpcb nofun) (not_sending hpc' nofun)
    subst hb hs'
    rfl
  · apply h.notices.moved ha.pc hpc' nofun nofun
    · apply hf.open_same hsound _ hlt
      · rw [hplace]
        rfl
      · subst hb hs'
        rfl
    · intro k' _
      rw [hkmsg]
    · subst hb hs'
      rfl
  · apply h.results_finish hpcb ha.pc hpc'
    all_goals
      subst hb hs'
      rfl
  · apply h.sizes.moved ha.pc hpc' nofun nofun hkmsg
    all_goals
      subst hb hs'
      rfl
  · subst hb hs'
    exact h.admitted

omit [DecidableEq T] in
theorem Receivers.first (h : Receivers { s with blocked_threads := t' :: l }) :
    (∃ max_size timeout tout, s.pc t' = .receiving max_size timeout tout ∧ s.ipc_data t' = .msize max_size) ∧
      s.ipc_state t' = .RCV_IN_PROGRESS ∧ t' ∉ l ∧ l.Nodup := by
  obtain ⟨⟨max_size, timeout, tout, hpc⟩, hstate⟩ := h.asleep t' mem_cons_self
  obtain ⟨hnot, hnodup⟩ := nodup_cons.mp h.nodup
  refine ⟨⟨max_size, timeout, tout, hpc, ?_⟩, hstate, hnot, hnodup⟩
  rcases h.finding t' max_size timeout tout hpc with ⟨-, -, hdata⟩ | ⟨hsuccess, -⟩ | ⟨hlarge, -⟩
  · exact hdata
  · rw [hstate] at hsuccess
    cases hsuccess
  · rw [hstate] at hlarge
    cases hlarge

theorem Inv.tooLarge (h : Inv { s with blocked_threads := t' :: l }) (hlarge : ¬n ≤ (s.ipc_data t').size) :
    Inv { s with
      blocked_threads := l
      ipc_state := update s.ipc_state t' .RCV_TOO_LARGE
      ipc_data := update s.ipc_data t' (.msize n) } := by
  obtain ⟨⟨max_size, timeout, tout, hpc, hdata⟩, hstate, hnot, hnodup⟩ := h.receivers.first
  generalize hb : ({ s with blocked_threads := t' :: l } : State T) = b at h
  generalize hs' : ({ s with
      blocked_threads := l
      ipc_state := update s.ipc_state t' .RCV_TOO_LARGE
      ipc_data := update s.ipc_data t' (.msize n) } : State T) = s'
  have hpcs : s'.pc = b.pc := by
    subst hb hs'
    rfl
  have hstate' : s'.ipc_state t' = .RCV_TOO_LARGE := by
    rw [← hs']
    exact update_self ..
  have hdata' : s'.ipc_data t' = .msize n := by
    rw [← hs']
    exact update_self ..
  have hpcb : b.pc t' = .receiving max_size timeout tout := by
    rw [← hb]
    exact hpc
  have hstateb : b.ipc_state t' = .RCV_IN_PROGRESS := by
    rw [← hb]
    exact hstate
  have ha : Alone b s' t' := by
    subst hb hs'
    exact ⟨fun _ _ => rfl, fun t ht => update_of_ne ht .., fun t ht => update_of_ne ht ..⟩
  have hstage : s'.stage = b.stage := by
    funext t
    by_cases ht : t = t'
    · subst ht
      unfold State.stage
      rw [hpcs, hpcb, hstate', hstateb]
    · exact ha.stage ht
  have hthreads : s'.blocked_threads = l := by
    rw [← hs']
  have hthreadsb : b.blocked_threads = t' :: l := by
    rw [← hb]
  have hoffice : s'.office = b.office := by
    unfold State.office
    rw [hstage]
    subst hb hs'
    rfl
  have hkmsg : s'.kmsg = b.kmsg := by
    subst hb hs'
    rfl
  have hpcs' : s'.pc t' = .receiving max_size timeout tout := by
    rw [hpcs, hpcb]
  refine ⟨?_, ?_, ?_, ?_, ?_, ?_, ?_, ?_⟩
  · subst hb hs'
    exact h.in_use
  · rw [hoffice]
    exact h.office
  · refine ⟨?_, ?_, ?_, ?_⟩
    · rw [hthreads]
      exact hnodup
    · intro t ht
      rw [hthreads] at ht
      have hne : t ≠ t' := by
        rintro rfl
        exact hnot ht
      obtain ⟨hreceiving, hprogress⟩ := h.receivers.asleep t (hthreadsb ▸ mem_cons_of_mem _ ht)
      unfold State.Receiving
      rw [hpcs, ha.state t hne]
      exact ⟨hreceiving, hprogress⟩
    · intro t max_size' timeout' tout' hreceiving
      rw [hpcs] at hreceiving
      by_cases ht : t = t'
      · subst ht
        rw [hpcb] at hreceiving
        cases hreceiving
        rw [hdata] at hlarge
        exact .inr (.inr ⟨hstate', n, hdata', Nat.lt_of_not_le hlarge⟩)
      · have hfinding := h.receivers.finding t max_size' timeout' tout' hreceiving
        unfold State.Finding at hfinding ⊢
        rw [hthreadsb, mem_cons] at hfinding
        rw [ha.state t ht, ha.data t ht, hkmsg, hthreads]
        exact hfinding.imp (fun hasleep => ⟨hasleep.1.resolve_left ht, hasleep.2⟩) id
    · intro _
      have hmessages : s'.messages = b.messages := by
        subst hb hs'
        rfl
      rw [hmessages]
      apply h.receivers.empty
      rw [hthreadsb]
      exact cons_ne_nil _ _
  · apply ha.senders h.senders _ (not_sending hpcb nofun) (not_sending hpcs' nofun)
    subst hb hs'
    rfl
  · apply h.notices.moved ha.pc hpcs' nofun nofun
    · intro k'
      rw [hoffice]
    · intro k' _
      rw [hkmsg]
    · subst hb hs'
      rfl
  · apply h.results.moved ha.pc hpcs' fun _ _ => ⟨nofun, nofun⟩
    subst hb hs'
    rfl
  · apply h.sizes.moved ha.pc hpcs' nofun nofun hkmsg
    all_goals
      subst hb hs'
      rfl
  · subst hb hs'
    exact h.admitted

theorem Inv.hand (h : Inv { s with blocked_threads := t' :: l }) (hpc : s.pc t = .placing k r)
    (hfits : (s.kmsg k).msg_size ≤ (s.ipc_data t').size) :
    Inv ({ s with
      blocked_threads := l
      ipc_state := update s.ipc_state t' .RCV_SUCCESS
      ipc_data := update s.ipc_data t' (.kmsg k)
      reached := s.reached ++ [k] }.finish t k r) := by
  obtain ⟨⟨max_size, timeout, tout, hpct, hdata⟩, hstate, hnot, hnodup⟩ := h.receivers.first
  rw [hdata] at hfits
  generalize hb : ({ s with blocked_threads := t' :: l } : State T) = b at h
  generalize hs' : ({ s with
      blocked_threads := l
      ipc_state := update s.ipc_state t' .RCV_SUCCESS
      ipc_data := update s.ipc_data t' (.kmsg k)
      reached := s.reached ++ [k] } : State T).finish t k r = s'
  have hne : t' ≠ t := by
    rintro rfl
    rw [hpc] at hpct
    cases hpct
  have hpcb : b.pc t = .placing k r := by
    rw [← hb]
    exact hpc
  have hpcb' : b.pc t' = .receiving max_size timeout tout := by
    rw [← hb]
    exact hpct
  have hstateb : b.ipc_state t' = .RCV_IN_PROGRESS := by
    rw [← hb]
    exact hstate
  have hpcs : s'.pc = update b.pc t .idle := by
    subst hb hs'
    rfl
  have hpc' : s'.pc t = .idle := by
    rw [hpcs, update_self]
  have hpct' : s'.pc t' = .receiving max_size timeout tout := by
    rw [hpcs, update_of_ne hne, hpcb']
  have hstate' : s'.ipc_state t' = .RCV_SUCCESS := by
    rw [← hs']
    exact update_self ..
  have hdata' : s'.ipc_data t' = .kmsg k := by
    rw [← hs']
    exact update_self ..
  have hother : ∀ t₁, t₁ ≠ t → t₁ ≠ t' → s'.pc t₁ = b.pc t₁ ∧ s'.ipc_state t₁ = b.ipc_state t₁ ∧
      s'.ipc_data t₁ = b.ipc_data t₁ := by
    intro t₁ ht ht'
    subst hb hs'
    exact ⟨update_of_ne ht .., update_of_ne ht' .., update_of_ne ht' ..⟩
  have hold := stage_placing hpcb
  have hold' : b.stage t' = none := by
    unfold State.stage
    rw [hpcb', hstateb]
  have hstage : s'.stage = update (update b.stage t none) t' (some (k, .handed)) := by
    funext t₁
    by_cases ht' : t₁ = t'
    · subst ht'
      rw [update_self]
      unfold State.stage
      rw [hpct', hstate', hdata']
    · rw [update_of_ne ht']
      by_cases ht : t₁ = t
      · subst ht
        rw [update_self]
        exact stage_idle hpc'
      · rw [update_of_ne ht]
        obtain ⟨hpc₁, hstate₁, hdata₁⟩ := hother t₁ ht ht'
        exact stage_congr hpc₁ hstate₁ hdata₁
  have hthreads : s'.blocked_threads = l := by
    rw [← hs']
    rfl
  have hthreadsb : b.blocked_threads = t' :: l := by
    rw [← hb]
  have hempty : b.messages = [] := by
    apply h.receivers.empty
    rw [hthreadsb]
    exact cons_ne_nil _ _
  have hmessages : s'.messages = b.messages := by
    subst hb hs'
    rfl
  have hkmsg : s'.kmsg = b.kmsg := by
    subst hb hs'
    rfl
  have hpcs' : ∀ t₁ ≠ t, s'.pc t₁ = b.pc t₁ := by
    intro t₁ ht
    rw [hpcs, update_of_ne ht]
  obtain ⟨f, hf⟩ := h.office
  obtain ⟨hlt, hplace⟩ := (hf.located.held t k _).mp hold
  have hsound : s'.office.Sound (update f k (.held t' .handed)) := by
    have hoffice : s'.office = { (b.office.give t none).give t' (some (k, .handed)) with
        placed := b.office.placed ++ [k]
        reached := b.office.reached ++ [k] } := by
      unfold State.office
      rw [hstage]
      subst hb hs'
      rfl
    rw [hoffice]
    exact hf.hand hold hold' hempty
  refine ⟨?_, ⟨_, hsound⟩, ?_, ?_, ?_, ?_, ?_, ?_⟩
  · subst hb hs'
    exact h.in_use
  · refine ⟨?_, ?_, ?_, ?_⟩
    · rw [hthreads]
      exact hnodup
    · intro t₁ ht₁
      rw [hthreads] at ht₁
      have hne' : t₁ ≠ t' := by
        rintro rfl
        exact hnot ht₁
      obtain ⟨hreceiving, hprogress⟩ := h.receivers.asleep t₁ (hthreadsb ▸ mem_cons_of_mem _ ht₁)
      have hne₁ : t₁ ≠ t := by
        rintro rfl
        obtain ⟨_, _, _, hpc₁⟩ := hreceiving
        rw [hpcb] at hpc₁
        cases hpc₁
      obtain ⟨hpc₁, hstate₁, -⟩ := hother t₁ hne₁ hne'
      unfold State.Receiving
      rw [hpc₁, hstate₁]
      exact ⟨hreceiving, hprogress⟩
    · intro t₁ max_size' timeout' tout' hreceiving
      by_cases ht' : t₁ = t'
      · subst ht'
        rw [hpct'] at hreceiving
        cases hreceiving
        refine .inr (.inl ⟨hstate', k, hdata', ?_⟩)
        rw [hkmsg]
        subst hb
        exact hfits
      · have ht : t₁ ≠ t := by
          rintro rfl
          rw [hpc'] at hreceiving
          cases hreceiving
        obtain ⟨hpc₁, hstate₁, hdata₁⟩ := hother t₁ ht ht'
        rw [hpc₁] at hreceiving
        have hfinding := h.receivers.finding t₁ max_size' timeout' tout' hreceiving
        unfold State.Finding at hfinding ⊢
        rw [hthreadsb, mem_cons] at hfinding
        rw [hstate₁, hdata₁, hkmsg, hthreads]
        exact hfinding.imp (fun hasleep => ⟨hasleep.1.resolve_left ht', hasleep.2⟩) id
    · intro _
      rw [hmessages]
      exact hempty
  · apply h.senders.frame
    · subst hb hs'
      rfl
    · intro t₁
      by_cases ht : t₁ = t
      · subst ht
        exact .inr ⟨not_sending hpcb nofun, not_sending hpc' nofun⟩
      · by_cases ht' : t₁ = t'
        · subst ht'
          exact .inr ⟨not_sending hpcb' nofun, not_sending hpct' nofun⟩
        · obtain ⟨hpc₁, hstate₁, -⟩ := hother t₁ ht ht'
          exact .inl ⟨hpc₁, hstate₁⟩
  · apply h.notices.moved hpcs' hpc' nofun nofun
    · apply hf.open_same hsound _ hlt
      · rw [hplace]
        rfl
      · subst hb hs'
        rfl
    · intro k' _
      rw [hkmsg]
    · subst hb hs'
      rfl
  · apply h.results_finish hpcb hpcs' hpc'
    all_goals
      subst hb hs'
      rfl
  · apply h.sizes.moved hpcs' hpc' nofun nofun hkmsg
    all_goals
      subst hb hs'
      rfl
  · subst hb hs'
    exact h.admitted

theorem Inv.placeAll (h : Inv { s with blocked_threads := l }) (hpc : s.pc t = .placing k r) :
    Inv ((s.place k l).finish t k r) := by
  induction l generalizing s with
  | nil => exact h.enqueue hpc
  | cons t' l ih =>
    unfold State.place
    by_cases hfits : (s.kmsg k).msg_size ≤ (s.ipc_data t').size
    · rw [if_pos hfits]
      exact h.hand hpc hfits
    · rw [if_neg hfits]
      exact ih (h.tooLarge hfits) hpc

theorem place_records (s : State T) (k : ℕ) (l : List T) :
    (s.place k l).placed = s.placed ∧ (s.place k l).sent = s.sent := by
  induction l generalizing s with
  | nil => exact ⟨rfl, rfl⟩
  | cons t' l ih =>
    unfold State.place
    by_cases hfits : (s.kmsg k).msg_size ≤ (s.ipc_data t').size
    · rw [if_pos hfits]
      exact ⟨rfl, rfl⟩
    · rw [if_neg hfits]
      exact ih _

theorem Inv.place (h : Inv s) (hpc : s.pc t = .placing k r) :
    Inv { (s.place k s.blocked_threads).setPc t .idle with
      queue_lock := none
      placed := s.placed ++ [k]
      sent := s.sent ++ [(k, r)] } := by
  have hplaced := Inv.placeAll (l := s.blocked_threads) h hpc
  obtain ⟨hrecord, hsent⟩ := place_records s k s.blocked_threads
  unfold State.finish at hplaced
  rw [hrecord, hsent] at hplaced
  exact hplaced

end Placing

end Placing

/-!
## Receiving a message

What `msg_dequeue` does, up to the point where the receiver accounts for its message and sends the
notification that is owed.
-/

section Receiving

open Osf1.Computation

variable {T : Type} {s s' : State T} {t t' : T} {k e max_size tout n : ℕ} {timeout : Bool} {o : SendOptions}
  {r : SendResult} {w : WaitResult} {p : Pc}

section Threads

/-- A thread does not have a message to send. -/
def Pc.Receives : Pc → Prop
  | .idle => True
  | .receiving _ _ _ => True
  | .taken _ _ => True
  | .notifying _ _ _ _ => True
  | _ => False

/-- One thread goes on that has no message to send. -/
structure ReceiverStep (s s' : State T) (t : T) : Prop where
  alone : Alone s s' t
  old : (s.pc t).Receives
  new : (s'.pc t).Receives
  in_use : s'.port_in_use = s.port_in_use
  backlog : s'.port_backlog = s.port_backlog
  kernel : s'.kernel_port = s.kernel_port
  senders : s'.port_blocked_threads = s.port_blocked_threads
  placed : s'.placed = s.placed
  sent : s'.sent = s.sent
  served : s'.served = s.served
  admitted : s'.admitted = s.admitted
  promised : s'.promised = s.promised
  dropped : s'.dropped = s.dropped
  translations : s'.obj_translations = s.obj_translations
  kmsg : s'.kmsg = s.kmsg

theorem Pc.Receives.not_sending (h : (s.pc t).Receives) : ¬s.Sending t := by
  apply Delivery.not_sending rfl
  intro k o tout hpc
  rw [hpc] at h
  exact h

/-- What a receiver leaves as it is. -/
def State.unreceived (s : State T) : Bool × ℤ × Bool × List T × List ℕ × List (ℕ × SendResult) × List ℕ ×
    List (SendOptions × ℤ) × List ℕ × List ℕ × List ℕ × (ℕ → Kmsg) :=
  (s.port_in_use, s.port_backlog, s.kernel_port, s.port_blocked_threads, s.placed, s.sent, s.served, s.admitted,
    s.promised, s.dropped, s.obj_translations, s.kmsg)

theorem ReceiverStep.of {p' : Pc} (ha : Alone s s' t) (hold : s.pc t = p) (hnew : s'.pc t = p') (hp : p.Receives)
    (hp' : p'.Receives) (hsame : s'.unreceived = s.unreceived) : ReceiverStep s s' t := by
  simp only [State.unreceived, Prod.mk.injEq] at hsame
  obtain ⟨h₁, h₂, h₃, h₄, h₅, h₆, h₇, h₈, h₉, h₁₀, h₁₁, h₁₂⟩ := hsame
  exact ⟨ha, hold ▸ hp, hnew ▸ hp', h₁, h₂, h₃, h₄, h₅, h₆, h₇, h₈, h₉, h₁₀, h₁₁, h₁₂⟩

section

variable (hstep : ReceiverStep s s' t)
include hstep

theorem ReceiverStep.inv (h : Inv s) (hoffice : ∃ f, s'.office.Sound f)
    (hreceivers : Receivers s') (hnotices : Notices s') (hsizes : Sizes s') : Inv s' := by
  have hnew := hstep.new
  refine ⟨hstep.in_use.trans h.in_use, hoffice, hreceivers, ?_, hnotices, ?_, hsizes, ?_⟩
  · exact hstep.alone.senders h.senders hstep.senders hstep.old.not_sending hstep.new.not_sending
  · apply h.results.frame hstep.promised hstep.sent hstep.placed hstep.kernel hstep.served
    apply returning_other hstep.alone.pc rfl
    intro k r
    constructor
    · intro hpc
      rw [hpc] at hnew
      exact hnew
    · intro hpc
      rw [hpc] at hnew
      exact hnew
  · rw [hstep.admitted, hstep.backlog]
    exact h.admitted

theorem ReceiverStep.notices (h : Inv s) (hpc : s'.pc t = p)
    (hnotifying : ∀ task name k max_size, p ≠ .notifying task name k max_size)
    (hopen : ∀ k, s'.office.Open k ↔ s.office.Open k) (hentry : s'.entry = s.entry) : Notices s' := by
  apply h.notices.moved hstep.alone.pc hpc hnotifying _ hopen
  · intro k _
    rw [hstep.kmsg]
  · unfold State.notes
    rw [hstep.translations, hentry, hstep.promised, hstep.dropped]
  · rintro k o tout rfl
    exact (hpc ▸ hstep.new : Pc.Receives (.blocked k o tout)).elim

theorem ReceiverStep.sizes {l m : List (ℕ × ℕ)} (h : Inv s) (hpc : s'.pc t = p)
    (htaken : ∀ k max_size, p = .taken k max_size → (s.kmsg k).msg_size ≤ max_size)
    (hnotifying : ∀ task name k max_size, p = .notifying task name k max_size → (s.kmsg k).msg_size ≤ max_size)
    (hreceived : s'.received = s.received ++ l) (hl : ∀ x ∈ l, (s.kmsg x.1).msg_size ≤ x.2)
    (hlarge : s'.too_large = s.too_large ++ m) (hl' : ∀ x ∈ m, x.1 < x.2) : Sizes s' := by
  refine ⟨?_, ?_, ?_⟩
  · intro t' k max_size hhas
    rw [hstep.kmsg]
    unfold State.Has at hhas
    by_cases ht : t' = t
    · subst ht
      rw [hpc] at hhas
      rcases hhas with heq | ⟨task, name, heq⟩
      · exact htaken k max_size heq
      · exact hnotifying task name k max_size heq
    · rw [hstep.alone.pc t' ht] at hhas
      exact h.sizes.taken t' k max_size hhas
  · rw [hreceived, hstep.kmsg]
    exact forall_mem_append.mpr ⟨h.sizes.received, hl⟩
  · rw [hlarge]
    exact forall_mem_append.mpr ⟨h.sizes.too_large, hl'⟩

theorem ReceiverStep.receivers (h : Inv s) (hnot : t ∉ s.blocked_threads)
    (hpc : s'.pc t = p) (hp : ∀ max_size timeout tout, p ≠ .receiving max_size timeout tout)
    (hblocked : s'.blocked_threads = s.blocked_threads) (hempty : s.messages = [] → s'.messages = []) :
    Receivers s' := by
  refine ⟨hblocked ▸ h.receivers.nodup, ?_, ?_, ?_⟩
  · intro t' ht'
    rw [hblocked] at ht'
    have ht : t' ≠ t := by
      rintro rfl
      exact hnot ht'
    obtain ⟨hreceiving, hstate⟩ := h.receivers.asleep t' ht'
    unfold State.Receiving
    rw [hstep.alone.pc t' ht, hstep.alone.state t' ht]
    exact ⟨hreceiving, hstate⟩
  · intro t' max_size timeout tout hreceiving
    obtain ⟨ht, hold⟩ := other_pc (P := (· = .receiving max_size timeout tout)) hstep.alone.pc hpc
      (hp max_size timeout tout) hreceiving
    have hfinding := h.receivers.finding t' max_size timeout tout hold
    unfold State.Finding at hfinding ⊢
    rw [hstep.alone.state t' ht, hstep.alone.data t' ht, hstep.kmsg, hblocked]
    exact hfinding
  · rw [hblocked]
    exact fun hne => hempty (h.receivers.empty hne)

end

theorem not_receiving (hpc : s.pc t = p) (hp : ∀ max_size timeout tout, p ≠ .receiving max_size timeout tout) :
    ¬s.Receiving t := by
  rintro ⟨max_size, timeout, tout, hreceiving⟩
  exact hp max_size timeout tout (hpc ▸ hreceiving)

theorem Receivers.not_mem (h : Receivers s) (hpc : s.pc t = p)
    (hp : ∀ max_size timeout tout, p ≠ .receiving max_size timeout tout) : t ∉ s.blocked_threads :=
  fun hmem => not_receiving hpc hp (h.asleep t hmem).1

theorem Receivers.not_asleep (h : Receivers s) (hstate : s.ipc_state t ≠ .RCV_IN_PROGRESS) : t ∉ s.blocked_threads :=
  fun hmem => hstate (h.asleep t hmem).2

theorem ReceiverStep.quiet {l : List (ℕ × ℕ)} (hstep : ReceiverStep s s' t) (h : Inv s) (hpc : s'.pc t = p)
    (hnotifying : ∀ task name k max_size, p ≠ .notifying task name k max_size)
    (htaken : ∀ k max_size, p = .taken k max_size → (s.kmsg k).msg_size ≤ max_size) (hoffice : s'.office = s.office)
    (hreceivers : Receivers s') (hlarge : s'.too_large = s.too_large ++ l) (hl : ∀ x ∈ l, x.1 < x.2)
    (hentry : s'.entry = s.entry) (hreceived : s'.received = s.received) : Inv s' := by
  apply hstep.inv h (hoffice ▸ h.office) hreceivers
  · exact hstep.notices h hpc hnotifying (fun k => by rw [hoffice]) hentry
  · exact hstep.sizes h hpc htaken (fun task name k m heq => absurd heq (hnotifying task name k m))
      (hreceived.trans (append_nil _).symm) nofun hlarge hl

end Threads

section Dequeueing

variable [DecidableEq T]

theorem Inv.refuse (h : Inv s) (hidle : s.pc t = .idle) (hlarge : max_size < n) :
    Inv { s.setPc t .idle with too_large := s.too_large ++ [(max_size, n)] } := by
  generalize hs' : ({ s.setPc t .idle with too_large := s.too_large ++ [(max_size, n)] } : State T) = s'
  have hpc' : s'.pc t = .idle := by
    rw [← hs']
    exact setPc_self ..
  have hstep : ReceiverStep s s' t := by
    subst hs'
    exact .of (alone_of_pc rfl rfl rfl) hidle hpc' trivial trivial rfl
  have hoffice : s'.office = s.office := by
    apply hstep.alone.same_office (stage_idle hidle) (stage_idle hpc')
    subst hs'
    rfl
  have hreceivers : Receivers s' := by
    apply hstep.receivers h (h.receivers.not_mem hidle nofun) hpc' nofun
    all_goals subst hs'
    · rfl
    · exact id
  apply hstep.quiet h hpc' nofun nofun hoffice hreceivers (l := [(max_size, n)])
  all_goals subst hs'
  · rfl
  · rw [forall_mem_singleton]
    exact hlarge
  · rfl
  · rfl

theorem Inv.take {l : List ℕ} (h : Inv s) (hidle : s.pc t = .idle) (hfirst : s.messages = k :: l)
    (hfits : (s.kmsg k).msg_size ≤ max_size) :
    Inv { s.setPc t (.taken k max_size) with
      messages := l
      reached := s.reached ++ [k] } := by
  generalize hs' : ({ s.setPc t (.taken k max_size) with
      messages := l
      reached := s.reached ++ [k] } : State T) = s'
  have hpc' : s'.pc t = .taken k max_size := by
    rw [← hs']
    exact setPc_self ..
  have hstep : ReceiverStep s s' t := by
    subst hs'
    exact .of (alone_of_pc rfl rfl rfl) hidle hpc' trivial trivial rfl
  have hnew : s'.stage t = some (k, .handed) := by
    unfold State.stage
    rw [hpc']
  obtain ⟨f, hf⟩ := h.office
  have hmem : k ∈ s.office.queue := by
    change k ∈ s.messages
    rw [hfirst]
    exact mem_cons_self
  obtain ⟨hlt, hplace⟩ := (hf.located.queue k).mp hmem
  have hsound : s'.office.Sound (update f k (.held t .handed)) := by
    have hoffice : s'.office = { s.office.give t (some (k, .handed)) with
        queue := l
        reached := s.office.reached ++ [k] } := by
      apply hstep.alone.office hnew
      subst hs'
      rfl
    rw [hoffice]
    exact hf.take (stage_idle hidle) hfirst
  apply hstep.inv h ⟨_, hsound⟩
  · apply hstep.receivers h (h.receivers.not_mem hidle nofun) hpc' nofun
    · subst hs'
      rfl
    · rw [hfirst]
      exact nofun
  · apply hstep.notices h hpc' nofun
    · apply hf.open_same hsound _ hlt
      · rw [hplace]
        rfl
      · subst hs'
        rfl
    · subst hs'
      rfl
  · apply hstep.sizes h hpc' (l := []) (m := []) _ nofun _ nofun _ nofun
    · rintro k' max_size' heq
      cases heq
      exact hfits
    all_goals
      subst hs'
      exact (append_nil _).symm

theorem Inv.expire (h : Inv s) (hidle : s.pc t = .idle) (max_size : ℕ) :
    Inv ({ s with
      ipc_state := update s.ipc_state t .RCV_IN_PROGRESS
      ipc_data := update s.ipc_data t (.msize max_size) }.setPc t .idle) := by
  generalize hs' : { s with
      ipc_state := update s.ipc_state t .RCV_IN_PROGRESS
      ipc_data := update s.ipc_data t (.msize max_size) }.setPc t .idle = s'
  have hpc' : s'.pc t = .idle := by
    rw [← hs']
    exact setPc_self ..
  have hstep : ReceiverStep s s' t := by
    refine .of ?_ hidle hpc' trivial trivial ?_
    all_goals subst hs'
    · exact ⟨fun t' ht => update_of_ne ht .., fun t' ht => update_of_ne ht .., fun t' ht => update_of_ne ht ..⟩
    · rfl
  have hoffice : s'.office = s.office := by
    apply hstep.alone.same_office (stage_idle hidle) (stage_idle hpc')
    subst hs'
    rfl
  have hreceivers : Receivers s' := by
    apply hstep.receivers h (h.receivers.not_mem hidle nofun) hpc' nofun
    all_goals subst hs'
    · rfl
    · exact id
  apply hstep.quiet h hpc' nofun nofun hoffice hreceivers (l := []) _ nofun
  all_goals subst hs'
  · rfl
  · rfl
  · exact (append_nil _).symm

theorem Inv.sleep (h : Inv s) (hidle : s.pc t = .idle) (hempty : s.messages = []) (max_size : ℕ) (timeout : Bool)
    (tout : ℕ) :
    Inv { ({ s with
      ipc_state := update s.ipc_state t .RCV_IN_PROGRESS
      ipc_data := update s.ipc_data t (.msize max_size) } : State T).setPc t
        (.receiving max_size timeout tout) with blocked_threads := s.blocked_threads ++ [t] } := by
  generalize hs' : ({ ({ s with
      ipc_state := update s.ipc_state t .RCV_IN_PROGRESS
      ipc_data := update s.ipc_data t (.msize max_size) } : State T).setPc t
        (.receiving max_size timeout tout) with blocked_threads := s.blocked_threads ++ [t] } : State T) = s'
  have hpc' : s'.pc t = .receiving max_size timeout tout := by
    rw [← hs']
    exact setPc_self ..
  have hstate : s'.ipc_state t = .RCV_IN_PROGRESS := by
    rw [← hs']
    exact update_self ..
  have hdata : s'.ipc_data t = .msize max_size := by
    rw [← hs']
    exact update_self ..
  have hstep : ReceiverStep s s' t := by
    refine .of ?_ hidle hpc' trivial trivial ?_
    all_goals subst hs'
    · exact ⟨fun t' ht => update_of_ne ht .., fun t' ht => update_of_ne ht .., fun t' ht => update_of_ne ht ..⟩
    · rfl
  have hnew : s'.stage t = none := by
    unfold State.stage
    rw [hpc', hstate]
  have hoffice : s'.office = s.office := by
    apply hstep.alone.same_office (stage_idle hidle) hnew
    subst hs'
    rfl
  have hthreads : s'.blocked_threads = s.blocked_threads ++ [t] := by
    rw [← hs']
  have hnot := h.receivers.not_mem hidle nofun
  have hreceivers : Receivers s' := by
    refine ⟨?_, ?_, ?_, ?_⟩
    · rw [hthreads]
      exact Office.nodup_concat h.receivers.nodup hnot
    · rw [hthreads, forall_mem_append, forall_mem_singleton]
      refine ⟨?_, ⟨max_size, timeout, tout, hpc'⟩, hstate⟩
      intro t' hmem
      have ht : t' ≠ t := by
        rintro rfl
        exact hnot hmem
      obtain ⟨hreceiving, hprogress⟩ := h.receivers.asleep t' hmem
      unfold State.Receiving
      rw [hstep.alone.pc t' ht, hstep.alone.state t' ht]
      exact ⟨hreceiving, hprogress⟩
    · intro t' max_size' timeout' tout' hreceiving
      by_cases ht : t' = t
      · subst ht
        rw [hpc'] at hreceiving
        cases hreceiving
        left
        refine ⟨?_, hstate, hdata⟩
        rw [hthreads]
        exact mem_append_right _ (mem_singleton_self t')
      · rw [hstep.alone.pc t' ht] at hreceiving
        have hfinding := h.receivers.finding t' max_size' timeout' tout' hreceiving
        unfold State.Finding at hfinding ⊢
        rw [hstep.alone.state t' ht, hstep.alone.data t' ht, hstep.kmsg, hthreads]
        exact hfinding.imp (fun hasleep => ⟨mem_append_left _ hasleep.1, hasleep.2⟩) id
    · intro _
      rw [← hs']
      exact hempty
  apply hstep.quiet h hpc' nofun nofun hoffice hreceivers (l := []) _ nofun
  all_goals subst hs'
  · rfl
  · rfl
  · exact (append_nil _).symm

theorem Inv.msg_dequeue (h : Inv s) (hidle : s.pc t = .idle) (max_size : ℕ) (timeout : Bool) (tout : ℕ) :
    Inv (s.msg_dequeue t max_size timeout tout) := by
  unfold State.msg_dequeue
  split
  · rename_i k l hmessages
    by_cases hlarge : max_size < (s.kmsg k).msg_size
    · rw [if_pos hlarge]
      exact h.refuse hidle hlarge
    · rw [if_neg hlarge]
      exact h.take hidle hmessages (Nat.le_of_not_lt hlarge)
  · rename_i hmessages
    by_cases hexpired : timeout = true ∧ tout = 0
    · rw [if_pos hexpired]
      exact h.expire hidle max_size
    · rw [if_neg hexpired]
      exact h.sleep hidle hmessages max_size timeout tout

theorem msg_dequeue_setPc (s : State T) (t : T) (p : Pc) (max_size : ℕ) (timeout : Bool) (tout : ℕ) :
    (s.setPc t p).msg_dequeue t max_size timeout tout = s.msg_dequeue t max_size timeout tout := by
  unfold State.msg_dequeue State.setPc
  simp only [update_idem]

theorem Inv.rise (h : Inv s) (hpc : s.pc t = .receiving max_size timeout tout)
    (hstate : s.ipc_state t = .RCV_IN_PROGRESS) :
    Inv ({ s with blocked_threads := s.blocked_threads.erase t }.setPc t .idle) := by
  generalize hs' : { s with blocked_threads := s.blocked_threads.erase t }.setPc t .idle = s'
  have hpc' : s'.pc t = .idle := by
    rw [← hs']
    exact setPc_self ..
  have hstep : ReceiverStep s s' t := by
    subst hs'
    exact .of (alone_of_pc rfl rfl rfl) hpc hpc' trivial trivial rfl
  have hold : s.stage t = none := by
    unfold State.stage
    rw [hpc, hstate]
  have hoffice : s'.office = s.office := by
    apply hstep.alone.same_office hold (stage_idle hpc')
    subst hs'
    rfl
  have hthreads : s'.blocked_threads = s.blocked_threads.erase t := by
    rw [← hs']
    rfl
  have hreceivers : Receivers s' := by
    refine ⟨?_, ?_, ?_, ?_⟩
    · rw [hthreads]
      exact h.receivers.nodup.erase t
    · intro t' ht'
      rw [hthreads] at ht'
      obtain ⟨ht, hmem⟩ := (h.receivers.nodup.mem_erase_iff).mp ht'
      obtain ⟨hreceiving, hprogress⟩ := h.receivers.asleep t' hmem
      unfold State.Receiving
      rw [hstep.alone.pc t' ht, hstep.alone.state t' ht]
      exact ⟨hreceiving, hprogress⟩
    · intro t' max_size' timeout' tout' hreceiving
      obtain ⟨ht, hold'⟩ := other_pc (P := (· = .receiving max_size' timeout' tout')) hstep.alone.pc hpc' nofun
        hreceiving
      have hfinding := h.receivers.finding t' max_size' timeout' tout' hold'
      unfold State.Finding at hfinding ⊢
      rw [hstep.alone.state t' ht, hstep.alone.data t' ht, hstep.kmsg, hthreads, mem_erase_of_ne ht]
      exact hfinding
    · rw [hthreads]
      intro hne
      have hmessages : s'.messages = s.messages := by
        rw [← hs']
        rfl
      rw [hmessages]
      apply h.receivers.empty
      intro hnil
      rw [hnil] at hne
      exact hne rfl
  apply hstep.quiet h hpc' nofun nofun hoffice hreceivers (l := []) _ nofun
  all_goals subst hs'
  · rfl
  · rfl
  · exact (append_nil _).symm

end Dequeueing

end Receiving

end Osf1.Delivery
