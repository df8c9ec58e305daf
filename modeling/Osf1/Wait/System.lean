import Osf1.Wait.Running

/-!
# Waits and their ends

Every wait of a thread but the one it is in has ended, once.  What ends a wait is known to be entitled to it: the
timer of that wait if it times out, and an interruption only if the wait is interruptible.  That needs what `Entitled`
says of the section that ends it.
-/

set_option autoImplicit false

namespace Osf1.Wait

open Function List Option

section Matching

open Osf1.Computation

variable {T C : Type} {s s' : St T C} {t u : T} {n : ℕ} {event : Event} {result : Result} {cause : Cause}

/-- The wait with a number is over. -/
def Over (s : St T C) (t : T) (n : ℕ) : Prop :=
  1 ≤ n ∧ (n < s.asserted t ∨ n = s.asserted t ∧ (s.thread t).state.wait = false)

/-- What is known between the sections of a call. -/
def Knows (s : St T C) : Pc T → Prop
  | .wakeup _ result _ before => result ≠ .timedOut ∧ ∀ t, before t ≤ s.asserted t
  | .clearing t _ result cause seen =>
    seen ≤ s.asserted t ∧ (cause = .clearWait true → (s.waits t seen).interruptible = true) ∧
      (result = .timedOut → cause = .timeout seen)
  | .none | .expired .. | .timeout .. => True

/-- Waits may have been asserted, and those asserted before are as they were. -/
structure Extends (s s' : St T C) : Prop where
  asserted : ∀ t, s.asserted t ≤ s'.asserted t
  waits : ∀ t, ∀ n ≤ s.asserted t, s'.waits t n = s.waits t n

theorem Knows.mono {pc : Pc T} (h : Knows s pc) (hext : Extends s s') : Knows s' pc := by
  cases pc with
  | wakeup event result oneThread before => exact ⟨h.1, fun t => (h.2 t).trans (hext.asserted t)⟩
  | clearing t event result cause seen =>
    refine ⟨h.1.trans (hext.asserted t), ?_, h.2.2⟩
    rw [hext.waits t seen h.1]
    exact h.2.1
  | none => trivial
  | expired t number => trivial
  | timeout t number => trivial

/-- What has been recorded of the ends of a wait. -/
def endings [DecidableEq T] (s : St T C) (t : T) (n : ℕ) : ℕ := s.ended.countP fun e => e.thread = t ∧ e.number = n

/-- The waits are as they were asserted, and have been ended as they should. -/
structure Matching [DecidableEq T] (s : St T C) : Prop where
  waiting : ∀ t, (s.thread t).state.wait = true →
    1 ≤ s.asserted t ∧ s.waits t (s.asserted t) = ⟨(s.thread t).waitEvent, (s.thread t).interruptible⟩
  once : ∀ t n, Over s t n → endings s t n = 1
  none : ∀ t n, ¬Over s t n → endings s t n = 0
  timedOut : ∀ e ∈ s.ended, e.result = .timedOut → e.cause = .timeout e.number
  interrupted : ∀ e ∈ s.ended, e.cause = .clearWait true → (s.waits e.thread e.number).interruptible = true
  calls : ∀ c, Knows s (s.pc c)
  before : ∀ w ∈ s.woken, ∀ t, w.2 t ≤ s.asserted t
  woken : ∀ w ∈ s.woken, w.1 ≠ 0 → ∀ t n, 1 ≤ n → n ≤ w.2 t → (s.waits t n).event = w.1 → Over s t n

variable [DecidableEq T]

theorem Matching.number_le (h : Matching s) {e : Ended T} (he : e ∈ s.ended) : e.number ≤ s.asserted e.thread := by
  by_contra hnot
  have hover : ¬Over s e.thread e.number := by
    rintro ⟨-, hlt | ⟨heq, -⟩⟩
    · omega
    · omega
  have hzero := countP_eq_zero.mp (h.none _ _ hover) e he
  simp at hzero

theorem Matching.quiet (h : Matching s) (hquiet : Quiet s s') : Matching s' := by
  have hover {t : T} {n : ℕ} : Over s' t n ↔ Over s t n := by
    simp only [Over, hquiet.asserted, hquiet.wait]
  have hext : Extends s s' := ⟨fun t => by rw [hquiet.asserted], fun t n _ => by rw [hquiet.waits]⟩
  have hendings {t : T} {n : ℕ} : endings s' t n = endings s t n := by
    rw [endings, endings, hquiet.ended]
  constructor
  · intro t hwait
    rw [hquiet.wait] at hwait
    rw [hquiet.asserted, hquiet.waits, hquiet.waitEvent, hquiet.interruptible t hwait]
    exact h.waiting t hwait
  · intro t n hn
    rw [hendings]
    exact h.once t n (hover.mp hn)
  · intro t n hn
    rw [hendings]
    exact h.none t n fun h' => hn (hover.mpr h')
  · rw [hquiet.ended]
    exact h.timedOut
  · rw [hquiet.ended, hquiet.waits]
    exact h.interrupted
  · intro c
    rw [hquiet.pc]
    exact (h.calls c).mono hext
  · rw [hquiet.woken, hquiet.asserted]
    exact h.before
  · rw [hquiet.woken, hquiet.waits]
    intro w hw hne t n hn hle hevent
    exact hover.mpr (h.woken w hw hne t n hn hle hevent)

theorem Matching.setPc [DecidableEq C] (h : Matching s) (c : C) {q : Pc T} (hq : Knows s q) :
    Matching (s.setPc c q) := by
  refine ⟨h.waiting, h.once, h.none, h.timedOut, h.interrupted, ?_, h.before, h.woken⟩
  intro d
  by_cases hd : d = c
  · simp only [hd, St.setPc, update_self]
    exact hq.mono ⟨fun _ => le_rfl, fun _ _ _ => rfl⟩
  · simp only [St.setPc, update_of_ne hd]
    exact (h.calls d).mono ⟨fun _ => le_rfl, fun _ _ _ => rfl⟩

/-- A wait is ended by what is entitled to it. -/
structure Entitled (s : St T C) (t : T) (result : Result) (cause : Cause) : Prop where
  timedOut : result = .timedOut → cause = .timeout (s.asserted t)
  interrupts : cause = .clearWait true → (s.thread t).interruptible = true

theorem Matching.ends (h : Matching s) (hends : Ends s t result cause s') (hentitled : Entitled s t result cause) :
    Matching s' := by
  obtain ⟨hpos, hwaits⟩ := h.waiting t hends.wait
  -- the wait that the thread is in is over now, and nothing else changes
  have hover {u : T} {n : ℕ} : Over s' u n ↔ Over s u n ∨ u = t ∧ n = s.asserted t := by
    unfold Over
    rw [hends.asserted]
    by_cases hu : u = t
    · rw [hu, hends.wait_eq, hends.wait]
      simp only [and_true, true_and, reduceCtorEq, and_false, or_false]
      omega
    · rw [hends.thread u hu]
      simp only [hu, false_and, or_false]
  have hopen : ¬Over s t (s.asserted t) := by
    rintro ⟨-, hlt | ⟨-, hwait⟩⟩
    · exact absurd hlt (Nat.lt_irrefl _)
    · rw [hends.wait] at hwait
      cases hwait
  have hendings {u : T} {n : ℕ} : endings s' u n = endings s u n + if u = t ∧ n = s.asserted t then 1 else 0 := by
    have hcond : t = u ∧ s.asserted t = n ↔ u = t ∧ n = s.asserted t :=
      ⟨fun heq => ⟨heq.1.symm, heq.2.symm⟩, fun heq => ⟨heq.1.symm, heq.2.symm⟩⟩
    rw [endings, endings, hends.ended, countP_cons]
    simp only [decide_eq_true_eq, hcond]
  have hext : Extends s s' := ⟨fun t => by rw [hends.asserted], fun t n _ => by rw [hends.waits]⟩
  constructor
  · intro u hwait
    have hu : u ≠ t := by
      rintro rfl
      rw [hends.wait_eq] at hwait
      cases hwait
    rw [hends.thread u hu] at hwait ⊢
    rw [hends.asserted, hends.waits]
    exact h.waiting u hwait
  · intro u n hn
    rw [hendings]
    by_cases hself : u = t ∧ n = s.asserted t
    · rw [if_pos hself, hself.1, hself.2, h.none _ _ hopen]
    · rw [if_neg hself, h.once u n ((hover.mp hn).resolve_right hself)]
  · intro u n hn
    have hself : ¬(u = t ∧ n = s.asserted t) := fun hself => hn (hover.mpr (.inr hself))
    rw [hendings, if_neg hself, h.none u n fun h' => hn (hover.mpr (.inl h'))]
  · rw [hends.ended]
    intro e he
    rcases mem_cons.mp he with rfl | he
    · exact hentitled.timedOut
    · exact h.timedOut e he
  · rw [hends.ended, hends.waits]
    intro e he hcause
    rcases mem_cons.mp he with rfl | he
    · rw [hwaits]
      exact hentitled.interrupts hcause
    · exact h.interrupted e he hcause
  · intro c
    rw [hends.pc]
    exact (h.calls c).mono hext
  · rw [hends.woken, hends.asserted]
    exact h.before
  · rw [hends.woken, hends.waits]
    intro w hw hne u n hn hle hevent
    exact hover.mpr (.inl (h.woken w hw hne u n hn hle hevent))

theorem asserted_le_of_wakes (hwakes : Relation.ReflTransGen (Wakes result) s s') (t : T) :
    s.asserted t ≤ s'.asserted t := by
  induction hwakes with
  | refl => exact le_rfl
  | tail _ hstep ih =>
    obtain ⟨u, hends⟩ := hstep
    rw [hends.asserted]
    exact ih

theorem Matching.wakes (h : Matching s) (hwakes : Relation.ReflTransGen (Wakes result) s s') (hresult : result ≠ .timedOut) :
    Matching s' := by
  induction hwakes with
  | refl => exact h
  | tail _ hstep ih =>
    obtain ⟨t, hends⟩ := hstep
    exact ih.ends hends ⟨fun heq => absurd heq hresult, nofun⟩

theorem Matching.clears [DecidableEq C] (h : Matching s) {c : C} {interruptOnly : Bool}
    (hclears : Clears s c t result interruptOnly cause s')
    (htimed : (s.thread t).state.wait = true → result = .timedOut → cause = .timeout (s.asserted t))
    (hcause : cause = .clearWait true → interruptOnly = true) : Matching s' := by
  cases hclears with
  | leave => exact h.setPc c trivial
  | look hwait hevent hinterruptible =>
    apply h.setPc c
    refine ⟨le_rfl, fun hc => ?_, htimed hwait⟩
    rw [(h.waiting t hwait).2]
    exact hinterruptible (hcause hc)
  | idle hretimed => exact (h.quiet hretimed.quiet).setPc c trivial
  | ends hends hinterruptible =>
    exact (h.ends hends ⟨htimed hends.wait, fun hc => hinterruptible (hcause hc)⟩).setPc c trivial

theorem Matching.asserts {interruptible : Bool} (h : Matching s) (hasserts : Asserts s t event interruptible s')
    (hwait : (s.thread t).state.wait = false) : Matching s' := by
  have hasserted : s'.asserted t = s.asserted t + 1 := by
    rw [hasserts.asserted, update_self]
  have hasserted' {u : T} (hu : u ≠ t) : s'.asserted u = s.asserted u := by
    rw [hasserts.asserted, update_of_ne hu]
  have hwait' : (s'.thread t).state.wait = true := by
    rw [hasserts.state]
  have hover {u : T} {n : ℕ} : Over s' u n ↔ Over s u n := by
    unfold Over
    by_cases hu : u = t
    · rw [hu, hasserted, hwait, hwait']
      simp only [and_true, reduceCtorEq, and_false, or_false]
      omega
    · rw [hasserts.thread u hu, hasserted' hu]
  have hext : Extends s s' := by
    refine ⟨fun u => ?_, fun u n hn => ?_⟩
    · by_cases hu : u = t
      · rw [hu, hasserted]
        exact Nat.le_succ _
      · rw [hasserted' hu]
    · rw [hasserts.waits]
      by_cases hu : u = t
      · rw [hu] at hn ⊢
        rw [update_self, update_of_ne (by omega)]
      · rw [update_of_ne hu]
  have hendings {u : T} {n : ℕ} : endings s' u n = endings s u n := by
    rw [endings, endings, hasserts.ended]
  constructor
  · intro u hu
    by_cases hut : u = t
    · rw [hut, hasserted, hasserts.waits, update_self, update_self, hasserts.waitEvent, hasserts.interruptible_eq]
      exact ⟨Nat.le_add_left 1 _, rfl⟩
    · rw [hasserts.thread u hut] at hu ⊢
      rw [hasserted' hut, hext.waits u _ le_rfl]
      exact h.waiting u hu
  · intro u n hn
    rw [hendings]
    exact h.once u n (hover.mp hn)
  · intro u n hn
    rw [hendings]
    exact h.none u n fun h' => hn (hover.mpr h')
  · rw [hasserts.ended]
    exact h.timedOut
  · rw [hasserts.ended]
    intro e he hcause
    rw [hext.waits _ _ (h.number_le he)]
    exact h.interrupted e he hcause
  · intro c
    rw [hasserts.pc]
    exact (h.calls c).mono hext
  · rw [hasserts.woken]
    intro w hw u
    exact (h.before w hw u).trans (hext.asserted u)
  · rw [hasserts.woken]
    intro w hw hne u n hn hle hevent
    rw [hext.waits u n (hle.trans (h.before w hw u))] at hevent
    exact hover.mpr (h.woken w hw hne u n hn hle hevent)

theorem Matching.record (h : Matching s) {before : T → ℕ} (hbefore : ∀ t, before t ≤ s.asserted t)
    (hnone : event ≠ 0 → ∀ t, (s.thread t).waitEvent ≠ event) :
    Matching { s with woken := (event, before) :: s.woken } := by
  refine ⟨h.waiting, h.once, h.none, h.timedOut, h.interrupted, h.calls, ?_, ?_⟩
  · intro w hw
    rcases mem_cons.mp hw with rfl | hw
    · exact hbefore
    · exact h.before w hw
  · intro w hw hne t n hn hle hevent
    rcases mem_cons.mp hw with rfl | hw
    · refine ⟨hn, ?_⟩
      rcases Nat.lt_or_eq_of_le (hle.trans (hbefore t)) with hlt | heq
      · exact .inl hlt
      · refine .inr ⟨heq, ?_⟩
        by_contra hwait
        have hopen := (h.waiting t (Bool.not_eq_false _ ▸ hwait)).2
        have hevent' : (s.waits t n).event = event := hevent
        rw [heq, hopen] at hevent'
        exact hnone hne t hevent'
    · exact h.woken w hw hne t n hn hle hevent

end Matching

/-!
## Waits over whole runs

The runs start with no thread waiting, and take the sections in any order.  What is asked of a step is that a thread
which a call comes back to is still in the wait that the call is about.
-/

section System

open Osf1.Computation

/-- No thread waits, and no call has been made. -/
structure Init {T C : Type} (s : St T C) : Prop where
  thread : ∀ t, (s.thread t).waitEvent = 0 ∧ (s.thread t).state.wait = false
  fits : ∀ t, Fits (s.place t) (s.thread t).state ∧ ∀ u, s.place t ≠ .leaving u
  waitQueue : ∀ i, s.waitQueue i = []
  callouts : s.callouts = []
  pc : ∀ c, s.pc c = .none
  asserted : ∀ t, s.asserted t = 0
  ended : s.ended = []
  woken : s.woken = []

variable {T C : Type} {s s' : St T C}

theorem Init.sound (h : Init s) : Sound s := by
  constructor
  · refine ⟨fun i => ?_, fun i t => ?_⟩
    · rw [h.waitQueue]
      exact nodup_nil
    · rw [h.waitQueue, Thread.queue_eq_none (h.thread t).1]
      exact iff_of_false not_mem_nil nofun
  · intro t hne
    exact absurd (h.thread t).1 hne
  · exact fun t => (h.fits t).1
  · intro t u hu
    exact absurd hu ((h.fits t).2 u)
  · intro t t' u hu
    exact absurd hu ((h.fits t).2 u)
  · intro c t event result cause seen hc
    rw [h.pc] at hc
    cases hc

theorem Init.matching [DecidableEq T] (h : Init s) : Matching s := by
  have hover {t : T} {n : ℕ} : ¬Over s t n := by
    rintro ⟨hpos, hn⟩
    rw [h.asserted] at hn
    omega
  constructor
  · intro t hwait
    rw [(h.thread t).2] at hwait
    cases hwait
  · exact fun t n hn => absurd hn hover
  · intro t n _
    rw [endings, h.ended]
    rfl
  · rw [h.ended]
    exact nofun
  · rw [h.ended]
    exact nofun
  · intro c
    rw [h.pc]
    trivial
  · rw [h.woken]
    exact nofun
  · rw [h.woken]
    exact nofun

variable [DecidableEq T] [DecidableEq C] {l : Label T C} {c : C}

def system (T C : Type) [DecidableEq T] [DecidableEq C] : System (St T C) (Label T C) where
  init := Init
  step s l s' := exec s l = some (.ok s')

/-- A wait is asserted by a thread that does not wait; only the timer times out; and where `clear_wait` finds the event
that it has read, or `thread_timeout` a wait, the thread has not waited again. -/
def Meets (s : St T C) : Label T C → Prop
  | .assertWait t _ _ => (s.thread t).state.wait = false
  | .wakeup _ _ result _ | .wakeupHi _ _ result | .clearWait _ _ result _ => result ≠ .timedOut
  | .clearWait₂ c => ∀ t event result cause seen, s.pc c = .clearing t event result cause seen →
      (s.thread t).waitEvent = event → s.asserted t = seen
  | .timeoutClear c => ∀ t number, s.pc c = .timeout t number →
      (s.thread t).state.wait = true → s.asserted t = number
  | _ => True

/-- How a section ends: it keeps the invariant, and that of the waits where it meets the condition; or `assert_wait`
panics. -/
def Keeps (s : St T C) (l : Label T C) (r : Except String (St T C)) : Prop :=
  (∃ s', r = .ok s' ∧ Sound s' ∧ (Matching s → Meets s l → Matching s')) ∨ r = .error "assert_wait"

omit [DecidableEq C] in
theorem keeps_quiet (h : Sound s' ∧ Quiet s s') : Keeps s l (.ok s') :=
  .inl ⟨s', rfl, h.1, fun hmatching _ => hmatching.quiet h.2⟩

theorem threadWakeupPrim_keeps (h : Sound s) {event : Event} {result : Result} {oneThread : Bool}
    {before : T → ℕ} (hpc : s.pc c = .wakeup event result oneThread before) :
    Keeps s (.wakeupSection c) (threadWakeupPrim s c event result oneThread before) := by
  obtain ⟨s₁, s', hrun, hwakes, hend⟩ := @threadWakeupPrim_spec _ _ _ s event result _ oneThread h c before
  have hsound := h.wakes hwakes
  refine .inl ⟨s', hrun, ?_, ?_⟩
  · rcases hend with ⟨rfl, -⟩ | rfl | rfl
    · have hwoken : Sound { s₁ with woken := (event, before) :: s₁.woken } :=
        ⟨hsound.placed, hsound.waits, hsound.fits, hsound.coming, hsound.alone, hsound.clearing⟩
      exact hwoken.setPc c nofun
    · exact hsound.setPc c nofun
    · exact hsound
  · intro hmatching _
    have hknows := hmatching.calls c
    rw [hpc] at hknows
    have hmatching₁ := hmatching.wakes hwakes hknows.1
    rcases hend with ⟨rfl, hnone⟩ | rfl | rfl
    · have hbefore (t : T) : before t ≤ s₁.asserted t := (hknows.2 t).trans (asserted_le_of_wakes hwakes t)
      exact (hmatching₁.record hbefore hnone).setPc c trivial
    · exact hmatching₁.setPc c trivial
    · exact hmatching₁

theorem clearWait_keeps (h : Sound s) {t : T} {result : Result} {interruptOnly : Bool} {cause : Cause}
    (htimed : Matching s → Meets s l → (s.thread t).state.wait = true → result = .timedOut →
      cause = .timeout (s.asserted t)) (hcause : cause = .clearWait true → interruptOnly = true) :
    Keeps s l (.ok (clearWait s c t result interruptOnly cause)) := by
  have hclears := clearWait_spec h c t result interruptOnly cause
  exact .inl ⟨_, rfl, h.clears hclears, fun hmatching hmeets =>
    hmatching.clears hclears (htimed hmatching hmeets) hcause⟩

theorem clearWait₂_keeps (h : Sound s) {t : T} {event : Event} {result : Result} {cause : Cause} {seen : ℕ}
    (hpc : s.pc c = .clearing t event result cause seen) :
    Keeps s (.clearWait₂ c) (.ok (clearWait₂ s c t event result cause)) := by
  obtain ⟨s₁, heq, hs₁⟩ := @clearWait₂_spec _ _ _ s t event result _ cause h c (h.clearing c _ _ _ _ _ hpc)
  rw [heq]
  rcases hs₁ with rfl | ⟨hevent, hends⟩
  · exact .inl ⟨_, rfl, h.setPc c nofun, fun hmatching _ => hmatching.setPc c trivial⟩
  · refine .inl ⟨_, rfl, (h.ends hends).setPc c nofun, fun hmatching hmeets => ?_⟩
    have hseen := hmeets t event result cause seen hpc hevent
    have hknows := hmatching.calls c
    rw [hpc, Knows, ← hseen, (hmatching.waiting t hends.wait).2] at hknows
    exact (hmatching.ends hends ⟨hknows.2.2, hknows.2.1⟩).setPc c trivial

theorem exec_keeps (h : Sound s) {r : Except String (St T C)} (hexec : exec s l = some r) : Keeps s l r := by
  cases l with
  | assertWait t event interruptible =>
    simp only [exec] at hexec
    by_cases hguard : s.place t = .running ∧ (s.thread t).state.idle = false
    · rw [if_pos hguard] at hexec
      obtain rfl := some_inj.mp hexec
      cases hrun : assertWait s t event interruptible with
      | error message =>
        rw [assertWait_error hrun]
        exact .inr rfl
      | ok s' =>
        have hasserts := assertWait_spec hrun
        exact .inl ⟨s', rfl, h.asserts hasserts hguard.1 hguard.2, fun hmatching hwait => hmatching.asserts hasserts hwait⟩
    · rw [if_neg hguard] at hexec
      cases hexec
  | setTimeout t i =>
    simp only [exec] at hexec
    by_cases hguard : s.place t = .running
    · rw [if_pos hguard] at hexec
      obtain rfl := some_inj.mp hexec
      exact keeps_quiet (threadSetTimeout_spec h t i)
    · rw [if_neg hguard] at hexec
      cases hexec
  | take t newThread =>
    simp only [exec] at hexec
    split at hexec
    next hguard =>
      obtain rfl := some_inj.mp hexec
      exact keeps_quiet (takeThread_spec h hguard.1 hguard.2)
    next => cases hexec
  | continue' t =>
    simp only [exec] at hexec
    split at hexec
    next newThread hplace =>
      obtain rfl := some_inj.mp hexec
      obtain ⟨s', hrun, hspec⟩ := threadContinue_spec h hplace
      rw [hrun]
      exact keeps_quiet hspec
    next => cases hexec
  | wakeup c event result oneThread =>
    simp only [exec] at hexec
    split at hexec
    next hpc =>
      obtain rfl := some_inj.mp hexec
      refine .inl ⟨_, rfl, h.setPc c nofun, fun hmatching hresult => hmatching.setPc c ⟨hresult, fun _ => le_rfl⟩⟩
    next => cases hexec
  | wakeupSection c =>
    simp only [exec] at hexec
    split at hexec
    next hpc =>
      obtain rfl := some_inj.mp hexec
      exact threadWakeupPrim_keeps h hpc
    next => cases hexec
  | wakeupHi schedPri event result =>
    obtain rfl := some_inj.mp hexec
    obtain ⟨s', hrun, hspec⟩ := threadWakeupHi_spec h schedPri
    rw [hrun]
    rcases hspec with rfl | hwakes
    · exact keeps_quiet ⟨h, Quiet.refl _⟩
    · have hwakes' := Relation.ReflTransGen.single hwakes
      exact .inl ⟨s', rfl, h.wakes hwakes', fun hmatching hresult => hmatching.wakes hwakes' hresult⟩
  | clearWait c t result interruptOnly =>
    simp only [exec] at hexec
    split at hexec
    next hpc =>
      obtain rfl := some_inj.mp hexec
      apply clearWait_keeps h
      · exact fun _ hmeets _ htimed => absurd htimed hmeets
      · exact fun hcause => Cause.clearWait.inj hcause
    next => cases hexec
  | clearWait₂ c =>
    simp only [exec] at hexec
    split at hexec
    next hpc =>
      obtain rfl := some_inj.mp hexec
      exact clearWait₂_keeps h hpc
    next => cases hexec
  | expire c =>
    simp only [exec] at hexec
    split at hexec
    next t number rest hpc hcallouts =>
      obtain rfl := some_inj.mp hexec
      have hsound : Sound { s with callouts := rest } := ⟨h.placed, h.waits, h.fits, h.coming, h.alone, h.clearing⟩
      have hquiet : Quiet s { s with callouts := rest } :=
        ⟨fun _ => rfl, fun _ => rfl, fun _ _ => rfl, rfl, rfl, rfl, rfl, rfl⟩
      exact .inl ⟨_, rfl, hsound.setPc c nofun, fun hmatching _ => (hmatching.quiet hquiet).setPc c trivial⟩
    next => cases hexec
  | threadTimeout c =>
    simp only [exec] at hexec
    split at hexec
    next t number hpc =>
      obtain rfl := some_inj.mp hexec
      have hspec := @Sound.setState _ _ s t _ h { s.thread t with timerSet := false } rfl rfl (fun _ => rfl) (h.fits t)
      exact .inl ⟨_, rfl, hspec.1.setPc c nofun, fun hmatching _ => (hmatching.quiet hspec.2).setPc c trivial⟩
    next => cases hexec
  | timeoutClear c =>
    simp only [exec] at hexec
    split at hexec
    next t number hpc =>
      obtain rfl := some_inj.mp hexec
      apply clearWait_keeps h
      · intro _ hmeets hwait _
        rw [hmeets t number hpc hwait]
      · exact nofun
    next => cases hexec
  | hold t =>
    simp only [exec] at hexec
    split at hexec
    next hidle =>
      obtain rfl := some_inj.mp hexec
      exact keeps_quiet (threadHold_spec h hidle)
    next => cases hexec
  | release t =>
    simp only [exec] at hexec
    split at hexec
    next hidle =>
      obtain rfl := some_inj.mp hexec
      exact keeps_quiet (threadRelease_spec h hidle)
    next => cases hexec
  | stop t =>
    obtain rfl := some_inj.mp hexec
    exact keeps_quiet (stopQueued_spec h t)
  | swapout t =>
    obtain rfl := some_inj.mp hexec
    exact keeps_quiet (markSwapped_spec h t)
  | swapin t =>
    obtain rfl := some_inj.mp hexec
    exact keeps_quiet (threadDoswapin_spec h t)

theorem sound_of_reachable (h : (system T C).Reachable s) : Sound s := by
  apply h.invariant
  · exact fun s h => h.sound
  · intro s l s' _ hsound hstep
    obtain ⟨s₁, heq, hs₁, -⟩ := (exec_keeps hsound hstep).resolve_right nofun
    rwa [Except.ok.inj heq]

theorem matching_of_reachable (h : ((system T C).restrict Meets).Reachable s) : Matching s := by
  apply h.invariant
  · exact fun s h => h.matching
  · intro s l s' hreach hmatching hstep
    obtain ⟨s₁, heq, -, hs₁⟩ := (exec_keeps (sound_of_reachable hreach.of_restrict) hstep.2).resolve_right nofun
    rw [Except.ok.inj heq]
    exact hs₁ hmatching hstep.1

/-- Wait and wakeup are matched.  `woken` has the wakeups of all threads that have come to their end, with the waits
that had been asserted when they started; event 0 is none. -/
structure Matched (s : St T C) : Prop where
  queue : ∀ t i, (s.waitQueue i).count t =
    if (s.thread t).waitEvent ≠ 0 ∧ i = waitHash (s.thread t).waitEvent then 1 else 0
  waiting : ∀ t, (s.thread t).waitEvent ≠ 0 → (s.thread t).state.wait = true
  stopped : ∀ t, (s.thread t).state.run = false → (s.thread t).state.susp = false → (s.thread t).state.wait = true
  once : ∀ t n, 1 ≤ n → n ≤ s.asserted t →
    endings s t n = if n = s.asserted t ∧ (s.thread t).state.wait = true then 0 else 1
  woken : ∀ w ∈ s.woken, w.1 ≠ 0 → ∀ t n, 1 ≤ n → n ≤ w.2 t → (s.waits t n).event = w.1 → endings s t n = 1
  timedOut : ∀ e ∈ s.ended, e.result = .timedOut → e.cause = .timeout e.number
  interrupted : ∀ e ∈ s.ended, e.cause = .clearWait true → (s.waits e.thread e.number).interruptible = true
  noPanic : ∀ l message, exec s l = some (.error message) → message = "assert_wait"

theorem Sound.matched (h : Sound s) (hmatching : Matching s) : Matched s := by
  constructor
  · intro t i
    by_cases hmem : t ∈ s.waitQueue i
    · rw [if_pos (h.mem_iff.mp hmem), count_eq_one_of_mem (h.placed.nodup i) hmem]
    · rw [if_neg fun heq => hmem (h.mem_iff.mpr heq), count_eq_zero_of_not_mem hmem]
  · exact h.waits
  · exact fun t => (h.fits t).stopped
  · intro t n hpos hle
    by_cases hopen : n = s.asserted t ∧ (s.thread t).state.wait = true
    · rw [if_pos hopen]
      apply hmatching.none
      rintro ⟨-, hlt | ⟨-, hwait⟩⟩
      · omega
      · rw [hopen.2] at hwait
        cases hwait
    · rw [if_neg hopen]
      apply hmatching.once
      refine ⟨hpos, ?_⟩
      rcases Nat.lt_or_eq_of_le hle with hlt | heq
      · exact .inl hlt
      · exact .inr ⟨heq, Bool.eq_false_iff.mpr fun hwait => hopen ⟨heq, hwait⟩⟩
  · intro w hw hne t n hpos hle hevent
    exact hmatching.once t n (hmatching.woken w hw hne t n hpos hle hevent)
  · exact hmatching.timedOut
  · exact hmatching.interrupted
  · intro l message hexec
    rcases exec_keeps h hexec with ⟨s', heq, -⟩ | heq
    · cases heq
    · exact Except.error.inj heq

/-- In every run whose sections meet the condition, wait and wakeup are matched. -/
theorem wait_wakeup_matched (h : ((system T C).restrict Meets).Reachable s) : Matched s :=
  (sound_of_reachable h.of_restrict).matched (matching_of_reachable h)

/-- One thread is running, the others are suspended. -/
def oneRunning : St ℕ ℕ where
  thread t := ⟨0, true, .awakened, false, if t = 0 then ⟨false, false, true, false, false⟩ else
    ⟨false, true, false, false, false⟩⟩
  place t := if t = 0 then .running else .away
  waitQueue _ := []
  callouts := []
  pc _ := .none
  asserted _ := 0
  waits _ _ := ⟨0, true⟩
  ended := []
  woken := []

theorem oneRunning_init : Init oneRunning := by
  constructor
  · intro t
    refine ⟨rfl, ?_⟩
    simp only [oneRunning]
    split
    · rfl
    · rfl
  · intro t
    by_cases ht : t = 0
    · simp only [oneRunning, if_pos ht]
      exact ⟨⟨nofun, nofun, rfl, rfl⟩, nofun⟩
    · simp only [oneRunning, if_neg ht]
      exact ⟨⟨nofun, nofun, nofun⟩, nofun⟩
  · exact fun _ => rfl
  · rfl
  · exact fun _ => rfl
  · exact fun _ => rfl
  · rfl
  · rfl

/-- A thread waits for event 1, and is woken. -/
theorem wait_wakeup_matched_woken :
    ∃ s : St ℕ ℕ, s.ended = [⟨0, 1, .awakened, .wakeup⟩] ∧ s.woken.length = 1 ∧ Matched s := by
  have h₀ : ((system ℕ ℕ).restrict Meets).Reachable oneRunning := .init oneRunning_init
  have h₁ := @System.Reachable.step _ _ ((system ℕ ℕ).restrict Meets) _ _ (.assertWait 0 1 false) h₀ ⟨rfl, rfl⟩
  have h₂ := @System.Reachable.step _ _ ((system ℕ ℕ).restrict Meets) _ _ (.wakeup 1 1 .awakened false) h₁ ⟨nofun, rfl⟩
  have h₃ := @System.Reachable.step _ _ ((system ℕ ℕ).restrict Meets) _ _ (.wakeupSection 1) h₂ ⟨trivial, rfl⟩
  exact ⟨_, rfl, rfl, wait_wakeup_matched h₃⟩

/-- Sections in their order. -/
def run (s : St T C) : List (Label T C) → Option (St T C)
  | [] => some s
  | l :: ls =>
    match exec s l with
    | some (.ok s') => run s' ls
    | _ => none

theorem reachable_run {ls : List (Label T C)} (hs : (system T C).Reachable s) (hrun : run s ls = some s') :
    (system T C).Reachable s' := by
  induction ls generalizing s with
  | nil =>
    obtain rfl := some_inj.mp hrun
    exact hs
  | cons l ls ih =>
    unfold run at hrun
    split at hrun
    next s₁ hexec => exact ih (hs.step hexec) hrun
    next => cases hrun

/-- A thread waits for event 1 with a timer and is woken before `thread_timeout` runs, which then ends its wait
for event 2. -/
def lateTimer : List (Label ℕ ℕ) :=
  [.assertWait 0 1 false, .setTimeout 0 0, .expire 0, .wakeup 1 1 .awakened false, .wakeupSection 1,
    .assertWait 0 2 false, .threadTimeout 0, .timeoutClear 0, .clearWait₂ 0]

theorem lateTimer_ended : (run oneRunning lateTimer).map (fun s => s.ended) =
    some [⟨0, 2, .timedOut, .timeout 1⟩, ⟨0, 1, .awakened, .wakeup⟩] := by
  decide

theorem wait_wakeup_not_matched : ¬∀ s : St ℕ ℕ, (system ℕ ℕ).Reachable s → Matched s := by
  intro hall
  obtain ⟨s, hrun, hended⟩ := map_eq_some_iff.mp lateTimer_ended
  have hmatched := hall s (reachable_run (.init oneRunning_init) hrun)
  have hcause := hmatched.timedOut ⟨0, 2, .timedOut, .timeout 1⟩ (by rw [hended]; exact mem_cons_self ..) rfl
  cases hcause

end System

end Osf1.Wait
