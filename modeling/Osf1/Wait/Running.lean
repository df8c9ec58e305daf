import Osf1.Wait.Model

/-!
# The sections that end no wait

Setting a timer, going on with another thread, suspending and swapping leave the waits as they are, and they keep the
invariant.  A thread that has left its processor is found in a state that `thread_continue` knows.
-/

set_option autoImplicit false

namespace Osf1.Wait

open Function List

section Running

open Osf1.Computation

variable {T C : Type} {s s' : St T C} {t u : T}

/-- The waits are as they were. -/
structure Quiet (s s' : St T C) : Prop where
  waitEvent : ∀ t, (s'.thread t).waitEvent = (s.thread t).waitEvent
  wait : ∀ t, (s'.thread t).state.wait = (s.thread t).state.wait
  interruptible : ∀ t, (s.thread t).state.wait = true → (s'.thread t).interruptible = (s.thread t).interruptible
  asserted : s'.asserted = s.asserted
  waits : s'.waits = s.waits
  ended : s'.ended = s.ended
  woken : s'.woken = s.woken
  pc : s'.pc = s.pc

theorem Quiet.refl (s : St T C) : Quiet s s := ⟨fun _ => rfl, fun _ => rfl, fun _ _ => rfl, rfl, rfl, rfl, rfl, rfl⟩

theorem Retimed.quiet (h : Retimed s t s') : Quiet s s' := by
  obtain ⟨b, hself⟩ := h.self
  constructor
  · intro u
    by_cases hu : u = t
    · rw [hu, hself]
    · rw [h.thread u hu]
  · intro u
    by_cases hu : u = t
    · rw [hu, hself]
    · rw [h.thread u hu]
  · intro u _
    by_cases hu : u = t
    · rw [hu, hself]
    · rw [h.thread u hu]
  · exact h.asserted
  · exact h.waits
  · exact h.ended
  · exact h.woken
  · exact h.pc

/-- The step changes one thread, but not its event. -/
structure Changes (s : St T C) (t : T) (s' : St T C) : Prop where
  thread : ∀ u, u ≠ t → s'.thread u = s.thread u
  place : ∀ u, u ≠ t → s'.place u = s.place u
  waitEvent : (s'.thread t).waitEvent = (s.thread t).waitEvent
  wait : (s'.thread t).state.wait = (s.thread t).state.wait
  interruptible : (s.thread t).state.wait = true → (s'.thread t).interruptible = (s.thread t).interruptible
  stay : s'.place t = s.place t ∨ s.place t ≠ .coming ∧ ∀ u, s'.place t ≠ .leaving u
  waitQueue : s'.waitQueue = s.waitQueue
  asserted : s'.asserted = s.asserted
  waits : s'.waits = s.waits
  ended : s'.ended = s.ended
  woken : s'.woken = s.woken
  pc : s'.pc = s.pc

theorem Changes.quiet (h : Changes s t s') : Quiet s s' := by
  constructor
  · intro u
    by_cases hu : u = t
    · rw [hu, h.waitEvent]
    · rw [h.thread u hu]
  · intro u
    by_cases hu : u = t
    · rw [hu, h.wait]
    · rw [h.thread u hu]
  · intro u hwait
    by_cases hu : u = t
    · rw [hu] at hwait ⊢
      exact h.interruptible hwait
    · rw [h.thread u hu]
  · exact h.asserted
  · exact h.waits
  · exact h.ended
  · exact h.woken
  · exact h.pc

theorem Sound.changes (h : Sound s) (hchanges : Changes s t s') (hfits : Fits (s'.place t) (s'.thread t).state) :
    Sound s' := by
  apply h.change hchanges.waitQueue hchanges.pc hchanges.thread hchanges.place hchanges.waitEvent
  · intro hne
    rw [hchanges.wait]
    exact h.waits t hne
  · exact hfits
  · exact hchanges.stay

section Steps

variable [DecidableEq T]

theorem changes_setThread {x : Thread} (hevent : x.waitEvent = (s.thread t).waitEvent)
    (hwait : x.state.wait = (s.thread t).state.wait)
    (hinterruptible : (s.thread t).state.wait = true → x.interruptible = (s.thread t).interruptible) :
    Changes s t (s.setThread t x) := by
  have hself : (s.setThread t x).thread t = x := St.setThread_self x
  constructor
  · exact fun v hv => St.setThread_of_ne hv x
  · exact fun _ _ => rfl
  · rw [hself, hevent]
  · rw [hself, hwait]
  · rw [hself]
    exact hinterruptible
  · exact .inl rfl
  all_goals rfl

theorem Changes.setPlace (h : Changes s t s') {q : Place T} (hcoming : s.place t ≠ .coming)
    (hleaving : ∀ u, q ≠ .leaving u) : Changes s t (s'.setPlace t q) := by
  constructor
  · exact h.thread
  · intro v hv
    rw [St.setPlace_of_ne hv, h.place v hv]
  · exact h.waitEvent
  · exact h.wait
  · exact h.interruptible
  · rw [St.setPlace_self]
    exact .inr ⟨hcoming, hleaving⟩
  · exact h.waitQueue
  · exact h.asserted
  · exact h.waits
  · exact h.ended
  · exact h.woken
  · exact h.pc

section

variable (h : Sound s)
include h

theorem threadSetTimeout_spec (t : T) (i : ℕ) :
    Sound (threadSetTimeout s t i) ∧ Quiet s (threadSetTimeout s t i) := by
  unfold threadSetTimeout
  by_cases hwait : (s.thread t).state.wait = true
  · rw [if_pos hwait]
    have hchanges := @changes_setThread _ _ s t _ { s.thread t with timerSet := true } rfl rfl fun _ => rfl
    have hchanges' : Changes s t { s.setThread t { s.thread t with timerSet := true } with
        callouts := s.callouts.insertIdx i (t, s.asserted t) } :=
      ⟨hchanges.thread, hchanges.place, hchanges.waitEvent, hchanges.wait, hchanges.interruptible, hchanges.stay,
        rfl, rfl, rfl, rfl, rfl, rfl⟩
    refine ⟨h.changes hchanges' ?_, hchanges'.quiet⟩
    simp only [St.setThread_self]
    exact h.fits t
  · rw [if_neg hwait]
    exact ⟨h, Quiet.refl s⟩

theorem Sound.setState {x : Thread} (hevent : x.waitEvent = (s.thread t).waitEvent)
    (hwait : x.state.wait = (s.thread t).state.wait)
    (hinterruptible : (s.thread t).state.wait = true → x.interruptible = (s.thread t).interruptible)
    (hfits : Fits (s.place t) x.state) : Sound (s.setThread t x) ∧ Quiet s (s.setThread t x) := by
  have hchanges := changes_setThread hevent hwait hinterruptible
  refine ⟨h.changes hchanges ?_, hchanges.quiet⟩
  rw [St.setThread_self]
  exact hfits

theorem Sound.setStatePlace {x : Thread} {q : Place T} (hevent : x.waitEvent = (s.thread t).waitEvent)
    (hwait : x.state.wait = (s.thread t).state.wait)
    (hinterruptible : (s.thread t).state.wait = true → x.interruptible = (s.thread t).interruptible)
    (hfits : Fits q x.state) (hcoming : s.place t ≠ .coming) (hleaving : ∀ u, q ≠ .leaving u) :
    Sound ((s.setThread t x).setPlace t q) ∧ Quiet s ((s.setThread t x).setPlace t q) := by
  have hchanges := (changes_setThread hevent hwait hinterruptible).setPlace hcoming hleaving
  refine ⟨h.changes hchanges ?_, hchanges.quiet⟩
  have hthread : ((s.setThread t x).setPlace t q).thread t = x := St.setThread_self x
  rw [hthread, St.setPlace_self]
  exact hfits

theorem threadHold_spec (hidle : (s.thread t).state.idle = false) :
    Sound (threadHold s t) ∧ Quiet s (threadHold s t) := by
  apply h.setState
  · rfl
  · rfl
  · exact fun _ => rfl
  · exact ⟨nofun, fun heq => (nomatch hidle.symm.trans heq), (h.fits t).place.congr rfl rfl rfl⟩

theorem threadRelease_spec (hidle : (s.thread t).state.idle = false) :
    Sound (threadRelease s t) ∧ Quiet s (threadRelease s t) := by
  have hfits := h.fits t
  unfold threadRelease
  by_cases hstopped : (s.thread t).state.wait = false ∧ (s.thread t).state.run = false
  · have haway := hfits.away hstopped.2
    simp only [if_pos hstopped]
    by_cases hswapped : (s.thread t).state.swapped = true
    · simp only [if_pos hswapped]
      apply h.setState
      · rfl
      · rfl
      · exact fun _ => rfl
      · rw [haway]
        exact ⟨nofun, fun heq => (nomatch hidle.symm.trans heq), fun _ => hstopped.1⟩
    · simp only [if_neg hswapped]
      apply h.setStatePlace
      · rfl
      · rfl
      · exact fun _ => rfl
      · exact ⟨nofun, fun heq => (nomatch hidle.symm.trans heq), rfl, Bool.eq_false_iff.mpr hswapped, hstopped.1⟩
      · rw [haway]
        exact nofun
      · exact nofun
  · simp only [if_neg hstopped]
    apply h.setState
    · rfl
    · rfl
    · exact fun _ => rfl
    · refine ⟨?_, fun heq => (nomatch hidle.symm.trans heq), hfits.place.congr rfl rfl rfl⟩
      intro hrun _
      by_contra hwait
      exact hstopped ⟨Bool.eq_false_iff.mpr hwait, hrun⟩

theorem stopQueued_spec (t : T) : Sound (stopQueued s t) ∧ Quiet s (stopQueued s t) := by
  unfold stopQueued
  by_cases hstop : (s.thread t).state = ⟨false, true, true, false, false⟩ ∧ (s.thread t).interruptible = true ∧
      s.place t = .queued
  · rw [if_pos hstop]
    apply h.setStatePlace
    · rfl
    · rw [hstop.1]
    · exact fun _ => rfl
    · exact ⟨nofun, nofun, nofun⟩
    · rw [hstop.2.2]
      exact nofun
    · exact nofun
  · rw [if_neg hstop]
    exact ⟨h, Quiet.refl s⟩

theorem markSwapped_spec (t : T) : Sound (markSwapped s t) ∧ Quiet s (markSwapped s t) := by
  have hfits := h.fits t
  unfold markSwapped
  by_cases hswap : (s.thread t).state.run = false ∧ (s.thread t).state.swapped = false
  · rw [if_pos hswap]
    apply h.setState
    · rfl
    · rfl
    · exact fun _ => rfl
    · refine ⟨hfits.stopped, ?_, ?_⟩
      · intro hidle
        have hbits := hfits.idle hidle
        rw [hbits] at hswap
        exact absurd hswap.1 nofun
      · rw [hfits.away hswap.1]
        exact fun hrun => (nomatch hswap.1.symm.trans hrun)
  · rw [if_neg hswap]
    exact ⟨h, Quiet.refl s⟩

theorem threadDoswapin_spec (t : T) : Sound (threadDoswapin s t) ∧ Quiet s (threadDoswapin s t) := by
  have hfits := h.fits t
  unfold threadDoswapin
  by_cases hswapped : (s.thread t).state.swapped = true
  · have haway := hfits.away_of_swapped hswapped
    have hidle : (s.thread t).state.idle ≠ true := by
      intro hidle
      rw [hfits.idle hidle] at hswapped
      cases hswapped
    have hallows : (s.thread t).state.run = true → (s.thread t).state.wait = false := by
      have hplace := hfits.place
      rw [haway] at hplace
      exact hplace
    rw [if_pos hswapped]
    simp only [St.setThread_self]
    by_cases hrun : (s.thread t).state.run = true
    · rw [if_pos hrun]
      apply h.setStatePlace
      · rfl
      · rfl
      · exact fun _ => rfl
      · exact ⟨fun heq => (nomatch heq.symm.trans hrun), fun heq => absurd heq hidle, hrun, rfl, hallows hrun⟩
      · rw [haway]
        exact nofun
      · exact nofun
    · rw [if_neg hrun]
      apply h.setState
      · rfl
      · rfl
      · exact fun _ => rfl
      · rw [haway]
        exact ⟨hfits.stopped, fun heq => absurd heq hidle, hallows⟩
  · rw [if_neg hswapped]
    exact ⟨h, Quiet.refl s⟩

theorem Sound.arrive (hcoming : s.place u = .coming) (hnone : ∀ t, s.place t ≠ .leaving u) :
    Sound (s.setPlace u .running) := by
  have hleaving {v w : T} (hv : (s.setPlace u .running).place v = .leaving w) : s.place v = .leaving w := by
    by_cases hvu : v = u
    · rw [hvu, St.setPlace_self] at hv
      cases hv
    · rw [St.setPlace_of_ne hvu] at hv
      exact hv
  constructor
  · exact h.placed
  · exact h.waits
  · intro v
    by_cases hv : v = u
    · have hfits := h.fits u
      have hplace := hfits.place
      rw [hcoming] at hplace
      rw [hv, St.setPlace_self]
      exact ⟨hfits.stopped, hfits.idle, hplace.1, hplace.2.1⟩
    · rw [St.setPlace_of_ne hv]
      exact h.fits v
  · intro v w hv
    have hwu : w ≠ u := by
      rintro rfl
      exact hnone v (hleaving hv)
    rw [St.setPlace_of_ne hwu]
    exact h.coming v w (hleaving hv)
  · intro v v' w hv hv'
    exact h.alone v v' w (hleaving hv) (hleaving hv')
  · exact h.clearing

theorem takeThread_spec {newThread : T} (hrunning : s.place t = .running)
    (hnew : s.place newThread = .queued ∨ s.place newThread = .away ∧ (s.thread newThread).state.idle = true) :
    Sound (takeThread s t newThread) ∧ Quiet s (takeThread s t newThread) := by
  have hfits := h.fits newThread
  have hplace := hfits.place
  have hstate : (s.thread newThread).state.run = true ∧ (s.thread newThread).state.swapped = false ∧
      (s.thread newThread).state.wait = false := by
    rcases hnew with hqueued | hidle
    · rw [hqueued] at hplace
      exact hplace
    · rw [hfits.idle hidle.2]
      exact ⟨rfl, rfl, rfl⟩
  have hne : newThread ≠ t := by
    rintro rfl
    rw [hrunning] at hnew
    rcases hnew with hqueued | hidle
    · cases hqueued
    · cases hidle.1
  have hchanges := @changes_setThread _ _ s newThread _ { s.thread newThread with interruptible := true } rfl rfl
    fun heq => (nomatch hstate.2.2.symm.trans heq)
  refine ⟨?_, ⟨hchanges.quiet.waitEvent, hchanges.quiet.wait, hchanges.quiet.interruptible, rfl, rfl, rfl, rfl, rfl⟩⟩
  have hself : (takeThread s t newThread).place t = .leaving newThread := St.setPlace_self _
  have hcoming : (takeThread s t newThread).place newThread = .coming := by
    simp [takeThread, hne]
  have hother {v : T} (hvt : v ≠ t) (hv : v ≠ newThread) : (takeThread s t newThread).place v = s.place v := by
    simp [takeThread, hvt, hv, St.setThread]
  have hnone (v : T) : s.place v ≠ .leaving newThread := by
    intro hv
    rw [h.coming v newThread hv] at hnew
    rcases hnew with hqueued | hidle
    · cases hqueued
    · cases hidle.1
  have hleaving {v w : T} (hv : (takeThread s t newThread).place v = .leaving w) :
      v = t ∧ w = newThread ∨ w ≠ newThread ∧ s.place v = .leaving w := by
    by_cases hvt : v = t
    · rw [hvt, hself] at hv
      injection hv with hv
      exact .inl ⟨hvt, hv.symm⟩
    · by_cases hvn : v = newThread
      · rw [hvn, hcoming] at hv
        cases hv
      · rw [hother hvt hvn] at hv
        refine .inr ⟨?_, hv⟩
        rintro rfl
        exact hnone v hv
  have hsound := h.changes hchanges (by rw [St.setThread_self]; exact hfits)
  constructor
  · exact hsound.placed
  · exact hsound.waits
  · intro v
    have hv := hsound.fits v
    by_cases hvt : v = t
    · have hallows := hv.place
      rw [hvt] at hv hallows ⊢
      rw [hself]
      refine ⟨hv.stopped, hv.idle, ?_⟩
      have hrun : (s.setThread newThread { s.thread newThread with interruptible := true }).place t = .running := hrunning
      rw [hrun] at hallows
      exact hallows
    · by_cases hvn : v = newThread
      · rw [hvn] at hv ⊢
        rw [hcoming]
        refine ⟨hv.stopped, hv.idle, ?_⟩
        have hthread : (takeThread s t newThread).thread newThread = { s.thread newThread with interruptible := true } :=
          St.setThread_self _
        rw [hthread]
        exact hstate
      · rw [hother hvt hvn]
        exact hv
  · intro v w hv
    rcases hleaving hv with ⟨-, rfl⟩ | ⟨hw, hv⟩
    · exact hcoming
    · have hwcoming := h.coming v w hv
      have hwt : w ≠ t := by
        rintro rfl
        rw [hrunning] at hwcoming
        cases hwcoming
      rw [hother hwt hw]
      exact hwcoming
  · intro v v' w hv hv'
    rcases hleaving hv with ⟨rfl, rfl⟩ | ⟨hw, hv⟩
    · rcases hleaving hv' with ⟨rfl, -⟩ | ⟨hw, -⟩
      · rfl
      · exact absurd rfl hw
    · rcases hleaving hv' with ⟨-, rfl⟩ | ⟨-, hv'⟩
      · exact absurd rfl hw
      · exact h.alone v v' w hv hv'
  · exact hsound.clearing

theorem threadContinue_spec (hleaving : s.place t = .leaving u) :
    ∃ s', threadContinue s t u = .ok s' ∧ Sound s' ∧ Quiet s s' := by
  have hcoming := h.coming t u hleaving
  have hne : t ≠ u := by
    rintro rfl
    rw [hleaving] at hcoming
    cases hcoming
  have hfits := h.fits t
  have hplace := hfits.place
  rw [hleaving] at hplace
  -- the thread goes first, and then the other arrives
  have key {x : Thread} {q : Place T} (hevent : x.waitEvent = (s.thread t).waitEvent)
      (hwait : x.state.wait = (s.thread t).state.wait) (hinterruptible : x.interruptible = (s.thread t).interruptible)
      (hx : Fits q x.state) (hq : ∀ v, q ≠ .leaving v) :
      Sound (((s.setPlace u .running).setThread t x).setPlace t q) ∧
        Quiet s (((s.setPlace u .running).setThread t x).setPlace t q) := by
    have hgo := h.setStatePlace hevent hwait (fun _ => hinterruptible) hx (by rw [hleaving]; rintro ⟨⟩) hq
    have hcomm : ((s.setPlace u .running).setThread t x).setPlace t q =
        ((s.setThread t x).setPlace t q).setPlace u .running := by
      simp only [St.setPlace, St.setThread]
      rw [update_comm hne]
    rw [hcomm]
    refine ⟨hgo.1.arrive ?_ ?_, hgo.2.waitEvent, hgo.2.wait, hgo.2.interruptible, rfl, rfl, rfl, rfl, rfl⟩
    · rw [St.setPlace_of_ne hne.symm]
      exact hcoming
    · intro v hv
      by_cases hvt : v = t
      · rw [hvt, St.setPlace_self] at hv
        exact hq u hv
      · rw [St.setPlace_of_ne hvt] at hv
        exact hvt (h.alone v t u hv hleaving)
  have key' {q : Place T} (hx : Fits q (s.thread t).state) (hq : ∀ v, q ≠ .leaving v) :
      Sound ((s.setPlace u .running).setPlace t q) ∧ Quiet s ((s.setPlace u .running).setPlace t q) := by
    have hkey := @key (s.thread t) q rfl rfl rfl hx hq
    have hsame : (s.setPlace u .running).setThread t (s.thread t) = s.setPlace u .running := by
      simp [St.setPlace, St.setThread]
    rwa [hsame] at hkey
  unfold threadContinue
  by_cases h₁ : (s.thread t).state = ⟨false, true, true, false, false⟩ ∧ (s.thread t).interruptible = true
  · simp only [if_pos h₁]
    refine ⟨_, rfl, key rfl ?_ rfl ⟨by rintro _ ⟨⟩, by rintro ⟨⟩, by rintro ⟨⟩⟩ (by rintro _ ⟨⟩)⟩
    rw [h₁.1]
  simp only [if_neg h₁]
  by_cases h₂ : (s.thread t).state = ⟨false, true, true, false, false⟩ ∨
      (s.thread t).state = ⟨false, false, true, false, false⟩
  · have hwait : (s.thread t).state.wait = false := by
      rcases h₂ with heq | heq
      · rw [heq]
      · rw [heq]
    simp only [if_pos h₂]
    exact ⟨_, rfl, key' ⟨hfits.stopped, hfits.idle, hplace.1, hplace.2, hwait⟩ (by rintro _ ⟨⟩)⟩
  simp only [if_neg h₂]
  by_cases h₃ : (s.thread t).state = ⟨true, true, true, false, false⟩ ∧ (s.thread t).interruptible = true
  · simp only [if_pos h₃]
    refine ⟨_, rfl, key rfl ?_ rfl ⟨by rintro _ ⟨⟩, by rintro ⟨⟩, by rintro ⟨⟩⟩ (by rintro _ ⟨⟩)⟩
    rw [h₃.1]
  simp only [if_neg h₃]
  by_cases h₄ : (s.thread t).state = ⟨true, true, true, false, false⟩ ∨
      (s.thread t).state = ⟨true, false, true, false, false⟩
  · have hbits : (s.thread t).state.wait = true ∧ (s.thread t).state.idle = false := by
      rcases h₄ with heq | heq
      · simp [heq]
      · simp [heq]
    simp only [if_pos h₄]
    refine ⟨_, rfl, key rfl rfl rfl ⟨?_, ?_, by rintro ⟨⟩⟩ (by rintro _ ⟨⟩)⟩
    · exact fun _ _ => hbits.1
    · exact fun hidle => (by cases hbits.2.symm.trans hidle)
  simp only [if_neg h₄]
  by_cases h₅ : (s.thread t).state = ⟨false, false, true, false, true⟩
  · simp only [if_pos h₅]
    refine ⟨_, rfl, key' ⟨hfits.stopped, hfits.idle, ?_⟩ (by rintro _ ⟨⟩)⟩
    intro _
    rw [h₅]
  · exfalso
    have hidle : (s.thread t).state.idle = false := Bool.eq_false_iff.mpr fun hidle => h₅ (hfits.idle hidle)
    generalize (s.thread t).state = state at h₁ h₂ h₃ h₄ hplace hidle
    obtain ⟨wait, susp, run, swapped, idle⟩ := state
    obtain ⟨rfl, rfl⟩ := hplace
    obtain rfl := hidle
    cases wait with
    | false =>
      cases susp with
      | false => exact h₂ (.inr rfl)
      | true => exact h₂ (.inl rfl)
    | true =>
      cases susp with
      | false => exact h₄ (.inr rfl)
      | true => exact h₄ (.inl rfl)

end

end Steps

end Running

/-!
## The sections that assert a wait or end one

The wakeups, `clear_wait` and `assert_wait` by what they change; none of the first two panics.
-/

section Waking

open Osf1.Computation

variable {T C : Type} [DecidableEq T] {s s' : St T C} {t : T} {event : Event} {result : Result}

section Wakeups

/-- A thread is woken. -/
def Wakes (result : Result) (s s' : St T C) : Prop := ∃ t, Ends s t result .wakeup s'

theorem Sound.wakes (h : Sound s) (hwakes : Relation.ReflTransGen (Wakes result) s s') : Sound s' := by
  induction hwakes with
  | refl => exact h
  | tail _ hstep ih =>
    obtain ⟨t, hends⟩ := hstep
    exact ih.ends hends

theorem wakeupScan_spec {oneThread : Bool} {l : List T} (h : Sound s) (hnodup : l.Nodup)
    (hl : ∀ t ∈ l, (s.thread t).waitEvent ≠ 0) (hall : event ≠ 0 → ∀ t, (s.thread t).waitEvent = event → t ∈ l) :
    ∃ s' scanEnd, wakeupScan event result oneThread l s = .ok (s', scanEnd) ∧
      Relation.ReflTransGen (Wakes result) s s' ∧
      (scanEnd = .finished → event ≠ 0 → ∀ t, (s'.thread t).waitEvent ≠ event) := by
  induction l generalizing s with
  | nil =>
    refine ⟨s, .finished, rfl, .refl, ?_⟩
    intro _ hne t heq
    exact absurd (hall hne t heq) not_mem_nil
  | cons t rest ih =>
    obtain ⟨ht, hnodup'⟩ := nodup_cons.mp hnodup
    unfold wakeupScan
    by_cases hevent : (s.thread t).waitEvent = event
    · simp only [if_pos hevent]
      obtain ⟨s₁, hwake, hends⟩ := @wakeThread_ends _ _ s t _ result h (hl t (mem_cons_self ..)) "thread_wakeup"
      have hwakes : Relation.ReflTransGen (Wakes result) s s₁ := .single ⟨t, hends⟩
      simp only [hwake, Except.bind]
      by_cases hone : oneThread = true
      · simp only [if_pos hone]
        exact ⟨s₁, .one, rfl, hwakes, nofun⟩
      simp only [if_neg hone]
      split
      · exact ⟨s₁, .restart, rfl, hwakes, nofun⟩
      · obtain ⟨s₂, scanEnd, hrun, hrest, hfinished⟩ := ih (h.ends hends) hnodup' (fun u hu => by
            have hne : u ≠ t := by
              rintro rfl
              exact ht hu
            rw [hends.thread u hne]
            exact hl u (mem_cons_of_mem _ hu)) fun hne u hu => by
          by_cases hut : u = t
          · rw [hut, hends.waitEvent] at hu
            exact absurd hu.symm hne
          · rw [hends.thread u hut] at hu
            exact (mem_cons.mp (hall hne u hu)).resolve_left hut
        exact ⟨s₂, scanEnd, hrun, hwakes.trans hrest, hfinished⟩
    · simp only [if_neg hevent]
      apply ih h hnodup' fun u hu => hl u (mem_cons_of_mem _ hu)
      intro hne u hu
      apply (mem_cons.mp (hall hne u hu)).resolve_left
      rintro rfl
      exact hevent hu

theorem threadWakeupPrim_spec [DecidableEq C] {oneThread : Bool} (h : Sound s) (c : C) (before : T → ℕ) :
    ∃ s₁ s', threadWakeupPrim s c event result oneThread before = .ok s' ∧
      Relation.ReflTransGen (Wakes result) s s₁ ∧
      (s' = { s₁ with woken := (event, before) :: s₁.woken }.setPc c .none ∧
          (event ≠ 0 → ∀ t, (s₁.thread t).waitEvent ≠ event) ∨
        s' = s₁.setPc c .none ∨ s' = s₁) := by
  obtain ⟨s₁, scanEnd, hrun, hwakes, hfinished⟩ :=
    @wakeupScan_spec _ _ _ s event result oneThread (s.waitQueue (waitHash event)) h (h.placed.nodup _)
      (fun t ht => (h.mem_iff.mp ht).1) fun hne t ht => h.mem_iff.mpr ⟨by rw [ht]; exact hne, by rw [ht]⟩
  unfold threadWakeupPrim
  simp only [hrun, Except.bind]
  cases scanEnd with
  | finished => exact ⟨s₁, _, rfl, hwakes, .inl ⟨rfl, hfinished rfl⟩⟩
  | one => exact ⟨s₁, _, rfl, hwakes, .inr (.inl rfl)⟩
  | restart => exact ⟨s₁, _, rfl, hwakes, .inr (.inr rfl)⟩

omit [DecidableEq T] in
theorem hipri_mem {schedPri : T → ℕ} {l : List T} {best : Option T} (h : hipri s schedPri event l best = some t) :
    best = some t ∨ t ∈ l := by
  induction l generalizing best with
  | nil => exact .inl h
  | cons u rest ih =>
    unfold hipri at h
    split at h
    · split at h
      · rcases ih h with heq | hmem
        · obtain rfl := Option.some_inj.mp heq
          exact .inr (mem_cons_self ..)
        · exact .inr (mem_cons_of_mem _ hmem)
      · rcases ih h with heq | hmem
        · split at heq
          · obtain rfl := Option.some_inj.mp heq
            exact .inr (mem_cons_self ..)
          · exact .inl heq
        · exact .inr (mem_cons_of_mem _ hmem)
    · rcases ih h with heq | hmem
      · exact .inl heq
      · exact .inr (mem_cons_of_mem _ hmem)

theorem threadWakeupHi_spec (h : Sound s) (schedPri : T → ℕ) :
    ∃ s', threadWakeupHi s schedPri event result = .ok s' ∧ (s' = s ∨ Wakes result s s') := by
  unfold threadWakeupHi
  cases hfound : hipri s schedPri event (s.waitQueue (waitHash event)) none with
  | none => exact ⟨s, rfl, .inl rfl⟩
  | some t =>
    have hmem := (hipri_mem hfound).resolve_left nofun
    obtain ⟨s', hwake, hends⟩ := @wakeThread_ends _ _ s t _ result h (h.mem_iff.mp hmem).1 "thread_wakeup_high"
    exact ⟨s', hwake, .inr ⟨t, hends⟩⟩

end Wakeups

section Clearing

variable [DecidableEq C] {interruptOnly : Bool} {cause : Cause}

/-- The first section of `clear_wait` leaves the thread alone, or reads what it waits for, or finishes the wait. -/
inductive Clears (s : St T C) (c : C) (t : T) (result : Result) (interruptOnly : Bool) (cause : Cause) : St T C → Prop
  | leave : Clears s c t result interruptOnly cause (s.setPc c .none)
  | look : ((s.thread t).state.wait = true) → (s.thread t).waitEvent ≠ 0 →
      (interruptOnly = true → (s.thread t).interruptible = true) →
      Clears s c t result interruptOnly cause
        (s.setPc c (.clearing t (s.thread t).waitEvent result cause (s.asserted t)))
  | idle {s₁ : St T C} : Retimed s t s₁ → Clears s c t result interruptOnly cause (s₁.setPc c .none)
  | ends {s₁ : St T C} : Ends s t result cause s₁ → (interruptOnly = true → (s.thread t).interruptible = true) →
      Clears s c t result interruptOnly cause (s₁.setPc c .none)

theorem clearWait_spec (h : Sound s) (c : C) (t : T) (result : Result) (interruptOnly : Bool) (cause : Cause) :
    Clears s c t result interruptOnly cause (clearWait s c t result interruptOnly cause) := by
  unfold clearWait
  by_cases hleave : interruptOnly = true ∧ (s.thread t).interruptible = false
  · simp only [if_pos hleave]
    exact .leave
  have hinterruptible (hio : interruptOnly = true) : (s.thread t).interruptible = true := by
    by_contra hnot
    exact hleave ⟨hio, Bool.eq_false_iff.mpr hnot⟩
  simp only [if_neg hleave]
  by_cases hevent : (s.thread t).waitEvent ≠ 0
  · rw [if_pos hevent]
    exact .look (h.waits t hevent) hevent hinterruptible
  · rw [if_neg hevent]
    have hzero : (s.thread t).waitEvent = 0 := not_not.mp hevent
    by_cases hwait : (s.thread t).state.wait = true
    · exact .ends (finishWait_ends h hzero hwait) hinterruptible
    · exact .idle (finishWait_retimed (Bool.eq_false_iff.mpr hwait))

theorem Sound.clears (h : Sound s) {c : C} (hclears : Clears s c t result interruptOnly cause s') : Sound s' := by
  cases hclears with
  | leave => exact h.setPc c nofun
  | look hwait hevent _ =>
    apply h.setPc c
    intro t' event' result' cause' seen heq
    injection heq with _ heq
    rw [← heq]
    exact hevent
  | idle hretimed => exact (h.retimed hretimed).setPc c nofun
  | ends hends _ => exact (h.ends hends).setPc c nofun

theorem clearWait₂_spec (h : Sound s) (c : C) (hevent : event ≠ 0) :
    ∃ s₁, clearWait₂ s c t event result cause = s₁.setPc c .none ∧
      (s₁ = s ∨ (s.thread t).waitEvent = event ∧ Ends s t result cause s₁) := by
  unfold clearWait₂
  by_cases heq : (s.thread t).waitEvent = event
  · rw [if_pos heq]
    refine ⟨_, rfl, .inr ⟨heq, finishWait_unqueue_ends h ?_⟩⟩
    rw [heq]
    exact hevent
  · rw [if_neg heq]
    exact ⟨s, rfl, .inl rfl⟩

end Clearing

section Asserting

variable {interruptible : Bool}

/-- A wait is asserted. -/
structure Asserts (s : St T C) (t : T) (event : Event) (interruptible : Bool) (s' : St T C) : Prop where
  waitEvent_eq : (s.thread t).waitEvent = 0
  thread : ∀ u, u ≠ t → s'.thread u = s.thread u
  place : s'.place = s.place
  waitEvent : (s'.thread t).waitEvent = event
  interruptible_eq : (s'.thread t).interruptible = interruptible
  state : (s'.thread t).state = { (s.thread t).state with wait := true }
  asserted : s'.asserted = update s.asserted t (s.asserted t + 1)
  waits : s'.waits = update s.waits t
    (update (s.waits t) (s.asserted t + 1) ⟨event, interruptible⟩)
  waitQueue : s'.waitQueue = if event = 0 then s.waitQueue else
    update s.waitQueue (waitHash event) (s.waitQueue (waitHash event) ++ [t])
  ended : s'.ended = s.ended
  woken : s'.woken = s.woken
  pc : s'.pc = s.pc

theorem assertWait_spec (h : assertWait s t event interruptible = .ok s') : Asserts s t event interruptible s' := by
  unfold assertWait at h
  by_cases hzero : (s.thread t).waitEvent ≠ 0
  · rw [if_pos hzero] at h
    cases h
  have hevent : (s.thread t).waitEvent = 0 := not_not.mp hzero
  simp only [if_neg hzero] at h
  by_cases hne : event ≠ 0
  · simp only [if_pos hne] at h
    obtain rfl := Except.ok.inj h
    constructor
    · exact hevent
    · exact fun u hu => St.setThread_of_ne hu _
    · rfl
    · exact congrArg Thread.waitEvent (St.setThread_self _)
    · exact congrArg Thread.interruptible (St.setThread_self _)
    · exact congrArg Thread.state (St.setThread_self _)
    · rfl
    · rfl
    · rw [if_neg hne]
    · rfl
    · rfl
    · rfl
  · have heq : event = 0 := not_not.mp hne
    simp only [if_neg hne] at h
    obtain rfl := Except.ok.inj h
    constructor
    · exact hevent
    · exact fun u hu => St.setThread_of_ne hu _
    · rfl
    · rw [heq]
      simp [hevent]
    · exact congrArg Thread.interruptible (St.setThread_self _)
    · exact congrArg Thread.state (St.setThread_self _)
    · rfl
    · rfl
    · rw [if_pos heq]
      rfl
    · rfl
    · rfl
    · rfl

theorem assertWait_error {message : String} (h : assertWait s t event interruptible = .error message) :
    message = "assert_wait" := by
  unfold assertWait at h
  by_cases hzero : (s.thread t).waitEvent ≠ 0
  · rw [if_pos hzero] at h
    exact (Except.error.inj h).symm
  · simp only [if_neg hzero] at h
    split at h
    · cases h
    · cases h

theorem Sound.asserts (h : Sound s) (hasserts : Asserts s t event interruptible s') (hrunning : s.place t = .running)
    (hidle : (s.thread t).state.idle = false) : Sound s' := by
  have hnone : (s.thread t).queue = none := Thread.queue_eq_none hasserts.waitEvent_eq
  constructor
  · have hself : (s'.thread t).queue = if event = 0 then none else some (waitHash event) := by
      rw [Thread.queue, hasserts.waitEvent]
    rw [hasserts.waitQueue]
    by_cases hne : event = 0
    · rw [if_pos hne] at hself ⊢
      apply h.placed.congr
      intro u
      by_cases hu : u = t
      · rw [hu, hself, hnone]
      · rw [hasserts.thread u hu]
    · rw [if_neg hne] at hself ⊢
      apply (h.placed.pushBack hnone).congr
      intro u
      by_cases hu : u = t
      · rw [hu, hself, update_self]
      · rw [hasserts.thread u hu, update_of_ne hu]
  · intro u hne
    by_cases hu : u = t
    · rw [hu, hasserts.state]
    · rw [hasserts.thread u hu] at hne ⊢
      exact h.waits u hne
  · intro u
    rw [hasserts.place]
    by_cases hu : u = t
    · have hplace := (h.fits t).place
      rw [hrunning] at hplace
      rw [hu, hasserts.state, hrunning]
      exact ⟨fun _ _ => rfl, fun heq => (by cases hidle.symm.trans heq), hplace⟩
    · rw [hasserts.thread u hu]
      exact h.fits u
  · rw [hasserts.place]
    exact h.coming
  · rw [hasserts.place]
    exact h.alone
  · rw [hasserts.pc]
    exact h.clearing

end Asserting

end Waking

end Osf1.Wait
