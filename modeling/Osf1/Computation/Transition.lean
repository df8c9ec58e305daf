import Mathlib

/-!
# Labelled transition systems and the invariant rule

A kernel facility is a state with a step for every call, lock section or interrupt.
This file fixes what a run is, the rule by which an invariant of one step becomes an
invariant of every reachable state, and the restriction of a system to the steps that
meet a side condition, so that "in every run whose steps all meet the condition" is
reachability in the restricted system.
-/

set_option autoImplicit false

namespace Osf1.Computation

/-- A transition system: where a run may start, and which labelled steps it may take. -/
structure System (σ ι : Type*) where
  init : σ → Prop
  step : σ → ι → σ → Prop

namespace System

variable {σ ι : Type*} {ok : σ → ι → Prop} {f : σ → ι → Option σ} {is : List ι}

/-- The states that some finite run reaches. -/
inductive Reachable (M : System σ ι) : σ → Prop where
  | init {s : σ} : M.init s → Reachable M s
  | step {s t : σ} {i : ι} : Reachable M s → M.step s i t → Reachable M t

/-- The invariant rule: what holds initially and is kept by every step from a reachable
state holds in every reachable state. -/
theorem Reachable.invariant {M : System σ ι} {I : σ → Prop} (hinit : ∀ s, M.init s → I s)
    (hstep : ∀ s i t, M.Reachable s → I s → M.step s i t → I t) {s : σ} (h : M.Reachable s) : I s := by
  induction h with
  | init h0 => exact hinit _ h0
  | step hs h ih => exact hstep _ _ _ hs ih h

/-- The steps of `M` that meet `ok` in the state they are taken from. -/
def restrict (M : System σ ι) (ok : σ → ι → Prop) : System σ ι where
  init := M.init
  step s i t := ok s i ∧ M.step s i t

/-- Every run of the restricted system is a run of the system. -/
theorem Reachable.of_restrict {M : System σ ι} {s : σ} (h : (M.restrict ok).Reachable s) : M.Reachable s := by
  induction h with
  | init h0 => exact .init h0
  | step _ h ih => exact ih.step h.2

/-- A system whose steps are computed: a label that yields `none` is not enabled. -/
def ofFun (s₀ : σ) (f : σ → ι → Option σ) : System σ ι where
  init s := s = s₀
  step s i t := f s i = some t

/-- Take the steps of a schedule in order. -/
def runFrom (f : σ → ι → Option σ) (s : σ) : List ι → Option σ
  | [] => some s
  | i :: is => (f s i).bind fun t => runFrom f t is

/-- A schedule that runs through from a reachable state ends in a reachable state. -/
theorem Reachable.runFrom {s₀ s t : σ} (hs : (ofFun s₀ f).Reachable s) (h : System.runFrom f s is = some t) :
    (ofFun s₀ f).Reachable t := by
  induction is generalizing s with
  | nil =>
    cases h
    exact hs
  | cons i is ih =>
    obtain ⟨u, hu, ht⟩ := Option.bind_eq_some_iff.mp h
    exact ih (hs.step hu) ht

/-- The steps of a schedule meet a condition, each in the state it is taken from. -/
def MeetsAlong (f : σ → ι → Option σ) (ok : σ → ι → Prop) : σ → List ι → Prop
  | _, [] => True
  | s, i :: is => ok s i ∧ ∀ t, f s i = some t → MeetsAlong f ok t is

/-- A condition on labels alone is met along a schedule of such labels. -/
theorem MeetsAlong.of_forall {ok : ι → Prop} {s : σ} (h : ∀ i ∈ is, ok i) : MeetsAlong f (fun _ i => ok i) s is := by
  induction is generalizing s with
  | nil => trivial
  | cons i is ih =>
    exact ⟨h i (List.mem_cons_self ..), fun t _ => ih fun j hj => h j (List.mem_cons_of_mem _ hj)⟩

/-- Whether every state that a schedule leads to passes a test. -/
def statesPass (f : σ → ι → Option σ) (p : σ → Bool) : σ → List ι → Bool
  | _, [] => true
  | s, i :: is =>
    match f s i with
    | none => true
    | some t => p t && statesPass f p t is

/-- A condition on labels and on the state a step leads to is met along a schedule of such
labels whose states pass. -/
theorem MeetsAlong.of_statesPass {ok : ι → Prop} {p : σ → Bool} {s : σ} (hok : ∀ i ∈ is, ok i) (h : statesPass f p s is) :
    MeetsAlong f (fun s i => ok i ∧ ∀ t, f s i = some t → p t) s is := by
  induction is generalizing s with
  | nil => trivial
  | cons i is ih =>
    have hrest (t : σ) (ht : f s i = some t) : p t ∧ statesPass f p t is := by
      unfold statesPass at h
      rw [ht] at h
      exact Bool.and_eq_true_iff.mp h
    refine ⟨⟨hok i (List.mem_cons_self ..), fun t ht => (hrest t ht).1⟩, fun t ht => ?_⟩
    exact ih (fun j hj => hok j (List.mem_cons_of_mem _ hj)) (hrest t ht).2

/-- Whether every step of a schedule passes a test in the state it is taken from. -/
def stepsPass (f : σ → ι → Option σ) (p : σ → ι → Bool) : σ → List ι → Bool
  | _, [] => true
  | s, i :: is =>
    p s i && match f s i with
      | none => true
      | some t => stepsPass f p t is

/-- A condition is met along a schedule whose steps pass the test of it. -/
theorem MeetsAlong.of_stepsPass
    [∀ s i, Decidable (ok s i)] {s : σ} (h : stepsPass f (fun s i => decide (ok s i)) s is) : MeetsAlong f ok s is := by
  induction is generalizing s with
  | nil => trivial
  | cons i is ih =>
    obtain ⟨hok, hrest⟩ := Bool.and_eq_true_iff.mp h
    refine ⟨of_decide_eq_true hok, fun t ht => ih ?_⟩
    rw [ht] at hrest
    exact hrest

/-- A schedule whose steps meet the condition is a run of the restricted system. -/
theorem Reachable.runFrom_restrict {s₀ s t : σ} (hs : ((ofFun s₀ f).restrict ok).Reachable s) (hok : MeetsAlong f ok s is)
    (h : System.runFrom f s is = some t) : ((ofFun s₀ f).restrict ok).Reachable t := by
  induction is generalizing s with
  | nil =>
    cases h
    exact hs
  | cons i is ih =>
    obtain ⟨u, hu, ht⟩ := Option.bind_eq_some_iff.mp h
    exact ih (hs.step ⟨hok.1, hu⟩) (hok.2 u hu) ht

/-- The state a schedule reaches from the start is reachable. -/
theorem reachable_of_runFrom {s₀ t : σ} (h : runFrom f s₀ is = some t) : (ofFun s₀ f).Reachable t :=
  Reachable.runFrom (.init rfl) h

/-- Take a step and record what it has let be observed.  A step that is not enabled leaves
the state, but what it has shown is recorded. -/
def tracedStep {α : Type*} (f : σ → ι → Option σ) (out : σ → ι → List α) (s : σ × List α)
    (i : ι) : Option (σ × List α) :=
  some ((f s.1 i).getD s.1, s.2 ++ out s.1 i)

/-- A system whose steps are computed, with a record of what the steps taken have let be
observed. -/
def traced {α : Type*} (s₀ : σ) (f : σ → ι → Option σ) (out : σ → ι → List α) :
    System (σ × List α) ι :=
  ofFun (s₀, []) (tracedStep f out)

/-- If every step shows only what meets `Q`, then the record of a run does. -/
theorem Reachable.of_traced {α : Type*} {s₀ : σ} {out : σ → ι → List α} {ok : σ × List α → ι → Prop} {Q : α → Prop}
    (hout : ∀ s i, ok s i → ∀ a ∈ out s.1 i, Q a) {s : σ × List α}
    (h : ((traced s₀ f out).restrict ok).Reachable s) : ∀ a ∈ s.2, Q a := by
  apply h.invariant
  · rintro s rfl a ha
    cases ha
  · intro s i t _ hs hstep a ha
    have ht : t = ((f s.1 i).getD s.1, s.2 ++ out s.1 i) := (Option.some_inj.mp hstep.2).symm
    rw [ht, List.mem_append] at ha
    rcases ha with ha | ha
    · exact hs a ha
    · exact hout s i hstep.1 a ha

end System

end Osf1.Computation

/-!
## How long something has held

A run with a clock, and a deadline that is set when a condition begins to hold.
-/

namespace Osf1.Computation.System

variable {σ ι : Type*}

/-- The states of a run, the last one first. -/
inductive History (M : System σ ι) : List σ → Prop where
  | init {s : σ} : M.init s → History M [s]
  | step {s t : σ} {i : ι} {h : List σ} :
      History M (s :: h) → M.step s i t → History M (t :: s :: h)

/-- A condition holds in a state of a run and in all that come after it. -/
def HeldSince (P : σ → Prop) (h : List σ) (s₀ : σ) : Prop :=
  ∃ newer older, h = newer ++ s₀ :: older ∧ P s₀ ∧ ∀ s ∈ newer, P s

variable {M : System σ ι} {P : σ → Prop} {s t s₀ : σ} {h : List σ} {newer older : List σ}

theorem heldSince_head (hs : P s) : HeldSince P (s :: h) s :=
  ⟨[], h, rfl, hs, fun _ hmem => absurd hmem List.not_mem_nil⟩

theorem HeldSince.cons (ht : P t) (hs : HeldSince P h s₀) : HeldSince P (t :: h) s₀ := by
  obtain ⟨newer, older, rfl, hs₀, hnewer⟩ := hs
  refine ⟨t :: newer, older, rfl, hs₀, fun x hx => ?_⟩
  rcases List.mem_cons.mp hx with rfl | hx
  · exact ht
  · exact hnewer x hx

/-- Where the condition has not held, it has begun to hold afterwards. -/
theorem HeldSince.mem_newer (hs : HeldSince P (newer ++ s :: older) s₀) (hnot : ¬P s) : s₀ ∈ newer := by
  induction newer with
  | nil =>
    obtain ⟨newer', older', heq, hs₀, hnewer'⟩ := hs
    cases newer' with
    | nil =>
      cases heq
      exact absurd hs₀ hnot
    | cons x newer' =>
      cases heq
      exact absurd (hnewer' s (List.mem_cons_self ..)) hnot
  | cons x newer ih =>
    obtain ⟨newer', older', heq, hs₀, hnewer'⟩ := hs
    cases newer' with
    | nil =>
      cases heq
      exact List.mem_cons_self ..
    | cons y newer' =>
      refine List.mem_cons_of_mem _ (ih ⟨newer', older', (List.cons.inj heq).2, hs₀, fun z hz => ?_⟩)
      exact hnewer' z (List.mem_cons_of_mem _ hz)

variable {clock limit : σ → ℤ} {d : ℤ}

/-- The deadline rule: where each step to a state with the condition is from one with it and does
not move the deadline back, or else sets the deadline ahead of the clock, the deadline of a state
with the condition is ahead of the time at which it began to hold. -/
theorem History.deadline (hinit : ∀ s, M.init s → ¬P s)
    (hstep : ∀ s i t, M.step s i t → P t → (P s ∧ limit s ≤ limit t) ∨ clock t + d ≤ limit t)
    (hh : M.History (s :: h)) (hs : P s) : ∃ s₀, HeldSince P (s :: h) s₀ ∧ clock s₀ + d ≤ limit s := by
  generalize hl : s :: h = l at hh ⊢
  induction hh generalizing s h with
  | init hi =>
    cases hl
    exact absurd hs (hinit _ hi)
  | step hprev hi ih =>
    cases hl
    rcases hstep _ _ _ hi hs with ⟨hbefore, hle⟩ | hset
    · obtain ⟨s₀, hheld, hs₀⟩ := ih hbefore rfl
      exact ⟨s₀, hheld.cons hs, Int.le_trans hs₀ hle⟩
    · exact ⟨_, heldSince_head hs, hset⟩

/-- A clock that does not go back. -/
theorem History.clock_le
    (hclock : ∀ s i t, M.step s i t → clock s ≤ clock t) (hh : M.History (newer ++ s :: older)) : ∀ x ∈ newer, clock s ≤ clock x := by
  induction newer with
  | nil => exact fun x hx => absurd hx List.not_mem_nil
  | cons y newer ih =>
    intro x hx
    cases newer with
    | nil =>
      cases hh with
      | step hprev hi =>
        rw [List.mem_singleton.mp hx]
        exact hclock _ _ _ hi
    | cons z newer =>
      cases hh with
      | step hprev hi =>
        have hz := ih hprev
        rcases List.mem_cons.mp hx with rfl | hx
        · exact Int.le_trans (hz z (List.mem_cons_self ..)) (hclock _ _ _ hi)
        · exact hz x hx

end Osf1.Computation.System
