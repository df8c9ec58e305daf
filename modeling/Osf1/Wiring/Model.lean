import Mathlib

/-!
# What the kernel has wired

The list `um_vlock` of a map says which parts of the map the kernel has wired, and how often.  The list is
circular and `um_vlock` is its head; here it is the list from the head on.  What is left of it in a loop begins
with the element at the cursor, and when nothing is left the cursor has come round to the head.  The handler
`vme_fault` of the entry is given: it says for every call whether it succeeds.
-/

set_option autoImplicit false

namespace Osf1.Wiring

open List

section Types

/-- A part of the map, and how often it is wired. -/
structure Vlock where
  vl_start : ℕ
  vl_end : ℕ
  vl_count : UInt16
  deriving DecidableEq

inductive Access where
  | VM_WIRE
  | VM_UNWIRE
  deriving DecidableEq

/-- A call of `vme_fault`. -/
structure Fault where
  addr : ℕ
  size : ℕ
  prot : ℕ
  access : Access
  deriving DecidableEq

def VM_PROT_NONE : ℕ := 0

def Vlock.Contains (lp : Vlock) (p : ℕ) : Prop := lp.vl_start ≤ p ∧ p < lp.vl_end

instance (lp : Vlock) (p : ℕ) : Decidable (lp.Contains p) :=
  inferInstanceAs (Decidable (lp.vl_start ≤ p ∧ p < lp.vl_end))

/-- `vl_clip_start`: what is before becomes an element of its own.
SRC: vm/vm_vlock.c:70-81 -/
def Vlock.clip_start (lp : Vlock) (start : ℕ) : List Vlock :=
  if lp.vl_start < start then [{ lp with vl_end := start }] else []

/-- `vl_clip_end`: what is behind becomes an element of its own.
SRC: vm/vm_vlock.c:83-94 -/
def Vlock.clip_end (lp : Vlock) (stop : ℕ) : List Vlock :=
  if stop < lp.vl_end then [{ lp with vl_start := stop }] else []

/-- What the element itself becomes when it is clipped. -/
def Vlock.clip (lp : Vlock) (start stop : ℕ) (count : UInt16) : Vlock :=
  ⟨max lp.vl_start start, min lp.vl_end stop, count⟩

end Types

section Wiring

/-- What `vl_wire` has done, and where it was when a call of the handler failed. -/
structure Wired where
  list : List Vlock
  faults : List Fault
  failed : Option ℕ
  deriving DecidableEq

/-- The range begins in the element; what the loop does with the rest of the list is given.
SRC: vm/vm_vlock.c:136-142 -/
def Vlock.raise (lp : Vlock) (first stop : ℕ) (post : List Vlock) (next : Wired) : Wired :=
  let mid := lp.clip first stop (lp.vl_count + 1)
  if mid.vl_end = stop then ⟨lp.clip_start first ++ [mid] ++ lp.clip_end stop ++ post, [], none⟩
  else ⟨lp.clip_start first ++ [mid] ++ lp.clip_end stop ++ next.list, next.faults, next.failed⟩

/-- The loop of `vl_wire` from an element on, and what comes after it when the end of the list is reached; the
first element of an empty list is made as one behind the last is.  After a new element before it the loop goes on with
the same element, where the range now begins.
SRC: vm/vm_vlock.c:111-195 -/
def wireLoop (fault : Fault → Bool) (prot stop : ℕ) : ℕ → List Vlock → Wired
  | first, [] =>
    let f : Fault := ⟨first, stop - first, prot, .VM_WIRE⟩
    if fault f then ⟨[⟨first, stop, 1⟩], [f], none⟩ else ⟨[], [f], some first⟩
  | first, lp :: post =>
    let next := wireLoop fault prot stop lp.vl_end post
    if lp.Contains first then lp.raise first stop post next
    else if first < lp.vl_start then
      let size := min lp.vl_start stop - first
      let f : Fault := ⟨first, size, prot, .VM_WIRE⟩
      if !fault f then ⟨lp :: post, [f], some first⟩
      else if size = stop - first then ⟨⟨first, first + size, 1⟩ :: lp :: post, [f], none⟩
      else
        let r := lp.raise (first + size) stop post next
        ⟨⟨first, first + size, 1⟩ :: r.list, f :: r.faults, r.failed⟩
    else
      let r := wireLoop fault prot stop first post
      ⟨lp :: r.list, r.faults, r.failed⟩

/-- Why `vl_unwire` does not return: a panic, or there is no element that the range begins in. -/
inductive Stop where
  | failed
  | bad
  | astray
  deriving DecidableEq

/-- What `vl_unwire` has done, and whether all its assertions have held. -/
structure Unwired where
  list : List Vlock
  faults : List Fault
  asserted : Bool
  stop : Option Stop
  deriving DecidableEq

/-- Go on behind the elements `l`, after a call of the handler if there was one, with what the assertion says. -/
def Unwired.after (l : List Vlock) (faults : List Fault) (holds : Bool) (r : Unwired) : Unwired :=
  ⟨l ++ r.list, faults ++ r.faults, holds && r.asserted, r.stop⟩

/-- The loop of `vl_unwire` from an element on, which may be the head.  The cursor is at the head again when no
element is left behind it, or when the head has been removed.
SRC: vm/vm_vlock.c:214-255 -/
def unwireLoop (fault : Fault → Bool) (stop : ℕ) : Bool → ℕ → List Vlock → Unwired
  | _, start, [] => ⟨[], [], true, if start < stop then some .astray else none⟩
  | head, start, lp :: post =>
    if ¬start < stop then ⟨lp :: post, [], true, none⟩
    else if lp.Contains start then
      let front := lp.clip_start start
      let mid := lp.clip start stop (lp.vl_count - 1)
      let size := mid.vl_end - start
      let f : Fault := ⟨start, size, VM_PROT_NONE, .VM_UNWIRE⟩
      if mid.vl_count ≠ 0 then
        (unwireLoop fault stop false (start + size) post).after (front ++ [mid] ++ lp.clip_end stop) []
          (lp.clip_end stop ++ post ≠ [])
      else if !fault f then ⟨front ++ [mid] ++ lp.clip_end stop ++ post, [f], true, some .failed⟩
      else if head ∧ front = [] ∧ lp.clip_end stop ++ post = [] then
        ⟨[], [f], true, if start + size ≠ stop then some .bad else none⟩
      else
        (unwireLoop fault stop (head && front = []) (start + size) post).after (front ++ [] ++ lp.clip_end stop) [f]
          (lp.clip_end stop ++ post ≠ [] ∧ ¬(head ∧ front = []))
    else (unwireLoop fault stop false start post).after [lp] [] (post ≠ [])

/-- SRC: vm/vm_vlock.c:204-255 -/
def vl_unwire (fault : Fault → Bool) (l : List Vlock) (start stop : ℕ) : Unwired :=
  unwireLoop fault stop true start l

/-- SRC: vm/vm_vlock.c:98-202 -/
def vl_wire (fault : Fault → Bool) (l : List Vlock) (start stop prot : ℕ) : Wired × Option Unwired :=
  let r := wireLoop fault prot stop start l
  (r, r.failed.map (vl_unwire fault r.list start))

/-- SRC: vm/vm_vlock.c:262-303 -/
def vl_kwire (start stop : ℕ) : List Vlock → Bool
  | [] => false
  | lp :: post =>
    if lp.vl_end ≤ start then vl_kwire start stop post
    else if stop ≤ lp.vl_start then false
    else if lp.vl_count ≠ 0 then true
    else vl_kwire start stop post

end Wiring

section Counters

variable {lp : Vlock} {l a b post : List Vlock} {p start stop lo : ℕ} {count : UInt16}

/-- How often a page is wired, if it is. -/
def look (l : List Vlock) (p : ℕ) : Option UInt16 := (l.find? (·.Contains p)).map Vlock.vl_count

/-- The elements are not empty, and they are sorted and do not meet. -/
def Ordered : ℕ → List Vlock → Prop
  | _, [] => True
  | lo, lp :: l => lo ≤ lp.vl_start ∧ lp.vl_start < lp.vl_end ∧ Ordered lp.vl_end l

@[simp] theorem look_nil : look [] p = none := rfl

theorem look_cons : look (lp :: l) p = if lp.Contains p then some lp.vl_count else look l p := by
  unfold look
  by_cases h : lp.Contains p <;> simp [h]

theorem look_append : look (a ++ b) p = (look a p).or (look b p) := by
  unfold look
  rw [find?_append]
  cases find? (fun x : Vlock => decide (x.Contains p)) a <;> rfl

theorem Ordered.mono {lo' : ℕ} (h : Ordered lo l) (hlo : lo' ≤ lo) : Ordered lo' l := by
  cases l with
  | nil => trivial
  | cons lp l => exact ⟨hlo.trans h.1, h.2⟩

theorem Ordered.head (h : Ordered lo (lp :: post)) : Ordered lp.vl_start (lp :: post) := ⟨le_rfl, h.2⟩

theorem Ordered.look_lt (h : Ordered lo l) (hp : p < lo) : look l p = none := by
  induction l generalizing lo with
  | nil => rfl
  | cons lp l ih =>
    obtain ⟨hlo, hne, hl⟩ := h
    rw [look_cons, if_neg fun hc => by have := hc.1; omega]
    exact ih hl (by omega)

theorem clip_start_nil : lp.clip_start start = [] ↔ start ≤ lp.vl_start := by
  unfold Vlock.clip_start
  split_ifs <;> simp <;> omega

theorem clip_end_nil : lp.clip_end stop = [] ↔ lp.vl_end ≤ stop := by
  unfold Vlock.clip_end
  split_ifs <;> simp <;> omega

theorem look_clip (hl : Ordered lp.vl_end post) (hs : lp.Contains start) (hlt : start < stop) (m : List Vlock)
    (hm : m = [] ∨ m = [lp.clip start stop count]) :
    look (lp.clip_start start ++ m ++ lp.clip_end stop ++ post) p =
      if start ≤ p ∧ p < min lp.vl_end stop then look m start else look (lp :: post) p := by
  have hpost : p < lp.vl_end → look post p = none := fun hp => hl.look_lt hp
  all_goals
    simp only [look_append, Vlock.clip_start, Vlock.clip_end]
    split_ifs <;> grind [look_nil, look_cons, Vlock.Contains, Vlock.clip]

theorem ordered_clip (hl : Ordered lo (lp :: post)) (hs : lp.Contains start) (hlt : start < stop) (m : List Vlock)
    (hm : m = [] ∨ m = [lp.clip start stop count]) :
    Ordered lo (lp.clip_start start ++ m ++ lp.clip_end stop ++ post) := by
  obtain ⟨hlo, hne, hl⟩ := hl
  obtain ⟨h₁, h₂⟩ := hs
  unfold Vlock.clip_start Vlock.clip_end
  rcases hm with rfl | rfl
  all_goals
    split_ifs
    all_goals simp only [nil_append, cons_append, Ordered, Vlock.clip]
    all_goals grind [Ordered.mono]

/-- The handler is called for a page. -/
def Fault.On (a : Access) (p : ℕ) (f : Fault) : Bool := f.access = a ∧ f.addr ≤ p ∧ p < f.addr + f.size

end Counters

section Wire

variable {fault : Fault → Bool} {lp : Vlock} {l post : List Vlock} {first stop lo prot : ℕ} {r next : Wired}

/-- The pages have been wired once more up to where the handler has failed. -/
structure Raised (fault : Fault → Bool) (lo first stop : ℕ) (l : List Vlock) (r : Wired) : Prop where
  ordered : Ordered lo r.list
  upto : first ≤ r.failed.getD stop ∧ r.failed.getD stop ≤ stop
  counts : ∀ p, look r.list p = if first ≤ p ∧ p < r.failed.getD stop then some ((look l p).getD 0 + 1) else look l p
  faults : r.failed = none → ∀ p, r.faults.countP (Fault.On .VM_WIRE p) =
    if first ≤ p ∧ p < stop ∧ look l p = none then 1 else 0
  succeeds : (∀ f, fault f = true) → r.failed = none

theorem Raised.raise (hl : Ordered lo (lp :: post)) (hs : lp.Contains first) (hlt : first < stop)
    (hnext : lp.vl_end < stop → Raised fault lp.vl_end lp.vl_end stop post next) :
    Raised fault lo first stop (lp :: post) (lp.raise first stop post next) := by
  have hne : (lp.Contains first) := hs
  obtain ⟨h₁, h₂⟩ := hs
  unfold Vlock.raise
  by_cases hend : (lp.clip first stop (lp.vl_count + 1)).vl_end = stop
  · simp only [if_pos hend]
    refine ⟨ordered_clip hl hne hlt _ (.inr rfl), ⟨hlt.le, le_rfl⟩, fun p => ?_, fun _ p => ?_, fun _ => rfl⟩
    · have hmin : min lp.vl_end stop = stop := hend
      rw [look_clip hl.2.2 hne hlt _ (.inr rfl)]
      grind [look_nil, look_cons, Vlock.Contains, Vlock.clip]
    · grind [look_cons, Vlock.Contains, Vlock.clip]
  · simp only [if_neg hend]
    have hless : lp.vl_end < stop := by
      have : min lp.vl_end stop ≠ stop := hend
      omega
    obtain ⟨hordered, hupto, hlook, hfaults, hsucceeds⟩ := hnext hless
    refine ⟨ordered_clip ⟨hl.1, hl.2.1, hordered⟩ hne hlt _ (.inr rfl), ⟨by dsimp only; omega, hupto.2⟩, fun p => ?_,
      fun hdone p => ?_, hsucceeds⟩
    · rw [look_clip hordered hne hlt _ (.inr rfl)]
      grind [look_nil, look_cons, Vlock.Contains, Vlock.clip]
    · dsimp only
      grind [look_cons, Vlock.Contains, Vlock.clip]

theorem Raised.gap {f : Fault} (hl : Ordered lo (lp :: post)) (hlo : lo ≤ first) (hbefore : first < lp.vl_start)
    (hf : f.access = .VM_WIRE ∧ f.addr = first ∧ f.size = lp.vl_start - first) (hless : lp.vl_start < stop)
    (h : Raised fault lp.vl_start lp.vl_start stop (lp :: post) r) :
    Raised fault lo first stop (lp :: post) ⟨⟨first, lp.vl_start, 1⟩ :: r.list, f :: r.faults, r.failed⟩ := by
  obtain ⟨hordered, hupto, hlook, hfaults, hsucceeds⟩ := h
  have hnone : ∀ p < lp.vl_start, look (lp :: post) p = none := fun p => hl.head.look_lt
  refine ⟨⟨hlo, hbefore, hordered⟩, ⟨by dsimp only; omega, hupto.2⟩, fun p => ?_, fun hdone p => ?_, hsucceeds⟩
  · dsimp only
    rw [look_cons, hlook p]
    grind [Vlock.Contains]
  · dsimp only
    grind [Fault.On]

theorem wireLoop_spec (hl : Ordered lo l) (hlo : lo ≤ first) (hlt : first < stop) :
    Raised fault lo first stop l (wireLoop fault prot stop first l) := by
  induction l generalizing lo first with
  | nil =>
    unfold wireLoop
    by_cases hf : fault ⟨first, stop - first, prot, .VM_WIRE⟩ = true
    · simp only [if_pos hf]
      refine ⟨⟨hlo, hlt, trivial⟩, ⟨hlt.le, le_rfl⟩, fun p => ?_, fun _ p => ?_, fun _ => rfl⟩
      · rw [look_cons]
        grind [Vlock.Contains, look_nil]
      · rw [countP_cons, look_nil]
        grind [Fault.On]
    · simp only [if_neg hf]
      exact ⟨trivial, ⟨le_rfl, hlt.le⟩, fun p => by grind, nofun, fun hall => absurd (hall _) hf⟩
  | cons lp post ih =>
    have hraise : ∀ {lo first}, Ordered lo (lp :: post) → lp.Contains first → first < stop →
        Raised fault lo first stop (lp :: post)
          (lp.raise first stop post (wireLoop fault prot stop lp.vl_end post)) :=
      fun hl hs hlt => .raise hl hs hlt fun hless => ih hl.2.2 le_rfl hless
    unfold wireLoop
    dsimp only
    by_cases hin : lp.Contains first
    · rw [if_pos hin]
      exact hraise hl hin hlt
    rw [if_neg hin]
    by_cases hbefore : first < lp.vl_start
    · rw [if_pos hbefore]
      generalize hf : (⟨first, min lp.vl_start stop - first, prot, .VM_WIRE⟩ : Fault) = f
      by_cases hfault : fault f = true
      · simp only [hfault, Bool.not_true, Bool.false_eq_true, if_false]
        by_cases hall : min lp.vl_start stop - first = stop - first
        · rw [if_pos hall]
          have hstop : first + (min lp.vl_start stop - first) = stop := by omega
          rw [hstop]
          refine ⟨⟨hlo, hlt, by dsimp only; omega, hl.2⟩, ⟨hlt.le, le_rfl⟩, fun p => ?_, fun _ p => ?_, fun _ => rfl⟩
          · have hnone := hl.head.look_lt (p := p)
            rw [look_cons]
            grind [Vlock.Contains]
          · have hnone := hl.head.look_lt (p := p)
            grind [Fault.On]
        · rw [if_neg hall]
          have hless : lp.vl_start < stop := by omega
          have hstart : first + (min lp.vl_start stop - first) = lp.vl_start := by omega
          rw [hstart]
          exact .gap hl hlo hbefore (by subst hf; exact ⟨rfl, rfl, by dsimp only; omega⟩) hless
            (hraise hl.head ⟨le_rfl, hl.2.1⟩ hless)
      · simp only [hfault, Bool.not_false, if_true]
        exact ⟨hl, ⟨le_rfl, hlt.le⟩, fun p => by grind, nofun, fun h => absurd (h _) hfault⟩
    · rw [if_neg hbefore]
      have hbehind : lp.vl_end ≤ first := by
        unfold Vlock.Contains at hin
        omega
      obtain ⟨hordered, hupto, hlook, hfaults, hsucceeds⟩ := ih hl.2.2 hbehind hlt
      refine ⟨⟨hl.1, hl.2.1, hordered⟩, hupto, fun p => ?_, fun hdone p => ?_, hsucceeds⟩
      · dsimp only
        rw [look_cons, look_cons, hlook p]
        grind [Vlock.Contains]
      · rw [look_cons]
        exact (hfaults hdone p).trans (by grind [Vlock.Contains])

end Wire

section Unwire

variable {fault : Fault → Bool} {lp : Vlock} {l post : List Vlock} {start stop lo : ℕ} {head : Bool}

/-- What becomes of a count. -/
def lowered : Option UInt16 → Option UInt16
  | none => none
  | some c => if c - 1 ≠ 0 then some (c - 1) else none

/-- The pages have been unwired once. -/
structure Lowered (lo start stop : ℕ) (l : List Vlock) (r : Unwired) : Prop where
  returns : r.stop = none
  ordered : Ordered lo r.list
  counts : ∀ p, look r.list p = if start ≤ p ∧ p < stop then lowered (look l p) else look l p
  faults : ∀ p, r.faults.countP (Fault.On .VM_UNWIRE p) =
    if start ≤ p ∧ p < stop ∧ lowered (look l p) = none then 1 else 0

/-- The range does not end where the list does, and does not begin with a head that is wired once. -/
def Inside (head : Bool) (start stop : ℕ) (l : List Vlock) : Prop :=
  (head = true → ∀ lp ∈ l.head?, ¬(lp.vl_start = start ∧ lp.vl_count = 1)) ∧ ∀ lp ∈ l.getLast?, lp.vl_end ≠ stop

theorem Lowered.clip {r : Unwired} {m : List Vlock} {faults : List Fault} {holds : Bool}
    (hl : Ordered lo (lp :: post)) (hs : lp.Contains start) (hlt : start < stop)
    (h : Lowered lp.vl_end (min lp.vl_end stop) stop post r)
    (hm : m = [] ∨ m = [lp.clip start stop (lp.vl_count - 1)]) (hgone : look m start = lowered (some lp.vl_count))
    (hfaults : ∀ p, faults.countP (Fault.On .VM_UNWIRE p) =
      if start ≤ p ∧ p < min lp.vl_end stop ∧ look m start = none then 1 else 0) :
    Lowered lo start stop (lp :: post) (r.after (lp.clip_start start ++ m ++ lp.clip_end stop) faults holds) := by
  obtain ⟨hreturns, hordered, hcounts, hcalls⟩ := h
  refine ⟨hreturns, ordered_clip ⟨hl.1, hl.2.1, hordered⟩ hs hlt m hm, fun p => ?_, fun p => ?_⟩
  · refine (look_clip hordered hs hlt m hm).trans ?_
    grind [look_cons, Vlock.Contains]
  · have hpost : p < lp.vl_end → look post p = none := fun hp => hl.2.2.look_lt hp
    unfold Unwired.after
    rw [countP_append, hcalls, hfaults, look_cons]
    grind [Vlock.Contains]

theorem Ordered.last (h : Ordered lo l) : ∀ lp ∈ l.getLast?, lo < lp.vl_end := by
  induction l generalizing lo with
  | nil => exact nofun
  | cons lp l ih =>
    intro e he
    cases l with
    | nil =>
      cases he
      exact h.1.trans_lt h.2.1
    | cons lp' l =>
      exact h.1.trans_lt (h.2.1.trans (ih h.2.2 e he))

theorem inside_rest (hl : Ordered lo (lp :: post)) (hmore : lp.vl_end < stop → post ≠ []) :
    (lp.clip_end stop ++ post ≠ [] ∧ (stop ≤ min lp.vl_end stop ∨ Inside false (min lp.vl_end stop) stop post)) ↔
      ∀ e ∈ (lp :: post).getLast?, e.vl_end ≠ stop := by
  unfold Inside Vlock.clip_end
  cases post with
  | nil =>
    have hge : ¬lp.vl_end < stop := fun hlt => hmore hlt rfl
    split_ifs <;> simp <;> omega
  | cons e post =>
    have hlast := hl.2.2.last
    grind

theorem unwireLoop_spec (hunwire : ∀ f, f.access = .VM_UNWIRE → fault f = true) (hl : Ordered lo l)
    (hwired : ∀ p, start ≤ p → p < stop → look l p ≠ none) :
    Lowered lo start stop l (unwireLoop fault stop head start l) ∧
      ((unwireLoop fault stop head start l).asserted = true ↔
        stop ≤ start ∨ head = true ∧ l = [⟨start, stop, 1⟩] ∨ Inside head start stop l) := by
  induction l generalizing lo start head with
  | nil =>
    have hge : ¬start < stop := fun hlt => hwired start le_rfl hlt rfl
    unfold unwireLoop
    rw [if_neg hge]
    refine ⟨⟨rfl, trivial, fun p => ?_, fun p => ?_⟩, iff_of_true rfl (.inl (Nat.le_of_not_lt hge))⟩
    · rw [if_neg (by omega)]
    · rw [if_neg (by omega)]
      rfl
  | cons lp post ih =>
    unfold unwireLoop
    by_cases hlt : start < stop
    · rw [if_neg (not_not.mpr hlt)]
      by_cases hin : lp.Contains start
      · rw [if_pos hin]
        obtain ⟨h₁, h₂⟩ := id hin
        -- the rest of the range is in the rest of the list
        have hrest : ∀ p, min lp.vl_end stop ≤ p → p < stop → look post p ≠ none := by
          intro p hp hps
          have hp' := hwired p (by omega) hps
          rwa [look_cons, if_neg fun hc : lp.Contains p => by have := hc.2; omega] at hp'
        have hmore : lp.vl_end < stop → post ≠ [] := by
          rintro hless rfl
          exact hrest lp.vl_end (by omega) hless rfl
        have hsize : start + (min lp.vl_end stop - start) = min lp.vl_end stop := by omega
        dsimp only [Vlock.clip]
        rw [hsize]
        have hbehind := inside_rest hl hmore
        have hmid : ∀ c, look [⟨max lp.vl_start start, min lp.vl_end stop, c⟩] start = some c := by
          intro c
          rw [look_cons]
          grind [Vlock.Contains]
        by_cases hkept : lp.vl_count - 1 ≠ 0
        · rw [if_pos hkept]
          have hone : lp.vl_count ≠ 1 := by
            rintro heq
            exact hkept (by rw [heq]; rfl)
          obtain ⟨hspec, hasserted⟩ := @ih _ _ false hl.2.2 hrest
          refine ⟨.clip hl hin hlt hspec (.inr rfl) ?_ fun p => ?_, ?_⟩
          · rw [hmid, lowered, if_pos hkept]
          · rw [hmid]
            simp
          · simp only [Unwired.after, Bool.and_eq_true, decide_eq_true_eq, hasserted, Bool.false_eq_true, false_and,
              false_or, Inside]
            grind
        · rw [if_neg hkept]
          have hone : lp.vl_count = 1 := by
            grind
          rw [hunwire _ rfl]
          simp only [Bool.not_true, Bool.false_eq_true, if_false]
          have hnone : look [] start = lowered (some lp.vl_count) := by
            rw [lowered, if_neg hkept, look_nil]
          by_cases hsole : head ∧ lp.clip_start start = [] ∧ lp.clip_end stop ++ post = []
          · rw [if_pos hsole]
            obtain ⟨hhead, hfront, hempty⟩ := hsole
            obtain ⟨hback, rfl⟩ := append_eq_nil_iff.mp hempty
            have hge : ¬lp.vl_end < stop := fun hless => hmore hless rfl
            obtain rfl : lp.vl_start = start := h₁.antisymm (clip_start_nil.mp hfront)
            obtain rfl : lp.vl_end = stop := (clip_end_nil.mp hback).antisymm (Nat.le_of_not_lt hge)
            refine ⟨⟨by simp, trivial, fun p => ?_, fun p => ?_⟩, iff_of_true rfl (.inr (.inl ⟨hhead, ?_⟩))⟩
            · rw [look_cons, look_nil]
              grind [Vlock.Contains, lowered]
            · rw [look_cons, countP_cons]
              grind [Vlock.Contains, lowered, Fault.On]
            · rw [← hone]
          · rw [if_neg hsole]
            obtain ⟨hspec, hasserted⟩ := @ih _ _ (head && decide (lp.clip_start start = [])) hl.2.2 hrest
            refine ⟨.clip hl hin hlt hspec (.inl rfl) hnone fun p => ?_, ?_⟩
            · rw [countP_cons]
              grind [Fault.On, look_nil]
            · by_cases hfreed : head = true ∧ lp.clip_start start = []
              · have hstart := h₁.antisymm (clip_start_nil.mp hfreed.2)
                refine iff_of_false (by simp [Unwired.after, hfreed]) ?_
                rintro (hle | ⟨-, heq⟩ | ⟨hhead, -⟩)
                · omega
                · cases heq
                  exact hsole ⟨hfreed.1, hfreed.2, append_eq_nil_iff.mpr ⟨clip_end_nil.mpr le_rfl, rfl⟩⟩
                · exact hhead hfreed.1 lp rfl ⟨hstart, hone⟩
              · have hother : (head && decide (lp.clip_start start = [])) = false := by
                  simpa using hfreed
                rw [hother] at hasserted ⊢
                simp only [Unwired.after, Bool.and_eq_true, decide_eq_true_eq, hasserted, hfreed, not_false_eq_true,
                  and_true, Bool.false_eq_true, false_and, false_or]
                rw [clip_start_nil] at hfreed
                unfold Inside
                grind
      · rw [if_neg hin]
        have hbehind : lp.vl_end ≤ start := by
          have hstart := hwired start le_rfl hlt
          by_contra hless
          unfold Vlock.Contains at hin
          exact hstart (hl.head.look_lt (by omega))
        have hrest : ∀ p, start ≤ p → p < stop → look post p ≠ none := by
          intro p hp hps
          have hp' := hwired p hp hps
          rwa [look_cons, if_neg fun hc : lp.Contains p => by have := hc.2; omega] at hp'
        obtain ⟨⟨hreturns, hordered, hcounts, hcalls⟩, hasserted⟩ := @ih _ _ false hl.2.2 hrest
        refine ⟨⟨hreturns, ⟨hl.1, hl.2.1, hordered⟩, fun p => ?_, fun p => ?_⟩, ?_⟩
        · change look (lp :: (unwireLoop fault stop false start post).list) p = _
          rw [look_cons, hcounts, look_cons]
          grind [Vlock.Contains]
        · refine (hcalls p).trans ?_
          rw [look_cons]
          grind [Vlock.Contains]
        · cases post with
          | nil => exact absurd rfl (hrest start le_rfl hlt)
          | cons e post =>
            have hne : lp.vl_start ≠ start := by
              have := hl.2.1
              omega
            simp only [Unwired.after, Bool.and_eq_true, decide_eq_true_eq, hasserted, Bool.false_eq_true, false_and,
              false_or, Inside, getLast?_cons_cons]
            grind
    · rw [if_pos hlt]
      refine ⟨⟨rfl, hl, fun p => ?_, fun p => ?_⟩, iff_of_true rfl (.inl (Nat.le_of_not_lt hlt))⟩
      · rw [if_neg (by omega)]
      · rw [if_neg (by omega)]
        rfl

end Unwire

end Osf1.Wiring
