import Osf1.Wiring.Model

/-!
# The wiring list as a counter for every page

`Wf` says how the functions leave the list, and `wirings` counts a page. The counts have 16 bits, so the list
refines a counter as long as no page of a range is wired 65535 times.
-/

set_option autoImplicit false

namespace Osf1.Wiring

open Option

variable {l : List Vlock} {start stop p : ℕ}

/-- A list as the functions leave it. -/
def Wf (l : List Vlock) : Prop := Ordered 0 l ∧ ∀ lp ∈ l, 0 < lp.vl_count

/-- The count of the element that contains the page, or 0. -/
def wirings (l : List Vlock) (p : ℕ) : ℕ := ((look l p).getD 0).toNat

theorem Ordered.find {lo : ℕ} (h : Ordered lo l) {lp : Vlock} (hlp : lp ∈ l) : look l lp.vl_start = some lp.vl_count := by
  induction l generalizing lo with
  | nil => cases hlp
  | cons e l ih =>
    rw [look_cons]
    cases hlp with
    | head => rw [if_pos ⟨le_rfl, h.2.1⟩]
    | tail _ hlp =>
      have hfound := ih h.2.2 hlp
      by_cases hc : e.Contains lp.vl_start
      · rw [h.2.2.look_lt hc.2] at hfound
        cases hfound
      · rw [if_neg hc, hfound]

theorem wf_iff : Wf l ↔ Ordered 0 l ∧ ∀ p, look l p ≠ some 0 := by
  refine and_congr_right fun h => ⟨fun hpos p hp => ?_, fun hpos lp hlp => ?_⟩
  · obtain ⟨lp, hlp, hzero⟩ := map_eq_some_iff.mp hp
    have := hpos lp (List.mem_of_find?_eq_some hlp)
    rw [hzero] at this
    exact absurd this (by decide)
  · have hne := hpos lp.vl_start
    rw [h.find hlp] at hne
    exact UInt16.pos_iff_ne_zero.mpr fun heq => hne (by rw [heq])

theorem wirings_pos (h : Wf l) : 0 < wirings l p ↔ look l p ≠ none := by
  have hne := (wf_iff.mp h).2 p
  unfold wirings
  cases hl : look l p with
  | none => simp
  | some c =>
    rw [hl] at hne
    have hc : c ≠ 0 := fun heq => hne (by rw [heq])
    simp only [getD_some, ne_eq, reduceCtorEq, not_false_eq_true, iff_true]
    exact Nat.pos_of_ne_zero fun heq => hc (UInt16.toNat_inj.mp heq)

theorem kwire_iff (h : Wf l) (hlt : start < stop) :
    vl_kwire start stop l = true ↔ ∃ p, start ≤ p ∧ p < stop ∧ 0 < wirings l p := by
  have hall : ∀ lo, Ordered lo l → (vl_kwire start stop l = true ↔ ∃ p, start ≤ p ∧ p < stop ∧ look l p ≠ none) := by
    obtain ⟨-, hpos⟩ := h
    induction l with
    | nil => simp [vl_kwire]
    | cons lp l ih =>
      intro lo hl
      have hcount : lp.vl_count ≠ 0 := UInt16.pos_iff_ne_zero.mp (hpos lp List.mem_cons_self)
      have hrest := ih (fun e he => hpos e (List.mem_cons_of_mem _ he)) _ hl.2.2
      rw [vl_kwire]
      split_ifs with hend hbefore
      · rw [hrest]
        refine exists_congr fun p => ?_
        rw [look_cons]
        grind [Vlock.Contains]
      · refine iff_of_false (by rintro ⟨⟩) ?_
        rintro ⟨p, -, hp, hlook⟩
        exact hlook (hl.head.look_lt (by omega))
      · refine iff_of_true rfl ⟨max start lp.vl_start, by omega, by omega, ?_⟩
        rw [look_cons, if_pos ⟨by omega, by have := hl.2.1; omega⟩]
        exact some_ne_none _
  simp only [hall 0 h.1, wirings_pos h]

/-- The list refines a counter for every page. -/
structure Refines (fault : Fault → Bool) (prot : ℕ) (l : List Vlock) (start stop : ℕ) : Prop where
  wires : (vl_wire fault l start stop prot).1.failed = none →
    Wf (vl_wire fault l start stop prot).1.list ∧
      ∀ p, wirings (vl_wire fault l start stop prot).1.list p = wirings l p + (if start ≤ p ∧ p < stop then 1 else 0) ∧
        (vl_wire fault l start stop prot).1.faults.countP (Fault.On .VM_WIRE p) =
          if start ≤ p ∧ p < stop ∧ wirings l p = 0 then 1 else 0
  fails : ∀ u, (vl_wire fault l start stop prot).2 = some u →
    u.stop = none ∧ Wf u.list ∧ ∀ p, wirings u.list p = wirings l p
  unwires : (∀ p, start ≤ p → p < stop → 1 ≤ wirings l p) →
    (vl_unwire fault l start stop).stop = none ∧ Wf (vl_unwire fault l start stop).list ∧
      ∀ p, wirings (vl_unwire fault l start stop).list p = wirings l p - (if start ≤ p ∧ p < stop then 1 else 0) ∧
        (vl_unwire fault l start stop).faults.countP (Fault.On .VM_UNWIRE p) =
          if start ≤ p ∧ p < stop ∧ wirings l p = 1 then 1 else 0
  kwires : vl_kwire start stop l = true ↔ ∃ p, start ≤ p ∧ p < stop ∧ 0 < wirings l p

theorem lowered_raised (h : look l p ≠ some 0) : lowered (some ((look l p).getD 0 + 1)) = look l p := by
  unfold lowered
  cases hl : look l p with
  | none => rfl
  | some c =>
    have hc : c ≠ 0 := fun heq => h (by rw [hl, heq])
    simp [hc]

theorem lowered_ne : lowered (look l p) ≠ some 0 := by
  unfold lowered
  grind

theorem lowered_toNat (h : look l p ≠ some 0) : ((lowered (look l p)).getD 0).toNat = wirings l p - 1 := by
  unfold lowered wirings
  cases hl : look l p with
  | none => rfl
  | some c =>
    have hc : c ≠ 0 := fun heq => h (by rw [hl, heq])
    have hle : (1 : UInt16) ≤ c := UInt16.pos_iff_ne_zero.mpr hc
    have hsub := UInt16.toNat_sub_of_le c 1 hle
    by_cases hone : c - 1 ≠ 0
    · simp [hone, hsub]
    · rw [not_not.mp hone] at hsub
      simpa [hone] using hsub

section Runs

variable {fault : Fault → Bool} {prot : ℕ} {u : Unwired}

theorem wires (h : Wf l) (hlt : start < stop) (hbound : ∀ p, start ≤ p → p < stop → wirings l p < 65535)
    (hdone : (wireLoop fault prot stop start l).failed = none) :
    Wf (wireLoop fault prot stop start l).list ∧ ∀ p,
      wirings (wireLoop fault prot stop start l).list p = wirings l p + (if start ≤ p ∧ p < stop then 1 else 0) ∧
        (wireLoop fault prot stop start l).faults.countP (Fault.On .VM_WIRE p) =
          if start ≤ p ∧ p < stop ∧ wirings l p = 0 then 1 else 0 := by
  obtain ⟨hl, hne⟩ := wf_iff.mp h
  obtain ⟨hordered, -, hcounts, hfaults, -⟩ := @wireLoop_spec fault l start stop 0 prot hl (Nat.zero_le start) hlt
  simp only [hdone, getD_none] at hcounts
  have hnext : ∀ p, start ≤ p → p < stop → (((look l p).getD 0) + 1).toNat = wirings l p + 1 := by
    intro p hp hps
    have hless := hbound p hp hps
    unfold wirings at hless ⊢
    exact Nat.mod_eq_of_lt (by simp; omega)
  refine ⟨wf_iff.mpr ⟨hordered, fun p => ?_⟩, fun p => ⟨?_, ?_⟩⟩
  · rw [hcounts]
    split_ifs with hp
    · intro hzero
      have hsucc := hnext p hp.1 hp.2
      rw [some_inj.mp hzero] at hsucc
      cases hsucc
    · exact hne p
  · rw [wirings, hcounts]
    split_ifs with hp
    · exact hnext p hp.1 hp.2
    · rfl
  · refine (hfaults hdone p).trans (if_congr (and_congr_right fun _ => and_congr_right fun _ => ?_) rfl rfl)
    rw [← not_iff_not, ← ne_eq, ← wirings_pos h]
    omega

theorem fails (hunwire : ∀ f : Fault, f.access = .VM_UNWIRE → fault f = true) (h : Wf l) (hlt : start < stop)
    (hu : (vl_wire fault l start stop prot).2 = some u) :
    u.stop = none ∧ Wf u.list ∧ ∀ p, wirings u.list p = wirings l p := by
  obtain ⟨hl, hne⟩ := wf_iff.mp h
  have hspec := @wireLoop_spec fault l start stop 0 prot hl (Nat.zero_le start) hlt
  obtain ⟨first, hfirst, rfl⟩ := map_eq_some_iff.mp hu
  have hcounts := hspec.counts
  rw [show (wireLoop fault prot stop start l).failed = some first from hfirst] at hcounts
  have hwired : ∀ p, start ≤ p → p < first → look (wireLoop fault prot stop start l).list p ≠ none := by
    intro p hp hps
    rw [hcounts, if_pos ⟨hp, hps⟩]
    exact some_ne_none _
  obtain ⟨hreturns, hordered, hlow, -⟩ := (@unwireLoop_spec fault _ start first 0 true hunwire hspec.ordered hwired).1
  have hsame : ∀ p, look (vl_unwire fault (wireLoop fault prot stop start l).list start first).list p = look l p := by
    intro p
    refine (hlow p).trans ?_
    rw [hcounts]
    simp only [getD_some]
    split_ifs
    · exact lowered_raised (hne p)
    · rfl
  refine ⟨hreturns, wf_iff.mpr ⟨hordered, fun p => ?_⟩, fun p => congrArg (fun o => (o.getD 0).toNat) (hsame p)⟩
  exact ne_of_eq_of_ne (hsame p) (hne p)

theorem wired_of_wirings (h : Wf l) (hwired : ∀ p, start ≤ p → p < stop → 1 ≤ wirings l p) :
    ∀ p, start ≤ p → p < stop → look l p ≠ none :=
  fun p hp hps => (wirings_pos h).mp (hwired p hp hps)

theorem unwires (hunwire : ∀ f : Fault, f.access = .VM_UNWIRE → fault f = true) (h : Wf l)
    (hwired : ∀ p, start ≤ p → p < stop → 1 ≤ wirings l p) :
    (unwireLoop fault stop true start l).stop = none ∧ Wf (unwireLoop fault stop true start l).list ∧ ∀ p,
      wirings (unwireLoop fault stop true start l).list p = wirings l p - (if start ≤ p ∧ p < stop then 1 else 0) ∧
        (unwireLoop fault stop true start l).faults.countP (Fault.On .VM_UNWIRE p) =
          if start ≤ p ∧ p < stop ∧ wirings l p = 1 then 1 else 0 := by
  obtain ⟨hl, hne⟩ := wf_iff.mp h
  obtain ⟨hreturns, hordered, hcounts, hfaults⟩ :=
    (@unwireLoop_spec fault l start stop 0 true hunwire hl (wired_of_wirings h hwired)).1
  refine ⟨hreturns, wf_iff.mpr ⟨hordered, fun p => ?_⟩, fun p => ⟨?_, ?_⟩⟩
  · rw [hcounts]
    split_ifs
    · exact lowered_ne
    · exact hne p
  · rw [wirings, hcounts]
    split_ifs
    · exact lowered_toNat (hne p)
    · rfl
  · refine (hfaults p).trans (if_congr (and_congr_right fun hp => and_congr_right fun hps => ?_) rfl rfl)
    have htoNat := lowered_toNat (hne p)
    have hpos := hwired p hp hps
    constructor
    · intro hgone
      rw [hgone] at htoNat
      have : wirings l p - 1 = 0 := htoNat.symm
      omega
    · intro hone
      cases hlow : lowered (look l p) with
      | none => rfl
      | some c =>
        rw [hlow, hone] at htoNat
        have hc : c = 0 := UInt16.toNat_inj.mp htoNat
        exact absurd (hlow.trans (congrArg some hc)) lowered_ne

end Runs

/-- The list refines a counter for every page, whatever the handler does, exactly when no page of the range is wired
65535 times. -/
theorem refines_iff (h : Wf l) (hlt : start < stop) :
    (∀ fault prot, (∀ f : Fault, f.access = .VM_UNWIRE → fault f = true) → Refines fault prot l start stop) ↔
      ∀ p, start ≤ p → p < stop → wirings l p < 65535 := by
  constructor
  · intro hall p hp hps
    have hspec := @wireLoop_spec (fun _ => true) l start stop 0 0 h.1 (Nat.zero_le start) hlt
    have hwires := ((hall (fun _ => true) 0 fun _ _ => rfl).wires (hspec.succeeds fun _ => rfl)).2 p
    rw [if_pos ⟨hp, hps⟩] at hwires
    have hlimit := ((look (vl_wire (fun _ => true) l start stop 0).1.list p).getD 0).toNat_lt
    have heq : wirings _ p = _ := hwires.1
    unfold wirings at heq ⊢
    omega
  · intro hbound fault prot hunwire
    exact ⟨wires h hlt hbound, fun u => fails hunwire h hlt, unwires hunwire h, kwire_iff h hlt⟩

theorem refines_iff_twice :
    (∀ fault prot, (∀ f : Fault, f.access = .VM_UNWIRE → fault f = true) → Refines fault prot [⟨0, 2, 1⟩] 1 3) ↔
      ∀ p, 1 ≤ p → p < 3 → wirings [⟨0, 2, 1⟩] p < 65535 :=
  refines_iff ⟨⟨le_rfl, by decide, trivial⟩, by decide⟩ (by decide)

/-- The count of a page that is wired once more after 65535 times is 0. -/
theorem refines_overflows :
    ¬∀ (l : List Vlock) (start stop : ℕ), Wf l → start < stop → ∀ fault prot,
      (∀ f : Fault, f.access = .VM_UNWIRE → fault f = true) → Refines fault prot l start stop := by
  intro hall
  have hrefines := hall [⟨0, 1, 65535⟩] 0 1 ⟨⟨le_rfl, by decide, trivial⟩, by decide⟩ (by decide) (fun _ => true) 0
    fun _ _ => rfl
  exact absurd ((hrefines.wires rfl).2 0).1 (by decide)

/-- When all assertions of `vl_unwire` hold and it does not panic. -/
theorem unwire_asserts_iff {fault : Fault → Bool} (hunwire : ∀ f : Fault, f.access = .VM_UNWIRE → fault f = true)
    (h : Wf l) (hwired : ∀ p, start ≤ p → p < stop → 1 ≤ wirings l p) :
    (vl_unwire fault l start stop).asserted = true ∧ (vl_unwire fault l start stop).stop = none ↔
      stop ≤ start ∨ l = [⟨start, stop, 1⟩] ∨ Inside true start stop l := by
  obtain ⟨hspec, hasserted⟩ := @unwireLoop_spec fault l start stop 0 true hunwire h.1 (wired_of_wirings h hwired)
  rw [vl_unwire, hasserted]
  simp [hspec.returns]

theorem unwire_asserts_iff_between :
    (vl_unwire (fun _ => true) [⟨0, 4, 2⟩] 1 3).asserted = true ∧
        (vl_unwire (fun _ => true) [⟨0, 4, 2⟩] 1 3).stop = none ↔
      3 ≤ 1 ∨ [(⟨0, 4, 2⟩ : Vlock)] = [⟨1, 3, 1⟩] ∨ Inside true 1 3 [⟨0, 4, 2⟩] :=
  unwire_asserts_iff (fun _ _ => rfl) ⟨⟨le_rfl, by decide, trivial⟩, by decide⟩ fun p hp hps => by
    obtain rfl | rfl : p = 1 ∨ p = 2 := by omega
    all_goals decide

/-- The head of the list is unwired for the last time: the next element is the head, and the cursor is there. -/
theorem unwire_at_head :
    ¬∀ (fault : Fault → Bool) (l : List Vlock) (start stop : ℕ), (∀ f : Fault, f.access = .VM_UNWIRE → fault f = true) →
      Wf l → (∀ p, start ≤ p → p < stop → 1 ≤ wirings l p) →
      (vl_unwire fault l start stop).asserted = true ∧ (vl_unwire fault l start stop).stop = none := by
  intro hall
  have hboth := hall (fun _ => true) [⟨0, 1, 1⟩, ⟨2, 3, 1⟩] 0 1 (fun _ _ => rfl)
    ⟨⟨le_rfl, by decide, by decide, by decide, trivial⟩, by decide⟩ fun p _ hps => by
      obtain rfl : p = 0 := by omega
      decide
  exact absurd hboth.1 (by decide)

end Osf1.Wiring
