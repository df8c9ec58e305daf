import Osf1.Zalloc.Passing

/-!
# Zones over whole runs

Calls of `zalloc`, `zget`, `zfree` and `zcram` and passes of `zone_gc` go on in any order of their sections.  What is
asked of a pass is that the list of each zone that it collects settles.
-/

set_option autoImplicit false

namespace Osf1.Zalloc

open Osf1.Computation List Option

variable {Z C : Type}

/-- No zone has memory, and no call is made.
SRC: kern/zalloc.c:296-297,430 -/
structure Init (s : St Z C) : Prop where
  zone : ∀ z, s.live z = [] ∧ (s.zone z).freeElements = [] ∧ (s.zone z).curSize = 0
  table : ∀ p, s.table p = .z 0 ZONE_PAGE_UNUSED
  space : s.nextSpace = 0 ∧ s.endOfSpace = 0
  page : ∀ p, s.mapped p = false ∧ s.use p = none ∧ s.crammed p = false
  owner : ∀ b, s.owner b = none
  pc : ∀ c, s.pc c = .none

/-- A pass comes to a zone that it collects only when the list of the zone settles. -/
def Meets (k : Kernel Z) (s : St Z C) : Label Z C → Prop
  | .section' c => ∀ z zones freeList, s.pc c = .gc (z :: zones) freeList → k.Collects z →
      Settles k (k.zone z).elemSize (s.live z) (s.zone z).freeElements
  | .zget _ | .zfree .. | .zcram .. | .zalloc .. | .memory .. | .zoneGc _ => True

/-- A pass has a page on its list. -/
def OnList (s : St Z C) (c : C) (p : ℕ) : Prop := ∃ l, Listed s.table (s.pc c).freeList l ∧ p ∈ l

/-- What holds of the zones between the sections.  `counters`: the page of a zone that is collected has no free element
counted, and counts its elements, unless it waits to be given back. -/
structure Safe (k : Kernel Z) (s : St Z C) : Prop where
  disjoint : ∀ z z' a a', a ∈ s.elements z → a' ∈ s.elements z' → ¬(z = z' ∧ a = a') →
    a + (k.zone z).elemSize ≤ a' ∨ a' + (k.zone z').elemSize ≤ a
  nodup : ∀ z, (s.elements z).Nodup
  mapped : ∀ z, ∀ a ∈ s.elements z, ∀ p, Spans k a (k.zone z).elemSize p → s.mapped p = true
  alone : ∀ p z, s.use p = some (.zone z) → k.Collects z → ∀ z', z' ≠ z → ∀ a ∈ s.elements z',
    ¬Spans k a (k.zone z').elemSize p
  counters : ∀ p z, s.use p = some (.zone z) → k.Collects z → (∀ c, ¬OnList s c p) →
    s.table p = .z 0 (overlap k (k.zone z).elemSize (s.elements z) p)
  emptied : ∀ p z, s.use p = some (.zone z) → k.Collects z → s.crammed p = true →
    overlap k (k.zone z).elemSize (s.elements z) p = 0 → ∃ c, OnList s c p
  lists : ∀ c, ∃ l, Listed s.table (s.pc c).freeList l ∧ l.Nodup
  once : ∀ c d p, OnList s c p → OnList s d p → c = d
  listed : ∀ c p, OnList s c p → s.mapped p = true ∧ ∀ z, ∀ a ∈ s.elements z, ¬Spans k a (k.zone z).elemSize p
  size : ∀ z, (s.zone z).curSize = (k.zone z).elemSize * (s.elements z).length

/-- What a section of a pass does. -/
structure SafePass (k : Kernel Z) (s : St Z C) (c : C) (s' : St Z C) : Prop where
  removes : ∀ z, ∀ e ∈ (s.zone z).freeElements, e ∉ (s'.zone z).freeElements →
    ∀ z', ∀ a ∈ s.live z', ¬Spans k a (k.zone z').elemSize (zonePage k e)
  unmaps : ∀ p, s.mapped p = true → s'.mapped p = false →
    OnList s c p ∧ (∀ d, ¬OnList s' d p) ∧ ∀ z, ∀ a ∈ s.elements z, ¬Spans k a (k.zone z).elemSize p
  first : ∀ p, s.pc c = .gc [] (some p) → s.mapped p = true ∧ s'.mapped p = false

variable {k : Kernel Z} {s s' : St Z C} {z : Z} {c : C} {p : ℕ}

theorem Listed.unique {table : Table} {freeList : Option ℕ} {l l' : List ℕ} (h : Listed table freeList l)
    (h' : Listed table freeList l') : l = l' := by
  induction l generalizing freeList l' with
  | nil =>
    cases l' with
    | nil => rfl
    | cons p l' =>
      have hnone : freeList = none := h
      have hsome := h'.1
      rw [hnone] at hsome
      cases hsome
  | cons p l ih =>
    obtain ⟨hp, next, hnext, hl⟩ := h
    cases l' with
    | nil =>
      have hnone : freeList = none := h'
      rw [hp] at hnone
      cases hnone
    | cons p' l' =>
      obtain ⟨hp', next', hnext', hl'⟩ := h'
      have hpp : p = p' := by
        rw [hp] at hp'
        exact some_inj.mp hp'
      rw [← hpp] at hnext' ⊢
      rw [hnext] at hnext'
      injection hnext' with hnext'
      rw [← hnext'] at hl'
      rw [ih hl hl']

theorem Counts.onList_iff {linked : C → List ℕ} (h : Counts k linked s) : OnList s c p ↔ p ∈ linked c := by
  constructor
  · rintro ⟨l, hl, hp⟩
    rw [← hl.unique (h.listed c)]
    exact hp
  · exact fun hp => ⟨linked c, h.listed c, hp⟩

theorem Init.inv (h : Init s) : Inv k s := by
  have helements (z : Z) : s.elements z = [] := by
    rw [St.elements, (h.zone z).1, (h.zone z).2.1]
    rfl
  have hnone {z : Z} {a : ℕ} (ha : a ∈ s.elements z) : False := by
    rw [helements] at ha
    cases ha
  have huse {p : ℕ} {u : Use Z} (hp : s.use p = some u) : False := by
    rw [(h.page p).2.1] at hp
    cases hp
  constructor
  · constructor
    · exact fun z a ha => (hnone ha).elim
    · intro z
      rw [helements]
      exact nodup_nil
    · rw [h.space.1]
      exact Nat.zero_le _
    · rw [h.space.1, h.space.2]
      exact fun hlt => absurd hlt (Nat.lt_irrefl 0)
    · intro c
      rw [h.pc]
      trivial
    · exact fun b _ _ _ => h.owner b
    · exact fun p hp => absurd (h.page p).2.1 hp
    · intro p
      rw [(h.page p).1, (h.page p).2.1]
      simp
  · refine ⟨fun _ => [], ?_⟩
    constructor
    · exact fun z _ a ha => (hnone ha).elim
    · exact fun p z hp => (huse hp).elim
    · exact fun p z hp => (huse hp).elim
    · intro c
      rw [h.pc]
      rfl
    · exact fun _ => nodup_nil
    · exact fun _ _ _ hp => (not_mem_nil hp).elim
    · exact fun _ _ hp => (not_mem_nil hp).elim
  · intro z
    rw [helements, (h.zone z).2.2]
    simp

theorem Inv.safe (h : Inv k s) : Safe k s := by
  obtain ⟨linked, hcounts⟩ := h.counts
  constructor
  · exact fun z z' a a' ha ha' hne => h.layout.disjoint ha ha' hne
  · exact h.layout.nodup
  · intro z a ha p hp
    apply (h.layout.mapped p).mpr
    rw [h.layout.use_eq ha hp]
    exact some_ne_none _
  · intro p z hp hz z' hne a ha hspans
    have huse := h.layout.use_eq ha hspans
    rw [hp, Kernel.useOf] at huse
    split at huse
    · injection huse with huse
      injection huse with huse
      exact hne huse.symm
    · injection huse with huse
      cases huse
  · intro p z hp hz hnot
    apply hcounts.table p z hp hz
    exact fun c hc => hnot c (hcounts.onList_iff.mpr hc)
  · intro p z hp hz hcrammed hzero
    obtain ⟨c, hc⟩ := hcounts.emptied p z hp hz hcrammed hzero
    exact ⟨c, hcounts.onList_iff.mpr hc⟩
  · exact fun c => ⟨linked c, hcounts.listed c, hcounts.nodup c⟩
  · intro c d p hp hp'
    exact hcounts.alone c d p (hcounts.onList_iff.mp hp) (hcounts.onList_iff.mp hp')
  · intro c p hp
    have hp := hcounts.onList_iff.mp hp
    obtain ⟨z, huse, -⟩ := hcounts.linked c p hp
    refine ⟨?_, fun z' a ha => hcounts.apart h.layout hp ha⟩
    apply (h.layout.mapped p).mpr
    rw [huse]
    exact some_ne_none _
  · exact h.sized

variable [DecidableEq Z] [DecidableEq C]

def system (k : Kernel Z) : System (St Z C) (Label Z C) where
  init := Init
  step s l s' := Step k s l (.ok s')

theorem Inv.section' (h : Inv k s) (hmeets : Meets k s (.section' c)) (hexec : execSection k s c = some (.ok s')) :
    Inv k s' := by
  unfold execSection at hexec
  split at hexec
  next z crammed hpc =>
    refine h.zallocSection ?_ (some_inj.mp hexec)
    rw [hpc]
    rfl
  next z hpc =>
    refine h.zallocBody ?_ (some_inj.mp hexec)
    rw [hpc]
    rfl
  next z addr size hpc => exact h.cramSection hpc (some_inj.mp hexec)
  next z newSpace hpc =>
    obtain rfl := Except.ok.inj (some_inj.mp hexec)
    exact h.zgetSpace hpc
  next z result newSpace hpc =>
    obtain rfl := Except.ok.inj (some_inj.mp hexec)
    exact h.spaceFree hpc
  next z result hpc =>
    obtain rfl := Except.ok.inj (some_inj.mp hexec)
    exact h.spaceAccount hpc
  next z zones freeList hpc =>
    obtain rfl := Except.ok.inj (some_inj.mp hexec)
    exact h.gcZone hpc (hmeets z zones freeList hpc)
  next freep hpc =>
    obtain rfl := Except.ok.inj (some_inj.mp hexec)
    exact h.gcFree hpc
  next hpc =>
    obtain rfl := Except.ok.inj (some_inj.mp hexec)
    apply h.setPc c
    · trivial
    · rw [hpc]
      rfl
  all_goals cases hexec

theorem Inv.step {l : Label Z C} (h : Inv k s) (hmeets : Meets k s l) (hstep : Step k s l (.ok s')) : Inv k s' := by
  generalize hr : Except.ok s' = r at hstep
  cases hstep with
  | zget z =>
    obtain rfl := Except.ok.inj hr
    exact h.zget z
  | zfree hlive =>
    obtain rfl := Except.ok.inj hr
    exact h.zfree hlive
  | zcram hout => exact h.zcram hout hr.symm
  | zalloc hpc =>
    obtain rfl := Except.ok.inj hr
    apply h.setPc
    · trivial
    · rw [hpc]
      rfl
  | section' hexec =>
    rw [← hr] at hexec
    exact h.section' hmeets hexec
  | grow hpc haddr =>
    obtain rfl := Except.ok.inj hr
    exact h.growSection hpc haddr
  | spaceGrow hpc haddr => exact h.spaceGrow hpc haddr hr.symm
  | zoneGc hpc =>
    obtain rfl := Except.ok.inj hr
    apply h.setPc
    · trivial
    · rw [hpc]
      rfl

theorem inv_of_reachable (h : ((system k).restrict (Meets k)).Reachable s) : Inv k s := by
  apply h.invariant
  · exact fun s hinit => hinit.inv
  · exact fun s l s' _ hinv hstep => hinv.step hstep.1 hstep.2

theorem Inv.gcZone_pass {zones : List Z} {freeList : Option ℕ} (h : Inv k s) (hpc : s.pc c = .gc (z :: zones) freeList)
    (hsettles : k.Collects z → Settles k (k.zone z).elemSize (s.live z) (s.zone z).freeElements) :
    SafePass k s c (Zalloc.gcZone k s c z zones freeList) := by
  constructor
  · intro z₁ e he hnot z' a ha hspans
    unfold Zalloc.gcZone at hnot
    by_cases hz : (k.zone z).pageable = false ∧ (k.zone z).collectable = true
    · rw [if_pos hz] at hnot
      obtain ⟨linked, hcounts⟩ := h.counts
      obtain ⟨freePages, hleaves⟩ := hcounts.leaves h.layout hpc hz (hsettles hz)
      by_cases hzz : z₁ = z
      · rw [hzz] at he hnot
        simp only [St.setPc, St.setZone, Function.update_self, hleaves.kept, mem_filter, he, true_and,
          decide_not, Bool.not_eq_true', decide_eq_false_iff_not, not_not] at hnot
        have huse := h.layout.use_eq (mem_append_right _ he) hnot.1
        rw [Kernel.Collects.useOf_eq hz] at huse
        by_cases hz' : z' = z
        · rw [hz'] at ha hspans
          exact hnot.2 ⟨a, ha, hspans⟩
        · exact h.safe.alone _ z huse hz z' hz' a (mem_append_left _ ha) hspans
      · simp only [St.setPc, St.setZone, Function.update_of_ne hzz] at hnot
        exact hnot he
    · rw [if_neg hz] at hnot
      exact hnot he
  · intro p hp hp'
    have hmapped : (Zalloc.gcZone k s c z zones freeList).mapped = s.mapped := by
      unfold Zalloc.gcZone
      simp only
      split
      · rfl
      · rfl
    rw [hmapped, hp] at hp'
    cases hp'
  · intro p hp
    rw [hpc] at hp
    cases hp

omit [DecidableEq Z] in
theorem Inv.gcFree_pass (h : Inv k s) (hpc : s.pc c = .gc [] (some p)) : SafePass k s c (Zalloc.gcFree k s c p) := by
  obtain ⟨linked, hcounts⟩ := h.counts
  have honlist : OnList s c p := by
    apply hcounts.onList_iff.mpr
    have hlisted := hcounts.listed c
    rw [hpc] at hlisted
    generalize hl : linked c = w at hlisted
    cases w with
    | nil =>
      cases hlisted
    | cons q l =>
      rw [some_inj.mp hlisted.1]
      exact mem_cons_self ..
  obtain ⟨hmapped, hnone⟩ := h.safe.listed c p honlist
  have hmax : k.zoneMapMin + k.pageSize * p + k.pageSize ≤ k.zoneMapMax :=
    h.layout.pageEnd p ((h.layout.mapped p).mp hmapped)
  have hmapped' (q : ℕ) : (Zalloc.gcFree k s c p).mapped q = if q = p then false else s.mapped q := by
    simp only [Zalloc.gcFree, kmemFree, St.setPc, spans_page hmax]
  constructor
  · exact fun z e he hnot => absurd he hnot
  · intro q hq hq'
    rw [hmapped'] at hq'
    have hqp : q = p := by
      by_contra hne
      rw [if_neg hne, hq] at hq'
      cases hq'
    rw [hqp]
    refine ⟨honlist, fun d hd => ?_, hnone⟩
    have hsafe := (h.gcFree hpc).safe.listed d p hd
    rw [hmapped', if_pos rfl] at hsafe
    cases hsafe.1
  · intro q hq
    have hqp : q = p := by
      rw [hpc] at hq
      injection hq with _ hq
      exact (some_inj.mp hq).symm
    rw [hqp, hmapped', if_pos rfl]
    exact ⟨hmapped, rfl⟩

/-- In every run whose passes come only to lists that settle, the zones are safe, and so is what a pass does next. -/
theorem zone_gc_safe (h : ((system k).restrict (Meets k)).Reachable s) :
    Safe k s ∧ ∀ c zones freeList s', s.pc c = .gc zones freeList → Meets k s (.section' c) →
      Step k s (.section' c) (.ok s') → SafePass k s c s' := by
  have hinv := inv_of_reachable h
  refine ⟨hinv.safe, fun c zones freeList s' hpc hmeets hstep => ?_⟩
  generalize hr : Except.ok s' = r at hstep
  cases hstep with
  | section' hexec =>
    unfold execSection at hexec
    rw [hpc] at hexec
    cases zones with
    | cons z zones =>
      obtain rfl := Except.ok.inj (hr.trans (some_inj.mp hexec).symm)
      exact hinv.gcZone_pass hpc (hmeets z zones freeList hpc)
    | nil =>
      cases freeList with
      | some p =>
        obtain rfl := Except.ok.inj (hr.trans (some_inj.mp hexec).symm)
        exact hinv.gcFree_pass hpc
      | none =>
        obtain rfl := Except.ok.inj (hr.trans (some_inj.mp hexec).symm)
        constructor
        · exact fun z e he hnot => absurd he hnot
        · intro p hp hp'
          have hp'' : s.mapped p = false := hp'
          rw [hp] at hp''
          cases hp''
        · intro p hp
          rw [hpc] at hp
          cases hp

theorem page_pos : 0 < 8192 := by decide

/-- Two pages of memory at a time, for elements of one size. -/
def oneZone (elemSize : ℕ) (hpos : 0 < elemSize) : Kernel Unit where
  pageSize := 8192
  zoneMapMin := 8192
  zoneMapMax := 40960
  pageTable := 8
  zones := [()]
  zone _ := ⟨elemSize, 16384, false, false, true, true, false⟩
  ignoreOverflow := false
  pageSize_pos := page_pos
  zoneMapMin_pos := page_pos
  elemSize_pos _ := hpos
  allocSize_pos _ := (by decide : 0 < 16384)
  allocSize_dvd _ := (by decide : 8192 ∣ 16384)

/-- Before the first call. -/
def noMemory : St Unit Unit where
  zone _ := ⟨0, [], 0, 16384, false⟩
  table _ := .z 0 ZONE_PAGE_UNUSED
  nextSpace := 0
  endOfSpace := 0
  mapped _ := false
  pc _ := .none
  live _ := []
  owner _ := none
  use _ := none
  crammed _ := false

theorem noMemory_init : Init noMemory :=
  ⟨fun _ => ⟨rfl, rfl, rfl⟩, fun _ => rfl, ⟨rfl, rfl⟩, fun _ => ⟨rfl, rfl, rfl⟩, fun _ => rfl, fun _ => rfl⟩

theorem fresh_of_unmapped {elemSize : ℕ} {hpos : 0 < elemSize} {s : St Unit Unit} (hs : ∀ p, s.mapped p = false) :
    Fresh (oneZone elemSize hpos) s 8192 16384 :=
  ⟨le_rfl, (by decide : 8192 + 16384 ≤ 40960), (by decide : 8192 ∣ 8192 - 8192), fun p _ => hs p⟩

/-- Two elements of a page each are got, one is allocated and freed, and a pass gives both pages back. -/
theorem zone_gc_safe_collected : ∃ s : St Unit Unit, (s.zone ()).freeElements = [] ∧ s.mapped 0 = false ∧
    s.mapped 1 = false ∧ Safe (oneZone 8192 (by decide)) s := by
  let M : System (St Unit Unit) (Label Unit Unit) :=
    (system (oneZone 8192 (by decide))).restrict (Meets (oneZone 8192 (by decide)))
  have h₀ : M.Reachable noMemory := .init noMemory_init
  have h₁ := @System.Reachable.step _ _ M _ _ (.zalloc () ()) h₀ ⟨trivial, .zalloc rfl⟩
  have h₂ := @System.Reachable.step _ _ M _ _ (.section' ()) h₁ ⟨nofun, .section' rfl⟩
  have h₃ := @System.Reachable.step _ _ M _ _ (.memory () 8192) h₂
    ⟨trivial, .grow rfl (.inr (fresh_of_unmapped fun _ => rfl))⟩
  have h₄ := @System.Reachable.step _ _ M _ _ (.section' ()) h₃ ⟨nofun, .section' rfl⟩
  have h₅ := @System.Reachable.step _ _ M _ _ (.section' ()) h₄ ⟨nofun, .section' rfl⟩
  have h₆ := @System.Reachable.step _ _ M _ _ (.zfree () 16384) h₅ ⟨trivial, .zfree (mem_cons_self ..)⟩
  have h₇ := @System.Reachable.step _ _ M _ _ (.zoneGc ()) h₆ ⟨trivial, .zoneGc rfl⟩
  have hsettles : Settles (oneZone 8192 (by decide)) 8192 [] [16384, 8192] := by
    apply settles_of_not_runsOnto
    · rintro e he p ⟨⟨-, -, hle, hge⟩, hne⟩
      rcases mem_pair.mp he with rfl | rfl
      · exact hne (Nat.le_antisymm hle hge)
      · exact hne (Nat.le_antisymm hle hge)
    · decide
  have h₈ := @System.Reachable.step _ _ M _ _ (.section' ()) h₇ ⟨fun _ _ _ _ _ => hsettles, .section' rfl⟩
  have h₉ := @System.Reachable.step _ _ M _ _ (.section' ()) h₈ ⟨nofun, .section' rfl⟩
  have h₁₀ := @System.Reachable.step _ _ M _ _ (.section' ()) h₉ ⟨nofun, .section' rfl⟩
  exact ⟨_, rfl, rfl, rfl, (zone_gc_safe h₁₀).1⟩

omit [DecidableEq Z] [DecidableEq C] in
theorem not_onList (h : (s.pc c).freeList = none) : ¬OnList s c p := by
  rintro ⟨l, hl, hp⟩
  rw [h] at hl
  rw [hl.unique (show Listed s.table none [] from rfl)] at hp
  cases hp

/-- Five elements are allocated and the third is freed, which is on both pages.  A pass leaves it counted on the second
one. -/
theorem not_zone_gc_safe : ¬∀ s : St Unit Unit, (system (oneZone 2736 (by decide))).Reachable s →
    Safe (oneZone 2736 (by decide)) s := by
  intro hall
  let M : System (St Unit Unit) (Label Unit Unit) := system (oneZone 2736 (by decide))
  have h₀ : M.Reachable noMemory := .init noMemory_init
  have h₁ := @System.Reachable.step _ _ M _ _ (.zalloc () ()) h₀ (.zalloc rfl)
  have h₂ := @System.Reachable.step _ _ M _ _ (.section' ()) h₁ (.section' rfl)
  have h₃ := @System.Reachable.step _ _ M _ _ (.memory () 8192) h₂ (.grow rfl (.inr (fresh_of_unmapped fun _ => rfl)))
  have h₄ := @System.Reachable.step _ _ M _ _ (.section' ()) h₃ (.section' rfl)
  have h₅ := @System.Reachable.step _ _ M _ _ (.section' ()) h₄ (.section' rfl)
  have h₆ := @System.Reachable.step _ _ M _ _ (.zget ()) h₅ (.zget ())
  have h₇ := @System.Reachable.step _ _ M _ _ (.zget ()) h₆ (.zget ())
  have h₈ := @System.Reachable.step _ _ M _ _ (.zget ()) h₇ (.zget ())
  have h₉ := @System.Reachable.step _ _ M _ _ (.zget ()) h₈ (.zget ())
  have h₁₀ := @System.Reachable.step _ _ M _ _ (.zfree () 13664) h₉
    (.zfree (mem_cons_of_mem _ (mem_cons_of_mem _ (mem_cons_self ..))))
  have h₁₁ := @System.Reachable.step _ _ M _ _ (.zoneGc ()) h₁₀ (.zoneGc rfl)
  have h₁₂ := @System.Reachable.step _ _ M _ _ (.section' ()) h₁₁ (.section' rfl)
  have htable := (hall _ h₁₂).counters 1 () rfl ⟨rfl, rfl⟩ fun () => not_onList rfl
  have hstale := (show Entry.z 1 3 = _ from rfl).trans htable
  injection hstale with hfree
  exact absurd hfree (by decide)

end Osf1.Zalloc
