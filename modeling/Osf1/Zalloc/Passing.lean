import Osf1.Zalloc.Growth

/-!
# Memory that is crammed into a zone

Every round of `zcram` makes an element of the front of the memory, which a call has got from the zone map or a caller
brings from outside.
-/

set_option autoImplicit false

namespace Osf1.Zalloc

open Function List

section Cramming

open Osf1.Computation

variable {Z C : Type} {k : Kernel Z} {linked : C → List ℕ} {s s' : St Z C} {z : Z} {c : C}
  {v : Option (Owner Z C)} {newmem size : ℕ}

/-- Memory that is to be crammed: in the zone map on pages that are on no list, or outside. -/
structure Raw (k : Kernel Z) (linked : C → List ℕ) (s : St Z C) (z : Z) (v : Option (Owner Z C)) (newmem size : ℕ) :
    Prop where
  own : ∀ b, newmem ≤ b → b < newmem + size → s.owner b = v
  place : (Inside k newmem size ∧ (k.Chunked z ∧ (k.zone z).kentry = false) ∧
      ∀ b, newmem ≤ b → b < newmem + size → s.use (zonePage k b) = some (.zone z) ∧ ∀ c, zonePage k b ∉ linked c) ∨
    newmem + size ≤ k.zoneMapMin ∨ k.zoneMapMax ≤ newmem

theorem Raw.part (h : Raw k linked s z v newmem size) (addr n : ℕ) (hle : newmem ≤ addr)
    (hend : addr + n ≤ newmem + size) : Raw k linked s z v addr n := by
  refine ⟨fun b hb hb' => h.own b (hle.trans hb) (by omega), ?_⟩
  rcases h.place with ⟨hinside, hchunked, hpages⟩ | hout
  · left
    have hmin := hinside.min
    have hmax := hinside.max
    exact ⟨⟨by omega, by omega⟩, hchunked, fun b hb hb' => hpages b (hle.trans hb) (by omega)⟩
  · right
    omega

theorem Raw.pages (h : Raw k linked s z v newmem size) (hpos : 0 < size) {p : ℕ} (hp : Spans k newmem size p) :
    k.Chunked z ∧ (k.zone z).kentry = false ∧ s.use p = some (.zone z) ∧ ∀ c, p ∉ linked c := by
  rcases h.place with ⟨-, hchunked, hpages⟩ | hout
  · obtain ⟨b, hb, hb', rfl⟩ := hp.exists_byte hpos
    exact ⟨hchunked.1, hchunked.2, hpages b hb hb'⟩
  · obtain ⟨hmin, hmax, -⟩ := hp
    omega

/-- Nothing that is known of is in bytes of this owner. -/
structure Loose (k : Kernel Z) (s : St Z C) (v : Option (Owner Z C)) : Prop where
  element : ∀ z a, v ≠ some (.element z a)
  space : v ≠ some .space
  held : ∀ d (s' : St Z C), v = some (.chunk d) ∨ v = some (.hand d) → Held k s' d (s.pc d)

section Element

variable [DecidableEq Z]

theorem cramElement_elements (s : St Z C) (z z' : Z) (newmem : ℕ) :
    ((cramElement k s z newmem).elements z').Perm (if z' = z then newmem :: s.elements z else s.elements z') := by
  by_cases hz : z' = z
  · rw [hz, if_pos rfl]
    simp only [cramElement, addToZone, St.elements, St.give, St.setZone, update_self]
    exact perm_middle
  · rw [if_neg hz]
    simp only [cramElement, addToZone, St.elements, St.give, St.setZone, update_of_ne hz]
    exact List.Perm.refl _

theorem cramElement_spec (hlayout : Layout k s) (hcounts : Counts k linked s) (hsized : Sized k s)
    (hraw : Raw k linked s z v newmem (k.zone z).elemSize) (hloose : Loose k s v) :
    Layout k (cramElement k s z newmem) ∧ Counts k linked (cramElement k s z newmem) ∧
      Sized k (cramElement k s z newmem) := by
  have hpos := k.elemSize_pos z
  have hperm (z' : Z) := cramElement_elements (k := k) s z z' newmem
  have hmem {z' : Z} {a : ℕ} (ha : a ∈ (cramElement k s z newmem).elements z') :
      a ∈ s.elements z' ∨ z' = z ∧ a = newmem := by
    rw [(hperm z').mem_iff] at ha
    by_cases hz : z' = z
    · rw [if_pos hz] at ha
      rcases mem_cons.mp ha with rfl | ha
      · exact .inr ⟨hz, rfl⟩
      · rw [hz]
        exact .inl ha
    · rw [if_neg hz] at ha
      exact .inl ha
  have hnew : newmem ∉ s.elements z := by
    intro hin
    have hown := (hlayout.elements z newmem hin).own newmem le_rfl (by omega)
    rw [hraw.own newmem le_rfl (by omega)] at hown
    exact hloose.element _ _ hown
  have howner {o : Owner Z C} (hne : v ≠ some o) (b : ℕ) (hb : s.owner b = some o) :
      (cramElement k s z newmem).owner b = some o := by
    apply give_owner
    · intro b' hle hlt heq
      exact hne ((hraw.own b' hle hlt).symm.trans heq)
    · exact hb
  refine ⟨?_, ?_, ?_⟩
  · apply @Layout.transfer _ _ _ s _ newmem (k.zone z).elemSize hlayout (.element z newmem)
    · rfl
    · rfl
    · rfl
    · intro b hle hlt z' a' heq
      exact hloose.element z' a' ((hraw.own b hle hlt).symm.trans heq)
    · intro b hle hlt hmin hmax
      rcases hraw.place with ⟨-, -, hpages⟩ | hout
      · rw [(hpages b hle hlt).1]
        exact Option.some_ne_none _
      · omega
    · intro z' a ha
      rcases hmem ha with ha | ⟨hz, ha⟩
      · exact .inl ha
      · right
        rw [hz, ha]
        refine ⟨fun b hle hlt => give_owner_self hle hlt, ?_, fun p hp => ?_⟩
        · rcases hraw.place with ⟨hinside, -⟩ | hout
          · exact .inl hinside
          · exact .inr hout
        · obtain ⟨hchunked, -, huse, -⟩ := hraw.pages hpos hp
          rw [Kernel.useOf, if_pos hchunked]
          exact huse
    · intro z'
      rw [(hperm z').nodup_iff]
      split
      · exact nodup_cons.mpr ⟨hnew, hlayout.nodup z⟩
      · exact hlayout.nodup z'
    · exact hlayout.spaceLe
    · intro hlt
      exact (hlayout.space hlt).mono (howner hloose.space) fun _ => id
    · intro d
      have hheld := hlayout.held d
      by_cases hd : v = some (.chunk d) ∨ v = some (.hand d)
      · exact hloose.held d _ hd
      · push Not at hd
        apply hheld.mono (howner hd.1) (howner hd.2) fun _ _ => id
        intro p hfalse hwhole
        have hnot : ¬Spans k newmem (k.zone z).elemSize p := by
          intro hp
          obtain ⟨b, hle, hlt, hb⟩ := hp.exists_byte hpos
          have hown := hwhole b (hp.1.trans hle) hb
          rw [hraw.own b hle hlt] at hown
          exact hd.1 hown
        simp only [cramElement, if_neg hnot]
        exact hfalse
  · have hcrammed {p : ℕ} : (cramElement k s z newmem).crammed p =
        if Spans k newmem (k.zone z).elemSize p then true else s.crammed p := rfl
    have hoverlap {z' : Z} {p : ℕ} : overlap k (k.zone z').elemSize ((cramElement k s z newmem).elements z') p =
        overlap k (k.zone z').elemSize (s.elements z') p +
          if z' = z ∧ Spans k newmem (k.zone z).elemSize p then 1 else 0 := by
      rw [overlap_perm (hperm z')]
      by_cases hz : z' = z
      · rw [hz, if_pos rfl, overlap_cons]
        simp
      · rw [if_neg hz, if_neg fun h => hz h.1, Nat.add_zero]
    -- the pages of the element are of this zone only
    have hzone {z' : Z} {p : ℕ} (hp : Spans k newmem (k.zone z).elemSize p) (huse : s.use p = some (.zone z')) : z' = z := by
      obtain ⟨-, -, huse', -⟩ := hraw.pages hpos hp
      rw [huse'] at huse
      exact (Use.zone.inj (Option.some_inj.mp huse)).symm
    have hlinked {d : C} {p : ℕ} (hp : p ∈ linked d) : ¬Spans k newmem (k.zone z).elemSize p :=
      fun hspans => (hraw.pages hpos hspans).2.2.2 d hp
    have hsame {p : ℕ} (hp : ¬Spans k newmem (k.zone z).elemSize p) : (cramElement k s z newmem).table p = s.table p := by
      simp only [cramElement]
      split
      · exact forPages_of_not_spans hp
      · rfl
    constructor
    · intro z' hz a ha p hp
      rw [hcrammed]
      by_cases hspans : Spans k newmem (k.zone z).elemSize p
      · rw [if_pos hspans]
      · rw [if_neg hspans]
        rcases hmem ha with ha | ⟨rfl, rfl⟩
        · exact hcounts.crammed z' hz a ha p hp
        · exact absurd hp hspans
    · intro p z' huse hz hnot
      rw [hoverlap]
      by_cases hspans : Spans k newmem (k.zone z).elemSize p
      · obtain ⟨-, hkentry, -⟩ := hraw.pages hpos hspans
        obtain rfl := hzone hspans huse
        rw [if_pos ⟨rfl, hspans⟩]
        have htable := hcounts.table p z' huse hz hnot
        have hstep : (cramElement k s z' newmem).table p = zonePageAlloc k s.table newmem (k.zone z').elemSize p := by
          simp only [cramElement, if_pos hkentry]
          rfl
        have hne : ((overlap k (k.zone z').elemSize (s.elements z') p : ℕ) : ℤ) ≠ ZONE_PAGE_UNUSED := by
          intro heq
          have hneg : ZONE_PAGE_UNUSED < 0 := by decide
          omega
        rw [hstep, zonePageAlloc, forPages_spans hspans, htable]
        exact if_neg hne
      · rw [if_neg fun h => hspans h.2, hsame hspans]
        exact hcounts.table p z' huse hz hnot
    · intro p z' huse hz hcrammed' hzero
      rw [hoverlap] at hzero
      by_cases hspans : Spans k newmem (k.zone z).elemSize p
      · rw [if_pos ⟨hzone hspans huse, hspans⟩] at hzero
        omega
      · rw [hcrammed, if_neg hspans] at hcrammed'
        exact hcounts.emptied p z' huse hz hcrammed' (by omega)
    · exact fun d => (hcounts.listed d).congr fun p hp => hsame (hlinked hp)
    · exact hcounts.nodup
    · exact hcounts.alone
    · intro d p hp
      obtain ⟨z', huse, hz, hcrammed', hzero⟩ := hcounts.linked d p hp
      refine ⟨z', huse, hz, ?_, ?_⟩
      · rw [hcrammed, if_neg (hlinked hp)]
        exact hcrammed'
      · rw [hoverlap, if_neg fun h => hlinked hp h.2, hzero]
  · intro z'
    rw [(hperm z').length_eq]
    by_cases hz : z' = z
    · rw [if_pos hz, hz]
      simp only [cramElement, addToZone, St.give, St.setZone, update_self, hsized z, length_cons]
      push_cast
      ring
    · rw [if_neg hz]
      simp only [cramElement, addToZone, St.give, St.setZone, update_of_ne hz]
      exact hsized z'

theorem Raw.rest {n : ℕ} (hraw : Raw k linked s z v newmem ((n + 1) * (k.zone z).elemSize)) :
    Raw k linked (cramElement k s z newmem) z v (newmem + (k.zone z).elemSize) (n * (k.zone z).elemSize) := by
  have hsucc : (n + 1) * (k.zone z).elemSize = n * (k.zone z).elemSize + (k.zone z).elemSize := Nat.succ_mul ..
  have hpart := hraw.part (newmem + (k.zone z).elemSize) (n * (k.zone z).elemSize)
    (Nat.le_add_right ..) (by omega)
  refine ⟨fun b hle hlt => ?_, hpart.place⟩
  have hnot : ¬(newmem ≤ b ∧ b < newmem + (k.zone z).elemSize) := by omega
  simp only [cramElement, St.give, if_neg hnot]
  exact hpart.own b hle hlt

theorem cramLoop_spec {n : ℕ} (hlayout : Layout k s) (hcounts : Counts k linked s) (hsized : Sized k s)
    (hraw : Raw k linked s z v newmem (n * (k.zone z).elemSize)) (hloose : Loose k s v) :
    Layout k (cramLoop k z n newmem s) ∧ Counts k linked (cramLoop k z n newmem s) ∧
      Sized k (cramLoop k z n newmem s) := by
  induction n generalizing s newmem with
  | zero => exact ⟨hlayout, hcounts, hsized⟩
  | succ n ih =>
    have hsucc : (n + 1) * (k.zone z).elemSize = n * (k.zone z).elemSize + (k.zone z).elemSize := Nat.succ_mul ..
    have hfirst := hraw.part newmem (k.zone z).elemSize le_rfl (by omega)
    obtain ⟨hlayout', hcounts', hsized'⟩ := cramElement_spec hlayout hcounts hsized hfirst hloose
    exact ih hlayout' hcounts' hsized' hraw.rest ⟨hloose.element, hloose.space, hloose.held⟩

end Element

variable [DecidableEq Z]

theorem Inv.zcram (h : Inv k s) (hout : Outside k s newmem size) (hrun : zcram k s z newmem size = .ok s') : Inv k s' := by
  unfold Zalloc.zcram at hrun
  split at hrun
  · cases hrun
  · obtain rfl := Except.ok.inj hrun
    obtain ⟨linked, hcounts⟩ := h.counts
    have hle : size / (k.zone z).elemSize * (k.zone z).elemSize ≤ size := Nat.div_mul_le_self ..
    have hraw : Raw k linked s z none newmem size := ⟨hout.2, .inr hout.1⟩
    obtain ⟨hlayout', hcounts', hsized'⟩ := cramLoop_spec h.layout hcounts h.sized
      (hraw.part _ _ le_rfl (Nat.add_le_add_left hle newmem)) ⟨nofun, nofun, nofun⟩
    exact ⟨hlayout', ⟨linked, hcounts'⟩, hsized'⟩

variable [DecidableEq C]

theorem cramLoop_setPc (c : C) (q : Pc Z) (n : ℕ) (newmem : ℕ) (s : St Z C) :
    (cramLoop k z n newmem s).setPc c q = cramLoop k z n newmem (s.setPc c q) := by
  induction n generalizing s newmem with
  | zero => rfl
  | succ n ih => exact ih _ _

theorem Inv.cramSection (h : Inv k s) (hpc : s.pc c = .cram z newmem size)
    (hrun : cramSection k s c z newmem size = .ok s') : Inv k s' := by
  have hheld := h.layout.held c
  rw [hpc] at hheld
  obtain ⟨hchunked, -, hchunk⟩ := hheld
  unfold Zalloc.cramSection Zalloc.zcram at hrun
  by_cases hzero : newmem = 0
  · rw [if_pos hzero] at hrun
    cases hrun
  rw [if_neg hzero] at hrun
  obtain rfl := Except.ok.inj hrun
  obtain ⟨-, hhas, hfalse⟩ := hchunk hzero
  obtain ⟨linked, hcounts⟩ := h.counts
  have hs : Inv k (s.setPc c (.zalloc z true)) := by
    apply h.setPc c
    · trivial
    · rw [hpc]
      rfl
  have hcounts' : Counts k linked (s.setPc c (.zalloc z true)) := by
    apply hcounts.setPc h.layout c
    rw [hpc]
    rfl
  have hle : size / (k.zone z).elemSize * (k.zone z).elemSize ≤ size := Nat.div_mul_le_self ..
  have hraw : Raw k linked (s.setPc c (.zalloc z true)) z (some (.chunk c)) newmem size := by
    refine ⟨hhas.own, .inl ⟨hhas.inside, hchunked, fun b hb hb' => ?_⟩⟩
    have hspans := hhas.inside.spans hb hb'
    refine ⟨hhas.pages _ hspans, fun d hd => ?_⟩
    obtain ⟨-, -, -, hcrammed, -⟩ := hcounts.linked d _ hd
    rw [hfalse _ hspans] at hcrammed
    cases hcrammed
  simp only [cramLoop_setPc]
  obtain ⟨hlayout', hcounts', hsized'⟩ := cramLoop_spec hs.layout hcounts' hs.sized
    (hraw.part _ _ le_rfl (Nat.add_le_add_left hle newmem)) ⟨nofun, nofun, fun d s' hd => by
      have hdc : d = c := by
        rcases hd with hd | hd
        · exact (Owner.chunk.inj (Option.some_inj.mp hd)).symm
        · cases hd
      simp only [hdc, St.setPc, update_self]
      trivial⟩
  exact ⟨hlayout', ⟨linked, hcounts'⟩, hsized'⟩

end Cramming

/-!
## A pass of `zone_gc`

The collection of a zone whose list settles keeps the counters, and its empty pages are linked.
-/

section Passing

open Osf1.Computation

variable {Z C : Type} {k : Kernel Z} {s s' : St Z C} {z z' : Z} {c : C} {p : ℕ}

section Lists

variable {size : ℕ} {live l : List ℕ}

theorem overlap_filter (P : ℕ → Prop) [DecidablePred P] :
    overlap k size (l.filter fun e => P e) p + overlap k size (l.filter fun e => ¬P e) p = overlap k size l p := by
  induction l with
  | nil => rfl
  | cons e l ih =>
    by_cases he : P e
    · simp only [filter_cons, he, decide_true, if_true, not_true_eq_false, decide_false, overlap_cons]
      simp only [Bool.false_eq_true, if_false]
      omega
    · simp only [filter_cons, he, decide_false, not_false_eq_true, decide_true, if_true, overlap_cons]
      simp only [Bool.false_eq_true, if_false]
      omega

theorem length_filter (P : ℕ → Prop) [DecidablePred P] :
    l.countP (fun e => P e) + (l.filter fun e => ¬P e).length = l.length := by
  have hlength := length_eq_countP_add_countP (fun e => decide (P e)) (l := l)
  have hcongr : l.countP (fun e => decide (¬decide (P e) = true)) = (l.filter fun e => ¬P e).length := by
    rw [countP_eq_length_filter]
    simp
  omega

end Lists

theorem Counts.apart {linked : C → List ℕ} (h : Counts k linked s) (hlayout : Layout k s) (hp : p ∈ linked c) {a : ℕ}
    (ha : a ∈ s.elements z) : ¬Spans k a (k.zone z).elemSize p := by
  intro hspans
  obtain ⟨z', huse, hz', -, hzero⟩ := h.linked c p hp
  have huse' := hlayout.use_eq ha hspans
  rw [huse, Kernel.useOf] at huse'
  split at huse'
  · injection huse' with huse'
    injection huse' with hzz
    rw [← hzz] at ha hspans
    exact overlap_eq_zero_iff.mp hzero a ha hspans
  · injection huse' with huse'
    cases huse'

section Zone

variable [DecidableEq Z] [DecidableEq C] {linked : C → List ℕ} {freePages : List ℕ} {r : Collected} {zones : List Z}

/-- The zones and the page table after a zone has been collected. -/
def St.collected (s : St Z C) (c : C) (z : Z) (zones : List Z) (r : Collected) : St Z C :=
  { s.setZone z { s.zone z with freeElements := r.kept, curSize := r.curSize } with table := r.table }.setPc c
    (.gc zones r.freeList)

/-- The second loop has left this of the zone. -/
abbrev Leaves (k : Kernel Z) (s : St Z C) (z : Z) (linked : List ℕ) (r : Collected) (freePages : List ℕ) : Prop :=
  Collects k (k.zone z).elemSize (s.live z) (s.zone z).freeElements (overlap k (k.zone z).elemSize (s.elements z))
    s.table linked (s.zone z).curSize r freePages

theorem collected_self : (s.collected c z zones r).elements z = s.live z ++ r.kept := by
  simp [St.collected, St.elements, St.setPc, St.setZone]

theorem collected_of_ne (hne : z' ≠ z) : (s.collected c z zones r).elements z' = s.elements z' := by
  simp [St.collected, St.elements, St.setPc, St.setZone, update_of_ne hne]

variable (hleaves : Leaves k s z (linked c) r freePages)

include hleaves

theorem collected_sublist (z' : Z) : ((s.collected c z zones r).elements z').Sublist (s.elements z') := by
  by_cases hzz : z' = z
  · rw [hzz, collected_self, hleaves.kept]
    exact filter_sublist.append_left _
  · rw [collected_of_ne hzz]

theorem collected_overlap (p : ℕ) : overlap k (k.zone z).elemSize (s.elements z) p =
    overlap k (k.zone z).elemSize ((s.collected c z zones r).elements z) p + overlap k (k.zone z).elemSize
      ((s.zone z).freeElements.filter fun e => Removed k (k.zone z).elemSize (s.live z) e) p := by
  have hfilter := @overlap_filter _ k p (k.zone z).elemSize (s.zone z).freeElements
    (Removed k (k.zone z).elemSize (s.live z)) _
  rw [collected_self, hleaves.kept, St.elements, overlap_append, overlap_append]
  omega

theorem collected_overlap_eq_zero (hzero : overlap k (k.zone z').elemSize (s.elements z') p = 0) :
    overlap k (k.zone z').elemSize ((s.collected c z zones r).elements z') p = 0 := by
  have hsub : ((s.collected c z zones r).elements z').Sublist (s.elements z') := collected_sublist hleaves z'
  have hle := hsub.countP_le (p := fun e => decide (Spans k e (k.zone z').elemSize p))
  exact Nat.le_zero.mp (hle.trans hzero.le)

theorem mem_update_linked {d : C} (hp : p ∈ update linked c freePages d) : p ∈ linked d ∨
    d = c ∧ 0 < overlap k (k.zone z).elemSize (s.elements z) p ∧
      overlap k (k.zone z).elemSize ((s.collected c z zones r).elements z) p = 0 := by
  by_cases hd : d = c
  · rw [hd, update_self] at hp
    rw [hd]
    rcases (hleaves.mem p).mp hp with hp | ⟨hpos, heq⟩
    · exact .inl hp
    · refine .inr ⟨rfl, hpos, ?_⟩
      have hsum := @collected_overlap _ _ k s z c _ _ linked freePages r zones hleaves p
      omega
  · rw [update_of_ne hd] at hp
    exact .inl hp

omit [DecidableEq Z] in
theorem mem_update_of_linked {d : C} (hp : p ∈ linked d) : p ∈ update linked c freePages d := by
  by_cases hd : d = c
  · rw [hd] at hp ⊢
    rw [update_self]
    exact (hleaves.mem p).mpr (.inl hp)
  · rw [update_of_ne hd]
    exact hp

theorem Layout.collected (h : Layout k s) : Layout k (s.collected c z zones r) := by
  have hsub := @collected_sublist _ _ k s z c _ _ linked freePages r zones hleaves
  apply h.elementsSubset
  · exact fun z' a ha => (hsub z').subset ha
  · exact fun z' => (hsub z').nodup (h.nodup z')
  · rfl
  · rfl
  · rfl
  · rfl
  · rfl
  · intro d
    by_cases hd : d = c
    · simp only [hd, St.collected, St.setPc, update_self]
      trivial
    · simp only [St.collected, St.setPc, update_of_ne hd]
      exact (h.held d).mono (fun _ => id) (fun _ => id) (fun _ _ => id) fun _ hfalse _ => hfalse

theorem Counts.collected (h : Counts k linked s) (hlayout : Layout k s) (hz : k.Collects z) :
    Counts k (update linked c freePages) (s.collected c z zones r) := by
  have hpages {d : C} {p : ℕ} (hp : p ∈ linked d) : overlap k (k.zone z).elemSize (s.elements z) p = 0 := by
    apply overlap_eq_zero_iff.mpr
    exact fun a ha => h.apart hlayout hp ha
  have huse {p : ℕ} (hp : 0 < overlap k (k.zone z).elemSize (s.elements z) p) : s.use p = some (.zone z) := by
    by_contra hne
    rw [hlayout.overlap_eq_zero hz hne] at hp
    cases hp
  have hsum := @collected_overlap _ _ k s z c _ _ linked freePages r zones hleaves
  have hnew {d : C} {p : ℕ} (hp : p ∈ update linked c freePages d) :=
    @mem_update_linked _ _ k s z c p _ _ linked freePages r zones hleaves d hp
  have hmono {d : C} {p : ℕ} (hp : p ∈ linked d) : p ∈ update linked c freePages d :=
    mem_update_of_linked hleaves hp
  constructor
  · intro z' hz' a ha p hp
    exact h.crammed z' hz' a ((collected_sublist hleaves z').subset ha) p hp
  · intro p z' hp hz' hnot
    have hbefore := h.table p z' hp hz' fun d hd => hnot d (hmono hd)
    by_cases hzero : overlap k (k.zone z).elemSize (s.elements z) p = 0
    · have htable : r.table p = s.table p := hleaves.same p hzero
      by_cases hzz : z' = z
      · rw [hzz, hzero] at hbefore
        rw [hzz, collected_overlap_eq_zero hleaves hzero]
        exact htable.trans hbefore
      · rw [collected_of_ne hzz]
        exact htable.trans hbefore
    · have hpos := Nat.pos_of_ne_zero hzero
      have hzz : z' = z := by
        have huse' := (huse hpos).symm.trans hp
        injection huse' with huse'
        injection huse' with huse'
        exact huse'.symm
      have hp' := hnot c
      rw [update_self, hleaves.mem] at hp'
      push Not at hp'
      have hsum := hsum p
      have htable := hleaves.counts p (by omega)
      rw [hzz]
      refine htable.trans ?_
      congr 2
      omega
  · intro p z' hp hz' hc hzero
    by_cases hbefore : overlap k (k.zone z').elemSize (s.elements z') p = 0
    · obtain ⟨d, hd⟩ := h.emptied p z' hp hz' hc hbefore
      exact ⟨d, hmono hd⟩
    · have hzz : z' = z := by
        by_contra hne
        rw [collected_of_ne hne] at hzero
        exact hbefore hzero
      rw [hzz] at hzero hbefore
      refine ⟨c, ?_⟩
      rw [update_self, hleaves.mem]
      right
      have hsum := hsum p
      omega
  · intro d
    by_cases hd : d = c
    · simp only [hd, St.collected, St.setPc, update_self]
      exact hleaves.listed
    · simp only [St.collected, St.setPc, update_of_ne hd]
      exact (h.listed d).congr fun p hp => hleaves.same p (hpages hp)
  · intro d
    by_cases hd : d = c
    · rw [hd, update_self]
      exact hleaves.nodup
    · rw [update_of_ne hd]
      exact h.nodup d
  · intro d d' p hp hp'
    rcases hnew hp with hp | ⟨hd, hpos, -⟩
    · rcases hnew hp' with hp' | ⟨-, hpos, -⟩
      · exact h.alone d d' p hp hp'
      · have hzero := hpages hp
        omega
    · rcases hnew hp' with hp' | ⟨hd', -⟩
      · have hzero := hpages hp'
        omega
      · rw [hd, hd']
  · intro d p hp
    rcases hnew hp with hp | ⟨-, hpos, hzero⟩
    · obtain ⟨z', huse, hz', hc, hzero⟩ := h.linked d p hp
      exact ⟨z', huse, hz', hc, collected_overlap_eq_zero hleaves hzero⟩
    · refine ⟨z, huse hpos, hz, ?_, hzero⟩
      rw [overlap, countP_pos_iff] at hpos
      obtain ⟨a, ha, hspans⟩ := hpos
      exact h.crammed z hz a ha p (of_decide_eq_true hspans)

theorem Sized.collected (h : Sized k s) : Sized k (s.collected c z zones r) := by
  intro z'
  by_cases hzz : z' = z
  · have hlength := length_filter (l := (s.zone z).freeElements) (Removed k (k.zone z).elemSize (s.live z))
    have hcur : ((s.collected c z zones r).zone z).curSize = r.curSize := by
      simp [St.collected, St.setPc, St.setZone]
    rw [hzz, hcur, hleaves.curSize, h z, collected_self, hleaves.kept, St.elements, length_append,
      length_append, ← hlength]
    push_cast
    ring
  · have hzone : (s.collected c z zones r).zone z' = s.zone z' := by
      simp [St.collected, St.setPc, St.setZone, update_of_ne hzz]
    rw [hzone, collected_of_ne hzz]
    exact h z'

omit hleaves

omit [DecidableEq C] in
theorem Counts.leaves {freeList : Option ℕ} (h : Counts k linked s) (hlayout : Layout k s)
    (hpc : s.pc c = .gc (z :: zones) freeList) (hz : k.Collects z)
    (hsettles : Settles k (k.zone z).elemSize (s.live z) (s.zone z).freeElements) :
    ∃ freePages, Leaves k s z (linked c)
      (collectZone k (k.zone z).elemSize (s.zone z).freeElements s.table freeList (s.zone z).curSize) freePages := by
  have hpages {d : C} {p : ℕ} (hp : p ∈ linked d) : overlap k (k.zone z).elemSize (s.elements z) p = 0 := by
    apply overlap_eq_zero_iff.mpr
    exact fun a ha => h.apart hlayout hp ha
  apply collectZone_spec (s.zone z).curSize (k.elemSize_pos z) hsettles
  · exact fun e he => (hlayout.elements z e (mem_append_right _ he)).place
  · intro p hp
    apply h.table p z _ hz
    · intro d hd
      rw [← St.elements, hpages hd] at hp
      cases hp
    · by_contra hne
      have hzero := hlayout.overlap_eq_zero hz hne
      rw [← St.elements, hzero] at hp
      cases hp
  · have hlisted := h.listed c
    rw [hpc] at hlisted
    exact hlisted
  · exact h.nodup c
  · exact fun p hp => hpages hp

theorem Inv.gcZone {freeList : Option ℕ} (h : Inv k s) (hpc : s.pc c = .gc (z :: zones) freeList)
    (hsettles : k.Collects z → Settles k (k.zone z).elemSize (s.live z) (s.zone z).freeElements) :
    Inv k (gcZone k s c z zones freeList) := by
  unfold Zalloc.gcZone
  by_cases hz : (k.zone z).pageable = false ∧ (k.zone z).collectable = true
  · rw [if_pos hz]
    obtain ⟨linked, hcounts⟩ := h.counts
    obtain ⟨freePages, hleaves⟩ := hcounts.leaves h.layout hpc hz (hsettles hz)
    exact ⟨h.layout.collected hleaves, ⟨_, hcounts.collected hleaves h.layout hz⟩, h.sized.collected hleaves⟩
  · rw [if_neg hz]
    apply h.setPc c
    · trivial
    · rw [hpc]
      rfl

end Zone

section Pages

variable [DecidableEq C]

theorem Inv.gcFree (h : Inv k s) (hpc : s.pc c = .gc [] (some p)) : Inv k (gcFree k s c p) := by
  obtain ⟨linked, hcounts⟩ := h.counts
  have hlisted := hcounts.listed c
  rw [hpc] at hlisted
  cases hl : linked c with
  | nil =>
    rw [hl] at hlisted
    cases hlisted
  | cons q l =>
    rw [hl] at hlisted
    obtain ⟨hhead, next, hnext, hrest⟩ := hlisted
    have hqp : q = p := (Option.some_inj.mp hhead).symm
    rw [hqp] at hl hnext
    have hp : p ∈ linked c := by
      rw [hl]
      exact mem_cons_self ..
    obtain ⟨hpl, hnodup⟩ := nodup_cons.mp (hl ▸ hcounts.nodup c)
    obtain ⟨z, huse, hz, hcrammed, -⟩ := hcounts.linked c p hp
    have hmax : k.zoneMapMin + k.pageSize * p + k.pageSize ≤ k.zoneMapMax := by
      apply h.layout.pageEnd
      rw [huse]
      exact Option.some_ne_none _
    have hinside : Inside k (k.zoneMapMin + k.pageSize * p) k.pageSize := ⟨Nat.le_add_right .., hmax⟩
    have hspans {q : ℕ} : Spans k (k.zoneMapMin + k.pageSize * p) k.pageSize q ↔ q = p := spans_page hmax
    have hother {q : ℕ} (hne : q ≠ p) :
        (kmemFree k s (k.zoneMapMin + k.pageSize * p) k.pageSize).use q = s.use q ∧
        (kmemFree k s (k.zoneMapMin + k.pageSize * p) k.pageSize).crammed q = s.crammed q := by
      have hnot : ¬Spans k (k.zoneMapMin + k.pageSize * p) k.pageSize q := fun hq => hne (hspans.mp hq)
      simp only [kmemFree, if_neg hnot]
      exact ⟨trivial, trivial⟩
    have hself : (kmemFree k s (k.zoneMapMin + k.pageSize * p) k.pageSize).use p = none := by
      simp only [kmemFree, if_pos (hspans.mpr rfl)]
    have hlayout : Layout k (kmemFree k s (k.zoneMapMin + k.pageSize * p) k.pageSize) := by
      apply h.layout.kmemFree hinside
      · rw [Nat.add_sub_cancel_left]
        exact Nat.dvd_mul_right ..
      · exact Nat.dvd_refl _
      · exact k.pageSize_pos
      · intro z' a ha q hq
        rw [hspans.mp hq]
        exact hcounts.apart h.layout hp ha
      · intro hlt q hq hspace
        have hpages := (h.layout.space hlt).pages q hspace
        rw [hspans.mp hq, huse] at hpages
        injection hpages with hpages
        cases hpages
      · intro d
        apply (h.layout.held d).free hinside
        intro o u a n hhas _ _ hor q hq hspans'
        rw [hspans.mp hq] at hspans'
        rcases hor with rfl | hfalse
        · have hpages := hhas.pages p hspans'
          rw [huse] at hpages
          injection hpages with hpages
          cases hpages
        · have hfalse := hfalse p hspans'
          rw [hcrammed] at hfalse
          cases hfalse
    have hlink : (s.table p).link = next := by
      rw [hnext]
      rfl
    have hne {d : C} {q : ℕ} (hq : q ∈ update linked c l d) : q ∈ linked d ∧ q ≠ p := by
      by_cases hd : d = c
      · rw [hd, update_self] at hq
        rw [hd, hl]
        refine ⟨mem_cons_of_mem _ hq, ?_⟩
        rintro rfl
        exact hpl hq
      · rw [update_of_ne hd] at hq
        refine ⟨hq, ?_⟩
        rintro rfl
        exact hd (hcounts.alone d c q hq hp)
    have hmono {d : C} {q : ℕ} (hq : q ∈ linked d) (hqp : q ≠ p) : q ∈ update linked c l d := by
      by_cases hd : d = c
      · rw [hd, hl] at hq
        rw [hd, update_self]
        exact (mem_cons.mp hq).resolve_left hqp
      · rw [update_of_ne hd]
        exact hq
    have hused {q : ℕ} {z' : Z} (hq : (kmemFree k s (k.zoneMapMin + k.pageSize * p) k.pageSize).use q =
        some (.zone z')) : q ≠ p := by
      rintro rfl
      rw [hself] at hq
      cases hq
    unfold Zalloc.gcFree
    rw [hlink]
    constructor
    · exact hlayout.goOn (q := .gc [] next) trivial _
    · refine ⟨update linked c l, ?_⟩
      constructor
      · intro z' hz' a ha q hq
        have hqp : q ≠ p := by
          rintro rfl
          exact hcounts.apart h.layout hp ha hq
        rw [St.setPc]
        rw [(hother hqp).2]
        exact hcounts.crammed z' hz' a ha q hq
      · intro q z' hq hz' hnot
        have hqp := hused hq
        have hq' : s.use q = some (.zone z') := (hother hqp).1.symm.trans hq
        exact hcounts.table q z' hq' hz' fun d hd => hnot d (hmono hd hqp)
      · intro q z' hq hz' hc hzero
        have hqp := hused hq
        have hq' : s.use q = some (.zone z') := (hother hqp).1.symm.trans hq
        have hc' : s.crammed q = true := (hother hqp).2.symm.trans hc
        obtain ⟨d, hd⟩ := hcounts.emptied q z' hq' hz' hc' hzero
        exact ⟨d, hmono hd hqp⟩
      · intro d
        simp only [St.setPc]
        by_cases hd : d = c
        · rw [hd, update_self, update_self]
          exact hrest
        · rw [update_of_ne hd, update_of_ne hd]
          exact hcounts.listed d
      · intro d
        by_cases hd : d = c
        · rw [hd, update_self]
          exact hnodup
        · rw [update_of_ne hd]
          exact hcounts.nodup d
      · intro d d' q hq hq'
        exact hcounts.alone d d' q (hne hq).1 (hne hq').1
      · intro d q hq
        obtain ⟨hq', hqp⟩ := hne hq
        obtain ⟨z', huse', hz', hc, hzero⟩ := hcounts.linked d q hq'
        refine ⟨z', ?_, hz', ?_, hzero⟩
        · exact (hother hqp).1.trans huse'
        · exact (hother hqp).2.trans hc
    · exact h.sized

end Pages

end Passing

end Osf1.Zalloc
