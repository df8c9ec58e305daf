import Osf1.Zalloc.Collect

/-!
# Whose memory is whose

Every byte of an element belongs to it, and every page of the zone map is allocated for one zone or for the
space of `zget_space`; the memory that calls have and the rest of the space belong to them.
-/

set_option autoImplicit false

namespace Osf1.Zalloc

open Function

section Layout

open Osf1.Computation

variable {Z C : Type}

/-- The zone gets memory in chunks of its own, and not from the space. -/
def Kernel.Chunked (k : Kernel Z) (z : Z) : Prop := (k.zone z).pageable = true ∨ (k.zone z).collectable = true

/-- The zone is one that `zone_gc` collects. -/
def Kernel.Collects (k : Kernel Z) (z : Z) : Prop := (k.zone z).pageable = false ∧ (k.zone z).collectable = true

instance (k : Kernel Z) (z : Z) : Decidable (k.Chunked z) := inferInstanceAs (Decidable (_ ∨ _))

theorem Kernel.Collects.chunked {k : Kernel Z} {z : Z} (h : k.Collects z) : k.Chunked z := .inr h.2

/-- What the pages of the elements of a zone are allocated for. -/
def Kernel.useOf (k : Kernel Z) (z : Z) : Use Z := if k.Chunked z then .zone z else .space

/-- The elements of a zone, allocated or free. -/
def St.elements (s : St Z C) (z : Z) : List ℕ := s.live z ++ (s.zone z).freeElements

/-- A range of the zone map belongs to someone, on pages allocated for one use. -/
structure Has (k : Kernel Z) (s : St Z C) (o : Owner Z C) (u : Use Z) (addr size : ℕ) : Prop where
  own : ∀ b, addr ≤ b → b < addr + size → s.owner b = some o
  inside : Inside k addr size
  pages : ∀ p, Spans k addr size p → s.use p = some u

/-- An element belongs to its zone, in the zone map or outside it. -/
structure IsElement (k : Kernel Z) (s : St Z C) (z : Z) (a : ℕ) : Prop where
  own : ∀ b, a ≤ b → b < a + (k.zone z).elemSize → s.owner b = some (.element z a)
  place : Inside k a (k.zone z).elemSize ∨ a + (k.zone z).elemSize ≤ k.zoneMapMin ∨ k.zoneMapMax ≤ a
  pages : ∀ p, Spans k a (k.zone z).elemSize p → s.use p = some (k.useOf z)

/-- What a call has between its sections. -/
def Held (k : Kernel Z) (s : St Z C) (c : C) : Pc Z → Prop
  | .grow z => k.Chunked z ∧ (k.zone z).kentry = false
  | .cram z addr size => (k.Chunked z ∧ (k.zone z).kentry = false) ∧ size = (k.zone z).allocSize ∧
      (addr ≠ 0 → k.pageSize ∣ addr - k.zoneMapMin ∧ Has k s (.chunk c) (.zone z) addr size ∧
        ∀ p, Spans k addr size p → s.crammed p = false)
  | .space z newSpace => ¬k.Chunked z ∧ ∀ a, newSpace = some a → k.pageSize ∣ a - k.zoneMapMin ∧
      Has k s (.chunk c) .space a (spaceToAdd k (k.zone z).elemSize)
  | .spaceGrow z => ¬k.Chunked z
  | .spaced z result newSpace => ¬k.Chunked z ∧ Has k s (.hand c) .space result (k.zone z).elemSize ∧
      ∀ a, newSpace = some a → k.pageSize ∣ a - k.zoneMapMin ∧
        Has k s (.chunk c) .space a (spaceToAdd k (k.zone z).elemSize)
  | .none | .zalloc .. | .waiting _ | .gc .. => True

/-- Who has what. -/
structure Layout (k : Kernel Z) (s : St Z C) : Prop where
  elements : ∀ z, ∀ a ∈ s.elements z, IsElement k s z a
  nodup : ∀ z, (s.elements z).Nodup
  spaceLe : s.nextSpace ≤ s.endOfSpace
  space : s.nextSpace < s.endOfSpace → Has k s .space .space s.nextSpace (s.endOfSpace - s.nextSpace)
  held : ∀ c, Held k s c (s.pc c)
  unused : ∀ b, k.zoneMapMin ≤ b → b < k.zoneMapMax → s.use (zonePage k b) = none → s.owner b = none
  pageEnd : ∀ p, s.use p ≠ none → k.zoneMapMin + k.pageSize * p + k.pageSize ≤ k.zoneMapMax
  mapped : ∀ p, s.mapped p = true ↔ s.use p ≠ none

variable {k : Kernel Z} {s s' : St Z C} {z z' : Z} {a a' b p addr size : ℕ} {o : Owner Z C} {u : Use Z} {c : C} {q : Pc Z}
  {v : Option (Owner Z C)}

theorem Has.mono (h : Has k s o u addr size) (howner : ∀ b, s.owner b = some o → s'.owner b = some o)
    (huse : ∀ p, s.use p = some u → s'.use p = some u) : Has k s' o u addr size :=
  ⟨fun b hle hlt => howner b (h.own b hle hlt), h.inside, fun p hp => huse p (h.pages p hp)⟩

theorem IsElement.mono (h : IsElement k s z a)
    (howner : ∀ b, s.owner b = some (.element z a) → s'.owner b = some (.element z a))
    (huse : ∀ p, s.use p = some (k.useOf z) → s'.use p = some (k.useOf z)) : IsElement k s' z a :=
  ⟨fun b hle hlt => howner b (h.own b hle hlt), h.place, fun p hp => huse p (h.pages p hp)⟩

theorem Layout.disjoint (h : Layout k s) (ha : a ∈ s.elements z) (ha' : a' ∈ s.elements z') (hne : ¬(z = z' ∧ a = a')) :
    a + (k.zone z).elemSize ≤ a' ∨ a' + (k.zone z').elemSize ≤ a := by
  by_contra hnot
  have hpos := k.elemSize_pos z
  have hpos' := k.elemSize_pos z'
  have hown := (h.elements z a ha).own (max a a') (le_max_left ..) (by omega)
  have hown' := (h.elements z' a' ha').own (max a a') (le_max_right ..) (by omega)
  rw [hown] at hown'
  injection hown' with heq
  injection heq with hz haa
  exact hne ⟨hz, haa⟩

theorem Held.mono (h : Held k s c q) (hchunk : ∀ b, s.owner b = some (.chunk c) → s'.owner b = some (.chunk c))
    (hhand : ∀ b, s.owner b = some (.hand c) → s'.owner b = some (.hand c)) (huse : ∀ p u, s.use p = some u → s'.use p = some u)
    (hcrammed : ∀ p, s.crammed p = false →
      (∀ b, k.zoneMapMin ≤ b → zonePage k b = p → s.owner b = some (.chunk c)) → s'.crammed p = false) :
    Held k s' c q := by
  cases q with
  | grow z => exact h
  | cram z addr size =>
    refine ⟨h.1, h.2.1, fun hne => ?_⟩
    obtain ⟨haligned, hhas, hfalse⟩ := h.2.2 hne
    refine ⟨haligned, hhas.mono hchunk fun p => huse p _, fun p hp => hcrammed p (hfalse p hp) fun b hmin hb => ?_⟩
    -- every byte of a page of the chunk is one of the chunk
    have hdvd : k.pageSize ∣ size := by
      rw [h.2.1]
      exact k.allocSize_dvd z
    have hpos : 0 < size := by
      rw [h.2.1]
      exact k.allocSize_pos z
    rw [← hb] at hp
    obtain ⟨hle, hlt⟩ := mem_of_spans haligned hdvd hpos hmin hp
    exact hhas.own b hle hlt
  | space z newSpace => exact ⟨h.1, fun a ha => ⟨(h.2 a ha).1, (h.2 a ha).2.mono hchunk fun p => huse p _⟩⟩
  | spaceGrow z => exact h
  | spaced z result newSpace =>
    refine ⟨h.1, h.2.1.mono hhand fun p => huse p _, fun a ha => ?_⟩
    exact ⟨(h.2.2 a ha).1, (h.2.2 a ha).2.mono hchunk fun p => huse p _⟩
  | none => trivial
  | zalloc z crammed => trivial
  | waiting z => trivial
  | gc zones freeList => trivial

theorem Layout.elementsSubset (h : Layout k s) (helements : ∀ z, ∀ a ∈ s'.elements z, a ∈ s.elements z)
    (hnodup : ∀ z, (s'.elements z).Nodup) (howner : s'.owner = s.owner) (huse : s'.use = s.use)
    (hmapped : s'.mapped = s.mapped) (hnext : s'.nextSpace = s.nextSpace) (hend : s'.endOfSpace = s.endOfSpace)
    (hheld : ∀ c, Held k s' c (s'.pc c)) : Layout k s' := by
  have hhas {o : Owner Z C} {u : Use Z} {addr size : ℕ} (hh : Has k s o u addr size) : Has k s' o u addr size := by
    apply hh.mono
    · rw [howner]
      exact fun _ => id
    · rw [huse]
      exact fun _ => id
  constructor
  · intro z a ha
    apply (h.elements z a (helements z a ha)).mono
    · rw [howner]
      exact fun _ => id
    · rw [huse]
      exact fun _ => id
  · exact hnodup
  · rw [hnext, hend]
    exact h.spaceLe
  · rw [hnext, hend]
    exact fun hlt => hhas (h.space hlt)
  · exact hheld
  · rw [howner, huse]
    exact h.unused
  · rw [huse]
    exact h.pageEnd
  · rw [hmapped, huse]
    exact h.mapped

theorem give_owner (hnot : ∀ b, addr ≤ b → b < addr + size → s.owner b ≠ some o)
    (hb : s.owner b = some o) : (s.give addr size v).owner b = some o := by
  have hrange : ¬(addr ≤ b ∧ b < addr + size) := fun h => hnot b h.1 h.2 hb
  simp only [St.give, if_neg hrange]
  exact hb

theorem give_owner_self (hle : addr ≤ b) (hlt : b < addr + size) :
    (s.give addr size v).owner b = v := if_pos ⟨hle, hlt⟩

/-- Bytes of something that is no element go to someone. -/
theorem Layout.transfer (h : Layout k s) {v : Owner Z C} (howner : s'.owner = (s.give addr size (some v)).owner)
    (huse : s'.use = s.use) (hmapped : s'.mapped = s.mapped)
    (hbytes : ∀ b, addr ≤ b → b < addr + size → ∀ z a, s.owner b ≠ some (.element z a))
    (hrange : ∀ b, addr ≤ b → b < addr + size → k.zoneMapMin ≤ b → b < k.zoneMapMax → s.use (zonePage k b) ≠ none)
    (helements : ∀ z, ∀ a ∈ s'.elements z, a ∈ s.elements z ∨ IsElement k s' z a)
    (hnodup : ∀ z, (s'.elements z).Nodup) (hle : s'.nextSpace ≤ s'.endOfSpace)
    (hspace : s'.nextSpace < s'.endOfSpace → Has k s' .space .space s'.nextSpace (s'.endOfSpace - s'.nextSpace))
    (hheld : ∀ c, Held k s' c (s'.pc c)) : Layout k s' := by
  constructor
  · intro z a ha
    rcases helements z a ha with ha | ha
    · apply (h.elements z a ha).mono
      · intro b hb
        rw [howner]
        exact give_owner (fun b hle hlt => hbytes b hle hlt z a) hb
      · rw [huse]
        exact fun _ => id
    · exact ha
  · exact hnodup
  · exact hle
  · exact hspace
  · exact hheld
  · intro b hmin hmax hnone
    rw [huse] at hnone
    have hnot : ¬(addr ≤ b ∧ b < addr + size) := fun hb => hrange b hb.1 hb.2 hmin hmax hnone
    rw [howner]
    simp only [St.give, if_neg hnot]
    exact h.unused b hmin hmax hnone
  · rw [huse]
    exact h.pageEnd
  · rw [hmapped, huse]
    exact h.mapped

theorem Layout.use_ne_none (h : Layout k s) (hb : s.owner b = some o) (hmin : k.zoneMapMin ≤ b)
    (hmax : b < k.zoneMapMax) : s.use (zonePage k b) ≠ none := by
  intro hnone
  rw [h.unused b hmin hmax hnone] at hb
  cases hb

theorem Layout.goOn [DecidableEq C] (h : Layout k s) (hheld : Held k s c q) (table : Table) :
    Layout k ({ s with table := table }.setPc c q) := by
  apply h.elementsSubset
  · exact fun _ _ => id
  · exact h.nodup
  · rfl
  · rfl
  · rfl
  · rfl
  · rfl
  · intro d
    by_cases hd : d = c
    · simp only [hd, St.setPc, update_self]
      exact hheld.mono (fun _ => id) (fun _ => id) (fun _ _ => id) fun _ hfalse _ => hfalse
    · simp only [St.setPc, update_of_ne hd]
      exact (h.held d).mono (fun _ => id) (fun _ => id) (fun _ _ => id) fun _ hfalse _ => hfalse

end Layout

/-!
## What the page table counts

For the pages of a zone that is collected, no free element is counted between the passes and the count of
elements is right; a page that has had elements and has none any more is on the list of a pass.
-/

section Counting

open Osf1.Computation

variable {Z C : Type}

/-- The list that a call of `zone_gc` has. -/
def Pc.freeList : Pc Z → Option ℕ
  | .gc _ freeList => freeList
  | .none | .zalloc .. | .waiting _ | .grow _ | .cram .. | .space .. | .spaceGrow _ | .spaced .. => Option.none

/-- The counters are right, apart from the pages that calls have on their lists. -/
structure Counts (k : Kernel Z) (linked : C → List ℕ) (s : St Z C) : Prop where
  crammed : ∀ z, k.Collects z → ∀ a ∈ s.elements z, ∀ p, Spans k a (k.zone z).elemSize p → s.crammed p = true
  table : ∀ p z, s.use p = some (.zone z) → k.Collects z → (∀ c, p ∉ linked c) →
    s.table p = .z 0 (overlap k (k.zone z).elemSize (s.elements z) p)
  emptied : ∀ p z, s.use p = some (.zone z) → k.Collects z → s.crammed p = true →
    overlap k (k.zone z).elemSize (s.elements z) p = 0 → ∃ c, p ∈ linked c
  listed : ∀ c, Listed s.table (s.pc c).freeList (linked c)
  nodup : ∀ c, (linked c).Nodup
  alone : ∀ c d p, p ∈ linked c → p ∈ linked d → c = d
  linked : ∀ c p, p ∈ linked c → ∃ z, s.use p = some (.zone z) ∧ k.Collects z ∧ s.crammed p = true ∧
    overlap k (k.zone z).elemSize (s.elements z) p = 0

/-- The size of a zone is that of its elements. -/
def Sized (k : Kernel Z) (s : St Z C) : Prop :=
  ∀ z, (s.zone z).curSize = (k.zone z).elemSize * (s.elements z).length

variable {k : Kernel Z} {s s' : St Z C} {z : Z} {a p : ℕ} {linked : C → List ℕ} {q : Pc Z}

theorem Layout.use_eq (h : Layout k s) (ha : a ∈ s.elements z) (hp : Spans k a (k.zone z).elemSize p) :
    s.use p = some (k.useOf z) := (h.elements z a ha).pages p hp

theorem Kernel.Collects.useOf_eq (h : k.Collects z) : k.useOf z = .zone z := if_pos h.chunked

theorem Layout.overlap_eq_zero (h : Layout k s) (hz : k.Collects z) (hp : s.use p ≠ some (.zone z)) :
    overlap k (k.zone z).elemSize (s.elements z) p = 0 := by
  apply overlap_eq_zero_iff.mpr
  intro a ha hspans
  apply hp
  rw [h.use_eq ha hspans, hz.useOf_eq]

theorem overlap_perm {size : ℕ} {l l' : List ℕ} (h : l.Perm l') : overlap k size l p = overlap k size l' p :=
  h.countP_eq _

/-- A step that leaves a page as it is, or allocates one that no zone has had. -/
def PageStep (k : Kernel Z) (s s' : St Z C) (p : ℕ) : Prop :=
  (s'.use p = s.use p ∧ s'.crammed p = s.crammed p ∧
    ∀ z, s.use p = some (.zone z) → k.Collects z → s'.table p = s.table p) ∨
  ((∀ z, s.use p ≠ some (.zone z)) ∧
    ∀ z, s'.use p = some (.zone z) → k.Collects z → s'.table p = .z 0 0 ∧ s'.crammed p = false)

theorem Counts.frame (h : Counts k linked s) (hlayout : Layout k s)
    (hperm : ∀ z, k.Collects z → (s'.elements z).Perm (s.elements z)) (hpage : ∀ p, PageStep k s s' p)
    (hlist : ∀ c, (s'.pc c).freeList = (s.pc c).freeList) : Counts k linked s' := by
  have hold {p : ℕ} {z : Z} (hp : s.use p = some (.zone z)) :
      s'.use p = s.use p ∧ s'.crammed p = s.crammed p ∧ (k.Collects z → s'.table p = s.table p) := by
    rcases hpage p with ⟨huse, hcrammed, htable⟩ | ⟨hnot, -⟩
    · exact ⟨huse, hcrammed, htable z hp⟩
    · exact absurd hp (hnot z)
  have hlinked {c : C} {p : ℕ} (hp : p ∈ linked c) : s'.table p = s.table p := by
    obtain ⟨z, huse, hz, -⟩ := h.linked c p hp
    exact (hold huse).2.2 hz
  constructor
  · intro z hz a ha p hp
    have ha' := (hperm z hz).mem_iff.mp ha
    have huse := hlayout.use_eq ha' hp
    rw [hz.useOf_eq] at huse
    rw [(hold huse).2.1]
    exact h.crammed z hz a ha' p hp
  · intro p z huse hz hnot
    rw [overlap_perm (hperm z hz)]
    rcases hpage p with ⟨huse', -, htable⟩ | ⟨hnone, hnew⟩
    · rw [huse'] at huse
      rw [htable z huse hz]
      exact h.table p z huse hz hnot
    · rw [(hnew z huse hz).1, hlayout.overlap_eq_zero hz (hnone z)]
      rfl
  · intro p z huse hz hcrammed hzero
    rw [overlap_perm (hperm z hz)] at hzero
    rcases hpage p with ⟨huse', hcrammed', -⟩ | ⟨-, hnew⟩
    · rw [huse'] at huse
      rw [hcrammed'] at hcrammed
      exact h.emptied p z huse hz hcrammed hzero
    · rw [(hnew z huse hz).2] at hcrammed
      cases hcrammed
  · intro c
    rw [hlist]
    exact (h.listed c).congr fun p hp => hlinked hp
  · exact h.nodup
  · exact h.alone
  · intro c p hp
    obtain ⟨z, huse, hz, hcrammed, hzero⟩ := h.linked c p hp
    refine ⟨z, ?_, hz, ?_, ?_⟩
    · rw [(hold huse).1, huse]
    · rw [(hold huse).2.1, hcrammed]
    · rw [overlap_perm (hperm z hz), hzero]

theorem Counts.setPc [DecidableEq C] (h : Counts k linked s) (hlayout : Layout k s) (c : C)
    (hlist : q.freeList = (s.pc c).freeList) : Counts k linked (s.setPc c q) := by
  apply h.frame hlayout
  · exact fun _ _ => List.Perm.refl _
  · exact fun p => .inl ⟨rfl, rfl, fun _ _ _ => rfl⟩
  · intro d
    by_cases hd : d = c
    · simp only [hd, St.setPc, update_self]
      exact hlist
    · simp only [St.setPc, update_of_ne hd]

/-- The invariant. -/
structure Inv (k : Kernel Z) (s : St Z C) : Prop where
  layout : Layout k s
  counts : ∃ linked, Counts k linked s
  sized : Sized k s

theorem Inv.perm (h : Inv k s) (hperm : ∀ z, (s'.elements z).Perm (s.elements z))
    (hcur : ∀ z, (s'.zone z).curSize = (s.zone z).curSize) (howner : s'.owner = s.owner) (huse : s'.use = s.use)
    (hcrammed : s'.crammed = s.crammed) (hmapped : s'.mapped = s.mapped) (htable : s'.table = s.table)
    (hnext : s'.nextSpace = s.nextSpace) (hend : s'.endOfSpace = s.endOfSpace)
    (hheld : ∀ c, Held k s c (s.pc c) → Held k s c (s'.pc c))
    (hlist : ∀ c, (s'.pc c).freeList = (s.pc c).freeList) : Inv k s' := by
  constructor
  · apply h.layout.elementsSubset
    · exact fun z a ha => (hperm z).mem_iff.mp ha
    · exact fun z => (hperm z).nodup_iff.mpr (h.layout.nodup z)
    · exact howner
    · exact huse
    · exact hmapped
    · exact hnext
    · exact hend
    · intro c
      apply (hheld c (h.layout.held c)).mono
      · rw [howner]
        exact fun _ => id
      · rw [howner]
        exact fun _ => id
      · rw [huse]
        exact fun _ _ => id
      · rw [hcrammed]
        exact fun _ hfalse _ => hfalse
  · obtain ⟨linked, hcounts⟩ := h.counts
    refine ⟨linked, hcounts.frame h.layout (fun z _ => hperm z) (fun p => .inl ⟨?_, ?_, fun _ _ _ => ?_⟩) hlist⟩
    · rw [huse]
    · rw [hcrammed]
    · rw [htable]
  · intro z
    rw [hcur, h.sized z, (hperm z).length_eq]

theorem Inv.setPc [DecidableEq C] (h : Inv k s) (c : C) (hheld : Held k s c q)
    (hlist : q.freeList = (s.pc c).freeList) : Inv k (s.setPc c q) := by
  obtain ⟨linked, hcounts⟩ := h.counts
  exact ⟨h.layout.goOn hheld s.table, ⟨linked, hcounts.setPc h.layout c hlist⟩, h.sized⟩

section Calls

variable [DecidableEq Z]

@[simp] theorem setZone_self (x : ZoneState) : (s.setZone z x).zone z = x := update_self ..

@[simp] theorem setZone_of_ne {z' : Z} (h : z' ≠ z) (x : ZoneState) : (s.setZone z x).zone z' = s.zone z' :=
  update_of_ne h ..

theorem Inv.setZone (h : Inv k s) (z : Z) {x : ZoneState} (hfree : x.freeElements = (s.zone z).freeElements)
    (hcur : x.curSize = (s.zone z).curSize) : Inv k (s.setZone z x) := by
  apply h.perm
  · intro z'
    by_cases hz : z' = z
    · rw [hz, St.elements, St.elements, setZone_self, hfree]
      exact List.Perm.refl _
    · rw [St.elements, St.elements, setZone_of_ne hz]
      exact List.Perm.refl _
  · intro z'
    by_cases hz : z' = z
    · rw [hz, setZone_self, hcur]
    · rw [setZone_of_ne hz]
  · rfl
  · rfl
  · rfl
  · rfl
  · rfl
  · rfl
  · rfl
  · exact fun _ => id
  · exact fun _ => rfl

theorem Inv.removeFromZone (h : Inv k s) (hremove : removeFromZone s z = some s') : Inv k s' ∧ s'.pc = s.pc := by
  unfold Zalloc.removeFromZone at hremove
  simp only at hremove
  split at hremove
  · cases hremove
  next ret rest hfree =>
    obtain rfl := Option.some_inj.mp hremove
    refine ⟨?_, rfl⟩
    apply h.perm
    · intro z'
      by_cases hz : z' = z
      · rw [hz]
        simp only [St.elements, setZone_self, update_self, hfree]
        exact List.perm_middle.symm
      · simp only [St.elements, setZone_of_ne hz, update_of_ne hz]
        exact List.Perm.refl _
    · intro z'
      by_cases hz : z' = z
      · rw [hz]
        simp only [setZone_self]
      · simp only [setZone_of_ne hz]
    · rfl
    · rfl
    · rfl
    · rfl
    · rfl
    · rfl
    · rfl
    · exact fun _ => id
    · exact fun _ => rfl

theorem Inv.zget (h : Inv k s) (z : Z) : Inv k (zget s z) := by
  unfold Zalloc.zget
  cases hremove : Zalloc.removeFromZone s z with
  | none => exact h
  | some s' => exact (h.removeFromZone hremove).1

theorem Inv.zfree (h : Inv k s) {elem : ℕ} (hlive : elem ∈ s.live z) : Inv k (zfree s z elem) := by
  apply h.perm
  · intro z'
    by_cases hz : z' = z
    · rw [hz]
      simp only [Zalloc.zfree, addToZone, St.elements, setZone_self, update_self]
      exact List.perm_middle.trans ((List.perm_cons_erase hlive).symm.append_right _)
    · simp only [Zalloc.zfree, addToZone, St.elements, setZone_of_ne hz, update_of_ne hz]
      exact List.Perm.refl _
  · intro z'
    by_cases hz : z' = z
    · rw [hz]
      simp only [Zalloc.zfree, addToZone, setZone_self]
    · simp only [Zalloc.zfree, addToZone, setZone_of_ne hz]
  · rfl
  · rfl
  · rfl
  · rfl
  · rfl
  · rfl
  · rfl
  · exact fun _ => id
  · exact fun _ => rfl

variable [DecidableEq C] {c : C}

theorem Inv.zallocBody (h : Inv k s) (hlist : (s.pc c).freeList = none) (hrun : zallocBody k s c z = .ok s') :
    Inv k s' := by
  unfold Zalloc.zallocBody at hrun
  by_cases hkentry : (k.zone z).kentry = true
  · rw [if_pos hkentry] at hrun
    cases hrun
  rw [if_neg hkentry] at hrun
  by_cases hdoing : (s.zone z).doingAlloc = true
  · rw [if_pos hdoing] at hrun
    obtain rfl := Except.ok.inj hrun
    exact h.setPc c trivial hlist.symm
  rw [if_neg hdoing] at hrun
  by_cases hexhausted : isFull k s z = true ∧ (k.zone z).exhaustible = true
  · rw [if_pos hexhausted] at hrun
    obtain rfl := Except.ok.inj hrun
    exact h.setPc c trivial hlist.symm
  rw [if_neg hexhausted] at hrun
  by_cases hpanic : isFull k s z = true ∧ (k.zone z).expandable = false ∧ k.ignoreOverflow = false
  · rw [if_pos hpanic] at hrun
    cases hrun
  rw [if_neg hpanic] at hrun
  obtain rfl := Except.ok.inj hrun
  generalize (if isFull k s z = true ∧ (k.zone z).expandable = true then _ else _ : ℤ) = maxSize
  have hzone := @Inv.setZone _ _ k s _ h z { s.zone z with maxSize := maxSize, doingAlloc := (k.zone z).pageable } rfl rfl
  apply hzone.setPc c
  · by_cases hchunked : (k.zone z).pageable = true ∨ (k.zone z).collectable = true
    · rw [if_pos hchunked]
      exact ⟨hchunked, Bool.eq_false_iff.mpr hkentry⟩
    · rw [if_neg hchunked]
      exact ⟨hchunked, nofun⟩
  · have hnone : (if (k.zone z).pageable = true ∨ (k.zone z).collectable = true then Pc.grow z
        else Pc.space z none).freeList = none := by
      split
      · rfl
      · rfl
    rw [hnone]
    exact hlist.symm

theorem Inv.zallocNext (h : Inv k s) (hlist : (s.pc c).freeList = none)
    (hrun : (match Zalloc.removeFromZone s z with
      | some s => .ok (s.setPc c .none)
      | none => Zalloc.zallocBody k s c z) = Except.ok s') : Inv k s' := by
  split at hrun
  next s₂ hremove =>
    obtain rfl := Except.ok.inj hrun
    obtain ⟨h₂, hpc⟩ := h.removeFromZone hremove
    apply h₂.setPc c
    · trivial
    · rw [hpc, hlist]
      rfl
  next => exact h.zallocBody hlist hrun

theorem Inv.zallocSection {crammed : Bool} (h : Inv k s) (hlist : (s.pc c).freeList = none)
    (hrun : zallocSection k s c z crammed = .ok s') : Inv k s' := by
  -- `doing_alloc` is cleared first
  refine Inv.zallocNext ?_ ?_ hrun
  · split
    · exact h.setZone z rfl rfl
    · exact h
  · split
    · exact hlist
    · exact hlist

end Calls

end Counting

end Osf1.Zalloc
