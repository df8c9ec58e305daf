import Osf1.Zalloc.Counting

/-!
# Memory from the zone map

Pages that nobody has are allocated for a zone or for the space of `zget_space`, and pages that no element is on are
given back.
-/

set_option autoImplicit false

namespace Osf1.Zalloc

open Function

section Growth

open Osf1.Computation

variable {Z C : Type} {k : Kernel Z} {s s' : St Z C} {z : Z} {c : C} {u : Use Z}
  {addr size p : ℕ} {o : Owner Z C}

section Allocating

/-- Pages are allocated that nobody had. -/
structure Room (k : Kernel Z) (s : St Z C) (addr size : ℕ) : Prop where
  fresh : Fresh k s addr size
  pos : 0 < size
  dvd : k.pageSize ∣ size

theorem Room.inside (h : Room k s addr size) : Inside k addr size := ⟨h.fresh.1, h.fresh.2.1⟩

theorem Room.ne_zero (h : Room k s addr size) : addr ≠ 0 := by
  have hmin := h.fresh.1
  have hpos := k.zoneMapMin_pos
  omega

theorem Room.use_eq_none (h : Room k s addr size) (hlayout : Layout k s) (hp : Spans k addr size p) : s.use p = none := by
  by_contra hne
  have hmapped := (hlayout.mapped p).mpr hne
  rw [h.fresh.2.2.2 p hp] at hmapped
  cases hmapped

variable (hroom : Room k s addr size)

include hroom

theorem Room.owner_eq (hlayout : Layout k s) {b : ℕ} (hb : s.owner b = some o) :
    (kmemAlloc k s c u addr size).owner b = some o := by
  have hnot : ¬(addr ≤ b ∧ b < addr + size) := by
    rintro ⟨hle, hlt⟩
    have hspans := hroom.inside.spans hle hlt
    have hmin := hroom.inside.min
    have hmax := hroom.inside.max
    rw [hlayout.unused b (by omega) (by omega) (hroom.use_eq_none hlayout hspans)] at hb
    cases hb
  rw [kmemAlloc, if_neg hroom.ne_zero]
  simp only [St.give, if_neg hnot]
  exact hb

theorem Room.use_eq (hlayout : Layout k s) {v : Use Z} (hp : s.use p = some v) :
    (kmemAlloc k s c u addr size).use p = some v := by
  have hnot : ¬Spans k addr size p := by
    intro hspans
    rw [hroom.use_eq_none hlayout hspans] at hp
    cases hp
  rw [kmemAlloc, if_neg hroom.ne_zero]
  simp only [if_neg hnot]
  exact hp

theorem Room.has : Has k (kmemAlloc k s c u addr size) (.chunk c) u addr size := by
  refine ⟨fun b hle hlt => ?_, hroom.inside, fun p hp => ?_⟩
  · rw [kmemAlloc, if_neg hroom.ne_zero]
    simp only [St.give, if_pos (And.intro hle hlt)]
  · rw [kmemAlloc, if_neg hroom.ne_zero]
    simp only [if_pos hp]

theorem Room.crammed (hp : Spans k addr size p) : (kmemAlloc k s c u addr size).crammed p = false := by
  rw [kmemAlloc, if_neg hroom.ne_zero]
  simp only [if_pos hp]

theorem Layout.kmemAlloc (h : Layout k s) (c : C) (u : Use Z) : Layout k (kmemAlloc k s c u addr size) := by
  have heq {o : Owner Z C} (b : ℕ) (hb : s.owner b = some o) :
      (Zalloc.kmemAlloc k s c u addr size).owner b = some o := hroom.owner_eq h hb
  have huse {v : Use Z} (p : ℕ) (hp : s.use p = some v) : (Zalloc.kmemAlloc k s c u addr size).use p = some v :=
    hroom.use_eq h hp
  have hzone : (Zalloc.kmemAlloc k s c u addr size).zone = s.zone ∧
      (Zalloc.kmemAlloc k s c u addr size).live = s.live ∧ (Zalloc.kmemAlloc k s c u addr size).pc = s.pc ∧
      (Zalloc.kmemAlloc k s c u addr size).nextSpace = s.nextSpace ∧
      (Zalloc.kmemAlloc k s c u addr size).endOfSpace = s.endOfSpace := by
    rw [Zalloc.kmemAlloc, if_neg hroom.ne_zero]
    exact ⟨rfl, rfl, rfl, rfl, rfl⟩
  obtain ⟨hz, hlive, hpc, hnext, hend⟩ := hzone
  have hfield (p : ℕ) : (Zalloc.kmemAlloc k s c u addr size).use p = (if Spans k addr size p then some u else s.use p) ∧
      (Zalloc.kmemAlloc k s c u addr size).mapped p = (if Spans k addr size p then true else s.mapped p) ∧
      (Zalloc.kmemAlloc k s c u addr size).crammed p = (if Spans k addr size p then false else s.crammed p) := by
    rw [Zalloc.kmemAlloc, if_neg hroom.ne_zero]
    exact ⟨rfl, rfl, rfl⟩
  constructor
  · intro z a ha
    have ha' : a ∈ s.elements z := by
      rw [St.elements, hz, hlive] at ha
      exact ha
    apply (h.elements z a ha').mono
    · exact heq
    · exact huse
  · intro z
    rw [St.elements, hz, hlive]
    exact h.nodup z
  · rw [hnext, hend]
    exact h.spaceLe
  · rw [hnext, hend]
    intro hlt
    apply (h.space hlt).mono
    · exact heq
    · exact huse
  · intro d
    rw [hpc]
    apply (h.held d).mono
    · exact heq
    · exact heq
    · exact fun p v => huse p
    · intro p hfalse _
      rw [(hfield p).2.2]
      split
      · rfl
      · exact hfalse
  · intro b hmin hmax hnone
    rw [(hfield _).1] at hnone
    have hnot : ¬Spans k addr size (zonePage k b) := by
      intro hspans
      rw [if_pos hspans] at hnone
      cases hnone
    rw [if_neg hnot] at hnone
    have hrange : ¬(addr ≤ b ∧ b < addr + size) := fun hb => hnot (hroom.inside.spans hb.1 hb.2)
    rw [Zalloc.kmemAlloc, if_neg hroom.ne_zero]
    simp only [St.give, if_neg hrange]
    exact h.unused b hmin hmax hnone
  · intro p hne
    by_cases hspans : Spans k addr size p
    · have hle := page_end_le hroom.fresh.2.2.1 hroom.dvd hspans hroom.pos
      exact hle.trans hroom.inside.max
    · rw [(hfield p).1, if_neg hspans] at hne
      exact h.pageEnd p hne
  · intro p
    rw [(hfield p).1, (hfield p).2.1]
    by_cases hspans : Spans k addr size p
    · simp [hspans]
    · simp only [if_neg hspans]
      exact h.mapped p

end Allocating

theorem spaceToAdd_pos (k : Kernel Z) {size : ℕ} (hpos : 0 < size) :
    0 < spaceToAdd k size ∧ size ≤ spaceToAdd k size ∧ k.pageSize ∣ spaceToAdd k size := by
  have hpage := k.pageSize_pos
  unfold spaceToAdd
  split
  · have hlt : size + k.pageSize - 1 < (size + k.pageSize - 1) / k.pageSize * k.pageSize + k.pageSize := by
      rw [Nat.mul_comm]
      exact Nat.lt_mul_div_succ _ hpage
    exact ⟨by omega, by omega, Nat.dvd_mul_left ..⟩
  · exact ⟨hpage, by omega, Nat.dvd_refl _⟩

section Freeing

variable {a n : ℕ}

theorem free_owner_eq {b : ℕ} (hinside : Inside k addr size) (hapart : ∀ p, Spans k addr size p → ¬Spans k a n p)
    (hrange : Inside k a n) (hle : a ≤ b) (hlt : b < a + n) : (kmemFree k s addr size).owner b = s.owner b := by
  have hnot : ¬(addr ≤ b ∧ b < addr + size) := fun hb =>
    hapart _ (hinside.spans hb.1 hb.2) (hrange.spans hle hlt)
  simp only [kmemFree, St.give, if_neg hnot]

theorem Has.free (h : Has k s o u a n) (hinside : Inside k addr size)
    (hapart : ∀ p, Spans k addr size p → ¬Spans k a n p) : Has k (kmemFree k s addr size) o u a n := by
  refine ⟨fun b hle hlt => ?_, h.inside, fun p hp => ?_⟩
  · rw [free_owner_eq hinside hapart h.inside hle hlt]
    exact h.own b hle hlt
  · have hnot : ¬Spans k addr size p := fun hspans => hapart p hspans hp
    simp only [kmemFree, if_neg hnot]
    exact h.pages p hp

theorem Layout.kmemFree (h : Layout k s) (hinside : Inside k addr size) (haligned : k.pageSize ∣ addr - k.zoneMapMin)
    (hdvd : k.pageSize ∣ size) (hpos : 0 < size)
    (helements : ∀ z, ∀ a ∈ s.elements z, ∀ p, Spans k addr size p → ¬Spans k a (k.zone z).elemSize p)
    (hspace : s.nextSpace < s.endOfSpace →
      ∀ p, Spans k addr size p → ¬Spans k s.nextSpace (s.endOfSpace - s.nextSpace) p)
    (hheld : ∀ c, Held k (kmemFree k s addr size) c (s.pc c)) : Layout k (kmemFree k s addr size) := by
  constructor
  · intro z a ha
    have helement := h.elements z a ha
    have hapart := helements z a ha
    refine ⟨fun b hle hlt => ?_, helement.place, fun p hp => ?_⟩
    · have hnot : ¬(addr ≤ b ∧ b < addr + size) := by
        rintro ⟨hle', hlt'⟩
        have hmin := hinside.min
        have hmax := hinside.max
        rcases helement.place with hrange | hout
        · exact hapart _ (hinside.spans hle' hlt') (hrange.spans hle hlt)
        · omega
      simp only [Zalloc.kmemFree, St.give, if_neg hnot]
      exact helement.own b hle hlt
    · have hnot : ¬Spans k addr size p := fun hspans => hapart p hspans hp
      simp only [Zalloc.kmemFree, if_neg hnot]
      exact helement.pages p hp
  · exact h.nodup
  · exact h.spaceLe
  · exact fun hlt => (h.space hlt).free hinside (hspace hlt)
  · exact hheld
  · intro b hmin hmax hnone
    by_cases hb : addr ≤ b ∧ b < addr + size
    · simp only [Zalloc.kmemFree, St.give, if_pos hb]
    · simp only [Zalloc.kmemFree, St.give, if_neg hb]
      by_cases hspans : Spans k addr size (zonePage k b)
      · exact absurd (mem_of_spans haligned hdvd hpos hmin hspans) hb
      · simp only [Zalloc.kmemFree, if_neg hspans] at hnone
        exact h.unused b hmin hmax hnone
  · intro p hne
    by_cases hspans : Spans k addr size p
    · simp only [Zalloc.kmemFree, if_pos hspans] at hne
      exact absurd rfl hne
    · simp only [Zalloc.kmemFree, if_neg hspans] at hne
      exact h.pageEnd p hne
  · intro p
    by_cases hspans : Spans k addr size p
    · simp [Zalloc.kmemFree, hspans]
    · simp only [Zalloc.kmemFree, if_neg hspans]
      exact h.mapped p

theorem Held.free {d : C} {q : Pc Z} (h : Held k s d q) (hinside : Inside k addr size)
    (hapart : ∀ o u a n, Has k s o u a n → 0 < n → o = .chunk d ∨ o = .hand d →
      u = .space ∨ (∀ p, Spans k a n p → s.crammed p = false) → ∀ p, Spans k addr size p → ¬Spans k a n p) :
    Held k (Zalloc.kmemFree k s addr size) d q := by
  cases q with
  | grow z => exact h
  | cram z a n =>
    refine ⟨h.1, h.2.1, fun hne => ?_⟩
    obtain ⟨haligned, hhas, hfalse⟩ := h.2.2 hne
    have hpos : 0 < n := by
      rw [h.2.1]
      exact k.allocSize_pos z
    refine ⟨haligned, hhas.free hinside (hapart _ _ _ _ hhas hpos (.inl rfl) (.inr hfalse)), fun p hp => ?_⟩
    simp only [Zalloc.kmemFree]
    split
    · rfl
    · exact hfalse p hp
  | space z newSpace =>
    refine ⟨h.1, fun a ha => ⟨(h.2 a ha).1, (h.2 a ha).2.free hinside ?_⟩⟩
    exact hapart _ _ _ _ (h.2 a ha).2 (spaceToAdd_pos k (k.elemSize_pos z)).1 (.inl rfl) (.inl rfl)
  | spaceGrow z => exact h
  | spaced z result newSpace =>
    refine ⟨h.1, h.2.1.free hinside ?_, fun a ha => ⟨(h.2.2 a ha).1, (h.2.2 a ha).2.free hinside ?_⟩⟩
    · exact hapart _ _ _ _ h.2.1 (k.elemSize_pos z) (.inr rfl) (.inl rfl)
    · exact hapart _ _ _ _ (h.2.2 a ha).2 (spaceToAdd_pos k (k.elemSize_pos z)).1 (.inl rfl) (.inl rfl)
  | none => trivial
  | zalloc z crammed => trivial
  | waiting z => trivial
  | gc zones freeList => trivial

end Freeing

section Sections

variable [DecidableEq C]

theorem Inv.alloc (h : Inv k s) (hroom : Room k s addr size) (u : Use Z) {q : Pc Z} {table : Table}
    (hheld : Held k (kmemAlloc k s c u addr size) c q) (hlist : q.freeList = (s.pc c).freeList)
    (hsame : ∀ p, ¬Spans k addr size p → table p = s.table p)
    (hinit : ∀ p z, Spans k addr size p → u = .zone z → k.Collects z → table p = .z 0 0) :
    Inv k ({ kmemAlloc k s c u addr size with table := table }.setPc c q) := by
  have hlayout := h.layout.kmemAlloc hroom c u
  have heq : ({ kmemAlloc k s c u addr size with table := table }.setPc c q).zone = s.zone ∧
      ({ kmemAlloc k s c u addr size with table := table }.setPc c q).live = s.live ∧
      ({ kmemAlloc k s c u addr size with table := table }.setPc c q).pc = update s.pc c q := by
    rw [kmemAlloc, if_neg hroom.ne_zero]
    exact ⟨rfl, rfl, rfl⟩
  have helements (z : Z) : ({ kmemAlloc k s c u addr size with table := table }.setPc c q).elements z = s.elements z := by
    rw [St.elements, heq.1, heq.2.1, St.elements]
  constructor
  · exact hlayout.goOn hheld table
  · obtain ⟨linked, hcounts⟩ := h.counts
    refine ⟨linked, hcounts.frame h.layout (fun z _ => ?_) (fun p => ?_) fun d => ?_⟩
    · rw [helements]
    · rw [kmemAlloc, if_neg hroom.ne_zero]
      by_cases hp : Spans k addr size p
      · right
        have hnone := hroom.use_eq_none h.layout hp
        refine ⟨fun z hz => ?_, fun z hz hcollects => ?_⟩
        · rw [hnone] at hz
          cases hz
        · simp only [St.setPc, if_pos hp] at hz ⊢
          exact ⟨hinit p z hp (Option.some_inj.mp hz) hcollects, trivial⟩
      · left
        simp only [St.setPc, if_neg hp]
        exact ⟨trivial, trivial, fun _ _ _ => hsame p hp⟩
    · rw [heq.2.2]
      by_cases hd : d = c
      · rw [hd, update_self, hlist]
      · rw [update_of_ne hd]
  · intro z
    rw [heq.1, helements]
    exact h.sized z

theorem Inv.growSection (h : Inv k s) (hpc : s.pc c = .grow z)
    (haddr : addr = 0 ∨ Fresh k s addr (k.zone z).allocSize) : Inv k (growSection k s c z addr) := by
  have hchunked : k.Chunked z ∧ (k.zone z).kentry = false := by
    have hheld := h.layout.held c
    rw [hpc] at hheld
    exact hheld
  have hlist : (Pc.cram z addr (k.zone z).allocSize).freeList = (s.pc c).freeList := by
    rw [hpc]
    rfl
  unfold Zalloc.growSection
  simp only
  by_cases hzero : addr = 0
  · have hsame : (if (k.zone z).pageable = true then (kmemAlloc k s c (.zone z) addr (k.zone z).allocSize).table
        else zonePageInit k ZONE_PAGE_USED (kmemAlloc k s c (.zone z) addr (k.zone z).allocSize).table addr
          (k.zone z).allocSize) = s.table := by
      rw [kmemAlloc, if_pos hzero]
      split
      · rfl
      · funext p
        apply forPages_of_not_spans
        rintro ⟨hmin, -⟩
        have hpos := k.zoneMapMin_pos
        omega
    rw [hsame, kmemAlloc, if_pos hzero]
    exact h.setPc c ⟨hchunked, rfl, fun hne => absurd hzero hne⟩ hlist
  · have hroom : Room k s addr (k.zone z).allocSize :=
      ⟨haddr.resolve_left hzero, k.allocSize_pos z, k.allocSize_dvd z⟩
    have htable : (kmemAlloc k s c (.zone z) addr (k.zone z).allocSize).table = s.table := by
      rw [kmemAlloc, if_neg hzero]
      rfl
    rw [htable]
    apply h.alloc hroom (.zone z)
    · exact ⟨hchunked, rfl, fun _ => ⟨hroom.fresh.2.2.1, hroom.has, fun p hp => hroom.crammed hp⟩⟩
    · exact hlist
    · intro p hp
      split
      · rfl
      · exact forPages_of_not_spans hp
    · intro p z' hp hz hcollects
      injection hz with hz
      rw [← hz] at hcollects
      rw [if_neg (by rw [hcollects.1]; exact nofun)]
      exact forPages_spans hp

theorem Inv.spaceGrow (h : Inv k s) (hpc : s.pc c = .spaceGrow z)
    (haddr : addr = 0 ∨ Fresh k s addr (spaceToAdd k (k.zone z).elemSize))
    (hrun : spaceGrow k s c z addr = .ok s') : Inv k s' := by
  have hchunked : ¬k.Chunked z := by
    have hheld := h.layout.held c
    rw [hpc] at hheld
    exact hheld
  unfold Zalloc.spaceGrow at hrun
  by_cases hzero : addr = 0
  · rw [if_pos hzero] at hrun
    cases hrun
  rw [if_neg hzero] at hrun
  obtain rfl := Except.ok.inj hrun
  obtain ⟨hpos, -, hdvd⟩ := spaceToAdd_pos k (k.elemSize_pos z)
  have hroom : Room k s addr (spaceToAdd k (k.zone z).elemSize) := ⟨haddr.resolve_left hzero, hpos, hdvd⟩
  have htable : (kmemAlloc k s c .space addr (spaceToAdd k (k.zone z).elemSize)).table = s.table := by
    rw [kmemAlloc, if_neg hzero]
    rfl
  rw [htable]
  apply h.alloc hroom .space
  · refine ⟨hchunked, fun a ha => ?_⟩
    obtain rfl := Option.some_inj.mp ha
    exact ⟨hroom.fresh.2.2.1, hroom.has⟩
  · rw [hpc]
    rfl
  · exact fun p hp => forPages_of_not_spans hp
  · exact nofun

end Sections

end Growth

/-!
## The space of `zget_space`

Elements of the zones that are not collected come from one space, which grows by pages that a call has got before.
-/

section Space

open Osf1.Computation

variable {Z C : Type} {k : Kernel Z} {s s' : St Z C} {z : Z} {c : C} {a result : ℕ}

theorem Held.give {d : C} {q : Pc Z} {addr size : ℕ} {o : Owner Z C} {v : Option (Owner Z C)} (h : Held k s d q)
    (hown : ∀ b, addr ≤ b → b < addr + size → s.owner b = some o) (hchunk : o ≠ .chunk d) (hhand : o ≠ .hand d) :
    Held k (s.give addr size v) d q := by
  have hnot {o' : Owner Z C} (hne : o ≠ o') (b : ℕ) (hle : addr ≤ b) (hlt : b < addr + size) : s.owner b ≠ some o' := by
    rw [hown b hle hlt]
    exact fun heq => hne (Option.some_inj.mp heq)
  apply h.mono
  · exact fun b hb => give_owner (hnot hchunk) hb
  · exact fun b hb => give_owner (hnot hhand) hb
  · exact fun _ _ => id
  · exact fun _ hfalse _ => hfalse

variable [DecidableEq C]

theorem Inv.addSpace (h : Inv k s) (hpc : s.pc c = .space z (some a)) :
    Inv k ((addSpace k s (k.zone z).elemSize a).setPc c (.space z none)) := by
  have hheld := h.layout.held c
  rw [hpc] at hheld
  obtain ⟨hchunked, hhas⟩ := hheld
  obtain ⟨-, hchunk⟩ := hhas a rfl
  obtain ⟨hpos, -⟩ := spaceToAdd_pos k (k.elemSize_pos z)
  generalize hsize : spaceToAdd k (k.zone z).elemSize = size at hchunk hpos
  have hstate : (Zalloc.addSpace k s (k.zone z).elemSize a).setPc c (.space z none) =
      { s.give a size (some .space) with
        nextSpace := if a ≠ s.endOfSpace then a else s.nextSpace
        endOfSpace := a + size
        pc := update s.pc c (.space z none) } := by
    rw [← hsize]
    rfl
  rw [hstate]
  have hnext : (if a ≠ s.endOfSpace then a else s.nextSpace) ≤ a := by
    have hle := h.layout.spaceLe
    split
    · exact le_rfl
    next heq =>
      rw [not_not.mp heq]
      exact hle
  constructor
  · apply h.layout.transfer
    · rfl
    · rfl
    · rfl
    · intro b hle hlt z' a'
      rw [hchunk.own b hle hlt]
      nofun
    · exact fun b hle hlt => h.layout.use_ne_none (hchunk.own b hle hlt)
    · exact fun _ _ => .inl
    · exact h.layout.nodup
    · exact hnext.trans (Nat.le_add_right ..)
    · intro _
      -- every byte is one of the space before, or of the memory
      have hbyte {b : ℕ} (hle : (if a ≠ s.endOfSpace then a else s.nextSpace) ≤ b) (hlt : b < a + size) :
          a ≤ b ∨ s.nextSpace ≤ b ∧ b < s.endOfSpace := by
        by_cases hab : a ≤ b
        · exact .inl hab
        · split at hle
          · exact absurd hle hab
          next heq => exact .inr ⟨hle, by omega⟩
      have hold {b : ℕ} (hb : s.nextSpace ≤ b ∧ b < s.endOfSpace) :
          Has k s .space .space s.nextSpace (s.endOfSpace - s.nextSpace) ∧ b < s.nextSpace + (s.endOfSpace - s.nextSpace) :=
        ⟨h.layout.space (by omega), by omega⟩
      have hsum : (if a ≠ s.endOfSpace then a else s.nextSpace) +
          (a + size - if a ≠ s.endOfSpace then a else s.nextSpace) = a + size := by
        omega
      refine ⟨fun b hle hlt => ?_, ⟨?_, ?_⟩, fun p hp => ?_⟩
      · rw [hsum] at hlt
        rcases hbyte hle hlt with hab | hb
        · exact give_owner_self hab hlt
        · obtain ⟨hspace, hlt'⟩ := hold hb
          apply give_owner
          · intro b hle hlt
            rw [hchunk.own b hle hlt]
            nofun
          · exact hspace.own b hb.1 hlt'
      · rcases hbyte le_rfl (by omega) with hab | hb
        · exact hchunk.inside.min.trans hab
        · exact (hold hb).1.inside.min.trans hb.1
      · rw [hsum]
        exact hchunk.inside.max
      · obtain ⟨b, hle, hlt, rfl⟩ := hp.exists_byte (by omega)
        rw [hsum] at hlt
        rcases hbyte hle hlt with hab | hb
        · exact hchunk.pages _ (hchunk.inside.spans hab hlt)
        · obtain ⟨hspace, hlt'⟩ := hold hb
          exact hspace.pages _ (hspace.inside.spans hb.1 hlt')
    · intro d
      by_cases hd : d = c
      · simp only [hd, update_self]
        exact ⟨hchunked, nofun⟩
      · simp only [update_of_ne hd]
        have hgive := @Held.give _ _ _ _ _ _ _ _ _ (some .space) (h.layout.held d) hchunk.own
          (fun heq => hd (Owner.chunk.inj heq).symm) nofun
        exact hgive.mono (fun _ => id) (fun _ => id) (fun _ _ => id) fun _ hfalse _ => hfalse
  · obtain ⟨linked, hcounts⟩ := h.counts
    refine ⟨linked, hcounts.frame h.layout (fun _ _ => List.Perm.refl _) (fun p => .inl ⟨rfl, rfl, fun _ _ _ => rfl⟩)
      fun d => ?_⟩
    by_cases hd : d = c
    · simp only [hd, update_self, hpc]
      rfl
    · simp only [update_of_ne hd]
  · exact h.sized

theorem Inv.takeSpace {newSpace : Option ℕ} (h : Inv k s) (hpc : s.pc c = .space z newSpace) :
    Inv k (takeSpace k s c z newSpace) := by
  have hheld := h.layout.held c
  rw [hpc] at hheld
  obtain ⟨hchunked, hhas⟩ := hheld
  have hpos := k.elemSize_pos z
  unfold Zalloc.takeSpace
  by_cases hneed : s.nextSpace + (k.zone z).elemSize > s.endOfSpace
  · rw [if_pos hneed]
    apply h.setPc c
    · exact hchunked
    · rw [hpc]
      rfl
  rw [if_neg hneed]
  have hspace := h.layout.space (by omega)
  have hown (b : ℕ) (hle : s.nextSpace ≤ b) (hlt : b < s.nextSpace + (k.zone z).elemSize) : s.owner b = some .space :=
    hspace.own b hle (by omega)
  have hinside : Inside k s.nextSpace (k.zone z).elemSize := by
    have hmax := hspace.inside.max
    exact ⟨hspace.inside.min, by omega⟩
  constructor
  · apply h.layout.transfer
    · rfl
    · rfl
    · rfl
    · intro b hle hlt z' a'
      rw [hown b hle hlt]
      rintro ⟨⟩
    · exact fun b hle hlt => h.layout.use_ne_none (hown b hle hlt)
    · exact fun _ _ => .inl
    · exact h.layout.nodup
    · simp only [St.setPc, St.give]
      omega
    · simp only [St.setPc, St.give]
      intro hlt
      have hmin := hspace.inside.min
      have hmax := hspace.inside.max
      refine ⟨fun b hle hlt' => ?_, ⟨by omega, by omega⟩, fun p hp => ?_⟩
      · have hrange : ¬(s.nextSpace ≤ b ∧ b < s.nextSpace + (k.zone z).elemSize) := by omega
        simp only [if_neg hrange]
        exact hspace.own b (by omega) (by omega)
      · obtain ⟨b, hle, hlt', rfl⟩ := hp.exists_byte (by omega)
        exact hspace.pages _ (hspace.inside.spans (by omega) (by omega))
    · intro d
      by_cases hd : d = c
      · simp only [hd, St.setPc, update_self]
        refine ⟨hchunked, ⟨fun b hle hlt => give_owner_self hle hlt, hinside, fun p hp => ?_⟩, fun a ha => ?_⟩
        · obtain ⟨b, hle, hlt, rfl⟩ := hp.exists_byte hpos
          exact hspace.pages _ (hspace.inside.spans hle (by omega))
        · refine ⟨(hhas a ha).1, (hhas a ha).2.mono (fun b hb => ?_) fun _ => id⟩
          apply give_owner
          · intro b hle hlt
            rw [hown b hle hlt]
            rintro ⟨⟩
          · exact hb
      · simp only [St.setPc, update_of_ne hd]
        have hgive := @Held.give _ _ _ _ _ _ _ _ _ (some (.hand c)) (h.layout.held d) hown (by rintro ⟨⟩) (by rintro ⟨⟩)
        exact hgive.mono (fun _ => id) (fun _ => id) (fun _ _ => id) fun _ hfalse _ => hfalse
  · obtain ⟨linked, hcounts⟩ := h.counts
    refine ⟨linked, hcounts.frame h.layout (fun _ _ => List.Perm.refl _) (fun p => .inl ⟨rfl, rfl, fun _ _ _ => rfl⟩)
      fun d => ?_⟩
    by_cases hd : d = c
    · simp only [hd, St.setPc, update_self, hpc]
      rfl
    · simp only [St.setPc, update_of_ne hd]
      rfl
  · exact h.sized

theorem takeSpace_setPc (s : St Z C) (q : Pc Z) (newSpace : Option ℕ) :
    takeSpace k (s.setPc c q) c z newSpace = takeSpace k s c z newSpace := by
  have hupdate (q' : Pc Z) : update (update s.pc c q) c q' = update s.pc c q' := update_idem ..
  simp only [takeSpace]
  by_cases hneed : s.nextSpace + (k.zone z).elemSize > s.endOfSpace
  · have hneed' : (s.setPc c q).nextSpace + (k.zone z).elemSize > (s.setPc c q).endOfSpace := hneed
    rw [if_pos hneed', if_pos hneed]
    simp only [St.setPc, hupdate]
  · have hneed' : ¬(s.setPc c q).nextSpace + (k.zone z).elemSize > (s.setPc c q).endOfSpace := hneed
    simp only [St.setPc, St.give, hupdate]
    rfl

theorem Inv.zgetSpace {newSpace : Option ℕ} (h : Inv k s) (hpc : s.pc c = .space z newSpace) :
    Inv k (zgetSpace k s c z newSpace) := by
  cases newSpace with
  | none => exact h.takeSpace hpc
  | some a =>
    simp only [Zalloc.zgetSpace]
    split
    · rw [← takeSpace_setPc _ (.space z none)]
      apply (h.addSpace hpc).takeSpace
      simp [St.setPc]
    · exact h.takeSpace hpc

theorem Inv.spaceFree (h : Inv k s) (hpc : s.pc c = .spaced z result (some a)) :
    Inv k (spaceFree k s c z result a) := by
  have hheld := h.layout.held c
  rw [hpc] at hheld
  obtain ⟨hchunked, hhand, hhas⟩ := hheld
  obtain ⟨haligned, hchunk⟩ := hhas a rfl
  obtain ⟨hpos, -, hdvd⟩ := spaceToAdd_pos k (k.elemSize_pos z)
  unfold Zalloc.spaceFree
  generalize spaceToAdd k (k.zone z).elemSize = size at hchunk hpos hdvd
  -- a page of the memory has only bytes of the call
  have hapart {o : Owner Z C} {addr n : ℕ} (hown : ∀ b, addr ≤ b → b < addr + n → s.owner b = some o)
      (hn : 0 < n) (hne : o ≠ .chunk c) (p : ℕ) (hp : Spans k a size p) : ¬Spans k addr n p := by
    intro hspans
    obtain ⟨b, hle, hlt, rfl⟩ := hspans.exists_byte hn
    have hmin := hspans.1
    obtain ⟨hle', hlt'⟩ := mem_of_spans haligned hdvd hpos (hmin.trans hle) hp
    have heq := (hown b hle hlt).symm.trans (hchunk.own b hle' hlt')
    exact hne (Option.some_inj.mp heq)
  have hlayout : Layout k ((kmemFree k (s.setPc c (.spaced z result none)) a size)) := by
    have hheld' : Held k s c (.spaced z result none) := ⟨hchunked, hhand, nofun⟩
    have hs : Layout k (s.setPc c (.spaced z result none)) := h.layout.goOn hheld' s.table
    apply hs.kmemFree hchunk.inside haligned hdvd hpos
    · intro z' a' ha' p hp
      exact hapart (h.layout.elements z' a' ha').own (k.elemSize_pos z') nofun p hp
    · intro hlt p hp
      have hlt' : s.nextSpace < s.endOfSpace := hlt
      exact hapart (h.layout.space hlt').own (Nat.sub_pos_of_lt hlt') nofun p hp
    · intro d
      by_cases hd : d = c
      · have hhand' : Has k (s.setPc c (.spaced z result none)) (.hand c) .space result (k.zone z).elemSize :=
          hhand.mono (fun _ => id) fun _ => id
        have hpc' : (s.setPc c (.spaced z result none)).pc c = .spaced z result none := update_self ..
        rw [hd, hpc']
        exact ⟨hchunked, hhand'.free hchunk.inside (hapart hhand.own (k.elemSize_pos z) nofun), nofun⟩
      · apply (hs.held d).free hchunk.inside
        intro o u addr n hregion hn ho _ p hp
        apply hapart hregion.own hn _ p hp
        rcases ho with rfl | rfl
        · exact fun heq => hd (Owner.chunk.inj heq)
        · nofun
  constructor
  · exact hlayout
  · obtain ⟨linked, hcounts⟩ := h.counts
    refine ⟨linked, hcounts.frame h.layout (fun _ _ => List.Perm.refl _) (fun p => ?_) fun d => ?_⟩
    · by_cases hp : Spans k a size p
      · right
        refine ⟨fun z' hz => ?_, fun z' hz => ?_⟩
        · rw [hchunk.pages p hp] at hz
          cases hz
        · simp only [St.setPc, kmemFree, if_pos hp] at hz
          cases hz
      · left
        simp only [St.setPc, kmemFree, if_neg hp]
        exact ⟨trivial, trivial, fun _ _ _ => rfl⟩
    · by_cases hd : d = c
      · simp only [hd, St.setPc, update_self, hpc]
        rfl
      · simp only [St.setPc, update_of_ne hd]
        rfl
  · exact h.sized

variable [DecidableEq Z]

theorem Inv.spaceAccount (h : Inv k s) (hpc : s.pc c = .spaced z result none) :
    Inv k (spaceAccount k s c z result) := by
  have hheld := h.layout.held c
  rw [hpc] at hheld
  obtain ⟨hchunked, hhas, -⟩ := hheld
  have hpos := k.elemSize_pos z
  have hnotCollects (z' : Z) (hz : k.Collects z') : z' ≠ z := by
    rintro rfl
    exact hchunked hz.chunked
  have hnew : result ∉ s.elements z := by
    intro hmem
    have hown := (h.layout.elements z result hmem).own result le_rfl (by omega)
    rw [hhas.own result le_rfl (by omega)] at hown
    cases hown
  have helements (z' : Z) : (Zalloc.spaceAccount k s c z result).elements z' =
      if z' = z then result :: s.elements z else s.elements z' := by
    by_cases hz : z' = z
    · rw [hz, if_pos rfl]
      simp [Zalloc.spaceAccount, St.elements, St.setPc, St.give, St.setZone]
    · rw [if_neg hz]
      simp [Zalloc.spaceAccount, St.elements, St.setPc, St.give, St.setZone, hz]
  constructor
  · apply @Layout.transfer _ _ _ s _ result (k.zone z).elemSize h.layout (.element z result)
    · rfl
    · rfl
    · rfl
    · intro b hle hlt z' a'
      rw [hhas.own b hle hlt]
      rintro ⟨⟩
    · exact fun b hle hlt => h.layout.use_ne_none (hhas.own b hle hlt)
    · intro z' a' ha'
      rw [helements] at ha'
      by_cases hz : z' = z
      · rw [if_pos hz] at ha'
        rcases List.mem_cons.mp ha' with rfl | ha'
        · right
          rw [hz]
          refine ⟨fun b hle hlt => give_owner_self hle hlt, .inl hhas.inside, fun p hp => ?_⟩
          rw [Kernel.useOf, if_neg hchunked]
          exact hhas.pages p hp
        · left
          rw [hz]
          exact ha'
      · rw [if_neg hz] at ha'
        exact .inl ha'
    · intro z'
      rw [helements]
      split
      · exact List.nodup_cons.mpr ⟨hnew, h.layout.nodup z⟩
      · exact h.layout.nodup z'
    · exact h.layout.spaceLe
    · intro hlt
      apply (h.layout.space hlt).mono
      · intro b hb
        apply give_owner
        · exact fun b hle hlt heq => (by cases (hhas.own b hle hlt).symm.trans heq)
        · exact hb
      · exact fun _ => id
    · intro d
      by_cases hd : d = c
      · simp only [hd, Zalloc.spaceAccount, St.setPc, update_self]
        trivial
      · simp only [Zalloc.spaceAccount, St.setPc, update_of_ne hd]
        have hgive := @Held.give _ _ _ _ _ _ _ _ _ (some (.element z result)) (h.layout.held d) hhas.own (by rintro ⟨⟩)
          fun heq => hd (Owner.hand.inj heq).symm
        exact hgive.mono (fun _ => id) (fun _ => id) (fun _ _ => id) fun _ hfalse _ => hfalse
  · obtain ⟨linked, hcounts⟩ := h.counts
    refine ⟨linked, hcounts.frame h.layout (fun z' hz => ?_) (fun p => .inl ⟨rfl, rfl, fun z' hp hz => ?_⟩) fun d => ?_⟩
    · rw [helements, if_neg (hnotCollects z' hz)]
    · have hnot : ¬Spans k result (k.zone z).elemSize p := by
        intro hspans
        rw [hhas.pages p hspans] at hp
        cases hp
      have hsame : zonePageAlloc k s.table result (k.zone z).elemSize p = s.table p := forPages_of_not_spans hnot
      exact hsame
    · by_cases hd : d = c
      · simp only [hd, Zalloc.spaceAccount, St.setPc, update_self, hpc]
        rfl
      · simp only [Zalloc.spaceAccount, St.setPc, update_of_ne hd]
        rfl
  · intro z'
    rw [helements]
    by_cases hz : z' = z
    · rw [if_pos hz, hz]
      simp only [Zalloc.spaceAccount, St.setPc, St.give, setZone_self, h.sized z, List.length_cons]
      push_cast
      ring
    · rw [if_neg hz]
      simp only [Zalloc.spaceAccount, St.setPc, St.give, setZone_of_ne hz]
      exact h.sized z'

end Space

end Osf1.Zalloc
