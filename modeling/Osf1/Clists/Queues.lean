import Osf1.Clists.Putting

/-!
# Clists that share their blocks

Every block is free or in one clist.  A routine that changes one clist takes blocks from the free list and
gives blocks back to it, and the other clists stay as they are.
-/

set_option autoImplicit false

namespace Osf1.Clists

open Function List

section Sharing

open Osf1.Computation Osf1.Computation.BlockQueue

variable {ι : Type*} {s s' : State ι} {i j : ι} {blocks free free' bs' : List ℕ} {bs : ι → List ℕ}
  {m' : Mem} {q' : Clist}

/-- The characters of a clist. -/
def State.chars (s : State ι) (i : ι) : List (Char8 × Bool) := Clists.chars s.mem (s.q i)

section Set

variable [DecidableEq ι]

theorem State.set_mem (s : State ι) (i : ι) (r : Mem × Clist) : (s.set i r).mem = r.1 := rfl

theorem State.set_same (s : State ι) (i : ι) (r : Mem × Clist) : (s.set i r).q i = r.2 := update_self ..

theorem State.set_other (s : State ι) (r : Mem × Clist) (hij : j ≠ i) : (s.set i r).q j = s.q j :=
  update_of_ne hij ..

end Set

/-- The blocks of every clist, and the free ones: each block is in one of these lists. -/
structure Shared (blocks : List ℕ) (s : State ι) (bs : ι → List ℕ) (free : List ℕ) : Prop where
  loc : ∀ i, Loc s.mem (s.q i) (bs i) free
  disjoint : ∀ i j, i ≠ j → ∀ b ∈ bs i, b ∉ bs j
  all : ∀ b, b ∈ blocks ↔ b ∈ free ∨ ∃ i, b ∈ bs i

theorem Shared.length_le (h : Shared blocks s bs free) (i : ι) : (bs i).length ≤ blocks.length := by
  have hnodup : (bs i).Nodup := (nodup_append.mp (h.loc i).nodup).1
  exact (subperm_of_subset hnodup fun b hb => (h.all b).mpr (.inr ⟨i, hb⟩)).length_le

theorem Shared.cfreelist (h : Shared blocks s bs free) (i : ι) : s.mem.cfreelist = none ↔ free = [] := by
  have hchain := (h.loc i).freeChain
  cases free with
  | nil => exact ⟨fun _ => rfl, fun _ => hchain⟩
  | cons b free =>
    rw [hchain.1]
    exact ⟨nofun, nofun⟩

section One

section

variable (h : Shared blocks s bs free)
include h

theorem Shared.apart (hij : j ≠ i) : ∀ b ∈ bs j, b ∉ bs i ++ free := by
  intro b hb hmem
  rcases mem_append.mp hmem with hi | hfree
  · exact h.disjoint j i hij b hb hi
  · exact (nodup_append.mp (h.loc j).nodup).2.2 b hb b hfree rfl

theorem Shared.other (hstep : Step s.mem (bs i) free m' q' bs' free')
    (hij : j ≠ i) : Loc m' (s.q j) (bs j) free' := by
  have hloc := h.loc j
  have hapart := h.apart hij
  have hfree' : ∀ b ∈ free', b ∈ bs i ++ free := fun b hb =>
    hstep.perm.mem_iff.mp (mem_append_right _ hb)
  refine { hloc with
    chain := ?_, freeChain := hstep.loc.freeChain, freecount := hstep.loc.freecount,
    cleared := hstep.loc.cleared, aligned := ?_, nodup := ?_ }
  · exact hloc.chain.congr fun b hb => hstep.frame.link b (hapart b hb)
  · intro b hb
    rcases mem_append.mp hb with hmem | hmem
    · exact hloc.aligned b (mem_append_left _ hmem)
    · exact hstep.loc.aligned b (mem_append_right _ hmem)
  · refine nodup_append.mpr ⟨(nodup_append.mp hloc.nodup).1, (nodup_append.mp hstep.loc.nodup).2.1, ?_⟩
    rintro b hb _ hb' rfl
    exact hapart b hb (hfree' b hb')

theorem Shared.other_chars (hstep : Step s.mem (bs i) free m' q' bs' free')
    (hij : j ≠ i) : Clists.chars m' (s.q j) = Clists.chars s.mem (s.q j) := by
  rw [(h.other hstep hij).chars, (h.loc j).chars]
  apply hstep.frame.content
  exact fun a ha => h.apart hij _ ((h.loc j).places_block ha)

end

variable [DecidableEq ι]

theorem Shared.step (h : Shared blocks s bs free) (hstep : Step s.mem (bs i) free m' q' bs' free') :
    Shared blocks (s.set i (m', q')) (update bs i bs') free' ∧
      (s.set i (m', q')).chars = update s.chars i (content m' (q'.places bs')) := by
  refine ⟨⟨?_, ?_, ?_⟩, ?_⟩
  · intro j
    by_cases hij : j = i
    · subst hij
      rw [State.set_same, update_self]
      exact hstep.loc
    · rw [State.set_other s _ hij, update_of_ne hij]
      exact h.other hstep hij
  · have hsub : ∀ b ∈ bs', b ∈ bs i ++ free := fun b hb => hstep.perm.mem_iff.mp (mem_append_left _ hb)
    intro j k hjk b hb hb'
    by_cases hj : j = i
    · subst hj
      rw [update_self] at hb
      rw [update_of_ne hjk.symm] at hb'
      exact h.apart hjk.symm b hb' (hsub b hb)
    · rw [update_of_ne hj] at hb
      by_cases hk : k = i
      · subst hk
        rw [update_self] at hb'
        exact h.apart hj b hb (hsub b hb')
      · rw [update_of_ne hk] at hb'
        exact h.disjoint j k hjk b hb hb'
  · intro b
    rw [h.all b]
    have hmem : b ∈ bs' ∨ b ∈ free' ↔ b ∈ bs i ∨ b ∈ free := by
      rw [← mem_append, ← mem_append]
      exact hstep.perm.mem_iff
    constructor
    · rintro (hfree | ⟨j, hj⟩)
      · rcases hmem.mpr (.inr hfree) with hnew | hnew
        · exact .inr ⟨i, by rwa [update_self]⟩
        · exact .inl hnew
      · by_cases hij : j = i
        · subst hij
          rcases hmem.mpr (.inl hj) with hnew | hnew
          · exact .inr ⟨j, by rwa [update_self]⟩
          · exact .inl hnew
        · exact .inr ⟨j, by rwa [update_of_ne hij]⟩
    · rintro (hfree | ⟨j, hj⟩)
      · rcases hmem.mp (.inr hfree) with hold | hold
        · exact .inr ⟨i, hold⟩
        · exact .inl hold
      · by_cases hij : j = i
        · subst hij
          rw [update_self] at hj
          rcases hmem.mp (.inl hj) with hold | hold
          · exact .inr ⟨j, hold⟩
          · exact .inl hold
        · rw [update_of_ne hij] at hj
          exact .inr ⟨j, hj⟩
  · funext j
    by_cases hij : j = i
    · subst hij
      rw [update_self, ← hstep.loc.chars, State.chars, State.set_mem, State.set_same]
    · rw [update_of_ne hij, State.chars, State.set_mem, State.set_other s _ hij]
      exact h.other_chars hstep hij

theorem Shared.swap (h : Shared blocks s bs free) (i j : ι) :
    Shared blocks ⟨s.mem, s.q ∘ Equiv.swap i j⟩ (bs ∘ Equiv.swap i j) free where
  loc k := h.loc (Equiv.swap i j k)
  disjoint k l hkl := h.disjoint _ _ ((Equiv.swap i j).injective.ne hkl)
  all b := by
    rw [h.all b]
    have hsome : (∃ k, b ∈ bs k) ↔ ∃ k, b ∈ (bs ∘ Equiv.swap i j) k :=
      ((Equiv.swap i j).exists_congr_left (p := fun k => b ∈ bs k)).trans (by simp)
    rw [hsome]

end One

section Initially

theorem freeBlocks_free (n : ℕ) {m : Mem} (cp : ℕ) (hcp : cp % 64 = 0) (hpos : 0 < cp)
    (hm : Blocks m [] free) (hold : ∀ b ∈ free, b < cp) (hclear : ∀ b i, m.c_quote b i = false) :
    ∃ free', Blocks (freeBlocks n m cp) [] free' ∧
      ∀ b, b ∈ free' ↔ b ∈ free ∨ ∃ k < n, b = cp + 64 * k := by
  induction n generalizing m cp free with
  | zero => exact ⟨free, hm, fun b => by simp⟩
  | succ n ih =>
    have hnew : cp ∉ free := fun hmem => absurd (hold cp hmem) (Nat.lt_irrefl _)
    have hm' : Blocks { m with
        c_next := update m.c_next cp m.cfreelist
        cfreelist := some cp
        cfreecount := m.cfreecount + 48 } [] (cp :: free) := by
      refine ⟨rfl, ⟨rfl, ?_⟩, ?_, fun b _ => hclear b, ?_, ?_⟩
      · dsimp only
        rw [update_self]
        exact hm.freeChain.update hnew _
      · dsimp only
        rw [hm.freecount, length_cons]
        omega
      · intro b hb
        rcases mem_cons.mp hb with heq | hmem
        · exact heq ▸ ⟨hcp, hpos⟩
        · exact hm.aligned b hmem
      · exact nodup_cons.mpr ⟨hnew, hm.nodup⟩
    obtain ⟨free', hblocks, hmem⟩ := ih (cp + 64) (by omega) (by omega) hm'
      (fun b hb => by
        rcases mem_cons.mp hb with heq | hmem
        · omega
        · exact Nat.lt_of_lt_of_le (hold b hmem) (Nat.le_add_right ..))
      hclear
    refine ⟨free', hblocks, fun b => ?_⟩
    rw [hmem b, mem_cons]
    constructor
    · rintro ((rfl | hb) | ⟨k, hk, rfl⟩)
      · exact .inr ⟨0, Nat.succ_pos _, rfl⟩
      · exact .inl hb
      · exact .inr ⟨k + 1, Nat.succ_lt_succ hk, by omega⟩
    · rintro (hb | ⟨k, hk, rfl⟩)
      · exact .inl (.inr hb)
      · cases k with
        | zero => exact .inl (.inl rfl)
        | succ k => exact .inr ⟨k, Nat.lt_of_succ_lt_succ hk, by omega⟩

theorem shared_cinit (ι : Type*) {cfree : ℕ} (hcfree : 0 < cfree) (nclist : ℕ) :
    ∃ free, Shared (cblocks cfree nclist) (⟨cinit cfree nclist, fun _ => Clist.empty⟩ : State ι)
      (fun _ => []) free := by
  have hnone : Blocks (⟨fun _ => none, fun _ _ => false, fun _ => 0, none, 0⟩ : Mem) [] [] :=
    ⟨rfl, rfl, rfl, nofun, nofun, nodup_nil⟩
  obtain ⟨free, hblocks, hmem⟩ := freeBlocks_free (blockCount cfree nclist) (firstBlock cfree)
    (by
      unfold firstBlock
      omega)
    (by
      unfold firstBlock
      omega)
    hnone nofun fun _ _ => rfl
  refine ⟨free, fun _ => { hblocks with spans := fun hne => absurd rfl hne, null := fun _ => ⟨rfl, rfl⟩, count := rfl },
    nofun, fun b => ?_⟩
  rw [hmem b]
  simp [cblocks, eq_comm]

end Initially

end Sharing

/-!
## Concatenating two clists

`catq` takes the characters of a clist one by one and puts them on the end of another one.
-/

section Concatenating

open Osf1.Computation Osf1.Computation.BlockQueue

variable {ι : Type*} {s s' : State ι} {i j fromq toq : ι} {blocks free free' bs' : List ℕ}
  {bs : ι → List ℕ} {m m' : Mem} {q q' : Clist} {a k : ℕ} {l : List ℕ} {x : Char8 × Bool}
  {xs : List (Char8 × Bool)}

section Characters

theorem intOf_getLsbD (x : Char8 × Bool) {k : ℕ} (hk : k < 32) :
    (intOf x).getLsbD k = (x.1.getLsbD k || (x.2 && decide (k = 8))) := by
  have hquote : ∀ k < 32, TTY_QUOTE.getLsbD k = decide (k = 8) := by decide
  unfold intOf orQuote
  cases x.2 with
  | true => rw [if_pos rfl, BitVec.getLsbD_or, BitVec.getLsbD_setWidth, hquote k hk]; simp [hk]
  | false => rw [if_neg (by simp), BitVec.getLsbD_setWidth]; simp [hk]

theorem intOf_msb (x : Char8 × Bool) : (intOf x).msb = false := by
  rw [BitVec.msb_eq_getLsbD_last, intOf_getLsbD x (by omega)]
  simp [BitVec.getLsbD_of_ge]

theorem intOf_nonneg (x : Char8 × Bool) : 0 ≤ (intOf x).toInt := by
  rw [BitVec.toInt_eq_toNat_of_msb (intOf_msb x)]
  exact Int.natCast_nonneg _

theorem quotes_eq (c : BitVec 64) : quotes c = c.getLsbD 8 := by
  have hquote : ∀ k < 64, (TTY_QUOTE.setWidth 64).getLsbD k = decide (k = 8) := by decide
  cases hbit : c.getLsbD 8 with
  | true =>
    apply decide_eq_true
    intro hzero
    have hand := congrArg (fun d : BitVec 64 => d.getLsbD 8) hzero
    rw [BitVec.getLsbD_and, hbit, hquote 8 (by omega)] at hand
    exact absurd hand (by decide)
  | false =>
    apply decide_eq_false
    rw [not_not]
    apply BitVec.eq_of_getLsbD_eq
    intro k hk
    change _ = (0#64).getLsbD k
    rw [BitVec.getLsbD_and, hquote k hk, BitVec.getLsbD_zero]
    by_cases h8 : k = 8
    · rw [h8, hbit, Bool.false_and]
    · rw [decide_eq_false h8, Bool.and_false]

theorem intOf_put (x : Char8 × Bool) :
    ((intOf x).signExtend 64).setWidth 8 = x.1 ∧ quotes ((intOf x).signExtend 64) = x.2 := by
  rw [quotes_eq, BitVec.signExtend_eq_setWidth_of_msb_false (intOf_msb x)]
  constructor
  · apply BitVec.eq_of_getLsbD_eq
    intro k hk
    have hk8 : k ≠ 8 := by omega
    rw [BitVec.getLsbD_setWidth, BitVec.getLsbD_setWidth, intOf_getLsbD x (by omega)]
    simp [hk, hk8]
    omega
  · rw [BitVec.getLsbD_setWidth, intOf_getLsbD x (by omega)]
    simp [BitVec.getLsbD_of_ge]

end Characters

section Places

theorem Frame.isquote (h : Frame m m' l) (ha : block a ∉ l) : Clists.isquote m' a = Clists.isquote m a := by
  unfold Clists.isquote
  rw [h.quote _ ha]

theorem Loc.spare_block {bs : List ℕ} (h : Loc m q bs free) (hk : k < q.spare) : block (q.c_cl + k) ∈ bs := by
  have hoff : offset q.c_cl ≠ 0 := by
    intro hzero
    rw [Clist.spare, if_pos hzero] at hk
    omega
  rw [Clist.spare, if_neg hoff] at hk
  have hbs : bs ≠ [] := by
    rintro rfl
    rw [(h.null rfl).2] at hoff
    exact hoff rfl
  obtain ⟨init, z, rfl, hz, hlo, hhi⟩ := h.lastPlace hbs
  unfold offset at hk hoff
  have hblock : block (q.c_cl + k) = z := block_eq hz (by omega) (by omega)
  rw [hblock]
  exact mem_append_right _ (mem_singleton_self _)

end Places

section Loop

/-- The characters of one clist can be put on the end of another one: those without a quote find no mark in
the room behind its last character, and there is a block when this room is used up. -/
structure Fits (s : State ι) (fromq toq : ι) : Prop where
  clear : ∀ k x, (s.chars fromq)[k]? = some x → k < (s.q toq).spare →
    x.2 = true ∨ isquote s.mem ((s.q toq).c_cl + k) = false
  room : (s.chars fromq).length ≤ (s.q toq).spare ∨ s.mem.cfreelist ≠ none ∨
    (s.q fromq).firstCount ≤ (s.q toq).spare + 1

theorem Shared.getc_room (h : Shared blocks s bs free) (n : ℕ) (hx : s.chars fromq ≠ [])
    (hroom : s.mem.cfreelist ≠ none ∨ (s.q fromq).firstCount ≤ n + 1) :
    (getc s.mem (s.q fromq)).2.1.cfreelist ≠ none ∨ (getc s.mem (s.q fromq)).2.2.firstCount ≤ n ∧ 0 < n := by
  have hloc := h.loc fromq
  have hcc : ¬(s.q fromq).c_cc ≤ 0 := by
    intro hle
    obtain ⟨-, hempty⟩ := hloc.empty hle
    apply hx
    rw [State.chars, hempty]
    rfl
  obtain ⟨b, bs₀, hbs⟩ := hloc.nonempty hcc
  rw [hbs] at hloc
  rcases hloc.getc_first with hlast | ⟨hlt, hmem, hcount⟩
  · exact .inl hlast.2
  · rw [hmem]
    rcases hroom with hsome | hle
    · exact .inl hsome
    · exact .inr ⟨by omega, by omega⟩

variable [DecidableEq ι]

theorem Fits.round (h : Shared blocks s bs free) (hne : fromq ≠ toq) (hfits : Fits s fromq toq)
    (hx : s.chars fromq = x :: xs) :
    ∃ c s₁ s₂ bs' free', (getc s.mem (s.q fromq)).1 = c ∧ 0 ≤ c.toInt ∧
      s.set fromq (getc s.mem (s.q fromq)).2 = s₁ ∧
      s₁.set toq (putc (c.signExtend 64) s₁.mem (s₁.q toq)).2 = s₂ ∧ Shared blocks s₂ bs' free' ∧
      s₂.chars = update (update s.chars fromq xs) toq (s.chars toq ++ [x]) ∧
      Fits s₂ fromq toq := by
  -- the character is taken
  obtain ⟨c, m₁, q₁, bs₁, free₁, hget, hstep, hcontent⟩ := (h.loc fromq).getc
  rw [← (h.loc fromq).chars, ← State.chars, hx] at hcontent
  obtain ⟨rfl, hrest⟩ := hcontent
  obtain ⟨hshared₁, hchars₁⟩ := h.step hstep
  have hfrom : s.chars fromq ≠ [] := by simp [hx]
  have hroom₁ := h.getc_room (s.q toq).spare hfrom
  rw [hget] at hroom₁
  have hq₁ : (s.set fromq (m₁, q₁)).q toq = s.q toq := State.set_other s _ hne.symm
  have hmark : ∀ k < (s.q toq).spare, isquote m₁ ((s.q toq).c_cl + k) = isquote s.mem ((s.q toq).c_cl + k) :=
    fun k hk => hstep.frame.isquote (h.apart hne.symm _ ((h.loc toq).spare_block hk))
  have hto₁ : (s.set fromq (m₁, q₁)).chars toq = s.chars toq := by
    rw [hchars₁, update_of_ne hne.symm]
  -- it is put behind the others
  have hloc₁ := hshared₁.loc toq
  rw [hq₁] at hloc₁
  have hclear : quotes ((intOf x).signExtend 64) = true ∨ Clear m₁ (s.q toq) 1 := by
    rw [(intOf_put x).2]
    by_cases hspare : 0 < (s.q toq).spare
    · rcases hfits.clear 0 x (by simp [hx]) hspare with hquoted | hfalse
      · exact .inl hquoted
      · right
        intro k hk hk'
        obtain rfl : k = 0 := by omega
        rw [hmark 0 hspare]
        exact hfalse
    · exact .inr fun k _ hk => absurd hk (by omega)
  have hlength : (s.chars fromq).length = xs.length + 1 := by
    rw [hx, length_cons]
  have hroom : xs.length + 1 ≤ (s.q toq).spare ∨ m₁.cfreelist ≠ none ∨
      q₁.firstCount ≤ (s.q toq).spare ∧ 0 < (s.q toq).spare := by
    rcases hfits.room with hle | hmore
    · exact .inl (hlength ▸ hle)
    · exact .inr (hroom₁ hmore)
  rcases hloc₁.putc ((intOf x).signExtend 64) hclear with ⟨hspare, hfree, -⟩ | hsome
  · have hnil : m₁.cfreelist = none := (hshared₁.cfreelist fromq).mpr hfree
    rcases hroom with hle | hsome | ⟨-, hpos⟩
    · omega
    · exact absurd hnil hsome
    · omega
  · obtain ⟨m₂, q₂, bs₂, free₂, hput, hstep₂, hcontent₂, hfurther⟩ := hsome
    obtain ⟨hshared₂, hchars₂⟩ := hshared₁.step hstep₂
    have hold : Clists.chars m₁ (s.q toq) = s.chars toq := by
      rw [← hto₁, State.chars, hq₁]
      rfl
    rw [← hloc₁.chars, State.set_mem, hold, (intOf_put x).1, (intOf_put x).2] at hcontent₂
    rw [hcontent₂, hchars₁, hrest] at hchars₂
    have hfrom : ((s.set fromq (m₁, q₁)).set toq (m₂, q₂)).q fromq = q₁ :=
      (State.set_other _ _ hne).trans (State.set_same ..)
    have hto : ((s.set fromq (m₁, q₁)).set toq (m₂, q₂)).q toq = q₂ := State.set_same ..
    have hleft : ((s.set fromq (m₁, q₁)).set toq (m₂, q₂)).chars fromq = xs := by
      rw [hchars₂, update_of_ne hne, update_self]
    refine ⟨intOf x, _, _, _, free₂, by rw [hget], intOf_nonneg x, rfl, ?_, hshared₂, hchars₂, ?_, ?_⟩
    · rw [hget, hq₁, hput]
    · -- what is left finds no mark
      intro k y hk hspare
      rw [hleft] at hk
      rw [hto] at hspare ⊢
      rcases hfurther with ⟨hpos, hspare', -, hcl, hother⟩ | hnew
      · have hnext : q₂.c_cl + k = (s.q toq).c_cl + (k + 1) := by omega
        have hsome := hfits.clear (k + 1) y (by rw [hx]; exact hk) (by omega)
        rw [← hmark (k + 1) (by omega)] at hsome
        rw [State.set_mem, hnext, hother _ (by omega)]
        exact hsome
      · exact .inr (hnew.2.2.2 (k + 1) k (Nat.lt_succ_self k) hspare)
    · -- there is room for what is left
      rw [hleft, hto, hfrom]
      rcases hfurther with ⟨hpos, hspare', hfree, -, -⟩ | hnew
      · rcases hroom with hle | hsome | ⟨hle, -⟩
        · exact .inl (by omega)
        · refine .inr (.inl ?_)
          intro hnil
          have hfree₂ := (hshared₂.cfreelist fromq).mp hnil
          rw [hfree] at hfree₂
          exact hsome ((hshared₁.cfreelist fromq).mpr hfree₂)
        · exact .inr (.inr (by omega))
      · have hle := (hshared₂.loc fromq).firstCount_le
        rw [hfrom] at hle
        exact .inr (.inr (by omega))

theorem Fits.loop {fuel : ℕ} (h : Shared blocks s bs free) (hne : fromq ≠ toq) (hfits : Fits s fromq toq)
    (hfuel : (s.chars fromq).length < fuel) :
    ∃ s' bs' free', catLoop fromq toq fuel s = some s' ∧ Shared blocks s' bs' free' ∧
      s'.chars = update (update s.chars toq (s.chars toq ++ s.chars fromq)) fromq [] := by
  induction fuel generalizing s bs free with
  | zero => cases hfuel
  | succ fuel ih =>
    cases hx : s.chars fromq with
    | nil =>
      obtain ⟨c, m', q', bs', free', hget, hstep, hcontent⟩ := (h.loc fromq).getc
      rw [← (h.loc fromq).chars] at hcontent
      rw [State.chars] at hx
      rw [hx] at hcontent
      obtain ⟨rfl, hempty⟩ := hcontent
      obtain ⟨hshared, hchars⟩ := h.step hstep
      refine ⟨_, _, _, ?_, hshared, ?_⟩
      · rw [catLoop, hget]
        rfl
      · rw [hchars, hempty, append_nil, update_eq_self]
    | cons x xs =>
      obtain ⟨c, s₁, s₂, bs', free', hc, hnonneg, hs₁, hs₂, hshared, hchars, hfits'⟩ := hfits.round h hne hx
      have hfrom : s₂.chars fromq = xs := by
        rw [hchars, update_of_ne hne, update_self]
      have hto : s₂.chars toq = s.chars toq ++ [x] := by
        rw [hchars, update_self]
      obtain ⟨s', bs'', free'', hrun, hshared', hchars'⟩ := ih hshared hfits'
        (by
          rw [hfrom]
          rw [hx] at hfuel
          exact Nat.lt_of_succ_lt_succ hfuel)
      refine ⟨s', bs'', free'', ?_, hshared', ?_⟩
      · rw [catLoop]
        dsimp only
        rw [hc, if_pos hnonneg, hs₁, hs₂, hrun]
      · rw [hchars', hfrom, hto, hchars, append_assoc]
        funext i
        by_cases hi : i = fromq
        · rw [hi, update_self, update_self]
        · rw [update_of_ne hi, update_of_ne hi]
          by_cases hi' : i = toq
          · rw [hi', update_self, update_self]
            rfl
          · rw [update_of_ne hi', update_of_ne hi', update_of_ne hi', update_of_ne hi]

end Loop

end Concatenating

/-!
## Clists are queues of characters

What every routine does to the sequences of characters and quotes, under the condition that it does not
meet one of the defects: `unputc` and `nextc` do not mask a character, a quote bit that is set stays set
when the character is taken back with `unputc`, and `catq` drops characters when there is no block left.
-/

section Queues

open Osf1.Computation Osf1.Computation.BlockQueue

variable {ι : Type*} [DecidableEq ι] {s s' : State ι} {i fromq toq : ι} {blocks free free' bs' : List ℕ}
  {bs : ι → List ℕ} {m' : Mem} {q' : Clist} {nclist : ℕ} {e : Call ι}

/-- What a call does to the sequences, and what it returns. -/
def Acts (s : State ι) : Call ι → Result → State ι → Prop
  | .getc i, r, s' =>
    match s.chars i with
    | [] => r = .char (-1) ∧ s'.chars = s.chars
    | x :: xs => r = .char (intOf x) ∧ s'.chars = update s.chars i xs
  | .q_to_b i cc, r, s' =>
    r = .buffer (((s.chars i).take cc.toNat).map Prod.fst) ∧ s'.chars = update s.chars i ((s.chars i).drop cc.toNat)
  | .ndqb i flag, r, s' =>
    s' = s ∧ ∃ k, ((s.q i).addresses s.mem).take k = List.range' (s.q i).c_cf k ∧ (s.chars i ≠ [] → 0 < k) ∧
      r = .count (if flag then (((s.chars i).take k).takeWhile fun x => !x.2).length else k : ℕ)
  | .ndflush i cc, r, s' =>
    r = .void ∧ s'.chars = update s.chars i ((s.chars i).drop cc.toNat)
  | .putc c i, r, s' =>
    (r = .status true ∧ s'.chars = update s.chars i (s.chars i ++ [(c.setWidth 8, quotes c)])) ∨
      (r = .status false ∧ s.mem.cfreelist = none ∧ (s.q i).spare = 0 ∧ s'.chars = s.chars)
  | .b_to_q cs i, r, s' =>
    ∃ moved rest, cs = moved ++ rest ∧ r = .buffer rest ∧
      s'.chars = update s.chars i (s.chars i ++ moved.map fun c => (c, false)) ∧
      (rest = [] ∨ s'.mem.cfreelist = none)
  | .nextc i cp, r, s' =>
    s' = s ∧ ∀ k, ((s.q i).addresses s.mem)[k]? = some cp →
      r = .next ((((s.q i).addresses s.mem)[k + 1]?).map fun a => (a, intOf (s.mem.byte a, isquote s.mem a)))
  | .unputc i, r, s' =>
    match (s.chars i).getLast? with
    | none => r = .char (-1) ∧ s'.chars = s.chars
    | some x => r = .char (intOf x) ∧ s'.chars = update s.chars i (s.chars i).dropLast
  | .catq fromq toq, r, s' =>
    r = .void ∧ s'.chars = update (update s.chars toq (s.chars toq ++ s.chars fromq)) fromq []

/-- The calls that do not meet a defect. -/
def Allowed (s : State ι) : Call ι → Prop
  | .putc c i => quotes c = true ∨ Clear s.mem (s.q i) 1
  | .b_to_q cs i => Clear s.mem (s.q i) cs.length
  | .nextc i cp => ∀ k a, ((s.q i).addresses s.mem)[k]? = some cp →
      ((s.q i).addresses s.mem)[k + 1]? = some a → (s.mem.byte a).msb = false
  | .unputc i => ∀ x, (s.chars i).getLast? = some x → x.1.msb = false
  | .catq fromq toq => s.chars toq = [] ∨ fromq ≠ toq ∧ Fits s fromq toq
  | _ => True

section Calls

variable (h : Shared blocks s bs free)
include h

omit [DecidableEq ι] in
theorem Shared.chars (i : ι) : s.chars i = content s.mem ((s.q i).places (bs i)) := (h.loc i).chars

theorem Shared.one (hstep : Step s.mem (bs i) free m' q' bs' free')
    {r : Result} {l : List (Char8 × Bool)} (hcall : call nclist s e = some (r, s.set i (m', q')))
    (hl : content m' (q'.places bs') = l)
    (hacts : (s.set i (m', q')).chars = update s.chars i l →
      ((s.set i (m', q')).mem.cfreelist = none ↔ free' = []) → Acts s e r (s.set i (m', q'))) :
    ∃ r s' bs' free', call nclist s e = some (r, s') ∧ Shared blocks s' bs' free' ∧ Acts s e r s' := by
  obtain ⟨hshared, hchars⟩ := h.step hstep
  rw [hl] at hchars
  exact ⟨r, _, _, _, hcall, hshared, hacts hchars (hshared.cfreelist i)⟩

theorem Shared.getc (i : ι) :
    ∃ r s' bs' free', call nclist s (.getc i) = some (r, s') ∧ Shared blocks s' bs' free' ∧
      Acts s (.getc i) r s' := by
  obtain ⟨c, m', q', bs', free', hget, hstep, hcontent⟩ := (h.loc i).getc
  rw [← h.chars] at hcontent
  have hcall : call nclist s (.getc i) = some (.char c, s.set i (m', q')) := by
    rw [call, hget]
  generalize hx : s.chars i = w at hcontent
  cases w with
  | nil =>
    obtain ⟨rfl, hempty⟩ := hcontent
    apply h.one hstep hcall hempty
    intro hchars _
    simp only [Acts, hx]
    refine ⟨trivial, ?_⟩
    rw [hchars, ← hx, update_eq_self]
  | cons x xs =>
    obtain ⟨rfl, hrest⟩ := hcontent
    apply h.one hstep hcall hrest
    intro hchars _
    simp only [Acts, hx]
    exact ⟨trivial, hchars⟩

theorem Shared.q_to_b (i : ι) (cc : ℤ) :
    ∃ r s' bs' free', call nclist s (.q_to_b i cc) = some (r, s') ∧ Shared blocks s' bs' free' ∧
      Acts s (.q_to_b i cc) r s' := by
  obtain ⟨m', q', bs', free', hrun, hstep, hcontent⟩ := (h.loc i).q_to_b cc
  rw [← h.chars] at hrun hcontent
  apply h.one hstep _ hcontent
  · exact fun hchars _ => ⟨rfl, hchars⟩
  · rw [call, hrun]
    rfl

theorem Shared.ndflush (i : ι) (cc : ℤ) :
    ∃ r s' bs' free', call nclist s (.ndflush i cc) = some (r, s') ∧ Shared blocks s' bs' free' ∧
      Acts s (.ndflush i cc) r s' := by
  obtain ⟨m', q', bs', free', hrun, hstep, hcontent⟩ := (h.loc i).ndflush cc
  rw [← h.chars] at hcontent
  apply h.one hstep _ hcontent
  · exact fun hchars _ => ⟨rfl, hchars⟩
  · rw [call, hrun]
    rfl

theorem Shared.ndqb (i : ι) (flag : Bool) :
    ∃ r s' bs' free', call nclist s (.ndqb i flag) = some (r, s') ∧ Shared blocks s' bs' free' ∧
      Acts s (.ndqb i flag) r s' := by
  obtain ⟨k, htake, hpos, hcount⟩ := (h.loc i).ndqb flag
  refine ⟨_, s, bs, free, rfl, h, rfl, k, htake, hpos, ?_⟩
  rw [hcount]
  rfl

theorem Shared.nextc {cp : ℕ} (hok : Allowed s (.nextc i cp)) :
    ∃ r s' bs' free', call nclist s (.nextc i cp) = some (r, s') ∧ Shared blocks s' bs' free' ∧
      Acts s (.nextc i cp) r s' := by
  refine ⟨_, s, bs, free, rfl, h, rfl, ?_⟩
  intro k hk
  rw [(h.loc i).nextc hk]
  congr 1
  apply Option.map_congr
  intro a ha
  rw [(unmasked_eq_iff s.mem a).mpr (hok k a hk ha)]

theorem Shared.unputc (hnclist : blocks.length ≤ nclist) (hok : Allowed s (.unputc i)) :
    ∃ r s' bs' free', call nclist s (.unputc i) = some (r, s') ∧ Shared blocks s' bs' free' ∧
      Acts s (.unputc i) r s' := by
  obtain ⟨c, m', q', bs', free', hrun, hstep, hcontent⟩ := (h.loc i).unputc ((h.length_le i).trans hnclist)
  rw [← h.chars] at hcontent
  have hcall : call nclist s (.unputc i) = some (.char c, s.set i (m', q')) := by
    rw [call, hrun]
    rfl
  rcases hcontent with ⟨hnil, rfl, hempty⟩ | ⟨a, rfl, hlast⟩
  · apply h.one hstep hcall hempty
    intro hchars _
    simp only [Acts, hnil, getLast?_nil]
    refine ⟨trivial, ?_⟩
    rw [hchars, ← hnil, update_eq_self]
  · apply h.one hstep hcall rfl
    intro hchars _
    have hsome : (s.chars i).getLast? = some (s.mem.byte a, isquote s.mem a) := by
      rw [hlast, getLast?_concat]
    simp only [Acts, hsome]
    have hmsb : (s.mem.byte a).msb = false := hok (s.mem.byte a, isquote s.mem a) hsome
    rw [(unmasked_eq_iff s.mem a).mpr hmsb, hchars, hlast, dropLast_concat]
    exact ⟨rfl, rfl⟩

theorem Shared.putc {c : BitVec 64} (hok : Allowed s (.putc c i)) :
    ∃ r s' bs' free', call nclist s (.putc c i) = some (r, s') ∧ Shared blocks s' bs' free' ∧
      Acts s (.putc c i) r s' := by
  rcases (h.loc i).putc c hok with ⟨hspare, hfree, hput⟩ | ⟨m', q', bs', free', hput, hstep, hcontent, -⟩
  · apply h.one (Step.refl (h.loc i)) _ (h.chars i).symm
    · intro hchars _
      refine .inr ⟨rfl, (h.cfreelist i).mpr hfree, hspare, ?_⟩
      rw [hchars, update_eq_self]
    · rw [call, hput]
  · rw [← h.chars] at hcontent
    apply h.one hstep _ hcontent
    · exact fun hchars _ => .inl ⟨rfl, hchars⟩
    · rw [call, hput]

theorem Shared.b_to_q {cs : List Char8} (hok : Allowed s (.b_to_q cs i)) :
    ∃ r s' bs' free', call nclist s (.b_to_q cs i) = some (r, s') ∧ Shared blocks s' bs' free' ∧
      Acts s (.b_to_q cs i) r s' := by
  obtain ⟨rest, m', q', bs', free', hrun, hmoved⟩ := (h.loc i).b_to_q hok
  obtain ⟨moved, hall, hcontent⟩ := hmoved.all
  rw [← h.chars] at hcontent
  apply h.one hmoved.step _ hcontent
  · exact fun hchars hnone => ⟨moved, rest, hall, rfl, hchars, hmoved.stuck.imp_right hnone.mpr⟩
  · rw [call, hrun]
    rfl

theorem Shared.catq_empty (fromq : ι) (hto : s.chars toq = []) :
    ∃ s' bs' free', catq fromq toq s = some s' ∧ Shared blocks s' bs' free' ∧
      s'.chars = update (update s.chars toq (s.chars toq ++ s.chars fromq)) fromq [] := by
  have hcc : (s.q toq).c_cc = 0 := by
    have hlen := (h.loc toq).chars_length
    rw [State.chars] at hto
    rw [hlen, hto]
    rfl
  have hempty : s.q toq = Clist.empty := ((h.loc toq).empty (Int.le_of_eq hcc)).2
  have hq : update (update s.q toq (s.q fromq)) fromq Clist.empty =
      s.q ∘ Equiv.swap fromq toq := by
    funext i
    rw [Function.comp_apply]
    by_cases hi : i = fromq
    · rw [hi, update_self, Equiv.swap_apply_left, hempty]
    · rw [update_of_ne hi]
      by_cases hi' : i = toq
      · rw [hi', update_self, Equiv.swap_apply_right]
      · rw [update_of_ne hi', Equiv.swap_apply_of_ne_of_ne hi hi']
  refine ⟨_, _, free, ?_, h.swap fromq toq, ?_⟩
  · rw [catq, if_pos hcc, hq]
  · funext i
    rw [hto, nil_append]
    change s.chars (Equiv.swap fromq toq i) = _
    by_cases hi : i = fromq
    · rw [hi, update_self, Equiv.swap_apply_left, hto]
    · rw [update_of_ne hi]
      by_cases hi' : i = toq
      · rw [hi', update_self, Equiv.swap_apply_right]
      · rw [update_of_ne hi', Equiv.swap_apply_of_ne_of_ne hi hi']

theorem Shared.catq (hok : Allowed s (.catq fromq toq)) :
    ∃ r s' bs' free', call nclist s (.catq fromq toq) = some (r, s') ∧ Shared blocks s' bs' free' ∧
      Acts s (.catq fromq toq) r s' := by
  have hrun : ∃ s' bs' free', Clists.catq fromq toq s = some s' ∧ Shared blocks s' bs' free' ∧
      s'.chars = update (update s.chars toq (s.chars toq ++ s.chars fromq)) fromq [] := by
    by_cases hto : s.chars toq = []
    · exact h.catq_empty fromq hto
    · obtain ⟨hne, hfits⟩ := hok.resolve_left hto
      have hlen := (h.loc toq).chars_length
      have hcc : ¬(s.q toq).c_cc = 0 := by
        have := length_pos_of_ne_nil hto
        rw [State.chars] at this
        omega
      have hfuel : (s.chars fromq).length < (s.q fromq).c_cc.toNat + 1 := by
        rw [(h.loc fromq).chars_length, State.chars]
        omega
      rw [Clists.catq, if_neg hcc]
      exact hfits.loop h hne hfuel
  obtain ⟨s', bs', free', hcatq, hshared, hchars⟩ := hrun
  refine ⟨.void, s', bs', free', ?_, hshared, rfl, hchars⟩
  rw [call, hcatq]
  rfl

theorem Shared.call (hnclist : blocks.length ≤ nclist) (hok : Allowed s e) :
    ∃ r s' bs' free', Clists.call nclist s e = some (r, s') ∧ Shared blocks s' bs' free' ∧
      Acts s e r s' := by
  cases e with
  | getc i => exact h.getc i
  | q_to_b i cc => exact h.q_to_b i cc
  | ndqb i flag => exact h.ndqb i flag
  | ndflush i cc => exact h.ndflush i cc
  | putc c i => exact h.putc hok
  | b_to_q cs i => exact h.b_to_q hok
  | nextc i cp => exact h.nextc hok
  | unputc i => exact h.unputc hnclist hok
  | catq fromq toq => exact h.catq hok

end Calls

theorem cblocks_length (cfree nclist : ℕ) : (cblocks cfree nclist).length ≤ nclist := by
  rw [cblocks, length_map, length_range]
  unfold blockCount firstBlock
  omega

/-- In every run whose calls are allowed, each block is free or in one clist, and a call that is allowed acts
on the sequences of characters. -/
theorem clists_act {cfree nclist : ℕ} (hcfree : 0 < cfree)
    (hs : ((system ι cfree nclist).restrict Allowed).Reachable s) :
    (∃ bs free, Shared (cblocks cfree nclist) s bs free) ∧ (∀ i, (s.q i).c_cc = (s.chars i).length) ∧
      ∀ e, Allowed s e → ∃ r s', call nclist s e = some (r, s') ∧ Acts s e r s' := by
  have hshared : ∃ bs free, Shared (cblocks cfree nclist) s bs free := by
    refine hs.invariant (I := fun s => ∃ bs free, Shared (cblocks cfree nclist) s bs free) ?_ ?_
    · rintro s rfl
      obtain ⟨free, hfree⟩ := shared_cinit ι hcfree nclist
      exact ⟨_, free, hfree⟩
    · rintro s e t - ⟨bs, free, h⟩ ⟨hok, hstep⟩
      obtain ⟨r, s', bs', free', hcall, hnew, -⟩ := h.call (cblocks_length cfree nclist) hok
      have heq : some s' = some t := by
        change (call nclist s e).map Prod.snd = some t at hstep
        rw [hcall] at hstep
        exact hstep
      exact ⟨bs', free', Option.some_inj.mp heq ▸ hnew⟩
  refine ⟨hshared, ?_, ?_⟩
  · obtain ⟨bs, free, h⟩ := hshared
    exact fun i => (h.loc i).chars_length
  · intro e hok
    obtain ⟨bs, free, h⟩ := hshared
    obtain ⟨r, s', -, -, hcall, -, hacts⟩ := h.call (cblocks_length cfree nclist) hok
    exact ⟨r, s', hcall, hacts⟩

/-- Two characters are put, the second one with a quote, and this one is taken back. -/
theorem clists_act_takenBack :
    ∃ s : State Bool, s.chars true = [(0x61, false)] ∧
      ((∃ bs free, Shared (cblocks 64 4) s bs free) ∧ (∀ i, (s.q i).c_cc = (s.chars i).length) ∧
        ∀ e, Allowed s e → ∃ r s', call 4 s e = some (r, s') ∧ Acts s e r s') := by
  have hfirst : ((system Bool 64 4).restrict Allowed).Reachable _ :=
    .step (i := .putc 0x61 true) (.init rfl) ⟨.inr (fun _ _ hk => absurd hk (Nat.not_lt_zero _)), rfl⟩
  have hsecond : ((system Bool 64 4).restrict Allowed).Reachable _ :=
    .step (i := .putc 0x162 true) hfirst ⟨.inl rfl, rfl⟩
  have hthird : ((system Bool 64 4).restrict Allowed).Reachable _ :=
    .step (i := .unputc true) hsecond ⟨by
      intro x hx
      cases hx
      rfl, rfl⟩
  exact ⟨_, rfl, clists_act (by decide) hthird⟩

/-- A character that is put without a quote is reported as quoted, where a quoted one has been taken back. -/
theorem quote_left :
    ¬∀ s : State Bool, (system Bool 64 4).Reachable s →
      ∀ e, ∃ r s', call 4 s e = some (r, s') ∧ Acts s e r s' := by
  intro hall
  have hfirst : (system Bool 64 4).Reachable _ := .step (i := .putc 0x61 true) (.init rfl) rfl
  have hsecond : (system Bool 64 4).Reachable _ := .step (i := .putc 0x162 true) hfirst rfl
  have hthird : (system Bool 64 4).Reachable _ := .step (i := .unputc true) hsecond rfl
  obtain ⟨r, s', hcall, hacts⟩ := hall _ hthird (.putc 0x62 true)
  cases hcall
  rcases hacts with ⟨-, hchars⟩ | ⟨hstatus, -⟩
  · have hdiffer := congrFun hchars true
    exact absurd hdiffer (by decide)
  · cases hstatus

end Queues

end Osf1.Clists
