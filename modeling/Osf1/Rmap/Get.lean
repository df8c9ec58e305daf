import Osf1.Rmap.Model

/-!
# Units from a given address on

`rmget` takes the units that it is asked for out of the entry that the first of them is in, or
takes nothing.  The end of the units is computed without a check: if it is no word, it seems to
be in front of the end of the entry.
-/

set_option autoImplicit false

namespace Osf1.Rmap

open Function List

open Osf1.Computation

variable {m m' : Map} {l l' l₁ l₂ : List MapEnt} {e : MapEnt} {size addr : Int64}

/-- What `rmget` is for: the units that are asked for are taken, or none are. -/
def Takes (m : Map) (size addr : Int64) (m' : Map) (v : Int64) : Prop :=
  (range size addr ⊆ m.free ∧ v = addr ∧ v ≠ 0 ∧ m'.free = m.free \ range size addr) ∨ (v = 0 ∧ m'.free = m.free)

def RmgetOk (m : Map) (size addr : Int64) : Prop :=
  if size ≤ 0 then rmget m size addr = some .panic
  else ∃ m' v, rmget m size addr = some (.returns m' v) ∧ Shape m' ∧ Untouched m m' ∧ Takes m size addr m' v

/-- The end of the units that are asked for is a word; or the start is in no entry, or within
one that there is no slot to split. -/
def RmgetFits (m : Map) (size addr : Int64) : Prop :=
  size ≤ 0 ∨ addr.toInt + size.toInt < 2 ^ 63 ∨
    ∀ i < m.slots, addr.toInt ∈ range (m.ent i).mSize (m.ent i).mAddr → (m.ent i).mAddr ≠ addr ∧ Full m

/-- What `rmget` does with the entry that the first unit is in. -/
def getFrom (m : Map) (size addr : Int64) (bp bp2 : ℕ) (e : MapEnt) : Option Outcome :=
  if e.mAddr + e.mSize < addr + size then some (.returns m 0)
  else if e.mAddr = addr then
    if e.mAddr + e.mSize = addr + size then
      (closeUp m.slots bp m.ent).map fun ent => .returns { m with ent := ent } addr
    else some (.returns (m.set bp ⟨e.mSize - size, e.mAddr + size⟩) addr)
  else if e.mAddr + e.mSize = addr + size then
    some (.returns (m.setSize bp (e.mSize - size)) addr)
  else if m.at (bp2 + 1) ≥ m.mLimit then some (.returns m 0)
  else
    some (.returns ((({ m with ent := spread bp (bp2 - bp) m.ent } : Map).set (bp + 1)
      ⟨e.mAddr + e.mSize - (addr + size), addr + size⟩).setSize bp (addr - e.mAddr)) addr)

theorem rmget_cases (h : Table m l) (hsize : ¬size ≤ 0) (addr : Int64) :
    ((∀ e ∈ l, addr.toInt ∉ range e.mSize e.mAddr) ∧ rmget m size addr = some (.returns m 0)) ∨
      ∃ l₁ e l₂, l = l₁ ++ e :: l₂ ∧ addr.toInt ∈ range e.mSize e.mAddr ∧
        rmget m size addr = getFrom m size addr l₁.length (l₁.length + 1 + l₂.length) e := by
  have hstop {e : MapEnt} (he : e ∈ l) :
      (decide (e.mAddr ≤ addr) && decide (e.mAddr + e.mSize > addr)) = true ↔
        addr.toInt ∈ range e.mSize e.mAddr := by
    rw [Bool.and_eq_true, decide_eq_true_iff, decide_eq_true_iff, Int64.le_iff_toInt_le,
      gt_iff_lt, Int64.lt_iff_toInt_lt, h.end_toInt he]
    exact Iff.rfl
  obtain ⟨l₁, l₂, rfl, hscan, hpassed, hhead⟩ :=
    scan_end (fun e => decide (e.mAddr ≤ addr) && decide (e.mAddr + e.mSize > addr)) h.row
      h.size_ne h.end_zero h.room
  unfold rmget
  rw [if_neg hsize, hscan, Option.bind_some, Nat.zero_add]
  cases l₂ with
  | nil =>
    left
    rw [append_nil] at h hstop ⊢
    refine ⟨fun e he hmem => ?_, if_pos (h.rest l₁.length le_rfl h.room)⟩
    exact absurd ((hstop he).mpr hmem) (Bool.eq_false_iff.mp (hpassed e he))
  | cons e l₂ =>
    right
    have he : e ∈ l₁ ++ e :: l₂ := mem_append_right _ (mem_cons_self ..)
    obtain ⟨hent, -, hbehind, hend, hroom⟩ := h.split
    refine ⟨l₁, e, l₂, rfl, (hstop he).mp (hhead e rfl), ?_⟩
    -- the walk for the end of the ranges
    have hrow : Row m.ent l₁.length (e :: l₂) := ⟨hent, hbehind⟩
    have hend' : (m.ent (l₁.length + (e :: l₂).length)).mSize = 0 := by
      rw [length_cons, Nat.add_comm l₂.length, ← Nat.add_assoc]
      exact hend
    have hfuel : (e :: l₂).length < m.slots := by
      rw [length_cons]
      omega
    obtain ⟨l₃, l₄, hsplit, hscan', -, hhead'⟩ := scan_end (fun _ => false) hrow
      (fun x hx => h.size_ne x (mem_append_right _ hx)) hend' hfuel
    have hscan : scan m.ent (fun _ => false) m.slots l₁.length =
        some (l₁.length + 1 + l₂.length) := by
      cases l₄ with
      | nil =>
        rw [append_nil] at hsplit
        rw [hscan', ← hsplit, length_cons, Nat.add_comm l₂.length, ← Nat.add_assoc]
      | cons x l₄ => exact absurd (hhead' x rfl) Bool.false_ne_true
    rw [hent, hscan]
    unfold getFrom
    simp only [if_neg (h.size_ne e he), Option.bind_some]

theorem Table.divide (h : Table m (l₁ ++ e :: l₂)) (hroom : l₁.length + 1 + l₂.length + 1 < m.slots)
    {e₁ e₂ : MapEnt} (hfits₁ : e₁.Fits) (hfits₂ : e₂.Fits)
    (hapart : Apart ((l₁ ++ [e₁, e₂] ++ l₂).map MapEnt.extent)) {ent' : ℕ → MapEnt}
    (hent' : ent' = update (update
      (spread l₁.length (l₂.length + 1) m.ent) (l₁.length + 1) e₂) l₁.length e₁) :
    Table { m with ent := ent' } (l₁ ++ [e₁, e₂] ++ l₂) ∧ Untouched m { m with ent := ent' } := by
  obtain ⟨-, hfront, hbehind, hend, -⟩ := h.split
  have hother {j : ℕ} (hj : j ≠ l₁.length) (hj' : j ≠ l₁.length + 1) :
      ent' j = if l₁.length + 2 ≤ j ∧ j ≤ l₁.length + (l₂.length + 1) + 1 then m.ent (j - 1)
        else m.ent j := by
    rw [hent', update_of_ne hj, update_of_ne hj', spread_apply]
  have hu : Untouched m { m with ent := ent' } :=
    untouched_of_ent fun i hi => by rw [hother (by omega) (by omega), if_neg (by omega)]
  refine ⟨h.rebuild hu ?_ ?_ (fun i hi hlt => ?_) (fun x hx => ?_) hapart, hu⟩
  · refine row_append.mpr ⟨row_append.mpr ⟨hfront.congr fun j _ hj => ?_, ?_, ?_, trivial⟩, ?_⟩
    · simp only
      rw [hother (by omega) (by omega), if_neg (by omega)]
    · simp only
      rw [hent', Nat.zero_add, update_self]
    · simp only
      rw [hent', Nat.zero_add, update_of_ne (Nat.succ_ne_self _), update_self]
    · apply hbehind.shift
      intro j hj
      have hlen : 0 + (l₁ ++ [e₁, e₂]).length + j = l₁.length + 1 + j + 1 := by
        simp only [length_append, length_cons, length_nil]
        omega
      rw [hlen]
      simp only
      rw [hother (by omega) (by omega), if_pos (by omega)]
      rfl
  · simp only [length_append, length_cons, length_nil]
    omega
  · simp only [length_append, length_cons, length_nil] at hi
    simp only
    rw [hother (by omega) (by omega)]
    split
    · have hlast : i - 1 = l₁.length + 1 + l₂.length := by omega
      rw [hlast]
      exact hend
    · have hold := h.rest i
      simp only [length_append, length_cons] at hold
      exact hold (by omega) hlt
  · have hold := h.fits x
    simp only [mem_append, mem_cons, not_mem_nil, or_false] at hx hold
    rcases hx with hx | hx
    · rcases hx with hx | heq | heq
      · exact hold (.inl hx)
      · exact heq ▸ hfits₁
      · exact heq ▸ hfits₂
    · exact hold (.inr (.inr hx))

theorem rmget_ok (h : Table m l) (hsize : ¬size ≤ 0) (hword : addr.toInt + size.toInt < 2 ^ 63) :
    ∃ m' v, rmget m size addr = some (.returns m' v) ∧ Shape m' ∧ Untouched m m' ∧
      Takes m size addr m' v := by
  have hpos : 0 < size.toInt := by
    rw [Int64.not_le, Int64.lt_iff_toInt_lt] at hsize
    exact hsize
  have hnothing : Shape m ∧ Untouched m m ∧ Takes m size addr m 0 := ⟨⟨l, h⟩, .refl m, .inr ⟨rfl, rfl⟩⟩
  rcases rmget_cases h hsize addr with hnone | ⟨l₁, e, l₂, rfl, hmem, hget⟩
  · exact ⟨m, 0, hnone.2, hnothing⟩
  · have he : e ∈ l₁ ++ e :: l₂ := mem_append_right _ (mem_cons_self ..)
    obtain ⟨hent, hfront, hbehind, hend, hroom⟩ := h.split
    have haddr := (h.fits e he).addr
    have hstop := (h.fits e he).stop
    have heend := h.end_toInt he
    have hfrom : e.mAddr.toInt ≤ addr.toInt := hmem.1
    have hadd : (addr + size).toInt = addr.toInt + size.toInt := toInt_add_of_range (by omega) hword
    have hne : addr ≠ 0 := by
      intro h0
      rw [h0] at hfrom
      have h0 : (0 : Int64).toInt = 0 := rfl
      omega
    rw [hget]
    unfold getFrom
    split
    · exact ⟨m, 0, rfl, hnothing⟩
    rename_i hin
    rw [Int64.lt_iff_toInt_lt, heend, hadd] at hin
    have hsub : range size addr ⊆ range e.mSize e.mAddr := Set.Ico_subset_Ico hfrom (by omega)
    have hfree : range size addr ⊆ m.free := by
      rw [h.free_eq]
      intro x hx
      exact ⟨e.extent, mem_map_of_mem he, hsub hx⟩
    have htaken {m' : Map} {q : List MapEnt} (hm' : Table m' (l₁ ++ q ++ l₂) ∧ Untouched m m')
        (hq : units (q.map MapEnt.extent) = range e.mSize e.mAddr \ range size addr) :
        Shape m' ∧ Untouched m m' ∧ Takes m size addr m' addr :=
      ⟨⟨_, hm'.1⟩, hm'.2, .inl ⟨hfree, rfl, hne, h.free_remove hm'.1 hsub hq⟩⟩
    have hone {e' : MapEnt} (hm' : Table (m.set l₁.length e') (l₁ ++ e' :: l₂) ∧ Untouched m (m.set l₁.length e'))
        (hq : range e'.mSize e'.mAddr = range e.mSize e.mAddr \ range size addr) :
        Shape (m.set l₁.length e') ∧ Untouched m (m.set l₁.length e') ∧
          Takes m size addr (m.set l₁.length e') addr := by
      rw [← singleton_append, ← append_assoc] at hm'
      apply htaken hm'
      rw [map_singleton, units_cons, units_nil, Set.union_empty]
      exact hq
    split
    · rename_i hstart
      have hstart : e.mAddr.toInt = addr.toInt := congrArg Int64.toInt hstart
      split
      · -- the whole entry
        rename_i hall
        have hall := congrArg Int64.toInt hall
        rw [heend, hadd] at hall
        have hrow : Row m.ent l₁.length (e :: l₂) := ⟨hent, hbehind⟩
        have hfuel : l₂.length + 1 < m.slots := by omega
        obtain ⟨ent', hclose, hrow', hend', hframe⟩ :=
          closeUp_entry hrow (fun x hx => h.size_ne x (mem_append_right _ hx)) hend hfuel
        rw [hclose]
        have htable := h.close hrow' hend' hframe
        rw [← append_nil l₁] at htable
        refine ⟨_, addr, rfl, htaken htable ?_⟩
        have hsame : range size addr = range e.mSize e.mAddr := by
          unfold range
          rw [hstart, ← hall, hstart]
        rw [hsame, map_nil, units_nil, Set.sdiff_self]
      · -- its first part
        rename_i hless
        have hless : e.mAddr.toInt + e.mSize.toInt ≠ addr.toInt + size.toInt := by
          rw [← heend, ← hadd]
          exact fun heq => hless (Int64.toInt_inj.mp heq)
        have hs : (e.mSize - size).toInt = e.mSize.toInt - size.toInt := toInt_sub_of_range (by omega) (by omega)
        have ha : (e.mAddr + size).toInt = e.mAddr.toInt + size.toInt := toInt_add_of_range (by omega) (by omega)
        have hpart : 0 < (MapEnt.mk (e.mSize - size) (e.mAddr + size)).mSize.toInt := by
          simp only
          omega
        refine ⟨_, addr, rfl, hone (h.part hpart (by simp only; omega) (by simp only; omega)) ?_⟩
        unfold range
        ext x
        simp only [Set.mem_Ico, Set.mem_sdiff]
        omega
    rename_i hstart
    have hstart : e.mAddr.toInt ≠ addr.toInt := fun heq => hstart (Int64.toInt_inj.mp heq)
    split
    · -- its last part
      rename_i hlast
      have hlast := congrArg Int64.toInt hlast
      have hs : (e.mSize - size).toInt = e.mSize.toInt - size.toInt := toInt_sub_of_range (by omega) (by omega)
      have hpart : 0 < (MapEnt.mk (e.mSize - size) e.mAddr).mSize.toInt := by
        simp only
        omega
      unfold Map.setSize
      rw [hent]
      refine ⟨_, addr, rfl, hone (h.part hpart le_rfl (by simp only; omega)) ?_⟩
      unfold range
      ext x
      simp only [Set.mem_Ico, Set.mem_sdiff]
      omega
    rename_i hlast
    have hlast : e.mAddr.toInt + e.mSize.toInt ≠ addr.toInt + size.toInt := by
      rw [← heend, ← hadd]
      exact fun heq => hlast (Int64.toInt_inj.mp heq)
    split
    · exact ⟨m, 0, rfl, hnothing⟩
    -- from its middle
    rename_i hslot
    rw [h.at_ge, Nat.not_le] at hslot
    have hs₁ : (addr - e.mAddr).toInt = addr.toInt - e.mAddr.toInt := toInt_sub_of_range (by omega) (by omega)
    have hs₂ : (e.mAddr + e.mSize - (addr + size)).toInt =
        e.mAddr.toInt + e.mSize.toInt - (addr.toInt + size.toInt) := by
      rw [← heend, ← hadd]
      exact toInt_sub_of_range (by omega) (by omega)
    have hn : l₁.length + 1 + l₂.length - l₁.length = l₂.length + 1 := by omega
    have hapart := h.apart
    rw [map_append, map_cons] at hapart
    have htwo : Apart ([⟨addr - e.mAddr, e.mAddr⟩,
        ⟨e.mAddr + e.mSize - (addr + size), addr + size⟩].map MapEnt.extent) := by
      refine apart_cons.mpr ⟨?_, fun b hb => ?_, apart_singleton ?_⟩
      · simp only [MapEnt.extent]
        omega
      · obtain rfl := mem_singleton.mp hb
        simp only [MapEnt.extent]
        omega
      · simp only [MapEnt.extent]
        omega
    have hbounds : ∀ x ∈ ([⟨addr - e.mAddr, e.mAddr⟩,
        ⟨e.mAddr + e.mSize - (addr + size), addr + size⟩] : List MapEnt).map MapEnt.extent,
        e.extent.1 ≤ x.1 ∧ x.2 ≤ e.extent.2 := by
      intro x hx
      simp only [map_cons, map_nil, mem_cons, not_mem_nil, or_false] at hx
      simp only [MapEnt.extent] at hx ⊢
      rcases hx with heq | heq
      · rw [heq]
        omega
      · rw [heq]
        omega
    have hparts := hapart.replace htwo hbounds
    rw [← map_append, ← map_append] at hparts
    have hmiddle : (update (spread l₁.length (l₂.length + 1) m.ent) (l₁.length + 1)
        ⟨e.mAddr + e.mSize - (addr + size), addr + size⟩) l₁.length = e := by
      rw [update_of_ne (Nat.succ_ne_self _).symm, spread_apply, if_neg (by omega), hent]
    have htable := h.divide (by omega) ⟨by simp only; omega, by simp only; omega⟩
      ⟨by simp only; omega, by simp only; omega⟩ hparts rfl
    rw [hn]
    unfold Map.setSize Map.set
    simp only
    rw [hmiddle]
    refine ⟨_, addr, rfl, htaken htable ?_⟩
    simp only [map_cons, map_nil]
    rw [units_cons, units_cons, units_nil, Set.union_empty]
    unfold range MapEnt.extent
    ext x
    simp only [Set.mem_Ico, Set.mem_sdiff, Set.mem_union]
    omega

theorem Shape.addr_pos (h : Shape m) {i : ℕ} (hi : i < m.slots) (hsize : (m.ent i).mSize ≠ 0) :
    0 < (m.ent i).mAddr.toInt := by
  obtain ⟨l, h⟩ := h
  by_cases hlen : i < l.length
  · rw [h.ent_eq hlen]
    exact (h.fits _ (getElem_mem hlen)).addr
  · exact absurd (h.rest i (Nat.le_of_not_lt hlen) hi) hsize

theorem rmget_overflows (h : Table m l) (hsize : ¬size ≤ 0) (hword : ¬addr.toInt + size.toInt < 2 ^ 63) :
    (∃ m' v, rmget m size addr = some (.returns m' v) ∧ Shape m' ∧ Untouched m m' ∧ Takes m size addr m' v) ↔
    ∀ i < m.slots, addr.toInt ∈ range (m.ent i).mSize (m.ent i).mAddr →
      (m.ent i).mAddr ≠ addr ∧ Full m := by
  have hpos : 0 < size.toInt := by
    rw [Int64.not_le, Int64.lt_iff_toInt_lt] at hsize
    exact hsize
  have hsizemax := Int64.toInt_lt size
  have hnothing : Shape m ∧ Untouched m m ∧ Takes m size addr m 0 := ⟨⟨l, h⟩, .refl m, .inr ⟨rfl, rfl⟩⟩
  rcases rmget_cases h hsize addr with hnone | ⟨l₁, e, l₂, rfl, hmem, hget⟩
  · refine ⟨fun _ i hi hmem => ?_, fun _ => ⟨m, 0, hnone.2, hnothing⟩⟩
    by_cases hlen : i < l.length
    · rw [h.ent_eq hlen] at hmem
      exact absurd hmem (hnone.1 _ (getElem_mem hlen))
    · unfold range at hmem
      rw [h.rest i (Nat.le_of_not_lt hlen) hi] at hmem
      simp at hmem
  · have he : e ∈ l₁ ++ e :: l₂ := mem_append_right _ (mem_cons_self ..)
    obtain ⟨hent, hfront, hbehind, hend, hroom⟩ := h.split
    have hstop := (h.fits e he).stop
    have heend := h.end_toInt he
    have hto : addr.toInt < e.mAddr.toInt + e.mSize.toInt := hmem.2
    -- the end wraps round, so that it seems to be in front of the end of the entry
    have hadd : (addr + size).toInt = addr.toInt + size.toInt - 2 ^ 64 := by
      rw [Int64.toInt_add, ← Int.sub_bmod_right]
      apply Int.bmod_eq_of_le_mul_two
      · omega
      · omega
    have hnless : ¬e.mAddr + e.mSize < addr + size := by
      rw [Int64.lt_iff_toInt_lt, heend, hadd]
      omega
    have hnlast : ¬e.mAddr + e.mSize = addr + size := by
      intro heq
      have heq := congrArg Int64.toInt heq
      omega
    have hapart := h.apart
    rw [map_append, map_cons] at hapart
    rw [hget]
    unfold getFrom
    rw [if_neg hnless]
    split
    · -- the entry gets an address below zero
      rename_i hstart
      constructor
      · rintro ⟨m', v, heq, hshape, hu, -⟩
        cases heq
        have hself : (m.set l₁.length ⟨e.mSize - size, e.mAddr + size⟩).ent l₁.length =
            ⟨e.mSize - size, e.mAddr + size⟩ := update_self ..
        have hslots : l₁.length < (m.set l₁.length ⟨e.mSize - size, e.mAddr + size⟩).slots := by
          rw [hu.slots]
          omega
        have hne : e.mSize - size ≠ 0 := by
          intro h0
          rw [Int64.sub_eq_iff_eq_add, Int64.zero_add] at h0
          exact hnlast (by rw [hstart, h0])
        have hbad := hshape.addr_pos hslots (by rw [hself]; exact hne)
        rw [hself, hstart] at hbad
        simp only at hbad
        omega
      · intro hall
        exact absurd hstart (hent ▸ (hall l₁.length (by omega) (hent ▸ hmem)).1)
    · rename_i hstart
      split
      · -- there is no slot, so that nothing is taken
        rename_i hslot
        rw [h.at_ge] at hslot
        refine ⟨fun _ i hi hin => ⟨?_, ?_⟩, fun _ => ⟨m, 0, rfl, hnothing⟩⟩
        · by_cases hlen : i < (l₁ ++ e :: l₂).length
          · rw [h.ent_eq hlen] at hin ⊢
            have hx := getElem_mem hlen
            generalize (l₁ ++ e :: l₂)[i] = x at hin hx
            obtain ⟨hout₁, hout₂⟩ := hapart.notMem hmem
            simp only [mem_append, mem_cons] at hx
            rcases hx with hx | heq | hx
            · exact absurd ⟨x.extent, mem_map_of_mem hx, hin⟩ hout₁
            · exact heq ▸ hstart
            · exact absurd ⟨x.extent, mem_map_of_mem hx, hin⟩ hout₂
          · unfold range at hin
            rw [h.rest i (Nat.le_of_not_lt hlen) hi] at hin
            simp at hin
        · rw [h.full_iff]
          simp only [length_append, length_cons]
          omega
      · -- the second part gets an address below zero
        rename_i hslot
        rw [h.at_ge, Nat.not_le] at hslot
        constructor
        · rintro ⟨m', v, heq, hshape, hu, -⟩
          cases heq
          have hsecond (u : Map) (x : MapEnt) (y : Int64) :
              ((u.set (l₁.length + 1) x).setSize l₁.length y).ent (l₁.length + 1) = x := by
            unfold Map.setSize Map.set
            simp only
            rw [update_of_ne (Nat.succ_ne_self _), update_self]
          have hne : e.mAddr + e.mSize - (addr + size) ≠ 0 := by
            intro h0
            rw [Int64.sub_eq_iff_eq_add, Int64.zero_add] at h0
            exact hnlast h0
          have hbad := hshape.addr_pos (i := l₁.length + 1) (by rw [hu.slots]; omega)
            (by rw [hsecond]; exact hne)
          rw [hsecond] at hbad
          simp only at hbad
          omega
        · intro hall
          have hfull := (hall l₁.length (by omega) (hent ▸ hmem)).2
          rw [h.full_iff] at hfull
          simp only [length_append, length_cons] at hfull
          omega

end Osf1.Rmap
