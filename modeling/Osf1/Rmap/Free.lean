import Osf1.Rmap.Get

/-!
# Units that are given back

`rmfree` joins the units that it is given with the entries that they touch, or makes an entry of
them.  If there is no slot for it, the last but one entry is lost; if there is only one slot, the
header is taken for that entry.
-/

set_option autoImplicit false

namespace Osf1.Rmap

open Function List

open Osf1.Computation

variable {m m' : Map} {l l' l₁ l₂ : List MapEnt} {e : MapEnt} {size addr : Int64} {ent' : ℕ → MapEnt}

/-- What `rmfree` is for: the units are added, and if the table is full one entry goes. -/
def Adds (m : Map) (size addr : Int64) (m' : Map) : Prop :=
  m'.free = m.free ∪ range size addr ∨
    Full m ∧ ∃ e : MapEnt, (e = ⟨size, addr⟩ ∨ ∃ i < m.slots, e = m.ent i) ∧ e.mSize ≠ 0 ∧
      m'.free = (m.free ∪ range size addr) \ range e.mSize e.mAddr

/-- Some of the units are free. -/
def Overlaps (m : Map) (size addr : Int64) : Prop := (range size addr ∩ m.free).Nonempty

/-- The call panics if some of the units are free, and otherwise adds them. -/
def Frees (m : Map) (size addr : Int64) (o : Option Outcome) : Prop :=
  (o = some .panic ∧ Overlaps m size addr) ∨
    (¬Overlaps m size addr ∧ ∃ m', o = some (.returns m' 0) ∧ Shape m' ∧ Untouched m m' ∧ Adds m size addr m')

def RmfreeOk (m : Map) (size addr : Int64) : Prop :=
  if size ≤ 0 then rmfree m size addr = some .panic
  else Frees m size addr (rmfree m size addr)

/-- There is a slot besides the one for the end of the ranges; or what is written to the header
is there already. -/
def RmfreeFits (m : Map) (size addr : Int64) : Prop :=
  size ≤ 0 ∨ 2 ≤ m.slots ∨ (m.mLimit = size.toUInt64.toNat ∧ m.mName = addr.toUInt64.toNat)

/-- The entries in front of a place end before the units, and those behind it begin after
them. -/
structure Between (l₁ l₂ : List MapEnt) (c d : ℤ) : Prop where
  front : ∀ a ∈ l₁, a.mAddr.toInt + a.mSize.toInt < c
  behind : ∀ b ∈ l₂, d < b.mAddr.toInt

theorem Between.apart (hb : Between l₁ l₂ e.mAddr.toInt (e.mAddr.toInt + e.mSize.toInt))
    (h : Apart ((l₁ ++ l₂).map MapEnt.extent)) (hsize : 0 < e.mSize.toInt) :
    Apart ((l₁ ++ e :: l₂).map MapEnt.extent) := by
  rw [map_append, apart_append] at h
  obtain ⟨h₁, h₂, hgaps⟩ := h
  rw [map_append, map_cons, apart_split]
  refine ⟨h₁, h₂, ?_, fun r hr => ?_, fun r hr => ?_, hgaps⟩
  · unfold MapEnt.extent
    omega
  · obtain ⟨a, ha, rfl⟩ := mem_map.mp hr
    exact hb.front a ha
  · obtain ⟨b, hb', rfl⟩ := mem_map.mp hr
    exact hb.behind b hb'

section

variable (h : Table m (l₁ ++ l₂))
include h

theorem Table.insertAt (hroom : (l₁ ++ l₂).length + 1 < m.slots)
    (hfits : e.Fits) (hapart : Apart ((l₁ ++ e :: l₂).map MapEnt.extent)) (hrow : Row ent' l₁.length (e :: l₂))
    (hframe : ∀ j, j < l₁.length ∨ l₁.length + l₂.length < j → ent' j = m.ent j) :
    Table { m with ent := ent' } (l₁ ++ e :: l₂) ∧ Untouched m { m with ent := ent' } := by
  obtain ⟨hfront, -⟩ := row_append.mp h.row
  rw [length_append] at hroom
  have hu : Untouched m { m with ent := ent' } := untouched_of_ent fun i hi => hframe i (by omega)
  refine ⟨h.rebuild hu ?_ ?_ (fun i hi hlt => ?_) (fun x hx => ?_) hapart, hu⟩
  · refine row_append.mpr ⟨hfront.congr fun j _ hj => hframe j (by omega), ?_⟩
    rw [Nat.zero_add]
    exact hrow
  · simp only [length_append, length_cons]
    omega
  · simp only [length_append, length_cons] at hi
    have hold := h.rest i
    rw [length_append] at hold
    exact (congrArg MapEnt.mSize (hframe i (by omega))).trans (hold (by omega) hlt)
  · have hold := h.fits x
    simp only [mem_append, mem_cons] at hx hold
    rcases hx with hx | heq | hx
    · exact hold (.inl hx)
    · exact heq ▸ hfits
    · exact hold (.inr hx)

theorem Table.units_insert (e : MapEnt) :
    units ((l₁ ++ e :: l₂).map MapEnt.extent) = m.free ∪ range e.mSize e.mAddr := by
  rw [h.free_eq]
  simp only [map_append, map_cons]
  rw [units_append, units_append, units_cons]
  ext x
  simp only [Set.mem_union]
  tauto

theorem Table.not_overlaps (hfront : ∀ a ∈ l₁, a.mAddr.toInt + a.mSize.toInt ≤ addr.toInt)
    (hbehind : ∀ b ∈ l₂, addr.toInt + size.toInt ≤ b.mAddr.toInt) : ¬Overlaps m size addr := by
  rintro ⟨x, hx, hfree⟩
  rw [h.free_eq] at hfree
  obtain ⟨r, hr, hxr⟩ := hfree
  obtain ⟨e, he, rfl⟩ := mem_map.mp hr
  have hlow : e.mAddr.toInt ≤ x := hxr.1
  have hhigh : x < e.mAddr.toInt + e.mSize.toInt := hxr.2
  have hx₁ : addr.toInt ≤ x := hx.1
  have hx₂ : x < addr.toInt + size.toInt := hx.2
  rcases mem_append.mp he with he | he
  · have hle := hfront e he
    omega
  · have hle := hbehind e he
    omega

end

theorem Table.overlaps (h : Table m l) (he : e ∈ l) {x : ℤ} (hx : x ∈ range size addr)
    (hxe : x ∈ range e.mSize e.mAddr) : Overlaps m size addr := by
  refine ⟨x, hx, ?_⟩
  rw [h.free_eq]
  exact ⟨e.extent, mem_map_of_mem he, hxe⟩

theorem Table.before (h : Table m (l₁ ++ l₂)) {a b : MapEnt} (ha : a ∈ l₁) (hb : b ∈ l₂) :
    a.mAddr.toInt + a.mSize.toInt < b.mAddr.toInt := by
  have hapart := h.apart
  rw [map_append, apart_append] at hapart
  exact hapart.2.2 a.extent (mem_map_of_mem ha) b.extent (mem_map_of_mem hb)

variable {x y : MapEnt} {x' : MapEnt}

theorem Table.extend (h : Table m (l₁ ++ x :: l₂)) (hfits : x'.Fits) (hsize : 0 < x'.mSize.toInt)
    (hb : Between l₁ l₂ x'.mAddr.toInt (x'.mAddr.toInt + x'.mSize.toInt))
    (hunits : range x'.mSize x'.mAddr = range x.mSize x.mAddr ∪ range size addr) :
    Shape (m.set l₁.length x') ∧ Untouched m (m.set l₁.length x') ∧
      Adds m size addr (m.set l₁.length x') := by
  have hold : Apart ((l₁ ++ l₂).map MapEnt.extent) :=
    h.apart.sublist (((sublist_cons_self x l₂).append_left l₁).map _)
  obtain ⟨htable, hu⟩ := h.change hfits (hb.apart hold hsize)
  refine ⟨⟨_, htable⟩, hu, .inl ?_⟩
  rw [h.free_eq, htable.free_eq]
  simp only [map_append, map_cons]
  rw [units_append, units_append, units_cons, units_cons]
  have hx' : Set.Ico x'.extent.1 x'.extent.2 = Set.Ico x.extent.1 x.extent.2 ∪ range size addr := hunits
  rw [hx']
  ext u
  simp only [Set.mem_union]
  tauto

theorem Table.join (h : Table m (l₁ ++ x :: y :: l₂)) (hfits : x'.Fits) (hsize : 0 < x'.mSize.toInt)
    (hb : Between l₁ l₂ x'.mAddr.toInt (x'.mAddr.toInt + x'.mSize.toInt)) (hunits : range x'.mSize x'.mAddr =
      range x.mSize x.mAddr ∪ range y.mSize y.mAddr ∪ range size addr) :
    ∃ ent', closeUp m.slots (l₁.length + 1) (m.set l₁.length x').ent = some ent' ∧
      Shape { m with ent := ent' } ∧ Untouched m { m with ent := ent' } ∧
      Adds m size addr { m with ent := ent' } := by
  have hsplit : l₁ ++ x :: y :: l₂ = (l₁ ++ [x]) ++ y :: l₂ := by
    rw [append_assoc, singleton_append]
  have h' := h
  rw [hsplit] at h'
  obtain ⟨hent, hfront, hbehind, hend, hroom⟩ := h'.split
  have hlen : (l₁ ++ [x]).length = l₁.length + 1 := by
    rw [length_append, length_singleton]
  rw [hlen] at hent hbehind hend hroom
  have hother {j : ℕ} (hj : j ≠ l₁.length) : (m.set l₁.length x').ent j = m.ent j := update_of_ne hj ..
  have hrow : Row (m.set l₁.length x').ent (l₁.length + 1) (y :: l₂) := by
    refine ⟨(hother (by omega)).trans hent, hbehind.congr fun j hj _ => hother (by omega)⟩
  have hend' : ((m.set l₁.length x').ent (l₁.length + 1 + 1 + l₂.length)).mSize = 0 := by
    rw [hother (by omega)]
    exact hend
  have hsizes : ∀ e ∈ y :: l₂, e.mSize ≠ 0 := fun e he =>
    h'.size_ne e (mem_append_right _ he)
  have hfuel : l₂.length + 1 < m.slots := by omega
  obtain ⟨ent', hclose, hrow', hend'', hframe⟩ := closeUp_entry hrow hsizes hend' hfuel
  -- the second entry goes while the first one is as it was
  have hkept {j : ℕ} (hj : j < l₁.length + 1 ∨ l₁.length + 1 + l₂.length < j) :
      update ent' l₁.length x j = m.ent j := by
    by_cases hjx : j = l₁.length
    · rw [hjx, update_self]
      obtain ⟨hentx, -⟩ := h.split
      exact hentx.symm
    · rw [update_of_ne hjx, hframe j hj]
      exact hother hjx
  have hafter {j : ℕ} (hj : l₁.length < j) : update ent' l₁.length x j = ent' j := update_of_ne (Nat.ne_of_gt hj) ..
  have hrowx : Row (update ent' l₁.length x) (l₁ ++ [x]).length l₂ := by
    rw [hlen]
    exact hrow'.congr fun j hj _ => hafter (by omega)
  have hendx : (update ent' l₁.length x ((l₁ ++ [x]).length + l₂.length)).mSize = 0 := by
    rw [hlen, hafter (by omega)]
    exact hend''
  have hclosed := h'.close hrowx hendx fun j hj => hkept (by rw [hlen] at hj; exact hj)
  rw [append_assoc, singleton_append] at hclosed
  have hold : Apart ((l₁ ++ l₂).map MapEnt.extent) :=
    hclosed.1.apart.sublist (((sublist_cons_self x l₂).append_left l₁).map _)
  obtain ⟨htable, hu⟩ := hclosed.1.change hfits (hb.apart hold hsize)
  have hself : ent' l₁.length = x' := by
    rw [hframe l₁.length (by omega)]
    exact update_self ..
  have hmap : (({ m with ent := update ent' l₁.length x } : Map).set l₁.length x') =
      { m with ent := ent' } := by
    unfold Map.set
    rw [update_idem, ← hself, update_eq_self]
  rw [hmap] at htable hu
  refine ⟨ent', hclose, ⟨_, htable⟩, ⟨hu.limit, hu.name, hu.base, fun i hi => ?_⟩, .inl ?_⟩
  · exact (hu.ent i hi).trans (hclosed.2.ent i hi)
  · rw [h.free_eq, htable.free_eq]
    simp only [map_append, map_cons]
    rw [units_append, units_append, units_cons, units_cons, units_cons]
    have hx' : Set.Ico x'.extent.1 x'.extent.2 = Set.Ico x.extent.1 x.extent.2 ∪
        Set.Ico y.extent.1 y.extent.2 ∪ range size addr := hunits
    rw [hx']
    ext u
    simp only [Set.mem_union]
    tauto

theorem Table.spill (h : Table m (l₁ ++ l₂)) (hfull : (l₁ ++ l₂).length + 1 = m.slots)
    (htwo : 2 ≤ m.slots) (hfits : e.Fits) (hapart : Apart ((l₁ ++ e :: l₂).map MapEnt.extent))
    (hrow : Row ent' l₁.length (e :: l₂)) (hframe : ∀ j, j < l₁.length ∨ l₁.length + l₂.length < j → ent' j = m.ent j) :
    Shape (overflow { m with ent := ent' } (l₁.length + l₂.length + 1)) ∧
      Untouched m (overflow { m with ent := ent' } (l₁.length + l₂.length + 1)) ∧
      ∃ a ∈ l₁ ++ e :: l₂, a.mSize ≠ 0 ∧
        (overflow { m with ent := ent' } (l₁.length + l₂.length + 1)).free =
          (m.free ∪ range e.mSize e.mAddr) \ range a.mSize a.mAddr := by
  rw [length_append] at hfull
  have hslots : l₁.length + l₂.length + 1 = m.slots := hfull
  rw [hslots]
  -- all the slots in order, and the last two of them
  have hall : Row ent' 0 (l₁ ++ e :: l₂) := by
    obtain ⟨hfront, -⟩ := row_append.mp h.row
    refine row_append.mpr ⟨hfront.congr fun j _ hj => hframe j (by omega), ?_⟩
    rw [Nat.zero_add]
    exact hrow
  have hfitsall : ∀ x ∈ l₁ ++ e :: l₂, x.Fits := by
    intro x hx
    have hold := h.fits x
    simp only [mem_append, mem_cons] at hx hold
    rcases hx with hx | heq | hx
    · exact hold (.inl hx)
    · exact heq ▸ hfits
    · exact hold (.inr hx)
  have hlen : (l₁ ++ e :: l₂).length = m.slots := by
    simp only [length_append, length_cons]
    omega
  have hunits := h.units_insert e
  generalize l₁ ++ e :: l₂ = l at hall hfitsall hlen hapart hunits ⊢
  obtain ⟨l₀, a, b, rfl⟩ : ∃ l₀ a b, l = l₀ ++ [a, b] := by
    rcases eq_nil_or_concat l with hnil | ⟨l', b, rfl⟩
    · rw [hnil, length_nil] at hlen
      omega
    · rcases eq_nil_or_concat l' with hnil | ⟨l₀, a, rfl⟩
      · rw [hnil] at hlen
        simp at hlen
        omega
      · exact ⟨l₀, a, b, by simp⟩
  simp only [length_append, length_cons, length_nil] at hlen
  obtain ⟨hrow₀, -, hb, -⟩ := row_append.mp hall
  rw [Nat.zero_add] at hb
  have hlast : ent' (m.slots - 1) = b := by
    have hidx : m.slots - 1 = l₀.length + 1 := by omega
    rw [hidx]
    exact hb
  have hover : overflow { m with ent := ent' } m.slots =
      { m with ent := update (update ent' l₀.length b) (l₀.length + 1) ⟨0, 0⟩ } := by
    have hpast : ({ m with ent := ent' } : Map).at (m.slots + 1) >
        ({ m with ent := ent' } : Map).mLimit := by
      have hlimit := h.limit
      unfold Map.at
      simp only
      omega
    unfold overflow
    rw [if_pos hpast]
    simp only
    rw [if_neg (by omega), hlast]
    have hidx : m.slots - 1 = l₀.length + 1 := by omega
    rw [hidx]
    rfl
  rw [hover]
  have hother {j : ℕ} (hj : j ≠ l₀.length) (hj' : j ≠ l₀.length + 1) :
      update (update ent' l₀.length b) (l₀.length + 1) ⟨0, 0⟩ j = ent' j := by
    rw [update_of_ne hj', update_of_ne hj]
  have hu : Untouched m { m with
      ent := update (update ent' l₀.length b) (l₀.length + 1) ⟨0, 0⟩ } :=
    untouched_of_ent fun i hi => (hother (by omega) (by omega)).trans (hframe i (by omega))
  have hsub : (l₀ ++ [b]).Sublist (l₀ ++ [a, b]) := (sublist_cons_self a [b]).append_left l₀
  have hrowb : Row (update (update ent' l₀.length b) (l₀.length + 1) ⟨0, 0⟩) 0
      (l₀ ++ [b]) := by
    refine row_append.mpr ⟨hrow₀.congr fun j _ hj => hother (by omega) (by omega), ?_, trivial⟩
    rw [Nat.zero_add, update_of_ne (by omega), update_self]
  have htable := h.rebuild hu hrowb ?_ (fun i hi hlt => ?_)
    (fun x hx => hfitsall x (hsub.subset hx)) (hapart.sublist (hsub.map _))
  · have ha : a ∈ l₀ ++ [a, b] := by simp
    refine ⟨⟨_, htable⟩, hu, a, ha, fun h0 => ?_, ?_⟩
    · have hlt := hapart.nonempty a.extent (mem_map_of_mem ha)
      unfold MapEnt.extent at hlt
      rw [h0] at hlt
      simp at hlt
    · rw [htable.free_eq, ← hunits]
      rw [map_append] at hapart ⊢
      have hremove := hapart.units_remove (q := []) (c := a.extent.1) (d := a.extent.2) subset_rfl
        (by rw [units_nil, Set.sdiff_self])
      rw [append_nil] at hremove
      rw [map_append]
      exact hremove
  · simp only [length_append, length_cons, length_nil]
    omega
  · simp only [length_append, length_cons, length_nil] at hi
    have hidx : i = l₀.length + 1 := by omega
    simp only
    rw [hidx, update_self]

/-- What `rmfree` does at the place where the units belong. -/
def freeAt (m : Map) (size addr : Int64) (bp : ℕ) : Option Outcome :=
  if bp > 0 ∧ (m.ent (bp - 1)).mAddr + (m.ent (bp - 1)).mSize ≥ addr then
    if (m.ent (bp - 1)).mAddr + (m.ent (bp - 1)).mSize > addr then some .panic
    else
      let m := m.setSize (bp - 1) ((m.ent (bp - 1)).mSize + size)
      if (m.ent bp).mSize ≠ 0 ∧ addr + size ≥ (m.ent bp).mAddr then
        if addr + size > (m.ent bp).mAddr then some .panic
        else
          let m := m.setSize (bp - 1) ((m.ent (bp - 1)).mSize + (m.ent bp).mSize)
          (closeUp m.slots bp m.ent).map fun ent => .returns { m with ent := ent } 0
      else some (.returns m 0)
  else if addr + size ≥ (m.ent bp).mAddr ∧ (m.ent bp).mSize ≠ 0 then
    if addr + size > (m.ent bp).mAddr then some .panic
    else some (.returns (m.set bp ⟨(m.ent bp).mSize + size, (m.ent bp).mAddr - size⟩) 0)
  else
    (insert m.slots bp ⟨size, addr⟩ m.ent).map fun r =>
      .returns (overflow { m with ent := r.1 } r.2) 0

theorem rmfree_cases (h : Table m l) (hsize : ¬size ≤ 0) (haddr : 0 < addr.toInt) :
    ∃ l₁ l₂, l = l₁ ++ l₂ ∧ (∀ a ∈ l₁, a.mAddr.toInt ≤ addr.toInt) ∧
      (∀ b ∈ l₂, addr.toInt < b.mAddr.toInt) ∧
      rmfree m size addr = freeAt m size addr l₁.length := by
  have hargs : ¬(addr = 0 ∨ size ≤ 0) := by
    intro hor
    rcases hor with h0 | h0
    · rw [h0] at haddr
      exact absurd haddr (by decide)
    · exact hsize h0
  obtain ⟨l₁, l₂, rfl, hscan, hpassed, hhead⟩ :=
    scan_end (fun e => decide (e.mAddr > addr)) h.row h.size_ne h.end_zero h.room
  rw [Nat.zero_add] at hscan
  refine ⟨l₁, l₂, rfl, fun a ha => ?_, fun b hb => ?_, ?_⟩
  · have hle := of_decide_eq_false (hpassed a ha)
    rw [gt_iff_lt, Int64.not_lt] at hle
    exact Int64.le_iff_toInt_le.mp hle
  · cases l₂ with
    | nil => exact absurd hb not_mem_nil
    | cons y l₂ =>
      have hlt : addr.toInt < y.mAddr.toInt := Int64.lt_iff_toInt_lt.mp (of_decide_eq_true (hhead y rfl))
      rcases mem_cons.mp hb with heq | hb
      · exact heq ▸ hlt
      · rw [← singleton_append, ← append_assoc] at h
        have hgap := h.before (mem_append_right _ (mem_singleton_self y)) hb
        have hy := h.size_pos (e := y) (by simp)
        omega
  · unfold rmfree
    rw [if_neg hargs, hscan, Option.bind_some]
    rfl

theorem freeAt_touching (h : Table m (l₁ ++ x :: l₂)) (haddr : 0 < addr.toInt)
    (hsize : 0 < size.toInt) (hword : addr.toInt + size.toInt < 2 ^ 63)
    (hfront : x.mAddr.toInt ≤ addr.toInt) (hbehind : ∀ b ∈ l₂, addr.toInt < b.mAddr.toInt)
    (hx : addr.toInt ≤ x.mAddr.toInt + x.mSize.toInt) : Frees m size addr (freeAt m size addr (l₁.length + 1)) := by
  have hmem : x ∈ l₁ ++ x :: l₂ := mem_append_right _ (mem_cons_self ..)
  obtain ⟨hent, -, hrow, hend, hroom⟩ := h.split
  have hxaddr := (h.fits x hmem).addr
  have hxend := h.end_toInt hmem
  have hadd : (addr + size).toInt = addr.toInt + size.toInt := toInt_add_of_range (by omega) hword
  have hbefore : ∀ a ∈ l₁, a.mAddr.toInt + a.mSize.toInt < x.mAddr.toInt := fun a ha =>
    h.before ha (mem_cons_self ..)
  have hge : l₁.length + 1 > 0 ∧ x.mAddr + x.mSize ≥ addr := by
    refine ⟨Nat.succ_pos _, Int64.le_iff_toInt_le.mpr ?_⟩
    rw [hxend]
    exact hx
  have hother (x' : MapEnt) : (m.set l₁.length x').ent (l₁.length + 1) = m.ent (l₁.length + 1) :=
    update_of_ne (Nat.succ_ne_self _) ..
  have hself (x' : MapEnt) : (m.set l₁.length x').ent l₁.length = x' := update_self ..
  have hset : m.setSize l₁.length (x.mSize + size) = m.set l₁.length ⟨x.mSize + size, x.mAddr⟩ := by
    unfold Map.setSize
    rw [hent]
  unfold freeAt
  simp only [Nat.add_sub_cancel]
  rw [hent, if_pos hge, hset, hother]
  split
  · -- they begin within it
    rename_i hgt
    have hgt := Int64.lt_iff_toInt_lt.mp hgt
    rw [hxend] at hgt
    exact .inl ⟨rfl, h.overlaps hmem ⟨le_rfl, by omega⟩ ⟨hfront, hgt⟩⟩
  rename_i hle
  rw [gt_iff_lt, Int64.not_lt, Int64.le_iff_toInt_le, hxend] at hle
  have hs : (x.mSize + size).toInt = x.mSize.toInt + size.toInt := toInt_add_of_range (by omega) (by omega)
  have hfits : (MapEnt.mk (x.mSize + size) x.mAddr).Fits := ⟨hxaddr, by simp only; omega⟩
  have hunits : range (x.mSize + size) x.mAddr = range x.mSize x.mAddr ∪ range size addr := by
    unfold range
    ext u
    simp only [Set.mem_Ico, Set.mem_union]
    omega
  have hends : ∀ a ∈ l₁ ++ [x], a.mAddr.toInt + a.mSize.toInt ≤ addr.toInt := by
    intro a ha
    rcases mem_append.mp ha with ha | ha
    · have hlt := hbefore a ha
      omega
    · obtain rfl := mem_singleton.mp ha
      exact hle
  have happend : l₁ ++ x :: l₂ = (l₁ ++ [x]) ++ l₂ := by
    rw [append_assoc, singleton_append]
  -- the entry is extended, and touches no other one
  have hextend (hbeyond : ∀ b ∈ l₂, addr.toInt + size.toInt < b.mAddr.toInt) :
      Frees m size addr
        (some (.returns (m.set l₁.length ⟨x.mSize + size, x.mAddr⟩) 0)) := by
    have hdone := h.extend hfits (by simp only; omega)
      ⟨hbefore, fun b hb => by
        have hlt := hbeyond b hb
        simp only
        omega⟩ hunits
    have h' := h
    rw [happend] at h'
    exact .inr ⟨h'.not_overlaps hends fun b hb => (hbeyond b hb).le, _, rfl, hdone⟩
  cases l₂ with
  | nil =>
    have hzero : (m.ent (l₁.length + 1)).mSize = 0 := hend
    rw [if_neg fun hand => hand.1 hzero]
    exact hextend fun b hb => absurd hb not_mem_nil
  | cons y l₃ =>
    have hy : y ∈ l₁ ++ x :: y :: l₃ := by simp
    have hysize := h.size_pos hy
    have hyaddr := hbehind y (mem_cons_self ..)
    have hystop := (h.fits y hy).stop
    have hlater : ∀ b ∈ l₃, y.mAddr.toInt + y.mSize.toInt < b.mAddr.toInt := by
      intro b hb
      have h' : Table m ((l₁ ++ [x, y]) ++ l₃) := by
        rw [append_assoc]
        exact h
      exact h'.before (by simp) hb
    rw [hrow.1]
    split
    · rename_i hand
      split
      · -- they end within the next one
        rename_i hgt
        have hgt := Int64.lt_iff_toInt_lt.mp hgt
        rw [hadd] at hgt
        have hin : y.mAddr.toInt ∈ range size addr := ⟨by omega, hgt⟩
        exact .inl ⟨rfl, h.overlaps hy hin ⟨le_rfl, by omega⟩⟩
      · rename_i hngt
        rw [gt_iff_lt, Int64.not_lt, Int64.le_iff_toInt_le, hadd] at hngt
        have hge' := Int64.le_iff_toInt_le.mp hand.2
        have hs' : (x.mSize + size + y.mSize).toInt =
            x.mSize.toInt + size.toInt + y.mSize.toInt := by
          rw [← hs]
          exact toInt_add_of_range (by omega) (by omega)
        have hset' : (m.set l₁.length ⟨x.mSize + size, x.mAddr⟩).setSize l₁.length
            (((m.set l₁.length ⟨x.mSize + size, x.mAddr⟩).ent l₁.length).mSize + y.mSize) =
              m.set l₁.length ⟨x.mSize + size + y.mSize, x.mAddr⟩ := by
          unfold Map.setSize
          rw [hself]
          unfold Map.set
          rw [update_idem]
        have hunits' : range (x.mSize + size + y.mSize) x.mAddr =
            range x.mSize x.mAddr ∪ range y.mSize y.mAddr ∪ range size addr := by
          unfold range
          ext u
          simp only [Set.mem_Ico, Set.mem_union]
          omega
        have hfits' : (MapEnt.mk (x.mSize + size + y.mSize) x.mAddr).Fits := ⟨hxaddr, by simp only; omega⟩
        obtain ⟨ent', hclose, hdone⟩ := h.join hfits' (by simp only; omega)
          ⟨hbefore, fun b hb => by
            have hlt := hlater b hb
            simp only
            omega⟩ hunits'
        have hslots (x' : MapEnt) : (m.set l₁.length x').slots = m.slots := rfl
        rw [hset', hslots, hclose]
        have h' := h
        rw [happend] at h'
        refine .inr ⟨h'.not_overlaps hends fun b hb => ?_, _, rfl, hdone⟩
        rcases mem_cons.mp hb with heq | hb
        · exact heq ▸ hngt
        · have hlt := hlater b hb
          omega
    · rename_i hnand
      have hlt : addr.toInt + size.toInt < y.mAddr.toInt := by
        by_contra hnlt
        refine hnand ⟨h.size_ne y hy, Int64.le_iff_toInt_le.mpr ?_⟩
        omega
      apply hextend
      intro b hb
      rcases mem_cons.mp hb with heq | hb
      · exact heq ▸ hlt
      · have hgap := hlater b hb
        omega

theorem freeAt_apart (h : Table m (l₁ ++ l₂)) (htwo : 2 ≤ m.slots) (haddr : 0 < addr.toInt)
    (hsize : 0 < size.toInt) (hword : addr.toInt + size.toInt < 2 ^ 63)
    (hfront : ∀ a ∈ l₁, a.mAddr.toInt + a.mSize.toInt < addr.toInt)
    (hbehind : ∀ b ∈ l₂, addr.toInt < b.mAddr.toInt) : Frees m size addr (freeAt m size addr l₁.length) := by
  have hadd : (addr + size).toInt = addr.toInt + size.toInt := toInt_add_of_range (by omega) hword
  obtain ⟨hrow₁, hrow₂⟩ := row_append.mp h.row
  rw [Nat.zero_add] at hrow₂
  have hend : (m.ent (l₁.length + l₂.length)).mSize = 0 := by
    have hend := h.end_zero
    rw [length_append, Nat.zero_add] at hend
    exact hend
  have hroom := h.room
  rw [length_append] at hroom
  -- the entry in front of the place is not touched
  have hleft : ¬(l₁.length > 0 ∧
      (m.ent (l₁.length - 1)).mAddr + (m.ent (l₁.length - 1)).mSize ≥ addr) := by
    rintro ⟨hpos, hge⟩
    have hlen : l₁.length - 1 < (l₁ ++ l₂).length := by
      rw [length_append]
      omega
    have hlen₁ : l₁.length - 1 < l₁.length := by omega
    have hmem := getElem_mem hlen₁
    rw [h.ent_eq hlen, getElem_append_left hlen₁] at hge
    have hge := Int64.le_iff_toInt_le.mp hge
    rw [h.end_toInt (mem_append_left _ hmem)] at hge
    have hlt := hfront _ hmem
    omega
  have hends : ∀ a ∈ l₁, a.mAddr.toInt + a.mSize.toInt ≤ addr.toInt := fun a ha =>
    (hfront a ha).le
  have hfits : (MapEnt.mk size addr).Fits := ⟨haddr, hword⟩
  have hsizes : ∀ b ∈ l₂, b.mSize ≠ 0 := fun b hb => h.size_ne b (mem_append_right _ hb)
  have hfuel : l₂.length < m.slots := by omega
  -- the units make an entry
  have hinsert (hbeyond : ∀ b ∈ l₂, addr.toInt + size.toInt < b.mAddr.toInt) :
      Frees m size addr ((insert m.slots l₁.length ⟨size, addr⟩ m.ent).map fun r =>
        .returns (overflow { m with ent := r.1 } r.2) 0) := by
    obtain ⟨ent', hins, hrow, hframe⟩ := insert_end (e := ⟨size, addr⟩) hrow₂ hsizes hend hfuel
    have hapart : Apart ((l₁ ++ ⟨size, addr⟩ :: l₂).map MapEnt.extent) :=
      Between.apart ⟨hfront, hbeyond⟩ h.apart hsize
    rw [hins]
    refine .inr ⟨h.not_overlaps hends fun b hb => (hbeyond b hb).le, _, rfl, ?_⟩
    by_cases hfull : l₁.length + l₂.length + 1 = m.slots
    · obtain ⟨hshape, hu, a, ha, hasize, hfree⟩ := h.spill
        (by rw [length_append]; exact hfull) htwo hfits hapart hrow hframe
      refine ⟨hshape, hu, .inr ⟨?_, a, ?_, hasize, hfree⟩⟩
      · rw [h.full_iff, length_append]
        omega
      · have hold {x : MapEnt} (hx : x ∈ l₁ ++ l₂) : ∃ i < m.slots, x = m.ent i := by
          obtain ⟨i, hi, rfl⟩ := mem_iff_getElem.mp hx
          exact ⟨i, hi.trans h.room, (h.ent_eq hi).symm⟩
        simp only [mem_append, mem_cons] at ha hold
        rcases ha with ha | ha
        · exact .inr (hold (.inl ha))
        · exact ha.imp_right fun ha => hold (.inr ha)
    · obtain ⟨htable, hu⟩ := h.insertAt (by rw [length_append]; omega) hfits hapart hrow hframe
      have hsame : overflow { m with ent := ent' } (l₁.length + l₂.length + 1) =
          { m with ent := ent' } := by
        have hlimit := h.limit
        unfold overflow Map.at
        apply if_neg
        simp only
        omega
      rw [hsame]
      refine ⟨⟨_, htable⟩, hu, .inl ?_⟩
      rw [htable.free_eq]
      exact h.units_insert ⟨size, addr⟩
  unfold freeAt
  rw [if_neg hleft]
  cases l₂ with
  | nil =>
    have hzero : (m.ent l₁.length).mSize = 0 := hend
    rw [if_neg fun hand => hand.2 hzero]
    exact hinsert fun b hb => absurd hb not_mem_nil
  | cons y l₃ =>
    have hy : y ∈ l₁ ++ y :: l₃ := mem_append_right _ (mem_cons_self ..)
    have hysize := h.size_pos hy
    have hyaddr := hbehind y (mem_cons_self ..)
    have hystop := (h.fits y hy).stop
    have hlater : ∀ b ∈ l₃, y.mAddr.toInt + y.mSize.toInt < b.mAddr.toInt := by
      intro b hb
      have h' : Table m ((l₁ ++ [y]) ++ l₃) := by
        rw [append_assoc]
        exact h
      exact h'.before (by simp) hb
    rw [hrow₂.1]
    split
    · rename_i hand
      split
      · -- they end within the next one
        rename_i hgt
        have hgt := Int64.lt_iff_toInt_lt.mp hgt
        rw [hadd] at hgt
        have hin : y.mAddr.toInt ∈ range size addr := ⟨by omega, hgt⟩
        exact .inl ⟨rfl, h.overlaps hy hin ⟨le_rfl, by omega⟩⟩
      · rename_i hngt
        rw [gt_iff_lt, Int64.not_lt, Int64.le_iff_toInt_le, hadd] at hngt
        have hge := Int64.le_iff_toInt_le.mp hand.1
        have hs : (y.mSize + size).toInt = y.mSize.toInt + size.toInt := toInt_add_of_range (by omega) (by omega)
        have ha : (y.mAddr - size).toInt = y.mAddr.toInt - size.toInt := toInt_sub_of_range (by omega) (by omega)
        have hunits : range (y.mSize + size) (y.mAddr - size) =
            range y.mSize y.mAddr ∪ range size addr := by
          unfold range
          ext u
          simp only [Set.mem_Ico, Set.mem_union]
          omega
        have hfits' : (MapEnt.mk (y.mSize + size) (y.mAddr - size)).Fits :=
          ⟨by simp only; omega, by simp only; omega⟩
        have hdone := h.extend hfits' (by simp only; omega)
          ⟨fun a ha' => by
            have hlt := hfront a ha'
            simp only
            omega, fun b hb => by
            have hlt := hlater b hb
            simp only
            omega⟩ hunits
        refine .inr ⟨h.not_overlaps hends fun b hb => ?_, _, rfl, hdone⟩
        rcases mem_cons.mp hb with heq | hb
        · exact heq ▸ hngt
        · have hlt := hlater b hb
          omega
    · rename_i hnand
      have hlt : addr.toInt + size.toInt < y.mAddr.toInt := by
        by_contra hnlt
        refine hnand ⟨Int64.le_iff_toInt_le.mpr ?_, h.size_ne y hy⟩
        omega
      apply hinsert
      intro b hb
      rcases mem_cons.mp hb with heq | hb
      · exact heq ▸ hlt
      · have hgap := hlater b hb
        omega

theorem rmfree_ok (h : Table m l) (htwo : 2 ≤ m.slots) (hsize : ¬size ≤ 0)
    (haddr : 0 < addr.toInt) (hword : addr.toInt + size.toInt < 2 ^ 63) :
    Frees m size addr (rmfree m size addr) := by
  have hpos : 0 < size.toInt := by
    rw [Int64.not_le, Int64.lt_iff_toInt_lt] at hsize
    exact hsize
  obtain ⟨l₁, l₂, rfl, hfront, hbehind, hfree⟩ := rmfree_cases h hsize haddr
  rw [hfree]
  rcases eq_nil_or_concat l₁ with hnil | ⟨l₁, x, rfl⟩
  · subst hnil
    exact freeAt_apart h htwo haddr hpos hword (fun a ha => absurd ha not_mem_nil) hbehind
  · rw [concat_eq_append] at *
    by_cases hx : addr.toInt ≤ x.mAddr.toInt + x.mSize.toInt
    · have hstart := hfront x (by simp)
      rw [append_assoc, singleton_append] at h
      rw [length_append, length_singleton]
      exact freeAt_touching h haddr hpos hword hstart hbehind hx
    · refine freeAt_apart h htwo haddr hpos hword (fun a ha => ?_) hbehind
      rcases mem_append.mp ha with ha | ha
      · have h' := h
        rw [append_assoc, singleton_append] at h'
        have hlt := h'.before ha (mem_cons_self ..)
        have hxsize := h'.size_pos (e := x) (by simp)
        omega
      · obtain rfl := mem_singleton.mp ha
        omega

theorem rmfree_one (h : Table m l) (hone : m.slots = 1) (hsize : ¬size ≤ 0) (haddr : 0 < addr.toInt) :
    Frees m size addr (rmfree m size addr) ↔
      m.mLimit = size.toUInt64.toNat ∧ m.mName = addr.toUInt64.toNat := by
  have hnil : l = [] := by
    have hroom := h.room
    exact length_eq_zero_iff.mp (by omega)
  subst hnil
  have hempty : m.free = ∅ := by
    rw [h.free_eq]
    exact units_nil
  obtain ⟨l₁, l₂, hl, -, -, hfree⟩ := rmfree_cases h hsize haddr
  obtain ⟨rfl, rfl⟩ := append_eq_nil_iff.mp hl.symm
  have hzero : (m.ent 0).mSize = 0 := h.rest 0 le_rfl h.room
  have hsize0 : size ≠ 0 := fun h0 => hsize (by rw [h0]; decide)
  -- the entry that is written to the slot is lost to the header
  have hresult : rmfree m size addr = some (.returns { m.set 0 ⟨0, 0⟩ with
      mLimit := size.toUInt64.toNat, mName := addr.toUInt64.toNat } 0) := by
    have hpast : m.at 2 > m.mLimit := by
      rw [h.limit, hone]
      unfold Map.at
      omega
    have hinsert : insert 1 0 ⟨size, addr⟩ m.ent = some (update m.ent 0 ⟨size, addr⟩, 1) := if_pos hzero
    have hover : overflow (m.set 0 ⟨size, addr⟩) 1 = { m.set 0 ⟨0, 0⟩ with
        mLimit := size.toUInt64.toNat, mName := addr.toUInt64.toNat } := by
      have hslot : (m.set 0 ⟨size, addr⟩).at 2 > (m.set 0 ⟨size, addr⟩).mLimit := hpast
      unfold overflow
      rw [if_pos hslot, Nat.sub_self]
      simp only [if_true]
      unfold Map.set
      simp only
      rw [update_idem, update_self]
    have hleft : ¬(0 > 0 ∧ (m.ent (0 - 1)).mAddr + (m.ent (0 - 1)).mSize ≥ addr) :=
      fun hand => absurd hand.1 (Nat.lt_irrefl 0)
    rw [hfree]
    unfold freeAt
    rw [length_nil, if_neg hleft, if_neg fun hand => hand.2 hzero, hone, hinsert]
    exact congrArg (fun m' => some (Outcome.returns m' 0)) hover
  rw [hresult]
  constructor
  · rintro (⟨hpanic, -⟩ | ⟨-, m', heq, -, hu, -⟩)
    · cases hpanic
    · cases heq
      exact ⟨hu.limit.symm, hu.name.symm⟩
  · rintro ⟨hlimit, hname⟩
    have hmap : ({ m.set 0 ⟨0, 0⟩ with
        mLimit := size.toUInt64.toNat, mName := addr.toUInt64.toNat } : Map) = m.set 0 ⟨0, 0⟩ := by
      rw [← hlimit, ← hname]
      rfl
    have hu : Untouched m (m.set 0 ⟨0, 0⟩) := untouched_of_ent fun i hi => update_of_ne (by omega) ..
    have htable : Table (m.set 0 ⟨0, 0⟩) [] :=
      h.rebuild hu trivial h.room (fun i _ hi => by
        have hidx : i = 0 := by omega
        have hself : (m.set 0 ⟨0, 0⟩).ent 0 = ⟨0, 0⟩ := update_self 0 _ m.ent
        rw [hidx, hself]) h.fits h.apart
    refine .inr ⟨?_, m.set 0 ⟨0, 0⟩, by rw [hmap], ⟨[], htable⟩, hu, .inr ⟨?_, ⟨size, addr⟩, .inl rfl, hsize0, ?_⟩⟩
    · rintro ⟨x, -, hx⟩
      rw [hempty] at hx
      exact hx
    · intro i hi
      omega
    · rw [htable.free_eq, hempty, Set.empty_union, Set.sdiff_self]
      exact units_nil

theorem rmfree_iff (h : Shape m) (haddr : 0 < addr.toInt)
    (hword : addr.toInt + size.toInt < 2 ^ 63) : RmfreeOk m size addr ↔ RmfreeFits m size addr := by
  obtain ⟨l, h⟩ := h
  unfold RmfreeOk RmfreeFits
  by_cases hsize : size ≤ 0
  · have hargs : addr = 0 ∨ size ≤ 0 := .inr hsize
    have hpanic : rmfree m size addr = some .panic := if_pos hargs
    rw [if_pos hsize]
    exact ⟨fun _ => .inl hsize, fun _ => hpanic⟩
  · rw [if_neg hsize]
    by_cases htwo : 2 ≤ m.slots
    · exact ⟨fun _ => .inr (.inl htwo), fun _ => rmfree_ok h htwo hsize haddr hword⟩
    · have hone : m.slots = 1 := by
        have hroom := h.room
        omega
      rw [rmfree_one h hone hsize haddr]
      exact ⟨fun hheader => .inr (.inr hheader), fun hfits =>
        (hfits.resolve_left hsize).resolve_left htwo⟩

theorem rmget_iff (h : Shape m) : RmgetOk m size addr ↔ RmgetFits m size addr := by
  obtain ⟨l, h⟩ := h
  unfold RmgetOk RmgetFits
  by_cases hsize : size ≤ 0
  · have hpanic : rmget m size addr = some .panic := if_pos hsize
    rw [if_pos hsize]
    exact ⟨fun _ => .inl hsize, fun _ => hpanic⟩
  · rw [if_neg hsize]
    by_cases hword : addr.toInt + size.toInt < 2 ^ 63
    · exact ⟨fun _ => .inr (.inl hword), fun _ => rmget_ok h hsize hword⟩
    · rw [rmget_overflows h hsize hword]
      exact ⟨fun hall => .inr (.inr hall), fun hfits =>
        (hfits.resolve_left hsize).resolve_left hword⟩

/-- A map of three slots, with one entry. -/
def small : Map where
  mLimit := 64
  mName := 0
  base := 16
  ent := update (fun _ => ⟨0, 0⟩) 0 ⟨4, 8⟩

theorem small_shape : Shape small := by
  refine ⟨[⟨4, 8⟩], rfl, ⟨rfl, trivial⟩, by decide, fun i hi _ => ?_, fun e he => ?_, ?_⟩
  · have hne : i ≠ 0 := by
      rw [length_singleton] at hi
      omega
    have hother : small.ent i = ⟨0, 0⟩ := update_of_ne hne _ fun _ : ℕ => (⟨0, 0⟩ : MapEnt)
    rw [hother]
  · obtain rfl := mem_singleton.mp he
    exact ⟨by decide, by decide⟩
  · exact apart_singleton (by decide)

end Osf1.Rmap
