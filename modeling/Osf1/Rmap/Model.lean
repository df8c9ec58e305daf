import Osf1.Computation.Extents

/-!
# Resource maps: the code of `subr_rmap.c`

A resource map is an array of slots behind a header, which has the address of the end of the
array.  A slot describes a range of free units; a slot of size zero is the end of the ranges.
The memory behind the array is part of the model, so that a write there can be told.
-/

set_option autoImplicit false

namespace Osf1.Rmap

open Function List

section Model

/-- SRC: sys/map.h:81-85 -/
structure MapEnt where
  mSize : Int64
  mAddr : Int64
  deriving DecidableEq

/-- The header, with the address of the first slot, which is next to it, and the slots.
SRC: sys/map.h:86-90 -/
structure Map where
  mLimit : ℕ
  mName : ℕ
  base : ℕ
  ent : ℕ → MapEnt

/-- The address of a slot. -/
def Map.at (m : Map) (i : ℕ) : ℕ := m.base + 16 * i

/-- How many slots there are. -/
def Map.slots (m : Map) : ℕ := (m.mLimit - m.base) / 16

/-- Write to a slot. -/
def Map.set (m : Map) (i : ℕ) (e : MapEnt) : Map := { m with ent := update m.ent i e }

/-- Write to a slot and set another size. -/
def Map.setSize (m : Map) (i : ℕ) (size : Int64) : Map := m.set i { m.ent i with mSize := size }

/-- How a call ends. -/
inductive Outcome where
  | panic
  | returns (m : Map) (value : Int64)

/-- The initial map: one range, or none.
SRC: bsd/subr_rmap.c:102-132 -/
def rminit (m : Map) (size addr : Int64) (name mapsize : ℕ) : Map :=
  { m with mName := name, mLimit := m.at (mapsize - 1) }.set 0 ⟨size, addr⟩

/-- From a slot on, the first one that meets a condition or is the end of the ranges.  A walk
beyond the slots has no result. -/
def scan (ent : ℕ → MapEnt) (stop : MapEnt → Bool) : ℕ → ℕ → Option ℕ
  | 0, _ => none
  | fuel + 1, bp =>
    if (ent bp).mSize = 0 then some bp
    else if stop (ent bp) then some bp
    else scan ent stop fuel (bp + 1)

/-- `while (bp->m_size) { bp++; bp[-1] = *bp; }` -/
def closeUp : ℕ → ℕ → (ℕ → MapEnt) → Option (ℕ → MapEnt)
  | 0, _, _ => none
  | fuel + 1, bp, ent =>
    if (ent bp).mSize = 0 then some ent
    else closeUp fuel (bp + 1) (update ent bp (ent (bp + 1)))

/-- First fit.
SRC: bsd/subr_rmap.c:153-194 -/
def rmalloc (m : Map) (size : Int64) : Option Outcome :=
  if size ≤ 0 then some .panic
  else
    (scan m.ent (fun e => decide (e.mSize ≥ size)) m.slots 0).bind fun bp =>
      if (m.ent bp).mSize = 0 then some (.returns m 0)
      else
        let addr := (m.ent bp).mAddr
        let m := m.set bp ⟨(m.ent bp).mSize - size, addr + size⟩
        if (m.ent bp).mSize = 0 then
          -- the body of the loop is run once before its condition is tested
          (closeUp m.slots (bp + 1) (update m.ent bp (m.ent (bp + 1)))).map fun ent =>
            .returns { m with ent := ent } addr
        else some (.returns m addr)

/-- `do { swap *bp with size and addr; bp++; } while (size);` -/
def insert : ℕ → ℕ → MapEnt → (ℕ → MapEnt) → Option ((ℕ → MapEnt) × ℕ)
  | 0, _, _, _ => none
  | fuel + 1, bp, e, ent =>
    let t := ent bp
    let ent := update ent bp e
    if t.mSize = 0 then some (ent, bp + 1) else insert fuel (bp + 1) t ent

/-- The slot at `bp` is to be the end of the ranges.  If there is no such slot, the last but
one range is discarded, with what is there if the table has only one slot.
SRC: bsd/subr_rmap.c:288-304 -/
def overflow (m : Map) (bp : ℕ) : Map :=
  if m.at (bp + 1) > m.mLimit then
    let bp := bp - 1
    if bp = 0 then
      { m.set 0 ⟨0, 0⟩ with
        mLimit := (m.ent 0).mSize.toUInt64.toNat, mName := (m.ent 0).mAddr.toUInt64.toNat }
    else (m.set (bp - 1) (m.ent bp)).set bp ⟨0, 0⟩
  else m

/-- SRC: bsd/subr_rmap.c:202-318 -/
def rmfree (m : Map) (size addr : Int64) : Option Outcome :=
  if addr = 0 ∨ size ≤ 0 then some .panic
  else
    (scan m.ent (fun e => decide (e.mAddr > addr)) m.slots 0).bind fun bp =>
      let left := m.ent (bp - 1)
      if bp > 0 ∧ left.mAddr + left.mSize ≥ addr then
        if left.mAddr + left.mSize > addr then some .panic
        else
          let m := m.setSize (bp - 1) (left.mSize + size)
          if (m.ent bp).mSize ≠ 0 ∧ addr + size ≥ (m.ent bp).mAddr then
            if addr + size > (m.ent bp).mAddr then some .panic
            else
              let m := m.setSize (bp - 1) ((m.ent (bp - 1)).mSize + (m.ent bp).mSize)
              (closeUp m.slots bp m.ent).map fun ent => .returns { m with ent := ent } 0
          else some (.returns m 0)
      else if addr + size ≥ (m.ent bp).mAddr ∧ (m.ent bp).mSize ≠ 0 then
        if addr + size > (m.ent bp).mAddr then some .panic
        else
          some (.returns (m.set bp ⟨(m.ent bp).mSize + size, (m.ent bp).mAddr - size⟩) 0)
      else
        (insert m.slots bp ⟨size, addr⟩ m.ent).map fun r =>
          .returns (overflow { m with ent := r.1 } r.2) 0

/-- `while (bp2 > bp) { bp2[1] = *bp2; bp2--; }`, when `bp2` is `n` slots behind `bp`. -/
def spread (bp : ℕ) : ℕ → (ℕ → MapEnt) → ℕ → MapEnt
  | 0, ent => ent
  | n + 1, ent => spread bp n (update ent (bp + n + 2) (ent (bp + n + 1)))

/-- SRC: bsd/subr_rmap.c:332-415 -/
def rmget (m : Map) (size addr : Int64) : Option Outcome :=
  if size ≤ 0 then some .panic
  else
    (scan m.ent (fun e => decide (e.mAddr ≤ addr) && decide (e.mAddr + e.mSize > addr))
      m.slots 0).bind fun bp =>
      let e := m.ent bp
      if e.mSize = 0 then some (.returns m 0)
      else if e.mAddr + e.mSize < addr + size then some (.returns m 0)
      else if e.mAddr = addr then
        if e.mAddr + e.mSize = addr + size then
          (closeUp m.slots bp m.ent).map fun ent => .returns { m with ent := ent } addr
        else some (.returns (m.set bp ⟨e.mSize - size, e.mAddr + size⟩) addr)
      else if e.mAddr + e.mSize = addr + size then
        some (.returns (m.setSize bp (e.mSize - size)) addr)
      else
        (scan m.ent (fun _ => false) m.slots bp).bind fun bp2 =>
          if m.at (bp2 + 1) ≥ m.mLimit then some (.returns m 0)
          else
            let m := { m with ent := spread bp (bp2 - bp) m.ent }
            let m := m.set (bp + 1) ⟨e.mAddr + e.mSize - (addr + size), addr + size⟩
            some (.returns (m.setSize bp (addr - e.mAddr)) addr)

end Model

/-!
## The ranges in a table

A row of slots holds a list of entries.  The loops of the code find a place in the row, close a
gap in it, or make one.
-/

section Table

open Osf1.Computation

/-- The slots from `i` on hold the entries of a list. -/
def Row (ent : ℕ → MapEnt) : ℕ → List MapEnt → Prop
  | _, [] => True
  | i, e :: l => ent i = e ∧ Row ent (i + 1) l

variable {ent ent' : ℕ → MapEnt} {l l₁ l₂ : List MapEnt} {e : MapEnt} {i bp fuel : ℕ}

theorem row_append : Row ent i (l₁ ++ l₂) ↔ Row ent i l₁ ∧ Row ent (i + l₁.length) l₂ := by
  induction l₁ generalizing i with
  | nil => simp [Row]
  | cons e l ih =>
    have hlen : i + (l.length + 1) = i + 1 + l.length := by omega
    simp [Row, ih, and_assoc, hlen]

theorem Row.shift {i' : ℕ} (h : Row ent i l) (hent : ∀ j < l.length, ent' (i' + j) = ent (i + j)) :
    Row ent' i' l := by
  induction l generalizing i i' with
  | nil => trivial
  | cons e l ih =>
    refine ⟨?_, ih h.2 fun j hj => ?_⟩
    · have hzero := hent 0 (Nat.succ_pos _)
      exact hzero.trans h.1
    · have hsucc := hent (j + 1) (Nat.succ_lt_succ hj)
      rw [Nat.add_right_comm, Nat.add_right_comm i, Nat.add_assoc, Nat.add_assoc]
      exact hsucc

theorem Row.congr (h : Row ent i l) (hent : ∀ j, i ≤ j → j < i + l.length → ent' j = ent j) : Row ent' i l :=
  h.shift fun j hj => hent (i + j) (Nat.le_add_right i j) (Nat.add_lt_add_left hj i)

theorem Row.get (h : Row ent i l) {j : ℕ} (hj : j < l.length) : ent (i + j) = l[j] := by
  induction l generalizing i j with
  | nil => cases hj
  | cons e l ih =>
    cases j with
    | zero => exact h.1
    | succ j =>
      have hnext := ih h.2 (Nat.lt_of_succ_lt_succ hj)
      rw [Nat.add_assoc, Nat.add_comm 1 j] at hnext
      exact hnext

theorem scan_end (stop : MapEnt → Bool) (hrow : Row ent i l) (hsize : ∀ e ∈ l, e.mSize ≠ 0)
    (hend : (ent (i + l.length)).mSize = 0) (hfuel : l.length < fuel) :
    ∃ l₁ l₂, l = l₁ ++ l₂ ∧ scan ent stop fuel i = some (i + l₁.length) ∧
      (∀ e ∈ l₁, stop e = false) ∧ ∀ e ∈ l₂.head?, stop e = true := by
  induction l generalizing i fuel with
  | nil =>
    cases fuel with
    | zero => cases hfuel
    | succ fuel =>
      refine ⟨[], [], rfl, ?_, fun _ he => absurd he not_mem_nil, nofun⟩
      exact if_pos hend
  | cons e l ih =>
    cases fuel with
    | zero => cases hfuel
    | succ fuel =>
      obtain ⟨he, hl⟩ := hrow
      have hne : (ent i).mSize ≠ 0 := by
        rw [he]
        exact hsize e (mem_cons_self ..)
      rw [scan, if_neg hne, he]
      split
      · rename_i hstop
        refine ⟨[], e :: l, rfl, rfl, fun _ he => absurd he not_mem_nil, fun x hx => ?_⟩
        obtain rfl : e = x := by simpa using hx
        exact hstop
      · rename_i hgo
        have hend' : (ent (i + 1 + l.length)).mSize = 0 := by
          rw [Nat.add_assoc, Nat.add_comm 1]
          exact hend
        obtain ⟨l₁, l₂, rfl, hscan, hfront, hhead⟩ :=
          ih hl (fun x hx => hsize x (mem_cons_of_mem _ hx)) hend'
            (Nat.lt_of_succ_lt_succ hfuel)
        refine ⟨e :: l₁, l₂, rfl, ?_, fun x hx => ?_, hhead⟩
        · rw [hscan, length_cons, Nat.add_assoc, Nat.add_comm 1]
        · rcases mem_cons.mp hx with heq | hx
          · rw [heq]
            exact Bool.eq_false_iff.mpr hgo
          · exact hfront x hx

theorem closeUp_end (hrow : Row ent (bp + 1) l) (hsize : ∀ e ∈ l, e.mSize ≠ 0)
    (hend : (ent (bp + 1 + l.length)).mSize = 0) (hfuel : l.length < fuel) :
    ∃ ent', closeUp fuel (bp + 1) (update ent bp (ent (bp + 1))) = some ent' ∧
      Row ent' bp l ∧ (ent' (bp + l.length)).mSize = 0 ∧
      ∀ j, j < bp ∨ bp + l.length < j → ent' j = ent j := by
  induction l generalizing ent bp fuel with
  | nil =>
    cases fuel with
    | zero => cases hfuel
    | succ fuel =>
      have hne : bp + 1 ≠ bp := Nat.succ_ne_self bp
      refine ⟨update ent bp (ent (bp + 1)), ?_, trivial, ?_, fun j hj => ?_⟩
      · rw [closeUp, update_of_ne hne]
        exact if_pos hend
      · have hself : update ent bp (ent (bp + 1)) bp = ent (bp + 1) := update_self ..
        exact (congrArg MapEnt.mSize hself).trans hend
      · have hj : j ≠ bp := by
          omega
        exact update_of_ne hj ..
  | cons x l ih =>
    cases fuel with
    | zero => cases hfuel
    | succ fuel =>
      obtain ⟨hx, hl⟩ := hrow
      have hlen : bp + 1 + (x :: l).length = bp + 1 + 1 + l.length := by
        rw [length_cons]
        omega
      rw [hlen] at hend
      have hup {j : ℕ} (hj : bp < j) : update ent bp x j = ent j := update_of_ne (Nat.ne_of_gt hj) ..
      have hrow' : Row (update ent bp x) (bp + 1 + 1) l := hl.congr fun j hj _ => hup (by omega)
      have hend' : (update ent bp x (bp + 1 + 1 + l.length)).mSize = 0 := by
        rw [hup (by omega)]
        exact hend
      obtain ⟨ent', hclose, hrow'', hend'', hframe⟩ :=
        ih hrow' (fun y hy => hsize y (mem_cons_of_mem _ hy)) hend'
          (Nat.lt_of_succ_lt_succ hfuel)
      have hsizex : (update ent bp x (bp + 1)).mSize ≠ 0 := by
        rw [hup (Nat.lt_succ_self bp), hx]
        exact hsize x (mem_cons_self ..)
      refine ⟨ent', ?_, ⟨?_, hrow''⟩, ?_, fun j hj => ?_⟩
      · rw [hx, closeUp, if_neg hsizex]
        exact hclose
      · rw [hframe bp (.inl (Nat.lt_succ_self bp)), update_self]
      · rw [length_cons, ← Nat.add_assoc, Nat.add_right_comm]
        exact hend''
      · rw [length_cons] at hj
        rw [hframe j (by omega)]
        exact update_of_ne (by omega) ..

theorem closeUp_entry (hrow : Row ent bp (e :: l)) (hsize : ∀ x ∈ e :: l, x.mSize ≠ 0)
    (hend : (ent (bp + 1 + l.length)).mSize = 0) (hfuel : l.length + 1 < fuel) :
    ∃ ent', closeUp fuel bp ent = some ent' ∧ Row ent' bp l ∧
      (ent' (bp + l.length)).mSize = 0 ∧ ∀ j, j < bp ∨ bp + l.length < j → ent' j = ent j := by
  cases fuel with
  | zero => cases hfuel
  | succ fuel =>
    have hne : (ent bp).mSize ≠ 0 := by
      rw [hrow.1]
      exact hsize e (mem_cons_self ..)
    rw [closeUp, if_neg hne]
    exact closeUp_end hrow.2 (fun x hx => hsize x (mem_cons_of_mem _ hx)) hend
      (Nat.lt_of_succ_lt_succ hfuel)

theorem insert_end (hrow : Row ent bp l) (hsize : ∀ x ∈ l, x.mSize ≠ 0)
    (hend : (ent (bp + l.length)).mSize = 0) (hfuel : l.length < fuel) :
    ∃ ent', insert fuel bp e ent = some (ent', bp + l.length + 1) ∧ Row ent' bp (e :: l) ∧
      ∀ j, j < bp ∨ bp + l.length < j → ent' j = ent j := by
  induction l generalizing ent bp e fuel with
  | nil =>
    cases fuel with
    | zero => cases hfuel
    | succ fuel =>
      refine ⟨update ent bp e, ?_, ⟨update_self .., trivial⟩, fun j hj => ?_⟩
      · rw [insert]
        exact if_pos hend
      · rw [length_nil] at hj
        exact update_of_ne (by omega) ..
  | cons x l ih =>
    cases fuel with
    | zero => cases hfuel
    | succ fuel =>
      obtain ⟨hx, hl⟩ := hrow
      have hlen : bp + (x :: l).length = bp + 1 + l.length := by
        rw [length_cons]
        omega
      rw [hlen] at hend ⊢
      have hup {j : ℕ} (hj : bp < j) : update ent bp e j = ent j := update_of_ne (Nat.ne_of_gt hj) ..
      have hrow' : Row (update ent bp e) (bp + 1) l := hl.congr fun j hj _ => hup hj
      have hend' : (update ent bp e (bp + 1 + l.length)).mSize = 0 := by
        rw [hup (by omega)]
        exact hend
      obtain ⟨ent', hins, hrow'', hframe⟩ :=
        ih (e := x) hrow' (fun y hy => hsize y (mem_cons_of_mem _ hy)) hend'
          (Nat.lt_of_succ_lt_succ hfuel)
      have hsizex : (ent bp).mSize ≠ 0 := by
        rw [hx]
        exact hsize x (mem_cons_self ..)
      refine ⟨ent', ?_, ⟨?_, hrow''⟩, fun j hj => ?_⟩
      · rw [insert, if_neg hsizex, hx]
        exact hins
      · rw [hframe bp (.inl (Nat.lt_succ_self bp)), update_self]
      · rw [hframe j (by omega)]
        exact update_of_ne (by omega) ..

theorem spread_apply (bp n : ℕ) (ent : ℕ → MapEnt) (j : ℕ) :
    spread bp n ent j = if bp + 2 ≤ j ∧ j ≤ bp + n + 1 then ent (j - 1) else ent j := by
  induction n generalizing ent with
  | zero =>
    rw [spread, if_neg (by omega)]
  | succ n ih =>
    rw [spread, ih]
    by_cases hj : j = bp + n + 2
    · subst hj
      rw [if_neg (by omega), if_pos (by omega), update_self]
      rfl
    · rw [update_of_ne hj]
      by_cases hin : bp + 2 ≤ j ∧ j ≤ bp + n + 1
      · rw [if_pos hin, if_pos (by omega), update_of_ne (by omega)]
      · rw [if_neg hin, if_neg (by omega)]

end Table

/-!
## A resource map is a set of free units

A table in order stands for the set of the units in its ranges.  What `rmalloc` and `rmget`
return leaves the set, and what `rmfree` is given joins it.
-/

section Refinement

open Osf1.Computation

/-- The units of a size from an address on. -/
def range (size addr : Int64) : Set ℤ := Set.Ico addr.toInt (addr.toInt + size.toInt)

/-- The range that an entry describes. -/
def MapEnt.extent (e : MapEnt) : ℤ × ℤ := (e.mAddr.toInt, e.mAddr.toInt + e.mSize.toInt)

/-- Zero is no address, and the end of a range is a word. -/
structure MapEnt.Fits (e : MapEnt) : Prop where
  addr : 0 < e.mAddr.toInt
  stop : e.mAddr.toInt + e.mSize.toInt < 2 ^ 63

/-- The entries of a table: in order, apart, and followed by empty slots only. -/
structure Table (m : Map) (l : List MapEnt) : Prop where
  limit : m.mLimit = m.base + 16 * m.slots
  row : Row m.ent 0 l
  room : l.length < m.slots
  rest : ∀ i, l.length ≤ i → i < m.slots → (m.ent i).mSize = 0
  fits : ∀ e ∈ l, e.Fits
  apart : Apart (l.map MapEnt.extent)

/-- A map in order. -/
def Shape (m : Map) : Prop := ∃ l, Table m l

/-- The units that are free. -/
def Map.free (m : Map) : Set ℤ := {x | ∃ i < m.slots, x ∈ range (m.ent i).mSize (m.ent i).mAddr}

/-- The header and what is behind the slots are left alone. -/
structure Untouched (m m' : Map) : Prop where
  limit : m'.mLimit = m.mLimit
  name : m'.mName = m.mName
  base : m'.base = m.base
  ent : ∀ i, m.slots ≤ i → m'.ent i = m.ent i

theorem toInt_add_of_range {a b : Int64} (hlow : -2 ^ 63 ≤ a.toInt + b.toInt)
    (hhigh : a.toInt + b.toInt < 2 ^ 63) : (a + b).toInt = a.toInt + b.toInt := by
  rw [Int64.toInt_add]
  apply Int.bmod_eq_of_le_mul_two
  · omega
  · omega

theorem toInt_sub_of_range {a b : Int64} (hlow : -2 ^ 63 ≤ a.toInt - b.toInt)
    (hhigh : a.toInt - b.toInt < 2 ^ 63) : (a - b).toInt = a.toInt - b.toInt := by
  rw [Int64.toInt_sub]
  apply Int.bmod_eq_of_le_mul_two
  · omega
  · omega

variable {m m' : Map} {l l' l₁ l₂ : List MapEnt} {e : MapEnt} {size addr : Int64}

section

variable (h : Table m l)
include h

theorem Table.size_pos (he : e ∈ l) : 0 < e.mSize.toInt := by
  have hlt : e.mAddr.toInt < e.mAddr.toInt + e.mSize.toInt := h.apart.nonempty e.extent (mem_map_of_mem he)
  omega

theorem Table.size_ne : ∀ e ∈ l, e.mSize ≠ 0 := by
  intro e he hzero
  have hpos := h.size_pos he
  rw [hzero] at hpos
  exact absurd hpos (by decide)

theorem Table.end_toInt (he : e ∈ l) : (e.mAddr + e.mSize).toInt = e.mAddr.toInt + e.mSize.toInt := by
  have haddr := (h.fits e he).addr
  have hstop := (h.fits e he).stop
  have hsize := h.size_pos he
  exact toInt_add_of_range (by omega) hstop

theorem Table.end_zero : (m.ent (0 + l.length)).mSize = 0 := by
  rw [Nat.zero_add]
  exact h.rest l.length le_rfl h.room

theorem Table.ent_eq {i : ℕ} (hi : i < l.length) : m.ent i = l[i] := by
  have hget := h.row.get hi
  rwa [Nat.zero_add] at hget

theorem Table.free_eq : m.free = units (l.map MapEnt.extent) := by
  ext x
  constructor
  · rintro ⟨i, hi, hx⟩
    by_cases hlen : i < l.length
    · rw [h.ent_eq hlen] at hx
      exact ⟨l[i].extent, mem_map_of_mem (getElem_mem hlen), hx⟩
    · have hzero := h.rest i (Nat.le_of_not_lt hlen) hi
      unfold range at hx
      rw [hzero] at hx
      simp at hx
  · rintro ⟨r, hr, hx⟩
    obtain ⟨e, he, rfl⟩ := mem_map.mp hr
    obtain ⟨i, hi, rfl⟩ := mem_iff_getElem.mp he
    refine ⟨i, hi.trans h.room, ?_⟩
    rw [h.ent_eq hi]
    exact hx

end

/-- No slot is left for another entry. -/
def Full (m : Map) : Prop := ∀ i, i + 1 < m.slots → (m.ent i).mSize ≠ 0

theorem Table.at_ge (h : Table m l) (i : ℕ) : m.at i ≥ m.mLimit ↔ m.slots ≤ i := by
  unfold Map.at
  rw [h.limit]
  omega

theorem Table.full_iff (h : Table m l) : Full m ↔ m.slots ≤ l.length + 1 := by
  constructor
  · intro hfull
    by_contra hlt
    exact hfull l.length (by omega) (h.rest l.length le_rfl h.room)
  · intro hle i hi
    have hlen : i < l.length := by omega
    rw [h.ent_eq hlen]
    exact h.size_ne _ (getElem_mem hlen)

theorem Untouched.slots (h : Untouched m m') : m'.slots = m.slots := by
  unfold Map.slots
  rw [h.limit, h.base]

theorem Table.rebuild (h : Table m l) (hu : Untouched m m') (hrow : Row m'.ent 0 l') (hroom : l'.length < m.slots)
    (hrest : ∀ i, l'.length ≤ i → i < m.slots → (m'.ent i).mSize = 0)
    (hfits : ∀ e ∈ l', e.Fits) (hapart : Apart (l'.map MapEnt.extent)) : Table m' l' := by
  refine ⟨?_, hrow, ?_, ?_, hfits, hapart⟩
  · rw [hu.limit, hu.base, hu.slots]
    exact h.limit
  · rw [hu.slots]
    exact hroom
  · rw [hu.slots]
    exact hrest

theorem Table.split (h : Table m (l₁ ++ e :: l₂)) :
    m.ent l₁.length = e ∧ Row m.ent 0 l₁ ∧ Row m.ent (l₁.length + 1) l₂ ∧
      (m.ent (l₁.length + 1 + l₂.length)).mSize = 0 ∧ l₁.length + 1 + l₂.length < m.slots := by
  obtain ⟨hfront, he, hbehind⟩ := row_append.mp h.row
  have hroom := h.room
  have hrest := h.rest (l₁.length + 1 + l₂.length)
  simp only [length_append, length_cons] at hroom hrest
  rw [Nat.zero_add] at he hbehind
  exact ⟨he, hfront, hbehind, hrest (by omega) (by omega), by omega⟩

theorem untouched_of_ent {ent' : ℕ → MapEnt} (h : ∀ i, m.slots ≤ i → ent' i = m.ent i) :
    Untouched m { m with ent := ent' } :=
  ⟨rfl, rfl, rfl, h⟩

theorem Untouched.refl (m : Map) : Untouched m m := ⟨rfl, rfl, rfl, fun _ _ => rfl⟩

section

variable (h : Table m (l₁ ++ e :: l₂))
include h

theorem Table.close {ent' : ℕ → MapEnt}
    (hrow : Row ent' l₁.length l₂) (hend : (ent' (l₁.length + l₂.length)).mSize = 0)
    (hframe : ∀ j, j < l₁.length ∨ l₁.length + l₂.length < j → ent' j = m.ent j) :
    Table { m with ent := ent' } (l₁ ++ l₂) ∧ Untouched m { m with ent := ent' } := by
  obtain ⟨-, hfront, -, -, hroom⟩ := h.split
  have hu : Untouched m { m with ent := ent' } := untouched_of_ent fun i hi => hframe i (by omega)
  refine ⟨h.rebuild hu ?_ ?_ (fun i hi hlt => ?_) (fun x hx => ?_) ?_, hu⟩
  · refine row_append.mpr ⟨hfront.congr fun j _ hj => hframe j (by omega), ?_⟩
    rw [Nat.zero_add]
    exact hrow
  · rw [length_append]
    omega
  · rw [length_append] at hi
    by_cases heq : i = l₁.length + l₂.length
    · rw [heq]
      exact hend
    · have hold := h.rest i
      simp only [length_append, length_cons] at hold
      exact (congrArg MapEnt.mSize (hframe i (by omega))).trans (hold (by omega) hlt)
  · exact h.fits x (((sublist_cons_self e l₂).append_left l₁).subset hx)
  · have hapart := h.apart
    rw [map_append, map_cons] at hapart
    have hnone := hapart.replace apart_nil fun x hx => absurd hx not_mem_nil
    rwa [append_nil, ← map_append] at hnone

theorem Table.change {e' : MapEnt} (hfits : e'.Fits) (hapart : Apart ((l₁ ++ e' :: l₂).map MapEnt.extent)) :
    Table (m.set l₁.length e') (l₁ ++ e' :: l₂) ∧ Untouched m (m.set l₁.length e') := by
  obtain ⟨-, hfront, hbehind, -, hroom⟩ := h.split
  have hother {j : ℕ} (hj : j ≠ l₁.length) : (m.set l₁.length e').ent j = m.ent j := update_of_ne hj ..
  have hu : Untouched m (m.set l₁.length e') := untouched_of_ent fun i hi => hother (by omega)
  refine ⟨h.rebuild hu ?_ ?_ (fun i hi hlt => ?_) (fun x hx => ?_) hapart, hu⟩
  · refine row_append.mpr ⟨hfront.congr fun j _ hj => hother (by omega), ?_, ?_⟩
    · rw [Nat.zero_add]
      exact update_self ..
    · rw [Nat.zero_add]
      exact hbehind.congr fun j hj _ => hother (by omega)
  · simp only [length_append, length_cons]
    omega
  · have hold := h.rest i
    simp only [length_append, length_cons] at hi hold
    rw [hother (by omega)]
    exact hold hi hlt
  · simp only [mem_append, mem_cons] at hx
    have hold := h.fits x
    simp only [mem_append, mem_cons] at hold
    rcases hx with hx | heq | hx
    · exact hold (.inl hx)
    · exact heq ▸ hfits
    · exact hold (.inr (.inr hx))

theorem Table.part {e' : MapEnt} (hsize : 0 < e'.mSize.toInt) (hfrom : e.mAddr.toInt ≤ e'.mAddr.toInt)
    (hto : e'.mAddr.toInt + e'.mSize.toInt ≤ e.mAddr.toInt + e.mSize.toInt) :
    Table (m.set l₁.length e') (l₁ ++ e' :: l₂) ∧ Untouched m (m.set l₁.length e') := by
  have hfits := h.fits e (mem_append_right _ (mem_cons_self ..))
  have hlow := hfits.addr
  have hhigh := hfits.stop
  apply h.change ⟨by omega, by omega⟩
  have hapart := h.apart
  rw [map_append, map_cons] at hapart ⊢
  have hlt : e'.extent.1 < e'.extent.2 := by
    unfold MapEnt.extent
    omega
  have hin : ∀ x ∈ [e'.extent], e.extent.1 ≤ x.1 ∧ x.2 ≤ e.extent.2 := by
    intro x hx
    obtain rfl := mem_singleton.mp hx
    exact ⟨hfrom, hto⟩
  have hparts := hapart.replace (apart_singleton hlt) hin
  rwa [append_assoc, singleton_append] at hparts

theorem Table.free_remove {q : List MapEnt}
    (h' : Table m' (l₁ ++ q ++ l₂)) (hsub : range size addr ⊆ range e.mSize e.mAddr)
    (hq : units (q.map MapEnt.extent) = range e.mSize e.mAddr \ range size addr) :
    m'.free = m.free \ range size addr := by
  have hapart := h.apart
  rw [map_append, map_cons] at hapart
  rw [h.free_eq, h'.free_eq]
  simp only [map_append, map_cons]
  exact hapart.units_remove hsub hq

end

/-- What `rmalloc` is for: the first entry with enough units gives them from its start, or there
is none. -/
def Allocates (m : Map) (size : Int64) (m' : Map) (v : Int64) : Prop :=
  (∃ i < m.slots, size ≤ (m.ent i).mSize ∧ (∀ j < i, (m.ent j).mSize < size) ∧
      v = (m.ent i).mAddr ∧ v ≠ 0 ∧ m'.free = m.free \ range size v) ∨
    ((∀ i < m.slots, (m.ent i).mSize < size) ∧ v = 0 ∧ m'.free = m.free)

def RmallocOk (m : Map) (size : Int64) : Prop :=
  if size ≤ 0 then rmalloc m size = some .panic
  else ∃ m' v, rmalloc m size = some (.returns m' v) ∧ Shape m' ∧ Untouched m m' ∧ Allocates m size m' v

theorem rmalloc_ok (hm : Shape m) (size : Int64) : RmallocOk m size := by
  obtain ⟨l, h⟩ := hm
  unfold RmallocOk
  split
  · rename_i hsize
    exact if_pos hsize
  rename_i hsize
  have hpos : 0 < size.toInt := by
    rw [Int64.not_le, Int64.lt_iff_toInt_lt] at hsize
    exact hsize
  obtain ⟨l₁, l₂, rfl, hscan, hpassed, hhead⟩ :=
    scan_end (fun e => decide (e.mSize ≥ size)) h.row h.size_ne h.end_zero h.room
  have hsmall : ∀ e ∈ l₁, e.mSize < size := by
    intro e he
    rw [← Int64.not_le]
    exact of_decide_eq_false (hpassed e he)
  have hzero : (0 : Int64) < size := Int64.not_le.mp hsize
  unfold rmalloc
  rw [if_neg hsize, hscan, Option.bind_some, Nat.zero_add]
  cases l₂ with
  | nil =>
    rw [append_nil] at h
    rw [if_pos (h.rest l₁.length le_rfl h.room)]
    refine ⟨m, 0, rfl, ⟨l₁, h⟩, .refl m, .inr ⟨fun i hi => ?_, rfl, rfl⟩⟩
    by_cases hlen : i < l₁.length
    · rw [h.ent_eq hlen]
      exact hsmall _ (getElem_mem hlen)
    · rw [h.rest i (Nat.le_of_not_lt hlen) hi]
      exact hzero
  | cons e l₂ =>
    have he : e ∈ l₁ ++ e :: l₂ := mem_append_right _ (mem_cons_self ..)
    obtain ⟨hent, -, hbehind, hend, hroom⟩ := h.split
    have hfits : size ≤ e.mSize := of_decide_eq_true (hhead e rfl)
    have hle : size.toInt ≤ e.mSize.toInt := Int64.le_iff_toInt_le.mp hfits
    have haddr := (h.fits e he).addr
    have hstop := (h.fits e he).stop
    have hsub : (e.mSize - size).toInt = e.mSize.toInt - size.toInt := toInt_sub_of_range (by omega) (by omega)
    have hadd : (e.mAddr + size).toInt = e.mAddr.toInt + size.toInt := toInt_add_of_range (by omega) (by omega)
    have hin : range size e.mAddr ⊆ range e.mSize e.mAddr := Set.Ico_subset_Ico_right (by omega)
    have hfirst : ∀ j < l₁.length, (m.ent j).mSize < size := by
      intro j hj
      have hlen : j < (l₁ ++ e :: l₂).length := by
        rw [length_append]
        omega
      rw [h.ent_eq hlen, getElem_append_left hj]
      exact hsmall _ (getElem_mem hj)
    have hne : e.mAddr ≠ 0 := by
      intro h0
      rw [h0] at haddr
      exact absurd haddr (by decide)
    have hself : (m.set l₁.length ⟨e.mSize - size, e.mAddr + size⟩).ent l₁.length =
        ⟨e.mSize - size, e.mAddr + size⟩ := update_self ..
    rw [hent, if_neg (h.size_ne e he)]
    simp only
    rw [hself]
    have hfound {m' : Map} {q : List MapEnt} (hm' : Table m' (l₁ ++ q ++ l₂) ∧ Untouched m m')
        (hq : units (q.map MapEnt.extent) = range e.mSize e.mAddr \ range size e.mAddr) :
        Shape m' ∧ Untouched m m' ∧ Allocates m size m' e.mAddr := by
      refine ⟨⟨_, hm'.1⟩, hm'.2, .inl ⟨l₁.length, by omega, ?_, hfirst, ?_, hne, h.free_remove hm'.1 hin hq⟩⟩
      · rw [hent]
        exact hfits
      · rw [hent]
    split
    · rename_i hnone
      -- the entry is used up
      have hnone : e.mSize - size = 0 := hnone
      have hall : size = e.mSize := by
        rw [hnone] at hsub
        have h0 : (0 : Int64).toInt = 0 := rfl
        apply Int64.toInt_inj.mp
        omega
      have hother {j : ℕ} (hj : j ≠ l₁.length) :
          (m.set l₁.length ⟨e.mSize - size, e.mAddr + size⟩).ent j = m.ent j :=
        update_of_ne hj ..
      have hrow : Row (m.set l₁.length ⟨e.mSize - size, e.mAddr + size⟩).ent (l₁.length + 1) l₂ :=
        hbehind.congr fun j hj _ => hother (by omega)
      have hend' : ((m.set l₁.length ⟨e.mSize - size, e.mAddr + size⟩).ent
          (l₁.length + 1 + l₂.length)).mSize = 0 := by
        rw [hother (by omega)]
        exact hend
      have hsizes : ∀ x ∈ l₂, x.mSize ≠ 0 := fun x hx =>
        h.size_ne x (mem_append_right _ (mem_cons_of_mem _ hx))
      have hfuel : l₂.length < m.slots := by omega
      obtain ⟨ent', hclose, hrow', hend'', hframe⟩ := closeUp_end hrow hsizes hend' hfuel
      have hslots : (m.set l₁.length ⟨e.mSize - size, e.mAddr + size⟩).slots = m.slots := rfl
      rw [hslots, hclose]
      have htable := h.close hrow' hend'' fun j hj => by
        rw [hframe j hj]
        exact hother (by omega)
      rw [← append_nil l₁] at htable
      refine ⟨_, e.mAddr, rfl, hfound htable ?_⟩
      rw [hall, map_nil, units_nil, Set.sdiff_self]
    · rename_i hsome
      -- its end is left
      have hrest : 0 < (e.mSize - size).toInt := by
        have hne0 : (e.mSize - size).toInt ≠ 0 := fun h0 => hsome (Int64.toInt_inj.mp h0)
        omega
      have hpart : 0 < (MapEnt.mk (e.mSize - size) (e.mAddr + size)).mSize.toInt := hrest
      have htable := h.part hpart (by simp only; omega) (by simp only; omega)
      rw [← singleton_append, ← append_assoc] at htable
      refine ⟨_, e.mAddr, rfl, hfound htable ?_⟩
      rw [map_singleton, units_cons, units_nil, Set.union_empty]
      unfold range MapEnt.extent
      ext x
      simp only [Set.mem_Ico, Set.mem_sdiff]
      omega

end Refinement

end Osf1.Rmap
