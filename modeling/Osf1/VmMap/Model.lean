import Osf1.Computation.CircularList
import Osf1.Computation.Extents

/-!
# Address maps

The entries of a map are linked in a ring behind its header, which holds the bounds of the map.  Two pointers
to entries only save time: `vm_hint`, where `vm_map_lookup_entry` starts, and `vm_first_free`, where
`vm_map_space` starts.  The loops have a number of turns; `none` is a loop that has not ended.
-/

set_option autoImplicit false

namespace Osf1.VmMap

open List

section Model

open Osf1.Computation

/-- SRC: mach/alpha/vm_types.h:73-74 -/
abbrev VmOffset := BitVec 64

/-- SRC: mach/kern_return.h:58-71 -/
inductive KernReturn where
  | invalidAddress
  | noSpace
deriving DecidableEq

/-- A map whose entries are at the places `ι`.  The header is `vm_map_to_entry`, the `vm_links` of the map, so
that its start and end are the bounds of the map.
SRC: vm/vm_map.h:88-94,148-184 -/
structure Map (ι : Type) where
  vmMapToEntry : ι
  vmeNext : ι → ι
  vmePrev : ι → ι
  vmeStart : ι → VmOffset
  vmeEnd : ι → VmOffset
  vmHint : ι
  vmFirstFree : ι
  vmWaitForSpace : Bool

namespace Map

variable {ι : Type} (map : Map ι)

/-- SRC: vm/vm_map.h:190 -/
def vmMinOffset : VmOffset := map.vmeStart map.vmMapToEntry

/-- SRC: vm/vm_map.h:191 -/
def vmMaxOffset : VmOffset := map.vmeEnd map.vmMapToEntry

/-- SRC: vm/vm_map.h:196 -/
def vmMapFirstEntry : ι := map.vmeNext map.vmMapToEntry

/-- SRC: vm/vm_map.h:413-416 -/
def saveHint (value : ι) : Map ι := { map with vmHint := value }

end Map

section Lookup

variable {ι : Type} [DecidableEq ι]

/-- The linear search: the result, the entry, and the hint that is saved.
SRC: vm/vm_map.c:526-547 -/
def lookupLoop (map : Map ι) (address : VmOffset) (last : ι) : ℕ → ι → Option (Bool × ι × Map ι)
  | 0, _ => none
  | fuel + 1, cur =>
    if cur ≠ last then
      if address < map.vmeEnd cur then
        if map.vmeStart cur ≤ address then some (true, cur, map.saveHint cur)
        else some (false, map.vmePrev cur, map.saveHint (map.vmePrev cur))
      else lookupLoop map address last fuel (map.vmeNext cur)
    else some (false, map.vmePrev cur, map.saveHint (map.vmePrev cur))

/-- SRC: vm/vm_map.c:478-549 -/
def vmMapLookupEntry (fuel : ℕ) (map : Map ι) (address : VmOffset) : Option (Bool × ι × Map ι) :=
  let cur := if map.vmHint = map.vmMapToEntry then map.vmeNext map.vmHint else map.vmHint
  if map.vmeStart cur ≤ address then
    let last := map.vmMapToEntry
    if cur ≠ last ∧ address < map.vmeEnd cur then some (true, cur, map)
    else lookupLoop map address last fuel cur
  else lookupLoop map address (map.vmeNext cur) fuel map.vmMapFirstEntry

end Lookup

section Space

variable {ι : Type} [DecidableEq ι]

/-- How a call of `vm_map_space` ends: with the address and the entry in front of it, with an error, or waiting
for space, after which the function starts again. -/
inductive Space (ι : Type) where
  | success (address : VmOffset) (prevEntry : ι)
  | failed (value : KernReturn)
  | again
deriving DecidableEq

/-- The loop that moves from entry to entry.  A `hint` of 0 is none.
SRC: vm/vm_map.c:613-664 -/
def spaceLoop (map : Map ι) (size mask hint : VmOffset) : ℕ → Bool → ι → VmOffset → Option (Space ι)
  | 0, _, _, _ => none
  | fuel + 1, firstTime, entry, start =>
    let start := (start + mask) &&& ~~~mask
    let end' := start + size
    if map.vmMaxOffset < end' ∨ end' < start ∨ (hint ≠ 0 ∧ firstTime = false ∧ hint ≤ start) then
      if hint ≠ 0 ∧ firstTime = true then
        if map.vmFirstFree ≠ map.vmMapToEntry then
          spaceLoop map size mask hint fuel false map.vmFirstFree (map.vmeEnd map.vmFirstFree)
        else spaceLoop map size mask hint fuel false map.vmFirstFree map.vmMinOffset
      else if map.vmWaitForSpace = true ∧ size ≤ map.vmMaxOffset - map.vmMinOffset then some .again
      else some (.failed .noSpace)
    else
      let next := map.vmeNext entry
      if next = map.vmMapToEntry then some (.success start entry)
      else if end' ≤ map.vmeStart next then some (.success start entry)
      else spaceLoop map size mask hint fuel firstTime next (map.vmeEnd next)

/-- SRC: vm/vm_map.c:551-718 -/
def vmMapSpace (fuel : ℕ) (map : Map ι) (address size mask : VmOffset) (anywhere : Bool) :
    Option (Space ι × Map ι) :=
  if anywhere = true then
    let start := if address < map.vmMinOffset then map.vmMinOffset else address
    if map.vmMaxOffset < start then some (.failed .noSpace, map)
    else if start = map.vmMinOffset then
      let start := if map.vmFirstFree ≠ map.vmMapToEntry then map.vmeEnd map.vmFirstFree else start
      (spaceLoop map size mask 0 fuel true map.vmFirstFree start).map fun r => (r, map)
    else
      (vmMapLookupEntry fuel map start).bind fun (found, tmpEntry, map) =>
        let hint := start
        let start := if found = true then map.vmeEnd tmpEntry else start
        (spaceLoop map size mask hint fuel true tmpEntry start).map fun r => (r, map)
  else
    let start := address
    if start &&& mask ≠ 0 then some (.failed .noSpace, map)
    else
      let end' := start + size
      if start < map.vmMinOffset ∨ map.vmMaxOffset < end' ∨ end' ≤ start then
        some (.failed .invalidAddress, map)
      else
        (vmMapLookupEntry fuel map start).map fun (found, tempEntry, map) =>
          if found = true then (.failed .noSpace, map)
          else if map.vmeNext tempEntry ≠ map.vmMapToEntry ∧ map.vmeStart (map.vmeNext tempEntry) < end' then
            (.failed .noSpace, map)
          else (.success start tempEntry, map)

end Space

section WellFormed

variable {ι : Type}

/-- The entries of a map are linked behind its header in the order of their addresses, none of them is empty,
and they are inside its bounds. -/
structure Map.Sorted (map : Map ι) (entries : List ι) : Prop where
  ring : Circular map.vmeNext map.vmePrev map.vmMapToEntry entries
  intervals : Intervals (fun e => (map.vmeStart e).toNat) (fun e => (map.vmeEnd e).toNat) entries
  bounds : map.vmMinOffset ≤ map.vmMaxOffset
  low : ∀ e ∈ entries, map.vmMinOffset ≤ map.vmeStart e
  high : ∀ e ∈ entries, map.vmeEnd e ≤ map.vmMaxOffset

/-- There is no hole at or below the end of the entry that `vm_first_free` points to. -/
structure Map.FirstFree (map : Map ι) (entries : List ι) : Prop where
  mem : map.vmFirstFree ∈ map.vmMapToEntry :: entries
  full : map.vmFirstFree ≠ map.vmMapToEntry → ∀ x, map.vmMinOffset ≤ x → x < map.vmeEnd map.vmFirstFree →
    ∃ e ∈ entries, map.vmeStart e ≤ x ∧ x < map.vmeEnd e

end WellFormed

end Model

/-!
## The lookup hint

`vm_map_lookup_entry` starts at the hint or at the first entry.  Wherever it starts, the entries it leaves out
end at or before the address, so that it comes to the entry that a search of the whole list comes to.
-/

section Lookup

open Osf1.Computation

variable {ι : Type} {map : Map ι} {entries l l₁ l₂ l₃ : List ι} {address : VmOffset} {e entry : ι} {found : Bool}

theorem Map.Sorted.saveHint (h : map.Sorted entries) (e : ι) : (map.saveHint e).Sorted entries :=
  ⟨h.ring, h.intervals, h.bounds, h.low, h.high⟩

/-- The entry holds the address. -/
def Map.Holds (map : Map ι) (e : ι) (address : VmOffset) : Prop := map.vmeStart e ≤ address ∧ address < map.vmeEnd e

/-- The last entry that ends at or before the address, or the header if there is none. -/
def Map.preceding (map : Map ι) (entries : List ι) (address : VmOffset) : ι :=
  (map.vmMapToEntry :: entries.filter fun e => map.vmeEnd e ≤ address).getLast (List.cons_ne_nil _ _)

/-- What a lookup is to answer. -/
structure Answers (map : Map ι) (entries : List ι) (address : VmOffset) (found : Bool) (entry : ι) : Prop where
  present : found = true → entry ∈ entries ∧ map.Holds entry address
  absent : found = false → (∀ e ∈ entries, ¬map.Holds e address) ∧ entry = map.preceding entries address

theorem Map.Sorted.end_le_start (h : map.Sorted (l₁ ++ e :: l₂)) {d : ι} (hd : d ∈ l₁) :
    map.vmeEnd d ≤ map.vmeStart e := h.intervals.le_lo hd

theorem Map.Sorted.start_lt_end (h : map.Sorted entries) (he : e ∈ entries) : map.vmeStart e < map.vmeEnd e :=
  h.intervals.lt e he

theorem answers_absent (h : map.Sorted (l₁ ++ l₂)) (hbefore : ∀ e ∈ l₁, map.vmeEnd e ≤ address)
    (hafter : ∀ e ∈ l₂, address < map.vmeStart e) :
    Answers map (l₁ ++ l₂) address false ((map.vmMapToEntry :: l₁).getLast (List.cons_ne_nil _ _)) := by
  refine ⟨nofun, fun _ => ⟨?_, ?_⟩⟩
  · intro e he hholds
    rcases mem_append.mp he with hmem | hmem
    · exact absurd hholds.2 (BitVec.not_lt.mpr (hbefore e hmem))
    · exact absurd (hafter e hmem) (BitVec.not_lt.mpr hholds.1)
  · have hleft : l₁.filter (fun e => map.vmeEnd e ≤ address) = l₁ :=
      filter_eq_self.mpr fun e he => decide_eq_true (hbefore e he)
    have hright : l₂.filter (fun e => map.vmeEnd e ≤ address) = [] := by
      apply filter_eq_nil_iff.mpr
      intro e he
      have hlt := h.start_lt_end (mem_append_right l₁ he)
      have hstart := hafter e he
      simp only [decide_eq_true_eq, BitVec.not_le]
      exact BitVec.lt_trans hstart hlt
    simp only [Map.preceding, filter_append, hleft, hright, append_nil]

theorem Answers.unique (h : map.Sorted entries) {found' : Bool} {entry' : ι}
    (ha : Answers map entries address found entry) (ha' : Answers map entries address found' entry') :
    found = found' ∧ entry = entry' := by
  cases found with
  | false =>
    cases found' with
    | false => exact ⟨rfl, (ha.absent rfl).2.trans (ha'.absent rfl).2.symm⟩
    | true => exact absurd (ha'.present rfl).2 ((ha.absent rfl).1 entry' (ha'.present rfl).1)
  | true =>
    cases found' with
    | false => exact absurd (ha.present rfl).2 ((ha'.absent rfl).1 entry (ha.present rfl).1)
    | true =>
      refine ⟨rfl, ?_⟩
      obtain ⟨hmem, hstart, hend⟩ := ha.present rfl
      obtain ⟨hmem', hstart', hend'⟩ := ha'.present rfl
      -- of two entries one ends where the other starts or before
      obtain ⟨k₁, k₂, rfl⟩ := append_of_mem hmem
      rcases mem_append.mp hmem' with hleft | hright
      · have hle := h.end_le_start hleft
        exact absurd hend' (BitVec.not_lt.mpr (BitVec.le_trans hle hstart))
      · rcases mem_cons.mp hright with heq | hright
        · exact heq.symm
        · have hle : map.vmeEnd entry ≤ map.vmeStart entry' := h.intervals.right.hi_le hright
          exact absurd hend (BitVec.not_lt.mpr (BitVec.le_trans hle hstart'))

variable [DecidableEq ι]

theorem lookupLoop_answers (h : map.Sorted (l₁ ++ (l₂ ++ l₃)))
    (hbefore : ∀ e ∈ l₁, map.vmeEnd e ≤ address) (hend : l₃ = [] ∨ ∃ e ∈ l₂, address < map.vmeEnd e) {cur last : ι} (hcur : (l₂ ++ l₃ ++ [map.vmMapToEntry]).head? = some cur)
    (hlast : (l₃ ++ [map.vmMapToEntry]).head? = some last) :
    ∃ found entry, Answers map (l₁ ++ (l₂ ++ l₃)) address found entry ∧ ∀ fuel, l₂.length < fuel →
      lookupLoop map address last fuel cur = some (found, entry, map.saveHint entry) := by
  induction l₂ generalizing l₁ cur with
  | nil =>
    obtain rfl : l₃ = [] := hend.resolve_right (by simp)
    obtain rfl : map.vmMapToEntry = cur := by simpa using hcur
    obtain rfl : map.vmMapToEntry = last := by simpa using hlast
    have hprev : map.vmePrev map.vmMapToEntry = (map.vmMapToEntry :: l₁).getLast (cons_ne_nil _ _) := by
      simpa using h.ring.path.prev_eq
    refine ⟨false, _, answers_absent h hbefore nofun, ?_⟩
    intro fuel hfuel
    obtain ⟨fuel, rfl⟩ := Nat.exists_eq_succ_of_ne_zero (Nat.ne_zero_of_lt hfuel)
    rw [lookupLoop, if_neg (not_not.mpr rfl), hprev]
  | cons c l₂ ih =>
    obtain rfl : c = cur := by simpa using hcur
    rw [cons_append] at h ⊢
    obtain ⟨hfront, hback⟩ := path_append.mp h.ring.path
    have hnotin : c ∉ l₂ ++ l₃ ++ [map.vmMapToEntry] := by
      have hnodup := (perm_append_singleton map.vmMapToEntry _).nodup_iff.mpr h.ring.nodup
      rw [append_assoc, cons_append] at hnodup
      exact (nodup_cons.mp (nodup_append.mp hnodup).2.1).1
    have hne : c ≠ last := by
      rintro rfl
      rw [append_assoc] at hnotin
      exact hnotin (mem_append_right _ (mem_of_mem_head? hlast))
    have hturn (fuel : ℕ) : lookupLoop map address last (fuel + 1) c =
        if address < map.vmeEnd c then
          if map.vmeStart c ≤ address then some (true, c, map.saveHint c)
          else some (false, map.vmePrev c, map.saveHint (map.vmePrev c))
        else lookupLoop map address last fuel (map.vmeNext c) := by
      rw [lookupLoop, if_pos hne]
    by_cases hlt : address < map.vmeEnd c
    · by_cases hle : map.vmeStart c ≤ address
      · refine ⟨true, c, ⟨fun _ => ⟨mem_append_right _ (mem_cons_self ..), hle, hlt⟩, nofun⟩, ?_⟩
        intro fuel hfuel
        obtain ⟨fuel, rfl⟩ := Nat.exists_eq_succ_of_ne_zero (Nat.ne_zero_of_lt hfuel)
        rw [hturn, if_pos hlt, if_pos hle]
      · refine ⟨false, map.vmePrev c, ?_, ?_⟩
        · rw [hfront.prev_eq]
          apply answers_absent h hbefore
          intro e he
          rcases mem_cons.mp he with heq | hmem
          · exact heq ▸ BitVec.not_le.mp hle
          · have hafter : map.vmeEnd c ≤ map.vmeStart e := h.intervals.right.hi_le hmem
            exact BitVec.lt_def.mpr (Nat.lt_of_lt_of_le hlt hafter)
        · intro fuel hfuel
          obtain ⟨fuel, rfl⟩ := Nat.exists_eq_succ_of_ne_zero (Nat.ne_zero_of_lt hfuel)
          rw [hturn, if_pos hlt, if_neg hle]
    · have hnext : (l₂ ++ l₃ ++ [map.vmMapToEntry]).head? = some (map.vmeNext c) := hback.next_eq
      have hbefore' : ∀ e ∈ l₁ ++ [c], map.vmeEnd e ≤ address := by
        intro e he
        rcases mem_append.mp he with hmem | hmem
        · exact hbefore e hmem
        · exact mem_singleton.mp hmem ▸ BitVec.not_lt.mp hlt
      have hend' : l₃ = [] ∨ ∃ e ∈ l₂, address < map.vmeEnd e := by
        apply hend.imp_right
        rintro ⟨e, he, hlt'⟩
        rcases mem_cons.mp he with heq | hmem
        · exact absurd (heq ▸ hlt') hlt
        · exact ⟨e, hmem, hlt'⟩
      have hsplit : l₁ ++ c :: (l₂ ++ l₃) = l₁ ++ [c] ++ (l₂ ++ l₃) := (append_cons ..)
      rw [hsplit] at h ⊢
      obtain ⟨found, entry, ha, hloop⟩ := ih h hbefore' hend' hnext
      refine ⟨found, entry, ha, ?_⟩
      intro fuel hfuel
      obtain ⟨fuel, rfl⟩ := Nat.exists_eq_succ_of_ne_zero (Nat.ne_zero_of_lt hfuel)
      rw [hturn, if_neg hlt, hloop fuel (Nat.lt_of_succ_lt_succ hfuel)]

theorem vmMapLookupEntry_answers (h : map.Sorted entries) (hhint : map.vmHint ∈ map.vmMapToEntry :: entries) :
    ∃ found entry, Answers map entries address found entry ∧ ∃ hint' ∈ map.vmMapToEntry :: entries,
      ∀ fuel, entries.length < fuel → vmMapLookupEntry fuel map address = some (found, entry, map.saveHint hint') := by
  -- what is saved is the answer
  have hmem {found : Bool} {entry : ι} (ha : Answers map entries address found entry) :
      entry ∈ map.vmMapToEntry :: entries := by
    cases found with
    | true => exact mem_cons_of_mem _ (ha.present rfl).1
    | false =>
      rw [(ha.absent rfl).2]
      have hsub : (map.vmMapToEntry :: entries.filter fun e => map.vmeEnd e ≤ address) ⊆ map.vmMapToEntry :: entries :=
        cons_subset_cons _ (filter_subset_self ..)
      exact hsub (getLast_mem _)
  have hfirst : (entries ++ [map.vmMapToEntry]).head? = some map.vmMapFirstEntry := h.ring.path.next_eq
  have hstart : ∃ k₁ k₂, entries = k₁ ++ k₂ ∧ (k₂ = [] → k₁ = []) ∧ (k₂ ++ [map.vmMapToEntry]).head? =
      some (if map.vmHint = map.vmMapToEntry then map.vmeNext map.vmHint else map.vmHint) := by
    by_cases hheader : map.vmHint = map.vmMapToEntry
    · rw [if_pos hheader, hheader]
      exact ⟨[], entries, rfl, fun _ => rfl, hfirst⟩
    · rw [if_neg hheader]
      obtain ⟨k₁, k₂, heq⟩ := append_of_mem ((mem_cons.mp hhint).resolve_left hheader)
      exact ⟨k₁, map.vmHint :: k₂, heq, nofun, rfl⟩
  unfold vmMapLookupEntry
  generalize (if map.vmHint = map.vmMapToEntry then map.vmeNext map.vmHint else map.vmHint) = cur at hstart
  obtain ⟨k₁, k₂, rfl, hempty, hcur⟩ := hstart
  by_cases hle : map.vmeStart cur ≤ address
  · simp only [if_pos hle]
    by_cases hquick : cur ≠ map.vmMapToEntry ∧ address < map.vmeEnd cur
    · have hmemcur : cur ∈ k₂ := by
        have hmem := mem_of_mem_head? hcur
        exact (mem_append.mp hmem).resolve_right fun heq => hquick.1 (mem_singleton.mp heq)
      exact ⟨true, cur, ⟨fun _ => ⟨mem_append_right _ hmemcur, hle, hquick.2⟩, nofun⟩, map.vmHint, hhint,
        fun _ _ => if_pos hquick⟩
    · have hbefore : ∀ e ∈ k₁, map.vmeEnd e ≤ address := by
        intro e he
        cases k₂ with
        | nil => simp [hempty rfl] at he
        | cons d k₂ =>
          obtain rfl : d = cur := by simpa using hcur
          exact BitVec.le_trans (h.end_le_start he) hle
      have hloop := @lookupLoop_answers _ map k₁ k₂ [] address _ (by rwa [append_nil]) hbefore (.inl rfl)
        cur map.vmMapToEntry (by rwa [append_nil]) rfl
      obtain ⟨found, entry, ha, heq⟩ := hloop
      rw [append_nil] at ha
      refine ⟨found, entry, ha, entry, hmem ha, ?_⟩
      intro fuel hfuel
      rw [length_append] at hfuel
      rw [if_neg hquick, heq fuel (by omega)]
  · simp only [if_neg hle]
    cases k₂ with
    | nil =>
      obtain rfl : k₁ = [] := hempty rfl
      obtain rfl : map.vmMapToEntry = cur := by simpa using hcur
      have hloop := @lookupLoop_answers _ map [] [] [] address _ h nofun (.inl rfl) _ _ hfirst hfirst
      obtain ⟨found, entry, ha, heq⟩ := hloop
      exact ⟨found, entry, ha, entry, hmem ha, heq⟩
    | cons d k₂ =>
      obtain rfl : d = cur := by simpa using hcur
      have hsplit : k₁ ++ d :: k₂ = [] ++ (k₁ ++ [d] ++ k₂) := by simp
      have hlast : (k₂ ++ [map.vmMapToEntry]).head? = some (map.vmeNext d) := (path_append.mp h.ring.path).2.next_eq
      have hd := h.start_lt_end (mem_append_right k₁ (mem_cons_self ..))
      have hend : ∃ e ∈ k₁ ++ [d], address < map.vmeEnd e := ⟨d, by simp, BitVec.lt_trans (BitVec.not_le.mp hle) hd⟩
      rw [hsplit] at h hfirst ⊢
      obtain ⟨found, entry, ha, heq⟩ := lookupLoop_answers h nofun (.inr hend) hfirst hlast
      rw [← hsplit] at ha ⊢
      refine ⟨found, entry, ha, entry, hmem ha, ?_⟩
      intro fuel hfuel
      apply heq
      simp only [length_append, length_cons, length_nil] at hfuel ⊢
      omega

/-- The hint never changes an answer. -/
theorem vmMapLookupEntry_hint (h : map.Sorted entries) (address : VmOffset) :
    ∃ found entry, Answers map entries address found entry ∧
      ∀ hint ∈ map.vmMapToEntry :: entries, ∃ hint' ∈ map.vmMapToEntry :: entries, ∀ fuel, entries.length < fuel →
        vmMapLookupEntry fuel (map.saveHint hint) address = some (found, entry, map.saveHint hint') := by
  have hall (hint : ι) (hhint : hint ∈ map.vmMapToEntry :: entries) :
      ∃ found entry, Answers map entries address found entry ∧ ∃ hint' ∈ map.vmMapToEntry :: entries,
        ∀ fuel, entries.length < fuel →
          vmMapLookupEntry fuel (map.saveHint hint) address = some (found, entry, map.saveHint hint') := by
    obtain ⟨found, entry, ha, hrun⟩ := @vmMapLookupEntry_answers _ (map.saveHint hint) entries address _
      (h.saveHint hint) hhint
    exact ⟨found, entry, ⟨ha.present, ha.absent⟩, hrun⟩
  obtain ⟨found, entry, ha, -⟩ := hall map.vmMapToEntry (mem_cons_self ..)
  refine ⟨found, entry, ha, ?_⟩
  intro hint hhint
  obtain ⟨found', entry', ha', hrun⟩ := hall hint hhint
  obtain ⟨rfl, rfl⟩ := ha.unique h ha'
  exact hrun

/-- A map of addresses from 16 to 128 with the entries 1, from 32 to 48, and 2, from 64 to 96. -/
def twoEntries : Map ℕ where
  vmMapToEntry := 0
  vmeNext e := if e = 0 then 1 else if e = 1 then 2 else 0
  vmePrev e := if e = 0 then 2 else if e = 1 then 0 else 1
  vmeStart e := if e = 0 then 16 else if e = 1 then 32 else 64
  vmeEnd e := if e = 0 then 128 else if e = 1 then 48 else 96
  vmHint := 2
  vmFirstFree := 0
  vmWaitForSpace := false

theorem twoEntries_sorted : twoEntries.Sorted [1, 2] where
  ring := ⟨by decide, by decide⟩
  intervals := ⟨by decide, by decide⟩
  bounds := by decide
  low := by decide
  high := by decide

/-- The hint is behind the address, which no entry holds: the answer is entry 1. -/
theorem vmMapLookupEntry_hint_twoEntries : ∃ found entry, Answers twoEntries [1, 2] 50 found entry ∧
    ∀ hint ∈ [0, 1, 2], ∃ hint' ∈ [0, 1, 2], ∀ fuel, 2 < fuel →
      vmMapLookupEntry fuel (twoEntries.saveHint hint) 50 = some (found, entry, twoEntries.saveHint hint') :=
  vmMapLookupEntry_hint twoEntries_sorted 50

end Lookup

end Osf1.VmMap
