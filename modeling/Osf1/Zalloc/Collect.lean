import Osf1.Zalloc.Model

/-!
# Pages and the page table

Which pages a range of the zone map has, and what the functions of the page table do to an entry.  The free pages of a
pass are a list that is linked through the entries.
-/

set_option autoImplicit false

namespace Osf1.Zalloc

open Function List

section Pages

variable {Z : Type} {k : Kernel Z} {addr size p : ℕ} {table : Table}

section Ranges

theorem zonePage_mono {a b : ℕ} (h : a ≤ b) : zonePage k a ≤ zonePage k b :=
  Nat.div_le_div_right (Nat.sub_le_sub_right h _)

/-- A range of the zone map. -/
structure Inside (k : Kernel Z) (addr size : ℕ) : Prop where
  min : k.zoneMapMin ≤ addr
  max : addr + size ≤ k.zoneMapMax

theorem Spans.inside (h : Spans k addr size p) : Inside k addr size := ⟨h.1, h.2.1⟩

theorem Inside.spans (h : Inside k addr size) {b : ℕ} (hle : addr ≤ b) (hlt : b < addr + size) :
    Spans k addr size (zonePage k b) :=
  ⟨h.min, h.max, zonePage_mono hle, zonePage_mono (by omega)⟩

theorem Spans.exists_byte (h : Spans k addr size p) (hpos : 0 < size) :
    ∃ b, addr ≤ b ∧ b < addr + size ∧ zonePage k b = p := by
  obtain ⟨hmin, hmax, hfirst, hlast⟩ := h
  have hpage := k.pageSize_pos
  have hfirst' : (addr - k.zoneMapMin) / k.pageSize ≤ p := hfirst
  have hlast' : p ≤ (addr + size - 1 - k.zoneMapMin) / k.pageSize := hlast
  have hend : p * k.pageSize ≤ addr + size - 1 - k.zoneMapMin := (Nat.le_div_iff_mul_le hpage).mp hlast'
  have hstart : addr - k.zoneMapMin < (p + 1) * k.pageSize := (Nat.div_lt_iff_lt_mul hpage).mp (by omega)
  have hsucc : (p + 1) * k.pageSize = p * k.pageSize + k.pageSize := Nat.succ_mul ..
  refine ⟨max addr (k.zoneMapMin + p * k.pageSize), le_max_left .., by omega, ?_⟩
  apply (Nat.div_eq_iff hpage).mpr
  omega

theorem Inside.spans_first (h : Inside k addr size) (hpos : 0 < size) : Spans k addr size (zonePage k addr) :=
  h.spans le_rfl (by omega)

theorem spans_page {q : ℕ} (hmax : k.zoneMapMin + k.pageSize * p + k.pageSize ≤ k.zoneMapMax) :
    Spans k (k.zoneMapMin + k.pageSize * p) k.pageSize q ↔ q = p := by
  have hpage := k.pageSize_pos
  have hfirst : zonePage k (k.zoneMapMin + k.pageSize * p) = p := by
    rw [zonePage, Nat.add_sub_cancel_left, Nat.mul_div_cancel_left p hpage]
  have hlast : zonePage k (k.zoneMapMin + k.pageSize * p + k.pageSize - 1) = p := by
    apply (Nat.div_eq_iff hpage).mpr
    rw [Nat.mul_comm]
    omega
  rw [Spans, hfirst, hlast]
  constructor
  · rintro ⟨-, -, hle, hge⟩
    omega
  · rintro rfl
    exact ⟨Nat.le_add_right .., hmax, le_rfl, le_rfl⟩

section

variable (haligned : k.pageSize ∣ addr - k.zoneMapMin)
include haligned

theorem page_end_le (hdvd : k.pageSize ∣ size)
    (hp : Spans k addr size p) (hpos : 0 < size) : k.zoneMapMin + k.pageSize * p + k.pageSize ≤ addr + size := by
  obtain ⟨hmin, hmax, -, hlast⟩ := hp
  obtain ⟨q, hq⟩ := haligned
  obtain ⟨m, hm⟩ := hdvd
  have hpage := k.pageSize_pos
  have hlt : zonePage k (addr + size - 1) < q + m := by
    apply (Nat.div_lt_iff_lt_mul hpage).mpr
    rw [Nat.mul_comm, Nat.mul_add]
    omega
  have hle : k.pageSize * (p + 1) ≤ k.pageSize * (q + m) := Nat.mul_le_mul_left _ (by omega)
  rw [Nat.mul_add, Nat.mul_add, Nat.mul_one] at hle
  omega

theorem le_page (hp : Spans k addr size p) : addr ≤ k.zoneMapMin + k.pageSize * p := by
  obtain ⟨hmin, -, hfirst, -⟩ := hp
  obtain ⟨q, hq⟩ := haligned
  have hq' : zonePage k addr = q := by
    rw [zonePage, hq, Nat.mul_div_cancel_left q k.pageSize_pos]
  rw [hq'] at hfirst
  have hle : k.pageSize * q ≤ k.pageSize * p := Nat.mul_le_mul_left _ hfirst
  omega

theorem mem_of_spans {b : ℕ} (hdvd : k.pageSize ∣ size) (hpos : 0 < size)
    (hmin : k.zoneMapMin ≤ b) (hp : Spans k addr size (zonePage k b)) : addr ≤ b ∧ b < addr + size := by
  have hle := le_page haligned hp
  have hend := page_end_le haligned hdvd hp hpos
  have hlow : k.pageSize * zonePage k b ≤ b - k.zoneMapMin := Nat.mul_div_le ..
  have hhigh : b - k.zoneMapMin < k.pageSize * zonePage k b + k.pageSize := Nat.lt_mul_div_succ _ k.pageSize_pos
  omega

end

end Ranges

section Entries

variable {f : Entry → Entry}

theorem forPages_spans (h : Spans k addr size p) : forPages k f table addr size p = f (table p) := if_pos h

theorem forPages_of_not_spans (h : ¬Spans k addr size p) : forPages k f table addr size p = table p := if_neg h

end Entries

/-- The list of free pages from an entry on. -/
def Listed (table : Table) : Option ℕ → List ℕ → Prop
  | freeList, [] => freeList = none
  | freeList, p :: l => freeList = some p ∧ ∃ next, table p = .next next ∧ Listed table next l

theorem Listed.congr {table' : Table} {freeList : Option ℕ} {l : List ℕ} (h : Listed table freeList l)
    (heq : ∀ p ∈ l, table' p = table p) : Listed table' freeList l := by
  induction l generalizing freeList with
  | nil => exact h
  | cons p l ih =>
    obtain ⟨hp, next, hnext, hl⟩ := h
    refine ⟨hp, next, ?_, ih hl fun q hq => heq q (mem_cons_of_mem _ hq)⟩
    rw [heq p (mem_cons_self ..), hnext]

/-- What has been put onto the list, and what has been left. -/
structure Listing (k : Kernel Z) (table : Table) (l : List ℕ) (add : ℕ → Prop) (table' : Table)
    (freeList' : Option ℕ) (l' : List ℕ) : Prop where
  listed : Listed table' freeList' l'
  nodup : l'.Nodup
  mem : ∀ p, p ∈ l' ↔ p ∈ l ∨ add p ∧ allocCount k (table p) = 0
  same : ∀ p, ¬(add p ∧ allocCount k (table p) = 0) → table' p = table p

theorem addFreePages_spec {ps : List ℕ} {freeList : Option ℕ} {l : List ℕ} (hlisted : Listed table freeList l)
    (hnodup : l.Nodup) (hps : ps.Nodup) (hnew : ∀ p ∈ ps, p ∉ l) :
    ∃ l', Listing k table l (· ∈ ps) (ps.foldl (fun s p => addFreePage k p s) (table, freeList)).1
      (ps.foldl (fun s p => addFreePage k p s) (table, freeList)).2 l' := by
  induction ps generalizing table freeList l with
  | nil => exact ⟨l, hlisted, hnodup, fun p => by simp, fun p _ => rfl⟩
  | cons p ps ih =>
    obtain ⟨hp, hps'⟩ := nodup_cons.mp hps
    have hpl := hnew p (mem_cons_self ..)
    have hnew' (q : ℕ) (hq : q ∈ ps) : q ∉ l := hnew q (mem_cons_of_mem _ hq)
    rw [foldl_cons, addFreePage]
    by_cases hcount : allocCount k (table p) = 0
    · simp only [if_pos hcount]
      have hlisted' : Listed (update table p (.next freeList)) (some p) (p :: l) := by
        refine ⟨rfl, freeList, update_self .., hlisted.congr fun q hq => update_of_ne ?_ ..⟩
        rintro rfl
        exact hpl hq
      have hsame {q : ℕ} (hq : q ≠ p) : update table p (.next freeList) q = table q := update_of_ne hq ..
      obtain ⟨l', hl'⟩ := ih hlisted' (nodup_cons.mpr ⟨hpl, hnodup⟩) hps' fun q hq hmem => by
        rcases mem_cons.mp hmem with rfl | hmem
        · exact hp hq
        · exact hnew' q hq hmem
      refine ⟨l', hl'.listed, hl'.nodup, fun q => ?_, fun q hq => ?_⟩
      · rw [hl'.mem]
        by_cases hqp : q = p
        · simp [hqp, hcount]
        · simp [hqp]
      · have hqp : q ≠ p := by
          rintro rfl
          exact hq ⟨mem_cons_self .., hcount⟩
        rw [← hsame hqp]
        apply hl'.same
        rw [hsame hqp]
        exact fun hadd => hq ⟨mem_cons_of_mem _ hadd.1, hadd.2⟩
    · simp only [if_neg hcount]
      obtain ⟨l', hl'⟩ := ih hlisted hnodup hps' hnew'
      refine ⟨l', hl'.listed, hl'.nodup, fun q => ?_, fun q hq => ?_⟩
      · rw [hl'.mem]
        by_cases hqp : q = p
        · simp [hqp, hcount]
        · simp [hqp]
      · exact hl'.same q fun hadd => hq ⟨mem_cons_of_mem _ hadd.1, hadd.2⟩

theorem zoneAddFreePageList_spec {freeList : Option ℕ} {l : List ℕ} (hlisted : Listed table freeList l)
    (hnodup : l.Nodup) (hnew : ∀ p, Spans k addr size p → p ∉ l) :
    ∃ l', Listing k table l (Spans k addr size) (zoneAddFreePageList k table freeList addr size).1
      (zoneAddFreePageList k table freeList addr size).2 l' := by
  unfold zoneAddFreePageList
  by_cases hinside : k.zoneMapMin ≤ addr ∧ addr + size ≤ k.zoneMapMax
  · simp only [if_pos hinside]
    have hmem (p : ℕ) : p ∈ range' (zonePage k addr) (zonePage k (addr + size - 1) + 1 - zonePage k addr) ↔
        Spans k addr size p := by
      rw [mem_range'_1, Spans]
      constructor
      · rintro ⟨hle, hlt⟩
        exact ⟨hinside.1, hinside.2, hle, by omega⟩
      · rintro ⟨-, -, hle, hge⟩
        exact ⟨hle, by omega⟩
    obtain ⟨l', hl'⟩ := @addFreePages_spec _ k table _ freeList l hlisted hnodup nodup_range'
      fun p hp => hnew p ((hmem p).mp hp)
    refine ⟨l', hl'.listed, hl'.nodup, fun p => ?_, fun p hp => ?_⟩
    · rw [hl'.mem, hmem]
    · apply hl'.same
      rw [hmem]
      exact hp
  · rw [if_neg hinside]
    have hnone {p : ℕ} : ¬Spans k addr size p := fun h => hinside ⟨h.1, h.2.1⟩
    exact ⟨l, hlisted, hnodup, fun p => by simp [hnone], fun p _ => rfl⟩

end Pages

/-!
## The collection of a zone

The first loop counts the free elements of every page; the second takes those out of the list whose first page
has no live element.
-/

section Collect

variable {Z : Type} (k : Kernel Z) (size : ℕ) (live : List ℕ)

/-- How many elements have a part of a page. -/
def overlap (l : List ℕ) (p : ℕ) : ℕ := l.countP fun e => Spans k e size p

/-- A page has a part of a live element. -/
def Busy (p : ℕ) : Prop := ∃ e ∈ live, Spans k e size p

instance (p : ℕ) : Decidable (Busy k size live p) := inferInstanceAs (Decidable (∃ e ∈ live, _))

/-- The element is collected: there is no live element on its first page. -/
def Removed (e : ℕ) : Prop := Spans k e size (zonePage k e) ∧ ¬Busy k size live (zonePage k e)

instance (e : ℕ) : Decidable (Removed k size live e) := inferInstanceAs (Decidable (_ ∧ _))

/-- What is left of the count of free elements of a page. -/
def leaves (p : ℕ) : List ℕ → ℤ → ℤ
  | [], v => v
  | e :: rest, v =>
    leaves p rest (if Spans k e size p then
      if Busy k size live (zonePage k e) then if zonePage k e = p then 0 else v else v - 1
    else v)

/-- The numbers of elements of the pages without one element. -/
def without (e : ℕ) (n : ℕ → ℕ) (p : ℕ) : ℕ := if Spans k e size p then n p - 1 else n p

/-- A page that is looked at when an element has left the counters: the first one, or that of the scaled address. -/
def LookedAt (e q : ℕ) : Prop := q = zonePage k e ∨ q = zonePage k (e + FREE_ENTRY_SIZE * (size - 1))

/-- An element that empties a page empties one that is looked at. -/
def Tidy : List ℕ → (ℕ → ℕ) → Prop
  | [], _ => True
  | e :: rest, n =>
    if Removed k size live e then
      (∀ p, Spans k e size p → n p = 1 → ∃ q, LookedAt k size e q ∧ Spans k e size q ∧ n q = 1) ∧
        Tidy rest (without k size e n)
    else Tidy rest n

/-- An element is in the zone map or not. -/
def Apart (e : ℕ) : Prop := Inside k e size ∨ e + size ≤ k.zoneMapMin ∨ k.zoneMapMax < e

/-- The counters of the pages that have elements, before the rest of the list is gone through. -/
def Good (rest : List ℕ) (n : ℕ → ℕ) (table : Table) : Prop :=
  ∀ p, 0 < n p → ∃ i : ℤ, table p = .z i (n p) ∧ (¬Busy k size live p → i = n p) ∧
    (Busy k size live p → i < n p) ∧ leaves k size live p rest i = 0

variable {k size live} {table : Table} {rest : List ℕ} {n : ℕ → ℕ} {e p : ℕ}

theorem overlap_cons (l : List ℕ) : overlap k size (e :: l) p = overlap k size l p + if Spans k e size p then 1 else 0 := by
  rw [overlap, overlap, countP_cons]
  simp only [decide_eq_true_eq]

theorem collectElement_spec {freeList : Option ℕ} {l : List ℕ} (hlisted : Listed table freeList l) (hnodup : l.Nodup)
    (hnew : ∀ p, Spans k e size p → p ∉ l) (htable : ∀ p, Spans k e size p → ∃ i : ℤ, table p = .z i (n p))
    (htidy : ∀ p, Spans k e size p → n p = 1 → ∃ q, LookedAt k size e q ∧ Spans k e size q ∧ n q = 1) :
    ∃ l', Listing k (zonePageDealloc k (zonePageInUse k table e size) e size) l (Spans k e size)
      (collectElement k size e table freeList).1 (collectElement k size e table freeList).2 l' := by
  have hspans {p : ℕ} (hp : Spans k e size p) : ∃ i : ℤ, table p = .z i (n p) ∧
      zonePageDealloc k (zonePageInUse k table e size) e size p = .z (i - 1) (n p - 1) := by
    obtain ⟨i, hi⟩ := htable p hp
    refine ⟨i, hi, ?_⟩
    rw [zonePageDealloc, forPages_spans hp, zonePageInUse, forPages_spans hp, hi]
    rfl
  have hlisted' : Listed (zonePageDealloc k (zonePageInUse k table e size) e size) freeList l := by
    apply hlisted.congr
    intro p hp
    have hnot : ¬Spans k e size p := fun h => hnew p h hp
    rw [zonePageDealloc, forPages_of_not_spans hnot, zonePageInUse, forPages_of_not_spans hnot]
  unfold collectElement
  simp only
  split
  · exact zoneAddFreePageList_spec hlisted' hnodup hnew
  next hcond =>
    refine ⟨l, hlisted', hnodup, fun p => ?_, fun p _ => rfl⟩
    refine (or_iff_left ?_).symm
    rintro ⟨hp, hcount⟩
    obtain ⟨i, -, hi⟩ := hspans hp
    rw [hi] at hcount
    have hone : n p = 1 := by
      simp only [allocCount_z] at hcount
      omega
    obtain ⟨q, hlooked, hq, hone'⟩ := htidy p hp hone
    obtain ⟨i', -, hi'⟩ := hspans hq
    have hcount' : allocCount k (zonePageDealloc k (zonePageInUse k table e size) e size q) = 0 := by
      rw [hi', hone']
      simp
    apply hcond
    rcases hlooked with rfl | rfl
    · exact .inl hcount'
    · exact .inr hcount'

/-- What the second loop leaves. -/
structure Collects (k : Kernel Z) (size : ℕ) (live rest : List ℕ) (n : ℕ → ℕ) (table : Table) (l : List ℕ)
    (curSize : ℤ) (r : Collected) (l' : List ℕ) : Prop where
  kept : r.kept = rest.filter fun e => ¬Removed k size live e
  curSize : r.curSize = curSize - size * (rest.countP fun e => Removed k size live e)
  listed : Listed r.table r.freeList l'
  nodup : l'.Nodup
  mem : ∀ p, p ∈ l' ↔ p ∈ l ∨ 0 < n p ∧ n p = overlap k size (rest.filter fun e => Removed k size live e) p
  counts : ∀ p, overlap k size (rest.filter fun e => Removed k size live e) p < n p →
    r.table p = .z 0 (n p - overlap k size (rest.filter fun e => Removed k size live e) p : ℕ)
  same : ∀ p, n p = 0 → r.table p = table p

section

variable (h : Good k size live (e :: rest) n table)
include h

theorem Good.eligible_iff (hfirst : Spans k e size (zonePage k e)) (hn : 0 < n (zonePage k e)) :
    inFreeList k (table (zonePage k e)) = allocCount k (table (zonePage k e)) ↔ Removed k size live e := by
  obtain ⟨i, hi, hfree, hlive, -⟩ := h (zonePage k e) hn
  rw [hi, inFreeList_z, allocCount_z]
  constructor
  · intro heq
    refine ⟨hfirst, fun hbusy => ?_⟩
    have hlt := hlive hbusy
    omega
  · exact fun hremoved => hfree hremoved.2

theorem Good.collect (hremoved : Removed k size live e) (hspans : ∀ p, Spans k e size p → 0 < n p) {table' : Table}
    (hsame : ∀ p, 0 < without k size e n p → table' p = zonePageDealloc k (zonePageInUse k table e size) e size p) :
    Good k size live rest (without k size e n) table' := by
  intro p hp
  rw [hsame p hp]
  by_cases hp' : Spans k e size p
  · obtain ⟨i, hi, hfree, hlive, hleaves⟩ := h p (hspans p hp')
    have hpos := hspans p hp'
    rw [without, if_pos hp'] at hp ⊢
    rw [leaves, if_pos hp', if_neg hremoved.2] at hleaves
    refine ⟨i - 1, ?_, fun hnot => ?_, fun hbusy => ?_, hleaves⟩
    · rw [zonePageDealloc, forPages_spans hp', zonePageInUse, forPages_spans hp', hi, inFreeList_z, allocCount_z,
        Int.ofNat_sub hpos]
      rfl
    · rw [hfree hnot, Int.ofNat_sub hpos]
      rfl
    · have hlt := hlive hbusy
      omega
  · rw [without, if_neg hp'] at hp ⊢
    obtain ⟨i, hi, hfree, hlive, hleaves⟩ := h p hp
    rw [leaves, if_neg hp'] at hleaves
    refine ⟨i, ?_, hfree, hlive, hleaves⟩
    rw [zonePageDealloc, forPages_of_not_spans hp', zonePageInUse, forPages_of_not_spans hp', hi]

theorem Good.skip (hout : ∀ p, ¬Spans k e size p) : Good k size live rest n table := by
  intro p hp
  obtain ⟨i, hi, hfree, hlive, hleaves⟩ := h p hp
  rw [leaves, if_neg (hout p)] at hleaves
  exact ⟨i, hi, hfree, hlive, hleaves⟩

theorem Good.keep (hfirst : Spans k e size (zonePage k e)) (hbusy : Busy k size live (zonePage k e)) :
    Good k size live rest n
      (update table (zonePage k e) (.z 0 (allocCount k (table (zonePage k e))))) := by
  intro p hp
  obtain ⟨i, hi, hfree, hlive, hleaves⟩ := h p hp
  by_cases hpe : p = zonePage k e
  · rw [hpe] at hi hleaves hp ⊢
    rw [leaves, if_pos hfirst, if_pos hbusy, if_pos rfl] at hleaves
    refine ⟨0, ?_, fun hnot => absurd hbusy hnot, fun _ => by omega, hleaves⟩
    rw [update_self, hi, allocCount_z]
  · refine ⟨i, ?_, hfree, hlive, ?_⟩
    · rw [update_of_ne hpe, hi]
    · rw [leaves] at hleaves
      by_cases hp' : Spans k e size p
      · rw [if_pos hp', if_pos hbusy, if_neg (Ne.symm hpe)] at hleaves
        exact hleaves
      · rw [if_neg hp'] at hleaves
        exact hleaves

end

theorem collectLoop_spec {freeList : Option ℕ} {l : List ℕ} (curSize : ℤ) (hpos : 0 < size)
    (hgood : Good k size live rest n table) (htidy : Tidy k size live rest n)
    (hapart : ∀ e ∈ rest, Apart k size e) (hle : ∀ p, overlap k size rest p ≤ n p)
    (hbusy : ∀ p, Busy k size live p → overlap k size rest p < n p)
    (hlisted : Listed table freeList l) (hnodup : l.Nodup) (hnew : ∀ p ∈ l, n p = 0) :
    ∃ l', Collects k size live rest n table l curSize (collectLoop k size rest table freeList curSize) l' := by
  induction rest generalizing n table freeList l curSize with
  | nil =>
    refine ⟨l, rfl, by simp [collectLoop], hlisted, hnodup, fun p => ?_, fun p hp => ?_, fun p _ => rfl⟩
    · have hzero : overlap k size ([].filter fun e => Removed k size live e) p = 0 := rfl
      refine (or_iff_left ?_).symm
      omega
    · obtain ⟨i, hi, -, -, hzero⟩ := hgood p (Nat.zero_lt_of_lt hp)
      rw [leaves] at hzero
      rw [hzero] at hi
      exact hi
  | cons e rest ih =>
    have hspans (p : ℕ) (hp : Spans k e size p) : 0 < n p := by
      have hle := hle p
      rw [overlap_cons, if_pos hp] at hle
      omega
    have hapart' (a : ℕ) (ha : a ∈ rest) : Apart k size a := hapart a (mem_cons_of_mem _ ha)
    by_cases hremoved : Removed k size live e
    · have hfirst := hremoved.1
      obtain ⟨hone, htidy'⟩ :
          (∀ p, Spans k e size p → n p = 1 → ∃ q, LookedAt k size e q ∧ Spans k e size q ∧ n q = 1) ∧
            Tidy k size live rest (without k size e n) := by
        rw [Tidy, if_pos hremoved] at htidy
        exact htidy
      have hif : k.zoneMapMin ≤ e ∧ e ≤ k.zoneMapMax ∧
          inFreeList k (table (zonePage k e)) = allocCount k (table (zonePage k e)) := by
        refine ⟨hfirst.1, ?_, (hgood.eligible_iff hfirst (hspans _ hfirst)).mpr hremoved⟩
        have hmax := hfirst.2.1
        omega
      have hfilter : (e :: rest).filter (fun e => Removed k size live e) =
          e :: rest.filter fun e => Removed k size live e := by
        simp [hremoved]
      have hwithout {p : ℕ} : n p = without k size e n p + if Spans k e size p then 1 else 0 := by
        rw [without]
        split
        next hp =>
          have hpos := hspans p hp
          omega
        · rfl
      obtain ⟨l₁, hl₁⟩ := @collectElement_spec _ _ size table n e freeList l hlisted hnodup
        (fun p hp hmem => by
          have hzero := hnew p hmem
          have hpos := hspans p hp
          omega)
        (fun p hp => by
          obtain ⟨i, hi, -⟩ := hgood p (hspans p hp)
          exact ⟨i, hi⟩)
        hone
      have hcount {p : ℕ} (hp : Spans k e size p) :
          allocCount k (zonePageDealloc k (zonePageInUse k table e size) e size p) = (without k size e n p : ℕ) := by
        obtain ⟨i, hi, -⟩ := hgood p (hspans p hp)
        have hn := @hwithout p
        rw [if_pos hp] at hn
        rw [zonePageDealloc, forPages_spans hp, zonePageInUse, forPages_spans hp, hi]
        simp only [inFreeList_z, allocCount_z]
        omega
      have hgood' := @Good.collect _ _ _ _ _ _ _ _ hgood hremoved hspans (collectElement k size e table freeList).1
        fun p hp => hl₁.same p fun hadd => by
          have hzero := hadd.2
          rw [hcount hadd.1] at hzero
          omega
      obtain ⟨l', hl'⟩ := ih (curSize - size) hgood' htidy' hapart'
        (fun p => by
          have hle := hle p
          rw [overlap_cons, @hwithout p] at hle
          omega)
        (fun p hp => by
          have hlt := hbusy p hp
          rw [overlap_cons, @hwithout p] at hlt
          omega)
        hl₁.listed hl₁.nodup fun p hp => by
          rcases (hl₁.mem p).mp hp with hmem | ⟨hp', hzero⟩
          · have hn := @hwithout p
            rw [hnew p hmem] at hn
            omega
          · rw [hcount hp'] at hzero
            omega
      refine ⟨l', ?_⟩
      unfold collectLoop
      simp only [if_pos hif]
      constructor
      · rw [hl'.kept]
        simp [hremoved]
      · rw [hl'.curSize]
        simp only [countP_cons, hremoved, decide_true, if_true]
        push_cast
        ring
      · exact hl'.listed
      · exact hl'.nodup
      · intro p
        rw [hl'.mem, hl₁.mem, hfilter, overlap_cons, @hwithout p]
        by_cases hp : Spans k e size p
        · have hpos := @hspans p hp
          have hle' : overlap k size (rest.filter fun e => Removed k size live e) p ≤ without k size e n p := by
            have hsub := (filter_sublist (p := fun e => decide (Removed k size live e)) (l := rest)).countP_le
              (p := fun e => decide (Spans k e size p))
            have hle := hle p
            rw [overlap_cons, if_pos hp, @hwithout p, if_pos hp] at hle
            exact hsub.trans (by exact Nat.le_of_add_le_add_right hle)
          rw [if_pos hp, hcount hp]
          simp only [hp, true_and]
          constructor
          · rintro ((hmem | hzero) | hrest)
            · exact .inl hmem
            · refine .inr ?_
              omega
            · refine .inr ?_
              omega
          · rintro (hmem | hrest)
            · exact .inl (.inl hmem)
            · by_cases hzero : without k size e n p = 0
              · exact .inl (.inr (by omega))
              · refine .inr ?_
                omega
        · simp [hp]
      · intro p hp
        rw [hfilter, overlap_cons, @hwithout p] at hp ⊢
        rw [hl'.counts p (by omega)]
        congr 2
        omega
      · intro p hp
        have hnot : ¬Spans k e size p := fun h => by
          have hpos := hspans p h
          omega
        have hn := @hwithout p
        rw [if_neg hnot, hp] at hn
        rw [hl'.same p hn.symm, hl₁.same p fun hadd => hnot hadd.1]
        rw [zonePageDealloc, forPages_of_not_spans hnot, zonePageInUse, forPages_of_not_spans hnot]
    · have hfilter : (e :: rest).filter (fun e => Removed k size live e) =
          rest.filter fun e => Removed k size live e := by
        simp [hremoved]
      have hle' (p : ℕ) : overlap k size rest p ≤ n p := by
        have hle := hle p
        rw [overlap_cons] at hle
        omega
      have hbusy' (p : ℕ) (hp : Busy k size live p) : overlap k size rest p < n p := by
        have hlt := hbusy p hp
        rw [overlap_cons] at hlt
        omega
      rw [Tidy, if_neg hremoved] at htidy
      -- the element is kept, whether the count of its first page is cleared or not
      have key {table' : Table} (hgood' : Good k size live rest n table')
          (hsame : ∀ p, n p = 0 → table' p = table p) (hlisted' : Listed table' freeList l)
          (hloop : collectLoop k size (e :: rest) table freeList curSize =
            { collectLoop k size rest table' freeList curSize with
              kept := e :: (collectLoop k size rest table' freeList curSize).kept }) :
          ∃ l', Collects k size live (e :: rest) n table l curSize
            (collectLoop k size (e :: rest) table freeList curSize) l' := by
        obtain ⟨l', hl'⟩ := ih curSize hgood' htidy hapart' hle' hbusy' hlisted' hnodup hnew
        rw [hloop]
        refine ⟨l', ?_, ?_, hl'.listed, hl'.nodup, ?_, ?_, fun p hp => ?_⟩
        · rw [hl'.kept]
          simp [hremoved]
        · rw [hl'.curSize]
          simp [hremoved]
        · rw [hfilter]
          exact hl'.mem
        · rw [hfilter]
          exact hl'.counts
        · rw [← hsame p hp]
          exact hl'.same p hp
      by_cases hinside : Inside k e size
      · have hfirst := hinside.spans_first hpos
        have hbusyfirst : Busy k size live (zonePage k e) := by
          by_contra hnot
          exact hremoved ⟨hfirst, hnot⟩
        have hrange : k.zoneMapMin ≤ e ∧ e ≤ k.zoneMapMax := by
          refine ⟨hinside.min, ?_⟩
          have hmax := hinside.max
          omega
        have hif : ¬(k.zoneMapMin ≤ e ∧ e ≤ k.zoneMapMax ∧
            inFreeList k (table (zonePage k e)) = allocCount k (table (zonePage k e))) := fun hif =>
          hremoved ((hgood.eligible_iff hfirst (hspans _ hfirst)).mp hif.2.2)
        have hne {p : ℕ} (hp : n p = 0) : p ≠ zonePage k e := by
          rintro rfl
          have hpos := hspans _ hfirst
          omega
        apply key (hgood.keep hfirst hbusyfirst)
        · rw [collectLoop]
          simp only [if_neg hif, if_pos hrange]
        · exact fun p hp => update_of_ne (hne hp) ..
        · exact hlisted.congr fun p hp => update_of_ne (hne (hnew p hp)) ..
      · have hout := (hapart e (mem_cons_self ..)).resolve_left hinside
        have hrange : ¬(k.zoneMapMin ≤ e ∧ e ≤ k.zoneMapMax) := by omega
        have hif : ¬(k.zoneMapMin ≤ e ∧ e ≤ k.zoneMapMax ∧
            inFreeList k (table (zonePage k e)) = allocCount k (table (zonePage k e))) := fun hif =>
          hrange ⟨hif.1, hif.2.1⟩
        apply key (hgood.skip fun p hp => hinside hp.inside)
        · rw [collectLoop]
          simp only [if_neg hif, if_neg hrange]
        · exact fun _ _ => rfl
        · exact hlisted

end Collect

/-!
## When a collection settles the counters

An element that runs over onto another page is counted there, and what the second loop does to that count
depends on what starts on the page and where in the list it is.
-/

section Settling

variable {Z : Type} (k : Kernel Z) (size : ℕ) (live : List ℕ)

/-- An element starts on a page. -/
def Starts (e p : ℕ) : Prop := Spans k e size p ∧ zonePage k e = p

/-- An element runs over onto a page. -/
def RunsOnto (e p : ℕ) : Prop := Spans k e size p ∧ zonePage k e ≠ p

/-- What is asked of a list of free elements.  `later`: one that is collected and runs over onto a page with a live
element is not behind all that start there.  `kept`: one that is kept runs over only onto pages that have a live
element, and a free one that starts there.  `last`: one that empties a page empties one that is looked at. -/
structure Settles (l : List ℕ) : Prop where
  later : ∀ pre e post p, l = pre ++ e :: post → RunsOnto k size e p → ¬Busy k size live (zonePage k e) →
    Busy k size live p → (∃ a ∈ pre, Starts k size a p) → ∃ a ∈ post, Starts k size a p
  kept : ∀ e ∈ l, ∀ p, RunsOnto k size e p → Busy k size live (zonePage k e) →
    Busy k size live p ∧ ∃ a ∈ l, Starts k size a p
  last : ∀ pre e post p, l = pre ++ e :: post → RunsOnto k size e p → ¬Busy k size live (zonePage k e) →
    ¬Busy k size live p → (∀ a ∈ post, ¬Spans k a size p) →
      ∃ q, LookedAt k size e q ∧ Spans k e size q ∧ ¬Busy k size live q ∧ ∀ a ∈ post, ¬Spans k a size q
  atEnd : k.zoneMapMax ∉ l

variable {k size live} {l pre rest : List ℕ} {e p : ℕ} {table : Table}

theorem settles_of_not_runsOnto (h : ∀ e ∈ l, ∀ p, ¬RunsOnto k size e p) (hend : k.zoneMapMax ∉ l) :
    Settles k size live l := by
  constructor
  · intro pre e post p hl hruns
    refine absurd hruns (h e ?_ p)
    rw [hl]
    simp
  · exact fun e he p hruns => absurd hruns (h e he p)
  · intro pre e post p hl hruns
    refine absurd hruns (h e ?_ p)
    rw [hl]
    simp
  · exact hend

section Counting

theorem leaves_of_collected {v : ℤ} (h : ∀ e ∈ l, Spans k e size p → ¬Busy k size live (zonePage k e)) :
    leaves k size live p l v = v - overlap k size l p := by
  induction l generalizing v with
  | nil => simp [leaves, overlap]
  | cons e l ih =>
    have h' : ∀ e ∈ l, Spans k e size p → ¬Busy k size live (zonePage k e) :=
      fun a ha => h a (mem_cons_of_mem _ ha)
    rw [leaves, ih h', overlap_cons]
    by_cases hp : Spans k e size p
    · rw [if_pos hp, if_neg (h e (mem_cons_self ..) hp), if_pos hp]
      push_cast
      ring
    · rw [if_neg hp, if_neg hp, Nat.add_zero]

theorem leaves_of_kept {v : ℤ} (h : ∀ e ∈ l, Spans k e size p → Busy k size live (zonePage k e) ∧ zonePage k e ≠ p) :
    leaves k size live p l v = v := by
  induction l generalizing v with
  | nil => rfl
  | cons e l ih =>
    have h' : ∀ e ∈ l, Spans k e size p → Busy k size live (zonePage k e) ∧ zonePage k e ≠ p :=
      fun a ha => h a (mem_cons_of_mem _ ha)
    rw [leaves, ih h']
    by_cases hp : Spans k e size p
    · obtain ⟨hbusy, hne⟩ := h e (mem_cons_self ..) hp
      rw [if_pos hp, if_pos hbusy, if_neg hne]
    · rw [if_neg hp]

theorem Settles.leaves_eq_zero_of_starts (h : Settles k size live l) (hl : l = pre ++ rest)
    (hbusy : Busy k size live p) (hstarts : ∃ a ∈ rest, Starts k size a p) (v : ℤ) :
    leaves k size live p rest v = 0 := by
  induction rest generalizing pre v with
  | nil =>
    obtain ⟨a, ha, -⟩ := hstarts
    cases ha
  | cons e rest ih =>
    rw [leaves]
    by_cases hrest : ∃ a ∈ rest, Starts k size a p
    · exact ih (by rw [hl, append_cons]) hrest _
    · have hstart : Starts k size e p := by
        obtain ⟨a, ha, hap⟩ := hstarts
        rcases mem_cons.mp ha with rfl | ha
        · exact hap
        · exact absurd ⟨a, ha, hap⟩ hrest
      have hbusy' : Busy k size live (zonePage k e) := by
        rw [hstart.2]
        exact hbusy
      rw [if_pos hstart.1, if_pos hbusy', if_pos hstart.2]
      apply leaves_of_kept
      intro a ha hap
      have hne : zonePage k a ≠ p := fun heq => hrest ⟨a, ha, hap, heq⟩
      refine ⟨?_, hne⟩
      by_contra hnot
      obtain ⟨s, t, hst⟩ := append_of_mem ha
      have hsplit : l = (pre ++ e :: s) ++ a :: t := by
        rw [hl, hst]
        simp
      obtain ⟨b, hb, hbp⟩ := h.later _ a t p hsplit ⟨hap, hne⟩ hnot hbusy ⟨e, by simp, hstart⟩
      refine hrest ⟨b, ?_, hbp⟩
      rw [hst]
      simp [hb]

theorem Settles.leaves_eq_zero (h : Settles k size live l) (p : ℕ) :
    leaves k size live p l (overlap k size l p) = 0 := by
  by_cases hstarts : Busy k size live p ∧ ∃ a ∈ l, Starts k size a p
  · exact h.leaves_eq_zero_of_starts (nil_append l).symm hstarts.1 hstarts.2 _
  · rw [leaves_of_collected, sub_self]
    intro e he hp hbusy
    by_cases heq : zonePage k e = p
    · rw [heq] at hbusy
      exact hstarts ⟨hbusy, e, he, hp, heq⟩
    · exact hstarts (h.kept e he p ⟨hp, heq⟩ hbusy)

end Counting

theorem overlap_append (l l' : List ℕ) : overlap k size (l ++ l') p = overlap k size l p + overlap k size l' p :=
  countP_append ..

theorem overlap_eq_zero_iff : overlap k size l p = 0 ↔ ∀ e ∈ l, ¬Spans k e size p := by
  rw [overlap, countP_eq_zero]
  simp

theorem busy_iff : Busy k size live p ↔ 0 < overlap k size live p := by
  rw [overlap, countP_pos_iff]
  simp [Busy]

theorem Settles.tidy (h : Settles k size live l) (hpos : 0 < size) (hl : l = pre ++ rest) {n : ℕ → ℕ}
    (hn : ∀ p, n p = overlap k size live p + overlap k size (pre.filter fun e => ¬Removed k size live e) p +
      overlap k size rest p) : Tidy k size live rest n := by
  induction rest generalizing pre n with
  | nil => trivial
  | cons e rest ih =>
    have hl' : l = (pre ++ [e]) ++ rest := by rw [hl, append_cons]
    unfold Tidy
    by_cases hremoved : Removed k size live e
    · rw [if_pos hremoved]
      constructor
      · intro p hp hone
        by_cases heq : zonePage k e = p
        · exact ⟨p, .inl heq.symm, hp, hone⟩
        have hlive : overlap k size live p = 0 ∧ overlap k size rest p = 0 := by
          have hnp := hn p
          rw [overlap_cons, if_pos hp] at hnp
          omega
        obtain ⟨q, hlooked, hq, hbusy, hrest⟩ := h.last pre e rest p hl ⟨hp, heq⟩ hremoved.2 (by rw [busy_iff]; omega)
          (overlap_eq_zero_iff.mp hlive.2)
        refine ⟨q, hlooked, hq, ?_⟩
        -- an element that is kept is not on a page without a live element
        have hkept : overlap k size (pre.filter fun e => ¬Removed k size live e) q = 0 := by
          apply overlap_eq_zero_iff.mpr
          intro a ha hspans
          obtain ⟨ha, hnot⟩ := mem_filter.mp ha
          have hkept : ¬Removed k size live a := of_decide_eq_true hnot
          have hbusy' : Busy k size live (zonePage k a) := by
            by_contra hbusy'
            exact hkept ⟨hspans.inside.spans_first hpos, hbusy'⟩
          by_cases heq : zonePage k a = q
          · rw [heq] at hbusy'
            exact hbusy hbusy'
          · have hmem : a ∈ l := by
              rw [hl]
              exact mem_append_left _ ha
            exact hbusy (h.kept a hmem _ ⟨hspans, heq⟩ hbusy').1
        have hlive : overlap k size live q = 0 := by
          rw [busy_iff] at hbusy
          omega
        rw [hn, hkept, overlap_cons, if_pos hq, hlive, overlap_eq_zero_iff.mpr hrest]
      · apply ih hl'
        intro p
        have hnp := hn p
        rw [overlap_cons] at hnp
        have hfilter : (pre ++ [e]).filter (fun e => ¬Removed k size live e) = pre.filter fun e => ¬Removed k size live e := by
          simp [hremoved]
        rw [without, hfilter]
        split
        next hp =>
          rw [if_pos hp] at hnp
          omega
        next hp =>
          rw [if_neg hp] at hnp
          exact hnp
    · rw [if_neg hremoved]
      apply ih hl'
      intro p
      have hfilter : (pre ++ [e]).filter (fun e => ¬Removed k size live e) =
          (pre.filter fun e => ¬Removed k size live e) ++ [e] := by
        simp [hremoved]
      rw [hn, hfilter, overlap_append, overlap_cons, overlap_cons]
      simp only [overlap, countP_nil]
      omega

section FirstLoop

theorem countLoop_spec {i a : ℤ} (hi : 0 ≤ i) (htable : table p = .z i a) :
    (l.foldl (fun table elt => zonePageFree k table elt size) table) p = .z (i + overlap k size l p) a := by
  induction l generalizing table i with
  | nil => simp [overlap, htable]
  | cons e l ih =>
    rw [foldl_cons, overlap_cons]
    by_cases hp : Spans k e size p
    · have hne : i ≠ ZONE_PAGE_UNUSED := by
        intro heq
        rw [heq] at hi
        exact absurd hi (by decide)
      have htable' : zonePageFree k table e size p = .z (i + 1) a := by
        rw [zonePageFree, forPages_spans hp, htable]
        exact if_neg hne
      rw [ih (by omega) htable', if_pos hp]
      congr 1
      push_cast
      ring
    · have htable' : zonePageFree k table e size p = .z i a := by
        rw [zonePageFree, forPages_of_not_spans hp, htable]
      rw [ih hi htable', if_neg hp, Nat.add_zero]

theorem countLoop_same (hnone : overlap k size l p = 0) :
    (l.foldl (fun table elt => zonePageFree k table elt size) table) p = table p := by
  induction l generalizing table with
  | nil => rfl
  | cons e l ih =>
    have hnot := overlap_eq_zero_iff.mp hnone
    rw [foldl_cons, ih (overlap_eq_zero_iff.mpr fun a ha => hnot a (mem_cons_of_mem _ ha)), zonePageFree,
      forPages_of_not_spans (hnot e (mem_cons_self ..))]

end FirstLoop

/-- A zone whose list settles is collected: the elements whose first page has no live element leave the list, the
counters of the other pages are right, and the pages that have been emptied go onto the list of free pages. -/
theorem collectZone_spec {freeList : Option ℕ} {freePages : List ℕ} (curSize : ℤ) (hpos : 0 < size)
    (hsettles : Settles k size live l)
    (hplace : ∀ e ∈ l, Inside k e size ∨ e + size ≤ k.zoneMapMin ∨ k.zoneMapMax ≤ e)
    (htable : ∀ p, 0 < overlap k size (live ++ l) p → table p = .z 0 (overlap k size (live ++ l) p))
    (hlisted : Listed table freeList freePages) (hnodup : freePages.Nodup)
    (hnew : ∀ p ∈ freePages, overlap k size (live ++ l) p = 0) :
    ∃ freePages', Collects k size live l (overlap k size (live ++ l)) table freePages curSize
      (collectZone k size l table freeList curSize) freePages' := by
  have hsame {p : ℕ} (hp : overlap k size (live ++ l) p = 0) :
      (l.foldl (fun table elt => zonePageFree k table elt size) table) p = table p := by
    apply countLoop_same
    rw [overlap_append] at hp
    omega
  obtain ⟨freePages', hcollects⟩ := @collectLoop_spec _ k size live
    (l.foldl (fun table elt => zonePageFree k table elt size) table) l (overlap k size (live ++ l)) freeList freePages
    curSize hpos
    (fun p hp => by
      refine ⟨overlap k size l p, ?_, fun hnot => ?_, fun hbusy => ?_, hsettles.leaves_eq_zero p⟩
      · rw [countLoop_spec le_rfl (htable p hp), Int.zero_add]
      · rw [busy_iff] at hnot
        rw [overlap_append]
        omega
      · rw [busy_iff] at hbusy
        rw [overlap_append]
        omega)
    (hsettles.tidy hpos (nil_append l).symm fun p => by
      simp [overlap])
    (fun e he => by
      rcases hplace e he with hinside | hbelow | habove
      · exact .inl hinside
      · exact .inr (.inl hbelow)
      · have hne : e ≠ k.zoneMapMax := by
          rintro rfl
          exact hsettles.atEnd he
        exact .inr (.inr (by omega)))
    (fun p => by
      rw [overlap_append]
      omega)
    (fun p hp => by
      rw [busy_iff] at hp
      rw [overlap_append]
      omega)
    (hlisted.congr fun p hp => hsame (hnew p hp)) hnodup hnew
  refine ⟨freePages', hcollects.kept, hcollects.curSize, hcollects.listed, hcollects.nodup, hcollects.mem,
    hcollects.counts, fun p hp => ?_⟩
  rw [← hsame hp]
  exact hcollects.same p hp

end Settling

end Osf1.Zalloc
