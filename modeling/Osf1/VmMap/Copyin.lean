import Osf1.VmMap.Model

/-!
# Copying a range of a map

`u_map_copyin` walks over the entries of a range and duplicates the part of each that is in the range.  A hole behind the
first entry ends the loop with the code of the last call of `vme_dup`.
-/

set_option autoImplicit false

namespace Osf1.VmMap

open List

section Copyin

variable {ι O : Type}

/-- SRC: mach/kern_return.h:60 -/
def KERN_SUCCESS : ℕ := 0

/-- SRC: mach/kern_return.h:62 -/
def KERN_INVALID_ADDRESS : ℕ := 1

/-- SRC: mach/vm_param.h:116 -/
def truncPage (mask x : VmOffset) : VmOffset := x &&& ~~~mask

/-- SRC: mach/vm_param.h:115 -/
def roundPage (mask x : VmOffset) : VmOffset := (x + mask) &&& ~~~mask

/-- An entry of a copy, with the object that `vme_dup` has made; its protections are the same.
SRC: vm/vm_umap.c:1530-1547 -/
structure CopyEntry (O : Type) where
  vmeStart : VmOffset
  vmeEnd : VmOffset
  vmeMaxprot : ℕ
  object : O

/-- SRC: vm/vm_umap.c:1495-1502 -/
structure Copy (O : Type) where
  vmMinOffset : VmOffset
  vmMaxOffset : VmOffset
  entries : List (CopyEntry O)

/-- What the map is used with: the protections of the entries, and the handlers `vme_dup` and `vm_delete_map`. -/
structure Handlers (ι O : Type) where
  vmeMaxprot : ι → ℕ
  vmeDup : ι → VmOffset → VmOffset → ℕ × O
  vmDeleteMap : Map ι → VmOffset → VmOffset → Map ι

/-- How a call ends: with the code, the copy and the map. -/
structure CopyinResult (ι O : Type) where
  ret : ℕ
  copyResult : Option (Copy O)
  map : Map ι

variable [DecidableEq ι] (ops : Handlers ι O)

/-- The loop, with `ret` as it is; `error` is the jump to `failed`.
SRC: vm/vm_umap.c:1521-1551 -/
def copyLoop (map : Map ι) (stop : VmOffset) : ℕ → ℕ → VmOffset → ι → Option (Except ℕ (List (CopyEntry O)))
  | 0, _, _, _ => none
  | fuel + 1, ret, start, entry =>
    if start < stop then
      if start < map.vmeStart entry ∨ entry = map.vmMapToEntry then some (.error ret)
      else
        let size := (if map.vmeEnd entry < stop then map.vmeEnd entry else stop) - start
        let (ret, object) := ops.vmeDup entry start size
        if ret ≠ KERN_SUCCESS then some (.error ret)
        else (copyLoop map stop fuel ret (start + size) (map.vmeNext entry)).map fun r =>
          r.map (⟨start, start + size, ops.vmeMaxprot entry, object⟩ :: ·)
    else some (.ok [])

/-- SRC: vm/vm_umap.c:1456-1562 -/
def uMapCopyin (fuel : ℕ) (mask : VmOffset) (map : Map ι) (srcAddr len : VmOffset) (destroy : Bool)
    (copyResult : Option (Copy O)) : Option (CopyinResult ι O) :=
  if len = 0 then
    if srcAddr ≠ 0 then some ⟨KERN_INVALID_ADDRESS, copyResult, map⟩ else some ⟨KERN_SUCCESS, none, map⟩
  else
    let start := truncPage mask srcAddr
    let stop := roundPage mask (srcAddr + len)
    if stop ≤ start ∧ (stop < start ∨ start ≠ 0) then some ⟨KERN_INVALID_ADDRESS, copyResult, map⟩
    else (vmMapLookupEntry fuel map start).bind fun (found, entry, map) =>
      if found = false then some ⟨KERN_INVALID_ADDRESS, none, map⟩
      else (copyLoop ops map stop fuel KERN_SUCCESS start entry).map fun
        | .error ret => ⟨ret, none, map⟩
        | .ok entries => ⟨KERN_SUCCESS, some ⟨srcAddr, srcAddr + len, entries⟩,
            if destroy = true then ops.vmDeleteMap map start stop else map⟩

end Copyin

section Walk

open Osf1.Computation

variable {ι O : Type} {ops : Handlers ι O} {map : Map ι} {start stop : VmOffset} {ret : ℕ} {e entry : ι} {l : List ι}

/-- Where the part of the entry that is in the range begins. -/
def partStart (map : Map ι) (start : VmOffset) (e : ι) : VmOffset :=
  if start < map.vmeStart e then map.vmeStart e else start

def partEnd (map : Map ι) (stop : VmOffset) (e : ι) : VmOffset :=
  if map.vmeEnd e < stop then map.vmeEnd e else stop

def Intersects (map : Map ι) (start stop : VmOffset) (e : ι) : Prop := partStart map start e < partEnd map stop e

instance : DecidablePred (Intersects map start stop) := fun _ => inferInstanceAs (Decidable (_ < _))

def dupPart (ops : Handlers ι O) (map : Map ι) (start stop : VmOffset) (e : ι) : ℕ × O :=
  ops.vmeDup e (partStart map start e) (partEnd map stop e - partStart map start e)

/-- A copy of the part of each entry that intersects the range. -/
def parts (ops : Handlers ι O) (map : Map ι) (start stop : VmOffset) (l : List ι) : List (CopyEntry O) :=
  (l.filter (Intersects map start stop)).map fun e =>
    ⟨partStart map start e, partEnd map stop e, ops.vmeMaxprot e, (dupPart ops map start stop e).2⟩

def Covered (map : Map ι) (l : List ι) (start stop : VmOffset) : Prop :=
  ∀ a, start ≤ a → a < stop → ∃ e ∈ l, map.Holds e a

def Dupped (ops : Handlers ι O) (map : Map ι) (start stop : VmOffset) (e : ι) : Prop :=
  Intersects map start stop e → (dupPart ops map start stop e).1 = KERN_SUCCESS

/-- The entries are contiguous from one address to the other one. -/
def Contiguous (stop : VmOffset) : VmOffset → List (CopyEntry O) → Prop
  | start, [] => start = stop
  | start, c :: cs => c.vmeStart = start ∧ start < c.vmeEnd ∧ Contiguous stop c.vmeEnd cs

/-- The first hole of the range is at that address, and the entries before it are duplicated. -/
structure Hole (ops : Handlers ι O) (map : Map ι) (l : List ι) (start stop a : VmOffset) : Prop where
  le : start ≤ a
  lt : a < stop
  not_holds : ∀ e ∈ l, ¬ map.Holds e a
  covered : Covered map l start a
  dupped : ∀ e ∈ l, map.vmeEnd e ≤ a → Dupped ops map start stop e

/-- How the loop ends. -/
inductive Ends (ops : Handlers ι O) (map : Map ι) (l : List ι) (start stop : VmOffset) (ret : ℕ) :
    Except ℕ (List (CopyEntry O)) → Prop
  | copied : Covered map l start stop → (∀ e ∈ l, Dupped ops map start stop e) →
      Contiguous stop start (parts ops map start stop l) → Ends ops map l start stop ret (.ok (parts ops map start stop l))
  | failed (e : ι) (k : ℕ) : e ∈ l → k ≠ KERN_SUCCESS → Intersects map start stop e →
      (dupPart ops map start stop e).1 = k → Covered map l start (map.vmeStart e) → Ends ops map l start stop ret (.error k)
  | hole (a : VmOffset) (k : ℕ) : Hole ops map l start stop a → (a = start ∧ k = ret ∨ start < a ∧ k = KERN_SUCCESS) →
      Ends ops map l start stop ret (.error k)

theorem partStart_of_le {start' : VmOffset} (hle : start ≤ start') (h : start' ≤ map.vmeStart e) :
    partStart map start' e = partStart map start e := by
  unfold partStart
  split_ifs <;> bv_omega

theorem not_intersects (h : map.vmeEnd e ≤ start ∨ stop ≤ map.vmeStart e) : ¬ Intersects map start stop e := by
  unfold Intersects partStart partEnd
  split_ifs <;> bv_omega

theorem Ends.cons {r : Except ℕ (List (CopyEntry O))} (hl : ∀ d ∈ l, map.vmeEnd e ≤ map.vmeStart d)
    (hstart : map.Holds e start) (hend : map.vmeEnd e < stop) (hdup : (dupPart ops map start stop e).1 = KERN_SUCCESS)
    (h : Ends ops map l (map.vmeEnd e) stop KERN_SUCCESS r) :
    Ends ops map (e :: l) start stop ret (r.map (⟨start, map.vmeEnd e, ops.vmeMaxprot e, (dupPart ops map start stop e).2⟩ :: ·)) := by
  obtain ⟨hle, hlt⟩ := hstart
  have hps : partStart map start e = start := if_neg (BitVec.not_lt.mpr hle)
  have hpe : partEnd map stop e = map.vmeEnd e := if_pos hend
  have hpart (d : ι) (hd : d ∈ l) : partStart map (map.vmeEnd e) d = partStart map start d :=
    partStart_of_le (BitVec.le_of_lt hlt) (hl d hd)
  have hcov {x : VmOffset} (h : Covered map l (map.vmeEnd e) x) : Covered map (e :: l) start x := by
    intro a ha hx
    by_cases hae : a < map.vmeEnd e
    · exact ⟨e, mem_cons_self, BitVec.le_trans hle ha, hae⟩
    · obtain ⟨d, hd, hh⟩ := h a (BitVec.not_lt.mp hae) hx
      exact ⟨d, mem_cons_of_mem _ hd, hh⟩
  have hdups (d : ι) (hdl : d ∈ l) (h : Dupped ops map (map.vmeEnd e) stop d) : Dupped ops map start stop d := by
    simpa only [Dupped, Intersects, dupPart, hpart d hdl] using h
  cases h with
  | copied hc hs ht =>
    have hparts : parts ops map start stop (e :: l) =
        ⟨start, map.vmeEnd e, ops.vmeMaxprot e, (dupPart ops map start stop e).2⟩ :: parts ops map (map.vmeEnd e) stop l := by
      have hi : Intersects map start stop e := by rw [Intersects, hps, hpe]; exact hlt
      have hf : l.filter (Intersects map (map.vmeEnd e) stop) = l.filter (Intersects map start stop) :=
        filter_congr fun d hd => decide_eq_decide.mpr (by simp only [Intersects, hpart d hd])
      simp only [parts, filter_cons, hi, decide_true, if_true, map_cons, hps, hpe, hf, cons.injEq, true_and]
      refine map_congr_left fun d hd => ?_
      simp only [dupPart, hpart d (mem_filter.mp hd).1]
    simp only [Except.map, ← hparts]
    refine .copied (hcov hc) (forall_mem_cons.mpr ⟨fun _ => hdup, fun d hd => hdups d hd (hs d hd)⟩) ?_
    rw [hparts]
    exact ⟨rfl, hlt, ht⟩
  | failed d k hd hk hi hc hb =>
    refine .failed d k (mem_cons_of_mem _ hd) hk ?_ ?_ (hcov hb)
    · simpa only [Intersects, hpart d hd] using hi
    · simpa only [dupPart, hpart d hd] using hc
  | hole a k ha hk =>
    refine .hole a k ⟨?_, ha.lt, ?_, hcov ha.covered, ?_⟩ ?_
    · exact BitVec.le_trans (BitVec.le_of_lt hlt) ha.le
    · exact forall_mem_cons.mpr ⟨fun hh => BitVec.not_lt.mpr ha.le hh.2, ha.not_holds⟩
    · exact forall_mem_cons.mpr ⟨fun _ _ => hdup, fun d hd hle => hdups d hd (ha.dupped d hd hle)⟩
    · exact .inr ⟨BitVec.lt_def.mpr (Nat.lt_of_lt_of_le hlt ha.le), hk.elim And.right And.right⟩

theorem Ends.prepend {l₁ : List ι} {r : Except ℕ (List (CopyEntry O))} (hl : ∀ d ∈ l₁, map.vmeEnd d ≤ start)
    (h : Ends ops map l start stop ret r) : Ends ops map (l₁ ++ l) start stop ret r := by
  have hnone (d : ι) (hd : d ∈ l₁) : ¬ Intersects map start stop d := not_intersects (.inl (hl d hd))
  have hcov {x : VmOffset} (h : Covered map l start x) : Covered map (l₁ ++ l) start x := fun a ha hx =>
    (h a ha hx).imp fun _ he => ⟨mem_append_right _ he.1, he.2⟩
  cases h with
  | copied hc hs ht =>
    have hf : l₁.filter (Intersects map start stop) = [] := by simpa using hnone
    have hparts : parts ops map start stop (l₁ ++ l) = parts ops map start stop l := by simp [parts, hf]
    rw [← hparts] at ht ⊢
    exact .copied (hcov hc) (forall_mem_append.mpr ⟨fun d hd h => absurd h (hnone d hd), hs⟩) ht
  | failed e k he hk hi hc hb => exact .failed e k (mem_append_right _ he) hk hi hc (hcov hb)
  | hole a k ha hk =>
    refine .hole a k ⟨ha.le, ha.lt, ?_, hcov ha.covered, ?_⟩ hk
    · exact forall_mem_append.mpr ⟨fun d hd h => BitVec.not_lt.mpr (BitVec.le_trans (hl d hd) ha.le) h.2, ha.not_holds⟩
    · exact forall_mem_append.mpr ⟨fun d hd _ h => absurd h (hnone d hd), ha.dupped⟩

theorem empty_range (ops : Handlers ι O) (map : Map ι) (l : List ι) (hle : stop ≤ start) : Covered map l start stop ∧ (∀ e ∈ l, Dupped ops map start stop e) ∧
    parts ops map start stop l = [] := by
  have hnone (d : ι) : ¬ Intersects map start stop d := by
    unfold Intersects partStart partEnd
    split_ifs <;> bv_omega
  refine ⟨fun a h h' => absurd hle (BitVec.not_le.mpr (BitVec.lt_def.mpr (Nat.lt_of_le_of_lt h h'))), fun e _ h =>
    absurd h (hnone e), by simp [parts, hnone]⟩

variable [DecidableEq ι]

theorem copyLoop_turn (hne : entry ≠ map.vmMapToEntry) (hl : ∀ d ∈ l, map.vmeEnd entry ≤ map.vmeStart d)
    (hlt : start < stop) (hin : start < map.vmeEnd entry)
    (hrest : map.vmeEnd entry < stop → ∃ r, Ends ops map l (map.vmeEnd entry) stop KERN_SUCCESS r ∧
      ∀ fuel, l.length < fuel → copyLoop ops map stop fuel KERN_SUCCESS (map.vmeEnd entry) (map.vmeNext entry) = some r) :
    ∃ r, Ends ops map (entry :: l) start stop ret r ∧
      ∀ fuel, l.length + 1 < fuel → copyLoop ops map stop fuel ret start entry = some r := by
  by_cases hgap : start < map.vmeStart entry
  · refine ⟨.error ret, .hole start ret ⟨BitVec.le_refl _, hlt, ?_, fun a h h' => absurd h' (BitVec.not_lt.mpr h), ?_⟩
      (.inl ⟨rfl, rfl⟩), fun fuel hf => ?_⟩
    · exact forall_mem_cons.mpr ⟨fun h => BitVec.not_lt.mpr h.1 hgap, fun d hd h =>
        BitVec.not_lt.mpr (BitVec.le_trans (hl d hd) h.1) hin⟩
    · exact fun d _ h hi => absurd hi (not_intersects (.inl h))
    · obtain ⟨fuel, rfl⟩ := Nat.exists_eq_succ_of_ne_zero (Nat.ne_zero_of_lt hf)
      rw [copyLoop, if_pos hlt, if_pos (.inl hgap)]
  have hholds : map.Holds entry start := ⟨BitVec.not_lt.mp hgap, hin⟩
  have hps : partStart map start entry = start := if_neg hgap
  have hi : Intersects map start stop entry := by
    unfold Intersects partEnd
    split_ifs <;> bv_omega
  have hadd : start + (partEnd map stop entry - start) = partEnd map stop entry := by bv_omega
  have hturn (fuel : ℕ) : copyLoop ops map stop (fuel + 1) ret start entry =
      if (dupPart ops map start stop entry).1 ≠ KERN_SUCCESS then some (.error (dupPart ops map start stop entry).1)
      else (copyLoop ops map stop fuel (dupPart ops map start stop entry).1 (partEnd map stop entry) (map.vmeNext entry)).map
        fun r => r.map (⟨start, partEnd map stop entry, ops.vmeMaxprot entry, (dupPart ops map start stop entry).2⟩ :: ·) := by
    rw [copyLoop, if_pos hlt, if_neg (not_or.mpr ⟨hgap, hne⟩)]
    have hp : (if map.vmeEnd entry < stop then map.vmeEnd entry else stop) = partEnd map stop entry := rfl
    simp only [dupPart, hps, hp, hadd]
  by_cases hdup : (dupPart ops map start stop entry).1 = KERN_SUCCESS
  case neg =>
    refine ⟨_, .failed entry _ mem_cons_self hdup hi rfl fun a h h' => ?_, fun fuel hf => ?_⟩
    · exact absurd hholds.1 (BitVec.not_le.mpr (BitVec.lt_def.mpr (Nat.lt_of_le_of_lt h h')))
    · obtain ⟨fuel, rfl⟩ := Nat.exists_eq_succ_of_ne_zero (Nat.ne_zero_of_lt hf)
      rw [hturn, if_pos hdup]
  by_cases hend : map.vmeEnd entry < stop
  · obtain ⟨r, hr, hloop⟩ := hrest hend
    refine ⟨_, hr.cons hl hholds hend hdup, fun fuel hf => ?_⟩
    obtain ⟨fuel, rfl⟩ := Nat.exists_eq_succ_of_ne_zero (Nat.ne_zero_of_lt hf)
    rw [hturn, if_neg (not_not.mpr hdup), hdup, partEnd, if_pos hend, hloop fuel (by omega)]
    rfl
  · have hpe : partEnd map stop entry = stop := if_neg hend
    have hnone (d : ι) (hd : d ∈ l) : ¬ Intersects map start stop d :=
      not_intersects (.inr (BitVec.le_trans (BitVec.not_lt.mp hend) (hl d hd)))
    have hparts : parts ops map start stop (entry :: l) =
        [⟨start, stop, ops.vmeMaxprot entry, (dupPart ops map start stop entry).2⟩] := by
      have hf : l.filter (Intersects map start stop) = [] := by simpa using hnone
      simp [parts, hi, hf, hps, hpe]
    refine ⟨_, .copied ?_ (forall_mem_cons.mpr ⟨fun _ => hdup, fun d hd h => absurd h (hnone d hd)⟩) ?_, fun fuel hf => ?_⟩
    · exact fun a h h' => ⟨entry, mem_cons_self, BitVec.le_trans hholds.1 h, BitVec.lt_def.mpr (Nat.lt_of_lt_of_le h' (BitVec.not_lt.mp hend))⟩
    · rw [hparts]
      exact ⟨rfl, hlt, rfl⟩
    · obtain ⟨fuel, rfl⟩ := Nat.exists_eq_succ_of_ne_zero (Nat.ne_zero_of_lt hf)
      obtain ⟨fuel, rfl⟩ := Nat.exists_eq_succ_of_ne_zero (Nat.ne_zero_of_lt (Nat.lt_of_succ_lt_succ hf))
      rw [hturn, if_neg (not_not.mpr hdup), hpe, hparts, copyLoop, if_neg (BitVec.not_lt.mpr (BitVec.le_refl _))]
      rfl

theorem copyLoop_saveHint (hint : ι) (fuel : ℕ) :
    copyLoop ops (map.saveHint hint) stop fuel ret start entry = copyLoop ops map stop fuel ret start entry := by
  induction fuel generalizing ret start entry with
  | zero => rfl
  | succ fuel ih =>
    simp only [copyLoop, ih]
    rfl

theorem copyLoop_ends (hpath : Path map.vmeNext map.vmePrev entry l map.vmMapToEntry)
    (hheader : map.vmMapToEntry ∉ entry :: l)
    (hint : Intervals (fun e => (map.vmeStart e).toNat) (fun e => (map.vmeEnd e).toNat) (entry :: l))
    (hlt : start < stop) (hin : start < map.vmeEnd entry) :
    ∃ r, Ends ops map (entry :: l) start stop ret r ∧
      ∀ fuel, l.length + 1 < fuel → copyLoop ops map stop fuel ret start entry = some r := by
  induction l generalizing entry start ret with
  | nil =>
    refine copyLoop_turn (ne_of_not_mem_cons hheader).symm nofun hlt hin fun hend => ?_
    refine ⟨.error KERN_SUCCESS, .hole _ _ ⟨BitVec.le_refl _, hend, nofun, fun a h h' => ?_, nofun⟩ (by simp), ?_⟩
    · exact absurd h' (BitVec.not_lt.mpr h)
    · intro fuel hf
      obtain ⟨fuel, rfl⟩ := Nat.exists_eq_succ_of_ne_zero (Nat.ne_zero_of_lt hf)
      rw [copyLoop, if_pos hend, if_pos (.inr hpath.1)]
  | cons d l ih =>
    refine copyLoop_turn (ne_of_not_mem_cons hheader).symm (fun _ hd => hint.hi_le hd) hlt hin
      fun hend => ?_
    rw [hpath.1.1]
    refine ih hpath.2 (not_mem_of_not_mem_cons hheader) hint.tail hend ?_
    exact BitVec.lt_def.mpr (Nat.lt_of_le_of_lt (hint.hi_le mem_cons_self) (hint.lt d (by simp)))

/-- What a call with a range is to do. -/
structure CopyinOk (ops : Handlers ι O) (map : Map ι) (entries : List ι) (start stop : VmOffset)
    (r : CopyinResult ι O) : Prop where
  ret : r.ret = KERN_SUCCESS ↔ Covered map entries start stop ∧ ∀ e ∈ entries, Dupped ops map start stop e
  copied : r.ret = KERN_SUCCESS → ∃ c, r.copyResult = some c ∧ c.entries = parts ops map start stop entries ∧
    Contiguous stop start c.entries
  failed : r.ret ≠ KERN_SUCCESS → r.copyResult = none ∧ ∃ hint, r.map = map.saveHint hint

/-- The range isn't empty, and it has no hole that comes to light when entries have been duplicated; or it is the empty
range at 0, and there is an entry. -/
def Clean (ops : Handlers ι O) (map : Map ι) (entries : List ι) (start stop : VmOffset) : Prop :=
  (start < stop ∧ ∀ a, Hole ops map entries start stop a → a = start) ∨
    (start = 0 ∧ stop = 0 ∧ ∃ e ∈ entries, map.Holds e start)

/-- Handlers that do what they are asked to. -/
def plain : Handlers ℕ Unit := ⟨fun _ => 7, fun _ _ _ => (KERN_SUCCESS, ()), fun map _ _ => map⟩

end Walk

end Osf1.VmMap
