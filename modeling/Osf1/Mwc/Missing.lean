import Mathlib

/-!
# Volumes whose mirror consistency records are missing

When a volume group is activated, what is on a volume whose records cannot be read may differ from the other copies.
For each logical extent with a copy there, `lv_cache_stale` is to leave one good copy.
-/

set_option autoImplicit false

namespace Osf1.Mwc.Missing

open List

open Function (update)

section Model

/-- A copy of a logical extent.  `PX_NOPV` is no volume, and `PX_STALE` a field of its own.
SRC: lvm/lvmd.h:317-331 -/
structure Extent where
  e_pxnum : ℕ
  e_pvnum : Option ℕ
  stale : Bool
  deriving DecidableEq

/-- What a loop of `lv_cache_stale` leaves, and the copies for which it calls `lv_sa_setstale`. -/
structure Pass where
  exts : List Extent
  ngood : ℕ
  told : List (ℕ × ℕ)

/-- Set the specified mirror copy as stale.  The copies are by mirror, and the last mirror is looked at first.
SRC: lvm/lv_mircons.c:1304-1317 -/
def markCopy (pvnum pxnum : ℕ) : List Extent → Pass
  | [] => ⟨[], 0, []⟩
  | ext :: exts =>
    let r := markCopy pvnum pxnum exts
    if ext.stale then { r with exts := ext :: r.exts }
    else if ext.e_pxnum = pxnum ∧ ext.e_pvnum = some pvnum then
      ⟨{ ext with stale := true } :: r.exts, r.ngood, r.told ++ [(pvnum, pxnum)]⟩
    else ⟨ext :: r.exts, r.ngood + 1, r.told⟩

/-- Set all other mirrors, except one, as stale.
SRC: lvm/lv_mircons.c:1319-1328 -/
def markOthers (ngood : ℕ) : List Extent → Pass
  | [] => ⟨[], ngood, []⟩
  | ext :: exts =>
    let r := markOthers ngood exts
    match ext.e_pvnum with
    | none => { r with exts := ext :: r.exts }
    | some pvnum =>
      if 1 < r.ngood ∧ ext.stale = false then
        ⟨{ ext with stale := true } :: r.exts, r.ngood - 1, r.told ++ [(pvnum, ext.e_pxnum)]⟩
      else { r with exts := ext :: r.exts }

/-- A volume group: the copies of the extents of its logical volumes, the `lv_index` and `lx_num` of the physical extents of
each volume, and the stale extents in the VGSA. -/
structure Volgrp where
  lvols : ℕ → Option (ℕ → List Extent)
  px : ℕ → List (ℕ × ℕ)
  sa : ℕ × ℕ → Bool

/-- There is no result when it panics, or when there is no such logical volume.
SRC: lvm/lv_mircons.c:1294-1333 -/
def lv_cache_stale (vg : Volgrp) (minor lxnum pxnum pvnum : ℕ) : Option Volgrp :=
  (vg.lvols minor).bind fun lv =>
    let r := markCopy pvnum pxnum (lv lxnum)
    let r' := markOthers r.ngood r.exts
    if 1 < r'.ngood then none
    else some { vg with
      lvols := update vg.lvols minor (some (update lv lxnum r'.exts))
      sa := fun x => vg.sa x || decide (x ∈ r.told ++ r'.told) }

/-- The loop of `lv_cache_missing` over the physical extents.
SRC: lvm/lv_mircons.c:1281-1290 -/
def missingLoop (pvnum : ℕ) : ℕ → List (ℕ × ℕ) → Volgrp → Option Volgrp
  | _, [], vg => some vg
  | pxnum, (lv_index, lx_num) :: rest, vg =>
    if lv_index ≠ 0 then
      (lv_cache_stale vg lv_index lx_num pxnum pvnum).bind (missingLoop pvnum (pxnum + 1) rest)
    else missingLoop pvnum (pxnum + 1) rest vg

/-- SRC: lvm/lv_mircons.c:1266-1292 -/
def lv_cache_missing (vg : Volgrp) (pvnum : ℕ) : Option Volgrp := missingLoop pvnum 0 (vg.px pvnum) vg

/-- The loop of `lv_cache_activate` over the volumes that there are, with their `LVM_MWCMISSING`, which is cleared.
SRC: lvm/lv_mircons.c:1130-1139 -/
def activateLoop : ℕ → List (Option Bool) → Volgrp → Option (Volgrp × List (Option Bool))
  | _, [], vg => some (vg, [])
  | pv_num, pv :: rest, vg =>
    if pv = some true then
      (lv_cache_missing vg pv_num).bind fun vg =>
        (activateLoop (pv_num + 1) rest vg).map fun r => (r.1, some false :: r.2)
    else (activateLoop (pv_num + 1) rest vg).map fun r => (r.1, pv :: r.2)

end Model

section Copies

variable {exts : List Extent} {ext : Extent} {pvnum pxnum n : ℕ} {b : Bool}

/-- There is a copy, and it is not stale. -/
def Extent.Good (e : Extent) : Bool := e.e_pvnum.isSome && !e.stale

/-- There is no copy, and yet it is not marked as stale. -/
def Extent.Unmarked (e : Extent) : Bool := e.e_pvnum.isNone && !e.stale

/-- The copy is at that place. -/
def Extent.At (w : ℕ × ℕ) (e : Extent) : Bool := e.e_pxnum = w.2 ∧ e.e_pvnum = some w.1

def good (exts : List Extent) : List Extent := exts.filter (·.Good)

def unmarked (exts : List Extent) : ℕ := exts.countP (·.Unmarked)

@[simp] theorem good_nil : good [] = [] := rfl

@[simp] theorem unmarked_nil : unmarked [] = 0 := rfl

@[simp] theorem good_cons : good (ext :: exts) = if ext.Good then ext :: good exts else good exts :=
  filter_cons

@[simp] theorem unmarked_cons : unmarked (ext :: exts) = unmarked exts + if ext.Unmarked then 1 else 0 :=
  countP_cons

@[simp] theorem good_none : Extent.Good ⟨n, none, b⟩ = false := rfl

@[simp] theorem good_some : Extent.Good ⟨n, some pvnum, b⟩ = !b := rfl

@[simp] theorem unmarked_none : Extent.Unmarked ⟨n, none, b⟩ = !b := rfl

@[simp] theorem unmarked_some : Extent.Unmarked ⟨n, some pvnum, b⟩ = false := rfl

theorem markCopy_spec (pvnum pxnum : ℕ) (exts : List Extent) :
    good (markCopy pvnum pxnum exts).exts = (good exts).filter (!·.At (pvnum, pxnum)) ∧
    unmarked (markCopy pvnum pxnum exts).exts = unmarked exts ∧
    (markCopy pvnum pxnum exts).ngood = (good (markCopy pvnum pxnum exts).exts).length + unmarked exts := by
  induction exts with
  | nil => simp [markCopy]
  | cons ext exts ih =>
    obtain ⟨hg, hu, hn⟩ := ih
    obtain ⟨e_pxnum, e_pvnum, stale⟩ := ext
    cases stale with
    | true => cases e_pvnum <;> simp [markCopy, hg, hu, hn]
    | false =>
      cases e_pvnum with
      | none =>
        simp [markCopy, hg, hu, hn]
        omega
      | some v =>
        by_cases hx : e_pxnum = pxnum <;> by_cases hv : v = pvnum <;>
          simp [markCopy, hx, hv, Extent.At, hg, hu, hn] <;> omega

theorem markOthers_spec (n : ℕ) (exts : List Extent) :
    good (markOthers n exts).exts = (good exts).take ((good exts).length - (n - 1)) ∧
    unmarked (markOthers n exts).exts = unmarked exts ∧
    (markOthers n exts).ngood = n - min (good exts).length (n - 1) := by
  induction exts with
  | nil => simp [markOthers]
  | cons ext exts ih =>
    obtain ⟨hg, hu, hn⟩ := ih
    obtain ⟨e_pxnum, e_pvnum, stale⟩ := ext
    cases e_pvnum with
    | none => simp [markOthers, hg, hu, hn]
    | some v =>
      cases stale with
      | true => simp [markOthers, hg, hu, hn]
      | false =>
        by_cases h : 1 < (markOthers n exts).ngood
        · have hl : (good exts).length + 1 - (n - 1) = 0 := by omega
          have hz : (good exts).length - (n - 1) = 0 := by omega
          simp [markOthers, h, hg, hu, hl, hz]
          omega
        · have hl : (good exts).length + 1 - (n - 1) = (good exts).length - (n - 1) + 1 := by omega
          simp [markOthers, h, hg, hu, hl]
          omega

end Copies

section Column

variable {exts : List Extent} {w : ℕ × ℕ} {ws : List (ℕ × ℕ)}

/-- What `lv_cache_stale` makes of the copies. -/
def markColumn (w : ℕ × ℕ) (exts : List Extent) : Option (List Extent) :=
  let r := markCopy w.1 w.2 exts
  let r' := markOthers r.ngood r.exts
  if 1 < r'.ngood then none else some r'.exts

def markAll (ws : List (ℕ × ℕ)) (exts : List Extent) : Option (List Extent) :=
  ws.foldlM (fun exts w => markColumn w exts) exts

theorem markColumn_none (h : 1 < unmarked exts) : markColumn w exts = none := by
  obtain ⟨-, -, hn⟩ := markCopy_spec w.1 w.2 exts
  obtain ⟨-, -, hn'⟩ := markOthers_spec (markCopy w.1 w.2 exts).ngood (markCopy w.1 w.2 exts).exts
  exact if_pos (by omega)

theorem markColumn_some (h : unmarked exts ≤ 1) : ∃ exts', markColumn w exts = some exts' ∧
    unmarked exts' = unmarked exts ∧
    good exts' = if unmarked exts = 0 then ((good exts).filter (!·.At w)).take 1 else [] := by
  obtain ⟨hg, hu, hn⟩ := markCopy_spec w.1 w.2 exts
  obtain ⟨hg', hu', hn'⟩ := markOthers_spec (markCopy w.1 w.2 exts).ngood (markCopy w.1 w.2 exts).exts
  refine ⟨_, if_neg ?_, hu'.trans hu, ?_⟩
  · omega
  · rw [hg', hn, ← hg]
    by_cases hz : unmarked exts = 0
    · rw [if_pos hz, hz]
      cases good (markCopy w.1 w.2 exts).exts <;> simp
    · rw [if_neg hz, take_eq_nil_iff]
      omega

theorem markAll_none (h : 1 < unmarked exts) (hw : ws ≠ []) : markAll ws exts = none := by
  cases ws with
  | nil => contradiction
  | cons w ws => simp [markAll, markColumn_none h]

theorem markAll_single (ws : List (ℕ × ℕ)) (h : unmarked exts ≤ 1) (hl : (good exts).length ≤ 1) (hz : unmarked exts ≠ 0 → good exts = []) :
    ∃ exts', markAll ws exts = some exts' ∧ good exts' = (good exts).filter fun e => ws.all (!e.At ·) := by
  induction ws generalizing exts with
  | nil => exact ⟨exts, rfl, by simp⟩
  | cons w ws ih =>
    obtain ⟨exts', hs, hu, hg⟩ := markColumn_some (w := w) h
    have hg' : good exts' = (good exts).filter (!·.At w) := by
      rw [hg]
      split_ifs with h0
      · exact take_of_length_le (Nat.le_trans (length_filter_le ..) hl)
      · rw [hz h0, filter_nil]
    obtain ⟨exts'', hr, hg''⟩ := ih (hu ▸ h) (hg' ▸ Nat.le_trans (length_filter_le ..) hl)
      fun h0 => by rw [hg', hz (hu ▸ h0), filter_nil]
    refine ⟨exts'', by simpa [markAll, hs] using hr, ?_⟩
    rw [hg'', hg', filter_filter]
    simp [Bool.and_comm]

/-- The first of the good copies that the first of the missing volumes leaves. -/
def kept (ws : List (ℕ × ℕ)) (exts : List Extent) : Option Extent :=
  match ws with
  | [] => none
  | w :: _ => (good exts).find? (!·.At w)

/-- When one copy of those that have a copy on a missing volume is picked: there is at most one mirror without a copy that
isn't marked as stale, and when there's a good copy there is no such mirror, and the first good copy that the first of the
missing volumes leaves isn't on another one. -/
structure Picked (ws : List (ℕ × ℕ)) (exts : List Extent) : Prop where
  unmarked_le : unmarked exts ≤ 1
  unmarked_eq : good exts ≠ [] → unmarked exts = 0
  kept : good exts ≠ [] → ∃ e, kept ws exts = some e ∧ ∀ w ∈ ws, e.At w = false

theorem markAll_picked (hw : ws ≠ []) : (∃ exts', markAll ws exts = some exts' ∧
    (good exts ≠ [] → (good exts').length = 1)) ↔ Picked ws exts := by
  obtain ⟨w, ws, rfl⟩ := exists_cons_of_ne_nil hw
  by_cases h : unmarked exts ≤ 1
  case neg => simp [markAll_none (Nat.lt_of_not_le h) hw, mt Picked.unmarked_le h]
  obtain ⟨exts₁, hs, hu, hg⟩ := markColumn_some (w := w) h
  have hl : (good exts₁).length ≤ 1 ∧ (unmarked exts₁ ≠ 0 → good exts₁ = []) := by
    rw [hg, hu]
    split_ifs with h0
    · exact ⟨length_take_le .., fun h1 => absurd h0 h1⟩
    · simp
  obtain ⟨exts', hr, hg'⟩ := markAll_single ws (hu ▸ h) hl.1 hl.2
  have hm : markAll (w :: ws) exts = some exts' := by simpa [markAll, hs] using hr
  simp only [hm, Option.some.injEq, exists_eq_left']
  by_cases hn : good exts = []
  · exact ⟨fun _ => ⟨h, absurd hn, absurd hn⟩, fun _ => absurd hn⟩
  by_cases h0 : unmarked exts = 0
  · have hk : kept (w :: ws) exts = ((good exts).filter (!·.At w)).head? := (head?_filter ..).symm
    rw [if_pos h0] at hg
    rw [hg', hg]
    cases hf : (good exts).filter (!·.At w) with
    | nil =>
      refine ⟨fun hp => absurd (hp hn) (by simp), fun hp => ?_⟩
      obtain ⟨e, he, -⟩ := hp.kept hn
      rw [hk, hf] at he
      contradiction
    | cons e g =>
      have hw : e.At w = false := by
        have he : e ∈ (good exts).filter (!·.At w) := by simp [hf]
        simpa using (mem_filter.mp he).2
      rw [hf, head?_cons] at hk
      cases hb : ws.all (!e.At ·) with
      | true =>
        refine ⟨fun _ => ⟨h, fun _ => h0, fun _ => ⟨e, hk, ?_⟩⟩, fun _ _ => by simp [hb]⟩
        simpa [hw] using hb
      | false =>
        refine ⟨fun hp => absurd (hp hn) (by simp [hb]), fun hp => ?_⟩
        obtain ⟨e', he', ha⟩ := hp.kept hn
        obtain rfl : e = e' := by simpa [hk] using he'
        obtain ⟨v, hv, hb⟩ := all_eq_false.mp hb
        simp [ha v (mem_cons_of_mem _ hv)] at hb
  · rw [if_neg h0] at hg
    simp only [hg', hg, filter_nil, length_nil]
    exact ⟨fun hp => absurd (hp hn) (by simp), fun hp => absurd (hp.unmarked_eq hn) h0⟩

end Column

section System

variable {vg vg' : Volgrp} {pvs : List (Option Bool)} {vs : List ((ℕ × ℕ) × (ℕ × ℕ))} {v : (ℕ × ℕ) × (ℕ × ℕ)}

/-- The copies of a logical extent.  A logical volume that there isn't has none. -/
def copies (vg : Volgrp) (lx : ℕ × ℕ) : List Extent := ((vg.lvols lx.1).map (· lx.2)).getD []

/-- The logical extents of a volume with the places of their copies, as `lv_cache_missing` comes to them. -/
def ofVolume (pvnum pxnum : ℕ) (px : List (ℕ × ℕ)) : List ((ℕ × ℕ) × (ℕ × ℕ)) :=
  ((px.zipIdx pxnum).filter (·.1.1 ≠ 0)).map fun e => (e.1, (pvnum, e.2))

/-- Those of all the missing volumes. -/
def visits (pv_num : ℕ) (pvs : List (Option Bool)) (px : ℕ → List (ℕ × ℕ)) : List ((ℕ × ℕ) × (ℕ × ℕ)) :=
  ((pvs.zipIdx pv_num).filter (·.1 = some true)).flatMap fun pv => ofVolume pv.2 0 (px pv.2)

def visit (vg : Volgrp) (v : (ℕ × ℕ) × (ℕ × ℕ)) : Option Volgrp := lv_cache_stale vg v.1.1 v.1.2 v.2.2 v.2.1

/-- Where the copies of a logical extent on missing volumes are, in the order of `visits`. -/
def places (vs : List ((ℕ × ℕ) × (ℕ × ℕ))) (lx : ℕ × ℕ) : List (ℕ × ℕ) := (vs.filter (·.1 = lx)).map (·.2)

theorem missingLoop_eq (pvnum pxnum : ℕ) (px : List (ℕ × ℕ)) (vg : Volgrp) :
    missingLoop pvnum pxnum px vg = (ofVolume pvnum pxnum px).foldlM visit vg := by
  induction px generalizing pxnum vg with
  | nil => rfl
  | cons e px ih =>
    by_cases h : e.1 ≠ 0
    · simp only [missingLoop, h, if_true, ne_eq, not_false_eq_true, ofVolume, zipIdx_cons, filter_cons, decide_true,
        map_cons, foldlM_cons]
      exact Option.bind_congr fun _ _ => ih ..
    · simp [missingLoop, h, ofVolume, zipIdx_cons, ih]

theorem visit_px (h : visit vg v = some vg') : vg'.px = vg.px := by
  obtain ⟨lv, -, h⟩ := Option.bind_eq_some_iff.mp h
  obtain ⟨-, h⟩ := Option.ite_none_left_eq_some.mp h
  cases h
  rfl

theorem foldlM_px (h : vs.foldlM visit vg = some vg') : vg'.px = vg.px := by
  induction vs generalizing vg with
  | nil => simp_all
  | cons v vs ih =>
    obtain ⟨vg₁, h₁, h⟩ := Option.bind_eq_some_iff.mp h
    exact (ih h).trans (visit_px h₁)

theorem activateLoop_eq (pv_num : ℕ) (pvs : List (Option Bool)) (vg : Volgrp) :
    (activateLoop pv_num pvs vg).map (·.1) = (visits pv_num pvs vg.px).foldlM visit vg := by
  induction pvs generalizing pv_num vg with
  | nil => rfl
  | cons pv pvs ih =>
    by_cases h : pv = some true
    · have hv : visits pv_num (pv :: pvs) vg.px = ofVolume pv_num 0 (vg.px pv_num) ++ visits (pv_num + 1) pvs vg.px := by
        simp [visits, h, zipIdx_cons]
      rw [activateLoop, if_pos h, hv, foldlM_append, lv_cache_missing, missingLoop_eq]
      cases hf : (ofVolume pv_num 0 (vg.px pv_num)).foldlM visit vg with
      | none => rfl
      | some vg₁ => simpa [Function.comp_def, foldlM_px hf] using ih (pv_num + 1) vg₁
    · have hv : visits pv_num (pv :: pvs) vg.px = visits (pv_num + 1) pvs vg.px := by
        simp [visits, h, zipIdx_cons]
      rw [activateLoop, if_neg h, hv, ← ih]
      simp [Function.comp_def]

theorem visit_spec (h : (vg.lvols v.1.1).isSome) : (markColumn v.2 (copies vg v.1) = none ∧ visit vg v = none) ∨
    ∃ exts vg', markColumn v.2 (copies vg v.1) = some exts ∧ visit vg v = some vg' ∧
      copies vg' = update (copies vg) v.1 exts ∧ ∀ m, (vg'.lvols m).isSome = (vg.lvols m).isSome := by
  obtain ⟨lv, hlv⟩ := Option.isSome_iff_exists.mp h
  have hc : copies vg v.1 = lv v.1.2 := by simp [copies, hlv]
  simp only [visit, lv_cache_stale, hlv, Option.bind_some, markColumn, hc]
  split_ifs with hn
  · simp
  · refine .inr ⟨_, _, rfl, rfl, ?_, ?_⟩
    · funext lx
      by_cases h1 : lx.1 = v.1.1 <;> by_cases h2 : lx.2 = v.1.2 <;>
        simp [copies, update, h1, h2, hlv, Prod.ext_iff]
    · intro m
      by_cases hm : m = v.1.1 <;> simp [update, hm, hlv]

theorem run_spec (h : ∀ v ∈ vs, (vg.lvols v.1.1).isSome) (Q : (ℕ × ℕ → List Extent) → Prop) :
    (∃ vg', vs.foldlM visit vg = some vg' ∧ Q (copies vg')) ↔
      ∃ f, (∀ lx, markAll (places vs lx) (copies vg lx) = some (f lx)) ∧ Q f := by
  induction vs generalizing vg with
  | nil =>
    constructor
    · rintro ⟨vg', hv, hq⟩
      exact ⟨copies vg, fun _ => rfl, by cases hv; exact hq⟩
    · rintro ⟨f, hf, hq⟩
      obtain rfl : copies vg = f := funext fun lx => Option.some.inj (hf lx)
      exact ⟨vg, rfl, hq⟩
  | cons v vs ih =>
    have hp (lx : ℕ × ℕ) : places (v :: vs) lx = if v.1 = lx then v.2 :: places vs lx else places vs lx := by
      by_cases hl : v.1 = lx <;> simp [places, hl]
    obtain ⟨hs, hv⟩ | ⟨exts, vg₁, hs, hv, hc, hi⟩ := visit_spec (h v mem_cons_self)
    · have hm : markAll (places (v :: vs) v.1) (copies vg v.1) = none := by simp [hp, markAll, hs]
      refine ⟨by simp [hv], fun ⟨f, hf, _⟩ => ?_⟩
      rw [hf] at hm
      contradiction
    · have hm (lx : ℕ × ℕ) : markAll (places (v :: vs) lx) (copies vg lx) = markAll (places vs lx) (copies vg₁ lx) := by
        rw [hp, hc]
        by_cases hl : v.1 = lx
        · subst hl
          simp [markAll, hs]
        · rw [if_neg hl, Function.update_of_ne (Ne.symm hl)]
      simp only [foldlM_cons, hv, Option.bind_eq_bind, Option.bind_some, hm]
      exact ih fun v hv => hi _ ▸ h v (mem_cons_of_mem _ hv)

theorem mem_visits {px : ℕ → List (ℕ × ℕ)} : v ∈ visits 0 pvs px ↔
    pvs[v.2.1]? = some (some true) ∧ (px v.2.1)[v.2.2]? = some v.1 ∧ v.1.1 ≠ 0 := by
  simp only [visits, ofVolume, mem_flatMap, mem_map, mem_filter, mem_zipIdx_iff_getElem?,
    decide_eq_true_eq, Prod.exists]
  constructor
  · rintro ⟨a, pv, ⟨hp, rfl⟩, b, c, px, ⟨hx, h0⟩, rfl⟩
    exact ⟨hp, hx, h0⟩
  · rintro ⟨hp, hx, h0⟩
    exact ⟨_, _, ⟨hp, rfl⟩, _, _, _, ⟨hx, h0⟩, rfl⟩

/-- The entry of a physical extent and the copies of a logical one say the same, and minor 0 isn't a logical volume. -/
structure Mapped (vg : Volgrp) : Prop where
  at_px (lx w : ℕ × ℕ) : lx.1 ≠ 0 → ((vg.px w.1)[w.2]? = some lx ↔ ∃ e ∈ copies vg lx, e.At w)
  zero : vg.lvols 0 = none

/-- The logical extent has a copy on a volume whose records are missing. -/
def Hit (vg : Volgrp) (pvs : List (Option Bool)) (lx : ℕ × ℕ) : Prop :=
  ∃ e ∈ copies vg lx, ∃ pvnum, e.e_pvnum = some pvnum ∧ pvs[pvnum]? = some (some true)

theorem hit_iff (hm : Mapped vg) {lx : ℕ × ℕ} : Hit vg pvs lx ↔ places (visits 0 pvs vg.px) lx ≠ [] := by
  have hn : places (visits 0 pvs vg.px) lx ≠ [] ↔ ∃ w, w ∈ places (visits 0 pvs vg.px) lx :=
    ⟨exists_mem_of_ne_nil _, fun ⟨_, h⟩ => ne_nil_of_mem h⟩
  rw [hn]
  simp only [places, mem_map, mem_filter, mem_visits, decide_eq_true_eq]
  constructor
  · rintro ⟨e, he, pvnum, hv, hp⟩
    have h0 : lx.1 ≠ 0 := fun h0 => by simp [copies, h0, hm.zero] at he
    have hx := (hm.at_px lx (pvnum, e.e_pxnum) h0).mpr ⟨e, he, by simp [Extent.At, hv]⟩
    exact ⟨_, (lx, (pvnum, e.e_pxnum)), ⟨⟨hp, hx, h0⟩, rfl⟩, rfl⟩
  · rintro ⟨w, v, ⟨⟨hp, hx, h0⟩, rfl⟩, -⟩
    obtain ⟨e, he, ha⟩ := (hm.at_px v.1 v.2 h0).mp hx
    exact ⟨e, he, v.2.1, by simpa [Extent.At] using (of_decide_eq_true ha).2, hp⟩

/-- There is no panic, and no logical extent loses its last good copy. -/
def Keeps (pvs : List (Option Bool)) (vg : Volgrp) : Prop :=
  ∃ r, activateLoop 0 pvs vg = some r ∧ ∀ lx, good (copies vg lx) ≠ [] →
    (Hit vg pvs lx → (good (copies r.1 lx)).length = 1) ∧
    (¬ Hit vg pvs lx → good (copies r.1 lx) = good (copies vg lx))

theorem keeps_iff (hm : Mapped vg) :
    Keeps pvs vg ↔ ∀ lx, Hit vg pvs lx → Picked (places (visits 0 pvs vg.px) lx) (copies vg lx) := by
  have hs (v) (hv : v ∈ visits 0 pvs vg.px) : (vg.lvols v.1.1).isSome := by
    obtain ⟨-, hx, h0⟩ := mem_visits.mp hv
    obtain ⟨e, he, -⟩ := (hm.at_px v.1 v.2 h0).mp hx
    cases hl : vg.lvols v.1.1 with
    | none => simp [copies, hl] at he
    | some lv => rfl
  have hk : Keeps pvs vg ↔ ∃ vg', (visits 0 pvs vg.px).foldlM visit vg = some vg' ∧ ∀ lx, good (copies vg lx) ≠ [] →
      (Hit vg pvs lx → (good (copies vg' lx)).length = 1) ∧
      (¬ Hit vg pvs lx → good (copies vg' lx) = good (copies vg lx)) := by
    simp only [← activateLoop_eq, Option.map_eq_some_iff, Keeps]
    exact ⟨fun ⟨r, h, hr⟩ => ⟨r.1, ⟨r, h, rfl⟩, hr⟩, fun ⟨_, ⟨r, h, rfl⟩, hr⟩ => ⟨r, h, hr⟩⟩
  rw [hk, run_spec hs fun f => ∀ lx, good (copies vg lx) ≠ [] →
    (Hit vg pvs lx → (good (f lx)).length = 1) ∧ (¬ Hit vg pvs lx → good (f lx) = good (copies vg lx))]
  constructor
  · rintro ⟨f, hf, hq⟩ lx hl
    exact (markAll_picked ((hit_iff hm).mp hl)).mp ⟨f lx, hf lx, fun hg => (hq lx hg).1 hl⟩
  · intro h
    have hex (lx) : ∃ exts, markAll (places (visits 0 pvs vg.px) lx) (copies vg lx) = some exts ∧
        (good (copies vg lx) ≠ [] → (Hit vg pvs lx → (good exts).length = 1) ∧
          (¬ Hit vg pvs lx → good exts = good (copies vg lx))) := by
      by_cases hl : Hit vg pvs lx
      · obtain ⟨exts, he, hg⟩ := (markAll_picked ((hit_iff hm).mp hl)).mpr (h lx hl)
        exact ⟨exts, he, fun hn => ⟨fun _ => hg hn, absurd hl⟩⟩
      · refine ⟨copies vg lx, ?_, fun _ => ⟨fun h => absurd h hl, fun _ => rfl⟩⟩
        rw [not_not.mp (mt (hit_iff hm).mpr hl)]
        rfl
    choose f hf hq using hex
    exact ⟨f, hf, hq⟩

/-- A single logical extent, with a good copy at the start of each of those volumes. -/
def single (pvnums : List ℕ) : Volgrp where
  lvols m := if m = 1 then some fun lx => if lx = 0 then pvnums.map (⟨0, some ·, false⟩) else [] else none
  px pvnum := if pvnum ∈ pvnums then [(1, 0)] else []
  sa _ := false

theorem mapped_single (pvnums : List ℕ) : Mapped (single pvnums) where
  zero := rfl
  at_px lx w _ := by
    by_cases h1 : lx.1 = 1 <;> by_cases h2 : lx.2 = 0 <;> by_cases hp : w.1 ∈ pvnums <;> cases hw : w.2 <;>
      simp [single, copies, Extent.At, Prod.ext_iff, h1, h2, hp, hw] <;> omega

/-- The logical volume has no mirrors, and its only copy is marked. -/
theorem not_keeps_single : Mapped (single [0]) ∧ ¬ Keeps [some true] (single [0]) :=
  ⟨mapped_single [0], by
    rintro ⟨r, h, hr⟩
    cases h
    have h1 := (hr (1, 0) (by decide)).1 ⟨⟨0, some 0, false⟩, by decide, 0, rfl, rfl⟩
    revert h1
    decide⟩

theorem keeps_mirrored : Keeps [some true, some false] (single [0, 1]) :=
  (keeps_iff (mapped_single [0, 1])).mpr fun lx hl => by
    obtain ⟨e, he, -⟩ := hl
    have hx : lx = (1, 0) := by
      by_cases h1 : lx.1 = 1 <;> by_cases h2 : lx.2 = 0 <;> simp_all [copies, single, Prod.ext_iff]
    subst hx
    exact ⟨by decide, fun _ => rfl, fun _ => ⟨⟨0, some 1, false⟩, rfl, by decide⟩⟩

end System

end Osf1.Mwc.Missing
