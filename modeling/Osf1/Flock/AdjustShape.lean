import Osf1.Flock.Model

/-!
# What one turn of the `flckadj` walk does

The switch of `flckadj` has a case for every way in which a request can lie relative to a
record of its own owner.  `AdjKind` says what the cases amount to, in terms of the ends
of the two ranges and of whether the types agree; `flckadjStep_kind` derives it from the
switch once, and every later fact about the walk is proved from `AdjKind`.
-/

set_option autoImplicit false

namespace Osf1.Flock

open List

section AdjustStep

/-- The records after the one being severed, with the severed piece among them. -/
def withSevered (vp : Vnode) (cls : LockClass) (upid : ℤ) (ld : Eflock) (flp : Filock)
    (nflp : List Filock) : List Filock :=
  let k := scanFrom ld.lStart (flp :: nflp) - 1
  nflp.take k ++ newFilock (severed flp ld) vp cls upid :: nflp.drop k

/-- The ways in which one turn of the walk can go, at the record `flp` before `nflp`. -/
inductive AdjKind (zalloc : ℕ → Bool) (vp : Vnode) (cls : LockClass) (upid : ℤ) (o : Owner)
    (flp : Filock) (nflp : List Filock) (a : Adj) : AdjNext → Prop where
  /-- Another owner's record that the request reaches or lies behind. -/
  | passOther (hown : flp.set.owner ≠ o) (hle : flp.set.lStart ≤ a.ld.lEnd) :
      AdjKind zalloc vp cls upid o flp nflp a
        (.next { a with passed := a.passed ++ [flp] })
  /-- The owner's record ends before the request starts. -/
  | passOwn (hown : flp.set.owner = o) (hlt : flp.set.lEnd < a.ld.lStart) :
      AdjKind zalloc vp cls upid o flp nflp a
        (.next { a with passed := a.passed ++ [flp], insrtp := a.passed.length + 1 })
  /-- Nothing from here on can meet the request. -/
  | halt (h : a.ld.lEnd < flp.set.lStart ∨
        flp.set.owner = o ∧ a.ld.lType ≠ flp.set.lType ∧ a.ld.lEnd = flp.set.lStart) :
      AdjKind zalloc vp cls upid o flp nflp a (.stop { a with passed := a.passed ++ flp :: nflp })
  /-- A record of the same type starts where the request ends: the request takes it in. -/
  | joinRight (hown : flp.set.owner = o) (hsame : a.ld.lType = flp.set.lType)
      (heq : a.ld.lEnd = flp.set.lStart) :
      AdjKind zalloc vp cls upid o flp nflp a
        (.next { a with ld := { a.ld with lEnd := flp.set.lEnd }, insrtp := a.stepBack })
  /-- A record of the same type reaches past the end of the request: the request takes it
  in, and nothing further can meet it. -/
  | joinEnd (hown : flp.set.owner = o) (hsame : a.ld.lType = flp.set.lType)
      (hlo : a.ld.lStart < flp.set.lStart) (hmid : flp.set.lStart < a.ld.lEnd)
      (hhi : a.ld.lEnd ≤ flp.set.lEnd) :
      AdjKind zalloc vp cls upid o flp nflp a
        (.stop { a with
          passed := a.passed ++ nflp, insrtp := a.stepBack,
          ld := { a.ld with lEnd := flp.set.lEnd }, rv := 1 })
  /-- The record lies within the request: it goes. -/
  | swallow (hown : flp.set.owner = o) (hlo : a.ld.lStart ≤ flp.set.lStart)
      (hhi : flp.set.lEnd ≤ a.ld.lEnd)
      (hne : flp.set.lEnd < a.ld.lEnd ∨ a.ld.lType ≠ flp.set.lType) :
      AdjKind zalloc vp cls upid o flp nflp a
        (.next { a with
          insrtp := if a.ld.lStart = flp.set.lStart then a.passed.length else a.stepBack,
          rv := 1 })
  /-- A record of the same type reaches up to the request or into it: the request takes
  it in. -/
  | joinLeft (hown : flp.set.owner = o) (hsame : a.ld.lType = flp.set.lType)
      (hlo : flp.set.lStart < a.ld.lStart) (hmid : a.ld.lStart ≤ flp.set.lEnd)
      (hhi : flp.set.lEnd < a.ld.lEnd) :
      AdjKind zalloc vp cls upid o flp nflp a
        (.next { a with
          ld := { a.ld with lStart := flp.set.lStart }, insrtp := a.passed.length })
  /-- A record of another type reaches up to the request or into it: it is cut off. -/
  | cut (hown : flp.set.owner = o) (hdiff : a.ld.lType ≠ flp.set.lType)
      (hlo : flp.set.lStart < a.ld.lStart) (hmid : a.ld.lStart ≤ flp.set.lEnd)
      (hhi : flp.set.lEnd ≤ a.ld.lEnd) :
      AdjKind zalloc vp cls upid o flp nflp a
        (.next { a with
          passed := a.passed ++ [trim flp a.ld], insrtp := a.passed.length + 1, rv := 1 })
  /-- The request lies within a record of the same type: there is nothing to do. -/
  | covered (hown : flp.set.owner = o) (hsame : a.ld.lType = flp.set.lType)
      (hlo : flp.set.lStart ≤ a.ld.lStart) (hhi : a.ld.lEnd ≤ flp.set.lEnd) :
      AdjKind zalloc vp cls upid o flp nflp a (.ret { a with passed := a.passed ++ flp :: nflp })
  /-- A record of another type reaches past the end of the request, and there is no
  record for the piece behind it. -/
  | severFails (hown : flp.set.owner = o) (hdiff : a.ld.lType ≠ flp.set.lType)
      (hmid : flp.set.lStart < a.ld.lEnd) (hhi : a.ld.lEnd < flp.set.lEnd)
      (hz : zalloc a.zcnt = false) :
      AdjKind zalloc vp cls upid o flp nflp a
        (.ret { a with passed := a.passed ++ flp :: nflp, rv := ENOLCK, zcnt := a.zcnt + 1 })
  /-- A record of another type reaches past the end of the request: the piece behind the
  request is severed, and the piece in front, if there is one, stays. -/
  | sever (hown : flp.set.owner = o) (hdiff : a.ld.lType ≠ flp.set.lType)
      (hmid : flp.set.lStart < a.ld.lEnd) (hhi : a.ld.lEnd < flp.set.lEnd)
      (hz : zalloc a.zcnt = true) :
      AdjKind zalloc vp cls upid o flp nflp a
        (.stop { a with
          passed := a.passed ++ (if flp.set.lStart < a.ld.lStart then [trim flp a.ld] else []) ++
            withSevered vp cls upid a.ld flp nflp
          insrtp := if flp.set.lStart < a.ld.lStart then a.passed.length + 1
            else if flp.set.lStart = a.ld.lStart then a.passed.length else a.stepBack
          rv := 1
          zcnt := a.zcnt + 1 })

theorem one_le_scanFrom (start : ℕ) (l : List Filock) : 1 ≤ scanFrom start l := Nat.le_max_left ..

theorem insflck_severed (zalloc : ℕ → Bool) (zcnt : ℕ) (vp : Vnode) (cls : LockClass)
    (upid : ℤ) (ld : Eflock) (flp : Filock) (nflp : List Filock) :
    insflck zalloc zcnt (flp :: nflp) (scanFrom ld.lStart (flp :: nflp))
        (newFilock (severed flp ld) vp cls upid) =
      if zalloc zcnt then some (flp :: withSevered vp cls upid ld flp nflp) else none := by
  obtain ⟨k, hk⟩ : ∃ k, scanFrom ld.lStart (flp :: nflp) = k + 1 :=
    ⟨_, (Nat.sub_add_cancel (one_le_scanFrom ..)).symm⟩
  simp [insflck, withSevered, hk]

variable {zalloc : ℕ → Bool} {vp : Vnode} {cls : LockClass} {upid : ℤ} {o : Owner}
  {flp : Filock} {nflp : List Filock} {a : Adj}

theorem Eflock.with_lEnd_self {ld : Eflock} {e : ℕ} (h : ld.lEnd = e) : { ld with lEnd := e } = ld := by
  subst h
  rfl

theorem flckadjStep_kind (hld : a.ld.lStart < a.ld.lEnd) (hflp : flp.set.lStart < flp.set.lEnd) :
    AdjKind zalloc vp cls upid o flp nflp a
      (flckadjStep zalloc vp cls upid o flp nflp a) := by
  by_cases hown : flp.set.owner = o
  swap
  · by_cases hgt : flp.set.lStart > a.ld.lEnd
    · simpa [flckadjStep, hown, hgt] using AdjKind.halt (.inl hgt)
    · simpa [flckadjStep, hown, hgt] using AdjKind.passOther hown (Nat.le_of_not_lt hgt)
  have hreach (h : flp.set.lStart ≤ a.ld.lStart) : a.ld.lEnd > flp.set.lStart := by omega
  -- the request starts before, at or after the start of the record
  rcases lt_trichotomy a.ld.lStart flp.set.lStart with hlo | hlo | hlo
  · have hne : a.ld.lStart ≠ flp.set.lStart := by omega
    have hnlt : ¬flp.set.lStart < a.ld.lStart := by omega
    rcases lt_trichotomy a.ld.lEnd flp.set.lStart with hhi | hhi | hhi
    · have hreg : regflck a.ld flp = (.before, .before) := by
        simp [regflck, regflckEnd, hlo.not_gt, hne, hhi.not_gt, hhi.ne]
      simpa [flckadjStep, hown, hreg] using AdjKind.halt (.inl hhi)
    · have hreg : regflck a.ld flp = (.before, .start) := by
        simp [regflck, regflckEnd, hlo.not_gt, hne, hhi]
      by_cases hsame : a.ld.lType = flp.set.lType
      · simpa [flckadjStep, hown, hreg, hsame] using AdjKind.joinRight hown hsame hhi
      · simpa [flckadjStep, hown, hreg, hsame] using AdjKind.halt (.inr ⟨hown, hsame, hhi⟩)
    · rcases lt_trichotomy a.ld.lEnd flp.set.lEnd with hend | hend | hend
      · have hreg : regflck a.ld flp = (.before, .middle) := by
          simp [regflck, regflckEnd, hlo.not_gt, hne, hhi, hend.not_gt, hend.ne]
        by_cases hsame : a.ld.lType = flp.set.lType
        · simpa [flckadjStep, hown, hreg, hsame] using AdjKind.joinEnd hown hsame hlo hhi hend.le
        · cases hz : zalloc a.zcnt with
          | false =>
            simpa [flckadjStep, hown, hreg, hsame, insflck_severed, hz] using
              AdjKind.severFails hown hsame hhi hend hz
          | true =>
            simpa [flckadjStep, hown, hreg, hsame, insflck_severed, hz, hnlt, hne.symm] using
              AdjKind.sever hown hsame hhi hend hz
      · have hreg : regflck a.ld flp = (.before, .ending) := by
          simp [regflck, regflckEnd, hlo.not_gt, hne, hend, hflp]
        by_cases hsame : a.ld.lType = flp.set.lType
        · have hk : AdjKind zalloc vp cls upid o flp nflp a _ := AdjKind.joinEnd hown hsame hlo hhi hend.le
          rw [Eflock.with_lEnd_self hend] at hk
          simpa [flckadjStep, hown, hreg, hsame] using hk
        · simpa [flckadjStep, hown, hreg, hsame, hne] using
            AdjKind.swallow hown hlo.le hend.ge (.inr hsame)
      · have hreg : regflck a.ld flp = (.before, .after) := by
          simp [regflck, regflckEnd, hlo.not_gt, hne, hhi, hend]
        simpa [flckadjStep, hown, hreg, hne] using AdjKind.swallow hown hlo.le hend.le (.inl hend)
  · have hgt := hreach hlo.ge
    rcases lt_trichotomy a.ld.lEnd flp.set.lEnd with hend | hend | hend
    · have hreg : regflck a.ld flp = (.start, .middle) := by
        simp [regflck, regflckEnd, hlo, hgt, hend.not_gt, hend.ne]
      by_cases hsame : a.ld.lType = flp.set.lType
      · simpa [flckadjStep, hown, hreg, hsame] using AdjKind.covered hown hsame hlo.ge hend.le
      · cases hz : zalloc a.zcnt with
        | false =>
          simpa [flckadjStep, hown, hreg, hsame, insflck_severed, hz] using
            AdjKind.severFails hown hsame hgt hend hz
        | true =>
          simpa [flckadjStep, hown, hreg, hsame, insflck_severed, hz, hlo.symm] using
            AdjKind.sever hown hsame hgt hend hz
    · have hreg : regflck a.ld flp = (.start, .ending) := by
        simp [regflck, regflckEnd, hlo, hend, hflp]
      by_cases hsame : a.ld.lType = flp.set.lType
      · simpa [flckadjStep, hown, hreg, hsame] using AdjKind.covered hown hsame hlo.ge hend.le
      · simpa [flckadjStep, hown, hreg, hsame, hlo] using
          AdjKind.swallow hown hlo.le hend.ge (.inr hsame)
    · have hreg : regflck a.ld flp = (.start, .after) := by
        simp [regflck, regflckEnd, hlo, hgt, hend]
      simpa [flckadjStep, hown, hreg, hlo] using AdjKind.swallow hown hlo.le hend.le (.inl hend)
  · have hgt := hreach hlo.le
    rcases lt_trichotomy a.ld.lStart flp.set.lEnd with hmid | hmid | hmid
    · have hmid' : ¬a.ld.lStart > flp.set.lEnd := by omega
      rcases lt_trichotomy a.ld.lEnd flp.set.lEnd with hend | hend | hend
      · have hreg : regflck a.ld flp = (.middle, .middle) := by
          simp [regflck, regflckEnd, hlo, hgt, hmid', hmid.ne, hend.not_gt, hend.ne]
        by_cases hsame : a.ld.lType = flp.set.lType
        · simpa [flckadjStep, hown, hreg, hsame] using AdjKind.covered hown hsame hlo.le hend.le
        · cases hz : zalloc a.zcnt with
          | false =>
            simpa [flckadjStep, hown, hreg, hsame, insflck_severed, hz] using
              AdjKind.severFails hown hsame hgt hend hz
          | true =>
            simpa [flckadjStep, hown, hreg, hsame, insflck_severed, hz, hlo] using
              AdjKind.sever hown hsame hgt hend hz
      · have hreg : regflck a.ld flp = (.middle, .ending) := by
          simp [regflck, regflckEnd, hlo, hmid', hmid.ne, hend, hflp]
        by_cases hsame : a.ld.lType = flp.set.lType
        · simpa [flckadjStep, hown, hreg, hsame] using AdjKind.covered hown hsame hlo.le hend.le
        · simpa [flckadjStep, hown, hreg, hsame] using
            AdjKind.cut hown hsame hlo hmid.le hend.ge
      · have hreg : regflck a.ld flp = (.middle, .after) := by
          simp [regflck, regflckEnd, hlo, hgt, hmid', hmid.ne, hend]
        by_cases hsame : a.ld.lType = flp.set.lType
        · simpa [flckadjStep, hown, hreg, hsame] using
            AdjKind.joinLeft hown hsame hlo hmid.le hend
        · simpa [flckadjStep, hown, hreg, hsame] using
            AdjKind.cut hown hsame hlo hmid.le hend.le
    · have hreg : regflck a.ld flp = (.ending, .after) := by
        simp [regflck, hmid, hflp]
      have hend : flp.set.lEnd < a.ld.lEnd := by omega
      by_cases hsame : a.ld.lType = flp.set.lType
      · simpa [flckadjStep, hown, hreg, hsame] using
          AdjKind.joinLeft hown hsame hlo hmid.le hend
      · simpa [flckadjStep, hown, hreg, hsame] using
          AdjKind.cut hown hsame hlo hmid.le hend.le
    · have hreg : regflck a.ld flp = (.after, .after) := by
        simp [regflck, hlo, hmid]
      simpa [flckadjStep, hown, hreg] using AdjKind.passOwn hown hmid

end AdjustStep

/-!
## `flckadj` keeps the chain in order

`AdjShape` is the loop invariant of the `flckadj` walk that concerns the order of the chain: the records
passed and the records to come form a chain in order, the owner's passed records end where the request starts
or before, and `insrtp` is a place for the request.
-/

section AdjustShape

open Osf1.Computation

variable {zalloc : ℕ → Bool} {vp : Vnode} {cls : LockClass} {upid : ℤ} {o : Owner}

/-- The invariant of the walk, with `rest` the records still to come. -/
structure AdjShape (zalloc : ℕ → Bool) (vp : Vnode) (cls : LockClass) (upid : ℤ) (o : Owner)
    (rest : List Filock) (a : Adj) : Prop where
  ordered : (a.passed ++ rest).Pairwise Precedes
  nonempty : ∀ f ∈ a.passed ++ rest, f.set.lStart < f.set.lEnd
  range : a.ld.lStart < a.ld.lEnd
  behind : ∀ f ∈ a.passed, f.set.owner = o → f.set.lEnd ≤ a.ld.lStart
  placed : zalloc a.zcnt = true → ¬Misplaces o a.ld rest
  insrt : a.ld.lType ≠ .unlck → InsertPoint (a.passed ++ rest) a.insrtp a.ld.lStart ∧ a.insrtp ≤ a.passed.length + 1
  mine : (newFilock a.ld vp cls upid).set.owner = o

/-- What holds when the walk leaves the loop: the owner has no record left that meets the
request. -/
structure AdjDone (vp : Vnode) (cls : LockClass) (upid : ℤ) (o : Owner) (a : Adj) : Prop where
  ordered : a.passed.Pairwise Precedes
  nonempty : ∀ f ∈ a.passed, f.set.lStart < f.set.lEnd
  range : a.ld.lStart < a.ld.lEnd
  apart : ∀ f ∈ a.passed, f.set.owner = o → f.set.lEnd ≤ a.ld.lStart ∨ a.ld.lEnd ≤ f.set.lStart
  insrt : a.ld.lType ≠ .unlck → InsertPoint a.passed a.insrtp a.ld.lStart
  mine : (newFilock a.ld vp cls upid).set.owner = o

/-- The promise that each outcome of a turn keeps. -/
def AdjNext.InShape (zalloc : ℕ → Bool) (vp : Vnode) (cls : LockClass) (upid : ℤ) (o : Owner)
    (nflp : List Filock) : AdjNext → Prop
  | .next a => AdjShape zalloc vp cls upid o nflp a
  | .stop a => AdjDone vp cls upid o a
  | .ret a => a.passed.Pairwise Precedes ∧ ∀ f ∈ a.passed, f.set.lStart < f.set.lEnd

theorem newFilock_owner_congr {ld ld' : Eflock} (hp : ld.lPid = ld'.lPid)
    (hr : ld.lRpid = ld'.lRpid) (hs : ld.lRsys = ld'.lRsys) :
    (newFilock ld vp cls upid).set.owner = (newFilock ld' vp cls upid).set.owner := by
  unfold newFilock
  split <;> simp [Eflock.owner, hp, hr, hs]

section Turn

variable {flp : Filock} {nflp : List Filock} {a : Adj}

section

variable (h : AdjShape zalloc vp cls upid o (flp :: nflp) a)
include h

theorem AdjShape.stepBack_eq (hlk : a.ld.lType ≠ .unlck) (hlt : a.ld.lStart < flp.set.lStart) :
    a.stepBack = a.insrtp ∧ a.insrtp ≤ a.passed.length := by
  obtain ⟨hip, hle⟩ := h.insrt hlk
  have hne : a.insrtp ≠ a.passed.length + 1 := by
    intro heq
    have hmem : flp ∈ (a.passed ++ flp :: nflp).take a.insrtp := by
      rw [heq, take_append]
      simp
    have := hip.front flp hmem
    omega
  exact ⟨by simp [Adj.stepBack, hne], by omega⟩

theorem AdjShape.insrt_stepBack (hlk : a.ld.lType ≠ .unlck) (hlt : a.ld.lStart < flp.set.lStart) :
    InsertPoint (a.passed ++ nflp) a.stepBack a.ld.lStart ∧ a.stepBack ≤ a.passed.length := by
  obtain ⟨heq, hle⟩ := h.stepBack_eq hlk hlt
  rw [heq]
  exact ⟨(h.insrt hlk).1.remove hle, hle⟩

theorem AdjShape.insrt_front : InsertPoint (a.passed ++ nflp) a.passed.length flp.set.lStart := by
  obtain ⟨hl, hr, -⟩ := pairwise_append_cons h.ordered
  exact InsertPoint.behind (fun f hf => (hl f hf).1) fun _ f hf => (hr f hf).1

theorem AdjShape.insrt_back (hle : flp.set.lStart ≤ a.ld.lStart) {flp' : Filock} {rest : List Filock}
    (hs : flp'.set.lStart = flp.set.lStart) :
    InsertPoint ((a.passed ++ [flp']) ++ rest) (a.passed.length + 1) a.ld.lStart := by
  obtain ⟨hl, -, -⟩ := pairwise_append_cons h.ordered
  have hlen : a.passed.length + 1 = (a.passed ++ [flp']).length := by simp
  rw [hlen]
  refine InsertPoint.behind (fun f hf => ?_) (fun h0 => by simp at h0)
  rw [mem_append, mem_singleton] at hf
  rcases hf with hf | rfl
  · exact (hl f hf).1.trans hle
  · exact hs.le.trans hle

theorem AdjShape.ordered_cut (hhi : a.ld.lStart ≤ flp.set.lEnd) :
    (a.passed ++ trim flp a.ld :: nflp).Pairwise Precedes := by
  refine pairwise_replace h.ordered (fun f _ hf => hf) (fun g _ hg => ⟨hg.1, fun hown => ?_⟩)
  exact hhi.trans (hg.2 hown)

end

theorem Misplaces.of_widened (ld : Eflock) {ld' : Eflock} (h : Misplaces o ld' nflp) (hown : flp.set.owner = o)
    (hord : ∀ g ∈ nflp, Precedes flp g) (hsort : nflp.Pairwise Precedes) (htype : ld'.lType = ld.lType)
    (hwide : (ld'.lEnd = ld.lEnd ∧ ld.lStart ≤ flp.set.lEnd) ∨ ld'.lEnd ≤ flp.set.lEnd) : Misplaces o ld nflp := by
  induction nflp with
  | nil => exact h
  | cons g nflp ih =>
    rw [pairwise_cons] at hsort
    have hg := hord g (mem_cons_self ..)
    rcases h with ⟨hgo, hdiff, hlt, hgt, e, he, hlo, hhi⟩ | h
    · have hpast := hg.2 (hown.trans hgo.symm)
      rcases hwide with ⟨hend, hstart⟩ | hend
      · have hge := (hsort.1 e he).1
        exact .inl ⟨hgo, htype ▸ hdiff, hend ▸ hlt, hend ▸ hgt, e, he, by omega, hend ▸ hhi⟩
      · omega
    · exact .inr (ih h (fun g' hg' => hord g' (mem_cons_of_mem _ hg')) hsort.2)

theorem scanFrom_severed {ld : Eflock} (hld : ld.lStart < ld.lEnd) (hord : (flp :: nflp).Pairwise Precedes)
    (hpl : ∀ e ∈ nflp, ld.lStart ≤ e.set.lStart → ld.lEnd ≤ e.set.lStart) :
    (∀ f ∈ nflp.take (scanFrom ld.lStart (flp :: nflp) - 1), f.set.lStart < ld.lEnd) ∧
      ∀ f ∈ nflp.drop (scanFrom ld.lStart (flp :: nflp) - 1), ld.lEnd ≤ f.set.lStart := by
  have hsort : nflp.Pairwise fun f g => f.set.lStart ≤ g.set.lStart :=
    (pairwise_cons.mp hord).2.imp fun hfg => hfg.1
  by_cases hlt : flp.set.lStart < ld.lStart
  · have hscan : scanFrom ld.lStart (flp :: nflp) - 1 =
        (nflp.takeWhile fun f => f.set.lStart < ld.lStart).length := by
      unfold scanFrom
      rw [takeWhile_cons_of_pos (by simpa using hlt), length_cons]
      omega
    rw [hscan]
    refine ⟨fun f hf => ?_, fun f hf => hpl f (mem_of_mem_drop hf) ?_⟩
    · have := lt_of_mem_take_takeWhile (fun f : Filock => f.set.lStart) hf
      omega
    · exact le_of_mem_drop_takeWhile (fun f : Filock => f.set.lStart) hsort hf
  · have hscan : scanFrom ld.lStart (flp :: nflp) - 1 = 0 := by
      unfold scanFrom
      rw [takeWhile_cons_of_neg (by simpa using hlt)]
      rfl
    rw [hscan]
    refine ⟨fun f hf => by simp at hf, fun f hf => ?_⟩
    have hf' : f ∈ nflp := by simpa using hf
    have := ((pairwise_cons.mp hord).1 f hf').1
    exact hpl f hf' (by omega)

section

variable (h : AdjShape zalloc vp cls upid o (flp :: nflp) a)
include h

theorem AdjShape.ordered_severed (hsev : ∀ td : Eflock, td.owner = o → (newFilock td vp cls upid).set.owner = o)
    (hown : flp.set.owner = o) (hmid : flp.set.lStart < a.ld.lEnd)
    (hhi : a.ld.lEnd < flp.set.lEnd) (hpl : ¬Misplaces o a.ld (flp :: nflp)) (hdiff : a.ld.lType ≠ flp.set.lType) :
    (a.passed ++ withSevered vp cls upid a.ld flp nflp).Pairwise Precedes := by
  obtain ⟨hl, hr, -⟩ := pairwise_append_cons h.ordered
  have hrest : (flp :: nflp).Pairwise Precedes := h.ordered.sublist (sublist_append_right ..)
  have hlate (e : Filock) (he : e ∈ nflp) (hs : a.ld.lStart ≤ e.set.lStart) :
      a.ld.lEnd ≤ e.set.lStart := by
    by_contra hlt
    exact hpl (.inl ⟨hown, hdiff, hmid, hhi, e, he, hs, by omega⟩)
  obtain ⟨hfront, hback⟩ := scanFrom_severed h.range hrest hlate
  have htd : (newFilock (severed flp a.ld) vp cls upid).set.owner = o := hsev _ hown
  have hpast (e : Filock) (he : e ∈ nflp) (heo : e.set.owner = o) :
      flp.set.lEnd ≤ e.set.lStart := (hr e he).2 (hown.trans heo.symm)
  rw [withSevered, pairwise_append]
  refine ⟨h.ordered.sublist (sublist_append_left ..), ?_, ?_⟩
  · refine pairwise_insert.mpr ⟨(pairwise_cons.mp hrest).2, ?_, ?_⟩
    · intro f hf
      have hlt := hfront f hf
      refine ⟨by simp [severed]; omega, fun heq => ?_⟩
      have := hpast f (mem_of_mem_take hf) (heq.trans htd)
      omega
    · intro f hf
      refine ⟨by simpa [severed] using hback f hf, fun heq => ?_⟩
      have := hpast f (mem_of_mem_drop hf) (heq.symm.trans htd)
      simpa [severed] using this
  · intro f hf g hg
    obtain ⟨hle, -⟩ := hl f hf
    simp only [mem_append, mem_cons] at hg
    have hord := (pairwise_append.mp h.ordered).2.2 f hf
    rcases hg with hg | rfl | hg
    · exact hord g (mem_cons_of_mem _ (mem_of_mem_take hg))
    · refine ⟨by simp [severed]; omega, fun heq => ?_⟩
      have hb := h.behind f hf (heq.trans htd)
      have := h.range
      simp [severed]
      omega
    · exact hord g (mem_cons_of_mem _ (mem_of_mem_drop hg))

theorem AdjShape.ordered_severed_cut (hsev : ∀ td : Eflock, td.owner = o → (newFilock td vp cls upid).set.owner = o)
    (hown : flp.set.owner = o) (hlo : flp.set.lStart < a.ld.lStart)
    (hhi : a.ld.lEnd < flp.set.lEnd) (hpl : ¬Misplaces o a.ld (flp :: nflp)) (hdiff : a.ld.lType ≠ flp.set.lType) :
    (a.passed ++ trim flp a.ld :: withSevered vp cls upid a.ld flp nflp).Pairwise
      Precedes := by
  have hld := h.range
  obtain ⟨hl, hr, -⟩ := pairwise_append_cons h.ordered
  have hsv := h.ordered_severed hsev hown (by omega) hhi hpl hdiff
  rw [pairwise_append] at hsv ⊢
  refine ⟨hsv.1, pairwise_cons.mpr ⟨?_, hsv.2.1⟩, ?_⟩
  · intro g hg
    simp only [withSevered, mem_append, mem_cons] at hg
    have hnext (hg : g ∈ nflp) : Precedes (trim flp a.ld) g := by
      refine ⟨(hr g hg).1, fun heq => ?_⟩
      have := (hr g hg).2 heq
      show a.ld.lStart ≤ g.set.lStart
      omega
    rcases hg with hg | rfl | hg
    · exact hnext (mem_of_mem_take hg)
    · refine ⟨?_, fun _ => ?_⟩
      · show flp.set.lStart ≤ (newFilock (severed flp a.ld) vp cls upid).set.lStart
        simp [severed]
        omega
      · show a.ld.lStart ≤ (newFilock (severed flp a.ld) vp cls upid).set.lStart
        simp [severed]
        omega
    · exact hnext (mem_of_mem_drop hg)
  · intro f hf g hg
    rw [mem_cons] at hg
    rcases hg with rfl | hg
    · exact hl f hf
    · exact hsv.2.2 f hf g hg

theorem AdjShape.mem_nonempty : ∀ f ∈ a.passed ++ nflp, f.set.lStart < f.set.lEnd := by
  intro f hf
  apply h.nonempty f
  rw [mem_append] at hf ⊢
  exact hf.imp_right (mem_cons_of_mem _)

theorem AdjShape.placed_tail : zalloc a.zcnt = true → ¬Misplaces o a.ld nflp :=
  fun hz hm => h.placed hz (.inr hm)

theorem AdjShape.turn (hsev : ∀ td : Eflock, td.owner = o → (newFilock td vp cls upid).set.owner = o)
    {r : AdjNext} (hk : AdjKind zalloc vp cls upid o flp nflp a r) : r.InShape zalloc vp cls upid o nflp := by
  obtain ⟨hl, hr, hlr⟩ := pairwise_append_cons h.ordered
  have hrange := h.range
  have hflp := h.nonempty flp (by simp)
  have hgone := pairwise_remove h.ordered
  have hsorted : nflp.Pairwise Precedes := hgone.sublist (sublist_append_right ..)
  cases hk with
  | passOther hown hle =>
    refine ⟨by simpa using h.ordered, by simpa using h.nonempty, hrange, ?_, h.placed_tail, ?_, h.mine⟩
    · intro f hf hfo
      rw [mem_append, mem_singleton] at hf
      rcases hf with hf | rfl
      · exact h.behind f hf hfo
      · exact absurd hfo hown
    · intro hlk
      obtain ⟨hip, hn⟩ := h.insrt hlk
      refine ⟨by simpa using hip, ?_⟩
      simp
      omega
  | passOwn hown hlt =>
    refine ⟨by simpa using h.ordered, by simpa using h.nonempty, hrange, ?_, h.placed_tail, ?_, h.mine⟩
    · intro f hf hfo
      rw [mem_append, mem_singleton] at hf
      rcases hf with hf | rfl
      · exact h.behind f hf hfo
      · exact hlt.le
    · intro hlk
      exact ⟨h.insrt_back (by omega) rfl, by simp⟩
  | halt hstop =>
    refine ⟨h.ordered, h.nonempty, hrange, ?_, fun hlk => (h.insrt hlk).1, h.mine⟩
    intro f hf hfo
    simp only [mem_append, mem_cons] at hf
    have hflple : a.ld.lEnd ≤ flp.set.lStart := by
      rcases hstop with hlt | ⟨-, -, heq⟩ <;> omega
    rcases hf with hf | rfl | hf
    · exact .inl (h.behind f hf hfo)
    · exact .inr hflple
    · exact .inr (hflple.trans (hr f hf).1)
  | joinRight hown hsame heq =>
    refine ⟨hgone, h.mem_nonempty, ?_, h.behind, ?_, ?_, ?_⟩
    · show a.ld.lStart < flp.set.lEnd
      omega
    · intro hz hm
      exact h.placed_tail hz
        (Misplaces.of_widened a.ld hm hown hr hsorted rfl (.inr le_rfl))
    · intro hlk
      obtain ⟨hip, hn⟩ := h.insrt_stepBack hlk (by omega)
      exact ⟨hip, hn.trans (Nat.le_succ _)⟩
    · rw [← h.mine]
      exact newFilock_owner_congr rfl rfl rfl
  | joinEnd hown hsame hlo hmid hhi =>
    refine ⟨hgone, h.mem_nonempty, ?_, ?_, ?_, ?_⟩
    · show a.ld.lStart < flp.set.lEnd
      omega
    · intro f hf hfo
      rcases mem_append.mp hf with hf | hf
      · exact .inl (h.behind f hf hfo)
      · exact .inr ((hr f hf).2 (hown.trans hfo.symm))
    · intro hlk
      exact (h.insrt_stepBack hlk hlo).1
    · rw [← h.mine]
      exact newFilock_owner_congr rfl rfl rfl
  | swallow hown hlo hhi hne =>
    refine ⟨hgone, h.mem_nonempty, hrange, h.behind, h.placed_tail, ?_, h.mine⟩
    intro hlk
    by_cases heq : a.ld.lStart = flp.set.lStart
    · simp only [heq, if_true]
      exact ⟨h.insrt_front, Nat.le_succ _⟩
    · simp only [heq, if_false]
      obtain ⟨hip, hn⟩ := h.insrt_stepBack hlk (by omega)
      exact ⟨hip, hn.trans (Nat.le_succ _)⟩
  | joinLeft hown hsame hlo hmid hhi =>
    refine ⟨hgone, h.mem_nonempty, ?_, ?_, ?_, fun _ => ⟨h.insrt_front, Nat.le_succ _⟩, ?_⟩
    · show flp.set.lStart < a.ld.lEnd
      omega
    · intro f hf hfo
      exact (hl f hf).2 (hfo.trans hown.symm)
    · intro hz hm
      exact h.placed_tail hz
        (Misplaces.of_widened a.ld hm hown hr hsorted rfl (.inl ⟨rfl, hmid⟩))
    · rw [← h.mine]
      exact newFilock_owner_congr rfl rfl rfl
  | cut hown hdiff hlo hmid hhi =>
    have hord := h.ordered_cut hmid
    refine ⟨by simpa using hord, ?_, hrange, ?_, h.placed_tail, ?_, h.mine⟩
    · intro f hf
      simp only [append_assoc, singleton_append, mem_append, mem_cons] at hf
      rcases hf with hf | rfl | hf
      · exact h.mem_nonempty f (mem_append_left _ hf)
      · exact hlo
      · exact h.mem_nonempty f (mem_append_right _ hf)
    · intro f hf hfo
      rw [mem_append, mem_singleton] at hf
      rcases hf with hf | rfl
      · exact h.behind f hf hfo
      · exact le_rfl
    · intro hlk
      exact ⟨h.insrt_back hlo.le rfl, by simp⟩
  | covered hown hsame hlo hhi => exact ⟨h.ordered, h.nonempty⟩
  | severFails hown hdiff hmid hhi hz => exact ⟨h.ordered, h.nonempty⟩
  | sever hown hdiff hmid hhi hz =>
    have hpl := h.placed hz
    have hmem (f : Filock) (hf : f ∈ withSevered vp cls upid a.ld flp nflp) :
        f = newFilock (severed flp a.ld) vp cls upid ∨ f ∈ nflp := by
      simp only [withSevered, mem_append, mem_cons] at hf
      rcases hf with hf | hf | hf
      · exact .inr (mem_of_mem_take hf)
      · exact .inl hf
      · exact .inr (mem_of_mem_drop hf)
    have hpiece (f : Filock) (hf : f ∈ withSevered vp cls upid a.ld flp nflp) :
        f.set.lStart < f.set.lEnd := by
      rcases hmem f hf with rfl | hf
      · simpa [severed] using hhi
      · exact h.mem_nonempty f (mem_append_right _ hf)
    have hclear (f : Filock) (hf : f ∈ withSevered vp cls upid a.ld flp nflp)
        (hfo : f.set.owner = o) : a.ld.lEnd ≤ f.set.lStart := by
      rcases hmem f hf with rfl | hf
      · simp [severed]
      · exact hhi.le.trans ((hr f hf).2 (hown.trans hfo.symm))
    by_cases hlo : flp.set.lStart < a.ld.lStart
    · simp only [hlo, if_true]
      refine ⟨?_, ?_, hrange, ?_, ?_, h.mine⟩
      · simpa using h.ordered_severed_cut hsev hown hlo hhi hpl hdiff
      · intro f hf
        simp only [mem_append, mem_singleton] at hf
        rcases hf with (hf | rfl) | hf
        · exact h.mem_nonempty f (mem_append_left _ hf)
        · exact hlo
        · exact hpiece f hf
      · intro f hf hfo
        simp only [mem_append, mem_singleton] at hf
        rcases hf with (hf | rfl) | hf
        · exact .inl (h.behind f hf hfo)
        · exact .inl le_rfl
        · exact .inr (hclear f hf hfo)
      · intro hlk
        exact h.insrt_back hlo.le rfl
    · simp only [hlo, if_false, append_nil]
      refine ⟨h.ordered_severed hsev hown hmid hhi hpl hdiff, ?_, hrange, ?_, ?_, h.mine⟩
      · intro f hf
        rcases mem_append.mp hf with hf | hf
        · exact h.mem_nonempty f (mem_append_left _ hf)
        · exact hpiece f hf
      · intro f hf hfo
        rcases mem_append.mp hf with hf | hf
        · exact .inl (h.behind f hf hfo)
        · exact .inr (hclear f hf hfo)
      · intro hlk
        -- the place is in front of the record, and everything behind starts no earlier
        have hback (f : Filock) (hf : f ∈ withSevered vp cls upid a.ld flp nflp) :
            flp.set.lStart ≤ f.set.lStart := by
          rcases hmem f hf with rfl | hf
          · simp [severed]
            omega
          · exact (hr f hf).1
        by_cases heq : flp.set.lStart = a.ld.lStart
        · simp only [heq, if_true]
          rw [← heq]
          exact InsertPoint.behind (fun f hf => (hl f hf).1) fun _ => hback
        · simp only [heq, if_false]
          obtain ⟨hip, hn⟩ := h.insrt_stepBack hlk (by omega)
          refine ⟨by simp only [length_append]; omega, ?_, ?_⟩
          · intro f hf
            apply hip.front f
            rw [take_append_of_le_length hn] at hf ⊢
            exact hf
          · intro h0 f hf
            rcases mem_append.mp hf with hf | hf
            · exact hip.head h0 f (mem_append_left _ hf)
            · have := hback f hf
              omega

end

theorem AdjShape.loop (hsev : ∀ td : Eflock, td.owner = o →
      (newFilock td vp cls upid).set.owner = o) {rest : List Filock} {a : Adj}
    (h : AdjShape zalloc vp cls upid o rest a) :
    (flckadjLoop zalloc vp cls upid o rest a).InShape zalloc vp cls upid o [] := by
  induction rest generalizing a with
  | nil =>
    refine ⟨by simpa using h.ordered, by simpa using h.nonempty, h.range, ?_, ?_, h.mine⟩
    · intro f hf hfo
      exact .inl (h.behind f hf hfo)
    · intro hlk
      simpa using (h.insrt hlk).1
  | cons flp nflp ih =>
    have hturn := h.turn hsev (flckadjStep_kind h.range (h.nonempty flp (by simp)))
    rw [flckadjLoop]
    generalize hr : flckadjStep zalloc vp cls upid o flp nflp a = w at hturn
    cases w with
    | next a' =>
      exact ih hturn
    | stop a' =>
      exact hturn
    | ret a' =>
      exact hturn

end Turn

end AdjustShape

end Osf1.Flock
