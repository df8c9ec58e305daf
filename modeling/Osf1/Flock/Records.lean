import Osf1.Computation.LinkedChain
import Osf1.Flock.Blocked

/-!
# `flckadj` and `blocked` on linked records

The two functions as `vfs_flock.c` has them: on records with `next` and
`prev` links, `fl_flck` being the head link of the store.  `NULL` is `none`.  Every function
returns `none` where the kernel would follow a link to a record that is not there, or would
go round a ring of records for ever.
-/

set_option autoImplicit false

namespace Osf1.Flock.Records

open List Option

section Records

open Osf1.Computation

/-- The records of a `flino`. -/
abbrev Flino := Store Filock

/-- The state of `flckadj` between two turns of its loop. -/
structure Walk where
  flip : Flino
  insrtp : Option ℕ
  ld : Eflock
  rv : ℕ
  zcnt : ℕ

/-- How a turn of the loop ends. -/
inductive WalkNext where
  | next (nflp : Option ℕ) (w : Walk)
  | stop (w : Walk)
  | ret (w : Walk)

variable (zalloc : ℕ → Bool) (zone : Zone Filock)

/-- `insflck` on a chain of a vnode: `some none` is its return value `NULL`.
SRC: vfs/vfs_flock.c:391-464 -/
def insflck (flip : Flino) (zcnt : ℕ) (lckdat : Eflock) (fl : Option ℕ) (vp : Vnode)
    (cls : LockClass) (upid : ℤ) : Option (Option Flino) :=
  if zalloc zcnt then (flip.insertAfter zone fl (newFilock lckdat vp cls upid)).map some
  else some none

/-- SRC: vfs/vfs_flock.c:468-512 -/
def delflck (flip : Flino) (fl : ℕ) : Option Flino := flip.unlink fl

/-- The `do` loops that look for the last record in a row that starts before `start`:
`tdi` is the one found so far and `tdp` the next to look at.
SRC: vfs/vfs_flock.c:720-726,751-757,810-816 -/
def scan (flip : Flino) (start : ℕ) : ℕ → ℕ → ℕ → Option ℕ
  | 0, _, _ => none
  | fuel + 1, tdi, tdp =>
    (flip.cell tdp).bind fun c =>
      if c.val.set.lStart < start then
        match c.next with
        | none => some tdp
        | some q => scan flip start fuel tdp q
      else some tdi

/-- Setting up the piece of `flp` after the end of the request.
SRC: vfs/vfs_flock.c:718-729,749-759 -/
def severTail (w : Walk) (flp : ℕ) (f : Filock) (vp : Vnode) (cls : LockClass) (upid : ℤ) :
    Option (Option Flino) := do
  let tdi ← scan w.flip w.ld.lStart (w.flip.bound + 1) flp flp
  insflck zalloc zone w.flip w.zcnt (severed f w.ld) (some tdi) vp cls upid

/-- The body of the `while` loop of `flckadj` at the record `flp`.
SRC: vfs/vfs_flock.c:652-807 -/
def flckadjStep (vp : Vnode) (cls : LockClass) (upid : ℤ) (o : Owner) (flp : ℕ) (w : Walk) :
    Option WalkNext := do
  let c ← w.flip.cell flp
  let f := c.val
  let nflp := c.next
  let same : Bool := w.ld.lType = f.set.lType
  -- if (insrtp == flp) insrtp = flp->prev
  let back := if w.insrtp = some flp then c.prev else w.insrtp
  if f.set.owner = o then
    match regflck w.ld f with
    | (.before, .before) => some (.stop w)
    | (.before, .start) =>
      if same then do
        let flip ← delflck w.flip flp
        some (.next nflp { w with flip := flip, ld := { w.ld with lEnd := f.set.lEnd }, insrtp := back })
      else some (.stop w)
    | (.start, .ending) =>
      if same then some (.ret w)
      else do
        let flip ← delflck w.flip flp
        some (.next nflp { w with flip := flip, insrtp := c.prev, rv := 1 })
    | (.start, .after) => do
      let flip ← delflck w.flip flp
      some (.next nflp { w with flip := flip, insrtp := c.prev, rv := 1 })
    | (.before, .ending) => do
      let flip ← delflck w.flip flp
      if same then some (.stop { w with flip := flip, insrtp := back, rv := 1 })
      else some (.next nflp { w with flip := flip, insrtp := back, rv := 1 })
    | (.before, .after) => do
      let flip ← delflck w.flip flp
      some (.next nflp { w with flip := flip, insrtp := back, rv := 1 })
    | (.before, .middle) =>
      if same then do
        let flip ← delflck w.flip flp
        some (.stop
          { w with
            flip := flip, ld := { w.ld with lEnd := f.set.lEnd }, insrtp := back, rv := 1 })
      else do
        let tail ← severTail zalloc zone w flp f vp cls upid
        match tail with
        | none => some (.ret { w with rv := ENOLCK, zcnt := w.zcnt + 1 })
        | some flip => do
          -- the record that follows `flp` may be the severed piece by now
          let c ← flip.cell flp
          let back := if w.insrtp = some flp then c.prev else w.insrtp
          let flip ← delflck flip flp
          some (.stop { w with flip := flip, insrtp := back, rv := 1, zcnt := w.zcnt + 1 })
    | (.start, .middle) =>
      if same then some (.ret w)
      else do
        let tail ← severTail zalloc zone w flp f vp cls upid
        match tail with
        | none => some (.ret { w with rv := ENOLCK, zcnt := w.zcnt + 1 })
        | some flip => do
          let c ← flip.cell flp
          let flip ← delflck flip flp
          some (.stop { w with flip := flip, insrtp := c.prev, rv := 1, zcnt := w.zcnt + 1 })
    | (.middle, .middle) =>
      if same then some (.ret w)
      else do
        let tail ← severTail zalloc zone w flp f vp cls upid
        match tail with
        | none => some (.ret { w with rv := ENOLCK, zcnt := w.zcnt + 1 })
        | some flip => do
          let flip ← flip.setVal flp (trim f w.ld)
          some (.stop { w with flip := flip, insrtp := some flp, rv := 1, zcnt := w.zcnt + 1 })
    | (.middle, .ending) =>
      if same then some (.ret w)
      else do
        let flip ← w.flip.setVal flp (trim f w.ld)
        some (.next nflp { w with flip := flip, insrtp := some flp, rv := 1 })
    | (.middle, .after) | (.ending, .after) =>
      if same then do
        let flip ← delflck w.flip flp
        some (.next nflp { w with flip := flip, ld := { w.ld with lStart := f.set.lStart }, insrtp := c.prev })
      else do
        let flip ← w.flip.setVal flp (trim f w.ld)
        some (.next nflp { w with flip := flip, insrtp := some flp, rv := 1 })
    | (.after, .after) => some (.next nflp { w with insrtp := some flp })
    | _ => some (.next nflp w)
  else if f.set.lStart > w.ld.lEnd then some (.stop w)
  else some (.next nflp w)

/-- The `while` loop of `flckadj`. -/
def flckadjLoop (vp : Vnode) (cls : LockClass) (upid : ℤ) (o : Owner) :
    ℕ → Option ℕ → Walk → Option WalkNext
  | 0, _, _ => none
  | _ + 1, none, w => some (.stop w)
  | fuel + 1, some flp, w =>
    (flckadjStep zalloc zone vp cls upid o flp w).bind fun r =>
      match r with
      | .next nflp w => flckadjLoop vp cls upid o fuel nflp w
      | r => some r

/-- The record after which the request goes in, from `insrtp` on.
SRC: vfs/vfs_flock.c:810-816 -/
def insertPlace (w : Walk) : Option (Option ℕ) :=
  match w.insrtp with
  | none => some none
  | some flp => (scan w.flip w.ld.lStart (w.flip.bound + 1) flp flp).map some

/-- The end of `flckadj`.
SRC: vfs/vfs_flock.c:809-827 -/
def flckadjInsert (vp : Vnode) (cls : LockClass) (upid : ℤ) (w : Walk) : Option Walk :=
  if w.ld.lType ≠ .unlck then do
    let insrtp ← insertPlace w
    let r ← insflck zalloc zone w.flip w.zcnt w.ld insrtp vp cls upid
    match r with
    | none => some { w with rv := ENOLCK, zcnt := w.zcnt + 1 }
    | some flip => some { w with flip := flip, zcnt := w.zcnt + 1 }
  else some w

/-- Adjust the chain for a request; the walk that is left has the return value.
SRC: vfs/vfs_flock.c:627-828 -/
def flckadj (flip : Flino) (insrtp : Option ℕ) (ld : Eflock) (vp : Vnode) (cls : LockClass)
    (upid : ℤ) (zcnt : ℕ) : Option Walk := do
  let nflp := if insrtp = none then flip.head else insrtp
  let r ← flckadjLoop zalloc zone vp cls (insertPid ld cls upid) (callerOwner ld cls upid)
    (flip.bound + 1) nflp ⟨flip, insrtp, ld, 0, zcnt⟩
  match r with
  | .ret w => some w
  | .next _ w | .stop w => flckadjInsert zalloc zone vp cls (insertPid ld cls upid) w

/-- The second loop of `blocked`.
SRC: vfs/vfs_flock.c:889-901 -/
def blockedRest (flip : Flino) (o : Owner) (lckdat : Eflock) :
    ℕ → Option ℕ → Option (Option ℕ)
  | 0, _ => none
  | _ + 1, none => some none
  | fuel + 1, some f =>
    (flip.cell f).bind fun c =>
      if Conflicts o lckdat c.val then some (some f)
      else if c.val.set.lStart > lckdat.lEnd then some none
      else blockedRest flip o lckdat fuel c.next

/-- The first loop of `blocked`.
SRC: vfs/vfs_flock.c:868-887 -/
def blockedFrom (flip : Flino) (o : Owner) (lckdat : Eflock) :
    ℕ → Option ℕ → Option ℕ → Option (Option ℕ × Option ℕ)
  | 0, _, _ => none
  | _ + 1, none, insrt => some (none, insrt)
  | fuel + 1, some f, insrt =>
    (flip.cell f).bind fun c =>
      if c.val.set.lStart < lckdat.lStart then
        if c.val.set.owner = o ∧ lckdat.lStart ≤ c.val.set.lEnd ∧ lckdat.lEnd ≥ c.val.set.lStart then
          (blockedRest flip o lckdat (fuel + 1) (some f)).map fun r => (r, some f)
        else if Conflicts o lckdat c.val then some (some f, some f)
        else blockedFrom flip o lckdat fuel c.next (some f)
      else (blockedRest flip o lckdat (fuel + 1) (some f)).map fun r => (r, insrt)

/-- The record that blocks a request, from the head of the chain, and `*insrt`.
SRC: vfs/vfs_flock.c:847-904 -/
def blocked (flip : Flino) (lckdat : Eflock) (cls : LockClass) (upid : ℤ) :
    Option (Option ℕ × Option ℕ) :=
  blockedFrom flip (callerOwner lckdat cls upid) lckdat (flip.bound + 1) flip.head none

end Records

/-!
## The linked records compute what the chain computes

`WalkSim` relates `flckadj` in mid-walk on linked records to `flckadj` in mid-walk on the chain: the records
passed and the records to come make up the linked chain, and the pointer `insrtp` is the address at the
position `insrtp`.
-/

section ChainRefinement

open Osf1.Computation

variable {zalloc : ℕ → Bool} {zone : Zone Filock} {vp : Vnode} {cls : LockClass} {upid : ℤ}
  {o : Owner} {flip : Flino} {start fuel : ℕ} {x : Filock} {l l' : List (ℕ × Filock)} {lckdat : Eflock}

/-- Linked records and chain in mid-walk: `lp` has been passed, `lr` is to come. -/
structure WalkSim (lp lr : List (ℕ × Filock)) (w : Walk) (a : Adj) : Prop where
  linked : Linked w.flip (lp ++ lr)
  passed : a.passed = lp.map Prod.snd
  insrtp : w.insrtp = place (lp ++ lr) a.insrtp
  reached : a.insrtp ≤ lp.length + 1
  inside : a.insrtp ≤ (lp ++ lr).length
  ld : w.ld = a.ld
  rv : w.rv = a.rv
  zcnt : w.zcnt = a.zcnt

/-- The two results of a turn agree; `nflp` is what the chain has left to come. -/
def Agree (nflp : List Filock) : WalkNext → AdjNext → Prop
  | .next p w, .next a =>
    ∃ lp lr, p = firstOr lr none ∧ nflp = lr.map Prod.snd ∧ WalkSim lp lr w a
  | .stop w, .stop a => ∃ l, WalkSim l [] w a
  | .ret w, .ret a =>
    ∃ l, Linked w.flip l ∧ a.passed = l.map Prod.snd ∧ w.ld = a.ld ∧ w.rv = a.rv ∧ w.zcnt = a.zcnt
  | _, _ => False

theorem lastOr_some (p : ℕ) (l : List (ℕ × Filock)) : ∃ q, lastOr (some p) l = some q := by
  induction l using reverseRecOn <;> simp

theorem scan_takeWhile {p : ℕ} (tdi : ℕ) (h : Linked flip (l ++ (p, x) :: l')) (hfuel : l'.length < fuel) :
    scan flip start fuel tdi p =
      lastOr (some tdi) (((p, x) :: l').take
        ((((p, x) :: l').map Prod.snd).takeWhile fun f => f.set.lStart < start).length) := by
  induction l' generalizing l fuel tdi p x with
  | nil =>
    obtain ⟨fuel, rfl⟩ := Nat.exists_eq_succ_of_ne_zero (Nat.ne_of_gt hfuel)
    by_cases hlt : x.set.lStart < start <;> simp [scan, h.cell_eq, hlt]
  | cons c l' ih =>
    obtain ⟨fuel, rfl⟩ := Nat.exists_eq_succ_of_ne_zero (Nat.ne_of_gt (Nat.zero_lt_of_lt hfuel))
    by_cases hlt : x.set.lStart < start
    · have hnext := ih p (l := l ++ [(p, x)]) (by simpa using h) (by simpa using hfuel)
      simp only [scan, h.cell_eq, hlt, if_true, firstOr_cons, bind_some]
      rw [hnext]
      simp [hlt]
    · simp [scan, h.cell_eq, hlt]

theorem scan_eq {p : ℕ} (h : Linked flip (l ++ (p, x) :: l')) :
    scan flip start (flip.bound + 1) p p =
      lastOr none (l ++ ((p, x) :: l').take
        (scanFrom start (((p, x) :: l').map Prod.snd))) := by
  have hfuel : l'.length < flip.bound + 1 := by
    have := h.length_le
    simp only [length_append, length_cons] at this
    omega
  rw [scan_takeWhile p h hfuel]
  unfold scanFrom
  by_cases hlt : x.set.lStart < start
  · simp [hlt]
  · simp [hlt]

section Turn

variable {lp lr : List (ℕ × Filock)} {p : ℕ} {f : Filock} {w : Walk} {a : Adj} {flip : Flino}

section

variable (h : WalkSim lp ((p, f) :: lr) w a)
include h

theorem WalkSim.stepBack (l' : List (ℕ × Filock)) :
    (if w.insrtp = some p then lastOr none lp else w.insrtp) = place (lp ++ l') a.stepBack ∧
      a.stepBack ≤ lp.length := by
  have hlen : a.passed.length = lp.length := by rw [h.passed, length_map]
  have hiff := place_eq_iff h.linked.nodup h.reached
  rw [← h.insrtp] at hiff
  unfold Adj.stepBack
  rw [hlen]
  by_cases heq : a.insrtp = lp.length + 1
  · rw [if_pos (hiff.mpr heq), if_pos heq]
    exact ⟨(place_append_length lp l').symm, le_rfl⟩
  · have hle : a.insrtp ≤ lp.length := by
      have := h.reached
      omega
    rw [if_neg fun hp => heq (hiff.mp hp), if_neg heq, h.insrtp, place_append_of_le _ hle, place_append_of_le _ hle]
    exact ⟨rfl, hle⟩

theorem WalkSim.at {f' : Filock} {l' : List (ℕ × Filock)} (hl : Linked flip (lp ++ (p, f') :: l')) (rv zcnt : ℕ) :
    WalkSim (lp ++ [(p, f')]) l'
      { w with flip := flip, insrtp := some p, rv := rv, zcnt := zcnt }
      { a with
        passed := a.passed ++ [f'], insrtp := a.passed.length + 1, rv := rv, zcnt := zcnt } where
  linked := by simpa using hl
  passed := by simp [h.passed]
  insrtp := by simp [place, h.passed]
  reached := by simp [h.passed]
  inside := by simp [h.passed]
  ld := h.ld
  rv := rfl
  zcnt := rfl

theorem WalkSim.gone (hl : Linked flip (lp ++ lr)) {insrtp : Option ℕ} {n : ℕ}
    (hn : insrtp = place (lp ++ lr) n ∧ n ≤ lp.length) (ld : Eflock) (rv : ℕ) :
    WalkSim lp lr { w with flip := flip, insrtp := insrtp, ld := ld, rv := rv }
      { a with insrtp := n, ld := ld, rv := rv } where
  linked := hl
  passed := h.passed
  insrtp := hn.1
  reached := hn.2.trans (Nat.le_succ _)
  inside := by
    rw [length_append]
    exact hn.2.trans (Nat.le_add_right _ _)
  ld := rfl
  rv := rfl
  zcnt := h.zcnt

end

theorem WalkSim.whole (h : WalkSim lp lr w a) :
    WalkSim (lp ++ lr) [] w { a with passed := (lp ++ lr).map Prod.snd } where
  linked := by simpa using h.linked
  passed := rfl
  insrtp := by simpa using h.insrtp
  reached := h.inside.trans (Nat.le_succ _)
  inside := by simpa using h.inside
  ld := h.ld
  rv := h.rv
  zcnt := h.zcnt

theorem WalkSim.severTail_ok (zone : Zone Filock) (vp : Vnode) (cls : LockClass) (upid : ℤ)
    (h : WalkSim lp ((p, f) :: lr) w a) (hz : zalloc w.zcnt = true) :
    ∃ flip m, severTail zalloc zone w p f vp cls upid = some (some flip) ∧
      m.map Prod.snd = withSevered vp cls upid a.ld f (lr.map Prod.snd) ∧
        Linked flip (lp ++ (p, f) :: m) := by
  obtain ⟨k, hk⟩ : ∃ k, scanFrom a.ld.lStart (f :: lr.map Prod.snd) = k + 1 :=
    ⟨_, (Nat.sub_add_cancel (one_le_scanFrom ..)).symm⟩
  have hscan : scan w.flip w.ld.lStart (w.flip.bound + 1) p p =
      lastOr none (lp ++ (p, f) :: lr.take k) := by
    rw [scan_eq h.linked, h.ld, map_cons, hk, take_succ_cons]
  obtain ⟨q, hq⟩ : ∃ q, lastOr none (lp ++ (p, f) :: lr.take k) = some q := by
    rw [lastOr_append, lastOr_cons]
    exact lastOr_some p _
  have hsplit : lp ++ (p, f) :: lr = (lp ++ (p, f) :: lr.take k) ++ lr.drop k := by simp
  have hl := h.linked
  rw [hsplit] at hl
  obtain ⟨flip, hins, hflip⟩ := hl.insertAfter zone (newFilock (severed f w.ld) vp cls upid)
  rw [hq] at hins
  refine ⟨flip, lr.take k ++ (zone.pick w.flip, newFilock (severed f w.ld) vp cls upid) :: lr.drop k, ?_, ?_, ?_⟩
  · simp [severTail, hscan, hq, insflck, hz, hins]
  · simp [withSevered, hk, h.ld]
  · simpa using hflip

section

variable (h : WalkSim lp ((p, f) :: lr) w a)
include h

theorem WalkSim.severTail_fails (hz : zalloc w.zcnt = false) :
    severTail zalloc zone w p f vp cls upid = some none := by
  obtain ⟨k, hk⟩ : ∃ k, scanFrom w.ld.lStart (((p, f) :: lr).map Prod.snd) = k + 1 :=
    ⟨_, (Nat.sub_add_cancel (one_le_scanFrom ..)).symm⟩
  obtain ⟨q, hq⟩ : ∃ q, scan w.flip w.ld.lStart (w.flip.bound + 1) p p = some q := by
    rw [scan_eq h.linked, lastOr_append, hk, take_succ_cons, lastOr_cons]
    exact lastOr_some p _
  simp [severTail, hq, insflck, hz]

theorem WalkSim.turn_severs (hown : f.set.owner = o) (hdiff : a.ld.lType ≠ f.set.lType)
    (hreg : regflck a.ld f = (.before, .middle) ∨ regflck a.ld f = (.start, .middle) ∨
      regflck a.ld f = (.middle, .middle)) :
    ∃ r, flckadjStep zalloc zone vp cls upid o p w = some r ∧
      Agree (lr.map Prod.snd) r
        (Flock.flckadjStep zalloc vp cls upid o f (lr.map Prod.snd) a) := by
  have hcell := h.linked.cell_eq
  have hld := h.ld
  have hzcnt := h.zcnt
  have hpassed := h.passed
  unfold flckadjStep Flock.flckadjStep
  simp only [hcell, hown, hld, hdiff, insflck_severed, bind_eq_bind, bind_some, if_true, decide_false,
    Bool.false_eq_true, if_false]
  cases hz : zalloc a.zcnt with
  | false =>
    have hfail : severTail zalloc zone w p f vp cls upid = some none := h.severTail_fails (hzcnt ▸ hz)
    have hret : Agree (lr.map Prod.snd) (.ret { w with rv := ENOLCK, zcnt := w.zcnt + 1 })
        (.ret { a with
          passed := a.passed ++ f :: lr.map Prod.snd, rv := ENOLCK, zcnt := a.zcnt + 1 }) :=
      ⟨lp ++ (p, f) :: lr, h.linked, by simp [hpassed], hld, rfl, by simp [hzcnt]⟩
    rcases hreg with hreg | hreg | hreg <;>
      simpa [hld, hreg, hfail, hz] using hret
  | true =>
    obtain ⟨flip, m, hsev, hm, hl⟩ := h.severTail_ok zone vp cls upid (hzcnt ▸ hz)
    have hcell' := hl.cell_eq
    obtain ⟨del, hdel, hdel'⟩ := hl.unlink
    obtain ⟨cut, hcut, hcut'⟩ := hl.setVal (trim f a.ld)
    have hfront : lastOr none lp = place (lp ++ m) lp.length := (place_append_length lp m).symm
    rcases hreg with hreg | hreg | hreg
    · have hstop : Agree (lr.map Prod.snd) (.stop { w with
          flip := del, insrtp := if w.insrtp = some p then lastOr none lp else w.insrtp,
          rv := 1, zcnt := w.zcnt + 1 })
        (.stop { a with
          passed := a.passed ++ withSevered vp cls upid a.ld f (lr.map Prod.snd),
          insrtp := a.stepBack, rv := 1, zcnt := a.zcnt + 1 }) := by
        obtain ⟨hb, hle⟩ := h.stepBack m
        exact ⟨lp ++ m, by simpa using hdel', by simp [hpassed, hm], by simpa using hb,
          by simpa using hle.trans (by omega), by simpa using hle.trans (by omega), hld, rfl,
          by simp [hzcnt]⟩
      simpa [hld, hreg, hsev, hcell', delflck, hdel, hz] using hstop
    · have hstop : Agree (lr.map Prod.snd) (.stop { w with
          flip := del, insrtp := lastOr none lp, rv := 1, zcnt := w.zcnt + 1 })
        (.stop { a with
          passed := a.passed ++ withSevered vp cls upid a.ld f (lr.map Prod.snd),
          insrtp := a.passed.length, rv := 1, zcnt := a.zcnt + 1 }) :=
        ⟨lp ++ m, by simpa using hdel', by simp [hpassed, hm], by simpa [hpassed] using hfront,
          by simp [hpassed]; omega, by simp [hpassed], hld, rfl, by simp [hzcnt]⟩
      simpa [hld, hreg, hsev, hcell', delflck, hdel, hz] using hstop
    · have hstop : Agree (lr.map Prod.snd) (.stop { w with
          flip := cut, insrtp := some p, rv := 1, zcnt := w.zcnt + 1 })
        (.stop { a with
          passed := a.passed ++ trim f a.ld :: withSevered vp cls upid a.ld f (lr.map Prod.snd),
          insrtp := a.passed.length + 1, rv := 1, zcnt := a.zcnt + 1 }) :=
        ⟨lp ++ (p, trim f a.ld) :: m, by simpa using hcut', by simp [hpassed, hm],
          by simp [place, hpassed], by simp [hpassed], by simp [hpassed], hld, rfl,
          by simp [hzcnt]⟩
      simpa [hld, hreg, hsev, hcut, hz] using hstop

theorem WalkSim.turn :
    ∃ r, flckadjStep zalloc zone vp cls upid o p w = some r ∧
      Agree (lr.map Prod.snd) r
        (Flock.flckadjStep zalloc vp cls upid o f (lr.map Prod.snd) a) := by
  have hcell := h.linked.cell_eq
  have hback := h.stepBack lr
  have hfront : lastOr none lp = place (lp ++ lr) a.passed.length ∧
      a.passed.length ≤ lp.length := by
    rw [h.passed, length_map]
    exact ⟨(place_append_length lp lr).symm, le_rfl⟩
  have hld := h.ld
  have hrv := h.rv
  have hzcnt := h.zcnt
  obtain ⟨flip, insrtp, ld, rv, zcnt⟩ := w
  obtain ⟨passed, n, ld', rv', zcnt'⟩ := a
  simp only at hcell hback hfront hld hrv hzcnt
  subst hld hrv hzcnt
  obtain ⟨del, hdel, hdel'⟩ := h.linked.unlink
  obtain ⟨cut, hcut, hcut'⟩ := h.linked.setVal (trim f ld)
  have hpass : Agree (lr.map Prod.snd) (.next (firstOr lr none) ⟨flip, insrtp, ld, rv, zcnt⟩)
      (.next ⟨passed ++ [f], n, ld, rv, zcnt⟩) := by
    refine ⟨lp ++ [(p, f)], lr, rfl, rfl, ?_⟩
    exact ⟨by simpa using h.linked, by simpa using h.passed, by simpa using h.insrtp,
      by simpa using h.reached.trans (Nat.le_succ _), by simpa using h.inside, rfl, rfl, rfl⟩
  have hstop : Agree (lr.map Prod.snd) (.stop ⟨flip, insrtp, ld, rv, zcnt⟩)
      (.stop ⟨passed ++ f :: lr.map Prod.snd, n, ld, rv, zcnt⟩) := by
    refine ⟨lp ++ (p, f) :: lr, ?_⟩
    have hp : passed = lp.map Prod.snd := h.passed
    simpa [hp] using h.whole
  have hret : Agree (lr.map Prod.snd) (.ret ⟨flip, insrtp, ld, rv, zcnt⟩)
      (.ret ⟨passed ++ f :: lr.map Prod.snd, n, ld, rv, zcnt⟩) :=
    ⟨lp ++ (p, f) :: lr, h.linked, by simpa using h.passed, rfl, rfl, rfl⟩
  have hgone {insrtp : Option ℕ} {n : ℕ} (hn : insrtp = place (lp ++ lr) n ∧ n ≤ lp.length)
      (ld' : Eflock) (rv' : ℕ) : Agree (lr.map Prod.snd)
        (.next (firstOr lr none) ⟨del, insrtp, ld', rv', zcnt⟩)
        (.next ⟨passed, n, ld', rv', zcnt⟩) :=
    ⟨lp, lr, rfl, rfl, h.gone hdel' hn ld' rv'⟩
  have hgoneStop (ld' : Eflock) : Agree (lr.map Prod.snd)
      (.stop ⟨del, if insrtp = some p then lastOr none lp else insrtp, ld', 1, zcnt⟩)
      (.stop
        ⟨passed ++ lr.map Prod.snd, Adj.stepBack ⟨passed, n, ld, rv, zcnt⟩, ld', 1, zcnt⟩) := by
    refine ⟨lp ++ lr, ?_⟩
    have hp : passed = lp.map Prod.snd := h.passed
    simpa [hp] using (h.gone hdel' hback ld' 1).whole
  have hcutNext : Agree (lr.map Prod.snd) (.next (firstOr lr none) ⟨cut, some p, ld, 1, zcnt⟩)
      (.next ⟨passed ++ [trim f ld], passed.length + 1, ld, 1, zcnt⟩) :=
    ⟨_, lr, rfl, rfl, h.at hcut' 1 zcnt⟩
  have hat : Agree (lr.map Prod.snd) (.next (firstOr lr none) ⟨flip, some p, ld, rv, zcnt⟩)
      (.next ⟨passed ++ [f], passed.length + 1, ld, rv, zcnt⟩) :=
    ⟨_, lr, rfl, rfl, h.at h.linked rv zcnt⟩
  by_cases hsevers : f.set.owner = o ∧ ld.lType ≠ f.set.lType ∧ (regflck ld f = (.before, .middle) ∨
      regflck ld f = (.start, .middle) ∨ regflck ld f = (.middle, .middle))
  · exact h.turn_severs hsevers.1 hsevers.2.1 hsevers.2.2
  unfold flckadjStep Flock.flckadjStep
  simp only [hcell, bind_eq_bind, bind_some]
  by_cases hown : f.set.owner = o
  swap
  · simp only [if_neg hown]
    by_cases hgt : f.set.lStart > ld.lEnd
    · simpa [hgt] using hstop
    · simpa [hgt] using hpass
  rcases hreg : regflck ld f with ⟨s, e⟩
  simp only [if_pos hown]
  cases s with
  | before =>
    cases e with
    | before => simpa using hstop
    | start =>
      by_cases hsame : ld.lType = f.set.lType
      · simpa [hsame, delflck, hdel] using hgone hback { ld with lEnd := f.set.lEnd } rv
      · simpa [hsame] using hstop
    | middle =>
      by_cases hsame : ld.lType = f.set.lType
      · simpa [hsame, delflck, hdel] using hgoneStop { ld with lEnd := f.set.lEnd }
      · exact absurd ⟨hown, hsame, .inl hreg⟩ hsevers
    | ending =>
      by_cases hsame : ld.lType = f.set.lType
      · simpa [hsame, delflck, hdel] using hgoneStop ld
      · simpa [hsame, delflck, hdel] using hgone hback ld 1
    | after => simpa [delflck, hdel] using hgone hback ld 1
  | start =>
    cases e with
    | before | start => simpa using hpass
    | middle =>
      by_cases hsame : ld.lType = f.set.lType
      · simpa [hsame] using hret
      · exact absurd ⟨hown, hsame, .inr (.inl hreg)⟩ hsevers
    | ending =>
      by_cases hsame : ld.lType = f.set.lType
      · simpa [hsame] using hret
      · simpa [hsame, delflck, hdel] using hgone hfront ld 1
    | after => simpa [delflck, hdel] using hgone hfront ld 1
  | middle =>
    cases e with
    | before | start => simpa using hpass
    | middle =>
      by_cases hsame : ld.lType = f.set.lType
      · simpa [hsame] using hret
      · exact absurd ⟨hown, hsame, .inr (.inr hreg)⟩ hsevers
    | ending =>
      by_cases hsame : ld.lType = f.set.lType
      · simpa [hsame] using hret
      · simpa [hsame, hcut] using hcutNext
    | after =>
      by_cases hsame : ld.lType = f.set.lType
      · simpa [hsame, delflck, hdel] using hgone hfront { ld with lStart := f.set.lStart } rv
      · simpa [hsame, hcut] using hcutNext
  | ending =>
    cases e with
    | before | start | middle | ending => simpa using hpass
    | after =>
      by_cases hsame : ld.lType = f.set.lType
      · simpa [hsame, delflck, hdel] using hgone hfront { ld with lStart := f.set.lStart } rv
      · simpa [hsame, hcut] using hcutNext
  | after =>
    cases e with
    | before | start | middle | ending => simpa using hpass
    | after => simpa using hat

end

end Turn

theorem WalkSim.loop {rest : List Filock} {lp lr : List (ℕ × Filock)} {w : Walk} {a : Adj}
    (hrest : rest = lr.map Prod.snd) (h : WalkSim lp lr w a) (hfuel : lr.length < fuel) :
    ∃ r, flckadjLoop zalloc zone vp cls upid o fuel (firstOr lr none) w = some r ∧
      Agree [] r (Flock.flckadjLoop zalloc vp cls upid o rest a) := by
  obtain ⟨fuel, rfl⟩ := Nat.exists_eq_succ_of_ne_zero (Nat.ne_of_gt (Nat.zero_lt_of_lt hfuel))
  induction rest generalizing lp lr w a fuel with
  | nil =>
    obtain rfl := map_eq_nil_iff.mp hrest.symm
    exact ⟨.stop w, rfl, lp, h⟩
  | cons f rest ih =>
    obtain ⟨⟨p, f⟩, lr, rfl, rfl, rfl⟩ := map_eq_cons_iff.mp hrest.symm
    obtain ⟨r, hr, hagree⟩ : ∃ r, flckadjStep zalloc zone vp cls upid o p w = some r ∧
        Agree (lr.map Prod.snd) r
          (Flock.flckadjStep zalloc vp cls upid o f (lr.map Prod.snd) a) := h.turn
    simp only [flckadjLoop, firstOr_cons, hr, bind_some, Flock.flckadjLoop]
    generalize Flock.flckadjStep zalloc vp cls upid o f (lr.map Prod.snd) a = b at hagree
    cases r with
    | next p w' =>
      cases b with
      | next a' =>
        obtain ⟨lp', lr', rfl, hlr', hsim⟩ := hagree
        have hlen : lr.length = lr'.length := by simpa using congrArg length hlr'
        rw [length_cons] at hfuel
        obtain ⟨fuel, rfl⟩ := Nat.exists_eq_succ_of_ne_zero (show fuel ≠ 0 by omega)
        exact ih hlr' hsim fuel (by omega)
      | stop a' => exact hagree.elim
      | ret a' => exact hagree.elim
    | stop w' =>
      cases b with
      | next a' => exact hagree.elim
      | stop a' => exact ⟨.stop w', rfl, hagree⟩
      | ret a' => exact hagree.elim
    | ret w' =>
      cases b with
      | next a' => exact hagree.elim
      | stop a' => exact hagree.elim
      | ret a' => exact ⟨.ret w', rfl, hagree⟩

/-- What `flckadj` leaves on linked records and on a chain. -/
structure ResultSim (w : Walk) (r : Adjusted) : Prop where
  chain : ∃ l, Linked w.flip l ∧ r.chain = l.map Prod.snd
  ld : w.ld = r.ld
  rv : w.rv = r.rv
  zcnt : w.zcnt = r.zcnt

theorem split_at {k : ℕ} (h : k < l.length) :
    ∃ p f, l = l.take k ++ (p, f) :: l.drop (k + 1) ∧ place l (k + 1) = some p ∧
      l.drop k = (p, f) :: l.drop (k + 1) := by
  have hdrop : l.drop k = l[k] :: l.drop (k + 1) := drop_eq_getElem_cons h
  refine ⟨l[k].1, l[k].2, ?_, by simp [place, h], hdrop⟩
  calc l = l.take k ++ l.drop k := (take_append_drop k l).symm
    _ = l.take k ++ l[k] :: l.drop (k + 1) := by rw [hdrop]

/-- The place of the request in the chain once the walk is over. -/
def chainPlace (a : Adj) : ℕ :=
  if a.insrtp = 0 then 0
  else a.insrtp - 1 + scanFrom a.ld.lStart (a.passed.drop (a.insrtp - 1))

theorem WalkSim.insertPlace_eq {w : Walk} {a : Adj} (h : WalkSim l [] w a) :
    insertPlace w = some (lastOr none (l.take (chainPlace a))) := by
  have hlinked : Linked w.flip l := by simpa using h.linked
  have hinside : a.insrtp ≤ l.length := by simpa using h.inside
  have hinsrtp : w.insrtp = place l a.insrtp := by simpa using h.insrtp
  unfold insertPlace
  cases hk : a.insrtp with
  | zero =>
    have hn0 : chainPlace a = 0 := by simp [chainPlace, hk]
    rw [hinsrtp, hk, hn0]
    rfl
  | succ k =>
    rw [hk] at hinside hinsrtp
    obtain ⟨p, f, hsplit, hp, hdrop⟩ := split_at (show k < l.length by omega)
    obtain ⟨j, hj⟩ : ∃ j, scanFrom a.ld.lStart (((p, f) :: l.drop (k + 1)).map Prod.snd) =
        j + 1 := ⟨_, (Nat.sub_add_cancel (one_le_scanFrom ..)).symm⟩
    have hnk : chainPlace a = k + (j + 1) := by
      rw [chainPlace, hk, if_neg (Nat.succ_ne_zero k), h.passed, Nat.add_sub_cancel, ← map_drop, hdrop, hj]
    have hl := hlinked
    rw [hsplit] at hl
    have htake : l.take (chainPlace a) =
        l.take k ++ ((p, f) :: l.drop (k + 1)).take (j + 1) := by
      rw [hnk, take_add, hdrop]
    obtain ⟨q, hq⟩ := lastOr_some p ((l.drop (k + 1)).take j)
    rw [hinsrtp, hp, htake]
    simp only [h.ld, scan_eq hl, hj, take_succ_cons, lastOr_append, lastOr_cons, hq, map_some]

theorem WalkSim.insert {w : Walk} {a : Adj} (h : WalkSim l [] w a) :
    ∃ w', flckadjInsert zalloc zone vp cls upid w = some w' ∧
      ResultSim w' (Flock.flckadjInsert zalloc vp cls upid a) := by
  have hld := h.ld
  have hrv := h.rv
  have hzcnt := h.zcnt
  have hlinked : Linked w.flip l := by simpa using h.linked
  by_cases hlk : a.ld.lType = .unlck
  · refine ⟨w, by simp [flckadjInsert, hld, hlk], ?_⟩
    simpa [Flock.flckadjInsert, hlk] using ⟨⟨l, hlinked, h.passed⟩, hld, hrv, hzcnt⟩
  have hplace := h.insertPlace_eq
  cases hz : zalloc a.zcnt with
  | false =>
    refine ⟨{ w with rv := ENOLCK, zcnt := w.zcnt + 1 }, ?_, ?_⟩
    · simp [flckadjInsert, hld, hlk, hplace, insflck, hzcnt, hz]
    · simpa [Flock.flckadjInsert, hlk, Flock.insflck, hz] using
        ⟨⟨l, hlinked, h.passed⟩, hld, rfl, by simp [hzcnt]⟩
  | true =>
    have hl := hlinked
    rw [← take_append_drop (chainPlace a) l] at hl
    obtain ⟨flip, hins, hflip⟩ := hl.insertAfter zone (newFilock a.ld vp cls upid)
    refine ⟨{ w with flip := flip, zcnt := w.zcnt + 1 }, ?_, ?_⟩
    · simp [flckadjInsert, hld, hlk, hplace, insflck, hzcnt, hz, hins]
    · have hchain : Flock.flckadjInsert zalloc vp cls upid a =
          ⟨a.passed.take (chainPlace a) ++ newFilock a.ld vp cls upid :: a.passed.drop (chainPlace a), a.ld, a.rv,
            a.zcnt + 1⟩ := by
        simp [Flock.flckadjInsert, hlk, Flock.insflck, hz, chainPlace]
      rw [hchain]
      exact ⟨⟨_, hflip, by simp [h.passed]⟩, hld, hrv, by simp [hzcnt]⟩

theorem flckadj_refines (h : Linked flip l) {n : ℕ} (hn : n ≤ l.length) (ld : Eflock) (zcnt : ℕ) :
    ∃ w, flckadj zalloc zone flip (place l n) ld vp cls upid zcnt = some w ∧
      ResultSim w (Flock.flckadj zalloc vp (l.map Prod.snd) n ld cls upid zcnt) := by
  have hstart : WalkSim (l.take (n - 1)) (l.drop (n - 1)) ⟨flip, place l n, ld, 0, zcnt⟩
      ⟨(l.map Prod.snd).take (n - 1), n, ld, 0, zcnt⟩ := by
    refine ⟨by simpa using h, by simp, by simp, ?_, by simpa using hn, rfl, rfl, rfl⟩
    show n ≤ (l.take (n - 1)).length + 1
    rw [length_take]
    omega
  have hnflp : (if place l n = none then flip.head else place l n) =
      firstOr (l.drop (n - 1)) none := by
    cases n with
    | zero => exact h.front.head
    | succ k =>
      obtain ⟨p, f, -, hp, hdrop⟩ := split_at (show k < l.length by omega)
      simp [hp, hdrop]
  have hfuel : (l.drop (n - 1)).length < flip.bound + 1 := by
    have := h.length_le
    rw [length_drop]
    omega
  obtain ⟨r, hr, hagree⟩ : ∃ r, flckadjLoop zalloc zone vp cls (insertPid ld cls upid)
      (callerOwner ld cls upid) (flip.bound + 1) (firstOr (l.drop (n - 1)) none)
      ⟨flip, place l n, ld, 0, zcnt⟩ = some r ∧ Agree [] r _ := hstart.loop rfl hfuel
  simp only [flckadj, Flock.flckadj, hnflp, bind_eq_bind, hr, bind_some, ← map_drop]
  generalize Flock.flckadjLoop zalloc vp cls (insertPid ld cls upid)
    (callerOwner ld cls upid) ((l.drop (n - 1)).map Prod.snd)
    ⟨(l.map Prod.snd).take (n - 1), n, ld, 0, zcnt⟩ = b at hagree
  cases r with
  | next p w =>
    cases b with
    | next a =>
      obtain ⟨lp, lr, -, hlr, hsim⟩ := hagree
      obtain rfl := map_eq_nil_iff.mp hlr.symm
      exact hsim.insert
    | stop a => exact hagree.elim
    | ret a => exact hagree.elim
  | stop w =>
    cases b with
    | next a => exact hagree.elim
    | stop a =>
      obtain ⟨l', hsim⟩ := hagree
      exact hsim.insert
    | ret a => exact hagree.elim
  | ret w =>
    cases b with
    | next a => exact hagree.elim
    | stop a => exact hagree.elim
    | ret a =>
      obtain ⟨l', hl', hp, hld, hrv, hz⟩ := hagree
      exact ⟨w, rfl, ⟨l', hl', hp⟩, hld, hrv, hz⟩

/-- What `blocked` finds on linked records and on a chain: the same record, at the address
it has, and the same place. -/
structure FoundSim (l : List (ℕ × Filock)) (r : Option ℕ × Option ℕ)
    (b : Option Filock × ℕ) : Prop where
  found : ∀ p, r.1 = some p → ∃ f, (p, f) ∈ l ∧ b.1 = some f
  free : r.1 = none → b.1 = none
  insrt : r.2 = place l b.2
  inside : b.2 ≤ l.length

theorem blockedRest_refines (h : Linked flip (l ++ l')) (hfuel : l'.length < fuel) :
    ∃ r, blockedRest flip o lckdat fuel (firstOr l' none) = some r ∧
      (∀ p, r = some p → ∃ f, (p, f) ∈ l ++ l' ∧ Flock.blockedRest o lckdat (l'.map Prod.snd) = some f) ∧
      (r = none → Flock.blockedRest o lckdat (l'.map Prod.snd) = none) := by
  obtain ⟨fuel, rfl⟩ := Nat.exists_eq_succ_of_ne_zero (Nat.ne_of_gt (Nat.zero_lt_of_lt hfuel))
  induction l' generalizing l fuel with
  | nil => exact ⟨none, rfl, by simp, fun _ => rfl⟩
  | cons c l' ih =>
    have hcell := h.cell_eq
    by_cases hconf : Conflicts o lckdat c.2
    · refine ⟨some c.1, ?_, ?_, by simp⟩
      · simp [blockedRest, hcell, hconf]
      · rintro p ⟨⟩
        exact ⟨c.2, by simp, by simp [Flock.blockedRest, hconf]⟩
    by_cases hgt : c.2.set.lStart > lckdat.lEnd
    · exact ⟨none, by simp [blockedRest, hcell, hconf, hgt], by simp,
        fun _ => by simp [Flock.blockedRest, hconf, hgt]⟩
    · rw [length_cons] at hfuel
      obtain ⟨fuel, rfl⟩ := Nat.exists_eq_succ_of_ne_zero (show fuel ≠ 0 by omega)
      have hnext := ih (l := l ++ [c]) (by simpa using h) fuel (by omega)
      simpa [blockedRest, Flock.blockedRest, hcell, hconf, hgt] using hnext

theorem blockedFrom_refines (h : Linked flip (l ++ l')) (hfuel : l'.length < fuel) :
    ∃ r, blockedFrom flip o lckdat fuel (firstOr l' none) (lastOr none l) = some r ∧
      FoundSim (l ++ l') r (Flock.blockedFrom o lckdat (l'.map Prod.snd) l.length) := by
  obtain ⟨fuel, rfl⟩ := Nat.exists_eq_succ_of_ne_zero (Nat.ne_of_gt (Nat.zero_lt_of_lt hfuel))
  induction l' generalizing l fuel with
  | nil =>
    exact ⟨(none, lastOr none l), rfl, by simp, fun _ => rfl,
      (place_append_length l []).symm, by simp [Flock.blockedFrom]⟩
  | cons c l' ih =>
    have hcell := h.cell_eq
    have hat : place (l ++ c :: l') (l.length + 1) = some c.1 := by simp [place]
    obtain ⟨r, hr, hfound, hfree⟩ : ∃ r,
        blockedRest flip o lckdat (fuel + 1) (firstOr (c :: l') none) = some r ∧ _ :=
      blockedRest_refines h hfuel
    rw [firstOr_cons] at hr
    by_cases hlt : c.2.set.lStart < lckdat.lStart
    · by_cases hown : c.2.set.owner = o ∧ lckdat.lStart ≤ c.2.set.lEnd ∧ lckdat.lEnd ≥ c.2.set.lStart
      · refine ⟨(r, some c.1), by simp [blockedFrom, hcell, hlt, hown, hr], ?_⟩
        have hb : Flock.blockedFrom o lckdat ((c :: l').map Prod.snd) l.length =
            (Flock.blockedRest o lckdat ((c :: l').map Prod.snd), l.length + 1) := by
          simp [Flock.blockedFrom, hlt, hown]
        rw [hb]
        exact ⟨hfound, hfree, hat.symm, by simp⟩
      by_cases hconf : Conflicts o lckdat c.2
      · refine ⟨(some c.1, some c.1), by simp [blockedFrom, hcell, hlt, hown, hconf], ?_⟩
        have hb : Flock.blockedFrom o lckdat ((c :: l').map Prod.snd) l.length =
            (some c.2, l.length + 1) := by
          simp [Flock.blockedFrom, hlt, hown, hconf]
        rw [hb]
        refine ⟨?_, by simp, hat.symm, by simp⟩
        rintro p ⟨⟩
        exact ⟨c.2, by simp, rfl⟩
      · rw [length_cons] at hfuel
        obtain ⟨fuel, rfl⟩ := Nat.exists_eq_succ_of_ne_zero (show fuel ≠ 0 by omega)
        have hnext := ih (l := l ++ [c]) (by simpa using h) fuel (by omega)
        simpa [blockedFrom, Flock.blockedFrom, hcell, hlt, hown, hconf] using hnext
    · refine ⟨(r, lastOr none l), by simp [blockedFrom, hcell, hlt, hr], ?_⟩
      have hb : Flock.blockedFrom o lckdat ((c :: l').map Prod.snd) l.length =
          (Flock.blockedRest o lckdat ((c :: l').map Prod.snd), l.length) := by
        simp [Flock.blockedFrom, hlt]
      rw [hb]
      exact ⟨hfound, hfree, (place_append_length l (c :: l')).symm, by simp⟩

theorem blocked_refines (h : Linked flip l) (lckdat : Eflock) (cls : LockClass) (upid : ℤ) :
    ∃ r, blocked flip lckdat cls upid = some r ∧
      FoundSim l r (Flock.blocked (l.map Prod.snd) lckdat cls upid) := by
  have hfuel : l.length < flip.bound + 1 := Nat.lt_succ_of_le h.length_le
  have hhead : flip.head = firstOr l none := h.front.head
  have hrun : ∃ r, blockedFrom flip (callerOwner lckdat cls upid) lckdat (flip.bound + 1)
      (firstOr l none) (lastOr none []) = some r ∧ FoundSim ([] ++ l) r _ :=
    blockedFrom_refines h hfuel
  rw [blocked, hhead]
  exact hrun

end ChainRefinement

/-!
## The representation invariant of a record-lock chain

`flckadj`, called as `setflck` and `chk_granted` call it, keeps a chain of linked records
sorted, consistently linked, without empty records and with the records of each owner
disjoint, exactly when it does not put a severed piece in front of a record that starts
earlier.
-/

section Representation

open Osf1.Computation

variable {vp : Vnode} {cls : LockClass} {upid : ℤ}

/-- The records of the `flino` are consistently linked and form a well-formed chain. -/
def WellChained (flip : Flino) : Prop := ∃ l, Linked flip l ∧ WellFormed (l.map Prod.snd)

/-- The `insrtp` that the callers pass to `flckadj`: for a lock what `blocked` reported, for
an unlock `fl_flck`.
SRC: vfs/vfs_flock.c:1016-1022,1149,1317-1334 -/
def CallerInsrtp (flip : Flino) (ld : Eflock) (cls : LockClass) (upid : ℤ)
    (insrtp : Option ℕ) : Prop :=
  (ld.lType ≠ .unlck ∧ blocked flip ld cls upid = some (none, insrtp)) ∨ (ld.lType = .unlck ∧ insrtp = flip.head)

theorem CallerInsrtp.place {flip : Flino} {l : List (ℕ × Filock)} {ld : Eflock}
    {insrtp : Option ℕ} (h : CallerInsrtp flip ld cls upid insrtp) (hl : Linked flip l)
    (hc : WellFormed (l.map Prod.snd)) (hld : ld.lStart < ld.lEnd) :
    ∃ n, insrtp = place l n ∧ n ≤ l.length ∧
      AdjustCall (l.map Prod.snd) n ld (callerOwner ld cls upid) := by
  rcases h with ⟨-, hb⟩ | ⟨hun, rfl⟩
  · obtain ⟨r, hr, hsim⟩ := blocked_refines hl ld cls upid
    obtain rfl := some_inj.mp (hb.symm.trans hr)
    exact ⟨_, hsim.insrt, hsim.inside, blocked_adjustCall hc hld⟩
  · refine ⟨flFlck (l.map Prod.snd), ?_, ?_, AdjustCall.head hun⟩
    · rw [hl.front.head]
      cases l <;> rfl
    · have hcall : AdjustCall (l.map Prod.snd) _ ld (callerOwner ld cls upid) := AdjustCall.head hun
      simpa using hcall.le_length

/-- `flckadj` keeps the representation invariant exactly when it misplaces nothing. -/
theorem flckadj_keeps_wellChained_iff (zalloc : ℕ → Bool) (zone : Zone Filock) {flip : Flino}
    {ld : Eflock} {insrtp : Option ℕ} (zcnt : ℕ) (hflip : WellChained flip)
    (hld : ld.lStart < ld.lEnd) (hloc : Local ld cls) (hin : CallerInsrtp flip ld cls upid insrtp) :
    ∃ w, flckadj zalloc zone flip insrtp ld vp cls upid zcnt = some w ∧
      (WellChained w.flip ↔
        ¬(zalloc zcnt = true ∧ Misplaces (callerOwner ld cls upid) ld flip.values)) := by
  obtain ⟨l, hl, hc⟩ := hflip
  obtain ⟨n, rfl, hn, hcall⟩ := hin.place hl hc hld
  obtain ⟨w, hw, hsim⟩ : ∃ w, flckadj zalloc zone flip (place l n) ld vp cls upid zcnt = some w ∧ ResultSim w _ :=
    flckadj_refines hl hn ld zcnt
  obtain ⟨l', hl', hchain⟩ := hsim.chain
  refine ⟨w, hw, ?_⟩
  rw [hl.values_eq]
  constructor
  · rintro ⟨m, hm, hwf⟩ ⟨hz, hmis⟩
    obtain rfl := hm.unique hl'
    rw [← hchain] at hwf
    exact flckadj_unsorted hc hld hloc hcall hz hmis hwf.sorted
  · intro hno
    refine ⟨l', hl', ?_⟩
    rw [← hchain]
    exact flckadj_wellFormed hc hld hloc hcall fun hz hmis => hno ⟨hz, hmis⟩

/-- Process 1 reads bytes 0 to 100 and process 2 bytes 20 to 30. -/
def twoReaders : List Filock :=
  [⟨⟨.rdlck, 0, 100, 1, 0, 0, 0⟩, .fileLock, 7, ⟨0, 0, 0⟩⟩, ⟨⟨.rdlck, 20, 30, 2, 0, 0, 0⟩, .fileLock, 7, ⟨0, 0, 0⟩⟩]

theorem wellChained_twoReaders : WellChained (Store.ofList twoReaders) := by
  refine ⟨_, linked_ofList twoReaders, ?_⟩
  have hval : (twoReaders.zipIdx.map Prod.swap).map Prod.snd = twoReaders := by decide
  exact ⟨by decide, by decide, by decide⟩

/-- Unlocking bytes 50 to 60 for process 1: no record starts among them. -/
theorem flckadj_keeps_wellChained_iff_twoReaders :
    ∃ w, flckadj (fun _ => true) (Zone.fresh Filock) (Store.ofList twoReaders) (some 0)
        ⟨.unlck, 50, 60, 1, 0, 0, 0⟩ 7 .fileLock 1 0 = some w ∧
      (WellChained w.flip ↔
        ¬(true = true ∧ Misplaces ⟨1, 0, 0⟩ ⟨.unlck, 50, 60, 1, 0, 0, 0⟩
          (Store.ofList twoReaders).values)) :=
  flckadj_keeps_wellChained_iff (fun _ => true) (Zone.fresh Filock) 0 wellChained_twoReaders
    (by decide) (fun _ => ⟨rfl, rfl⟩) (.inr ⟨rfl, rfl⟩)

/-- Unlocking bytes 10 to 50 for process 1 leaves the piece from 50 on in front of the
record of process 2, which starts at 20. -/
theorem flckadj_misplaces_severed :
    ¬∀ (zalloc : ℕ → Bool) (zone : Zone Filock) (vp : Vnode) (cls : LockClass) (upid : ℤ)
      (flip : Flino) (ld : Eflock) (insrtp : Option ℕ) (zcnt : ℕ), WellChained flip →
      ld.lStart < ld.lEnd → Local ld cls → CallerInsrtp flip ld cls upid insrtp →
      ∃ w, flckadj zalloc zone flip insrtp ld vp cls upid zcnt = some w ∧
        WellChained w.flip := by
  intro h
  obtain ⟨w, hw, l, hl, hc⟩ := h (fun _ => true) (Zone.fresh Filock) 7 .fileLock 1
    (Store.ofList twoReaders) ⟨.unlck, 10, 50, 1, 0, 0, 0⟩ (some 0) 0 wellChained_twoReaders
    (by decide) (fun _ => ⟨rfl, rfl⟩) (.inr ⟨rfl, rfl⟩)
  have hval : (flckadj (fun _ => true) (Zone.fresh Filock) (Store.ofList twoReaders) (some 0)
      ⟨.unlck, 10, 50, 1, 0, 0, 0⟩ 7 .fileLock 1 0).map (fun w =>
        w.flip.values.map fun f => f.set.lStart) = some [0, 50, 20] := by decide
  rw [hw, map_some, hl.values_eq] at hval
  have hstarts : ((l.map Prod.snd).map fun f => f.set.lStart).Pairwise (· ≤ ·) := pairwise_map.mpr hc.sorted
  rw [some_inj.mp hval] at hstarts
  exact absurd hstarts (by decide)

end Representation

end Osf1.Flock.Records
