import Osf1.Computation.Transition
import Osf1.Lvm.Schedule

/-!
# Which copies are stale after a write

`lv_stalepp` marks the copies that missed a write, or makes the copies fresh that a resync has
come to the end of.
-/

set_option autoImplicit false

namespace Osf1.Lvm

open Function List

section Stale

variable {v : Volume} {lb : Buf} {x x' : Copies} {m : Mirror} {ext ext' : Mirror → Extent}

/-- The copies stay where they are, and those of a mask are stale too. -/
def Marks (ext : Mirror → Extent) (mask : Mask) (ext' : Mirror → Extent) : Prop :=
  ∀ m, (ext' m).pvnum = (ext m).pvnum ∧ ((ext' m).stale ↔ (ext m).stale ∨ m ∈ mask)

/-- The copies stay where they are, and those of a mask are no longer stale. -/
def Clears (ext : Mirror → Extent) (mask : Mask) (ext' : Mirror → Extent) : Prop :=
  ∀ m, (ext' m).pvnum = (ext m).pvnum ∧ ((ext' m).stale ↔ (ext m).stale ∧ m ∉ mask)

theorem markStale_spec (ext : Mirror → Extent) (mirbad : Mask) (l : List Mirror) :
    Marks ext l.toFinset (markStale ext mirbad l).1 := by
  induction l generalizing ext mirbad with
  | nil => exact fun m => ⟨rfl, by simp [markStale]⟩
  | cons c l ih =>
    intro m
    unfold markStale
    rw [toFinset_cons, Finset.mem_insert]
    cases hstale : (ext c).stale
    · -- it is marked now
      rw [Bool.false_and, if_neg Bool.false_ne_true, Bool.not_false, if_pos rfl]
      obtain ⟨hpv, hiff⟩ := ih (update ext c { ext c with stale := true, changing := true })
        mirbad m
      rw [hpv, hiff]
      by_cases hm : m = c
      · rw [hm, update_self]
        simp
      · rw [update_of_ne hm]
        simp [hm]
    · -- it is stale already
      have hsame (mirbad' : Mask) : ((markStale ext mirbad' l).1 m).pvnum = (ext m).pvnum ∧
          (((markStale ext mirbad' l).1 m).stale ↔ (ext m).stale ∨ m = c ∨ m ∈ l.toFinset) := by
        refine ⟨(ih ext mirbad' m).1, (ih ext mirbad' m).2.trans ⟨fun h => ?_, fun h => ?_⟩⟩
        · exact h.imp_right .inr
        · rcases h with h | rfl | h
          · exact .inl h
          · exact .inl hstale
          · exact .inr h
      split
      · exact hsame (mirbad.erase c)
      · exact hsame mirbad

theorem lvStaleppDone_spec (vgsaFailed : Bool) (mirbad : Mask) (x : Copies) (m : Mirror) :
    ((lvStaleppDone vgsaFailed mirbad x).ext m).pvnum = (x.ext m).pvnum ∧
      ((lvStaleppDone vgsaFailed mirbad x).ext m).stale = (x.ext m).stale := by
  unfold lvStaleppDone
  cases vgsaFailed
  · rw [if_neg Bool.false_ne_true]
    generalize mirbad.mirrors = l
    obtain ⟨ext, lext⟩ := x
    simp only
    induction l generalizing ext with
    | nil => exact ⟨rfl, rfl⟩
    | cons c l ih =>
      rw [foldl_cons]
      obtain ⟨hpv, hstale⟩ := ih (update ext c { ext c with changing := false })
      rw [hpv, hstale]
      by_cases hm : m = c
      · rw [hm, update_self]
        exact ⟨rfl, rfl⟩
      · rw [update_of_ne hm]
        exact ⟨rfl, rfl⟩
  · exact ⟨rfl, rfl⟩

theorem freshen_none (ext : Mirror → Extent) {l : List Mirror} (hnodup : l.Nodup) :
    freshen ext l = none ↔ ∃ m ∈ l, (ext m).pvnum = none ∨ (ext m).stale = false := by
  induction l generalizing ext with
  | nil => simp [freshen]
  | cons c l ih =>
    rw [nodup_cons] at hnodup
    have hrest : (∃ m ∈ l, (update ext c { ext c with stale := false } m).pvnum = none ∨
        (update ext c { ext c with stale := false } m).stale = false) ↔
        ∃ m ∈ l, (ext m).pvnum = none ∨ (ext m).stale = false := by
      refine exists_congr fun m => and_congr_right fun hm => ?_
      have hne : m ≠ c := fun heq => hnodup.1 (heq ▸ hm)
      rw [update_of_ne hne]
    unfold freshen
    simp only [mem_cons, exists_eq_or_imp]
    by_cases hpv : (ext c).pvnum = none
    · simp [hpv]
    · cases hstale : (ext c).stale
      · simp [hpv]
      · rw [if_neg hpv, if_pos rfl, ih _ hnodup.2, hrest]
        simp [hpv]

theorem freshen_some {l : List Mirror} (h : freshen ext l = some ext') : Clears ext l.toFinset ext' := by
  induction l generalizing ext with
  | nil =>
    cases h
    exact fun m => ⟨rfl, by simp⟩
  | cons c l ih =>
    unfold freshen at h
    split at h
    · cases h
    split at h
    · intro m
      obtain ⟨hpv, hstale⟩ := ih h m
      rw [hpv, hstale, toFinset_cons, Finset.mem_insert, not_or]
      by_cases hm : m = c
      · rw [hm, update_self]
        simp
      · rw [update_of_ne hm]
        simp [hm]
    · cases h

/-- What `lv_stalepp` takes for bad. -/
def marked (pb : Pbuf) : Mask :=
  if pb.mirdone = pb.mirbad then spare pb.miract pb.mirbad else pb.mirbad

/-- What is left of `lx_syncmsk`. -/
def stillSyncing (x : Copies) (pb : Pbuf) : Mask := x.lext.syncmsk \ (x.lext.syncerr ∪ marked pb ∪ pb.miravoid)

/-- Whether `lv_stalepp` makes copies fresh. -/
def Finishes (v : Volume) (lb : Buf) (x : Copies) (pb : Pbuf) : Prop :=
  lb.resync = true ∧ stillSyncing x pb ≠ ∅ ∧ lb.recovery = false ∧ x.lext.synctrk = v.trkPerExt - 1

theorem markBad_spec (vgsaFailed : Bool) (ext : Mirror → Extent) (mirbad : Mask) (error : Bool) (lext : Lextent) :
    ∃ x', markBad vgsaFailed ext mirbad error lext = .done error x' ∧ Marks ext mirbad x'.ext := by
  have hspec := markStale_spec ext mirbad mirbad.mirrors
  have hset : mirbad.mirrors.toFinset = mirbad := by
    ext c
    rw [mem_toFinset, mem_maskMirrors]
  rw [hset] at hspec
  refine ⟨_, rfl, fun m => ?_⟩
  split
  · exact hspec m
  · obtain ⟨hpv, hstale⟩ := lvStaleppDone_spec vgsaFailed (markStale ext mirbad mirbad.mirrors).2
      ⟨(markStale ext mirbad mirbad.mirrors).1, lext⟩ m
    rw [hpv, hstale]
    exact hspec m

theorem lvStalepp_eq (v : Volume) (lb : Buf) (vgsaFailed : Bool) (x : Copies) (pb : Pbuf) :
    lvStalepp v lb vgsaFailed x pb =
      let lext : Lextent := { x.lext with
        syncerr := x.lext.syncerr ∪ marked pb ∪ pb.miravoid, syncmsk := stillSyncing x pb }
      if lb.resync then
        if stillSyncing x pb = ∅ then markBad vgsaFailed x.ext (marked pb) true lext
        else if !lb.recovery && decide (x.lext.synctrk = v.trkPerExt - 1) then
          match freshen x.ext (stillSyncing x pb).mirrors with
          | none => .panic
          | some ext => .done (decide (pb.mirdone = pb.mirbad))
              (lvStaleppDone vgsaFailed (marked pb) ⟨ext, { lext with syncmsk := ∅ }⟩)
        else markBad vgsaFailed x.ext (marked pb) (decide (pb.mirdone = pb.mirbad)) lext
      else if marked pb ≠ ∅ then
        markBad vgsaFailed x.ext (marked pb) (decide (pb.mirdone = pb.mirbad))
          { x.lext with syncerr := x.lext.syncerr ∪ marked pb }
      else markBad vgsaFailed x.ext (marked pb) (decide (pb.mirdone = pb.mirbad)) x.lext := rfl

theorem lvStalepp_marks (vgsaFailed : Bool) {pb : Pbuf} (h : ¬Finishes v lb x pb) :
    ∃ x', lvStalepp v lb vgsaFailed x pb =
        .done (decide (pb.mirdone = pb.mirbad ∨ (lb.resync = true ∧ stillSyncing x pb = ∅))) x' ∧
      Marks x.ext (marked pb) x'.ext := by
  rw [lvStalepp_eq]
  cases hresync : lb.resync
  · rw [if_neg Bool.false_ne_true]
    simp only [Bool.false_eq_true, false_and, or_false]
    split
    · exact markBad_spec ..
    · exact markBad_spec ..
  · rw [if_pos rfl]
    by_cases hsync : stillSyncing x pb = ∅
    · rw [if_pos hsync]
      simp only [hsync, and_self, or_true, decide_true]
      exact markBad_spec ..
    · have hlast : (!lb.recovery && decide (x.lext.synctrk = v.trkPerExt - 1)) = false := by
        cases hrecovery : lb.recovery
        · have hne : ¬x.lext.synctrk = v.trkPerExt - 1 := fun heq =>
            h ⟨hresync, hsync, hrecovery, heq⟩
          simp [hne]
        · rfl
      rw [if_neg hsync, hlast, if_neg Bool.false_ne_true]
      simp only [hsync, and_false, or_false]
      exact markBad_spec ..

theorem lvStalepp_clears (vgsaFailed : Bool) {pb : Pbuf} (h : Finishes v lb x pb) :
    (lvStalepp v lb vgsaFailed x pb = .panic ∧
      ∃ m ∈ stillSyncing x pb, (x.ext m).pvnum = none ∨ (x.ext m).stale = false) ∨
    ((∀ m ∈ stillSyncing x pb, (x.ext m).pvnum ≠ none ∧ (x.ext m).stale = true) ∧
      ∃ x', lvStalepp v lb vgsaFailed x pb = .done (decide (pb.mirdone = pb.mirbad)) x' ∧
        Clears x.ext (stillSyncing x pb) x'.ext) := by
  obtain ⟨hresync, hsync, hrecovery, hlast⟩ := h
  have hset : (stillSyncing x pb).mirrors.toFinset = stillSyncing x pb := by
    ext c
    rw [mem_toFinset, mem_maskMirrors]
  have hnone := freshen_none x.ext (nodup_maskMirrors (stillSyncing x pb))
  simp only [mem_maskMirrors] at hnone
  rw [lvStalepp_eq]
  simp only [hresync, hsync, hrecovery, hlast, if_true, if_false, Bool.not_false, Bool.true_and, decide_true]
  cases hfresh : freshen x.ext (stillSyncing x pb).mirrors with
  | none => exact .inl ⟨rfl, hnone.mp hfresh⟩
  | some ext =>
    have hclears := freshen_some hfresh
    rw [hset] at hclears
    refine .inr ⟨fun m hm => ?_, _, rfl, fun m => ?_⟩
    · have hall : ¬((x.ext m).pvnum = none ∨ (x.ext m).stale = false) := fun hor => by
        rw [hnone.mpr ⟨m, hm, hor⟩] at hfresh
        cases hfresh
      rw [not_or, Bool.not_eq_false] at hall
      exact hall
    · rw [(lvStaleppDone_spec vgsaFailed (marked pb) _ m).1, (lvStaleppDone_spec vgsaFailed (marked pb) _ m).2]
      exact hclears m

end Stale

/-!
## What a mirrored write promises

A write that ends without an error has reached every copy that is not stale, and one of them is left.
-/

section Writes

open Osf1.Computation

section Conditions

variable (v : Volume) (x : Copies) (w : Write)

/-- A copy that is there and not stale. -/
def Good (v : Volume) (ext : Mirror → Extent) (m : Mirror) : Prop :=
  m ≤ v.maxmirrors ∧ (ext m).pvnum ≠ none ∧ (ext m).stale = false

/-- A resync is for the copies of its mask, and the others are what has been read for it. -/
def WriteOk : Prop :=
  match lvWrite v x w with
  | none => False
  | some (.panic, _) => True
  | some (.done error x', received) =>
    (error = false →
      (∀ m, Good v x'.ext m → m ∈ received ∨ (w.resync = true ∧ m ∉ x.lext.syncmsk)) ∧ ∃ m, Good v x'.ext m) ∧
    ((∃ m, Good v x.ext m) → ∃ m, Good v x'.ext m)

/-- The write comes to the mirror: a sequential one ends at the first that is not there. -/
def Reached (m : Mirror) : Prop := m ≤ v.maxmirrors ∧ (w.policy = .parallel ∨ ∀ m' < m, (x.ext m').pvnum ≠ none)

/-- The write goes to the mirror. -/
def Target (m : Mirror) : Prop := Reached v x w m ∧ usable v w.buf x m = true

/-- The mirror is on a missing volume; or its bit is on in the buffer of a sequential write. -/
def Avoided (m : Mirror) : Prop := (w.policy = .sequential ∧ m ∈ w.miravoid) ∨ (Reached v x w m ∧ gone v x m = true)

/-- The write fails at the mirror, or leaves it out. -/
def Lost (m : Mirror) : Prop := (Target v x w m ∧ w.io.fails m = true) ∨ Avoided v x w m

/-- There are only such mirrors, and none that is not there. -/
def AllLost : Prop := ∀ m, Lost v x w m ↔ Reached v x w m

/-- The mirror is marked: if all of them are lost, the first is left alone. -/
def Bad (m : Mirror) : Prop := Lost v x w m ∧ ¬(AllLost v x w ∧ Target v x w m ∧ ∀ m' < m, ¬Target v x w m')

/-- The resync of the mirror goes on. -/
def Synced (m : Mirror) : Prop := m ∈ x.lext.syncmsk ∧ m ∉ x.lext.syncerr ∧ ¬Bad v x w m ∧ ¬Avoided v x w m

/-- The last track of a resync is written. -/
def Freshening : Prop :=
  w.resync = true ∧ (∃ m, Synced v x w m) ∧ w.recovery = false ∧ x.lext.synctrk = v.trkPerExt - 1

/-- The copy is fresh after the last track. -/
def Fresh (m : Mirror) : Prop :=
  m ≤ v.maxmirrors ∧ (x.ext m).pvnum ≠ none ∧ ((x.ext m).stale = false ∨ Synced v x w m)

/-- The write ends with an error. -/
def Errs : Prop := AllLost v x w ∨ (w.resync = true ∧ ¬∃ m, Synced v x w m)

/-- When the code does what it promises, for a write that goes to some mirror. -/
structure Fitting : Prop where
  /-- A good copy is written, and none is out of reach. -/
  done : ¬Freshening v x w → ¬Errs v x w →
    (∃ m, Good v x.ext m ∧ ¬Lost v x w m) ∧
      ∀ m, Good v x.ext m → ¬Lost v x w m → Target v x w m ∨ (w.resync = true ∧ m ∉ x.lext.syncmsk)
  /-- A good copy is left alone. -/
  failed : ¬Freshening v x w → Errs v x w → (∃ m, Good v x.ext m) → ∃ m, Good v x.ext m ∧ ¬Bad v x w m
  /-- All the copies that are fresh now were written. -/
  freshened : Freshening v x w →
    (∃ m, Synced v x w m ∧ ((x.ext m).pvnum = none ∨ (x.ext m).stale = false)) ∨
      AllLost v x w ∨ ((∃ m, Fresh v x w m) ∧ ∀ m, Fresh v x w m →
        (Target v x w m ∧ w.io.fails m = false) ∨ m ∉ x.lext.syncmsk)

def WriteFits : Prop := (∃ m, Target v x w m) → Fitting v x w

end Conditions

variable {v : Volume} {x x' : Copies} {w : Write} {m : Mirror}

theorem mem_visited : m ∈ visited v x w.policy ↔ Reached v x w m := by
  unfold Reached
  cases w.policy with
  | parallel =>
    rw [← mem_mirrors]
    simp [visited]
  | sequential =>
    have hnot : ¬Policy.sequential = .parallel := by decide
    simp only [visited, hnot, false_or]
    exact mem_walk_mirrors

theorem mem_targets : m ∈ targets v x w ↔ Target v x w m := by
  unfold targets Target
  rw [mem_filter, mem_visited]

theorem mem_avoided : m ∈ avoided v x w ↔ Avoided v x w m := by
  unfold avoided Avoided Write.leftover
  rw [Finset.mem_union, mem_toFinset, mem_filter, mem_visited]
  split
  · rename_i hw
    simp [hw]
  · rename_i hw
    simp [hw]

/-- The last buffer of a write. -/
structure Last (v : Volume) (x : Copies) (w : Write) (pb : Pbuf) : Prop where
  done : ∀ c, c ∈ pb.mirdone ↔ Reached v x w c
  act : ∀ c, c ∈ pb.miract ↔ Target v x w c
  avoid : ∀ c, c ∈ pb.miravoid ↔ Avoided v x w c
  bad : ∀ c, c ∈ pb.mirbad ↔ Lost v x w c

variable {pb : Pbuf}

section

variable (h : Last v x w pb)
include h

theorem Last.allLost : pb.mirdone = pb.mirbad ↔ AllLost v x w := by
  rw [Finset.ext_iff]
  refine forall_congr' fun c => ?_
  rw [h.done, h.bad]
  exact iff_comm

theorem Last.marked : m ∈ marked pb ↔ Bad v x w m := by
  unfold Lvm.marked Bad
  have hfirst : firstMask pb.miract = some m ↔ Target v x w m ∧ ∀ m' < m, ¬Target v x w m' := by
    rw [firstMask_eq_some]
    simp only [h.act]
  rw [← h.allLost, ← h.bad, ← hfirst]
  split
  · rename_i hall
    unfold spare
    cases hmask : firstMask pb.miract with
    | none => simp
    | some c => simp [hall, eq_comm, and_comm]
  · rename_i hall
    simp [hall]

theorem Last.syncing : m ∈ stillSyncing x pb ↔ Synced v x w m := by
  unfold stillSyncing Synced
  rw [Finset.mem_sdiff, Finset.mem_union, Finset.mem_union, h.marked, h.avoid, not_or, not_or, and_assoc]

theorem Last.syncing_empty : stillSyncing x pb = ∅ ↔ ¬∃ m, Synced v x w m := by
  rw [Finset.eq_empty_iff_forall_notMem, not_exists]
  exact forall_congr' fun m => by rw [h.syncing]

theorem Last.finishes : Finishes v w.buf x pb ↔ Freshening v x w := by
  unfold Finishes Freshening
  rw [Ne, h.syncing_empty, not_not]
  rfl

theorem Last.errs : (pb.mirdone = pb.mirbad ∨ (w.buf.resync = true ∧ stillSyncing x pb = ∅)) ↔ Errs v x w := by
  rw [h.allLost, h.syncing_empty]
  rfl

end

theorem lvWrite_last (v : Volume) (x : Copies) (w : Write) (htarget : ∃ m, Target v x w m) :
    ∃ last bad received,
      Last v x w { (⟨last, (visited v x w.policy).toFinset, bad, (targets v x w).toFinset,
        avoided v x w, w.io.fails last⟩ : Pbuf) with mirbad := bad ∪ avoided v x w } ∧
      (w.io.fails last = true → last ∈ bad) ∧
      lvWrite v x w = some (lvWriteDone v w.buf w.io.vgsaFailed x
        ⟨last, (visited v x w.policy).toFinset, bad, (targets v x w).toFinset, avoided v x w,
          w.io.fails last⟩, received) ∧
      ∀ c, c ∈ received ↔ Target v x w c ∧ w.io.fails c = false := by
  rcases lvWrite_end v x w with hnone | ⟨last, hlast, bad, received, hrun, hbad, hreceived⟩
  · obtain ⟨m, hm⟩ := htarget
    rw [← mem_targets, hnone.1] at hm
    exact absurd hm not_mem_nil
  · refine ⟨last, bad, received, ⟨fun c => ?_, fun c => ?_, fun c => ?_, fun c => ?_⟩,
      fun hfail => (hbad last).mpr ⟨hlast, hfail⟩, hrun, fun c => ?_⟩
    · rw [mem_toFinset, mem_visited]
    · rw [mem_toFinset, mem_targets]
    · exact mem_avoided
    · rw [Finset.mem_union, hbad, mem_targets, mem_avoided]
      rfl
    · rw [hreceived, mem_targets]

theorem good_marks (hlast : Last v x w pb) (h : Marks x.ext (marked pb) x'.ext) :
    Good v x'.ext m ↔ Good v x.ext m ∧ ¬Bad v x w m := by
  obtain ⟨hpv, hstale⟩ := h m
  unfold Good
  rw [hpv, ← Bool.not_eq_true, hstale, hlast.marked, not_or, Bool.not_eq_true, and_assoc, and_assoc]

theorem good_clears (hlast : Last v x w pb) (h : Clears x.ext (stillSyncing x pb) x'.ext) :
    Good v x'.ext m ↔ Fresh v x w m := by
  obtain ⟨hpv, hstale⟩ := h m
  unfold Good Fresh
  rw [hpv, ← Bool.not_eq_true, hstale, hlast.syncing, not_and_or, Bool.not_eq_true, not_not]

theorem lvWriteDone_marks (vgsaFailed : Bool) (hlast : Last v x w { pb with mirbad := pb.mirbad ∪ pb.miravoid })
    (hreached : ∃ m, Reached v x w m) (herror : pb.error = true → ∃ m, m ∈ pb.mirbad)
    (h : ¬Freshening v x w) :
    ∃ error x', lvWriteDone v w.buf vgsaFailed x pb = .done error x' ∧
      (error = true ↔ Errs v x w) ∧ ∀ m, Good v x'.ext m ↔ Good v x.ext m ∧ ¬Bad v x w m := by
  rw [← hlast.finishes] at h
  by_cases hbad : pb.mirbad ∪ pb.miravoid ≠ ∅ ∨ w.buf.resync
  · obtain ⟨x', hrun, hmarks⟩ := lvStalepp_marks vgsaFailed h
    refine ⟨_, x', (if_pos hbad).trans hrun, ?_, fun m => good_marks hlast hmarks⟩
    rw [decide_eq_true_iff]
    exact hlast.errs
  · -- there is nothing to mark
    rw [not_or, not_not] at hbad
    have hlost (c : Mirror) : ¬Lost v x w c := by
      rw [← hlast.bad]
      simp only [hbad.1]
      exact Finset.notMem_empty c
    have hnone (c : Mirror) : c ∉ pb.mirbad := fun hc => by
      have hmem := Finset.mem_union_left pb.miravoid hc
      rw [hbad.1] at hmem
      exact Finset.notMem_empty c hmem
    have hfalse : pb.error = false := by
      cases herr : pb.error with
      | false => rfl
      | true =>
        obtain ⟨c, hc⟩ := herror herr
        exact absurd hc (hnone c)
    have hrun : lvWriteDone v w.buf vgsaFailed x pb = .done pb.error x :=
      if_neg (not_or.mpr ⟨not_not.mpr hbad.1, hbad.2⟩)
    refine ⟨_, x, hrun, ?_, fun m => ⟨fun hm => ⟨hm, fun hb => hlost m hb.1⟩, fun hm => hm.1⟩⟩
    rw [hfalse]
    refine ⟨fun hf => absurd hf Bool.false_ne_true, fun herrs => ?_⟩
    rcases herrs with hall | hsync
    · obtain ⟨c, hc⟩ := hreached
      exact absurd ((hall c).mpr hc) (hlost c)
    · exact absurd hsync.1 hbad.2

theorem lvWriteDone_clears (vgsaFailed : Bool)
    (hlast : Last v x w { pb with mirbad := pb.mirbad ∪ pb.miravoid }) (h : Freshening v x w) :
    (lvWriteDone v w.buf vgsaFailed x pb = .panic ∧
      ∃ m, Synced v x w m ∧ ((x.ext m).pvnum = none ∨ (x.ext m).stale = false)) ∨
    ((¬∃ m, Synced v x w m ∧ ((x.ext m).pvnum = none ∨ (x.ext m).stale = false)) ∧
      ∃ error x', lvWriteDone v w.buf vgsaFailed x pb = .done error x' ∧
        (error = true ↔ AllLost v x w) ∧ ∀ m, Good v x'.ext m ↔ Fresh v x w m) := by
  have hresync : w.buf.resync = true := h.1
  have hrun : lvWriteDone v w.buf vgsaFailed x pb = lvStalepp v w.buf vgsaFailed x
      { pb with mirbad := pb.mirbad ∪ pb.miravoid } := if_pos (.inr hresync)
  rw [← hlast.finishes] at h
  rw [hrun]
  rcases lvStalepp_clears vgsaFailed h with hpanic | hdone
  · obtain ⟨hpanic, m, hm, hbad⟩ := hpanic
    exact .inl ⟨hpanic, m, hlast.syncing.mp hm, hbad⟩
  · obtain ⟨hall, x', hdone, hclears⟩ := hdone
    refine .inr ⟨?_, _, x', hdone, ?_, fun m => good_clears hlast hclears⟩
    · rintro ⟨m, hm, hbad⟩
      obtain ⟨hpv, hstale⟩ := hall m (hlast.syncing.mpr hm)
      rcases hbad with hnone | hfalse
      · exact hpv hnone
      · exact absurd hstale (by rw [hfalse]; exact Bool.false_ne_true)
    · rw [decide_eq_true_iff]
      exact hlast.allLost

theorem writeOk_done {error : Bool} {received : Mask} (hrun : lvWrite v x w = some (.done error x', received)) :
    WriteOk v x w ↔ (error = false →
      (∀ m, Good v x'.ext m → m ∈ received ∨ (w.resync = true ∧ m ∉ x.lext.syncmsk)) ∧ ∃ m, Good v x'.ext m) ∧
      ((∃ m, Good v x.ext m) → ∃ m, Good v x'.ext m) := by
  unfold WriteOk
  rw [hrun]

theorem write_iff (v : Volume) (x : Copies) (w : Write) : WriteOk v x w ↔ WriteFits v x w := by
  by_cases htarget : ∃ m, Target v x w m
  · obtain ⟨last, bad, received, hlast, herror, hrun, hreceived⟩ := lvWrite_last v x w htarget
    have hreached : ∃ m, Reached v x w m := htarget.imp fun m hm => hm.1
    refine Iff.trans ?_ (forall_prop_of_true htarget).symm
    by_cases hfresh : Freshening v x w
    · rcases lvWriteDone_clears w.io.vgsaFailed hlast hfresh with hpanic | hdone
      · rw [hpanic.1] at hrun
        have hok : WriteOk v x w := by
          unfold WriteOk
          rw [hrun]
          trivial
        exact ⟨fun _ => ⟨fun h => absurd hfresh h, fun h => absurd hfresh h, fun _ => .inl hpanic.2⟩, fun _ => hok⟩
      · obtain ⟨hno, error, x', hdone, herr, hgood⟩ := hdone
        rw [hdone] at hrun
        rw [writeOk_done hrun]
        simp only [hgood, hreceived]
        constructor
        · rintro ⟨hok, -⟩
          refine ⟨fun h => absurd hfresh h, fun h => absurd hfresh h, fun _ => .inr ?_⟩
          by_cases hall : AllLost v x w
          · exact .inl hall
          · obtain ⟨hreach, hex⟩ := hok (Bool.eq_false_iff.mpr fun he => hall (herr.mp he))
            exact .inr ⟨hex, fun m hm => (hreach m hm).imp_right And.right⟩
        · intro hfit
          refine ⟨fun herror => ?_, fun hex => hex.imp fun m hm => ⟨hm.1, hm.2.1, .inl hm.2.2⟩⟩
          have hall : ¬AllLost v x w := fun hall => by
            rw [herr.mpr hall] at herror
            exact absurd herror.symm Bool.false_ne_true
          obtain ⟨hex, hreach⟩ := ((hfit.freshened hfresh).resolve_left hno).resolve_left hall
          exact ⟨fun m hm => (hreach m hm).imp_right fun h => ⟨hfresh.1, h⟩, hex⟩
    · obtain ⟨error, x', hdone, herr, hgood⟩ := lvWriteDone_marks w.io.vgsaFailed
        hlast hreached (fun hfail => ⟨last, herror hfail⟩) hfresh
      rw [hdone] at hrun
      rw [writeOk_done hrun]
      simp only [hgood, hreceived]
      -- if not all copies are lost, those that are lost are bad
      have hbad (hno : ¬Errs v x w) (m : Mirror) : Bad v x w m ↔ Lost v x w m :=
        ⟨fun h => h.1, fun h => ⟨h, fun hspared => hno (.inl hspared.1)⟩⟩
      constructor
      · rintro ⟨hok, hkeep⟩
        refine ⟨fun _ hno => ?_, fun _ _ => hkeep, fun h => absurd h hfresh⟩
        obtain ⟨hreach, hex⟩ := hok (Bool.eq_false_iff.mpr fun he => hno (herr.mp he))
        simp only [hbad hno] at hreach hex
        exact ⟨hex, fun m hm hlost => (hreach m ⟨hm, hlost⟩).imp_left And.left⟩
      · intro hfit
        by_cases herrs : Errs v x w
        · refine ⟨fun herror => ?_, hfit.failed hfresh herrs⟩
          rw [herr.mpr herrs] at herror
          exact absurd herror.symm Bool.false_ne_true
        · obtain ⟨hex, hreach⟩ := hfit.done hfresh herrs
          simp only [hbad herrs]
          refine ⟨fun _ => ⟨fun m hm => ?_, hex⟩, fun _ => hex⟩
          refine (hreach m hm.1 hm.2).imp_left fun ht => ⟨ht, ?_⟩
          exact Bool.eq_false_iff.mpr fun hfail => hm.2 (.inl ⟨ht, hfail⟩)
  · have hnone : lvWrite v x w = some (.done true x, ∅) := by
      rcases lvWrite_end v x w with hnone | ⟨last, hlast, -⟩
      · exact hnone.2
      · exact absurd ⟨last, mem_targets.mp hlast⟩ htarget
    rw [writeOk_done hnone]
    exact ⟨fun _ h => absurd h htarget, fun _ => ⟨fun h => absurd h.symm Bool.false_ne_true, id⟩⟩

/-- A write to an extent, with the volumes that are missing then and the state of its resync. -/
structure Request where
  missing : ℕ → Bool
  lext : Lextent
  write : Write

/-- The copies after a write. -/
def afterWrite (v : Volume) (ext : Mirror → Extent) (r : Request) : Option (Mirror → Extent) :=
  match lvWrite { v with missing := r.missing } ⟨ext, r.lext⟩ r.write with
  | some (.done _ x', _) => some x'.ext
  | _ => none

/-- Any writes to an extent, one after the other. -/
def writes (v : Volume) (ext : Mirror → Extent) : System (Mirror → Extent) Request :=
  System.ofFun ext (afterWrite v)

/-- The condition of one write, in a run. -/
def RequestFits (v : Volume) (ext : Mirror → Extent) (r : Request) : Prop :=
  WriteFits { v with missing := r.missing } ⟨ext, r.lext⟩ r.write

theorem good_afterWrite {ext ext' : Mirror → Extent} {r : Request}
    (hfits : RequestFits v ext r) (h : afterWrite v ext r = some ext') (hgood : ∃ m, Good v ext m) :
    ∃ m, Good v ext' m := by
  unfold afterWrite at h
  split at h
  · rename_i error x' received hrun
    obtain rfl := Option.some_inj.mp h
    exact ((writeOk_done hrun).mp ((write_iff ..).mpr hfits)).2 hgood
  · cases h

/-- Two mirrors, of which only the first is there. -/
def half : Copies where
  ext m := if m = 0 then ⟨some 0, false, false⟩ else ⟨none, true, false⟩
  lext := ⟨-1, ∅, ∅⟩

def halfVolume : Volume := ⟨1, fun _ => false, 1⟩

/-- A parallel write, with physical requests that all fail. -/
def failing : Write := ⟨.parallel, false, false, ⟨fun _ => true, fun _ => 0, false⟩, ∅⟩

end Writes

end Osf1.Lvm
