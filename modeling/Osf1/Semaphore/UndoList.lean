import Osf1.Semaphore.Model

/-!
# What `semaoe` does to the list of a process

An undo list is ordered, has no entry without an adjustment, and keeps to the limits.  On
such a list a value is added to an entry, or makes an entry come or go; giving `semaoe` the
opposite value afterwards restores the list.
-/

set_option autoImplicit false

namespace Osf1.Semaphore

open Osf1.Computation List

/-- The entry comes after the place of a semaphore. -/
def UndoEntry.After (e : UndoEntry) (id : ℤ) (num : ℕ) : Prop := id < e.uentId ∨ (e.uentId = id ∧ num < e.uentNum)

variable {si : SemInfo} {val id : ℤ} {num : ℕ} {es passed next : List UndoEntry} {e : UndoEntry} {cnt : ℤ} {s s' : SemUndo}
  {r : SemUndo × ℕ}

/-- What holds of the undo structure of a process. -/
structure UndoWf (si : SemInfo) (s : SemUndo) : Prop where
  ordered : s.unEntp.Pairwise fun a b => a.Before b.uentId b.uentNum
  nonzero : ∀ e ∈ s.unEntp, e.uentAoe ≠ 0
  bounded : ∀ e ∈ s.unEntp, -si.semaem ≤ e.uentAoe ∧ e.uentAoe ≤ si.semaem
  count : s.unCnt = s.unEntp.length
  limit : s.unCnt ≤ si.semume

theorem undoWf_empty : UndoWf si ⟨0, []⟩ where
  ordered := List.Pairwise.nil
  nonzero := by simp
  bounded := by simp
  count := rfl
  limit := Int.natCast_nonneg _

/-- The place of a semaphore in a list. -/
structure Place (id : ℤ) (num : ℕ) (passed next : List UndoEntry) : Prop where
  before : ∀ e ∈ passed, e.Before id num
  after : ∀ e ∈ next, e.After id num

theorem exists_place (id : ℤ) (num : ℕ) (h : es.Pairwise fun a b => a.Before b.uentId b.uentNum) :
    ∃ passed next, Place id num passed next ∧
      (es = passed ++ next ∨ ∃ e, e.For id num ∧ es = passed ++ e :: next) := by
  induction es with
  | nil => exact ⟨[], [], ⟨by simp, by simp⟩, .inl rfl⟩
  | cons e es ih =>
    rw [pairwise_cons] at h
    obtain ⟨hhead, htail⟩ := h
    obtain ⟨passed, next, hplace, hes⟩ := ih htail
    by_cases hb : e.Before id num
    · refine ⟨e :: passed, next, ⟨?_, hplace.after⟩, ?_⟩
      · intro f hf
        rcases mem_cons.mp hf with heq | hf
        · exact heq ▸ hb
        · exact hplace.before f hf
      · rcases hes with hes | hes
        · exact .inl (congrArg (e :: ·) hes)
        · obtain ⟨f, hfor, hes⟩ := hes
          exact .inr ⟨f, hfor, congrArg (e :: ·) hes⟩
    · -- an entry that does not come before has the rest of the list after it
      have hafter (f : UndoEntry) (hf : f ∈ es) : f.After id num := by
        have hlt := hhead f hf
        unfold UndoEntry.Before at hb hlt
        unfold UndoEntry.After
        omega
      by_cases hfor : e.For id num
      · exact ⟨[], es, ⟨by simp, hafter⟩, .inr ⟨e, hfor, rfl⟩⟩
      · refine ⟨[], e :: es, ⟨by simp, ?_⟩, .inl rfl⟩
        intro f hf
        rcases mem_cons.mp hf with heq | hf
        · subst heq
          unfold UndoEntry.Before at hb
          unfold UndoEntry.For at hfor
          unfold UndoEntry.After
          omega
        · exact hafter f hf

theorem UndoEntry.After.not_before (h : e.After id num) : ¬e.Before id num := by
  unfold UndoEntry.After at h
  unfold UndoEntry.Before
  omega

theorem UndoEntry.After.not_for (h : e.After id num) : ¬e.For id num := by
  unfold UndoEntry.After at h
  unfold UndoEntry.For
  omega

theorem UndoEntry.For.not_before (h : e.For id num) : ¬e.Before id num := by
  unfold UndoEntry.For at h
  unfold UndoEntry.Before
  omega

theorem Place.search {rest : List UndoEntry} (h : Place id num passed next) (hrest : ∀ e ∈ rest.head?, ¬e.Before id num) :
    ((passed ++ rest).takeWhile fun e => e.Before id num) = passed ∧
      ((passed ++ rest).dropWhile fun e => e.Before id num) = rest := by
  have hpre : ∀ f ∈ passed, decide (f.Before id num) = true := fun f hf => decide_eq_true (h.before f hf)
  rw [takeWhile_append_of_pos hpre, dropWhile_append_of_pos hpre]
  cases rest with
  | nil => simp
  | cons e rest =>
    have hnot : ¬e.Before id num := hrest e rfl
    simp [hnot]

theorem adjustEntry_found (hplace : Place id num passed next) (hfor : e.For id num) :
    adjustEntry si val id num ⟨cnt, passed ++ e :: next⟩ =
      if toShort (e.uentAoe - val) > si.semaem ∨ toShort (e.uentAoe - val) < -si.semaem then
        (⟨cnt, passed ++ { e with uentAoe := toShort (toShort (e.uentAoe - val) + val) } :: next⟩, ERANGE)
      else if toShort (e.uentAoe - val) = 0 then (⟨cnt - 1, passed ++ next⟩, 0)
      else (⟨cnt, passed ++ { e with uentAoe := toShort (e.uentAoe - val) } :: next⟩, 0) := by
  have hhead : ∀ f ∈ (e :: next).head?, ¬f.Before id num := by
    rintro f ⟨⟩
    exact hfor.not_before
  obtain ⟨htake, hdrop⟩ := hplace.search hhead
  unfold adjustEntry
  simp only [htake, hdrop, hfor, if_true]

theorem adjustEntry_missing (hplace : Place id num passed next) :
    adjustEntry si val id num ⟨cnt, passed ++ next⟩ =
      newEntry si val id num ⟨cnt, passed ++ next⟩ passed next := by
  have hhead : ∀ f ∈ next.head?, ¬f.Before id num :=
    fun f hf => (hplace.after f (mem_of_mem_head? hf)).not_before
  obtain ⟨htake, hdrop⟩ := hplace.search hhead
  unfold adjustEntry
  simp only [htake, hdrop]
  cases next with
  | nil => rfl
  | cons e next =>
    have hnot := (hplace.after e (mem_cons_self ..)).not_for
    simp only [hnot, if_false]

/-- What `semaoe` does with a list that is in order. -/
inductive EntryKind (si : SemInfo) (val id : ℤ) (num : ℕ) : SemUndo → SemUndo × ℕ → Prop where
  /-- There is no entry, and none may be added. -/
  | full (cnt : ℤ) (passed next : List UndoEntry) (hplace : Place id num passed next)
      (hfull : si.semume ≤ cnt) :
      EntryKind si val id num ⟨cnt, passed ++ next⟩ (⟨cnt, passed ++ next⟩, EINVAL)
  /-- There is no entry, and one is added. -/
  | add (cnt : ℤ) (passed next : List UndoEntry) (hplace : Place id num passed next)
      (hroom : cnt < si.semume) :
      EntryKind si val id num ⟨cnt, passed ++ next⟩
        (⟨cnt + 1, passed ++ ⟨id, num, -val⟩ :: next⟩, 0)
  /-- The adjustment would be out of range. -/
  | range (cnt : ℤ) (passed next : List UndoEntry) (aoe : ℤ) (hplace : Place id num passed next)
      (hout : aoe - val > si.semaem ∨ aoe - val < -si.semaem) :
      EntryKind si val id num ⟨cnt, passed ++ ⟨id, num, aoe⟩ :: next⟩
        (⟨cnt, passed ++ ⟨id, num, aoe⟩ :: next⟩, ERANGE)
  /-- Nothing remains to be adjusted. -/
  | drop (cnt : ℤ) (passed next : List UndoEntry) (hplace : Place id num passed next) :
      EntryKind si val id num ⟨cnt, passed ++ ⟨id, num, val⟩ :: next⟩
        (⟨cnt - 1, passed ++ next⟩, 0)
  /-- The adjustment changes. -/
  | change (cnt : ℤ) (passed next : List UndoEntry) (aoe : ℤ) (hplace : Place id num passed next)
      (hne : aoe ≠ val) (hlo : -si.semaem ≤ aoe - val) (hhi : aoe - val ≤ si.semaem) :
      EntryKind si val id num ⟨cnt, passed ++ ⟨id, num, aoe⟩ :: next⟩
        (⟨cnt, passed ++ ⟨id, num, aoe - val⟩ :: next⟩, 0)

theorem adjustEntry_kind (h : UndoWf si s) (hlo : -si.semaem ≤ val)
    (hhi : val ≤ si.semaem) : EntryKind si val id num s (adjustEntry si val id num s) := by
  obtain ⟨cnt, es⟩ := s
  have haem := si.semaem_le
  obtain ⟨passed, next, hplace, hes⟩ := exists_place id num h.ordered
  rcases hes with hes | hes
  · subst hes
    rw [adjustEntry_missing hplace, newEntry]
    split
    · rw [toShort_of_mem (by omega) (by omega)]
      exact .add cnt passed next hplace ‹_›
    · rename_i hfull
      exact .full cnt passed next hplace (by simpa using hfull)
  · obtain ⟨⟨id', num', aoe⟩, hfor, hes⟩ := hes
    subst hes
    obtain ⟨rfl, rfl⟩ : id' = id ∧ num' = num := hfor
    obtain ⟨hlo', hhi'⟩ := h.bounded _ (mem_append_right _ (mem_cons_self ..))
    simp only at hlo' hhi'
    rw [adjustEntry_found hplace ⟨rfl, rfl⟩]
    simp only
    by_cases hwrap : aoe - val = 32768
    · -- the difference does not fit; it is out of range before and after the conversion
      obtain rfl : aoe = 16384 := by omega
      obtain rfl : val = -16384 := by omega
      have hshort : toShort (16384 - -16384) = -32768 := rfl
      have hback : toShort (-32768 + -16384) = 16384 := rfl
      rw [hshort, if_pos (by omega), hback]
      exact .range cnt passed next 16384 hplace (by omega)
    · rw [toShort_of_mem (by omega) (by omega)]
      split
      · have hback : aoe - val + val = aoe := by omega
        rw [hback, toShort_of_mem (by omega) (by omega)]
        exact .range cnt passed next aoe hplace ‹_›
      · rename_i hin
        split
        · rename_i h0
          obtain rfl : aoe = val := by omega
          exact .drop cnt passed next hplace
        · exact .change cnt passed next aoe hplace (by omega) (by omega) (by omega)

theorem EntryKind.wf (hk : EntryKind si val id num s r)
    (h : UndoWf si s) (hne : val ≠ 0) (hlo : -si.semaem ≤ val) (hhi : val ≤ si.semaem) : UndoWf si r.1 := by
  cases hk with
  | full cnt passed next hplace hfull => exact h
  | range cnt passed next aoe hplace hout => exact h
  | add cnt passed next hplace hroom =>
    obtain ⟨hord, hnz, hbd, hcnt, hlim⟩ := h
    simp only [length_append] at hord hnz hbd hcnt hlim
    refine ⟨?_, ?_, ?_, ?_, ?_⟩
    · rw [pairwise_append] at hord
      rw [pairwise_append, pairwise_cons]
      refine ⟨hord.1, ⟨fun e he => ?_, hord.2.1⟩, fun a ha b hb => ?_⟩
      · have hafter := hplace.after e he
        unfold UndoEntry.After at hafter
        change id < e.uentId ∨ (id = e.uentId ∧ num < e.uentNum)
        omega
      · rcases mem_cons.mp hb with heq | hb
        · subst heq
          exact hplace.before a ha
        · exact hord.2.2 a ha b hb
    · intro e he
      rw [mem_append, mem_cons] at he
      rcases he with he | rfl | he
      · exact hnz e (mem_append_left _ he)
      · simpa using hne
      · exact hnz e (mem_append_right _ he)
    · intro e he
      rw [mem_append, mem_cons] at he
      rcases he with he | rfl | he
      · exact hbd e (mem_append_left _ he)
      · simp only
        omega
      · exact hbd e (mem_append_right _ he)
    · simp only [length_append, length_cons]
      omega
    · simp only
      omega
  | drop cnt passed next hplace =>
    obtain ⟨hord, hnz, hbd, hcnt, hlim⟩ := h
    have hsub : (passed ++ next).Sublist (passed ++ ⟨id, num, val⟩ :: next) :=
      (sublist_cons_self _ next).append_left passed
    refine ⟨hord.sublist hsub, fun e he => hnz e (hsub.subset he), fun e he => hbd e (hsub.subset he), ?_, ?_⟩
    · simp only [length_append, length_cons] at hcnt ⊢
      omega
    · simp only at hlim ⊢
      omega
  | change cnt passed next aoe hplace hne' hlo' hhi' =>
    obtain ⟨hord, hnz, hbd, hcnt, hlim⟩ := h
    have hmem {e : UndoEntry} (he : e ∈ passed ++ ⟨id, num, aoe - val⟩ :: next) :
        e ∈ passed ++ ⟨id, num, aoe⟩ :: next ∨ e = ⟨id, num, aoe - val⟩ := by
      rw [mem_append, mem_cons] at he ⊢
      tauto
    refine ⟨?_, ?_, ?_, ?_, hlim⟩
    · apply pairwise_replace hord
      · exact fun a _ ha => ha
      · exact fun b _ hb => hb
    · intro e he
      rcases hmem he with he | heq
      · exact hnz e he
      · subst heq
        simp only
        omega
    · intro e he
      rcases hmem he with he | heq
      · exact hbd e he
      · subst heq
        exact ⟨hlo', hhi'⟩
    · simpa using hcnt

theorem EntryKind.rollback (hk : EntryKind si val id num s (s', 0))
    (h : UndoWf si s) (hlo : -si.semaem ≤ val) (hhi : val ≤ si.semaem) :
    adjustEntry si (-val) id num s' = (s, 0) := by
  have haem := si.semaem_le
  cases hk with
  | add cnt passed next hplace hroom =>
    rw [adjustEntry_found hplace ⟨rfl, rfl⟩]
    have hzero : toShort (-val - -val) = 0 := by
      rw [Int.sub_self]
      rfl
    simp only [hzero]
    rw [if_neg (by omega), if_true, Int.add_sub_cancel]
  | drop cnt passed next hplace =>
    have hroom : cnt - 1 < si.semume := by
      have hlim := h.limit
      simp only at hlim
      omega
    rw [adjustEntry_missing hplace, newEntry, if_pos hroom, Int.neg_neg,
      toShort_of_mem (by omega) (by omega), Int.sub_add_cancel]
  | change cnt passed next aoe hplace hne' hlo' hhi' =>
    obtain ⟨hblo, hbhi⟩ := h.bounded ⟨id, num, aoe⟩ (by simp)
    have hnz := h.nonzero ⟨id, num, aoe⟩ (by simp)
    simp only at hblo hbhi hnz
    have hback : aoe - val - -val = aoe := by omega
    rw [adjustEntry_found hplace ⟨rfl, rfl⟩]
    simp only [hback]
    rw [toShort_of_mem (by omega) (by omega), if_neg (by omega), if_neg hnz]

theorem EntryKind.failed (hk : EntryKind si val id num s r) (hr : r.2 ≠ 0) : r.1 = s := by
  cases hk with
  | full => rfl
  | range => rfl
  | add => exact absurd rfl hr
  | drop => exact absurd rfl hr
  | change => exact absurd rfl hr

/-- The adjustment that a list has for a semaphore. -/
def adjustment (es : List UndoEntry) (id : ℤ) (num : ℕ) : ℤ :=
  match es.find? fun e => e.For id num with
  | some e => e.uentAoe
  | none => 0

theorem adjustment_cons (e : UndoEntry) (es : List UndoEntry) (id : ℤ) (num : ℕ) :
    adjustment (e :: es) id num = if e.For id num then e.uentAoe else adjustment es id num := by
  unfold adjustment
  by_cases hfor : e.For id num <;> simp [hfor]

theorem adjustment_append {es' : List UndoEntry} (h : ∀ e ∈ es, ¬e.For id num) :
    adjustment (es ++ es') id num = adjustment es' id num := by
  induction es with
  | nil => rfl
  | cons e es ih =>
    rw [cons_append, adjustment_cons, if_neg (h e (mem_cons_self ..))]
    exact ih fun f hf => h f (mem_cons_of_mem _ hf)

theorem adjustment_skip (h : ¬e.For id num) :
    adjustment (passed ++ e :: next) id num = adjustment (passed ++ next) id num := by
  induction passed with
  | nil => rw [nil_append, nil_append, adjustment_cons, if_neg h]
  | cons f passed ih =>
    rw [cons_append, cons_append, adjustment_cons, adjustment_cons, ih]

theorem UndoEntry.Before.not_for (h : e.Before id num) : ¬e.For id num := fun hfor => hfor.not_before h

theorem Place.adjustment_entry (h : Place id num passed next)
    (aoe : ℤ) : adjustment (passed ++ ⟨id, num, aoe⟩ :: next) id num = aoe := by
  rw [adjustment_append fun e he => (h.before e he).not_for, adjustment_cons, if_pos ⟨rfl, rfl⟩]

theorem Place.adjustment_none (h : Place id num passed next) : adjustment (passed ++ next) id num = 0 := by
  rw [adjustment_append fun e he => (h.before e he).not_for]
  unfold adjustment
  rw [find?_eq_none.mpr]
  intro e he
  simpa using (h.after e he).not_for

theorem EntryKind.adjustment_eq (hk : EntryKind si val id num s (s', 0)) (id' : ℤ) (num' : ℕ) :
    adjustment s'.unEntp id' num' =
      adjustment s.unEntp id' num' - if id' = id ∧ num' = num then val else 0 := by
  by_cases hkey : id' = id ∧ num' = num
  · obtain ⟨rfl, rfl⟩ := hkey
    rw [if_pos ⟨rfl, rfl⟩]
    cases hk with
    | add cnt passed next hplace hroom =>
      rw [hplace.adjustment_entry, hplace.adjustment_none]
      omega
    | drop cnt passed next hplace =>
      rw [hplace.adjustment_entry, hplace.adjustment_none]
      omega
    | change cnt passed next aoe hplace hne hlo hhi =>
      rw [hplace.adjustment_entry, hplace.adjustment_entry]
  · rw [if_neg hkey, Int.sub_zero]
    have hnot (aoe : ℤ) : ¬(⟨id, num, aoe⟩ : UndoEntry).For id' num' := fun hfor => hkey ⟨hfor.1.symm, hfor.2.symm⟩
    cases hk with
    | add cnt passed next hplace hroom => exact adjustment_skip (hnot _)
    | drop cnt passed next hplace => exact (adjustment_skip (hnot _)).symm
    | change cnt passed next aoe hplace hne hlo hhi =>
      rw [adjustment_skip (hnot _), adjustment_skip (hnot _)]

/-- The undo structure of a process, or an empty one. -/
def UndoTable.undop (u : UndoTable) (p : Pid) : SemUndo := (u.uSemundo p).getD ⟨0, []⟩

theorem UndoTable.undop_put (u : UndoTable) (p q : Pid) (s : SemUndo) :
    (u.put p s).undop q = if q = p then s else u.undop q := by
  unfold UndoTable.undop UndoTable.put
  by_cases hq : q = p <;> simp [hq]

theorem entries_eq_undop (u : UndoTable) (p : Pid) : u.entries p = (u.undop p).unEntp := by
  unfold UndoTable.entries UndoTable.undop
  cases u.uSemundo p <;> rfl

variable {zalloc : Bool} {p : Pid} {u : UndoTable}

/-- The ways in which a call of `semaoe` can go. -/
inductive SemaoeKind (si : SemInfo) (zalloc : Bool) (p : Pid) (val id : ℤ) (num : ℕ)
    (u : UndoTable) : UndoTable × ℕ → Prop where
  /-- There is nothing to adjust. -/
  | nothing (h0 : val = 0) : SemaoeKind si zalloc p val id num u (u, 0)
  /-- The value is out of range, or there is no undo structure. -/
  | refused (error : ℕ) (herror : error ≠ 0) : SemaoeKind si zalloc p val id num u (u, error)
  /-- The process has an undo structure now, but its entries are as they were. -/
  | failed (error : ℕ) (herror : error ≠ 0) :
      SemaoeKind si zalloc p val id num u (u.put p (u.undop p), error)
  /-- The list is adjusted. -/
  | adjusted (hne : val ≠ 0) (hlo : -si.semaem ≤ val) (hhi : val ≤ si.semaem)
      (undop : SemUndo) (hk : EntryKind si val id num (u.undop p) (undop, 0))
      (head : List Pid)
      (hhead : head =
        if (u.undop p).unEntp = [] then p :: u.semundoHead
        else if undop.unEntp = [] then unlinkUndo p u.semundoHead else u.semundoHead) :
      SemaoeKind si zalloc p val id num u ({ u.put p undop with semundoHead := head }, 0)

theorem semaoe_kind (h : UndoWf si (u.undop p)) :
    SemaoeKind si zalloc p val id num u (semaoe si zalloc p val id num u) := by
  unfold semaoe
  split
  · exact .nothing ‹_›
  rename_i hne
  split
  · exact .refused ERANGE (by decide)
  split
  · exact .refused ENOSPC (by decide)
  simp only [← UndoTable.undop.eq_1]
  have hk : EntryKind si val id num (u.undop p) (adjustEntry si val id num (u.undop p)) :=
    adjustEntry_kind h (by omega) (by omega)
  generalize adjustEntry si val id num (u.undop p) = r at hk
  obtain ⟨undop, error⟩ := r
  split
  · rename_i herror
    obtain rfl : undop = u.undop p := hk.failed herror
    exact .failed error herror
  · rename_i hok
    obtain rfl : error = 0 := by simpa using hok
    have hdone : SemaoeKind si zalloc p val id num u _ := .adjusted hne (by omega) (by omega) undop hk _ rfl
    split
    · rwa [if_pos ‹_›] at hdone
    · rw [if_neg ‹_›] at hdone
      split
      · rwa [if_pos ‹_›] at hdone
      · rwa [if_neg ‹_›] at hdone

theorem unlinkProcUndo_eq (p q : Pid) (l : List Pid) (h : q ≠ p) : unlinkProcUndo p (q :: l) = q :: l.erase p := by
  induction l generalizing q with
  | nil => rfl
  | cons r l ih =>
    rw [unlinkProcUndo, erase_cons]
    by_cases hr : r = p
    · simp [hr]
    · simp [hr, ih r hr]

theorem unlinkUndo_eq (p : Pid) (l : List Pid) : unlinkUndo p l = l.erase p := by
  cases l with
  | nil => rfl
  | cons q l =>
    rw [unlinkUndo, erase_cons]
    by_cases hq : q = p
    · simp [hq]
    · simp [hq, unlinkProcUndo_eq p q l hq]

end Osf1.Semaphore
