import Osf1.Semaphore.UndoList

/-!
# Undoing the operations of a `semop`

`Done` records the operations that the loop of `semop` has done, with the state each of them
has left.  `semundo` goes back through them; each of its turns restores the values and the
undo list from before the operation.
-/

set_option autoImplicit false

namespace Osf1.Semaphore

open List

section Rollback

variable {si : SemInfo} {zalloc : Bool} {p : Pid} {id : ℤ} {val : ℤ} {num nsems : ℕ} {u : UndoTable} {w w' w₀ : Work}
  {op : Sembuf} {done ops rest : List Sembuf}

/-- The values and the undo list of the process are the same; an undo structure that was
there still is. -/
structure Agrees (p : Pid) (w' w : Work) : Prop where
  semval : ∀ n, (w'.sems n).semval = (w.sems n).semval
  undop : w'.undo.undop p = w.undo.undop p
  keeps : w.undo.uSemundo p ≠ none → w'.undo.uSemundo p ≠ none

theorem Agrees.refl (p : Pid) (w : Work) : Agrees p w w := ⟨fun _ => rfl, rfl, fun h => h⟩

/-- An operation has been done. -/
structure OpDone (si : SemInfo) (zalloc : Bool) (p : Pid) (id : ℤ) (w : Work) (op : Sembuf)
    (w' : Work) : Prop where
  semval : ∀ n, (w'.sems n).semval =
    if n = op.semNum then (w.sems n).semval + UInt16.ofInt op.semOp else (w.sems n).semval
  low : 0 ≤ (w.sems op.semNum).semval.toNat + op.semOp
  high : (w.sems op.semNum).semval.toNat + op.semOp < 65536
  undo : semaoeIf si zalloc p id op w.undo = (w'.undo, 0)

/-- The operations done since `w₀`, last to first. -/
inductive Done (si : SemInfo) (zalloc : Bool) (p : Pid) (id : ℤ) (w₀ : Work) :
    List Sembuf → Work → Prop where
  | nil {w : Work} (hsems : w.sems = w₀.sems) (hundo : w.undo = w₀.undo) :
      Done si zalloc p id w₀ [] w
  | cons {done : List Sembuf} {w w' : Work} {op : Sembuf} :
      Done si zalloc p id w₀ done w → OpDone si zalloc p id w op w' → Done si zalloc p id w₀ (op :: done) w'

theorem undop_adjusted (u : UndoTable) (p q : Pid) (s : SemUndo) (head : List Pid) :
    ({ u.put p s with semundoHead := head } : UndoTable).undop q =
      if q = p then s else u.undop q :=
  UndoTable.undop_put u p q s

theorem semaoe_ok {u' : UndoTable} (h : UndoWf si (u.undop p))
    (hok : semaoe si zalloc p val id num u = (u', 0)) (hne : val ≠ 0) :
    EntryKind si val id num (u.undop p) (u'.undop p, 0) ∧ u'.uSemundo p ≠ none ∧
      -si.semaem ≤ val ∧ val ≤ si.semaem := by
  have hk : SemaoeKind si zalloc p val id num u (u', 0) := hok ▸ semaoe_kind h
  cases hk with
  | nothing h0 => exact absurd h0 hne
  | refused error herror => exact absurd rfl herror
  | failed error herror => exact absurd rfl herror
  | adjusted hne' hlo hhi undop hk head hhead =>
    refine ⟨?_, ?_, hlo, hhi⟩
    · rw [undop_adjusted, if_pos rfl]
      exact hk
    · simp [UndoTable.put]

theorem semaoe_undop {s : SemUndo} (hne : val ≠ 0)
    (hlo : -si.semaem ≤ val) (hhi : val ≤ si.semaem) (hsome : u.uSemundo p ≠ none)
    (hs : adjustEntry si val id num (u.undop p) = (s, 0)) :
    (semaoe si zalloc p val id num u).1.undop p = s ∧
      (semaoe si zalloc p val id num u).1.uSemundo p ≠ none := by
  unfold semaoe
  rw [if_neg hne, if_neg (by omega), if_neg fun h => hsome h.1]
  simp only [← UndoTable.undop.eq_1, hs]
  rw [if_neg fun h => h rfl]
  split
  · exact ⟨by rw [undop_adjusted, if_pos rfl], by simp [UndoTable.put]⟩
  · split
    · exact ⟨by rw [undop_adjusted, if_pos rfl], by simp [UndoTable.put]⟩
    · exact ⟨by rw [UndoTable.undop_put, if_pos rfl], by simp [UndoTable.put]⟩

theorem semaoe_zero (num : ℕ) (u : UndoTable) : semaoe si zalloc p 0 id num u = (u, 0) := by
  simp [semaoe]

theorem OpDone.wf (hop : OpDone si zalloc p id w op w') (h : UndoWf si (w.undo.undop p)) : UndoWf si (w'.undo.undop p) := by
  have hundo := hop.undo
  unfold semaoeIf at hundo
  split at hundo
  · by_cases h0 : op.semOp = 0
    · rw [h0, semaoe_zero] at hundo
      rw [← (Prod.mk.inj hundo).1]
      exact h
    · obtain ⟨hk, -, hlo, hhi⟩ := semaoe_ok h hundo h0
      exact hk.wf h h0 hlo hhi
  · rw [← (Prod.mk.inj hundo).1]
    exact h

theorem OpDone.rollback {w₁ : Work} (hop : OpDone si zalloc p id w op w₁)
    (h : UndoWf si (w.undo.undop p)) (hw' : Agrees p w' w₁) : Agrees p (semundoOp si zalloc p id w' op) w := by
  have hundo := hop.undo
  unfold semaoeIf at hundo
  unfold semundoOp
  by_cases h0 : op.semOp = 0
  · rw [if_pos h0]
    have hsame : w₁.undo = w.undo := by
      rw [h0, semaoe_zero, ite_self] at hundo
      exact (Prod.mk.inj hundo).1.symm
    refine ⟨fun n => ?_, ?_, ?_⟩
    · have hn := hop.semval n
      rw [h0] at hn
      have hzero : UInt16.ofInt 0 = 0 := rfl
      rw [hw'.semval n, hn, hzero, UInt16.add_zero, ite_self]
    · rw [hw'.undop, hsame]
    · rw [← hsame]
      exact hw'.keeps
  rw [if_neg h0]
  have hval (n : ℕ) : ((w'.modify op.semNum fun semp => semp.sub op.semOp).sems n).semval =
      (w.sems n).semval := by
    have hn := hop.semval n
    unfold Work.modify Sem.sub
    by_cases heq : n = op.semNum
    · subst heq
      simp [hw'.semval, hn]
    · rw [if_neg heq] at hn
      simp [heq, hw'.semval, hn]
  split
  · rename_i hflag
    rw [if_pos hflag] at hundo
    obtain ⟨hk, hsome, hlo, hhi⟩ := semaoe_ok h hundo h0
    have hback : adjustEntry si (-op.semOp) id op.semNum (w'.undo.undop p) =
        (w.undo.undop p, 0) := by
      rw [hw'.undop]
      exact hk.rollback h hlo hhi
    obtain ⟨hundop, hkeeps⟩ : (semaoe si zalloc p _ id _ w'.undo).1.undop p = _ ∧ _ :=
      semaoe_undop (by omega) (by omega) (by omega) (hw'.keeps hsome) hback
    exact ⟨hval, hundop, fun _ => hkeeps⟩
  · rename_i hflag
    rw [if_neg hflag] at hundo
    have hsame : w₁.undo = w.undo := (Prod.mk.inj hundo).1.symm
    refine ⟨hval, ?_, ?_⟩
    · exact hw'.undop.trans (by rw [hsame])
    · rw [← hsame]
      exact hw'.keeps

theorem Done.wf (hd : Done si zalloc p id w₀ done w) (h : UndoWf si (w₀.undo.undop p)) : UndoWf si (w.undo.undop p) := by
  induction hd with
  | nil _ hundo => exact hundo ▸ h
  | cons _ hop ih => exact hop.wf ih

theorem Done.rollback (hd : Done si zalloc p id w₀ done w) (h : UndoWf si (w₀.undo.undop p)) (hw' : Agrees p w' w) :
    Agrees p (semundo si zalloc p id done w') w₀ := by
  induction hd generalizing w' with
  | nil hsems hundo =>
    refine ⟨fun n => ?_, ?_, ?_⟩
    · rw [← hsems]
      exact hw'.semval n
    · rw [← hundo]
      exact hw'.undop
    · rw [← hundo]
      exact hw'.keeps
  | cons hd hop ih => exact ih (hop.rollback (hd.wf h) hw')

/-- The sum of the operations on a semaphore. -/
def opSum (ops : List Sembuf) (num : ℕ) : ℤ := ((ops.filter fun op => op.semNum = num).map Sembuf.semOp).sum

/-- The sum of those that are to be undone on exit. -/
def undoSum (ops : List Sembuf) (num : ℕ) : ℤ := opSum (ops.filter fun op => op.Undo) num

theorem opSum_cons (op : Sembuf) (ops : List Sembuf) (num : ℕ) :
    opSum (op :: ops) num = (if op.semNum = num then op.semOp else 0) + opSum ops num := by
  unfold opSum
  by_cases h : op.semNum = num <;> simp [h]

theorem undoSum_cons (op : Sembuf) (ops : List Sembuf) (num : ℕ) :
    undoSum (op :: ops) num =
      (if op.Undo ∧ op.semNum = num then op.semOp else 0) + undoSum ops num := by
  unfold undoSum
  by_cases h : op.Undo
  · simp [h, opSum_cons]
  · simp [h]

theorem opSum_reverse (ops : List Sembuf) (num : ℕ) : opSum ops.reverse num = opSum ops num := by
  unfold opSum
  rw [filter_reverse, map_reverse, sum_reverse]

theorem undoSum_reverse (ops : List Sembuf) (num : ℕ) : undoSum ops.reverse num = undoSum ops num := by
  unfold undoSum
  rw [filter_reverse, opSum_reverse]

theorem toNat_add_ofInt {v : UInt16} {x : ℤ} (hlo : 0 ≤ v.toNat + x) (hhi : v.toNat + x < 65536) :
    ((v + UInt16.ofInt x).toNat : ℤ) = v.toNat + x := by
  simp only [UInt16.ofInt, UInt16.toNat_add, UInt16.toNat_ofNat']
  omega

theorem Done.semval_eq (hd : Done si zalloc p id w₀ done w)
    (n : ℕ) : ((w.sems n).semval.toNat : ℤ) = (w₀.sems n).semval.toNat + opSum done n := by
  induction hd with
  | nil hsems hundo => simp [opSum, hsems]
  | @cons done w w' op hd hop ih =>
    rw [hop.semval n, opSum_cons]
    by_cases hn : n = op.semNum
    · subst hn
      rw [if_pos rfl, if_pos rfl, toNat_add_ofInt hop.low hop.high, ih]
      omega
    · rw [if_neg hn, if_neg (Ne.symm hn), ih]
      omega

/-- An operation has to wait for a counter, if the value is `v`. -/
def Sembuf.Waits (op : Sembuf) (a : Awaited) (v : ℤ) : Prop :=
  match a with
  | .semncnt => op.semOp < 0 ∧ v < -op.semOp
  | .semzcnt => op.semOp = 0 ∧ v ≠ 0

/-- How the loop may leave things, if it began with `w₀` and is to do `ops`. -/
inductive LoopEnd (si : SemInfo) (zalloc : Bool) (p : Pid) (id : ℤ) (nsems : ℕ) (w₀ : Work)
    (ops : List Sembuf) : Work × Stop → Prop where
  | done (w : Work) (hd : Done si zalloc p id w₀ ops.reverse w) :
      LoopEnd si zalloc p id nsems w₀ ops (w, .done)
  | error (w : Work) (errno : ℕ) (herrno : errno ≠ 0) (hw : Agrees p w w₀) :
      LoopEnd si zalloc p id nsems w₀ ops (w, .error errno)
  | sleep (w : Work) (op : Sembuf) (done rest : List Sembuf) (a : Awaited)
      (hops : ops = done.reverse ++ op :: rest) (hnum : op.semNum < nsems)
      (hlow : 0 ≤ (w₀.sems op.semNum).semval.toNat + opSum done op.semNum)
      (hwaits : op.Waits a ((w₀.sems op.semNum).semval.toNat + opSum done op.semNum))
      (hw : Agrees p w w₀) :
      LoopEnd si zalloc p id nsems w₀ ops (w, .sleep op done a)
  | fault (w : Work) (op : Sembuf) (hop : op ∈ ops) (hnum : nsems ≤ op.semNum) :
      LoopEnd si zalloc p id nsems w₀ ops (w, .fault)

theorem Done.access (hd : Done si zalloc p id w₀ done w) (op : Sembuf) : Done si zalloc p id w₀ done (w.access op) := by
  cases hd with
  | nil hsems hundo => exact .nil hsems hundo
  | cons hd hop => exact .cons hd ⟨hop.semval, hop.low, hop.high, hop.undo⟩

theorem waitForSem_end {a : Awaited} (hops : ops = done.reverse ++ op :: rest) (hnum : op.semNum < nsems)
    (hwaits : op.Waits a (w.sems op.semNum).semval.toNat) (hd : Done si zalloc p id w₀ done w)
    (h : UndoWf si (w₀.undo.undop p)) :
    LoopEnd si zalloc p id nsems w₀ ops
      (waitForSem si zalloc p id op done a w) := by
  have hback := hd.rollback h (Agrees.refl p w)
  have hlow : (0 : ℤ) ≤ (w.sems op.semNum).semval.toNat := Int.natCast_nonneg _
  rw [hd.semval_eq] at hlow hwaits
  unfold waitForSem
  split
  · exact .error _ EAGAIN (by decide) hback
  · refine .sleep _ op done rest a hops hnum hlow hwaits ⟨fun n => ?_, hback.undop, hback.keeps⟩
    rw [← hback.semval n]
    unfold Work.modify
    by_cases hn : n = op.semNum <;> simp [hn]

theorem semaoeIf_failed (h : UndoWf si (w.undo.undop p)) (hr : (semaoeIf si zalloc p id op w.undo).2 ≠ 0) :
    Agrees p { w with undo := (semaoeIf si zalloc p id op w.undo).1 } w := by
  unfold semaoeIf at hr ⊢
  split at hr
  swap
  · exact absurd rfl hr
  rename_i hflag
  rw [if_pos hflag]
  have hk : SemaoeKind si zalloc p op.semOp id op.semNum w.undo _ := semaoe_kind h
  generalize semaoe si zalloc p op.semOp id op.semNum w.undo = r at hk hr
  cases hk with
  | nothing h0 => exact absurd rfl hr
  | refused error herror => exact Agrees.refl p w
  | failed error herror =>
    refine ⟨fun _ => rfl, ?_, fun _ => ?_⟩
    · simp only
      rw [UndoTable.undop_put, if_pos rfl]
    · simp [UndoTable.put]
  | adjusted => exact absurd rfl hr

theorem add_semval (w : Work) (op : Sembuf) (n : ℕ) :
    ((w.modify op.semNum fun semp => semp.add op.semOp).sems n).semval =
      if n = op.semNum then (w.sems n).semval + UInt16.ofInt op.semOp
      else (w.sems n).semval := by
  unfold Work.modify Sem.add
  by_cases hn : n = op.semNum
  · simp [hn]
  · simp [hn]

theorem semopLoop_end
    (hops : ops = done.reverse ++ rest) (hd : Done si zalloc p id w₀ done w) (h : UndoWf si (w₀.undo.undop p)) :
    LoopEnd si zalloc p id nsems w₀ ops (semopLoop si zalloc p id nsems rest done w) := by
  have hvmx := si.semvmx_lt
  induction rest generalizing done w with
  | nil =>
    rw [append_nil] at hops
    apply LoopEnd.done
    rw [hops, reverse_reverse]
    exact hd
  | cons op rest ih =>
    rw [semopLoop]
    simp only
    replace hd := hd.access op
    generalize w.access op = w at hd
    have hwf := hd.wf h
    have hops' : ops = (op :: done).reverse ++ rest := by
      rw [hops, reverse_cons, append_assoc, singleton_append]
    have hback := hd.rollback h (Agrees.refl p w)
    split
    · exact .fault w op (by simp [hops]) ‹_›
    have hlt : op.semNum < nsems := by omega
    have hval := (w.sems op.semNum).semval.toNat_lt
    -- an operation whose entry fails
    have hfails (hr : (semaoeIf si zalloc p id op w.undo).2 ≠ 0) :
        LoopEnd si zalloc p id nsems w₀ ops
          (semundo si zalloc p id done { w with undo := (semaoeIf si zalloc p id op w.undo).1 },
            .error (semaoeIf si zalloc p id op w.undo).2) :=
      .error _ _ hr (hd.rollback h (semaoeIf_failed hwf hr))
    split
    · rename_i hpos
      split
      · exact .error _ ERANGE (by decide) hback
      split
      · exact hfails ‹_›
      rename_i hok
      refine ih hops' (hd.cons ⟨fun n => ?_, by omega, by omega, ?_⟩)
      · rw [Work.wake_semval]
        exact add_semval _ op n
      · rw [Work.wake_undo]
        exact Prod.ext rfl (not_not.mp hok)
    split
    · rename_i hneg
      split
      · rename_i henough
        split
        · exact hfails ‹_›
        rename_i hok
        refine ih hops' (hd.cons ⟨fun n => ?_, by omega, by omega, ?_⟩)
        · split
          · rw [Work.wake_semval]
            exact add_semval _ op n
          · exact add_semval _ op n
        · have hundo : semaoeIf si zalloc p id op w.undo =
              ((semaoeIf si zalloc p id op w.undo).1, 0) := Prod.ext rfl (not_not.mp hok)
          split
          · rw [Work.wake_undo]
            exact hundo
          · exact hundo
      · rename_i hless
        exact waitForSem_end hops hlt ⟨hneg, by omega⟩ hd h
    split
    · rename_i hval0
      refine waitForSem_end hops hlt ⟨by omega, fun h0 => hval0 ?_⟩ hd h
      exact UInt16.toNat_inj.mp (Int.ofNat_eq_zero.mp h0)
    · have h0 : op.semOp = 0 := by omega
      have hzero : UInt16.ofInt 0 = 0 := rfl
      refine ih hops' (hd.cons ⟨fun n => ?_, by omega, by omega, ?_⟩)
      · rw [h0, hzero, UInt16.add_zero, ite_self]
      · unfold semaoeIf
        rw [h0, semaoe_zero, ite_self]

theorem Done.adjustment_eq
    (hd : Done si zalloc p id w₀ done w) (h : UndoWf si (w₀.undo.undop p)) (id' : ℤ) (n : ℕ) :
    adjustment (w.undo.undop p).unEntp id' n =
      adjustment (w₀.undo.undop p).unEntp id' n - if id' = id then undoSum done n else 0 := by
  induction hd with
  | nil hsems hundo => simp [undoSum, opSum, hundo]
  | @cons done w w' op hd hop ih =>
    have hundo := hop.undo
    unfold semaoeIf at hundo
    rw [undoSum_cons]
    by_cases hskip : ¬op.Undo ∨ op.semOp = 0
    · have hsame : w'.undo = w.undo := by
        rcases hskip with hflag | h0
        · rw [if_neg hflag] at hundo
          exact (Prod.mk.inj hundo).1.symm
        · rw [h0, semaoe_zero, ite_self] at hundo
          exact (Prod.mk.inj hundo).1.symm
      have hterm : (if op.Undo ∧ op.semNum = n then op.semOp else 0) = 0 := by
        rcases hskip with hflag | h0
        · rw [if_neg fun hand => hflag hand.1]
        · rw [h0, ite_self]
      rw [hsame, hterm, Int.zero_add]
      exact ih
    · rw [not_or, not_not] at hskip
      obtain ⟨hflag, hne⟩ := hskip
      rw [if_pos hflag] at hundo
      obtain ⟨hk, -⟩ := semaoe_ok (hd.wf h) hundo hne
      rw [hk.adjustment_eq, ih]
      by_cases hid : id' = id <;> by_cases hnum : n = op.semNum
      · simp [hid, hnum, hflag]
        omega
      · simp [hid, hnum, hflag, Ne.symm hnum]
      · simp [hid]
      · simp [hid]

end Rollback

/-!
## What `semop` wakes

The counters of a set are cleared with a `wakeup` of their addresses, and only so.
-/

section Waking

variable {si : SemInfo} {zalloc : Bool} {p : Pid} {id : ℤ} {a : Awaited} {w' w w'' w₀ : Work} {f : Sem → Sem} {num : ℕ}

/-- What the sleepers of a counter wait for: that the value rises, or that it becomes zero. -/
def Awaited.Happens (a : Awaited) (v v' : UInt16) : Prop :=
  match a with
  | .semncnt => v < v'
  | .semzcnt => v ≠ 0 ∧ v' = 0

theorem Awaited.Happens.split {v v' : UInt16} (h : a.Happens v v') (u : UInt16) :
    a.Happens v u ∨ a.Happens u v' := by
  cases a with
  | semncnt =>
    by_cases hu : v < u
    · exact .inl hu
    · have hv : v < v' := h
      have hu' : u < v' := UInt16.lt_of_le_of_lt (UInt16.not_lt.mp hu) hv
      exact .inr hu'
  | semzcnt =>
    by_cases hu : u = 0
    · exact .inl ⟨h.1, hu⟩
    · exact .inr ⟨hu, h.2⟩

theorem Awaited.not_happens_self (a : Awaited) (v : UInt16) : ¬a.Happens v v := by
  cases a with
  | semncnt => exact UInt16.lt_irrefl v
  | semzcnt => exact fun h => h.1 h.2

/-- Counters have been left alone, or cleared with a wakeup. -/
structure Clears (w w' : Work) : Prop where
  wakes : ∀ c ∈ w.wakes, c ∈ w'.wakes
  count : ∀ n a,
    ((w'.sems n).count a = (w.sems n).count a ∧ ((n, a) ∈ w'.wakes → (n, a) ∈ w.wakes)) ∨
      ((w'.sems n).count a = 0 ∧ (n, a) ∈ w'.wakes)

/-- Besides, what happened has been told to those who waited for it. -/
structure Informs (w w' : Work) : Prop extends Clears w w' where
  happens : ∀ n a, a.Happens (w.sems n).semval (w'.sems n).semval → (w.sems n).count a ≠ 0 → (n, a) ∈ w'.wakes

theorem Clears.of_count (w : Work) (hwakes : w'.wakes = w.wakes)
    (hcount : ∀ n a, (w'.sems n).count a = (w.sems n).count a) : Clears w w' := by
  refine ⟨fun c hc => hwakes ▸ hc, fun n a => .inl ⟨hcount n a, fun h => ?_⟩⟩
  rw [← hwakes]
  exact h

theorem Clears.refl (w : Work) : Clears w w := .of_count w rfl fun _ _ => rfl

theorem Clears.trans (h : Clears w w') (h' : Clears w' w'') : Clears w w'' := by
  refine ⟨fun c hc => h'.wakes c (h.wakes c hc), fun n a => ?_⟩
  cases h'.count n a with
  | inr hzero => exact .inr hzero
  | inl hsame =>
    obtain ⟨hcount', hwakes'⟩ := hsame
    rcases h.count n a with ⟨hcount, hwakes⟩ | ⟨hcount, hwakes⟩
    · exact .inl ⟨hcount'.trans hcount, fun hmem => hwakes (hwakes' hmem)⟩
    · exact .inr ⟨hcount'.trans hcount, h'.wakes _ hwakes⟩

theorem Clears.informs (h : Clears w w') (hval : ∀ n, (w'.sems n).semval = (w.sems n).semval) : Informs w w' := by
  refine ⟨h, fun n a hhap => ?_⟩
  rw [hval n] at hhap
  exact absurd hhap (a.not_happens_self _)

theorem Informs.trans (h : Informs w w') (h' : Informs w' w'') : Informs w w'' := by
  refine ⟨h.toClears.trans h'.toClears, fun n a hhap hcount => ?_⟩
  rcases hhap.split (w'.sems n).semval with hhap | hhap
  · exact h'.wakes _ (h.happens n a hhap hcount)
  · rcases h.count n a with hsame | hzero
    · exact h'.happens n a hhap (hsame.1 ▸ hcount)
    · exact h'.wakes _ hzero.2

theorem clears_modify (w : Work) (num : ℕ) (hf : ∀ semp a, (f semp).count a = semp.count a) : Clears w (w.modify num f) := by
  have hcount (n : ℕ) (a : Awaited) :
      ((w.modify num f).sems n).count a = (w.sems n).count a := by
    unfold Work.modify
    by_cases hn : n = num
    · subst hn
      simp [hf]
    · simp [hn]
  exact .of_count w rfl hcount

theorem clears_wake (w : Work) (num : ℕ) (a : Awaited) : Clears w (w.wake num a) := by
  unfold Work.wake
  split
  · refine ⟨fun c hc => mem_cons_of_mem _ hc, fun n b => ?_⟩
    unfold Work.modify
    by_cases hn : n = num
    · subst hn
      by_cases hb : a = b
      · subst hb
        exact .inr ⟨by simp, mem_cons_self ..⟩
      · exact .inl ⟨by simp [hb], by simp [Ne.symm hb]⟩
    · exact .inl ⟨by simp [hn], by simp [hn]⟩
  · exact .refl w

theorem mem_wake (h : (w.sems num).count a ≠ 0) : (num, a) ∈ (w.wake num a).wakes := by
  unfold Work.wake
  rw [if_pos h]
  exact mem_cons_self ..

theorem clears_wakeAll (w : Work) (num : ℕ) (awaited : List Awaited) : Clears w (w.wakeAll num awaited) := by
  induction awaited generalizing w with
  | nil => exact .refl w
  | cons a awaited ih => exact (clears_wake w num a).trans (ih (w.wake num a))

theorem wakeAll_semval (w : Work) (num : ℕ) (awaited : List Awaited) (n : ℕ) :
    ((w.wakeAll num awaited).sems n).semval = (w.sems n).semval := by
  induction awaited generalizing w with
  | nil => rfl
  | cons a awaited ih => exact (ih (w.wake num a)).trans (Work.wake_semval w num a n)

theorem mem_wakeAll {awaited : List Awaited} (ha : a ∈ awaited) (h : (w.sems num).count a ≠ 0) :
    (num, a) ∈ (w.wakeAll num awaited).wakes := by
  induction awaited generalizing w with
  | nil => cases ha
  | cons b awaited ih =>
    have hrest := clears_wakeAll (w.wake num b) num awaited
    cases (clears_wake w num b).count num a with
    | inr hzero => exact hrest.wakes _ hzero.2
    | inl hsame =>
      rcases mem_cons.mp ha with heq | ha
      · subst heq
        exact hrest.wakes _ (mem_wake h)
      · exact ih ha (hsame.1 ▸ h)

theorem informs_write (w : Work) (num : ℕ) (awaited : List Awaited) (hf : ∀ semp a, (f semp).count a = semp.count a)
    (hval : ∀ a, a.Happens (w.sems num).semval (f (w.sems num)).semval → a ∈ awaited) :
    Informs w ((w.modify num f).wakeAll num awaited) := by
  have hmod : Clears w (w.modify num f) := clears_modify w num hf
  refine ⟨hmod.trans (clears_wakeAll _ num awaited), fun n a hhap hcount => ?_⟩
  rw [wakeAll_semval] at hhap
  unfold Work.modify at hhap
  by_cases hn : n = num
  · subst hn
    simp only [Function.update_self] at hhap
    apply mem_wakeAll (hval a hhap)
    simpa [Work.modify, hf] using hcount
  · simp only [Function.update_of_ne hn] at hhap
    exact absurd hhap (a.not_happens_self _)

theorem clears_semundo (done : List Sembuf) (w : Work) : Clears w (semundo si zalloc p id done w) := by
  induction done generalizing w with
  | nil => exact .refl w
  | cons op done ih =>
    have hturn : Clears w (semundoOp si zalloc p id w op) := by
      have hmod : Clears w (w.modify op.semNum fun semp => semp.sub op.semOp) :=
        clears_modify w op.semNum fun semp a => by cases a <;> rfl
      unfold semundoOp
      split
      · exact .refl w
      · simp only
        split
        · exact ⟨hmod.wakes, hmod.count⟩
        · exact ⟨hmod.wakes, hmod.count⟩
    exact hturn.trans (ih _)

/-- What an end of the loop leaves: if the call goes to sleep it has counted itself. -/
inductive LoopClears (w₀ : Work) : Work × Stop → Prop where
  | sleep {w : Work} (op : Sembuf) (done : List Sembuf) (a : Awaited) (h : Clears w₀ w) :
      LoopClears w₀ (w.modify op.semNum fun semp => semp.setCount a (semp.count a + 1), .sleep op done a)
  | error {w : Work} (errno : ℕ) (h : Clears w₀ w) : LoopClears w₀ (w, .error errno)
  | done {w : Work} (h : Informs w₀ w) : LoopClears w₀ (w, .done)
  | fault (w : Work) : LoopClears w₀ (w, .fault)

theorem LoopClears.waitForSem (h : Clears w₀ w) (op : Sembuf) (done : List Sembuf) (a : Awaited) :
    LoopClears w₀ (waitForSem si zalloc p id op done a w) := by
  unfold Semaphore.waitForSem
  split
  · exact .error EAGAIN (h.trans (clears_semundo done w))
  · exact .sleep op done a (h.trans (clears_semundo done w))

theorem semopLoop_clears {nsems : ℕ} (ops done : List Sembuf)
    (h : Informs w₀ w) : LoopClears w₀ (semopLoop si zalloc p id nsems ops done w) := by
  have hvmx := si.semvmx_lt
  induction ops generalizing done w with
  | nil => exact .done h
  | cons op rest ih =>
    rw [semopLoop]
    simp only
    replace h : Informs w₀ (w.access op) := ⟨⟨h.wakes, h.count⟩, h.happens⟩
    generalize w.access op = w at h
    have hval := (w.sems op.semNum).semval.toNat_lt
    have hundo : Informs w₀ { w with undo := (semaoeIf si zalloc p id op w.undo).1 } :=
      ⟨⟨h.wakes, h.count⟩, h.happens⟩
    have hcount (semp : Sem) (a : Awaited) : (semp.add op.semOp).count a = semp.count a := by
      cases a <;> rfl
    split
    · exact .fault _
    split
    · rename_i hpos
      split
      · exact .error _ (h.toClears.trans (clears_semundo done w))
      split
      · exact .error _ (hundo.toClears.trans (clears_semundo done _))
      · -- the value rises, so that it is not zero
        apply ih
        refine hundo.trans (informs_write _ op.semNum [.semncnt] hcount fun a hhap => ?_)
        cases a with
        | semncnt => exact mem_singleton.mpr rfl
        | semzcnt =>
          have hadd := toNat_add_ofInt (v := (w.sems op.semNum).semval) (x := op.semOp)
            (by omega) (by omega)
          have hzero : ((w.sems op.semNum).semval + UInt16.ofInt op.semOp).toNat = 0 := congrArg UInt16.toNat hhap.2
          omega
    split
    · rename_i hneg
      split
      · rename_i henough
        have hadd := toNat_add_ofInt (v := (w.sems op.semNum).semval) (x := op.semOp)
          (by omega) (by omega)
        split
        · exact .error _ (hundo.toClears.trans (clears_semundo done _))
        · -- the value falls, and those who wait for zero are woken if it is
          apply ih
          apply hundo.trans
          split
          · refine informs_write _ op.semNum [.semzcnt] hcount fun a hhap => ?_
            cases a with
            | semncnt =>
              have hlt : (w.sems op.semNum).semval.toNat <
                  ((w.sems op.semNum).semval + UInt16.ofInt op.semOp).toNat :=
                UInt16.lt_iff_toNat_lt.mp hhap
              omega
            | semzcnt => exact mem_singleton.mpr rfl
          · rename_i hnonzero
            refine informs_write _ op.semNum [] hcount fun a hhap => ?_
            cases a with
            | semncnt =>
              have hlt : (w.sems op.semNum).semval.toNat <
                  ((w.sems op.semNum).semval + UInt16.ofInt op.semOp).toNat :=
                UInt16.lt_iff_toNat_lt.mp hhap
              omega
            | semzcnt =>
              refine absurd ?_ hnonzero
              simpa [Work.modify] using hhap.2
      · exact .waitForSem h.toClears op done _
    split
    · exact .waitForSem h.toClears op done _
    · exact ih _ h

theorem setPids_informs (ops : List Sembuf) (w : Work) : Informs w (setPids p ops w) := by
  refine Clears.informs ?_ (setPids_semval p ops w)
  induction ops generalizing w with
  | nil => exact .refl w
  | cons op ops ih =>
    have hmod : Clears w (w.modify op.semNum fun semp => { semp with sempid := p }) :=
      clears_modify w op.semNum fun semp a => by cases a <;> rfl
    refine Clears.trans ?_ (ih ((w.access op).modify op.semNum _))
    exact ⟨hmod.wakes, hmod.count⟩

end Waking

end Osf1.Semaphore
