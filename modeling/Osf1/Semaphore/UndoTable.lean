import Osf1.Semaphore.System
import Osf1.Semaphore.UndoList

/-!
# The undo lists over whole runs

Every process has an undo list in order and within the limits, and is on the chain from
`semundo_head` once if it has entries, and else not at all.  `semaoe`, `semunrm` and
`semexit` keep this, and nothing else touches the lists.
-/

set_option autoImplicit false

namespace Osf1.Semaphore

open Function List Option

section UndoTable

open Osf1.Computation

variable {si : SemInfo} {zalloc : Bool} {p : Pid} {id : ℤ} {u : UndoTable} {w : Work} {s : State}

/-- What holds of the undo table. -/
structure TableInv (si : SemInfo) (u : UndoTable) : Prop where
  wf : ∀ p, UndoWf si (u.undop p)
  nodup : u.semundoHead.Nodup
  chained : ∀ p, p ∈ u.semundoHead ↔ (u.undop p).unEntp ≠ []

theorem undop_mk (f : Pid → Option SemUndo) (head : List Pid) (p q : Pid) (x : Option SemUndo) :
    (⟨update f p x, head⟩ : UndoTable).undop q =
      if q = p then x.getD ⟨0, []⟩ else (⟨f, head⟩ : UndoTable).undop q := by
  unfold UndoTable.undop
  by_cases hq : q = p <;> simp [hq]

theorem TableInv.replace (h : TableInv si u) {x : Option SemUndo}
    (hwf : UndoWf si (x.getD ⟨0, []⟩)) {head : List Pid} (hnodup : head.Nodup) (hp : p ∈ head ↔ (x.getD ⟨0, []⟩).unEntp ≠ [])
    (hothers : ∀ q, q ≠ p → (q ∈ head ↔ q ∈ u.semundoHead)) : TableInv si ⟨update u.uSemundo p x, head⟩ := by
  refine ⟨fun q => ?_, hnodup, fun q => ?_⟩
  · rw [undop_mk]
    split
    · exact hwf
    · exact h.wf q
  · rw [undop_mk]
    split
    · rename_i hq
      rw [hq]
      exact hp
    · rename_i hq
      exact (hothers q hq).trans (h.chained q)

theorem TableInv.semaoe (h : TableInv si u) (val : ℤ) (num : ℕ) :
    TableInv si (semaoe si zalloc p val id num u).1 := by
  have hk : SemaoeKind si zalloc p val id num u _ := semaoe_kind (h.wf p)
  generalize Semaphore.semaoe si zalloc p val id num u = r at hk
  cases hk with
  | nothing h0 => exact h
  | refused error herror => exact h
  | failed error herror =>
    exact h.replace (x := some (u.undop p)) (h.wf p) h.nodup (h.chained p) fun _ _ => Iff.rfl
  | adjusted hne hlo hhi undop hk head hhead =>
    have hwf := hk.wf (h.wf p) hne hlo hhi
    apply h.replace (x := some undop) hwf
    · rw [hhead]
      split
      · rename_i hnil
        exact nodup_cons.mpr ⟨fun hp => (h.chained p).mp hp hnil, h.nodup⟩
      · split
        · rw [unlinkUndo_eq]
          exact h.nodup.erase p
        · exact h.nodup
    · rw [hhead]
      split
      · rename_i hnil
        -- the first entry of a process is one that has been added
        have hsome : undop.unEntp ≠ [] := by
          generalize u.undop p = s at hk hnil
          cases hk <;> simp_all
        simp [hsome]
      · rename_i hsome
        split
        · rename_i hnil
          rw [unlinkUndo_eq, h.nodup.mem_erase_iff]
          simp [hnil]
        · rename_i hleft
          simp [hleft, (h.chained p).mpr hsome]
    · intro q hq
      rw [hhead]
      split
      · simp [hq]
      · split
        · rw [unlinkUndo_eq, h.nodup.mem_erase_iff]
          simp [hq]
        · exact Iff.rfl

theorem TableInv.semundo (h : TableInv si w.undo) (done : List Sembuf) :
    TableInv si (semundo si zalloc p id done w).undo := by
  induction done generalizing w with
  | nil => exact h
  | cons op done ih =>
    apply ih
    unfold semundoOp
    split
    · exact h
    · simp only
      split
      · exact h.semaoe _ _
      · exact h

theorem TableInv.semaoeIf (h : TableInv si u) (op : Sembuf) : TableInv si (semaoeIf si zalloc p id op u).1 := by
  unfold Semaphore.semaoeIf
  split
  · exact h.semaoe _ _
  · exact h

theorem TableInv.waitForSem (h : TableInv si w.undo) (op : Sembuf) (done : List Sembuf) (a : Awaited) :
    TableInv si (waitForSem si zalloc p id op done a w).1.undo := by
  unfold Semaphore.waitForSem
  split <;> exact h.semundo done

theorem TableInv.semopLoop (h : TableInv si w.undo) (nsems : ℕ) (ops done : List Sembuf) :
    TableInv si (semopLoop si zalloc p id nsems ops done w).1.undo := by
  induction ops generalizing done w with
  | nil => exact h
  | cons op rest ih =>
    rw [Semaphore.semopLoop]
    simp only
    replace h : TableInv si (w.access op).undo := h
    split
    · exact h
    split
    · split
      · exact h.semundo done
      split
      · apply TableInv.semundo
        exact h.semaoeIf op
      · apply ih
        rw [Work.wake_undo]
        exact h.semaoeIf op
    split
    · split
      · split
        · apply TableInv.semundo
          exact h.semaoeIf op
        · apply ih
          split
          · rw [Work.wake_undo]
            exact h.semaoeIf op
          · exact h.semaoeIf op
      · exact h.waitForSem op done _
    split
    · exact h.waitForSem op done _
    · exact ih h _

theorem semunrmEntries_sublist (id : ℤ) (low high : ℕ) (es : List UndoEntry) (cnt : ℤ) :
    (semunrmEntries id low high es cnt).unEntp.Sublist es ∧
      (semunrmEntries id low high es cnt).unCnt + es.length =
        cnt + (semunrmEntries id low high es cnt).unEntp.length := by
  induction es generalizing cnt with
  | nil => exact ⟨List.Sublist.refl _, rfl⟩
  | cons e es ih =>
    rw [semunrmEntries]
    split
    · split
      · obtain ⟨hsub, hcnt⟩ := ih (cnt - 1)
        refine ⟨hsub.cons e, ?_⟩
        rw [length_cons]
        omega
      · obtain ⟨hsub, hcnt⟩ := ih cnt
        refine ⟨hsub.cons_cons e, ?_⟩
        simp only [length_cons]
        omega
    · exact ⟨List.Sublist.refl _, rfl⟩

theorem UndoWf.semunrmEntries {s : SemUndo} (h : UndoWf si s) (low high : ℕ) :
    UndoWf si (semunrmEntries id low high s.unEntp s.unCnt) := by
  obtain ⟨hsub, hcnt⟩ := semunrmEntries_sublist id low high s.unEntp s.unCnt
  have hcount := h.count
  have hlimit := h.limit
  have hlen := hsub.length_le
  exact ⟨h.ordered.sublist hsub, fun e he => h.nonzero e (hsub.subset he),
    fun e he => h.bounded e (hsub.subset he), by omega, by omega⟩

theorem TableInv.semunrmLoop (low high : ℕ) {next kept : List Pid} {f : Pid → Option SemUndo}
    (h : TableInv si ⟨f, kept ++ next⟩) : TableInv si (semunrmLoop id low high next kept f) := by
  induction next generalizing kept f with
  | nil =>
    rw [append_nil] at h
    exact h
  | cons undop next ih =>
    have hnodup : (kept ++ undop :: next).Nodup := h.nodup
    have hsub : (kept ++ next).Sublist (kept ++ undop :: next) :=
      (sublist_cons_self undop next).append_left kept
    have hsplit : undop ∉ kept ++ next := (nodup_cons.mp (perm_middle.nodup_iff.mp hnodup)).1
    have hold : UndoWf si ((f undop).getD ⟨0, []⟩) := h.wf undop
    have hin : ((f undop).getD ⟨0, []⟩).unEntp ≠ [] := (h.chained undop).mp (by simp)
    rw [Semaphore.semunrmLoop]
    cases hf : f undop with
    | none =>
      rw [hf] at hin
      exact absurd rfl hin
    | some s =>
      rw [hf] at hold
      have hwf : UndoWf si (semunrmEntries id low high s.unEntp s.unCnt) := hold.semunrmEntries low high
      simp only [map_some, any_some, decide_eq_true_eq]
      split
      · rename_i hleft
        apply ih
        rw [append_assoc, singleton_append]
        apply h.replace (x := some _) hwf h.nodup
        · simp [hleft]
        · exact fun _ _ => Iff.rfl
      · rename_i hleft
        apply ih
        apply h.replace (x := some _) hwf (hnodup.sublist hsub)
        · exact iff_of_false hsplit hleft
        · intro q hq
          simp [hq]

theorem TableInv.semunrm (h : TableInv si u) (low high : ℕ) : TableInv si (semunrm id low high u) := by
  have hloop : TableInv si ⟨u.uSemundo, [] ++ u.semundoHead⟩ := h
  exact hloop.semunrmLoop low high

theorem foldl_undo {α : Type*} {g : State → α → State} (hg : ∀ s a, (g s a).undo = s.undo)
    (l : List α) (s : State) : (l.foldl g s).undo = s.undo := by
  induction l generalizing s with
  | nil => rfl
  | cons a l ih => exact (ih (g s a)).trans (hg s a)

theorem setSems_undo (base n : ℕ) (f : ℕ → Sem → Sem) (awaited : ℕ → List Awaited) (s : State) :
    (setSems base n f awaited s).undo = s.undo := by
  have hturn (s : State) (num : ℕ) :
      (setSem base num (f num) (awaited num) s).undo = s.undo := rfl
  exact foldl_undo hturn _ s

theorem TableInv.semexit (h : TableInv si s.undo) : TableInv si (semexit si p s).undo := by
  unfold Semaphore.semexit
  cases hp : s.undo.uSemundo p with
  | none => exact h
  | some undop =>
    have hundop : s.undo.undop p = undop := by simp [UndoTable.undop, hp]
    simp only
    split
    · rename_i hnil
      apply h.replace (x := none) undoWf_empty h.nodup
      · rw [h.chained p, hundop]
        simp [hnil]
      · exact fun _ _ => Iff.rfl
    · have hentry (s : State) (e : UndoEntry) : (semexitEntry si s e).undo = s.undo := by
        unfold semexitEntry
        split
        · rfl
        · simp only
          split <;> rfl
      simp only [foldl_undo hentry]
      apply h.replace (x := none) undoWf_empty
      · rw [unlinkUndo_eq]
        exact h.nodup.erase p
      · rw [unlinkUndo_eq, h.nodup.mem_erase_iff]
        simp
      · intro q hq
        rw [unlinkUndo_eq, h.nodup.mem_erase_iff]
        simp [hq]

theorem TableInv.semop (h : TableInv si s.undo) (start : Except ℕ Pass) :
    TableInv si (semop si zalloc p start s).1.undo := by
  cases start with
  | error errno => exact h
  | ok r =>
    have hpass : TableInv si (r.run si zalloc p s).1.undo := by
      have hwork : TableInv si (s.work r.sp).undo := h
      have hloop : TableInv si (Semaphore.semopLoop si zalloc p r.semid (s.sema r.sp).semNsems r.ops []
          (s.work r.sp)).1.undo := hwork.semopLoop _ r.ops []
      unfold Pass.run semopPass
      simp only
      split
      · rw [setPids_undo]
        exact hloop
      · exact hloop
    change TableInv si (semopRun si zalloc p r s).1.undo
    unfold semopRun
    simp only
    split <;> exact hpass

theorem TableInv.step {s t : State} {e : Event} (h : TableInv si s.undo)
    (hs : step si s e = some t) : TableInv si t.undo := by
  have hreply {r : State × Reply} (hr : ofReply r = some t) (hinv : TableInv si r.1.undo) :
      TableInv si t.undo := by
    unfold ofReply at hr
    split at hr
    · cases hr
    · cases hr
      exact hinv
  cases e with
  | semget cred key nsems semflg base =>
    simp only [Semaphore.step, ite_none_right_eq_some, some.injEq] at hs
    obtain ⟨-, rfl⟩ := hs
    unfold semget
    split
    · exact h
    · split <;> exact h
    · simp only
      split <;> exact h
  | semop zalloc p semid nsops cred user =>
    simp only [Semaphore.step, ite_none_right_eq_some] at hs
    exact hreply hs.2 (h.semop _)
  | again zalloc p user =>
    simp only [Semaphore.step] at hs
    split at hs
    · simp only [ite_none_right_eq_some] at hs
      exact hreply hs.2 (h.semop _)
    · cases hs
  | signal p =>
    simp only [Semaphore.step] at hs
    split at hs
    · cases hs
      exact h
    · cases hs
      exact h
    · cases hs
  | eintr p =>
    simp only [Semaphore.step] at hs
    split at hs
    · cases hs
      unfold semopEintr
      simp only
      split <;> exact h
    · cases hs
  | setval p cred semid semnum arg =>
    obtain rfl := some_inj.mp hs
    unfold setval
    split
    · exact h
    simp only
    split
    · exact h
    split
    · exact h
    split
    · exact h
    · exact h.semunrm _ _
  | setall p cred semid semvals =>
    obtain rfl := some_inj.mp hs
    unfold setall
    split
    · exact h
    simp only
    split
    · exact h
    split
    · exact h
    split
    · exact h
    · change TableInv si (setSems _ _ _ _ _).undo
      rw [setSems_undo]
      exact h.semunrm _ _
  | rmid cred semid =>
    obtain rfl := some_inj.mp hs
    unfold rmid
    split
    · exact h
    simp only
    split
    · exact h
    · change TableInv si (setSems _ _ _ _ _).undo
      rw [setSems_undo]
      exact h.semunrm _ _
  | ipcSet cred semid uid gid mode =>
    obtain rfl := some_inj.mp hs
    unfold ipcSet
    split
    · exact h
    simp only
    split <;> exact h
  | semexit p =>
    simp only [Semaphore.step, ite_none_right_eq_some, some.injEq] at hs
    obtain ⟨-, rfl⟩ := hs
    exact h.semexit

theorem tableInv_start : TableInv si State.start.undo where
  wf _ := undoWf_empty
  nodup := nodup_nil
  chained _ := iff_of_false not_mem_nil fun h => h rfl

theorem tableInv_reachable (h : (semSystem si).Reachable s) : TableInv si s.undo := by
  apply h.invariant
  · rintro s rfl
    exact tableInv_start
  · intro s e t _ hs hstep
    exact hs.step hstep

/-- Each undo list is strictly ordered, without empty entries and within the limits, and its process is on the
chain once if it has entries. -/
theorem undo_lists {s : State} (h : (semSystem si).Reachable s) (p : Pid) :
    (∀ undop, s.undo.uSemundo p = some undop →
      (undop.unEntp.Pairwise fun a b =>
        a.uentId < b.uentId ∨ (a.uentId = b.uentId ∧ a.uentNum < b.uentNum)) ∧
      (∀ e ∈ undop.unEntp, e.uentAoe ≠ 0 ∧ -si.semaem ≤ e.uentAoe ∧ e.uentAoe ≤ si.semaem) ∧
      undop.unCnt = undop.unEntp.length ∧ undop.unCnt ≤ si.semume) ∧
    s.undo.semundoHead.count p = if s.undo.entries p = [] then 0 else 1 := by
  have hinv := tableInv_reachable h
  refine ⟨fun undop hundop => ?_, ?_⟩
  · obtain rfl : s.undo.undop p = undop := by simp [UndoTable.undop, hundop]
    have hwf := hinv.wf p
    exact ⟨hwf.ordered, fun e he => ⟨hwf.nonzero e he, hwf.bounded e he⟩, hwf.count, hwf.limit⟩
  · rw [entries_eq_undop]
    split
    · rename_i hnil
      exact count_eq_zero.mpr fun hp => (hinv.chained p).mp hp hnil
    · rename_i hsome
      exact count_eq_one_of_mem hinv.nodup ((hinv.chained p).mpr hsome)

/-- Process 1 has added to a semaphore with `SEM_UNDO`. -/
def oneEntry : State :=
  (semop seminfo true 1 (semopEnter seminfo 0 1 root (some [⟨1, 2, SEM_UNDO⟩]) oneSet) oneSet).1

theorem undo_lists_oneEntry :
    (∀ undop, oneEntry.undo.uSemundo 1 = some undop →
      (undop.unEntp.Pairwise fun a b =>
        a.uentId < b.uentId ∨ (a.uentId = b.uentId ∧ a.uentNum < b.uentNum)) ∧
      (∀ e ∈ undop.unEntp, e.uentAoe ≠ 0 ∧ -seminfo.semaem ≤ e.uentAoe ∧ e.uentAoe ≤ seminfo.semaem) ∧
      undop.unCnt = undop.unEntp.length ∧ undop.unCnt ≤ seminfo.semume) ∧
    oneEntry.undo.semundoHead.count 1 = if oneEntry.undo.entries 1 = [] then 0 else 1 := by
  have hset : (semSystem seminfo).Reachable oneSet :=
    .step (.init rfl) (i := .semget root Ipc.IPC_PRIVATE 2 0o600 0) (by rfl)
  have hentry : (semSystem seminfo).Reachable oneEntry :=
    .step hset (i := .semop true 1 0 1 root (some [⟨1, 2, SEM_UNDO⟩])) (by rfl)
  exact undo_lists hentry 1

end UndoTable

/-!
## What `semunrm` removes

The scan of a list goes on while the identifier of an entry is not past the one given and its number is not
past the highest one given.
-/

section UndoRemoval

variable {id : ℤ} {low high : ℕ} {e e' : UndoEntry} {es : List UndoEntry} {p : Pid}

/-- The entry is for one of the semaphores from `low` to `high`. -/
def UndoEntry.Named (e : UndoEntry) (id : ℤ) (low high : ℕ) : Prop :=
  e.uentId = id ∧ low ≤ e.uentNum ∧ e.uentNum ≤ high

instance (e : UndoEntry) (id : ℤ) (low high : ℕ) : Decidable (e.Named id low high) :=
  inferInstanceAs (Decidable (_ ∧ _ ∧ _))

/-- The entry does not come after another. -/
def UndoEntry.Upto (e e' : UndoEntry) : Prop := e.uentId < e'.uentId ∨ e.uentId = e'.uentId ∧ e.uentNum ≤ e'.uentNum

instance (e e' : UndoEntry) : Decidable (e.Upto e') := inferInstanceAs (Decidable (_ ∨ _ ∧ _))

/-- The scan goes on past the entry. -/
def UndoEntry.Scanned (e : UndoEntry) (id : ℤ) (high : ℕ) : Prop := e.uentId ≤ id ∧ e.uentNum ≤ high

instance (e : UndoEntry) (id : ℤ) (high : ℕ) : Decidable (e.Scanned id high) := inferInstanceAs (Decidable (_ ∧ _))

section Lists

theorem semunrmEntries_eq (es : List UndoEntry) (cnt : ℤ) :
    (semunrmEntries id low high es cnt).unEntp =
      (es.takeWhile fun e => e.Scanned id high).filter (fun e => ¬e.Named id low high) ++
        es.dropWhile fun e => e.Scanned id high := by
  induction es generalizing cnt with
  | nil => rfl
  | cons e es ih =>
    rw [semunrmEntries]
    by_cases hscan : e.uentId ≤ id ∧ e.uentNum ≤ high
    · have hpos : decide (e.Scanned id high) = true := decide_eq_true hscan
      simp only [takeWhile_cons, dropWhile_cons, if_pos hscan, hpos, if_true]
      by_cases hmatch : e.uentId = id ∧ low ≤ e.uentNum
      · have hnamed : e.Named id low high := ⟨hmatch.1, hmatch.2, hscan.2⟩
        rw [if_pos hmatch, ih, filter_cons_of_neg (by simpa using hnamed)]
      · have hnamed : ¬e.Named id low high := fun hnamed => hmatch ⟨hnamed.1, hnamed.2.1⟩
        rw [if_neg hmatch, filter_cons_of_pos (by simpa using hnamed), cons_append, ← ih]
    · have hneg : decide (e.Scanned id high) = false := decide_eq_false hscan
      simp only [takeWhile_cons, dropWhile_cons, if_neg hscan, hneg, Bool.false_eq_true, if_false]
      rfl

theorem semunrmEntries_eq_filter_iff (es : List UndoEntry) (cnt : ℤ) :
    (semunrmEntries id low high es cnt).unEntp = es.filter (fun e => ¬e.Named id low high) ↔
      ∀ e ∈ es.dropWhile fun e => e.Scanned id high, ¬e.Named id low high := by
  have hsplit := congrArg (filter fun e => ¬e.Named id low high)
    (takeWhile_append_dropWhile (p := fun e : UndoEntry => e.Scanned id high) (l := es))
  rw [filter_append] at hsplit
  rw [semunrmEntries_eq, ← hsplit, append_cancel_left_eq, eq_comm, filter_eq_self]
  simp only [decide_not, Bool.not_eq_eq_eq_not, Bool.not_true, decide_eq_false_iff_not]

theorem exists_stop {q : UndoEntry → Bool} (h : e ∈ es.dropWhile q) :
    ∃ d ∈ es, q d = false ∧ (d = e ∨ [d, e].Sublist es) := by
  induction es with
  | nil => cases h
  | cons a es ih =>
    cases hq : q a with
    | true =>
      rw [dropWhile_cons_of_pos hq] at h
      obtain ⟨d, hd, hqd, hde⟩ := ih h
      refine ⟨d, mem_cons_of_mem _ hd, hqd, hde.imp_right fun hsub => hsub.cons a⟩
    | false =>
      rw [dropWhile_cons_of_neg (by simp [hq])] at h
      refine ⟨a, mem_cons_self .., hq, ?_⟩
      rcases mem_cons.mp h with heq | hmem
      · exact .inl heq.symm
      · exact .inr ((singleton_sublist.mpr hmem).cons_cons a)

theorem stops_early_iff (hs : es.Pairwise UndoEntry.Upto) :
    (∀ e ∈ es.dropWhile fun e => e.Scanned id high, ¬e.Named id low high) ↔
      ∀ e ∈ es, e.uentId < id → high < e.uentNum → ∀ e' ∈ es, ¬e'.Named id low high := by
  constructor
  · intro hrest e he hid hnum e' he' hnamed
    have hnot : ¬e.Scanned id high := fun hscan => Nat.not_lt.mpr hscan.2 hnum
    -- the entry stops the scan, and the named one does not come before it
    have hsplit := takeWhile_append_dropWhile (p := fun e : UndoEntry => e.Scanned id high) (l := es)
    rw [← hsplit, mem_append] at he he'
    have hdrop := he.resolve_left fun htake =>
      hnot (of_decide_eq_true (mem_takeWhile_imp (p := fun e : UndoEntry => e.Scanned id high) htake))
    rcases he' with htake | hdrop'
    · rw [← hsplit, pairwise_append] at hs
      have hle := hs.2.2 e' htake e hdrop
      unfold UndoEntry.Upto at hle
      have := hnamed.1
      omega
    · exact hrest e' hdrop' hnamed
  · intro hnone e he hnamed
    obtain ⟨d, hd, hstop, hde⟩ := exists_stop he
    have hstop' : ¬d.Scanned id high := of_decide_eq_false hstop
    obtain ⟨hid, hlow, hhigh⟩ := hnamed
    rcases hde with rfl | hsub
    · exact hstop' ⟨hid.le, hhigh⟩
    · have hle : d.Upto e := pairwise_pair.mp (hs.sublist hsub)
      unfold UndoEntry.Upto at hle
      unfold UndoEntry.Scanned at hstop'
      have hmem : e ∈ es := List.Sublist.subset (dropWhile_sublist _) he
      exact hnone d hd (by omega) (by omega) e hmem ⟨hid, hlow, hhigh⟩

end Lists

section Tables

/-- The lists on the chain from `semundo_head`: each structure is there once, sorted and counted. -/
structure Chained (u : UndoTable) : Prop where
  nodup : u.semundoHead.Nodup
  sorted : ∀ p ∈ u.semundoHead, (u.entries p).Pairwise UndoEntry.Upto
  counted : ∀ p ∈ u.semundoHead, ∃ s, u.uSemundo p = some s ∧ s.unCnt = s.unEntp.length

/-- Just the named entries are gone, the counts are right, and the structures whose lists are empty have left
the chain. -/
structure Removes (id : ℤ) (low high : ℕ) (u u' : UndoTable) : Prop where
  lists : ∀ p ∈ u.semundoHead, u'.entries p = (u.entries p).filter fun e => ¬e.Named id low high
  counted : ∀ p ∈ u.semundoHead, ∃ s, u'.uSemundo p = some s ∧ s.unCnt = s.unEntp.length
  chain : u'.semundoHead = u.semundoHead.filter fun p => u'.entries p ≠ []
  others : ∀ p ∉ u.semundoHead, u'.uSemundo p = u.uSemundo p

theorem semunrmLoop_eq {next kept : List Pid} {f : Pid → Option SemUndo} (hnodup : next.Nodup) :
    (semunrmLoop id low high next kept f).uSemundo =
        (fun p => if p ∈ next then (f p).map fun s => semunrmEntries id low high s.unEntp s.unCnt else f p) ∧
      (semunrmLoop id low high next kept f).semundoHead = kept ++ next.filter fun p =>
        ((f p).map fun s => semunrmEntries id low high s.unEntp s.unCnt).any fun s => s.unEntp ≠ [] := by
  induction next generalizing kept f with
  | nil => simp [semunrmLoop]
  | cons undop next ih =>
    rw [nodup_cons] at hnodup
    have hother : ∀ q ∈ next, q ≠ undop := by
      rintro q hq rfl
      exact hnodup.1 hq
    have hfilter (g : Option SemUndo) : (next.filter fun p =>
          ((update f undop g p).map fun s => semunrmEntries id low high s.unEntp s.unCnt).any
            fun s => s.unEntp ≠ []) =
        next.filter fun p =>
          ((f p).map fun s => semunrmEntries id low high s.unEntp s.unCnt).any fun s => s.unEntp ≠ [] := by
      apply filter_congr
      intro q hq
      rw [update_of_ne (hother q hq)]
    have hlists (g : Option SemUndo) (hg : g = (f undop).map fun s => semunrmEntries id low high s.unEntp s.unCnt) :
        (fun p => if p ∈ next then
            (update f undop g p).map fun s => semunrmEntries id low high s.unEntp s.unCnt
          else update f undop g p) =
        fun p => if p ∈ undop :: next then (f p).map fun s => semunrmEntries id low high s.unEntp s.unCnt
          else f p := by
      funext q
      by_cases hq : q = undop
      · subst hq
        simp [hnodup.1, hg]
      · simp [hq]
    rw [semunrmLoop]
    split
    · rename_i hleft
      obtain ⟨hsem, hhead⟩ := @ih (kept ++ [undop]) _ hnodup.2
      rw [hsem, hhead, hlists _ rfl, hfilter]
      simp only [filter_cons, if_pos hleft, append_assoc, singleton_append, and_self]
    · rename_i hleft
      obtain ⟨hsem, hhead⟩ := @ih kept _ hnodup.2
      rw [hsem, hhead, hlists _ rfl, hfilter]
      simp only [filter_cons, if_neg hleft, and_self]

/-- `semunrm` removes just the named entries exactly when no list on the chain has both a named entry and an
entry of an earlier set whose number is past the highest one named. -/
theorem semunrm_removes_iff {u : UndoTable} (h : Chained u) :
    Removes id low high u (semunrm id low high u) ↔
      ∀ p ∈ u.semundoHead, ∀ e ∈ u.entries p, e.uentId < id → high < e.uentNum →
        ∀ e' ∈ u.entries p, ¬e'.Named id low high := by
  have hloop : (semunrm id low high u).uSemundo = _ ∧ (semunrm id low high u).semundoHead = [] ++ _ :=
    semunrmLoop_eq h.nodup
  obtain ⟨hsem, hhead⟩ := hloop
  -- the structure of a process on the chain, before and after
  have hafter (p : Pid) (hp : p ∈ u.semundoHead) (s : SemUndo) (hs : u.uSemundo p = some s) :
      (semunrm id low high u).uSemundo p = some (semunrmEntries id low high s.unEntp s.unCnt) := by
    rw [hsem]
    simp [hp, hs]
  have hentries (p : Pid) (hp : p ∈ u.semundoHead) (s : SemUndo) (hs : u.uSemundo p = some s) :
      (semunrm id low high u).entries p = (semunrmEntries id low high s.unEntp s.unCnt).unEntp := by
    simp [UndoTable.entries, hafter p hp s hs]
  have hbefore (p : Pid) (s : SemUndo) (hs : u.uSemundo p = some s) : u.entries p = s.unEntp := by
    simp [UndoTable.entries, hs]
  have hlists : (∀ p ∈ u.semundoHead, (semunrm id low high u).entries p =
        (u.entries p).filter fun e => ¬e.Named id low high) ↔
      ∀ p ∈ u.semundoHead, ∀ e ∈ u.entries p, e.uentId < id → high < e.uentNum →
        ∀ e' ∈ u.entries p, ¬e'.Named id low high := by
    apply forall₂_congr
    intro p hp
    obtain ⟨s, hs, -⟩ := h.counted p hp
    rw [hentries p hp s hs, hbefore p s hs, semunrmEntries_eq_filter_iff, stops_early_iff]
    rw [← hbefore p s hs]
    exact h.sorted p hp
  rw [← hlists]
  constructor
  · exact fun hremoves => hremoves.lists
  · intro hall
    refine ⟨hall, ?_, ?_, ?_⟩
    · intro p hp
      obtain ⟨s, hs, hcnt⟩ := h.counted p hp
      obtain ⟨-, hlen⟩ := semunrmEntries_sublist id low high s.unEntp s.unCnt
      exact ⟨_, hafter p hp s hs, by omega⟩
    · rw [hhead, nil_append]
      apply filter_congr
      intro p hp
      obtain ⟨s, hs, -⟩ := h.counted p hp
      rw [hentries p hp s hs, hs]
      simp
    · intro p hp
      rw [hsem]
      simp [hp]

/-- A process with entries for semaphore 5 of set 1 and semaphore 0 of set 2. -/
def twoSets : UndoTable := ⟨fun p => if p = 9 then some ⟨2, [⟨1, 5, 1⟩, ⟨2, 0, 1⟩]⟩ else none, [9]⟩

theorem chained_twoSets : Chained twoSets := by
  refine ⟨by decide, ?_, ?_⟩
  · intro p hp
    obtain rfl := mem_singleton.mp hp
    decide
  · intro p hp
    obtain rfl := mem_singleton.mp hp
    exact ⟨_, rfl, rfl⟩

/-- The entry of set 1 goes when its semaphores are removed. -/
theorem semunrm_removes_iff_twoSets : Removes 1 0 7 twoSets (semunrm 1 0 7 twoSets) := by
  apply (semunrm_removes_iff chained_twoSets).mpr
  intro p hp e _ hid hnum
  obtain rfl := mem_singleton.mp hp
  have hlow : ∀ e ∈ twoSets.entries 9, e.uentNum ≤ 7 := by decide
  have := hlow e ‹_›
  omega

/-- The entry of set 2 stays when its semaphore is removed: the scan stops at the entry of set 1. -/
theorem semunrm_leaves_entry : ¬∀ (id : ℤ) (low high : ℕ) (u : UndoTable), Chained u →
    Removes id low high u (semunrm id low high u) := by
  intro hall
  have hgone := (hall 2 0 0 twoSets chained_twoSets).lists 9 (by decide)
  exact absurd hgone (by decide)

end Tables

end UndoRemoval

end Osf1.Semaphore
