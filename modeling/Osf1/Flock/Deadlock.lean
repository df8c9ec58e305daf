import Osf1.Computation.WaitGraph
import Osf1.Flock.Exclusion

/-!
# Deadlock detection

The owners of the entries on `sleeplcks` wait for the blockers recorded in them. While every owner has one
entry at most, this relation is kept acyclic by the check that `setflck` and `locked` make before they queue a
request, and `deadflck` ends.
-/

set_option autoImplicit false

namespace Osf1.Flock

open List Option

section Deadlock

open Osf1.Computation Relation

variable {zalloc : ℕ → Bool} {q : List Filock} {b blck : Owner} {fuel : ℕ}

/-- Owner of an entry of `sleeplcks` to recorded blocker. -/
def WaitsFor (q : List Filock) (a b : Owner) : Prop := ∃ sf ∈ q, sf.set.owner = a ∧ sf.blk = b

/-- The owners of the entries are different. -/
def OneEach (q : List Filock) : Prop := (q.map fun sf => sf.set.owner).Nodup

instance (q : List Filock) : Decidable (OneEach q) := inferInstanceAs (Decidable (List.Nodup _))

/-- The edges as `deadflck` follows them: those of the first entry of an owner. -/
def nextBlocker (q : List Filock) (a : Owner) : Option Owner := (q.find? fun sf => sf.set.owner = a).map Filock.blk

theorem waitsFor_of_nextBlocker {a : Owner} (h : nextBlocker q a = some b) : WaitsFor q a b := by
  obtain ⟨sf, hsf, rfl⟩ := map_eq_some_iff.mp h
  exact ⟨sf, mem_of_find?_eq_some hsf, by simpa using find?_some hsf, rfl⟩

theorem nextBlocker_of_waitsFor (hq : OneEach q) {a : Owner} (h : WaitsFor q a b) : nextBlocker q a = some b := by
  obtain ⟨sf, hsf, hown, rfl⟩ := h
  induction q with
  | nil => cases hsf
  | cons g q ih =>
    rw [OneEach, map_cons, nodup_cons] at hq
    by_cases hg : g.set.owner = a
    · have hsame : sf = g := by
        rcases mem_cons.mp hsf with heq | hmem
        · exact heq
        · refine absurd (mem_map.mpr ⟨sf, hmem, ?_⟩) hq.1
          exact hown.trans hg.symm
      simp [nextBlocker, hg, hsame]
    · have hmem : sf ∈ q := by
        rcases mem_cons.mp hsf with heq | hmem
        · exact absurd (heq ▸ hown) hg
        · exact hmem
      have htail := ih hq.2 hmem
      simpa [nextBlocker, hg] using htail

theorem deadflckFrom_succ (q : List Filock) (o : Owner) (fuel : ℕ) (blck : Owner) :
    deadflckFrom q o (fuel + 1) blck =
      if blck = o then some true
      else match nextBlocker q blck with
        | none => some false
        | some b => deadflckFrom q o fuel b := by
  rw [deadflckFrom, nextBlocker]
  cases q.find? fun sf => sf.set.owner = blck with
  | none => rfl
  | some sf => rfl

theorem not_leads_of_deadflckFrom (hq : OneEach q) {o : Owner} (h : deadflckFrom q o fuel blck = some false) :
    ¬ReflTransGen (WaitsFor q) blck o := by
  induction fuel generalizing blck with
  | zero => cases h
  | succ fuel ih =>
    rw [deadflckFrom_succ] at h
    by_cases heq : blck = o
    · rw [if_pos heq] at h
      cases h
    rw [if_neg heq] at h
    intro hpath
    rcases hpath.cases_head with hrefl | ⟨b, hb, hrest⟩
    · exact heq hrefl
    · rw [nextBlocker_of_waitsFor hq hb] at h
      exact ih h hrest

theorem deadflckFrom_eq_none_iff {o : Owner} :
    deadflckFrom q o fuel blck = none ↔
      ∀ i < fuel, ∃ a, follow (nextBlocker q) i blck = some a ∧ a ≠ o ∧
        (nextBlocker q a).isSome := by
  induction fuel generalizing blck with
  | zero => simp [deadflckFrom]
  | succ fuel ih =>
    rw [deadflckFrom_succ]
    constructor
    · intro h
      split at h
      · cases h
      rename_i hne
      cases hb : nextBlocker q blck with
      | none =>
        rw [hb] at h
        cases h
      | some b =>
        rw [hb] at h
        intro i hi
        cases i with
        | zero => exact ⟨blck, rfl, hne, by rw [hb]; rfl⟩
        | succ i =>
          obtain ⟨a, ha, hrest⟩ := ih.mp h i (by omega)
          exact ⟨a, by simpa [follow, hb] using ha, hrest⟩
    · intro h
      obtain ⟨a, ha, hne, hsome⟩ := h 0 (by omega)
      cases ha
      rw [if_neg hne]
      obtain ⟨b, hb⟩ := isSome_iff_exists.mp hsome
      rw [hb]
      refine ih.mpr fun i hi => ?_
      obtain ⟨a, ha, hrest⟩ := h (i + 1) (by omega)
      exact ⟨a, by simpa [follow, hb] using ha, hrest⟩

theorem mem_owners_of_nextBlocker {a : Owner} (h : (nextBlocker q a).isSome) : a ∈ q.map fun sf => sf.set.owner := by
  obtain ⟨b, hb⟩ := isSome_iff_exists.mp h
  obtain ⟨sf, hsf, hown, -⟩ := waitsFor_of_nextBlocker hb
  exact mem_map.mpr ⟨sf, hsf, hown⟩

theorem deadflckFrom_none {o : Owner} (h : deadflckFrom q o (q.length + 1) blck = none) (fuel : ℕ) :
    deadflckFrom q o fuel blck = none := by
  rw [deadflckFrom_eq_none_iff] at h ⊢
  obtain ⟨i, j, hij, hj, heq⟩ : ∃ i j, i < j ∧ j ≤ (q.map fun sf => sf.set.owner).length ∧
      follow (nextBlocker q) i blck = follow (nextBlocker q) j blck := by
    apply exists_follow_repeat
    intro i hi
    rw [length_map] at hi
    obtain ⟨a, ha, -, hsome⟩ := h i (by omega)
    exact ⟨a, mem_owners_of_nextBlocker hsome, ha⟩
  intro m _
  rw [length_map] at hj
  obtain ⟨k, hk, hfk⟩ := follow_of_repeat hij heq m
  rw [← hfk]
  exact h k (by omega)

theorem deadflckFrom_ends (hac : Acyclic (WaitsFor q)) (o blck : Owner) :
    deadflckFrom q o (q.length + 1) blck ≠ none := by
  intro hnone
  have hnext : Acyclic fun a b => nextBlocker q a = some b := hac.mono fun a b => waitsFor_of_nextBlocker
  have hdom (a b : Owner) (h : nextBlocker q a = some b) :
      a ∈ q.map fun sf => sf.set.owner :=
    mem_owners_of_nextBlocker (isSome_iff_exists.mpr ⟨b, h⟩)
  have hend := hnext.follow_ends hdom blck
  have hlast := deadflckFrom_eq_none_iff.mp (deadflckFrom_none hnone (q.length + 2))
  obtain ⟨a, ha, -⟩ := hlast (q.length + 1) (by omega)
  rw [length_map, ha] at hend
  cases hend

variable (zalloc)

/-- Where the walk of `flckadj` is after a turn. -/
def AdjNext.adj : AdjNext → Adj
  | .next a => a
  | .stop a => a
  | .ret a => a

theorem flckadjStep_owner (vp : Vnode) (cls : LockClass) (upid : ℤ) (o : Owner) (flp : Filock)
    (nflp : List Filock) (a : Adj) : (flckadjStep zalloc vp cls upid o flp nflp a).adj.ld.owner = a.ld.owner := by
  unfold flckadjStep
  split
  · cases regflck a.ld flp with
    | mk sreg ereg =>
      cases sreg <;> cases ereg <;> simp only <;> repeat' (first | rfl | split)
  · split <;> rfl

theorem flckadjLoop_owner (vp : Vnode) (cls : LockClass) (upid : ℤ) (o : Owner) (l : List Filock) (a : Adj) :
    (flckadjLoop zalloc vp cls upid o l a).adj.ld.owner = a.ld.owner := by
  induction l generalizing a with
  | nil => rfl
  | cons flp nflp ih =>
    have hstep := flckadjStep_owner zalloc vp cls upid o flp nflp a
    rw [flckadjLoop]
    generalize flckadjStep zalloc vp cls upid o flp nflp a = r at hstep
    cases r with
    | next a' => exact (ih a').trans hstep
    | stop a' => exact hstep
    | ret a' => exact hstep

theorem flckadj_owner (vp : Vnode) (c : List Filock) (insrtp : ℕ) (ld : Eflock)
    (cls : LockClass) (upid : ℤ) (zcnt : ℕ) :
    (flckadj zalloc vp c insrtp ld cls upid zcnt).ld.owner = ld.owner := by
  have hloop := flckadjLoop_owner zalloc vp cls (insertPid ld cls upid)
    (callerOwner ld cls upid) (c.drop (insrtp - 1)) ⟨c.take (insrtp - 1), insrtp, ld, 0, zcnt⟩
  have hinsert (a : Adj) :
      (flckadjInsert zalloc vp cls (insertPid ld cls upid) a).ld = a.ld := by
    unfold flckadjInsert
    simp only
    repeat' (first | rfl | split)
  unfold flckadj
  simp only
  split
  · rename_i a heq
    rw [heq] at hloop
    exact hloop
  all_goals
    rename_i a heq
    rw [hinsert]
    rw [heq] at hloop
    exact hloop

/-- What a run is asked to meet: a blocker that `chk_granted` records does not lead back to
the sleeper, and neither does one that `setflck` or `locked` record while some owner has
two entries, which `deadflck` does not follow. -/
def closesNoCycle : Conditions where
  adjust _ _ _ _ _ := True
  turn vp sf nsf p := sf.vp = vp →
    ∀ found, (blocked p.chain sf.set sf.cls sf.set.lPid).1 = some found →
      ¬ReflTransGen (WaitsFor (p.kept ++ nsf)) found.set.owner sf.set.owner
  enqueue s o blk := OneEach s.sleeplcks ∨ ¬ReflTransGen (WaitsFor s.sleeplcks) blk o

variable {zalloc} {q' : List Filock} {sf : Filock} {s : State}

theorem WaitsFor.mono (hsub : q ⊆ q') {a : Owner} (h : WaitsFor q a b) : WaitsFor q' a b := by
  obtain ⟨sf, hsf, hab⟩ := h
  exact ⟨sf, hsub hsf, hab⟩

theorem WaitsFor.of_insert (hsub : q' ⊆ sf :: q) {a : Owner}
    (h : WaitsFor q' a b) : WaitsFor q a b ∨ (a = sf.set.owner ∧ b = sf.blk) := by
  obtain ⟨g, hg, rfl, rfl⟩ := h
  rcases mem_cons.mp (hsub hg) with heq | hmem
  · subst heq
    exact .inr ⟨rfl, rfl⟩
  · exact .inl ⟨g, hmem, rfl, rfl⟩

theorem turn_acyclic {vp : Vnode} {nsf : List Filock} {p : Pass} {r : PassNext}
    (hac : Acyclic (WaitsFor (p.kept ++ sf :: nsf))) (hC : closesNoCycle.turn vp sf nsf p)
    (hk : TurnKind zalloc vp sf nsf p r) : r.Keeps (fun q p => Acyclic (WaitsFor (p.kept ++ q))) nsf := by
  have hgone : Acyclic (WaitsFor (p.kept ++ nsf)) := by
    refine hac.mono fun a b => WaitsFor.mono ?_
    exact ((sublist_cons_self sf nsf).append_left p.kept).subset
  cases hk with
  | other hvp =>
    change Acyclic (WaitsFor ((p.kept ++ [sf]) ++ nsf))
    rw [append_assoc]
    exact hac
  | redirect hvp found hb =>
    apply hgone.insert _ (hC hvp found hb)
    intro x y hxy
    have hsub : (p.kept ++ [{ sf with blk := found.set.owner }]) ++ nsf ⊆
        { sf with blk := found.set.owner } :: (p.kept ++ nsf) := by
      rw [append_assoc, singleton_append]
      exact perm_middle.subset
    exact hxy.of_insert hsub
  | wake hvp hb hio => exact hgone
  | grant hvp hb hio a ha hrv p' hchain hkept =>
    change Acyclic (WaitsFor (p'.kept ++ nsf))
    rw [hkept]
    exact hgone
  | fail hvp hb hio a ha hrv p' hchain hkept =>
    change Acyclic (WaitsFor (p'.kept ++ []))
    rw [hkept, append_nil]
    refine hac.mono fun x y hxy => ?_
    obtain ⟨g, hg, hown, hblk⟩ := hxy
    rw [mem_append, mem_cons] at hg
    -- the request may have been widened, but the entry stands for the same edge
    have hold : WaitsFor (p.kept ++ sf :: nsf) sf.set.owner sf.blk := ⟨sf, by simp, rfl, rfl⟩
    rcases hg with hkeep | heq | hnsf
    · exact ⟨g, by simp [hkeep], hown, hblk⟩
    · subst heq hblk
      rw [← hown, ha, flckadj_owner]
      exact hold
    · exact ⟨g, by simp [hnsf], hown, hblk⟩

theorem chkGranted_acyclic {vp : Vnode} {cls : LockClass}
    (hac : Acyclic (WaitsFor s.sleeplcks)) (hC : GrantsMeet zalloc closesNoCycle vp cls s) :
    Acyclic (WaitsFor (chkGranted zalloc vp cls s).1.sleeplcks) := by
  have hpass := chkGrantedLoop_invariant zalloc (I := fun q p => Acyclic (WaitsFor (p.kept ++ q)))
    (p := Pass.start vp s) (fun sf nsf p r hI hC hk => turn_acyclic hI hC hk) hac hC
  rw [append_nil] at hpass
  exact hpass

theorem acyclic_step {t : State} (hac : Acyclic (WaitsFor s.sleeplcks))
    (he : Effect zalloc closesNoCycle s t) : Acyclic (WaitsFor t.sleeplcks) := by
  cases he with
  | adjust vp n rq pid hcall hK =>
    unfold adjustAndGrant
    simp only
    split
    · exact chkGranted_acyclic hac (hK.2 ‹_›)
    · exact hac
  | enqueue vp rq pid found htype hb hdead hK =>
    have hno : ¬ReflTransGen (WaitsFor s.sleeplcks) found.set.owner
        (callerOwner rq.ld rq.cls pid) := by
      rcases hK with hone | hno
      · exact not_leads_of_deadflckFrom hone hdead
      · exact hno
    apply hac.insert _ hno
    intro x y hxy
    have hsub := (perm_append_singleton
      { newFilock rq.ld vp rq.cls pid with blk := found.set.owner } s.sleeplcks).subset
    have hedge := hxy.of_insert hsub
    have hown : (newFilock rq.ld vp rq.cls pid).set.owner = callerOwner rq.ld rq.cls pid :=
      newFilock_owner_caller rq.loc
    rw [← hown]
    exact hedge
  | release vp cls del always hK =>
    unfold releaseIf
    split
    · exact chkGranted_acyclic hac (hK ‹_›)
    · exact hac
  | dequeue t hchain hsleep => exact hac.mono fun a b => WaitsFor.mono hsleep.subset

/-- Deadlock detection: in every state that is reached by steps whose new blockers close no
cycle, no owner waits for himself, and `deadflck` ends for every owner and blocker. -/
theorem waitsFor_acyclic {s : State}
    (h : ((flockSystem zalloc).restrict (StepMeets zalloc closesNoCycle)).Reachable s) :
    Acyclic (WaitsFor s.sleeplcks) ∧
      ∀ o blck, ∃ turns, deadflckFrom s.sleeplcks o turns blck ≠ none := by
  have hac : Acyclic (WaitsFor s.sleeplcks) := by
    apply h.invariant
    · rintro s rfl a hcycle
      cases hcycle <;> rename_i hedge <;> obtain ⟨sf, hsf, -⟩ := hedge <;> cases hsf
    · intro s e t _ hs hstep
      exact acyclic_step hs (step_effect hstep.2 hstep.1)
  exact ⟨hac, fun o blck => ⟨_, deadflckFrom_ends hac o blck⟩⟩

/-- Process 2 waits for process 1, who waits for nobody. -/
theorem waitsFor_acyclic_oneWaiter : Acyclic (WaitsFor oneWaiter.sleeplcks) ∧
    ∀ o blck, ∃ turns, deadflckFrom oneWaiter.sleeplcks o turns blck ≠ none := by
  have hfirst : StepMeets (fun _ => true) closesNoCycle State.start
      (.setflck true 7 (fcntlRequest .wrlck 0 10 1 (by decide)) true 1) :=
    fun _ => ⟨trivial, fun hrv => absurd hrv.1 (by decide)⟩
  have hsecond : StepMeets (fun _ => true) closesNoCycle oneWriter
      (.setflck true 7 (fcntlRequest .wrlck 0 10 2 (by decide)) true 2) :=
    fun _ _ => .inl nodup_nil
  have hreach : ((flockSystem fun _ => true).restrict
      (StepMeets (fun _ => true) closesNoCycle)).Reachable oneWaiter :=
    .step (.step (.init rfl) ⟨hfirst, (rfl : step _ _ _ = some oneWriter)⟩) ⟨hsecond, rfl⟩
  exact waitsFor_acyclic hreach

/-- The steps that are calls of `setflck`, and leave no owner with two entries. -/
def setflckOneEach (zalloc : ℕ → Bool) (s : State) (e : Event) : Prop :=
  IsSetflck e ∧ ∀ t, step zalloc s e = some t → decide (OneEach t.sleeplcks)

/-- Process 1 waits for process 2 and then for process 3, who waits for process 1.  Nobody
found a cycle when process 3 was queued, since process 1 waited for process 2 then; when
process 2 unlocks, `chk_granted` has process 1 wait for process 3.  If a process then has to
wait for one of the two, `deadflck` never ends. -/
theorem waitsFor_cycle :
    ∃ s, ((flockSystem fun _ => true).restrict (setflckOneEach fun _ => true)).Reachable s ∧
      OneEach s.sleeplcks ∧ ¬Acyclic (WaitsFor s.sleeplcks) ∧
      ∃ o blck, ∀ turns, deadflckFrom s.sleeplcks o turns blck = none := by
  let schedule : List Event :=
    [.setflck true 7 (fcntlRequest .wrlck 30 40 1 (by decide)) true 1,
     .setflck true 7 (fcntlRequest .wrlck 0 10 2 (by decide)) true 2,
     .setflck true 7 (fcntlRequest .wrlck 10 20 3 (by decide)) true 3,
     .setflck true 7 (fcntlRequest .wrlck 0 20 1 (by decide)) true 1,
     .setflck true 7 (fcntlRequest .wrlck 30 40 3 (by decide)) true 3,
     .setflck true 7 (fcntlRequest .unlck 0 10 2 (by decide)) true 2]
  let queue : List Filock :=
    [⟨⟨.wrlck, 0, 20, 1, 0, 0, 0⟩, .fileLock, 7, ⟨3, 0, 0⟩⟩,
     ⟨⟨.wrlck, 30, 40, 3, 0, 0, 0⟩, .fileLock, 7, ⟨1, 0, 0⟩⟩]
  have hrun : (System.runFrom (step fun _ => true) State.start schedule).map State.sleeplcks =
      some queue := by
    decide
  have hpass : System.statesPass (step fun _ => true) (fun t => decide (OneEach t.sleeplcks))
      State.start schedule := by
    decide
  obtain ⟨t, ht, hqueue⟩ := map_eq_some_iff.mp hrun
  have hcycle : WaitsFor queue ⟨1, 0, 0⟩ ⟨3, 0, 0⟩ ∧ WaitsFor queue ⟨3, 0, 0⟩ ⟨1, 0, 0⟩ :=
    ⟨⟨_, mem_cons_self .., rfl, rfl⟩, ⟨_, mem_cons_of_mem _ (mem_cons_self ..), rfl, rfl⟩⟩
  refine ⟨t, ?_, ?_, ?_, ⟨4, 0, 0⟩, ⟨1, 0, 0⟩, ?_⟩
  · apply System.Reachable.runFrom_restrict (.init rfl) _ ht
    apply System.MeetsAlong.of_statesPass _ hpass
    simp [schedule, IsSetflck]
  · rw [hqueue]
    decide
  · intro hac
    rw [hqueue] at hac
    exact hac ⟨1, 0, 0⟩ (.tail (.single hcycle.1) hcycle.2)
  · intro turns
    rw [hqueue]
    exact deadflckFrom_none (by decide) turns

end Deadlock

/-!
## A lock request that fails for want of a record

Where a request ends inside a record of its owner, `flckadj` allocates the piece behind the request before it
touches the record.
-/

section Failing

open Osf1.Computation

variable {zalloc : ℕ → Bool} {vp : Vnode} {cls : LockClass} {upid : ℤ} {o : Owner} {ld : Eflock} {zcnt : ℕ}
  {c c' : List Filock} {x : ℕ} {t : LockType}

/-- A record of the owner that overlaps a request or is to be merged with it, unless it is just the one that
cannot be severed for want of a record. -/
def Loses (zalloc : ℕ → Bool) (zcnt : ℕ) (o : Owner) (ld : Eflock) (f : Filock) : Prop :=
  f.set.owner = o ∧
  (f.set.lStart < ld.lEnd ∧ ld.lStart < f.set.lEnd ∨
    ld.lType = f.set.lType ∧ f.set.lStart ≤ ld.lEnd ∧ ld.lStart ≤ f.set.lEnd) ∧
  ¬(zalloc zcnt = false ∧ ld.lType ≠ f.set.lType ∧ f.set.lStart < ld.lEnd ∧ ld.lEnd < f.set.lEnd)

instance (zcnt : ℕ) (o : Owner) (ld : Eflock) (f : Filock) : Decidable (Loses zalloc zcnt o ld f) :=
  inferInstanceAs (Decidable (_ ∧ (_ ∨ _) ∧ ¬_))

section Turn

variable {flp : Filock} {nflp : List Filock} {a : Adj} {rest : List Filock}

theorem trim_touching (h : flp.set.lEnd = ld.lStart) : trim flp ld = flp := by
  unfold trim
  rw [← h]

theorem flckadjInsert_fails (hrv : a.rv ≠ ENOLCK) (h : (flckadjInsert zalloc vp cls upid a).rv = ENOLCK) :
    (flckadjInsert zalloc vp cls upid a).chain = a.passed := by
  by_cases hlk : a.ld.lType = .unlck
  · have hr : flckadjInsert zalloc vp cls upid a = ⟨a.passed, a.ld, a.rv, a.zcnt⟩ := by
      simp [flckadjInsert, hlk]
    rw [hr] at h
    exact absurd h hrv
  · cases hz : zalloc a.zcnt with
    | false =>
      have hr : flckadjInsert zalloc vp cls upid a = ⟨a.passed, a.ld, ENOLCK, a.zcnt + 1⟩ := by
        simp [flckadjInsert, hlk, insflck, hz]
      rw [hr]
    | true =>
      simp only [flckadjInsert, hlk, ne_eq, not_false_eq_true, if_true, insflck, hz] at h
      exact absurd h hrv

theorem flckadjLoop_keeps {a : Adj} (hld : a.ld.lStart < a.ld.lEnd)
    (hne : ∀ f ∈ rest, f.set.lStart < f.set.lEnd) (hno : ∀ f ∈ rest, ¬Loses zalloc a.zcnt o a.ld f) :
    (flckadjLoop zalloc vp cls upid o rest a).adj.passed = a.passed ++ rest := by
  induction rest generalizing a with
  | nil => simp [flckadjLoop, AdjNext.adj]
  | cons flp nflp ih =>
    have hflp := hne flp (mem_cons_self ..)
    have hflp' := hno flp (mem_cons_self ..)
    have hkind : AdjKind zalloc vp cls upid o flp nflp a _ := flckadjStep_kind hld hflp
    have hgo (insrtp rv : ℕ) := ih (a := ⟨a.passed ++ [flp], insrtp, a.ld, rv, a.zcnt⟩) hld
      (fun f hf => hne f (mem_cons_of_mem _ hf)) (fun f hf => hno f (mem_cons_of_mem _ hf))
    simp only [append_assoc, singleton_append] at hgo
    rw [flckadjLoop]
    generalize flckadjStep zalloc vp cls upid o flp nflp a = r at hkind
    cases hkind with
    | passOther hown hle => exact hgo a.insrtp a.rv
    | passOwn hown hlt => exact hgo (a.passed.length + 1) a.rv
    | halt hstop => rfl
    | joinRight hown hsame heq =>
      exact absurd ⟨hown, .inr ⟨hsame, by omega, by omega⟩, fun hsever => hsever.2.1 hsame⟩ hflp'
    | joinEnd hown hsame hlo hmid hhi =>
      exact absurd ⟨hown, .inr ⟨hsame, by omega, by omega⟩, fun hsever => hsever.2.1 hsame⟩ hflp'
    | swallow hown hlo hhi hdiff =>
      refine absurd ⟨hown, .inl ⟨by omega, by omega⟩, fun hsever => ?_⟩ hflp'
      omega
    | joinLeft hown hsame hlo hmid hhi =>
      exact absurd ⟨hown, .inr ⟨hsame, by omega, by omega⟩, fun hsever => hsever.2.1 hsame⟩ hflp'
    | cut hown hdiff hlo hmid hhi =>
      by_cases htouch : flp.set.lEnd = a.ld.lStart
      · rw [trim_touching htouch]
        exact hgo (a.passed.length + 1) 1
      · refine absurd ⟨hown, .inl ⟨by omega, by omega⟩, fun hsever => ?_⟩ hflp'
        omega
    | covered hown hsame hlo hhi => rfl
    | severFails hown hdiff hmid hhi hz => rfl
    | sever hown hdiff hmid hhi hz =>
      refine absurd ⟨hown, .inl ⟨by omega, by omega⟩, fun hsever => ?_⟩ hflp'
      rw [hz] at hsever
      cases hsever.1

/-- The walk has taken a byte from the owner, if it has not ended well. -/
def AdjNext.Takes (o : Owner) (c : List Filock) : AdjNext → Prop
  | .next a => ∃ x t, Holds c o x t ∧ ¬Holds a.passed o x t
  | .stop a => ∃ x t, Holds c o x t ∧ ¬Holds a.passed o x t
  | .ret a => a.rv = ENOLCK → ∃ x t, Holds c o x t ∧ ¬Holds a.passed o x t

theorem AdjNext.Leaves.takes {r : AdjNext} (h : r.Leaves zalloc o c' [] a) (hx : Holds c o x t)
    (hx' : ¬Holds c' o x t) : r.Takes o c := by
  cases r with
  | next a' =>
    have hcov := h.1
    rw [append_nil] at hcov
    exact ⟨x, t, hx, fun hlast => hx' (hcov.sound x t hlast)⟩
  | stop a' => exact ⟨x, t, hx, fun hlast => hx' (h.1.sound x t hlast)⟩
  | ret a' => exact fun _ => ⟨x, t, hx, fun hlast => hx' (h.1.sound x t hlast)⟩

theorem AdjShape.alone (h : AdjShape (fun _ => false) vp cls upid o (flp :: nflp) a) (hown : flp.set.owner = o)
    (hlo : flp.set.lStart ≤ x) (hhi : x < flp.set.lEnd) : ¬Holds (a.passed ++ nflp) o x t := by
  obtain ⟨hl, hr, -⟩ := pairwise_append_cons h.ordered
  rintro ⟨f, hf, hfo, hflo, hfhi, -⟩
  rcases mem_append.mp hf with hf | hf
  · have := (hl f hf).2 (hfo.trans hown.symm)
    omega
  · have := (hr f hf).2 (hown.trans hfo.symm)
    omega

theorem AdjShape.takes (hsev : ∀ td : Eflock, td.owner = o → (newFilock td vp cls upid).set.owner = o)
    {a : Adj} (h : AdjShape (fun _ => false) vp cls upid o rest a) (hrv : a.rv ≠ ENOLCK)
    {f : Filock} (hf : f ∈ rest) (hloses : Loses zalloc a.zcnt o a.ld f) :
    (flckadjLoop zalloc vp cls upid o rest a).Takes o (a.passed ++ rest) := by
  induction rest generalizing a with
  | nil => cases hf
  | cons flp nflp ih =>
    have hrange := h.range
    have hflp := h.nonempty flp (by simp)
    obtain ⟨-, hr, -⟩ := pairwise_append_cons h.ordered
    obtain ⟨hown, hmeets, hsevers⟩ := hloses
    have hkind : AdjKind zalloc vp cls upid o flp nflp a _ := flckadjStep_kind hrange hflp
    -- a record of the owner behind one that reaches past the end of the request is not lost
    have hpast (hflpo : flp.set.owner = o) (hend : a.ld.lEnd < flp.set.lEnd) (hf' : f ∈ nflp) : False := by
      have hle := (hr f hf').2 (hflpo.trans hown.symm)
      rcases hmeets with ⟨hlt, -⟩ | ⟨-, hlt, -⟩
      · omega
      · omega
    have hheld (hflpo : flp.set.owner = o) {x : ℕ} (hlo : flp.set.lStart ≤ x) (hhi : x < flp.set.lEnd) :
        Holds (a.passed ++ flp :: nflp) o x flp.set.lType :=
      ⟨flp, by simp, hflpo, hlo, hhi, rfl⟩
    rw [flckadjLoop]
    generalize flckadjStep zalloc vp cls upid o flp nflp a = r at hkind
    have hshape (a' : Adj) (hr' : r = .next a') : AdjShape (fun _ => false) vp cls upid o nflp a' := by
      subst hr'
      exact h.turn hsev hkind.of_next
    have hlater (a' : Adj) (hr' : r = .next a') :
        (flckadjLoop zalloc vp cls upid o nflp a').Leaves zalloc o (a'.passed ++ nflp) [] a' :=
      (hshape a' hr').loop_covers hsev
    -- the walk goes on past a record that stays as it is
    have hgo (a' : Adj) (hr' : r = .next a') (hpassed : a'.passed = a.passed ++ [flp]) (hld : a'.ld = a.ld)
        (hz : a'.zcnt = a.zcnt) (hrv' : a'.rv ≠ ENOLCK) (hne : f ≠ flp) :
        (flckadjLoop zalloc vp cls upid o nflp a').Takes o (a.passed ++ flp :: nflp) := by
      have hmem : f ∈ nflp := (mem_cons.mp hf).resolve_left hne
      have htakes := ih (hshape a' hr') hrv' hmem (by
        rw [hld, hz]
        exact ⟨hown, hmeets, hsevers⟩)
      rw [hpassed, append_assoc, singleton_append] at htakes
      exact htakes
    -- the record goes
    have hgone (a' : Adj) (hr' : r = .next a') (hpassed : a'.passed = a.passed) (hflpo : flp.set.owner = o) :
        (flckadjLoop zalloc vp cls upid o nflp a').Takes o (a.passed ++ flp :: nflp) := by
      apply (hlater a' hr').takes (hheld hflpo (Nat.le_refl _) hflp)
      rw [hpassed]
      exact h.alone hflpo (Nat.le_refl _) hflp
    cases hkind with
    | passOther hother hle =>
      refine hgo _ rfl rfl rfl rfl hrv ?_
      rintro rfl
      exact hother hown
    | passOwn hflpo hlt =>
      refine hgo _ rfl rfl rfl rfl hrv ?_
      rintro rfl
      rcases hmeets with ⟨-, hle⟩ | ⟨-, -, hle⟩
      · omega
      · omega
    | halt hstop =>
      exfalso
      rcases hstop with hlt | ⟨hflpo, hdiff, heq⟩
      · have hle : flp.set.lStart ≤ f.set.lStart := by
          rcases mem_cons.mp hf with rfl | hf'
          · exact Nat.le_refl _
          · exact (hr f hf').1
        rcases hmeets with ⟨hlt', -⟩ | ⟨-, hle', -⟩
        · omega
        · omega
      · rcases mem_cons.mp hf with rfl | hf'
        · rcases hmeets with ⟨hlt', -⟩ | ⟨hsame, -⟩
          · omega
          · exact hdiff hsame
        · exact hpast hflpo (by omega) hf'
    | joinRight hflpo hsame heq => exact hgone _ rfl rfl hflpo
    | joinEnd hflpo hsame hlo hmid hhi =>
      exact ⟨flp.set.lStart, _, hheld hflpo (Nat.le_refl _) hflp, h.alone hflpo (Nat.le_refl _) hflp⟩
    | swallow hflpo hlo hhi hne => exact hgone _ rfl rfl hflpo
    | joinLeft hflpo hsame hlo hmid hhi => exact hgone _ rfl rfl hflpo
    | cut hflpo hdiff hlo hmid hhi =>
      by_cases htouch : flp.set.lEnd = a.ld.lStart
      · refine hgo _ rfl ?_ rfl rfl (show 1 ≠ ENOLCK by decide) ?_
        · rw [trim_touching htouch]
        · rintro rfl
          rcases hmeets with ⟨-, hlt⟩ | ⟨hsame, -⟩
          · omega
          · exact hdiff hsame
      · have hin : a.ld.lStart < flp.set.lEnd := by omega
        apply (hlater _ rfl).takes (hheld hflpo hlo.le hin)
        rintro ⟨g, hg, hgo, hglo, hghi, hgt⟩
        simp only [append_assoc, singleton_append, mem_append, mem_cons] at hg
        rcases hg with hg | rfl | hg
        · exact h.alone hflpo hlo.le hin ⟨g, mem_append_left _ hg, hgo, hglo, hghi, hgt⟩
        · simp only [trim] at hghi
          omega
        · exact h.alone hflpo hlo.le hin ⟨g, mem_append_right _ hg, hgo, hglo, hghi, hgt⟩
    | covered hflpo hsame hlo hhi => exact fun hfail => absurd hfail hrv
    | severFails hflpo hdiff hmid hhi hz =>
      exfalso
      rcases mem_cons.mp hf with rfl | hf'
      · exact hsevers ⟨hz, hdiff, hmid, hhi⟩
      · exact hpast hflpo hhi hf'
    | sever hflpo hdiff hmid hhi hz =>
      -- the first byte that both ranges have
      have hin : flp.set.lStart ≤ max a.ld.lStart flp.set.lStart ∧ max a.ld.lStart flp.set.lStart < flp.set.lEnd ∧
          a.ld.lStart ≤ max a.ld.lStart flp.set.lStart ∧ max a.ld.lStart flp.set.lStart < a.ld.lEnd := by
        omega
      generalize max a.ld.lStart flp.set.lStart = x at hin
      obtain ⟨hlo, hhi', hx, hx'⟩ := hin
      refine ⟨x, _, hheld hflpo hlo hhi', ?_⟩
      rintro ⟨g, hg, hgo, hglo, hghi, hgt⟩
      simp only [withSevered, mem_append, mem_cons] at hg
      have hothers (hg' : g ∈ a.passed ++ nflp) : False := h.alone hflpo hlo hhi' ⟨g, hg', hgo, hglo, hghi, hgt⟩
      rcases hg with (hg | hg) | hg | rfl | hg
      · exact hothers (mem_append_left _ hg)
      · split at hg
        · rw [mem_singleton] at hg
          subst hg
          simp only [trim] at hghi
          omega
        · cases hg
      · exact hothers (mem_append_right _ (mem_of_mem_take hg))
      · simp only [newFilock_lStart, severed] at hglo
        omega
      · exact hothers (mem_append_right _ (mem_of_mem_drop hg))

end Turn

section Calls

variable {n : ℕ}

theorem flckadj_fails_iff (hc : WellFormed c) (hlocks : ∀ f ∈ c, f.set.lType ≠ .unlck) (hld : ld.lStart < ld.lEnd)
    (hloc : Local ld cls) (hcall : AdjustCall c n ld (callerOwner ld cls upid))
    (hrv : (flckadj zalloc vp c n ld cls upid zcnt).rv = ENOLCK) :
    (∀ o x, lockAt (flckadj zalloc vp c n ld cls upid zcnt).chain o x = lockAt c o x) ↔
      ∀ f ∈ c, ¬Loses zalloc zcnt (callerOwner ld cls upid) ld f := by
  have hwhole : c.take (n - 1) ++ c.drop (n - 1) = c := take_append_drop ..
  have hshape : AdjShape (fun _ => false) vp cls (insertPid ld cls upid) (callerOwner ld cls upid)
      (c.drop (n - 1)) ⟨c.take (n - 1), n, ld, 0, zcnt⟩ :=
    hcall.shape hc hld (newFilock_owner hloc) fun hz => by cases hz
  have hresult : AdjustResult zalloc zcnt (callerOwner ld cls upid) ld c
      (flckadj zalloc vp c n ld cls upid zcnt) := flckadj_result hc hlocks hld hloc hcall
  -- the chain is the one that the walk has left
  have hcov : (flckadjLoop zalloc vp cls (insertPid ld cls upid) (callerOwner ld cls upid) (c.drop (n - 1))
      ⟨c.take (n - 1), n, ld, 0, zcnt⟩).Leaves zalloc (callerOwner ld cls upid)
      (c.take (n - 1) ++ c.drop (n - 1)) [] _ := hshape.loop_covers fun _ => newFilock_owner_of_owner
  have hchain : (flckadj zalloc vp c n ld cls upid zcnt).chain =
      (flckadjLoop zalloc vp cls (insertPid ld cls upid) (callerOwner ld cls upid) (c.drop (n - 1))
        ⟨c.take (n - 1), n, ld, 0, zcnt⟩).adj.passed := by
    unfold flckadj at hrv ⊢
    dsimp only at hrv ⊢
    generalize flckadjLoop zalloc vp cls (insertPid ld cls upid) (callerOwner ld cls upid) (c.drop (n - 1))
      ⟨c.take (n - 1), n, ld, 0, zcnt⟩ = r at hrv hcov
    have hle (a : Adj) (ha : a.rv = 0 ∨ a.rv = 1) : a.rv ≠ ENOLCK := by
      unfold ENOLCK
      omega
    cases r with
    | next a => exact flckadjInsert_fails (hle a hcov.2.1) hrv
    | stop a => exact flckadjInsert_fails (hle a hcov.2.1) hrv
    | ret a => rfl
  constructor
  · intro hsame f hf hloses
    have hahead : f ∈ c.drop (n - 1) := by
      rw [← hwhole, mem_append] at hf
      refine hf.resolve_left fun hbehind => ?_
      have hlt := hcall.behind f hbehind hloses.1
      rcases hloses.2.1 with ⟨-, hle⟩ | ⟨-, -, hle⟩
      · omega
      · omega
    have htakes : (flckadjLoop zalloc vp cls (insertPid ld cls upid) (callerOwner ld cls upid) (c.drop (n - 1))
        ⟨c.take (n - 1), n, ld, 0, zcnt⟩).Takes _ _ :=
      hshape.takes (fun _ => newFilock_owner_of_owner) (show 0 ≠ ENOLCK by decide) hahead hloses
    rw [hwhole] at htakes
    have hlost : ∃ x t, Holds c (callerOwner ld cls upid) x t ∧
        ¬Holds (flckadj zalloc vp c n ld cls upid zcnt).chain (callerOwner ld cls upid) x t := by
      rw [hchain]
      unfold flckadj at hrv
      dsimp only at hrv
      generalize flckadjLoop zalloc vp cls (insertPid ld cls upid) (callerOwner ld cls upid) (c.drop (n - 1))
        ⟨c.take (n - 1), n, ld, 0, zcnt⟩ = r at hrv htakes
      cases r with
      | next a => exact htakes
      | stop a => exact htakes
      | ret a => exact htakes hrv
    obtain ⟨x, t, hheld, hnot⟩ := hlost
    apply hnot
    apply holds_of_lockAt
    rw [hsame]
    exact hc.lockAt_eq_some_iff.mpr hheld
  · intro hno o x
    have hkeeps : (flckadjLoop zalloc vp cls (insertPid ld cls upid) (callerOwner ld cls upid) (c.drop (n - 1))
        ⟨c.take (n - 1), n, ld, 0, zcnt⟩).adj.passed = c.take (n - 1) ++ c.drop (n - 1) :=
      flckadjLoop_keeps hld (fun f hf => hc.nonempty f (mem_of_mem_drop hf))
        fun f hf => hno f (mem_of_mem_drop hf)
    rw [hchain, hkeeps, hwhole]

/-- There is one record only. -/
def oneRecord (n : ℕ) : Bool := n == 0

theorem reachable_oneWriter :
    ((flockSystem oneRecord).restrict (StepMeets oneRecord (neverMisplaces oneRecord))).Reachable oneWriter := by
  have hmeets : StepMeets oneRecord (neverMisplaces oneRecord) State.start
      (.setflck true 7 (fcntlRequest .wrlck 0 10 1 (by decide)) false 1) :=
    fun _ => ⟨fun _ hm => hm, fun hrv => absurd hrv.1 (by decide)⟩
  exact .step (.init rfl) ⟨hmeets, rfl⟩

end Calls

end Failing

end Osf1.Flock
