import Osf1.Flock.Blocked
import Osf1.Flock.System

/-!
# Record-lock exclusion

No two owners hold conflicting locks on a byte, in every state that is reached without a severed piece being
misplaced. The invariant is that every chain is well formed and exclusive and that every entry of `sleeplcks`
is a request that could be granted as it stands.
-/

set_option autoImplicit false

namespace Osf1.Flock

open Function List

section Exclusion

open Osf1.Computation

variable {zalloc : ℕ → Bool} {cls : LockClass} {s : State}

/-- Two records of different owners that overlap are both read locks. -/
def Exclusive (c : List Filock) : Prop :=
  ∀ f ∈ c, ∀ g ∈ c, f.set.owner ≠ g.set.owner → f.set.lStart < g.set.lEnd →
    g.set.lStart < f.set.lEnd → f.set.lType ≠ .wrlck ∧ g.set.lType ≠ .wrlck

/-- What holds of every chain. -/
structure ChainInv (c : List Filock) : Prop where
  wellFormed : WellFormed c
  locks : ∀ f ∈ c, f.set.lType ≠ .unlck
  exclusive : Exclusive c

/-- What holds of every entry of `sleeplcks`. -/
structure Waiting (sf : Filock) : Prop where
  nonempty : sf.set.lStart < sf.set.lEnd
  loc : Local sf.set sf.cls
  lock : sf.set.lType ≠ .unlck

theorem chainInv_nil : ChainInv [] where
  wellFormed := ⟨.nil, by simp, .nil⟩
  locks := by simp
  exclusive := by simp [Exclusive]

theorem ChainInv.filter {c : List Filock} (h : ChainInv c) (keep : Filock → Bool) : ChainInv (c.filter keep) := by
  have hsub : (c.filter keep).Sublist c := filter_sublist
  refine ⟨⟨h.wellFormed.sorted.sublist hsub, ?_, h.wellFormed.disjoint.sublist hsub⟩, ?_, ?_⟩
  · intro f hf
    exact h.wellFormed.nonempty f (hsub.subset hf)
  · intro f hf
    exact h.locks f (hsub.subset hf)
  · intro f hf g hg
    exact h.exclusive f (hsub.subset hf) g (hsub.subset hg)

theorem callerOwner_self {ld : Eflock} (h : Local ld cls) : callerOwner ld cls ld.lPid = ld.owner := by
  by_cases hc : cls = .lockmgr
  · simp [callerOwner, hc]
  · obtain ⟨hp, hs⟩ := h hc
    simp [callerOwner, hc, Eflock.owner, hp, hs]

section Adjust

variable {c : List Filock} {o : Owner} {ld : Eflock} {zcnt : ℕ} {r : Adjusted}

variable (h : AdjustResult zalloc zcnt o ld c r)
include h

theorem AdjustResult.origin {f : Filock} (hf : f ∈ r.chain) (hfo : f.set.owner = o) {x : ℕ} (hlo : f.set.lStart ≤ x)
    (hhi : x < f.set.lEnd) :
    (ld.lStart ≤ x ∧ x < ld.lEnd ∧ f.set.lType = ld.lType ∧ ld.lType ≠ .unlck) ∨
      Holds c o x f.set.lType := by
  have hx : Holds r.chain o x f.set.lType := ⟨f, hf, hfo, hlo, hhi, rfl⟩
  by_cases hrv : r.rv = ENOLCK
  · exact .inr ((h.failed hrv).1 x _ hx)
  · have hdone := h.done hrv
    by_cases hin : ld.lStart ≤ x ∧ x < ld.lEnd
    · exact .inl ⟨hin.1, hin.2, (hdone.inside x _ hin.1 hin.2).mp hx⟩
    · exact .inr ((hdone.outside x _ hin).mp hx)

theorem AdjustResult.locks (hlocks : ∀ f ∈ c, f.set.lType ≠ .unlck)
    (hne : ∀ f ∈ r.chain, f.set.lStart < f.set.lEnd) : ∀ f ∈ r.chain, f.set.lType ≠ .unlck := by
  intro f hf
  by_cases hfo : f.set.owner = o
  · rcases h.origin hf hfo le_rfl (hne f hf) with hin | ⟨g, hg, -, -, -, hgt⟩
    · exact hin.2.2.1 ▸ hin.2.2.2
    · exact hgt ▸ hlocks g hg
  · exact hlocks f ((h.others f hfo).mp hf)

theorem AdjustResult.exclusive (hc : ChainInv c) (hfree : ld.lType ≠ .unlck → ∀ f ∈ c, ¬Conflicts o ld f)
    (hne : ∀ f ∈ r.chain, f.set.lStart < f.set.lEnd) : Exclusive r.chain := by
  -- one record of the owner against one of somebody else
  have hmixed (f g : Filock) (hf : f ∈ r.chain) (hg : g ∈ r.chain) (hfo : f.set.owner = o)
      (hgo : g.set.owner ≠ o) (hfg : f.set.lStart < g.set.lEnd)
      (hgf : g.set.lStart < f.set.lEnd) :
      f.set.lType ≠ .wrlck ∧ g.set.lType ≠ .wrlck := by
    have hg' : g ∈ c := (h.others g hgo).mp hg
    have hfne := hne f hf
    have hgne := hne g hg
    have hx : f.set.lStart ≤ max f.set.lStart g.set.lStart ∧
        g.set.lStart ≤ max f.set.lStart g.set.lStart ∧
        max f.set.lStart g.set.lStart < f.set.lEnd ∧
        max f.set.lStart g.set.lStart < g.set.lEnd := by omega
    rcases h.origin hf hfo hx.1 hx.2.2.1 with ⟨hlo, hhi, htype, hlk⟩ | ⟨f', hf', hfo', hlo, hhi, ht⟩
    · have hno := hfree hlk g hg'
      have hover : ld.lStart < g.set.lEnd ∧ g.set.lStart < ld.lEnd := by omega
      have hgw : g.set.lType ≠ .wrlck := fun hw => hno ⟨hgo, hover.1, hover.2, .inl hw⟩
      refine ⟨fun hw => ?_, hgw⟩
      cases ht : g.set.lType with
      | rdlck => exact hno ⟨hgo, hover.1, hover.2, .inr ⟨ht, htype ▸ hw⟩⟩
      | wrlck => exact hgw ht
      | unlck => exact hc.locks g hg' ht
    · have hne' : f'.set.owner ≠ g.set.owner := fun heq => hgo (heq.symm.trans hfo')
      have := hc.exclusive f' hf' g hg' hne' (by omega) (by omega)
      exact ⟨ht ▸ this.1, this.2⟩
  intro f hf g hg hfg h1 h2
  by_cases hfo : f.set.owner = o
  · have hgo : g.set.owner ≠ o := fun hgo => hfg (hfo.trans hgo.symm)
    exact hmixed f g hf hg hfo hgo h1 h2
  · by_cases hgo : g.set.owner = o
    · have := hmixed g f hg hf hgo hfo h2 h1
      exact ⟨this.2, this.1⟩
    · exact hc.exclusive f ((h.others f hfo).mp hf) g ((h.others g hgo).mp hg) hfg h1 h2

end Adjust

theorem flckadj_chainInv {c : List Filock} {n : ℕ} {ld : Eflock} {pid : ℤ}
    {vp : Vnode} {zcnt : ℕ} (hc : ChainInv c) (hld : ld.lStart < ld.lEnd)
    (hloc : Local ld cls) (hcall : CallerPlace c ld cls pid n)
    (hz : zalloc zcnt = true → ¬Misplaces (callerOwner ld cls pid) ld c) :
    ChainInv (flckadj zalloc vp c n ld cls pid zcnt).chain ∧
      AdjustResult zalloc zcnt (callerOwner ld cls pid) ld c
        (flckadj zalloc vp c n ld cls pid zcnt) := by
  have hplace : AdjustCall c n ld (callerOwner ld cls pid) := by
    rcases hcall with h | h
    · have hb : AdjustCall c (blocked c ld cls pid).2 ld (callerOwner ld cls pid) :=
        blocked_adjustCall hc.wellFormed hld
      rwa [h.2] at hb
    · rw [h.2]
      exact AdjustCall.head h.1
  have hfree (hlk : ld.lType ≠ .unlck) : ∀ f ∈ c, ¬Conflicts (callerOwner ld cls pid) ld f := by
    rcases hcall with h | h
    · have hb : BlockedResult (callerOwner ld cls pid) ld c (blocked c ld cls pid) :=
        blocked_result hc.wellFormed hld
      rw [h.2] at hb
      exact hb.free rfl
    · exact absurd h.1 hlk
  have hres : AdjustResult zalloc zcnt (callerOwner ld cls pid) ld c
      (flckadj zalloc vp c n ld cls pid zcnt) :=
    flckadj_result hc.wellFormed hc.locks hld hloc hplace
  have hwf : WellFormed (flckadj zalloc vp c n ld cls pid zcnt).chain :=
    flckadj_wellFormed hc.wellFormed hld hloc hplace hz
  exact ⟨⟨hwf, hres.locks hc.locks hwf.nonempty, hres.exclusive hc hfree hwf.nonempty⟩, hres⟩

/-- What holds in every state of a run that misplaces nothing. -/
structure LockInv (s : State) : Prop where
  chain : ∀ vp, ChainInv (s.chain vp)
  waiting : ∀ sf ∈ s.sleeplcks, Waiting sf

/-- No severed piece is misplaced, neither for the request of a step nor for one that
`chk_granted` grants. -/
def neverMisplaces (zalloc : ℕ → Bool) : Conditions where
  adjust s vp ld cls pid := zalloc s.zcnt = true → ¬Misplaces (callerOwner ld cls pid) ld (s.chain vp)
  turn vp sf _ p :=
    sf.vp = vp → sf.cls ≠ .ioLock → (blocked p.chain sf.set sf.cls sf.set.lPid).1 = none →
      zalloc p.zcnt = true → ¬Misplaces sf.set.owner sf.set p.chain
  enqueue _ _ _ := True

section Pass

variable {vp : Vnode} {sf : Filock} {nsf : List Filock} {p : Pass}

theorem grant_chainInv (hc : ChainInv p.chain) (hw : Waiting sf)
    (hb : (blocked p.chain sf.set sf.cls sf.set.lPid).1 = none)
    (hz : zalloc p.zcnt = true → ¬Misplaces sf.set.owner sf.set p.chain) {r : Adjusted}
    (hr : r = flckadj zalloc vp p.chain (blocked p.chain sf.set sf.cls sf.set.lPid).2
      sf.set sf.cls sf.set.lPid p.zcnt) :
    ChainInv r.chain ∧ AdjustResult zalloc p.zcnt sf.set.owner sf.set p.chain r := by
  have hown := callerOwner_self hw.loc
  have hcall : CallerPlace p.chain sf.set sf.cls sf.set.lPid
      (blocked p.chain sf.set sf.cls sf.set.lPid).2 := .inl ⟨hw.lock, Prod.ext hb rfl⟩
  have hres : ChainInv (flckadj zalloc vp _ _ _ _ _ p.zcnt).chain ∧ AdjustResult zalloc _ _ _ _ _ :=
    flckadj_chainInv hc hw.nonempty hw.loc hcall (hown.symm ▸ hz)
  rw [hown, ← hr] at hres
  exact hres

theorem Waiting.widened (hw : Waiting sf) {ld : Eflock} (htype : ld.lType = sf.set.lType)
    (hown : ld.owner = sf.set.owner) (hwide : ld.lStart ≤ sf.set.lStart ∧ sf.set.lEnd ≤ ld.lEnd) :
    Waiting { sf with set := ld } := by
  have hne := hw.nonempty
  refine ⟨by show ld.lStart < ld.lEnd; omega, fun hc => ?_, fun hu => ?_⟩
  · simp only [Eflock.owner, Owner.mk.injEq] at hown
    obtain ⟨hp, hs⟩ := hw.loc hc
    exact ⟨hown.2.1.trans hp, hown.2.2.trans hs⟩
  · exact hw.lock (htype.symm.trans hu)

theorem chkGrantedLoop_lockInv {cls : LockClass} {q : List Filock} (hc : ChainInv p.chain)
    (hw : ∀ sf ∈ p.kept ++ q, Waiting sf) (hK : PassMeets zalloc vp cls ((neverMisplaces zalloc).turn vp) q p) :
    ChainInv (chkGrantedLoop zalloc vp cls q p).chain ∧
      ∀ sf ∈ (chkGrantedLoop zalloc vp cls q p).kept, Waiting sf := by
  have hrun := chkGrantedLoop_invariant zalloc
    (I := fun q p => ChainInv p.chain ∧ ∀ sf ∈ p.kept ++ q, Waiting sf) ?_ ⟨hc, hw⟩ hK
  · simpa using hrun
  intro sf nsf p r hI hC hk
  obtain ⟨hc, hw⟩ := hI
  have hsf : Waiting sf := hw sf (by simp)
  have hkeep (f : Filock) (hf : f ∈ p.kept ++ nsf) : Waiting f := by
    apply hw f
    rw [mem_append] at hf ⊢
    exact hf.imp_right (mem_cons_of_mem _)
  cases hk with
  | other hvp => exact ⟨hc, by simpa using hw⟩
  | redirect hvp found hb =>
    refine ⟨hc, fun f hf => ?_⟩
    simp only [append_assoc, singleton_append, mem_append, mem_cons] at hf
    rcases hf with hf | rfl | hf
    · exact hkeep f (mem_append_left _ hf)
    · exact ⟨hsf.nonempty, hsf.loc, hsf.lock⟩
    · exact hkeep f (mem_append_right _ hf)
  | wake hvp hb hio => exact ⟨hc, hkeep⟩
  | grant hvp hb hio r hr hrv p' hchain hkept =>
    obtain ⟨hci, -⟩ := grant_chainInv hc hsf hb (hC hvp hio hb) hr
    exact ⟨hchain ▸ hci, by rw [hkept]; exact hkeep⟩
  | fail hvp hb hio r hr hrv p' hchain hkept =>
    obtain ⟨hci, hres⟩ := grant_chainInv hc hsf hb (hC hvp hio hb) hr
    refine ⟨hchain ▸ hci, fun f hf => ?_⟩
    rw [hkept] at hf
    simp only [append_nil, mem_append, mem_cons] at hf
    rcases hf with hf | rfl | hf
    · exact hkeep f (mem_append_left _ hf)
    · exact hsf.widened hres.type hres.owner hres.wide
    · exact hkeep f (mem_append_right _ hf)

end Pass

theorem LockInv.chkGranted (h : LockInv s) {vp : Vnode} (hK : GrantsMeet zalloc (neverMisplaces zalloc) vp cls s) :
    LockInv (chkGranted zalloc vp cls s).1 := by
  obtain ⟨hc, hw⟩ := chkGrantedLoop_lockInv (p := Pass.start vp s) (h.chain vp)
    (by simpa [Pass.start] using h.waiting) hK
  refine ⟨fun v => ?_, hw⟩
  by_cases hv : v = vp
  · subst hv
    simpa [Flock.chkGranted] using hc
  · simpa [Flock.chkGranted, hv] using h.chain v

theorem LockInv.update (h : LockInv s) {vp : Vnode} {c : List Filock} (hc : ChainInv c) (zcnt : ℕ) :
    LockInv { s with chain := update s.chain vp c, zcnt := zcnt } := by
  refine ⟨fun v => ?_, h.waiting⟩
  by_cases hv : v = vp
  · subst hv
    simpa using hc
  · simpa [hv] using h.chain v

theorem waiting_new {rq : Request} (htype : rq.ld.lType ≠ .unlck) (vp : Vnode) (pid : ℤ)
    (blk : Owner) : Waiting { newFilock rq.ld vp rq.cls pid with blk := blk } := by
  refine ⟨by simpa using rq.nonempty, fun hc => ?_, by simpa using htype⟩
  have hcls : rq.cls ≠ .lockmgr := hc
  simpa [newFilock, hcls] using rq.loc hcls

theorem LockInv.step {s t : State} (h : LockInv s)
    (he : Effect zalloc (neverMisplaces zalloc) s t) : LockInv t := by
  cases he with
  | adjust vp n rq pid hcall hK =>
    obtain ⟨hadj, hgr⟩ := hK
    have hci : ChainInv (flckadj zalloc vp _ _ _ _ _ _).chain ∧ _ :=
      flckadj_chainInv (h.chain vp) rq.nonempty rq.loc hcall hadj
    have hmid : LockInv (adjusted vp
        (flckadj zalloc vp (s.chain vp) n rq.ld rq.cls pid s.zcnt) s) := h.update hci.1 _
    unfold adjustAndGrant
    simp only
    split
    · exact hmid.chkGranted (hgr ‹_›)
    · exact hmid
  | enqueue vp rq pid found htype hb hdead hK =>
    refine ⟨h.chain, fun sf hsf => ?_⟩
    rw [mem_append, mem_singleton] at hsf
    rcases hsf with hsf | hsf
    · exact h.waiting sf hsf
    · subst hsf
      exact waiting_new htype vp pid _
  | release vp cls del always hK =>
    have hmid : LockInv (released vp del s) := h.update ((h.chain vp).filter _) _
    unfold releaseIf
    split
    · exact hmid.chkGranted (hK ‹_›)
    · exact hmid
  | dequeue t hchain hsleep =>
    exact ⟨hchain ▸ h.chain, fun sf hsf => h.waiting sf (hsleep.subset hsf)⟩

theorem lockInv_reachable
    (h : ((flockSystem zalloc).restrict (StepMeets zalloc (neverMisplaces zalloc))).Reachable s) : LockInv s := by
  apply h.invariant
  · rintro s rfl
    exact ⟨fun _ => chainInv_nil, by simp [State.start]⟩
  · intro s e t _ hs hstep
    exact hs.step (step_effect hstep.2 hstep.1)

/-- A request made by `fcntl`. -/
def fcntlRequest (t : LockType) (lStart lEnd : ℕ) (pid : ℤ)
    (h : lStart < lEnd ∧ lEnd ≤ MAXEND) : Request where
  ld := ⟨t, lStart, lEnd, pid, 0, 0, 0⟩
  cls := .fileLock
  nonempty := h.1
  le_maxend := h.2
  loc _ := ⟨rfl, rfl⟩

/-- Process 1 has a write lock on bytes 0 to 10. -/
def oneWriter : State :=
  ⟨update (fun _ => []) 7
    [⟨⟨.wrlck, 0, 10, 1, 0, 0, 0⟩, .fileLock, 7, ⟨0, 0, 0⟩⟩], [], [], [], 1⟩

/-- The steps that are calls of `setflck`. -/
def IsSetflck : Event → Prop
  | .setflck .. => True
  | _ => False

end Exclusion

/-!
## No lost grant

Every request on `sleeplcks` is blocked, in every state that is reached by steps that misplace no severed
piece, that find a record whenever the requester has a lock to lose, and whose grants downgrade no write lock
of the owner they are made to.
-/

section Grants

open Osf1.Computation

variable {zalloc : ℕ → Bool} {cls : LockClass} {upid : ℤ} {s : State}

/-- Some record of another owner keeps the request out. -/
def Stuck (c : List Filock) (sf : Filock) : Prop := ∃ f ∈ c, Conflicts sf.set.owner sf.set f

/-- The owner's locks have grown or become write locks, and nobody else's have changed. -/
structure Dominates (o : Owner) (c c' : List Filock) : Prop where
  others : ∀ f, f.set.owner ≠ o → (f ∈ c' ↔ f ∈ c)
  grown : ∀ x t, Holds c o x t → Holds c' o x t ∨ Holds c' o x .wrlck

theorem Stuck.mono {o : Owner} {c c' : List Filock} {sf : Filock} (h : Stuck c sf)
    (hd : Dominates o c c') (hsf : sf.set.lStart < sf.set.lEnd)
    (hc : ∀ f ∈ c, f.set.lStart < f.set.lEnd) : Stuck c' sf := by
  obtain ⟨f, hf, hne, h1, h2, htype⟩ := h
  by_cases hfo : f.set.owner = o
  swap
  · exact ⟨f, (hd.others f hfo).mpr hf, hne, h1, h2, htype⟩
  have hfne := hc f hf
  -- a byte that both ranges share
  have hx : f.set.lStart ≤ max f.set.lStart sf.set.lStart ∧
      max f.set.lStart sf.set.lStart < f.set.lEnd ∧
      sf.set.lStart ≤ max f.set.lStart sf.set.lStart ∧
      max f.set.lStart sf.set.lStart < sf.set.lEnd := by omega
  generalize max f.set.lStart sf.set.lStart = x at hx
  have hheld : Holds c o x f.set.lType := ⟨f, hf, hfo, hx.1, hx.2.1, rfl⟩
  rcases hd.grown x _ hheld with ⟨g, hg, hgo, hlo, hhi, hgt⟩ | ⟨g, hg, hgo, hlo, hhi, hgt⟩
  · exact ⟨g, hg, by rwa [hgo, ← hfo], by omega, by omega, hgt ▸ htype⟩
  · exact ⟨g, hg, by rwa [hgo, ← hfo], by omega, by omega, .inl hgt⟩

theorem Dominates.refl (o : Owner) (c : List Filock) : Dominates o c c := ⟨fun _ _ => Iff.rfl, fun _ _ h => .inl h⟩

section Adjust

variable {c : List Filock} {o : Owner} {ld : Eflock} {zcnt : ℕ} {r : Adjusted}

theorem AdjustResult.dominates_wrlck (h : AdjustResult zalloc zcnt o ld c r)
    (hrv : r.rv ≠ ENOLCK) (hw : ld.lType = .wrlck) : Dominates o c r.chain := by
  have hdone := h.done hrv
  refine ⟨h.others, fun x t ht => ?_⟩
  by_cases hin : ld.lStart ≤ x ∧ x < ld.lEnd
  · exact .inr ((hdone.inside x _ hin.1 hin.2).mpr ⟨hw.symm, by simp [hw]⟩)
  · exact .inl ((hdone.outside x t hin).mpr ht)

theorem AdjustResult.dominates_rdlck (h : AdjustResult zalloc zcnt o ld c r)
    (hrv : r.rv ≠ ENOLCK) (hr : ld.lType = .rdlck) (hlocks : ∀ f ∈ c, f.set.lType ≠ .unlck)
    (hno : ∀ f ∈ c, f.set.owner = o → f.set.lType = .wrlck →
      f.set.lEnd ≤ ld.lStart ∨ ld.lEnd ≤ f.set.lStart) : Dominates o c r.chain := by
  have hdone := h.done hrv
  refine ⟨h.others, fun x t ht => .inl ?_⟩
  by_cases hin : ld.lStart ≤ x ∧ x < ld.lEnd
  · obtain ⟨f, hf, hfo, hlo, hhi, rfl⟩ := ht
    have hread : f.set.lType = .rdlck := by
      cases hft : f.set.lType with
      | rdlck => rfl
      | wrlck =>
        have := hno f hf hfo hft
        omega
      | unlck => exact absurd hft (hlocks f hf)
    exact (hdone.inside x _ hin.1 hin.2).mpr ⟨hread.trans hr.symm, by simp [hr]⟩
  · exact (hdone.outside x t hin).mpr ht

end Adjust

/-- The owner's record meets the request, even at an end, and is not just the one whose
severing fails for want of a record. -/
def Touches (zalloc : ℕ → Bool) (zcnt : ℕ) (o : Owner) (ld : Eflock) (f : Filock) : Prop :=
  f.set.owner = o ∧ ld.lStart ≤ f.set.lEnd ∧ f.set.lStart ≤ ld.lEnd ∧
    ¬(zalloc zcnt = false ∧ ld.lType ≠ f.set.lType ∧ f.set.lStart < ld.lEnd ∧ ld.lEnd < f.set.lEnd)

theorem flckadjLoop_untouched {vp : Vnode} {o : Owner} {rest : List Filock} {a : Adj} (hld : a.ld.lStart < a.ld.lEnd)
    (hne : ∀ f ∈ rest, f.set.lStart < f.set.lEnd) (hno : ∀ f ∈ rest, ¬Touches zalloc a.zcnt o a.ld f) :
    (∃ a', flckadjLoop zalloc vp cls upid o rest a = .stop a' ∧ a'.passed = a.passed ++ rest ∧ a'.rv = a.rv) ∨
      ∃ a', flckadjLoop zalloc vp cls upid o rest a = .ret a' ∧
        a'.passed = a.passed ++ rest := by
  induction rest generalizing a with
  | nil => exact .inl ⟨a, rfl, by simp, rfl⟩
  | cons flp nflp ih =>
    have hflp := hne flp (mem_cons_self ..)
    have hflp' := hno flp (mem_cons_self ..)
    have hkind : AdjKind zalloc vp cls upid o flp nflp a _ := flckadjStep_kind hld hflp
    rw [flckadjLoop]
    generalize flckadjStep zalloc vp cls upid o flp nflp a = r at hkind
    have hgo (insrtp : ℕ) := ih (a := ⟨a.passed ++ [flp], insrtp, a.ld, a.rv, a.zcnt⟩) hld
      (fun f hf => hne f (mem_cons_of_mem _ hf))
      (fun f hf => hno f (mem_cons_of_mem _ hf))
    simp only [append_assoc, singleton_append] at hgo
    have hsafe (hown : flp.set.owner = o) (hlo : a.ld.lStart ≤ flp.set.lEnd)
        (hhi : flp.set.lStart ≤ a.ld.lEnd) : zalloc a.zcnt = false ∧
          a.ld.lType ≠ flp.set.lType ∧ flp.set.lStart < a.ld.lEnd ∧
          a.ld.lEnd < flp.set.lEnd := by
      by_contra hnot
      exact hflp' ⟨hown, hlo, hhi, hnot⟩
    cases hkind with
    | passOther hown hle => exact hgo a.insrtp
    | passOwn hown hlt => exact hgo (a.passed.length + 1)
    | halt hstop => exact .inl ⟨_, rfl, rfl, rfl⟩
    | joinRight hown hsame heq => exact absurd hsame (hsafe hown (by omega) (by omega)).2.1
    | joinEnd hown hsame hlo hmid hhi =>
      exact absurd hsame (hsafe hown (by omega) (by omega)).2.1
    | swallow hown hlo hhi hdiff =>
      have := hsafe hown (by omega) (by omega)
      omega
    | joinLeft hown hsame hlo hmid hhi =>
      exact absurd hsame (hsafe hown (by omega) (by omega)).2.1
    | cut hown hdiff hlo hmid hhi =>
      have := hsafe hown (by omega) (by omega)
      omega
    | covered hown hsame hlo hhi =>
      exact absurd hsame (hsafe hown (by omega) (by omega)).2.1
    | severFails hown hdiff hmid hhi hz => exact .inr ⟨_, rfl, rfl⟩
    | sever hown hdiff hmid hhi hz =>
      have := (hsafe hown (by omega) (by omega)).1
      rw [hz] at this
      cases this

theorem flckadj_untouched {vp : Vnode} {c : List Filock} {n : ℕ}
    {ld : Eflock} {zcnt : ℕ} (hc : WellFormed c) (hld : ld.lStart < ld.lEnd)
    (hno : ∀ f ∈ c, ¬Touches zalloc zcnt (callerOwner ld cls upid) ld f)
    (hrv : (flckadj zalloc vp c n ld cls upid zcnt).rv = ENOLCK) :
    (flckadj zalloc vp c n ld cls upid zcnt).chain = c := by
  have hwhole : c.take (n - 1) ++ c.drop (n - 1) = c := take_append_drop ..
  have hloop : (∃ a', flckadjLoop zalloc vp cls (insertPid ld cls upid)
      (callerOwner ld cls upid) (c.drop (n - 1)) ⟨c.take (n - 1), n, ld, 0, zcnt⟩ = .stop a' ∧ _ ∧ _) ∨ _ :=
    flckadjLoop_untouched hld (fun f hf => hc.nonempty f (mem_of_mem_drop hf))
      (fun f hf => hno f (mem_of_mem_drop hf))
  simp only [flckadj] at hrv ⊢
  rcases hloop with ⟨a, ha, hp, hr⟩ | ⟨a, ha, hp⟩
  · rw [ha] at hrv ⊢
    simp only at hp hr hrv ⊢
    have hne : a.rv ≠ ENOLCK := by
      rw [hr]
      decide
    by_cases hlk : a.ld.lType = .unlck
    · simp only [flckadjInsert, hlk, ne_eq, not_true_eq_false, if_false] at hrv
      exact absurd hrv hne
    · cases hz : zalloc a.zcnt with
      | false => simpa [flckadjInsert, hlk, insflck, hz] using hp.trans hwhole
      | true =>
        simp only [flckadjInsert, hlk, ne_eq, not_false_eq_true, if_true, insflck, hz] at hrv
        exact absurd hrv hne
  · rw [ha]
    exact hp.trans hwhole

/-- What a run is asked to meet so that no grant is lost: no severed piece is misplaced;
`ZALLOC` fails a request only if its owner has no record that the request meets, and never
fails a grant; and no read request is granted to an owner with a write lock in its range. -/
def losesNoGrant (zalloc : ℕ → Bool) : Conditions where
  adjust s vp ld cls pid :=
    (neverMisplaces zalloc).adjust s vp ld cls pid ∧
      ∀ n, CallerPlace (s.chain vp) ld cls pid n →
        Allocated zalloc s.zcnt (flckadj zalloc vp (s.chain vp) n ld cls pid s.zcnt).zcnt ∨
          ∀ f ∈ s.chain vp, ¬Touches zalloc s.zcnt (callerOwner ld cls pid) ld f
  turn vp sf nsf p :=
    (neverMisplaces zalloc).turn vp sf nsf p ∧
      (sf.vp = vp → sf.cls ≠ .ioLock → (blocked p.chain sf.set sf.cls sf.set.lPid).1 = none →
        Allocated zalloc p.zcnt (flckadj zalloc vp p.chain
          (blocked p.chain sf.set sf.cls sf.set.lPid).2 sf.set sf.cls sf.set.lPid p.zcnt).zcnt ∧
        (sf.set.lType = .rdlck → ∀ f ∈ p.chain, f.set.owner = sf.set.owner →
          f.set.lType = .wrlck → f.set.lEnd ≤ sf.set.lStart ∨ sf.set.lEnd ≤ f.set.lStart))
  enqueue _ _ _ := True

section Pass

variable {vp : Vnode}

/-- In mid-pass: what holds of the chain and the entries, every entry kept so far for the
vnode is blocked, and so is every entry for another vnode. -/
structure PassInv (vp : Vnode) (s : State) (q : List Filock) (p : Pass) : Prop where
  chain : ChainInv p.chain
  waiting : ∀ sf ∈ p.kept ++ q, Waiting sf
  here : ∀ sf ∈ p.kept, sf.vp = vp → Stuck p.chain sf
  elsewhere : ∀ sf ∈ p.kept ++ q, sf.vp ≠ vp → Stuck (s.chain sf.vp) sf

theorem grant_dominates {sf : Filock} {p : Pass} {r : Adjusted} (hc : ChainInv p.chain)
    (hw : Waiting sf) (hres : AdjustResult zalloc p.zcnt sf.set.owner sf.set p.chain r) (hrv : r.rv ≠ ENOLCK)
    (hno : sf.set.lType = .rdlck → ∀ f ∈ p.chain, f.set.owner = sf.set.owner →
      f.set.lType = .wrlck → f.set.lEnd ≤ sf.set.lStart ∨ sf.set.lEnd ≤ f.set.lStart) :
    Dominates sf.set.owner p.chain r.chain := by
  cases ht : sf.set.lType with
  | rdlck => exact hres.dominates_rdlck hrv ht hc.locks (hno ht)
  | wrlck => exact hres.dominates_wrlck hrv ht
  | unlck => exact absurd ht hw.lock

theorem PassInv.turn {s : State} {sf : Filock} {nsf : List Filock} {p : Pass} {r : PassNext}
    (h : PassInv vp s (sf :: nsf) p) (hC : (losesNoGrant zalloc).turn vp sf nsf p)
    (hk : TurnKind zalloc vp sf nsf p r) : r.Keeps (PassInv vp s) nsf := by
  obtain ⟨hmis, hgrant⟩ := hC
  have hsf : Waiting sf := h.waiting sf (by simp)
  have hmem (f : Filock) (hf : f ∈ p.kept ++ nsf) : f ∈ p.kept ++ sf :: nsf := by
    rw [mem_append] at hf ⊢
    exact hf.imp_right (mem_cons_of_mem _)
  cases hk with
  | other hvp =>
    refine ⟨h.chain, by simpa using h.waiting, ?_, by simpa using h.elsewhere⟩
    intro f hf hfv
    rw [mem_append, mem_singleton] at hf
    rcases hf with hf | hf
    · exact h.here f hf hfv
    · exact absurd (hf ▸ hfv) hvp
  | redirect hvp found hb =>
    have hstuck : Stuck p.chain sf := by
      obtain ⟨hf, hconf⟩ := blockedFrom_some hb
      rw [callerOwner_self hsf.loc] at hconf
      exact ⟨found, hf, hconf⟩
    refine ⟨h.chain, ?_, ?_, ?_⟩
    · intro f hf
      simp only [append_assoc, singleton_append, mem_append, mem_cons] at hf
      rcases hf with hf | rfl | hf
      · exact h.waiting f (hmem f (mem_append_left _ hf))
      · exact ⟨hsf.nonempty, hsf.loc, hsf.lock⟩
      · exact h.waiting f (hmem f (mem_append_right _ hf))
    · intro f hf hfv
      rw [mem_append, mem_singleton] at hf
      rcases hf with hf | hf
      · exact h.here f hf hfv
      · subst hf
        exact hstuck
    · intro f hf hfv
      simp only [append_assoc, singleton_append, mem_append, mem_cons] at hf
      rcases hf with hf | rfl | hf
      · exact h.elsewhere f (hmem f (mem_append_left _ hf)) hfv
      · exact absurd hvp hfv
      · exact h.elsewhere f (hmem f (mem_append_right _ hf)) hfv
  | wake hvp hb hio =>
    exact ⟨h.chain, fun f hf => h.waiting f (hmem f hf), h.here, fun f hf => h.elsewhere f (hmem f hf)⟩
  | grant hvp hb hio r hr hrv p' hchain hkept =>
    obtain ⟨hci, hres⟩ := grant_chainInv h.chain hsf hb (hmis hvp hio hb) hr
    have hdom := grant_dominates h.chain hsf hres hrv (hgrant hvp hio hb).2
    refine ⟨hchain ▸ hci, ?_, ?_, ?_⟩
    · intro f hf
      rw [hkept] at hf
      exact h.waiting f (hmem f hf)
    · intro f hf hfv
      rw [hkept] at hf
      rw [hchain]
      exact (h.here f hf hfv).mono hdom (h.waiting f (mem_append_left _ hf)).nonempty
        h.chain.wellFormed.nonempty
    · intro f hf
      rw [hkept] at hf
      exact h.elsewhere f (hmem f hf)
  | fail hvp hb hio r hr hrv p' hchain hkept =>
    obtain ⟨-, hres⟩ := grant_chainInv h.chain hsf hb (hmis hvp hio hb) hr
    rw [hr] at hrv hres
    exact absurd (hgrant hvp hio hb).1 (hres.failed hrv).2

end Pass

/-- What holds in every state of a run that loses no grant. -/
structure GrantInv (s : State) : Prop where
  lock : LockInv s
  stuck : ∀ sf ∈ s.sleeplcks, Stuck (s.chain sf.vp) sf

theorem chkGranted_grantInv {vp : Vnode} (h : LockInv s) (helse : ∀ sf ∈ s.sleeplcks, sf.vp ≠ vp → Stuck (s.chain sf.vp) sf)
    (hK : GrantsMeet zalloc (losesNoGrant zalloc) vp cls s) : GrantInv (chkGranted zalloc vp cls s).1 := by
  have hstart : PassInv vp s s.sleeplcks (Pass.start vp s) :=
    ⟨h.chain vp, by simpa [Pass.start] using h.waiting, by simp [Pass.start], by simpa [Pass.start] using helse⟩
  have hrun := chkGrantedLoop_invariant zalloc (I := PassInv vp s)
    (fun sf nsf p r hI hC hk => hI.turn hC hk) hstart hK
  generalize hp : chkGrantedLoop zalloc vp cls s.sleeplcks (Pass.start vp s) = p at hrun
  have hres : (chkGranted zalloc vp cls s).1 =
      ⟨update s.chain vp p.chain, p.kept, p.grantlcks, p.klmlcks, p.zcnt⟩ := by
    rw [chkGranted, hp]
  rw [hres]
  refine ⟨⟨fun v => ?_, by simpa using hrun.waiting⟩, fun sf hsf => ?_⟩
  · by_cases hv : v = vp
    · subst hv
      simpa using hrun.chain
    · simpa [hv] using h.chain v
  · by_cases hv : sf.vp = vp
    · have := hrun.here sf hsf hv
      simpa [hv] using this
    · have := hrun.elsewhere sf (by simpa using hsf) hv
      simpa [hv] using this

theorem GrantInv.of_dominates (h : GrantInv s) {vp : Vnode} {o : Owner}
    {c : List Filock} (hc : ChainInv c) (hd : Dominates o (s.chain vp) c) (zcnt : ℕ) :
    GrantInv { s with chain := update s.chain vp c, zcnt := zcnt } := by
  refine ⟨h.lock.update hc zcnt, fun sf hsf => ?_⟩
  have hst := h.stuck sf hsf
  by_cases hv : sf.vp = vp
  · rw [hv] at hst
    have := hst.mono hd (h.lock.waiting sf hsf).nonempty (h.lock.chain vp).wellFormed.nonempty
    simpa [hv] using this
  · simpa [hv] using hst

theorem GrantInv.step {s t : State} (h : GrantInv s)
    (he : Effect zalloc (losesNoGrant zalloc) s t) : GrantInv t := by
  have helse {vp : Vnode} (c : List Filock) (sf : Filock) (hsf : sf ∈ s.sleeplcks)
      (hv : sf.vp ≠ vp) : Stuck (update s.chain vp c sf.vp) sf := by
    rw [update_of_ne hv]
    exact h.stuck sf hsf
  cases he with
  | adjust vp n rq pid hcall hK =>
    obtain ⟨⟨hmis, hall⟩, hgr⟩ := hK
    obtain ⟨hci, hres⟩ : ChainInv (flckadj zalloc vp _ _ _ _ _ _).chain ∧
        AdjustResult zalloc _ _ _ _ (flckadj zalloc vp _ _ _ _ _ _) :=
      flckadj_chainInv (h.lock.chain vp) rq.nonempty rq.loc hcall hmis
    unfold adjustAndGrant
    simp only
    generalize hr : flckadj zalloc vp (s.chain vp) n rq.ld rq.cls pid s.zcnt = r at hci hres hgr
    split
    · rename_i hcond
      apply chkGranted_grantInv (h.lock.update hci r.zcnt) _ (hgr hcond)
      intro sf hsf hv
      exact helse r.chain sf hsf hv
    · rename_i hcond
      have hdom : Dominates (callerOwner rq.ld rq.cls pid) (s.chain vp) r.chain := by
        by_cases hrv : r.rv = ENOLCK
        · rcases hall n hcall with ha | hno
          · exact absurd (hr ▸ ha) (hres.failed hrv).2
          · have hsame : (flckadj zalloc vp _ n rq.ld rq.cls pid s.zcnt).chain = _ :=
              flckadj_untouched (h.lock.chain vp).wellFormed rq.nonempty hno (hr ▸ hrv)
            rw [hr] at hsame
            rw [hsame]
            exact Dominates.refl _ _
        · rcases hres.rv with h0 | h1 | hbad
          · exact ⟨hres.others, fun x t ht => .inl (hres.kept h0 x t ht)⟩
          · have hw : rq.ld.lType = .wrlck := by
              by_contra hw
              exact hcond ⟨h1, fun hw' => hw (hres.type.symm.trans hw')⟩
            exact hres.dominates_wrlck hrv hw
          · exact absurd hbad hrv
      exact h.of_dominates hci hdom r.zcnt
  | enqueue vp rq pid found htype hb hdead hK =>
    refine ⟨⟨h.lock.chain, fun sf hsf => ?_⟩, fun sf hsf => ?_⟩
    · rw [mem_append, mem_singleton] at hsf
      rcases hsf with hsf | hsf
      · exact h.lock.waiting sf hsf
      · subst hsf
        exact waiting_new htype vp pid _
    · rw [mem_append, mem_singleton] at hsf
      rcases hsf with hsf | hsf
      · exact h.stuck sf hsf
      · subst hsf
        obtain ⟨hf, hconf⟩ := blockedFrom_some hb
        refine ⟨found, hf, ?_⟩
        have hown : (newFilock rq.ld vp rq.cls pid).set.owner =
            callerOwner rq.ld rq.cls pid := newFilock_owner_caller rq.loc
        simpa [Conflicts, hown] using hconf
  | release vp cls del always hK =>
    have hmid : LockInv (released vp del s) := h.lock.update ((h.lock.chain vp).filter _) _
    unfold releaseIf
    split
    · rename_i hcond
      apply chkGranted_grantInv hmid _ (hK hcond)
      intro sf hsf hv
      exact helse _ sf hsf hv
    · rename_i hcond
      have hsame : (s.chain vp).filter (fun f => !del f) = s.chain vp := by
        rw [filter_eq_self]
        intro f hf
        by_contra hdel
        exact hcond (.inr (any_eq_true.mpr ⟨f, hf, by simpa using hdel⟩))
      refine ⟨hmid, fun sf hsf => ?_⟩
      have hst := h.stuck sf hsf
      simpa [released, hsame] using hst
  | dequeue t hchain hsleep =>
    refine ⟨⟨hchain ▸ h.lock.chain, fun sf hsf => h.lock.waiting sf (hsleep.subset hsf)⟩, ?_⟩
    intro sf hsf
    rw [hchain]
    exact h.stuck sf (hsleep.subset hsf)

/-- No lost grant: in every state that is reached by steps that lose none, `blocked` finds
a record for every request on `sleeplcks`. -/
theorem sleeplcks_blocked {s : State}
    (h : ((flockSystem zalloc).restrict (StepMeets zalloc (losesNoGrant zalloc))).Reachable s) :
    ∀ sf ∈ s.sleeplcks, (blocked (s.chain sf.vp) sf.set sf.cls sf.set.lPid).1.isSome := by
  have hinv : GrantInv s := by
    apply h.invariant
    · rintro s rfl
      exact ⟨⟨fun _ => chainInv_nil, by simp [State.start]⟩, by simp [State.start]⟩
    · intro s e t _ hs hstep
      exact hs.step (step_effect hstep.2 hstep.1)
  intro sf hsf
  have hw := hinv.lock.waiting sf hsf
  rw [blocked_isSome_iff (hinv.lock.chain sf.vp).wellFormed hw.nonempty, callerOwner_self hw.loc]
  exact hinv.stuck sf hsf

/-- Process 1 has a write lock on bytes 0 to 10 and process 2 waits for one. -/
def oneWaiter : State :=
  { oneWriter with
    sleeplcks := [⟨⟨.wrlck, 0, 10, 2, 0, 0, 0⟩, .fileLock, 7, ⟨1, 0, 0⟩⟩], zcnt := 2 }

theorem sleeplcks_blocked_oneWaiter : oneWaiter.sleeplcks.length = 1 ∧ ∀ sf ∈ oneWaiter.sleeplcks,
    (blocked (oneWaiter.chain sf.vp) sf.set sf.cls sf.set.lPid).1.isSome := by
  have hfirst : StepMeets (fun _ => true) (losesNoGrant fun _ => true) State.start
      (.setflck true 7 (fcntlRequest .wrlck 0 10 1 (by decide)) true 1) := by
    refine fun _ => ⟨⟨fun _ hm => hm, fun _ _ => .inr ?_⟩, fun hrv => absurd hrv.1 (by decide)⟩
    simp [State.start]
  have hsecond : StepMeets (fun _ => true) (losesNoGrant fun _ => true) oneWriter
      (.setflck true 7 (fcntlRequest .wrlck 0 10 2 (by decide)) true 2) :=
    fun _ _ => trivial
  have hreach : ((flockSystem fun _ => true).restrict
      (StepMeets (fun _ => true) (losesNoGrant fun _ => true))).Reachable oneWaiter :=
    .step (.step (.init rfl) ⟨hfirst, (rfl : step _ _ _ = some oneWriter)⟩) ⟨hsecond, rfl⟩
  exact ⟨rfl, sleeplcks_blocked hreach⟩

/-- Process 1 writes bytes 0 to 10 and process 2 bytes 10 to 20; process 3 waits to read 0
to 10 and process 1 to read 0 to 20.  When process 2 unlocks, `chk_granted` passes process 3
by, which process 1 blocks, and then gives process 1 its read lock, which blocks process 3
no more. -/
theorem sleeplcks_not_blocked :
    ¬∀ (zalloc : ℕ → Bool) (s : State),
      ((flockSystem zalloc).restrict fun _ e => IsSetflck e).Reachable s →
        ∀ sf ∈ s.sleeplcks, (blocked (s.chain sf.vp) sf.set sf.cls sf.set.lPid).1.isSome := by
  intro h
  have hrun : (System.runFrom (step fun _ => true) State.start
      [.setflck true 7 (fcntlRequest .wrlck 0 10 1 (by decide)) true 1,
       .setflck true 7 (fcntlRequest .wrlck 10 20 2 (by decide)) true 2,
       .setflck true 7 (fcntlRequest .rdlck 0 10 3 (by decide)) true 3,
       .setflck true 7 (fcntlRequest .rdlck 0 20 1 (by decide)) true 1,
       .setflck true 7 (fcntlRequest .unlck 10 20 2 (by decide)) true 2]).map
        (fun t => t.sleeplcks.map fun sf =>
          (sf.set.lPid, (blocked (t.chain sf.vp) sf.set sf.cls sf.set.lPid).1.isSome)) =
      some [(3, false)] := by
    decide
  obtain ⟨t, ht, hsleep⟩ := Option.map_eq_some_iff.mp hrun
  have hreach : ((flockSystem fun _ => true).restrict fun _ e => IsSetflck e).Reachable t := by
    apply System.Reachable.runFrom_restrict (.init rfl) _ ht
    apply System.MeetsAlong.of_forall
    simp [IsSetflck]
  have hmem : ((3 : ℤ), false) ∈ t.sleeplcks.map fun sf =>
      (sf.set.lPid, (blocked (t.chain sf.vp) sf.set sf.cls sf.set.lPid).1.isSome) := by
    rw [hsleep]
    exact mem_cons_self ..
  obtain ⟨sf, hsf, hq⟩ := mem_map.mp hmem
  have hsome := h _ t hreach sf hsf
  simp only [Prod.mk.injEq] at hq
  rw [hq.2] at hsome
  cases hsome

end Grants

end Osf1.Flock
