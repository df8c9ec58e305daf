import Osf1.Flock.Adjust

/-!
# What `blocked` finds on a sorted chain

`blocked` stops at the first record that starts past the end of the request, so it misses nothing on a sorted
chain: it finds a record exactly when some record of another owner conflicts with the request.
-/

set_option autoImplicit false

namespace Osf1.Flock

open List Option

section Blocked

open Osf1.Computation

variable {o : Owner} {ld : Eflock} {l : List Filock} {f : Filock}

theorem blockedRest_some (h : blockedRest o ld l = some f) : f ∈ l ∧ Conflicts o ld f := by
  induction l with
  | nil => cases h
  | cons g l ih =>
    rw [blockedRest] at h
    split at h
    · obtain rfl := some_inj.mp h
      exact ⟨mem_cons_self .., ‹_›⟩
    · split at h
      · cases h
      · exact ⟨mem_cons_of_mem _ (ih h).1, (ih h).2⟩

theorem blockedRest_none
    (hs : l.Pairwise fun f g => f.set.lStart ≤ g.set.lStart) (h : blockedRest o ld l = none) : ∀ f ∈ l, ¬Conflicts o ld f := by
  induction l with
  | nil => simp
  | cons g l ih =>
    rw [pairwise_cons] at hs
    rw [blockedRest] at h
    split at h
    · cases h
    rename_i hg
    intro f hf
    rcases mem_cons.mp hf with rfl | hf
    · exact hg
    split at h
    · -- everything behind starts past the end of the request
      have := hs.1 f hf
      rintro ⟨-, -, hlt, -⟩
      omega
    · exact ih hs.2 h f hf

theorem blockedFrom_some {n : ℕ} (h : (blockedFrom o ld l n).1 = some f) : f ∈ l ∧ Conflicts o ld f := by
  induction l generalizing n with
  | nil => cases h
  | cons g l ih =>
    rw [blockedFrom] at h
    split at h
    · split at h
      · exact blockedRest_some h
      · split at h
        · obtain rfl := some_inj.mp h
          exact ⟨mem_cons_self .., ‹_›⟩
        · exact ⟨mem_cons_of_mem _ (ih h).1, (ih h).2⟩
    · exact blockedRest_some h

/-- What the first loop of `blocked` has established about the records it has passed. -/
def BeforeRequest (o : Owner) (ld : Eflock) (f : Filock) : Prop :=
  f.set.lStart < ld.lStart ∧ ¬Conflicts o ld f ∧ (f.set.owner = o → f.set.lEnd < ld.lStart)

/-- The result of `blocked` on the chain `c`. -/
structure BlockedResult (o : Owner) (ld : Eflock) (c : List Filock)
    (r : Option Filock × ℕ) : Prop where
  free : r.1 = none → ∀ f ∈ c, ¬Conflicts o ld f
  le_length : r.2 ≤ c.length
  front : ∀ f ∈ c.take r.2, f.set.lStart < ld.lStart
  behind : ∀ f ∈ c.take (r.2 - 1), f.set.owner = o → f.set.lEnd < ld.lStart
  head : r.2 = 0 → ∀ f ∈ c, ld.lStart ≤ f.set.lStart

theorem blockedFrom_result (pre : List Filock) (hld : ld.lStart < ld.lEnd)
    (hs : (pre ++ l).Pairwise fun f g => f.set.lStart ≤ g.set.lStart) (hpre : ∀ f ∈ pre, BeforeRequest o ld f) :
    BlockedResult o ld (pre ++ l) (blockedFrom o ld l pre.length) := by
  induction l generalizing pre with
  | nil =>
    rw [append_nil, blockedFrom]
    refine ⟨fun _ f hf => (hpre f hf).2.1, le_rfl, ?_, ?_, ?_⟩
    · intro f hf
      exact (hpre f (mem_of_mem_take hf)).1
    · intro f hf
      exact (hpre f (mem_of_mem_take hf)).2.2
    · intro h0 f hf
      rw [length_eq_zero_iff.mp h0] at hf
      cases hf
  | cons g l ih =>
    have hrest : (g :: l).Pairwise fun f g => f.set.lStart ≤ g.set.lStart :=
      hs.sublist (sublist_append_right ..)
    -- the second loop leaves nothing behind, whether it starts at `g` for one reason or the other
    have hfree (h : blockedRest o ld (g :: l) = none) :
        ∀ f ∈ pre ++ g :: l, ¬Conflicts o ld f := by
      intro f hf
      rcases mem_append.mp hf with hf | hf
      · exact (hpre f hf).2.1
      · exact blockedRest_none hrest h f hf
    have hsplit : pre ++ g :: l = (pre ++ [g]) ++ l := by simp
    have htake : (pre ++ g :: l).take (pre.length + 1) = pre ++ [g] := by
      rw [hsplit, take_left' (by simp)]
    have hat (hlt : g.set.lStart < ld.lStart) (found : Option Filock)
        (hfound : found = none → ∀ f ∈ pre ++ g :: l, ¬Conflicts o ld f) :
        BlockedResult o ld (pre ++ g :: l) (found, pre.length + 1) := by
      refine ⟨hfound, by simp, ?_, ?_, fun h0 => by simp at h0⟩
      · intro f hf
        rw [htake, mem_append, mem_singleton] at hf
        rcases hf with hf | rfl
        · exact (hpre f hf).1
        · exact hlt
      · intro f hf
        rw [Nat.add_sub_cancel, take_left] at hf
        exact (hpre f hf).2.2
    rw [blockedFrom]
    split
    · rename_i hlt
      split
      · exact hat hlt _ hfree
      · rename_i htouch
        split
        · exact hat hlt _ fun h => by cases h
        · rename_i hconf
          have hg : BeforeRequest o ld g := by
            refine ⟨hlt, hconf, fun hown => ?_⟩
            by_contra hle
            exact htouch ⟨hown, by omega, by omega⟩
          have hnext := ih (pre ++ [g]) (by simpa using hs) fun f hf => by
            rw [mem_append, mem_singleton] at hf
            rcases hf with hf | rfl
            · exact hpre f hf
            · exact hg
          simpa using hnext
    · rename_i hge
      refine ⟨hfree, by simp, ?_, ?_, ?_⟩
      · intro f hf
        rw [take_left] at hf
        exact (hpre f hf).1
      · intro f hf
        rw [take_append_of_le_length (by simp)] at hf
        exact (hpre f (mem_of_mem_take hf)).2.2
      · intro h0 f hf
        rw [length_eq_zero_iff.mp h0, nil_append] at hf
        rcases mem_cons.mp hf with rfl | hf
        · omega
        · have := (pairwise_cons.mp hrest).1 f hf
          omega

variable {c : List Filock} {cls : LockClass} {upid : ℤ}

theorem blocked_result (hc : WellFormed c) (hld : ld.lStart < ld.lEnd) :
    BlockedResult (callerOwner ld cls upid) ld c (blocked c ld cls upid) := by
  have hrun : BlockedResult (callerOwner ld cls upid) ld ([] ++ c) _ :=
    blockedFrom_result [] hld (by simpa using hc.sorted) fun f hf => by cases hf
  exact hrun

theorem blocked_isSome_iff (hc : WellFormed c) (hld : ld.lStart < ld.lEnd) :
    (blocked c ld cls upid).1.isSome ↔ ∃ f ∈ c, Conflicts (callerOwner ld cls upid) ld f := by
  constructor
  · intro h
    obtain ⟨f, hf⟩ := isSome_iff_exists.mp h
    obtain ⟨hmem, hconf⟩ := blockedFrom_some hf
    exact ⟨f, hmem, hconf⟩
  · rintro ⟨f, hf, hconf⟩
    by_contra hnone
    rw [not_isSome_iff_eq_none] at hnone
    exact (blocked_result hc hld).free hnone f hf hconf

theorem blocked_adjustCall (hc : WellFormed c) (hld : ld.lStart < ld.lEnd) :
    AdjustCall c (blocked c ld cls upid).2 ld (callerOwner ld cls upid) where
  le_length := (blocked_result hc hld).le_length
  behind := (blocked_result hc hld).behind
  insrt _ :=
    { le_length := (blocked_result hc hld).le_length
      front := fun f hf => ((blocked_result hc hld).front f hf).le
      head := (blocked_result hc hld).head }

end Blocked

/-!
## The meaning of `flckadj`, byte by byte

`lockAt` is the type of lock that an owner has on a byte.
-/

section Pointwise

variable {zalloc : ℕ → Bool} {vp : Vnode} {cls : LockClass} {upid : ℤ} {o : Owner} {ld : Eflock} {zcnt : ℕ}
  {c c' : List Filock} {x : ℕ} {t : LockType}

/-- A record covers a byte for an owner. -/
def Filock.Covers (f : Filock) (o : Owner) (x : ℕ) : Prop := f.set.owner = o ∧ f.set.lStart ≤ x ∧ x < f.set.lEnd

instance (f : Filock) (o : Owner) (x : ℕ) : Decidable (f.Covers o x) := inferInstanceAs (Decidable (_ ∧ _ ∧ _))

/-- The type of the lock that an owner has on a byte: that of the first record that covers it. -/
def lockAt (c : List Filock) (o : Owner) (x : ℕ) : Option LockType :=
  (c.find? fun f => f.Covers o x).map fun f => f.set.lType

/-- The type of lock that a request is for, where an unlock is for none. -/
def Eflock.wants (ld : Eflock) : Option LockType := if ld.lType = .unlck then none else some ld.lType

theorem holds_of_lockAt (h : lockAt c o x = some t) : Holds c o x t := by
  obtain ⟨f, hfind, htype⟩ := map_eq_some_iff.mp h
  have hcovers := find?_some hfind
  rw [decide_eq_true_eq] at hcovers
  exact ⟨f, mem_of_find?_eq_some hfind, hcovers.1, hcovers.2.1, hcovers.2.2, htype⟩

theorem lockAt_ne_none (h : Holds c o x t) : lockAt c o x ≠ none := by
  obtain ⟨f, hf, hown, hlo, hhi, -⟩ := h
  intro hnone
  have hfind := map_eq_none_iff.mp hnone
  have hnot := find?_eq_none.mp hfind f hf
  rw [decide_eq_true_eq] at hnot
  exact hnot ⟨hown, hlo, hhi⟩

theorem lockAt_eq_some_iff (hone : ∀ t t', Holds c o x t → Holds c o x t' → t = t') :
    lockAt c o x = some t ↔ Holds c o x t := by
  constructor
  · exact holds_of_lockAt
  · intro h
    obtain ⟨t', ht'⟩ := ne_none_iff_exists'.mp (lockAt_ne_none h)
    rw [ht', hone t t' h (holds_of_lockAt ht')]

theorem WellFormed.lockAt_eq_some_iff (hc : WellFormed c) : lockAt c o x = some t ↔ Holds c o x t :=
  Flock.lockAt_eq_some_iff fun _ _ h h' => h.unique hc.ordered h'

theorem lockAt_congr (hc : WellFormed c) (h : ∀ t, Holds c' o x t ↔ Holds c o x t) : lockAt c' o x = lockAt c o x := by
  apply ext
  intro t
  rw [hc.lockAt_eq_some_iff, Flock.lockAt_eq_some_iff]
  · exact h t
  · intro t₁ t₂ h₁ h₂
    exact ((h t₁).mp h₁).unique hc.ordered ((h t₂).mp h₂)

theorem AdjustResult.holds_other {r : Adjusted} {o' : Owner} (h : AdjustResult zalloc zcnt o ld c r) (ho : o' ≠ o) :
    Holds r.chain o' x t ↔ Holds c o' x t := by
  constructor
  · rintro ⟨f, hf, hown, hrest⟩
    exact ⟨f, (h.others f (hown ▸ ho)).mp hf, hown, hrest⟩
  · rintro ⟨f, hf, hown, hrest⟩
    exact ⟨f, (h.others f (hown ▸ ho)).mpr hf, hown, hrest⟩

theorem Overwrites.lockAt_inside (h : Overwrites o ld c c') (hlo : ld.lStart ≤ x) (hhi : x < ld.lEnd) :
    lockAt c' o x = ld.wants := by
  apply ext
  intro t
  have hinside := fun t => h.inside x t hlo hhi
  rw [Flock.lockAt_eq_some_iff, hinside]
  · unfold Eflock.wants
    by_cases hun : ld.lType = .unlck
    · simp [hun]
    · simp [hun, eq_comm]
  · intro t₁ t₂ h₁ h₂
    rw [((hinside t₁).mp h₁).1, ((hinside t₂).mp h₂).1]

/-- `flckadj` sets the type of lock on the bytes of the request for its owner, and changes nothing else. -/
theorem flckadj_pointwise {n : ℕ} (hc : WellFormed c) (hlocks : ∀ f ∈ c, f.set.lType ≠ .unlck)
    (hld : ld.lStart < ld.lEnd) (hloc : Local ld cls) (hcall : AdjustCall c n ld (callerOwner ld cls upid))
    (hrv : (flckadj zalloc vp c n ld cls upid zcnt).rv ≠ ENOLCK) (o : Owner) (x : ℕ) :
    lockAt (flckadj zalloc vp c n ld cls upid zcnt).chain o x =
      if o = callerOwner ld cls upid ∧ ld.lStart ≤ x ∧ x < ld.lEnd then ld.wants else lockAt c o x := by
  have hresult : AdjustResult zalloc zcnt (callerOwner ld cls upid) ld c
      (flckadj zalloc vp c n ld cls upid zcnt) := flckadj_result hc hlocks hld hloc hcall
  have hover := hresult.done hrv
  by_cases hin : o = callerOwner ld cls upid ∧ ld.lStart ≤ x ∧ x < ld.lEnd
  · obtain ⟨rfl, hlo, hhi⟩ := hin
    rw [if_pos ⟨rfl, hlo, hhi⟩]
    exact hover.lockAt_inside hlo hhi
  · rw [if_neg hin]
    apply lockAt_congr hc
    intro t
    by_cases ho : o = callerOwner ld cls upid
    · subst ho
      apply hover.outside
      intro hbytes
      exact hin ⟨rfl, hbytes⟩
    · exact hresult.holds_other ho

/-- Process 1 writes bytes 0 to 20, and process 2 reads bytes 30 to 40. -/
def middleChain : List Filock :=
  [⟨⟨.wrlck, 0, 20, 1, 0, 0, 0⟩, .fileLock, 7, ⟨0, 0, 0⟩⟩, ⟨⟨.rdlck, 30, 40, 2, 0, 0, 0⟩, .fileLock, 7, ⟨0, 0, 0⟩⟩]

/-- Process 1 is going to read bytes 10 to 18 only. -/
def middleRequest : Eflock := ⟨.rdlck, 10, 18, 1, 0, 0, 0⟩

/-- A read lock in the middle of a write lock. -/
theorem flckadj_pointwise_middle :
    lockAt (flckadj (fun _ => true) 7 middleChain (blocked middleChain middleRequest .fileLock 1).2 middleRequest
      .fileLock 1 0).chain ⟨1, 0, 0⟩ 15 = some .rdlck := by
  have h : lockAt (flckadj (fun _ => true) 7 middleChain _ middleRequest .fileLock 1 0).chain ⟨1, 0, 0⟩ 15 = _ :=
    flckadj_pointwise ⟨by decide, by decide, by decide⟩ (by decide) (by decide) (fun _ => ⟨rfl, rfl⟩)
      (blocked_adjustCall ⟨by decide, by decide, by decide⟩ (by decide)) (by decide) ⟨1, 0, 0⟩ 15
  exact h

end Pointwise

/-!
## `blocked` is exact, and `flckadj` meets what it has to from there

The place that `blocked` leaves is where the walk of `flckadj` starts.
-/

section Reach

open Osf1.Computation

variable {zalloc : ℕ → Bool} {vp : Vnode} {cls : LockClass} {upid : ℤ} {o : Owner} {ld : Eflock} {zcnt : ℕ}
  {c : List Filock} {f : Filock}

/-- The records at which the walk of `flckadj` is, from `nflp` on. -/
def walkFrom (zalloc : ℕ → Bool) (vp : Vnode) (cls : LockClass) (upid : ℤ) (o : Owner) :
    List Filock → Adj → List Filock
  | [], _ => []
  | flp :: nflp, a =>
    flp :: match flckadjStep zalloc vp cls upid o flp nflp a with
      | .next a => walkFrom zalloc vp cls upid o nflp a
      | _ => []

/-- The records that a call of `flckadj` meets. -/
def flckadjMeets (zalloc : ℕ → Bool) (vp : Vnode) (c : List Filock) (insrtp : ℕ) (ld : Eflock) (cls : LockClass)
    (upid : ℤ) (zcnt : ℕ) : List Filock :=
  walkFrom zalloc vp cls (insertPid ld cls upid) (callerOwner ld cls upid) (c.drop (insrtp - 1))
    ⟨c.take (insrtp - 1), insrtp, ld, 0, zcnt⟩

/-- A record overlaps a request. -/
def Filock.Overlaps (f : Filock) (ld : Eflock) : Prop := f.set.lStart < ld.lEnd ∧ ld.lStart < f.set.lEnd

/-- A record touches or overlaps a request. -/
def Filock.Touches (f : Filock) (ld : Eflock) : Prop := f.set.lStart ≤ ld.lEnd ∧ ld.lStart ≤ f.set.lEnd

/-- The walk has stopped at the end of the request, at a record of the same type. -/
def EndsAt (o : Owner) (ld : Eflock) (l : List Filock) : Prop :=
  ∃ g ∈ l, g.set.owner = o ∧ g.set.lType = ld.lType ∧ g.Overlaps ld ∧ g.set.lEnd = ld.lEnd

theorem AdjShape.meets (hsev : ∀ td : Eflock, td.owner = o → (newFilock td vp cls upid).set.owner = o)
    {rest : List Filock} {a : Adj} (h : AdjShape (fun _ => false) vp cls upid o rest a) (hf : f ∈ rest)
    (hown : f.set.owner = o) (htouch : f.Touches a.ld) :
    f ∈ walkFrom zalloc vp cls upid o rest a ∨
      f.set.lStart = a.ld.lEnd ∧ ∃ g ∈ walkFrom zalloc vp cls upid o rest a, g.set.owner = o ∧
        g.set.lType = a.ld.lType ∧ g.set.lStart < a.ld.lEnd ∧ a.ld.lStart < g.set.lEnd ∧ g.set.lEnd = a.ld.lEnd := by
  induction rest generalizing a with
  | nil => cases hf
  | cons flp nflp ih =>
    rw [walkFrom]
    rcases mem_cons.mp hf with rfl | hf
    · exact .inl (mem_cons_self ..)
    obtain ⟨-, hr, -⟩ := pairwise_append_cons h.ordered
    have hprec := hr f hf
    have hrange := h.range
    obtain ⟨hstart, hend⟩ := htouch
    have hkind : AdjKind zalloc vp cls upid o flp nflp a _ := flckadjStep_kind hrange (h.nonempty flp (by simp))
    generalize flckadjStep zalloc vp cls upid o flp nflp a = r at hkind
    -- the walk goes on, with a request that ends where it did
    have hgo (a' : Adj) (hr' : r = .next a') (hlo : a'.ld.lStart ≤ a.ld.lStart) (hhi : a'.ld.lEnd = a.ld.lEnd)
        (htype : a'.ld.lType = a.ld.lType) :
        f ∈ flp :: walkFrom zalloc vp cls upid o nflp a' ∨
          f.set.lStart = a.ld.lEnd ∧ ∃ g ∈ flp :: walkFrom zalloc vp cls upid o nflp a', g.set.owner = o ∧
            g.set.lType = a.ld.lType ∧ g.set.lStart < a.ld.lEnd ∧ a.ld.lStart < g.set.lEnd ∧
            g.set.lEnd = a.ld.lEnd := by
      subst hr'
      have hshape : AdjShape (fun _ => false) vp cls upid o nflp a' := h.turn hsev hkind.of_next
      rcases ih hshape hf ⟨by omega, by omega⟩ with hmeets | ⟨hat, g, hg, hgo, hgt, hglo, -, hgend⟩
      · exact .inl (mem_cons_of_mem _ hmeets)
      · refine .inr ⟨by omega, g, mem_cons_of_mem _ hg, hgo, hgt.trans htype, by omega, by omega, by omega⟩
    cases hkind with
    | passOther hother hle => exact hgo _ rfl (Nat.le_refl _) rfl rfl
    | passOwn hflp hlt => exact hgo _ rfl (Nat.le_refl _) rfl rfl
    | halt hstop =>
      rcases hstop with hlt | ⟨hflp, -, heq⟩
      · have := hprec.1
        omega
      · have hpast := hprec.2 (hflp.trans hown.symm)
        have hflp' := h.nonempty flp (by simp)
        omega
    | joinRight hflp hsame heq =>
      -- the request ends later now, so that the record does not touch its end
      have hflp' := h.nonempty flp (by simp)
      have hpast := hprec.2 (hflp.trans hown.symm)
      omega
    | joinEnd hflp hsame hlo hmid hhi =>
      have hpast := hprec.2 (hflp.trans hown.symm)
      refine .inr ⟨by omega, flp, mem_cons_self .., hflp, hsame.symm, hmid, by omega, by omega⟩
    | swallow hflp hlo hhi hne => exact hgo _ rfl (Nat.le_refl _) rfl rfl
    | joinLeft hflp hsame hlo hmid hhi => exact hgo _ rfl (Nat.le_of_lt hlo) rfl rfl
    | cut hflp hdiff hlo hmid hhi => exact hgo _ rfl (Nat.le_refl _) rfl rfl
    | covered hflp hsame hlo hhi =>
      have hpast := hprec.2 (hflp.trans hown.symm)
      refine .inr ⟨by omega, flp, mem_cons_self .., hflp, hsame.symm, by omega, by omega, by omega⟩
    | severFails hflp hdiff hmid hhi hz =>
      have hpast := hprec.2 (hflp.trans hown.symm)
      omega
    | sever hflp hdiff hmid hhi hz =>
      have hpast := hprec.2 (hflp.trans hown.symm)
      omega

theorem AdjustCall.meets {n : ℕ} (h : AdjustCall c n ld (callerOwner ld cls upid)) (hc : WellFormed c)
    (hld : ld.lStart < ld.lEnd) (hloc : Local ld cls) (hf : f ∈ c)
    (hown : f.set.owner = callerOwner ld cls upid) (htouch : f.Touches ld) :
    f ∈ flckadjMeets zalloc vp c n ld cls upid zcnt ∨
      f.set.lStart = ld.lEnd ∧ EndsAt (callerOwner ld cls upid) ld (flckadjMeets zalloc vp c n ld cls upid zcnt) := by
  have hshape : AdjShape (fun _ => false) vp cls (insertPid ld cls upid) (callerOwner ld cls upid)
      (c.drop (n - 1)) ⟨c.take (n - 1), n, ld, 0, zcnt⟩ :=
    h.shape hc hld (newFilock_owner hloc) fun hz => by cases hz
  have hahead : f ∈ c.drop (n - 1) := by
    rw [← take_append_drop (n - 1) c, mem_append] at hf
    refine hf.resolve_left fun hbehind => ?_
    have hlt := h.behind f hbehind hown
    have hle := htouch.2
    omega
  rcases (hshape.meets (fun _ => newFilock_owner_of_owner) hahead hown htouch :
    f ∈ walkFrom zalloc _ _ _ _ _ _ ∨ _) with hmeets | ⟨hat, g, hg, hgo, hgt, hglo, hghi, hgend⟩
  · exact .inl hmeets
  · exact .inr ⟨hat, g, hg, hgo, hgt, ⟨hglo, hghi⟩, hgend⟩

/-- On a well-formed chain `blocked` finds a record exactly when some record conflicts with the request, and
otherwise it leaves a place from which `flckadj` meets all records that it has to. -/
theorem blocked_exact (hc : WellFormed c) (hlocks : ∀ f ∈ c, f.set.lType ≠ .unlck) (hld : ld.lStart < ld.lEnd)
    (hloc : Local ld cls) :
    ((blocked c ld cls upid).1 = none ↔
      ∀ f ∈ c, f.set.owner ≠ callerOwner ld cls upid → f.Overlaps ld → f.set.lType ≠ .wrlck ∧ ld.lType ≠ .wrlck) ∧
    ((blocked c ld cls upid).1 = none →
      ∀ f ∈ c, f.set.owner = callerOwner ld cls upid → f.Touches ld →
        f ∈ flckadjMeets zalloc vp c (blocked c ld cls upid).2 ld cls upid zcnt ∨
        f.set.lStart = ld.lEnd ∧ EndsAt (callerOwner ld cls upid) ld
          (flckadjMeets zalloc vp c (blocked c ld cls upid).2 ld cls upid zcnt)) := by
  constructor
  · rw [← not_isSome_iff_eq_none, blocked_isSome_iff hc hld]
    constructor
    · intro hnone f hf hown hover
      constructor
      · intro hwrite
        exact hnone ⟨f, hf, hown, hover.2, hover.1, .inl hwrite⟩
      · intro hwrite
        have hkind : f.set.lType = .wrlck ∨ (f.set.lType = .rdlck ∧ ld.lType = .wrlck) := by
          cases htype : f.set.lType with
          | rdlck => exact .inr ⟨rfl, hwrite⟩
          | wrlck => exact .inl rfl
          | unlck => exact absurd htype (hlocks f hf)
        exact hnone ⟨f, hf, hown, hover.2, hover.1, hkind⟩
    · rintro hfree ⟨f, hf, hown, hlo, hhi, hkind⟩
      obtain ⟨hread, hread'⟩ := hfree f hf hown ⟨hhi, hlo⟩
      rcases hkind with hwrite | ⟨-, hwrite⟩
      · exact hread hwrite
      · exact hread' hwrite
  · intro _ f hf hown htouch
    exact (blocked_adjustCall hc hld).meets hc hld hloc hf hown htouch

/-- Process 1 writes bytes 0 to 10 and bytes 10 to 20, with two records. -/
def splitChain : List Filock :=
  [⟨⟨.wrlck, 0, 10, 1, 0, 0, 0⟩, .fileLock, 7, ⟨0, 0, 0⟩⟩, ⟨⟨.wrlck, 10, 20, 1, 0, 0, 0⟩, .fileLock, 7, ⟨0, 0, 0⟩⟩]

theorem wellFormed_splitChain : WellFormed splitChain := ⟨by decide, by decide, by decide⟩

/-- Process 1 asks for bytes 5 to 15 once more, and the walk meets both of its records. -/
theorem blocked_exact_split :
    (blocked splitChain ⟨.wrlck, 5, 15, 1, 0, 0, 0⟩ .fileLock 1).1 = none ∧
      ∀ f ∈ splitChain, f ∈ flckadjMeets (fun _ => true) 7 splitChain
          (blocked splitChain ⟨.wrlck, 5, 15, 1, 0, 0, 0⟩ .fileLock 1).2 ⟨.wrlck, 5, 15, 1, 0, 0, 0⟩ .fileLock 1 0 ∨
        f.set.lStart = 15 ∧ EndsAt ⟨1, 0, 0⟩ ⟨.wrlck, 5, 15, 1, 0, 0, 0⟩
          (flckadjMeets (fun _ => true) 7 splitChain
            (blocked splitChain ⟨.wrlck, 5, 15, 1, 0, 0, 0⟩ .fileLock 1).2 ⟨.wrlck, 5, 15, 1, 0, 0, 0⟩ .fileLock 1 0) := by
  have hexact : (_ ↔ _) ∧ ((blocked splitChain ⟨.wrlck, 5, 15, 1, 0, 0, 0⟩ .fileLock 1).1 = none →
      ∀ f ∈ splitChain, _ → f.Touches ⟨.wrlck, 5, 15, 1, 0, 0, 0⟩ →
        f ∈ flckadjMeets (fun _ => true) 7 splitChain _ ⟨.wrlck, 5, 15, 1, 0, 0, 0⟩ .fileLock 1 0 ∨ _) :=
    blocked_exact wellFormed_splitChain (by decide) (by decide) fun _ => ⟨rfl, rfl⟩
  have hnone := hexact.1.mpr (by
    intro f hf hown
    exact absurd ((by decide : ∀ f ∈ splitChain, f.set.owner = ⟨1, 0, 0⟩) f hf) hown)
  refine ⟨hnone, fun f hf => ?_⟩
  have hmine : ∀ f ∈ splitChain, f.set.owner = ⟨1, 0, 0⟩ ∧ f.set.lStart ≤ 15 ∧ 5 ≤ f.set.lEnd := by decide
  obtain ⟨hown, htouch⟩ := hmine f hf
  exact hexact.2 hnone f hf hown htouch

/-- Process 1 asks for bytes 0 to 10 once more: the walk stops at the first record, and does not meet the second,
which touches the request. -/
theorem blocked_misses_touching :
    ¬∀ (c : List Filock) (ld : Eflock) (cls : LockClass) (upid : ℤ), WellFormed c → ld.lStart < ld.lEnd →
      Local ld cls → (blocked c ld cls upid).1 = none →
      ∀ f ∈ c, f.set.owner = callerOwner ld cls upid → f.Touches ld →
        f ∈ flckadjMeets (fun _ => true) 7 c (blocked c ld cls upid).2 ld cls upid 0 := by
  intro hall
  have hmeets := hall splitChain ⟨.wrlck, 0, 10, 1, 0, 0, 0⟩ .fileLock 1 wellFormed_splitChain (by decide)
    (fun _ => ⟨rfl, rfl⟩) (by decide) ⟨⟨.wrlck, 10, 20, 1, 0, 0, 0⟩, .fileLock, 7, ⟨0, 0, 0⟩⟩ (by decide)
    (by decide) ⟨by decide, by decide⟩
  exact absurd hmeets (by decide)

end Reach

end Osf1.Flock
