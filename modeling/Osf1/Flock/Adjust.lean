import Osf1.Flock.AdjustShape

/-!
# `flckadj` keeps a chain well formed exactly when it misplaces nothing

`AdjustCall` is what the callers of `flckadj` promise: `setflck` and `chk_granted` pass the
place that `blocked` found for a lock, and the head of the chain for an unlock.
-/

set_option autoImplicit false

namespace Osf1.Flock

open List

section Adjust

open Osf1.Computation

variable {zalloc : ℕ → Bool} {vp : Vnode} {cls : LockClass} {upid : ℤ} {o : Owner} {c l : List Filock} {n zcnt : ℕ}

/-- What `flckadj` relies on about the record it starts from. -/
structure AdjustCall (c : List Filock) (insrtp : ℕ) (ld : Eflock) (o : Owner) : Prop where
  le_length : insrtp ≤ c.length
  behind : ∀ f ∈ c.take (insrtp - 1), f.set.owner = o → f.set.lEnd < ld.lStart
  insrt : ld.lType ≠ .unlck → InsertPoint c insrtp ld.lStart

theorem AdjustCall.head {ld : Eflock} (h : ld.lType = .unlck) : AdjustCall c (flFlck c) ld o where
  le_length := by
    unfold flFlck
    split
    · exact Nat.zero_le _
    · exact length_pos_iff.mpr ‹_›
  behind f hf := by
    have hzero : flFlck c - 1 = 0 := by
      unfold flFlck
      split <;> rfl
    simp [hzero] at hf
  insrt hne := absurd h hne

theorem misplaces_append {ld : Eflock} (l' : List Filock) (hld : ld.lStart < ld.lEnd)
    (h : ∀ f ∈ l, f.set.owner = o → f.set.lEnd < ld.lStart) : Misplaces o ld (l ++ l') ↔ Misplaces o ld l' := by
  induction l with
  | nil => rfl
  | cons f l ih =>
    have hf := h f (mem_cons_self ..)
    have hl := ih fun g hg => h g (mem_cons_of_mem _ hg)
    rw [cons_append, Misplaces, hl]
    refine ⟨?_, .inr⟩
    rintro (⟨hown, -, -, hend, -⟩ | hm)
    · have := hf hown
      omega
    · exact hm

theorem AdjustCall.misplaces_iff {ld : Eflock} (h : AdjustCall c n ld o) (hld : ld.lStart < ld.lEnd) :
    Misplaces o ld (c.drop (n - 1)) ↔ Misplaces o ld c := by
  have := misplaces_append (c.drop (n - 1)) hld h.behind
  rw [take_append_drop] at this
  exact this.symm

theorem Misplaces.severed {ld : Eflock} (h : Misplaces o ld l) :
    ∃ g ∈ l, g.set.owner = o ∧ ld.lType ≠ g.set.lType ∧ g.set.lStart < ld.lEnd ∧
      ld.lEnd < g.set.lEnd := by
  induction l with
  | nil => exact h.elim
  | cons f l ih =>
    rcases h with ⟨hown, hdiff, hlt, hgt, -⟩ | h
    · exact ⟨f, mem_cons_self .., hown, hdiff, hlt, hgt⟩
    · obtain ⟨g, hg, hrest⟩ := ih h
      exact ⟨g, mem_cons_of_mem _ hg, hrest⟩

theorem Misplaces.of_earlier {ld ld' : Eflock} (h : Misplaces o ld l) (htype : ld'.lType = ld.lType) (hend : ld'.lEnd = ld.lEnd)
    (hstart : ld'.lStart ≤ ld.lStart) : Misplaces o ld' l := by
  induction l with
  | nil => exact h
  | cons f l ih =>
    rcases h with ⟨hown, hdiff, hlt, hgt, e, he, hlo, hhi⟩ | h
    · exact .inl ⟨hown, htype ▸ hdiff, hend ▸ hlt, hend ▸ hgt, e, he, by omega, hend ▸ hhi⟩
    · exact .inr (ih h)

section Walk

variable {flp : Filock} {nflp : List Filock} {a : Adj}

theorem AdjustCall.shape {c : List Filock} {n : ℕ} {ld : Eflock} {zcnt : ℕ}
    (h : AdjustCall c n ld o) (hc : WellFormed c) (hld : ld.lStart < ld.lEnd)
    (hmine : (newFilock ld vp cls upid).set.owner = o) (hz : zalloc zcnt = true → ¬Misplaces o ld c) :
    AdjShape zalloc vp cls upid o (c.drop (n - 1)) ⟨c.take (n - 1), n, ld, 0, zcnt⟩ where
  ordered := by simpa using hc.ordered
  nonempty := by simpa using hc.nonempty
  range := hld
  behind f hf hfo := (h.behind f hf hfo).le
  placed hz' hm := hz hz' ((h.misplaces_iff hld).mp hm)
  insrt hlk := by
    have hle := h.le_length
    refine ⟨by simpa using h.insrt hlk, ?_⟩
    show n ≤ (c.take (n - 1)).length + 1
    rw [length_take]
    omega
  mine := hmine

theorem AdjDone.insert (h : AdjDone vp cls upid o a) :
    (flckadjInsert zalloc vp cls upid a).chain.Pairwise Precedes ∧
      ∀ f ∈ (flckadjInsert zalloc vp cls upid a).chain, f.set.lStart < f.set.lEnd := by
  have hrange := h.range
  unfold flckadjInsert
  by_cases hlk : a.ld.lType = .unlck
  · simpa [hlk] using ⟨h.ordered, h.nonempty⟩
  simp only [ne_eq, hlk, not_false_eq_true, if_true, insflck]
  by_cases hz : zalloc a.zcnt = true
  swap
  · simpa [hz] using ⟨h.ordered, h.nonempty⟩
  simp only [hz, if_true]
  set n := if a.insrtp = 0 then 0
    else a.insrtp - 1 + scanFrom a.ld.lStart (a.passed.drop (a.insrtp - 1)) with hn
  have hsorted : a.passed.Pairwise fun f g => f.set.lStart ≤ g.set.lStart := h.ordered.imp fun hfg => hfg.1
  -- what is in front of the new record starts no later, what is behind it no earlier
  have hplace : (∀ f ∈ a.passed.take n, f.set.lStart ≤ a.ld.lStart) ∧
      ∀ f ∈ a.passed.drop n, a.ld.lStart ≤ f.set.lStart := by
    have hip := h.insrt hlk
    by_cases h0 : a.insrtp = 0
    · have hn0 : n = 0 := by simp [hn, h0]
      rw [hn0]
      exact ⟨by simp, by simpa using hip.head h0⟩
    · rw [hn, if_neg h0]
      exact hip.scan hsorted h0
  constructor
  · refine pairwise_insert.mpr ⟨h.ordered, ?_, ?_⟩
    · intro f hf
      refine ⟨by simpa using hplace.1 f hf, fun heq => ?_⟩
      have hle := hplace.1 f hf
      have hap := h.apart f (mem_of_mem_take hf) (heq.trans h.mine)
      simp only [newFilock_lStart]
      omega
    · intro f hf
      refine ⟨by simpa using hplace.2 f hf, fun heq => ?_⟩
      have hne := h.nonempty f (mem_of_mem_drop hf)
      have hle := hplace.2 f hf
      have hap := h.apart f (mem_of_mem_drop hf) (heq.symm.trans h.mine)
      simp only [newFilock_lEnd]
      omega
  · intro f hf
    rw [mem_append, mem_cons] at hf
    rcases hf with hf | rfl | hf
    · exact h.nonempty f (mem_of_mem_take hf)
    · simpa using hrange
    · exact h.nonempty f (mem_of_mem_drop hf)

theorem flckadjInsert_unsorted (h : ¬a.passed.Pairwise fun f g => f.set.lStart ≤ g.set.lStart) :
    ¬(flckadjInsert zalloc vp cls upid a).chain.Pairwise
      fun f g => f.set.lStart ≤ g.set.lStart := by
  by_cases hlk : a.ld.lType = .unlck
  · simpa [flckadjInsert, hlk] using h
  · cases hz : zalloc a.zcnt with
    | false => simpa [flckadjInsert, hlk, insflck, hz] using h
    | true =>
      simp only [flckadjInsert, ne_eq, hlk, not_false_eq_true, if_true, insflck, hz]
      exact fun hp => h (pairwise_insert.mp hp).1

theorem unsorted_withSevered {ld : Eflock} {e : Filock} (he : e ∈ nflp)
    (hlo : ld.lStart ≤ e.set.lStart) (hhi : e.set.lStart < ld.lEnd) :
    ¬(withSevered vp cls upid ld flp nflp).Pairwise
      fun f g => f.set.lStart ≤ g.set.lStart := by
  intro hp
  have hmem : e ∈ nflp.drop (scanFrom ld.lStart (flp :: nflp) - 1) := by
    rw [← take_append_drop (scanFrom ld.lStart (flp :: nflp) - 1) nflp, mem_append] at he
    refine he.resolve_left fun he => ?_
    by_cases hlt : flp.set.lStart < ld.lStart
    · have hscan : scanFrom ld.lStart (flp :: nflp) - 1 =
          (nflp.takeWhile fun f => f.set.lStart < ld.lStart).length := by
        unfold scanFrom
        rw [takeWhile_cons_of_pos (by simpa using hlt), length_cons]
        omega
      rw [hscan] at he
      have := lt_of_mem_take_takeWhile (fun f : Filock => f.set.lStart) he
      omega
    · have hscan : scanFrom ld.lStart (flp :: nflp) - 1 = 0 := by
        unfold scanFrom
        rw [takeWhile_cons_of_neg (by simpa using hlt)]
        rfl
      simp [hscan] at he
  have := (pairwise_insert.mp hp).2.2 e hmem
  simp only [newFilock_lStart, severed] at this
  omega

theorem AdjKind.of_next {zalloc' : ℕ → Bool} {a' : Adj} (h : AdjKind zalloc vp cls upid o flp nflp a (.next a')) :
    AdjKind zalloc' vp cls upid o flp nflp a (.next a') := by
  cases h with
  | passOther hown hle => exact .passOther hown hle
  | passOwn hown hlt => exact .passOwn hown hlt
  | joinRight hown hsame heq => exact .joinRight hown hsame heq
  | swallow hown hlo hhi hne => exact .swallow hown hlo hhi hne
  | joinLeft hown hsame hlo hmid hhi => exact .joinLeft hown hsame hlo hmid hhi
  | cut hown hdiff hlo hmid hhi => exact .cut hown hdiff hlo hmid hhi

theorem AdjShape.misplaced {rest : List Filock} {a : Adj} (h : AdjShape (fun _ => false) vp cls upid o rest a)
    (hsev : ∀ td : Eflock, td.owner = o → (newFilock td vp cls upid).set.owner = o)
    (hz : zalloc a.zcnt = true) (hm : Misplaces o a.ld rest) :
    ∃ a', flckadjLoop zalloc vp cls upid o rest a = .stop a' ∧
      ¬a'.passed.Pairwise fun f g => f.set.lStart ≤ g.set.lStart := by
  induction rest generalizing a with
  | nil => exact hm.elim
  | cons flp nflp ih =>
    obtain ⟨-, hr, -⟩ := pairwise_append_cons h.ordered
    have hrange := h.range
    have hflp := h.nonempty flp (by simp)
    have hkind : AdjKind zalloc vp cls upid o flp nflp a _ := flckadjStep_kind hrange hflp
    -- no record of the owner behind one that reaches the end of the request is severed
    have hpast (hown : flp.set.owner = o) (hend : a.ld.lEnd ≤ flp.set.lEnd) :
        ¬Misplaces o a.ld nflp := by
      intro hm'
      obtain ⟨g, hg, hgo, -, hlt, -⟩ := hm'.severed
      have := (hr g hg).2 (hown.trans hgo.symm)
      omega
    rw [flckadjLoop]
    generalize flckadjStep zalloc vp cls upid o flp nflp a = r at hkind
    have hnext (a' : Adj) (hr : r = .next a') :
        AdjShape (fun _ => false) vp cls upid o nflp a' := by
      subst hr
      exact h.turn hsev hkind.of_next
    cases hkind with
    | passOther hown hle =>
      rcases hm with ⟨hown', -⟩ | hm
      · exact absurd hown' hown
      · exact ih (hnext _ rfl) hz hm
    | passOwn hown hlt =>
      rcases hm with ⟨-, -, -, hend, -⟩ | hm
      · omega
      · exact ih (hnext _ rfl) hz hm
    | halt hstop =>
      have hle : a.ld.lEnd ≤ flp.set.lStart := by
        rcases hstop with hlt | ⟨-, -, heq⟩ <;> omega
      rcases hm with ⟨-, -, hlt, -⟩ | hm
      · omega
      · obtain ⟨g, hg, -, -, hlt, -⟩ := hm.severed
        have := (hr g hg).1
        omega
    | joinRight hown hsame heq =>
      rcases hm with ⟨-, hdiff, -⟩ | hm
      · exact absurd hsame hdiff
      · exact absurd hm (hpast hown (by omega))
    | joinEnd hown hsame hlo hmid hhi =>
      rcases hm with ⟨-, hdiff, -⟩ | hm
      · exact absurd hsame hdiff
      · exact absurd hm (hpast hown hhi)
    | swallow hown hlo hhi hne =>
      rcases hm with ⟨-, -, -, hend, -⟩ | hm
      · omega
      · exact ih (hnext _ rfl) hz hm
    | joinLeft hown hsame hlo hmid hhi =>
      rcases hm with ⟨-, hdiff, -⟩ | hm
      · exact absurd hsame hdiff
      · exact ih (hnext _ rfl) hz (hm.of_earlier rfl rfl hlo.le)
    | cut hown hdiff hlo hmid hhi =>
      rcases hm with ⟨-, -, -, hend, -⟩ | hm
      · omega
      · exact ih (hnext _ rfl) hz hm
    | covered hown hsame hlo hhi =>
      rcases hm with ⟨-, hdiff, -⟩ | hm
      · exact absurd hsame hdiff
      · exact absurd hm (hpast hown hhi)
    | severFails hown hdiff hmid hhi hz' =>
      rw [hz] at hz'
      cases hz'
    | sever hown hdiff hmid hhi hz' =>
      refine ⟨_, rfl, ?_⟩
      rcases hm with ⟨-, -, -, -, e, he, hlo, hhi'⟩ | hm
      · intro hp
        exact unsorted_withSevered he hlo hhi' (hp.sublist (sublist_append_right ..))
      · exact absurd hm (hpast hown hhi.le)

end Walk

theorem newFilock_owner_of_owner {ld td : Eflock} (h : td.owner = callerOwner ld cls upid) :
    (newFilock td vp cls (insertPid ld cls upid)).set.owner = callerOwner ld cls upid := by
  by_cases hc : cls = .lockmgr
  · simpa [newFilock, hc] using h
  · have hown : callerOwner ld cls upid = ⟨upid, 0, 0⟩ := by simp [callerOwner, hc]
    rw [hown] at h ⊢
    simp only [Eflock.owner, Owner.mk.injEq] at h
    simp [newFilock, hc, insertPid, Eflock.owner, h]

theorem flckadj_wellFormed {ld : Eflock} (hc : WellFormed c) (hld : ld.lStart < ld.lEnd) (hloc : Local ld cls)
    (hcall : AdjustCall c n ld (callerOwner ld cls upid))
    (hz : zalloc zcnt = true → ¬Misplaces (callerOwner ld cls upid) ld c) :
    WellFormed (flckadj zalloc vp c n ld cls upid zcnt).chain := by
  have hshape : AdjShape zalloc vp cls (insertPid ld cls upid) (callerOwner ld cls upid)
      (c.drop (n - 1)) ⟨c.take (n - 1), n, ld, 0, zcnt⟩ :=
    hcall.shape hc hld (newFilock_owner hloc) hz
  have hloop := hshape.loop fun _ => newFilock_owner_of_owner
  simp only [flckadj]
  generalize flckadjLoop zalloc vp cls (insertPid ld cls upid) (callerOwner ld cls upid)
    (c.drop (n - 1)) ⟨c.take (n - 1), n, ld, 0, zcnt⟩ = r at hloop
  cases r with
  | next a =>
    have hdone := AdjShape.loop (fun _ => newFilock_owner_of_owner) hloop
    exact WellFormed.of_ordered hdone.insert.1 hdone.insert.2
  | stop a => exact WellFormed.of_ordered hloop.insert.1 hloop.insert.2
  | ret a => exact WellFormed.of_ordered hloop.1 hloop.2

theorem flckadj_unsorted {ld : Eflock} (hc : WellFormed c) (hld : ld.lStart < ld.lEnd) (hloc : Local ld cls)
    (hcall : AdjustCall c n ld (callerOwner ld cls upid)) (hz : zalloc zcnt = true)
    (hm : Misplaces (callerOwner ld cls upid) ld c) :
    ¬(flckadj zalloc vp c n ld cls upid zcnt).chain.Pairwise
      fun f g => f.set.lStart ≤ g.set.lStart := by
  have hshape : AdjShape (fun _ => false) vp cls (insertPid ld cls upid)
      (callerOwner ld cls upid) (c.drop (n - 1)) ⟨c.take (n - 1), n, ld, 0, zcnt⟩ :=
    hcall.shape hc hld (newFilock_owner hloc) fun hf => by cases hf
  obtain ⟨a, ha, hbad⟩ := hshape.misplaced (fun _ => newFilock_owner_of_owner) hz
    ((hcall.misplaces_iff hld).mpr hm)
  simp only [flckadj, ha]
  exact flckadjInsert_unsorted hbad

end Adjust

/-!
## What a chain holds after `flckadj`

`Covers` says how one stretch of the `flckadj` walk changes what the owner holds: nothing is gained, what is
lost lies in the request as widened so far, and what the request is widened by the owner held already.
-/

section AdjustCover

open Osf1.Computation

variable {zalloc : ℕ → Bool} {vp : Vnode} {cls : LockClass} {upid : ℤ} {o : Owner} {l c c' rest : List Filock} {x n zcnt : ℕ}
  {t : LockType} {f : Filock} {ld' : Eflock} {r r' : Prop}

theorem holds_append {l' : List Filock} : Holds (l ++ l') o x t ↔ Holds l o x t ∨ Holds l' o x t := by
  unfold Holds
  simp only [mem_append, or_and_right, exists_or]

theorem holds_cons :
    Holds (f :: l) o x t ↔
      (f.set.owner = o ∧ f.set.lStart ≤ x ∧ x < f.set.lEnd ∧ f.set.lType = t) ∨
        Holds l o x t := by
  unfold Holds
  simp only [mem_cons, or_and_right, exists_or, exists_eq_left]

@[simp] theorem not_holds_nil : ¬Holds [] o x t := by
  rintro ⟨f, hf, -⟩
  cases hf

theorem holds_insert :
    Holds (l.take n ++ f :: l.drop n) o x t ↔
      (f.set.owner = o ∧ f.set.lStart ≤ x ∧ x < f.set.lEnd ∧ f.set.lType = t) ∨
        Holds l o x t := by
  rw [holds_append, holds_cons, or_left_comm, ← holds_append, take_append_drop]

theorem mem_insert_of_owner_ne {g : Filock} (hf : f.set.owner = o) (hg : g.set.owner ≠ o) :
    g ∈ l.take n ++ f :: l.drop n ↔ g ∈ l := by
  have hne : g ≠ f := by
    rintro rfl
    exact hg hf
  rw [mem_append, mem_cons, or_iff_right hne, ← mem_append, take_append_drop]

/-- How a stretch of the walk changes what the owner holds; `released` tells whether it
may have given up locks of another type. -/
structure Covers (o : Owner) (c : List Filock) (ld : Eflock) (c' : List Filock)
    (ld' : Eflock) (released : Prop) : Prop where
  type : ld'.lType = ld.lType
  owner : ld'.owner = ld.owner
  wide : ld'.lStart ≤ ld.lStart ∧ ld.lEnd ≤ ld'.lEnd
  others : ∀ f, f.set.owner ≠ o → (f ∈ c' ↔ f ∈ c)
  sound : ∀ x t, Holds c' o x t → Holds c o x t
  extent : ∀ x, ld'.lStart ≤ x → x < ld'.lEnd → (ld.lStart ≤ x ∧ x < ld.lEnd) ∨ Holds c o x ld.lType
  complete : ∀ x t, Holds c o x t → Holds c' o x t ∨ (ld'.lStart ≤ x ∧ x < ld'.lEnd ∧ (t = ld.lType ∨ released))

theorem Covers.refl (c : List Filock) (ld : Eflock) (released : Prop) : Covers o c ld c ld released :=
  ⟨rfl, rfl, ⟨le_rfl, le_rfl⟩, fun _ _ => Iff.rfl, fun _ _ h => h, fun _ h h' => .inl ⟨h, h'⟩, fun _ _ h => .inl h⟩

theorem Covers.trans {c'' : List Filock} {ld ld'' : Eflock}
    (h : Covers o c ld c' ld' r) (h' : Covers o c' ld' c'' ld'' r') (hr : r → r') : Covers o c ld c'' ld'' r' where
  type := h'.type.trans h.type
  owner := h'.owner.trans h.owner
  wide := ⟨h'.wide.1.trans h.wide.1, h.wide.2.trans h'.wide.2⟩
  others f hf := (h'.others f hf).trans (h.others f hf)
  sound x t ht := h.sound x t (h'.sound x t ht)
  extent x hlo hhi := by
    rcases h'.extent x hlo hhi with ⟨hlo', hhi'⟩ | hx
    · exact h.extent x hlo' hhi'
    · rw [h.type] at hx
      exact .inr (h.sound x _ hx)
  complete x t ht := by
    have hw := h'.wide
    rcases h.complete x t ht with hx | ⟨hlo, hhi, hcause⟩
    · rcases h'.complete x t hx with hx' | ⟨hlo, hhi, hcause⟩
      · exact .inl hx'
      · exact .inr ⟨hlo, hhi, hcause.imp_left fun heq => heq.trans h.type⟩
    · exact .inr ⟨hw.1.trans hlo, Nat.lt_of_lt_of_le hhi hw.2, hcause.imp_right hr⟩

theorem Covers.mono {ld : Eflock} (h : Covers o c ld c' ld' r) (hr : r → r') : Covers o c ld c' ld' r' :=
  h.trans (Covers.refl c' ld' r') hr

section Turn

variable {flp : Filock} {nflp : List Filock} {a : Adj} {passed : List Filock} {ld : Eflock} {c : List Filock} {r : AdjNext}

theorem Covers.join (ld' : Eflock) (hown : flp.set.owner = o)
    (hsame : ld.lType = flp.set.lType) (htype : ld'.lType = ld.lType)
    (howner : ld'.owner = ld.owner) (hwide : ld'.lStart ≤ ld.lStart ∧ ld.lEnd ≤ ld'.lEnd)
    (hin : ld'.lStart ≤ flp.set.lStart ∧ flp.set.lEnd ≤ ld'.lEnd)
    (hext : ∀ x, ld'.lStart ≤ x → x < ld'.lEnd →
      (ld.lStart ≤ x ∧ x < ld.lEnd) ∨ (flp.set.lStart ≤ x ∧ x < flp.set.lEnd)) (released : Prop) :
    Covers o (passed ++ flp :: nflp) ld (passed ++ nflp) ld' released where
  type := htype
  owner := howner
  wide := hwide
  others f hf := by
    have hne : f ≠ flp := by
      rintro rfl
      exact hf hown
    simp [hne]
  sound x t ht := by
    rw [holds_append] at ht ⊢
    rw [holds_cons]
    exact ht.imp_right .inr
  extent x hlo hhi := by
    refine (hext x hlo hhi).imp_right fun hx => ?_
    rw [holds_append, holds_cons]
    exact .inr (.inl ⟨hown, hx.1, hx.2, hsame.symm⟩)
  complete x t ht := by
    rw [holds_append, holds_cons] at ht
    rw [holds_append]
    rcases ht with ht | ⟨-, hlo, hhi, ht⟩ | ht
    · exact .inl (.inl ht)
    · exact .inr ⟨hin.1.trans hlo, Nat.lt_of_lt_of_le hhi hin.2, .inl (ht.symm.trans hsame.symm)⟩
    · exact .inl (.inr ht)

theorem Covers.replace (pieces : List Filock) (hown : flp.set.owner = o) (hpieces : ∀ f ∈ pieces, f.set.owner = o)
    (hin : ∀ x t, Holds pieces o x t →
      flp.set.lStart ≤ x ∧ x < flp.set.lEnd ∧ flp.set.lType = t) (hout : ∀ x, flp.set.lStart ≤ x → x < flp.set.lEnd →
      Holds pieces o x flp.set.lType ∨ (ld.lStart ≤ x ∧ x < ld.lEnd)) (hc : ∀ f, f ∈ c ↔ f ∈ passed ∨ f ∈ pieces ∨ f ∈ nflp) :
    Covers o (passed ++ flp :: nflp) ld c ld True := by
  have hholds (x : ℕ) (t : LockType) :
      Holds c o x t ↔ Holds passed o x t ∨ Holds pieces o x t ∨ Holds nflp o x t := by
    unfold Holds
    simp only [hc, or_and_right, exists_or]
  refine ⟨rfl, rfl, ⟨le_rfl, le_rfl⟩, ?_, ?_, fun x hlo hhi => .inl ⟨hlo, hhi⟩, ?_⟩
  · intro f hf
    have hne : f ≠ flp := by
      rintro rfl
      exact hf hown
    have hnp : f ∉ pieces := fun hp => hf (hpieces f hp)
    simp [hc, hne, hnp]
  · intro x t ht
    rw [holds_append, holds_cons]
    rcases (hholds x t).mp ht with ht | ht | ht
    · exact .inl ht
    · exact .inr (.inl ⟨hown, hin x t ht⟩)
    · exact .inr (.inr ht)
  · intro x t ht
    rw [holds_append, holds_cons] at ht
    rcases ht with ht | ⟨-, hlo, hhi, rfl⟩ | ht
    · exact .inl ((hholds x t).mpr (.inl ht))
    · rcases hout x hlo hhi with hp | hx
      · exact .inl ((hholds x _).mpr (.inr (.inl hp)))
      · exact .inr ⟨hx.1, hx.2, .inr trivial⟩
    · exact .inl ((hholds x t).mpr (.inr (.inr ht)))

/-- What one turn does to the holdings, and what it leaves when it is the last one. -/
def AdjNext.Leaves (zalloc : ℕ → Bool) (o : Owner) (c nflp : List Filock) (a : Adj) :
    AdjNext → Prop
  | .next a' => Covers o c a.ld (a'.passed ++ nflp) a'.ld (a'.rv = 1) ∧
      (a'.rv = a.rv ∨ a'.rv = 1) ∧ a'.zcnt = a.zcnt
  | .stop a' => Covers o c a.ld a'.passed a'.ld (a'.rv = 1) ∧
      (a'.rv = a.rv ∨ a'.rv = 1) ∧ a.zcnt ≤ a'.zcnt ∧
      ∀ f ∈ a'.passed, f.set.owner = o → f.set.lEnd ≤ a'.ld.lStart ∨ a'.ld.lEnd ≤ f.set.lStart
  | .ret a' => Covers o c a.ld a'.passed a'.ld (a'.rv = 1 ∨ a'.rv = ENOLCK) ∧
      (((a'.rv = a.rv ∨ a'.rv = 1) ∧ a'.zcnt = a.zcnt ∧ ∃ f ∈ a'.passed, f.set.owner = o ∧
          f.set.lType = a'.ld.lType ∧ f.set.lStart ≤ a'.ld.lStart ∧ a'.ld.lEnd ≤ f.set.lEnd) ∨
        (a'.rv = ENOLCK ∧ a'.zcnt = a.zcnt + 1 ∧ zalloc a.zcnt = false))

theorem AdjShape.covers (h : AdjShape (fun _ => false) vp cls upid o (flp :: nflp) a)
    (hsev : ∀ td : Eflock, td.owner = o → (newFilock td vp cls upid).set.owner = o)
    (hk : AdjKind zalloc vp cls upid o flp nflp a r) : r.Leaves zalloc o (a.passed ++ flp :: nflp) nflp a := by
  have hrange := h.range
  have hflp := h.nonempty flp (by simp)
  obtain ⟨hl, hr, -⟩ := pairwise_append_cons h.ordered
  have hpast (hown : flp.set.owner = o) (f : Filock) (hf : f ∈ nflp) (hfo : f.set.owner = o) :
      flp.set.lEnd ≤ f.set.lStart := (hr f hf).2 (hown.trans hfo.symm)
  have hgone (hown : flp.set.owner = o) (hlo : a.ld.lStart ≤ flp.set.lStart)
      (hhi : flp.set.lEnd ≤ a.ld.lEnd) :
      Covers o (a.passed ++ flp :: nflp) a.ld (a.passed ++ nflp) a.ld True := by
    refine Covers.replace [] hown (by simp) (by simp) ?_ (by simp)
    intro x hx hx'
    exact .inr ⟨by omega, by omega⟩
  cases hk with
  | passOther hown hle => exact ⟨by simpa using Covers.refl _ _ _, .inl rfl, rfl⟩
  | passOwn hown hlt => exact ⟨by simpa using Covers.refl _ _ _, .inl rfl, rfl⟩
  | halt hstop =>
    have hdone := h.turn hsev (AdjKind.halt hstop)
    exact ⟨Covers.refl _ _ _, .inl rfl, le_rfl, hdone.apart⟩
  | joinRight hown hsame heq =>
    refine ⟨Covers.join { a.ld with lEnd := flp.set.lEnd } hown hsame rfl rfl
      ⟨le_rfl, ?_⟩ ⟨?_, le_rfl⟩ ?_ _, .inl rfl, rfl⟩
    · show a.ld.lEnd ≤ flp.set.lEnd
      omega
    · show a.ld.lStart ≤ flp.set.lStart
      omega
    · intro x hlo hhi
      simp only at hlo hhi
      omega
  | joinEnd hown hsame hlo hmid hhi =>
    have hdone := h.turn hsev (AdjKind.joinEnd hown hsame hlo hmid hhi)
    refine ⟨Covers.join { a.ld with lEnd := flp.set.lEnd } hown hsame rfl rfl
      ⟨le_rfl, hhi⟩ ⟨hlo.le, le_rfl⟩ ?_ _, .inr rfl, le_rfl, hdone.apart⟩
    intro x hxlo hxhi
    simp only at hxlo hxhi
    omega
  | swallow hown hlo hhi hne =>
    exact ⟨(hgone hown hlo hhi).mono fun _ => rfl, .inr rfl, rfl⟩
  | joinLeft hown hsame hlo hmid hhi =>
    refine ⟨Covers.join { a.ld with lStart := flp.set.lStart } hown hsame rfl rfl
      ⟨hlo.le, le_rfl⟩ ⟨le_rfl, hhi.le⟩ ?_ _, .inl rfl, rfl⟩
    intro x hxlo hxhi
    simp only at hxlo hxhi
    omega
  | cut hown hdiff hlo hmid hhi =>
    refine ⟨?_, .inr rfl, rfl⟩
    refine Covers.mono (Covers.replace [trim flp a.ld] hown ?_ ?_ ?_ ?_) fun _ => rfl
    · intro f hf
      rw [mem_singleton] at hf
      subst hf
      exact hown
    · intro x t ht
      simp only [holds_cons, not_holds_nil, or_false] at ht
      obtain ⟨-, hxlo, hxhi, ht⟩ := ht
      simp only [trim] at hxlo hxhi ht
      exact ⟨hxlo, by omega, ht⟩
    · intro x hxlo hxhi
      by_cases hx : x < a.ld.lStart
      · exact .inl (holds_cons.mpr (.inl ⟨hown, hxlo, hx, rfl⟩))
      · exact .inr ⟨by omega, by omega⟩
    · simp
  | covered hown hsame hlo hhi =>
    exact ⟨Covers.refl _ _ _, .inl ⟨.inl rfl, rfl, flp, by simp, hown, hsame.symm, hlo, hhi⟩⟩
  | severFails hown hdiff hmid hhi hz =>
    exact ⟨Covers.refl _ _ _, .inr ⟨rfl, rfl, hz⟩⟩
  | sever hown hdiff hmid hhi hz =>
    have htd : (newFilock (severed flp a.ld) vp cls upid).set.owner = o := hsev _ hown
    have hmem (f : Filock) : f ∈ withSevered vp cls upid a.ld flp nflp ↔
        f = newFilock (severed flp a.ld) vp cls upid ∨ f ∈ nflp := by
      simp only [withSevered, mem_append, mem_cons]
      rw [or_left_comm, ← mem_append, take_append_drop]
    refine ⟨?_, .inr rfl, Nat.le_succ _, ?_⟩
    · refine Covers.mono (Covers.replace
        ((if flp.set.lStart < a.ld.lStart then [trim flp a.ld] else []) ++
          [newFilock (severed flp a.ld) vp cls upid]) hown ?_ ?_ ?_ ?_) fun _ => rfl
      · intro f hf
        rw [mem_append, mem_singleton] at hf
        rcases hf with hf | rfl
        · split at hf
          · rw [mem_singleton] at hf
            subst hf
            exact hown
          · cases hf
        · exact htd
      · intro x t ht
        rw [holds_append] at ht
        rcases ht with ht | ht
        · split at ht
          · simp only [holds_cons, not_holds_nil, or_false] at ht
            obtain ⟨-, hxlo, hxhi, ht⟩ := ht
            simp only [trim] at hxlo hxhi ht
            exact ⟨hxlo, by omega, ht⟩
          · exact absurd ht not_holds_nil
        · simp only [holds_cons, not_holds_nil, or_false, newFilock_lStart, newFilock_lEnd,
            newFilock_lType, severed] at ht
          exact ⟨by omega, ht.2.2.1, ht.2.2.2⟩
      · intro x hxlo hxhi
        by_cases hx : a.ld.lEnd ≤ x
        · refine .inl (holds_append.mpr (.inr (holds_cons.mpr (.inl ⟨htd, ?_, ?_, ?_⟩))))
          · simpa [severed] using hx
          · simpa [severed] using hxhi
          · simp [severed]
        by_cases hx' : x < a.ld.lStart
        · have hlo : flp.set.lStart < a.ld.lStart := by omega
          rw [if_pos hlo]
          exact .inl (holds_append.mpr (.inl (holds_cons.mpr (.inl ⟨hown, hxlo, hx', rfl⟩))))
        · exact .inr ⟨by omega, by omega⟩
      · intro f
        simp only [mem_append, hmem, mem_singleton, or_assoc]
    · intro f hf hfo
      simp only [mem_append, hmem] at hf
      rcases hf with (hf | hf) | rfl | hf
      · exact .inl (h.behind f hf hfo)
      · split at hf
        · rw [mem_singleton] at hf
          subst hf
          exact .inl le_rfl
        · cases hf
      · exact .inr (by simp [severed])
      · exact .inr (hhi.le.trans (hpast hown f hf hfo))

theorem AdjNext.Leaves.trans {c' l : List Filock} {a' : Adj}
    (h : Covers o c a.ld c' a'.ld (a'.rv = 1)) (hrv : a'.rv = a.rv ∨ a'.rv = 1)
    (hz : a'.zcnt = a.zcnt) (hr : r.Leaves zalloc o c' l a') : r.Leaves zalloc o c l a := by
  have hrv' {n : ℕ} (hn : n = a'.rv ∨ n = 1) : n = a.rv ∨ n = 1 := by omega
  cases r with
  | next a'' =>
    obtain ⟨hc, hn, hz'⟩ := hr
    exact ⟨h.trans hc fun h1 => by omega, hrv' hn, hz'.trans hz⟩
  | stop a'' =>
    obtain ⟨hc, hn, hz', hap⟩ := hr
    exact ⟨h.trans hc fun h1 => by omega, hrv' hn, hz ▸ hz', hap⟩
  | ret a'' =>
    obtain ⟨hc, hn⟩ := hr
    rcases hn with ⟨hn, hz', hf⟩ | ⟨hn, hz', hf⟩
    · exact ⟨h.trans hc fun h1 => by omega, .inl ⟨hrv' hn, hz'.trans hz, hf⟩⟩
    · exact ⟨h.trans hc fun _ => .inr hn, .inr ⟨hn, by omega, hz ▸ hf⟩⟩

end Turn

theorem AdjShape.loop_covers (hsev : ∀ td : Eflock, td.owner = o →
      (newFilock td vp cls upid).set.owner = o) {a : Adj} (h : AdjShape (fun _ => false) vp cls upid o rest a) :
    (flckadjLoop zalloc vp cls upid o rest a).Leaves zalloc o (a.passed ++ rest) [] a := by
  induction rest generalizing a with
  | nil =>
    refine ⟨by simpa using Covers.refl _ _ _, .inl rfl, le_rfl, fun f hf hfo => .inl ?_⟩
    exact h.behind f hf hfo
  | cons flp nflp ih =>
    have hkind : AdjKind zalloc vp cls upid o flp nflp a _ := flckadjStep_kind h.range (h.nonempty flp (by simp))
    have hturn := h.covers hsev hkind
    rw [flckadjLoop]
    cases hr : flckadjStep zalloc vp cls upid o flp nflp a with
    | next a' =>
      rw [hr] at hturn hkind
      obtain ⟨hc, hrv, hz⟩ := hturn
      have hshape : AdjShape (fun _ => false) vp cls upid o nflp a' := h.turn hsev hkind.of_next
      exact AdjNext.Leaves.trans hc hrv hz (ih hshape)
    | stop a' =>
      rw [hr] at hturn
      exact hturn
    | ret a' =>
      rw [hr] at hturn
      exact hturn

theorem flckadjLoop_ne_next {a a' : Adj} : flckadjLoop zalloc vp cls upid o rest a ≠ .next a' := by
  induction rest generalizing a with
  | nil => rintro ⟨⟩
  | cons flp nflp ih =>
    rw [flckadjLoop]
    cases flckadjStep zalloc vp cls upid o flp nflp a with
    | next a'' => exact ih
    | stop a'' => rintro ⟨⟩
    | ret a'' => rintro ⟨⟩

/-- The owner's locks on the bytes of the request are replaced, and no others. -/
structure Overwrites (o : Owner) (ld : Eflock) (c c' : List Filock) : Prop where
  inside : ∀ x t, ld.lStart ≤ x → x < ld.lEnd → (Holds c' o x t ↔ t = ld.lType ∧ ld.lType ≠ .unlck)
  outside : ∀ x t, ¬(ld.lStart ≤ x ∧ x < ld.lEnd) → (Holds c' o x t ↔ Holds c o x t)

/-- Every `ZALLOC` from the `n`-th to before the `m`-th succeeds. -/
def Allocated (zalloc : ℕ → Bool) (n m : ℕ) : Prop := ∀ k, n ≤ k → k < m → zalloc k = true

/-- What a call of `flckadj` does to the holdings. -/
structure AdjustResult (zalloc : ℕ → Bool) (zcnt : ℕ) (o : Owner) (ld : Eflock)
    (c : List Filock) (r : Adjusted) : Prop where
  rv : r.rv = 0 ∨ r.rv = 1 ∨ r.rv = ENOLCK
  type : r.ld.lType = ld.lType
  owner : r.ld.owner = ld.owner
  wide : r.ld.lStart ≤ ld.lStart ∧ ld.lEnd ≤ r.ld.lEnd
  others : ∀ f, f.set.owner ≠ o → (f ∈ r.chain ↔ f ∈ c)
  done : r.rv ≠ ENOLCK → Overwrites o ld c r.chain
  kept : r.rv = 0 → ∀ x t, Holds c o x t → Holds r.chain o x t
  failed : r.rv = ENOLCK → (∀ x t, Holds r.chain o x t → Holds c o x t) ∧ ¬Allocated zalloc zcnt r.zcnt

theorem Covers.insert (hc : c.Pairwise Precedes) (hlocks : ∀ f ∈ c, f.set.lType ≠ .unlck) {ld : Eflock} {a : Adj}
    (h : Covers o c ld a.passed a.ld (a.rv = 1)) (hrv : a.rv = 0 ∨ a.rv = 1) (hz : zcnt ≤ a.zcnt)
    (hap : ∀ f ∈ a.passed, f.set.owner = o → f.set.lEnd ≤ a.ld.lStart ∨ a.ld.lEnd ≤ f.set.lStart)
    (hmine : (newFilock a.ld vp cls upid).set.owner = o) :
    AdjustResult zalloc zcnt o ld c (flckadjInsert zalloc vp cls upid a) := by
  have hwide := h.wide
  have hheld {x : ℕ} {t : LockType} (ht : Holds c o x t) : t ≠ .unlck := by
    obtain ⟨f, hf, -, -, -, rfl⟩ := ht
    exact hlocks f hf
  have hclear {x : ℕ} {t : LockType} (hlo : ld.lStart ≤ x) (hhi : x < ld.lEnd) :
      ¬Holds a.passed o x t := by
    rintro ⟨f, hf, hfo, hflo, hfhi, -⟩
    have := hap f hf hfo
    omega
  have hrv' : a.rv = 0 ∨ a.rv = 1 ∨ a.rv = ENOLCK := hrv.imp_right .inl
  have hne : a.rv ≠ ENOLCK := by
    unfold ENOLCK
    omega
  by_cases hlk : a.ld.lType = .unlck
  · have hT : ld.lType = .unlck := h.type.symm.trans hlk
    have hr : flckadjInsert zalloc vp cls upid a = ⟨a.passed, a.ld, a.rv, a.zcnt⟩ := by
      simp [flckadjInsert, hlk]
    rw [hr]
    refine ⟨hrv', h.type, h.owner, h.wide, h.others, fun _ => ⟨?_, ?_⟩, ?_, fun hn => absurd hn hne⟩
    · intro x t hlo hhi
      exact iff_of_false (hclear hlo hhi) fun ht => ht.2 hT
    · intro x t hout
      refine ⟨h.sound x t, fun ht => ?_⟩
      rcases h.complete x t ht with hx | ⟨hlo, hhi, -⟩
      · exact hx
      · rcases h.extent x hlo hhi with hin | hx
        · exact absurd hin hout
        · exact absurd hT (hheld hx)
    · intro h0 x t ht
      rcases h.complete x t ht with hx | ⟨-, -, rfl | h1⟩
      · exact hx
      · exact absurd hT (hheld ht)
      · rw [show a.rv = 0 from h0] at h1
        cases h1
  · have hT : ld.lType ≠ .unlck := fun hu => hlk (h.type.trans hu)
    cases hza : zalloc a.zcnt with
    | false =>
      have hr : flckadjInsert zalloc vp cls upid a =
          ⟨a.passed, a.ld, ENOLCK, a.zcnt + 1⟩ := by
        simp [flckadjInsert, hlk, insflck, hza]
      rw [hr]
      refine ⟨.inr (.inr rfl), h.type, h.owner, h.wide, h.others, fun hn => absurd rfl hn,
        fun h0 => absurd (show ENOLCK = 0 from h0) (by decide), ?_⟩
      intro _
      refine ⟨h.sound, fun hall => ?_⟩
      rw [hall a.zcnt hz (Nat.lt_succ_self _)] at hza
      cases hza
    | true =>
      obtain ⟨n, hr⟩ : ∃ n, flckadjInsert zalloc vp cls upid a =
          ⟨a.passed.take n ++ newFilock a.ld vp cls upid :: a.passed.drop n, a.ld, a.rv,
            a.zcnt + 1⟩ := by
        refine ⟨if a.insrtp = 0 then 0
          else a.insrtp - 1 + scanFrom a.ld.lStart (a.passed.drop (a.insrtp - 1)), ?_⟩
        simp [flckadjInsert, hlk, insflck, hza]
      have hholds (x : ℕ) (t : LockType) :
          Holds (a.passed.take n ++ newFilock a.ld vp cls upid :: a.passed.drop n) o x t ↔
            (a.ld.lStart ≤ x ∧ x < a.ld.lEnd ∧ t = ld.lType) ∨ Holds a.passed o x t := by
        rw [holds_insert, newFilock_lStart, newFilock_lEnd, newFilock_lType, h.type]
        simp only [hmine, true_and, eq_comm]
      rw [hr]
      refine ⟨hrv', h.type, h.owner, h.wide, fun f hf => ?_, fun _ => ⟨?_, ?_⟩, ?_, fun hn => absurd hn hne⟩
      · exact (mem_insert_of_owner_ne hmine hf).trans (h.others f hf)
      · intro x t hlo hhi
        rw [hholds]
        constructor
        · rintro (⟨-, -, ht⟩ | ht)
          · exact ⟨ht, hT⟩
          · exact absurd ht (hclear hlo hhi)
        · rintro ⟨ht, -⟩
          exact .inl ⟨by omega, by omega, ht⟩
      · intro x t hout
        rw [hholds]
        constructor
        · rintro (⟨hlo, hhi, rfl⟩ | ht)
          · exact (h.extent x hlo hhi).resolve_left hout
          · exact h.sound x t ht
        · intro ht
          rcases h.complete x t ht with hx | ⟨hlo, hhi, -⟩
          · exact .inr hx
          · have hx := (h.extent x hlo hhi).resolve_left hout
            exact .inl ⟨hlo, hhi, ht.unique hc hx⟩
      · intro h0 x t ht
        rw [hholds]
        rcases h.complete x t ht with hx | ⟨hlo, hhi, ht' | h1⟩
        · exact .inr hx
        · exact .inl ⟨hlo, hhi, ht'⟩
        · rw [show a.rv = 0 from h0] at h1
          cases h1

theorem Covers.covered (hc : c.Pairwise Precedes) (hlocks : ∀ f ∈ c, f.set.lType ≠ .unlck) {ld : Eflock} {a : Adj}
    (h : Covers o c ld a.passed a.ld (a.rv = 1)) (hrv : a.rv = 0 ∨ a.rv = 1) (hf : f ∈ a.passed) (hfo : f.set.owner = o)
    (hft : f.set.lType = a.ld.lType) (hlo : f.set.lStart ≤ a.ld.lStart) (hhi : a.ld.lEnd ≤ f.set.lEnd) (zcnt : ℕ) :
    AdjustResult zalloc zcnt o ld c ⟨a.passed, a.ld, a.rv, a.zcnt⟩ := by
  have hwide := h.wide
  have hhas {x : ℕ} (hxlo : a.ld.lStart ≤ x) (hxhi : x < a.ld.lEnd) :
      Holds a.passed o x ld.lType :=
    ⟨f, hf, hfo, by omega, by omega, hft.trans h.type⟩
  have hne : a.rv ≠ ENOLCK := by
    unfold ENOLCK
    omega
  refine ⟨hrv.imp_right .inl, h.type, h.owner, h.wide, h.others, fun _ => ⟨?_, ?_⟩, ?_, fun hn => absurd hn hne⟩
  · intro x t hxlo hxhi
    have hx := hhas (x := x) (by omega) (by omega)
    constructor
    · intro ht
      refine ⟨(h.sound x t ht).unique hc (h.sound x _ hx), ?_⟩
      obtain ⟨g, hg, -, -, -, hgt⟩ := h.sound x _ hx
      exact hgt ▸ hlocks g hg
    · rintro ⟨rfl, -⟩
      exact hx
  · intro x t hout
    refine ⟨h.sound x t, fun ht => ?_⟩
    rcases h.complete x t ht with hx | ⟨hxlo, hxhi, -⟩
    · exact hx
    · have hx := (h.extent x hxlo hxhi).resolve_left hout
      rw [ht.unique hc hx]
      exact hhas hxlo hxhi
  · intro h0 x t ht
    rcases h.complete x t ht with hx | ⟨hxlo, hxhi, rfl | h1⟩
    · exact hx
    · exact hhas hxlo hxhi
    · rw [show a.rv = 0 from h0] at h1
      cases h1

theorem flckadj_result {ld : Eflock} (hc : WellFormed c)
    (hlocks : ∀ f ∈ c, f.set.lType ≠ .unlck) (hld : ld.lStart < ld.lEnd) (hloc : Local ld cls)
    (hcall : AdjustCall c n ld (callerOwner ld cls upid)) :
    AdjustResult zalloc zcnt (callerOwner ld cls upid) ld c
      (flckadj zalloc vp c n ld cls upid zcnt) := by
  have hshape : AdjShape (fun _ => false) vp cls (insertPid ld cls upid)
      (callerOwner ld cls upid) (c.drop (n - 1)) ⟨c.take (n - 1), n, ld, 0, zcnt⟩ :=
    hcall.shape hc hld (newFilock_owner hloc) fun hf => by cases hf
  have hloop : (flckadjLoop zalloc vp cls (insertPid ld cls upid) (callerOwner ld cls upid)
      (c.drop (n - 1)) ⟨c.take (n - 1), n, ld, 0, zcnt⟩).Leaves zalloc
      (callerOwner ld cls upid) (c.take (n - 1) ++ c.drop (n - 1)) [] _ :=
    hshape.loop_covers fun _ => newFilock_owner_of_owner
  rw [take_append_drop] at hloop
  have hnext (a : Adj) : flckadjLoop zalloc vp cls (insertPid ld cls upid)
      (callerOwner ld cls upid) (c.drop (n - 1)) ⟨c.take (n - 1), n, ld, 0, zcnt⟩ ≠ .next a :=
    flckadjLoop_ne_next
  simp only [flckadj]
  generalize flckadjLoop zalloc vp cls (insertPid ld cls upid) (callerOwner ld cls upid)
    (c.drop (n - 1)) ⟨c.take (n - 1), n, ld, 0, zcnt⟩ = r at hloop hnext
  have hmine {ld' : Eflock} (h : ld'.owner = ld.owner) :
      (newFilock ld' vp cls (insertPid ld cls upid)).set.owner = callerOwner ld cls upid := by
    simp only [Eflock.owner, Owner.mk.injEq] at h
    rw [newFilock_owner_congr h.1 h.2.1 h.2.2]
    exact newFilock_owner hloc
  cases r with
  | next a => exact absurd rfl (hnext a)
  | stop a =>
    obtain ⟨hcov, hrv, hz, hap⟩ := hloop
    exact hcov.insert hc.ordered hlocks hrv hz hap (hmine hcov.owner)
  | ret a =>
    obtain ⟨hcov, ⟨hrv, hz, f, hf, hfo, hft, hlo, hhi⟩ | ⟨hrv, hz, hfail⟩⟩ := hloop
    · refine Covers.covered hc.ordered hlocks (hcov.mono ?_) hrv hf hfo hft hlo hhi zcnt
      rintro (h1 | h1)
      · exact h1
      · unfold ENOLCK at h1
        simp only at hrv
        omega
    · refine ⟨.inr (.inr hrv), hcov.type, hcov.owner, hcov.wide, hcov.others,
        fun hn => absurd hrv hn, fun h0 => ?_, fun _ => ?_⟩
      · rw [show a.rv = 0 from h0] at hrv
        cases hrv
      · refine ⟨hcov.sound, fun hall => ?_⟩
        have hlast : zcnt < a.zcnt := hz ▸ Nat.lt_succ_self _
        rw [hall zcnt le_rfl hlast] at hfail
        cases hfail

end AdjustCover

end Osf1.Flock
