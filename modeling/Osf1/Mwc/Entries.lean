import Osf1.Mwc.Steps

/-!
# The list of use, the hash chains and the count of the free entries

The circular list of use has every entry, an entry is on a chain exactly if it is in use, and an
entry is free exactly if no write is charged to it.  This is kept by everything but two steps: a
request that is to be logged finds no volume although an entry in use has been taken for it, and
the last write of an entry is done although the entry has been frozen.
-/

set_option autoImplicit false

namespace Osf1.Mwc

open Function List

section Entries

open Osf1.Computation

/-- The list of use is circular, and has every entry. -/
def Cache.Ringed (c : Cache) : Prop := ∃ m, Circular c.next c.prev c.lst m ∧ ∀ h, h ∈ c.lst :: m

/-- The number of the entries that no write is charged to. -/
def Cache.idleCount (c : Cache) : ℕ := tally (fun e : Entry => e.iocnt = 0) c.entry

/-- What holds of the entries apart from what the counts say. -/
structure Tidy (c : Cache) : Prop where
  ring : c.Ringed
  hashed : ∀ h, (c.entry h).minor ≠ 0 → h ∈ c.hash (MWC_THASH (c.entry h).ltg)
  distinct : ∀ h h', (c.entry h).minor ≠ 0 → (c.entry h').key = (c.entry h).key → h' = h
  free : c.free = c.idleCount
  idle : ∀ h, (c.entry h).iocnt = 0 → (c.entry h).frozen = false

variable {c c' : Cache} {h h' : Slot} {k : ℕ × ℕ} {e : Entry} {v : Pvnum}

section Ring

theorem Cache.Ringed.useMru (hc : c.Ringed) (h : Slot) : (c.useMru h).Ringed := by
  obtain ⟨m, hm, hall⟩ := hc
  unfold Cache.useMru
  split
  · exact ⟨m, hm, hall⟩
  rename_i hne
  have hmem : h ∈ m := (mem_cons.mp (hall h)).resolve_left hne
  obtain ⟨m₁, m₂, rfl⟩ := append_of_mem hmem
  cases m₂ with
  | nil =>
    have hlast : c.prev c.lst = h := hm.prev_anchor (l := c.lst :: m₁) rfl
    rw [if_pos hlast.symm]
    refine ⟨c.lst :: m₁, ?_, fun x => ?_⟩
    · change Circular c.next c.prev (c.prev c.lst) _
      rw [hlast]
      exact hm.turnBack
    · change x ∈ c.prev c.lst :: c.lst :: m₁
      rw [hlast]
      exact (perm_append_singleton h (c.lst :: m₁)).subset (hall x)
  | cons z m₂ =>
    rw [if_neg (hm.prev_anchor_ne (l := c.lst :: m₁) rfl).symm]
    have hperm : (c.lst :: m₁ ++ h :: z :: m₂).Perm (h :: (c.lst :: m₁ ++ z :: m₂)) := perm_middle
    exact ⟨c.lst :: m₁ ++ z :: m₂, hm.splice, fun x => hperm.subset (hall x)⟩

theorem Cache.Ringed.useLru (hc : c.Ringed) (h : Slot) : (c.useLru h).Ringed := by
  obtain ⟨m, hm, hall⟩ := hc
  unfold Cache.useLru
  split
  · exact ⟨m, hm, hall⟩
  rename_i hlast
  split
  · rename_i hfirst
    cases m with
    | nil =>
      have hself : c.prev c.lst = c.lst := hm.prev_anchor (l := []) rfl
      exact absurd (hfirst.trans hself.symm) hlast
    | cons x m =>
      have hx : c.next c.lst = x := hm.path.1.1
      refine ⟨m ++ [c.lst], ?_, fun y => ?_⟩
      · change Circular c.next c.prev (c.next c.lst) _
        rw [hx]
        exact hm.turn
      · change y ∈ c.next c.lst :: (m ++ [c.lst])
        rw [hx]
        exact (perm_append_singleton c.lst (x :: m)).symm.subset (hall y)
  rename_i hne
  have hmem : h ∈ m := (mem_cons.mp (hall h)).resolve_left hne
  obtain ⟨m₁, m₂, rfl⟩ := append_of_mem hmem
  cases m₂ with
  | nil => exact absurd (hm.prev_anchor (l := c.lst :: m₁) rfl).symm hlast
  | cons z m₂ =>
    refine ⟨m₁ ++ z :: m₂ ++ [h], hm.splice.turn, fun x => ?_⟩
    have hperm : (c.lst :: (m₁ ++ z :: m₂ ++ [h])).Perm (c.lst :: (m₁ ++ h :: z :: m₂)) :=
      .cons _ ((perm_append_singleton h (m₁ ++ z :: m₂)).trans perm_middle.symm)
    exact hperm.symm.subset (hall x)

theorem findIdle_none {m l r : List Slot} {x : Slot} {n : ℕ}
    (hm : Circular c.next c.prev c.lst m) (hl : c.lst :: m = l ++ x :: r) (hn : l.length < n)
    (hnone : findIdle c (c.prev c.lst) n x = none) : ∀ y ∈ l ++ [x], (c.entry y).iocnt ≠ 0 := by
  induction n generalizing l x r with
  | zero => cases hn
  | succ n ih =>
    unfold findIdle at hnone
    split at hnone
    · cases hnone
    rename_i hbusy
    rcases eq_nil_or_concat' l with rfl | ⟨l', y, rfl⟩
    · intro y hy
      rw [mem_singleton.mp hy]
      exact hbusy
    · rw [append_assoc, singleton_append] at hl
      have hprev : c.prev x = y := hm.prev_eq hl
      have hlast : c.prev c.lst ≠ y := hm.prev_anchor_ne hl
      rw [hprev, if_neg hlast.symm] at hnone
      rw [length_append, length_singleton] at hn
      intro z hz
      rcases mem_append.mp hz with hz | hz
      · exact ih hl (by omega) hnone z hz
      · rw [mem_singleton.mp hz]
        exact hbusy

theorem Tidy.idle_isSome (ht : Tidy c) (hfree : c.free ≠ 0) : ∃ h, c.idle = some h := by
  cases hi : c.idle with
  | some h => exact ⟨h, rfl⟩
  | none =>
    obtain ⟨m, hm, hall⟩ := ht.ring
    have hlen := hm.nodup.length_le_card
    rcases eq_nil_or_concat' (c.lst :: m) with hnil | ⟨l, x, hl⟩
    · cases hnil
    have hx : c.prev c.lst = x := hm.prev_anchor hl
    rw [Fintype.card_fin, hl, length_append] at hlen
    have hbusy := findIdle_none (l := l) (x := x) (r := []) (n := LVM_NUMMWC) hm hl hlen
      (by rw [← hx]; exact hi)
    refine absurd (ht.free.trans ((tally_eq_zero_iff c.entry).mpr fun h => ?_)) hfree
    exact hbusy h (hl ▸ hall h)

end Ring

section Operations

theorem idleCount_setEntry (c : Cache) (h : Slot) (e : Entry) :
    (c.setEntry h e).idleCount + (if (c.entry h).iocnt = 0 then 1 else 0) =
      c.idleCount + if e.iocnt = 0 then 1 else 0 :=
  tally_update c.entry h e

theorem idleCount_le (c : Cache) : c.idleCount ≤ LVM_NUMMWC := by
  unfold Cache.idleCount tally
  exact (Finset.card_le_univ _).trans_eq (Fintype.card_fin _)

theorem idleCount_pos (hidle : (c.entry h).iocnt = 0) : 0 < c.idleCount :=
  Nat.pos_of_ne_zero fun hzero => (tally_eq_zero_iff c.entry).mp hzero h hidle

variable {n cls : ℕ}

theorem decFree_add_one (hn : 0 < n) : decFree n + 1 = n := by
  unfold decFree
  rw [if_neg hn.ne']
  omega

theorem incFree_eq (hn : n ≤ LVM_NUMMWC) : incFree n = n + 1 := Nat.mod_eq_of_lt (by unfold LVM_NUMMWC at hn; omega)

section

variable (ht : Tidy c)
include ht

theorem Tidy.find (hm : (c.entry h).minor ≠ 0) : c.find (c.entry h).key = some h := by
  have hmem := ht.hashed h hm
  cases hf : c.find (c.entry h).key with
  | none =>
    have hno := find?_eq_none.mp hf h hmem
    exact absurd (decide_eq_true rfl) hno
  | some h' => rw [ht.distinct h h' hm (find_key hf)]

theorem Tidy.use (hring : c'.Ringed) (hentry : c'.entry = c.entry)
    (hhash : c'.hash = c.hash) (hfree : c'.free = c.free) : Tidy c' where
  ring := hring
  hashed := by
    rw [hentry, hhash]
    exact ht.hashed
  distinct := by
    rw [hentry]
    exact ht.distinct
  free := by
    unfold Cache.idleCount
    rw [hfree, hentry]
    exact ht.free
  idle := by
    rw [hentry]
    exact ht.idle

theorem Tidy.useMru (h : Slot) : Tidy (c.useMru h) :=
  ht.use (ht.ring.useMru h) (useMru_entry ..) (useMru_hash ..) (useMru_free ..)

theorem Tidy.useLru (h : Slot) : Tidy (c.useLru h) :=
  ht.use (ht.ring.useLru h) (useLru_entry ..) (useLru_hash ..) (useLru_free ..)

theorem Tidy.setEntry (hkey : e.key = (c.entry h).key) (hidle : e.iocnt = 0 → e.frozen = false)
    (hfree : n + (if (c.entry h).iocnt = 0 then 1 else 0) =
      c.free + if e.iocnt = 0 then 1 else 0) : Tidy { c.setEntry h e with free := n } := by
  have hkeys (h' : Slot) : ((c.setEntry h e).entry h').key = (c.entry h').key := by
    by_cases hh : h' = h
    · rw [hh, setEntry_self, hkey]
    · rw [setEntry_of_ne _ _ _ hh]
  have hminor (h' : Slot) : ((c.setEntry h e).entry h').minor = (c.entry h').minor := congrArg Prod.fst (hkeys h')
  have hltg (h' : Slot) : ((c.setEntry h e).entry h').ltg = (c.entry h').ltg := congrArg Prod.snd (hkeys h')
  refine ⟨ht.ring, fun h' hm => ?_, fun h₁ h₂ hm hk => ?_, ?_, fun h' hi => ?_⟩
  · change h' ∈ c.hash (MWC_THASH ((c.setEntry h e).entry h').ltg)
    rw [hltg]
    exact ht.hashed h' ((hminor h').symm.trans_ne hm)
  · exact ht.distinct h₁ h₂ ((hminor h₁).symm.trans_ne hm) ((hkeys h₂).symm.trans (hk.trans (hkeys h₁)))
  · have hcount := idleCount_setEntry c h e
    have hold := ht.free
    change n = (c.setEntry h e).idleCount
    omega
  · by_cases hh : h' = h
    · subst hh
      rw [setEntry_self] at hi ⊢
      exact hidle hi
    · change ((c.setEntry h e).entry h').iocnt = 0 at hi
      rw [setEntry_of_ne _ _ _ hh] at hi ⊢
      exact ht.idle h' hi

end

theorem mem_unhash_of_ne {cls' : ℕ} (hh : h' ≠ h) (hmem : h' ∈ c.hash cls') : h' ∈ (c.unhash cls h).hash cls' := by
  by_cases hc : cls' = cls
  · subst hc
    rw [unhash_self]
    exact (mem_erase_of_ne hh).mpr hmem
  · rwa [unhash_of_ne c h hc]

theorem Tidy.clear (ht : Tidy c) (hfree : n + (if (c.entry h).iocnt = 0 then 1 else 0) = c.free + 1) :
    Tidy { (c.unhash cls h).setEntry h ⟨0, false, false, none, 0, 0⟩ with free := n } := by
  have hself : ((c.unhash cls h).setEntry h ⟨0, false, false, none, 0, 0⟩).entry h =
      ⟨0, false, false, none, 0, 0⟩ := setEntry_self ..
  have hother (h' : Slot) (hh : h' ≠ h) :
      ((c.unhash cls h).setEntry h ⟨0, false, false, none, 0, 0⟩).entry h' = c.entry h' :=
    setEntry_of_ne (c.unhash cls h) h _ hh
  have hne (h' : Slot) (hm : (((c.unhash cls h).setEntry h ⟨0, false, false, none, 0, 0⟩).entry
      h').minor ≠ 0) : h' ≠ h := by
    rintro rfl
    rw [hself] at hm
    exact hm rfl
  refine ⟨ht.ring, fun h' hm => ?_, fun h₁ h₂ hm hk => ?_, ?_, fun h' hi => ?_⟩
  · have hh := hne h' hm
    simp only [hother h' hh] at hm ⊢
    exact mem_unhash_of_ne hh (ht.hashed h' hm)
  · have hh := hne h₁ hm
    simp only [hother h₁ hh] at hm hk
    by_cases hh₂ : h₂ = h
    · simp only [hh₂, hself] at hk
      exact absurd (congrArg Prod.fst hk).symm hm
    · simp only [hother h₂ hh₂] at hk
      exact ht.distinct h₁ h₂ hm hk
  · have hcount := idleCount_setEntry (c.unhash cls h) h ⟨0, false, false, none, 0, 0⟩
    have hold := ht.free
    change _ + (if (c.entry h).iocnt = 0 then 1 else 0) = c.idleCount + 1 at hcount
    change n = ((c.unhash cls h).setEntry h ⟨0, false, false, none, 0, 0⟩).idleCount
    omega
  · by_cases hh : h' = h
    · simp only [hh, hself]
    · simp only [hother h' hh] at hi ⊢
      exact ht.idle h' hi

theorem Tidy.charge (ht : Tidy c) (hroom : (c.entry h).iocnt + 1 < 2 ^ 16) : Tidy (c.charge h) := by
  have hentry : (c.useMru h).entry h = c.entry h := congrFun (useMru_entry c h) h
  refine (ht.useMru h).setEntry ?_ ?_ ?_
  · rw [hentry]
    rfl
  · simp only [incIocnt_eq hroom]
    exact fun hzero => absurd hzero (Nat.succ_ne_zero _)
  · simp only [incIocnt_eq hroom, Nat.succ_ne_zero, if_false, hentry, useMru_free]
    split
    · rename_i hzero
      have hpos := idleCount_pos hzero
      rw [← ht.free] at hpos
      exact decFree_add_one hpos
    · rfl

theorem Tidy.fill (ht : Tidy c) (hm : Missed c k) (hk : k.1 ≠ 0) (hidle : (c.entry h).iocnt = 0)
    (hc' : c' = c ∨ c' = c.unhash (MWC_THASH (c.entry h).ltg) h) : Tidy (c'.fill h v k) := by
  have hentry : c'.entry = c.entry := by obtain rfl | rfl := hc' <;> rfl
  have hfree : c'.free = c.free := by obtain rfl | rfl := hc' <;> rfl
  have hring : c'.Ringed := by obtain rfl | rfl := hc' <;> exact ht.ring
  have hhash (h' : Slot) (hh : h' ≠ h) (cls : ℕ) (hmem : h' ∈ c.hash cls) : h' ∈ c'.hash cls := by
    obtain rfl | rfl := hc'
    · exact hmem
    · exact mem_unhash_of_ne hh hmem
  have hself : (c'.fill h v k).entry h = ⟨1, true, false, some v, k.2, k.1⟩ := by
    unfold Cache.fill
    rw [useMru_entry]
    exact update_self ..
  have hother (h' : Slot) (hh : h' ≠ h) : (c'.fill h v k).entry h' = c.entry h' := by
    unfold Cache.fill
    rw [useMru_entry, ← hentry]
    exact update_of_ne hh ..
  have hchain : (c'.fill h v k).hash =
      update c'.hash (MWC_THASH k.2) (h :: c'.hash (MWC_THASH k.2)) := by
    unfold Cache.fill
    rw [useMru_hash]
  -- An entry of the same track group would be idle and frozen.
  have hnew (h' : Slot) : (c.entry h').key ≠ k := by
    intro heq
    have hf := ht.find (h := h') (by rw [show (c.entry h').minor = k.1 from congrArg Prod.fst heq]; exact hk)
    rw [heq] at hf
    obtain ⟨hi, hfrozen⟩ := hm h' hf
    rw [ht.idle h' hi] at hfrozen
    cases hfrozen
  refine ⟨?_, fun h' hminor => ?_, fun h₁ h₂ hminor hkey => ?_, ?_, fun h' hi => ?_⟩
  · unfold Cache.fill
    refine Cache.Ringed.useMru ?_ h
    exact hring
  · by_cases hh : h' = h
    · rw [hh, hself, hchain, update_self]
      exact mem_cons_self ..
    · rw [hother h' hh] at hminor ⊢
      have hmem := hhash h' hh _ (ht.hashed h' hminor)
      rw [hchain]
      by_cases hcls : MWC_THASH (c.entry h').ltg = MWC_THASH k.2
      · rw [hcls, update_self, ← hcls]
        exact mem_cons_of_mem _ hmem
      · rw [update_of_ne hcls]
        exact hmem
  · by_cases hh₁ : h₁ = h
    · by_cases hh₂ : h₂ = h
      · rw [hh₁, hh₂]
      · rw [hh₁, hself, hother h₂ hh₂] at hkey
        exact absurd hkey (hnew h₂)
    · rw [hother h₁ hh₁] at hminor hkey
      by_cases hh₂ : h₂ = h
      · rw [hh₂, hself] at hkey
        exact absurd hkey.symm (hnew h₁)
      · rw [hother h₂ hh₂] at hkey
        exact ht.distinct h₁ h₂ hminor hkey
  · have hcount := idleCount_setEntry c h ⟨1, true, false, some v, k.2, k.1⟩
    have hpos := idleCount_pos hidle
    have hold := ht.free
    rw [if_pos hidle, if_neg Nat.one_ne_zero] at hcount
    have hnewFree : (c'.fill h v k).free = decFree c.free := by
      unfold Cache.fill
      rw [useMru_free]
      exact congrArg decFree hfree
    have hnewCount : (c'.fill h v k).idleCount =
        (c.setEntry h ⟨1, true, false, some v, k.2, k.1⟩).idleCount := by
      unfold Cache.idleCount Cache.fill
      rw [useMru_entry, hentry]
      rfl
    have hdec := decFree_add_one (hold.symm ▸ hpos : 0 < c.free)
    omega
  · by_cases hh : h' = h
    · rw [hh, hself]
    · rw [hother h' hh] at hi ⊢
      exact ht.idle h' hi

end Operations

end Entries

/-!
## The representation of the cache over runs

In every run whose steps meet the conditions, the list of use, the hash chains, the counts and the
number of the free entries are as they should be, and none of the panics that say otherwise is met.
-/

section Representation

open Osf1.Computation

/-- An entry in use has been taken for a request that finds no volume. -/
def Spoils (s : Volgrp) (lb : Buf) : Prop :=
  Missed s.cache lb.key ∧ s.inflight = none ∧ s.cache.free ≠ 0 ∧ s.target lb = none ∧
    ∃ h, s.cache.idle = some h ∧ (s.cache.entry h).minor ≠ 0

/-- The steps that keep the representation: no count reaches the end of its range, no entry in use
is taken for a request that finds no volume, and the last write of an entry is not done while the
entry is frozen, nor does it freeze it. -/
def Orderly (s : Volgrp) : Event → Prop
  | .submit lb => Roomy s lb ∧ ¬Spoils s lb
  | .retry => ∀ lb ∈ s.retrying.head?, Roomy s lb ∧ ¬Spoils s lb
  | .complete lb vgsaFailed => ∀ h, s.cache.find lb.key = some h → (s.cache.entry h).iocnt = 1 →
      (s.cache.entry h).frozen = false ∧ vgsaFailed = false
  | _ => True

/-- The representation of the cache. -/
structure Represented (s : Volgrp) : Prop where
  ring : s.cache.Ringed
  nodup : ∀ cls, (s.cache.hash cls).Nodup
  hashed : ∀ h, (s.cache.entry h).minor ≠ 0 → ∀ cls, h ∈ s.cache.hash cls ↔ cls = MWC_THASH (s.cache.entry h).ltg
  unhashed : ∀ h, (s.cache.entry h).minor = 0 → ∀ cls, h ∉ s.cache.hash cls
  distinct : ∀ h h', (s.cache.entry h).minor ≠ 0 → (s.cache.entry h').key = (s.cache.entry h).key → h' = h
  iocnt : ∀ h, (s.cache.entry h).iocnt =
    if (s.cache.entry h).minor = 0 then 0 else s.outstanding.count (s.cache.entry h).key
  free : s.cache.free = s.cache.idleCount
  idle : ∀ h, (s.cache.entry h).iocnt = 0 → (s.cache.entry h).frozen = false

/-- The panics that say that the representation is broken. -/
def brokenPanics : List Panic :=
  [.searchLoop, .newNotHashed, .removeNotHashed, .newNotFree, .dupMwcDone, .dupCacheDone]

/-- What is kept by the steps. -/
structure Kept (s : Volgrp) : Prop where
  charged : Charged s
  tidy : Tidy s.cache
  clean : s.clean = true → s.cleanMinor ≠ 0

variable {s t : Volgrp} {lb : Buf} {h : Slot} {v : Pvnum} {c d : Cache} {k : ℕ × ℕ}

theorem Kept.represented (hs : Kept s) : Represented s where
  ring := hs.tidy.ring
  nodup := hs.charged.sound.nodup
  hashed := by
    intro h hm cls
    constructor
    · intro hh
      exact (hs.charged.sound.class_eq cls h hh).1.symm
    · rintro rfl
      exact hs.tidy.hashed h hm
  unhashed := fun h hm => hs.charged.sound.unhashed_of_minor hm
  distinct := hs.tidy.distinct
  iocnt := by
    intro h
    split
    · rename_i hm
      by_contra hbusy
      exact (hs.charged.sound.class_eq _ h (find_mem (hs.charged.sound.busy h hbusy))).2 hm
    · rename_i hm
      exact (hs.charged.sound.count_of_find (hs.tidy.find hm)).symm
  free := hs.tidy.free
  idle := hs.tidy.idle

section Steps

theorem free_of_lv_cache_new (hnew : lv_cache_new c = .ok (some (h, d))) : c.free ≠ 0 := by
  intro hfree
  unfold lv_cache_new at hnew
  rw [if_pos hfree] at hnew
  cases hnew

theorem lv_cache_remove_eq {cls : ℕ} (hrem : lv_cache_remove c cls h = .ok d) :
    d = (c.unhash cls h).setEntry h ⟨(c.entry h).iocnt, false, false, none, 0, 0⟩ := by
  unfold lv_cache_remove at hrem
  split at hrem
  · cases hrem
    rfl
  · cases hrem

variable {b : Bool} {minor : ℕ}

theorem Tidy.checked (ht : Tidy s.cache) (hs : Charged s) (hc : Checked s lb b t)
    (hminor : lb.minor ≠ 0) (hroom : Roomy s lb) (hspoil : ¬Spoils s lb) : Tidy t.cache := by
  cases hc with
  | waits => exact ht
  | hitWaits hf _ _ _ _ => exact ht.charge (hroom _ hf)
  | hitScheduled hf _ _ => exact ht.charge (hroom _ hf)
  | @fails h c hm hi hnew htarget =>
    obtain ⟨hidle, -, -, -, ⟨rfl, -⟩ | ⟨-, hused⟩⟩ := hs.sound.lv_cache_new hnew
    · exact ht
    · exact absurd ⟨hm, hi, free_of_lv_cache_new hnew, htarget, h, hidle, hused⟩ hspoil
  | @fills h c v hm _ hnew _ =>
    obtain ⟨-, hidle, -, -, hc⟩ := hs.sound.lv_cache_new hnew
    exact ht.fill hm hminor hidle (hc.imp And.left And.left)

theorem Tidy.scrubEntry (ht : Tidy c) (hscrub : Mwc.scrubEntry c minor h = .ok (b, d)) : Tidy d := by
  obtain rfl | ⟨-, -, hidle, d, hrem, rfl⟩ := scrubEntry_cases hscrub
  · exact ht
  · rw [lv_cache_remove_eq hrem, hidle]
    refine Tidy.useLru ?_ h
    exact ht.clear (n := c.free) (by rw [if_pos hidle])

theorem lv_cache_update_cache (s : Volgrp) : (lv_cache_update s).cache = s.cache := by
  obtain ⟨pv, cacheWrite, heq, -⟩ := lv_cache_update_cases s
  rw [heq]

theorem lv_cache_start_cache (s : Volgrp) : (lv_cache_start s).cache = s.cache := by
  obtain heq | ⟨v, rest, -, -, heq⟩ := lv_cache_start_cases s
  · rw [heq]
  · rw [heq]
    unfold Volgrp.stampRecord
    split <;> rfl

theorem Tidy.scrub (ht : Tidy s.cache) (hscrub : lv_cache_scrub s minor = .ok (b, t)) : Tidy t.cache := by
  obtain ⟨c, hwalk, rfl⟩ := lv_cache_scrub_cases hscrub
  have hc : Tidy c := scrubFrom_keeps (P := Tidy)
    (fun c c' h b hc hstep => hc.scrubEntry hstep) LVM_NUMMWC ht hwalk
  split
  · rw [lv_cache_update_cache]
    exact hc
  · exact hc

theorem Tidy.drain {i : ℕ} (ht : Tidy s.cache) (hs : Charged s) (hd : drain s i = .ok (b, t)) : Tidy t.cache := by
  obtain ⟨error, lb, rest, h, hi, hf, hd⟩ := drain_cases hs.sound hd
  have hsound := hs.sound
  rw [outstanding_advance hi] at hsound
  obtain ⟨hcount, hdec, -⟩ := hsound.uncharge hf
  have hbusy : (s.cache.entry h).iocnt ≠ 0 := by omega
  cases hd with
  | scheduled => exact ht.setEntry (n := s.cache.free) rfl (fun h0 => absurd h0 hbusy) rfl
  | requeued _ => exact ht.setEntry (n := s.cache.free) rfl (fun h0 => absurd h0 hbusy) rfl
  | @discharged e _ he hne =>
    refine ht.setEntry (n := s.cache.free) (by rw [he]; rfl) (fun h0 => absurd h0 hne) ?_
    rw [if_neg hbusy, if_neg hne]
  | @removed e c _ he hzero hrem =>
    have hc := lv_cache_remove_eq hrem
    have heq : c = { (s.cache.unhash (MWC_THASH lb.key.2) h).setEntry h
        ⟨0, false, false, none, 0, 0⟩ with free := incFree s.cache.free } := by
      rw [hc]
      unfold Cache.setEntry Cache.unhash
      simp only [update_idem, update_self, hzero]
    refine Tidy.useLru ?_ h
    rw [heq]
    refine ht.clear ?_
    rw [if_neg hbusy, incFree_eq (ht.free ▸ idleCount_le _)]

theorem Tidy.complete {vgsaFailed : Bool} (ht : Tidy s.cache) (hs : Charged s)
    (hc : complete s lb vgsaFailed = .ok t)
    (hok : ∀ h, s.cache.find lb.key = some h → (s.cache.entry h).iocnt = 1 →
      (s.cache.entry h).frozen = false ∧ vgsaFailed = false) : Tidy t.cache := by
  obtain ⟨hmem, h, e, hf, he, rfl⟩ := complete_cases hs.sound hc
  have hout : s.outstanding = lb.key ::ₘ ({ s with sched := s.sched.erase lb } : Volgrp).outstanding :=
    outstanding_erase (fun _ => rfl) rfl hmem rfl
  have hsound := hs.sound
  rw [hout] at hsound
  obtain ⟨hcount, hdec, -⟩ := hsound.uncharge hf
  have hbusy : (s.cache.entry h).iocnt ≠ 0 := by omega
  have hcnt := (congrArg Entry.iocnt he).trans hdec
  have hlast (h0 : e.iocnt = 0) : e.frozen = false := by
    obtain ⟨hfrozen, hvgsa⟩ := hok h hf (by omega)
    rw [he, hvgsa]
    simpa using hfrozen
  refine ht.setEntry (by rw [he]; rfl) hlast ?_
  rw [if_neg hbusy]
  by_cases h0 : e.iocnt = 0
  · rw [if_pos ⟨h0, hlast h0⟩, if_pos h0, incFree_eq (ht.free ▸ idleCount_le _)]
  · rw [if_neg fun hh => h0 hh.1, if_neg h0]

theorem Checked.clean (hc : Checked s lb b t) : t.clean = s.clean ∧ t.cleanMinor = s.cleanMinor := by
  cases hc <;> exact ⟨rfl, rfl⟩

theorem lv_cache_scrub_clean (hscrub : lv_cache_scrub s minor = .ok (b, t)) :
    t.clean = s.clean ∧ t.cleanMinor = s.cleanMinor := by
  obtain ⟨c, -, rfl⟩ := lv_cache_scrub_cases hscrub
  split
  · obtain ⟨pv, cacheWrite, heq, -⟩ := lv_cache_update_cases { s with cache := c }
    rw [heq]
    exact ⟨rfl, rfl⟩
  · exact ⟨rfl, rfl⟩

theorem lv_cache_start_clean (s : Volgrp) :
    (lv_cache_start s).clean = s.clean ∧ (lv_cache_start s).cleanMinor = s.cleanMinor := by
  have hstamp : s.stampRecord.clean = s.clean ∧ s.stampRecord.cleanMinor = s.cleanMinor := by
    unfold Volgrp.stampRecord
    split <;> exact ⟨rfl, rfl⟩
  obtain heq | ⟨v, rest, -, -, heq⟩ := lv_cache_start_cases s
  · rw [heq]
    exact ⟨rfl, rfl⟩
  · rw [heq]
    exact hstamp

theorem Kept.of_clean (hs : Kept s) (hcharged : Charged t) (htidy : Tidy t.cache)
    (hclean : t.clean = s.clean ∧ t.cleanMinor = s.cleanMinor) : Kept t :=
  ⟨hcharged, htidy, by rw [hclean.1, hclean.2]; exact hs.clean⟩

theorem Kept.start (hs : Kept s) : Kept (lv_cache_start s) :=
  hs.of_clean hs.charged.start (by rw [lv_cache_start_cache]; exact hs.tidy)
    (lv_cache_start_clean s)

theorem Kept.scrub (hs : Kept s) (hscrub : lv_cache_scrub s minor = .ok (b, t)) : Kept t :=
  hs.of_clean (hs.charged.scrub hscrub) (hs.tidy.scrub hscrub) (lv_cache_scrub_clean hscrub)

theorem Orderly.room {i : Event} (hok : Orderly s i) : RoomFor s i := by
  cases i with
  | submit lb => exact hok.1
  | retry => exact fun lb hlb => (hok lb hlb).1
  | _ => trivial

theorem Kept.step {i : Event} {f : Option Buf} (hs : Kept s) (hok : Orderly s i)
    (hstep : stepFails s i = .ok (f, t)) : Kept t := by
  have hcharged := hs.charged.step hok.room hstep
  cases i with
  | submit lb =>
    obtain ⟨hm, b, -, hc⟩ := submit_cases hs.charged.sound hstep
    exact hs.of_clean hcharged (hs.tidy.checked hs.charged hc hm hok.1 hok.2) hc.clean
  | start =>
    cases hstep
    exact hs.start
  | tear =>
    obtain ⟨u, hu, hf⟩ := map_eq_ok hstep
    cases hf
    obtain ⟨v, -, rfl⟩ := overwrite_cases hu
    exact hs.of_clean hcharged hs.tidy ⟨rfl, rfl⟩
  | land =>
    obtain ⟨u, hu, hf⟩ := map_eq_ok hstep
    cases hf
    obtain ⟨v, -, rfl⟩ := overwrite_cases hu
    exact hs.of_clean hcharged hs.tidy ⟨rfl, rfl⟩
  | cacheDone error =>
    obtain ⟨u, hu, hf⟩ := map_eq_ok hstep
    cases hf
    obtain ⟨v, w, -, -, -, rfl, hw⟩ := cacheDone_cases hu
    have htidy : Tidy w.cache := by
      obtain rfl | ⟨-, b, hscrub⟩ := hw
      · exact hs.tidy
      · exact Tidy.scrub (s := { s with inflight := none }) hs.tidy hscrub
    exact ⟨hcharged, htidy, fun h => absurd h Bool.false_ne_true⟩
  | drain i =>
    obtain ⟨⟨b, u⟩, hu, hf⟩ := map_eq_ok hstep
    cases hf
    have htidy := hs.tidy.drain hs.charged hu
    obtain ⟨error, lb, rest, h, -, -, hd⟩ := drain_cases hs.charged.sound hu
    cases hd <;> exact hs.of_clean hcharged htidy ⟨rfl, rfl⟩
  | complete lb vgsaFailed =>
    obtain ⟨u, hu, hf⟩ := map_eq_ok hstep
    cases hf
    have htidy := hs.tidy.complete hs.charged hu hok
    obtain ⟨-, h, e, -, -, rfl⟩ := complete_cases hs.charged.sound hu
    exact hs.of_clean hcharged htidy ⟨rfl, rfl⟩
  | take =>
    obtain ⟨-, rfl⟩ := take_cases hstep
    exact hs.of_clean hcharged hs.tidy ⟨rfl, rfl⟩
  | retry =>
    obtain ⟨lb, rest, b, hr, -, hc⟩ := retry_cases hs.charged.sound hstep
    have hm : lb.minor ≠ 0 := hs.charged.retrying lb (hr ▸ mem_cons_self ..)
    have hok := hok lb (by rw [hr]; rfl)
    have hrest : Charged { s with retrying := rest } :=
      ⟨hs.charged.sound, hs.charged.waiting, fun x hx => hs.charged.retrying x (hr ▸ mem_cons_of_mem _ hx)⟩
    have hspoil : ¬Spoils { s with retrying := rest } lb := by
      have htarget : ({ s with retrying := rest } : Volgrp).target lb = s.target lb :=
        target_congr rfl rfl fun _ => rfl
      unfold Spoils
      rw [htarget]
      exact hok.2
    exact hs.of_clean hcharged (Tidy.checked (s := { s with retrying := rest }) hs.tidy hrest hc hm
      hok.1 hspoil) hc.clean
  | clean minor =>
    obtain ⟨hm, -, rfl | ⟨-, b, u, hscrub, rfl⟩⟩ := clean_cases hstep
    · exact ⟨hcharged, hs.tidy, fun _ => hm⟩
    · split
      · exact (hs.scrub hscrub).start
      · exact hs.scrub hscrub
  | env missing maxmirrors copies =>
    cases hstep
    exact hs.of_clean hcharged hs.tidy ⟨rfl, rfl⟩

end Steps

section Panics

/-- The panic that a step ends in, if it does, is none of those. -/
def Unbroken {α : Type} (x : Except Stop α) : Prop := ∀ p, x = .error (.panic p) → p ∉ brokenPanics

variable {α : Type} {minor : ℕ}

theorem Unbroken.map {β : Type} {x : Except Stop α} (hx : Unbroken x) (f : α → β) : Unbroken (x.map f) := by
  intro p hp
  cases x with
  | error e =>
    cases hp
    exact hx p rfl
  | ok a => cases hp

theorem unbroken_ok (a : α) : Unbroken (.ok a : Except Stop α) := by
  intro p hp
  cases hp

theorem unbroken_disabled : Unbroken (.error .disabled : Except Stop α) := by
  intro p hp
  cases hp

theorem unbroken_panic {p : Panic} (hp : p ∉ brokenPanics) : Unbroken (.error (.panic p) : Except Stop α) := by
  rintro p' hp'
  cases hp'
  exact hp

theorem unbroken_queue (s : Volgrp) (lb : Buf) : Unbroken (lv_cache_queue s lb) := by
  unfold lv_cache_queue
  split
  · exact unbroken_panic (by decide)
  · exact unbroken_ok _

theorem unbroken_remove {cls : ℕ} (hh : h ∈ c.hash cls) : Unbroken (lv_cache_remove c cls h) := by
  unfold lv_cache_remove
  rw [if_pos hh]
  exact unbroken_ok _

theorem Tidy.lv_cache_new (ht : Tidy c) : ∃ r, lv_cache_new c = .ok r := by
  unfold Mwc.lv_cache_new
  split
  · exact ⟨_, rfl⟩
  rename_i hfree
  obtain ⟨h, hidle⟩ := ht.idle_isSome hfree
  rw [hidle]
  simp only
  split
  · rename_i hm
    rw [if_pos (ht.hashed h hm)]
    exact ⟨_, rfl⟩
  · exact ⟨_, rfl⟩

theorem Kept.unbroken_checkcache (hs : Kept s) (lb : Buf) : Unbroken (lv_checkcache s lb) := by
  have hmiss : Unbroken (miss s lb) := by
    unfold miss
    split
    · exact unbroken_ok _
    obtain ⟨r, hr⟩ := hs.tidy.lv_cache_new
    rw [hr]
    cases r with
    | none => exact unbroken_ok _
    | some r =>
      simp only
      have hq := unbroken_queue { s with cache := r.2 } lb
      split
      · rename_i heq
        rw [heq] at hq
        intro p hp
        cases hp
        exact hq p rfl
      · exact unbroken_ok _
      · exact unbroken_ok _
  unfold lv_checkcache
  rw [hs.charged.sound.search]
  cases s.cache.find lb.key with
  | none => exact hmiss
  | some h =>
    simp only
    split
    · refine Unbroken.map ?_ _
      unfold hit
      simp only
      split
      · split
        · intro p hp
          cases hp
        · exact unbroken_ok _
      · exact unbroken_ok _
    · exact hmiss

theorem Tidy.unbroken_scrubFrom (ht : Tidy c) (hm : minor ≠ 0) (lststart : Slot)
    (n : ℕ) (h : Slot) (chg : Bool) : Unbroken (scrubFrom minor lststart n h chg c) := by
  induction n generalizing h chg c with
  | zero => exact unbroken_ok _
  | succ n ih =>
    unfold scrubFrom
    split
    · rename_i heq
      unfold Mwc.scrubEntry at heq
      simp only at heq
      split at heq
      · rename_i hmatch
        split at heq
        · cases heq
          exact unbroken_panic (by decide)
        · have hmem := ht.hashed h (hmatch.1.trans_ne hm)
          unfold lv_cache_remove at heq
          rw [if_pos hmem] at heq
          cases heq
      · cases heq
    · rename_i heq
      split
      · exact unbroken_ok _
      · exact ih (ht.scrubEntry heq) _ _

section

variable (hs : Kept s)
include hs

theorem Kept.unbroken_scrub (hm : minor ≠ 0) : Unbroken (lv_cache_scrub s minor) := by
  unfold lv_cache_scrub
  have hwalk := hs.tidy.unbroken_scrubFrom hm s.cache.lst LVM_NUMMWC
    (s.cache.prev s.cache.lst) false
  split
  · rename_i heq
    rw [heq] at hwalk
    intro p hp
    cases hp
    exact hwalk p rfl
  · exact unbroken_ok _

theorem Kept.unbroken_cacheDone (error : Bool) : Unbroken (cacheDone s error) := by
  have hidle : Kept { s with inflight := none } := hs.of_clean (hs.charged.congr rfl rfl rfl rfl) hs.tidy ⟨rfl, rfl⟩
  unfold cacheDone
  split
  · exact unbroken_disabled
  split
  · exact unbroken_disabled
  simp only
  split
  · exact unbroken_panic (by decide)
  split
  · rename_i hclean
    exact (hidle.unbroken_scrub (hs.clean hclean)).map _
  · exact unbroken_ok _

theorem Kept.unbroken_drain (i : ℕ) : Unbroken (drain s i) := by
  unfold drain
  split
  · rename_i error lb rest hi
    simp only
    rw [show (s.advance i).cache = s.cache from rfl, hs.charged.sound.search]
    cases hf : s.cache.find lb.key with
    | none => exact unbroken_panic (by decide)
    | some h =>
      simp only
      split
      · exact unbroken_ok _
      have hq := unbroken_queue (s.advance i) lb
      split
      · rename_i heq
        rw [heq] at hq
        intro p hp
        cases hp
        exact hq p rfl
      · exact unbroken_ok _
      · refine Unbroken.map ?_ _
        unfold failWaiter
        rw [if_neg (by omega)]
        split
        · refine Unbroken.map (unbroken_remove ?_) _
          exact mem_of_find?_eq_some hf
        · exact unbroken_ok _
  · exact unbroken_disabled

theorem Kept.unbroken_complete (lb : Buf) (vgsaFailed : Bool) : Unbroken (complete s lb vgsaFailed) := by
  unfold complete
  split
  · rw [hs.charged.sound.search]
    cases s.cache.find lb.key with
    | none => exact unbroken_panic (by decide)
    | some h =>
      simp only
      exact unbroken_ok _
  · exact unbroken_disabled

theorem Kept.unbroken_clean (hm : minor ≠ 0) : Unbroken (lv_cache_clean s minor) := by
  unfold lv_cache_clean
  split
  · exact unbroken_ok _
  · exact (hs.unbroken_scrub hm).map _

theorem Kept.unbroken (i : Event) : Unbroken (stepFails s i) := by
  have hoverwrite (r : Option Rec) : Unbroken (s.overwrite r) := by
    unfold Volgrp.overwrite
    split
    · exact unbroken_disabled
    · exact unbroken_ok _
  cases i with
  | submit lb =>
    unfold stepFails
    simp only
    split
    · exact unbroken_disabled
    · exact (hs.unbroken_checkcache lb).map _
  | start => exact unbroken_ok _
  | tear => exact (hoverwrite none).map _
  | land => exact (hoverwrite (some s.record)).map _
  | cacheDone error => exact (hs.unbroken_cacheDone error).map _
  | drain i => exact (hs.unbroken_drain i).map _
  | complete lb vgsaFailed => exact (hs.unbroken_complete lb vgsaFailed).map _
  | take =>
    unfold stepFails
    simp only
    split
    · exact unbroken_ok _
    · exact unbroken_disabled
  | retry =>
    unfold stepFails
    simp only
    split
    · exact unbroken_disabled
    · rename_i lb rest hr
      have hrest : Kept { s with retrying := rest } :=
        hs.of_clean ⟨hs.charged.sound, hs.charged.waiting,
          fun x hx => hs.charged.retrying x (hr ▸ mem_cons_of_mem _ hx)⟩ hs.tidy ⟨rfl, rfl⟩
      exact (hrest.unbroken_checkcache lb).map _
  | clean minor =>
    unfold stepFails
    simp only
    split
    · exact unbroken_disabled
    · rename_i hm
      exact (hs.unbroken_clean hm).map _
  | env missing maxmirrors copies => exact unbroken_ok _

end

end Panics

theorem initCache_ringed : initCache.Ringed := ⟨(finRange LVM_NUMMWC).tail, ⟨by decide, by decide⟩, by decide⟩

theorem Activated.kept (hs : Activated s) : Kept s := by
  refine ⟨hs.charged, ?_, fun h => absurd (hs.clean.symm.trans h) Bool.false_ne_true⟩
  rw [hs.cache]
  exact ⟨initCache_ringed, fun h hm => absurd rfl hm, fun h h' hm => absurd rfl hm, by decide, fun _ _ => rfl⟩

/-- In every run whose steps meet the conditions, the cache is represented as it should be, and the
next step ends in none of the panics that say that it is not. -/
theorem cache_represented (hs : (mwcSystem.restrict Orderly).Reachable s) :
    Represented s ∧ ∀ i p, step s i = .error (.panic p) → p ∉ brokenPanics := by
  have hkept : Kept s := by
    refine hs.invariant (I := Kept) (fun s hinit => Activated.kept hinit) ?_
    rintro s i t - hkept ⟨hok, hstep⟩
    obtain ⟨⟨f, u⟩, hu, rfl⟩ := map_eq_ok hstep
    exact hkept.step hok hu
  refine ⟨hkept.represented, fun i => ?_⟩
  exact (hkept.unbroken i).map Prod.snd

/-- Two copies of everything, on two volumes that are there. -/
def mirrored : Volgrp where
  cache := initCache
  pv := fun _ => ⟨false, false, false, [], 0⟩
  maxmirrors := fun _ => 1
  copies := fun _ _ i => ⟨some (if i = 0 then 0 else 1), false⟩
  extshift := 11
  waiting := []
  retrying := []
  cacheWrite := []
  changed := false
  clean := false
  cleanMinor := 0
  inflight := none
  landed := false
  bstamp := 0
  estamp := 0
  clock := 0
  disk := fun _ _ => none
  drains := []
  sched := []
  last := none

theorem activated_mirrored : Activated mirrored where
  cache := rfl
  wait := fun _ => rfl
  waiting := rfl
  retrying := rfl
  drains := rfl
  sched := rfl
  inflight := rfl
  clean := rfl
  last := rfl
  cacheWrite := fun _ => rfl
  bstamp := le_rfl
  estamp := fun _ => rfl
  disk := fun _ _ _ h => by cases h

/-- A write to the logical volume 1. -/
def firstWrite : Buf := ⟨1, 0⟩

theorem reachable_scheduled : ∃ s t, (mwcSystem.restrict Orderly).Reachable s ∧
    s.sched = [firstWrite] ∧ step s (.complete firstWrite true) = .ok t ∧
    (t.cache.entry 31).iocnt = 0 ∧ (t.cache.entry 31).frozen = true := by
  have hstart : (mwcSystem.restrict Orderly).Reachable mirrored := .init activated_mirrored
  have hok : Orderly mirrored (.submit firstWrite) := by
    refine ⟨fun h hf => ?_, fun hspoil => ?_⟩
    · cases hf
    · cases hspoil.2.2.2.1
  exact ⟨_, _, .step (i := .drain 0) (.step (i := .cacheDone false) (.step (i := .land)
    (.step (i := .start) (.step (i := .submit firstWrite) hstart ⟨hok, rfl⟩) ⟨trivial, rfl⟩)
    ⟨trivial, rfl⟩) ⟨trivial, rfl⟩) ⟨trivial, rfl⟩, rfl, rfl, rfl, rfl⟩

/-- In a run whose steps meet the conditions: the state in which the write is scheduled. -/
theorem cache_represented_scheduled : ∃ s, s.sched = [firstWrite] ∧ Represented s ∧
    ∀ i p, step s i = .error (.panic p) → p ∉ brokenPanics := by
  obtain ⟨s, t, hreach, hsched, -⟩ := reachable_scheduled
  exact ⟨s, hsched, cache_represented hreach⟩

/-- An entry without a write is frozen when the write is done whose `VGSA` write has failed. -/
theorem represented_not_always : ¬∀ s, mwcSystem.Reachable s →
    Represented s ∧ ∀ i p, step s i = .error (.panic p) → p ∉ brokenPanics := by
  intro hall
  obtain ⟨s, t, hreach, -, hstep, hidle, hfrozen⟩ := reachable_scheduled
  have hrep := (hall t (hreach.of_restrict.step hstep)).1
  rw [hrep.idle 31 hidle] at hfrozen
  cases hfrozen

end Representation

end Osf1.Mwc
