import Osf1.QuotaCache.Sections

/-!
# The sections that change the chains

A dquot is taken for another identifier, it is inserted, and it is taken off its chain when it could
not be read or when its quota file is closed.
-/

set_option autoImplicit false

namespace Osf1.QuotaCache

open Function List Option

open Osf1.Computation Osf1.Quota

variable {dqhash : u_int} {s t : Cache} {chain chain' : ℕ → List ℕ} {free : List ℕ}
  {q q' h ots ump : ℕ} {c : Call} {g : Get} {type : QuotaType} {vp : Vnode}

section Removal

/-- A dquot has been taken off its chain, if it was on one. -/
structure Removed (s t : Cache) (chain chain' : ℕ → List ℕ) (free : List ℕ) (q : ℕ) : Prop where
  linked : Linked t chain' free
  mem : ∀ h q', q' ∈ chain' h ↔ q' ∈ chain h ∧ q' ≠ q
  alone : ∀ q', q' ≠ q → (∀ h, q' ∉ chain h) → Alone s q' → Alone t q'

theorem Linked.remque_hashed (hs : Linked s chain free) (hq : q ∈ chain h) :
    Removed s (s.remque q) chain (update chain h ((chain h).erase q)) free q where
  linked := hs.remque hq
  mem k x := by
    rw [mem_update_erase hs]
    refine and_congr_right fun hx => not_congr ⟨fun hk => hk.2, fun hxq => ⟨?_, hxq⟩⟩
    exact hs.apart k h q (hxq ▸ hx) hq
  alone x _ hx hax := hax.remque_other hs hq (hx h)

theorem Linked.remque_alone (hs : Linked s chain free) (hq : Alone s q) (hnot : ∀ h, q ∉ chain h) :
    Removed s (s.remque q) chain chain free q where
  linked := by
    rw [hq.remque]
    exact hs
  mem k x := (and_iff_left_of_imp fun hx (hxq : x = q) => hnot k (hxq ▸ hx)).symm
  alone x _ _ hax := by
    rw [hq.remque]
    exact hax

theorem Linked.remque_placed (hs : Linked s chain free) (hq : (∃ h, q ∈ chain h) ∨ Alone s q) :
    ∃ chain', Removed s (s.remque q) chain chain' free q := by
  by_cases hmem : ∃ h, q ∈ chain h
  · obtain ⟨h, hmem⟩ := hmem
    exact ⟨_, hs.remque_hashed hmem⟩
  · have halone := hq.resolve_left hmem
    exact ⟨chain, hs.remque_alone halone fun h hh => hmem ⟨h, hh⟩⟩

theorem Removed.selfLink (hr : Removed s t chain chain' free q) : Removed s (t.selfLink q) chain chain' free q where
  linked := hr.linked.selfLink fun h hh => ((hr.mem h q).mp hh).2 rfl
  mem := hr.mem
  alone x hne hx hax := (hr.alone x hne hx hax).selfLink_other

theorem Removed.place (hr : Removed s t chain chain' free q) (hne : q' ≠ q)
    (hq' : (∃ h, q' ∈ chain h) ∨ Alone s q') : (∃ h, q' ∈ chain' h) ∨ Alone t q' := by
  by_cases hmem : ∃ h, q' ∈ chain h
  · obtain ⟨h, hmem⟩ := hmem
    exact .inl ⟨h, (hr.mem h q').mpr ⟨hmem, hne⟩⟩
  · exact .inr (hr.alone q' hne (fun h hh => hmem ⟨h, hh⟩) (hq'.resolve_left hmem))

end Removal

section Building

theorem total_become_one {X : Cache} {c c' : Call} {f : Call → ℕ} (hcalls : X.calls = s.calls)
    (hc : c ∈ s.calls) : (X.become c [c']).total f + f c = s.total f + f c' := by
  have h := total_become (s := X) [c'] f (hcalls ▸ hc)
  have htotal : X.total f = s.total f := congrArg (fun l => (l.map f).sum) hcalls
  rw [htotal] at h
  simpa using h

section

variable (hs : Sound dqhash s chain free)
include hs

theorem Sound.not_building (hq : 0 < s.total (Call.builds q)) : s.references q = 0 := by
  by_contra hne
  exact hq.ne' ((hs.counted q).excl hne)

theorem Sound.building_notMem (hq : 0 < s.total (Call.builds q))
    (h : ℕ) : q ∉ chain h := fun hmem => hq.ne' (hs.placed.hashed h q hmem).2

theorem Sound.allocate_step (hc : .missed g ots ∈ s.calls)
    (ht : dqgetAllocate s g ots = some t) : Sound dqhash t chain free := by
  unfold dqgetAllocate at ht
  split at ht
  swap
  · cases ht
  obtain rfl := some_inj.mp ht
  set n := s.numdquot
  set t : Cache := { (s.setDquot n zeroDquot).become (.missed g ots) [.building g ots n] with
    numdquot := n + 1 }
  have htotal (f : Call → ℕ) : t.total f + f (.missed g ots) = s.total f + f (.building g ots n) :=
    total_become_one (X := s.setDquot n zeroDquot) rfl hc
  have href (x : ℕ) : t.references x = s.references x := congrArg (s.refs x + ·) (htotal (Call.holds x))
  have hbuilds (x : ℕ) :
      t.total (Call.builds x) = s.total (Call.builds x) + if n = x then 1 else 0 :=
    htotal (Call.builds x)
  have hother (x : ℕ) (hx : x ≠ n) : t.total (Call.builds x) = s.total (Call.builds x) := by
    rw [hbuilds, if_neg (Ne.symm hx), Nat.add_zero]
  have hsame (x : ℕ) (hx : x ≠ n) : t.dquot x = s.dquot x := update_of_ne hx ..
  have hfresh : s.references n + s.total (Call.builds n) = 0 := by
    by_contra hne
    exact Nat.lt_irrefl n ((hs.counted n).busy_lt (Nat.pos_of_ne_zero hne))
  have hnum : t.numdquot = n + 1 := rfl
  have hchain (k : ℕ) (x : ℕ) (hx : x ∈ chain k) : x ≠ n ∧ x < n ∧ s.total (Call.builds x) = 0 := by
    obtain ⟨hlt, hb⟩ := hs.placed.hashed k x hx
    exact ⟨hlt.ne, hlt, hb⟩
  constructor
  · exact ⟨hs.linked.chains, hs.linked.frees, hs.linked.apart⟩
  · intro x
    by_cases hx : x = n
    · have hb : t.total (Call.builds n) = 1 := by
        rw [hbuilds, if_pos rfl]
        omega
      rw [hx]
      refine ⟨?_, ?_, fun _ => Nat.lt_succ_self n, fun hne => ?_, hb.le⟩
      · have hzero : t.dquot n = zeroDquot := update_self ..
        rw [hzero, href]
        have h0 : s.references n = 0 := by omega
        rw [h0]
        rfl
      · refine iff_of_false (fun hmem => ?_) fun h => ?_
        · exact Nat.lt_irrefl n ((hs.counted n).free_iff.mp hmem).1
        · omega
      · rw [href] at hne
        omega
    · refine (hs.counted x).congr ?_ (href x) (hother x hx) ?_ Iff.rfl
      · rw [hsame x hx]
      · rw [hnum]
        omega
  · refine hs.placed.shrink rfl (fun k x hx => ?_) fun x hx hb => ?_
    · obtain ⟨hne, hlt, hb⟩ := hchain k x hx
      refine ⟨hx, congrArg Dquot.key (hsame x hne), Nat.lt_succ_of_lt hlt, ?_⟩
      rw [hother x hne]
      exact hb
    · have hne : x ≠ n := by
        rintro rfl
        have h := hbuilds n
        rw [if_pos rfl] at h
        omega
      rw [hother x hne] at hb
      exact hs.placed.placed x (by omega) hb
  · have hcs := hs.called.call _ hc
    have hkey (k x : ℕ) (hx : x ∈ chain k) : x ∈ chain k ∧ (t.dquot x).key = (s.dquot x).key :=
      ⟨hx, congrArg Dquot.key (hsame x (hchain k x hx).1)⟩
    refine hs.called.shrink rfl rfl rfl hkey (fun c' hc' => ?_) fun x => ?_
    · rcases mem_append.mp hc' with hc' | hc'
      · rw [mem_singleton.mp hc']
        exact .inr (hcs.shrink (t := t) rfl rfl rfl hkey nofun)
      · have hold := mem_of_mem_erase hc'
        refine .inl ⟨hold, ?_⟩
        rintro g' q' rfl
        exact (hs.called.call _ hold).2
    · exact (htotal (Call.reads x)).trans_le (hs.called.reader x)

theorem Sound.free_placed (hq : q ∈ free) : (∃ h, q ∈ chain h) ∨ Alone s q := by
  obtain ⟨hlt, -, hb⟩ := (hs.counted q).free_iff.mp hq
  exact hs.placed.placed q hlt hb

theorem Sound.not_reading (hq : s.references q = 0) (hc : .reading g q ∈ s.calls) : False := by
  have hpos := (hs.held (q := q) hc (if_pos rfl)).1
  omega

theorem Sound.reuse_step (hc : .missed g ots ∈ s.calls)
    (hq : q ∈ free) : ∃ chain' free', Sound dqhash (dqgetReuse s g ots q) chain' free' := by
  obtain ⟨hlt, href0, hb0⟩ := (hs.counted q).free_iff.mp hq
  obtain ⟨chain', hr⟩ := (hs.linked.unfree hq).remque_placed (hs.free_placed hq)
  refine ⟨chain', free.erase q, ?_⟩
  set t := dqgetReuse s g ots q with ht
  have htotal (f : Call → ℕ) : t.total f + f (.missed g ots) = s.total f + f (.building g ots q) :=
    total_become_one (X := (s.unfree q).remque q) rfl hc
  have href (x : ℕ) : t.references x = s.references x := congrArg (s.refs x + ·) (htotal (Call.holds x))
  have hbuilds (x : ℕ) :
      t.total (Call.builds x) = s.total (Call.builds x) + if q = x then 1 else 0 :=
    htotal (Call.builds x)
  have hother (x : ℕ) (hx : x ≠ q) : t.total (Call.builds x) = s.total (Call.builds x) := by
    rw [hbuilds, if_neg (Ne.symm hx), Nat.add_zero]
  have hself : t.total (Call.builds q) = 1 := by
    rw [hbuilds, if_pos rfl, hb0]
  constructor
  · exact ⟨hr.linked.chains, hr.linked.frees, hr.linked.apart⟩
  · intro x
    by_cases hx : x = q
    · rw [hx]
      refine ⟨?_, ?_, fun _ => hlt, fun hne => ?_, hself.le⟩
      · rw [href]
        exact (hs.counted q).cnt
      · rw [hs.linked.free_nodup.mem_erase_iff]
        refine iff_of_false (fun h => h.1 rfl) fun h => ?_
        omega
      · exact absurd ((href q).trans href0) hne
    · exact (hs.counted x).congr rfl (href x) (hother x hx) Iff.rfl (mem_erase_of_ne hx)
  · refine hs.placed.shrink rfl (fun k x hx => ?_) fun x hx hb => ?_
    · obtain ⟨hmem, hne⟩ := (hr.mem k x).mp hx
      obtain ⟨hlt, hb⟩ := hs.placed.hashed k x hmem
      exact ⟨hmem, rfl, hlt, (hother x hne).trans hb⟩
    · have hne : x ≠ q := by
        rintro rfl
        omega
      rw [hother x hne] at hb
      exact hr.place hne (hs.placed.placed x hx hb)
  · have hcs := hs.called.call _ hc
    have hkey (k x : ℕ) (hx : x ∈ chain' k) : x ∈ chain k ∧ (t.dquot x).key = (s.dquot x).key :=
      ⟨((hr.mem k x).mp hx).1, rfl⟩
    refine hs.called.shrink rfl rfl rfl hkey (fun c' hc' => ?_) fun x => ?_
    · rcases mem_append.mp hc' with hc' | hc'
      · rw [mem_singleton.mp hc']
        exact .inr (hcs.shrink (t := t) rfl rfl rfl hkey nofun)
      · have hold := mem_of_mem_erase hc'
        refine .inl ⟨hold, ?_⟩
        rintro g' q' rfl
        refine (hr.mem _ q').mpr ⟨(hs.called.call _ hold).2, ?_⟩
        rintro rfl
        exact hs.not_reading href0 hold
    · exact (htotal (Call.reads x)).trans_le (hs.called.reader x)

/-- The counts after the dquot that a call builds has got its first reference. -/
theorem Sound.first_reference (X : Cache) {c : Call} (c' : Call)
    (hX : X.calls = s.calls) (hrefs : X.refs = s.refs) (hnum : X.numdquot = s.numdquot) (hc : c ∈ s.calls)
    (hbuilds : ∀ x, c.builds x = if q = x then 1 else 0) (hbuilds' : ∀ x, c'.builds x = 0)
    (hholds : ∀ x, c.holds x = 0) (hholds' : ∀ x, c'.holds x = if q = x then 1 else 0)
    (hself : (X.dquot q).dq_cnt = incShort (s.dquot q).dq_cnt) (hsame : ∀ x ≠ q, X.dquot x = s.dquot x) :
    (∀ x, Counted (X.become c [c']) free x) ∧
      (∀ x ≠ q, (X.become c [c']).total (Call.builds x) = s.total (Call.builds x)) ∧
      0 < s.total (Call.builds q) ∧ (X.become c [c']).total (Call.builds q) = 0 := by
  set t := X.become c [c']
  have htotal (f : Call → ℕ) : t.total f + f c = s.total f + f c' := total_become_one hX hc
  have hb (x : ℕ) : t.total (Call.builds x) + (if q = x then 1 else 0) = s.total (Call.builds x) := by
    have h := htotal (Call.builds x)
    rw [hbuilds, hbuilds'] at h
    exact h
  have href (x : ℕ) : t.references x = s.references x + if q = x then 1 else 0 := by
    have h := htotal (Call.holds x)
    have hrefsx : t.refs x = s.refs x := congrFun hrefs x
    rw [hholds, hholds'] at h
    unfold Cache.references
    omega
  have hother (x : ℕ) (hx : x ≠ q) : t.total (Call.builds x) = s.total (Call.builds x) := by
    have h := hb x
    rw [if_neg (Ne.symm hx)] at h
    exact h
  have hq := hb q
  rw [if_pos rfl] at hq
  have hone := (hs.counted q).builder
  have hpos : 0 < s.total (Call.builds q) := by omega
  have hzero : t.total (Call.builds q) = 0 := by omega
  refine ⟨fun x => ?_, hother, hpos, hzero⟩
  by_cases hx : x = q
  · have href0 := hs.not_building hpos
    have href1 : t.references q = 1 := by
      rw [href, if_pos rfl, href0]
    have hlt : q < t.numdquot := hnum ▸ (hs.counted q).busy_lt (by omega)
    rw [hx]
    refine ⟨?_, ?_, fun _ => hlt, fun _ => hzero, by omega⟩
    · have hcnt : (t.dquot q).dq_cnt = incShort (s.dquot q).dq_cnt := hself
      rw [hcnt, (hs.counted q).cnt, href0, href1]
      rfl
    · refine iff_of_false (fun hmem => ?_) fun h => ?_
      · exact hpos.ne' ((hs.counted q).free_iff.mp hmem).2.2
      · omega
  · refine (hs.counted x).congr ?_ ?_ (hother x hx) ?_ Iff.rfl
    · exact congrArg Dquot.dq_cnt (hsame x hx)
    · rw [href, if_neg (Ne.symm hx), Nat.add_zero]
    · exact Iff.of_eq (congrArg (x < ·) hnum)

end

end Building

section Insertion

section

variable (hs : Sound dqhash s chain free)
include hs

theorem Sound.search_built (hq : ∀ h, q ∉ chain h) {d : Dquot} : (s.setDquot q d).search g h = s.search g h := by
  have hlinked : Linked (s.setDquot q d) chain free := ⟨hs.linked.chains, hs.linked.frees, hs.linked.apart⟩
  rw [hs.search_eq, QuotaCache.search_eq hlinked g (hs.length_le h)]
  congr 1
  refine find?_congr fun x hx => ?_
  have hne : x ≠ q := fun heq => hq h (heq ▸ hx)
  exact isFor_congr (congrArg Dquot.key (update_of_ne hne ..)) rfl

theorem Sound.search_none (hnone : ∀ x, s.search g h ≠ some (some x)) : ∀ x ∈ chain h, s.isFor g x = false := by
  rw [hs.search_eq] at hnone
  have hfind : (chain h).find? (s.isFor g) = none :=
    eq_none_iff_forall_ne_some.mpr fun x hx => hnone x (congrArg some hx)
  exact fun x hx => Bool.eq_false_iff.mpr (find?_eq_none.mp hfind x hx)

theorem Sound.collision_step (hc : .building g ots q ∈ s.calls) (halone : Alone s q) :
    Sound dqhash ((s.setDquot q (g.dquot dqhash (s.dquot q))).become (.building g ots q)
      [.putting q (some g)]) chain free := by
  set t := (s.setDquot q (g.dquot dqhash (s.dquot q))).become (.building g ots q)
    [.putting q (some g)]
  have hself : t.dquot q = g.dquot dqhash (s.dquot q) := update_self ..
  have hsame (x : ℕ) (hx : x ≠ q) : t.dquot x = s.dquot x := update_of_ne hx ..
  obtain ⟨hcounted, hother, hpos, hzero⟩ := hs.first_reference
    (s.setDquot q (g.dquot dqhash (s.dquot q))) (.putting q (some g)) rfl rfl rfl hc
    (fun _ => rfl) (fun _ => rfl) (fun _ => rfl) (fun _ => rfl) (congrArg Dquot.dq_cnt hself) hsame
  have hkey (k x : ℕ) (hx : x ∈ chain k) : x ∈ chain k ∧ (t.dquot x).key = (s.dquot x).key := by
    have hne : x ≠ q := fun heq => hs.building_notMem hpos k (heq ▸ hx)
    exact ⟨hx, congrArg Dquot.key (hsame x hne)⟩
  constructor
  · exact ⟨hs.linked.chains, hs.linked.frees, hs.linked.apart⟩
  · exact hcounted
  · refine hs.placed.shrink rfl (fun k x hx => ?_) fun x hx hb => ?_
    · obtain ⟨hlt, hb⟩ := hs.placed.hashed k x hx
      have hne : x ≠ q := fun heq => hs.building_notMem hpos k (heq ▸ hx)
      exact ⟨hx, (hkey k x hx).2, hlt, (hother x hne).trans hb⟩
    · by_cases hne : x = q
      · exact .inr (hne ▸ halone)
      · rw [hother x hne] at hb
        exact hs.placed.placed x hx hb
  · have hcs := hs.called.call _ hc
    refine hs.called.shrink rfl rfl rfl hkey (fun c' hc' => ?_) fun x => ?_
    · rcases mem_append.mp hc' with hc' | hc'
      · rw [mem_singleton.mp hc']
        exact .inr ⟨hcs.1, trivial⟩
      · have hold := mem_of_mem_erase hc'
        refine .inl ⟨hold, ?_⟩
        rintro g' q' rfl
        exact (hs.called.call _ hold).2
    · have h : t.total (Call.reads x) + Call.reads x (.building g ots q) =
          s.total (Call.reads x) + Call.reads x (.putting q (some g)) :=
        total_become_one (X := s.setDquot q (g.dquot dqhash (s.dquot q))) rfl hc
      exact h.trans_le (hs.called.reader x)

end

theorem total_reads_le : s.total (Call.reads q) ≤ s.total (Call.holds q) := by
  refine sum_le_sum fun c _ => ?_
  cases c with
  | reading g x => exact le_rfl
  | _ => exact Nat.zero_le _

theorem Sound.insert_step (hs : Sound dqhash s chain free) (hc : .building g ots q ∈ s.calls)
    (hnone : ∀ x ∈ chain (g.dh dqhash), s.isFor g x = false) :
    Sound dqhash { ((s.setDquot q (g.dquot dqhash (s.dquot q))).insque q (g.dh dqhash)).become
        (.building g ots q) [.reading g q] with
      dqh_timestamp := update s.dqh_timestamp (g.dh dqhash)
        (s.dqh_timestamp (g.dh dqhash) + 1) }
      (update chain (g.dh dqhash) (q :: chain (g.dh dqhash))) free := by
  set h := g.dh dqhash
  set X := (s.setDquot q (g.dquot dqhash (s.dquot q))).insque q h with hX
  set t : Cache := { X.become (.building g ots q) [.reading g q] with
    dqh_timestamp := update s.dqh_timestamp h (s.dqh_timestamp h + 1) } with ht
  have hself : t.dquot q = g.dquot dqhash (s.dquot q) := update_self ..
  have hsame (x : ℕ) (hx : x ≠ q) : t.dquot x = s.dquot x := update_of_ne hx ..
  obtain ⟨hcounted, hother, hpos, hzero⟩ := hs.first_reference X (.reading g q) rfl rfl rfl hc
    (fun _ => rfl) (fun _ => rfl) (fun _ => rfl) (fun _ => rfl)
    (congrArg Dquot.dq_cnt hself) hsame
  have hnot := hs.building_notMem hpos
  have hcall := hs.called.call _ hc
  obtain ⟨hquota, hflush⟩ := hcall.1 g rfl
  have hlt : q < s.numdquot := (hs.counted q).busy_lt (by omega)
  have hkey (k x : ℕ) (hx : x ∈ chain k) : (t.dquot x).key = (s.dquot x).key := by
    have hne : x ≠ q := fun heq => hnot k (heq ▸ hx)
    exact congrArg Dquot.key (hsame x hne)
  have hnew (g' : Get) (hfor : t.isFor g' q = true) : ∀ x, s.isFor g' x = s.isFor g x := by
    unfold Cache.isFor at hfor
    rw [hself] at hfor
    obtain ⟨hid, hump, hvp⟩ := of_decide_eq_true hfor
    have hid : g.id = g'.id := hid
    have hump : g.ump = g'.ump := some_inj.mp hump
    have hvp : s.um_quotas g'.ump g.type = some g'.dqvp := hvp
    rw [← hump, hquota, some_inj] at hvp
    intro x
    unfold Cache.isFor
    rw [hid, hump, hvp]
  constructor
  · have hlinked := hs.linked.insque hnot h
    exact ⟨hlinked.chains, hlinked.frees, hlinked.apart⟩
  · exact fun x => ⟨(hcounted x).cnt, (hcounted x).free_iff, (hcounted x).busy_lt, (hcounted x).excl,
      (hcounted x).builder⟩
  · constructor
    · intro x hx hb
      by_cases hne : x = q
      · exact .inl ⟨h, (mem_update_cons h).mpr (.inr ⟨rfl, hne⟩)⟩
      · by_cases hmem : ∃ k, x ∈ chain k
        · obtain ⟨k, hk⟩ := hmem
          exact .inl ⟨k, (mem_update_cons k).mpr (.inl hk)⟩
        · have hold := hs.placed.placed x hx ((hother x hne).symm.trans hb)
          exact .inr ((hold.resolve_left hmem).insque_other hs.linked hne
            fun hk => hmem ⟨h, hk⟩)
    · intro k x hx
      rcases (mem_update_cons k).mp hx with hx | ⟨-, rfl⟩
      · obtain ⟨hlt, hb⟩ := hs.placed.hashed k x hx
        exact ⟨hlt, (hother x fun heq => hnot k (heq ▸ hx)).trans hb⟩
      · exact ⟨hlt, hzero⟩
    · intro k x hx
      rcases (mem_update_cons k).mp hx with hx | ⟨rfl, rfl⟩
      · exact (congrArg Prod.fst (hkey k x hx)).trans (hs.placed.hash k x hx)
      · rw [hself]
        rfl
    · intro k x hx
      rcases (mem_update_cons k).mp hx with hx | ⟨rfl, rfl⟩
      · obtain ⟨ump, vp, hof, hhash⟩ := hs.placed.key k x hx
        refine ⟨ump, vp, (isOf_congr (hkey k x hx) rfl).mpr hof, ?_⟩
        have hid : (t.dquot x).dq_id = (s.dquot x).dq_id := congrArg (fun k => k.2.2.1) (hkey k x hx)
        rw [hid]
        exact hhash
      · refine ⟨g.ump, g.dqvp, ?_, ?_⟩
        · unfold Cache.IsOf
          rw [hself]
          exact ⟨rfl, hquota⟩
        · rw [hself]
          rfl
    · intro g' k x hx y hy hfor hfor'
      have hold (z : ℕ) (hz : z ∈ chain k) : t.isFor g' z = s.isFor g' z := isFor_congr (hkey k z hz) rfl
      rcases (mem_update_cons k).mp hx with hxold | ⟨hk, hxq⟩
      · rw [hold x hxold] at hfor
        rcases (mem_update_cons k).mp hy with hyold | ⟨hk, hyq⟩
        · rw [hold y hyold] at hfor'
          exact hs.placed.unique g' k x hxold y hyold hfor hfor'
        · rw [hnew g' (hyq ▸ hfor') x, hnone x (hk ▸ hxold)] at hfor
          cases hfor
      · rcases (mem_update_cons k).mp hy with hyold | ⟨-, hyq⟩
        · rw [hold y hyold, hnew g' (hxq ▸ hfor) y, hnone y (hk ▸ hyold)] at hfor'
          cases hfor'
        · rw [hxq, hyq]
  · have hstamp (g' : Get) (ots' : ℕ) (hold : ots' ≤ s.dqh_timestamp (g'.dh dqhash) ∧
        (ots' = s.dqh_timestamp (g'.dh dqhash) → ∀ x ∈ chain (g'.dh dqhash), s.isFor g' x = false)) :
        ots' ≤ t.dqh_timestamp (g'.dh dqhash) ∧ (ots' = t.dqh_timestamp (g'.dh dqhash) →
          ∀ x ∈ update chain h (q :: chain h) (g'.dh dqhash), t.isFor g' x = false) := by
      have hts : t.dqh_timestamp = update s.dqh_timestamp h (s.dqh_timestamp h + 1) := rfl
      rw [hts]
      by_cases hk : g'.dh dqhash = h
      · rw [hk] at hold ⊢
        rw [update_self]
        exact ⟨Nat.le_succ_of_le hold.1, fun heq => by omega⟩
      · rw [update_of_ne hk, update_of_ne hk]
        refine ⟨hold.1, fun heq x hx => ?_⟩
        rw [isFor_congr (hkey _ x hx) rfl]
        exact hold.2 heq x hx
    refine ⟨fun c' hc' => ?_, fun x => ?_, fun ump type n hn => ?_⟩
    · rcases mem_append.mp hc' with hc' | hc'
      · rw [mem_singleton.mp hc']
        exact ⟨hcall.1, (mem_update_cons h).mpr (.inr ⟨rfl, rfl⟩)⟩
      · have hold := hs.called.call c' (mem_of_mem_erase hc')
        refine ⟨hold.1, ?_⟩
        cases c' with
        | missed g' ots' => exact hstamp g' ots' hold.2
        | building g' ots' q' => exact hstamp g' ots' hold.2
        | reading g' q' => exact (mem_update_cons _).mpr (.inl hold.2)
        | _ => trivial
    · have htotal : t.total (Call.reads x) + Call.reads x (.building g ots q) =
          s.total (Call.reads x) + Call.reads x (.reading g q) := total_become_one (X := X) rfl hc
      simp only [Call.reads, Nat.add_zero] at htotal
      have hreader := hs.called.reader x
      by_cases hx : q = x
      · have h0 : s.total (Call.reads x) = 0 := by
          have href0 := hs.not_building hpos
          have hle := total_reads_le (s := s) (q := x)
          unfold Cache.references at href0
          rw [hx] at href0
          omega
        rw [if_pos hx] at htotal
        omega
      · rw [if_neg hx] at htotal
        omega
    · obtain ⟨vp, hvp, hfree⟩ := hs.called.flushed ump type n hn
      refine ⟨vp, hvp, fun k hk x hx hof => ?_⟩
      rcases (mem_update_cons k).mp hx with hx | ⟨-, rfl⟩
      · exact hfree k hk x hx ((isOf_congr (hkey k x hx) rfl).mp hof)
      · have hump := hof.1
        rw [hself] at hump
        have hump : g.ump = ump := some_inj.mp hump
        have hn : s.flushing ump = some (type, n) := hn
        rw [← hump, hflush] at hn
        cases hn

theorem Sound.hash_step (hs : Sound dqhash s chain free) (hc : .building g ots q ∈ s.calls)
    (hok : ∀ x, s.search g (g.dh dqhash) = some (some x) → Alone s q ∧
      (ots % 2 ^ 32 = s.dqh_timestamp (g.dh dqhash) % 2 ^ 32 → ots = s.dqh_timestamp (g.dh dqhash)))
    (ht : dqgetHash dqhash s g ots q = some t) : ∃ chain', Sound dqhash t chain' free := by
  have hpos : 0 < s.total (Call.builds q) := building_iff.mp ⟨g, ots, hc⟩
  have hsearch := hs.search_built (g := g) (h := g.dh dqhash) (hs.building_notMem hpos)
    (d := g.dquot dqhash (s.dquot q))
  unfold dqgetHash at ht
  simp only at ht
  rw [hsearch] at ht
  split at ht
  · split at ht
    · cases ht
    · rename_i x hfound
      obtain rfl := some_inj.mp ht
      exact ⟨chain, hs.collision_step hc (hok x hfound).1⟩
    · rename_i hfound
      obtain rfl := some_inj.mp ht
      refine ⟨_, hs.insert_step hc (hs.search_none fun x hx => ?_)⟩
      rw [hfound] at hx
      cases hx
  · rename_i hsame
    obtain rfl := some_inj.mp ht
    refine ⟨_, hs.insert_step hc ?_⟩
    by_cases hsim : ∃ x, s.search g (g.dh dqhash) = some (some x)
    · obtain ⟨x, hx⟩ := hsim
      exact (hs.called.call _ hc).2.2 ((hok x hx).2 (not_not.mp hsame))
    · exact hs.search_none fun x hx => hsim ⟨x, hx⟩

end Insertion

section Errors

variable (hs : Sound dqhash s chain free)
include hs

theorem Sound.read_error (hc : .reading g q ∈ s.calls) :
    ∃ chain', Sound dqhash (dqgetRead s g q true) chain' free := by
  have hmem := (hs.called.call _ hc).2
  have hr := (hs.linked.remque_hashed hmem).selfLink
  set d : Dquot := { s.dquot q with dq_readerror := true, dq_hash := 0 } with hd
  set X := ((s.remque q).selfLink q).setDquot q d with hX
  set t := X.become (.reading g q) [.putting q none] with ht
  have htotal (f : Call → ℕ) : t.total f + f (.reading g q) = s.total f + f (.putting q none) :=
    total_become_one (X := X) rfl hc
  have hself : t.dquot q = d := update_self ..
  have hsame (x : ℕ) (hx : x ≠ q) : t.dquot x = s.dquot x := update_of_ne hx ..
  have href (x : ℕ) : t.references x = s.references x :=
    congrArg (s.refs x + ·) (Nat.add_right_cancel (htotal (Call.holds x)))
  have hb (x : ℕ) : t.total (Call.builds x) = s.total (Call.builds x) := htotal (Call.builds x)
  have hreads (x : ℕ) :
      t.total (Call.reads x) + (if q = x then 1 else 0) = s.total (Call.reads x) :=
    htotal (Call.reads x)
  have hreader := hs.called.reader
  refine ⟨_, ⟨⟨hr.linked.chains, hr.linked.frees, hr.linked.apart⟩, fun x => ?_, ?_, ?_⟩⟩
  · refine (hs.counted x).congr ?_ (href x) (hb x) Iff.rfl Iff.rfl
    by_cases hx : x = q
    · rw [hx]
      exact (congrArg Dquot.dq_cnt hself).trans rfl
    · exact congrArg Dquot.dq_cnt (hsame x hx)
  · refine hs.placed.shrink rfl (fun k x hx => ?_) fun x hx hbx => ?_
    · obtain ⟨hmem, hne⟩ := (hr.mem k x).mp hx
      obtain ⟨hlt, hbx⟩ := hs.placed.hashed k x hmem
      exact ⟨hmem, congrArg Dquot.key (hsame x hne), hlt, (hb x).trans hbx⟩
    · by_cases hne : x = q
      · rw [hne]
        exact .inr (alone_selfLink (s := s.remque q))
      · exact hr.place hne (hs.placed.placed x hx ((hb x).symm.trans hbx))
  · refine hs.called.shrink rfl rfl rfl (fun k x hx => ?_) (fun c' hc' => ?_) fun x => ?_
    · obtain ⟨hmem, hne⟩ := (hr.mem k x).mp hx
      exact ⟨hmem, congrArg Dquot.key (hsame x hne)⟩
    · rcases mem_append.mp hc' with hc' | hc'
      · rw [mem_singleton.mp hc']
        exact .inr ⟨nofun, trivial⟩
      · have hold := mem_of_mem_erase hc'
        refine .inl ⟨hold, ?_⟩
        rintro g' q' rfl
        refine (hr.mem _ q').mpr ⟨(hs.called.call _ hold).2, ?_⟩
        rintro rfl
        -- Another call that reads the dquot would be a second one.
        have hq := hreads q'
        have hle : Call.reads q' (.reading g' q') ≤ t.total (Call.reads q') :=
          le_total (mem_append_right _ hc')
        have hone := hreader q'
        simp only [Call.reads, if_true] at hq hle
        omega
    · exact (Nat.le_of_add_right_le (hreads x).le).trans (hreader x)

theorem Sound.read_step (hc : .reading g q ∈ s.calls)
    (error : Bool) : ∃ chain', Sound dqhash (dqgetRead s g q error) chain' free := by
  cases error with
  | true => exact hs.read_error hc
  | false => exact ⟨chain, hs.hand_out hc (fun _ => rfl) fun _ => rfl⟩

theorem Sound.expel_step (hmem : q ∈ chain h) (hcnt : (s.dquot q).dq_cnt = 0) :
    Sound dqhash (s.expel q) (update chain h ((chain h).erase q)) free := by
  have hr := (hs.linked.remque_hashed hmem).selfLink
  have href0 : s.references q = 0 := by
    have h := (hs.counted q).cnt
    omega
  have hsame (x : ℕ) (hx : x ≠ q) : (s.expel q).dquot x = s.dquot x := update_of_ne hx ..
  refine ⟨⟨hr.linked.chains, hr.linked.frees, hr.linked.apart⟩, fun x => ?_, ?_, ?_⟩
  · refine (hs.counted x).congr ?_ rfl rfl Iff.rfl Iff.rfl
    by_cases hx : x = q
    · have hself : (s.expel q).dquot q = { s.dquot q with dq_ump := none } := update_self ..
      rw [hx, hself]
    · rw [hsame x hx]
  · refine hs.placed.shrink rfl (fun k x hx => ?_) fun x hx hbx => ?_
    · obtain ⟨hmem, hne⟩ := (hr.mem k x).mp hx
      exact ⟨hmem, congrArg Dquot.key (hsame x hne), hs.placed.hashed k x hmem⟩
    · by_cases hne : x = q
      · rw [hne]
        exact .inr (alone_selfLink (s := s.remque q))
      · exact hr.place hne (hs.placed.placed x hx hbx)
  · refine hs.called.shrink rfl rfl rfl (fun k x hx => ?_) (fun c' hc' => ?_) hs.called.reader
    · obtain ⟨hmem, hne⟩ := (hr.mem k x).mp hx
      exact ⟨hmem, congrArg Dquot.key (hsame x hne)⟩
    · refine .inl ⟨hc', ?_⟩
      rintro g' q' rfl
      refine (hr.mem _ q').mpr ⟨(hs.called.call _ hc').2, ?_⟩
      rintro rfl
      exact hs.not_reading href0 hc'

end Errors

end Osf1.QuotaCache
