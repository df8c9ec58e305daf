import Osf1.QuotaCache.Chains

/-!
# Quota files

A quota file is set and cleared while no `dqget` of the mount point is in progress.  It is cleared
when `dqflush` has taken its dquots off all chains.
-/

set_option autoImplicit false

namespace Osf1.QuotaCache

open Function Option

section Files

open Osf1.Computation Osf1.Quota

variable {dqhash : u_int} {s t : Cache} {chain : ℕ → List ℕ} {free : List ℕ} {q h ump : ℕ}
  {g : Get} {type : QuotaType} {vp : Vnode}

theorem Sound.refile (hs : Sound dqhash s chain free)
    (quotas : ℕ → QuotaType → Option Vnode) (flushing : ℕ → Option (QuotaType × ℕ))
    (hchain : ∀ h, ∀ q ∈ chain h, ∀ u, (s.dquot q).dq_ump = some u →
      quotas u (s.dquot q).dq_type = s.um_quotas u (s.dquot q).dq_type)
    (hcall : ∀ c ∈ s.calls, ∀ g ∈ c.get?, quotas g.ump g.type = s.um_quotas g.ump g.type ∧
      flushing g.ump = s.flushing g.ump)
    (hflushed : ∀ ump type n, flushing ump = some (type, n) →
      ∃ vp, quotas ump type = some vp ∧ ∀ h ≥ n, ∀ q ∈ chain h, ¬s.IsOf ump vp q) :
    Sound dqhash { s with um_quotas := quotas, flushing := flushing } chain free := by
  set t : Cache := { s with um_quotas := quotas, flushing := flushing }
  have hof (h q : ℕ) (hq : q ∈ chain h) (u : ℕ) (vp : Vnode) : t.IsOf u vp q ↔ s.IsOf u vp q := by
    refine and_congr_right fun hump => ?_
    have hsame : t.um_quotas u (t.dquot q).dq_type = s.um_quotas u (s.dquot q).dq_type := hchain h q hq u hump
    rw [hsame]
  have hfor (h q : ℕ) (hq : q ∈ chain h) (g : Get) : t.isFor g q = s.isFor g q := by
    refine decide_eq_decide.mpr (and_congr_right fun _ => ?_)
    exact hof h q hq g.ump g.dqvp
  refine ⟨⟨hs.linked.chains, hs.linked.frees, hs.linked.apart⟩, fun q => ?_, ?_, ?_⟩
  · exact (hs.counted q).congr rfl rfl rfl Iff.rfl Iff.rfl
  · refine ⟨hs.placed.placed, hs.placed.hashed, hs.placed.hash, fun h q hq => ?_, ?_⟩
    · obtain ⟨u, vp, hold, hhash⟩ := hs.placed.key h q hq
      exact ⟨u, vp, (hof h q hq u vp).mpr hold, hhash⟩
    · intro g h q hq q' hq' hfor₁ hfor₂
      rw [hfor h q hq] at hfor₁
      rw [hfor h q' hq'] at hfor₂
      exact hs.placed.unique g h q hq q' hq' hfor₁ hfor₂
  · have hnone (g : Get) (ots : ℕ) (hold : ots ≤ s.dqh_timestamp (g.dh dqhash) ∧
        (ots = s.dqh_timestamp (g.dh dqhash) → ∀ q ∈ chain (g.dh dqhash), s.isFor g q = false)) :
        ots ≤ t.dqh_timestamp (g.dh dqhash) ∧ (ots = t.dqh_timestamp (g.dh dqhash) →
          ∀ q ∈ chain (g.dh dqhash), t.isFor g q = false) := by
      refine ⟨hold.1, fun heq q hq => ?_⟩
      rw [hfor _ q hq]
      exact hold.2 heq q hq
    refine ⟨fun c hc => ?_, hs.called.reader, fun u ty n hn => ?_⟩
    · have hold := hs.called.call c hc
      refine ⟨fun g hg => ?_, ?_⟩
      · obtain ⟨hquota, hflush⟩ := hcall c hc g hg
        obtain ⟨hquota', hflush'⟩ := hold.1 g hg
        exact ⟨hquota.trans hquota', hflush.trans hflush'⟩
      · cases c with
        | missed g ots => exact hnone g ots hold.2
        | building g ots q => exact hnone g ots hold.2
        | reading g q => exact hold.2
        | _ => trivial
    · obtain ⟨vp, hvp, hfree⟩ := hflushed u ty n hn
      exact ⟨vp, hvp, fun h hh q hq hofq => hfree h hh q hq ((hof h q hq u vp).mp hofq)⟩

section Quotas

variable {quotas : ℕ → QuotaType → Option Vnode} {x : Option Vnode}

theorem setQuota_of_ne {u : ℕ} {ty : QuotaType} (hne : u ≠ ump ∨ ty ≠ type) :
    update quotas ump (update (quotas ump) type x) u ty = quotas u ty := by
  by_cases hu : u = ump
  · rw [hu, update_self]
    exact update_of_ne (hne.resolve_left (not_not.mpr hu)) ..
  · rw [update_of_ne hu]

theorem Sound.quotaon_step (hs : Sound dqhash s chain free) (hnone : s.um_quotas ump type = none)
    (hquiet : s.Quiet ump) : Sound dqhash (s.setQuota ump type (some vp)) chain free := by
  refine hs.refile _ s.flushing (fun h q hq u hu => ?_) (fun c hc g hg => ?_)
    fun u ty n hn => ?_
  · obtain ⟨u', vp', ⟨hump, hvp'⟩, -⟩ := hs.placed.key h q hq
    rw [hu, some_inj] at hump
    refine setQuota_of_ne ?_
    by_contra hboth
    obtain ⟨hu', hty⟩ := not_or.mp hboth
    rw [← hump, not_not.mp hu', not_not.mp hty, hnone] at hvp'
    cases hvp'
  · exact ⟨setQuota_of_ne (.inl (hquiet.1 c hc g hg)), rfl⟩
  · obtain ⟨vp', hvp', hfree⟩ := hs.called.flushed u ty n hn
    refine ⟨vp', (setQuota_of_ne (.inl ?_)).trans hvp', hfree⟩
    rintro rfl
    rw [hquiet.2] at hn
    cases hn

theorem dqhashOf_lt (dqhash : u_int) (vp : Vnode) (id : u_int) : dqhashOf dqhash vp id < dqhash.toNat + 1 := by
  unfold dqhashOf
  exact Nat.lt_succ_of_le Nat.and_le_right

theorem Sound.quotaoff_step (hs : Sound dqhash s chain free) (hsome : s.um_quotas ump type ≠ none)
    (hquiet : s.Quiet ump) :
    Sound dqhash { s with
      flushing := update s.flushing ump (some (type, dqhash.toNat + 1)) } chain free := by
  refine hs.refile s.um_quotas _ (fun _ _ _ _ _ => rfl) (fun c hc g hg => ?_)
    fun u ty n hn => ?_
  · exact ⟨rfl, update_of_ne (hquiet.1 c hc g hg) ..⟩
  · by_cases hu : u = ump
    · rw [hu, update_self, some_inj, Prod.mk_inj] at hn
      obtain ⟨rfl, rfl⟩ := hn
      obtain ⟨vp, hvp⟩ := ne_none_iff_exists'.mp hsome
      refine ⟨vp, hu ▸ hvp, fun h hh q hq => ?_⟩
      obtain ⟨u', vp', -, hhash⟩ := hs.placed.key h q hq
      have hlt := dqhashOf_lt dqhash vp' (s.dquot q).dq_id
      omega
    · rw [update_of_ne hu] at hn
      exact hs.called.flushed u ty n hn

theorem Sound.off_step (hs : Sound dqhash s chain free) (hflush : s.flushing ump = some (type, 0)) :
    Sound dqhash { s.setQuota ump type none with flushing := update s.flushing ump none }
      chain free := by
  obtain ⟨vp, hvp, hfree⟩ := hs.called.flushed ump type 0 hflush
  refine hs.refile _ _ (fun h q hq u hu => ?_) (fun c hc g hg => ?_) fun u ty n hn => ?_
  · refine setQuota_of_ne ?_
    by_contra hboth
    obtain ⟨hu', hty⟩ := not_or.mp hboth
    rw [not_not.mp hu'] at hu
    refine hfree h (Nat.zero_le h) q hq ⟨hu, ?_⟩
    rw [not_not.mp hty]
    exact hvp
  · have hne : g.ump ≠ ump := by
      intro heq
      have hnone := ((hs.called.call c hc).1 g hg).2
      rw [heq, hflush] at hnone
      cases hnone
    exact ⟨setQuota_of_ne (.inl hne), update_of_ne hne ..⟩
  · have hne : u ≠ ump := by
      rintro rfl
      rw [update_self] at hn
      cases hn
    rw [update_of_ne hne] at hn
    obtain ⟨vp', hvp', hfree'⟩ := hs.called.flushed u ty n hn
    exact ⟨vp', (setQuota_of_ne (.inl hne)).trans hvp', hfree'⟩

end Quotas

theorem Sound.flush_step (hs : Sound dqhash s chain free) (ht : dqflushChain s ump = some t) :
    ∃ chain', Sound dqhash t chain' free := by
  unfold dqflushChain at ht
  split at ht
  swap
  · cases ht
  rename_i type h hflush
  split at ht
  · cases ht
  rename_i vp hvp
  obtain ⟨t', ht', rfl⟩ := map_eq_some_iff.mp ht
  rw [next_eq_startOf (hs.linked.chains h).path] at ht'
  obtain ⟨chain', ⟨hs', hquotas, hflushing⟩, hnone⟩ := flushFrom_spec
    (I := fun u c => Sound dqhash u c free ∧ u.um_quotas = s.um_quotas ∧ u.flushing = s.flushing)
    (u := []) (fun u c hu => hu.1.linked)
    (fun u c q hu hq _ hcnt => ⟨hu.1.expel_step hq hcnt, hu.2.1, hu.2.2⟩)
    ⟨hs, rfl, rfl⟩ rfl nofun ht'
  refine ⟨chain', hs'.refile t'.um_quotas _ (fun _ _ _ _ _ => rfl) (fun c hc g hg => ?_)
    fun u ty n hn => ?_⟩
  · refine ⟨rfl, update_of_ne ?_ ..⟩
    intro heq
    have hidle := ((hs'.called.call c hc).1 g hg).2
    rw [heq, hflushing, hflush] at hidle
    cases hidle
  · by_cases hu : u = ump
    · rw [hu, update_self, some_inj, Prod.mk_inj] at hn
      obtain ⟨rfl, rfl⟩ := hn
      obtain ⟨vp', hvp', hfree⟩ := hs'.called.flushed ump _ _ ((congrFun hflushing ump).trans hflush)
      refine ⟨vp', hu ▸ hvp', fun k hk q hq hof => ?_⟩
      rw [hu] at hof
      rcases Nat.eq_or_lt_of_le hk with heq | hlt
      · rw [hquotas, hvp, some_inj] at hvp'
        exact hnone q (heq ▸ hq) (hvp' ▸ hof)
      · exact hfree k hlt q hq hof
    · rw [update_of_ne hu] at hn
      exact hs'.called.flushed u ty n hn

end Files

/-!
## The cache of dquots is consistent

This holds in every run in which no dquot comes to 2 ^ 15 references, and in which a search that is repeated
meets a similar dquot only if the time stamp tells, and if the dquot that is dropped is self-linked.
-/

section Consistency

open Osf1.Computation Osf1.Quota

/-- The sections are taken in any order by any number of calls. -/
def cacheSystem (dqhash : u_int) (MAXDQUOT : ℕ) : System Cache Event := System.ofFun dqinit (step dqhash MAXDQUOT)

/-- `remque` of a dquot takes it off its chain, if it is on one, and changes no link of anything that
is not on this chain. -/
def RemqueSafe (s : Cache) (chain : ℕ → List ℕ) (q : ℕ) : Prop :=
  (∀ h, Circular (s.remque q).dq_forw (s.remque q).dq_back (.head h) (((chain h).erase q).map .dquot)) ∧
  ∀ x, (∀ h, q ∈ chain h → x ∉ Link.head h :: (chain h).map Link.dquot) →
    (s.remque q).dq_forw x = s.dq_forw x ∧ (s.remque q).dq_back x = s.dq_back x

/-- The links of the hash chains and of the free list are those of these lists.
- At most one dquot on the chains is for an identifier of a quota type of a mount point.
- The count of a dquot is the number of the references to it.
- The free list, which has nothing twice, has the dquots with the count 0 that no call builds.
- A dquot of the free list is on its chain, or it is self-linked, so that it can be taken off. -/
structure Consistent (s : Cache) (chain : ℕ → List ℕ) (free : List ℕ) : Prop where
  chains : ∀ h, Circular s.dq_forw s.dq_back (.head h) ((chain h).map .dquot)
  frees : Circular s.dq_freef s.dq_freeb (.head ()) (free.map .dquot)
  one : ∀ h h' q q', q ∈ chain h → q' ∈ chain h' → (s.dquot q).dq_ump = (s.dquot q').dq_ump →
    (s.dquot q).dq_type = (s.dquot q').dq_type → (s.dquot q).dq_id = (s.dquot q').dq_id → q = q'
  cnt : ∀ q, (s.dquot q).dq_cnt = s.references q
  free_iff : ∀ q, q ∈ free ↔ q < s.numdquot ∧ (s.dquot q).dq_cnt = 0 ∧ ¬s.Building q
  linked : ∀ q ∈ free, q ∈ chain (s.dquot q).dq_hash ∨ Alone s q
  reuse : ∀ q ∈ free, RemqueSafe s chain q

variable {dqhash : u_int} {MAXDQUOT : ℕ} {s t : Cache} {chain : ℕ → List ℕ} {free : List ℕ} {q : ℕ}
  {e : Event}

theorem sound_dqinit : Sound dqhash dqinit (fun _ => []) [] where
  linked := ⟨fun _ => ⟨⟨rfl, rfl⟩, List.nodup_singleton _⟩, ⟨⟨rfl, rfl⟩, List.nodup_singleton _⟩, nofun⟩
  counted q := ⟨rfl, iff_of_false nofun fun h => Nat.not_lt_zero q h.1, nofun, fun _ => rfl, Nat.zero_le 1⟩
  placed := ⟨nofun, nofun, nofun, nofun, nofun⟩
  called := ⟨nofun, fun _ => Nat.zero_le 1, nofun⟩

section Safety

theorem Linked.remqueSafe (hs : Linked s chain free) (hq : (∃ h, q ∈ chain h) ∨ Alone s q) :
    RemqueSafe s chain q := by
  by_cases hmem : ∃ h, q ∈ chain h
  · obtain ⟨h, hmem⟩ := hmem
    have hr := hs.remque_hashed hmem
    refine ⟨fun k => ?_, fun x hx => ?_⟩
    · have hk := hr.linked.chains k
      by_cases hkh : k = h
      · rw [hkh, update_self] at hk
        rw [hkh]
        exact hk
      · have hnot : q ∉ chain k := fun hqk => hkh (hs.apart k h q hqk hmem)
        rw [update_of_ne hkh] at hk
        rw [List.erase_of_not_mem hnot]
        exact hk
    · have hnode := dquot_mem_cons (a := h) |>.mpr hmem
      refine ⟨unlinkNext_of_ne ?_, unlinkPrev_of_ne ?_⟩
      · rintro rfl
        exact hx h hmem ((hs.chains h).prev_mem hnode)
      · rintro rfl
        exact hx h hmem ((hs.chains h).next_mem hnode)
  · have halone := hq.resolve_left hmem
    unfold RemqueSafe
    rw [halone.remque]
    refine ⟨fun k => ?_, fun _ _ => ⟨rfl, rfl⟩⟩
    rw [List.erase_of_not_mem fun hqk => hmem ⟨k, hqk⟩]
    exact hs.chains k

theorem Sound.consistent (hs : Sound dqhash s chain free) : Consistent s chain free where
  chains := hs.linked.chains
  frees := hs.linked.frees
  one h h' q q' hq hq' hump htype hid := by
    obtain ⟨ump, vp, ⟨hump₁, hvp⟩, hhash⟩ := hs.placed.key h q hq
    obtain ⟨ump', vp', ⟨hump₂, hvp'⟩, hhash'⟩ := hs.placed.key h' q' hq'
    rw [← hump, hump₁, some_inj] at hump₂
    rw [← hump₂, ← htype, hvp, some_inj] at hvp'
    rw [← hid, ← hvp', hhash] at hhash'
    subst hhash'
    refine hs.placed.unique ⟨(s.dquot q).dq_id, ump, (s.dquot q).dq_type, vp⟩ h q hq q' hq' ?_ ?_
    · exact decide_eq_true ⟨rfl, hump₁, hvp⟩
    · exact decide_eq_true ⟨hid.symm, hump ▸ hump₁, htype ▸ hvp⟩
  cnt q := (hs.counted q).cnt
  free_iff q := by
    rw [(hs.counted q).free_iff, (hs.counted q).cnt, Int.natCast_eq_zero, building_iff, Nat.not_lt, Nat.le_zero]
  linked q hq := (hs.free_placed hq).imp_left fun ⟨h, hmem⟩ => (hs.placed.hash h q hmem).symm ▸ hmem
  reuse q hq := hs.linked.remqueSafe (hs.free_placed hq)

end Safety

instance (s : Cache) (q : ℕ) : Decidable (Alone s q) := by
  unfold Alone
  infer_instance

/-- A reference that is taken is not the 2 ^ 15th.  A similar dquot that has been inserted since the
search has changed the time stamp, and the new dquot, which is dropped, is self-linked. -/
def Kept (dqhash : u_int) (s : Cache) : Event → Prop
  | .search g =>
    match s.search g (g.dh dqhash) with
    | some (some q) => (s.dquot q).dq_cnt < 32767
    | _ => True
  | .hash g ots q =>
    match s.search g (g.dh dqhash) with
    | some (some _) => Alone s q ∧ (ots % 2 ^ 32 = s.dqh_timestamp (g.dh dqhash) % 2 ^ 32 →
        ots = s.dqh_timestamp (g.dh dqhash))
    | _ => True
  | _ => True

instance (s : Cache) (e : Event) : Decidable (Kept dqhash s e) := by
  unfold Kept
  split
  · split <;> infer_instance
  · split <;> infer_instance
  · infer_instance

theorem Sound.step (hs : Sound dqhash s chain free) (hok : Kept dqhash s e)
    (ht : QuotaCache.step dqhash MAXDQUOT s e = some t) : ∃ chain' free', Sound dqhash t chain' free' := by
  cases e with
  | dqget g =>
    obtain ⟨⟨hquota, hflush⟩, rfl⟩ := ite_none_right_eq_some.mp ht |>.imp_right some_inj.mp
    exact ⟨chain, free, hs.dqget_step hquota hflush⟩
  | search g =>
    obtain ⟨hc, ht⟩ := ite_none_right_eq_some.mp ht
    refine ⟨chain, hs.search_step hc (fun q hq => ?_) ht⟩
    simp only [Kept, hq] at hok
    exact hok
  | lock g q =>
    obtain ⟨hc, rfl⟩ := ite_none_right_eq_some.mp ht |>.imp_right some_inj.mp
    exact ⟨chain, free, hs.lock_step hc⟩
  | allocate g ots =>
    obtain ⟨hc, ht⟩ := ite_none_right_eq_some.mp ht
    exact ⟨chain, free, hs.allocate_step hc ht⟩
  | desire g ots =>
    obtain ⟨hc, ht⟩ := ite_none_right_eq_some.mp ht
    obtain ⟨-, rfl⟩ := ite_none_right_eq_some.mp ht |>.imp_right some_inj.mp
    exact ⟨chain, free, hs.recall (fun _ => rfl) (fun _ => rfl) hs.called.reader fun _ => .inl⟩
  | reuse g ots q =>
    obtain ⟨⟨hc, -, hq⟩, rfl⟩ := ite_none_right_eq_some.mp ht |>.imp_right some_inj.mp
    exact hs.reuse_step hc (mem_of_onFree hs.linked hq)
  | tablefull g ots =>
    obtain ⟨hc, ht⟩ := ite_none_right_eq_some.mp ht
    obtain ⟨-, rfl⟩ := ite_none_right_eq_some.mp ht |>.imp_right some_inj.mp
    exact ⟨chain, free, hs.pass hc (fun _ => rfl) (fun _ => rfl) (fun _ => rfl) nofun⟩
  | hash g ots q =>
    obtain ⟨hc, ht⟩ := ite_none_right_eq_some.mp ht
    obtain ⟨chain', hs'⟩ := hs.hash_step hc (fun x hx => by
      simp only [Kept, hx] at hok
      exact hok) ht
    exact ⟨chain', free, hs'⟩
  | read g q error =>
    obtain ⟨hc, rfl⟩ := ite_none_right_eq_some.mp ht |>.imp_right some_inj.mp
    obtain ⟨chain', hs'⟩ := hs.read_step hc error
    exact ⟨chain', free, hs'⟩
  | put q again =>
    obtain ⟨hc, rfl⟩ := ite_none_right_eq_some.mp ht |>.imp_right some_inj.mp
    exact ⟨chain, free, hs.put_step hc⟩
  | drop q again =>
    obtain ⟨hc, rfl⟩ := ite_none_right_eq_some.mp ht |>.imp_right some_inj.mp
    exact ⟨chain, hs.drop_step hc⟩
  | dqrele q =>
    obtain ⟨hpos, rfl⟩ := ite_none_right_eq_some.mp ht |>.imp_right some_inj.mp
    exact ⟨chain, free, hs.dqrele_step hpos⟩
  | quotaon ump type vp =>
    obtain ⟨⟨hnone, hquiet⟩, rfl⟩ := ite_none_right_eq_some.mp ht |>.imp_right some_inj.mp
    exact ⟨chain, free, hs.quotaon_step hnone hquiet⟩
  | quotaoff ump type =>
    obtain ⟨⟨hsome, hquiet⟩, rfl⟩ := ite_none_right_eq_some.mp ht |>.imp_right some_inj.mp
    exact ⟨chain, free, hs.quotaoff_step hsome hquiet⟩
  | flush ump =>
    obtain ⟨chain', hs'⟩ := hs.flush_step ht
    exact ⟨chain', free, hs'⟩
  | off ump =>
    simp only [QuotaCache.step] at ht
    split at ht
    · rename_i type hflush
      obtain rfl := some_inj.mp ht
      exact ⟨chain, free, hs.off_step hflush⟩
    · cases ht

/-- In every run of such sections the cache of dquots is consistent. -/
theorem dquot_cache_consistent (h : ((cacheSystem dqhash MAXDQUOT).restrict (Kept dqhash)).Reachable s) :
    ∃ chain free, Consistent s chain free := by
  have hsound : ∃ chain free, Sound dqhash s chain free := by
    refine h.invariant (I := fun s => ∃ chain free, Sound dqhash s chain free) ?_ ?_
    · rintro s rfl
      exact ⟨_, _, sound_dqinit⟩
    · rintro s e t - ⟨chain, free, hs⟩ ⟨hok, ht⟩
      exact hs.step hok ht
  obtain ⟨chain, free, hs⟩ := hsound
  exact ⟨chain, free, hs.consistent⟩

/-- An identifier of the first mount point. -/
def userOne : Get := ⟨1, 0, .USRQUOTA, 0⟩

/-- Quotas are turned on, and the dquot of a user is read, given back and found again. -/
def ordinaryRun : List Event :=
  [.quotaon 0 .USRQUOTA 0, .dqget userOne, .search userOne, .allocate userOne 0, .hash userOne 0 0,
    .read userOne 0 false, .dqrele 0, .put 0 none, .drop 0 none, .dqget userOne, .search userOne,
    .lock userOne 0]

theorem dquot_cache_consistent_ordinaryRun :
    ∃ t, System.runFrom (step 63 8) dqinit ordinaryRun = some t ∧ t.refs 0 = 1 ∧
      ∃ chain free, Consistent t chain free := by
  have hrun : (System.runFrom (step 63 8) dqinit ordinaryRun).map (fun t => t.refs 0) = some 1 := by
    decide
  obtain ⟨t, ht, hrefs⟩ := map_eq_some_iff.mp hrun
  have hok : System.MeetsAlong (step 63 8) (Kept 63) dqinit ordinaryRun := .of_stepsPass (by decide)
  exact ⟨t, ht, hrefs, dquot_cache_consistent (System.Reachable.runFrom_restrict (.init rfl) hok ht)⟩

/-- Two calls build a dquot for the same user.  The second one drops its own, which has no links. -/
def collisionRun : List Event :=
  [.quotaon 0 .USRQUOTA 0, .dqget userOne, .dqget userOne, .search userOne, .search userOne,
    .allocate userOne 0, .allocate userOne 0, .hash userOne 0 0, .hash userOne 0 1,
    .put 1 (some userOne), .drop 1 (some userOne)]

theorem dropped_dquot_unlinked :
    ¬∀ (dqhash : u_int) (MAXDQUOT : ℕ) (s : Cache), (cacheSystem dqhash MAXDQUOT).Reachable s →
      ∃ chain free, Consistent s chain free := by
  intro hall
  have hrun : (System.runFrom (step 63 8) dqinit collisionRun).map (fun t =>
      (t.numdquot, (t.dquot 1).dq_cnt, t.total (Call.builds 1), t.dq_forw (.dquot 1))) =
        some (2, 0, 0, .null) := by
    decide
  obtain ⟨t, ht, hval⟩ := map_eq_some_iff.mp hrun
  simp only [Prod.mk.injEq] at hval
  obtain ⟨hnum, hcnt, hbuilds, hforw⟩ := hval
  obtain ⟨chain, free, hs⟩ := hall 63 8 t (System.reachable_of_runFrom ht)
  have hfree : 1 ∈ free := by
    refine (hs.free_iff 1).mpr ⟨by omega, hcnt, fun hb => ?_⟩
    have hpos := building_iff.mp hb
    omega
  rcases hs.linked 1 hfree with hmem | halone
  · have hnode := (hs.chains _).next_mem (dquot_mem_cons.mpr hmem)
    rw [hforw] at hnode
    simp at hnode
  · have hself := halone.1
    rw [hforw] at hself
    cases hself

end Consistency

end Osf1.QuotaCache
