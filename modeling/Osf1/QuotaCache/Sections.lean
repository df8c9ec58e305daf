import Osf1.QuotaCache.Model

/-!
# The invariant of the cache of dquots

The references are those handed out and those of the calls in progress.  The invariant has a part on
the counts and the free list, a part on the chains, and a part on the calls.
-/

set_option autoImplicit false

namespace Osf1.QuotaCache

open Function List

section Invariant

open Osf1.Computation Osf1.Quota

/-- A call has a reference to a dquot. -/
def Call.holds (q : ℕ) : Call → ℕ
  | .found _ q' | .reading _ q' | .putting q' _ | .dropping q' _ => if q' = q then 1 else 0
  | _ => 0

/-- A call builds a dquot, to which there is no reference yet. -/
def Call.builds (q : ℕ) : Call → ℕ
  | .building _ _ q' => if q' = q then 1 else 0
  | _ => 0

/-- A call reads a dquot. -/
def Call.reads (q : ℕ) : Call → ℕ
  | .reading _ q' => if q' = q then 1 else 0
  | _ => 0

def Cache.total (s : Cache) (f : Call → ℕ) : ℕ := (s.calls.map f).sum

/-- The outstanding references to a dquot. -/
def Cache.references (s : Cache) (q : ℕ) : ℕ := s.refs q + s.total (Call.holds q)

def Cache.Building (s : Cache) (q : ℕ) : Prop := ∃ g ots, .building g ots q ∈ s.calls

variable {dqhash : u_int} {s t : Cache} {chain : ℕ → List ℕ} {free : List ℕ} {q h : ℕ} {c : Call}
  {f : Call → ℕ} {g : Get}

section Totals

theorem total_become (cs : List Call) (f : Call → ℕ) (hc : c ∈ s.calls) :
    (s.become c cs).total f + f c = s.total f + (cs.map f).sum := by
  have herase := sum_map_erase f hc
  unfold Cache.total Cache.become
  rw [map_append, sum_append]
  omega

theorem le_total (hc : c ∈ s.calls) : f c ≤ s.total f := by
  have herase := sum_map_erase f hc
  unfold Cache.total
  omega

theorem building_iff : s.Building q ↔ 0 < s.total (Call.builds q) := by
  constructor
  · rintro ⟨g, ots, hmem⟩
    have hle := le_total (f := Call.builds q) hmem
    simp only [Call.builds, if_true] at hle
    exact hle
  · intro hpos
    by_contra hnone
    refine Nat.pos_iff_ne_zero.mp hpos (sum_eq_zero fun x hx => ?_)
    obtain ⟨c, hc, rfl⟩ := mem_map.mp hx
    cases c with
    | building g ots q' => exact if_neg fun (hq : q' = q) => hnone ⟨g, ots, hq ▸ hc⟩
    | _ => rfl

end Totals

/-- The count of a dquot is that of the references to it, and it is on the free list if nobody refers
to it and nobody builds it. -/
structure Counted (s : Cache) (free : List ℕ) (q : ℕ) : Prop where
  cnt : (s.dquot q).dq_cnt = s.references q
  free_iff : q ∈ free ↔ q < s.numdquot ∧ s.references q = 0 ∧ s.total (Call.builds q) = 0
  busy_lt : 0 < s.references q + s.total (Call.builds q) → q < s.numdquot
  excl : s.references q ≠ 0 → s.total (Call.builds q) = 0
  builder : s.total (Call.builds q) ≤ 1

/-- The dquots that are not built are on the chain of their identifier, one for each, or they are
self-linked. -/
structure Placed (dqhash : u_int) (s : Cache) (chain : ℕ → List ℕ) : Prop where
  placed : ∀ q < s.numdquot, s.total (Call.builds q) = 0 → (∃ h, q ∈ chain h) ∨ Alone s q
  hashed : ∀ h, ∀ q ∈ chain h, q < s.numdquot ∧ s.total (Call.builds q) = 0
  hash : ∀ h, ∀ q ∈ chain h, (s.dquot q).dq_hash = h
  key : ∀ h, ∀ q ∈ chain h, ∃ ump vp, s.IsOf ump vp q ∧ dqhashOf dqhash vp (s.dquot q).dq_id = h
  unique : ∀ g h, ∀ q ∈ chain h, ∀ q' ∈ chain h, s.isFor g q = true → s.isFor g q' = true → q = q'

/-- What is known in front of a section. -/
def CallSound (dqhash : u_int) (s : Cache) (chain : ℕ → List ℕ) (c : Call) : Prop :=
  (∀ g ∈ c.get?, s.um_quotas g.ump g.type = some g.dqvp ∧ s.flushing g.ump = none) ∧
  match c with
  | .missed g ots | .building g ots _ =>
    ots ≤ s.dqh_timestamp (g.dh dqhash) ∧
      (ots = s.dqh_timestamp (g.dh dqhash) → ∀ q ∈ chain (g.dh dqhash), s.isFor g q = false)
  | .reading g q => q ∈ chain (g.dh dqhash)
  | _ => True

structure Called (dqhash : u_int) (s : Cache) (chain : ℕ → List ℕ) : Prop where
  call : ∀ c ∈ s.calls, CallSound dqhash s chain c
  reader : ∀ q, s.total (Call.reads q) ≤ 1
  flushed : ∀ ump type n, s.flushing ump = some (type, n) →
    ∃ vp, s.um_quotas ump type = some vp ∧ ∀ h ≥ n, ∀ q ∈ chain h, ¬s.IsOf ump vp q

structure Sound (dqhash : u_int) (s : Cache) (chain : ℕ → List ℕ) (free : List ℕ) : Prop where
  linked : Linked s chain free
  counted : ∀ q, Counted s free q
  placed : Placed dqhash s chain
  called : Called dqhash s chain

section Frames

variable {chain' : ℕ → List ℕ} {free' : List ℕ}

theorem Counted.congr (hs : Counted s free q) (hcnt : (t.dquot q).dq_cnt = (s.dquot q).dq_cnt)
    (href : t.references q = s.references q) (hbuilds : t.total (Call.builds q) = s.total (Call.builds q))
    (hnum : q < t.numdquot ↔ q < s.numdquot) (hfree : q ∈ free' ↔ q ∈ free) : Counted t free' q where
  cnt := by rw [hcnt, href, hs.cnt]
  free_iff := by rw [hfree, hnum, href, hbuilds, hs.free_iff]
  busy_lt := by
    rw [hnum, href, hbuilds]
    exact hs.busy_lt
  excl := by
    rw [href, hbuilds]
    exact hs.excl
  builder := hbuilds.trans_le hs.builder

/-- What tells a dquot from the others. -/
def Dquot.key (d : Dquot) : ℕ × QuotaType × u_int × Option ℕ := (d.dq_hash, d.dq_type, d.dq_id, d.dq_ump)

theorem isFor_congr (hkey : (t.dquot q).key = (s.dquot q).key) (hquotas : t.um_quotas = s.um_quotas) :
    t.isFor g q = s.isFor g q := by
  obtain ⟨-, htype, hid, hump⟩ := by simpa [Dquot.key] using hkey
  unfold Cache.isFor
  rw [htype, hid, hump, hquotas]

theorem isOf_congr {ump : ℕ} {vp : Vnode} (hkey : (t.dquot q).key = (s.dquot q).key)
    (hquotas : t.um_quotas = s.um_quotas) : t.IsOf ump vp q ↔ s.IsOf ump vp q := by
  obtain ⟨-, htype, -, hump⟩ := by simpa [Dquot.key] using hkey
  unfold Cache.IsOf
  rw [htype, hump, hquotas]

theorem Placed.shrink (hs : Placed dqhash s chain) (hquotas : t.um_quotas = s.um_quotas)
    (hsub : ∀ h, ∀ q ∈ chain' h, q ∈ chain h ∧ (t.dquot q).key = (s.dquot q).key ∧
      q < t.numdquot ∧ t.total (Call.builds q) = 0)
    (hplaced : ∀ q < t.numdquot, t.total (Call.builds q) = 0 → (∃ h, q ∈ chain' h) ∨ Alone t q) :
    Placed dqhash t chain' where
  placed := hplaced
  hashed h q hq := (hsub h q hq).2.2
  hash h q hq := by
    obtain ⟨hmem, hkey, -⟩ := hsub h q hq
    exact (congrArg Prod.fst hkey).trans (hs.hash h q hmem)
  key h q hq := by
    obtain ⟨hmem, hkey, -⟩ := hsub h q hq
    obtain ⟨ump, vp, hof, hhash⟩ := hs.key h q hmem
    refine ⟨ump, vp, (isOf_congr hkey hquotas).mpr hof, ?_⟩
    have hid : (t.dquot q).dq_id = (s.dquot q).dq_id := congrArg (fun k => k.2.2.1) hkey
    rw [hid]
    exact hhash
  unique g h q hq q' hq' hfor hfor' := by
    obtain ⟨hmem, hkey, -⟩ := hsub h q hq
    obtain ⟨hmem', hkey', -⟩ := hsub h q' hq'
    rw [isFor_congr hkey hquotas] at hfor
    rw [isFor_congr hkey' hquotas] at hfor'
    exact hs.unique g h q hmem q' hmem' hfor hfor'

theorem CallSound.shrink (hs : CallSound dqhash s chain c) (hquotas : t.um_quotas = s.um_quotas)
    (hflushing : t.flushing = s.flushing) (hstamp : t.dqh_timestamp = s.dqh_timestamp)
    (hsub : ∀ h, ∀ q ∈ chain' h, q ∈ chain h ∧ (t.dquot q).key = (s.dquot q).key)
    (hreading : ∀ g q, c = .reading g q → q ∈ chain' (g.dh dqhash)) : CallSound dqhash t chain' c := by
  have hnone (g : Get) (ots : ℕ) (h : ots ≤ s.dqh_timestamp (g.dh dqhash) ∧
      (ots = s.dqh_timestamp (g.dh dqhash) → ∀ q ∈ chain (g.dh dqhash), s.isFor g q = false)) :
      ots ≤ t.dqh_timestamp (g.dh dqhash) ∧
      (ots = t.dqh_timestamp (g.dh dqhash) → ∀ q ∈ chain' (g.dh dqhash), t.isFor g q = false) := by
    rw [hstamp]
    refine ⟨h.1, fun heq q hq => ?_⟩
    obtain ⟨hmem, hkey⟩ := hsub _ q hq
    rw [isFor_congr hkey hquotas]
    exact h.2 heq q hmem
  refine ⟨fun g hg => by rw [hquotas, hflushing]; exact hs.1 g hg, ?_⟩
  cases c with
  | missed g ots => exact hnone g ots hs.2
  | building g ots q => exact hnone g ots hs.2
  | reading g q => exact hreading g q rfl
  | _ => trivial

theorem Called.shrink (hs : Called dqhash s chain) (hquotas : t.um_quotas = s.um_quotas)
    (hflushing : t.flushing = s.flushing) (hstamp : t.dqh_timestamp = s.dqh_timestamp)
    (hsub : ∀ h, ∀ q ∈ chain' h, q ∈ chain h ∧ (t.dquot q).key = (s.dquot q).key)
    (hcalls : ∀ c ∈ t.calls, (c ∈ s.calls ∧ ∀ g q, c = .reading g q → q ∈ chain' (g.dh dqhash)) ∨
      CallSound dqhash t chain' c) (hreader : ∀ q, t.total (Call.reads q) ≤ 1) : Called dqhash t chain' where
  call c hc := by
    rcases hcalls c hc with ⟨hold, hreading⟩ | hnew
    · exact (hs.call c hold).shrink hquotas hflushing hstamp hsub hreading
    · exact hnew
  reader := hreader
  flushed ump type n hn := by
    rw [hflushing] at hn
    obtain ⟨vp, hvp, hnone⟩ := hs.flushed ump type n hn
    refine ⟨vp, by rw [hquotas]; exact hvp, fun h hh q hq hof => ?_⟩
    obtain ⟨hmem, hkey⟩ := hsub h q hq
    exact hnone h hh q hmem ((isOf_congr hkey hquotas).mp hof)

end Frames

end Invariant

/-!
## The sections that leave the chains as they are

The search of `dqget`, what it does with what it has found, and the sections of `dqput`.
-/

section Sections

open Osf1.Computation Osf1.Quota

variable {dqhash : u_int} {s t : Cache} {chain : ℕ → List ℕ} {free free' : List ℕ} {q q' h ots : ℕ}
  {c : Call} {cs : List Call} {g : Get} {again : Option Get}

theorem Sound.same_chains (hs : Sound dqhash s chain free) (hlinked : Linked t chain free')
    (hcounted : ∀ q, Counted t free' q) (hforw : t.dq_forw = s.dq_forw)
    (hback : t.dq_back = s.dq_back) (hnum : t.numdquot = s.numdquot)
    (hquotas : t.um_quotas = s.um_quotas) (hflushing : t.flushing = s.flushing)
    (hstamp : t.dqh_timestamp = s.dqh_timestamp) (hkey : ∀ q, (t.dquot q).key = (s.dquot q).key)
    (hbuilds : ∀ q, t.total (Call.builds q) = s.total (Call.builds q)) (hreads : ∀ q, t.total (Call.reads q) ≤ 1)
    (hcalls : ∀ c ∈ t.calls, c ∈ s.calls ∨ CallSound dqhash s chain c) : Sound dqhash t chain free' where
  linked := hlinked
  counted := hcounted
  placed := by
    refine hs.placed.shrink hquotas (fun h q hq => ⟨hq, hkey q, ?_⟩) fun q hq hb => ?_
    · rw [hnum, hbuilds]
      exact hs.placed.hashed h q hq
    · rw [hnum] at hq
      rw [hbuilds] at hb
      unfold Alone
      rw [hforw, hback]
      exact hs.placed.placed q hq hb
  called := by
    refine hs.called.shrink hquotas hflushing hstamp (fun h q hq => ⟨hq, hkey q⟩) (fun c hc => ?_)
      hreads
    have hreading (hold : CallSound dqhash s chain c) (g : Get) (q : ℕ) (hc : c = .reading g q) :
        q ∈ chain (g.dh dqhash) := by
      rw [hc] at hold
      exact hold.2
    rcases hcalls c hc with hold | hnew
    · exact .inl ⟨hold, hreading (hs.called.call c hold)⟩
    · exact .inr (hnew.shrink hquotas hflushing hstamp (fun h q hq => ⟨hq, hkey q⟩) (hreading hnew))

section Totals

theorem references_become (cs : List Call) (q : ℕ) (hc : c ∈ s.calls) :
    (s.become c cs).references q + c.holds q = s.references q + (cs.map (Call.holds q)).sum := by
  have htotal := total_become cs (Call.holds q) hc
  have hrefs : (s.become c cs).refs = s.refs := rfl
  unfold Cache.references
  rw [hrefs]
  omega

theorem sum_resume {f : Call → ℕ} (hf : ∀ g, f (.look g) = 0) : ((resume again).map f).sum = 0 := by
  cases again with
  | none => rfl
  | some g => exact hf g

end Totals

section Counts

variable (hs : Sound dqhash s chain free)
include hs

theorem Sound.recall {r : ℕ → ℕ} {calls : List Call} {n : ℕ}
    (href : ∀ q, r q + (calls.map (Call.holds q)).sum = s.references q)
    (hbuilds : ∀ q, (calls.map (Call.builds q)).sum = s.total (Call.builds q))
    (hreads : ∀ q, (calls.map (Call.reads q)).sum ≤ 1)
    (hcalls : ∀ c ∈ calls, c ∈ s.calls ∨ CallSound dqhash s chain c) :
    Sound dqhash { s with refs := r, calls := calls, desireddquot := n } chain free := by
  have hlinked : Linked { s with refs := r, calls := calls, desireddquot := n } chain free :=
    ⟨hs.linked.chains, hs.linked.frees, hs.linked.apart⟩
  refine hs.same_chains hlinked (fun q => ?_) rfl rfl rfl rfl rfl rfl (fun _ => rfl) hbuilds hreads
    hcalls
  exact (hs.counted q).congr rfl (href q) (hbuilds q) Iff.rfl Iff.rfl

theorem Sound.pass (hc : c ∈ s.calls) (hholds : ∀ q, (cs.map (Call.holds q)).sum = c.holds q)
    (hbuilds : ∀ q, (cs.map (Call.builds q)).sum = c.builds q)
    (hreads : ∀ q, (cs.map (Call.reads q)).sum = c.reads q)
    (hcs : ∀ c' ∈ cs, CallSound dqhash s chain c') : Sound dqhash (s.become c cs) chain free := by
  refine hs.recall (n := s.desireddquot) (fun q => ?_) (fun q => ?_) (fun q => ?_) fun c' hc' => ?_
  · have h := references_become cs q hc
    rw [hholds] at h
    exact Nat.add_right_cancel h
  · have h := total_become cs (Call.builds q) hc
    rw [hbuilds] at h
    exact Nat.add_right_cancel h
  · have h := total_become cs (Call.reads q) hc
    rw [hreads] at h
    exact (Nat.add_right_cancel h).trans_le (hs.called.reader q)
  · rcases mem_append.mp hc' with hc' | hc'
    · exact .inr (hcs c' hc')
    · exact .inl (mem_of_mem_erase hc')

theorem Sound.recount {ff fb : Link Unit → Link Unit} {n : ℤ}
    (hlinked : Linked { s with dq_freef := ff, dq_freeb := fb } chain free') (hc : c ∈ s.calls)
    (hn : n + c.holds q = (s.references q + (cs.map (Call.holds q)).sum : ℕ))
    (hholds : ∀ q' ≠ q, (cs.map (Call.holds q')).sum = c.holds q')
    (hbuilds : ∀ q', (cs.map (Call.builds q')).sum = c.builds q')
    (hreads : ∀ q', (cs.map (Call.reads q')).sum = c.reads q')
    (hq : q < s.numdquot ∧ s.total (Call.builds q) = 0) (hfree : q ∈ free' ↔ n = 0)
    (hother : ∀ q' ≠ q, (q' ∈ free' ↔ q' ∈ free))
    (hcs : ∀ c' ∈ cs, CallSound dqhash s chain c') :
    Sound dqhash (({ s with dq_freef := ff, dq_freeb := fb }.setDquot q
      { s.dquot q with dq_cnt := n }).become c cs) chain free' := by
  set t := ({ s with dq_freef := ff, dq_freeb := fb }.setDquot q { s.dquot q with dq_cnt := n }).become c cs
  have htotal (f : Call → ℕ) : t.total f + f c = s.total f + (cs.map f).sum := total_become cs f hc
  have href (q' : ℕ) : t.references q' + c.holds q' =
      s.references q' + (cs.map (Call.holds q')).sum := references_become cs q' hc
  have hbuild (q' : ℕ) : t.total (Call.builds q') = s.total (Call.builds q') := by
    have h := htotal (Call.builds q')
    have h' := hbuilds q'
    omega
  have hread (q' : ℕ) : t.total (Call.reads q') = s.total (Call.reads q') := by
    have h := htotal (Call.reads q')
    have h' := hreads q'
    omega
  have hdquot : t.dquot q = { s.dquot q with dq_cnt := n } := update_self ..
  have hsame (q' : ℕ) (hne : q' ≠ q) : t.dquot q' = s.dquot q' := update_of_ne hne ..
  have hcount : n = t.references q := by
    have h := href q
    omega
  refine hs.same_chains ⟨hlinked.chains, hlinked.frees, hlinked.apart⟩ (fun q' => ?_) rfl rfl rfl rfl
    rfl rfl (fun q' => ?_) hbuild (fun q' => (hread q').trans_le (hs.called.reader q'))
    fun c' hc' => ?_
  · by_cases hne : q' = q
    · rw [hne]
      have hzero : t.total (Call.builds q) = 0 := (hbuild q).trans hq.2
      refine ⟨?_, ?_, fun _ => hq.1, fun _ => hzero, hzero.trans_le (Nat.zero_le 1)⟩
      · rw [hdquot]
        exact hcount
      · rw [hfree, hcount, Int.natCast_eq_zero]
        exact ⟨fun h0 => ⟨hq.1, h0, hzero⟩, fun h0 => h0.2.1⟩
    · refine (hs.counted q').congr ?_ ?_ (hbuild q') Iff.rfl (hother q' hne)
      · rw [hsame q' hne]
      · have h := href q'
        rw [hholds q' hne] at h
        exact Nat.add_right_cancel h
  · by_cases hne : q' = q
    · rw [hne, hdquot]
      rfl
    · rw [hsame q' hne]
  · rcases mem_append.mp hc' with hc' | hc'
    · exact .inr (hcs c' hc')
    · exact .inl (mem_of_mem_erase hc')

end Counts

section Search

variable (hs : Sound dqhash s chain free)
include hs

theorem Sound.length_le (h : ℕ) : (chain h).length ≤ s.numdquot := by
  have hsub : chain h ⊆ range s.numdquot := fun q hq =>
    mem_range.mpr (hs.placed.hashed h q hq).1
  have hle := (subperm_of_subset (hs.linked.chain_nodup h) hsub).length_le
  rwa [length_range] at hle

theorem Sound.search_eq (g : Get) (h : ℕ) : s.search g h = some ((chain h).find? (s.isFor g)) :=
  QuotaCache.search_eq hs.linked g (hs.length_le h)

theorem Sound.held (hc : c ∈ s.calls) (hholds : c.holds q = 1) :
    0 < s.references q ∧ q < s.numdquot ∧ s.total (Call.builds q) = 0 := by
  have hle := le_total (f := Call.holds q) hc
  have hpos : 0 < s.references q := by
    unfold Cache.references
    omega
  exact ⟨hpos, (hs.counted q).busy_lt (by omega), (hs.counted q).excl hpos.ne'⟩

theorem Sound.search_step (hc : .look g ∈ s.calls)
    (hok : ∀ q, s.search g (g.dh dqhash) = some (some q) → (s.dquot q).dq_cnt < 32767)
    (ht : dqgetSearch dqhash s g = some t) : ∃ free', Sound dqhash t chain free' := by
  have hget := (hs.called.call _ hc).1
  unfold dqgetSearch at ht
  rw [hs.search_eq] at ht hok
  cases hfind : (chain (g.dh dqhash)).find? (s.isFor g) with
  | none =>
    rw [hfind] at ht
    obtain rfl := Option.some_inj.mp ht
    have hnone := find?_eq_none.mp hfind
    refine ⟨free, hs.pass hc (fun _ => rfl) (fun _ => rfl) (fun _ => rfl) fun c' hc' => ?_⟩
    rw [mem_singleton.mp hc']
    refine ⟨hget, le_rfl, fun _ q hq => ?_⟩
    exact Bool.eq_false_iff.mpr (hnone q hq)
  | some q =>
    rw [hfind] at ht hok
    have hmem := mem_of_find?_eq_some hfind
    obtain ⟨hlt, hbuilds⟩ := hs.placed.hashed _ q hmem
    have hcnt := (hs.counted q).cnt
    have hinc : incShort (s.dquot q).dq_cnt = s.references q + 1 := by
      have hlt := hok q rfl
      unfold incShort
      rw [if_neg hlt.ne, hcnt]
    have hne (q' : ℕ) (hq' : q' ≠ q) :
        ([Call.found g q].map (Call.holds q')).sum = Call.holds q' (.look g) := by
      simp [Call.holds, hq'.symm]
    have hself : ([Call.found g q].map (Call.holds q)).sum = 1 := by simp [Call.holds]
    have hpos : incShort (s.dquot q).dq_cnt ≠ 0 := by omega
    have hcs (c' : Call) (hc' : c' ∈ [Call.found g q]) : CallSound dqhash s chain c' := by
      rw [mem_singleton.mp hc']
      exact ⟨hget, trivial⟩
    simp only [Option.some_inj] at ht
    subst ht
    split
    · rename_i hzero
      have hfree : q ∈ free := (hs.counted q).free_iff.mpr ⟨hlt, by omega, hbuilds⟩
      have hnodup := hs.linked.free_nodup
      refine ⟨free.erase q, hs.recount (hs.linked.unfree hfree) hc ?_ hne (fun _ => rfl) (fun _ => rfl)
        ⟨hlt, hbuilds⟩ ?_ (fun q' hq' => ?_) hcs⟩
      · rw [hself, hinc]
        rfl
      · rw [hnodup.mem_erase_iff]
        exact iff_of_false (fun h => h.1 rfl) hpos
      · exact mem_erase_of_ne hq'
    · rename_i hzero
      refine ⟨free, hs.recount hs.linked hc ?_ hne (fun _ => rfl) (fun _ => rfl)
        ⟨hlt, hbuilds⟩ ?_ (fun q' _ => Iff.rfl) hcs⟩
      · rw [hself, hinc]
        rfl
      · rw [(hs.counted q).free_iff]
        exact iff_of_false (fun h => hzero (hcnt.trans (by rw [h.2.1]; rfl))) hpos

end Search

section References

section

variable (hs : Sound dqhash s chain free)
include hs

theorem Sound.hand_out (hc : c ∈ s.calls)
    (hholds : ∀ q', c.holds q' = if q = q' then 1 else 0) (hbuilds : ∀ q', c.builds q' = 0) :
    Sound dqhash { s.become c [] with refs := update s.refs q (s.refs q + 1) } chain
      free := by
  refine hs.recall (n := s.desireddquot) (fun q' => ?_) (fun q' => ?_) (fun q' => ?_) fun c' hc' => ?_
  · have h := total_become [] (Call.holds q') hc
    rw [hholds, map_nil, sum_nil, Nat.add_zero] at h
    unfold Cache.references
    rw [← h]
    by_cases hq : q = q'
    · rw [hq, update_self, if_pos rfl]
      exact Nat.add_right_comm (s.refs q') 1 _
    · rw [update_of_ne (Ne.symm hq), if_neg hq]
      rfl
  · have h := total_become [] (Call.builds q') hc
    rw [hbuilds] at h
    exact h
  · have h := total_become [] (Call.reads q') hc
    exact (Nat.le_of_add_right_le h.le).trans (hs.called.reader q')
  · exact .inl (mem_of_mem_erase hc')

theorem Sound.lock_step (hc : .found g q ∈ s.calls) : Sound dqhash (dqgetLock s g q) chain free := by
  unfold dqgetLock
  split
  · refine hs.pass hc (fun _ => rfl) (fun _ => rfl) (fun _ => rfl) fun c' hc' => ?_
    rw [mem_singleton.mp hc']
    exact ⟨nofun, trivial⟩
  · exact hs.hand_out hc (fun _ => rfl) fun _ => rfl

theorem Sound.dqget_step (hquota : s.um_quotas g.ump g.type = some g.dqvp) (hflush : s.flushing g.ump = none) :
    Sound dqhash { s with calls := .look g :: s.calls } chain free := by
  refine hs.recall (r := s.refs) (n := s.desireddquot) (fun q => ?_) (fun q => ?_) (fun q => ?_)
    fun c hc => ?_
  · simp [Call.holds, Cache.references, Cache.total]
  · simp [Call.builds, Cache.total]
  · simpa [Call.reads, Cache.total] using hs.called.reader q
  · cases hc with
    | head =>
      refine .inr ⟨fun g' hg' => ?_, trivial⟩
      obtain rfl := Option.some_inj.mp hg'
      exact ⟨hquota, hflush⟩
    | tail _ hc => exact .inl hc

theorem Sound.dqrele_step (hpos : 0 < s.refs q) :
    Sound dqhash { s with
      refs := update s.refs q (s.refs q - 1)
      calls := .putting q none :: s.calls } chain free := by
  refine hs.recall (n := s.desireddquot) (fun q' => ?_) (fun q' => ?_) (fun q' => ?_) fun c hc => ?_
  · rw [map_cons, sum_cons, Call.holds]
    unfold Cache.references Cache.total
    by_cases hq : q = q'
    · rw [← hq, update_self, if_pos rfl]
      omega
    · rw [update_of_ne (Ne.symm hq), if_neg hq, Nat.zero_add]
  · simp [Call.builds, Cache.total]
  · simpa [Call.reads, Cache.total] using hs.called.reader q'
  · cases hc with
    | head => exact .inr ⟨nofun, trivial⟩
    | tail _ hc => exact .inl hc

end

theorem callSound_resume (hget : ∀ g ∈ again, s.um_quotas g.ump g.type = some g.dqvp ∧ s.flushing g.ump = none) :
    ∀ c ∈ resume again, CallSound dqhash s chain c := by
  intro c hc
  obtain ⟨g, hg, rfl⟩ := mem_map.mp hc
  refine ⟨fun g' hg' => ?_, trivial⟩
  obtain rfl := Option.some_inj.mp hg'
  exact hget g (Option.mem_toList.mp hg)

theorem Sound.put_step (hs : Sound dqhash s chain free) (hc : .putting q again ∈ s.calls) :
    Sound dqhash (dqputFirst s q again) chain free := by
  have hget := (hs.called.call _ hc).1
  obtain ⟨hpos, hlt, hbuilds⟩ := hs.held (q := q) hc (if_pos rfl)
  have hcnt := (hs.counted q).cnt
  unfold dqputFirst
  split
  · rename_i hmany
    have hdec : decShort (s.dquot q).dq_cnt = s.references q - 1 := by
      unfold decShort
      rw [if_neg (by omega), hcnt]
    have hself : Call.holds q (.putting q again) = 1 := if_pos rfl
    refine hs.recount hs.linked hc ?_ (fun q' hq' => ?_) (fun q' => ?_) (fun q' => ?_) ⟨hlt, hbuilds⟩
      ?_ (fun q' _ => Iff.rfl) (callSound_resume hget)
    · rw [sum_resume fun _ => rfl, hself, hdec]
      omega
    · rw [sum_resume fun _ => rfl]
      exact (if_neg hq'.symm).symm
    · exact sum_resume fun _ => rfl
    · exact sum_resume fun _ => rfl
    · rw [(hs.counted q).free_iff]
      exact iff_of_false (fun h => hpos.ne' h.2.1) (by omega)
  · refine hs.pass hc (fun _ => rfl) (fun _ => rfl) (fun _ => rfl) fun c' hc' => ?_
    rw [mem_singleton.mp hc']
    exact ⟨hget, trivial⟩

theorem Sound.drop_step (hs : Sound dqhash s chain free) (hc : .dropping q again ∈ s.calls) :
    ∃ free', Sound dqhash (dqputLast s q again) chain free' := by
  have hget := (hs.called.call _ hc).1
  obtain ⟨hpos, hlt, hbuilds⟩ := hs.held (q := q) hc (if_pos rfl)
  have hcnt := (hs.counted q).cnt
  have hnot : q ∉ free := fun hmem => hpos.ne' ((hs.counted q).free_iff.mp hmem).2.1
  have hdec : decShort (s.dquot q).dq_cnt = s.references q - 1 := by
    unfold decShort
    rw [if_neg (by omega), hcnt]
  have hself : Call.holds q (.dropping q again) = 1 := if_pos rfl
  have hn : decShort (s.dquot q).dq_cnt + Call.holds q (.dropping q again) =
      (s.references q + ((resume again).map (Call.holds q)).sum : ℕ) := by
    rw [sum_resume fun _ => rfl, hself, hdec]
    omega
  have hother (q' : ℕ) (hq' : q' ≠ q) :
      ((resume again).map (Call.holds q')).sum = Call.holds q' (.dropping q again) := by
    rw [sum_resume fun _ => rfl]
    exact (if_neg hq'.symm).symm
  unfold dqputLast
  simp only [Cache.setDquot, update_self]
  split
  · rename_i hmore
    refine ⟨free, hs.recount hs.linked hc hn hother (fun q' => ?_) (fun q' => ?_) ⟨hlt, hbuilds⟩ ?_
      (fun q' _ => Iff.rfl) (callSound_resume hget)⟩
    · exact sum_resume fun _ => rfl
    · exact sum_resume fun _ => rfl
    · exact iff_of_false hnot hmore.ne'
  · rename_i hlast
    refine ⟨free ++ [q], hs.recount (hs.linked.appendFree hnot) hc hn hother (fun q' => ?_)
      (fun q' => ?_) ⟨hlt, hbuilds⟩ ?_ (fun q' hq' => ?_) (callSound_resume hget)⟩
    · exact sum_resume fun _ => rfl
    · exact sum_resume fun _ => rfl
    · refine iff_of_true ?_ (by omega)
      exact mem_append_right _ (mem_singleton_self q)
    · rw [mem_append, mem_singleton, or_iff_left hq']

end References

end Sections

end Osf1.QuotaCache
