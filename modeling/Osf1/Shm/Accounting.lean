import Osf1.Shm.Model

/-!
# Attach accounting

The three counters of a segment agree with its entries, as long as no wiring fails after an entry
is linked and no control clips an entry.
-/

set_option autoImplicit false

namespace Osf1.Shm

open Osf1.Computation Option

variable {s : State} {e : Event} {t : Turn} {o i addr len size map newmap pid : ℕ}
  {sp sop : Segment} {es : List Entry} {ep oep : Entry} {p : ℕ → Bool}

/-- For every segment that has not been freed the three counters agree with the entries, and a
segment is freed when it is removed and has no entry. -/
def Accounts (s : State) : Prop :=
  ∀ o sp, s.shmem[o]? = some sp →
    (sp.freed = false → sp.shmNattch = s.entries.countP (fun ep => ep.vmeObject = o) ∧
      sp.shmNattch = (sp.soAttach.map Attach.atCount).sum ∧
      sp.soRefcnt = sp.shmNattch + if sp.removed then 0 else 1) ∧
    (sp.freed = true ↔ sp.removed = true ∧ s.entries.countP (fun ep => ep.vmeObject = o) = 0)

/-- The counters of one segment. -/
structure Counts (es : List Entry) (o : ℕ) (sp : Segment) : Prop where
  attach : ∀ p, attached p sp.soAttach = mapped p o es
  pos : ∀ a ∈ sp.soAttach, 0 < a.atCount
  nattch : sp.shmNattch = mapped (fun _ => true) o es
  refcnt : sp.soRefcnt = sp.shmNattch + if sp.removed then 0 else 1
  freed : sp.freed = true ↔ sp.removed = true ∧ sp.shmNattch = 0

structure Inv (s : State) : Prop where
  counts : ∀ o sp, s.shmem[o]? = some sp → Counts s.entries o sp
  object : ∀ ep ∈ s.entries, ep.vmeObject < s.shmem.length

theorem mapped_true (o : ℕ) (es : List Entry) :
    mapped (fun _ => true) o es = es.countP fun ep => ep.vmeObject = o := by
  simp [mapped]

theorem Inv.accounts (h : Inv s) : Accounts s := by
  intro o sp hsp
  have hc := h.counts o sp hsp
  rw [← mapped_true]
  refine ⟨fun _ => ⟨hc.nattch, ?_, hc.refcnt⟩, ?_⟩
  · rw [← attached_true, hc.attach]
    exact hc.nattch
  · rw [← hc.nattch]
    exact hc.freed

theorem Counts.congr {es' : List Entry} (h : Counts es o sp)
    (heq : ∀ p, mapped p o es' = mapped p o es) : Counts es' o sp where
  attach p := (h.attach p).trans (heq p).symm
  pos := h.pos
  nattch := h.nattch.trans (heq _).symm
  refcnt := h.refcnt
  freed := h.freed

theorem Inv.set (h : Inv s) (hcounts : Counts es o sp)
    (hother : ∀ o', o' ≠ o → ∀ p, mapped p o' es = mapped p o' s.entries)
    (hobject : ∀ ep ∈ es, ep.vmeObject < s.shmem.length) : Inv ⟨s.shmem.set o sp, es⟩ := by
  constructor
  · intro o' sp' hsp'
    by_cases heq : o' = o
    · subst heq
      obtain ⟨hlt, hget⟩ := List.getElem?_eq_some_iff.mp hsp'
      rw [List.getElem_set_self] at hget
      rw [← hget]
      exact hcounts
    · have hold : s.shmem[o']? = some sp' := by
        rw [← hsp']
        exact (List.getElem?_set_ne (Ne.symm heq)).symm
      exact (h.counts o' sp' hold).congr (hother o' heq)
  · intro ep hep
    rw [List.length_set]
    exact hobject ep hep

theorem Inv.shmget (h : Inv s) : Inv (shmget s) := by
  constructor
  · intro o sp hsp
    by_cases hlt : o < s.shmem.length
    · apply h.counts o sp
      rw [← hsp]
      exact (List.getElem?_append_left hlt).symm
    · obtain ⟨hlast, hget⟩ := List.getElem?_eq_some_iff.mp hsp
      have hlen : (Shm.shmget s).shmem.length = s.shmem.length + 1 := List.length_append
      have ho : o = s.shmem.length := by omega
      have hsp' : sp = ⟨1, 0, 0, [], false, false⟩ := by
        rw [← hget]
        simp [Shm.shmget, ho]
      have hnone (p : ℕ → Bool) : mapped p o s.entries = 0 := by
        apply mapped_of_ne
        intro ep hep heq
        exact hlt (heq ▸ h.object ep hep)
      subst hsp'
      exact
        { attach := fun p => (hnone p).symm
          pos := fun a ha => by cases ha
          nattch := (hnone _).symm
          refcnt := rfl
          freed := by simp }
  · intro ep hep
    show ep.vmeObject < (s.shmem ++ [_]).length
    rw [List.length_append]
    exact Nat.lt_add_right _ (h.object ep hep)

theorem Inv.link (h : Inv s) (hsp : s.shmem[ep.vmeObject]? = some sp) (hfreed : sp.freed = false)
    (hsop : sop = { sp with
      soRefcnt := sp.soRefcnt + 1
      soAttach := uShmAttach pid ep.vmeMap sp.soAttach
      shmLpid := sop.shmLpid
      shmNattch := sp.shmNattch + 1 }) : Inv (link s ep sop) := by
  have hc := h.counts _ sp hsp
  have hadd (p : ℕ → Bool) : mapped p ep.vmeObject (ep :: s.entries) =
      mapped p ep.vmeObject s.entries + if p ep.vmeMap then 1 else 0 := by
    rw [mapped_cons]
    simp
  apply h.set
  · rw [hsop]
    exact
      { attach := fun p => by
          rw [attached_uShmAttach, hadd, hc.attach]
        pos := atCount_pos_uShmAttach hc.pos
        nattch := by
          rw [hadd, hc.nattch]
          rfl
        refcnt := by
          show sp.soRefcnt + 1 = sp.shmNattch + 1 + if sp.removed then 0 else 1
          rw [hc.refcnt]
          omega
        freed := by
          rw [hfreed]
          simp }
  · intro o' hne p
    rw [mapped_cons, if_neg fun h => hne h.1.symm]
    rfl
  · intro ep' hep'
    rcases List.mem_cons.mp hep' with rfl | hep'
    · exact (List.getElem?_eq_some_iff.mp hsp).1
    · exact h.object ep' hep'

theorem Inv.freed_eq_false (h : Inv s) (hep : ep ∈ s.entries)
    (hsp : s.shmem[ep.vmeObject]? = some sp) : sp.freed = false := by
  have hc := h.counts _ sp hsp
  have hpos := mapped_pos (p := fun _ => true) hep rfl
  rw [← hc.nattch] at hpos
  by_contra hfreed
  have hzero := (hc.freed.mp (by simpa using hfreed)).2
  omega

theorem uShmOopDeallocate_eq (sp : Segment) (n : ℕ) (h : sp.soRefcnt = sp.shmNattch + n + 1) :
    uShmOopDeallocate sp =
      { sp with soRefcnt := sp.shmNattch + n
                freed := sp.freed || (sp.shmNattch + n == 0) } := by
  have hlt : ¬sp.soRefcnt ≤ sp.shmNattch := by omega
  have hpred : sp.soRefcnt - 1 = sp.shmNattch + n := by omega
  unfold uShmOopDeallocate
  rw [if_neg hlt, hpred]
  split
  · next hne =>
    have hbeq : (sp.shmNattch + n == 0) = false := beq_false_of_ne hne
    rw [hbeq, Bool.or_false]
  · next heq =>
    have hbeq : (sp.shmNattch + n == 0) = true := beq_iff_eq.mpr (not_not.mp heq)
    rw [hbeq, Bool.or_true]

theorem Inv.exists_uShmUnmap (h : Inv s) (hep : ep ∈ s.entries)
    (hsp : s.shmem[ep.vmeObject]? = some sp) : ∃ sop, uShmUnmap ep.vmeMap sp = some sop := by
  have hpos := mapped_pos (p := fun m => m == ep.vmeMap) hep (beq_self_eq_true _)
  rw [← (h.counts _ sp hsp).attach] at hpos
  obtain ⟨a, ha, hmap⟩ := attached_pos hpos
  obtain ⟨pid, left, hleft⟩ := exists_uShmDettach ⟨a, ha, beq_iff_eq.mp hmap⟩
  unfold uShmUnmap
  rw [hleft]
  exact ⟨_, rfl⟩

theorem Inv.unmapped (h : Inv s) (hep : s.entries[i]? = some ep)
    (hsp : s.shmem[ep.vmeObject]? = some sp) (hunmap : uShmUnmap ep.vmeMap sp = some sop) :
    Inv ⟨s.shmem.set ep.vmeObject (uShmOopDeallocate sop), s.entries.eraseIdx i⟩ := by
  have hc := h.counts _ sp hsp
  have hmem : ep ∈ s.entries := List.mem_of_getElem? hep
  have hfreed := h.freed_eq_false hmem hsp
  have hsub (p : ℕ → Bool) : mapped p ep.vmeObject s.entries =
      mapped p ep.vmeObject (s.entries.eraseIdx i) + if p ep.vmeMap then 1 else 0 := by
    rw [mapped_eraseIdx hep]
    simp
  have hn : sp.shmNattch =
      mapped (fun _ => true) ep.vmeObject (s.entries.eraseIdx i) + 1 := by
    rw [hc.nattch, hsub]
    rfl
  obtain ⟨⟨pid, left⟩, hdettach, rfl⟩ := map_eq_some_iff.mp hunmap
  obtain ⟨hsum, hleft⟩ := uShmDettach_spec hdettach hc.pos
  have hdec : decrement sp.shmNattch = sp.shmNattch - 1 := if_neg (by omega)
  have hdealloc := uShmOopDeallocate_eq
    { sp with shmNattch := decrement sp.shmNattch, shmLpid := pid, soAttach := left }
    (if sp.removed then 0 else 1) (by
      show sp.soRefcnt = decrement sp.shmNattch + _ + 1
      rw [hc.refcnt, hdec]
      omega)
  apply h.set
  · rw [hdealloc]
    exact
      { attach := fun p => by
          show attached p left = _
          have := hsum p
          rw [hc.attach, hsub] at this
          omega
        pos := hleft
        nattch := by
          show decrement sp.shmNattch = _
          omega
        refcnt := rfl
        freed := by
          rw [hfreed, Bool.false_or, beq_iff_eq]
          cases sp.removed <;> simp }
  · intro o' hne p
    rw [mapped_eraseIdx hep, if_neg fun h => hne h.1.symm]
    rfl
  · intro ep' hep'
    exact h.object ep' (List.mem_of_mem_eraseIdx hep')

theorem uShmOopDeallocate_reference (h : ¬sp.soRefcnt ≤ sp.shmNattch) :
    uShmOopDeallocate { sp with soRefcnt := sp.soRefcnt + 1 } = sp := by
  have hle : ¬sp.soRefcnt + 1 ≤ sp.shmNattch := by omega
  have hne : sp.soRefcnt + 1 - 1 ≠ 0 := by omega
  unfold uShmOopDeallocate
  rw [if_neg hle, if_pos hne]
  rfl

theorem Inv.set_self (h : Inv s) (hsp : s.shmem[o]? = some sp) : Inv { s with shmem := s.shmem.set o sp } := by
  obtain ⟨hlt, rfl⟩ := List.getElem?_eq_some_iff.mp hsp
  rw [List.set_getElem_self]
  exact h

theorem Inv.rmid_first (h : Inv s) (hsp : s.shmem[o]? = some sp) (hfreed : sp.freed = false)
    (hremoved : sp.removed = false) :
    Inv { s with shmem := s.shmem.set o { uShmOopDeallocate sp with removed := true } } := by
  have hc := h.counts _ sp hsp
  have href : sp.soRefcnt = sp.shmNattch + 0 + 1 := by
    rw [hc.refcnt, hremoved]
    rfl
  apply h.set
  · rw [uShmOopDeallocate_eq sp 0 href]
    exact
      { attach := hc.attach
        pos := hc.pos
        nattch := hc.nattch
        refcnt := rfl
        freed := by
          rw [hfreed]
          simp }
  · intro o' _ p
    rfl
  · exact h.object

theorem Inv.rmid_again (h : Inv s) (hsp : s.shmem[o]? = some sp) (hremoved : sp.removed = true) :
    Inv { s with shmem := s.shmem.set o { uShmOopDeallocate sp with removed := true } } := by
  have href : sp.soRefcnt ≤ sp.shmNattch := by
    rw [(h.counts _ sp hsp).refcnt, hremoved]
    exact Nat.le_refl _
  have hsame : { uShmOopDeallocate sp with removed := true } = sp := by
    unfold uShmOopDeallocate
    rw [if_pos href, ← hremoved]
  rw [hsame]
  exact h.set_self hsp

theorem vmMapEntrySplit_self (h : addr = ep.vmeStart) (hsize : addr + size = ep.vmeEnd) :
    vmMapEntrySplit ep addr (addr + size) = [ep] := by
  rw [hsize, h]
  unfold vmMapEntrySplit
  rw [if_neg (Nat.lt_irrefl _), if_neg (Nat.lt_irrefl _), Nat.max_self, Nat.min_self]
  rfl

theorem Inv.controlled (h : Inv s) (hep : s.entries[i]? = some ep) (hsp : s.shmem[ep.vmeObject]? = some sp) :
    Inv ⟨s.shmem.set ep.vmeObject sp, ep :: s.entries.eraseIdx i⟩ := by
  have heq (p : ℕ → Bool) (o : ℕ) :
      mapped p o (ep :: s.entries.eraseIdx i) = mapped p o s.entries := by
    rw [mapped_cons, mapped_eraseIdx hep]
  apply h.set
  · exact (h.counts _ sp hsp).congr fun p => heq p _
  · exact fun o' _ p => heq p o'
  · intro ep' hep'
    rcases List.mem_cons.mp hep' with rfl | hep'
    · exact h.object _ (List.mem_of_getElem? hep)
    · exact h.object ep' (List.mem_of_mem_eraseIdx hep')

theorem Inv.step (h : Inv s) (hok : Orderly s e) (hstep : Shm.step s e = some t) :
    ∃ s', t.state? = some s' ∧ Inv s' := by
  cases e with
  | shmget =>
    cases hstep
    exact ⟨_, rfl, h.shmget⟩
  | shmat ep pid denied enter =>
    obtain ⟨sp, hsp, ht⟩ := bind_eq_some_iff.mp hstep
    split at ht
    · cases ht
      exact ⟨s, rfl, h⟩
    · next hcheck =>
      obtain ⟨hfreed, href⟩ := not_or.mp hcheck
      cases denied with
      | some error =>
        cases ht
        exact ⟨s, rfl, h⟩
      | none =>
        cases enter with
        | failed nomem =>
          cases ht
          refine ⟨_, rfl, ?_⟩
          rw [uShmOopDeallocate_reference href]
          exact h.set_self hsp
        | wireFailed nomem => exact absurd rfl (hok nomem)
        | entered =>
          cases ht
          exact ⟨_, rfl, h.link hsp (Bool.not_eq_true _ ▸ hfreed) rfl⟩
  | dup i newmap pid =>
    obtain ⟨oep, hoep, ht⟩ := bind_eq_some_iff.mp hstep
    obtain ⟨sop, hsop, rfl⟩ := map_eq_some_iff.mp ht
    have hfreed := h.freed_eq_false (List.mem_of_getElem? hoep) hsop
    exact ⟨_, rfl, h.link hsop hfreed rfl⟩
  | control i addr size short =>
    obtain ⟨ep, hep, ht⟩ := bind_eq_some_iff.mp hstep
    obtain ⟨sop, hsop, ht⟩ := bind_eq_some_iff.mp ht
    obtain ⟨-, ht⟩ := ite_none_right_eq_some.mp ht
    cases short with
    | true =>
      cases ht
      exact ⟨s, rfl, h⟩
    | false =>
      cases ht
      obtain ⟨hstart, hend⟩ := hok rfl ep hep
      refine ⟨_, rfl, ?_⟩
      rw [vmMapEntrySplit_self hstart hend]
      exact h.controlled hep hsop
  | unmap i addr len =>
    obtain ⟨ep, hep, ht⟩ := bind_eq_some_iff.mp hstep
    obtain ⟨sp, hsp, rfl⟩ := map_eq_some_iff.mp ht
    obtain ⟨sop, hsop⟩ := h.exists_uShmUnmap (List.mem_of_getElem? hep) hsp
    rw [hsop]
    split
    · exact ⟨s, rfl, h⟩
    · exact ⟨_, rfl, h.unmapped hep hsp hsop⟩
  | rmid shmid denied =>
    obtain ⟨sp, hsp, rfl⟩ := map_eq_some_iff.mp hstep
    split
    · exact ⟨s, rfl, h⟩
    · next hfreed =>
      cases denied with
      | some error => exact ⟨s, rfl, h⟩
      | none =>
        cases hremoved : sp.removed with
        | true => exact ⟨_, rfl, h.rmid_again hsp hremoved⟩
        | false => exact ⟨_, rfl, h.rmid_first hsp (Bool.not_eq_true _ ▸ hfreed) hremoved⟩

theorem inv_of_reachable (h : (shmSystem.restrict Orderly).Reachable s) : Inv s := by
  refine h.invariant ?_ ?_
  · rintro s rfl
    constructor
    · intro o sp hsp
      cases hsp
    · intro ep hep
      cases hep
  · rintro s e s' _ hinv ⟨hok, hstep⟩
    obtain ⟨t, ht, hs'⟩ := bind_eq_some_iff.mp hstep
    obtain ⟨s'', hs'', h''⟩ := hinv.step hok ht
    rw [hs'] at hs''
    cases hs''
    exact h''

/-- In an orderly run the counters agree in every state, and no orderly step panics. -/
theorem attach_accounting (h : (shmSystem.restrict Orderly).Reachable s) :
    Accounts s ∧ ∀ e, Orderly s e → step s e ≠ some .panic := by
  have hinv := inv_of_reachable h
  refine ⟨hinv.accounts, fun e hok hpanic => ?_⟩
  obtain ⟨s', hs', -⟩ := hinv.step hok hpanic
  cases hs'

/-- One segment, attached by the process 1 at its map 1. -/
def oneAttached : State := ⟨[⟨2, 1, 1, [⟨1, 1, 1⟩], false, false⟩], [⟨1, 8192, 24576, 0⟩]⟩

theorem oneAttached_reachable : (shmSystem.restrict Orderly).Reachable oneAttached := by
  have hget : (shmSystem.restrict Orderly).Reachable (shmget ⟨[], []⟩) :=
    .step (i := .shmget) (.init rfl) ⟨trivial, rfl⟩
  exact .step (i := .shmat ⟨1, 8192, 24576, 0⟩ 1 none .entered) hget ⟨fun nomem => nofun, rfl⟩

theorem oneAttached_accounting :
    Accounts oneAttached ∧ ∀ e, Orderly oneAttached e → step oneAttached e ≠ some .panic :=
  attach_accounting oneAttached_reachable

/-- A change of the inheritance of a half of the entry: two entries, one of which is counted. -/
def oneClipped : State := ⟨[⟨3, 1, 1, [⟨1, 1, 1⟩], false, false⟩], [⟨1, 8192, 16384, 0⟩, ⟨1, 16384, 24576, 0⟩]⟩

/-- The counters do not agree when an entry is clipped, and the second unmapping panics.  A
wiring that fails for the first attach panics as well. -/
theorem accounting_fails :
    (shmSystem.Reachable oneClipped ∧ ¬Accounts oneClipped) ∧
      (∃ s, shmSystem.Reachable s ∧ step s (.unmap 0 16384 8192) = some .panic) ∧
      ∃ s, shmSystem.Reachable s ∧
        step s (.shmat ⟨1, 8192, 24576, 0⟩ 1 none (.wireFailed true)) = some .panic := by
  have hclip : shmSystem.Reachable oneClipped :=
    oneAttached_reachable.of_restrict.step (i := .control 0 8192 8192 false) rfl
  refine ⟨⟨hclip, fun h => ?_⟩, ?_, ?_⟩
  · have := ((h 0 _ rfl).1 rfl).1
    revert this
    decide
  · exact ⟨_, hclip.step (i := .unmap 0 8192 8192) rfl, rfl⟩
  · exact ⟨_, .step (i := .shmget) (.init rfl) rfl, rfl⟩

end Osf1.Shm
