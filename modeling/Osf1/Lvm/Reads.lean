import Osf1.Lvm.Schedule

/-!
# What a mirrored read promises

A read tries copies that are there and not stale, each once, until one of them can be read. A parallel read
keeps this.
-/

set_option autoImplicit false

namespace Osf1.Lvm

open List

section Conditions

variable (v : Volume) (x : Copies) (r : Read)

/-- A copy that may be read: it is there, on a volume that is not missing, and not stale. -/
def Sound (m : Mirror) : Prop :=
  m ≤ v.maxmirrors ∧ (∃ pv, (x.ext m).pvnum = some pv ∧ v.missing pv = false) ∧ (x.ext m).stale = false

/-- The physical reads are of sound copies, each once; and if the request fails, then every sound
copy that the caller does not avoid has been tried, and its read has failed. -/
def ReadOk : Prop :=
  match lvRead v x r with
  | none => False
  | some (.undefined, _) => False
  | some (.done error, tried) =>
    (∀ m ∈ tried, Sound v x m) ∧ tried.Nodup ∧
      (error = true → ∀ m, Sound v x m → m ∉ r.miravoid → ∃ i, tried[i]? = some m ∧ r.io.result i m ≠ .ok)

/-- `lv_nextmir` may take the mirror for a read: no mirror in front of it is not there, its volume
is not missing, and it is to be resynced, or not stale if the read is an ordinary one. -/
def Candidate (m : Mirror) : Prop :=
  m ≤ v.maxmirrors ∧ (∀ m' < m, (x.ext m').pvnum ≠ none) ∧
    (∃ pv, (x.ext m).pvnum = some pv ∧ v.missing pv = false) ∧
    if r.resync then m ∈ x.lext.syncmsk else (x.ext m).stale = false

/-- The read is parallel; or its first candidate is not stale and can be read; or there is none,
and no copy that it could be read from. -/
def ReadFits : Prop :=
  r.policy = .parallel ∨
    (∃ m, Candidate v x r m ∧ (∀ m' < m, ¬Candidate v x r m') ∧ (x.ext m).stale = false ∧ r.io.result 0 m = .ok) ∨
    ((¬∃ m, Candidate v x r m) ∧ ∀ m, Sound v x m → m ∈ r.miravoid)

end Conditions

variable {v : Volume} {lb : Buf} {x : Copies} {r : Read} {io : ReadIo} {m : Mirror} {l tried : List Mirror} {pb : Pbuf}

/-- What a choice of `lv_bestmir` is. -/
structure Chosen (v : Volume) (x : Copies) (pb pb' : Pbuf) (m : Mirror) : Prop where
  mirror : pb'.mirror = m
  new : m ∈ pb'.mirdone
  old : ∀ c ∈ pb.mirdone, c ∈ pb'.mirdone
  done : ∀ c ∈ pb'.mirdone, c = m ∨ c ∈ pb.mirdone ∨ ¬Sound v x c

theorem lvBestmir_spec (hread : lb.read = true) (curxfs : ℕ → ℤ)
    (hl : ∀ m ∈ l, m ≤ v.maxmirrors) (pb : Pbuf) (minxfs : ℤ) (bestmir : Option Mirror) (hmin : bestmir = none → minxfs = -1) :
    ((lvBestmir v lb x curxfs l pb minxfs bestmir).2 = none ∧ bestmir = none ∧
      ∀ m ∈ l, m ∉ pb.mirdone → ¬Sound v x m) ∨
    ∃ m, (lvBestmir v lb x curxfs l pb minxfs bestmir).2 = some m ∧
      (bestmir = some m ∨ (m ∉ pb.mirdone ∧ Sound v x m)) ∧
      Chosen v x pb (lvBestmir v lb x curxfs l pb minxfs bestmir).1 m := by
  induction l generalizing pb minxfs bestmir with
  | nil =>
    cases bestmir with
    | none => exact .inl ⟨rfl, rfl, fun m hm => absurd hm not_mem_nil⟩
    | some m =>
      refine .inr ⟨m, rfl, .inl rfl, rfl, Finset.mem_insert_self .., fun c hc =>
        Finset.mem_insert_of_mem hc, fun c hc => ?_⟩
      exact (Finset.mem_insert.mp hc).imp_right .inl
  | cons m l ih =>
    have hl' : ∀ c ∈ l, c ≤ v.maxmirrors := fun c hc => hl c (mem_cons_of_mem _ hc)
    -- the mirror is left out, for it is done or not sound
    have hskip {pb₁ : Pbuf} (hsub : ∀ c ∈ pb.mirdone, c ∈ pb₁.mirdone)
        (hsup : ∀ c ∈ pb₁.mirdone, c ∈ pb.mirdone ∨ ¬Sound v x c)
        (hm : m ∉ pb.mirdone → ¬Sound v x m) :
        ((lvBestmir v lb x curxfs l pb₁ minxfs bestmir).2 = none ∧ bestmir = none ∧
          ∀ c ∈ m :: l, c ∉ pb.mirdone → ¬Sound v x c) ∨
        ∃ c, (lvBestmir v lb x curxfs l pb₁ minxfs bestmir).2 = some c ∧
          (bestmir = some c ∨ (c ∉ pb.mirdone ∧ Sound v x c)) ∧
          Chosen v x pb (lvBestmir v lb x curxfs l pb₁ minxfs bestmir).1 c := by
      rcases ih hl' pb₁ minxfs bestmir hmin with hnone | ⟨c, hrun, hbest, hchosen⟩
      · refine .inl ⟨hnone.1, hnone.2.1, fun c hc hnew => ?_⟩
        rcases mem_cons.mp hc with heq | hc
        · exact heq ▸ hm (heq ▸ hnew)
        · by_cases hdone : c ∈ pb₁.mirdone
          · exact (hsup c hdone).resolve_left hnew
          · exact hnone.2.2 c hc hdone
      · refine .inr ⟨c, hrun, hbest.imp_right fun h => ⟨fun hc => h.1 (hsub c hc), h.2⟩,
          hchosen.mirror, hchosen.new, fun d hd => hchosen.old d (hsub d hd), fun d hd => ?_⟩
        rcases hchosen.done d hd with heq | hd | hd
        · exact .inl heq
        · exact .inr (hsup d hd)
        · exact .inr (.inr hd)
    unfold lvBestmir
    split
    · rename_i hdone
      exact hskip (fun c hc => hc) (fun c hc => .inl hc) fun hnew => absurd hdone hnew
    rename_i hnew
    have hinsert (hm : ¬Sound v x m) {pb₁ : Pbuf} (hpb : pb₁.mirdone = insert m pb.mirdone) :=
      hskip (fun c hc => hpb ▸ Finset.mem_insert_of_mem hc)
        (fun c hc => by
          rw [hpb] at hc
          rcases Finset.mem_insert.mp hc with heq | hc
          · exact .inr (heq ▸ hm)
          · exact .inl hc) fun _ => hm
    cases hpv : (x.ext m).pvnum with
    | none =>
      apply hskip (fun c hc => hc) fun c hc => .inl hc
      rintro - ⟨-, ⟨pv, hsome, -⟩, -⟩
      rw [hpv] at hsome
      cases hsome
    | some pv =>
      simp only
      split
      · rename_i hmissing
        refine hinsert ?_ rfl
        rintro ⟨-, ⟨pv', hsome, hfalse⟩, -⟩
        rw [hpv] at hsome
        obtain rfl := Option.some_inj.mp hsome
        rw [hmissing] at hfalse
        cases hfalse
      rename_i hmissing
      split
      · rename_i hstale
        refine hinsert ?_ rfl
        rintro ⟨-, -, hfresh⟩
        rw [hfresh, Bool.and_false] at hstale
        cases hstale
      rename_i hstale
      have hsound : Sound v x m := by
        refine ⟨hl m (mem_cons_self ..), ⟨pv, hpv, Bool.eq_false_iff.mpr hmissing⟩, ?_⟩
        rw [hread, Bool.true_and] at hstale
        exact Bool.eq_false_iff.mpr hstale
      split
      · -- the best one so far
        rcases ih hl' pb (curxfs pv) (some m) (fun h => by cases h) with hnone | ⟨c, hrun, hbest, hchosen⟩
        · cases hnone.2.1
        · refine .inr ⟨c, hrun, .inr ?_, hchosen⟩
          rcases hbest with heq | h
          · obtain rfl := Option.some_inj.mp heq
            exact ⟨hnew, hsound⟩
          · exact h
      · rename_i hworse
        rcases ih hl' pb minxfs bestmir hmin with hnone | hsome
        · exact absurd (.inl (hmin hnone.2.1)) hworse
        · exact .inr hsome

/-- After a read has begun: what has been tried, and what is done. -/
structure Trying (v : Volume) (x : Copies) (r : Read) (tried : List Mirror) (pb : Pbuf) : Prop where
  nodup : (tried ++ [pb.mirror]).Nodup
  sound : ∀ c ∈ tried ++ [pb.mirror], Sound v x c
  begun : ∀ c ∈ tried ++ [pb.mirror], c ∈ pb.mirdone
  done : ∀ c ∈ pb.mirdone, c ∈ tried ++ [pb.mirror] ∨ c ∈ r.miravoid ∨ ¬Sound v x c
  failed : ∀ i c, tried[i]? = some c → r.io.result i c ≠ .ok

/-- What a parallel read promises. -/
def Promised (v : Volume) (x : Copies) (r : Read) (o : Option (ReadFinish × List Mirror)) : Prop :=
  ∃ error tried, o = some (.done error, tried) ∧
    (∀ m ∈ tried, Sound v x m) ∧ tried.Nodup ∧
      (error = true → ∀ m, Sound v x m → m ∉ r.miravoid → ∃ i, tried[i]? = some m ∧ r.io.result i m ≠ .ok)

theorem lvParreadDone_failed {fuel : ℕ} {media : Bool} {pb₁ : Pbuf}
    (hresult : io.result tried.length pb.mirror = .error media)
    (hpb : (if media then { pb with mirbad := insert pb.mirror pb.mirbad } else pb) = pb₁) :
    lvParreadDone v lb x io (fuel + 1) tried pb =
      match lvBestmir v lb x (io.curxfs (tried.length + 1)) v.mirrors pb₁ (-1) none with
      | (pb', some _) => lvParreadDone v lb x io fuel (tried ++ [pb₁.mirror]) pb'
      | (_, none) => some (.done true, tried ++ [pb₁.mirror]) := by
  subst hpb
  rw [lvParreadDone, hresult] <;> rfl

theorem lvParreadDone_spec {fuel : ℕ} (hfuel : tried.length + fuel = 3) (h : Trying v x r tried pb) :
    Promised v x r (lvParreadDone v r.buf x r.io fuel tried pb) := by
  induction fuel generalizing tried pb with
  | zero =>
    have hcard := h.nodup.length_le_card
    rw [length_append, length_singleton, Fintype.card_fin] at hcard
    omega
  | succ fuel ih =>
    cases hresult : r.io.result tried.length pb.mirror with
    | ok =>
      unfold lvParreadDone
      rw [hresult]
      exact ⟨false, _, rfl, h.sound, h.nodup, fun he => by cases he⟩
    | error media =>
      let pb₁ : Pbuf := if media then { pb with mirbad := insert pb.mirror pb.mirbad } else pb
      have hsame : pb₁.mirdone = pb.mirdone ∧ pb₁.mirror = pb.mirror := by
        cases media
        · exact ⟨rfl, rfl⟩
        · exact ⟨rfl, rfl⟩
      have hread : r.buf.read = true := rfl
      have hspec := lvBestmir_spec (v := v) (x := x) hread (r.io.curxfs (tried.length + 1))
        (fun m hm => mem_mirrors.mp hm) pb₁ (-1) none fun _ => rfl
      have hfailed : ∀ i c, (tried ++ [pb.mirror])[i]? = some c → r.io.result i c ≠ .ok := by
        intro i c hi
        rw [getElem?_append] at hi
        split at hi
        · exact h.failed i c hi
        · obtain ⟨hzero, heq⟩ : i - tried.length = 0 ∧ pb.mirror = c := by
            cases hd : i - tried.length with
            | zero =>
              rw [hd] at hi
              exact ⟨rfl, Option.some_inj.mp hi⟩
            | succ n =>
              rw [hd] at hi
              cases hi
          have hidx : i = tried.length := by omega
          rw [hidx, ← heq, hresult]
          exact Result.noConfusion
      have hpb : (if media then { pb with mirbad := insert pb.mirror pb.mirbad } else pb) = pb₁ := rfl
      rw [lvParreadDone_failed hresult hpb, hsame.2]
      generalize lvBestmir v r.buf x (r.io.curxfs (tried.length + 1)) v.mirrors pb₁ (-1) none = res
        at hspec ⊢
      obtain ⟨pb', best⟩ := res
      rcases hspec with hnone | ⟨m, rfl, hbest, hchosen⟩
      · obtain ⟨rfl, -, hnone⟩ := hnone
        refine ⟨true, _, rfl, h.sound, h.nodup, fun _ m hm hnot => ?_⟩
        have hdone : m ∈ pb₁.mirdone := by
          by_contra hnew
          exact hnone m (mem_mirrors.mpr hm.1) hnew hm
        rw [hsame.1] at hdone
        have htried := (h.done m hdone).resolve_right fun hor => hor.elim hnot fun hno => hno hm
        obtain ⟨i, hi, rfl⟩ := mem_iff_getElem.mp htried
        have hget := getElem?_eq_getElem hi
        exact ⟨i, hget, hfailed i _ hget⟩
      · obtain ⟨hnew, hsound⟩ := hbest.resolve_left fun hf => by cases hf
        rw [hsame.1] at hnew
        have hmirror : pb'.mirror = m := hchosen.mirror
        have hlen : (tried ++ [pb.mirror]).length + fuel = 3 := by
          rw [length_append, length_singleton]
          omega
        apply ih hlen
        have hmem (c : Mirror) :
            c ∈ (tried ++ [pb.mirror]) ++ [pb'.mirror] ↔ c ∈ tried ++ [pb.mirror] ∨ c = m := by
          rw [mem_append, mem_singleton, hmirror]
        refine ⟨?_, fun c hc => ?_, fun c hc => ?_, fun c hc => ?_, hfailed⟩
        · rw [nodup_append]
          refine ⟨h.nodup, nodup_singleton _, fun a ha b hb => ?_⟩
          rw [mem_singleton.mp hb, hmirror]
          exact fun heq => hnew (heq ▸ h.begun a ha)
        · rcases (hmem c).mp hc with hc | heq
          · exact h.sound c hc
          · exact heq ▸ hsound
        · rcases (hmem c).mp hc with hc | heq
          · exact hchosen.old c (hsame.1 ▸ h.begun c hc)
          · exact heq ▸ hchosen.new
        · rw [hmem]
          rcases hchosen.done c hc with heq | hc | hc
          · exact .inl (.inr heq)
          · rw [hsame.1] at hc
            exact (h.done c hc).imp_left .inl
          · exact .inr (.inr hc)

theorem lvParread_spec (v : Volume) (x : Copies) (r : Read) : Promised v x r (lvParread v r.buf x r.io) := by
  have hread : r.buf.read = true := rfl
  have hspec := lvBestmir_spec (v := v) (x := x) hread (r.io.curxfs 0)
    (fun m hm => mem_mirrors.mp hm) ⟨0, r.buf.miravoid, ∅, ∅, ∅, false⟩ (-1) none fun _ => rfl
  unfold lvParread
  generalize lvBestmir v r.buf x (r.io.curxfs 0) v.mirrors ⟨0, r.buf.miravoid, ∅, ∅, ∅, false⟩ (-1)
    none = res at hspec ⊢
  obtain ⟨pb, best⟩ := res
  rcases hspec with hnone | ⟨m, rfl, hbest, hchosen⟩
  · obtain ⟨rfl, -, hnone⟩ := hnone
    refine ⟨true, [], rfl, fun m hm => absurd hm not_mem_nil, nodup_nil, fun _ m hm hnot => ?_⟩
    exact absurd hm (hnone m (mem_mirrors.mpr hm.1) hnot)
  · obtain ⟨-, hsound⟩ := hbest.resolve_left fun hf => by cases hf
    have hmirror : pb.mirror = m := hchosen.mirror
    have hmem (c : Mirror) : c ∈ [] ++ [pb.mirror] ↔ c = m := by
      rw [nil_append, mem_singleton, hmirror]
    apply lvParreadDone_spec (by rfl)
    refine ⟨nodup_singleton _, fun c hc => ?_, fun c hc => ?_, fun c hc => ?_, fun i c hi => by cases hi⟩
    · exact (hmem c).mp hc ▸ hsound
    · exact (hmem c).mp hc ▸ hchosen.new
    · rw [hmem]
      exact hchosen.done c hc

/-- `lv_nextmir` may read the mirror. -/
def readable (v : Volume) (r : Read) (x : Copies) (m : Mirror) : Bool :=
  (x.ext m).pvnum.any (fun pv => !v.missing pv) &&
    if r.resync then decide (m ∈ x.lext.syncmsk) else !(x.ext m).stale

theorem candidate_iff : Candidate v x r m ↔ m ∈ walk x v.mirrors ∧ readable v r x m = true := by
  unfold Candidate readable
  rw [mem_walk_mirrors, and_assoc, Bool.and_eq_true, Option.any_eq_true]
  cases r.resync
  · simp
  · simp

theorem lvNextmir_read_cons (hm : m ∉ pb.mirdone) (hpv : (x.ext m).pvnum ≠ none) :
    lvNextmir v r.buf x (m :: l) pb =
      if readable v r x m then
        ({ pb with mirdone := insert m pb.mirdone, miract := insert m pb.miract, mirror := m }, some m)
      else lvNextmir v r.buf x l { pb with mirdone := insert m pb.mirdone } := by
  have hread : r.buf.read = true := rfl
  have hresync : r.buf.resync = r.resync := rfl
  rw [lvNextmir, if_neg hm]
  unfold readable
  cases hpv' : (x.ext m).pvnum with
  | none => exact absurd hpv' hpv
  | some pv =>
    cases hmissing : v.missing pv
    · cases hr : r.resync
      · cases hstale : (x.ext m).stale
        · simp [hread, hresync, hr, hmissing]
        · simp [hread, hresync, hr, hmissing]
      · by_cases hsync : m ∈ x.lext.syncmsk
        · simp [hresync, hr, hmissing, hsync]
        · simp [hresync, hr, hmissing, hsync]
    · simp [hread, hmissing]

theorem lvNextmir_read (hsorted : l.Pairwise (· < ·)) (pb : Pbuf) (hfresh : ∀ m ∈ l, m ∉ pb.mirdone) :
    ((lvNextmir v r.buf x l pb).2 = none ∧ ∀ m ∈ walk x l, readable v r x m = false) ∨
    ∃ m, (lvNextmir v r.buf x l pb).2 = some m ∧ (lvNextmir v r.buf x l pb).1.mirror = m ∧
      m ∈ walk x l ∧ readable v r x m = true ∧
      ∀ m' < m, m' ∈ walk x l → readable v r x m' = false := by
  induction l generalizing pb with
  | nil => exact .inl ⟨rfl, fun m hm => absurd hm not_mem_nil⟩
  | cons m l ih =>
    have hm : m ∉ pb.mirdone := hfresh m (mem_cons_self ..)
    obtain ⟨hfirst, hrest⟩ := pairwise_cons.mp hsorted
    by_cases hpv : (x.ext m).pvnum = none
    · -- the walk ends here
      have hwalk : walk x (m :: l) = [m] := by
        rw [walk, if_pos hpv]
      have hno : readable v r x m = false := by
        simp [readable, hpv]
      rw [lvNextmir, if_neg hm, hpv, hwalk]
      exact .inl ⟨rfl, fun m' hm' => mem_singleton.mp hm' ▸ hno⟩
    rw [lvNextmir_read_cons hm hpv, walk_cons hpv]
    cases hread : readable v r x m
    · rw [if_neg Bool.false_ne_true]
      have hnext : ∀ m' ∈ l, m' ∉ insert m pb.mirdone := by
        intro m' hm' hmem
        rcases Finset.mem_insert.mp hmem with heq | hmem
        · exact lt_irrefl m (heq ▸ hfirst m' hm')
        · exact hfresh m' (mem_cons_of_mem _ hm') hmem
      rcases ih hrest { pb with mirdone := insert m pb.mirdone } hnext with
          hnone | ⟨c, hrun, hmirror, hc, hyes, hbefore⟩
      · refine .inl ⟨hnone.1, fun m' hm' => ?_⟩
        rcases mem_cons.mp hm' with heq | hm'
        · exact heq ▸ hread
        · exact hnone.2 m' hm'
      · refine .inr ⟨c, hrun, hmirror, mem_cons_of_mem _ hc, hyes, fun m' hlt hm' => ?_⟩
        rcases mem_cons.mp hm' with heq | hm'
        · exact heq ▸ hread
        · exact hbefore m' hlt hm'
    · rw [if_pos rfl]
      refine .inr ⟨m, rfl, rfl, mem_cons_self .., hread, fun m' hlt hm' => ?_⟩
      rcases mem_cons.mp hm' with heq | hm'
      · exact absurd (heq ▸ hlt) (lt_irrefl m)
      · have hmem : m' ∈ l := by
          have hsub := (mem_walk hrest).mp hm'
          exact hsub.1
        exact absurd (hlt.trans (hfirst m' hmem)) (lt_irrefl m')

theorem readOk_done {error : Bool} (hrun : lvRead v x r = some (.done error, tried)) :
    ReadOk v x r ↔ (∀ m ∈ tried, Sound v x m) ∧ tried.Nodup ∧
      (error = true → ∀ m, Sound v x m → m ∉ r.miravoid →
        ∃ i, tried[i]? = some m ∧ r.io.result i m ≠ .ok) := by
  unfold ReadOk
  rw [hrun]

theorem sequential_read_iff (hr : r.policy = .sequential) : ReadOk v x r ↔ ReadFits v x r := by
  have hrun : lvRead v x r = some (lvSequentialRead v r.buf x r.io) := by
    unfold lvRead
    rw [hr]
  have hnot : ¬r.policy = .parallel := by
    rw [hr]
    decide
  unfold ReadFits
  rw [or_iff_right hnot]
  have hspec := lvNextmir_read (v := v) (x := x) (r := r) (pairwise_mirrors v)
    ⟨0, ∅, ∅, ∅, ∅, false⟩ fun m _ => Finset.notMem_empty m
  unfold lvSequentialRead at hrun
  generalize lvNextmir v r.buf x v.mirrors ⟨0, ∅, ∅, ∅, ∅, false⟩ = res at hspec hrun
  obtain ⟨pb, next⟩ := res
  rcases hspec with hnone | ⟨m, rfl, hmirror, hwalk, hread, hbefore⟩
  · obtain ⟨rfl, hnone⟩ := hnone
    have hcand : ¬∃ m, Candidate v x r m := by
      rintro ⟨m, hm⟩
      obtain ⟨hwalk, hread⟩ := candidate_iff.mp hm
      rw [hnone m hwalk] at hread
      cases hread
    rw [readOk_done hrun]
    constructor
    · rintro ⟨-, -, hall⟩
      refine .inr ⟨hcand, fun m hm => ?_⟩
      by_contra hnot
      obtain ⟨i, hi, -⟩ := hall rfl m hm hnot
      cases hi
    · intro hfits
      rcases hfits with hsome | hall
      · exact absurd ⟨_, hsome.choose_spec.1⟩ hcand
      · exact ⟨fun m hm => absurd hm not_mem_nil, nodup_nil, fun _ m hm hnot => absurd (hall.2 m hm) hnot⟩
  · have hcand : Candidate v x r m := candidate_iff.mpr ⟨hwalk, hread⟩
    have hfirst : ∀ m' < m, ¬Candidate v x r m' := by
      intro m' hlt hm'
      obtain ⟨hwalk', hread'⟩ := candidate_iff.mp hm'
      rw [hbefore m' hlt hwalk'] at hread'
      cases hread'
    have hunique {m' : Mirror} (hm' : Candidate v x r m')
        (hbefore' : ∀ c < m', ¬Candidate v x r c) : m' = m := by
      rcases lt_trichotomy m' m with hlt | heq | hgt
      · exact absurd hm' (hfirst m' hlt)
      · exact heq
      · exact absurd hcand (hbefore' m hgt)
    have hmirror : pb.mirror = m := hmirror
    simp only [lvSeqreadDone, hmirror] at hrun
    generalize hresult : r.io.result 0 m = w at hrun
    cases w with
    | ok =>
      rw [readOk_done hrun]
      simp only [mem_singleton, forall_eq, Bool.false_eq_true, false_implies, and_true]
      constructor
      · rintro ⟨hsound, -⟩
        exact .inl ⟨m, hcand, hfirst, hsound.2.2, hresult⟩
      · intro hfits
        rcases hfits with ⟨m', hm', hbefore', hstale, -⟩ | hnone
        · obtain rfl := hunique hm' hbefore'
          exact ⟨⟨hcand.1, hcand.2.2.1, hstale⟩, nodup_singleton _⟩
        · exact absurd ⟨m, hcand⟩ hnone.1
    | error media =>
      have hno : ¬ReadOk v x r := by
        unfold ReadOk
        rw [hrun]
        exact not_false
      refine ⟨fun hok => absurd hok hno, fun hfits => ?_⟩
      rcases hfits with ⟨m', hm', hbefore', -, hok⟩ | hnone
      · rw [hunique hm' hbefore', hresult] at hok
        cases hok
      · exact absurd ⟨m, hcand⟩ hnone.1

/-- Two good copies. -/
def pair : Copies where
  ext m := ⟨some m, false, false⟩
  lext := ⟨-1, ∅, ∅⟩

def pairVolume : Volume := ⟨1, fun _ => false, 1⟩

/-- A sequential read, of which the first try fails. -/
def retried : Read := ⟨.sequential, false, false, ∅, ⟨fun n _ => if n = 0 then .error false else .ok, fun _ _ => 0⟩⟩

end Osf1.Lvm
