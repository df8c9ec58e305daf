import Osf1.Bio.Getting

/-!
# Writing and releasing a buffer

The steps of `bwrite`, `biodone` and `brelse` keep the invariant.
-/

set_option autoImplicit false

namespace Osf1.Bio

open Function Option

section Writing

variable {T B V H : Type} [DecidableEq T] [DecidableEq B] [DecidableEq V] [Fintype B]
variable {k : Config V H} {mem : Multiset ℕ} {s s' : State T B V H} {a : Agent T B}
variable {bp : B} {n : Next B V}

section Write

theorem Inv.bwriteStep (h : Inv k mem s) (hpc : s.pc a = .bwrite bp n)
    (hs : s.bwriteStep a bp n = some s') : Inv k mem s' := by
  have hpok : (Pc.bwrite bp n).Ok k s a := hpc ▸ h.pcs a
  obtain ⟨hown, hn⟩ := hpok
  unfold State.bwriteStep at hs
  obtain ⟨hsize, hs⟩ := ite_none_left_eq_some.mp hs
  obtain ⟨t, ht, hs⟩ := map_eq_some_iff.mp hs
  let f : Flags := { (s.buf bp).b_flags with
    B_READ := false
    B_ERROR := false
    B_DELWRI := false
    B_AGE := (s.buf bp).b_flags.B_AGE ||
      ((s.buf bp).b_flags.B_ASYNC && (s.buf bp).b_flags.B_DELWRI) }
  have hbefore (b : B) (hb : b ≠ bp) : (Pc.bwrite bp n).role b = .held := if_neg hb
  have hafter (b : B) (hb : b ≠ bp) : (Pc.output bp n).role b = .held := if_neg hb
  have hok (x : Buf V H) (hvp : x.b_vp = (s.buf bp).b_vp) (hblk : x.b_lblkno = (s.buf bp).b_lblkno)
      (hchain : x.b_hash_chain = (s.buf bp).b_hash_chain) (hread : x.b_flags.B_READ = false)
      (hrole : ((Pc.bwrite bp n).role bp).Ok k (s.buf bp) (s.io bp)) :
      ((Pc.output bp n).role bp).Ok k x (s.io bp) := by
    rw [role_bwrite] at hrole
    rw [role_output]
    refine ⟨hrole.1, fun vp hv => ?_, hread⟩
    rw [hchain, hblk]
    exact hrole.2 vp (hvp ▸ hv)
  subst hs
  by_cases hdelwri : (s.buf bp).b_flags.B_DELWRI
  · rw [if_pos hdelwri] at ht
    have hvp : (s.buf bp).b_vp ≠ none := by
      obtain ⟨vp, hvp, -⟩ := map_eq_some_iff.mp ht
      rw [hvp]
      exact some_ne_none vp
    have hlists := h.lists.reassignbuf hvp ht
    obtain ⟨vp, -, rfl⟩ := map_eq_some_iff.mp ht
    let x : Buf V H := { s.buf bp with b_flags := f, b_rvp := some vp }
    refine h.change (x := x) hpc hown hbefore hafter (h.noIntr hpc fun _ => id) rfl ?_ rfl rfl rfl rfl
      (fun _ _ => id) hlists.setPc (hok x rfl rfl rfl rfl) fun hold hsame ho _ =>
        ⟨ho, hn.same hsame hold⟩
    change update (update s.buf bp _) bp _ = _
    simp [State.setFlags, State.setBuf, x, f]
  · rw [if_neg hdelwri, some_inj] at ht
    subst ht
    have hlists : Lists k mem (s.setFlags bp f) := h.lists.setFlags (Bool.not_eq_true _ ▸ hdelwri).symm
    exact h.change hpc hown hbefore hafter (h.noIntr hpc fun _ => id) rfl rfl rfl rfl rfl rfl
      (fun _ _ => id) hlists.setPc (hok _ rfl rfl rfl rfl) fun hold hsame ho _ =>
        ⟨ho, hn.same hsame hold⟩

theorem Inv.outputStep (h : Inv k mem s) (hpc : s.pc a = .output bp n)
    (hs : s.outputStep a bp n = some s') : Inv k mem s' := by
  have hpok : (Pc.output bp n).Ok k s a := hpc ▸ h.pcs a
  obtain ⟨hown, hn⟩ := hpok
  have hrole := (h.bufs bp).role hown
  rw [hpc, role_output] at hrole
  obtain ⟨hio, hchained, hread⟩ := hrole
  have hbefore (b : B) (hb : b ≠ bp) : (Pc.output bp n).role b = .held := if_neg hb
  have ha := h.ne_intr hpc fun _ => id
  have hmine (d : Agent T B) (ho : s.owner bp = some d) : d = a := some_inj.mp (ho.symm.trans hown)
  obtain ⟨vp, hvp, hs⟩ := map_eq_some_iff.mp hs
  dsimp only at hs
  let x : Buf V H := { s.buf bp with b_iocomplete := false }
  have hself : (s.setBuf bp x).buf bp = x := setBuf_self
  have hlists : Lists k mem (s.setBuf bp x) := h.lists.setBuf ⟨rfl, rfl, rfl, rfl, rfl, rfl, rfl⟩
  have hstart := hlists.start (b := bp) hio vp
  have hbusy : x.Busy (some (.write vp)) := by
    refine ⟨fun hr => (nomatch hr), fun v hv => ⟨hread, ?_⟩, fun _ => rfl⟩
    cases hv
    exact hvp
  rw [hself] at hs
  by_cases hasync : (s.buf bp).b_flags.B_ASYNC
  · rw [if_pos hasync] at hs
    subst hs
    refine h.giveAway (x := x) hpc hown ha hbefore (fun _ => n.role_pc) rfl rfl rfl
      (fun b hb => update_of_ne hb ..) rfl rfl (fun _ _ => id) ?_ ?_ fun hold hsame =>
        (hn.same hsame hold).pc
    · exact ((hstart.give (b := bp) (a := .intr bp) (hown ▸ some_ne_none a)).setPc
        (a := .intr bp) (p := .io bp)).setPc (a := a) (p := n.pc)
    · change Role.io.Ok k x (update s.io bp (some (.write vp)) bp)
      rw [update_self]
      exact ⟨hasync, hchained, hbusy⟩
  · rw [if_neg hasync] at hs
    have hturn : Turn a bp (.biowait bp n) x s s' := by
      rw [← hs]
      exact ⟨rfl, rfl, fun _ _ => rfl, fun b hb => update_of_ne hb .., hmine,
        fun b hb => hpc ▸ hbefore b hb, fun b hb => if_neg hb, fun b hb => (ha b hb).elim⟩
    have hold : Older s s' := hturn.older (by rw [← hs]; rfl) (fun i b hb => by rwa [← hs] at hb) fun _ _ _ _ => id
    have hown' : s'.owner bp = some a := by
      rw [← hs]
      exact hown
    have hio' : s'.io bp = some (.write vp) := by
      rw [← hs]
      exact update_self ..
    refine hturn.inv h hold ?_ hown' ?_ ⟨hown', hn.same hturn.same hold⟩
    · rw [← hs]
      exact hstart.setPc (a := a) (p := .biowait bp n)
    · rw [role_biowait, hio']
      exact ⟨Bool.eq_false_iff.mpr hasync, hchained, hbusy⟩

end Write

section Wait

theorem Buf.Busy.done {V H : Type} {x : Buf V H} {driver : Option (Io V)} (h : x.Busy driver)
    (hdone : x.b_iocomplete = true) : driver = none := by
  by_contra hne
  exact Bool.noConfusion (hdone.symm.trans (h.running hne))

theorem Inv.waited (h : Inv k mem s) {q p : Pc B V} (hpc : s.pc a = q) (hown : s.owner bp = some a)
    (hqi : ∀ b, ¬q.Intr b) (hq : q.role bp = .wait ∨ q.role bp = .read) (hbefore : ∀ b, b ≠ bp → q.role b = .held)
    (hafter : ∀ b, b ≠ bp → p.role b = .held) (hdone : (s.buf bp).b_iocomplete = true)
    (hok : (s.buf bp).b_flags.B_ASYNC = false → (s.buf bp).Chained k → (p.role bp).Ok k (s.buf bp) none)
    (hp : Older s (s.setPc a p) → Same (· ≠ bp) a s (s.setPc a p) → p.Ok k (s.setPc a p) a) :
    Inv k mem (s.setPc a p) := by
  refine h.change (x := s.buf bp) hpc hown hbefore hafter (h.noIntr hpc hqi) rfl
    (update_eq_self ..).symm rfl rfl rfl rfl (fun _ _ => id) h.lists.setPc (fun hrole => ?_)
    fun hold hsame _ _ => hp hold hsame
  have hwait : Role.wait.Ok k (s.buf bp) (s.io bp) := by
    rcases hq with hq | hq
    · rwa [hq] at hrole
    · rw [hq] at hrole
      exact hrole
  obtain ⟨hasync, hchained, hbusy⟩ := hwait
  rw [hbusy.done hdone]
  exact hok hasync hchained

theorem Inv.biowait (h : Inv k mem s) (hpc : s.pc a = .biowait bp n)
    (hdone : (s.buf bp).b_iocomplete = true) : Inv k mem (s.setPc a (.brelse bp n)) := by
  have hpok : (Pc.biowait bp n).Ok k s a := hpc ▸ h.pcs a
  obtain ⟨hown, hn⟩ := hpok
  refine h.waited hpc hown (fun _ => id) (.inl role_biowait) (fun b hb => if_neg hb) (fun b hb => if_neg hb)
    hdone (fun _ hchained => ?_) fun hold hsame => ⟨hown, hn.same hsame hold⟩
  rw [role_brelse]
  exact ⟨rfl, fun _ => hchained⟩

theorem Inv.breadwait (h : Inv k mem s) (hpc : s.pc a = .breadwait bp)
    (hdone : (s.buf bp).b_iocomplete = true) : Inv k mem (s.setPc a .idle) := by
  have hpok : (Pc.breadwait bp : Pc B V).Ok k s a := hpc ▸ h.pcs a
  exact h.waited hpc hpok (fun _ => id) (.inr role_breadwait) (fun b hb => if_neg hb) (fun b _ => rfl) hdone
    (fun hasync hchained => ⟨rfl, hasync, hchained⟩) fun _ _ => trivial

end Wait

section Done

omit [DecidableEq T] in
theorem Inv.driver (h : Inv k mem s) (hio : s.io bp ≠ none) :
    ∃ a, s.owner bp = some a ∧ (s.buf bp).Chained k ∧ (s.buf bp).Busy (s.io bp) ∧
      (((∃ n, s.pc a = .biowait bp n) ∨ s.pc a = .breadwait bp) ∧ (s.buf bp).b_flags.B_ASYNC = false ∨
        s.pc a = .io bp ∧ a = .intr bp ∧ (s.buf bp).b_flags.B_ASYNC = true) := by
  cases howner : s.owner bp with
  | none => exact (hio ((h.bufs bp).free howner).1).elim
  | some a =>
  have hrole := (h.bufs bp).role howner
  have hcase : (s.pc a).role bp = .wait ∨ (s.pc a).role bp = .read ∨ (s.pc a).role bp = .io := by
    cases hr : (s.pc a).role bp with
    | wait => exact .inl rfl
    | read => exact .inr (.inl rfl)
    | io => exact .inr (.inr rfl)
    | _ =>
      rw [hr] at hrole
      exact (hio hrole.1).elim
  obtain ⟨n, hpc⟩ | hpc | hpc := role_driver hcase
  · rw [hpc, role_biowait] at hrole
    exact ⟨a, rfl, hrole.2.1, hrole.2.2, .inl ⟨.inl ⟨n, hpc⟩, hrole.1⟩⟩
  · rw [hpc, role_breadwait] at hrole
    exact ⟨a, rfl, hrole.2.1, hrole.2.2, .inl ⟨.inr hpc, hrole.1⟩⟩
  · have hpok := h.pcs a
    rw [hpc] at hpok
    rw [hpc, role_io] at hrole
    exact ⟨a, rfl, hrole.2.1, hrole.2.2, .inr ⟨hpc, hpok.2, hrole.1⟩⟩

theorem Lists.driven (hlists : Lists k mem s) (hbusy : (s.buf bp).Busy (s.io bp)) (hio : s.io bp ≠ none) :
    Lists k mem { s with
      io := update s.io bp none
      v_numoutput := match (s.buf bp).b_flags.B_READ, (s.buf bp).b_vp with
        | false, some vp => update s.v_numoutput vp (s.v_numoutput vp - 1)
        | _, _ => s.v_numoutput } := by
  cases hdriver : s.io bp with
  | none => exact (hio hdriver).elim
  | some d =>
    cases d with
    | read =>
      simp only [hbusy.read hdriver]
      exact hlists.finishRead hdriver
    | write vp =>
      obtain ⟨hread, hvp⟩ := hbusy.write vp hdriver
      simp only [hread, hvp]
      exact hlists.finish hdriver

theorem Inv.biodone (h : Inv k mem s) {error : Bool} (hs : s.biodone bp error = some s') : Inv k mem s' := by
  unfold State.biodone at hs
  obtain ⟨hno, hs⟩ := ite_none_left_eq_some.mp hs
  rw [some_inj] at hs
  have hio : s.io bp ≠ none := fun hnone => hno (.inl hnone)
  obtain ⟨a, howner, hchained, hbusy, hcase⟩ := h.driver hio
  let x : Buf V H := { s.buf bp with
    b_iocomplete := true
    b_flags := { (s.buf bp).b_flags with B_ERROR := (s.buf bp).b_flags.B_ERROR || error } }
  have hlists := (h.lists.driven hbusy hio).setBuf (b := bp) (x := x) ⟨rfl, rfl, rfl, rfl, rfl, rfl, rfl⟩
  have hdone : x.Busy none := ⟨by rintro ⟨⟩, by rintro _ ⟨⟩, fun hn => (hn rfl).elim⟩
  have hpok := h.pcs a
  -- what is the same of every step that ends the I/O
  have hinv (p : Pc B V) (hturn : Turn a bp p x s s') (hlists' : Lists k mem s')
      (hstamp : s'.bhd_stamp = s.bhd_stamp) (hhash : s'.bufhash = s.bufhash)
      (hown : s'.owner bp = some a) (hdriver : s'.io bp = none) (hok : (p.role bp).Ok k x none)
      (hp : Older s s' → Same (· ≠ bp) a s s' → p.Ok k s' a) : Inv k mem s' := by
    have hold : Older s s' := hturn.older hstamp (fun i b hb => by rwa [← hhash]) fun _ _ _ _ => id
    exact hturn.inv h hold hlists' hown (hdriver ▸ hok) (hp hold hturn.same)
  have hmine (d : Agent T B) (ho : s.owner bp = some d) : d = a := some_inj.mp (ho.symm.trans howner)
  have hbefore (b : B) (hb : b ≠ bp) : (s.pc a).role b = .held := by
    obtain ⟨⟨n, hpc⟩ | hpc, -⟩ | ⟨hpc, -⟩ := hcase
    all_goals
      rw [hpc]
      exact if_neg hb
  obtain ⟨hpc, hasync⟩ | ⟨hpc, rfl, hasync⟩ := hcase
  · rw [if_neg (Bool.eq_false_iff.mp hasync)] at hs
    have hrest : ((s.pc a).role bp).Ok k x none := by
      obtain ⟨n, hpc⟩ | hpc := hpc
      · rw [hpc, role_biowait]
        exact ⟨hasync, hchained, hdone⟩
      · rw [hpc, role_breadwait]
        exact ⟨hasync, hchained, hdone⟩
    have hown' : s'.owner bp = some a := by
      rw [← hs]
      exact howner
    refine hinv (s.pc a) ?_ ?_ ?_ ?_ hown' ?_ ?_ fun hold hsame => ?_
    · rw [← hs]
      exact ⟨(update_eq_self ..).symm, rfl, fun _ _ => rfl,
        fun b hb => update_of_ne hb .., hmine, hbefore, hbefore, fun b hb => hb ▸ h.intr b⟩
    · rw [← hs]
      exact hlists
    · rw [← hs]
      rfl
    · rw [← hs]
      rfl
    · rw [← hs]
      exact update_self ..
    · exact hrest
    · obtain ⟨n, hpc⟩ | hpc := hpc
      · rw [hpc] at hpok ⊢
        exact ⟨hown', hpok.2.same hsame hold⟩
      · rw [hpc]
        exact hown'
  · rw [if_pos hasync] at hs
    have hlocked : some (Agent.intr bp) = s.owner bp := howner.symm
    refine hinv (.brelse bp .ret) ?_ ?_ ?_ ?_ ?_ ?_ ?_ ?_
    · rw [← hs]
      refine ⟨rfl, rfl, fun b hb => update_of_ne hb .., fun b hb => ?_, hmine, hbefore,
        fun b hb => if_neg hb, fun b hb => ⟨(Agent.intr.inj hb), rfl⟩⟩
      exact update_of_ne hb ..
    · rw [← hs]
      exact (hlists.give (b := bp) (a := .intr bp) (hlocked ▸ some_ne_none _)).setPc
    · rw [← hs]
      rfl
    · rw [← hs]
      rfl
    · rw [← hs]
      exact update_self ..
    · rw [← hs]
      exact update_self ..
    · rw [role_brelse]
      exact ⟨rfl, fun _ => hchained⟩
    · intro _ _
      rw [← hs]
      exact ⟨update_self .., trivial⟩

end Done

section Release

/-- The flags that `brelse` leaves first. -/
def Buf.kept {V H : Type} (x : Buf V H) : Flags :=
  let f : Flags := { x.b_flags with B_ERROR := x.b_flags.B_ERROR && !x.b_flags.B_LOCKED }
  if f.B_ERROR && !(f.B_READ || f.B_INVAL || f.B_NOCACHE) && 0 < x.b_bufsize then
    if f.B_ASYNC then { f with B_ERROR := false, B_DELWRI := true } else f
  else f

/-- What `brelse` does first: the flags are changed, and the buffer may become dirty. -/
structure Kept (k : Config V H) (mem : Multiset ℕ) (bp : B) (s s' : State T B V H) : Prop where
  buf : s'.buf = update s.buf bp { s.buf bp with b_flags := (s.buf bp).kept }
  owner : s'.owner = s.owner
  bufhash : s'.bufhash = s.bufhash
  stamp : s'.bhd_stamp = s.bhd_stamp
  io : s'.io = s.io
  pc : s'.pc = s.pc
  lists : Lists k mem s'

theorem Buf.kept_inval {V H : Type} (x : Buf V H) : x.kept.B_INVAL = x.b_flags.B_INVAL := by
  unfold Buf.kept
  dsimp only
  split_ifs <;> rfl

omit [DecidableEq T] in
theorem Lists.keepError (h : Lists k mem s) (hs : s.keepError bp = some s') : Kept k mem bp s s' := by
  unfold State.keepError at hs
  let f : Flags := { (s.buf bp).b_flags with
    B_ERROR := (s.buf bp).b_flags.B_ERROR && !(s.buf bp).b_flags.B_LOCKED }
  have hflags : Lists k mem (s.setFlags bp f) := h.setFlags rfl
  by_cases hfailed : (f.B_ERROR && !(f.B_READ || f.B_INVAL || f.B_NOCACHE) && 0 < (s.buf bp).b_bufsize) = true
  · rw [if_pos hfailed] at hs
    by_cases hasync : f.B_ASYNC
    · rw [if_pos hasync] at hs
      let f' : Flags := { f with B_ERROR := false, B_DELWRI := true }
      have hkept : (s.buf bp).kept = f' := (if_pos hfailed).trans (if_pos hasync)
      have hidem : (s.setFlags bp f).setFlags bp f' = s.setFlags bp f' := by
        simp [State.setFlags, State.setBuf]
      have hrvp : (s.buf bp).b_rvp ≠ none := by
        obtain ⟨vp, hvp, -⟩ := map_eq_some_iff.mp hs
        rw [hvp]
        exact some_ne_none vp
      have hs' : (s.setFlags bp f').reassignbuf bp (s.buf bp).b_rvp = some s' := by
        rw [← hidem]
        exact hs
      have hlists := h.reassignbuf (mt (h.listed.both bp).mp hrvp) hs'
      obtain ⟨vp, hvp, rfl⟩ := map_eq_some_iff.mp hs'
      refine ⟨?_, rfl, rfl, rfl, rfl, rfl, hlists⟩
      change update (update s.buf bp _) bp _ = _
      rw [update_idem, ← hvp, hkept]
      simp [State.setFlags]
    · have hkept : (s.buf bp).kept = f := (if_pos hfailed).trans (if_neg hasync)
      rw [if_neg hasync] at hs
      obtain ⟨vp, -, rfl⟩ := map_eq_some_iff.mp hs
      refine ⟨?_, rfl, rfl, rfl, rfl, rfl, hflags.of_eq rfl rfl rfl rfl rfl rfl rfl⟩
      rw [hkept]
      rfl
  · have hkept : (s.buf bp).kept = f := if_neg hfailed
    rw [if_neg hfailed, some_inj] at hs
    subst hs
    refine ⟨?_, rfl, rfl, rfl, rfl, rfl, hflags⟩
    rw [hkept]
    rfl

/-- What `brelse` does then: a buffer that is no longer valid is disassociated. -/
structure Discarded (bp : B) (g : Flags) (q : Queue) (s s' : State T B V H) : Prop where
  async : g.B_ASYNC = false
  queue : q = .BQ_EMPTY ↔ (s.buf bp).b_bufsize = 0
  nocache : g.B_NOCACHE = false
  locked : g.B_LOCKED = (s.buf bp).b_flags.B_LOCKED
  keeps : (s.buf bp).b_flags.B_ERROR = false → (s.buf bp).b_flags.B_INVAL = false →
    (s.buf bp).b_flags.B_NOCACHE = false → 0 < (s.buf bp).b_bufsize →
    s = s' ∧ g.B_DELWRI = (s.buf bp).b_flags.B_DELWRI ∧ g.B_INVAL = false
  ways : (s.brelvp bp = s' ∨ s = s' ∧ (s.buf bp).b_vp = none) ∨
    s = s' ∧ g.B_DELWRI = (s.buf bp).b_flags.B_DELWRI ∧ (s.buf bp).b_flags.B_INVAL = false ∧ g.B_INVAL = false

omit [DecidableEq V] [Fintype B] in
theorem discard_cases (s : State T B V H) (a : Agent T B) (bp : B) (had_error : Bool)
    (n : Next B V) : ∃ u g q gone, s.discard a bp had_error n =
      (u.setFlags bp g).setPc a (.free bp q gone had_error n) ∧ Discarded bp g q s u := by
  let f : Flags := { (s.buf bp).b_flags with
    B_INVAL := (s.buf bp).b_flags.B_INVAL || (s.buf bp).b_flags.B_NOCACHE ||
      (s.buf bp).b_flags.B_ERROR }
  let gone := decide ((s.buf bp).b_bufsize = 0) || f.B_ERROR || f.B_INVAL
  refine ⟨_, _, _, gone, rfl, rfl, ?_, rfl, rfl, fun herror hinval hnocache hsize => ?_, ?_⟩
  · split_ifs with hsize
    · exact iff_of_true rfl hsize
    · exact iff_of_false (fun heq => nomatch heq) hsize
    · exact iff_of_false (fun heq => nomatch heq) hsize
    · exact iff_of_false (fun heq => nomatch heq) hsize
  · have hgone : gone = false := by simp [gone, f, herror, hinval, hnocache, hsize.ne']
    refine ⟨(if_neg fun hboth => Bool.noConfusion (hgone.symm.trans hboth.1)).symm, ?_, ?_⟩
    · change (f.B_DELWRI && !gone) = f.B_DELWRI
      rw [hgone, Bool.not_false, Bool.and_true]
    · change ((s.buf bp).b_flags.B_INVAL || (s.buf bp).b_flags.B_NOCACHE || (s.buf bp).b_flags.B_ERROR) = false
      rw [hinval, hnocache, herror]
      rfl
  · by_cases hgone : gone = true
    · refine .inl ?_
      by_cases hvp : (s.buf bp).b_vp = none
      · exact .inr ⟨(if_neg fun hboth => hboth.2 hvp).symm, hvp⟩
      · exact .inl (if_pos ⟨hgone, hvp⟩).symm
    · rw [Bool.not_eq_true] at hgone
      have hinval : f.B_INVAL = false := (Bool.or_eq_false_iff.mp hgone).2
      refine .inr ⟨(if_neg fun hboth => Bool.noConfusion (hgone.symm.trans hboth.1)).symm, ?_,
        (Bool.or_eq_false_iff.mp (Bool.or_eq_false_iff.mp hinval).1).1, hinval⟩
      change (f.B_DELWRI && !gone) = f.B_DELWRI
      rw [hgone, Bool.not_false, Bool.and_true]

theorem Inv.brelseStep (h : Inv k mem s) (hpc : s.pc a = .brelse bp n)
    (hs : s.brelseStep a bp n = some s') : Inv k mem s' := by
  have hpok : (Pc.brelse bp n).Ok k s a := hpc ▸ h.pcs a
  obtain ⟨hown, hn⟩ := hpok
  have hrole := (h.bufs bp).role hown
  rw [hpc, role_brelse] at hrole
  obtain ⟨hio, hchained⟩ := hrole
  have hintr (b : B) (hb : a = .intr b) : bp = b ∧ n = .ret := by
    have hi := h.intr b
    rw [← hb, hpc] at hi
    exact hi
  unfold State.brelseStep at hs
  dsimp only at hs
  generalize ((s.buf bp).b_flags.B_ERROR && !(s.buf bp).b_flags.B_LOCKED &&
    !((s.buf bp).b_flags.B_READ || (s.buf bp).b_flags.B_INVAL || (s.buf bp).b_flags.B_NOCACHE) &&
    0 < (s.buf bp).b_bufsize && (s.buf bp).b_flags.B_ASYNC) = had_error at hs
  obtain ⟨t, ht, hs⟩ := map_eq_some_iff.mp hs
  have hkept := h.lists.keepError ht
  let f : Flags := (s.buf bp).kept
  have hy : t.buf bp = { s.buf bp with b_flags := f } := by rw [hkept.buf, update_self]
  obtain ⟨u, g, q, gone, heq, hd⟩ := discard_cases t a bp had_error n
  rw [heq] at hs
  rw [← hs]
  -- whether the buffer has been disassociated or not, it goes to the end in the same way
  have hinv (z : Buf V H) (hbuf : u.buf = update s.buf bp z) (howner : u.owner = s.owner)
      (hdriver : u.io = s.io) (hpcs : u.pc = s.pc) (hstamp : u.bhd_stamp = s.bhd_stamp)
      (hhash : u.bufhash = s.bufhash) (hlists : Lists k mem (u.setFlags bp g))
      (hfor : ∀ vp blkno, z.isFor vp blkno = true → (s.buf bp).isFor vp blkno = true)
      (hsize : z.b_bufsize = (s.buf bp).b_bufsize) (hz : z.Chained k)
      (hvalid : z.b_vp ≠ none → g.B_INVAL = false) :
      Inv k mem ((u.setFlags bp g).setPc a (.free bp q gone had_error n)) := by
    have hself : u.buf bp = z := by rw [hbuf, update_self]
    refine h.change (x := { z with b_flags := g }) (p := .free bp q gone had_error n) hpc hown (fun b hb => if_neg hb)
      (fun b hb => if_neg hb) hintr ?_ ?_ howner hdriver hstamp hhash hfor hlists.setPc (fun _ => ?_)
      fun hold hsame ho hbp => ⟨ho, hn.same hsame hold, ?_⟩
    · rw [← hpcs]
      rfl
    · change update u.buf bp { u.buf bp with b_flags := g } = _
      rw [hself, hbuf, update_idem]
    · rw [role_free]
      exact ⟨hio, hd.async, hz, hvalid⟩
    · rw [hbp, hd.queue, hy]
      exact iff_of_eq (congrArg (· = 0) hsize.symm)
  rcases hd.ways with hgone | ⟨rfl, hdelwri, hinval, hginval⟩
  · have hdet := hkept.lists.listed.detached hgone
    have hlists := hkept.lists.detached hgone
    refine hinv { s.buf bp with b_flags := f, b_vp := none, b_rvp := none } ?_
      (hdet.owner.trans hkept.owner) (hdet.io.trans hkept.io) (hdet.pc.trans hkept.pc)
      (hdet.stamp.trans hkept.stamp) (hdet.bufhash.trans hkept.bufhash) ?_ (fun vp blkno hfor => ?_)
      rfl (fun vp hvp => (nomatch hvp)) fun hvp => (hvp rfl).elim
    · rw [hdet.buf, hkept.buf, update_idem, update_self]
    · refine hlists.setBuf ⟨rfl, rfl, rfl, rfl, rfl, rfl, ?_⟩
      have hnone : (u.buf bp).b_rvp = none := by rw [hdet.buf, update_self]
      unfold Buf.list
      rw [hnone]
      rfl
    · exact nomatch (of_decide_eq_true hfor).2
  · refine hinv { s.buf bp with b_flags := f } hkept.buf hkept.owner hkept.io hkept.pc hkept.stamp
      hkept.bufhash (hkept.lists.setFlags hdelwri) (fun _ _ => id) rfl ?_ fun _ => hginval
    refine hchained ?_
    rw [← (s.buf bp).kept_inval, ← hinval, hy]

theorem Inv.freeStep (h : Inv k mem s) {q : Queue} {inshead had_error : Bool}
    (hpc : s.pc a = .free bp q inshead had_error n) : Inv k mem (s.freeStep a bp q inshead had_error n) := by
  have hpok : (Pc.free bp q inshead had_error n).Ok k s a := hpc ▸ h.pcs a
  obtain ⟨hown, hn, hq⟩ := hpok
  have hrole := (h.bufs bp).role hown
  rw [hpc, role_free] at hrole
  obtain ⟨hio, hasync, hchained, hvalid⟩ := hrole
  let f : Flags := { (s.buf bp).b_flags with B_ERROR := (s.buf bp).b_flags.B_ERROR || had_error }
  have hlists : Lists k mem (s.setFlags bp f) := h.lists.setFlags rfl
  have hself : (s.setFlags bp f).buf bp = { s.buf bp with b_flags := f } := setBuf_self
  have hrelease : Lists k mem (((s.setFlags bp f).binsfree bp q inshead).unlock bp) := by
    refine hlists.release ?_ ?_ inshead
    · exact ne_of_eq_of_ne hown (some_ne_none a)
    · rw [hself]
      exact hq
  have hturn : Turn a bp n.pc { s.buf bp with b_flags := f } s
      (s.freeStep a bp q inshead had_error n) := by
    refine ⟨rfl, rfl, fun b hb => update_of_ne hb .., fun _ _ => rfl,
      fun d ho => some_inj.mp (ho.symm.trans hown), fun b hb => hpc ▸ if_neg hb,
      fun b _ => n.role_pc, fun b hb => ?_⟩
    have hi := h.intr b
    rw [← hb, hpc] at hi
    rw [hi.2]
    trivial
  have hold : Older s (s.freeStep a bp q inshead had_error n) :=
    hturn.older rfl (fun _ _ hb => hb) fun _ _ _ _ => id
  refine h.local (hturn.local hold) hrelease.setPc (fun b hb => ?_) (fun c hc => ?_) fun b hb => ?_
  · have hfree : (s.freeStep a bp q inshead had_error n).owner bp = none := update_self ..
    rw [Set.mem_singleton_iff.mp hb]
    unfold BufOk
    rw [hfree, hturn.buf_self]
    exact ⟨hio, hasync, hchained, hvalid⟩
  · rw [List.mem_singleton.mp hc, hturn.pc_self]
    exact (hn.same hturn.same hold).pc
  · rw [List.mem_singleton.mp hb, hturn.pc_self]
    exact hturn.intr b (List.mem_singleton.mp hb).symm

end Release

end Writing

/-!
## Flushing, and the calls

The steps of `vflushbuf` and `vinvalbuf` and what a thread does when it calls a function keep the
invariant.
-/

section Calls

variable {T B V H : Type} [DecidableEq T] [DecidableEq B] [DecidableEq V] [Fintype B]
variable {k : Config V H} {mem : Multiset ℕ} {s s' : State T B V H} {a : Agent T B}

section Flush

variable {vp : V} {sync save list : Bool} {dirty : ℤ} {choice : Option B} {bp : B}

omit [DecidableEq T] in
theorem Inv.vioerror (h : Inv k mem s) (v : V → Bool) : Inv k mem { s with vioerror := v } := by
  have hold : Older s { s with vioerror := v } := ⟨fun _ => le_rfl, fun _ _ b hb => ⟨hb, fun _ _ => id⟩⟩
  have hsame (a : Agent T B) : Same (fun _ => True) a s { s with vioerror := v } := fun b _ hb => ⟨hb, rfl⟩
  exact ⟨h.lists.of_eq rfl rfl rfl rfl rfl rfl rfl, h.bufs, fun a => (h.pcs a).same (hsame a) hold, h.intr⟩

theorem Inv.vflushStep (h : Inv k mem s) (hpc : s.pc a = .vflush vp sync)
    (hs : s.vflushStep a vp sync choice = some s') : Inv k mem s' := by
  cases choice with
  | none =>
    cases hs
    cases sync with
    | true => exact h.goto hpc (fun _ => id) (fun _ => rfl) (fun _ => rfl) trivial
    | false => exact h.goto hpc (fun _ => id) (fun _ => rfl) (fun _ => rfl) trivial
  | some bp =>
    unfold State.vflushStep at hs
    dsimp only at hs
    obtain ⟨hno, hs⟩ := ite_none_left_eq_some.mp hs
    cases hs
    have hfree : s.owner bp = none := not_not.mp (not_or.mp hno).1
    refine h.take hpc (fun _ => rfl) (fun _ => id) hfree (fun b hb => if_neg hb) rfl (fun hok => ?_)
      fun t _ _ ht _ => ⟨ht, trivial⟩
    rw [role_bwrite]
    exact ⟨hok.1, hok.2.2.1⟩

theorem Inv.vinvalStep (h : Inv k mem s) (hpc : s.pc a = .vinval vp save dirty list) :
    Inv k mem (s.vinvalStep a vp save dirty list) := by
  unfold State.vinvalStep
  split
  all_goals exact h.goto hpc (fun _ => id) (fun _ => rfl) (fun _ => rfl) trivial

theorem Inv.vlockStep (h : Inv k mem s) (hpc : s.pc a = .vlock vp save dirty list bp)
    (hs : s.vlockStep a vp save dirty list bp = some s') : Inv k mem s' := by
  unfold State.vlockStep at hs
  dsimp only at hs
  by_cases hown : s.owner bp ≠ none
  · rw [if_pos hown] at hs
    cases hs
  have hfree : s.owner bp = none := not_not.mp hown
  rw [if_neg hown] at hs
  by_cases hhead : (s.blkhd (vp, list)).head? ≠ some bp
  · rw [if_pos hhead, some_inj] at hs
    subst hs
    exact h.goto hpc (fun _ => id) (fun _ => rfl) (fun _ => rfl) trivial
  rw [if_neg hhead] at hs
  by_cases hsave : save = true ∧ (s.buf bp).b_flags.B_DELWRI = true ∧ ¬(s.buf bp).b_flags.B_ERROR = true
  · rw [if_pos hsave, some_inj] at hs
    subst hs
    refine h.take hpc (fun _ => rfl) (fun _ => id) hfree (fun b hb => if_neg hb) rfl (fun hok => ?_)
      fun t _ _ ht _ => ⟨ht, trivial⟩
    rw [role_bwrite]
    exact ⟨hok.1, hok.2.2.1⟩
  rw [if_neg hsave] at hs
  let t := (s.lock bp a).bremfree bp
  have hmark : ∃ v, (if (save && (s.buf bp).b_flags.B_DELWRI) = true then
      { t with vioerror := update t.vioerror vp true } else t) = { t with vioerror := v } := by
    split_ifs
    · exact ⟨_, rfl⟩
    · exact ⟨t.vioerror, rfl⟩
  obtain ⟨v, hv⟩ := hmark
  rw [hv] at hs
  generalize (if (save && (s.buf bp).b_flags.B_DELWRI) = true then dirty - 1 else dirty) = n at hs
  obtain ⟨u, hu, hs⟩ := map_eq_some_iff.mp hs
  have hlists : Lists k mem { t with vioerror := v } := h.lists.acquire.of_eq rfl rfl rfl rfl rfl rfl rfl
  have hok : Role.free.Ok k (s.buf bp) (s.io bp) := (h.bufs bp).free hfree
  subst hs
  by_cases hvp : (s.buf bp).b_vp ≠ some vp
  · rw [if_pos hvp] at hu
    have hsome : (s.buf bp).b_vp ≠ none := by
      obtain ⟨w, hw, -⟩ := map_eq_some_iff.mp hu
      rw [hw]
      exact some_ne_none w
    have hlists' := hlists.reassign hsome hu
    obtain ⟨w, -, rfl⟩ := map_eq_some_iff.mp hu
    have hturn : Turn a bp (.brelse bp (.vinval vp save n list)) { s.buf bp with b_rvp := some w } s
        ((State.relist (State.setBuf { t with vioerror := v } bp { s.buf bp with b_rvp := some w })
          bp w (s.buf bp).b_flags.B_DELWRI).setPc a (.brelse bp (.vinval vp save n list))) := by
      refine ⟨rfl, rfl, fun b hb => update_of_ne hb .., fun _ _ => rfl, fun d hd => ?_,
        fun b _ => hpc ▸ rfl, fun b hb => if_neg hb, h.noIntr hpc fun _ => id⟩
      exact nomatch hfree.symm.trans hd
    refine hturn.inv h (hturn.older rfl (fun _ _ hb => hb) fun _ _ _ _ => id) hlists'.setPc
      (update_self ..) ?_ ⟨update_self .., trivial⟩
    rw [role_brelse]
    exact ⟨hok.1, fun _ => hok.2.2.1⟩
  · rw [if_neg hvp, some_inj] at hu
    subst hu
    have htake : Inv k mem ((t.setFlags bp { (s.buf bp).b_flags with B_INVAL := true }).setPc a
        (.brelse bp (.vinval vp save n list))) := by
      refine h.take hpc (fun _ => rfl) (fun _ => id) hfree (fun b hb => if_neg hb) rfl (fun hok => ?_)
        fun t _ _ ht _ => ⟨ht, trivial⟩
      rw [role_brelse]
      exact ⟨hok.1, fun hinval => nomatch hinval⟩
    exact htake.vioerror v

end Flush

section Calls

variable {t : T} {bp : B} {vp : V} {p : Pc B V}

omit [DecidableEq T] in
theorem Inv.own (h : Inv k mem s) (hpc : s.pc a = .idle) (hown : s.owner bp = some a) :
    s.io bp = none ∧ (s.buf bp).b_flags.B_ASYNC = false ∧ (s.buf bp).Chained k := by
  have hrole := (h.bufs bp).role hown
  rw [hpc] at hrole
  exact hrole

theorem Inv.enter (h : Inv k mem s) (hpc : s.pc (.thread t) = .idle)
    (hown : s.owner bp = some (.thread t)) {f : Flags}
    (hf : f.B_DELWRI = (s.buf bp).b_flags.B_DELWRI) (hafter : ∀ b, b ≠ bp → p.role b = .held)
    (hok : ∀ x : Buf V H, x.b_flags = f → x.Chained k → (p.role bp).Ok k x none)
    (hp : ∀ s' : State T B V H, s'.owner bp = some (.thread t) → p.Ok k s' (.thread t)) :
    Inv k mem ((s.setFlags bp f).setPc (.thread t) p) := by
  obtain ⟨hio, -, hchained⟩ := h.own hpc hown
  have hlists : Lists k mem (s.setFlags bp f) := h.lists.setFlags hf
  refine h.change hpc hown (fun _ _ => rfl) hafter (fun b hb => nomatch hb) rfl rfl rfl rfl rfl rfl
    (fun _ _ => id) hlists.setPc (fun _ => ?_) fun _ _ ho _ => hp _ ho
  rw [hio]
  exact hok _ rfl hchained

theorem Inv.enter_same (h : Inv k mem s) (hpc : s.pc (.thread t) = .idle)
    (hown : s.owner bp = some (.thread t)) (hafter : ∀ b, b ≠ bp → p.role b = .held)
    (hok : ∀ x : Buf V H, x.b_flags.B_ASYNC = false → x.Chained k → (p.role bp).Ok k x none)
    (hp : ∀ s' : State T B V H, s'.owner bp = some (.thread t) → p.Ok k s' (.thread t)) :
    Inv k mem (s.setPc (.thread t) p) := by
  have hsame : s.setFlags bp (s.buf bp).b_flags = s := by simp [State.setFlags, State.setBuf]
  have hentered := h.enter hpc hown (f := (s.buf bp).b_flags) rfl hafter
    (fun x hx => hok x (hx ▸ (h.own hpc hown).2.1)) hp
  rwa [hsame] at hentered

theorem Inv.startRead (h : Inv k mem s) {async : Bool} (hpc : s.pc (.thread t) = .idle)
    (hown : s.owner bp = some (.thread t)) (hs : s.startRead (.thread t) bp async = some s') : Inv k mem s' := by
  obtain ⟨hio, hasync, hchained⟩ := h.own hpc hown
  unfold State.startRead at hs
  obtain ⟨hno, hs⟩ := ite_none_left_eq_some.mp hs
  rw [some_inj] at hs
  let f : Flags := { (s.buf bp).b_flags with
    B_READ := true
    B_ASYNC := (s.buf bp).b_flags.B_ASYNC || async }
  let x : Buf V H := { s.buf bp with b_flags := f }
  have hbusy : x.Busy (some .read) := by
    refine ⟨fun _ => rfl, fun v hv => (nomatch hv), fun _ => ?_⟩
    exact Bool.eq_false_iff.mpr (not_or.mp hno).1
  have hflags : Lists k mem (s.setFlags bp f) := h.lists.setFlags rfl
  have hlists := hflags.startRead (b := bp) hio
  cases async with
  | true =>
    subst hs
    refine h.giveAway (p := .idle) (x := x) hpc hown (fun b (hb : Agent.thread t = .intr b) => nomatch hb)
      (fun _ _ => rfl)
      (fun _ => rfl) ?_ rfl rfl (fun b hb => update_of_ne hb ..) rfl rfl (fun _ _ => id) ?_ ?_
      fun _ _ => trivial
    · funext c
      by_cases hc : c = .thread t
      · have hne : Agent.thread t ≠ .intr bp := fun heq => nomatch heq
        rw [hc, update_self]
        change update s.pc (.intr bp) (.io bp) (.thread t) = .idle
        rw [update_of_ne hne, hpc]
      · rw [update_of_ne hc]
        rfl
    · exact (hlists.give (b := bp) (a := .intr bp) (ne_of_eq_of_ne hown (some_ne_none _))).setPc
    · change Role.io.Ok k x (update s.io bp (some .read) bp)
      rw [update_self]
      exact ⟨Bool.or_true _, hchained, hbusy⟩
  | false =>
    subst hs
    let u : State T B V H := { s.setFlags bp f with io := update s.io bp (some .read) }
    have hturn : Turn (.thread t) bp (.breadwait bp) x s (u.setPc (.thread t) (.breadwait bp)) := by
      refine ⟨rfl, rfl, fun _ _ => rfl, fun b hb => update_of_ne hb .., fun d hd => ?_,
        fun b _ => hpc ▸ rfl, fun b hb => if_neg hb, fun b hb => nomatch hb⟩
      exact some_inj.mp (hd.symm.trans hown)
    refine hturn.inv h (hturn.older rfl (fun _ _ hb => hb) fun _ _ _ _ => id) hlists.setPc hown ?_ hown
    rw [role_breadwait]
    change Role.read.Ok k x (update s.io bp (some .read) bp)
    rw [update_self]
    refine ⟨?_, hchained, hbusy⟩
    change ((s.buf bp).b_flags.B_ASYNC || false) = false
    rw [hasync, Bool.false_or]

/-- What `bdwrite` does first: the buffer becomes dirty, if it is not. -/
structure Marked (bp : B) (s u : State T B V H) : Prop where
  buf : ∃ r, u.buf = update s.buf bp { s.buf bp with
    b_flags := { (s.buf bp).b_flags with B_DELWRI := true }
    b_rvp := r }
  owner : u.owner = s.owner
  io : u.io = s.io
  pc : u.pc = s.pc
  stamp : u.bhd_stamp = s.bhd_stamp
  bufhash : u.bufhash = s.bufhash
  lists : ∀ k : Config V H, ∀ mem, Lists k mem s → Lists k mem u

theorem bdwrite_cases (hs : s.bdwrite k a bp vp = some s') :
    ∃ u v, Marked bp s u ∧ (s.buf bp).b_vp = some v ∧
      (k.tape v = true ∧
          (u.setFlags bp { (u.buf bp).b_flags with B_ASYNC := true }).setPc a (.bwrite bp .ret) = s' ∨
        k.tape v = false ∧ (u.setBuf bp { u.buf bp with
          b_flags := { (u.buf bp).b_flags with B_DELWRI := true }
          b_iocomplete := true }).setPc a (.brelse bp .ret) = s') := by
  unfold State.bdwrite at hs
  dsimp only at hs
  generalize hmark : (if (s.buf bp).b_flags.B_DELWRI then some s
    else (s.setFlags bp { (s.buf bp).b_flags with B_DELWRI := true }).reassignbuf bp (some vp)) = m at hs
  cases m with
  | none => cases hs
  | some u =>
  cases hvp : (s.buf bp).b_vp with
  | none =>
    rw [hvp] at hs
    cases hs
  | some v =>
  rw [hvp] at hs
  dsimp only at hs
  refine ⟨u, v, ?_, rfl, ?_⟩
  · by_cases hdelwri : (s.buf bp).b_flags.B_DELWRI
    · rw [if_pos hdelwri, some_inj] at hmark
      subst hmark
      have hsame : ({ (s.buf bp).b_flags with B_DELWRI := true } : Flags) = (s.buf bp).b_flags := by
        rw [← hdelwri]
      refine ⟨⟨(s.buf bp).b_rvp, ?_⟩, rfl, rfl, rfl, rfl, rfl, fun _ _ h => h⟩
      rw [hsame]
      exact (update_eq_self ..).symm
    · rw [if_neg hdelwri] at hmark
      have hlists (k : Config V H) (mem : Multiset ℕ) (h : Lists k mem s) : Lists k mem u :=
        h.reassignbuf (hvp ▸ some_ne_none v) hmark
      obtain ⟨w, -, rfl⟩ := map_eq_some_iff.mp hmark
      refine ⟨⟨some w, ?_⟩, rfl, rfl, rfl, rfl, rfl, hlists⟩
      change update (update s.buf bp _) bp _ = _
      simp [State.setFlags]
  · by_cases htape : k.tape v
    · rw [if_pos htape, some_inj] at hs
      exact .inl ⟨htape, hs⟩
    · rw [if_neg htape, some_inj] at hs
      exact .inr ⟨Bool.eq_false_iff.mpr htape, hs⟩

theorem Inv.bdwrite (h : Inv k mem s) (hpc : s.pc (.thread t) = .idle)
    (hown : s.owner bp = some (.thread t)) (hs : s.bdwrite k (.thread t) bp vp = some s') : Inv k mem s' := by
  obtain ⟨hio, hasync, hchained⟩ := h.own hpc hown
  obtain ⟨u, v, hmarked, hvp, hcase⟩ := bdwrite_cases hs
  obtain ⟨r, hbuf⟩ := hmarked.buf
  obtain ⟨-, howner, hdriver, hpcs, hstamp, hhash, hmlists⟩ := hmarked
  have hlists := hmlists k mem h.lists
  have hself : u.buf bp = { s.buf bp with
      b_flags := { (s.buf bp).b_flags with B_DELWRI := true }
      b_rvp := r } := by rw [hbuf, update_self]
  obtain ⟨-, rfl⟩ | ⟨-, rfl⟩ := hcase
  · let f : Flags := { (u.buf bp).b_flags with B_ASYNC := true }
    have hflags : Lists k mem (u.setFlags bp f) := hlists.setFlags rfl
    refine h.change (p := .bwrite bp .ret) (x := { u.buf bp with b_flags := f }) hpc hown
      (fun _ _ => rfl) (fun b hb => if_neg hb) (fun b hb => nomatch hb) ?_ ?_ howner hdriver hstamp
      hhash (fun v n hfor => ?_) hflags.setPc (fun _ => ?_) fun _ _ ho _ => ⟨ho, trivial⟩
    · rw [← hpcs]
      rfl
    · exact update_of_update hbuf
    · rw [hself] at hfor
      exact hfor
    · rw [role_bwrite, hio, hself]
      exact ⟨rfl, hchained⟩
  · let y : Buf V H := { u.buf bp with
      b_flags := { (u.buf bp).b_flags with B_DELWRI := true }
      b_iocomplete := true }
    have hlists' : Lists k mem (u.setBuf bp y) := by
      refine hlists.setBuf ⟨rfl, rfl, rfl, rfl, rfl, rfl, ?_⟩
      have hset : y.b_flags.B_DELWRI = (u.buf bp).b_flags.B_DELWRI := by
        rw [hself]
      unfold Buf.list
      rw [hset]
    refine h.change (p := .brelse bp .ret) (x := y) hpc hown (fun _ _ => rfl) (fun b hb => if_neg hb)
      (fun b hb => nomatch hb) ?_ ?_ howner hdriver hstamp hhash (fun v n hfor => ?_) hlists'.setPc
      (fun _ => ?_) fun _ _ ho _ => ⟨ho, trivial⟩
    · rw [← hpcs]
      rfl
    · exact update_of_update hbuf
    · change (Buf.isFor v n { u.buf bp with
        b_flags := { (u.buf bp).b_flags with B_DELWRI := true }
        b_iocomplete := true }) = true at hfor
      rw [hself] at hfor
      exact hfor
    · rw [role_brelse, hio]
      refine ⟨rfl, fun _ => ?_⟩
      change Buf.Chained k { u.buf bp with
        b_flags := { (u.buf bp).b_flags with B_DELWRI := true }
        b_iocomplete := true }
      rw [hself]
      exact hchained

omit [DecidableEq T] in
theorem Inv.clearErrors (h : Inv k mem s) (vp : V) : Inv k mem (s.clearErrors vp) := by
  have hkeep (b : B) (hb : s.owner b ≠ none) : (s.clearErrors vp).buf b = s.buf b := if_neg fun hboth => hb hboth.2
  have halike (b : B) : ((s.clearErrors vp).buf b).Alike (s.buf b) ∧
      ((s.clearErrors vp).buf b).b_flags.B_INVAL = (s.buf b).b_flags.B_INVAL ∧
      ((s.clearErrors vp).buf b).b_flags.B_ASYNC = (s.buf b).b_flags.B_ASYNC := by
    unfold State.clearErrors
    dsimp only
    split_ifs
    · exact ⟨⟨rfl, rfl, rfl, rfl, rfl, rfl, rfl⟩, rfl, rfl⟩
    · exact ⟨⟨rfl, rfl, rfl, rfl, rfl, rfl, rfl⟩, rfl, rfl⟩
  have hold : Older s (s.clearErrors vp) := by
    refine ⟨fun _ => le_rfl, fun i _ b hb => ⟨hb, fun v n hfor => ?_⟩⟩
    unfold Buf.isFor at hfor ⊢
    rwa [(halike b).1.vp, (halike b).1.blk] at hfor
  have hlists : Lists k mem (s.clearErrors vp) := h.lists.of_alike (fun b => (halike b).1) rfl rfl rfl rfl rfl rfl
  have hlocal : Local [] {b | s.owner b = none} s (s.clearErrors vp) := by
    refine ⟨fun _ _ => rfl, fun b hb => ⟨hkeep b hb, rfl, rfl⟩, fun b hb c hc => ?_,
      fun _ _ c hc => (nomatch hc), hold⟩
    have hfree : s.owner b = none := hb
    exact nomatch hfree.symm.trans hc
  refine h.local hlocal hlists (fun b hb => ?_) (fun c hc => (nomatch hc)) fun b hb => nomatch hb
  · have hfree : (s.clearErrors vp).owner b = none := hb
    obtain ⟨hio, hasync, hchained, hvalid⟩ := (h.bufs b).free hb
    obtain ⟨hx, hinval, hasync'⟩ := halike b
    unfold BufOk
    rw [hfree]
    refine ⟨hio, hasync'.trans hasync, fun v hv => ?_, fun hv => hinval.trans (hvalid ?_)⟩
    · rw [hx.chain, hx.blk]
      exact hchained v (hx.vp ▸ hv)
    · rwa [← hx.vp]

theorem Inv.call [DecidableEq H] (h : Inv k mem s) {op : Op B V} (hs : s.call k t op = some s') : Inv k mem s' := by
  unfold State.call at hs
  obtain ⟨hno, hs⟩ := ite_none_left_eq_some.mp hs
  obtain ⟨hpc, hown⟩ := not_or.mp hno
  rw [not_not] at hpc
  have hmine (bp : B) (hop : op.buffer = some bp) : s.owner bp = some (.thread t) := by
    by_contra hne
    exact hown ⟨bp, hop, hne⟩
  have hgoto (p : Pc B V) (hp : ∀ b, p.role b = .held) (hpok : p.Ok k s (.thread t)) :
      Inv k mem (s.setPc (.thread t) p) :=
    h.setPc (fun b hb => nomatch hb) (fun b => hpc ▸ rfl) hp hpok
  have hidle (vp : V) (b : B) : ((s.clearErrors vp).pc (.thread t)).role b = .held := by
    change (s.pc (.thread t)).role b = .held
    rw [hpc]
    rfl
  cases op with
  | getblk vp blkno size =>
    dsimp only at hs
    obtain ⟨hsize, hs⟩ := ite_none_left_eq_some.mp hs
    rw [some_inj] at hs
    exact hs ▸ hgoto _ (fun _ => rfl) trivial
  | geteblk size =>
    dsimp only at hs
    obtain ⟨hsize, hs⟩ := ite_none_left_eq_some.mp hs
    rw [some_inj] at hs
    exact hs ▸ hgoto _ (fun _ => rfl) trivial
  | read bp async => exact h.startRead hpc (hmine bp rfl) hs
  | bwrite bp =>
    cases hs
    refine h.enter_same hpc (hmine bp rfl) (fun b hb => if_neg hb) (fun x _ hx => ?_)
      fun _ ho => ⟨ho, trivial⟩
    rw [role_bwrite]
    exact ⟨rfl, hx⟩
  | bawrite bp =>
    cases hs
    refine h.enter hpc (hmine bp rfl) rfl (fun b hb => if_neg hb) (fun x _ hx => ?_)
      fun _ ho => ⟨ho, trivial⟩
    rw [role_bwrite]
    exact ⟨rfl, hx⟩
  | bdwrite bp vp => exact h.bdwrite hpc (hmine bp rfl) hs
  | brelse bp =>
    cases hs
    refine h.enter_same hpc (hmine bp rfl) (fun b hb => if_neg hb) (fun x _ hx => ?_)
      fun _ ho => ⟨ho, trivial⟩
    rw [role_brelse]
    exact ⟨rfl, fun _ => hx⟩
  | allocbuf bp size =>
    cases hs
    exact h.enter_same hpc (hmine bp rfl) (fun _ _ => rfl) (fun x hx hc => ⟨rfl, hx, hc⟩)
      fun _ ho => ⟨ho, trivial⟩
  | vflushbuf vp sync =>
    cases hs
    exact (h.clearErrors vp).setPc (fun b hb => nomatch hb) (fun b => hidle vp b) (fun _ => rfl) trivial
  | vinvalbuf vp save =>
    cases hs
    exact (h.clearErrors vp).setPc (fun b hb => nomatch hb) (fun b => hidle vp b) (fun _ => rfl) trivial

end Calls

section Steps

variable [DecidableEq H]

theorem Inv.run (h : Inv k mem s) {choice : Option B} (hs : s.run k a choice = some s') : Inv k mem s' := by
  unfold State.run at hs
  generalize hpc : s.pc a = p at hs
  cases p with
  | idle =>
    cases hs
  | search vp blkno size =>
    exact some_inj.mp hs ▸ h.searchStep hpc
  | lock vp blkno size bp =>
    exact h.lockStep hpc hs
  | getnewbuf c =>
    exact h.getnewbufStep hpc hs
  | reset bp c =>
    exact some_inj.mp hs ▸ h.resetStep hpc
  | assign vp blkno size stamp bp =>
    exact h.assignStep hpc hs
  | insert vp blkno size stamp bp =>
    exact some_inj.mp hs ▸ h.insertStep hpc
  | got vp blkno size bp =>
    exact some_inj.mp hs ▸ h.goto hpc (fun _ => id) (fun _ => rfl) (fun _ => rfl) trivial
  | alloc tp size c =>
    exact h.allocStep hpc hs
  | grow tp size c bp =>
    exact some_inj.mp hs ▸ h.growStep hpc
  | shrunk tp size c =>
    have hpok : (Pc.shrunk tp size c).Ok k s a := hpc ▸ h.pcs a
    exact some_inj.mp hs ▸ h.allocated hpc (fun _ => rfl) (fun _ => id) hpok.1 hpok.2
  | bwrite bp n =>
    exact h.bwriteStep hpc hs
  | output bp n =>
    exact h.outputStep hpc hs
  | io bp =>
    cases hs
  | biowait bp n =>
    obtain ⟨hdone, hs⟩ := ite_none_right_eq_some.mp hs
    exact some_inj.mp hs ▸ h.biowait hpc hdone
  | breadwait bp =>
    obtain ⟨hdone, hs⟩ := ite_none_right_eq_some.mp hs
    exact some_inj.mp hs ▸ h.breadwait hpc hdone
  | brelse bp n =>
    exact h.brelseStep hpc hs
  | free bp q inshead had_error n =>
    exact some_inj.mp hs ▸ h.freeStep hpc
  | vflush vp sync =>
    exact h.vflushStep hpc hs
  | vwait vp =>
    obtain ⟨-, hs⟩ := ite_none_right_eq_some.mp hs
    exact some_inj.mp hs ▸ h.goto hpc (fun _ => id) (fun _ => rfl) (fun _ => rfl) trivial
  | vinval vp save dirty list =>
    exact some_inj.mp hs ▸ h.vinvalStep hpc
  | vlock vp save dirty list bp =>
    exact h.vlockStep hpc hs
  | vdone vp dirty =>
    obtain ⟨-, hs⟩ := ite_none_right_eq_some.mp hs
    exact some_inj.mp hs ▸ h.goto hpc (fun _ => id) (fun _ => rfl) (fun _ => rfl) trivial

theorem Inv.step (h : Inv k mem s) {e : Event T B V} (hs : step k s e = some s') : Inv k mem s' := by
  cases e with
  | call t op => exact h.call hs
  | run a choice => exact h.run hs
  | done bp error => exact h.biodone hs

end Steps

end Calls

end Osf1.Bio
