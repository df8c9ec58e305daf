import Osf1.Bio.System

/-!
# What is owed is kept

The steps of the cache keep what is owed in its buffers.
-/

set_option autoImplicit false

namespace Osf1.Bio

open Function List Option

open Osf1.Computation

variable {T B V H : Type} [DecidableEq B]
variable {s s' : State T B V H} {a : Agent T B}
variable {owed : Owed B V}

section Buffers

variable {bp : B} {p q : Pc B V} {x : Buf V H} {driver : Option (Io V)} {ow : Option (V × ℤ × ℕ × List ℕ)} {r : Option Role}
  {f : Flags}

theorem Owing.own (h : Owing s owed) (hpc : s.pc a = q) (hown : s.owner bp = some a) :
    (s.buf bp).Owing (s.io bp) (some (q.role bp)) (owed bp) := by
  have hbp := h.bufs bp
  rwa [role_of_owner hown, hpc] at hbp

theorem Owing.free (h : Owing s owed) (hfree : s.owner bp = none) : (s.buf bp).Owing (s.io bp) none (owed bp) := by
  have hbp := h.bufs bp
  rwa [role_free_of_owner hfree] at hbp

omit [DecidableEq B] in
theorem Buf.Owing.none {r : Role} (h : x.Owing driver (some r) ow)
    (hr : r = .reset ∨ r = .assign ∨ r = .insert ∨ r = .read) : ow = .none := by
  cases hw : ow with
  | none => rfl
  | some c =>
    have hno := (h.owes c hw).2.2
    obtain rfl | rfl | rfl | rfl := hr
    all_goals exact hno.elim

omit [DecidableEq B] in
theorem Buf.Owing.of_none (hw : ow = .none) (hflags : x.b_flags.B_NOCACHE = false ∧ x.b_flags.B_LOCKED = false)
    (hvalid : r = some .held ∨ r = some .read → x.Valid) : x.Owing driver r ow :=
  ⟨hflags, hvalid, fun _ hc => nomatch hw.symm.trans hc⟩

omit [DecidableEq B] in
theorem Buf.Owing.to_write (h : x.Owing driver r ow) (hr : r = .none ∨ r = some .held)
    (hf : f.B_NOCACHE = x.b_flags.B_NOCACHE ∧ f.B_LOCKED = x.b_flags.B_LOCKED ∧ f.B_INVAL = x.b_flags.B_INVAL) :
    Buf.Owing { x with b_flags := f } driver (some .write) ow := by
  refine ⟨?_, fun hw => by simp at hw, fun c hc => ?_⟩
  · rw [hf.1, hf.2.1]
    exact h.flags
  · obtain ⟨hcontents, hpos, howes⟩ := h.owes c hc
    refine ⟨hcontents, hpos, fun _ => hf.2.2.trans ?_⟩
    obtain rfl | rfl := hr
    all_goals exact howes.2.1

theorem Owing.take [DecidableEq T] (h : Owing s owed) (hq : s.pc a = q)
    (hbefore : ∀ b, q.role b = .held) (hafter : ∀ b, b ≠ bp → p.role b = .held) (hplace : q.After owed p)
    (hok : Buf.Owing { s.buf bp with b_flags := f } (s.io bp) (some (p.role bp)) (owed bp)) :
    Owing ((((s.lock bp a).bremfree bp).setFlags bp f).setPc a p) owed :=
  h.one bp hq rfl rfl (fun _ hb => update_of_ne hb ..) (update_self ..) (fun _ _ => rfl)
    (fun b _ => hbefore b) hafter (fun _ => .inr rfl) (fun _ _ => rfl) hplace hok

end Buffers

variable [DecidableEq T] [DecidableEq V] [Fintype B] {k : Config V H} {mem : Multiset ℕ}

section Getblk

variable {vp : V} {blkno stamp : ℤ} {size : ℕ} {bp : B} {c : Cont B V} {n : Next B V}

omit [Fintype B] in
theorem Owing.searchStep (h : Owing s owed) (hpc : s.pc a = .search vp blkno size) :
    Owing (s.searchStep k a vp blkno size) owed := by
  unfold State.searchStep
  split
  · exact h.setPc hpc (fun _ => rfl) (fun _ => rfl) (.rest rfl rfl)
  · exact h.setPc hpc (fun _ => rfl) (fun _ => rfl) (.rest rfl rfl)

theorem Owing.lockStep (hi : Inv k mem s) (h : Owing s owed)
    (hpc : s.pc a = .lock vp blkno size bp) (hs : s.lockStep a vp blkno size bp = some s') : Owing s' owed := by
  unfold State.lockStep at hs
  by_cases hown : s.owner bp ≠ none
  · rw [if_pos hown] at hs
    cases hs
  have hfree : s.owner bp = none := not_not.mp hown
  obtain ⟨-, hasync, -, hvalid⟩ := (hi.bufs bp).free hfree
  obtain ⟨hflags, -, howes⟩ := h.free hfree
  rw [if_neg hown] at hs
  by_cases hfor : ¬(s.buf bp).isFor vp blkno
  · rw [if_pos hfor, some_inj] at hs
    exact hs ▸ h.setPc hpc (fun _ => rfl) (fun _ => rfl) (.rest rfl rfl)
  have hvp := (of_decide_eq_true (not_not.mp hfor)).2
  rw [if_neg hfor] at hs
  by_cases hinval : (s.buf bp).b_flags.B_INVAL
  · have hval := hvalid (hvp ▸ some_ne_none vp)
    rw [hinval] at hval
    cases hval
  rw [if_neg hinval] at hs
  by_cases hsize : (s.buf bp).b_bcount ≠ size
  · rw [if_pos hsize, some_inj] at hs
    subst hs
    refine h.take hpc (fun _ => rfl) (fun b hb => if_neg hb) (.rest rfl rfl) ?_
    rw [role_bwrite]
    refine ⟨hflags, fun hr => (nomatch hr), fun c hc => ?_⟩
    obtain ⟨hcontents, hpos, -⟩ := howes c hc
    exact ⟨hcontents, hpos, fun htrue => nomatch hasync.symm.trans htrue⟩
  · rw [if_neg hsize, some_inj] at hs
    subst hs
    refine h.take hpc (fun _ => rfl) (fun _ _ => rfl) (.rest rfl rfl) ?_
    exact ⟨hflags, fun _ _ => Bool.eq_false_iff.mpr hinval, howes⟩

omit [DecidableEq V] [Fintype B] in
theorem Owing.getnewbufStep (h : Owing s owed) (hpc : s.pc a = .getnewbuf c)
    {choice : Option B} (hs : s.getnewbufStep a c choice = some s') : Owing s' owed := by
  cases choice with
  | none => cases hs
  | some bp =>
    unfold State.getnewbufStep at hs
    dsimp only at hs
    by_cases havail : ¬s.Available bp
    · rw [if_pos havail] at hs
      cases hs
    have hfree : s.owner bp = none := (not_not.mp havail).1
    obtain ⟨hflags, -, howes⟩ := h.free hfree
    rw [if_neg havail] at hs
    by_cases hdelwri : (s.buf bp).b_flags.B_DELWRI
    · rw [if_pos hdelwri, some_inj] at hs
      subst hs
      refine h.take hpc (fun _ => rfl) (fun b hb => if_neg hb) (.same rfl rfl) ?_
      rw [role_bwrite]
      exact (h.free hfree).to_write (.inl rfl) ⟨rfl, rfl, rfl⟩
    · rw [if_neg hdelwri, some_inj] at hs
      -- what is owed is dirty
      have hnone : owed bp = none := by
        cases hw : owed bp with
        | none => rfl
        | some d => exact (hdelwri (howes d hw).2.2.1).elim
      refine h.one bp hpc (p := .reset bp c) (x := { s.buf bp with b_hash_chain := none })
        ?_ ?_ (fun b hb => ?_) ?_ (fun _ _ => ?_) (fun _ _ => rfl) (fun b hb => if_neg hb)
        (fun _ => .inr rfl) (fun _ _ => rfl) (.same rfl rfl) ?_
      all_goals try rw [← hs]
      · rfl
      · rfl
      · exact update_of_ne hb ..
      · exact update_self ..
      · rfl
      · rw [role_reset]
        exact .of_none hnone hflags fun hr => nomatch hr

theorem Owing.resetStep (hi : Inv k mem s) (h : Owing s owed) (hpc : s.pc a = .reset bp c) :
    Owing (s.resetStep a bp c) owed := by
  have hpok : (Pc.reset bp c).Ok k s a := hpc ▸ hi.pcs a
  obtain ⟨hown, -⟩ := hpok
  have hbp := h.own hpc hown
  rw [role_reset] at hbp
  have hnone : owed bp = none := hbp.none (.inl rfl)
  unfold State.resetStep
  have hor : s.brelvp bp = (if (s.buf bp).b_vp ≠ none then s.brelvp bp else s) ∨
      s = (if (s.buf bp).b_vp ≠ none then s.brelvp bp else s) ∧ (s.buf bp).b_vp = none := by
    by_cases hvp : (s.buf bp).b_vp ≠ none
    · exact .inl (if_pos hvp).symm
    · exact .inr ⟨(if_neg hvp).symm, not_not.mp hvp⟩
  generalize (if (s.buf bp).b_vp ≠ none then s.brelvp bp else s) = t at hor
  have hd := hi.lists.listed.detached hor
  have hvp : (t.buf bp).b_vp = none := by rw [hd.buf, update_self]
  have hset (x : Buf V H) (p : Pc B V) (hp : ∀ b, b ≠ bp → p.role b = .held)
      (hplace : (Pc.reset bp c).After owed p)
      (hx : x.b_vp = (t.buf bp).b_vp)
      (hflags : x.b_flags.B_NOCACHE = false ∧ x.b_flags.B_LOCKED = false) :
      Owing ((t.setBuf bp x).setPc a p) owed := by
    refine h.one bp (x := x) hpc ?_ ?_ (fun b _ => ?_) ?_ (fun b _ => ?_)
      (fun b hb => if_neg hb) hp (fun _ => .inr rfl) (fun _ _ => rfl) hplace
      (.of_none hnone hflags fun _ hv => (hv (hx.trans hvp)).elim)
    · rw [← hd.pc]
      rfl
    · exact update_of_update hd.buf
    · rw [← hd.owner]
      rfl
    · rw [← hown, ← hd.owner]
      rfl
    · rw [← hd.io]
      rfl
  cases c with
  | getblk vp blkno size stamp =>
    exact hset _ _ (fun b hb => if_neg hb) (.rest rfl rfl) rfl ⟨rfl, rfl⟩
  | geteblk size =>
    refine hset _ _ (fun b _ => ?_) ⟨fun tp htp => .inr ?_, .inl ?_⟩ rfl ⟨rfl, rfl⟩
    · split_ifs <;> rfl
    · split_ifs at htp
      · rw [mem_singleton.mp htp, hnone]
      · cases htp
    · split_ifs <;> rfl
  | alloc tp size j =>
    refine hset _ _ (fun b _ => rfl) ⟨fun tp' htp => ?_, .inl rfl⟩ rfl ⟨rfl, rfl⟩
    rcases mem_cons.mp htp with heq | hmem
    · exact .inl (mem_singleton.mpr heq)
    · exact .inr (by rw [mem_singleton.mp hmem, hnone])

theorem Owing.assignStep (hi : Inv k mem s) (h : Owing s owed) (hpc : s.pc a = .assign vp blkno size stamp bp)
    (hs : s.assignStep a vp blkno size stamp bp = some s') : Owing s' owed := by
  have hpok : (Pc.assign vp blkno size stamp bp).Ok k s a := hpc ▸ hi.pcs a
  obtain ⟨hown, -⟩ := hpok
  have hbp := h.own hpc hown
  rw [role_assign] at hbp
  have hnone : owed bp = none := hbp.none (.inr (.inl rfl))
  obtain ⟨t, ht, hs⟩ := map_eq_some_iff.mp hs
  unfold State.bgetvp at ht
  rw [setBuf_self] at ht
  obtain ⟨hpanic, ht⟩ := ite_none_left_eq_some.mp ht
  cases ht
  subst hs
  refine h.one bp hpc rfl (update_idem ..) (fun _ _ => rfl) hown (fun _ _ => rfl)
    (fun b hb => if_neg hb) (fun b hb => if_neg hb) (fun _ => .inr rfl) (fun _ _ => rfl)
    (.rest rfl rfl) ?_
  exact .of_none hnone hbp.flags fun hr => by simp at hr

theorem Owing.insertStep [DecidableEq H] (hi : Inv k mem s) (h : Owing s owed)
    (hpc : s.pc a = .insert vp blkno size stamp bp) : Owing (s.insertStep k a vp blkno size stamp bp) owed := by
  have hpok : (Pc.insert vp blkno size stamp bp).Ok k s a := hpc ▸ hi.pcs a
  have hown := hpok.1
  have hrole := (hi.bufs bp).role hown
  rw [hpc, role_insert] at hrole
  have hbp := h.own hpc hown
  rw [role_insert] at hbp
  have hnone : owed bp = none := hbp.none (.inr (.inr (.inl rfl)))
  unfold State.insertStep
  by_cases hagain : stamp ≠ (s.bhd_stamp (k.hash vp blkno) : ℤ) ∧
      ((s.bufhash (k.hash vp blkno)).any fun b => (s.buf b).isFor vp blkno)
  · rw [if_pos hagain]
    refine h.one bp hpc rfl rfl (fun _ _ => rfl) hown (fun _ _ => rfl)
      (fun b hb => if_neg hb) (fun b hb => if_neg hb) (fun _ => .inr rfl) (fun _ _ => rfl)
      (.rest rfl rfl) ?_
    exact .of_none hnone hbp.flags fun hr => by simp at hr
  · rw [if_neg hagain]
    refine h.one bp hpc rfl rfl (fun _ _ => rfl) hown (fun _ _ => rfl)
      (fun b hb => if_neg hb) (fun b _ => ?_) (fun _ => .inr rfl) (fun _ _ => rfl)
      ⟨fun tp htp => .inr ?_, .inl ?_⟩ (.of_none hnone hbp.flags fun _ _ => ?_)
    · split_ifs <;> rfl
    · split_ifs at htp
      · rw [mem_singleton.mp htp, hnone]
      · cases htp
    · split_ifs <;> rfl
    · change (s.buf bp).b_flags.B_INVAL = false
      rw [hrole.2.2]
      rfl

end Getblk

section Allocbuf

variable {tp bp : B} {size : ℕ} {c : After V} {choice : Option B}

omit [DecidableEq V] [Fintype B] in
theorem Owing.allocated (h : Owing s owed) {q : Pc B V} (hpc : s.pc a = q)
    (hq : ∀ b, q.role b = .held) (hown : s.owner tp = some a) (hmem : tp ∈ q.targets) :
    Owing (s.allocated a tp size c) owed := by
  have hnone : owed tp = none := h.targets a tp (hpc ▸ hmem)
  have htp := h.own hpc hown
  refine h.one tp hpc rfl rfl (fun _ _ => rfl) hown (fun _ _ => rfl) (fun b _ => hq b)
    (fun b _ => After.role_pc c size) (fun _ => .inr rfl) (fun _ _ => rfl)
    ⟨fun t ht => ?_, .inl ?_⟩ (.of_none hnone htp.flags fun _ => htp.valid ?_)
  · cases c with
    | ret => cases ht
    | getblk vp blkno => cases ht
  · cases c <;> rfl
  · exact .inl (congrArg some (hq tp))

omit [DecidableEq V] [Fintype B] in
/-- Memory is moved between two buffers of which nothing is owed. -/
theorem Owing.move (h : Owing s owed) (bp : B) {q : Pc B V} {n : Next B V} {x y : Buf V H}
    (hq : s.pc a = q) (hbefore : ∀ b, q.role b = .held) (hne : tp ≠ bp)
    (htp : s.owner tp = some a) (hpc : s'.pc = update s.pc a (.brelse bp n))
    (hbuf : s'.buf = update (update s.buf bp x) tp y)
    (howner : ∀ b, b ≠ bp → s'.owner b = s.owner b) (hown : s'.owner bp = some a)
    (hio : s'.io = s.io) (htarget : owed tp = none) (hnone : owed bp = none)
    (htargets : n.buffers = [tp]) (hsave : n.save = none)
    (hx : x.b_flags.B_NOCACHE = false ∧ x.b_flags.B_LOCKED = false)
    (hy : y.b_flags = (s.buf tp).b_flags ∧ y.b_vp = (s.buf tp).b_vp) : Owing s' owed := by
  have hself : s'.pc a = .brelse bp n := by rw [hpc, update_self]
  have hheld : (s'.pc a).role tp = .held := by
    rw [hself]
    exact if_neg hne
  refine h.moves [tp, bp] [a] (fun c hc => ?_) (fun b hb => ?_) (fun b hb c hc _ => ?_)
    (fun b hb => ?_) (fun b hb => .inl hb) (fun c hc t ht => ?_) fun c hc => ?_
  · rw [hpc, update_of_ne (ne_of_not_mem_cons hc)]
  · rw [mem_cons, mem_singleton, not_or] at hb
    refine ⟨?_, by rw [hio], howner b hb.2, rfl⟩
    rw [hbuf, update_of_ne hb.1, update_of_ne hb.2]
  · rw [mem_cons, mem_singleton, not_or] at hb
    rw [mem_singleton.mp hc, hself, hq, hbefore]
    exact if_neg hb.2
  · rw [mem_cons, mem_singleton] at hb
    rcases hb with hb | hb
    · have hold := h.own hq htp
      rw [hb, hbuf, update_self, role_of_owner ((howner tp hne).trans htp), hheld]
      refine .of_none htarget ?_ fun _ => ?_
      · rw [hy.1]
        exact hold.flags
      · have hvalid := hold.valid (.inl (congrArg some (hbefore tp)))
        intro hv
        rw [hy.1]
        exact hvalid (hy.2 ▸ hv)
    · rw [hb, hbuf, update_of_ne hne.symm, update_self, role_of_owner hown, hself, role_brelse]
      exact .of_none hnone hx fun hr => by simp at hr
  · rw [mem_singleton.mp hc, hself] at ht
    have hmem : t ∈ n.buffers := ht
    rw [htargets] at hmem
    rw [mem_singleton.mp hmem, htarget]
  · rw [mem_singleton.mp hc, hself]
    change n.save ≠ some false
    rw [hsave]
    exact (some_ne_none false).symm

theorem Owing.allocStep (hi : Inv k mem s) (h : Owing s owed) (hpc : s.pc a = .alloc tp size c)
    (hs : s.allocStep k a tp size c choice = some s') : Owing s' owed := by
  have hpok : (Pc.alloc tp size c).Ok k s a := hpc ▸ hi.pcs a
  have hown := hpok.1
  have hmem : tp ∈ (Pc.alloc tp size c : Pc B V).targets := mem_cons_self ..
  have hdone : Owing (s.allocated a tp size c) owed := h.allocated hpc (fun _ => rfl) hown hmem
  unfold State.allocStep at hs
  by_cases heq : k.round_page size = (s.buf tp).b_bufsize
  · rw [if_pos heq, some_inj] at hs
    exact hs ▸ hdone
  rw [if_neg heq] at hs
  by_cases hless : k.round_page size < (s.buf tp).b_bufsize
  · rw [if_pos hless] at hs
    cases choice with
    | none => exact some_inj.mp hs ▸ hdone
    | some ep =>
      dsimp only at hs
      obtain ⟨hno, hs⟩ := ite_none_left_eq_some.mp hs
      rw [some_inj] at hs
      obtain ⟨hfree, hempty⟩ := not_or.mp hno
      rw [not_not] at hfree hempty
      have hne : tp ≠ ep := by
        rintro rfl
        exact nomatch hfree.symm.trans hown
      have hep := h.free hfree
      -- an empty buffer has no contents
      have hnone : owed ep = none := by
        cases hw : owed ep with
        | none => rfl
        | some d =>
          obtain ⟨w, hplaced, -, hsize⟩ := hi.lists.free
          have hzero := (hsize ep hfree).mp ((hplaced.mem _ ep).mp hempty)
          have hpos := (hep.owes d hw).2.1
          rw [hzero] at hpos
          cases hpos
      subst hs
      exact h.move ep hpc (fun _ => rfl) hne hown rfl rfl
        (fun b hb => update_of_ne hb ..) (update_self ..) rfl
        (h.targets a tp (hpc ▸ hmem)) hnone rfl rfl hep.flags ⟨rfl, rfl⟩
  · rw [if_neg hless, some_inj] at hs
    subst hs
    exact h.setPc hpc (fun _ => rfl) (fun _ => rfl) ⟨fun t ht => .inl ht, .inl rfl⟩

theorem Owing.growStep (hi : Inv k mem s) (h : Owing s owed) (hpc : s.pc a = .grow tp size c bp) :
    Owing (s.growStep k a tp size c bp) owed := by
  have hpok : (Pc.grow tp size c bp).Ok k s a := hpc ▸ hi.pcs a
  obtain ⟨htp, hbp, -, hne⟩ := hpok
  have hmem (b : B) (hb : b ∈ (Pc.grow tp size c bp : Pc B V).targets) : owed b = none := h.targets a b (hpc ▸ hb)
  have hflags := (h.own hpc hbp).flags
  exact h.move bp hpc (fun _ => rfl) hne htp rfl rfl (fun _ _ => rfl) hbp rfl
    (hmem tp (mem_cons_self ..)) (hmem bp (mem_cons_of_mem _ (mem_cons_self ..))) rfl
    rfl hflags ⟨rfl, rfl⟩

end Allocbuf

section Write

variable {bp : B} {n : Next B V}

omit [DecidableEq B] [DecidableEq T] [DecidableEq V] [Fintype B] in
theorem Next.targets_pc (n : Next B V) : n.pc.targets = n.buffers := by cases n <;> rfl

omit [DecidableEq B] [DecidableEq T] [DecidableEq V] [Fintype B] in
theorem Next.save_pc (n : Next B V) : n.pc.save = n.save := by cases n <;> rfl

theorem Owing.giveAway (h : Owing s owed) (hi : Inv k mem s) {q p : Pc B V} {x : Buf V H}
    (hq : s.pc a = q) (hown : s.owner bp = some a) (ha : ∀ b, a ≠ .intr b)
    (hbefore : ∀ b, b ≠ bp → q.role b = .held) (hafter : ∀ b, p.role b = .held)
    (hpcs : s'.pc = update (update s.pc (.intr bp) (.io bp)) a p) (hbuf : s'.buf = update s.buf bp x)
    (howner : s'.owner = update s.owner bp (some (.intr bp)))
    (hio : ∀ b, b ≠ bp → s'.io b = s.io b) (hplace : q.After owed p)
    (hok : x.Owing (s'.io bp) (some .io) (owed bp)) : Owing s' owed := by
  have hself : s'.pc a = p := by rw [hpcs, update_self]
  have hintr : s'.pc (.intr bp) = .io bp := by
    rw [hpcs, update_of_ne (ha bp).symm, update_self]
  have hown' : s'.owner bp = some (.intr bp) := by rw [howner, update_self]
  have hidle := hi.intr_idle hown ha
  refine h.moves [bp] [a, .intr bp] (fun c hc => ?_) (fun b hb => ?_) (fun b hb c hc _ => ?_)
    (fun b hb => ?_) (fun b hb => .inl hb) (fun c hc tp htp => ?_) fun c hc => ?_
  · rw [mem_cons, mem_singleton, not_or] at hc
    rw [hpcs, update_of_ne hc.1, update_of_ne hc.2]
  · have hne := ne_of_not_mem_cons hb
    refine ⟨?_, hio b hne, ?_, rfl⟩
    · rw [hbuf, update_of_ne hne]
    · rw [howner, update_of_ne hne]
  · have hne := ne_of_not_mem_cons hb
    rw [mem_cons, mem_singleton] at hc
    rcases hc with hc | hc
    · rw [hc, hself, hq, hbefore b hne, hafter b]
    · rw [hc, hintr, hidle]
      exact if_neg hne
  · rw [mem_singleton.mp hb, role_of_owner hown', hintr, role_io, hbuf, update_self]
    exact hok
  · rw [mem_cons, mem_singleton] at hc
    rcases hc with hc | hc
    · rw [hc, hself] at htp
      exact (hplace.targets tp htp).elim (fun hmem => h.targets a tp (hq ▸ hmem)) id
    · rw [hc, hintr] at htp
      cases htp
  · rw [mem_cons, mem_singleton] at hc
    rcases hc with hc | hc
    · rw [hc, hself]
      exact hplace.saves (hq ▸ h.saves a)
    · rw [hc, hintr]
      exact (some_ne_none false).symm

theorem Owing.bwriteStep (hi : Inv k mem s) (h : Owing s owed) (hpc : s.pc a = .bwrite bp n)
    (hs : s.bwriteStep a bp n = some s') : Owing s' owed := by
  have hpok : (Pc.bwrite bp n).Ok k s a := hpc ▸ hi.pcs a
  have hown := hpok.1
  obtain ⟨hflags, -, howes⟩ := h.own hpc hown
  rw [role_bwrite] at howes
  unfold State.bwriteStep at hs
  obtain ⟨hsize, hs⟩ := ite_none_left_eq_some.mp hs
  obtain ⟨t, ht, hs⟩ := map_eq_some_iff.mp hs
  let f : Flags := { (s.buf bp).b_flags with
    B_READ := false
    B_ERROR := false
    B_DELWRI := false
    B_AGE := (s.buf bp).b_flags.B_AGE ||
      ((s.buf bp).b_flags.B_ASYNC && (s.buf bp).b_flags.B_DELWRI) }
  -- with or without `reassignbuf`, the flags are changed and the contents are not
  have hdone (v : Option V) : Buf.Owing { s.buf bp with b_flags := f, b_rvp := v } (s.io bp)
      (some ((Pc.output bp n).role bp)) (owed bp) := by
    rw [role_output]
    refine ⟨hflags, fun hr => by simp at hr, fun c hc => ?_⟩
    obtain ⟨hcontents, hpos, hinval⟩ := howes c hc
    exact ⟨hcontents, hpos, rfl, hinval⟩
  subst hs
  by_cases hdelwri : (s.buf bp).b_flags.B_DELWRI
  · rw [if_pos hdelwri] at ht
    obtain ⟨vp, -, rfl⟩ := map_eq_some_iff.mp ht
    refine h.one bp (x := { s.buf bp with b_flags := f, b_rvp := some vp }) hpc rfl ?_
      (fun _ _ => rfl) hown (fun _ _ => rfl) (fun b hb => if_neg hb) (fun b hb => if_neg hb)
      (fun _ => .inr rfl) (fun _ _ => rfl) (.same rfl rfl) (hdone _)
    change update (update s.buf bp _) bp _ = _
    simp [State.setFlags, State.setBuf, f]
  · rw [if_neg hdelwri, some_inj] at ht
    subst ht
    exact h.one bp hpc rfl rfl (fun _ _ => rfl) hown (fun _ _ => rfl) (fun b hb => if_neg hb)
      (fun b hb => if_neg hb) (fun _ => .inr rfl) (fun _ _ => rfl) (.same rfl rfl)
      (hdone (s.buf bp).b_rvp)

theorem Owing.outputStep (hi : Inv k mem s) (h : Owing s owed) (hpc : s.pc a = .output bp n)
    (hs : s.outputStep a bp n = some s') : Owing s' owed := by
  have hpok : (Pc.output bp n).Ok k s a := hpc ▸ hi.pcs a
  have hown := hpok.1
  have ha := hi.ne_intr hpc fun _ => id
  obtain ⟨hflags, -, howes⟩ := h.own hpc hown
  rw [role_output] at howes
  obtain ⟨vp, hvp, hs⟩ := map_eq_some_iff.mp hs
  dsimp only at hs
  rw [setBuf_self] at hs
  by_cases hasync : (s.buf bp).b_flags.B_ASYNC
  · rw [if_pos hasync] at hs
    subst hs
    refine h.giveAway hi hpc hown ha (fun b hb => if_neg hb) (fun _ => n.role_pc) rfl rfl rfl
      (fun b hb => update_of_ne hb ..) 
      ⟨fun tp htp => .inl (n.targets_pc ▸ htp : tp ∈ n.buffers), .inr n.save_pc⟩ ?_
    refine ⟨hflags, fun hr => by simp at hr, fun c hc => ?_⟩
    obtain ⟨hcontents, hpos, hread, hinval⟩ := howes c hc
    refine ⟨hcontents, hpos, hread, ?_, hinval hasync⟩
    exact ne_of_eq_of_ne (update_self ..) (some_ne_none _)
  · rw [if_neg hasync] at hs
    subst hs
    refine h.one bp hpc rfl rfl (fun _ _ => rfl) hown (fun b hb => update_of_ne hb ..)
      (fun b hb => if_neg hb) (fun b hb => if_neg hb) (fun _ => .inr rfl) (fun _ _ => rfl)
      (.same rfl rfl) ?_
    rw [role_biowait]
    refine ⟨hflags, fun hr => by simp at hr, fun c hc => ?_⟩
    obtain ⟨hcontents, hpos, hread, -⟩ := howes c hc
    refine ⟨hcontents, hpos, hread, ?_⟩
    exact ne_of_eq_of_ne (update_self ..) (some_ne_none _)

end Write

section Done

variable {bp : B} {n : Next B V}

theorem Owing.biowait (hi : Inv k mem s) (h : Owing s owed) (hpc : s.pc a = .biowait bp n)
    (hdone : (s.buf bp).b_iocomplete = true) : Owing (s.setPc a (.brelse bp n)) owed := by
  have hpok : (Pc.biowait bp n).Ok k s a := hpc ▸ hi.pcs a
  have hown := hpok.1
  have hrole := (hi.bufs bp).role hown
  rw [hpc, role_biowait] at hrole
  have hbp := h.own hpc hown
  rw [role_biowait] at hbp
  -- the write has been settled
  have hnone : owed bp = none := by
    cases hw : owed bp with
    | none => rfl
    | some c => exact ((hbp.owes c hw).2.2.2 (hrole.2.2.done hdone)).elim
  refine h.one bp (x := s.buf bp) hpc rfl (update_eq_self ..).symm (fun _ _ => rfl) hown
    (fun _ _ => rfl) (fun b hb => if_neg hb) (fun b hb => if_neg hb) (fun _ => .inr rfl)
    (fun _ _ => rfl) (.same rfl rfl) ?_
  exact .of_none hnone hbp.flags fun hr => by simp at hr

theorem Owing.breadwait (hi : Inv k mem s) (h : Owing s owed) (hpc : s.pc a = .breadwait bp) :
    Owing (s.setPc a .idle) owed := by
  have hown : s.owner bp = some a := by
    have hpok : (Pc.breadwait bp : Pc B V).Ok k s a := hpc ▸ hi.pcs a
    exact hpok
  have hbp := h.own hpc hown
  rw [role_breadwait] at hbp
  have hnone : owed bp = none := hbp.none (.inr (.inr (.inr rfl)))
  exact h.one bp (x := s.buf bp) hpc rfl (update_eq_self ..).symm (fun _ _ => rfl) hown
    (fun _ _ => rfl) (fun b hb => if_neg hb) (fun b _ => rfl) (fun _ => .inr rfl)
    (fun _ _ => rfl) (.rest rfl rfl)
    (.of_none hnone hbp.flags fun _ => hbp.valid (.inr rfl))

theorem Owing.biodone (hi : Inv k mem s) (h : Owing s owed) {error : Bool}
    (hcareful : Careful k (s, owed) (.done bp error)) (hs : s.biodone bp error = some s') :
    Owing s' (s.owe owed (.done bp error)) := by
  unfold State.biodone at hs
  obtain ⟨hno, hs⟩ := ite_none_left_eq_some.mp hs
  rw [some_inj] at hs
  have hio : s.io bp ≠ none := fun hnone => hno (.inl hnone)
  obtain ⟨a, hown, -, -, hcase⟩ := hi.driver hio
  generalize hw : s.owe owed (.done bp error) = owed'
  have hrest (b : B) (hb : b ≠ bp) : owed' b = owed b := by
    rw [← hw]
    unfold State.owe
    dsimp only
    split_ifs
    · exact update_of_ne hb ..
    · rfl
  -- what is still owed after the step has failed, asynchronously or for a buffer that is not wanted
  have hfailed (c : V × ℤ × ℕ × List ℕ) (hc : owed' bp = some c) : owed bp = some c ∧
      ((s.buf bp).b_flags.B_READ = false → error = true ∧
        ¬((s.buf bp).b_flags.B_ASYNC = false ∧ (s.buf bp).b_flags.B_INVAL = false)) := by
    rw [← hw] at hc
    unfold State.owe at hc
    dsimp only at hc
    split_ifs at hc with hsettled
    · rw [update_self] at hc
      cases hc
    · refine ⟨hc, fun hread => ?_⟩
      have hnot := fun hor => hsettled ⟨hread, hor⟩
      exact ⟨Bool.eq_true_of_not_eq_false fun hfalse => hnot (.inl hfalse), fun hboth => hnot (.inr hboth)⟩
  have howed (b : B) : owed' b = none ∨ owed' b = owed b := by
    by_cases hb : b = bp
    · cases hc : owed' b with
      | none => exact .inl rfl
      | some c =>
        rw [hb] at hc ⊢
        exact .inr (hfailed c hc).1.symm
    · exact .inr (hrest b hb)
  obtain ⟨hpc, hasync⟩ | ⟨hpc, rfl, hasync⟩ := hcase
  · rw [if_neg (Bool.eq_false_iff.mp hasync)] at hs
    -- a synchronous write has been settled, and nothing is owed of a buffer that is read
    have hnone : owed' bp = none := by
      cases hc : owed' bp with
      | none => rfl
      | some c =>
        obtain ⟨hold, hread⟩ := hfailed c hc
        obtain ⟨n, hpc⟩ | hpc := hpc
        · have hbp := h.own hpc hown
          rw [role_biowait] at hbp
          obtain ⟨herror, hnot⟩ := hread (hbp.owes c hold).2.2.1
          have hinval := hcareful herror (ne_of_eq_of_ne hold (some_ne_none c)) hasync
          exact (hnot ⟨hasync, hinval⟩).elim
        · have hbp := h.own hpc hown
          rw [role_breadwait] at hbp
          exact (hbp.owes c hold).2.2.elim
    have hbp := h.own rfl hown
    have hbefore (b : B) (hb : b ≠ bp) : (s.pc a).role b = .held := by
      obtain ⟨n, hpc⟩ | hpc := hpc
      all_goals
        rw [hpc]
        exact if_neg hb
    subst hs
    exact h.one bp rfl (update_eq_self ..).symm rfl (fun _ _ => rfl) hown
      (fun b hb => update_of_ne hb ..) hbefore hbefore howed hrest (.same rfl rfl)
      (.of_none hnone hbp.flags hbp.valid)
  · rw [if_pos hasync] at hs
    have hbp := h.own hpc hown
    rw [role_io] at hbp
    subst hs
    refine h.one bp (p := .brelse bp .ret) hpc rfl rfl (fun b hb => update_of_ne hb ..)
      (update_self ..) (fun b hb => update_of_ne hb ..) (fun b hb => if_neg hb)
      (fun b hb => if_neg hb) howed hrest (.rest rfl rfl) ?_
    rw [role_brelse]
    refine ⟨hbp.flags, fun hr => by simp at hr, fun c hc => ?_⟩
    obtain ⟨hold, herror⟩ := hfailed c hc
    obtain ⟨hcontents, hpos, hread, -, hinval⟩ := hbp.owes c hold
    refine ⟨hcontents, hpos, hinval, rfl, .inr ⟨?_, hasync, hread⟩⟩
    rw [(herror hread).1]
    exact Bool.or_true _

theorem Buf.kept_owes {V H : Type} {x : Buf V H} (hlocked : x.b_flags.B_LOCKED = false)
    (hnocache : x.b_flags.B_NOCACHE = false) (hsize : 0 < x.b_bufsize) (hinval : x.b_flags.B_INVAL = false)
    (hcase : x.b_flags.B_ERROR = false ∧ x.b_flags.B_DELWRI = true ∨
      x.b_flags.B_ERROR = true ∧ x.b_flags.B_ASYNC = true ∧ x.b_flags.B_READ = false) :
    x.kept.B_ERROR = false ∧ x.kept.B_DELWRI = true := by
  obtain ⟨herror, hdelwri⟩ | ⟨herror, hasync, hread⟩ := hcase
  · simp [Buf.kept, herror, hdelwri]
  · simp [Buf.kept, herror, hasync, hread, hlocked, hnocache, hinval, hsize]

theorem Buf.kept_flags {V H : Type} (x : Buf V H) :
    x.kept.B_NOCACHE = x.b_flags.B_NOCACHE ∧ x.kept.B_LOCKED = x.b_flags.B_LOCKED := by
  unfold Buf.kept
  dsimp only
  split_ifs <;> exact ⟨rfl, rfl⟩

theorem Owing.brelseStep (hi : Inv k mem s) (h : Owing s owed) (hpc : s.pc a = .brelse bp n)
    (hs : s.brelseStep a bp n = some s') : Owing s' owed := by
  have hpok : (Pc.brelse bp n).Ok k s a := hpc ▸ hi.pcs a
  have hown := hpok.1
  obtain ⟨hflags, -, howes⟩ := h.own hpc hown
  rw [role_brelse] at howes
  obtain ⟨t, ht, hs⟩ := map_eq_some_iff.mp hs
  have hkept := hi.lists.keepError ht
  have hy : t.buf bp = { s.buf bp with b_flags := (s.buf bp).kept } := by
    rw [hkept.buf, update_self]
  obtain ⟨u, g, q, gone, heq, hd⟩ := discard_cases t a bp _ n
  rw [heq] at hs
  subst hs
  have hgflags : g.B_NOCACHE = false ∧ g.B_LOCKED = false := by
    refine ⟨hd.nocache, ?_⟩
    rw [hd.locked, hy]
    exact (s.buf bp).kept_flags.2.trans hflags.2
  -- whether the buffer has been disassociated or not
  have hset (e : Bool) (z : Buf V H) (hbuf : u.buf = update s.buf bp z) (howner : u.owner = s.owner)
      (hdriver : u.io = s.io) (hpcs : u.pc = s.pc)
      (hz : ∀ c, owed bp = some c → z.contents = some c ∧ 0 < z.b_bufsize ∧
        g.B_DELWRI = true ∧ g.B_INVAL = false ∧ z.b_iocomplete = true) :
      Owing ((u.setFlags bp g).setPc a (.free bp q gone e n)) owed := by
    have hself : u.buf bp = z := by rw [hbuf, update_self]
    refine h.one bp (p := .free bp q gone e n) (x := { z with b_flags := g }) hpc ?_ ?_
      (fun b _ => ?_) ?_ (fun b _ => ?_) (fun b hb => if_neg hb) (fun b hb => if_neg hb) (fun _ => .inr rfl) (fun _ _ => rfl)
      (.same rfl rfl) ?_
    · rw [← hpcs]
      rfl
    · change update u.buf bp { u.buf bp with b_flags := g } = _
      rw [hself, hbuf, update_idem]
    · rw [← howner]
      rfl
    · rw [← hown, ← howner]
      rfl
    · rw [← hdriver]
      rfl
    · rw [role_free]
      exact ⟨hgflags, fun hr => by simp at hr, hz⟩
  cases hw : owed bp with
  | none =>
    have hno (z : Buf V H) (c : V × ℤ × ℕ × List ℕ) (hc : owed bp = some c) :
        z.contents = some c ∧ 0 < z.b_bufsize ∧ g.B_DELWRI = true ∧ g.B_INVAL = false ∧
          z.b_iocomplete = true := nomatch hw.symm.trans hc
    rcases hd.ways with hgone | ⟨rfl, -⟩
    · have hdet := hkept.lists.listed.detached hgone
      exact hset _ _ (hdet.buf.trans (update_of_update hkept.buf)) (hdet.owner.trans hkept.owner)
        (hdet.io.trans hkept.io) (hdet.pc.trans hkept.pc) (hno _)
    · exact hset _ _ hkept.buf hkept.owner hkept.io hkept.pc (hno _)
  | some c =>
    obtain ⟨hcontents, hpos, hinval, hdone, hcase⟩ := howes c hw
    obtain ⟨herror, hdelwri⟩ := Buf.kept_owes hflags.2 hflags.1 hpos hinval hcase
    obtain ⟨rfl, hdirty, hgood⟩ := hd.keeps (by rw [hy]; exact herror)
      (by rw [hy]; exact (s.buf bp).kept_inval.trans hinval)
      (by rw [hy]; exact (s.buf bp).kept_flags.1.trans hflags.1) (by rw [hy]; exact hpos)
    refine hset _ _ hkept.buf hkept.owner hkept.io hkept.pc fun d hd' => ?_
    rw [hw] at hd'
    cases hd'
    refine ⟨hcontents, hpos, ?_, hgood, hdone⟩
    rw [hdirty, hy]
    exact hdelwri

theorem Owing.freeStep (hi : Inv k mem s) (h : Owing s owed) {q : Queue} {inshead had_error : Bool}
    (hpc : s.pc a = .free bp q inshead had_error n) : Owing (s.freeStep a bp q inshead had_error n) owed := by
  have hpok : (Pc.free bp q inshead had_error n).Ok k s a := hpc ▸ hi.pcs a
  have hown := hpok.1
  obtain ⟨hflags, -, howes⟩ := h.own hpc hown
  rw [role_free] at howes
  have hself : (s.freeStep a bp q inshead had_error n).pc a = n.pc := update_self ..
  have hbuf : (s.freeStep a bp q inshead had_error n).buf bp = { s.buf bp with
      b_flags := { (s.buf bp).b_flags with
        B_ERROR := (s.buf bp).b_flags.B_ERROR || had_error } } := update_self ..
  have hfree : (s.freeStep a bp q inshead had_error n).owner bp = none := update_self ..
  refine h.moves [bp] [a] (fun c hc => ?_) (fun b hb => ?_) (fun b hb c hc _ => ?_) (fun b hb => ?_)
    (fun b hb => .inl hb) (fun c hc tp htp => ?_) fun c hc => ?_
  · exact update_of_ne (ne_of_not_mem_cons hc) ..
  · have hne := ne_of_not_mem_cons hb
    exact ⟨update_of_ne hne .., rfl, update_of_ne hne .., rfl⟩
  · rw [mem_singleton.mp hc, hself, hpc, n.role_pc]
    exact (if_neg (ne_of_not_mem_cons hb)).symm
  · rw [mem_singleton.mp hb, role_free_of_owner hfree, hbuf]
    exact ⟨hflags, fun hr => by simp at hr, howes⟩
  · rw [mem_singleton.mp hc, hself, n.targets_pc] at htp
    exact h.targets a tp (hpc ▸ htp)
  · have hold := h.saves a
    rw [hpc] at hold
    rw [mem_singleton.mp hc, hself, n.save_pc]
    exact hold

end Done

section Flush

variable {vp : V} {sync save list : Bool} {dirty : ℤ} {choice : Option B} {bp : B}

omit [Fintype B] in
theorem Owing.vflushStep (h : Owing s owed) (hpc : s.pc a = .vflush vp sync)
    (hs : s.vflushStep a vp sync choice = some s') : Owing s' owed := by
  cases choice with
  | none =>
    cases hs
    refine h.setPc hpc (fun _ => rfl) (fun _ => ?_) ⟨fun tp htp => ?_, .inl ?_⟩
    · split_ifs <;> rfl
    · split_ifs at htp <;> cases htp
    · split_ifs <;> rfl
  | some bp =>
    unfold State.vflushStep at hs
    dsimp only at hs
    obtain ⟨hno, hs⟩ := ite_none_left_eq_some.mp hs
    cases hs
    refine h.take hpc (fun _ => rfl) (fun b hb => if_neg hb) (.rest rfl rfl) ?_
    rw [role_bwrite]
    exact (h.free (not_not.mp (not_or.mp hno).1)).to_write (.inl rfl) ⟨rfl, rfl, rfl⟩

omit [Fintype B] [DecidableEq V] in
theorem Owing.vinvalStep (h : Owing s owed) (hpc : s.pc a = .vinval vp save dirty list) :
    Owing (s.vinvalStep a vp save dirty list) owed := by
  unfold State.vinvalStep
  split
  · exact h.setPc hpc (fun _ => rfl) (fun _ => rfl) (.same rfl rfl)
  · exact h.setPc hpc (fun _ => rfl) (fun _ => rfl) (.same rfl rfl)
  · exact h.setPc hpc (fun _ => rfl) (fun _ => rfl) (.same rfl rfl)
  · exact h.setPc hpc (fun _ => rfl) (fun _ => rfl) (.rest rfl rfl)

omit [Fintype B] in
theorem Owing.vlockStep (h : Owing s owed) (hpc : s.pc a = .vlock vp save dirty list bp)
    (hsave : save = true) (hs : s.vlockStep a vp save dirty list bp = some s') :
    Owing s' (s.owe owed (.run a choice)) := by
  unfold State.vlockStep at hs
  dsimp only at hs
  by_cases hown : s.owner bp ≠ none
  · rw [if_pos hown] at hs
    cases hs
  have hfree : s.owner bp = none := not_not.mp hown
  obtain ⟨hflags, -, howes⟩ := h.free hfree
  rw [if_neg hown] at hs
  generalize howed' : s.owe owed (.run a choice) = owed'
  have howe (b : B) : owed' b =
      if s.GivesUp b (.vlock vp save dirty list bp) then none else owed b := by
    rw [← howed', ← hpc]
    rfl
  by_cases hhead : (s.blkhd (vp, list)).head? ≠ some bp
  · rw [if_pos hhead, some_inj] at hs
    have hsame : owed' = owed := by
      funext b
      rw [howe b]
      refine if_neg fun hgives => ?_
      obtain ⟨rfl, -, hb, -⟩ := hgives
      exact hhead hb
    rw [hsame]
    exact hs ▸ h.setPc hpc (fun _ => rfl) (fun _ => rfl) (.same rfl rfl)
  rw [if_neg hhead] at hs
  by_cases hgood : save = true ∧ (s.buf bp).b_flags.B_DELWRI = true ∧ ¬(s.buf bp).b_flags.B_ERROR = true
  · rw [if_pos hgood, some_inj] at hs
    have hsame : owed' = owed := by
      funext b
      rw [howe b]
      refine if_neg fun hgives => ?_
      obtain ⟨rfl, -, -, -, herror⟩ := hgives
      exact hgood.2.2 herror
    rw [hsame]
    subst hs
    refine h.take hpc (fun _ => rfl) (fun b hb => if_neg hb) (.same rfl rfl) ?_
    rw [role_bwrite]
    exact (h.free hfree).to_write (.inl rfl) ⟨rfl, rfl, rfl⟩
  rw [if_neg hgood] at hs
  have howed (b : B) : owed' b = none ∨ owed' b = owed b := by
    rw [howe b]
    split_ifs
    · exact .inl rfl
    · exact .inr rfl
  have hrest (b : B) (hb : b ≠ bp) : owed' b = owed b := by
    rw [howe b]
    exact if_neg fun hgives => hb hgives.1.symm
  -- a dirty buffer is given up here, and nothing is owed of another
  have hnone : owed' bp = none := by
    by_cases hdelwri : (s.buf bp).b_flags.B_DELWRI = true
    · have herror : (s.buf bp).b_flags.B_ERROR = true := by
        by_contra hno
        exact hgood ⟨hsave, hdelwri, hno⟩
      rw [howe bp]
      exact if_pos ⟨rfl, hsave, not_not.mp hhead, hdelwri, herror⟩
    · cases hw : owed bp with
      | none =>
        rcases howed bp with hno | heq
        · exact hno
        · rw [heq, hw]
      | some c => exact (hdelwri (howes c hw).2.2.1).elim
  let t := (s.lock bp a).bremfree bp
  have hmark : ∃ v, (if (save && (s.buf bp).b_flags.B_DELWRI) = true then
      { t with vioerror := update t.vioerror vp true } else t) = { t with vioerror := v } := by
    split_ifs
    · exact ⟨_, rfl⟩
    · exact ⟨t.vioerror, rfl⟩
  obtain ⟨v, hv⟩ := hmark
  rw [hv] at hs
  generalize (if (save && (s.buf bp).b_flags.B_DELWRI) = true then dirty - 1 else dirty) = n at hs
  obtain ⟨u, hu, hs⟩ := map_eq_some_iff.mp hs
  have hset (x : Buf V H) (hbuf : u.buf = update s.buf bp x)
      (howner : u.owner = update s.owner bp (some a)) (hdriver : u.io = s.io)
      (hpcs : u.pc = s.pc) (hx : x.b_flags.B_NOCACHE = false ∧ x.b_flags.B_LOCKED = false) :
      Owing (u.setPc a (.brelse bp (.vinval vp save n list))) owed' := by
    refine h.one bp (p := .brelse bp (.vinval vp save n list)) hpc ?_ hbuf (fun b hb => ?_) ?_
      (fun b _ => ?_) (fun _ _ => rfl) (fun b hb => if_neg hb) howed hrest (.same rfl rfl) ?_
    · rw [← hpcs]
      rfl
    · change u.owner b = s.owner b
      rw [howner, update_of_ne hb]
    · change u.owner bp = some a
      rw [howner, update_self]
    · rw [← hdriver]
      rfl
    · rw [role_brelse]
      exact .of_none hnone hx fun hr => by simp at hr
  rw [← hs]
  by_cases hvp : (s.buf bp).b_vp ≠ some vp
  · rw [if_pos hvp] at hu
    obtain ⟨w, -, rfl⟩ := map_eq_some_iff.mp hu
    exact hset _ rfl rfl rfl rfl hflags
  · rw [if_neg hvp, some_inj] at hu
    subst hu
    exact hset _ rfl rfl rfl rfl hflags

end Flush

section Calls

omit [DecidableEq B] [DecidableEq T] [DecidableEq V] [Fintype B] in
theorem Pc.buffers_of_targets {p : Pc B V} {b : B} (hb : b ∈ p.targets) : b ∈ p.buffers := by
  cases p with
  | getnewbuf c => exact hb
  | reset bp c => exact mem_cons_of_mem _ hb
  | alloc tp size c => exact hb
  | grow tp size c bp => exact hb
  | shrunk tp size c => exact hb
  | bwrite bp n => exact mem_cons_of_mem _ hb
  | output bp n => exact mem_cons_of_mem _ hb
  | biowait bp n => exact mem_cons_of_mem _ hb
  | brelse bp n => exact mem_cons_of_mem _ hb
  | free bp q inshead had_error n => exact mem_cons_of_mem _ hb
  | _ => cases hb

variable {t : T} {bp : B} {vp : V} {p : Pc B V}

omit [DecidableEq V] [Fintype B] in
theorem Owing.enter (h : Owing s owed) (hpc : s.pc a = .idle) (hown : s.owner bp = some a)
    {f : Flags} (hafter : ∀ b, b ≠ bp → p.role b = .held) (hplace : Pc.idle.After owed p)
    (hok : Buf.Owing { s.buf bp with b_flags := f } (s.io bp) (some (p.role bp)) (owed bp)) :
    Owing ((s.setFlags bp f).setPc a p) owed :=
  h.one bp hpc rfl rfl (fun _ _ => rfl) hown (fun _ _ => rfl) (fun _ _ => rfl) hafter
    (fun _ => .inr rfl) (fun _ _ => rfl) hplace hok

omit [DecidableEq V] [Fintype B] in
theorem Owing.enter_same (h : Owing s owed) (hpc : s.pc a = .idle) (hown : s.owner bp = some a)
    (hafter : ∀ b, b ≠ bp → p.role b = .held) (hplace : Pc.idle.After owed p)
    (hok : (s.buf bp).Owing (s.io bp) (some (p.role bp)) (owed bp)) : Owing (s.setPc a p) owed := by
  have hsame : s.setFlags bp (s.buf bp).b_flags = s := by simp [State.setFlags, State.setBuf]
  have hentered := h.enter hpc hown (f := (s.buf bp).b_flags) hafter hplace hok
  rwa [hsame] at hentered

theorem Owing.startRead (hi : Inv k mem s) (h : Owing s owed) {async : Bool}
    (hpc : s.pc (.thread t) = .idle) (hown : s.owner bp = some (.thread t))
    (hs : s.startRead (.thread t) bp async = some s') : Owing s' owed := by
  have hbp := h.own hpc hown
  unfold State.startRead at hs
  obtain ⟨hno, hs⟩ := ite_none_left_eq_some.mp hs
  rw [some_inj] at hs
  -- what is owed need not be read
  have hnone : owed bp = none := by
    cases hw : owed bp with
    | none => rfl
    | some c => exact (hno (.inl (hbp.owes c hw).2.2.2.2)).elim
  cases async with
  | true =>
    subst hs
    refine h.giveAway hi (p := .idle) hpc hown (fun b hb => nomatch hb) (fun _ _ => rfl)
      (fun _ => rfl) ?_ rfl rfl (fun b hb => update_of_ne hb ..) (.same rfl rfl)
      (.of_none hnone hbp.flags fun hr => by simp at hr)
    funext c
    by_cases hc : c = .thread t
    · have hne : Agent.thread t ≠ .intr bp := fun heq => nomatch heq
      rw [hc, update_self]
      change update s.pc (.intr bp) (.io bp) (.thread t) = .idle
      rw [update_of_ne hne, hpc]
    · rw [update_of_ne hc]
      rfl
  | false =>
    subst hs
    refine h.one bp hpc rfl rfl (fun _ _ => rfl) hown (fun b hb => update_of_ne hb ..)
      (fun _ _ => rfl) (fun b hb => if_neg hb) (fun _ => .inr rfl) (fun _ _ => rfl)
      (.rest rfl rfl) (.of_none hnone hbp.flags fun _ => ?_)
    exact hbp.valid (.inl rfl)

omit [DecidableEq T] [DecidableEq V] [Fintype B] in
theorem Owing.clearErrors (h : Owing s owed) (vp : V) : Owing (s.clearErrors vp) owed := by
  refine ⟨fun b => ?_, h.targets, h.saves⟩
  have hbp := h.bufs b
  change ((s.clearErrors vp).buf b).Owing (s.io b) (s.role b) (owed b)
  by_cases hb : b ∈ s.blkhd (vp, true) ∧ s.owner b = none
  · have hbuf : (s.clearErrors vp).buf b =
        { s.buf b with b_flags := { (s.buf b).b_flags with B_ERROR := false } } := if_pos hb
    rw [role_free_of_owner hb.2] at hbp ⊢
    rw [hbuf]
    exact ⟨hbp.flags, fun hr => by simp at hr, hbp.owes⟩
  · have hbuf : (s.clearErrors vp).buf b = s.buf b := if_neg hb
    rwa [hbuf]

theorem Owing.bdwrite (hi : Inv k mem s) (h : Owing s owed) (hpc : s.pc (.thread t) = .idle)
    (hown : s.owner bp = some (.thread t)) (hcareful : Careful k (s, owed) (.call t (.bdwrite bp vp)))
    (hs : s.bdwrite k (.thread t) bp vp = some s') : Owing s' (s.owe owed (.call t (.bdwrite bp vp))) := by
  have hbp := h.own hpc hown
  obtain ⟨u, v, hmarked, hvp, hcase⟩ := bdwrite_cases hs
  obtain ⟨r, hbuf⟩ := hmarked.buf
  have hinval : (s.buf bp).b_flags.B_INVAL = false := hbp.valid (.inl rfl) (hvp ▸ some_ne_none v)
  have hself : u.buf bp = { s.buf bp with
      b_flags := { (s.buf bp).b_flags with B_DELWRI := true }
      b_rvp := r } := by rw [hbuf, update_self]
  generalize hw : s.owe owed (.call t (.bdwrite bp vp)) = owed'
  have hrest (b : B) (hb : b ≠ bp) : owed' b = owed b := by
    rw [← hw]
    unfold State.owe
    dsimp only
    split_ifs
    · exact update_of_ne hb ..
    · rfl
  have hnew (c : V × ℤ × ℕ × List ℕ) (hc : owed' bp = some c) :
      (s.buf bp).contents = some c ∧ 0 < (s.buf bp).b_bufsize := by
    rw [← hw] at hc
    unfold State.owe at hc
    dsimp only at hc
    split_ifs at hc with hpos
    · rw [update_self] at hc
      exact ⟨hc, hpos⟩
    · obtain ⟨hcontents, hsize, -⟩ := hbp.owes c hc
      exact ⟨hcontents, hsize⟩
  -- who moves memory holds the buffers that it moves
  have hfree (c : Agent T B) : bp ∉ (s.pc c).targets := by
    intro hmem
    have hlocked := (hi.pcs c).owner (Pc.buffers_of_targets hmem)
    have heq : c = .thread t := some_inj.mp (hlocked.symm.trans hown)
    rw [heq, hpc] at hmem
    cases hmem
  have hset (p : Pc B V) (x : Buf V H) (hpcs : s'.pc = update s.pc (.thread t) p)
      (hbufs : s'.buf = update s.buf bp x) (howner : s'.owner = s.owner)
      (hdriver : s'.io = s.io) (hp : ∀ b, b ≠ bp → p.role b = .held) (htargets : p.targets = [])
      (hsave : p.save = none) (hx : x.Owing (s.io bp) (some (p.role bp)) (owed' bp)) : Owing s' owed' := by
    have hgo : s'.pc (.thread t) = p := by rw [hpcs, update_self]
    refine h.moves [bp] [.thread t] (fun c hc => ?_) (fun b hb => ?_) (fun b hb c hc _ => ?_)
      (fun b hb => ?_) (fun b hb => ?_) (fun c hc tp htp => ?_) fun c hc => ?_
    · rw [hpcs, update_of_ne (ne_of_not_mem_cons hc)]
    · have hne := ne_of_not_mem_cons hb
      exact ⟨by rw [hbufs, update_of_ne hne], by rw [hdriver], by rw [howner], hrest b hne⟩
    · rw [mem_singleton.mp hc, hgo, hpc]
      exact hp b (ne_of_not_mem_cons hb)
    · rw [mem_singleton.mp hb, hdriver, hbufs, update_self, role_of_owner (howner ▸ hown), hgo]
      exact hx
    · by_cases hbb : b = bp
      · rw [hbb]
        exact .inr hfree
      · exact .inl ((hrest b hbb).trans hb)
    · rw [mem_singleton.mp hc, hgo, htargets] at htp
      cases htp
    · rw [mem_singleton.mp hc, hgo, hsave]
      exact (some_ne_none false).symm
  obtain ⟨-, rfl⟩ | ⟨htape, rfl⟩ := hcase
  · refine hset (.bwrite bp .ret) _ (by rw [← hmarked.pc]; rfl) (update_of_update hbuf) hmarked.owner
      hmarked.io (fun b hb => if_neg hb) rfl rfl ?_
    rw [role_bwrite, hself]
    refine ⟨hbp.flags, fun hr => by simp at hr, fun c hc => ?_⟩
    exact ⟨(hnew c hc).1, (hnew c hc).2, fun _ => hinval⟩
  · refine hset (.brelse bp .ret) _ (by rw [← hmarked.pc]; rfl) (update_of_update hbuf) hmarked.owner
      hmarked.io (fun b hb => if_neg hb) rfl rfl ?_
    rw [role_brelse, hself]
    refine ⟨hbp.flags, fun hr => by simp at hr, fun c hc => ?_⟩
    obtain ⟨hcontents, hpos⟩ := hnew c hc
    refine ⟨hcontents, hpos, hinval, rfl, .inl ⟨?_, rfl⟩⟩
    rw [← Bool.not_eq_true]
    intro herror
    have hyes := hcareful hpos herror
    rw [hvp, any_some, htape] at hyes
    exact Bool.false_ne_true hyes

theorem Owing.call [DecidableEq H] (hi : Inv k mem s) (h : Owing s owed) {op : Op B V}
    (hsaving : op.Saving) (hcareful : Careful k (s, owed) (.call t op))
    (hs : s.call k t op = some s') : Owing s' (s.owe owed (.call t op)) := by
  unfold State.call at hs
  obtain ⟨hno, hs⟩ := ite_none_left_eq_some.mp hs
  obtain ⟨hpc, hown⟩ := not_or.mp hno
  rw [not_not] at hpc
  have hmine (bp : B) (hop : op.buffer = some bp) : s.owner bp = some (.thread t) := by
    by_contra hne
    exact hown ⟨bp, hop, hne⟩
  cases op with
  | getblk vp blkno size =>
    dsimp only at hs
    obtain ⟨hsize, hs⟩ := ite_none_left_eq_some.mp hs
    rw [some_inj] at hs
    exact hs ▸ h.setPc hpc (fun _ => rfl) (fun _ => rfl) (.rest rfl rfl)
  | geteblk size =>
    dsimp only at hs
    obtain ⟨hsize, hs⟩ := ite_none_left_eq_some.mp hs
    rw [some_inj] at hs
    exact hs ▸ h.setPc hpc (fun _ => rfl) (fun _ => rfl) (.rest rfl rfl)
  | read bp async => exact h.startRead hi hpc (hmine bp rfl) hs
  | bwrite bp =>
    cases hs
    refine h.enter_same hpc (hmine bp rfl) (fun b hb => if_neg hb) (.rest rfl rfl) ?_
    rw [role_bwrite]
    exact (h.own hpc (hmine bp rfl)).to_write (f := (s.buf bp).b_flags) (.inr rfl) ⟨rfl, rfl, rfl⟩
  | bawrite bp =>
    cases hs
    refine h.enter hpc (hmine bp rfl) (fun b hb => if_neg hb) (.rest rfl rfl) ?_
    rw [role_bwrite]
    exact (h.own hpc (hmine bp rfl)).to_write (.inr rfl) ⟨rfl, rfl, rfl⟩
  | bdwrite bp vp => exact h.bdwrite hi hpc (hmine bp rfl) hcareful hs
  | brelse bp =>
    cases hs
    have hbp := h.own hpc (hmine bp rfl)
    refine h.enter_same hpc (hmine bp rfl) (fun b hb => if_neg hb) (.rest rfl rfl) ?_
    rw [role_brelse]
    refine ⟨hbp.flags, fun hr => by simp at hr, fun c hc => ?_⟩
    obtain ⟨hcontents, hpos, hdelwri, hinval, hdone⟩ := hbp.owes c hc
    have herror := hcareful (ne_of_eq_of_ne hc (some_ne_none c))
    exact ⟨hcontents, hpos, hinval, hdone, .inl ⟨herror, hdelwri⟩⟩
  | allocbuf bp size => exact hsaving.elim
  | vflushbuf vp sync =>
    cases hs
    exact (h.clearErrors vp).setPc hpc (fun _ => rfl) (fun _ => rfl) (.rest rfl rfl)
  | vinvalbuf vp save =>
    cases hs
    subst hsaving
    refine (h.clearErrors vp).moves [] [.thread t] (fun c hc => ?_)
      (fun b _ => ⟨rfl, rfl, rfl, rfl⟩) (fun b _ c hc _ => ?_) (fun b hb => nomatch hb)
      (fun b hb => .inl hb) (fun c hc tp htp => ?_) fun c hc => ?_
    · exact update_of_ne (ne_of_not_mem_cons hc) ..
    · rw [mem_singleton.mp hc]
      simp [State.setPc, State.clearErrors, hpc, Pc.role]
    · rw [mem_singleton.mp hc] at htp
      simp [State.setPc, Pc.targets] at htp
    · rw [mem_singleton.mp hc]
      simp [State.setPc, Pc.save]

end Calls

section Steps

variable [DecidableEq H]

variable (hi : Inv k mem s)
include hi

theorem Owing.run_keep (h : Owing s owed) {choice : Option B}
    (hno : ∀ vp save dirty list bp, s.pc a ≠ .vlock vp save dirty list bp) (hs : s.run k a choice = some s') :
    Owing s' owed := by
  unfold State.run at hs
  generalize hpc : s.pc a = p at hs
  cases p with
  | idle =>
    cases hs
  | search vp blkno size =>
    exact some_inj.mp hs ▸ h.searchStep hpc
  | lock vp blkno size bp =>
    exact h.lockStep hi hpc hs
  | getnewbuf c =>
    exact h.getnewbufStep hpc hs
  | reset bp c =>
    exact some_inj.mp hs ▸ h.resetStep hi hpc
  | assign vp blkno size stamp bp =>
    exact h.assignStep hi hpc hs
  | insert vp blkno size stamp bp =>
    exact some_inj.mp hs ▸ h.insertStep hi hpc
  | got vp blkno size bp =>
    exact some_inj.mp hs ▸ h.setPc hpc (fun _ => rfl) (fun _ => rfl) (.rest rfl rfl)
  | alloc tp size c =>
    exact h.allocStep hi hpc hs
  | grow tp size c bp =>
    exact some_inj.mp hs ▸ h.growStep hi hpc
  | shrunk tp size c =>
    have hpok : (Pc.shrunk tp size c).Ok k s a := hpc ▸ hi.pcs a
    exact some_inj.mp hs ▸ h.allocated hpc (fun _ => rfl) hpok.1 (mem_cons_self ..)
  | bwrite bp n =>
    exact h.bwriteStep hi hpc hs
  | output bp n =>
    exact h.outputStep hi hpc hs
  | io bp =>
    cases hs
  | biowait bp n =>
    obtain ⟨hdone, hs⟩ := ite_none_right_eq_some.mp hs
    exact some_inj.mp hs ▸ h.biowait hi hpc hdone
  | breadwait bp =>
    obtain ⟨-, hs⟩ := ite_none_right_eq_some.mp hs
    exact some_inj.mp hs ▸ h.breadwait hi hpc
  | brelse bp n =>
    exact h.brelseStep hi hpc hs
  | free bp q inshead had_error n =>
    exact some_inj.mp hs ▸ h.freeStep hi hpc
  | vflush vp sync =>
    exact h.vflushStep hpc hs
  | vwait vp =>
    obtain ⟨-, hs⟩ := ite_none_right_eq_some.mp hs
    exact some_inj.mp hs ▸ h.setPc hpc (fun _ => rfl) (fun _ => rfl) (.rest rfl rfl)
  | vinval vp save dirty list =>
    exact some_inj.mp hs ▸ h.vinvalStep hpc
  | vlock vp save dirty list bp => exact absurd hpc (hno vp save dirty list bp)
  | vdone vp dirty =>
    obtain ⟨-, hs⟩ := ite_none_right_eq_some.mp hs
    exact some_inj.mp hs ▸ h.setPc hpc (fun _ => rfl) (fun _ => rfl) (.rest rfl rfl)

theorem Owing.run (h : Owing s owed) {choice : Option B}
    (hs : s.run k a choice = some s') : Owing s' (s.owe owed (.run a choice)) := by
  by_cases hlock : ∃ vp save dirty list bp, s.pc a = .vlock vp save dirty list bp
  · obtain ⟨vp, save, dirty, list, bp, hpc⟩ := hlock
    unfold State.run at hs
    rw [hpc] at hs
    have hsave : save = true := by
      rw [← Bool.not_eq_false]
      intro hno
      refine h.saves a ?_
      rw [hpc, hno]
      rfl
    exact h.vlockStep hpc hsave hs
  · have hno : ∀ vp save dirty list bp, s.pc a ≠ .vlock vp save dirty list bp :=
      fun vp save dirty list bp hpc => hlock ⟨vp, save, dirty, list, bp, hpc⟩
    have hsame : s.owe owed (.run a choice) = owed := by
      funext bp
      refine if_neg fun hgives => ?_
      unfold State.GivesUp at hgives
      split at hgives
      · exact hno _ _ _ _ _ ‹_›
      · exact hgives
    rw [hsame]
    exact h.run_keep hi hno hs

theorem Owing.step (h : Owing s owed) {e : Event T B V} (hsaving : e.Saving) (hcareful : Careful k (s, owed) e)
    (hs : step k s e = some s') : Owing s' (s.owe owed e) := by
  cases e with
  | call t op => exact h.call hi hsaving hcareful hs
  | run a choice => exact h.run hi hs
  | done bp error => exact h.biodone hi hcareful hs

omit [DecidableEq T] [DecidableEq H] in
theorem Owing.keeps (h : Owing s owed) : Keeps s owed := by
  intro b c hc
  obtain ⟨hcontents, -, howes⟩ := (h.bufs b).owes c hc
  refine ⟨hcontents, fun hread => ?_, fun hfree => ?_⟩
  · cases ho : s.owner b with
    | none =>
      have hnone := ((hi.bufs b).free ho).1
      cases hnone.symm.trans hread
    | some a =>
      rw [role_of_owner ho] at howes
      have hrole := (hi.bufs b).role ho
      cases hr : (s.pc a).role b with
      | wait =>
        rw [hr] at hrole howes
        exact Bool.noConfusion (howes.1.symm.trans (hrole.2.2.read hread))
      | io =>
        rw [hr] at hrole howes
        exact Bool.noConfusion (howes.1.symm.trans (hrole.2.2.read hread))
      | read =>
        rw [hr] at howes
        exact howes
      | _ =>
        rw [hr] at hrole
        cases hrole.1.symm.trans hread
  · rw [role_free_of_owner hfree] at howes
    exact ⟨howes.1, howes.2.1⟩

end Steps

section Results

variable {T V H : Type} [DecidableEq T] [DecidableEq V] [DecidableEq H] {k : Config V H}
  {nbuf bufpages : ℕ} {s : State T (Fin nbuf) V H × Owed (Fin nbuf) V}

omit [DecidableEq T] [DecidableEq V] [DecidableEq H] in
theorem owing_init : Owing (bio_init k nbuf bufpages : State T (Fin nbuf) V H) fun _ => none :=
  ⟨fun b => ⟨⟨rfl, rfl⟩, fun hr => by simp [State.role, bio_init] at hr, fun c hc => nomatch hc⟩,
    fun a tp htp => (nomatch htp), fun a => (some_ne_none false).symm⟩

theorem owing_reachable (h : ((delayed k nbuf bufpages).restrict (Careful k)).Reachable s) :
    Inv k (memory k nbuf bufpages) s.1 ∧ Owing s.1 s.2 := by
  apply h.invariant
  · rintro s rfl
    exact ⟨inv_init, owing_init⟩
  · intro s e t _ hs hstep
    obtain ⟨hcareful, hstep⟩ := hstep
    obtain ⟨hinv, howing⟩ := hs
    change delayedStep k s e = some t at hstep
    obtain ⟨hsaving, hstep⟩ := ite_none_right_eq_some.mp hstep
    obtain ⟨u, hu, rfl⟩ := map_eq_some_iff.mp hstep
    exact ⟨hinv.step hu, howing.step hinv hsaving hcareful hu⟩

/-- What is owed is kept in every run in which no thread releases a buffer with the mark of an error. -/
theorem delayed_kept (h : ((delayed k nbuf bufpages).restrict (Careful k)).Reachable s) : Keeps s.1 s.2 := by
  obtain ⟨hinv, howing⟩ := owing_reachable h
  exact howing.keeps hinv

/-- A block is got and marked. -/
def marking : List (Event Unit (Fin 1) Unit) :=
  getting 5 ++ [.run (.thread ()) none, .call () (.bdwrite 0 ())] ++ [none, none].map (.run (.thread ()))

theorem delayed_kept_marking : ∃ s : State Unit (Fin 1) Unit Unit × Owed (Fin 1) Unit,
    System.runFrom (delayedStep small) (bio_init small 1 1, fun _ => none) marking = some s ∧
      s.2 0 ≠ none ∧ Keeps s.1 s.2 := by
  have hsome : ((System.runFrom (delayedStep small) (bio_init small 1 1, fun _ => none) marking).map
      fun s => (s.2 0).isSome) = some true := by decide
  have hcareful : System.MeetsAlong (delayedStep small) (Careful small)
      (bio_init small 1 1, fun _ => none) marking := .of_stepsPass (by decide)
  obtain ⟨s, hs, howed⟩ := map_eq_some_iff.mp hsome
  exact ⟨s, hs, isSome_iff_ne_none.mp howed,
    delayed_kept (System.Reachable.runFrom_restrict (.init rfl) hcareful hs)⟩

/-- The block is written, and the driver reports an error.  A reader gets the buffer and releases it. -/
def losing : List (Event Unit (Fin 1) Unit) :=
  marking ++ .call () (.vflushbuf () false) :: [some 0, none, none, none].map (.run (.thread ())) ++
    .done 0 true :: [none, none].map (.run (.intr 0)) ++
    .call () (.getblk () 5 8192) :: [none, none, none].map (.run (.thread ())) ++
    .call () (.brelse 0) :: [none, none].map (.run (.thread ()))

/-- What is owed is not kept: it is lost when a reader releases a buffer that has not been written. -/
theorem delayed_lost : ∃ s : State Unit (Fin 1) Unit Unit × Owed (Fin 1) Unit,
    (delayed small 1 1).Reachable s ∧ s.2 0 ≠ none ∧ (s.1.buf 0).b_vp = none ∧ ¬Keeps s.1 s.2 := by
  have hsome : ((System.runFrom (delayedStep small) (bio_init small 1 1, fun _ => none) losing).map
      fun s => ((s.2 0).isSome, (s.1.buf 0).b_vp)) = some (true, none) := by decide
  obtain ⟨s, hs, hmap⟩ := map_eq_some_iff.mp hsome
  obtain ⟨howed, hvp⟩ := Prod.mk.inj hmap
  refine ⟨s, System.reachable_of_runFrom hs, isSome_iff_ne_none.mp howed, hvp, fun hkeeps => ?_⟩
  obtain ⟨c, hc⟩ := isSome_iff_exists.mp howed
  have hcontents := (hkeeps 0 c hc).1
  unfold Buf.contents at hcontents
  rw [hvp] at hcontents
  cases hcontents

end Results

end Osf1.Bio
