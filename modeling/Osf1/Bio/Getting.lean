import Osf1.Bio.Invariants

/-!
# The memory of a buffer

The steps of `allocbuf` keep the invariant.
-/

set_option autoImplicit false

namespace Osf1.Bio

open Function List Option

section Allocating

section Pages

variable {V H : Type} {k : Config V H}

theorem round_page_eq (size : ℕ) : k.round_page size = k.page_size * ((size + k.page_size - 1) / k.page_size) :=
  Nat.mul_comm ..

theorem shrink_size {n size : ℕ} (hless : k.round_page size < k.page_size * n) :
    k.round_page size = k.page_size * min (k.round_page size / k.page_size) n ∧
      k.page_size * n - k.round_page size =
        k.page_size * (n - k.round_page size / k.page_size) := by
  rw [round_page_eq] at hless ⊢
  generalize (size + k.page_size - 1) / k.page_size = m at hless ⊢
  have hm : m < n := Nat.lt_of_mul_lt_mul_left hless
  rw [Nat.mul_div_cancel_left m k.page_pos, Nat.min_eq_left hm.le, Nat.mul_sub]
  exact ⟨rfl, rfl⟩

theorem grow_size (size n m : ℕ) :
    ∃ d ≤ m, min (k.round_page size - k.page_size * n) (k.page_size * m) = k.page_size * d ∧
      k.page_size * d / k.page_size = d := by
  rw [round_page_eq, ← Nat.mul_sub, Nat.mul_min_mul_left]
  exact ⟨_, Nat.min_le_right .., rfl, Nat.mul_div_cancel_left _ k.page_pos⟩

end Pages

variable {T B V H : Type} [DecidableEq B] [DecidableEq V] [Fintype B]
variable {k : Config V H} {mem : Multiset ℕ} {s s' : State T B V H} {a : Agent T B}
variable {tp bp ep : B} {size : ℕ} {c : After V} {choice : Option B}

section Lists

/-- Pages are moved between two buffers that are locked. -/
theorem Lists.move (h : Lists k mem s) {x y : Buf V H} (hne : bp ≠ tp)
    (hbp : s.owner bp ≠ none) (htp : s.owner tp ≠ none)
    (hpages : (x.pages ++ y.pages).Perm ((s.buf bp).pages ++ (s.buf tp).pages))
    (hxsize : x.b_bufsize = k.page_size * x.pages.length) (hysize : y.b_bufsize = k.page_size * y.pages.length)
    (hx : x.b_vp = (s.buf bp).b_vp ∧ x.b_hash_chain = (s.buf bp).b_hash_chain ∧
      x.b_lblkno = (s.buf bp).b_lblkno ∧ x.b_rvp = (s.buf bp).b_rvp ∧ x.list = (s.buf bp).list)
    (hy : y.b_vp = (s.buf tp).b_vp ∧ y.b_hash_chain = (s.buf tp).b_hash_chain ∧
      y.b_lblkno = (s.buf tp).b_lblkno ∧ y.b_rvp = (s.buf tp).b_rvp ∧ y.list = (s.buf tp).list) :
    Lists k mem ((s.setBuf bp x).setBuf tp y) := by
  obtain ⟨hxv, hxc, hxl, hxr, hxlist⟩ := hx
  obtain ⟨hyv, hyc, hyl, hyr, hylist⟩ := hy
  have hsame : (s.setBuf bp x).buf tp = s.buf tp := setBuf_of_ne hne.symm
  refine ⟨(h.free.setBuf_locked hbp).setBuf_locked htp, (h.hashed.setBuf hxv hxc hxl).setBuf ?_ ?_ ?_,
    (h.listed.setBuf hxlist ?_).setBuf ?_ ?_, h.counted, h.backed.move hne hpages hxsize hysize⟩
  · rw [hsame, hyv]
  · rw [hsame, hyc]
  · rw [hsame, hyl]
  · rw [hxv, hxr]
    exact h.listed.both bp
  · rw [hsame, hylist]
  · rw [hyv, hyr]
    exact h.listed.both tp

end Lists

section Steps

variable [DecidableEq T]

theorem Inv.allocated (h : Inv k mem s) {q : Pc B V} (hpc : s.pc a = q) (hq : ∀ b, q.role b = .held)
    (hqi : ∀ b, ¬q.Intr b) (hown : s.owner tp = some a) (hc : c.Ok s tp) : Inv k mem (s.allocated a tp size c) := by
  have hlists : Lists k mem (s.setBuf tp { s.buf tp with b_bcount := size }) :=
    h.lists.setBuf ⟨rfl, rfl, rfl, rfl, rfl, rfl, rfl⟩
  refine h.change hpc hown (fun b _ => hq b) (fun b _ => After.role_pc c size) (h.noIntr hpc hqi) rfl
    rfl rfl rfl rfl rfl (fun _ _ => id) hlists.setPc (fun hok => ?_) fun _ _ ho hbuf => ?_
  · rw [hq] at hok
    rw [After.role_pc]
    exact hok
  · cases c with
    | ret => trivial
    | getblk vp blkno =>
      refine ⟨ho, ?_⟩
      rw [hbuf]
      exact ⟨hc.1, hc.2, rfl⟩

theorem Inv.allocStep (h : Inv k mem s) (hpc : s.pc a = .alloc tp size c)
    (hs : s.allocStep k a tp size c choice = some s') : Inv k mem s' := by
  have hpok : (Pc.alloc tp size c).Ok k s a := hpc ▸ h.pcs a
  obtain ⟨hown, hc⟩ := hpok
  have hdone : Inv k mem (s.allocated a tp size c) := h.allocated hpc (fun _ => rfl) (fun _ => id) hown hc
  unfold State.allocStep at hs
  by_cases heq : k.round_page size = (s.buf tp).b_bufsize
  · rw [if_pos heq, some_inj] at hs
    exact hs ▸ hdone
  rw [if_neg heq] at hs
  by_cases hless : k.round_page size < (s.buf tp).b_bufsize
  · rw [if_pos hless] at hs
    cases choice with
    | none => exact some_inj.mp hs ▸ hdone
    | some ep =>
      dsimp only at hs
      obtain ⟨hno, hs⟩ := ite_none_left_eq_some.mp hs
      rw [some_inj] at hs
      obtain ⟨hfree, hmem⟩ := not_or.mp hno
      rw [not_not] at hfree hmem
      have hne : tp ≠ ep := by
        rintro rfl
        cases hfree.symm.trans hown
      -- an empty buffer has no pages that could be lost
      have hempty : (s.buf ep).pages = [] := by
        obtain ⟨w, hplaced, -, hsize⟩ := h.lists.free
        have hzero := (hsize ep hfree).mp ((hplaced.mem _ ep).mp hmem)
        rw [h.lists.backed.size, Nat.mul_eq_zero] at hzero
        exact length_eq_zero_iff.mp (hzero.resolve_left k.page_pos.ne')
      have hsize := h.lists.backed.size tp
      rw [hsize] at hless
      obtain ⟨htake, hdrop⟩ := shrink_size hless
      let t := s.buf tp
      let e := s.buf ep
      let e' : Buf V H := { e with
        pages := t.pages.drop (k.round_page size / k.page_size)
        b_bufsize := t.b_bufsize - k.round_page size
        b_flags := { e.b_flags with B_INVAL := true }
        b_bcount := 0 }
      let t' : Buf V H := { t with
        pages := t.pages.take (k.round_page size / k.page_size)
        b_bufsize := k.round_page size }
      have hok := (h.bufs ep).free hfree
      subst hs
      refine h.pair (p := .brelse ep (.shrunk tp size c)) (x := e') (y := t') hpc (fun _ => rfl)
        (fun _ => id) hne hown (fun d hd => by cases hfree.symm.trans hd) (fun b hb => if_neg hb) rfl
        rfl (fun b hb => update_of_ne hb ..) (update_self ..) rfl rfl rfl
        (fun _ _ => id) (fun _ _ => id) ?_ ?_ id fun ht hbuf => ?_
      · refine (h.lists.acquire.move hne.symm (x := e') (y := t') ?_ ?_ ?_ ?_ ?_
          ⟨rfl, rfl, rfl, rfl, rfl⟩ ⟨rfl, rfl, rfl, rfl, rfl⟩).setPc
        · simp [State.lock, State.bremfree]
        · simp [State.lock, State.bremfree, hne, hown]
        · change (t.pages.drop _ ++ t.pages.take _).Perm (e.pages ++ t.pages)
          rw [hempty]
          exact perm_append_comm.trans (by rw [take_append_drop]; rfl)
        · change t.b_bufsize - _ = k.page_size * (t.pages.drop _).length
          rw [length_drop, hsize, hdrop]
        · change k.round_page size = k.page_size * (t.pages.take _).length
          rw [length_take]
          exact htake
      · rw [role_brelse]
        exact ⟨hok.1, fun hinval => by cases hinval⟩
      · refine ⟨update_self .., ht, ?_, hne⟩
        cases c with
        | ret => trivial
        | getblk vp blkno =>
          rw [After.Ok, hbuf]
          exact hc
  · rw [if_neg hless, some_inj] at hs
    subst hs
    exact h.goto hpc (fun _ => id) (fun _ => rfl) (fun _ => rfl) ⟨hown, hc⟩

theorem Inv.growStep (h : Inv k mem s)
    (hpc : s.pc a = .grow tp size c bp) : Inv k mem (s.growStep k a tp size c bp) := by
  have hpok : (Pc.grow tp size c bp).Ok k s a := hpc ▸ h.pcs a
  obtain ⟨htp, hbp, hc, hne⟩ := hpok
  have hrole := (h.bufs bp).role hbp
  rw [hpc] at hrole
  obtain ⟨hio, hasync, hchained⟩ := hrole
  unfold State.growStep
  dsimp only
  have htsize := h.lists.backed.size tp
  have hxsize := h.lists.backed.size bp
  obtain ⟨d, hle, htake, hdiv⟩ := grow_size size (s.buf tp).pages.length (s.buf bp).pages.length
  rw [← htsize, ← hxsize] at htake
  rw [htake, hdiv]
  generalize hn : (s.buf bp).pages.length - d = n
  let x : Buf V H := { s.buf bp with
    pages := (s.buf bp).pages.take n
    b_bufsize := (s.buf bp).b_bufsize - k.page_size * d
    b_bcount := min (s.buf bp).b_bcount ((s.buf bp).b_bufsize - k.page_size * d)
    b_flags := { (s.buf bp).b_flags with
      B_INVAL := (s.buf bp).b_flags.B_INVAL ||
        decide ((s.buf bp).b_bufsize - k.page_size * d = 0) } }
  let y : Buf V H := { s.buf tp with
    pages := (s.buf tp).pages ++ (s.buf bp).pages.drop n
    b_bufsize := (s.buf tp).b_bufsize + k.page_size * d }
  refine h.pair (p := .brelse bp (.alloc tp size c)) (x := x) (y := y) hpc (fun _ => rfl)
    (fun _ => id) hne htp (fun e he => some_inj.mp (he.symm.trans hbp))
    (fun b hb => if_neg hb) rfl rfl (fun b _ => rfl) hbp rfl rfl rfl (fun _ _ => id)
    (fun _ _ => id) ?_ ?_ id fun ht hbuf => ?_
  · refine (h.lists.move hne.symm (x := x) (y := y) ?_ ?_ ?_ ?_ ?_ ⟨rfl, rfl, rfl, rfl, rfl⟩
      ⟨rfl, rfl, rfl, rfl, rfl⟩).setPc
    · rw [hbp]
      exact some_ne_none a
    · rw [htp]
      exact some_ne_none a
    · change ((s.buf bp).pages.take n ++ ((s.buf tp).pages ++ (s.buf bp).pages.drop n)).Perm _
      refine (List.Perm.append_left _ perm_append_comm).trans ?_
      rw [← append_assoc, take_append_drop]
    · change (s.buf bp).b_bufsize - k.page_size * d = k.page_size * ((s.buf bp).pages.take n).length
      rw [length_take, ← hn, Nat.min_eq_left (Nat.sub_le ..), hxsize, Nat.mul_sub]
    · change (s.buf tp).b_bufsize + k.page_size * d =
        k.page_size * ((s.buf tp).pages ++ (s.buf bp).pages.drop n).length
      rw [length_append, length_drop, ← hn, Nat.sub_sub_self hle, htsize, Nat.mul_add]
  · rw [role_brelse]
    exact ⟨hio, fun _ => hchained⟩
  · refine ⟨hbp, ht, ?_, hne⟩
    cases c with
    | ret => trivial
    | getblk vp blkno =>
      rw [After.Ok, hbuf]
      exact hc

end Steps

end Allocating

/-!
## Getting a buffer

The steps of `getblk`, `geteblk` and `getnewbuf` keep the invariant.
-/

section Getting

variable {T B V H : Type} [DecidableEq T] [DecidableEq B] [DecidableEq V] [Fintype B]
variable {k : Config V H} {mem : Multiset ℕ} {s s' : State T B V H} {a : Agent T B}

section Taking

variable {bp : B} {f : Flags} {p : Pc B V}

theorem Inv.take (h : Inv k mem s) {q : Pc B V} (hpc : s.pc a = q) (hq : ∀ b, q.role b = .held)
    (hqi : ∀ b, ¬q.Intr b) (hfree : s.owner bp = none) (hp : ∀ b, b ≠ bp → p.role b = .held)
    (hf : f.B_DELWRI = (s.buf bp).b_flags.B_DELWRI)
    (hok : Role.free.Ok k (s.buf bp) (s.io bp) → (p.role bp).Ok k { s.buf bp with b_flags := f } (s.io bp))
    (hpok : ∀ s' : State T B V H, Older s s' → Same (· ≠ bp) a s s' → s'.owner bp = some a →
      s'.buf bp = { s.buf bp with b_flags := f } → p.Ok k s' a) :
    Inv k mem ((((s.lock bp a).bremfree bp).setFlags bp f).setPc a p) := by
  have ht : Turn a bp p { s.buf bp with b_flags := f } s
      ((((s.lock bp a).bremfree bp).setFlags bp f).setPc a p) := by
    refine ⟨rfl, rfl, fun b hb => update_of_ne hb .., fun _ _ => rfl, fun c hc => ?_,
      fun b _ => ?_, hp, h.noIntr hpc hqi⟩
    · exact nomatch hfree.symm.trans hc
    · rw [hpc, hq]
  have hold : Older s ((((s.lock bp a).bremfree bp).setFlags bp f).setPc a p) :=
    ht.older rfl (fun _ _ hb => hb) fun _ _ _ _ => id
  have hown : ((((s.lock bp a).bremfree bp).setFlags bp f).setPc a p).owner bp = some a := update_self ..
  exact ht.inv h hold (h.lists.acquire.setFlags hf).setPc hown (hok ((h.bufs bp).free hfree))
    (hpok _ hold ht.same hown ht.buf_self)

end Taking

section Getblk

variable {vp : V} {blkno : ℤ} {size : ℕ} {stamp : ℤ} {bp : B} {c : Cont B V}

section

variable (h : Inv k mem s)
include h

theorem Inv.searchStep (hpc : s.pc a = .search vp blkno size) : Inv k mem (s.searchStep k a vp blkno size) := by
  unfold State.searchStep
  cases hfind : (s.bufhash (k.hash vp blkno)).find? fun b => (s.buf b).isFor vp blkno with
  | some bp => exact h.goto hpc (fun _ => id) (fun _ => rfl) (fun _ => rfl) trivial
  | none =>
    refine h.goto hpc (fun _ => id) (fun _ => rfl) (fun _ => rfl)
      ⟨_, le_rfl, rfl, fun _ b hb => ?_⟩
    exact Bool.eq_false_iff.mpr (find?_eq_none.mp hfind b hb)

theorem Inv.lockStep (hpc : s.pc a = .lock vp blkno size bp)
    (hs : s.lockStep a vp blkno size bp = some s') : Inv k mem s' := by
  unfold State.lockStep at hs
  by_cases hown : s.owner bp ≠ none
  · rw [if_pos hown] at hs
    cases hs
  have hfree : s.owner bp = none := not_not.mp hown
  have hvalid := ((h.bufs bp).free hfree).2.2.2
  rw [if_neg hown] at hs
  by_cases hfor : ¬(s.buf bp).isFor vp blkno
  · rw [if_pos hfor, some_inj] at hs
    subst hs
    exact h.goto hpc (fun _ => id) (fun _ => rfl) (fun _ => rfl) trivial
  obtain ⟨hblk, hvp⟩ := of_decide_eq_true (not_not.mp hfor)
  rw [if_neg hfor] at hs
  -- a buffer that nobody holds and that has a vnode is valid
  by_cases hinval : (s.buf bp).b_flags.B_INVAL
  · have hval := hvalid (hvp ▸ some_ne_none vp)
    rw [hinval] at hval
    cases hval
  rw [if_neg hinval] at hs
  by_cases hsize : (s.buf bp).b_bcount ≠ size
  · rw [if_pos hsize, some_inj] at hs
    subst hs
    refine h.take hpc (fun _ => rfl) (fun _ => id) hfree (fun b hb => if_neg hb) rfl (fun hok => ?_)
      fun t _ _ ht _ => ⟨ht, trivial⟩
    rw [role_bwrite]
    exact ⟨hok.1, hok.2.2.1⟩
  · rw [if_neg hsize, some_inj] at hs
    subst hs
    refine h.take hpc (fun _ => rfl) (fun _ => id) hfree (fun _ _ => rfl) rfl
      (fun hok => ⟨hok.1, hok.2.1, hok.2.2.1⟩) fun t _ _ ht hbuf => ⟨ht, ?_⟩
    rw [hbuf]
    exact ⟨hvp, hblk, not_not.mp hsize⟩

theorem Inv.getnewbufStep (hpc : s.pc a = .getnewbuf c) {choice : Option B}
    (hs : s.getnewbufStep a c choice = some s') : Inv k mem s' := by
  cases choice with
  | none => cases hs
  | some bp =>
    unfold State.getnewbufStep at hs
    dsimp only at hs
    by_cases havail : ¬s.Available bp
    · rw [if_pos havail] at hs
      cases hs
    have hfree : s.owner bp = none := (not_not.mp havail).1
    have hcok : c.Ok k s a := by simpa only [hpc, Pc.Ok] using h.pcs a
    have hapart : c.Apart bp := hcok.apart (hfree ▸ (some_ne_none a).symm)
    rw [if_neg havail] at hs
    by_cases hdelwri : (s.buf bp).b_flags.B_DELWRI
    · rw [if_pos hdelwri, some_inj] at hs
      subst hs
      refine h.take hpc (fun _ => rfl) (fun _ => id) hfree (fun b hb => if_neg hb) rfl
        (fun hok => ?_) fun t hold hsame ht _ => ⟨ht, hcok.but hsame hold hapart, hapart⟩
      rw [role_bwrite]
      exact ⟨hok.1, hok.2.2.1⟩
    · rw [if_neg hdelwri, some_inj] at hs
      have ht : Turn a bp (.reset bp c) { s.buf bp with b_hash_chain := none } s s' := by
        rw [← hs]
        refine ⟨rfl, rfl, fun b hb => update_of_ne hb .., fun _ _ => rfl, fun d hd => ?_,
          fun b _ => ?_, fun b hb => if_neg hb, h.noIntr hpc fun _ => id⟩
        · exact nomatch hfree.symm.trans hd
        · rw [hpc]
          rfl
      have hold : Older s s' := by
        refine ht.older (by rw [← hs]; rfl) (fun i b hb => ?_) fun _ _ _ _ => id
        rw [← hs] at hb
        exact mem_of_mem_erase hb
      have hown : s'.owner bp = some a := by
        rw [← hs]
        exact update_self ..
      have hio : s'.io = s.io := by rw [← hs]; rfl
      refine ht.inv h hold ?_ hown ?_ ⟨hown, hcok.but ht.same hold hapart, hapart⟩
      · rw [← hs]
        exact h.lists.acquire.bremhash.setPc
      · rw [role_reset, hio]
        exact ⟨((h.bufs bp).free hfree).1, rfl⟩

theorem Inv.resetStep (hpc : s.pc a = .reset bp c) : Inv k mem (s.resetStep a bp c) := by
  unfold State.resetStep
  have hpok : (Pc.reset bp c).Ok k s a := hpc ▸ h.pcs a
  obtain ⟨hown, hcok, hapart⟩ := hpok
  have hrole := (h.bufs bp).role hown
  rw [hpc, role_reset] at hrole
  obtain ⟨hio, hoff⟩ := hrole
  have hor : s.brelvp bp = (if (s.buf bp).b_vp ≠ none then s.brelvp bp else s) ∨
      s = (if (s.buf bp).b_vp ≠ none then s.brelvp bp else s) ∧ (s.buf bp).b_vp = none := by
    by_cases hvp : (s.buf bp).b_vp ≠ none
    · exact .inl (if_pos hvp).symm
    · exact .inr ⟨(if_neg hvp).symm, not_not.mp hvp⟩
  generalize (if (s.buf bp).b_vp ≠ none then s.brelvp bp else s) = t at hor
  have hd := h.lists.listed.detached hor
  have hlists := h.lists.detached hor
  have hbuf : t.buf bp = { s.buf bp with b_vp := none, b_rvp := none } := by
    rw [hd.buf, update_self]
  -- the buffer is changed to what no list looks at
  have hturn (x : Buf V H) (p : Pc B V) (hp : ∀ b, b ≠ bp → p.role b = .held) :
      Turn a bp p x s ((t.setBuf bp x).setPc a p) := by
    refine ⟨by rw [← hd.pc]; rfl, ?_, fun b _ => by rw [← hd.owner]; rfl,
      fun b _ => by rw [← hd.io]; rfl, fun d ho => some_inj.mp (ho.symm.trans hown),
      fun b hb => ?_, hp, h.noIntr hpc fun _ => id⟩
    · change update t.buf bp x = _
      rw [hd.buf, update_idem]
    · rw [hpc]
      exact if_neg hb
  have hinv (x : Buf V H) (p : Pc B V) (hx : x.Alike (t.buf bp))
      (hp : ∀ b, b ≠ bp → p.role b = .held) (hok : (p.role bp).Ok k x none)
      (hpok : ∀ s' : State T B V H, Older s s' → Same (· ≠ bp) a s s' → s'.owner bp = some a →
        p.Ok k s' a) : Inv k mem ((t.setBuf bp x).setPc a p) := by
    have hold : Older s ((t.setBuf bp x).setPc a p) := by
      refine (hturn x p hp).older (by rw [← hd.stamp]; rfl) (fun i b hb => ?_)
        fun i vp blkno _ hfor => ?_
      · rw [← hd.bufhash]
        exact hb
      · have hvp := (of_decide_eq_true hfor).2
        rw [hx.vp, hbuf] at hvp
        cases hvp
    have hown' : ((t.setBuf bp x).setPc a p).owner bp = some a := by
      rw [← hown, ← hd.owner]
      rfl
    have hio' : ((t.setBuf bp x).setPc a p).io bp = none := by
      rw [← hio, ← hd.io]
      rfl
    refine (hturn x p hp).inv h hold (hlists.setBuf hx).setPc hown' ?_
      (hpok _ hold (hturn x p hp).same hown')
    rwa [hio']
  have halike (f : Flags) (n : ℕ) : Buf.Alike
      { t.buf bp with b_flags := f, b_iocomplete := false, b_bcount := n } (t.buf bp) := by
    refine ⟨rfl, rfl, rfl, rfl, rfl, rfl, ?_⟩
    rw [hbuf]
    rfl
  have hoff' : (t.buf bp).b_hash_chain = none := by
    rw [hbuf]
    exact hoff
  have hchained (x : Buf V H) (hx : x.b_vp = (t.buf bp).b_vp) : x.Chained k := by
    intro vp hvp
    rw [hx, hbuf] at hvp
    cases hvp
  cases c with
  | getblk vp blkno size stamp =>
    refine hinv _ _ (halike Flags.none (t.buf bp).b_bcount) (fun b hb => if_neg hb) ?_
      fun s' hold _ ho => ⟨ho, hcok.older hold⟩
    rw [role_assign]
    exact ⟨rfl, hoff', rfl⟩
  | geteblk size =>
    refine hinv _ _ (halike { Flags.none with B_INVAL := true } 0) (fun b _ => ?_) ?_
      fun s' _ _ ho => ?_
    · split_ifs <;> rfl
    · have hheld : ((if size ≠ 0 then .alloc bp size .ret else .idle : Pc B V)).role bp = .held := by
        split_ifs <;> rfl
      rw [hheld]
      exact ⟨rfl, rfl, hchained _ rfl⟩
    · split_ifs
      · exact ⟨ho, trivial⟩
      · trivial
  | alloc tp size j =>
    refine hinv _ _ (halike Flags.none (t.buf bp).b_bcount) (fun b _ => rfl)
      ⟨rfl, rfl, hchained _ rfl⟩ fun s' _ hsame ho => ?_
    obtain ⟨htp, hj⟩ := hcok
    exact ⟨(hsame tp hapart htp).1, ho, hj.same hsame hapart htp, hapart⟩

theorem Inv.assignStep (hpc : s.pc a = .assign vp blkno size stamp bp)
    (hs : s.assignStep a vp blkno size stamp bp = some s') : Inv k mem s' := by
  have hpok : (Pc.assign vp blkno size stamp bp).Ok k s a := hpc ▸ h.pcs a
  obtain ⟨hown, hstamp⟩ := hpok
  have hrole := (h.bufs bp).role hown
  rw [hpc, role_assign] at hrole
  obtain ⟨hio, hoff, hflags⟩ := hrole
  obtain ⟨t, ht, hs⟩ := map_eq_some_iff.mp hs
  have hlists := h.lists.bgetvp hoff (by rw [hflags]; rfl) ht
  unfold State.bgetvp at ht
  rw [setBuf_self] at ht
  obtain ⟨hpanic, ht⟩ := ite_none_left_eq_some.mp ht
  cases ht
  let x : Buf V H := { s.buf bp with
    b_bcount := 0
    b_lblkno := blkno
    b_vp := some vp
    b_rvp := some vp }
  have hturn : Turn a bp (.insert vp blkno size stamp bp) x s s' := by
    rw [← hs]
    refine ⟨rfl, update_idem .., fun _ _ => rfl, fun _ _ => rfl,
      fun d ho => some_inj.mp (ho.symm.trans hown), fun b hb => ?_, fun b hb => if_neg hb,
      h.noIntr hpc fun _ => id⟩
    rw [hpc]
    exact if_neg hb
  have hold : Older s s' := by
    refine hturn.older (by rw [← hs]; rfl) (fun i b hb => ?_) fun i v n hb _ => ?_
    · rw [← hs] at hb
      exact hb
    · have hchain := (h.lists.hashed.placed.mem i bp).mp hb
      exact nomatch hoff.symm.trans hchain
  have hown' : s'.owner bp = some a := by
    rw [← hs]
    exact hown
  have hio' : s'.io bp = none := by
    rw [← hs]
    exact hio
  refine hturn.inv h hold (hs ▸ hlists.setPc) hown' ?_ ⟨hown', hstamp.older hold, ?_⟩
  · rw [role_insert]
    exact ⟨hio', hoff, hflags⟩
  · rw [hturn.buf_self]
    exact ⟨rfl, rfl, rfl⟩

end

omit [DecidableEq T] [Fintype B] in
theorem older_binshash [DecidableEq H] {i : H} : Older s (s.binshash bp i) := by
  refine ⟨fun j => ?_, fun j hj b hb => ?_⟩
  · by_cases hji : j = i
    · simp [State.binshash, hji]
    · simp [State.binshash, hji]
  · have hji : j ≠ i := by
      rintro rfl
      simp [State.binshash] at hj
    have hmem : b ∈ s.bufhash j := by simpa [State.binshash, hji] using hb
    refine ⟨hmem, fun v n hfor => ?_⟩
    by_cases hbp : b = bp
    · simpa [State.binshash, hbp, Buf.isFor] using hfor
    · simpa [State.binshash, State.setBuf, hbp] using hfor

theorem Inv.insertStep [DecidableEq H] (h : Inv k mem s) (hpc : s.pc a = .insert vp blkno size stamp bp) :
    Inv k mem (s.insertStep k a vp blkno size stamp bp) := by
  have hpok : (Pc.insert vp blkno size stamp bp).Ok k s a := hpc ▸ h.pcs a
  obtain ⟨hown, hstamp, hvp, hblk, hcount⟩ := hpok
  have hrole := (h.bufs bp).role hown
  rw [hpc, role_insert] at hrole
  obtain ⟨hio, hoff, hflags⟩ := hrole
  have hmine (d : Agent T B) (ho : s.owner bp = some d) : d = a := some_inj.mp (ho.symm.trans hown)
  have hbefore (b : B) (hb : b ≠ bp) : (s.pc a).role b = .held := by
    rw [hpc]
    exact if_neg hb
  unfold State.insertStep
  by_cases hagain : stamp ≠ (s.bhd_stamp (k.hash vp blkno) : ℤ) ∧
      ((s.bufhash (k.hash vp blkno)).any fun b => (s.buf b).isFor vp blkno)
  · rw [if_pos hagain]
    let x : Buf V H := { s.buf bp with b_flags := { (s.buf bp).b_flags with B_INVAL := true } }
    have hturn : Turn a bp (.brelse bp (.getblk vp blkno size)) x s
        ((s.setFlags bp { (s.buf bp).b_flags with B_INVAL := true }).setPc a
          (.brelse bp (.getblk vp blkno size))) :=
      ⟨rfl, rfl, fun _ _ => rfl, fun _ _ => rfl, hmine, hbefore, fun b hb => if_neg hb, h.noIntr hpc fun _ => id⟩
    have hlists : Lists k mem (s.setFlags bp x.b_flags) := h.lists.setFlags rfl
    refine hturn.inv h (hturn.older rfl (fun _ _ hb => hb) fun _ _ _ _ => id) hlists.setPc hown ?_
      ⟨hown, trivial⟩
    rw [role_brelse]
    exact ⟨hio, fun hinval => nomatch hinval⟩
  · rw [if_neg hagain]
    -- either the time stamp or the second search says that there is no other
    have hnone : ∀ c ∈ s.bufhash (k.hash vp blkno), (s.buf c).isFor vp blkno = false := by
      by_cases heq : stamp = (s.bhd_stamp (k.hash vp blkno) : ℤ)
      · exact hstamp.none heq
      · intro c hc
        rw [← Bool.not_eq_true]
        intro hfor
        exact hagain ⟨heq, any_eq_true.mpr ⟨c, hc, hfor⟩⟩
    let x : Buf V H := { s.buf bp with b_hash_chain := some (k.hash vp blkno) }
    have hlists := (h.lists.binshash hoff hvp hblk hnone)
    have hchained : x.Chained k := by
      intro v hv
      have hvv : v = vp := some_inj.mp (hv.symm.trans hvp)
      rw [hvv]
      exact hblk ▸ rfl
    generalize hp : (if size ≠ (s.buf bp).b_bcount then .alloc bp size (.getblk vp blkno)
      else .got vp blkno size bp : Pc B V) = p
    have hheld (b : B) : p.role b = .held := by
      rw [← hp]
      split_ifs <;> rfl
    have hturn : Turn a bp p x s ((s.binshash bp (k.hash vp blkno)).setPc a p) :=
      ⟨rfl, rfl, fun _ _ => rfl, fun _ _ => rfl, hmine, hbefore, fun b _ => hheld b, h.noIntr hpc fun _ => id⟩
    have hnew : Older s (s.binshash bp (k.hash vp blkno)) := older_binshash
    have hold : Older s ((s.binshash bp (k.hash vp blkno)).setPc a p) := ⟨hnew.stamp, hnew.chain⟩
    refine hturn.inv h hold hlists.setPc hown ?_ ?_
    · rw [hheld]
      exact ⟨hio, by rw [show x.b_flags = Flags.none from hflags]; rfl, hchained⟩
    · have hself := hturn.buf_self
      subst hp
      split_ifs with hsize
      · rw [if_pos hsize] at hself
        refine ⟨hown, ?_⟩
        rw [After.Ok, hself]
        exact ⟨hvp, hblk⟩
      · rw [if_neg hsize] at hself
        refine ⟨hown, ?_⟩
        rw [hself]
        exact ⟨hvp, hblk, (not_not.mp hsize).symm⟩

end Getblk

end Getting

end Osf1.Bio
