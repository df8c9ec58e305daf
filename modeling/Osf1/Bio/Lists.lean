import Osf1.Bio.Steps
import Osf1.Computation.Queues

/-!
# The lists and the memory of the buffer cache

What holds of the free lists, of the hash chains, of the lists of the vnodes, of the writes that go on
and of the memory, and what each operation on them keeps.
-/

set_option autoImplicit false

namespace Osf1.Bio

open Function Option Finset

open Osf1.Computation.Queues

variable {T B V H : Type}

section Parts

/-- The list of a vnode that a buffer belongs on. -/
def Buf.list (x : Buf V H) : Option (V × Bool) := x.b_rvp.map fun vp => (vp, x.b_flags.B_DELWRI)

/-- A buffer is on one free list if it is not locked, which is the one for buffers without memory if it
has none. -/
def Free (s : State T B V H) : Prop :=
  ∃ w, Placed s.bfreelist w ∧ (∀ b, w b = none ↔ s.owner b ≠ none) ∧
    ∀ b, s.owner b = none → (w b = some .BQ_EMPTY ↔ (s.buf b).b_bufsize = 0)

/-- The hash chains hold the buffers that say so, each where its block belongs, and one for a block. -/
structure Hashed (k : Config V H) (s : State T B V H) : Prop where
  placed : Placed s.bufhash fun b => (s.buf b).b_hash_chain
  home : ∀ b vp h, (s.buf b).b_vp = some vp → (s.buf b).b_hash_chain = some h → h = k.hash vp (s.buf b).b_lblkno
  unique : ∀ b b' vp, (s.buf b).b_vp = some vp → (s.buf b').b_vp = some vp →
    (s.buf b).b_lblkno = (s.buf b').b_lblkno → (s.buf b).b_hash_chain ≠ none →
    (s.buf b').b_hash_chain ≠ none → b = b'

/-- A buffer is on the clean or on the dirty list of its vnode. -/
structure Listed (s : State T B V H) : Prop where
  placed : Placed s.blkhd fun b => (s.buf b).list
  both : ∀ b, (s.buf b).b_vp = none ↔ (s.buf b).b_rvp = none

/-- The writes to a vnode that go on are counted. -/
def Counted [Fintype B] [DecidableEq V] (s : State T B V H) : Prop :=
  ∀ vp, s.v_numoutput vp = (Finset.univ.filter fun b => s.io b = some (.write vp)).card

/-- The memory is divided among the buffers. -/
structure Backed [Fintype B] (k : Config V H) (mem : Multiset ℕ) (s : State T B V H) : Prop where
  total : ∑ b, ((s.buf b).pages : Multiset ℕ) = mem
  size : ∀ b, (s.buf b).b_bufsize = k.page_size * (s.buf b).pages.length

/-- The lists and the memory. -/
structure Lists [Fintype B] [DecidableEq V] (k : Config V H) (mem : Multiset ℕ) (s : State T B V H) :
    Prop where
  free : Free s
  hashed : Hashed k s
  listed : Listed s
  counted : Counted s
  backed : Backed k mem s

end Parts

section Buffers

variable [DecidableEq B] {k : Config V H} {s : State T B V H} {b : B} {x : Buf V H}

@[simp] theorem setBuf_self : (s.setBuf b x).buf b = x := update_self ..

theorem setBuf_of_ne {c : B} (hc : c ≠ b) : (s.setBuf b x).buf c = s.buf c := update_of_ne hc ..

theorem map_setBuf {α : Type} (f : Buf V H → α) (hx : f x = f (s.buf b)) (c : B) :
    f ((s.setBuf b x).buf c) = f (s.buf c) := by
  by_cases hc : c = b
  · rw [hc, setBuf_self, hx]
  · rw [setBuf_of_ne hc]

theorem Free.setBuf (h : Free s) (hsize : x.b_bufsize = (s.buf b).b_bufsize) : Free (s.setBuf b x) := by
  obtain ⟨w, hplaced, howner, hempty⟩ := h
  refine ⟨w, hplaced, howner, fun c hc => ?_⟩
  rw [map_setBuf Buf.b_bufsize hsize]
  exact hempty c hc

theorem Free.setBuf_locked (h : Free s) (howned : s.owner b ≠ none) : Free (s.setBuf b x) := by
  obtain ⟨w, hplaced, howner, hempty⟩ := h
  refine ⟨w, hplaced, howner, fun c hc => ?_⟩
  have hne : c ≠ b := fun heq => howned (heq ▸ hc)
  rw [setBuf_of_ne hne]
  exact hempty c hc

theorem Hashed.setBuf (h : Hashed k s) (hvp : x.b_vp = (s.buf b).b_vp)
    (hchain : x.b_hash_chain = (s.buf b).b_hash_chain)
    (hblk : x.b_lblkno = (s.buf b).b_lblkno) : Hashed k (s.setBuf b x) := by
  have hv := map_setBuf (s := s) Buf.b_vp hvp
  have hc := map_setBuf (s := s) Buf.b_hash_chain hchain
  have hl := map_setBuf (s := s) Buf.b_lblkno hblk
  refine ⟨h.placed.congr hc, fun c vp i => ?_, fun c c' vp => ?_⟩
  · rw [hv, hc, hl]
    exact h.home c vp i
  · rw [hv, hv, hl, hl, hc, hc]
    exact h.unique c c' vp

theorem Hashed.setBuf_off (h : Hashed k s) (hchain : x.b_hash_chain = (s.buf b).b_hash_chain)
    (hoff : x.b_hash_chain = none ∨ x.b_vp = none) : Hashed k (s.setBuf b x) := by
  have hne (c : B) (vp : V) (hv : ((s.setBuf b x).buf c).b_vp = some vp)
      (hc : ((s.setBuf b x).buf c).b_hash_chain ≠ none) : c ≠ b := by
    rintro rfl
    rw [setBuf_self] at hv hc
    rcases hoff with hoff | hoff
    · exact hc hoff
    · exact some_ne_none vp (hv.symm.trans hoff)
  refine ⟨h.placed.congr (map_setBuf Buf.b_hash_chain hchain), fun c vp i hv hc => ?_,
    fun c c' vp hv hv' hl hc hc' => ?_⟩
  · have hcb := hne c vp hv (hc ▸ some_ne_none i)
    rw [setBuf_of_ne hcb] at hv hc ⊢
    exact h.home c vp i hv hc
  · have hcb := hne c vp hv hc
    have hcb' := hne c' vp hv' hc'
    rw [setBuf_of_ne hcb] at hv hl hc
    rw [setBuf_of_ne hcb'] at hv' hl hc'
    exact h.unique c c' vp hv hv' hl hc hc'

theorem Listed.setBuf (h : Listed s) (hlist : x.list = (s.buf b).list)
    (hboth : x.b_vp = none ↔ x.b_rvp = none) : Listed (s.setBuf b x) := by
  refine ⟨h.placed.congr (map_setBuf Buf.list hlist), fun c => ?_⟩
  by_cases hc : c = b
  · rw [hc, setBuf_self]
    exact hboth
  · rw [setBuf_of_ne hc]
    exact h.both c

variable [Fintype B] {mem : Multiset ℕ}

theorem Backed.setBuf (h : Backed k mem s) (hpages : x.pages = (s.buf b).pages)
    (hsize : x.b_bufsize = (s.buf b).b_bufsize) : Backed k mem (s.setBuf b x) := by
  have hp := map_setBuf (s := s) Buf.pages hpages
  refine ⟨?_, fun c => ?_⟩
  · rw [← h.total]
    exact sum_congr rfl fun c _ => by rw [hp]
  · rw [hp, map_setBuf Buf.b_bufsize hsize]
    exact h.size c

theorem Backed.move (h : Backed k mem s) {c : B} {y : Buf V H} (hne : b ≠ c)
    (hpages : (x.pages ++ y.pages).Perm ((s.buf b).pages ++ (s.buf c).pages))
    (hx : x.b_bufsize = k.page_size * x.pages.length) (hy : y.b_bufsize = k.page_size * y.pages.length) :
    Backed k mem ((s.setBuf b x).setBuf c y) := by
  have hbuf (d : B) : ((s.setBuf b x).setBuf c y).buf d =
      if d = c then y else if d = b then x else s.buf d := by
    simp [State.setBuf, update_apply]
  refine ⟨?_, fun d => ?_⟩
  · have hsplit (f : B → Multiset ℕ) :
        ∑ d, f d = f b + f c + ∑ d ∈ (univ.erase b).erase c, f d := by
      rw [add_assoc, add_sum_erase _ _ (mem_erase.mpr ⟨hne.symm, mem_univ c⟩), add_sum_erase _ _ (mem_univ b)]
    rw [← h.total, hsplit, hsplit fun d => ((s.buf d).pages : Multiset ℕ)]
    congr 1
    · rw [hbuf, hbuf, if_pos rfl, if_neg hne, if_pos rfl]
      exact Multiset.coe_eq_coe.mpr hpages
    · refine sum_congr rfl fun d hd => ?_
      rw [mem_erase, mem_erase] at hd
      rw [hbuf, if_neg hd.1, if_neg hd.2.1]
  · rw [hbuf]
    split_ifs
    · exact hy
    · exact hx
    · exact h.size d

end Buffers

section Frame

variable {k : Config V H} {s s' : State T B V H}

theorem Hashed.of_eq (h : Hashed k s) (hbuf : s'.buf = s.buf) (hhash : s'.bufhash = s.bufhash) : Hashed k s' := by
  constructor
  · rw [hhash, hbuf]
    exact h.placed
  · rw [hbuf]
    exact h.home
  · rw [hbuf]
    exact h.unique

theorem Listed.of_eq (h : Listed s) (hbuf : s'.buf = s.buf) (hblkhd : s'.blkhd = s.blkhd) : Listed s' := by
  constructor
  · rw [hblkhd, hbuf]
    exact h.placed
  · rw [hbuf]
    exact h.both

variable [Fintype B] {mem : Multiset ℕ}

theorem Backed.of_eq (h : Backed k mem s) (hbuf : s'.buf = s.buf) : Backed k mem s' := by
  constructor
  · rw [hbuf]
    exact h.total
  · rw [hbuf]
    exact h.size

end Frame

section Locks

variable [DecidableEq B] {s : State T B V H} {b : B} {a : Agent T B}

theorem Free.acquire (h : Free s) : Free ((s.lock b a).bremfree b) := by
  obtain ⟨w, hplaced, howner, hempty⟩ := h
  refine ⟨update w b none, hplaced.remove, fun c => ?_, fun c hc => ?_⟩
  · by_cases hcb : c = b
    · simp [State.lock, State.bremfree, hcb]
    · simpa [State.lock, State.bremfree, hcb] using howner c
  · have hcb : c ≠ b := by
      intro heq
      have hlocked : ((s.lock b a).bremfree b).owner c = some a := by
        simp [State.lock, State.bremfree, heq]
      exact some_ne_none a (hlocked.symm.trans hc)
    have hold : s.owner c = none := (update_of_ne hcb ..).symm.trans hc
    rw [update_of_ne hcb]
    exact hempty c hold

theorem Free.give (h : Free s) (hb : s.owner b ≠ none) : Free (s.lock b a) := by
  obtain ⟨w, hplaced, howner, hempty⟩ := h
  have hiff (c : B) : (s.lock b a).owner c = none ↔ s.owner c = none := by
    by_cases hcb : c = b
    · simp [State.lock, hcb, hb]
    · simp [State.lock, hcb]
  refine ⟨w, hplaced, fun c => ?_, fun c hc => hempty c ((hiff c).mp hc)⟩
  rw [howner c, not_iff_not, hiff c]

theorem Free.release (h : Free s) (hb : s.owner b ≠ none) {q : Queue}
    (hq : q = .BQ_EMPTY ↔ (s.buf b).b_bufsize = 0) (inshead : Bool) : Free ((s.binsfree b q inshead).unlock b) := by
  obtain ⟨w, hplaced, howner, hempty⟩ := h
  have hnone : w b = none := (howner b).mpr hb
  refine ⟨update w b (some q), ?_, fun c => ?_, fun c hc => ?_⟩
  · cases inshead with
    | false => exact hplaced.pushBack hnone
    | true => exact hplaced.pushFront hnone
  · by_cases hcb : c = b
    · simp [State.unlock, State.binsfree, hcb]
    · simpa [State.unlock, State.binsfree, hcb] using howner c
  · by_cases hcb : c = b
    · simpa [State.unlock, State.binsfree, hcb] using hq
    · have hold : s.owner c = none := (update_of_ne hcb ..).symm.trans hc
      rw [update_of_ne hcb]
      exact hempty c hold

end Locks

section Chains

variable [DecidableEq B] {k : Config V H} {s : State T B V H} {b : B}

theorem Hashed.bremhash (h : Hashed k s) : Hashed k (s.bremhash b) := by
  have hself : ((s.bremhash b).buf b).b_hash_chain = none := by simp [State.bremhash]
  have hother (c : B) (hc : c ≠ b) : (s.bremhash b).buf c = s.buf c := setBuf_of_ne hc
  have hne (c : B) (hc : ((s.bremhash b).buf c).b_hash_chain ≠ none) : c ≠ b := by
    rintro rfl
    exact hc hself
  refine ⟨h.placed.remove.congr fun c => ?_, fun c vp i hv hc => ?_, fun c c' vp hv hv' hl hc hc' => ?_⟩
  · by_cases hcb : c = b
    · rw [hcb, hself, update_self]
    · rw [hother c hcb, update_of_ne hcb]
  · have hcb := hne c (hc ▸ some_ne_none i)
    rw [hother c hcb] at hv hc ⊢
    exact h.home c vp i hv hc
  · have hcb := hne c hc
    have hcb' := hne c' hc'
    rw [hother c hcb] at hv hl hc
    rw [hother c' hcb'] at hv' hl hc'
    exact h.unique c c' vp hv hv' hl hc hc'

variable [DecidableEq H]

theorem Hashed.binshash (h : Hashed k s) {vp : V} (hoff : (s.buf b).b_hash_chain = none)
    (hvp : (s.buf b).b_vp = some vp)
    (hnone : ∀ c ∈ s.bufhash (k.hash vp (s.buf b).b_lblkno),
      ¬((s.buf c).b_lblkno = (s.buf b).b_lblkno ∧ (s.buf c).b_vp = some vp)) :
    Hashed k (s.binshash b (k.hash vp (s.buf b).b_lblkno)) := by
  let i := k.hash vp (s.buf b).b_lblkno
  have hself : (s.binshash b i).buf b = { s.buf b with b_hash_chain := some i } := setBuf_self
  have hother (c : B) (hc : c ≠ b) : (s.binshash b i).buf c = s.buf c := setBuf_of_ne hc
  -- another buffer on the chains that is for the block would be on this chain
  have hnot (c : B) (hc : (s.buf c).b_hash_chain ≠ none) (hv : (s.buf c).b_vp = some vp)
      (hl : (s.buf c).b_lblkno = (s.buf b).b_lblkno) : False := by
    obtain ⟨j, hj⟩ := ne_none_iff_exists'.mp hc
    have hmem := (h.placed.mem j c).mpr hj
    rw [h.home c vp j hv hj, hl] at hmem
    exact hnone c hmem ⟨hl, hv⟩
  refine ⟨(h.placed.pushFront hoff).congr fun c => ?_, fun c v j hv hc => ?_, fun c c' v hv hv' hl hc hc' => ?_⟩
  · by_cases hcb : c = b
    · rw [hcb, hself, update_self]
    · rw [hother c hcb, update_of_ne hcb]
  · by_cases hcb : c = b
    · rw [hcb, hself] at hv hc ⊢
      have hvv : v = vp := some_inj.mp (hv.symm.trans hvp)
      rw [hvv]
      exact (some_inj.mp hc).symm
    · rw [hother c hcb] at hv hc ⊢
      exact h.home c v j hv hc
  · by_cases hcb : c = b <;> by_cases hcb' : c' = b
    · rw [hcb, hcb']
    · rw [hcb, hself] at hv hl
      rw [hother c' hcb'] at hv' hl hc'
      have hvv : v = vp := some_inj.mp (hv.symm.trans hvp)
      exact (hnot c' hc' (hvv ▸ hv') hl.symm).elim
    · rw [hcb', hself] at hv' hl
      rw [hother c hcb] at hv hl hc
      have hvv : v = vp := some_inj.mp (hv'.symm.trans hvp)
      exact (hnot c hc (hvv ▸ hv) hl).elim
    · rw [hother c hcb] at hv hl hc
      rw [hother c' hcb'] at hv' hl hc'
      exact h.unique c c' v hv hv' hl hc hc'

end Chains

section Vnodes

variable [DecidableEq B] {s s' : State T B V H} {b : B}

theorem Listed.brelvp (h : Listed s) : Listed (s.brelvp b) := by
  refine ⟨h.placed.remove.congr fun c => ?_, fun c => ?_⟩
  · by_cases hcb : c = b
    · simp [State.brelvp, State.setBuf, hcb, Buf.list]
    · simp [State.brelvp, State.setBuf, hcb, Buf.list]
  · by_cases hcb : c = b
    · simp [State.brelvp, State.setBuf, hcb]
    · simpa [State.brelvp, State.setBuf, hcb] using h.both c

variable [DecidableEq V] {x : Buf V H} {vp : V} {dirty : Bool}

theorem Listed.relist (h : Listed s) (hlist : x.list = some (vp, dirty))
    (hboth : x.b_vp = none ↔ x.b_rvp = none) : Listed ((s.setBuf b x).relist b vp dirty) := by
  refine ⟨(h.placed.remove.pushFront (update_self ..)).congr fun c => ?_, fun c => ?_⟩
  · by_cases hcb : c = b
    · simp [State.relist, State.setBuf, hcb, hlist]
    · simp [State.relist, State.setBuf, hcb]
  · by_cases hcb : c = b
    · simpa [State.relist, State.setBuf, hcb] using hboth
    · simpa [State.relist, State.setBuf, hcb] using h.both c

end Vnodes

section Writes

variable [DecidableEq B] [DecidableEq V] [Fintype B] {s s' : State T B V H} {b : B}

omit [DecidableEq B] in
theorem Counted.congr (h : Counted s) (hnum : s'.v_numoutput = s.v_numoutput)
    (hio : ∀ c vp, s'.io c = some (.write vp) ↔ s.io c = some (.write vp)) : Counted s' := by
  intro vp
  rw [hnum, h vp]
  congr 2
  ext c
  rw [mem_filter_univ, mem_filter_univ, hio]

theorem Counted.start (h : Counted s) (hb : s.io b = none) {vp : V}
    (hnum : s'.v_numoutput = update s.v_numoutput vp (s.v_numoutput vp + 1))
    (hio : s'.io = update s.io b (some (.write vp))) : Counted s' := by
  intro v
  by_cases hv : v = vp
  · have hset : (univ.filter fun c => s'.io c = some (.write v)) =
        insert b (univ.filter fun c => s.io c = some (.write v)) := by
      ext c
      rw [mem_insert, mem_filter_univ, mem_filter_univ, hio]
      by_cases hcb : c = b
      · simp [hcb, hv]
      · simp [hcb]
    rw [hset, card_insert_of_notMem (by simp [hb]), hnum, hv, update_self, h vp]
    rfl
  · rw [hnum, update_of_ne hv, h v]
    congr 2
    ext c
    rw [mem_filter_univ, mem_filter_univ, hio]
    by_cases hcb : c = b
    · simp [hcb, hb, Ne.symm hv]
    · simp [hcb]

theorem Counted.finish (h : Counted s) {vp : V} (hb : s.io b = some (.write vp))
    (hnum : s'.v_numoutput = update s.v_numoutput vp (s.v_numoutput vp - 1))
    (hio : s'.io = update s.io b none) : Counted s' := by
  intro v
  by_cases hv : v = vp
  · have hset : (univ.filter fun c => s'.io c = some (.write v)) =
        (univ.filter fun c => s.io c = some (.write v)).erase b := by
      ext c
      rw [mem_erase, mem_filter_univ, mem_filter_univ, hio]
      by_cases hcb : c = b
      · simp [hcb]
      · simp [hcb]
    have hmem : b ∈ univ.filter fun c => s.io c = some (.write v) := by simp [hb, hv]
    have hcard := card_erase_add_one hmem
    rw [hset, hnum, hv, update_self, h vp, ← hv, ← hcard]
    push_cast
    exact Int.add_sub_cancel ..
  · rw [hnum, update_of_ne hv, h v]
    congr 2
    ext c
    rw [mem_filter_univ, mem_filter_univ, hio]
    by_cases hcb : c = b
    · simp [hcb, hb, Ne.symm hv]
    · simp [hcb]

end Writes

section Combined

variable [DecidableEq B] [DecidableEq V] [Fintype B]
variable {k : Config V H} {mem : Multiset ℕ} {s s' : State T B V H} {b : B} {a : Agent T B} {f : Flags} {blkno : ℤ}
  {v : Option V}

/-- Two contents of a buffer are the same for the lists. -/
structure Buf.Alike (x y : Buf V H) : Prop where
  pages : x.pages = y.pages
  size : x.b_bufsize = y.b_bufsize
  vp : x.b_vp = y.b_vp
  rvp : x.b_rvp = y.b_rvp
  chain : x.b_hash_chain = y.b_hash_chain
  blk : x.b_lblkno = y.b_lblkno
  list : x.list = y.list

section

variable (h : Lists k mem s)
include h

theorem Lists.setBuf {x : Buf V H} (hx : x.Alike (s.buf b)) : Lists k mem (s.setBuf b x) := by
  refine ⟨h.free.setBuf hx.size, h.hashed.setBuf hx.vp hx.chain hx.blk, h.listed.setBuf hx.list ?_,
    h.counted, h.backed.setBuf hx.pages hx.size⟩
  rw [hx.vp, hx.rvp]
  exact h.listed.both b

theorem Lists.setFlags (hf : f.B_DELWRI = (s.buf b).b_flags.B_DELWRI) : Lists k mem (s.setFlags b f) := by
  refine h.setBuf ⟨rfl, rfl, rfl, rfl, rfl, rfl, ?_⟩
  unfold Buf.list
  rw [hf]

omit [DecidableEq B] in
theorem Lists.of_eq (hbuf : s'.buf = s.buf) (howner : s'.owner = s.owner)
    (hfree : s'.bfreelist = s.bfreelist) (hhash : s'.bufhash = s.bufhash)
    (hblkhd : s'.blkhd = s.blkhd) (hnum : s'.v_numoutput = s.v_numoutput) (hio : s'.io = s.io) :
    Lists k mem s' := by
  refine ⟨?_, h.hashed.of_eq hbuf hhash, h.listed.of_eq hbuf hblkhd,
    h.counted.congr hnum fun c vp => by rw [hio], h.backed.of_eq hbuf⟩
  unfold Free
  rw [hbuf, howner, hfree]
  exact h.free

theorem Lists.setPc [DecidableEq T] {p : Pc B V} : Lists k mem (s.setPc a p) :=
  h.of_eq rfl rfl rfl rfl rfl rfl rfl

theorem Lists.acquire : Lists k mem ((s.lock b a).bremfree b) :=
  ⟨h.free.acquire, h.hashed.of_eq rfl rfl, h.listed.of_eq rfl rfl, h.counted, h.backed.of_eq rfl⟩

theorem Lists.give (hb : s.owner b ≠ none) : Lists k mem (s.lock b a) :=
  ⟨h.free.give hb, h.hashed.of_eq rfl rfl, h.listed.of_eq rfl rfl, h.counted, h.backed.of_eq rfl⟩

theorem Lists.release (hb : s.owner b ≠ none) {q : Queue}
    (hq : q = .BQ_EMPTY ↔ (s.buf b).b_bufsize = 0) (inshead : Bool) :
    Lists k mem ((s.binsfree b q inshead).unlock b) :=
  ⟨h.free.release hb hq inshead, h.hashed.of_eq rfl rfl, h.listed.of_eq rfl rfl, h.counted, h.backed.of_eq rfl⟩

theorem Lists.bremhash : Lists k mem (s.bremhash b) := by
  let x : Buf V H := { s.buf b with b_hash_chain := none }
  exact ⟨h.free.setBuf (x := x) rfl, h.hashed.bremhash,
    (h.listed.setBuf (x := x) rfl (h.listed.both b)).of_eq rfl rfl, h.counted,
    (h.backed.setBuf (x := x) rfl rfl).of_eq rfl⟩

theorem Lists.binshash [DecidableEq H] {vp : V}
    (hoff : (s.buf b).b_hash_chain = none) (hvp : (s.buf b).b_vp = some vp) (hblk : (s.buf b).b_lblkno = blkno)
    (hnone : ∀ c ∈ s.bufhash (k.hash vp blkno), (s.buf c).isFor vp blkno = false) :
    Lists k mem (s.binshash b (k.hash vp blkno)) := by
  subst hblk
  let x : Buf V H := { s.buf b with b_hash_chain := some (k.hash vp (s.buf b).b_lblkno) }
  refine ⟨h.free.setBuf (x := x) rfl, h.hashed.binshash hoff hvp fun c hc => ?_,
    (h.listed.setBuf (x := x) rfl (h.listed.both b)).of_eq rfl rfl, h.counted,
    (h.backed.setBuf (x := x) rfl rfl).of_eq rfl⟩
  exact of_decide_eq_false (hnone c hc)

theorem Lists.brelvp : Lists k mem (s.brelvp b) := by
  let x : Buf V H := { s.buf b with b_vp := none, b_rvp := none }
  exact ⟨h.free.setBuf (x := x) rfl, (h.hashed.setBuf_off (x := x) rfl (.inr rfl)).of_eq rfl rfl,
    h.listed.brelvp, h.counted, (h.backed.setBuf (x := x) rfl rfl).of_eq rfl⟩

end

/-- A buffer is disassociated if it has a vnode. -/
structure Detached (b : B) (s s' : State T B V H) : Prop where
  buf : s'.buf = update s.buf b { s.buf b with b_vp := none, b_rvp := none }
  owner : s'.owner = s.owner
  bufhash : s'.bufhash = s.bufhash
  stamp : s'.bhd_stamp = s.bhd_stamp
  io : s'.io = s.io
  pc : s'.pc = s.pc
  bfreelist : s'.bfreelist = s.bfreelist

omit [DecidableEq V] [Fintype B] in
theorem Listed.detached (h : Listed s) (hs : s.brelvp b = s' ∨ s = s' ∧ (s.buf b).b_vp = none) :
    Detached b s s' := by
  obtain rfl | ⟨rfl, hvp⟩ := hs
  · exact ⟨rfl, rfl, rfl, rfl, rfl, rfl, rfl⟩
  · have hrvp := (h.both b).mp hvp
    refine ⟨?_, rfl, rfl, rfl, rfl, rfl, rfl⟩
    have hsame : ({ s.buf b with b_vp := none, b_rvp := none } : Buf V H) = s.buf b := by
      generalize s.buf b = x at hvp hrvp
      cases x
      cases hvp
      cases hrvp
      rfl
    rw [hsame, update_eq_self]

section

variable (h : Lists k mem s)
include h

theorem Lists.detached (hs : s.brelvp b = s' ∨ s = s' ∧ (s.buf b).b_vp = none) : Lists k mem s' := by
  obtain rfl | ⟨rfl, -⟩ := hs
  · exact h.brelvp
  · exact h

theorem Lists.bgetvp {vp : V} {size : ℕ}
    (hoff : (s.buf b).b_hash_chain = none) (hclean : (s.buf b).b_flags.B_DELWRI = false)
    (hs : (s.setBuf b { s.buf b with b_bcount := size, b_lblkno := blkno }).bgetvp vp b = some s') :
    Lists k mem s' := by
  unfold State.bgetvp at hs
  rw [setBuf_self] at hs
  obtain ⟨hpanic, hs⟩ := ite_none_left_eq_some.mp hs
  rw [some_inj] at hs
  let x : Buf V H := { s.buf b with
    b_bcount := size
    b_lblkno := blkno
    b_vp := some vp
    b_rvp := some vp }
  have hx : x.list = some (vp, false) := by simp [Buf.list, x, hclean]
  have hbuf : s' = (s.setBuf b x).relist b vp false := by
    rw [← hs]
    simp [State.setBuf, x]
  rw [hbuf]
  exact ⟨h.free.setBuf (x := x) rfl, (h.hashed.setBuf_off (x := x) rfl (.inl hoff)).of_eq rfl rfl,
    h.listed.relist hx (iff_of_false (some_ne_none vp) (some_ne_none vp)), h.counted,
    (h.backed.setBuf (x := x) rfl rfl).of_eq rfl⟩

theorem Lists.reassignbuf (hvp : (s.buf b).b_vp ≠ none) (hs : (s.setFlags b f).reassignbuf b v = some s') :
    Lists k mem s' := by
  obtain ⟨vp, -, rfl⟩ := map_eq_some_iff.mp hs
  let x : Buf V H := { s.buf b with b_flags := f, b_rvp := some vp }
  have hbuf : ((s.setFlags b f).setBuf b
      { (s.setFlags b f).buf b with b_rvp := some vp }) = s.setBuf b x := by
    simp [State.setFlags, State.setBuf, x]
  have hdirty : ((s.setFlags b f).buf b).b_flags.B_DELWRI = f.B_DELWRI := by
    simp [State.setFlags]
  rw [hbuf, hdirty]
  refine ⟨h.free.setBuf (x := x) rfl, (h.hashed.setBuf (x := x) rfl rfl rfl).of_eq rfl rfl,
    h.listed.relist (x := x) rfl (iff_of_false hvp (some_ne_none vp)), h.counted,
    (h.backed.setBuf (x := x) rfl rfl).of_eq rfl⟩

theorem Lists.reassign (hvp : (s.buf b).b_vp ≠ none) (hs : s.reassignbuf b v = some s') : Lists k mem s' := by
  have hsame : s.setFlags b (s.buf b).b_flags = s := by
    simp [State.setFlags, State.setBuf]
  exact h.reassignbuf (f := (s.buf b).b_flags) hvp (hsame.symm ▸ hs)

omit [DecidableEq B] in
theorem Lists.of_alike (hx : ∀ b, (s'.buf b).Alike (s.buf b))
    (howner : s'.owner = s.owner) (hfree : s'.bfreelist = s.bfreelist)
    (hhash : s'.bufhash = s.bufhash) (hblkhd : s'.blkhd = s.blkhd)
    (hnum : s'.v_numoutput = s.v_numoutput) (hio : s'.io = s.io) : Lists k mem s' := by
  refine ⟨?_, ⟨?_, fun c vp i => ?_, fun c c' vp => ?_⟩, ⟨?_, fun c => ?_⟩,
    h.counted.congr hnum fun c vp => by rw [hio], ⟨?_, fun c => ?_⟩⟩
  · obtain ⟨w, hplaced, hown, hempty⟩ := h.free
    refine ⟨w, hfree ▸ hplaced, fun c => by rw [howner, hown c], fun c hc => ?_⟩
    rw [(hx c).size]
    exact hempty c (howner ▸ hc)
  · rw [hhash]
    exact h.hashed.placed.congr fun c => (hx c).chain
  · rw [(hx c).vp, (hx c).chain, (hx c).blk]
    exact h.hashed.home c vp i
  · rw [(hx c).vp, (hx c).chain, (hx c).blk, (hx c').vp, (hx c').chain, (hx c').blk]
    exact h.hashed.unique c c' vp
  · rw [hblkhd]
    exact h.listed.placed.congr fun c => (hx c).list
  · rw [(hx c).vp, (hx c).rvp]
    exact h.listed.both c
  · rw [← h.backed.total]
    exact sum_congr rfl fun c _ => by rw [(hx c).pages]
  · rw [(hx c).size, (hx c).pages]
    exact h.backed.size c

theorem Lists.start (hb : s.io b = none) (vp : V) :
    Lists k mem { s with
      v_numoutput := update s.v_numoutput vp (s.v_numoutput vp + 1)
      io := update s.io b (some (.write vp)) } :=
  ⟨h.free, h.hashed.of_eq rfl rfl, h.listed.of_eq rfl rfl, h.counted.start hb rfl rfl, h.backed.of_eq rfl⟩

theorem Lists.startRead (hb : s.io b = none) : Lists k mem { s with io := update s.io b (some .read) } := by
  refine ⟨h.free, h.hashed.of_eq rfl rfl, h.listed.of_eq rfl rfl,
    h.counted.congr rfl fun c vp => ?_, h.backed.of_eq rfl⟩
  by_cases hcb : c = b
  · simp [hcb, hb]
  · simp [hcb]

theorem Lists.finish {vp : V} (hb : s.io b = some (.write vp)) :
    Lists k mem { s with
      io := update s.io b none
      v_numoutput := update s.v_numoutput vp (s.v_numoutput vp - 1) } :=
  ⟨h.free, h.hashed.of_eq rfl rfl, h.listed.of_eq rfl rfl, h.counted.finish hb rfl rfl, h.backed.of_eq rfl⟩

theorem Lists.finishRead (hb : s.io b = some .read) : Lists k mem { s with io := update s.io b none } := by
  refine ⟨h.free, h.hashed.of_eq rfl rfl, h.listed.of_eq rfl rfl,
    h.counted.congr rfl fun c vp => ?_, h.backed.of_eq rfl⟩
  by_cases hcb : c = b
  · simp [hcb, hb]
  · simp [hcb]

end

end Combined

end Osf1.Bio
