import Osf1.Bio.Lists

/-!
# Invariants of the buffer cache

What holds of a buffer in each place where its holder can be, what holds where a thread or an interrupt
is, and how a step that touches some buffers only keeps the rest.
-/

set_option autoImplicit false

namespace Osf1.Bio

open Function List

variable {T B V H : Type}

section Buffers

variable [DecidableEq B]

/-- What the holder of a buffer does with it. -/
inductive Role where
  | held
  | reset
  | assign
  | insert
  | write
  | output
  | wait
  | read
  | io
  | release
  | free
deriving DecidableEq

def Pc.role (b : B) : Pc B V → Role
  | reset bp _ => if b = bp then .reset else .held
  | assign _ _ _ _ bp => if b = bp then .assign else .held
  | insert _ _ _ _ bp => if b = bp then .insert else .held
  | bwrite bp _ => if b = bp then .write else .held
  | output bp _ => if b = bp then .output else .held
  | io bp => if b = bp then .io else .held
  | biowait bp _ => if b = bp then .wait else .held
  | breadwait bp => if b = bp then .read else .held
  | brelse bp _ => if b = bp then .release else .held
  | free bp _ _ _ _ => if b = bp then .free else .held
  | _ => .held

section Role

variable {V : Type} {bp : B} {vp : V} {blkno : ℤ} {size : ℕ} {stamp : ℤ} {n : Next B V} {c : Cont B V}
variable {q : Queue} {inshead had_error : Bool}

@[simp] theorem role_reset : (Pc.reset bp c).role bp = .reset := if_pos rfl

@[simp] theorem role_assign : (Pc.assign vp blkno size stamp bp).role bp = .assign := if_pos rfl

@[simp] theorem role_insert : (Pc.insert vp blkno size stamp bp).role bp = .insert := if_pos rfl

@[simp] theorem role_bwrite : (Pc.bwrite bp n).role bp = .write := if_pos rfl

@[simp] theorem role_output : (Pc.output bp n).role bp = .output := if_pos rfl

@[simp] theorem role_io : (Pc.io bp : Pc B V).role bp = .io := if_pos rfl

@[simp] theorem role_biowait : (Pc.biowait bp n).role bp = .wait := if_pos rfl

@[simp] theorem role_breadwait : (Pc.breadwait bp : Pc B V).role bp = .read := if_pos rfl

@[simp] theorem role_brelse : (Pc.brelse bp n).role bp = .release := if_pos rfl

@[simp] theorem role_free : (Pc.free bp q inshead had_error n).role bp = .free := if_pos rfl

theorem role_driver {b : B} {p : Pc B V} (h : p.role b = .wait ∨ p.role b = .read ∨ p.role b = .io) :
    (∃ n, p = .biowait b n) ∨ p = .breadwait b ∨ p = .io b := by
  cases p with
  | biowait bp n =>
    by_cases hb : b = bp
    · exact .inl ⟨n, by rw [hb]⟩
    · simp [Pc.role, hb] at h
  | breadwait bp =>
    by_cases hb : b = bp
    · exact .inr (.inl (by rw [hb]))
    · simp [Pc.role, hb] at h
  | io bp =>
    by_cases hb : b = bp
    · exact .inr (.inr (by rw [hb]))
    · simp [Pc.role, hb] at h
  | reset bp c =>
    by_cases hb : b = bp <;> simp [Pc.role, hb] at h
  | assign vp blkno size stamp bp =>
    by_cases hb : b = bp <;> simp [Pc.role, hb] at h
  | insert vp blkno size stamp bp =>
    by_cases hb : b = bp <;> simp [Pc.role, hb] at h
  | bwrite bp n =>
    by_cases hb : b = bp <;> simp [Pc.role, hb] at h
  | output bp n =>
    by_cases hb : b = bp <;> simp [Pc.role, hb] at h
  | brelse bp n =>
    by_cases hb : b = bp <;> simp [Pc.role, hb] at h
  | free bp q inshead had_error n =>
    by_cases hb : b = bp <;> simp [Pc.role, hb] at h
  | _ => simp [Pc.role] at h

end Role

/-- A buffer with a vnode is on the hash chain of its block. -/
def Buf.Chained (k : Config V H) (x : Buf V H) : Prop :=
  ∀ vp, x.b_vp = some vp → x.b_hash_chain = some (k.hash vp x.b_lblkno)

/-- A buffer with a vnode is valid. -/
def Buf.Valid (x : Buf V H) : Prop := x.b_vp ≠ none → x.b_flags.B_INVAL = false

/-- The driver reads into a buffer or writes it to its vnode, and is not done with it. -/
structure Buf.Busy (x : Buf V H) (io : Option (Io V)) : Prop where
  read : io = some .read → x.b_flags.B_READ = true
  write : ∀ vp, io = some (.write vp) → x.b_flags.B_READ = false ∧ x.b_vp = some vp
  running : io ≠ none → x.b_iocomplete = false

/-- What holds of a buffer that is held. -/
def Role.Ok (k : Config V H) (x : Buf V H) (driver : Option (Io V)) : Role → Prop
  | .held => driver = none ∧ x.b_flags.B_ASYNC = false ∧ x.Chained k
  | .reset => driver = none ∧ x.b_hash_chain = none
  | .assign => driver = none ∧ x.b_hash_chain = none ∧ x.b_flags = Flags.none
  | .insert => driver = none ∧ x.b_hash_chain = none ∧ x.b_flags = Flags.none
  | .write => driver = none ∧ x.Chained k
  | .output => driver = none ∧ x.Chained k ∧ x.b_flags.B_READ = false
  | .wait => x.b_flags.B_ASYNC = false ∧ x.Chained k ∧ x.Busy driver
  | .read => x.b_flags.B_ASYNC = false ∧ x.Chained k ∧ x.Busy driver
  | .io => x.b_flags.B_ASYNC = true ∧ x.Chained k ∧ x.Busy driver
  | .release => driver = none ∧ (x.b_flags.B_INVAL = false → x.Chained k)
  | .free => driver = none ∧ x.b_flags.B_ASYNC = false ∧ x.Chained k ∧ x.Valid

/-- What holds of a buffer. -/
def BufOk (k : Config V H) (s : State T B V H) (b : B) : Prop :=
  match s.owner b with
  | none => Role.free.Ok k (s.buf b) (s.io b)
  | some a => ((s.pc a).role b).Ok k (s.buf b) (s.io b)

end Buffers

section Places

variable [DecidableEq B] [DecidableEq V] (k : Config V H) (s : State T B V H) (a : Agent T B)

/-- The time stamp has been taken when there was no buffer for the block on its hash chain, and if there
is none newer then there is still none. -/
def StampOk (vp : V) (blkno : ℤ) (stamp : ℤ) : Prop :=
  ∃ n ≤ s.bhd_stamp (k.hash vp blkno), stamp = int n ∧ (n = s.bhd_stamp (k.hash vp blkno) →
    ∀ b ∈ s.bufhash (k.hash vp blkno), (s.buf b).isFor vp blkno = false)

def After.Ok (tp : B) : After V → Prop
  | ret => True
  | getblk vp blkno => (s.buf tp).b_vp = some vp ∧ (s.buf tp).b_lblkno = blkno

def Cont.Ok : Cont B V → Prop
  | getblk vp blkno _ stamp => StampOk k s vp blkno stamp
  | geteblk _ => True
  | alloc tp _ c => s.owner tp = some a ∧ c.Ok s tp

/-- The buffer is not the one that memory is wanted for. -/
def Cont.Apart (b : B) : Cont B V → Prop
  | alloc tp _ _ => tp ≠ b
  | _ => True

def Next.Ok (b : B) : Next B V → Prop
  | getnewbuf c => c.Ok k s a ∧ c.Apart b
  | alloc tp _ c => s.owner tp = some a ∧ c.Ok s tp ∧ tp ≠ b
  | shrunk tp _ c => s.owner tp = some a ∧ c.Ok s tp ∧ tp ≠ b
  | _ => True

/-- What holds where a thread or an interrupt is. -/
def Pc.Ok : Pc B V → Prop
  | getnewbuf c => c.Ok k s a
  | reset bp c => s.owner bp = some a ∧ c.Ok k s a ∧ c.Apart bp
  | assign vp blkno _ stamp bp => s.owner bp = some a ∧ StampOk k s vp blkno stamp
  | insert vp blkno _ stamp bp => s.owner bp = some a ∧ StampOk k s vp blkno stamp ∧
      (s.buf bp).b_vp = some vp ∧ (s.buf bp).b_lblkno = blkno ∧ (s.buf bp).b_bcount = 0
  | got vp blkno size bp => s.owner bp = some a ∧
      (s.buf bp).b_vp = some vp ∧ (s.buf bp).b_lblkno = blkno ∧ (s.buf bp).b_bcount = size
  | alloc tp _ c => s.owner tp = some a ∧ c.Ok s tp
  | grow tp _ c bp => s.owner tp = some a ∧ s.owner bp = some a ∧ c.Ok s tp ∧ tp ≠ bp
  | shrunk tp _ c => s.owner tp = some a ∧ c.Ok s tp
  | bwrite bp n => s.owner bp = some a ∧ n.Ok k s a bp
  | output bp n => s.owner bp = some a ∧ n.Ok k s a bp
  | io bp => s.owner bp = some a ∧ a = .intr bp
  | biowait bp n => s.owner bp = some a ∧ n.Ok k s a bp
  | breadwait bp => s.owner bp = some a
  | brelse bp n => s.owner bp = some a ∧ n.Ok k s a bp
  | free bp q _ _ n => s.owner bp = some a ∧ n.Ok k s a bp ∧ (q = .BQ_EMPTY ↔ (s.buf bp).b_bufsize = 0)
  | _ => True

/-- What the completion of the I/O on a buffer does. -/
def Pc.Intr (b : B) : Pc B V → Prop
  | idle => True
  | io bp => bp = b
  | brelse bp n => bp = b ∧ n = .ret
  | free bp _ _ _ n => bp = b ∧ n = .ret
  | _ => False

end Places

/-- What holds in every state. -/
structure Inv [DecidableEq B] [DecidableEq V] [Fintype B] (k : Config V H) (mem : Multiset ℕ)
    (s : State T B V H) : Prop where
  lists : Lists k mem s
  bufs : ∀ b, BufOk k s b
  pcs : ∀ a, (s.pc a).Ok k s a
  intr : ∀ b, (s.pc (.intr b)).Intr b

section Frame

variable [DecidableEq V] {k : Config V H} {s s' : State T B V H} {a : Agent T B}

/-- A hash chain that has no new time stamp has no new buffers. -/
structure Older (s s' : State T B V H) : Prop where
  stamp : ∀ h, s.bhd_stamp h ≤ s'.bhd_stamp h
  chain : ∀ h, s'.bhd_stamp h = s.bhd_stamp h → ∀ b ∈ s'.bufhash h, b ∈ s.bufhash h ∧
    ∀ vp blkno, (s'.buf b).isFor vp blkno = true → (s.buf b).isFor vp blkno = true

theorem StampOk.older (h : Older s s') {vp : V} {blkno : ℤ} {stamp : ℤ}
    (hs : StampOk k s vp blkno stamp) : StampOk k s' vp blkno stamp := by
  obtain ⟨n, hle, hint, hnone⟩ := hs
  refine ⟨n, hle.trans (h.stamp _), hint, fun heq b hb => ?_⟩
  have hsame : s'.bhd_stamp (k.hash vp blkno) = s.bhd_stamp (k.hash vp blkno) := le_antisymm (heq ▸ hle) (h.stamp _)
  obtain ⟨hold, hfor⟩ := h.chain _ hsame b hb
  rw [← Bool.not_eq_true]
  intro htrue
  have hthen := hfor vp blkno htrue
  rw [hnone (heq.trans hsame) b hold] at hthen
  exact Bool.noConfusion hthen

theorem int_eq {n m : ℕ} (hle : n ≤ m) (h : int n = m) : n = m := by
  have hmod : int n % ((2 ^ 32 : ℕ) : ℤ) = (n : ℤ) % ((2 ^ 32 : ℕ) : ℤ) := Int.bmod_emod
  have hlt : int n < 2 ^ 31 := Int.bmod_lt (by decide)
  omega

theorem StampOk.none {vp : V} {blkno stamp : ℤ} (hs : StampOk k s vp blkno stamp)
    (heq : stamp = s.bhd_stamp (k.hash vp blkno)) :
    ∀ b ∈ s.bufhash (k.hash vp blkno), (s.buf b).isFor vp blkno = false := by
  obtain ⟨n, hle, hint, hnone⟩ := hs
  exact hnone (int_eq hle (hint.symm.trans heq))

/-- What an agent holds of some buffers stays as it is. -/
def Same (p : B → Prop) (a : Agent T B) (s s' : State T B V H) : Prop :=
  ∀ b, p b → s.owner b = some a → s'.owner b = some a ∧ s'.buf b = s.buf b

variable {p : B → Prop}

omit [DecidableEq V] in
theorem After.Ok.same (h : Same p a s s') {tp : B} (hp : p tp) (htp : s.owner tp = some a)
    {c : After V} (hc : c.Ok s tp) : c.Ok s' tp := by
  cases c with
  | ret => trivial
  | getblk vp blkno => rwa [After.Ok, (h tp hp htp).2]

theorem Cont.Ok.same (h : Same p a s s') (ho : Older s s') {c : Cont B V}
    (hp : ∀ tp size k, c = .alloc tp size k → p tp) (hc : c.Ok k s a) : c.Ok k s' a := by
  cases c with
  | getblk vp blkno size stamp => exact StampOk.older ho hc
  | geteblk size => trivial
  | alloc tp size c =>
    have hkeep := hp tp size c rfl
    exact ⟨(h tp hkeep hc.1).1, hc.2.same h hkeep hc.1⟩

theorem Cont.Ok.but {b : B} (h : Same (· ≠ b) a s s') (ho : Older s s') {c : Cont B V}
    (hb : c.Apart b) (hc : c.Ok k s a) : c.Ok k s' a := by
  refine hc.same h ho ?_
  rintro tp size j rfl
  exact hb

theorem Cont.Ok.apart {b : B} {c : Cont B V} (hc : c.Ok k s a) (hb : s.owner b ≠ some a) : c.Apart b := by
  cases c with
  | alloc tp size j =>
    rintro rfl
    exact hb hc.1
  | _ => trivial

theorem Next.Ok.same {b : B} (h : Same (· ≠ b) a s s') (ho : Older s s') {n : Next B V}
    (hn : n.Ok k s a b) : n.Ok k s' a b := by
  cases n with
  | getnewbuf c => exact ⟨hn.1.but h ho hn.2, hn.2⟩
  | alloc tp size c => exact ⟨(h tp hn.2.2 hn.1).1, hn.2.1.same h hn.2.2 hn.1, hn.2.2⟩
  | shrunk tp size c => exact ⟨(h tp hn.2.2 hn.1).1, hn.2.1.same h hn.2.2 hn.1, hn.2.2⟩
  | _ => trivial

theorem Next.Ok.pc {b : B} {n : Next B V} (hn : n.Ok k s a b) : n.pc.Ok k s a := by
  cases n with
  | getnewbuf c => exact hn.1
  | alloc tp size c => exact ⟨hn.1, hn.2.1⟩
  | shrunk tp size c => exact ⟨hn.1, hn.2.1⟩
  | _ => trivial

theorem Pc.Ok.same (h : Same (fun _ => True) a s s') (ho : Older s s') {p : Pc B V}
    (hp : p.Ok k s a) : p.Ok k s' a := by
  have hbut (b : B) : Same (· ≠ b) a s s' := fun c _ => h c trivial
  cases p with
  | getnewbuf c => exact Cont.Ok.same h ho (fun _ _ _ _ => trivial) hp
  | reset bp c =>
    exact ⟨(h bp trivial hp.1).1, hp.2.1.same h ho fun _ _ _ _ => trivial, hp.2.2⟩
  | assign vp blkno size stamp bp => exact ⟨(h bp trivial hp.1).1, hp.2.older ho⟩
  | insert vp blkno size stamp bp =>
    obtain ⟨howner, hbuf⟩ := h bp trivial hp.1
    exact ⟨howner, hp.2.1.older ho, hbuf ▸ hp.2.2⟩
  | got vp blkno size bp =>
    obtain ⟨howner, hbuf⟩ := h bp trivial hp.1
    exact ⟨howner, hbuf ▸ hp.2⟩
  | alloc tp size c => exact ⟨(h tp trivial hp.1).1, hp.2.same h trivial hp.1⟩
  | grow tp size c bp =>
    exact ⟨(h tp trivial hp.1).1, (h bp trivial hp.2.1).1, hp.2.2.1.same h trivial hp.1, hp.2.2.2⟩
  | shrunk tp size c => exact ⟨(h tp trivial hp.1).1, hp.2.same h trivial hp.1⟩
  | bwrite bp n => exact ⟨(h bp trivial hp.1).1, hp.2.same (hbut bp) ho⟩
  | output bp n => exact ⟨(h bp trivial hp.1).1, hp.2.same (hbut bp) ho⟩
  | io bp => exact ⟨(h bp trivial hp.1).1, hp.2⟩
  | biowait bp n => exact ⟨(h bp trivial hp.1).1, hp.2.same (hbut bp) ho⟩
  | breadwait bp => exact (h bp trivial hp).1
  | brelse bp n => exact ⟨(h bp trivial hp.1).1, hp.2.same (hbut bp) ho⟩
  | free bp q inshead had_error n =>
    obtain ⟨howner, hbuf⟩ := h bp trivial hp.1
    exact ⟨howner, hp.2.1.same (hbut bp) ho, hbuf ▸ hp.2.2⟩
  | _ => trivial

variable [DecidableEq B] {l : List (Agent T B)} {bs : Set B}

/-- A step of some agents that touches some buffers only, which are theirs or nobody's. -/
structure Local (l : List (Agent T B)) (bs : Set B) (s s' : State T B V H) : Prop where
  pc : ∀ a, a ∉ l → s'.pc a = s.pc a
  rest : ∀ b, b ∉ bs → s'.buf b = s.buf b ∧ s'.owner b = s.owner b ∧ s'.io b = s.io b
  mine : ∀ b ∈ bs, ∀ a, s.owner b = some a → a ∈ l
  role : ∀ b, b ∉ bs → ∀ a ∈ l, s.owner b = some a → (s.pc a).role b = .held ∧ (s'.pc a).role b = .held
  older : Older s s'

theorem Local.same (h : Local l bs s s') (ha : a ∉ l) : Same (fun _ => True) a s s' := by
  intro b _ hb
  have hnot : b ∉ bs := fun hmem => ha (h.mine b hmem a hb)
  obtain ⟨hbuf, howner, -⟩ := h.rest b hnot
  exact ⟨howner.trans hb, hbuf⟩

theorem Inv.local [Fintype B] {mem : Multiset ℕ} (h : Inv k mem s) (hl : Local l bs s s') (hlists : Lists k mem s')
    (hbufs : ∀ b ∈ bs, BufOk k s' b) (hpcs : ∀ a ∈ l, (s'.pc a).Ok k s' a)
    (hintr : ∀ b, Agent.intr b ∈ l → (s'.pc (.intr b)).Intr b) : Inv k mem s' := by
  refine ⟨hlists, fun b => ?_, fun a => ?_, fun b => ?_⟩
  · by_cases hb : b ∈ bs
    · exact hbufs b hb
    · obtain ⟨hbuf, howner, hio⟩ := hl.rest b hb
      have hold := h.bufs b
      unfold BufOk at hold ⊢
      rw [howner, hbuf, hio]
      generalize hown : s.owner b = w at hold
      cases w with
      | none =>
        exact hold
      | some a =>
        dsimp only at hold ⊢
        by_cases ha : a ∈ l
        · obtain ⟨h₁, h₂⟩ := hl.role b hb a ha hown
          rwa [h₂, ← h₁]
        · rwa [hl.pc a ha]
  · by_cases ha : a ∈ l
    · exact hpcs a ha
    · rw [hl.pc a ha]
      exact (h.pcs a).same (hl.same ha) hl.older
  · by_cases hb : Agent.intr b ∈ l
    · exact hintr b hb
    · rw [hl.pc _ hb]
      exact h.intr b

end Frame

section Turns

variable [DecidableEq B] {k : Config V H} {s s' : State T B V H} {a : Agent T B} {b bp : B}

theorem BufOk.of_owner (ho : s.owner b = some a)
    (hok : ((s.pc a).role b).Ok k (s.buf b) (s.io b)) : BufOk k s b := by
  unfold BufOk
  rw [ho]
  exact hok

theorem BufOk.role (h : BufOk k s b) (ho : s.owner b = some a) : ((s.pc a).role b).Ok k (s.buf b) (s.io b) := by
  unfold BufOk at h
  rwa [ho] at h

theorem BufOk.free (h : BufOk k s b) (ho : s.owner b = none) : Role.free.Ok k (s.buf b) (s.io b) := by
  unfold BufOk at h
  rwa [ho] at h

@[simp] theorem Next.role_pc (n : Next B V) : n.pc.role b = .held := by cases n <;> rfl

@[simp] theorem After.role_pc (c : After V) (size : ℕ) : (c.pc bp size).role b = .held := by
  cases c <;> rfl

variable [DecidableEq T] {p : Pc B V} {x : Buf V H}

/-- A thread or an interrupt goes on after it has changed a buffer, which it then holds. -/
structure Turn (a : Agent T B) (bp : B) (p : Pc B V) (x : Buf V H) (s s' : State T B V H) :
    Prop where
  pc : s'.pc = update s.pc a p
  buf : s'.buf = update s.buf bp x
  owner : ∀ b, b ≠ bp → s'.owner b = s.owner b
  io : ∀ b, b ≠ bp → s'.io b = s.io b
  mine : ∀ c, s.owner bp = some c → c = a
  before : ∀ b, b ≠ bp → (s.pc a).role b = .held
  after : ∀ b, b ≠ bp → p.role b = .held
  intr : ∀ b, a = .intr b → p.Intr b

theorem Turn.buf_self (h : Turn a bp p x s s') : s'.buf bp = x := by
  rw [h.buf, update_self]

theorem Turn.buf_of_ne (h : Turn a bp p x s s') (hb : b ≠ bp) : s'.buf b = s.buf b := by
  rw [h.buf, update_of_ne hb]

theorem Turn.pc_self (h : Turn a bp p x s s') : s'.pc a = p := by
  rw [h.pc, update_self]

theorem Turn.same (ht : Turn a bp p x s s') : Same (· ≠ bp) a s s' :=
  fun b hb ho => ⟨(ht.owner b hb).trans ho, ht.buf_of_ne hb⟩

theorem Turn.older [DecidableEq V] (h : Turn a bp p x s s') (hstamp : s'.bhd_stamp = s.bhd_stamp)
    (hchain : ∀ i, ∀ b ∈ s'.bufhash i, b ∈ s.bufhash i)
    (hfor : ∀ i vp blkno, bp ∈ s.bufhash i → x.isFor vp blkno = true →
      (s.buf bp).isFor vp blkno = true) : Older s s' := by
  refine ⟨fun i => ?_, fun i _ b hb => ⟨hchain i b hb, fun vp blkno htrue => ?_⟩⟩
  · rw [hstamp]
  · by_cases hbp : b = bp
    · rw [hbp, h.buf_self] at htrue
      rw [hbp] at hb ⊢
      exact hfor i vp blkno (hchain i bp hb) htrue
    · rwa [h.buf_of_ne hbp] at htrue

variable [DecidableEq V] {y : Buf V H}

omit [DecidableEq T] [DecidableEq V] in
theorem update_of_update {z : Buf V H} (h : s'.buf = update s.buf bp z) :
    update s'.buf bp y = update s.buf bp y := by
  rw [h, update_idem]

theorem Turn.local (h : Turn a bp p x s s') (hold : Older s s') : Local [a] {bp} s s' := by
  refine ⟨fun c hc => ?_, fun b hb => ?_, fun b hb c hc => ?_, fun b hb c hc _ => ?_, hold⟩
  · rw [h.pc, update_of_ne (ne_of_not_mem_cons hc)]
  · exact ⟨h.buf_of_ne hb, h.owner b hb, h.io b hb⟩
  · exact mem_singleton.mpr (h.mine c (hb ▸ hc))
  · rw [mem_singleton.mp hc, h.pc_self]
    exact ⟨h.before b hb, h.after b hb⟩

variable [Fintype B] {mem : Multiset ℕ}

theorem Turn.inv (ht : Turn a bp p x s s') (h : Inv k mem s) (hold : Older s s')
    (hlists : Lists k mem s') (hown : s'.owner bp = some a) (hok : (p.role bp).Ok k x (s'.io bp))
    (hp : p.Ok k s' a) : Inv k mem s' := by
  refine h.local (ht.local hold) hlists (fun b hb => ?_) (fun c hc => ?_) fun b hb => ?_
  · rw [Set.mem_singleton_iff.mp hb]
    refine BufOk.of_owner hown ?_
    rwa [ht.pc_self, ht.buf_self]
  · rw [mem_singleton.mp hc, ht.pc_self]
    exact hp
  · rw [mem_singleton.mp hb, ht.pc_self]
    exact ht.intr b (mem_singleton.mp hb).symm

section

variable (h : Inv k mem s)
include h

omit [DecidableEq T] in
theorem Inv.ne_intr {q : Pc B V} (hpc : s.pc a = q) (hq : ∀ b, ¬q.Intr b) (b : B) : a ≠ .intr b := by
  rintro rfl
  have hintr := h.intr b
  rw [hpc] at hintr
  exact hq b hintr

omit [DecidableEq T] in
theorem Inv.noIntr {q : Pc B V} (hpc : s.pc a = q) (hq : ∀ b, ¬q.Intr b) (b : B) (ha : a = .intr b) : p.Intr b :=
  (h.ne_intr hpc hq b ha).elim

/-- A buffer that is held is changed. -/
theorem Inv.change {q : Pc B V} (hpc : s.pc a = q) (hown : s.owner bp = some a)
    (hbefore : ∀ b, b ≠ bp → q.role b = .held) (hafter : ∀ b, b ≠ bp → p.role b = .held)
    (hintr : ∀ b, a = .intr b → p.Intr b) (hpcs : s'.pc = update s.pc a p)
    (hbuf : s'.buf = update s.buf bp x) (howner : s'.owner = s.owner) (hio : s'.io = s.io)
    (hstamp : s'.bhd_stamp = s.bhd_stamp) (hhash : s'.bufhash = s.bufhash)
    (hfor : ∀ vp blkno, x.isFor vp blkno = true → (s.buf bp).isFor vp blkno = true) (hlists : Lists k mem s')
    (hok : (q.role bp).Ok k (s.buf bp) (s.io bp) → (p.role bp).Ok k x (s.io bp))
    (hp : Older s s' → Same (· ≠ bp) a s s' → s'.owner bp = some a → s'.buf bp = x → p.Ok k s' a) :
    Inv k mem s' := by
  have hturn : Turn a bp p x s s' := by
    refine ⟨hpcs, hbuf, fun b _ => by rw [howner], fun b _ => by rw [hio], fun d ho => ?_,
      fun b hb => ?_, hafter, hintr⟩
    · exact Option.some_inj.mp (ho.symm.trans hown)
    · rw [hpc]
      exact hbefore b hb
  have hold : Older s s' := by
    refine hturn.older hstamp (fun i b hb => ?_) fun _ vp blkno _ => hfor vp blkno
    rwa [← hhash]
  have hown' : s'.owner bp = some a := by rw [howner, hown]
  have hrole := (h.bufs bp).role hown
  rw [hpc] at hrole
  refine hturn.inv h hold hlists hown' ?_ (hp hold hturn.same hown' hturn.buf_self)
  rw [hio]
  exact hok hrole

omit [DecidableEq T] in
theorem Inv.intr_idle (hown : s.owner bp = some a) (ha : ∀ b, a ≠ .intr b) : s.pc (.intr bp) = .idle := by
  have hintr := h.intr bp
  have hno (ho : s.owner bp = some (.intr bp)) : False := ha bp (Option.some_inj.mp (hown.symm.trans ho))
  have hpok := h.pcs (.intr bp)
  cases hpc : s.pc (.intr bp) with
  | idle => rfl
  | io b =>
    rw [hpc] at hintr hpok
    exact (hno (hintr ▸ hpok.1)).elim
  | brelse b n =>
    rw [hpc] at hintr hpok
    exact (hno (hintr.1 ▸ hpok.1)).elim
  | free b q inshead had_error n =>
    rw [hpc] at hintr hpok
    exact (hno (hintr.1 ▸ hpok.1)).elim
  | _ =>
    rw [hpc] at hintr
    exact hintr.elim

/-- A buffer that is held is given to the driver, and the thread goes on. -/
theorem Inv.giveAway {q : Pc B V} (hpc : s.pc a = q) (hown : s.owner bp = some a)
    (ha : ∀ b, a ≠ .intr b) (hbefore : ∀ b, b ≠ bp → q.role b = .held) (hafter : ∀ b, p.role b = .held)
    (hpcs : s'.pc = update (update s.pc (.intr bp) (.io bp)) a p) (hbuf : s'.buf = update s.buf bp x)
    (howner : s'.owner = update s.owner bp (some (.intr bp)))
    (hio : ∀ b, b ≠ bp → s'.io b = s.io b) (hstamp : s'.bhd_stamp = s.bhd_stamp) (hhash : s'.bufhash = s.bufhash)
    (hfor : ∀ vp blkno, x.isFor vp blkno = true → (s.buf bp).isFor vp blkno = true)
    (hlists : Lists k mem s') (hok : Role.io.Ok k x (s'.io bp))
    (hp : Older s s' → Same (· ≠ bp) a s s' → p.Ok k s' a) : Inv k mem s' := by
  have hself : s'.pc a = p := by rw [hpcs, update_self]
  have hintr : s'.pc (.intr bp) = .io bp := by
    rw [hpcs, update_of_ne (ha bp).symm, update_self]
  have hbp : s'.buf bp = x := by rw [hbuf, update_self]
  have hown' : s'.owner bp = some (.intr bp) := by rw [howner, update_self]
  have hidle := h.intr_idle hown ha
  have hrest (b : B) (hb : b ≠ bp) :
      s'.buf b = s.buf b ∧ s'.owner b = s.owner b ∧ s'.io b = s.io b := by
    refine ⟨?_, ?_, hio b hb⟩
    · rw [hbuf, update_of_ne hb]
    · rw [howner, update_of_ne hb]
  have hold : Older s s' := by
    refine ⟨fun i => by rw [hstamp], fun i _ b hb => ⟨by rwa [← hhash], fun vp blkno htrue => ?_⟩⟩
    by_cases hbb : b = bp
    · rw [hbb, hbp] at htrue
      rw [hbb]
      exact hfor vp blkno htrue
    · rwa [(hrest b hbb).1] at htrue
  have hlocal : Local [a, .intr bp] {bp} s s' := by
    refine ⟨fun c hc => ?_, hrest, fun b hb c hc => ?_, fun b hb c hc _ => ?_, hold⟩
    · rw [mem_cons, mem_singleton, not_or] at hc
      rw [hpcs, update_of_ne hc.1, update_of_ne hc.2]
    · have hca : c = a := Option.some_inj.mp ((hb ▸ hc).symm.trans hown)
      rw [hca]
      exact mem_cons_self ..
    · rw [mem_cons, mem_singleton] at hc
      rcases hc with hc | hc
      · rw [hc, hself, hpc]
        exact ⟨hbefore b hb, hafter b⟩
      · rw [hc, hintr, hidle]
        exact ⟨rfl, if_neg hb⟩
  refine h.local hlocal hlists (fun b hb => ?_) (fun c hc => ?_) fun b hb => ?_
  · rw [Set.mem_singleton_iff.mp hb]
    refine BufOk.of_owner hown' ?_
    rw [hintr, hbp, role_io]
    exact hok
  · rw [mem_cons, mem_singleton] at hc
    rcases hc with hc | hc
    · rw [hc, hself]
      exact hp hold fun b hb ho => ⟨(hrest b hb).2.1.trans ho, (hrest b hb).1⟩
    · rw [hc, hintr]
      exact ⟨hown', rfl⟩
  · rw [mem_cons, mem_singleton] at hb
    have hbb : b = bp := Agent.intr.inj (hb.resolve_left (ha b).symm)
    rw [hbb, hintr]
    rfl

/-- Two buffers are changed, one that is held and one that is held then. -/
theorem Inv.pair {q : Pc B V} {tp : B} (hpc : s.pc a = q)
    (hq : ∀ b, q.role b = .held) (hqi : ∀ b, ¬q.Intr b) (hne : tp ≠ bp)
    (htp : s.owner tp = some a) (hbp : ∀ c, s.owner bp = some c → c = a)
    (hafter : ∀ b, b ≠ bp → p.role b = .held) (hpcs : s'.pc = update s.pc a p) (hbuf : s'.buf = update (update s.buf bp x) tp y)
    (howner : ∀ b, b ≠ bp → s'.owner b = s.owner b) (hown : s'.owner bp = some a)
    (hio : s'.io = s.io) (hstamp : s'.bhd_stamp = s.bhd_stamp) (hhash : s'.bufhash = s.bufhash)
    (hx : ∀ vp blkno, x.isFor vp blkno = true → (s.buf bp).isFor vp blkno = true)
    (hy : ∀ vp blkno, y.isFor vp blkno = true → (s.buf tp).isFor vp blkno = true)
    (hlists : Lists k mem s') (hokx : (p.role bp).Ok k x (s.io bp))
    (hoky : Role.held.Ok k (s.buf tp) (s.io tp) → Role.held.Ok k y (s.io tp))
    (hp : s'.owner tp = some a → s'.buf tp = y → p.Ok k s' a) : Inv k mem s' := by
  have htp' : s'.buf tp = y := by rw [hbuf, update_self]
  have hbp' : s'.buf bp = x := by rw [hbuf, update_of_ne hne.symm, update_self]
  have hrest (b : B) (ht : b ≠ tp) (hb : b ≠ bp) : s'.buf b = s.buf b := by
    rw [hbuf, update_of_ne ht, update_of_ne hb]
  have hself : s'.pc a = p := by rw [hpcs, update_self]
  have hown₂ : s'.owner tp = some a := by rw [howner tp hne, htp]
  have hold : Older s s' := by
    refine ⟨fun i => by rw [hstamp], fun i _ b hb => ⟨by rwa [← hhash], fun vp blkno hfor => ?_⟩⟩
    by_cases ht : b = tp
    · rw [ht, htp'] at hfor
      rw [ht]
      exact hy vp blkno hfor
    · by_cases hb : b = bp
      · rw [hb, hbp'] at hfor
        rw [hb]
        exact hx vp blkno hfor
      · rwa [hrest b ht hb] at hfor
  have hlocal : Local [a] {tp, bp} s s' := by
    refine ⟨fun c hc => ?_, fun b hb => ?_, fun b hb c hc => ?_, fun b hb c hc _ => ?_, hold⟩
    · rw [hpcs, update_of_ne (ne_of_not_mem_cons hc)]
    · rw [Set.mem_insert_iff, Set.mem_singleton_iff, not_or] at hb
      exact ⟨hrest b hb.1 hb.2, howner b hb.2, by rw [hio]⟩
    · rw [mem_singleton]
      rcases hb with hb | hb
      · exact Option.some_inj.mp ((hb ▸ hc).symm.trans htp)
      · exact hbp c (hb ▸ hc)
    · rw [Set.mem_insert_iff, Set.mem_singleton_iff, not_or] at hb
      rw [mem_singleton.mp hc, hself, hpc]
      exact ⟨hq b, hafter b hb.2⟩
  refine h.local hlocal hlists (fun b hb => ?_) (fun c hc => ?_) fun b hb => ?_
  · rw [Set.mem_insert_iff, Set.mem_singleton_iff] at hb
    rcases hb with hb | hb
    · rw [hb]
      refine BufOk.of_owner hown₂ ?_
      have hrole := (h.bufs tp).role htp
      rw [hpc, hq] at hrole
      rw [hself, hafter tp hne, htp', hio]
      exact hoky hrole
    · rw [hb]
      refine BufOk.of_owner hown ?_
      rwa [hself, hbp', hio]
  · rw [mem_singleton.mp hc, hself]
    exact hp hown₂ htp'
  · rw [mem_singleton.mp hb, hself]
    exact h.noIntr hpc hqi b (mem_singleton.mp hb).symm

theorem Inv.setPc (hintr : ∀ b, a = .intr b → p.Intr b)
    (hbefore : ∀ b, (s.pc a).role b = .held) (hafter : ∀ b, p.role b = .held) (hp : p.Ok k s a) :
    Inv k mem (s.setPc a p) := by
  have hself : (s.setPc a p).pc a = p := update_self ..
  have hold : Older s (s.setPc a p) := ⟨fun _ => le_rfl, fun _ _ b hb => ⟨hb, fun _ _ => id⟩⟩
  have hsame : Same (fun _ => True) a s (s.setPc a p) := fun b _ hb => ⟨hb, rfl⟩
  refine h.local (l := [a]) ⟨fun c hc => ?_, fun b _ => ⟨rfl, rfl, rfl⟩,
    fun b (hb : b ∈ (∅ : Set B)) => hb.elim, fun b _ c hc _ => ?_, hold⟩ h.lists.setPc
    (fun b hb => hb.elim) (fun c hc => ?_) fun b hb => ?_
  · exact update_of_ne (ne_of_not_mem_cons hc) ..
  · rw [mem_singleton.mp hc, hself]
    exact ⟨hbefore b, hafter b⟩
  · rw [mem_singleton.mp hc, hself]
    exact hp.same hsame hold
  · rw [mem_singleton.mp hb, hself]
    exact hintr b (mem_singleton.mp hb).symm

theorem Inv.goto {q : Pc B V} (hpc : s.pc a = q) (hq : ∀ b, ¬q.Intr b)
    (hbefore : ∀ b, q.role b = .held) (hafter : ∀ b, p.role b = .held) (hp : p.Ok k s a) :
    Inv k mem (s.setPc a p) :=
  h.setPc (h.noIntr hpc hq) (fun b => hpc ▸ hbefore b) hafter hp

end

end Turns

end Osf1.Bio
