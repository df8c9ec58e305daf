import Osf1.Bio.Calls

/-!
# The buffer cache as a system

Where the cache starts, and what holds in every state that it reaches: a block has one buffer, `getblk`
returns that buffer locked, and the lists and the memory are consistent.
-/

set_option autoImplicit false

namespace Osf1.Bio

open Function List Option

section System

open Osf1.Computation Osf1.Computation.Queues

variable {T V H : Type}

section Start

variable (k : Config V H) (nbuf bufpages : ℕ)

/-- The pages of a buffer at the start.  SRC: arch/alpha/startup.c:378-379 and
vfs/vfs_bio.c:1699-1720 -/
def startPages (i : Fin nbuf) : List ℕ :=
  let bufpages := min bufpages (nbuf * (MAXBSIZE / k.page_size))
  let base := bufpages / nbuf
  let residual := bufpages % nbuf
  (List.range (if i < residual then base + 1 else base)).map fun j =>
    i * (MAXBSIZE / k.page_size) + j

/-- The buffers are released one after the other.  SRC: vfs/vfs_bio.c:1680-1726 -/
def bio_init : State T (Fin nbuf) V H where
  buf i :=
    { b_flags := { Flags.none with B_INVAL := true }
      b_bcount := 0
      b_bufsize := k.page_size * (startPages k nbuf bufpages i).length
      b_lblkno := 0
      b_vp := none
      b_rvp := none
      b_hash_chain := none
      b_iocomplete := false
      pages := startPages k nbuf bufpages i }
  owner _ := none
  bfreelist q := (List.finRange nbuf).reverse.filter fun i =>
    q = if startPages k nbuf bufpages i = [] then .BQ_EMPTY else .BQ_AGE
  bufhash _ := []
  bhd_stamp _ := 0
  blkhd _ := []
  v_numoutput _ := 0
  vioerror _ := false
  io _ := none
  pc _ := .idle

/-- The cache. -/
def cache [DecidableEq T] [DecidableEq V] [DecidableEq H] : System (State T (Fin nbuf) V H) (Event T (Fin nbuf) V) :=
  System.ofFun (bio_init k nbuf bufpages) (step k)

end Start

variable {k : Config V H} {nbuf bufpages : ℕ} {s : State T (Fin nbuf) V H}

section Invariant

theorem startPages_length (i : Fin nbuf) : (startPages k nbuf bufpages i).length ≤ MAXBSIZE / k.page_size := by
  unfold startPages
  rw [length_map, length_range]
  generalize MAXBSIZE / k.page_size = m
  have hle : min bufpages (nbuf * m) ≤ nbuf * m := Nat.min_le_right ..
  generalize min bufpages (nbuf * m) = n at hle
  have hdiv := Nat.div_add_mod n nbuf
  split_ifs with hi
  · refine Nat.lt_of_mul_lt_mul_left (a := nbuf) ?_
    omega
  · exact Nat.div_le_of_le_mul hle

theorem startPages_disjoint {i j : Fin nbuf} {p : ℕ} (hi : p ∈ startPages k nbuf bufpages i)
    (hj : p ∈ startPages k nbuf bufpages j) : i = j := by
  have hval (i : Fin nbuf) (hi : p ∈ startPages k nbuf bufpages i) :
      p / (MAXBSIZE / k.page_size) = i := by
    have hlen : (startPages k nbuf bufpages i).length ≤ MAXBSIZE / k.page_size := startPages_length i
    unfold startPages at hi hlen
    rw [length_map, length_range] at hlen
    obtain ⟨n, hn, rfl⟩ := mem_map.mp hi
    have hlt := (mem_range.mp hn).trans_le hlen
    rw [Nat.mul_comm, Nat.mul_add_div (Nat.zero_lt_of_lt hlt), Nat.div_eq_of_lt hlt, Nat.add_zero]
  exact Fin.ext ((hval i hi).symm.trans (hval j hj))

theorem startPages_nodup (i : Fin nbuf) : (startPages k nbuf bufpages i).Nodup :=
  nodup_range.map fun _ _ => Nat.add_left_cancel

/-- All the memory that there is. -/
def memory (k : Config V H) (nbuf bufpages : ℕ) : Multiset ℕ := ∑ i, (startPages k nbuf bufpages i : Multiset ℕ)

theorem memory_nodup : (memory k nbuf bufpages).Nodup := by
  rw [Multiset.nodup_iff_count_le_one]
  intro p
  unfold memory
  rw [Multiset.count_sum']
  by_cases hp : ∃ i, p ∈ startPages k nbuf bufpages i
  · obtain ⟨i, hi⟩ := hp
    rw [Finset.sum_eq_single i]
    · exact Multiset.nodup_iff_count_le_one.mp (Multiset.coe_nodup.mpr (startPages_nodup i)) p
    · intro j _ hj
      rw [Multiset.count_eq_zero]
      intro hmem
      exact hj (startPages_disjoint hmem hi)
    · intro hno
      exact (hno (Finset.mem_univ i)).elim
  · rw [Finset.sum_eq_zero]
    · exact Nat.zero_le 1
    · intro i _
      rw [Multiset.count_eq_zero]
      intro hmem
      exact hp ⟨i, hmem⟩

variable [DecidableEq T] [DecidableEq V] [DecidableEq H]

omit [DecidableEq T] [DecidableEq H] in
theorem inv_init : Inv k (memory k nbuf bufpages) (bio_init k nbuf bufpages : State T (Fin nbuf) V H) := by
  refine ⟨⟨?_, ?_, ?_, ?_, ?_⟩, fun b => ?_, fun a => trivial, fun b => trivial⟩
  · refine ⟨fun i => some (if startPages k nbuf bufpages i = [] then .BQ_EMPTY else .BQ_AGE),
      ⟨fun q => ?_, fun q i => ?_⟩, fun i => ?_, fun i _ => ?_⟩
    · exact (nodup_reverse.mpr (nodup_finRange nbuf)).filter _
    · simp only [bio_init, mem_filter, mem_reverse, mem_finRange, true_and, decide_eq_true_eq, some_inj]
      exact eq_comm
    · simp [bio_init]
    · simp [bio_init, k.page_pos.ne', length_eq_zero_iff]
  · exact ⟨placed_empty, fun b vp h hv => (nomatch hv), fun b b' vp hv => nomatch hv⟩
  · exact ⟨placed_empty, fun b => Iff.rfl⟩
  · intro vp
    simp [bio_init]
  · exact ⟨rfl, fun b => rfl⟩
  · exact ⟨rfl, rfl, fun vp hv => (nomatch hv), fun hv => (hv rfl).elim⟩

theorem inv_reachable (h : (cache k nbuf bufpages).Reachable s) : Inv k (memory k nbuf bufpages) s := by
  apply h.invariant
  · rintro s rfl
    exact inv_init
  · intro s e t _ hs hstep
    exact hs.step hstep

end Invariant

section Buffers

variable {B : Type} {k : Config V H} {s : State T B V H} {a : Agent T B} {b : B}

/-- The buffers that are worked on at a place. -/
def Cont.buffers : Cont B V → List B
  | getblk _ _ _ _ => []
  | geteblk _ => []
  | alloc tp _ _ => [tp]

def Next.buffers : Next B V → List B
  | getnewbuf c => c.buffers
  | alloc tp _ _ => [tp]
  | shrunk tp _ _ => [tp]
  | _ => []

def Pc.buffers : Pc B V → List B
  | idle => []
  | search _ _ _ => []
  | lock _ _ _ _ => []
  | getnewbuf c => c.buffers
  | reset bp c => bp :: c.buffers
  | assign _ _ _ _ bp => [bp]
  | insert _ _ _ _ bp => [bp]
  | got _ _ _ bp => [bp]
  | alloc tp _ _ => [tp]
  | grow tp _ _ bp => [tp, bp]
  | shrunk tp _ _ => [tp]
  | bwrite bp n => bp :: n.buffers
  | output bp n => bp :: n.buffers
  | io bp => [bp]
  | biowait bp n => bp :: n.buffers
  | breadwait bp => [bp]
  | brelse bp n => bp :: n.buffers
  | free bp _ _ _ n => bp :: n.buffers
  | vflush _ _ => []
  | vwait _ => []
  | vinval _ _ _ _ => []
  | vlock _ _ _ _ _ => []
  | vdone _ _ => []

theorem Cont.Ok.owner [DecidableEq V] {c : Cont B V} (h : c.Ok k s a) (hb : b ∈ c.buffers) : s.owner b = some a := by
  cases c with
  | alloc tp size j =>
    rw [mem_singleton.mp hb]
    exact h.1
  | _ => cases hb

theorem Next.Ok.owner [DecidableEq V] {n : Next B V} {bp : B} (h : n.Ok k s a bp) (hb : b ∈ n.buffers) : s.owner b = some a := by
  cases n with
  | getnewbuf c => exact h.1.owner hb
  | alloc tp size j =>
    rw [mem_singleton.mp hb]
    exact h.1
  | shrunk tp size j =>
    rw [mem_singleton.mp hb]
    exact h.1
  | _ => cases hb

theorem Pc.Ok.owner [DecidableEq V] {p : Pc B V} (h : p.Ok k s a) (hb : b ∈ p.buffers) : s.owner b = some a := by
  have hcons {bp : B} {l : List B} (hbp : s.owner bp = some a)
      (hl : b ∈ l → s.owner b = some a) (hmem : b ∈ bp :: l) : s.owner b = some a := by
    rcases mem_cons.mp hmem with heq | hrest
    · rwa [heq]
    · exact hl hrest
  have hone {bp : B} (hbp : s.owner bp = some a) (hmem : b ∈ [bp]) : s.owner b = some a := by
    rwa [mem_singleton.mp hmem]
  cases p with
  | getnewbuf c => exact Cont.Ok.owner h hb
  | reset bp c => exact hcons h.1 h.2.1.owner hb
  | assign vp blkno size stamp bp => exact hone h.1 hb
  | insert vp blkno size stamp bp => exact hone h.1 hb
  | got vp blkno size bp => exact hone h.1 hb
  | alloc tp size c => exact hone h.1 hb
  | grow tp size c bp => exact hcons h.1 (hone h.2.1) hb
  | shrunk tp size c => exact hone h.1 hb
  | bwrite bp n => exact hcons h.1 h.2.owner hb
  | output bp n => exact hcons h.1 h.2.owner hb
  | io bp => exact hone h.1 hb
  | biowait bp n => exact hcons h.1 h.2.owner hb
  | breadwait bp => exact hone h hb
  | brelse bp n => exact hcons h.1 h.2.owner hb
  | free bp q inshead had_error n => exact hcons h.1 h.2.1.owner hb
  | _ => cases hb

end Buffers

section Results

variable [DecidableEq T] [DecidableEq V] [DecidableEq H]

/-- A block has at most one buffer; who works on a buffer has locked it; and `getblk` returns the buffer that
has been asked for, locked and on no free list. -/
theorem getblk_unique (h : (cache k nbuf bufpages).Reachable s) :
    (∀ vp blkno b b' i j, b ∈ s.bufhash i → b' ∈ s.bufhash j → (s.buf b).isFor vp blkno = true →
      (s.buf b').isFor vp blkno = true → b = b' ∧ i = j ∧ (s.bufhash i).Nodup) ∧
    (∀ a b, b ∈ (s.pc a).buffers → s.owner b = some a ∧ ∀ c, b ∈ (s.pc c).buffers → c = a) ∧
    ∀ a vp blkno size bp, s.pc a = .got vp blkno size bp → s.owner bp = some a ∧
      (∀ q, bp ∉ s.bfreelist q) ∧ (s.buf bp).b_vp = some vp ∧ (s.buf bp).b_lblkno = blkno ∧
      (s.buf bp).b_bcount = size := by
  have hinv := inv_reachable h
  refine ⟨fun vp blkno b b' i j hb hb' hfor hfor' => ?_, fun a b hb => ?_, fun a vp blkno size bp hpc => ?_⟩
  · obtain ⟨hblk, hvp⟩ := of_decide_eq_true hfor
    obtain ⟨hblk', hvp'⟩ := of_decide_eq_true hfor'
    have hi := (hinv.lists.hashed.placed.mem i b).mp hb
    have hj := (hinv.lists.hashed.placed.mem j b').mp hb'
    have heq := hinv.lists.hashed.unique b b' vp hvp hvp' (hblk.trans hblk'.symm)
      (ne_of_eq_of_ne hi (some_ne_none i)) (ne_of_eq_of_ne hj (some_ne_none j))
    refine ⟨heq, ?_, hinv.lists.hashed.placed.nodup i⟩
    rw [← heq, hi] at hj
    exact some_inj.mp hj
  · have hown := (hinv.pcs a).owner hb
    refine ⟨hown, fun c hc => ?_⟩
    exact some_inj.mp (((hinv.pcs c).owner hc).symm.trans hown)
  · have hpok : (Pc.got vp blkno size bp).Ok k s a := hpc ▸ hinv.pcs a
    obtain ⟨hown, hvp, hblk, hcount⟩ := hpok
    obtain ⟨w, hplaced, hw, -⟩ := hinv.lists.free
    refine ⟨hown, fun q => hplaced.notMem ?_, hvp, hblk, hcount⟩
    exact (hw bp).mpr (ne_of_eq_of_ne hown (some_ne_none a))

/-- A machine with a thread, a buffer with a page of 8192 bytes and a vnode. -/
def small : Config Unit Unit where
  hash _ _ := ()
  page_size := 8192
  page_pos := by decide
  tape _ := false

scoped instance buf_pos : NeZero 1 := ⟨by decide⟩

/-- A block is got. -/
def getting (blkno : ℤ) : List (Event Unit (Fin 1) Unit) :=
  .call () (.getblk () blkno 8192) ::
    [none, some 0, none, none, none, none].map (.run (.thread ()))

theorem getblk_unique_getting : ∃ s : State Unit (Fin 1) Unit Unit,
    System.runFrom (step small) (bio_init small 1 1) (getting 5) = some s ∧
      s.owner 0 = some (.thread ()) ∧ (∀ q, 0 ∉ s.bfreelist q) ∧ (s.buf 0).b_vp = some () ∧
      (s.buf 0).b_lblkno = 5 ∧ (s.buf 0).b_bcount = 8192 := by
  have hsome : ((System.runFrom (step small) (bio_init small 1 1) (getting 5)).map fun s =>
      s.pc (.thread ())) = some (.got () 5 8192 0) := by decide
  obtain ⟨s, hs, hpc⟩ := map_eq_some_iff.mp hsome
  exact ⟨s, hs, (getblk_unique (System.reachable_of_runFrom hs)).2.2 _ _ _ _ _ hpc⟩

/-- The lists of the buffers agree with who has locked them and with what they hold, and no page of the memory
gets lost or is in two buffers. -/
theorem lists_consistent (h : (cache k nbuf bufpages).Reachable s) :
    (∀ b, s.owner b = none → ∃! q, b ∈ s.bfreelist q) ∧
    (∀ b, s.owner b = none → (b ∈ s.bfreelist .BQ_EMPTY ↔ (s.buf b).b_bufsize = 0)) ∧ (∀ q, (s.bfreelist q).Nodup) ∧
    (∀ b q, s.owner b ≠ none ∨ s.io b ≠ none → b ∉ s.bfreelist q) ∧
    (∀ b vp, (s.buf b).b_rvp = some vp → ∀ l, b ∈ s.blkhd l ↔ l = (vp, (s.buf b).b_flags.B_DELWRI)) ∧
    (∀ l, (s.blkhd l).Nodup) ∧
    (∀ vp, s.v_numoutput vp = (Finset.univ.filter fun b => s.io b = some (.write vp)).card) ∧
    ∑ b, (s.buf b).b_bufsize = ∑ b, ((bio_init k nbuf bufpages : State T (Fin nbuf) V H).buf b).b_bufsize ∧
    (∀ b, (s.buf b).b_bufsize = k.page_size * (s.buf b).pages.length) ∧
    ∀ b, (s.buf b).pages.Nodup ∧ ∀ p ∈ (s.buf b).pages, ∀ c, p ∈ (s.buf c).pages → c = b := by
  have hinv := inv_reachable h
  obtain ⟨w, hplaced, hw, hempty⟩ := hinv.lists.free
  have hlocked (b : Fin nbuf) (hb : s.owner b ≠ none ∨ s.io b ≠ none) : s.owner b ≠ none := by
    rcases hb with hb | hb
    · exact hb
    · exact fun hfree => hb ((hinv.bufs b).free hfree).1
  have hsize (t : State T (Fin nbuf) V H) (ht : Backed k (memory k nbuf bufpages) t) :
      ∑ b, (t.buf b).b_bufsize = k.page_size * (memory k nbuf bufpages).card := by
    rw [← ht.total, Multiset.card_sum, Finset.mul_sum]
    exact Finset.sum_congr rfl fun b _ => ht.size b
  refine ⟨fun b hb => ?_, fun b hb => ?_, hplaced.nodup, fun b q hb => ?_, fun b vp hb l => ?_,
    hinv.lists.listed.placed.nodup, hinv.lists.counted, ?_, hinv.lists.backed.size, fun b => ⟨?_, ?_⟩⟩
  · obtain ⟨q, hq⟩ := ne_none_iff_exists'.mp (mt (hw b).mp (not_not.mpr hb))
    refine ⟨q, (hplaced.mem q b).mpr hq, fun r hr => ?_⟩
    exact some_inj.mp (((hplaced.mem r b).mp hr).symm.trans hq)
  · rw [hplaced.mem]
    exact hempty b hb
  · exact hplaced.notMem ((hw b).mpr (hlocked b hb))
  · rw [hinv.lists.listed.placed.mem]
    unfold Buf.list
    rw [hb, map_some, some_inj]
    exact eq_comm
  · rw [hsize s hinv.lists.backed, hsize _ inv_init.lists.backed]
  · have hle : ((s.buf b).pages : Multiset ℕ) ≤ memory k nbuf bufpages := by
      rw [← hinv.lists.backed.total]
      exact Finset.single_le_sum (f := fun b => ((s.buf b).pages : Multiset ℕ))
        (fun _ _ => Multiset.zero_le _) (Finset.mem_univ b)
    exact Multiset.coe_nodup.mp (Multiset.nodup_of_le hle memory_nodup)
  · intro p hp c hc
    by_contra hne
    have hle : ((s.buf c).pages : Multiset ℕ) + (s.buf b).pages ≤ memory k nbuf bufpages := by
      rw [← hinv.lists.backed.total, ← Finset.sum_pair (f := fun b => ((s.buf b).pages : Multiset ℕ)) hne]
      exact Finset.sum_le_sum_of_subset (Finset.subset_univ _)
    have hnodup := Multiset.nodup_of_le hle memory_nodup
    exact Multiset.disjoint_left.mp (Multiset.nodup_add.mp hnodup).2.2 hc hp

theorem lists_consistent_getting : ∃ s : State Unit (Fin 1) Unit Unit,
    System.runFrom (step small) (bio_init small 1 1) (getting 5) = some s ∧
      (∀ q, 0 ∉ s.bfreelist q) ∧ 0 ∈ s.blkhd ((), false) := by
  have hsome : ((System.runFrom (step small) (bio_init small 1 1) (getting 5)).map fun s =>
      (s.owner 0, (s.buf 0).b_rvp, (s.buf 0).b_flags.B_DELWRI)) =
        some (some (.thread ()), some (), false) := by decide
  obtain ⟨s, hs, hmap⟩ := map_eq_some_iff.mp hsome
  simp only [Prod.mk.injEq] at hmap
  obtain ⟨howner, hrvp, hdelwri⟩ := hmap
  obtain ⟨-, -, -, hoff, hon, -⟩ := lists_consistent (System.reachable_of_runFrom hs)
  refine ⟨s, hs, fun q => hoff 0 q (.inl ?_), (hon 0 () hrvp _).mpr ?_⟩
  · rw [howner]
    exact some_ne_none _
  · rw [hdelwri]

end Results

end System

/-!
## Delayed writes

What `bdwrite` has marked is owed to the disk.  It is kept in its buffer until it has been written or an
error has been reported, if no buffer that still has the mark of an error is released by a reader or
marked again, and no write fails that `getblk` starts for a buffer of another size.
-/

section Delayed

open Osf1.Computation

section Model

variable {T B V H : Type} [DecidableEq T] [DecidableEq B] [DecidableEq V] [DecidableEq H]

/-- What a buffer holds: for which block, how much, and where in the memory. -/
def Buf.contents (x : Buf V H) : Option (V × ℤ × ℕ × List ℕ) :=
  x.b_vp.map fun vp => (vp, x.b_lblkno, x.b_bcount, x.pages)

/-- The contents that `bdwrite` has marked and that have not been written since. -/
abbrev Owed (B V : Type) := B → Option (V × ℤ × ℕ × List ℕ)

/-- The functions that are called: buffers are not made larger or smaller while they are held, and
`vinvalbuf` saves. -/
def Op.Saving : Op B V → Prop
  | allocbuf _ _ => False
  | vinvalbuf _ save => save = true
  | _ => True

instance : DecidablePred (Op.Saving : Op B V → Prop)
  | .getblk _ _ _ => inferInstanceAs (Decidable True)
  | .geteblk _ => inferInstanceAs (Decidable True)
  | .read _ _ => inferInstanceAs (Decidable True)
  | .bwrite _ => inferInstanceAs (Decidable True)
  | .bawrite _ => inferInstanceAs (Decidable True)
  | .bdwrite _ _ => inferInstanceAs (Decidable True)
  | .brelse _ => inferInstanceAs (Decidable True)
  | .allocbuf _ _ => inferInstanceAs (Decidable False)
  | .vflushbuf _ _ => inferInstanceAs (Decidable True)
  | .vinvalbuf _ save => inferInstanceAs (Decidable (save = true))

/-- `vinvalbuf` has not been able to write a buffer, and marks the vnode for the unmount. -/
def State.GivesUp (s : State T B V H) (bp : B) : Pc B V → Prop
  | .vlock vp save _ list b => b = bp ∧ save = true ∧ (s.blkhd (vp, list)).head? = some bp ∧
      (s.buf bp).b_flags.B_DELWRI = true ∧ (s.buf bp).b_flags.B_ERROR = true
  | _ => False

instance (s : State T B V H) (bp : B) : DecidablePred (s.GivesUp bp)
  | .vlock _ _ _ _ _ => inferInstanceAs (Decidable (_ ∧ _))
  | .idle | .search _ _ _ | .lock _ _ _ _ | .getnewbuf _ | .reset _ _ | .assign _ _ _ _ _
  | .insert _ _ _ _ _ | .got _ _ _ _ | .alloc _ _ _ | .grow _ _ _ _ | .shrunk _ _ _ | .bwrite _ _
  | .output _ _ | .io _ | .biowait _ _ | .breadwait _ | .brelse _ _ | .free _ _ _ _ _ | .vflush _ _
  | .vwait _ | .vinval _ _ _ _ | .vdone _ _ => inferInstanceAs (Decidable False)

/-- What is owed after a step: `bdwrite` marks the contents of a buffer.  A write that has not failed
settles them, and so does the error of a synchronous write that is reported, as the result of `bwrite` and
by the mark on the vnode, or what `vinvalbuf` leaves to the unmount. -/
def State.owe (s : State T B V H) (owed : Owed B V) : Event T B V → Owed B V
  | .call _ (.bdwrite bp _) =>
    if 0 < (s.buf bp).b_bufsize then update owed bp (s.buf bp).contents else owed
  | .done bp error =>
    let f := (s.buf bp).b_flags
    if f.B_READ = false ∧ (error = false ∨ f.B_ASYNC = false ∧ f.B_INVAL = false) then
      update owed bp none
    else owed
  | .run a _ => fun bp => if s.GivesUp bp (s.pc a) then none else owed bp
  | _ => owed

/-- The steps of runs in which the functions above are called. -/
def Event.Saving : Event T B V → Prop
  | call _ op => op.Saving
  | run _ _ => True
  | done _ _ => True

instance : DecidablePred (Event.Saving : Event T B V → Prop)
  | .call _ op => inferInstanceAs (Decidable op.Saving)
  | .run _ _ => inferInstanceAs (Decidable True)
  | .done _ _ => inferInstanceAs (Decidable True)

/-- A step of the cache, with what is owed. -/
def delayedStep (k : Config V H) (s : State T B V H × Owed B V) (e : Event T B V) :
    Option (State T B V H × Owed B V) :=
  if e.Saving then (step k s.1 e).map fun t => (t, s.1.owe s.2 e) else none

/-- The cache, with what is owed. -/
def delayed (k : Config V H) (nbuf bufpages : ℕ) :
    System (State T (Fin nbuf) V H × Owed (Fin nbuf) V) (Event T (Fin nbuf) V) :=
  System.ofFun (bio_init k nbuf bufpages, fun _ => none) (delayedStep k)

/-- What is owed is still in its buffer, and the buffer is dirty if nobody has locked it. -/
def Keeps (s : State T B V H) (owed : Owed B V) : Prop :=
  ∀ b c, owed b = some c → (s.buf b).contents = some c ∧ s.io b ≠ some .read ∧
    (s.owner b = none → (s.buf b).b_flags.B_DELWRI = true ∧ (s.buf b).b_flags.B_INVAL = false)

/-- No buffer with contents that are owed is released by a thread while it has the mark of an error, none
that has it is marked by `bdwrite` if it is not for a tape, and no synchronous write of a buffer that
`getblk` does not want any more fails. -/
def Careful (k : Config V H) (s : State T B V H × Owed B V) : Event T B V → Prop
  | .call _ (.brelse bp) => s.2 bp ≠ none → (s.1.buf bp).b_flags.B_ERROR = false
  | .call _ (.bdwrite bp _) => 0 < (s.1.buf bp).b_bufsize →
      (s.1.buf bp).b_flags.B_ERROR = true → (s.1.buf bp).b_vp.any k.tape = true
  | .done bp error => error = true → s.2 bp ≠ none → (s.1.buf bp).b_flags.B_ASYNC = false →
      (s.1.buf bp).b_flags.B_INVAL = false
  | _ => True

instance (k : Config V H) (s : State T B V H × Owed B V) :
    DecidablePred (Careful k s : Event T B V → Prop)
  | .call _ (.brelse bp) =>
    inferInstanceAs (Decidable (s.2 bp ≠ none → (s.1.buf bp).b_flags.B_ERROR = false))
  | .call _ (.bdwrite bp _) => inferInstanceAs (Decidable (0 < (s.1.buf bp).b_bufsize →
      (s.1.buf bp).b_flags.B_ERROR = true → (s.1.buf bp).b_vp.any k.tape = true))
  | .done bp error => inferInstanceAs (Decidable (error = true → s.2 bp ≠ none →
      (s.1.buf bp).b_flags.B_ASYNC = false → (s.1.buf bp).b_flags.B_INVAL = false))
  | .call _ (.getblk _ _ _) | .call _ (.geteblk _) | .call _ (.read _ _) | .call _ (.bwrite _)
  | .call _ (.bawrite _) | .call _ (.allocbuf _ _) | .call _ (.vflushbuf _ _)
  | .call _ (.vinvalbuf _ _) | .run _ _ => inferInstanceAs (Decidable True)

end Model

section Invariant

variable {T B V H : Type} [DecidableEq B] {q p : Pc B V}

/-- What the holder of a buffer does with it, if someone holds it. -/
def State.role (s : State T B V H) (b : B) : Option Role := (s.owner b).map fun a => (s.pc a).role b

/-- What holds of a buffer with contents that are owed. -/
def Role.Owes (x : Buf V H) (driver : Option (Io V)) : Option Role → Prop
  | some .reset | some .assign | some .insert | some .read => False
  | some .write => x.b_flags.B_ASYNC = true → x.b_flags.B_INVAL = false
  | some .output => x.b_flags.B_READ = false ∧ (x.b_flags.B_ASYNC = true → x.b_flags.B_INVAL = false)
  | some .wait => x.b_flags.B_READ = false ∧ driver ≠ none
  | some .io => x.b_flags.B_READ = false ∧ driver ≠ none ∧ x.b_flags.B_INVAL = false
  | some .release => x.b_flags.B_INVAL = false ∧ x.b_iocomplete = true ∧
      (x.b_flags.B_ERROR = false ∧ x.b_flags.B_DELWRI = true ∨
        x.b_flags.B_ERROR = true ∧ x.b_flags.B_ASYNC = true ∧ x.b_flags.B_READ = false)
  | none | some .held | some .free => x.b_flags.B_DELWRI = true ∧ x.b_flags.B_INVAL = false ∧ x.b_iocomplete = true

/-- What holds of a buffer: no flags are set that the cache does not set, a buffer that a thread has got
for a vnode is valid, and what is owed is there. -/
structure Buf.Owing (x : Buf V H) (driver : Option (Io V)) (r : Option Role)
    (owed : Option (V × ℤ × ℕ × List ℕ)) : Prop where
  flags : x.b_flags.B_NOCACHE = false ∧ x.b_flags.B_LOCKED = false
  valid : r = some .held ∨ r = some .read → x.Valid
  owes : ∀ c, owed = some c → x.contents = some c ∧ 0 < x.b_bufsize ∧ Role.Owes x driver r

/-- The buffers that memory is moved to or from. -/
def Pc.targets : Pc B V → List B
  | getnewbuf c => c.buffers
  | reset _ c => c.buffers
  | alloc tp _ _ => [tp]
  | grow tp _ _ bp => [tp, bp]
  | shrunk tp _ _ => [tp]
  | bwrite _ n => n.buffers
  | output _ n => n.buffers
  | biowait _ n => n.buffers
  | brelse _ n => n.buffers
  | free _ _ _ _ n => n.buffers
  | _ => []

/-- Whether `vinvalbuf` saves, where it goes on. -/
def Next.save : Next B V → Option Bool
  | vinval _ save _ _ => some save
  | _ => none

def Pc.save : Pc B V → Option Bool
  | bwrite _ n => n.save
  | output _ n => n.save
  | biowait _ n => n.save
  | brelse _ n => n.save
  | free _ _ _ _ n => n.save
  | vinval _ save _ _ => some save
  | vlock _ save _ _ _ => some save
  | _ => none

structure Owing (s : State T B V H) (owed : Owed B V) : Prop where
  bufs : ∀ b, (s.buf b).Owing (s.io b) (s.role b) (owed b)
  targets : ∀ a, ∀ tp ∈ (s.pc a).targets, owed tp = none
  saves : ∀ a, (s.pc a).save ≠ some false

/-- What a place needs to come after another. -/
structure Pc.After (owed : Owed B V) (q p : Pc B V) : Prop where
  targets : ∀ tp ∈ p.targets, tp ∈ q.targets ∨ owed tp = none
  save : p.save = none ∨ p.save = q.save

omit [DecidableEq B] in
theorem Pc.After.rest {owed : Owed B V} (htargets : p.targets = []) (hsave : p.save = none) : q.After owed p := by
  refine ⟨fun tp htp => ?_, .inl hsave⟩
  rw [htargets] at htp
  cases htp

omit [DecidableEq B] in
theorem Pc.After.same {owed : Owed B V} (htargets : p.targets = q.targets) (hsave : p.save = q.save) :
    q.After owed p :=
  ⟨fun _ htp => .inl (htargets ▸ htp), .inr hsave⟩

omit [DecidableEq B] in
theorem Pc.After.saves {owed : Owed B V} (h : q.After owed p) (hq : q.save ≠ some false) : p.save ≠ some false := by
  rcases h.save with hnone | heq
  · rw [hnone]
    exact (some_ne_none false).symm
  · rwa [heq]

variable {s s' : State T B V H} {owed owed' : Owed B V} {a : Agent T B} {b : B}

theorem role_of_owner (ho : s.owner b = some a) : s.role b = some ((s.pc a).role b) := by
  unfold State.role
  rw [ho, map_some]

theorem role_free_of_owner (ho : s.owner b = none) : s.role b = none := by
  unfold State.role
  rw [ho, map_none]

theorem Owing.moves (h : Owing s owed) (bs : List B) (l : List (Agent T B)) (hpc : ∀ c, c ∉ l → s'.pc c = s.pc c)
    (hrest : ∀ b, b ∉ bs → s'.buf b = s.buf b ∧ s'.io b = s.io b ∧ s'.owner b = s.owner b ∧ owed' b = owed b)
    (hrole : ∀ b, b ∉ bs → ∀ c ∈ l, s.owner b = some c → (s'.pc c).role b = (s.pc c).role b)
    (hbs : ∀ b ∈ bs, (s'.buf b).Owing (s'.io b) (s'.role b) (owed' b))
    (hle : ∀ b, owed b = none → owed' b = none ∨ ∀ c, b ∉ (s.pc c).targets)
    (htargets : ∀ c ∈ l, ∀ tp ∈ (s'.pc c).targets, owed' tp = none)
    (hsaves : ∀ c ∈ l, (s'.pc c).save ≠ some false) : Owing s' owed' := by
  refine ⟨fun b => ?_, fun c tp htp => ?_, fun c => ?_⟩
  · by_cases hb : b ∈ bs
    · exact hbs b hb
    · obtain ⟨hbuf, hio, howner, howed⟩ := hrest b hb
      have hsame : s'.role b = s.role b := by
        cases ho : s.owner b with
        | none => rw [role_free_of_owner ho, role_free_of_owner (howner.trans ho)]
        | some c =>
          rw [role_of_owner ho, role_of_owner (howner.trans ho)]
          by_cases hc : c ∈ l
          · rw [hrole b hb c hc ho]
          · rw [hpc c hc]
      rw [hbuf, hio, hsame, howed]
      exact h.bufs b
  · by_cases hc : c ∈ l
    · exact htargets c hc tp htp
    · rw [hpc c hc] at htp
      exact (hle tp (h.targets c tp htp)).resolve_right fun hno => hno c htp
  · by_cases hc : c ∈ l
    · exact hsaves c hc
    · rw [hpc c hc]
      exact h.saves c

theorem Owing.one [DecidableEq T] (h : Owing s owed) (bp : B) {x : Buf V H} (hq : s.pc a = q) (hpc : s'.pc = update s.pc a p)
    (hbuf : s'.buf = update s.buf bp x) (howner : ∀ b, b ≠ bp → s'.owner b = s.owner b) (hown : s'.owner bp = some a)
    (hio : ∀ b, b ≠ bp → s'.io b = s.io b) (hbefore : ∀ b, b ≠ bp → q.role b = .held)
    (hafter : ∀ b, b ≠ bp → p.role b = .held) (howed : ∀ b, owed' b = none ∨ owed' b = owed b)
    (hrest : ∀ b, b ≠ bp → owed' b = owed b) (hplace : q.After owed p)
    (hok : x.Owing (s'.io bp) (some (p.role bp)) (owed' bp)) : Owing s' owed' := by
  have hself : s'.pc a = p := by rw [hpc, update_self]
  have hnone (b : B) (hb : owed b = none) : owed' b = none := by
    rcases howed b with hno | heq
    · exact hno
    · rw [heq, hb]
  refine h.moves [bp] [a] (fun c hc => ?_) (fun b hb => ?_) (fun b hb c hc _ => ?_)
    (fun b hb => ?_) (fun b hb => .inl (hnone b hb)) (fun c hc tp htp => ?_) fun c hc => ?_
  · rw [hpc, update_of_ne (ne_of_not_mem_cons hc)]
  · have hne := ne_of_not_mem_cons hb
    exact ⟨by rw [hbuf, update_of_ne hne], hio b hne, howner b hne, hrest b hne⟩
  · have hne := ne_of_not_mem_cons hb
    rw [mem_singleton.mp hc, hself, hq, hbefore b hne, hafter b hne]
  · rw [mem_singleton.mp hb, role_of_owner hown, hself, hbuf, update_self]
    exact hok
  · rw [mem_singleton.mp hc, hself] at htp
    rcases hplace.targets tp htp with hold | hno
    · exact hnone tp (h.targets a tp (hq ▸ hold))
    · exact hnone tp hno
  · rw [mem_singleton.mp hc, hself]
    exact hplace.saves (hq ▸ h.saves a)

theorem Owing.setPc [DecidableEq T] (h : Owing s owed) (hq : s.pc a = q)
    (hbefore : ∀ b, q.role b = .held) (hafter : ∀ b, p.role b = .held) (hplace : q.After owed p) : Owing (s.setPc a p) owed := by
  have hself : (s.setPc a p).pc a = p := update_self ..
  refine h.moves [] [a] (fun c hc => ?_) (fun b _ => ⟨rfl, rfl, rfl, rfl⟩)
    (fun b _ c hc _ => ?_) (fun b hb => nomatch hb) (fun b hb => .inl hb) (fun c hc tp htp => ?_)
    fun c hc => ?_
  · exact update_of_ne (ne_of_not_mem_cons hc) ..
  · rw [mem_singleton.mp hc, hself, hq, hbefore, hafter]
  · rw [mem_singleton.mp hc, hself] at htp
    rcases hplace.targets tp htp with hold | hno
    · exact h.targets a tp (hq ▸ hold)
    · exact hno
  · rw [mem_singleton.mp hc, hself]
    exact hplace.saves (hq ▸ h.saves a)

end Invariant

end Delayed

end Osf1.Bio
