import Osf1.Sockbuf.System

/-!
# End-of-record marks

What the socket buffer makes of the marks at the end of the chains that `sbappend` is given one after another.
-/

set_option autoImplicit false

namespace Osf1.Sockbuf.Marks

open Osf1.Computation Osf1.Computation.RecordQueue List

section Model

/-- Whether a record or a chain ends with `M_EOR`. -/
def marked (r : List Buf) : Bool := r.getLast?.any Buf.m_eor

/-- The chains that `sbappend` has been given, the last one first, with what it has left. -/
abbrev Trace := List (List (ℕ × Buf) × Run)

def state (r₀ : Run) : Trace → Run
  | [] => r₀
  | (_, r) :: _ => r

/-- A run from an empty buffer.  The chains have `M_EOR` at their end or nowhere. -/
def Appends (r₀ : Run) : Trace → Prop
  | [] => system.init r₀
  | (c, r) :: t => unended (vals c) = true ∧ system.step (state r₀ t) (.append c) r ∧ Appends r₀ t

/-- The bytes of the chains, and where they have marks. -/
def stream : Trace → List (List Byte × Bool)
  | [] => []
  | (c, _) :: t => stream t ++ [(bytes (vals c), marked (vals c))]

/-- The bytes `b` and the stream behind them, cut after each mark. -/
def cut (b : List Byte) : List (List Byte × Bool) → List (List Byte × Bool)
  | [] => if b = [] then [] else [(b, false)]
  | (b', true) :: l => (b ++ b', true) :: cut [] l
  | (b', false) :: l => cut (b ++ b') l

/-- The records have these bytes, and these marks at their ends and no others. -/
def Records (g : List (List Buf)) (rs : List (List Byte × Bool)) : Prop :=
  (g.map fun r => (bytes r, marked r)) = rs ∧ ∀ r ∈ g, unended r = true

/-- In all states of a run the records are those of the stream. -/
def Keeps (r₀ : Run) (t : Trace) : Prop :=
  ∀ u, u <:+ t → ∃ q, Holds (state r₀ u).s q [] ∧ Records (contents q) (cut [] (stream u))

end Model

section Compress

variable {eor : Bool} {n : Buf} {r k ms : List Buf}

@[simp] theorem marked_append (hk : k ≠ []) : marked (r ++ k) = marked k := by
  simp [marked, getLast?_append_of_ne_nil _ hk]

theorem unended_append (hk : k ≠ []) : unended (r ++ k) = (r.all (fun m => !m.m_eor) && unended k) := by
  simp [unended, dropLast_append_of_ne_nil hk]

theorem compress_ne_nil : compress eor (some n) ms ≠ [] := by
  induction ms generalizing eor n with
  | nil => simp [compress]
  | cons m ms ih =>
    rw [compress]
    split_ifs
    · exact ih
    · exact ih
    · simp

theorem compress_cons {m : Buf} : marked (n :: compress eor (some m) ms) = marked (compress eor (some m) ms) ∧
    unended (n :: compress eor (some m) ms) = (!n.m_eor && unended (compress eor (some m) ms)) := by
  simpa using And.intro (marked_append (r := [n]) compress_ne_nil) (unended_append (r := [n]) compress_ne_nil)

/-- Behind an mbuf without a mark all marks come to the end. -/
theorem compress_some (hn : n.m_eor = false) : unended (compress eor (some n) ms) = true ∧
    marked (compress eor (some n) ms) = (eor || ms.any Buf.m_eor) := by
  induction ms generalizing eor n with
  | nil => simp [compress, unended, marked, hn]
  | cons m ms ih =>
    rw [compress, any_cons, ← Bool.or_assoc]
    split_ifs
    · exact ih hn
    · exact ih (n := { n with data := n.data ++ m.data }) hn
    · simpa [compress_cons, hn] using ih rfl

theorem compress_none : (bytes ms = [] → compress eor none ms = []) ∧ (bytes ms ≠ [] → compress eor none ms ≠ [] ∧
    unended (compress eor none ms) = true ∧ marked (compress eor none ms) = (eor || ms.any Buf.m_eor)) := by
  induction ms generalizing eor with
  | nil => simp [compress]
  | cons m ms ih =>
    rw [compress, any_cons, ← Bool.or_assoc, bytes_cons]
    split_ifs with h
    · simpa [data_eq_nil h] using ih
    · have hne : m.data ≠ [] := mt (fun h => by simp [Buf.m_len, h]) h
      exact ⟨fun hb => absurd (append_eq_nil_iff.mp hb).1 hne, fun _ => ⟨compress_ne_nil, compress_some rfl⟩⟩

/-- Data that comes behind an mbuf with a mark is put into the same record. -/
theorem compress_marked (hn : n.m_eor = true) (hms : bytes ms ≠ []) : unended (compress eor (some n) ms) = false := by
  induction ms generalizing eor with
  | nil => exact absurd rfl hms
  | cons m ms ih =>
    rw [compress]
    split_ifs with h hroom
    · rw [bytes_cons, data_eq_nil h, nil_append] at hms
      exact ih hms
    · simp [room, hn] at hroom
    · rw [compress_cons.2, hn]
      rfl

theorem compress_void (hms : bytes ms = []) :
    compress eor (some n) ms = [{ n with m_eor := n.m_eor || (eor || ms.any Buf.m_eor) }] := by
  induction ms generalizing eor with
  | nil => simp [compress]
  | cons m ms ih =>
    rw [bytes_cons, append_eq_nil_iff] at hms
    rw [compress, if_pos (show m.m_len = 0 from length_eq_zero_iff.mpr hms.1), ih hms.2, any_cons, ← Bool.or_assoc eor]

theorem any_of_unended (h : unended ms = true) : ms.any Buf.m_eor = marked ms := by
  rcases eq_nil_or_concat' ms with rfl | ⟨r, m, rfl⟩
  · rfl
  · simp only [unended, dropLast_concat, all_eq_true] at h
    have hr : r.any Buf.m_eor = false := any_eq_false.mpr fun x hx => by simpa using h x hx
    simp [marked, hr]

end Compress

section Cut

variable {b : List Byte} {l l' : List (List Byte × Bool)}

/-- A mark is never lost. -/
theorem countP_cut : (cut b l).countP Prod.snd = l.countP Prod.snd := by
  induction l generalizing b with
  | nil =>
    rw [cut]
    split_ifs <;> rfl
  | cons x l ih =>
    obtain ⟨b', _ | _⟩ := x
    · simp [cut, ih]
    · simp [cut, ih]

theorem cut_append (hl : ∀ x ∈ l, x.2 = false) : cut b (l ++ l') = cut (b ++ l.flatMap Prod.fst) l' := by
  induction l generalizing b with
  | nil => simp
  | cons x l ih =>
    obtain ⟨hx, hrest⟩ := forall_mem_cons.mp hl
    obtain ⟨b', m⟩ := x
    obtain rfl : m = false := hx
    simp [cut, ih hrest]

/-- There is data for a mark, and nothing comes after it. -/
def Clean (l : List (List Byte × Bool)) : Prop :=
  l.Pairwise (fun x y => x.2 = true → y = ([], false)) ∧ (l.any Prod.snd = true → l.flatMap Prod.fst ≠ [])

theorem cut_pairwise (h : l.Pairwise fun x y => x.2 = true → y = ([], false)) : cut b l =
    if l.any Prod.snd = false ∧ b ++ l.flatMap Prod.fst = [] then [] else [(b ++ l.flatMap Prod.fst, l.any Prod.snd)] := by
  induction l generalizing b with
  | nil => simp [cut]
  | cons x l ih =>
    obtain ⟨hx, hl⟩ := pairwise_cons.mp h
    obtain ⟨b', _ | _⟩ := x
    · rw [cut, ih hl, any_cons, flatMap_cons, Bool.false_or, append_assoc]
    · have hvoid (y : List Byte × Bool) (hy : y ∈ l) : y = ([], false) := hx y hy rfl
      have hflat : l.flatMap Prod.fst = [] := flatMap_eq_nil_iff.mpr fun y hy => by rw [hvoid y hy]
      have hcut := @cut_append [] l [] fun y hy => congrArg Prod.snd (hvoid y hy)
      rw [append_nil, hflat] at hcut
      simp [cut, hcut, hflat]

theorem Clean.of_append {x : List Byte × Bool} (h : Clean (l ++ [x])) : Clean l := by
  have hp := pairwise_append.mp h.1
  refine ⟨hp.1, fun hany hflat => h.2 (by simp [hany]) ?_⟩
  obtain ⟨y, hy, hm⟩ := any_eq_true.mp hany
  simp [hflat, hp.2.2 y hy x (mem_singleton_self x) hm]

theorem clean_append {x : List Byte × Bool} (h : Clean l) : Clean (l ++ [x]) ↔
    (l.any Prod.snd = true → x = ([], false)) ∧ (x.2 = true → l.flatMap Prod.fst ++ x.1 ≠ []) := by
  obtain ⟨hpair, hdata⟩ := h
  constructor
  · rintro ⟨hp, hd⟩
    refine ⟨fun hany => ?_, fun hx => ?_⟩
    · obtain ⟨y, hy, hm⟩ := any_eq_true.mp hany
      exact (pairwise_append.mp hp).2.2 y hy x (mem_singleton_self x) hm
    · simpa using hd (by simp [hx])
  · rintro ⟨hvoid, hd⟩
    refine ⟨pairwise_append.mpr ⟨hpair, pairwise_singleton _ _, fun y hy z hz hm => ?_⟩, fun hany => ?_⟩
    · exact mem_singleton.mp hz ▸ hvoid (any_eq_true.mpr ⟨y, hy, hm⟩)
    · rw [flatMap_append, flatMap_singleton]
      by_cases hx : x.2 = true
      · exact hd hx
      · exact fun h => hdata (by simpa [hx] using hany) (append_eq_nil_iff.mp h).1

end Cut

section Runs

variable {g : List (List Buf)} {ms r : List Buf} {l : List (List Byte × Bool)}

theorem records_append_iff (hl : Clean l) (hg : Records g (cut [] l)) (hms : unended ms = true) :
    Records (append g ms) (cut [] (l ++ [(bytes ms, marked ms)])) ↔ Clean (l ++ [(bytes ms, marked ms)]) := by
  rw [clean_append hl]
  have hbase := cut_pairwise (b := []) hl.1
  rw [nil_append] at hbase
  by_cases hempty : l.any Prod.snd = false ∧ l.flatMap Prod.fst = []
  · rw [if_pos hempty] at hbase
    obtain rfl : g = [] := by simpa [hbase] using hg.1
    rw [cut_append (by simpa using hempty.1), hempty.2, nil_append]
    have happend : append [] ms = if compress false none ms = [] then [] else [compress false none ms] := by
      cases ms <;> simp [append, compress]
    rw [happend]
    by_cases hb : bytes ms = []
    · rw [compress_none.1 hb, if_pos rfl, hb]
      cases hm : marked ms <;> simp [Records, cut, hempty]
    · obtain ⟨hne, hend, hmark⟩ := (@compress_none false ms).2 hb
      rw [if_neg hne]
      have hbytes : bytes (compress false none ms) = bytes ms := by simp [bytes_compress]
      have hm := hmark.trans (any_of_unended hms)
      refine iff_of_true ⟨?_, by simpa using hend⟩ ⟨fun h => by simp [hempty.1] at h, fun _ => hb⟩
      cases hc : marked ms <;> simp [cut, hbytes, hm, hc, hb]
  · rw [if_neg hempty] at hbase
    have hdata : l.flatMap Prod.fst ≠ [] := fun h => hempty ⟨by simpa using mt hl.2 (not_not.mpr h), h⟩
    obtain ⟨r, rfl⟩ := length_eq_one_iff.mp (by simpa [hbase] using congrArg length hg.1)
    have hr := hg.2 r (mem_singleton_self r)
    obtain ⟨hbytes, hmark⟩ : bytes r = l.flatMap Prod.fst ∧ marked r = l.any Prod.snd := by simpa [hbase] using hg.1
    rcases eq_nil_or_concat' r with rfl | ⟨r, n, rfl⟩
    · exact absurd hbytes.symm hdata
    have hn : n.m_eor = l.any Prod.snd := by simpa [marked] using hmark
    have hfront : r.all (fun m => !m.m_eor) = true := by simpa [unended] using hr
    have happend : append [r ++ [n]] ms = [r ++ compress false (some n) ms] := by
      cases ms <;> simp [append, compress, hr]
    have hall : bytes (r ++ compress false (some n) ms) = l.flatMap Prod.fst ++ bytes ms := by
      simp [bytes_compress, ← hbytes]
    rw [happend]
    cases hany : l.any Prod.snd
    · obtain ⟨hend, hm⟩ := @compress_some false n ms (hn.trans hany)
      rw [Bool.false_or, any_of_unended hms] at hm
      rw [cut_append (by simpa using hany)]
      refine iff_of_true ⟨?_, ?_⟩ ⟨by rintro ⟨⟩, fun _ h => hdata (append_eq_nil_iff.mp h).1⟩
      · cases hc : marked ms <;> simp [cut, hall, hm, hc, hdata, compress_ne_nil]
      · simpa [unended_append compress_ne_nil, hend] using hfront
    · by_cases hb : bytes ms = []
      · have hvoid := @compress_void false n ms hb
        rw [Bool.false_or, any_of_unended hms, hn, hany, Bool.true_or] at hvoid
        rw [hb, append_nil] at hall
        have hmarked : marked (r ++ compress false (some n) ms) = true := by simp [hvoid, marked]
        cases hc : marked ms
        · have hclean := (clean_append (x := ([], false)) hl).mpr ⟨fun _ => rfl, by rintro ⟨⟩⟩
          rw [hb, cut_pairwise hclean.1]
          refine iff_of_true ⟨?_, ?_⟩ ⟨fun _ => rfl, by rintro ⟨⟩⟩
          · simp [hall, hmarked, hany]
          · simpa [unended_append compress_ne_nil, hvoid, unended] using hfront
        · refine iff_of_false (fun h => ?_) fun h => by simpa using h.1 rfl
          have hcount := congrArg (countP Prod.snd) h.1
          rw [countP_cut] at hcount
          obtain ⟨y, hy, hm⟩ := any_eq_true.mp hany
          have hpos := countP_pos_iff.mpr ⟨y, hy, hm⟩
          simp only [countP_append, countP_singleton, map_cons, map_nil, hmarked, if_true] at hcount
          omega
      · refine iff_of_false (fun h => ?_) fun h => hb (congrArg Prod.fst (h.1 rfl))
        have hr := h.2 _ (mem_singleton_self _)
        rw [unended_append compress_ne_nil, compress_marked (hn.trans hany) hb, Bool.and_false] at hr
        cases hr

variable {c : List (ℕ × Buf)} {r₀ r' : Run} {t : Trace}

theorem Appends.sound (h : Appends r₀ t) : Sound (state r₀ t) := by
  induction t with
  | nil => exact sound_of_reachable (.init h)
  | cons x t ih => exact (ih h.2.2).step h.2.1

theorem step_append {r : Run} (h : system.step r (.append c) r') : r'.g = append r.g (vals c) := by
  obtain ⟨-, fuel, b, s, hrun, rfl⟩ := h
  obtain rfl : true = b := by
    simp only [Event.run] at hrun
    cases hs : sbappend fuel (link c none) (r.s.give c) with
    | error e => simp [hs, bind, Except.bind] at hrun
    | ok s =>
      simp only [hs, bind, Except.bind] at hrun
      exact (Prod.mk.inj (Except.ok.inj hrun)).1
  rfl

/-- The records that are in memory are those that there should be. -/
theorem holds_records_iff {r : Run} {rs : List (List Byte × Bool)} (h : Sound r) :
    (∃ q, Holds r.s q [] ∧ Records (contents q) rs) ↔ Records r.g rs := by
  obtain ⟨q, hq, hg⟩ := h.holds
  constructor
  · rintro ⟨q', hq', hrs⟩
    rwa [← hg, hq.laid.queue.unique hq'.laid.queue (hq.laid.head.symm.trans hq'.laid.head)]
  · exact fun hrs => ⟨q, hq, hg ▸ hrs⟩

/-- Exactly when no data and no mark comes after a mark, and no mark before there is data, are the records at all times
those of the stream. -/
theorem marks_kept_iff (h : Appends r₀ t) : Keeps r₀ t ↔ Clean (stream t) := by
  induction t with
  | nil =>
    have hg : r₀.g = [] := h.2.2.2.2.2.1
    refine iff_of_true (fun u hu => ?_) ⟨.nil, nofun⟩
    obtain rfl := suffix_nil.mp hu
    exact (holds_records_iff h.sound).mpr (by simp [state, hg, Records, stream, cut])
  | cons x t ih =>
    obtain ⟨c, r⟩ := x
    have hsplit : Keeps r₀ ((c, r) :: t) ↔ Records r.g (cut [] (stream ((c, r) :: t))) ∧ Keeps r₀ t := by
      simp only [Keeps, suffix_cons_iff, forall_eq_or_imp]
      exact and_congr_left' (holds_records_iff h.sound)
    have hstep : Keeps r₀ t → (Records r.g (cut [] (stream ((c, r) :: t))) ↔ Clean (stream ((c, r) :: t))) := fun hk => by
      rw [step_append h.2.1]
      exact records_append_iff ((ih h.2.2).mp hk) ((holds_records_iff h.2.2.sound).mp (hk t suffix_rfl)) h.1
    rw [hsplit]
    refine ⟨fun hk => (hstep hk.2).mp hk.1, fun hc => ?_⟩
    have hk : Keeps r₀ t := (ih h.2.2).mpr hc.of_append
    exact ⟨(hstep hk).mpr hc, hk⟩

/-- A chain that is new may always be given. -/
theorem Appends.exists_append (h : Appends r₀ t) (hc : Event.Fresh (state r₀ t).s (addrs c)) (hend : unended (vals c) = true) :
    ∃ r, Appends r₀ ((c, r) :: t) := by
  obtain ⟨q, hq, -⟩ := h.sound.holds
  obtain ⟨fuel, b, s, hrun, -⟩ := run_spec (e := .append c) hq h.sound.lock hc nofun
  exact ⟨_, hend, ⟨hc, fuel, b, s, hrun, rfl⟩, h⟩

/-- A byte and the mark. -/
def one (a : ℕ) (b : Byte) (eor : Bool) : List (ℕ × Buf) := [(a, ⟨.MT_DATA, none, 0, [b], eor, none⟩)]

theorem appends_one : ∃ r, Appends empty [(one 1 7 true, r)] ∧ r.s.mem 2 = none :=
  ⟨_, ⟨rfl, ⟨⟨nodup_singleton 1, fun _ _ => rfl⟩, 3, true, _, rfl, rfl⟩, rfl, rfl, rfl, rfl, rfl, rfl, rfl⟩, rfl⟩

theorem marks_kept_one : ∃ r, Keeps empty [(one 1 7 true, r)] := by
  obtain ⟨r, h, -⟩ := appends_one
  exact ⟨r, (marks_kept_iff h).mpr ⟨pairwise_singleton _ _, fun _ h => by simp [stream, one] at h⟩⟩

/-- A byte after a mark is put into the record that has ended. -/
theorem marks_not_kept : ∃ t, Appends empty t ∧ ¬ Keeps empty t := by
  obtain ⟨r, h, hfree⟩ := appends_one
  have hfresh : Event.Fresh r.s (addrs (one 2 8 false)) :=
    ⟨nodup_singleton 2, fun a ha => (mem_singleton.mp ha : a = 2) ▸ hfree⟩
  obtain ⟨r', h'⟩ := h.exists_append hfresh rfl
  refine ⟨_, h', fun hk => ?_⟩
  have hrecords := (holds_records_iff h'.sound).mp (hk _ suffix_rfl)
  have hg : r.g = [vals (one 1 7 true)] := step_append h.2.1
  have hg' : r'.g = [vals (one 1 7 true) ++ vals (one 2 8 false)] := (step_append h'.2.1).trans (by rw [state, hg]; decide)
  have hlen := congrArg length hrecords.1
  rw [state, hg'] at hlen
  simp [stream, one, cut, marked] at hlen

end Runs

end Osf1.Sockbuf.Marks
