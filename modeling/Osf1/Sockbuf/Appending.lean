import Osf1.Sockbuf.Buffer

/-!
# Compression in memory

`sbcompress` takes the mbufs of a chain one by one.  The mbufs of the record in front of the last one
are not touched any more.
-/

set_option autoImplicit false

namespace Osf1.Sockbuf

open Function List

section Compress

open Osf1.Computation.RecordQueue

section State

variable {s : Sb} {a b : ℕ} {c : Mbuf}

theorem get_eq (h : s.mem a = some c) : s.get a = .ok c := by
  unfold Sb.get
  rw [h]

/-- What the functions on the data leave: the limits, and the lock. -/
def Sb.limits (s : Sb) : ℤ × ℤ × Bool := (s.sb_hiwat, s.sb_mbmax, s.sb_lock)

end State

section Compress

variable {s s' : Sb} {a : ℕ} {k : Option ℕ} {n : Buf} {c r : List (ℕ × Buf)} {eor : Bool} {fuel : ℕ}

/-- The chain `c` has been compressed into the record that goes on from the mbuf `n` at `a`. -/
structure Compressed (eor : Bool) (s s' : Sb) (a : ℕ) (k : Option ℕ) (n : Buf)
    (c r : List (ℕ × Buf)) : Prop where
  chain : Chain s'.mem k r none
  first : link r none = some a
  content : vals r = compress eor (some n) (vals c)
  sublist : (addrs r).Sublist (a :: addrs c)
  frame : ∀ b, b ∉ a :: addrs c → s'.mem b = s.mem b
  freed : ∀ b ∈ addrs c, b ∉ addrs r → s'.mem b = none
  cc : s'.sb_cc = s.sb_cc + (bytes (vals c)).length
  mbcnt : s'.sb_mbcnt + n.storage = s.sb_mbcnt + storage (vals r)
  mb : s'.sb_mb = s.sb_mb
  limits : s'.limits = s.limits

theorem Compressed.first_mem (h : Compressed eor s s' a k n c r) : a ∈ addrs r := by
  have hfirst := h.first
  cases r with
  | nil => exact absurd hfirst nofun
  | cons x r =>
    obtain rfl := Option.some_inj.mp hfirst
    exact mem_cons_self ..

theorem Compressed.skip {s₁ : Sb} {b : ℕ} {m n' : Buf}
    (h : Compressed (eor || m.m_eor) s₁ s' a k n' c r) (hb : b ∉ a :: addrs c)
    (hfree : s₁.mem b = none) (hframe : ∀ x, x ∉ [a, b] → s₁.mem x = s.mem x)
    (hcontent : compress eor (some n) (m :: vals c) = compress (eor || m.m_eor) (some n') (vals c))
    (hcc : s₁.sb_cc = s.sb_cc + m.m_len) (hmbcnt : s₁.sb_mbcnt = s.sb_mbcnt)
    (hstorage : n'.storage = n.storage) (hmb : s₁.sb_mb = s.sb_mb) (hlimits : s₁.limits = s.limits) :
    Compressed eor s s' a k n ((b, m) :: c) r where
  chain := h.chain
  first := h.first
  content := h.content.trans hcontent.symm
  sublist := h.sublist.trans ((sublist_cons_self b _).cons_cons a)
  frame x hx := by
    simp only [addrs_cons, mem_cons, not_or] at hx
    rw [h.frame x (not_mem_cons_of_ne_of_not_mem hx.1 hx.2.2)]
    exact hframe x (by simp [hx.1, hx.2.1])
  freed x hx hxr := by
    rw [addrs_cons, mem_cons] at hx
    rcases hx with rfl | hx
    · rw [h.frame x hb, hfree]
    · exact h.freed x hx hxr
  cc := by
    rw [h.cc, hcc, vals_cons, bytes_cons, length_append, Buf.m_len]
    push_cast
    ring
  mbcnt := by rw [← hstorage, h.mbcnt, hmbcnt]
  mb := h.mb.trans hmb
  limits := h.limits.trans hlimits

theorem Compressed.behind {b : ℕ} {m : Buf}
    (h : Compressed (eor || m.m_eor)
      (((s.put a ⟨n, some b, k⟩).sballoc m).put b ⟨{ m with m_eor := false }, none, none⟩) s' b none
      { m with m_eor := false } c r)
    (hab : a ∉ b :: addrs c) (hlen : m.m_len ≠ 0) (hroom : ¬room n m = true) :
    Compressed eor s s' a k n ((b, m) :: c) ((a, n) :: r) where
  chain := by
    refine ⟨?_, h.chain⟩
    rw [h.first, h.frame a hab]
    exact (update_of_ne (ne_of_not_mem_cons hab) ..).trans (update_self ..)
  first := rfl
  content := by
    rw [vals_cons, vals_cons, compress, if_neg hlen, if_neg hroom, h.content]
  sublist := h.sublist.cons_cons a
  frame x hx := by
    simp only [addrs_cons, mem_cons, not_or] at hx
    rw [h.frame x (not_mem_cons_of_ne_of_not_mem hx.2.1 hx.2.2)]
    exact (update_of_ne hx.2.1 ..).trans (update_of_ne hx.1 ..)
  freed x hx hxr := by
    simp only [addrs_cons, mem_cons, not_or] at hx hxr
    rcases hx with rfl | hx
    · exact absurd (h.first_mem) hxr.2
    · exact h.freed x hx hxr.2
  cc := by
    have hcc : (((s.put a ⟨n, some b, k⟩).sballoc m).put b
        ⟨{ m with m_eor := false }, none, none⟩).sb_cc = s.sb_cc + m.m_len := rfl
    rw [h.cc, hcc, vals_cons, bytes_cons, length_append, Buf.m_len]
    push_cast
    ring
  mbcnt := by
    have hmbcnt : (((s.put a ⟨n, some b, k⟩).sballoc m).put b
        ⟨{ m with m_eor := false }, none, none⟩).sb_mbcnt = s.sb_mbcnt + m.storage := rfl
    have hstorage : ({ m with m_eor := false } : Buf).storage = m.storage := rfl
    have hrest := h.mbcnt
    rw [vals_cons, storage_cons]
    push_cast
    linarith
  mb := h.mb
  limits := h.limits

variable (eor) in
theorem sbcompress_spec (hfuel : c.length < fuel) (ha : s.mem a = some ⟨n, none, k⟩)
    (hc : Chain s.mem none c none) (hnodup : (a :: addrs c).Nodup) :
    ∃ s' r, sbcompress fuel eor (link c none) (some a) s = .ok s' ∧
      Compressed eor s s' a k n c r := by
  induction c generalizing fuel eor s a k n with
  | nil =>
    obtain ⟨fuel, rfl⟩ := Nat.exists_eq_add_of_lt hfuel
    refine ⟨s.put a ⟨{ n with m_eor := n.m_eor || eor }, none, k⟩,
      [(a, { n with m_eor := n.m_eor || eor })], ?_, ?_⟩
    · simp [sbcompress, link, get_eq ha, bind, Except.bind]
    · constructor
      · exact ⟨update_self .., trivial⟩
      · rfl
      · rfl
      · exact List.Sublist.refl _
      · intro b hb
        exact update_of_ne (ne_of_not_mem_cons hb) ..
      · intro b hb
        cases hb
      · simp [Sb.put]
      · simp [Sb.put, Buf.storage]
      · rfl
      · rfl
  | cons mc c ih =>
    obtain ⟨b, m⟩ := mc
    obtain ⟨hb, hc⟩ := hc
    obtain ⟨fuel, rfl⟩ : ∃ f, fuel = f + 1 := ⟨fuel - 1, by simp at hfuel; omega⟩
    have hfuel' : c.length < fuel := by simpa using hfuel
    obtain ⟨hab, hbc⟩ := nodup_cons.mp hnodup
    have hba : b ≠ a := fun h => hab (h ▸ mem_cons_self ..)
    have hbc' : b ∉ addrs c := (nodup_cons.mp hbc).1
    have hac : a ∉ addrs c := fun h => hab (mem_cons_of_mem _ h)
    have hlater : (a :: addrs c).Nodup := nodup_cons.mpr ⟨hac, (nodup_cons.mp hbc).2⟩
    have hnot : b ∉ a :: addrs c := not_mem_cons_of_ne_of_not_mem hba hbc'
    by_cases hlen : m.m_len = 0
    · -- an empty mbuf is freed
      have ha' : (s.free b).mem a = some ⟨n, none, k⟩ := (update_of_ne hba.symm ..).trans ha
      obtain ⟨s', r, hrun, h⟩ := ih (eor || m.m_eor) hfuel' ha' (hc.update hbc' none) hlater
      refine ⟨s', r, ?_, h.skip hnot (update_self ..) (fun x hx => ?_) ?_ ?_ rfl rfl rfl rfl⟩
      · simpa [sbcompress, link, get_eq hb, bind, Except.bind, hlen] using hrun
      · exact update_of_ne (by simp at hx; exact hx.2) ..
      · rw [compress, if_pos hlen]
      · simp [Sb.free, hlen]
    · by_cases hroom : room n m = true
      · -- the data is copied behind that of the last mbuf
        let s₁ : Sb := { (s.put a ⟨{ n with data := n.data ++ m.data }, none, k⟩).free b with
          sb_cc := s.sb_cc + m.m_len }
        have ha' : s₁.mem a = some ⟨{ n with data := n.data ++ m.data }, none, k⟩ :=
          (update_of_ne hba.symm ..).trans (update_self ..)
        have hc' : Chain s₁.mem none c none := (hc.update hac _).update hbc' none
        obtain ⟨s', r, hrun, h⟩ := ih (eor || m.m_eor) hfuel' ha' hc' hlater
        refine ⟨s', r, ?_, h.skip hnot (update_self ..) (fun x hx => ?_) ?_ rfl rfl rfl rfl rfl⟩
        · refine Eq.trans ?_ hrun
          show sbcompress (fuel + 1) eor (some b) (some a) s = _
          rw [sbcompress]
          simp only [get_eq hb, get_eq ha, hlen, hroom, if_false, if_true, bind, Except.bind]
          rfl
        · simp only [mem_cons, not_mem_nil, or_false, not_or] at hx
          exact (update_of_ne hx.2 ..).trans (update_of_ne hx.1 ..)
        · rw [compress, if_neg hlen, if_pos hroom]
      · -- the mbuf becomes the last one
        let s₁ : Sb := ((s.put a ⟨n, some b, k⟩).sballoc m).put b ⟨{ m with m_eor := false }, none, none⟩
        have hb' : s₁.mem b = some ⟨{ m with m_eor := false }, none, none⟩ := update_self ..
        have hc' : Chain s₁.mem none c none := (hc.update hac _).update hbc' _
        obtain ⟨s', r, hrun, h⟩ := ih (eor || m.m_eor) hfuel' hb' hc' hbc
        refine ⟨s', (a, n) :: r, ?_, ?_⟩
        · refine Eq.trans ?_ hrun
          show sbcompress (fuel + 1) eor (some b) (some a) s = _
          rw [sbcompress]
          simp only [get_eq hb, get_eq ha, hlen, hroom, if_false, bind, Except.bind]
          rfl
        · exact h.behind hab hlen hroom

end Compress

end Compress

/-!
## Appending in memory

The functions that append to a socket buffer do to the records that are in memory what is done to
lists of records.
-/

section Appending

open Osf1.Computation.RecordQueue

/-- The mbufs of the records. -/
def contents (q : List (List (ℕ × Buf))) : List (List Buf) := q.map vals

section Contents

variable {q q' : List (List (ℕ × Buf))} {r : List (ℕ × Buf)}

@[simp] theorem contents_nil : contents [] = [] := rfl

@[simp] theorem contents_cons : contents (r :: q) = vals r :: contents q := rfl

@[simp] theorem contents_append : contents (q ++ q') = contents q ++ contents q' := map_append

end Contents

/-- The socket buffer holds the records, and counts their data and their storage.  The caller has
chains besides. -/
structure Holds (s : Sb) (q cs : List (List (ℕ × Buf))) : Prop where
  laid : Laid s.mem s.sb_mb q cs
  apart : ∀ c ∈ cs, Chain s.mem none c none
  cc : s.sb_cc = (bytes (contents q).flatten).length
  mbcnt : s.sb_mbcnt = storage (contents q).flatten

section Records

variable {s : Sb} {q q₁ q₂ cs : List (List (ℕ × Buf))} {a b h : ℕ} {x y : Buf} {l c : List (ℕ × Buf)}
  {fuel : ℕ} {np : Option ℕ}

theorem lastRecord_spec (hqueue : Queue s.mem (q ++ [(a, x) :: l]) none)
    (hstart : start (q ++ [(a, x) :: l]) none = some h) (hfuel : q.length < fuel) :
    lastRecord fuel h s = .ok a := by
  induction q generalizing h fuel with
  | nil =>
    obtain ⟨fuel, rfl⟩ := Nat.exists_eq_add_of_lt hfuel
    obtain rfl := Option.some_inj.mp hstart
    obtain ⟨-, ⟨ha, -⟩, -⟩ := hqueue
    simp [lastRecord, get_eq ha, start, bind, Except.bind]
  | cons r q ih =>
    obtain ⟨fuel, rfl⟩ : ∃ f, fuel = f + 1 := ⟨fuel - 1, by simp at hfuel; omega⟩
    obtain ⟨hne, hr, hq⟩ := hqueue
    obtain ⟨d, r, rfl⟩ := exists_cons_of_ne_nil hne
    obtain rfl := Option.some_inj.mp hstart
    have hnext : ∃ h', start (q ++ [(a, x) :: l]) none = some h' := by
      cases q with
      | nil => exact ⟨_, rfl⟩
      | cons r' q =>
        obtain ⟨e, r', rfl⟩ := exists_cons_of_ne_nil hq.1
        exact ⟨_, rfl⟩
    obtain ⟨h', hh'⟩ := hnext
    have hd := hr.1
    simp only [append_eq, hh'] at hd
    have hrest := ih hq hh' (by simpa using hfuel)
    simpa [lastRecord, get_eq hd, bind, Except.bind] using hrest

theorem lastMbuf_spec (hchain : Chain s.mem np (l ++ [(a, x)]) none)
    (hstart : link (l ++ [(a, x)]) none = some h) (hfuel : l.length < fuel) :
    lastMbuf fuel h s = .ok (if unended (vals (l ++ [(a, x)])) then some a else none) := by
  induction l generalizing h fuel np with
  | nil =>
    obtain ⟨fuel, rfl⟩ := Nat.exists_eq_add_of_lt hfuel
    obtain rfl := Option.some_inj.mp hstart
    simp [lastMbuf, get_eq hchain.1, link, unended, bind, Except.bind]
  | cons d l ih =>
    obtain ⟨fuel, rfl⟩ : ∃ f, fuel = f + 1 := ⟨fuel - 1, by simp at hfuel; omega⟩
    obtain ⟨hd, hl⟩ := hchain
    obtain rfl := Option.some_inj.mp hstart
    have hnext : ∃ h', link (l ++ [(a, x)]) none = some h' := by
      cases l with
      | nil => exact ⟨_, rfl⟩
      | cons e l => exact ⟨_, rfl⟩
    obtain ⟨h', hh'⟩ := hnext
    simp only [append_eq, hh'] at hd
    have hrest := ih hl hh' (by simpa using hfuel)
    have hunended : unended (vals ((d :: l) ++ [(a, x)])) =
        (!d.2.m_eor && unended (vals (l ++ [(a, x)]))) := by
      have hcons : (d.2 :: (vals l ++ [x])).dropLast = d.2 :: vals l := by
        rw [← cons_append, dropLast_concat]
      simp [unended, hcons]
    rw [hunended, lastMbuf, get_eq hd]
    by_cases heor : d.2.m_eor = true
    · simp [bind, Except.bind, heor]
    · simp [bind, Except.bind, heor, hrest]

theorem linkRecord_spec (hlaid : Laid s.mem s.sb_mb q (((a, x) :: l) :: cs))
    (ha : s.mem a = some ⟨x, link l none, none⟩) (hfuel : q.length < fuel) :
    ∃ s', linkRecord fuel a s = .ok s' ∧ Laid s'.mem s'.sb_mb (q ++ [(a, x) :: l]) cs ∧
      s'.sb_cc = s.sb_cc ∧ s'.sb_mbcnt = s.sb_mbcnt ∧ s'.limits = s.limits := by
  rcases eq_nil_or_concat' q with rfl | ⟨q, r, rfl⟩
  · have hmb : s.sb_mb = none := hlaid.head
    refine ⟨{ s with sb_mb := some a }, ?_, ?_, rfl, rfl, rfl⟩
    · unfold linkRecord
      rw [hmb]
    · exact hlaid.insertFront (fun _ _ => rfl) ha
  · obtain ⟨hne, hr⟩ := hlaid.queue.last
    obtain ⟨⟨b, y⟩, r, rfl⟩ := exists_cons_of_ne_nil hne
    have hhead : ∃ h, s.sb_mb = some h := by
      rw [hlaid.head]
      cases q with
      | nil => exact ⟨_, rfl⟩
      | cons r' q =>
        obtain ⟨e, r', rfl⟩ := exists_cons_of_ne_nil hlaid.queue.1
        exact ⟨_, rfl⟩
    obtain ⟨h, hh⟩ := hhead
    have hlast : lastRecord fuel h s = .ok b :=
      lastRecord_spec hlaid.queue (hlaid.head.symm.trans hh) (by simp at hfuel; omega)
    have hba : a ≠ b := by
      have hcells : cells (q ++ [(b, y) :: r]) + cells (((a, x) :: l) :: cs) =
          {(a, x)} + ({(b, y)} + (block r + block l + cells q + cells cs)) := by
        simp only [cells_append, cells_cons, cells_nil, block_cons]
        abel
      have hnot := hlaid.apart (a := a) hcells (by simp [places])
      rintro rfl
      exact hnot (by simp [places])
    refine ⟨s.put b ⟨y, link r none, some a⟩, ?_, ?_, rfl, rfl, rfl⟩
    · unfold linkRecord
      simp only [hh, hlast, get_eq hr.1, bind, Except.bind]
    · have hmem : Laid (s.put b ⟨y, link r none, some a⟩).mem s.sb_mb
          (q ++ [(b, y) :: r, (a, x) :: l]) cs :=
        hlaid.insertBehind (fun d _ hdb => update_of_ne hdb ..)
          ((update_of_ne hba ..).trans ha) (update_self ..)
      rw [append_assoc]
      exact hmem

end Records

section Compress

variable {s : Sb} {q q₁ q₂ cs : List (List (ℕ × Buf))} {a : ℕ} {n x : Buf} {l c : List (ℕ × Buf)}
  {fuel : ℕ} {k : Option ℕ}

/-- What has been added to the counts: the length of the data, and the storage `new` for `old`. -/
structure Counted (s s' : Sb) (len old new : ℕ) : Prop where
  cc : s'.sb_cc = s.sb_cc + len
  mbcnt : s'.sb_mbcnt + old = s.sb_mbcnt + new
  limits : s'.limits = s.limits

variable (eor : Bool) (fuel) in
theorem compressRecord (hlaid : Laid s.mem s.sb_mb (q₁ ++ (l ++ [(a, n)]) :: q₂) [c])
    (ha : s.mem a = some ⟨n, none, k⟩) (hc : Chain s.mem none c none) (hfuel : c.length < fuel) :
    ∃ s' r, sbcompress fuel eor (link c none) (some a) s = .ok s' ∧
      Laid s'.mem s'.sb_mb (q₁ ++ (l ++ r) :: q₂) [] ∧
      vals r = compress eor (some n) (vals c) ∧
      Counted s s' (bytes (vals c)).length n.storage (storage (vals r)) := by
  have hcells : cells (q₁ ++ (l ++ [(a, n)]) :: q₂) + cells [c] =
      block ((a, n) :: c) + (block l + cells q₁ + cells q₂) := by
    simp only [cells_append, cells_cons, cells_nil, block_append, block_cons, block_nil]
    abel
  have hnodup : (a :: addrs c).Nodup := hlaid.nodup_addrs hcells
  obtain ⟨s', r, hrun, h⟩ := sbcompress_spec eor hfuel ha hc hnodup
  refine ⟨s', r, hrun, ?_, h.content, h.cc, h.mbcnt, h.limits⟩
  rw [h.mb]
  exact hlaid.replace ha h.chain h.first h.sublist h.frame h.freed

theorem startRecord_spec (hlaid : Laid s.mem s.sb_mb (q₁ ++ ((a, x) :: l) :: q₂) []) (hfuel : l.length < fuel) :
    ∃ s' r, startRecord fuel a s = .ok s' ∧ Laid s'.mem s'.sb_mb (q₁ ++ r :: q₂) [] ∧
      vals r = newRecord (vals ((a, x) :: l)) ∧
      Counted s s' (bytes (vals l)).length x.storage (storage (vals r)) := by
  obtain ⟨-, -, ⟨ha, hl⟩, -⟩ := queue_append.mp hlaid.queue
  have hcells : cells (q₁ ++ ((a, x) :: l) :: q₂) + cells [] =
      {(a, x)} + (block l + cells q₁ + cells q₂) := by
    simp only [cells_append, cells_cons, cells_nil, block_cons]
    abel
  have hal : a ∉ addrs l := by
    have hnot := hlaid.apart (a := a) hcells (by simp [places])
    intro hmem
    exact hnot (by simp [places_add, mem_places_block, hmem])
  cases l with
  | nil =>
    have hcut : Laid (s.put a ⟨x, none, start q₂ none⟩).mem s.sb_mb (q₁ ++ [(a, x)] :: q₂) [[]] :=
      hlaid.cut (fun d hd => update_of_ne hd ..) (update_self ..)
    obtain ⟨s', r, hrun, hlaid', hvals, hcount⟩ := compressRecord (l := []) fuel false hcut
      (update_self ..) trivial hfuel
    refine ⟨s', r, ?_, hlaid', hvals, hcount.cc, hcount.mbcnt, hcount.limits⟩
    unfold startRecord
    rw [get_eq ha]
    exact hrun
  | cons d l =>
    obtain ⟨b, m⟩ := d
    by_cases heor : x.m_eor = true
    · -- the mark goes to the next mbuf before it is compressed
      let s₁ : Sb := s.put a ⟨{ x with m_eor := false }, none, start q₂ none⟩
      have hcut : Laid s₁.mem s.sb_mb (q₁ ++ [(a, { x with m_eor := false })] :: q₂) [(b, m) :: l] :=
        hlaid.cut (fun d hd => update_of_ne hd ..) (update_self ..)
      have hl₁ : Chain s₁.mem none ((b, m) :: l) none := hl.update hal _
      have hbl : b ∉ addrs l := by
        have hcells₁ : cells (q₁ ++ [(a, { x with m_eor := false })] :: q₂) + cells [(b, m) :: l] =
            {(b, m)} + (block l + {(a, { x with m_eor := false })} + cells q₁ + cells q₂) := by
          simp only [cells_append, cells_cons, cells_nil, block_cons, block_nil]
          abel
        have hnot := hcut.apart (a := b) hcells₁ (by simp [places])
        intro hmem
        exact hnot (by simp [places_add, mem_places_block, hmem])
      have hab : a ≠ b := ne_of_not_mem_cons hal
      have hset := hcut.setFront { m with m_eor := true } none
      have ha₂ : (s₁.put b ⟨{ m with m_eor := true }, link l none, none⟩).mem a =
          some ⟨{ x with m_eor := false }, none, start q₂ none⟩ :=
        (update_of_ne hab ..).trans (update_self ..)
      obtain ⟨s', r, hrun, hlaid', hvals, hcount⟩ := compressRecord (l := []) fuel false hset ha₂
        (hl₁.setFront hbl _ _) hfuel
      refine ⟨s', r, ?_, hlaid', ?_, hcount.cc, hcount.mbcnt, hcount.limits⟩
      · unfold startRecord
        have hgetb : (s.put a ⟨{ x with m_eor := false }, none, start q₂ none⟩).get b =
            .ok ⟨m, link l none, none⟩ := get_eq hl₁.1
        simp only [get_eq ha, bind, Except.bind, link, heor, hgetb, if_true]
        exact hrun
      · rw [hvals]
        simp only [vals_cons, newRecord, heor, if_true]
    · have hcut : Laid (s.put a ⟨x, none, start q₂ none⟩).mem s.sb_mb (q₁ ++ [(a, x)] :: q₂)
          [(b, m) :: l] :=
        hlaid.cut (fun d hd => update_of_ne hd ..) (update_self ..)
      obtain ⟨s', r, hrun, hlaid', hvals, hcount⟩ := compressRecord (l := []) fuel false
        hcut (update_self ..) (hl.update hal _) hfuel
      refine ⟨s', r, ?_, hlaid', ?_, hcount.cc, hcount.mbcnt, hcount.limits⟩
      · unfold startRecord
        simp only [get_eq ha, bind, Except.bind, link, heor]
        exact hrun
      · rw [hvals]
        simp only [vals_cons, newRecord, heor]
        rfl

end Compress

section Operations

variable {s : Sb} {q : List (List (ℕ × Buf))} {c : List (ℕ × Buf)} {fuel : ℕ}

theorem sbappendrecord_spec (h : Holds s q [c]) (hfuel : q.length + c.length < fuel) :
    ∃ s' q', sbappendrecord fuel (link c none) s = .ok s' ∧ Holds s' q' [] ∧
      contents q' = appendrecord (contents q) (vals c) ∧ s'.limits = s.limits := by
  cases c with
  | nil =>
    refine ⟨s, q, rfl, ⟨laid_nil.mp h.laid, nofun, h.cc, h.mbcnt⟩, ?_, rfl⟩
    rw [vals_nil, appendrecord, if_pos rfl]
  | cons d c =>
    obtain ⟨a, x⟩ := d
    simp only [length_cons] at hfuel
    have ha := (h.apart _ (mem_cons_self ..)).1
    have hlaid : Laid (s.sballoc x).mem (s.sballoc x).sb_mb q [(a, x) :: c] := h.laid
    obtain ⟨s₁, hlink, hlaid₁, hcc, hmbcnt, hlimits⟩ := linkRecord_spec hlaid ha (show q.length < fuel by omega)
    obtain ⟨s', r, hrun, hlaid', hvals, hcount⟩ := startRecord_spec hlaid₁ (show c.length < fuel by omega)
    refine ⟨s', q ++ [r], ?_, ⟨hlaid', nofun, ?_, ?_⟩, ?_, ?_⟩
    · show sbappendrecord fuel (some a) s = _
      unfold sbappendrecord
      simp only [get_eq ha, hlink, bind, Except.bind]
      exact hrun
    · have hs : (s.sballoc x).sb_cc = s.sb_cc + x.m_len := rfl
      rw [hcount.cc, hcc, hs, h.cc]
      simp [hvals, bytes_newRecord, Buf.m_len, add_assoc]
    · have hs : (s.sballoc x).sb_mbcnt = s.sb_mbcnt + x.storage := rfl
      have hmbcnt' := hcount.mbcnt
      rw [hmbcnt, hs, h.mbcnt] at hmbcnt'
      simp only [contents_append, contents_cons, contents_nil, flatten_append,
        flatten_cons, flatten_nil, append_nil, storage_append]
      push_cast
      linarith
    · rw [contents_append, contents_cons, hvals, appendrecord, if_neg (by simp)]
      rfl
    · exact hcount.limits.trans hlimits

theorem sbcompress_empty (eor : Bool) (h : Holds s [] [c]) (hfuel : c.length < fuel) :
    ∃ s' q', sbcompress fuel eor (link c none) none s = .ok s' ∧ Holds s' q' [] ∧
      contents q' = (if compress eor none (vals c) = [] then [] else [compress eor none (vals c)]) ∧
      s'.limits = s.limits := by
  induction c generalizing fuel eor s with
  | nil =>
    obtain ⟨fuel, rfl⟩ := Nat.exists_eq_add_of_lt hfuel
    refine ⟨s, [], ?_, ⟨laid_nil.mp h.laid, nofun, h.cc, h.mbcnt⟩, ?_, rfl⟩
    · simp [sbcompress, link]
    · simp [compress]
  | cons d c ih =>
    obtain ⟨a, m⟩ := d
    obtain ⟨fuel, rfl⟩ : ∃ f, fuel = f + 1 := ⟨fuel - 1, by simp at hfuel; omega⟩
    have hfuel' : c.length < fuel := by simpa using hfuel
    obtain ⟨ha, hc⟩ := h.apart _ (mem_cons_self ..)
    have hac : a ∉ addrs c := by
      have hcells : cells [] + cells [(a, m) :: c] = block ((a, m) :: c) + 0 := by simp
      exact (nodup_cons.mp (h.laid.nodup_addrs hcells)).1
    by_cases hlen : m.m_len = 0
    · have hfree : Holds (s.free a) [] [c] := by
        refine ⟨h.laid.freeFront, fun d hd => ?_, h.cc, h.mbcnt⟩
        obtain rfl := mem_singleton.mp hd
        exact hc.update hac none
      obtain ⟨s', q', hrun, hholds, hvals, hlimits⟩ := ih (eor || m.m_eor) hfree hfuel'
      refine ⟨s', q', ?_, hholds, ?_, hlimits⟩
      · refine Eq.trans ?_ hrun
        show sbcompress (fuel + 1) eor (some a) none s = _
        rw [sbcompress]
        simp only [get_eq ha, hlen, if_true, bind, Except.bind]
      · rw [hvals, vals_cons, compress, if_pos hlen]
    · -- the mbuf becomes the first of the record
      let s₁ : Sb := ({ s with sb_mb := some a }.sballoc m).put a ⟨{ m with m_eor := false }, none, none⟩
      have hfront : Laid s.mem (some a) ([] ++ ((a, m) :: c) :: []) [] := h.laid.insertFront (fun _ _ => rfl) ha
      have hcut : Laid s₁.mem s₁.sb_mb ([] ++ ([] ++ [(a, { m with m_eor := false })]) :: []) [c] :=
        hfront.cut (fun d hd => update_of_ne hd ..) (update_self ..)
      obtain ⟨s', r, hrun, hlaid, hvals, hcount⟩ := compressRecord fuel (eor || m.m_eor) hcut
        (update_self ..) (hc.update hac _) hfuel'
      have hne : compress (eor || m.m_eor) (some { m with m_eor := false }) (vals c) ≠ [] := by
        rw [← hvals]
        intro hnil
        have hr : r = [] := vals_eq_nil.mp hnil
        exact hlaid.queue.1 (by rw [hr]; rfl)
      have hcompress : compress eor none (vals ((a, m) :: c)) = vals r := by
        rw [hvals, vals_cons, compress, if_neg hlen]
      refine ⟨s', [r], ?_, ⟨hlaid, nofun, ?_, ?_⟩, ?_, hcount.limits⟩
      · refine Eq.trans ?_ hrun
        show sbcompress (fuel + 1) eor (some a) none s = _
        rw [sbcompress]
        simp only [get_eq ha, hlen, if_false, bind, Except.bind]
        rfl
      · have hs : s₁.sb_cc = s.sb_cc + m.m_len := rfl
        rw [hcount.cc, hs, h.cc]
        simp [hvals, bytes_compress, Buf.m_len]
      · have hs : s₁.sb_mbcnt = s.sb_mbcnt + m.storage := rfl
        have hstorage : ({ m with m_eor := false } : Buf).storage = m.storage := rfl
        have hmbcnt := hcount.mbcnt
        rw [hs, h.mbcnt, hstorage] at hmbcnt
        simp only [contents_nil, flatten_nil, storage_nil] at hmbcnt
        simp only [contents_cons, contents_nil, flatten_cons, flatten_nil, append_nil]
        push_cast at hmbcnt
        linarith
      · rw [hcompress, if_neg (hvals ▸ hne)]
        rfl

theorem sbappend_spec (h : Holds s q [c]) (hfuel : (∀ r ∈ q, r.length < fuel) ∧ q.length + c.length < fuel) :
    ∃ s' q', sbappend fuel (link c none) s = .ok s' ∧ Holds s' q' [] ∧
      contents q' = append (contents q) (vals c) ∧ s'.limits = s.limits := by
  cases c with
  | nil =>
    refine ⟨s, q, ?_, ⟨laid_nil.mp h.laid, nofun, h.cc, h.mbcnt⟩, ?_, rfl⟩
    · show sbappend fuel none s = _
      rw [sbappend]
    · rw [vals_nil, append, if_pos rfl]
  | cons d c =>
    have hne : vals (d :: c) ≠ [] := by simp
    have hc := h.apart _ (mem_cons_self ..)
    rcases eq_nil_or_concat' q with rfl | ⟨q, r, rfl⟩
    · have hmb : s.sb_mb = none := h.laid.head
      obtain ⟨s', q', hrun, hholds, hvals, hlimits⟩ :=
        sbcompress_empty false h (show (d :: c).length < fuel by simpa using hfuel.2)
      refine ⟨s', q', ?_, hholds, ?_, hlimits⟩
      · show sbappend fuel (some d.1) s = _
        unfold sbappend
        simp only [hmb]
        exact hrun
      · rw [hvals, append, if_neg hne]
        rfl
    · obtain ⟨hrne, hr⟩ := h.laid.queue.last
      obtain ⟨l, ⟨a, n⟩, rfl⟩ := (eq_nil_or_concat' r).resolve_left hrne
      obtain ⟨⟨b, y⟩, t, hbt⟩ := exists_cons_of_ne_nil hrne
      obtain ⟨m, hm⟩ : ∃ m, s.sb_mb = some m := by
        rw [h.laid.head]
        cases q with
        | nil => exact ⟨b, by rw [hbt]; rfl⟩
        | cons r' q =>
          obtain ⟨e, r', rfl⟩ := exists_cons_of_ne_nil h.laid.queue.1
          exact ⟨_, rfl⟩
      have hlast : lastRecord fuel m s = .ok b := by
        have hqueue := h.laid.queue
        have hhead := h.laid.head
        rw [hbt] at hqueue hhead
        refine lastRecord_spec hqueue (hhead.symm.trans hm) ?_
        have := hfuel.2
        simp only [length_append, length_cons] at this
        omega
      have hmbuf : lastMbuf fuel b s =
          .ok (if unended (vals (l ++ [(a, n)])) then some a else none) := by
        refine lastMbuf_spec hr (by rw [hbt]; rfl) ?_
        have := hfuel.1 _ (mem_append_right _ (mem_singleton_self _))
        simp only [length_append, length_cons] at this
        omega
      have hcontents : contents (q ++ [l ++ [(a, n)]]) = contents q ++ [vals (l ++ [(a, n)])] := by
        simp
      have hgetLast : (contents (q ++ [l ++ [(a, n)]])).getLast? = some (vals (l ++ [(a, n)])) := by
        rw [hcontents, getLast?_concat]
      by_cases hend : unended (vals (l ++ [(a, n)])) = true
      · have ha : s.mem a = some ⟨n, none, inner l none⟩ := hr.last
        obtain ⟨s', r, hrun, hlaid, hvals, hcount⟩ :=
          compressRecord fuel false h.laid ha hc (by have := hfuel.2; simp at this ⊢; omega)
        have hresult : append (contents (q ++ [l ++ [(a, n)]])) (vals (d :: c)) =
            contents (q ++ [l ++ r]) := by
          rw [append, if_neg hne, hgetLast]
          dsimp only
          rw [if_pos hend, hcontents, dropLast_concat]
          simp [hvals]
        refine ⟨s', q ++ [l ++ r], ?_, ⟨hlaid, nofun, ?_, ?_⟩, hresult.symm, hcount.limits⟩
        · show sbappend fuel (some d.1) s = _
          unfold sbappend
          simp only [hm, hlast, hmbuf, hend, if_true, bind, Except.bind]
          exact hrun
        · rw [← hresult, bytes_append_record, hcount.cc, h.cc, length_append]
          rfl
        · have hmbcnt := hcount.mbcnt
          rw [h.mbcnt] at hmbcnt
          simp only [contents_append, contents_cons, contents_nil, flatten_append,
            flatten_cons, flatten_nil, append_nil, storage_append, vals_append,
            vals_cons, vals_nil, storage_cons, storage_nil] at hmbcnt ⊢
          push_cast at hmbcnt ⊢
          linarith
      · obtain ⟨s', q', hrun, hholds, hvals, hlimits⟩ := sbappendrecord_spec h hfuel.2
        refine ⟨s', q', ?_, hholds, ?_, hlimits⟩
        · show sbappend fuel (some d.1) s = _
          unfold sbappend
          simp only [hm, hlast, hmbuf, hend, bind, Except.bind]
          exact hrun
        · rw [hvals, append, if_neg hne, hgetLast]
          simp only [hend]
          rfl

end Operations

end Appending

end Osf1.Sockbuf
