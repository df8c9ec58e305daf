import Osf1.Sockbuf.Appending

/-!
# Dropping in memory

`sbdrop` takes the record in front off the queue, frees the mbufs whose data is dropped, and puts what
is left of the record in front again.
-/

set_option autoImplicit false

namespace Osf1.Sockbuf

open List

section Dropping

open Osf1.Computation.RecordQueue

section Lists

theorem dropData_zero (r : List Buf) (q : List (List Buf)) : dropData 0 r q = (r, q) := by
  match r, q with
  | [], [] => rw [dropData]
  | [], r :: q => rw [dropData, if_pos rfl]
  | m :: r, q => rw [dropData, if_pos rfl]

end Lists

section Drop

variable {s : Sb} {q : List (List (ℕ × Buf))} {c r : List (ℕ × Buf)} {fuel len : ℕ} {mb : Option ℕ}

/-- The data of a chain and of the records behind it. -/
def total (c : List (ℕ × Buf)) (q : List (List (ℕ × Buf))) : ℕ := (bytes (vals c ++ (contents q).flatten)).length

/-- The storage of a chain and of the records behind it. -/
def totalStorage (c : List (ℕ × Buf)) (q : List (List (ℕ × Buf))) : ℕ := storage (vals c ++ (contents q).flatten)

/-- A length has been taken from the chain `c` and the records `q`, and `c'` and `q'` are left. -/
structure Dropped (s s' : Sb) (len : ℕ) (c c' : List (ℕ × Buf)) (q q' : List (List (ℕ × Buf))) :
    Prop where
  laid : Laid s'.mem (start q' none) q' [c']
  content : dropData len (vals c) (contents q) = (vals c', contents q')
  cc : s'.sb_cc = s.sb_cc - len
  mbcnt : s'.sb_mbcnt + totalStorage c q = s.sb_mbcnt + totalStorage c' q'
  limits : s'.limits = s.limits
  size : c'.length + q'.flatten.length ≤ c.length + q.flatten.length

theorem dropLoop_spec (hlaid : Laid s.mem (start q none) q [c]) (hlen : len ≤ total c q)
    (hfuel : c.length + q.flatten.length + q.length < fuel) :
    ∃ s' c' q', dropLoop fuel len (link c none) (start q none) s =
        .ok (link c' none, start q' none, s') ∧ Dropped s s' len c c' q q' := by
  induction fuel generalizing s c q len with
  | zero => omega
  | succ fuel ih =>
    by_cases hzero : len = 0
    · refine ⟨s, c, q, ?_, hlaid, ?_, ?_, rfl, rfl, le_rfl⟩
      · rw [dropLoop.eq_def]
        exact if_pos (by omega)
      · rw [hzero, dropData_zero]
      · rw [hzero]
        simp
    · have hpos : ¬(len : ℤ) ≤ 0 := by omega
      cases c with
      | nil =>
        cases q with
        | nil =>
          have : total [] [] = 0 := rfl
          omega
        | cons r q =>
          -- the next record comes to the front
          obtain ⟨hne, hr, hq⟩ := hlaid.queue
          obtain ⟨⟨a, x⟩, r, rfl⟩ := exists_cons_of_ne_nil hne
          have hdetach := (laid_nil.mp hlaid).detach
          obtain ⟨s', c', q', hrun, h⟩ := ih hdetach hlen (by
            simp only [length_nil, flatten_cons, length_append, length_cons]
              at hfuel ⊢
            omega)
          refine ⟨s', c', q', ?_, h.laid, ?_, h.cc, h.mbcnt, h.limits, ?_⟩
          · refine Eq.trans ?_ hrun
            show dropLoop (fuel + 1) len none (some a) s = _
            rw [dropLoop, if_neg hpos]
            simp only [get_eq hr.1, bind, Except.bind]
            rfl
          · rw [vals_nil, contents_cons, dropData, if_neg hzero]
            exact h.content
          · have := h.size
            simp only [flatten_cons, length_append, length_nil] at this ⊢
            omega
      | cons d c =>
        obtain ⟨a, x⟩ := d
        obtain ⟨np, ha, hc⟩ := hlaid.chains _ (mem_cons_self ..)
        by_cases hlt : len < x.m_len
        · let y : Buf := { x with m_off := x.m_off + len, data := x.data.drop len }
          refine ⟨{ s.put a ⟨y, link c none, np⟩ with sb_cc := s.sb_cc - len }, (a, y) :: c, q, ?_,
            hlaid.setFront y np, ?_, rfl, rfl, rfl, le_rfl⟩
          · show dropLoop (fuel + 1) len (some a) (start q none) s = _
            rw [dropLoop, if_neg hpos]
            simp only [get_eq ha, bind, Except.bind, Int.ofNat_lt.mpr hlt, if_true, Int.toNat_natCast]
            rfl
          · rw [vals_cons, dropData, if_neg hzero, if_pos hlt]
            rfl
        · have hle : x.m_len ≤ len := Nat.le_of_not_lt hlt
          have hcast : ((len - x.m_len : ℕ) : ℤ) = (len : ℤ) - x.m_len := by omega
          have hfree : Laid ((s.sbfree x).free a).mem (start q none) q [c] := hlaid.freeFront
          have hlen' : len - x.m_len ≤ total c q := by
            have hsplit : total ((a, x) :: c) q = x.m_len + total c q := by
              simp [total, Buf.m_len]
            omega
          obtain ⟨s', c', q', hrun, h⟩ := ih hfree hlen' (by simp only [length_cons] at hfuel; omega)
          refine ⟨s', c', q', ?_, h.laid, ?_, ?_, ?_, h.limits, ?_⟩
          · rw [hcast] at hrun
            refine Eq.trans ?_ hrun
            show dropLoop (fuel + 1) len (some a) (start q none) s = _
            rw [dropLoop, if_neg hpos]
            simp only [get_eq ha, bind, Except.bind]
            rw [if_neg (by omega)]
          · rw [vals_cons, dropData, if_neg hzero, if_neg hlt]
            exact h.content
          · have hs : ((s.sbfree x).free a).sb_cc = s.sb_cc - x.m_len := rfl
            rw [h.cc, hs, hcast]
            ring
          · have hs : ((s.sbfree x).free a).sb_mbcnt = s.sb_mbcnt - x.storage := rfl
            have hsplit : totalStorage ((a, x) :: c) q = x.storage + totalStorage c q := by
              simp [totalStorage]
            have hmbcnt := h.mbcnt
            rw [hsplit]
            push_cast
            linarith
          · have := h.size
            simp only [length_cons]
            omega

theorem dropEmpty_spec (hlaid : Laid s.mem mb q [c]) (hfuel : c.length < fuel) :
    ∃ s' c', dropEmpty fuel (link c none) s = .ok (link c' none, s') ∧ Laid s'.mem mb q [c'] ∧
      vals c' = (vals c).dropWhile (fun m => m.m_len = 0) ∧ s'.sb_cc = s.sb_cc ∧
      s'.sb_mbcnt + storage (vals c) = s.sb_mbcnt + storage (vals c') ∧ s'.limits = s.limits := by
  induction c generalizing fuel s with
  | nil =>
    obtain ⟨fuel, rfl⟩ := Nat.exists_eq_add_of_lt hfuel
    exact ⟨s, [], by simp [dropEmpty, link], hlaid, rfl, rfl, rfl, rfl⟩
  | cons d c ih =>
    obtain ⟨a, x⟩ := d
    obtain ⟨fuel, rfl⟩ : ∃ f, fuel = f + 1 := ⟨fuel - 1, by simp at hfuel; omega⟩
    obtain ⟨np, ha, hc⟩ := hlaid.chains _ (mem_cons_self ..)
    by_cases hzero : x.m_len = 0
    · have hfree : Laid ((s.sbfree x).free a).mem mb q [c] := hlaid.freeFront
      obtain ⟨s', c', hrun, hlaid', hvals, hcc, hmbcnt, hlimits⟩ := ih hfree (by simpa using hfuel)
      refine ⟨s', c', ?_, hlaid', ?_, ?_, ?_, hlimits⟩
      · refine Eq.trans ?_ hrun
        show dropEmpty (fuel + 1) (some a) s = _
        rw [dropEmpty]
        simp only [get_eq ha, hzero, if_true, bind, Except.bind]
      · rw [hvals, vals_cons, dropWhile_cons_of_pos (by simpa using hzero)]
      · have hs : ((s.sbfree x).free a).sb_cc = s.sb_cc - x.m_len := rfl
        rw [hcc, hs, hzero]
        simp
      · have hs : ((s.sbfree x).free a).sb_mbcnt = s.sb_mbcnt - x.storage := rfl
        rw [vals_cons, storage_cons]
        push_cast
        linarith
    · refine ⟨s, (a, x) :: c, ?_, hlaid, ?_, rfl, rfl, rfl⟩
      · show dropEmpty (fuel + 1) (some a) s = _
        rw [dropEmpty]
        simp only [get_eq ha, hzero, if_false, bind, Except.bind]
        rfl
      · rw [vals_cons, dropWhile_cons_of_neg (by simpa using hzero)]

theorem sbdrop_eq {next next' m m' : Option ℕ} {s₁ s₂ : Sb} (hnext : s.nextpkt = .ok next)
    (hloop : dropLoop fuel len s.sb_mb next s = .ok (m, next', s₁)) :
    dropEmpty fuel m s₁ = .ok (m', s₂) → sbdrop fuel len s = (match m' with
      | none => .ok { s₂ with sb_mb := next' }
      | some m => do
        let c ← s₂.get m
        .ok { s₂.put m { c with record := next' } with sb_mb := some m }) := by
  intro hempty
  unfold sbdrop
  simp only [hnext, hloop, hempty, bind, Except.bind] <;> rfl

theorem sbdrop_spec (h : Holds s q []) (hlen : len ≤ (bytes (contents q).flatten).length)
    (hfuel : q.flatten.length + q.length < fuel) :
    ∃ s' q', sbdrop fuel len s = .ok s' ∧ Holds s' q' [] ∧
      contents q' = drop len (contents q) ∧ s'.limits = s.limits := by
  cases q with
  | nil =>
    have hmb : s.sb_mb = none := h.laid.head
    obtain ⟨fuel, rfl⟩ := Nat.exists_eq_add_of_lt hfuel
    have hzero : len = 0 := by simpa using hlen
    refine ⟨{ s with sb_mb := none }, [], ?_, ⟨hmb ▸ h.laid, by rintro _ ⟨⟩, h.cc, h.mbcnt⟩, rfl, rfl⟩
    unfold sbdrop
    simp [Sb.nextpkt, hmb, hzero, dropLoop, dropEmpty, bind, Except.bind]
  | cons r q =>
    obtain ⟨hne, hr, hq⟩ := h.laid.queue
    obtain ⟨⟨a, x⟩, r, rfl⟩ := exists_cons_of_ne_nil hne
    have hmb : s.sb_mb = some a := h.laid.head
    have htotal : total ((a, x) :: r) q = (bytes (contents (((a, x) :: r) :: q)).flatten).length := by
      rw [contents_cons, flatten_cons]
      rfl
    obtain ⟨s₁, c₁, q₁, hloop, h₁⟩ := dropLoop_spec h.laid.detach (htotal ▸ hlen)
      (show ((a, x) :: r).length + q.flatten.length + q.length < fuel by
        simp only [flatten_cons, length_append, length_cons] at hfuel ⊢
        omega)
    obtain ⟨s₂, c₂, hempty, hlaid₂, hvals₂, hcc₂, hmbcnt₂, hlimits₂⟩ :=
      dropEmpty_spec h₁.laid (show c₁.length < fuel by
        have := h₁.size
        simp only [flatten_cons, length_append, length_cons] at hfuel this
        omega)
    have hdrop : drop len (contents (((a, x) :: r) :: q)) = settle (vals c₁) (contents q₁) := by
      rw [contents_cons, drop, h₁.content]
    have hnext : s.nextpkt = .ok (start q none) := by
      unfold Sb.nextpkt
      simp only [hmb, get_eq hr.1, bind, Except.bind]
    have hstart := sbdrop_eq hnext (by rw [hmb]; exact hloop) hempty
    have hcounts : s₂.sb_cc = (bytes (vals c₂ ++ (contents q₁).flatten)).length ∧
        s₂.sb_mbcnt = storage (vals c₂ ++ (contents q₁).flatten) := by
      have hbytes := bytes_drop len (contents (((a, x) :: r) :: q))
      rw [hdrop, bytes_settle, ← bytes_dropWhile, ← hvals₂, ← bytes_append] at hbytes
      constructor
      · rw [hcc₂, h₁.cc, h.cc, hbytes, length_drop]
        omega
      · have hstorage := h₁.mbcnt
        have hold : totalStorage ((a, x) :: r) q =
            storage (contents (((a, x) :: r) :: q)).flatten := by
          rw [contents_cons, flatten_cons]
          rfl
        rw [hold, h.mbcnt] at hstorage
        simp only [totalStorage, storage_append] at hstorage ⊢
        push_cast at hstorage ⊢
        linarith
    cases c₂ with
    | nil =>
      have hsettle : settle (vals c₁) (contents q₁) = contents q₁ := by
        unfold settle
        rw [← hvals₂]
        rfl
      refine ⟨_, q₁, hstart, ⟨laid_nil.mp hlaid₂, by rintro _ ⟨⟩, ?_, ?_⟩, hdrop ▸ hsettle.symm, ?_⟩
      · exact hcounts.1
      · exact hcounts.2
      · exact hlimits₂.trans h₁.limits
    | cons d c₂ =>
      obtain ⟨b, y⟩ := d
      obtain ⟨np, hb, -⟩ := hlaid₂.chains _ (mem_cons_self ..)
      have hsettle : settle (vals c₁) (contents q₁) = contents (((b, y) :: c₂) :: q₁) := by
        unfold settle
        rw [← hvals₂]
        rfl
      refine ⟨{ s₂.put b ⟨y, link c₂ none, start q₁ none⟩ with sb_mb := some b }, ((b, y) :: c₂) :: q₁,
        ?_, ⟨?_, by rintro _ ⟨⟩, ?_, ?_⟩, hdrop ▸ hsettle.symm, ?_⟩
      · rw [hstart]
        simp only [link, get_eq hb, bind, Except.bind]
      · exact hlaid₂.insertFront (fun d hd => Function.update_of_ne hd ..) (Function.update_self ..)
      · exact hcounts.1
      · exact hcounts.2
      · exact hlimits₂.trans h₁.limits

end Drop

end Dropping

/-!
## Fuel

More fuel does not change an outcome, unless it was that the fuel did not suffice.
-/

section Fuel

/-- The second outcome is the first one, or there was no first one. -/
def Refines {α : Type} (x y : Except Stop α) : Prop := x = .error .fuel ∨ x = y

section Refines

variable {α β : Type} {x y : Except Stop α} {f g : α → Except Stop β}

theorem Refines.rfl : Refines x x := .inr (by rfl)

theorem Refines.fuel : Refines (.error .fuel) y := .inl (by rfl)

theorem Refines.bind (h : Refines x y) (hf : ∀ a, Refines (f a) (g a)) : Refines (x >>= f) (y >>= g) := by
  rcases h with rfl | rfl
  · exact .fuel
  · cases x with
    | error e => exact .rfl
    | ok a => exact hf a

theorem Refines.eq_ok (h : Refines x y) {a : α} (hx : x = .ok a) : y = .ok a := by
  rcases h with rfl | rfl
  · cases hx
  · exact hx

theorem Refines.trans {z : Except Stop α} (h : Refines x y) (h' : Refines y z) : Refines x z := by
  rcases h with rfl | rfl
  · exact .fuel
  · exact h'

theorem Refines.of_succ {op : ℕ → Except Stop α} (h : ∀ n, Refines (op n) (op (n + 1))) {m n : ℕ}
    (hmn : m ≤ n) : Refines (op m) (op n) := by
  induction n, hmn using Nat.le_induction with
  | base => exact .rfl
  | succ n _ ih => exact ih.trans (h n)

end Refines

section Loops

variable (s : Sb)

theorem lastRecord_succ (fuel n : ℕ) : Refines (lastRecord fuel n s) (lastRecord (fuel + 1) n s) := by
  induction fuel generalizing n with
  | zero => exact .fuel
  | succ fuel ih =>
    refine Refines.rfl.bind fun c => ?_
    cases c.record with
    | none => exact .rfl
    | some n' => exact ih n'

theorem lastMbuf_succ (fuel n : ℕ) : Refines (lastMbuf fuel n s) (lastMbuf (fuel + 1) n s) := by
  induction fuel generalizing n with
  | zero => exact .fuel
  | succ fuel ih =>
    refine Refines.rfl.bind fun c => ?_
    cases c.next with
    | none => exact .rfl
    | some n' =>
      by_cases heor : c.val.m_eor = true
      · simp only [heor, if_true]
        exact .rfl
      · simp only [heor]
        exact ih n'

theorem sbcompress_succ (fuel : ℕ) (eor : Bool) (m n : Option ℕ) :
    Refines (sbcompress fuel eor m n s) (sbcompress (fuel + 1) eor m n s) := by
  induction fuel generalizing eor m n s with
  | zero => exact .fuel
  | succ fuel ih =>
    cases m with
    | none =>
      cases n with
      | none => exact .rfl
      | some n => exact .rfl
    | some m =>
      cases n with
      | none =>
        refine Refines.rfl.bind fun c => ?_
        by_cases hlen : c.val.m_len = 0
        · simp only [hlen, if_true]
          exact ih ..
        · simp only [hlen, if_false]
          exact ih ..
      | some n =>
        refine Refines.rfl.bind fun c => ?_
        by_cases hlen : c.val.m_len = 0
        · simp only [hlen, if_true]
          exact ih ..
        · simp only [hlen, if_false]
          refine Refines.rfl.bind fun d => ?_
          by_cases hroom : room d.val c.val = true
          · simp only [hroom, if_true]
            exact ih ..
          · simp only [hroom]
            exact ih ..

theorem isOob_succ (fuel m : ℕ) : Refines (isOob fuel m s) (isOob (fuel + 1) m s) := by
  induction fuel generalizing m with
  | zero => exact .fuel
  | succ fuel ih =>
    refine Refines.rfl.bind fun c => ?_
    cases c.val.m_type
    case MT_CONTROL =>
      cases c.next with
      | none => exact .rfl
      | some m => exact ih m
    all_goals exact .rfl

section

variable (fuel : ℕ)
include fuel

theorem oobPlace_succ (mp m : Option ℕ) : Refines (oobPlace fuel mp m s) (oobPlace (fuel + 1) mp m s) := by
  induction fuel generalizing mp m with
  | zero => exact .fuel
  | succ fuel ih =>
    cases m with
    | none => exact .rfl
    | some m =>
      refine (isOob_succ s fuel m).bind fun b => ?_
      cases b with
      | false => exact .rfl
      | true => exact Refines.rfl.bind fun c => ih ..

theorem chainLength_succ (m : Option ℕ) : Refines (chainLength fuel m s) (chainLength (fuel + 1) m s) := by
  induction fuel generalizing m with
  | zero => exact .fuel
  | succ fuel ih =>
    cases m with
    | none => exact .rfl
    | some m =>
      exact Refines.rfl.bind fun c => (ih c.next).bind fun r => .rfl

theorem sballocs_succ (m : Option ℕ) : Refines (sballocs fuel m s) (sballocs (fuel + 1) m s) := by
  induction fuel generalizing m s with
  | zero => exact .fuel
  | succ fuel ih =>
    cases m with
    | none => exact .rfl
    | some m =>
      exact Refines.rfl.bind fun c => ih ..

theorem dropLoop_succ (len : ℤ) (m next : Option ℕ) :
    Refines (dropLoop fuel len m next s) (dropLoop (fuel + 1) len m next s) := by
  induction fuel generalizing len m next s with
  | zero => exact .fuel
  | succ fuel ih =>
    rw [dropLoop.eq_def (fuel + 1), dropLoop.eq_def (fuel + 1 + 1)]
    by_cases hlen : len ≤ 0
    · simp only [hlen, if_true]
      exact .rfl
    · simp only [hlen, if_false]
      cases m with
      | none =>
        cases next with
        | none => exact .rfl
        | some m => exact Refines.rfl.bind fun c => ih ..
      | some m =>
        refine Refines.rfl.bind fun c => ?_
        by_cases hlt : len < c.val.m_len
        · simp only [hlt, if_true]
          exact .rfl
        · simp only [hlt, if_false]
          exact ih ..

theorem dropEmpty_succ (m : Option ℕ) : Refines (dropEmpty fuel m s) (dropEmpty (fuel + 1) m s) := by
  induction fuel generalizing m s with
  | zero => exact .fuel
  | succ fuel ih =>
    cases m with
    | none => exact .rfl
    | some m =>
      refine Refines.rfl.bind fun c => ?_
      by_cases hlen : c.val.m_len = 0
      · simp only [hlen, if_true]
        exact ih ..
      · simp only [hlen, if_false]
        exact .rfl

theorem freeChain_succ (m : Option ℕ) : Refines (freeChain fuel m s) (freeChain (fuel + 1) m s) := by
  induction fuel generalizing m s with
  | zero => exact .fuel
  | succ fuel ih =>
    cases m with
    | none => exact .rfl
    | some m =>
      exact Refines.rfl.bind fun c => ih ..

end

end Loops

section Functions

variable (s : Sb)

theorem startRecord_succ (fuel m0 : ℕ) : Refines (startRecord fuel m0 s) (startRecord (fuel + 1) m0 s) := by
  refine Refines.rfl.bind fun c => ?_
  cases c.next with
  | none => exact sbcompress_succ ..
  | some m =>
    by_cases heor : c.val.m_eor = true
    · simp only [heor, if_true]
      exact Refines.rfl.bind fun d => sbcompress_succ ..
    · simp only [heor]
      exact sbcompress_succ ..

theorem linkRecord_succ (fuel m0 : ℕ) : Refines (linkRecord fuel m0 s) (linkRecord (fuel + 1) m0 s) := by
  unfold linkRecord
  cases s.sb_mb with
  | none => exact .rfl
  | some n => exact (lastRecord_succ s fuel n).bind fun n => .rfl

theorem sbappendrecord_succ (fuel : ℕ) (m0 : Option ℕ) :
    Refines (sbappendrecord fuel m0 s) (sbappendrecord (fuel + 1) m0 s) := by
  cases m0 with
  | none => exact .rfl
  | some m0 =>
    exact Refines.rfl.bind fun c => (linkRecord_succ _ fuel m0).bind fun s => startRecord_succ ..

theorem sbappend_succ (fuel : ℕ) (m : Option ℕ) : Refines (sbappend fuel m s) (sbappend (fuel + 1) m s) := by
  unfold sbappend
  cases m with
  | none => exact .rfl
  | some m =>
    cases s.sb_mb with
    | none => exact sbcompress_succ ..
    | some n =>
      refine (lastRecord_succ s fuel n).bind fun n => (lastMbuf_succ s fuel n).bind fun r => ?_
      cases r with
      | none => exact sbappendrecord_succ ..
      | some n => exact sbcompress_succ ..

theorem sbinsertoob_succ (fuel : ℕ) (m0 : Option ℕ) :
    Refines (sbinsertoob fuel m0 s) (sbinsertoob (fuel + 1) m0 s) := by
  cases m0 with
  | none => exact .rfl
  | some m0 =>
    exact (oobPlace_succ s fuel none s.sb_mb).bind fun r => Refines.rfl.bind fun c =>
      Refines.rfl.bind fun s => startRecord_succ ..

theorem addRecord_succ (fuel m : ℕ) : Refines (addRecord fuel m s) (addRecord (fuel + 1) m s) := by
  exact (sballocs_succ s fuel (some m)).bind fun s => linkRecord_succ ..

section

variable (fuel : ℕ)
include fuel

theorem sbappendaddr_succ (asa : List Byte) (m0 control mget : Option ℕ) :
    Refines (sbappendaddr fuel asa m0 control mget s)
      (sbappendaddr (fuel + 1) asa m0 control mget s) := by
  refine Refines.rfl.bind fun len => (chainLength_succ s fuel control).bind fun r => ?_
  obtain ⟨clen, n⟩ := r
  by_cases hspace : s.sbspace < int (asa.length + len + clen)
  · simp only [hspace, if_true]
    exact .rfl
  · simp only [hspace, if_false]
    by_cases hlong : MLEN < asa.length
    · simp only [hlong, if_true]
      exact .rfl
    · simp only [hlong, if_false]
      cases mget with
      | none => exact .rfl
      | some m =>
        exact Refines.rfl.bind fun s => (addRecord_succ _ fuel m).bind fun s => .rfl

theorem sbappendcontrol_succ (m0 control : Option ℕ) :
    Refines (sbappendcontrol fuel m0 control s) (sbappendcontrol (fuel + 1) m0 control s) := by
  cases control with
  | none => exact .rfl
  | some control =>
    refine (chainLength_succ s fuel _).bind fun r => (chainLength_succ s fuel m0).bind fun r' => ?_
    dsimp only
    split_ifs
    · exact .rfl
    · exact Refines.rfl.bind fun s => (addRecord_succ _ fuel control).bind fun s => .rfl

theorem sbdrop_succ (len : ℤ) : Refines (sbdrop fuel len s) (sbdrop (fuel + 1) len s) := by
  refine Refines.rfl.bind fun next => (dropLoop_succ s fuel len s.sb_mb next).bind fun r => ?_
  obtain ⟨m, next, s₁⟩ := r
  exact (dropEmpty_succ s₁ fuel m).bind fun r => .rfl

theorem sbdroprecord_succ : Refines (sbdroprecord fuel s) (sbdroprecord (fuel + 1) s) := by
  unfold sbdroprecord
  cases s.sb_mb with
  | none => exact .rfl
  | some m => exact Refines.rfl.bind fun c => freeChain_succ ..

theorem flushLoop_succ : Refines (flushLoop fuel s) (flushLoop (fuel + 1) s) := by
  induction fuel generalizing s with
  | zero => exact .fuel
  | succ fuel ih =>
    rw [flushLoop, flushLoop]
    by_cases hzero : s.sb_mbcnt = 0
    · simp only [hzero, if_true]
      exact .rfl
    · simp only [hzero, if_false]
      exact (sbdrop_succ s fuel _).bind fun s => ih s

theorem sbflush_succ : Refines (sbflush fuel s) (sbflush (fuel + 1) s) := by
  unfold sbflush
  by_cases hlock : s.sb_lock = true
  · simp only [hlock, if_true]
    exact .rfl
  · simp only [hlock]
    exact (flushLoop_succ s fuel).bind fun s => .rfl

end

end Functions

end Fuel

/-!
## Flushing

`sbflush` drops `(int)sb_cc` bytes until no storage is left.
-/

section Flushing

open Osf1.Computation.RecordQueue

section Int

theorem int_of_lt {n : ℕ} (h : n < 2 ^ 31) : int n = n := by
  unfold int
  rw [BitVec.toInt_ofInt]
  apply Int.bmod_eq_of_le
  · omega
  · omega

theorem int_of_le {n : ℕ} (h : 2 ^ 31 ≤ n) : int n ≤ 0 ∨ (0 ≤ int n ∧ int n + 2 ^ 31 ≤ n) := by
  unfold int
  rw [BitVec.toInt_ofInt, Int.bmod_def]
  split_ifs <;> omega

end Int

section Record

variable {s : Sb} {q cs : List (List (ℕ × Buf))} {c : List (ℕ × Buf)} {fuel : ℕ} {mb : Option ℕ}

theorem freeChain_spec (hlaid : Laid s.mem mb q (c :: cs)) (hfuel : c.length < fuel) :
    ∃ s', freeChain fuel (link c none) s = .ok s' ∧ Laid s'.mem mb q cs ∧
      s'.sb_cc = s.sb_cc - (bytes (vals c)).length ∧ s'.sb_mbcnt = s.sb_mbcnt - storage (vals c) ∧
      s'.sb_mb = s.sb_mb ∧ s'.limits = s.limits := by
  induction c generalizing fuel s with
  | nil =>
    obtain ⟨fuel, rfl⟩ := Nat.exists_eq_add_of_lt hfuel
    exact ⟨s, by simp [freeChain, link], laid_nil.mp hlaid, by simp, by simp, rfl, rfl⟩
  | cons d c ih =>
    obtain ⟨a, x⟩ := d
    obtain ⟨fuel, rfl⟩ : ∃ f, fuel = f + 1 := ⟨fuel - 1, by simp at hfuel; omega⟩
    obtain ⟨np, ha, hc⟩ := hlaid.chains _ (mem_cons_self ..)
    have hfree : Laid ((s.sbfree x).free a).mem mb q (c :: cs) := hlaid.freeFront
    obtain ⟨s', hrun, hlaid', hcc, hmbcnt, hmb, hlimits⟩ := ih hfree (by simpa using hfuel)
    refine ⟨s', ?_, hlaid', ?_, ?_, hmb, hlimits⟩
    · refine Eq.trans ?_ hrun
      show freeChain (fuel + 1) (some a) s = _
      rw [freeChain]
      simp only [get_eq ha, bind, Except.bind]
    · have hs : ((s.sbfree x).free a).sb_cc = s.sb_cc - x.m_len := rfl
      rw [hcc, hs, vals_cons, bytes_cons, length_append, Buf.m_len]
      push_cast
      ring
    · have hs : ((s.sbfree x).free a).sb_mbcnt = s.sb_mbcnt - x.storage := rfl
      rw [hmbcnt, hs, vals_cons, storage_cons]
      push_cast
      ring

theorem sbdroprecord_spec (h : Holds s q []) (hfuel : q.flatten.length < fuel) :
    ∃ s' q', sbdroprecord fuel s = .ok s' ∧ Holds s' q' [] ∧
      contents q' = (contents q).tail ∧ s'.limits = s.limits := by
  cases q with
  | nil =>
    have hmb : s.sb_mb = none := h.laid.head
    refine ⟨s, [], ?_, h, rfl, rfl⟩
    unfold sbdroprecord
    rw [hmb]
  | cons r q =>
    obtain ⟨hne, hr, hq⟩ := h.laid.queue
    obtain ⟨⟨a, x⟩, r, rfl⟩ := exists_cons_of_ne_nil hne
    have hmb : s.sb_mb = some a := h.laid.head
    have hdetach : Laid { s with sb_mb := start q none }.mem (start q none) q [(a, x) :: r] := h.laid.detach
    obtain ⟨s', hrun, hlaid, hcc, hmbcnt, hmb', hlimits⟩ := freeChain_spec hdetach
      (show ((a, x) :: r).length < fuel by
        simp only [flatten_cons, length_append] at hfuel
        omega)
    refine ⟨s', q, ?_, ⟨?_, nofun, ?_, ?_⟩, rfl, hlimits⟩
    · refine Eq.trans ?_ hrun
      unfold sbdroprecord
      simp only [hmb, get_eq hr.1, bind, Except.bind]
      rfl
    · rw [hmb']
      exact hlaid
    · rw [hcc, h.cc, contents_cons, flatten_cons, bytes_append, length_append]
      push_cast
      ring
    · rw [hmbcnt, h.mbcnt, contents_cons, flatten_cons, storage_append]
      push_cast
      ring

end Record

section Flush

variable {s : Sb} {q : List (List (ℕ × Buf))} {fuel : ℕ}

theorem contents_length {q q' : List (List (ℕ × Buf))} (h : contents q = contents q') :
    q.length = q'.length ∧ q.flatten.length = q'.flatten.length := by
  have hlen (q : List (List (ℕ × Buf))) : (contents q).length = q.length ∧
      (contents q).flatten.length = q.flatten.length := by
    simp [contents, length_flatten, map_map, Function.comp_def]
  obtain ⟨h₁, h₂⟩ := hlen q
  obtain ⟨h₁', h₂'⟩ := hlen q'
  rw [← h₁, ← h₂, h, h₁', h₂']
  exact ⟨rfl, rfl⟩

theorem Holds.mbcnt_eq_zero (h : Holds s q []) : s.sb_mbcnt = 0 ↔ q = [] := by
  cases q with
  | nil => simp [h.mbcnt]
  | cons r q =>
    obtain ⟨d, r, rfl⟩ := exists_cons_of_ne_nil h.laid.queue.1
    have hpos : 0 < d.2.storage := Nat.lt_of_lt_of_le (by decide) (Nat.le_add_right MSIZE _)
    have hmbcnt := h.mbcnt
    simp only [contents_cons, vals_cons, flatten_cons, cons_append, storage_cons] at hmbcnt
    constructor
    · omega
    · intro hnil
      cases hnil

theorem drop_empty {r : List Buf} {q : List (List Buf)} (h : bytes r = []) : drop 0 (r :: q) = q := by
  have hall : r.dropWhile (fun m => m.m_len = 0) = [] := by
    refine dropWhile_eq_nil_iff.mpr fun m hm => ?_
    have hdata : m.data = [] := flatMap_eq_nil_iff.mp h m hm
    simp [Buf.m_len, hdata]
  show settle (dropData 0 r q).1 (dropData 0 r q).2 = q
  rw [dropData_zero]
  unfold settle
  rw [hall]

theorem flushLoop_empty (h : Holds s q []) (hempty : bytes (contents q).flatten = [])
    (hfuel : q.flatten.length + 2 * q.length < fuel) :
    ∃ s', flushLoop fuel s = .ok s' ∧ Holds s' [] [] ∧ s'.limits = s.limits := by
  induction hn : q.length generalizing fuel s q with
  | zero =>
    obtain ⟨fuel, rfl⟩ := Nat.exists_eq_add_of_lt hfuel
    obtain rfl := length_eq_zero_iff.mp hn
    refine ⟨s, ?_, h, rfl⟩
    simp [flushLoop, h.mbcnt_eq_zero.mpr rfl]
  | succ n ih =>
    obtain ⟨fuel, rfl⟩ : ∃ f, fuel = f + 1 := ⟨fuel - 1, by omega⟩
    obtain ⟨r, q, rfl⟩ := exists_cons_of_length_eq_add_one hn
    have hcc : s.sb_cc = (0 : ℕ) := by rw [h.cc, hempty]; rfl
    obtain ⟨s₁, q₁, hdrop, hholds, hcontents, hlimits⟩ := sbdrop_spec h (Nat.zero_le _)
      (show (r :: q).flatten.length + (r :: q).length < fuel by omega)
    rw [contents_cons, flatten_cons, bytes_append] at hempty
    obtain ⟨hr, hq⟩ := append_eq_nil_iff.mp hempty
    have hrest : contents q₁ = contents q := by rw [hcontents, contents_cons, drop_empty hr]
    obtain ⟨hlen, hflat⟩ := contents_length hrest
    have hrne : r ≠ [] := h.laid.queue.1
    obtain ⟨s', hrun, hholds', hlimits'⟩ := ih hholds (hrest ▸ hq)
      (show q₁.flatten.length + 2 * q₁.length < fuel by
        simp only [flatten_cons, length_append, length_cons] at hfuel
        omega) (by simp only [length_cons] at hn; omega)
    refine ⟨s', ?_, hholds', hlimits'.trans hlimits⟩
    have hne : s.sb_mbcnt ≠ 0 := fun hzero => nomatch h.mbcnt_eq_zero.mp hzero
    rw [flushLoop, if_neg hne, hcc, int_of_lt (by omega), hdrop]
    exact hrun

theorem flushLoop_spec (h : Holds s q []) (hcc : s.sb_cc < 2 ^ 31) :
    ∃ fuel s', flushLoop fuel s = .ok s' ∧ Holds s' [] [] ∧ s'.limits = s.limits := by
  by_cases hzero : s.sb_mbcnt = 0
  · obtain rfl := h.mbcnt_eq_zero.mp hzero
    exact ⟨1, s, by rw [flushLoop, if_pos hzero], h, rfl⟩
  have hlen : (bytes (contents q).flatten).length < 2 ^ 31 := by
    have := h.cc
    omega
  obtain ⟨s₁, q₁, hdrop, hholds, hcontents, hlimits⟩ := sbdrop_spec h le_rfl
    (Nat.lt_succ_self (q.flatten.length + q.length))
  have hempty : bytes (contents q₁).flatten = [] := by
    rw [hcontents, bytes_drop, drop_length]
  obtain ⟨fuel, hfuel, hfuel₁⟩ : ∃ fuel, (q.flatten.length + q.length).succ ≤ fuel ∧
      q₁.flatten.length + 2 * q₁.length < fuel :=
    ⟨(q.flatten.length + q.length).succ + (q₁.flatten.length + 2 * q₁.length), by omega, by omega⟩
  obtain ⟨s', hrun, hholds', hlimits'⟩ := flushLoop_empty hholds hempty hfuel₁
  have hdrop' : sbdrop fuel (bytes (contents q).flatten).length s = .ok s₁ :=
    (Refines.of_succ (fun n => sbdrop_succ s n _) hfuel).eq_ok hdrop
  refine ⟨fuel + 1, s', ?_, hholds', hlimits'.trans hlimits⟩
  rw [flushLoop, if_neg hzero, h.cc, int_of_lt hlen, hdrop']
  exact hrun

theorem sbflush_spec (h : Holds s q []) (hlock : s.sb_lock = false) (hcc : s.sb_cc < 2 ^ 31) :
    ∃ fuel s', sbflush fuel s = .ok s' ∧ Holds s' [] [] ∧ s'.limits = s.limits := by
  obtain ⟨fuel, s', hloop, hholds', hlimits'⟩ := flushLoop_spec h hcc
  have hcc' : s'.sb_cc = 0 := hholds'.cc
  have hmb' : s'.sb_mb = none := hholds'.laid.head
  refine ⟨fuel, s', ?_, hholds', hlimits'⟩
  unfold sbflush
  simp [hlock, hloop, hcc', hmb', bind, Except.bind]

theorem sbdrop_nonpos {len : ℤ} (hlen : len ≤ 0) : sbdrop fuel len s = sbdrop fuel 0 s := by
  have hloop (m next : Option ℕ) : dropLoop fuel len m next s = dropLoop fuel 0 m next s := by
    cases fuel with
    | zero => rfl
    | succ fuel => simp [dropLoop, hlen]
  unfold sbdrop
  simp only [hloop]

variable (fuel) in
theorem sbdrop_any {len : ℕ} (h : Holds s q []) (hlen : len ≤ (bytes (contents q).flatten).length) :
    sbdrop fuel len s = .error .fuel ∨
      ∃ s' q', sbdrop fuel len s = .ok s' ∧ Holds s' q' [] ∧
        contents q' = drop len (contents q) ∧ s'.limits = s.limits := by
  obtain ⟨s', q', hrun, hspec⟩ := sbdrop_spec h hlen
    (show q.flatten.length + q.length < fuel + (q.flatten.length + q.length + 1) by omega)
  rcases Refines.of_succ (fun n => sbdrop_succ s n len) (Nat.le_add_right fuel _) with hfuel | heq
  · exact .inl hfuel
  · exact .inr ⟨s', q', heq.trans hrun, hspec⟩

theorem flushLoop_large (h : Holds s q []) (hcc : 2 ^ 31 ≤ s.sb_cc) : flushLoop fuel s = .error .fuel := by
  induction fuel generalizing s q with
  | zero => rfl
  | succ fuel ih =>
    have hne : s.sb_mbcnt ≠ 0 := by
      intro hzero
      obtain rfl := h.mbcnt_eq_zero.mp hzero
      have := h.cc
      simp only [contents_nil, flatten_nil, bytes_nil, length_nil] at this
      omega
    obtain ⟨len, hlen, hsame⟩ : ∃ len : ℕ, len + 2 ^ 31 ≤ (bytes (contents q).flatten).length ∧
        sbdrop fuel (int s.sb_cc) s = sbdrop fuel len s := by
      have hcc' := h.cc
      rcases int_of_le (show 2 ^ 31 ≤ (bytes (contents q).flatten).length by omega) with hneg | hpos
      · exact ⟨0, by omega, sbdrop_nonpos (by rw [hcc']; exact hneg)⟩
      · refine ⟨(int s.sb_cc).toNat, ?_, ?_⟩
        · rw [hcc']
          omega
        · rw [Int.toNat_of_nonneg (by rw [hcc']; exact hpos.1)]
    rw [flushLoop, if_neg hne, hsame]
    rcases sbdrop_any fuel h (show len ≤ _ by omega) with hfuel | ⟨s', q', hrun, h', hq', -⟩
    · rw [hfuel]
      rfl
    · rw [hrun]
      refine ih h' ?_
      rw [h'.cc, hq', bytes_drop, length_drop]
      omega

theorem sbflush_large (h : Holds s q []) (hlock : s.sb_lock = false) (hcc : 2 ^ 31 ≤ s.sb_cc) :
    sbflush fuel s = .error .fuel := by
  unfold sbflush
  simp [hlock, flushLoop_large h hcc, bind, Except.bind]

end Flush

end Flushing

end Osf1.Sockbuf
