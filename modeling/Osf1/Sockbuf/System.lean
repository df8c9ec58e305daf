import Osf1.Computation.Transition
import Osf1.Sockbuf.Dropping

/-!
# Whole records in memory

Out-of-band data is put in front, and address and control data are put behind as a record that is not
compressed.
-/

set_option autoImplicit false

namespace Osf1.Sockbuf

open Function List

section Inserting

open Osf1.Computation.RecordQueue

section Oob

variable {s : Sb} {q : List (List (ℕ × Buf))} {l c : List (ℕ × Buf)} {fuel h : ℕ} {np : Option ℕ}

theorem isOob_spec (hchain : Chain s.mem np l none) (hstart : link l none = some h)
    (hfuel : l.length ≤ fuel) : isOob fuel h s = .ok (oob (vals l)) := by
  induction l generalizing h fuel np with
  | nil => cases hstart
  | cons d l ih =>
    obtain ⟨fuel, rfl⟩ : ∃ f, fuel = f + 1 := ⟨fuel - 1, by simp at hfuel; omega⟩
    obtain rfl := Option.some_inj.mp hstart
    obtain ⟨hd, hl⟩ := hchain
    rw [vals_cons, isOob, get_eq hd]
    cases l with
    | nil => cases htype : d.2.m_type <;> simp [oob, htype, link, bind, Except.bind]
    | cons e l =>
      have hrest := ih hl rfl (by simpa using hfuel)
      cases htype : d.2.m_type
      case MT_CONTROL => simpa [oob, htype, link, bind, Except.bind] using hrest
      all_goals simp [oob, htype, link, bind, Except.bind]

/-- The record behind which something is put, or none if it becomes the first. -/
def lastHead (mp : Option ℕ) (q : List (List (ℕ × Buf))) : Option ℕ :=
  match q.getLast? with
  | none => mp
  | some r => link r none

theorem lastHead_cons (mp : Option ℕ) (r : List (ℕ × Buf)) : lastHead mp (r :: q) = lastHead (link r none) q := by
  cases q with
  | nil => rfl
  | cons r' q =>
    unfold lastHead
    rw [getLast?_cons_cons]
    cases hlast : (r' :: q).getLast? with
    | none => simp at hlast
    | some r => rfl

theorem oobPlace_spec (mp : Option ℕ) (hqueue : Queue s.mem q none) (hpos : 0 < fuel)
    (hfuel : ∀ r ∈ q, q.length + r.length ≤ fuel) :
    ∃ q₁ q₂, q = q₁ ++ q₂ ∧ contents q₁ = (contents q).takeWhile oob ∧
      contents q₂ = (contents q).dropWhile oob ∧
      oobPlace fuel mp (start q none) s = .ok (lastHead mp q₁, start q₂ none) := by
  induction q generalizing fuel mp with
  | nil =>
    obtain ⟨fuel, rfl⟩ := Nat.exists_eq_add_of_lt hpos
    exact ⟨[], [], rfl, rfl, rfl, by simp [oobPlace, start, lastHead]⟩
  | cons r q ih =>
    obtain ⟨fuel, rfl⟩ : ∃ f, fuel = f + 1 := ⟨fuel - 1, by omega⟩
    obtain ⟨hne, hr, hq⟩ := hqueue
    obtain ⟨d, r, rfl⟩ := exists_cons_of_ne_nil hne
    have hoob : isOob fuel d.1 s = .ok (oob (vals (d :: r))) := by
      refine isOob_spec hr rfl ?_
      have := hfuel _ (mem_cons_self ..)
      simp only [length_cons] at this ⊢
      omega
    have hhead : start ((d :: r) :: q) none = some d.1 := rfl
    rw [hhead, oobPlace, hoob, contents_cons]
    by_cases hyes : oob (vals (d :: r)) = true
    · have hfuel' : ∀ r ∈ q, q.length + r.length ≤ fuel := by
        intro r' hr'
        have := hfuel r' (mem_cons_of_mem _ hr')
        simp only [length_cons] at this
        omega
      have hpos' : 0 < fuel := by
        have := hfuel _ (mem_cons_self ..)
        simp only [length_cons] at this
        omega
      obtain ⟨q₁, q₂, rfl, htake, hdrop, hrun⟩ := ih (some d.1) hq hpos' hfuel'
      refine ⟨(d :: r) :: q₁, q₂, rfl, ?_, ?_, ?_⟩
      · rw [takeWhile_cons_of_pos hyes, ← htake, contents_cons]
      · rw [dropWhile_cons_of_pos hyes, hdrop]
      · rw [lastHead_cons]
        simp only [hyes, get_eq hr.1, if_true, bind, Except.bind]
        exact hrun
    · refine ⟨[], (d :: r) :: q, rfl, ?_, ?_, ?_⟩
      · rw [takeWhile_cons_of_neg hyes, contents_nil]
      · rw [dropWhile_cons_of_neg hyes, contents_cons]
      · simp only [hyes, bind, Except.bind]
        rfl

theorem sbinsertoob_spec (h : Holds s q [c]) (hpos : 0 < fuel)
    (hfuel : ∀ r ∈ q, q.length + r.length ≤ fuel) (hc : c.length < fuel) :
    ∃ s' q', sbinsertoob fuel (link c none) s = .ok s' ∧ Holds s' q' [] ∧
      contents q' = insertoob (contents q) (vals c) ∧ s'.limits = s.limits := by
  cases c with
  | nil =>
    refine ⟨s, q, rfl, ⟨laid_nil.mp h.laid, nofun, h.cc, h.mbcnt⟩, ?_, rfl⟩
    rw [vals_nil, insertoob, if_pos rfl]
  | cons d c =>
    obtain ⟨a, x⟩ := d
    have ha := (h.apart _ (mem_cons_self ..)).1
    obtain ⟨q₁, q₂, rfl, htake, hdrop, hplace⟩ := oobPlace_spec none h.laid.queue hpos hfuel
    rw [← h.laid.head] at hplace
    let s₁ : Sb := (s.sballoc x).put a ⟨x, link c none, start q₂ none⟩
    -- the chain is put between the two parts of the queue
    have hlinked : ∃ s₂, setPlace (lastHead none q₁) a s₁ = .ok s₂ ∧
        Laid s₂.mem s₂.sb_mb (q₁ ++ ((a, x) :: c) :: q₂) [] ∧ s₂.sb_cc = s₁.sb_cc ∧
        s₂.sb_mbcnt = s₁.sb_mbcnt ∧ s₂.limits = s₁.limits := by
      rcases eq_nil_or_concat' q₁ with rfl | ⟨q₁, r, rfl⟩
      · refine ⟨{ s₁ with sb_mb := some a }, rfl, ?_, rfl, rfl, rfl⟩
        exact h.laid.insertFront (fun b hb => update_of_ne hb ..) (update_self ..)
      · have hlaid := h.laid
        rw [append_assoc, singleton_append] at hlaid
        obtain ⟨-, hne, hr, -⟩ := queue_append.mp hlaid.queue
        obtain ⟨⟨b, y⟩, r, rfl⟩ := exists_cons_of_ne_nil hne
        have hlast : lastHead none (q₁ ++ [(b, y) :: r]) = some b := by
          rw [lastHead, getLast?_concat]
          rfl
        have hba : b ≠ a := by
          have hcells : cells (q₁ ++ ((b, y) :: r) :: q₂) + cells [(a, x) :: c] =
              {(a, x)} + ({(b, y)} + (block r + block c + cells q₁ + cells q₂)) := by
            simp only [cells_append, cells_cons, cells_nil, block_cons]
            abel
          have hnot := hlaid.apart (a := a) hcells (by simp [places])
          rintro rfl
          exact hnot (by simp [places])
        have hb : s₁.mem b = some ⟨y, link r none, start q₂ none⟩ := (update_of_ne hba ..).trans hr.1
        refine ⟨s₁.put b ⟨y, link r none, some a⟩, ?_, ?_, rfl, rfl, rfl⟩
        · simp only [setPlace, hlast, get_eq hb, bind, Except.bind]
        · rw [append_assoc, singleton_append]
          refine hlaid.insertBehind (fun d hda hdb => ?_) ?_ (update_self ..)
          · exact (update_of_ne hdb ..).trans (update_of_ne hda ..)
          · exact (update_of_ne hba.symm ..).trans (update_self ..)
    obtain ⟨s₂, hlink, hlaid₂, hcc, hmbcnt, hlimits⟩ := hlinked
    obtain ⟨s', r, hrun, hlaid', hvals, hcount⟩ :=
      startRecord_spec hlaid₂ (show c.length < fuel by simp at hc; omega)
    have hresult : insertoob (contents (q₁ ++ q₂)) (vals ((a, x) :: c)) = contents (q₁ ++ r :: q₂) := by
      rw [insertoob, if_neg (by simp), ← htake, ← hdrop, ← hvals, contents_append, contents_cons]
    refine ⟨s', q₁ ++ r :: q₂, ?_, ⟨hlaid', nofun, ?_, ?_⟩, hresult.symm, ?_⟩
    · show sbinsertoob fuel (some a) s = _
      unfold sbinsertoob
      simp only [hplace, get_eq ha, bind, Except.bind]
      rw [hlink]
      exact hrun
    · have hs : s₁.sb_cc = s.sb_cc + x.m_len := rfl
      rw [hcount.cc, hcc, hs, h.cc]
      simp [hvals, bytes_newRecord, Buf.m_len]
      omega
    · have hs : s₁.sb_mbcnt = s.sb_mbcnt + x.storage := rfl
      have hmbcnt' := hcount.mbcnt
      rw [hmbcnt, hs, h.mbcnt] at hmbcnt'
      simp only [contents_append, contents_cons, flatten_append, flatten_cons, storage_append] at hmbcnt' ⊢
      push_cast at hmbcnt' ⊢
      linarith
    · exact hcount.limits.trans hlimits

end Oob

section Whole

variable {s : Sb} {q : List (List (ℕ × Buf))} {c ctl : List (ℕ × Buf)} {fuel : ℕ} {np : Option ℕ}

theorem chainLength_spec (hchain : Chain s.mem np c none) (hfuel : c.length < fuel) :
    chainLength fuel (link c none) s =
      .ok ((bytes (vals c)).length, c.getLast?.map Prod.fst) := by
  induction c generalizing fuel np with
  | nil =>
    obtain ⟨fuel, rfl⟩ := Nat.exists_eq_add_of_lt hfuel
    simp [chainLength, link]
  | cons d c ih =>
    obtain ⟨fuel, rfl⟩ : ∃ f, fuel = f + 1 := ⟨fuel - 1, by simp at hfuel; omega⟩
    obtain ⟨hd, hc⟩ := hchain
    have hrest := ih hc (by simpa using hfuel)
    show chainLength (fuel + 1) (some d.1) s = _
    rw [chainLength]
    simp only [get_eq hd, hrest, bind, Except.bind, vals_cons, bytes_cons, length_append, Buf.m_len]
    cases c with
    | nil => rfl
    | cons e c =>
      rw [getLast?_cons_cons]
      cases hlast : (e :: c).getLast? with
      | none => simp at hlast
      | some f => rfl

theorem sballocs_spec (hchain : Chain s.mem np c none) (hfuel : c.length < fuel) :
    sballocs fuel (link c none) s = .ok { s with
      sb_cc := s.sb_cc + (bytes (vals c)).length
      sb_mbcnt := s.sb_mbcnt + storage (vals c) } := by
  induction c generalizing fuel np s with
  | nil =>
    obtain ⟨fuel, rfl⟩ := Nat.exists_eq_add_of_lt hfuel
    simp [sballocs, link]
  | cons d c ih =>
    obtain ⟨fuel, rfl⟩ : ∃ f, fuel = f + 1 := ⟨fuel - 1, by simp at hfuel; omega⟩
    obtain ⟨hd, hc⟩ := hchain
    have hcmem : Chain (s.sballoc d.2).mem none c none := hc
    have hrest := ih hcmem (by simpa using hfuel)
    show sballocs (fuel + 1) (some d.1) s = _
    rw [sballocs]
    simp only [get_eq hd, bind, Except.bind]
    rw [hrest]
    simp [Sb.sballoc, Buf.m_len, add_assoc]

theorem addRecord_spec {a : ℕ} {x : Buf} (h : Holds s q [(a, x) :: c]) (hfuel : q.length < fuel)
    (hc : c.length + 1 < fuel) :
    ∃ s', addRecord fuel a s = .ok s' ∧ Holds s' (q ++ [(a, x) :: c]) [] ∧
      s'.limits = s.limits := by
  have hchain := h.apart _ (mem_cons_self ..)
  have halloc : sballocs fuel (link ((a, x) :: c) none) s = _ := sballocs_spec hchain (by simpa using hc)
  obtain ⟨s', hlink, hlaid, hcc, hmbcnt, hlimits⟩ := linkRecord_spec
    (s := { s with
      sb_cc := s.sb_cc + (bytes (vals ((a, x) :: c))).length
      sb_mbcnt := s.sb_mbcnt + storage (vals ((a, x) :: c)) }) h.laid hchain.1 hfuel
  refine ⟨s', ?_, ⟨hlaid, nofun, ?_, ?_⟩, hlimits⟩
  · have hstart : link ((a, x) :: c) none = some a := rfl
    rw [hstart] at halloc
    unfold addRecord
    simp only [halloc, bind, Except.bind]
    exact hlink
  · rw [hcc, h.cc]
    simp
  · rw [hmbcnt, h.mbcnt]
    simp

theorem sbappendcontrol_spec (h : Holds s q [ctl, c]) (hctl : ctl ≠ []) (hfuel : q.length < fuel)
    (hc : ctl.length + c.length < fuel) :
    ∃ b s', sbappendcontrol fuel (link c none) (link ctl none) s = .ok (b, s') ∧
      (if b then ∃ q', Holds s' q' [] ∧ contents q' = contents q ++ [vals ctl ++ vals c] else s' = s) ∧
      s'.limits = s.limits := by
  obtain ⟨l, ⟨a, n⟩, rfl⟩ := (eq_nil_or_concat' ctl).resolve_left hctl
  obtain ⟨⟨b, y⟩, t, hbt⟩ := exists_cons_of_ne_nil hctl
  have hctl' := h.apart _ (mem_cons_self ..)
  have hc' := h.apart _ (mem_cons_of_mem _ (mem_cons_self ..))
  have hlen : chainLength fuel (link (l ++ [(a, n)]) none) s = _ := chainLength_spec hctl' (by omega)
  have hlen' : chainLength fuel (link c none) s = _ := chainLength_spec hc' (by omega)
  have hb : link (l ++ [(a, n)]) none = some b := by rw [hbt]; rfl
  rw [hb] at hlen ⊢
  rw [getLast?_concat, Option.map_some] at hlen
  by_cases hspace : s.sbspace < int ((bytes (vals (l ++ [(a, n)]))).length + (bytes (vals c)).length)
  · refine ⟨false, s, ?_, rfl, rfl⟩
    simp only [sbappendcontrol, hlen, hlen', bind, Except.bind, hspace, if_true]
  · obtain ⟨hlaid, hchain⟩ := h.laid.join hctl' hc'
    have hrecord : l ++ [(a, n)] ++ c = (b, y) :: (t ++ c) := by rw [hbt]; rfl
    have hlast : s.mem a = some ⟨n, none, inner l none⟩ := hctl'.last
    rw [hrecord] at hlaid hchain
    have hholds : Holds (s.put a ⟨n, link c none, inner l none⟩) q [(b, y) :: (t ++ c)] := by
      refine ⟨hlaid, fun d hd => ?_, h.cc, h.mbcnt⟩
      obtain rfl := mem_singleton.mp hd
      exact hchain
    have hsize : (t ++ c).length + 1 < fuel := by
      have := congrArg length hbt
      simp only [length_append, length_cons, length_nil] at this hc ⊢
      omega
    obtain ⟨s', hrun, hholds', hlimits⟩ := addRecord_spec hholds hfuel hsize
    refine ⟨true, s', ?_, ⟨_, hholds', ?_⟩, hlimits⟩
    · simp only [sbappendcontrol, hlen, hlen', bind, Except.bind, hspace, concat, get_eq hlast, hrun]
      rfl
    · rw [contents_append, ← hrecord]
      simp

theorem addName (h : Holds s q [c]) {m : ℕ} (hm : s.mem m = none) (name : Buf)
    (hfuel : q.length < fuel) (hc : c.length + 1 < fuel) :
    ∃ s' q', addRecord fuel m (s.put m ⟨name, link c none, none⟩) = .ok s' ∧ Holds s' q' [] ∧
      contents q' = contents q ++ [name :: vals c] ∧ s'.limits = s.limits := by
  obtain ⟨hlaid, hchain⟩ := h.laid.push (h.apart _ (mem_cons_self ..)) name (h.laid.not_mem_of_free hm)
  have hholds : Holds (s.put m ⟨name, link c none, none⟩) q [(m, name) :: c] := by
    refine ⟨hlaid, fun d hd => ?_, h.cc, h.mbcnt⟩
    obtain rfl := mem_singleton.mp hd
    exact hchain
  obtain ⟨s', hrun, hholds', hlimits⟩ := addRecord_spec hholds hfuel hc
  refine ⟨s', _, hrun, hholds', ?_, hlimits⟩
  rw [contents_append]
  rfl

/-- The record of an address, control data and data. -/
def named (asa : List Byte) (ctl ms : List Buf) : List Buf := ⟨.MT_SONAME, none, 0, asa, false, none⟩ :: (ctl ++ ms)

/-- The data has a packet header. -/
def hasHeader (ms : List Buf) : Bool := ms.head?.all fun m => m.m_pkthdr.isSome

theorem sbappendaddr_spec (h : Holds s q [ctl, c]) (asa : List Byte)
    (hheader : hasHeader (vals c) = true) {mget : Option ℕ} (hmget : ∀ m ∈ mget, s.mem m = none)
    (hfuel : q.length < fuel) (hsize : ctl.length + c.length + 1 < fuel) :
    ∃ b s', sbappendaddr fuel asa (link c none) (link ctl none) mget s = .ok (b, s') ∧
      (if b then ∃ q', Holds s' q' [] ∧ contents q' = contents q ++ [named asa (vals ctl) (vals c)]
        else s' = s) ∧
      s'.limits = s.limits := by
  have hctl := h.apart _ (mem_cons_self ..)
  have hc := h.apart _ (mem_cons_of_mem _ (mem_cons_self ..))
  have hlen : chainLength fuel (link ctl none) s = _ := chainLength_spec hctl (by omega)
  obtain ⟨len, hhdr⟩ : ∃ len, headerLength (link c none) s = .ok len := by
    cases c with
    | nil => exact ⟨0, rfl⟩
    | cons d c =>
      obtain ⟨len, hlen⟩ := Option.isSome_iff_exists.mp (show d.2.m_pkthdr.isSome = true by
        simpa [hasHeader] using hheader)
      refine ⟨len, ?_⟩
      simp [headerLength, link, get_eq hc.1, hlen, bind, Except.bind]
  -- the address goes in front of the control data with the data behind it
  have hjoin : ∃ s₁ c₁, concat (ctl.getLast?.map Prod.fst) (link c none) s = .ok s₁ ∧
      Holds s₁ q [c₁] ∧ vals c₁ = vals ctl ++ vals c ∧
      link c₁ none = (if (ctl.getLast?.map Prod.fst).isNone then link c none else link ctl none) ∧
      (∀ m, s.mem m = none → s₁.mem m = none) ∧ s₁.limits = s.limits := by
    rcases eq_nil_or_concat' ctl with rfl | ⟨l, ⟨a, n⟩, rfl⟩
    · refine ⟨s, c, rfl, ⟨laid_nil.mp h.laid, fun d hd => ?_, h.cc, h.mbcnt⟩, rfl, rfl, fun m hm => hm, rfl⟩
      obtain rfl := mem_singleton.mp hd
      exact hc
    · obtain ⟨hlaid, hchain⟩ := h.laid.join hctl hc
      have hlast : s.mem a = some ⟨n, none, inner l none⟩ := hctl.last
      refine ⟨s.put a ⟨n, link c none, inner l none⟩, l ++ [(a, n)] ++ c, ?_,
        ⟨hlaid, fun d hd => ?_, h.cc, h.mbcnt⟩, ?_, ?_, fun m hm => ?_, rfl⟩
      · rw [getLast?_concat]
        simp only [Option.map_some, concat, get_eq hlast, bind, Except.bind]
      · obtain rfl := mem_singleton.mp hd
        exact hchain
      · simp
      · rw [getLast?_concat, link_append]
        cases l with
        | nil => rfl
        | cons => rfl
      · have hma : m ≠ a := by
          rintro rfl
          rw [hlast] at hm
          cases hm
        exact (update_of_ne hma ..).trans hm
  obtain ⟨s₁, c₁, hconcat, hholds, hvals, hstart, hfree, hlimits⟩ := hjoin
  have hnone : sbappendaddr fuel asa (link c none) (link ctl none) none s = .ok (false, s) := by
    simp only [sbappendaddr, hhdr, hlen, bind, Except.bind]
    split_ifs <;> rfl
  by_cases hspace : s.sbspace < int (asa.length + len + (bytes (vals ctl)).length)
  · refine ⟨false, s, ?_, rfl, rfl⟩
    simp only [sbappendaddr, hhdr, hlen, bind, Except.bind, hspace, if_true]
  · by_cases hlong : MLEN < asa.length
    · refine ⟨false, s, ?_, rfl, rfl⟩
      simp only [sbappendaddr, hhdr, hlen, bind, Except.bind, hspace, hlong, if_true, if_false]
    · cases mget with
      | none => exact ⟨false, s, hnone, rfl, rfl⟩
      | some m =>
        have hsize₁ : c₁.length + 1 < fuel := by
          have := congrArg length hvals
          simp only [length_append, vals_length] at this
          omega
        obtain ⟨s', q', hrun, hholds', hcontents, hlimits'⟩ := addName hholds
          (hfree m (hmget m rfl)) ⟨.MT_SONAME, none, 0, asa, false, none⟩ hfuel hsize₁
        refine ⟨true, s', ?_, ⟨q', hholds', ?_⟩, hlimits'.trans hlimits⟩
        · rw [hstart] at hrun
          simp only [sbappendaddr, hhdr, hlen, bind, Except.bind, hspace, hlong, if_false, hconcat]
          rw [hrun]
        · rw [hcontents, hvals]
          rfl

end Whole

end Inserting

/-!
## Runs of a socket buffer

Any calls of the functions that add to a socket buffer and drop from it, in any order.  The callers
bring chains of their own, and get them back when an append fails.
-/

section System

open Osf1.Computation
open Osf1.Computation.RecordQueue

section Model

/-- A chain is built where the memory is free. -/
def Sb.give (s : Sb) (c : List (ℕ × Buf)) : Sb := { s with mem := place s.mem c }

/-- The mbufs of a chain are freed by the caller. -/
def Sb.take (s : Sb) (c : List (ℕ × Buf)) : Sb := { s with mem := fun a => if a ∈ addrs c then none else s.mem a }

/-- A call, with the chains of the caller. -/
inductive Event where
  | append (c : List (ℕ × Buf))
  | appendrecord (c : List (ℕ × Buf))
  | insertoob (c : List (ℕ × Buf))
  | appendaddr (asa : List Byte) (c ctl : List (ℕ × Buf)) (mget : Option ℕ)
  | appendcontrol (c ctl : List (ℕ × Buf))
  | drop (len : ℕ)
  | droprecord
  | flush

namespace Event

/-- The mbufs of the caller. -/
def chains : Event → List (ℕ × Buf)
  | append c => c
  | appendrecord c => c
  | insertoob c => c
  | appendaddr _ c ctl _ => ctl ++ c
  | appendcontrol c ctl => ctl ++ c
  | drop _ => []
  | droprecord => []
  | flush => []

/-- Addresses of their own, which are free. -/
def Fresh (s : Sb) (l : List ℕ) : Prop := l.Nodup ∧ ∀ a ∈ l, s.mem a = none

/-- What a caller sees to: its mbufs are its own, there is no more to drop than `sb_cc`, data that
comes with an address has a packet header, and there is control data for `sbappendcontrol`. -/
def Allowed (s : Sb) : Event → Prop
  | append c => Fresh s (addrs c)
  | appendrecord c => Fresh s (addrs c)
  | insertoob c => Fresh s (addrs c)
  | appendaddr _ c ctl mget =>
    Fresh s (mget.toList ++ addrs (ctl ++ c)) ∧ hasHeader (vals c) = true
  | appendcontrol c ctl => Fresh s (addrs (ctl ++ c)) ∧ ctl ≠ []
  | drop len => len ≤ s.sb_cc
  | droprecord => True
  | flush => True

/-- The call, and whether it has taken the chains. -/
def run (fuel : ℕ) (s : Sb) : Event → Except Stop (Bool × Sb)
  | append c => do
    let s ← sbappend fuel (link c none) (s.give c)
    .ok (true, s)
  | appendrecord c => do
    let s ← sbappendrecord fuel (link c none) (s.give c)
    .ok (true, s)
  | insertoob c => do
    let s ← sbinsertoob fuel (link c none) (s.give c)
    .ok (true, s)
  | appendaddr asa c ctl mget =>
    sbappendaddr fuel asa (link c none) (link ctl none) mget ((s.give c).give ctl)
  | appendcontrol c ctl => sbappendcontrol fuel (link c none) (link ctl none) ((s.give c).give ctl)
  | drop len => do
    let s ← sbdrop fuel len s
    .ok (true, s)
  | droprecord => do
    let s ← sbdroprecord fuel s
    .ok (true, s)
  | flush => do
    let s ← sbflush fuel s
    .ok (true, s)

/-- What the call does to the mbufs of the records. -/
def effect (g : List (List Buf)) : Event → List (List Buf)
  | append c => Sockbuf.append g (vals c)
  | appendrecord c => Sockbuf.appendrecord g (vals c)
  | insertoob c => Sockbuf.insertoob g (vals c)
  | appendaddr asa c ctl _ => g ++ [named asa (vals ctl) (vals c)]
  | appendcontrol c ctl => g ++ [vals ctl ++ vals c]
  | drop len => Sockbuf.drop len g
  | droprecord => g.tail
  | flush => []

/-- What the call does to the bytes: they are put behind, out-of-band data behind that in front, or
dropped in front. -/
def say (g : List (List Buf)) (said : List Byte) : Event → List Byte
  | append c => said ++ bytes (vals c)
  | appendrecord c => said ++ bytes (vals c)
  | insertoob c =>
    let n := (bytes (g.takeWhile oob).flatten).length
    said.take n ++ bytes (vals c) ++ said.drop n
  | appendaddr asa c ctl _ => said ++ (asa ++ bytes (vals ctl) ++ bytes (vals c))
  | appendcontrol c ctl => said ++ (bytes (vals ctl) ++ bytes (vals c))
  | drop len => said.drop len
  | droprecord => said.drop (bytes (g.headD [])).length
  | flush => []

end Event

/-- A socket buffer with what its records should be, and the bytes that should be in it. -/
structure Run where
  s : Sb
  g : List (List Buf)
  said : List Byte

/-- The state after a call.  If it has not taken the chains the caller frees them. -/
def Run.after (r : Run) (e : Event) (b : Bool) (s : Sb) : Run :=
  if b then ⟨s, e.effect r.g, e.say r.g r.said⟩ else ⟨s.take e.chains, r.g, r.said⟩

/-- All calls that return, from an empty socket buffer. -/
def system : System Run Event where
  init r :=
    r.s.mem = (fun _ => none) ∧ r.s.sb_cc = 0 ∧ r.s.sb_mbcnt = 0 ∧ r.s.sb_mb = none ∧
      r.s.sb_lock = false ∧ r.g = [] ∧ r.said = []
  step r e r' := e.Allowed r.s ∧ ∃ fuel b s, e.run fuel r.s = .ok (b, s) ∧ r' = r.after e b s

end Model

section Chains

variable {s : Sb} {q : List (List (ℕ × Buf))} {c ctl : List (ℕ × Buf)}

theorem Holds.give (h : Holds s q []) (hc : Event.Fresh s (addrs c)) : Holds (s.give c) q [c] := by
  refine ⟨h.laid.place hc.1 fun a ha hmem => ?_, fun d hd => ?_, h.cc, h.mbcnt⟩
  · exact h.laid.not_mem_of_free (hc.2 a ha) hmem
  · obtain rfl := mem_singleton.mp hd
    exact chain_place hc.1

theorem Holds.give₂ (h : Holds s q []) (hc : Event.Fresh s (addrs (ctl ++ c))) :
    Holds ((s.give c).give ctl) q [ctl, c] := by
  obtain ⟨hnodup, hfree⟩ := hc
  rw [addrs_append] at hnodup hfree
  obtain ⟨hctl, hc, hne⟩ := nodup_append'.mp hnodup
  have hgive := h.give ⟨hc, fun a ha => hfree a (mem_append_right _ ha)⟩
  have hnot (a : ℕ) (ha : a ∈ addrs ctl) : a ∉ addrs c := fun ha' => hne ha ha'
  refine ⟨hgive.laid.place hctl fun a ha hmem => ?_, fun d hd => ?_, h.cc, h.mbcnt⟩
  · refine hgive.laid.not_mem_of_free ?_ hmem
    exact (place_of_not_mem (hnot a ha)).trans (hfree a (mem_append_left _ ha))
  · rcases mem_cons.mp hd with rfl | hd
    · exact chain_place hctl
    · refine (hgive.apart d hd).congr fun b hb => place_of_not_mem fun hb' => ?_
      obtain rfl := mem_singleton.mp hd
      exact hnot b hb' hb

theorem give_take (hc : Event.Fresh s (addrs (ctl ++ c))) : ((s.give c).give ctl).take (ctl ++ c) = s := by
  have hmem : (((s.give c).give ctl).take (ctl ++ c)).mem = s.mem := by
    funext a
    show (if a ∈ addrs (ctl ++ c) then none else place (place s.mem c) ctl a) = s.mem a
    by_cases ha : a ∈ addrs (ctl ++ c)
    · rw [if_pos ha, hc.2 a ha]
    · rw [addrs_append, mem_append, not_or] at ha
      rw [if_neg (by simpa using ha), place_of_not_mem ha.1, place_of_not_mem ha.2]
  show { s with mem := (((s.give c).give ctl).take (ctl ++ c)).mem } = s
  rw [hmem]

end Chains

section Calls

variable {s : Sb} {q : List (List (ℕ × Buf))} {e : Event} {fuel : ℕ}

theorem exists_fuel (q : List (List (ℕ × Buf))) (n : ℕ) :
    ∃ fuel, n < fuel ∧ q.length + n < fuel ∧ q.flatten.length + q.length < fuel ∧
      ∀ r ∈ q, q.length + r.length ≤ fuel := by
  refine ⟨q.flatten.length + q.length + n + 1, by omega, by omega, by omega, fun r hr => ?_⟩
  have hle := (sublist_flatten_of_mem hr).length_le
  omega

/-- What a call that returns does: it has its effect, or the chains are as they were. -/
structure Served (s s' : Sb) (e : Event) (q : List (List (ℕ × Buf))) (b : Bool) : Prop where
  done : b = true → ∃ q', Holds s' q' [] ∧ contents q' = e.effect (contents q)
  failed : b = false → s'.take e.chains = s
  limits : s'.limits = s.limits

theorem run_spec (h : Holds s q []) (hlock : s.sb_lock = false) (hallowed : e.Allowed s)
    (hfits : e = .flush → s.sb_cc < 2 ^ 31) : ∃ fuel b s', e.run fuel s = .ok (b, s') ∧ Served s s' e q b := by
  obtain ⟨fuel, hn, hqn, hq, hr⟩ := exists_fuel q (e.chains.length + 1)
  have hall (r : List (ℕ × Buf)) (hmem : r ∈ q) : r.length < fuel := by
    have hle := (sublist_flatten_of_mem hmem).length_le
    omega
  cases e with
  | append c =>
    obtain ⟨s', q', hrun, hholds, hcontents, hlimits⟩ := sbappend_spec (h.give hallowed)
      (show _ ∧ q.length + c.length < fuel from ⟨hall, by simp only [Event.chains] at hqn; omega⟩)
    refine ⟨fuel, true, s', ?_, fun _ => ⟨q', hholds, hcontents⟩, nofun, hlimits⟩
    simp only [Event.run, hrun, bind, Except.bind]
  | appendrecord c =>
    obtain ⟨s', q', hrun, hholds, hcontents, hlimits⟩ := sbappendrecord_spec (h.give hallowed)
      (show q.length + c.length < fuel by simp only [Event.chains] at hqn; omega)
    refine ⟨fuel, true, s', ?_, fun _ => ⟨q', hholds, hcontents⟩, nofun, hlimits⟩
    simp only [Event.run, hrun, bind, Except.bind]
  | insertoob c =>
    obtain ⟨s', q', hrun, hholds, hcontents, hlimits⟩ := sbinsertoob_spec (h.give hallowed)
      (show 0 < fuel by omega) hr (by simp only [Event.chains] at hn; omega)
    refine ⟨fuel, true, s', ?_, fun _ => ⟨q', hholds, hcontents⟩, nofun, hlimits⟩
    simp only [Event.run, hrun, bind, Except.bind]
  | appendaddr asa c ctl mget =>
    obtain ⟨⟨hnodup, hfree⟩, hheader⟩ := hallowed
    obtain ⟨-, hnodup', hne⟩ := nodup_append'.mp hnodup
    have hfresh : Event.Fresh s (addrs (ctl ++ c)) := ⟨hnodup', fun a ha => hfree a (mem_append_right _ ha)⟩
    have hmget (m : ℕ) (hm : m ∈ mget) : ((s.give c).give ctl).mem m = none := by
      have hm' : m ∈ mget.toList := Option.mem_toList.mpr hm
      have hnot : m ∉ addrs (ctl ++ c) := fun ha => hne hm' ha
      rw [addrs_append, mem_append, not_or] at hnot
      refine ((place_of_not_mem hnot.1).trans (place_of_not_mem hnot.2)).trans ?_
      exact hfree m (mem_append_left _ hm')
    simp only [Event.chains, length_append] at hn
    obtain ⟨b, s', hrun, hspec, hlimits⟩ := sbappendaddr_spec (h.give₂ hfresh) asa hheader hmget
      (show q.length < fuel by omega) (show ctl.length + c.length + 1 < fuel by omega)
    refine ⟨fuel, b, s', hrun, ?_, ?_, hlimits⟩
    · rintro rfl
      exact hspec
    · rintro rfl
      obtain rfl := hspec
      exact give_take hfresh
  | appendcontrol c ctl =>
    obtain ⟨hfresh, hctl⟩ := hallowed
    simp only [Event.chains, length_append] at hn
    obtain ⟨b, s', hrun, hspec, hlimits⟩ := sbappendcontrol_spec (h.give₂ hfresh) hctl
      (show q.length < fuel by omega) (show ctl.length + c.length < fuel by omega)
    refine ⟨fuel, b, s', hrun, ?_, ?_, hlimits⟩
    · rintro rfl
      exact hspec
    · rintro rfl
      obtain rfl := hspec
      exact give_take hfresh
  | drop len =>
    have hlen : len ≤ (bytes (contents q).flatten).length := by
      have hle : (len : ℤ) ≤ s.sb_cc := hallowed
      have := h.cc
      omega
    obtain ⟨s', q', hrun, hholds, hcontents, hlimits⟩ := sbdrop_spec h hlen hq
    refine ⟨fuel, true, s', ?_, fun _ => ⟨q', hholds, hcontents⟩, nofun, hlimits⟩
    simp only [Event.run, hrun, bind, Except.bind]
  | droprecord =>
    obtain ⟨s', q', hrun, hholds, hcontents, hlimits⟩ := sbdroprecord_spec h
      (show q.flatten.length < fuel by omega)
    refine ⟨fuel, true, s', ?_, fun _ => ⟨q', hholds, hcontents⟩, nofun, hlimits⟩
    simp only [Event.run, hrun, bind, Except.bind]
  | flush =>
    obtain ⟨fuel, s', hrun, hholds, hlimits⟩ := sbflush_spec h hlock (hfits rfl)
    refine ⟨fuel, true, s', ?_, fun _ => ⟨[], hholds, rfl⟩, nofun, hlimits⟩
    simp only [Event.run, hrun, bind, Except.bind]

theorem run_succ (fuel : ℕ) : Refines (e.run fuel s) (e.run (fuel + 1) s) := by
  cases e with
  | append c => exact (sbappend_succ ..).bind fun s => .rfl
  | appendrecord c => exact (sbappendrecord_succ ..).bind fun s => .rfl
  | insertoob c => exact (sbinsertoob_succ ..).bind fun s => .rfl
  | appendaddr asa c ctl mget => exact sbappendaddr_succ ..
  | appendcontrol c ctl => exact sbappendcontrol_succ ..
  | drop len => exact (sbdrop_succ ..).bind fun s => .rfl
  | droprecord => exact (sbdroprecord_succ ..).bind fun s => .rfl
  | flush => exact (sbflush_succ ..).bind fun s => .rfl

theorem run_unique {n m : ℕ} {x y : Bool × Sb} (hx : e.run n s = .ok x) (hy : e.run m s = .ok y) : x = y := by
  have hn := (Refines.of_succ (fun k => run_succ k) (le_max_left n m)).eq_ok hx
  have hm := (Refines.of_succ (fun k => run_succ k) (le_max_right n m)).eq_ok hy
  exact Except.ok.inj (hn.symm.trans hm)

theorem run_error {n : ℕ} {x : Bool × Sb} {p : Stop} (hx : e.run n s = .ok x)
    (hp : e.run fuel s = .error p) : p = .fuel := by
  have hn := (Refines.of_succ (fun k => run_succ k) (le_max_left n fuel)).eq_ok hx
  rcases Refines.of_succ (fun k => run_succ (e := e) (s := s) k) (le_max_right n fuel) with h | h
  · exact Except.error.inj (hp.symm.trans h)
  · rw [h, hn] at hp
    cases hp

end Calls

section Runs

theorem bytes_effect (e : Event) (g : List (List Buf)) :
    bytes (e.effect g).flatten = e.say g (bytes g.flatten) := by
  cases e with
  | append c => exact bytes_append_record g (vals c)
  | appendrecord c => exact bytes_appendrecord g (vals c)
  | insertoob c =>
    have hsplit : bytes g.flatten =
        bytes (g.takeWhile oob).flatten ++ bytes (g.dropWhile oob).flatten := by
      rw [← bytes_append, ← flatten_append, takeWhile_append_dropWhile]
    show bytes (insertoob g (vals c)).flatten = _
    simp only [Event.say]
    rw [bytes_insertoob, hsplit, take_left, drop_left]
  | appendaddr asa c ctl mget => simp [Event.effect, Event.say, named]
  | appendcontrol c ctl => simp [Event.effect, Event.say]
  | drop len => exact bytes_drop len g
  | droprecord =>
    cases g with
    | nil => rfl
    | cons r g => simp [Event.effect, Event.say]
  | flush => rfl

/-- The memory holds the records that there should be, with the bytes that should be in them. -/
structure Sound (r : Run) : Prop where
  holds : ∃ q, Holds r.s q [] ∧ contents q = r.g
  said : bytes r.g.flatten = r.said
  lock : r.s.sb_lock = false

theorem Sound.step {r r' : Run} {e : Event} (h : Sound r) (hstep : system.step r e r') : Sound r' := by
  obtain ⟨hallowed, fuel, b, s, hrun, rfl⟩ := hstep
  obtain ⟨q, hholds, hq⟩ := h.holds
  have hfits : e = .flush → r.s.sb_cc < 2 ^ 31 := by
    rintro rfl
    by_contra hlarge
    have hstuck : Event.flush.run fuel r.s = .error .fuel := by
      simp only [Event.run, sbflush_large hholds h.lock (not_lt.mp hlarge), bind, Except.bind]
    rw [hstuck] at hrun
    cases hrun
  obtain ⟨fuel', b', s', hrun', hserved⟩ := run_spec hholds h.lock hallowed hfits
  obtain ⟨rfl, rfl⟩ := Prod.mk.inj (run_unique hrun hrun')
  cases b with
  | false =>
    have hsame : r.after e false s = r := by
      show (⟨s.take e.chains, r.g, r.said⟩ : Run) = r
      rw [hserved.failed rfl]
    rwa [hsame]
  | true =>
    obtain ⟨q', hholds', hq'⟩ := hserved.done rfl
    rw [hq] at hq'
    refine ⟨⟨q', hholds', hq'⟩, ?_, ?_⟩
    · exact (bytes_effect e r.g).trans (congrArg (e.say r.g) h.said)
    · exact (congrArg (fun l => l.2.2) hserved.limits).trans h.lock

theorem sound_of_reachable {r : Run} (hr : system.Reachable r) : Sound r := by
  refine hr.invariant (fun r hinit => ?_) fun r e r' _ h hstep => h.step hstep
  obtain ⟨hmem, hcc, hmbcnt, hmb, hlock, hg, hsaid⟩ := hinit
  refine ⟨⟨[], ⟨⟨hmb, trivial, nofun, ?_, fun b _ => ?_⟩, nofun, hcc, hmbcnt⟩, hg.symm⟩, ?_, hlock⟩
  · exact Multiset.nodup_zero
  · rw [hmem]
  · rw [hg, hsaid]
    rfl

theorem Holds.empty {s : Sb} (h : Holds s [] []) :
    s.mem = (fun _ => none) ∧ s.sb_cc = 0 ∧ s.sb_mbcnt = 0 ∧ s.sb_mb = none := by
  refine ⟨?_, h.cc, h.mbcnt, h.laid.head⟩
  funext a
  exact h.laid.own a (Multiset.notMem_zero a)

/-- In every run the memory holds the records and what is counted, and the bytes are what has been put in and
not been dropped; any call returns, but for a flush of more bytes than an `int` holds. -/
theorem buffer_sound {r : Run} (hr : system.Reachable r) :
    (∃ q, Holds r.s q [] ∧ contents q = r.g ∧ bytes (contents q).flatten = r.said) ∧
      ∀ e : Event, e.Allowed r.s →
        ((∃ fuel b s, e.run fuel r.s = .ok (b, s)) ↔ (e = .flush → r.s.sb_cc < 2 ^ 31)) ∧
        (∀ fuel p, e.run fuel r.s = .error p → p = .fuel) ∧
        ∀ fuel b s, e.run fuel r.s = .ok (b, s) →
          (b = false → s.take e.chains = r.s) ∧
          (e = .flush → s.mem = (fun _ => none) ∧ s.sb_cc = 0 ∧ s.sb_mbcnt = 0 ∧ s.sb_mb = none) := by
  have hsound := sound_of_reachable hr
  obtain ⟨q, hholds, hq⟩ := hsound.holds
  refine ⟨⟨q, hholds, hq, hq ▸ hsound.said⟩, fun e hallowed => ?_⟩
  by_cases hfits : e = .flush → r.s.sb_cc < 2 ^ 31
  · obtain ⟨fuel, b, s, hrun, hserved⟩ := run_spec hholds hsound.lock hallowed hfits
    refine ⟨iff_of_true ⟨fuel, b, s, hrun⟩ hfits, fun _ _ hp => run_error hrun hp, ?_⟩
    intro fuel' b' s' hrun'
    obtain ⟨rfl, rfl⟩ := Prod.mk.inj (run_unique hrun hrun')
    refine ⟨hserved.failed, ?_⟩
    rintro rfl
    obtain ⟨fuel, s₁, hflush, hholds', -⟩ := sbflush_spec hholds hsound.lock (hfits rfl)
    have hrun₁ : Event.flush.run fuel r.s = .ok (true, s₁) := by
      simp only [Event.run, hflush, bind, Except.bind]
    obtain ⟨-, rfl⟩ := Prod.mk.inj (run_unique hrun₁ hrun)
    exact hholds'.empty
  · obtain ⟨rfl, hlarge⟩ := Classical.not_imp.mp hfits
    have hstuck (fuel : ℕ) : Event.flush.run fuel r.s = .error .fuel := by
      simp only [Event.run, sbflush_large hholds hsound.lock (not_lt.mp hlarge), bind, Except.bind]
    refine ⟨iff_of_false ?_ hfits, fun fuel p hp => ?_, fun fuel b s hrun => ?_⟩
    · rintro ⟨fuel, b, s, hrun⟩
      rw [hstuck] at hrun
      cases hrun
    · exact Except.error.inj (hp.symm.trans (hstuck fuel))
    · rw [hstuck] at hrun
      cases hrun

/-- An mbuf of data without external storage. -/
def small (data : List Byte) : Buf := ⟨.MT_DATA, none, 0, data, false, none⟩

/-- A socket buffer with room for some bytes. -/
def empty : Run := ⟨⟨fun _ => none, 0, 4096, 0, 8192, none, false⟩, [], []⟩

theorem buffer_sound_append :
    let r : Run := empty.after (.append [(1, small [7, 8])]) true
      ⟨place (fun _ => none) [(1, small [7, 8])], 2, 4096, 256, 8192, some 1, false⟩
    (∃ q, Holds r.s q [] ∧ contents q = r.g ∧ bytes (contents q).flatten = [7, 8]) ∧
      ∃ fuel b s, Event.flush.run fuel r.s = .ok (b, s) := by
  intro r
  have hstep : system.step empty (.append [(1, small [7, 8])]) r := by
    refine ⟨⟨by decide, fun _ _ => rfl⟩, 3, true, _, ?_, rfl⟩
    simp [Event.run, sbappend, sbcompress, Sb.give, Sb.get, empty, RecordQueue.place, Sb.sballoc, Sb.put, small, link, Buf.m_len, Buf.storage, MSIZE, bind, Except.bind]
  have hr : system.Reachable r := .step (.init ⟨rfl, rfl, rfl, rfl, rfl, rfl, rfl⟩) hstep
  obtain ⟨hholds, hcalls⟩ := buffer_sound hr
  exact ⟨hholds, (hcalls .flush trivial).1.mpr fun _ => by decide⟩

/-- An mbuf with its data in external storage. -/
def cluster (n : ℕ) : Buf := ⟨.MT_DATA, some n, 0, List.replicate n 0, false, none⟩

theorem bytes_clusters (n : ℕ) : (bytes (vals [(1, cluster n), (2, cluster n)])).length = n + n := by
  simp [cluster]

/-- A flush of two clusters, which are `2 ^ 31` bytes, does not end. -/
theorem flush_endless : ∃ r : Run, system.Reachable r ∧ Event.flush.Allowed r.s ∧
    ∀ fuel, Event.flush.run fuel r.s = .error .fuel := by
  have hempty : system.Reachable empty := .init ⟨rfl, rfl, rfl, rfl, rfl, rfl, rfl⟩
  obtain ⟨c, hc⟩ : ∃ c : List (ℕ × Buf), c = [(1, cluster (2 ^ 30)), (2, cluster (2 ^ 30))] := ⟨_, rfl⟩
  have hlength : (bytes (vals c)).length = 2 ^ 31 := by
    rw [hc, bytes_clusters]
    norm_num
  have hallowed : (Event.append c).Allowed empty.s := by
    refine ⟨?_, fun _ _ => rfl⟩
    rw [hc]
    decide
  obtain ⟨q, hholds, hq⟩ := (sound_of_reachable hempty).holds
  obtain ⟨fuel, b, s, hrun, hserved⟩ := run_spec hholds rfl hallowed nofun
  have hstep : system.step empty (.append c) (empty.after (.append c) b s) := ⟨hallowed, fuel, b, s, hrun, rfl⟩
  have hr := hempty.step hstep
  have hb : b = true := by
    simp only [Event.run, bind, Except.bind] at hrun
    split at hrun
    · cases hrun
    · exact (Prod.mk.inj (Except.ok.inj hrun)).1.symm
  obtain rfl := hb
  obtain ⟨q', hholds', hq'⟩ := hserved.done rfl
  have hcc : (2 : ℤ) ^ 31 ≤ s.sb_cc := by
    have hbytes : bytes ((Event.append c).effect empty.g).flatten = bytes (vals c) := bytes_effect ..
    rw [hholds'.cc, hq', hq, hbytes, hlength]
    norm_num
  have hlock : s.sb_lock = false := (sound_of_reachable hr).lock
  refine ⟨_, hr, trivial, fun fuel => ?_⟩
  show Event.flush.run fuel s = _
  simp only [Event.run, sbflush_large hholds' hlock hcc, bind, Except.bind]

end Runs

end System

end Osf1.Sockbuf
