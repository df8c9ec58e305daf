import Osf1.Defect.Lookup

/-!
# Physical transfers move the right data

A request of `n` blocks is followed from position to position.  At position `p` the first `p` blocks
have been moved, or passed over, and the address and the block number agree with that.
-/

set_option autoImplicit false

namespace Osf1.Defect

open Osf1.Computation Option

variable {pv pv' : Pvol} {pb₀ pb pb' : Pbuf} {n p q : ℕ} {k m x : ℕ} {e : Link × ℕ} {pv₀ : Pvol}

/-- What a request keeps on its way, and where it is at position `p`. -/
structure Going (pb₀ : Pbuf) (n p : ℕ) (pb : Pbuf) : Prop where
  addr : pb.addr = pb₀.startaddr + BLK2BYTE p
  startaddr : pb.startaddr = pb₀.startaddr
  endaddr : pb.endaddr = pb₀.startaddr + BLK2BYTE n
  start : pb.start = pb₀.start
  read : pb.read = pb₀.read
  noreloc : pb.noreloc = pb₀.noreloc
  fixup : pb.fixup = pb₀.fixup
  error : pb.error = false
  writev : pb.writev = false

/-- The block at position `p` is to be checked. -/
structure Ready (pb₀ : Pbuf) (n p : ℕ) (pv : Pvol) (pb : Pbuf) : Prop where
  table : Table pv
  settled : AllSettled pv pb₀.start (pb₀.start + n)
  going : Going pb₀ n p pb
  op : pb.op = .none
  blkno : pb.blkno = pb₀.start + p
  bcount : pb.bcount = BLK2BYTE (n - p)

/-- What follows a piece that ends at position `q`. -/
inductive Next (pb₀ : Pbuf) (n q : ℕ) (pv : Pvol) : Option Outcome → Prop
  | done {pb : Pbuf} : q = n → pb.error = false → Next pb₀ n q pv (some (.done pv pb))
  | more {pb : Pbuf} : q < n → Ready pb₀ n q pv pb → Next pb₀ n q pv (issue pv pb)

theorem BYTE2BLK_BLK2BYTE (k : ℕ) : BYTE2BLK (BLK2BYTE k) = k := Nat.mul_div_cancel _ (by decide)

theorem BLK2BYTE_add (k m : ℕ) : BLK2BYTE (k + m) = BLK2BYTE k + BLK2BYTE m := Nat.add_mul ..

theorem BLK2BYTE_sub (k m : ℕ) : BLK2BYTE (k - m) = BLK2BYTE k - BLK2BYTE m := Nat.sub_mul ..

theorem BLK2BYTE_inj : BLK2BYTE k = BLK2BYTE m ↔ k = m := Nat.mul_left_inj (by decide)

theorem BLK2BYTE_one : BLK2BYTE 1 = DEV_BSIZE := rfl

theorem next_endContinue (htable : Table pv) (hsettled : AllSettled pv pb₀.start (pb₀.start + n)) (hg : Going pb₀ n q pb)
    (hq : q ≤ n) (hop : pb.op = .none) (hresid : pb.resid = 0)
    (hbad : ∀ b, pb.bad = some b → (pv.entry b).status = REL_DONE) : Next pb₀ n q pv (endContinue pv pb) := by
  have herror : (pb.error || (pb.bad.isNone && !pb.error && decide (0 < pb.resid))) = false := by
    rw [hg.error, hresid]
    simp
  have hnext : (pb.bad.any fun b => decide ((pv.entry b).status ≠ REL_DONE)) = false := by
    cases hb : pb.bad with
    | none => rfl
    | some b => simpa using hbad b hb
  unfold endContinue
  rw [if_neg (by rw [hop]; exact FixOp.noConfusion)]
  simp only [herror, hnext]
  by_cases hend : q = n
  · rw [if_pos (.inr (by rw [hg.addr, hg.endaddr, hend]))]
    exact .done hend rfl
  · have haddr : ¬(false = true ∨ pb.addr = pb.endaddr) := by
      rintro (h | h)
      · cases h
      · rw [hg.addr, hg.endaddr] at h
        exact hend (BLK2BYTE_inj.mp (Nat.add_left_cancel h))
    rw [if_neg haddr, if_neg Bool.false_ne_true]
    refine .more (lt_of_le_of_ne hq hend) ⟨htable, hsettled, ?_, hop, ?_, ?_⟩
    · exact ⟨hg.addr, hg.startaddr, hg.endaddr, hg.start, hg.read, hg.noreloc, hg.fixup, rfl, hg.writev⟩
    · simp only
      rw [hg.start, hg.addr, hg.startaddr, Nat.add_sub_cancel_left, BYTE2BLK_BLK2BYTE]
    · simp only
      rw [hg.endaddr, hg.addr, BLK2BYTE_sub, Nat.add_sub_add_left]

theorem Going.advance (hg : Going pb₀ n p pb) (hk : pb.bcount = BLK2BYTE k) :
    Going pb₀ n (p + k) pb.completed.advanced where
  addr := by
    have haddr : pb.completed.advanced.addr = pb.addr + (pb.bcount - 0) := rfl
    rw [haddr, hg.addr, hk, Nat.sub_zero, Nat.add_assoc, ← BLK2BYTE_add]
  startaddr := hg.startaddr
  endaddr := hg.endaddr
  start := hg.start
  read := hg.read
  noreloc := hg.noreloc
  fixup := hg.fixup
  error := rfl
  writev := hg.writev

theorem next_plain (htable : Table pv) (hsettled : AllSettled pv pb₀.start (pb₀.start + n)) (hg : Going pb₀ n p pb)
    (hk : pb.bcount = BLK2BYTE k) (hpk : p + k ≤ n) (hop : pb.op = .none)
    (hbad : ∀ b, pb.bad = some b → (pv.entry b).status = REL_DONE) :
    Next pb₀ n (p + k) pv (lv_end pv pb.completed) := by
  have hreloc : endRelocation pv pb.completed.advanced = some (pv, pb.completed.advanced) := by
    unfold endRelocation
    have hb : pb.completed.advanced.bad = pb.bad := rfl
    rw [hb]
    cases hbad' : pb.bad with
    | none => rfl
    | some b => simp only [hbad b hbad', ne_eq, not_true, and_false, if_false]
  rw [lv_end_eq hreloc rfl]
  exact next_endContinue htable hsettled (hg.advance hk) hpk hop rfl hbad

theorem next_relocated (htable : Table pv) (hsettled : AllSettled pv pb₀.start (pb₀.start + n)) (hg : Going pb₀ n p pb) {d : ℕ}
    (hfirst : (pv.defects (BBHASHINX d)).find? (fun a => decide (pv.number a.2 = d)) = some e)
    (hk : pb.bcount = BLK2BYTE 1) (hpk : p + 1 ≤ n) (hop : pb.op = .readError)
    (hbad : pb.bad = some e.2) (hread : pb.read = false) :
    ∃ pv', Next pb₀ n (p + 1) pv' (lv_end (pv.setStatus e.2 REL_DEVICE) pb.completed) ∧
      (∀ x, x ≠ d → pv'.lookup x = pv.lookup x) ∧ pv'.roreloc = pv.roreloc := by
  obtain ⟨pv', hdel, htable', hsettled', hlookup, hro⟩ := delete_relocated htable hsettled hfirst
  refine ⟨pv', ?_, hlookup, hro⟩
  have hmem := htable.hashed.used_of_mem (List.mem_of_find?_eq_some hfirst)
  have hstatus : ((pv.setStatus e.2 REL_DEVICE).entry e.2).status = REL_DEVICE :=
    congrArg Bblk.status (entry_setEntry_self pv e.2 _ hmem.1.2.1)
  have hg' := hg.advance hk
  have hbad' : pb.completed.advanced.bad = some e.2 := hbad
  have hop' : pb.completed.advanced.op = .readError := hop
  have hdone : lv_relocdone (pv.setStatus e.2 REL_DEVICE) pb.completed.advanced =
      some (pv', { pb.completed.advanced with
        error := false, berror := .none, bad := none, op := .none, swretry := 0 }) := by
    unfold lv_relocdone
    simp only [hbad', hstatus]
    rw [if_neg (by decide), if_pos trivial, hdel, map_some, if_neg (by rw [hop']; exact FixOp.noConfusion)]
  have hreloc : endRelocation (pv.setStatus e.2 REL_DEVICE) pb.completed.advanced =
      some (pv', { pb.completed.advanced with
        error := false, berror := .none, bad := none, op := .none, swretry := 0 }) := by
    have hread' : pb.completed.advanced.read = false := hread
    have hw' : ¬pb.completed.advanced.writev = true := by
      rw [show pb.completed.advanced.writev = pb.writev from rfl, hg.writev]
      exact Bool.false_ne_true
    unfold endRelocation
    simp only [hbad', hstatus]
    rw [if_pos ⟨hread', by decide⟩, if_neg hw', if_neg fun hc => Bool.noConfusion hc.1]
    exact hdone
  rw [lv_end_eq hreloc rfl]
  refine next_endContinue htable' hsettled' ?_ hpk rfl rfl fun b hb => ?_
  swap
  · cases hb
  exact ⟨hg'.addr, hg'.startaddr, hg'.endaddr, hg'.start, hg'.read, hg'.noreloc, hg'.fixup, rfl, hg'.writev⟩

/-- A block that may not be relocated, and has to be. -/
def Refused (pv : Pvol) (pb : Pbuf) (x : ℕ) : Prop :=
  ∃ e, pv.lookup x = some e ∧ (pb.noreloc = true ∨ e.status = REL_DESIRED ∧ (pb.read = true ∨ pv.roreloc = true))

/-- A piece in which no block is found on the chain that is searched. -/
structure PlainPiece (pb₀ : Pbuf) (n p k : ℕ) (pv pv' : Pvol) (t : Transfer) : Prop where
  same : pv' = pv
  transfer : t = ⟨pb₀.read, pb₀.startaddr + BLK2BYTE p, BLK2BYTE k, pb₀.start + p⟩
  clean : ∀ x, pb₀.start + p ≤ x → x < pb₀.start + (p + k) →
    BBHASHINX x = BBHASHINX (pb₀.start + p) → pv.lookup x = none
  next : p + k = n ∨ pv.lookup (pb₀.start + (p + k)) ≠ none
  fixup : pb₀.fixup = true → pv.lookup (pb₀.start + p) = none

/-- A piece that is one defective block `d`. -/
structure DefectPiece (pb₀ : Pbuf) (p k d : ℕ) (pv pv' : Pvol) (t : Transfer) : Prop where
  one : k = 1
  le : pb₀.start + p ≤ d
  transfer : t = ⟨pb₀.read, pb₀.startaddr + BLK2BYTE p, DEV_BSIZE, pv.place d⟩
  listed : pv.lookup d ≠ none
  here : pb₀.fixup = false ∨ pv.lookup (pb₀.start + p) ≠ none → d = pb₀.start + p
  allowed : ¬Refused pv pb₀ d
  lookup : ∀ x, x ≠ d → pv'.lookup x = pv.lookup x

/-- What happens at position `p`: the request is refused there, or it is a fixup and has nothing
more to do, or a piece of `k` blocks is sent. -/
inductive Issued (pb₀ : Pbuf) (n p : ℕ) (pv : Pvol) : Option Outcome → Prop
  | refused {pb : Pbuf} : pb₀.fixup = false → Refused pv pb₀ (pb₀.start + p) → pb.error = true →
      pb.berror = .emedia → Issued pb₀ n p pv (some (.done pv pb))
  | finished {pb : Pbuf} : pb₀.fixup = true → pv.lookup (pb₀.start + p) = none →
      Issued pb₀ n p pv (some (.done pv pb))
  | sent {k d : ℕ} {pv₁ pv' : Pvol} {pb : Pbuf} : 0 < k → p + k ≤ n →
      Next pb₀ n (p + k) pv' (lv_end pv₁ pb.completed) → pv'.roreloc = pv.roreloc →
      PlainPiece pb₀ n p k pv pv' pb.transfer ∨ DefectPiece pb₀ p k d pv pv' pb.transfer →
      Issued pb₀ n p pv (some (.queued pv₁ pb))

/-- A fixup is a write, and relocation is allowed. -/
def FixupWrites (pv : Pvol) (pb : Pbuf) : Prop :=
  pb.fixup = true → pb.read = false ∧ pb.noreloc = false ∧ pv.roreloc = false

theorem issued_rest (h : Ready pb₀ n p pv pb) (hp : p < n)
    (hvalid : lv_validblk pv pb = some (true, pv, { pb with bad := none }))
    (hclean : ∀ x, pb₀.start + p ≤ x → x < pb₀.start + n →
      BBHASHINX x = BBHASHINX (pb₀.start + p) → pv.lookup x = none) :
    Issued pb₀ n p pv (issue pv pb) := by
  have hk : p + (n - p) = n := Nat.add_sub_cancel' hp.le
  have hissue : issue pv pb = some (.queued pv { pb with bad := none }) := by
    unfold issue
    rw [hvalid, bind_some]
    have hcount : ({ pb with bad := none } : Pbuf).bcount ≠ 0 := by
      rw [h.bcount, BLK2BYTE, DEV_BSIZE]
      omega
    simp only [if_pos hcount]
  have hg : Going pb₀ n p { pb with bad := none } :=
    ⟨h.going.addr, h.going.startaddr, h.going.endaddr, h.going.start, h.going.read,
      h.going.noreloc, h.going.fixup, h.going.error, h.going.writev⟩
  rw [hissue]
  refine .sent (d := 0) (k := n - p) (by omega) hk.le
    (next_plain h.table h.settled hg h.bcount hk.le h.op fun b hb => ?_) rfl
    (.inl ⟨rfl, ?_, ?_, .inl hk, fun _ => ?_⟩)
  · cases hb
  · unfold Pbuf.transfer
    rw [h.going.read, h.going.addr, h.bcount, h.blkno]
  · rwa [hk]
  · exact hclean _ le_rfl (by omega) rfl

theorem issued_found (h : Ready pb₀ n p pv pb) (hfixup : FixupWrites pv pb₀)
    (hf : (pv.defects (BBHASHINX pb.blkno)).find? (fun e => decide (pb.blkno ≤ pv.number e.2)) =
      some e) (hin : pv.number e.2 < pb₀.start + n) : Issued pb₀ n p pv (issue pv pb) := by
  obtain ⟨hlisted, hcls, hle, hmin, hfirst⟩ := h.table.hashed.find?_eq_some hf
  rw [h.blkno] at hle
  rw [← hcls] at hfirst
  have hlook : pv.lookup (pv.number e.2) = some (pv.entry e.2) := by
    unfold Pvol.lookup
    rw [hfirst]
    rfl
  have hlow (x : ℕ) (hx : pb₀.start + p ≤ x) (hxe : x < pv.number e.2)
      (hc : BBHASHINX x = BBHASHINX (pb₀.start + p)) : pv.lookup x = none := by
    rw [lookup_eq_none h.table]
    rintro dp hdp rfl
    have := hmin dp hdp (by rw [h.blkno, hc]) (by rw [h.blkno]; exact hx)
    omega
  have hbeyond : ¬pb.blkno + BYTE2BLK pb.bcount ≤ pv.number e.2 := by
    rw [h.blkno, h.bcount, BYTE2BLK_BLK2BYTE]
    omega
  have hone : p + 1 ≤ n := by omega
  by_cases hstop : pb.blkno < pv.number e.2 ∧ pb.fixup = false
  · obtain ⟨k, hk⟩ : ∃ k, pv.number e.2 = pb₀.start + p + k := ⟨_, (Nat.add_sub_cancel' hle).symm⟩
    have hk0 : 0 < k := by
      have := hstop.1
      rw [h.blkno] at this
      omega
    have hissue : issue pv pb =
        some (.queued pv { pb with bad := none, bcount := BLK2BYTE k }) := by
      unfold issue lv_validblk
      simp only [hf]
      rw [if_neg hbeyond, if_pos hstop, bind_some, h.blkno, hk, Nat.add_sub_cancel_left]
      have hcount : BLK2BYTE k ≠ 0 := by
        rw [BLK2BYTE, DEV_BSIZE]
        omega
      simp only [if_pos hcount]
    have hg : Going pb₀ n p { pb with bad := none, bcount := BLK2BYTE k } :=
      ⟨h.going.addr, h.going.startaddr, h.going.endaddr, h.going.start, h.going.read,
        h.going.noreloc, h.going.fixup, h.going.error, h.going.writev⟩
    rw [hissue]
    refine .sent (d := 0) (k := k) hk0 (by omega)
      (next_plain h.table h.settled hg rfl (by omega) h.op fun b hb => ?_) rfl
      (.inl ⟨rfl, ?_, ?_, .inr ?_, fun hfix => ?_⟩)
    · cases hb
    · unfold Pbuf.transfer
      rw [h.going.read, h.going.addr, h.blkno]
    · intro x hx hxk hc
      exact hlow x hx (by omega) hc
    · rw [← Nat.add_assoc, ← hk, hlook]
      exact some_ne_none _
    · rw [← h.going.fixup, hstop.2] at hfix
      cases hfix
  have hhere : pb₀.fixup = false ∨ pv.lookup (pb₀.start + p) ≠ none →
      pv.number e.2 = pb₀.start + p := by
    rintro (hfix | hl)
    · rw [h.blkno, h.going.fixup] at hstop
      exact le_antisymm (not_lt.mp fun hlt => hstop ⟨hlt, hfix⟩) hle
    · exact le_antisymm (not_lt.mp fun hlt => hl (hlow _ le_rfl hlt rfl)) hle
  -- The block is handled by itself.
  have hpiece (pv' : Pvol) (t : Transfer) (ht : t = ⟨pb₀.read, pb₀.startaddr + BLK2BYTE p,
        DEV_BSIZE, pv.place (pv.number e.2)⟩)
      (hallow : ¬Refused pv pb₀ (pv.number e.2))
      (hl : ∀ x, x ≠ pv.number e.2 → pv'.lookup x = pv.lookup x) :
      DefectPiece pb₀ p 1 (pv.number e.2) pv pv' t :=
    ⟨rfl, hle, ht, by rw [hlook]; exact some_ne_none _, hhere, hallow, hl⟩
  have hrefused (pb' : Pbuf) (hv : lv_validblk pv pb = some (false, pv, pb'))
      (hfix' : pb'.fixup = pb.fixup)
      (hr : pb₀.noreloc = true ∨ (pv.entry e.2).status = REL_DESIRED ∧
        (pb₀.read = true ∨ pv.roreloc = true)) : Issued pb₀ n p pv (issue pv pb) := by
    have hfix : pb₀.fixup = false := by
      rw [← Bool.not_eq_true]
      intro hfix
      obtain ⟨hread, hno, hro⟩ := hfixup hfix
      rw [hread, hno, hro] at hr
      simp at hr
    have hissue : issue pv pb = some (.done pv { pb' with error := true, berror := .emedia }) := by
      unfold issue
      rw [hv, bind_some]
      simp only
      rw [if_neg (by rw [hfix', h.going.fixup, hfix]; exact Bool.false_ne_true)]
    rw [hissue]
    exact .refused hfix ⟨_, hhere (.inl hfix) ▸ hlook, hr⟩ rfl rfl
  have hat : ¬(pb.blkno < pv.number e.2 ∧ pb.fixup = false) := hstop
  by_cases hno : pb.noreloc = true
  · refine hrefused { pb with blkno := pv.number e.2, bad := none } ?_ rfl
      (.inl (h.going.noreloc ▸ hno))
    unfold lv_validblk
    simp only [hf]
    rw [if_neg hbeyond, if_neg hat, if_pos hno]
  by_cases hdone : (pv.entry e.2).status = REL_DONE
  · have hissue : issue pv pb = some (.queued pv { pb with
        bad := some e.2, bcount := DEV_BSIZE, blkno := (pv.entry e.2).alternate }) := by
      unfold issue lv_validblk
      simp only [hf]
      rw [if_neg hbeyond, if_neg hat, if_neg hno, if_pos hdone, bind_some]
      simp only [if_pos (show DEV_BSIZE ≠ 0 by decide)]
    have hg : Going pb₀ n p { pb with
        bad := some e.2, bcount := DEV_BSIZE, blkno := (pv.entry e.2).alternate } :=
      ⟨h.going.addr, h.going.startaddr, h.going.endaddr, h.going.start, h.going.read,
        h.going.noreloc, h.going.fixup, h.going.error, h.going.writev⟩
    rw [hissue]
    refine .sent (d := pv.number e.2) (k := 1) Nat.one_pos hone
      (next_plain h.table h.settled hg BLK2BYTE_one.symm hone h.op fun b hb => ?_) rfl
      (.inr (hpiece pv _ ?_ ?_ fun _ _ => rfl))
    · cases hb
      exact hdone
    · unfold Pbuf.transfer Pvol.place
      simp only [hlook, hdone, if_true]
      rw [h.going.read, h.going.addr]
    · rintro ⟨e', he', hr⟩
      cases hlook.symm.trans he'
      rcases hr with hr | ⟨hr, -⟩
      · exact hno (h.going.noreloc.trans hr)
      · exact absurd (hdone.symm.trans hr) (by decide)
  have hdesired : (pv.entry e.2).status = REL_DESIRED := (h.settled e.2 hlisted (by omega) hin).resolve_left hdone
  by_cases hro : (pb.read || pv.roreloc) = true
  · refine hrefused { pb with blkno := pv.number e.2, bad := some e.2, bcount := DEV_BSIZE } ?_ rfl
      (.inr ⟨hdesired, ?_⟩)
    · unfold lv_validblk
      simp only [hf]
      rw [if_neg hbeyond, if_neg hat, if_neg hno, if_neg hdone, if_pos hdesired, if_pos hro]
    · rwa [← h.going.read, ← Bool.or_eq_true]
  · have hread : pb.read = false ∧ pv.roreloc = false := by
      rwa [Bool.not_eq_true, Bool.or_eq_false_iff] at hro
    have hissue : issue pv pb = some (.queued (pv.setStatus e.2 REL_DEVICE) { pb with
        blkno := pv.number e.2, bad := some e.2, bcount := DEV_BSIZE, hwreloc := true
        op := .readError }) := by
      unfold issue lv_validblk
      simp only [hf]
      rw [if_neg hbeyond, if_neg hat, if_neg hno, if_neg hdone, if_pos hdesired, if_neg hro, bind_some]
      simp only [if_pos (show DEV_BSIZE ≠ 0 by decide)]
    have hg : Going pb₀ n p { pb with
        blkno := pv.number e.2, bad := some e.2, bcount := DEV_BSIZE, hwreloc := true
        op := .readError } :=
      ⟨h.going.addr, h.going.startaddr, h.going.endaddr, h.going.start, h.going.read,
        h.going.noreloc, h.going.fixup, h.going.error, h.going.writev⟩
    obtain ⟨pv', hnext, hlookup, hro'⟩ := next_relocated h.table h.settled hg hfirst
      BLK2BYTE_one.symm hone rfl rfl hread.1
    rw [hissue]
    refine .sent (d := pv.number e.2) (k := 1) Nat.one_pos hone hnext hro'
      (.inr (hpiece pv' _ ?_ ?_ hlookup))
    · unfold Pbuf.transfer Pvol.place
      simp only [hlook, hdone, if_false]
      rw [h.going.read, h.going.addr]
    · rintro ⟨e', he', hr⟩
      cases hlook.symm.trans he'
      rcases hr with hr | ⟨-, hr | hr⟩
      · exact hno (h.going.noreloc.trans hr)
      · exact Bool.noConfusion (hread.1.symm.trans (h.going.read.trans hr))
      · exact Bool.noConfusion (hread.2.symm.trans hr)

theorem issued (h : Ready pb₀ n p pv pb) (hp : p < n) (hfixup : FixupWrites pv pb₀) :
    Issued pb₀ n p pv (issue pv pb) := by
  cases hf : (pv.defects (BBHASHINX pb.blkno)).find?
      (fun e => decide (pb.blkno ≤ pv.number e.2)) with
  | none =>
    refine issued_rest h hp (lv_validblk_none hf) fun x hx _ hc => ?_
    rw [lookup_eq_none h.table]
    rintro dp hdp rfl
    have := h.table.hashed.find?_eq_none.mp hf dp hdp (by rw [h.blkno, hc])
    rw [h.blkno] at this
    omega
  | some e =>
    by_cases hin : pv.number e.2 < pb₀.start + n
    · exact issued_found h hfixup hf hin
    · obtain ⟨-, -, -, hmin, -⟩ := h.table.hashed.find?_eq_some hf
      have hclean (x : ℕ) (hx : pb₀.start + p ≤ x) (hxn : x < pb₀.start + n)
          (hc : BBHASHINX x = BBHASHINX (pb₀.start + p)) : pv.lookup x = none := by
        rw [lookup_eq_none h.table]
        rintro dp hdp rfl
        have := hmin dp hdp (by rw [h.blkno, hc]) (by rw [h.blkno]; exact hx)
        omega
      have hbeyond : pb.blkno + BYTE2BLK pb.bcount ≤ pv.number e.2 := by
        rw [h.blkno, h.bcount, BYTE2BLK_BLK2BYTE]
        omega
      cases hfix : pb.fixup with
      | false =>
        refine issued_rest h hp ?_ hclean
        unfold lv_validblk
        simp only [hf]
        rw [if_pos hbeyond, if_neg (by rw [hfix]; exact Bool.false_ne_true)]
      | true =>
        have hissue : ∃ pb', issue pv pb = some (.done pv pb') := by
          unfold issue lv_validblk
          simp only [hf]
          rw [if_pos hbeyond, if_pos hfix, bind_some]
          exact ⟨_, rfl⟩
        obtain ⟨pb', hissue⟩ := hissue
        rw [hissue]
        exact .finished (h.going.fixup ▸ hfix) (hclean _ le_rfl (by omega) rfl)

theorem runs_exist {p : ℕ} {pv : Pvol} {pb : Pbuf} (h : Ready pb₀ n p pv pb) (hp : p < n) (hfixup : FixupWrites pv pb₀) :
    ∃ o ts pv' pb', issue pv pb = some o ∧ Runs o ts pv' pb' ∧ ts.length ≤ n - p := by
  have hissued := issued h hp hfixup
  generalize hi : issue pv pb = r at hissued
  cases hissued with
  | refused => exact ⟨_, [], _, _, rfl, .done, Nat.zero_le _⟩
  | finished => exact ⟨_, [], _, _, rfl, .done, Nat.zero_le _⟩
  | @sent k d pv₁ pv' pb₁ hk hkn hnext hro _ =>
    generalize he : lv_end pv₁ pb₁.completed = r at hnext
    cases hnext with
    | done hn _ => exact ⟨_, [_], _, _, rfl, .piece he .done, by rw [List.length_singleton]; omega⟩
    | more hlt hready =>
      obtain ⟨o, ts, pv₂, pb₂, ho, hruns, hlen⟩ :=
        runs_exist hready hlt fun hfix => by
          rw [hro]
          exact hfixup hfix
      exact ⟨_, _ :: ts, _, _, rfl, .piece (he.trans ho) hruns, by
        rw [List.length_cons]
        omega⟩
termination_by n - p

theorem Runs.unique {o : Outcome} {ts ts' : List Transfer} {pv₁ pv₂ : Pvol} {pb₁ pb₂ : Pbuf}
    (h : Runs o ts pv₁ pb₁) (h' : Runs o ts' pv₂ pb₂) : ts = ts' ∧ pv₁ = pv₂ ∧ pb₁ = pb₂ := by
  induction h generalizing ts' with
  | done =>
    cases h'
    exact ⟨rfl, rfl, rfl⟩
  | piece he _ ih =>
    cases h' with
    | piece he' hr' =>
      cases he.symm.trans he'
      obtain ⟨rfl, hpv, hpb⟩ := ih hr'
      exact ⟨rfl, hpv, hpb⟩

/-- Transfers that move the blocks from position `p` to position `q` in ascending order, each block
once, between its bytes of the buffer and the block that holds it. -/
inductive Moves (pv : Pvol) (pb : Pbuf) : ℕ → List Transfer → ℕ → Prop
  | nil {p : ℕ} : Moves pv pb p [] p
  | cons {p q k : ℕ} {t : Transfer} {ts : List Transfer} : 0 < k → t.read = pb.read →
      t.addr = pb.startaddr + BLK2BYTE p → t.bcount = BLK2BYTE k →
      (∀ j, j < k → t.blkno + j = pv.place (pb.start + (p + j))) → Moves pv pb (p + k) ts q →
      Moves pv pb p (t :: ts) q

/-- The condition on the hash classes: where a search begins, the first defective block that
follows is of the class that is searched. -/
def SearchedAlong (pv : Pvol) (start n : ℕ) : Prop :=
  ∀ p d, p ≤ d → d < n → (p = 0 ∨ pv.lookup (start + (p - 1)) ≠ none) →
    pv.lookup (start + d) ≠ none → (∀ x, p ≤ x → x < d → pv.lookup (start + x) = none) →
    BBHASHINX (start + d) = BBHASHINX (start + p)

/-- How an ordinary request ends: at its end, or in front of the first block that is refused. -/
def Ends (pv : Pvol) (pb₀ : Pbuf) (n m : ℕ) (pb : Pbuf) : Prop :=
  m = n ∧ pb.error = false ∨ m < n ∧ Refused pv pb₀ (pb₀.start + m) ∧ pb.error = true ∧ pb.berror = .emedia

theorem place_congr (h : pv'.lookup x = pv.lookup x) : pv'.place x = pv.place x := by
  unfold Pvol.place
  rw [h]

theorem refused_congr (h : pv'.lookup x = pv.lookup x) (hro : pv'.roreloc = pv.roreloc) :
    Refused pv' pb x ↔ Refused pv pb x := by
  unfold Refused
  rw [h, hro]

theorem place_of_none (h : pv.lookup x = none) : pv.place x = x := by
  unfold Pvol.place
  rw [h]

theorem not_refused_of_none (h : pv.lookup x = none) : ¬Refused pv pb x := by
  rintro ⟨e, he, -⟩
  cases h.symm.trans he

theorem PlainPiece.none {t : Transfer} (h : PlainPiece pb₀ n p k pv pv' t)
    (hkn : p + k ≤ n) (hsearched : SearchedAlong pv₀ pb₀.start n) (hsame : ∀ x, pb₀.start + p ≤ x → pv.lookup x = pv₀.lookup x)
    (hpos : p = 0 ∨ pv₀.lookup (pb₀.start + (p - 1)) ≠ Option.none ∨ pv₀.lookup (pb₀.start + p) ≠ Option.none) :
    ∀ x, p ≤ x → x < p + k → pv₀.lookup (pb₀.start + x) = Option.none := by
  intro x
  induction x using Nat.strong_induction_on with
  | _ x ih =>
    intro hpx hxk
    rw [← hsame _ (by omega)]
    by_contra hx
    refine hx (h.clean _ (by omega) (by omega) ?_)
    rw [hsame _ (by omega)] at hx
    have hbefore (y : ℕ) (hy : p ≤ y) (hyx : y < x) : pv₀.lookup (pb₀.start + y) = Option.none :=
      ih y hyx hy (hyx.trans hxk)
    rcases hpos with hpos | hpos | hpos
    · exact hsearched p x hpx (by omega) (.inl hpos) hx hbefore
    · exact hsearched p x hpx (by omega) (.inr hpos) hx hbefore
    · -- The block at `p` is defective, so that the first defective one is this one.
      rcases Nat.lt_or_eq_of_le hpx with hlt | rfl
      · exact absurd (hbefore p le_rfl hlt) hpos
      · rfl

theorem ordinary_moves {p : ℕ} {pv : Pvol} {pb : Pbuf} (hfix : pb₀.fixup = false)
    (hsearched : SearchedAlong pv₀ pb₀.start n) (h : Ready pb₀ n p pv pb) (hp : p < n)
    (hsame : ∀ x, pb₀.start + p ≤ x → pv.lookup x = pv₀.lookup x) (hro : pv.roreloc = pv₀.roreloc)
    (hpos : p = 0 ∨ pv₀.lookup (pb₀.start + (p - 1)) ≠ none ∨ pv₀.lookup (pb₀.start + p) ≠ none) :
    ∃ o ts pv' pb' m, issue pv pb = some o ∧ Runs o ts pv' pb' ∧ Moves pv₀ pb₀ p ts m ∧
      Ends pv₀ pb₀ n m pb' ∧ ∀ x, p ≤ x → x < m → ¬Refused pv₀ pb₀ (pb₀.start + x) := by
  have hfixup : FixupWrites pv pb₀ := fun h => Bool.noConfusion (hfix.symm.trans h)
  have hissued := issued h hp hfixup
  generalize hi : issue pv pb = r at hissued
  cases hissued with
  | refused _ hr he hm =>
    rw [refused_congr (hsame _ le_rfl) hro] at hr
    exact ⟨_, [], _, _, p, rfl, .done, .nil, .inr ⟨hp, hr, he, hm⟩, fun x hx hxp => by omega⟩
  | finished hfix' => cases hfix.symm.trans hfix'
  | @sent k d pv₁ pv' pb₁ hk hkn hnext hro' hpiece =>
    -- The blocks of the piece: where they are, that none is refused, and what is known after it.
    obtain ⟨ht, hclear, hsame', hpos'⟩ :
        (pb₁.transfer.read = pb₀.read ∧ pb₁.transfer.addr = pb₀.startaddr + BLK2BYTE p ∧
          pb₁.transfer.bcount = BLK2BYTE k ∧
          ∀ j, j < k → pb₁.transfer.blkno + j = pv₀.place (pb₀.start + (p + j))) ∧
        (∀ x, p ≤ x → x < p + k → ¬Refused pv₀ pb₀ (pb₀.start + x)) ∧
        (∀ x, pb₀.start + (p + k) ≤ x → pv'.lookup x = pv₀.lookup x) ∧
        (p + k < n → pv₀.lookup (pb₀.start + (p + k - 1)) ≠ none ∨
          pv₀.lookup (pb₀.start + (p + k)) ≠ none) := by
      rcases hpiece with hplain | hdefect
      · have hnone := hplain.none hkn hsearched hsame hpos
        refine ⟨?_, fun x hx hxk => not_refused_of_none (hnone x hx hxk), fun x hx => ?_, fun hlt => .inr ?_⟩
        · rw [hplain.transfer]
          refine ⟨rfl, rfl, rfl, fun j hj => ?_⟩
          rw [place_of_none (hnone _ (by omega) (by omega)), Nat.add_assoc]
        · rw [hplain.same]
          exact hsame x (by omega)
        · rw [← hsame _ (by omega)]
          exact hplain.next.resolve_left hlt.ne
      · have hd : d = pb₀.start + p := hdefect.here (.inl hfix)
        have hk1 := hdefect.one
        subst hk1
        have hlisted := hdefect.listed
        have hallowed := hdefect.allowed
        rw [hd] at hlisted hallowed
        rw [refused_congr (hsame _ le_rfl) hro] at hallowed
        refine ⟨?_, fun x hx hxk => ?_, fun x hx => ?_, fun _ => .inl ?_⟩
        · rw [hdefect.transfer, hd]
          refine ⟨rfl, rfl, rfl, fun j hj => ?_⟩
          rw [Nat.lt_one_iff.mp hj, Nat.add_zero, Nat.add_zero]
          exact place_congr (hsame _ le_rfl)
        · rwa [show x = p by omega]
        · rw [hdefect.lookup x (by omega)]
          exact hsame x (by omega)
        · rwa [Nat.add_sub_cancel, ← hsame _ le_rfl]
    generalize he : lv_end pv₁ pb₁.completed = r at hnext
    cases hnext with
    | done hn herror =>
      exact ⟨_, [_], _, _, p + k, rfl, .piece he .done,
        .cons hk ht.1 ht.2.1 ht.2.2.1 ht.2.2.2 .nil, .inl ⟨hn, herror⟩, hclear⟩
    | more hlt hready =>
      obtain ⟨o, ts, pv₂, pb₂, m, ho, hruns, hmoves, hends, hrest⟩ :=
        ordinary_moves hfix hsearched hready hlt hsame' (hro'.trans hro) (.inr (hpos' hlt))
      refine ⟨_, _ :: ts, _, _, m, rfl, .piece (he.trans ho) hruns,
        .cons hk ht.1 ht.2.1 ht.2.2.1 ht.2.2.2 hmoves, hends, fun x hx hxm => ?_⟩
      by_cases hxk : x < p + k
      · exact hclear x hx hxk
      · exact hrest x (not_lt.mp hxk) hxm
termination_by n - p

theorem fixup_moves {p : ℕ} {pv : Pvol} {pb : Pbuf} (hfix : pb₀.fixup = true) (hm : m ≤ n)
    (hdefective : ∀ x, x < m → pv₀.lookup (pb₀.start + x) ≠ none) (h : Ready pb₀ n p pv pb)
    (hp : p < n) (hpm : p ≤ m) (hfixup : FixupWrites pv pb₀) (hsame : ∀ x, pb₀.start + p ≤ x → pv.lookup x = pv₀.lookup x) :
    ∃ o ts pv' pb', issue pv pb = some o ∧ Runs o ts pv' pb' ∧
      Moves pv₀ pb₀ p (ts.take (m - p)) m := by
  rcases Nat.lt_or_eq_of_le hpm with hpm | rfl
  · have hhere := hdefective p hpm
    rw [← hsame _ le_rfl] at hhere
    have hissued := issued h hp hfixup
    generalize hi : issue pv pb = r at hissued
    cases hissued with
    | refused hno => cases hfix.symm.trans hno
    | finished _ hnone => exact absurd hnone hhere
    | @sent k d pv₁ pv' pb₁ hk hkn hnext hro' hpiece =>
      have hdefect := hpiece.resolve_left fun hplain => hhere (hplain.fixup hfix)
      have hd : d = pb₀.start + p := hdefect.here (.inr hhere)
      have hk1 := hdefect.one
      subst hk1
      have hmove (ts : List Transfer) (hts : Moves pv₀ pb₀ (p + 1) ts m) :
          Moves pv₀ pb₀ p (pb₁.transfer :: ts) m := by
        rw [hdefect.transfer, hd]
        refine .cons Nat.one_pos rfl rfl BLK2BYTE_one.symm (fun j hj => ?_) hts
        rw [Nat.lt_one_iff.mp hj, Nat.add_zero, Nat.add_zero]
        exact place_congr (hsame _ le_rfl)
      have htake (ts : List Transfer) :
          (pb₁.transfer :: ts).take (m - p) = pb₁.transfer :: ts.take (m - (p + 1)) := by
        rw [show m - p = m - (p + 1) + 1 by omega, List.take_succ_cons]
      generalize he : lv_end pv₁ pb₁.completed = r at hnext
      cases hnext with
      | done hn _ =>
        refine ⟨_, [_], _, _, rfl, .piece he .done, ?_⟩
        rw [htake, List.take_nil]
        refine hmove [] ?_
        rw [show m = p + 1 by omega]
        exact .nil
      | more hlt hready =>
        obtain ⟨o, ts, pv₂, pb₂, ho, hruns, hmoves⟩ :=
          fixup_moves hfix hm hdefective hready hlt hpm
            (fun hf => by rw [hro']; exact hfixup hf)
            (fun x hx => by rw [hdefect.lookup x (by omega)]; exact hsame x (by omega))
        refine ⟨_, _ :: ts, _, _, rfl, .piece (he.trans ho) hruns, ?_⟩
        rw [htake]
        exact hmove _ hmoves
  · obtain ⟨o, ts, pv', pb', ho, hruns, -⟩ := runs_exist h hp hfixup
    refine ⟨o, ts, pv', pb', ho, hruns, ?_⟩
    rw [Nat.sub_self, List.take_zero]
    exact .nil
termination_by n - p

/-- A request of `n` blocks, as `lv_xlate` makes it.
SRC: lvm/lv_schedule.c:366-394 -/
structure Request (pb : Pbuf) (n : ℕ) : Prop where
  addr : pb.addr = pb.startaddr
  endaddr : pb.endaddr = pb.startaddr + BLK2BYTE n
  bcount : pb.bcount = BLK2BYTE n
  error : pb.error = false
  writev : pb.writev = false

/-- The request as `lv_begin` checks it. -/
def Pbuf.begun (pb : Pbuf) : Pbuf := { pb with blkno := pb.start, swretry := 0, op := .none }

theorem ready_begun (htable : Table pv) (hsettled : AllSettled pv pb.start (pb.start + n))
    (h : Request pb n) : Ready pb n 0 pv pb.begun where
  table := htable
  settled := hsettled
  going :=
    ⟨by rw [BLK2BYTE, Nat.zero_mul]; exact h.addr, rfl, h.endaddr, rfl, rfl, rfl, rfl, h.error, h.writev⟩
  op := rfl
  blkno := rfl
  bcount := h.bcount

theorem lv_begin_empty (pv : Pvol) (h : Request pb 0) :
    ∃ pb', lv_begin pv pb = some (.done pv pb') ∧ pb'.error = false := by
  have hcount : pb.begun.bcount = 0 := h.bcount.trans (Nat.zero_mul _)
  have hissue : ∃ pb', issue pv pb.begun = some (.done pv pb') ∧ pb'.error = false := by
    unfold issue
    cases hf : (pv.defects (BBHASHINX pb.begun.blkno)).find?
        (fun e => decide (pb.begun.blkno ≤ pv.number e.2)) with
    | none =>
      rw [lv_validblk_none hf, bind_some]
      simp only [hcount, ne_eq, not_true, if_false]
      exact ⟨_, rfl, h.error⟩
    | some e =>
      have hle : pb.begun.blkno ≤ pv.number e.2 := by simpa using List.find?_some hf
      have hbeyond : pb.begun.blkno + BYTE2BLK pb.begun.bcount ≤ pv.number e.2 := by
        rw [hcount]
        simpa [BYTE2BLK] using hle
      unfold lv_validblk
      simp only [hf]
      rw [if_pos hbeyond]
      split
      · exact ⟨_, rfl, h.error⟩
      · simp only [bind_some, hcount, ne_eq, not_true, if_false]
        exact ⟨_, rfl, h.error⟩
  exact hissue

theorem request_readRequest (blkno nblocks : ℕ) : Request (readRequest blkno nblocks) nblocks :=
  ⟨rfl, (Nat.zero_add _).symm, rfl, rfl, rfl⟩

theorem settled_volumeOne (blkno lo hi : ℕ) : AllSettled (volumeOne blkno) lo hi := by
  intro dp hdp _ _
  rw [(listed_dirOne (bbdir_volumeOne blkno)).mp hdp, entry_dirOne (bbdir_volumeOne blkno)]
  exact .inr rfl

end Osf1.Defect
