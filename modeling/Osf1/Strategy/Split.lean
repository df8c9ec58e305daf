import Osf1.Strategy.Model

/-!
# A request that crosses a track group

`lv_strategy` makes two buffers of a request that is not within one logical track group, and `lv_collect` puts their
results together when the layers below are done with them.
-/

set_option autoImplicit false

namespace Osf1.Strategy

open Function (update)

section Model

/-- A buffer.  The `B_READ` and `B_ERROR` of `b_flags` are fields of their own.
SRC: sys/buf.h:132-160 -/
structure Buf where
  b_blkno : BitVec 32
  b_bcount : BitVec 32
  b_addr : BitVec 32
  read : Bool
  error : Bool
  b_error : ℕ
  b_resid : BitVec 32
  deriving DecidableEq

/-- What `lv_workmask` looks at. -/
def Buf.request (lb : Buf) : Request := ⟨0, lb.b_blkno, lb.b_bcount, lb.read, false⟩

/-- SRC: lvm/ltg.h:59 -/
def BLK2BYTE (nblocks : BitVec 32) : BitVec 32 := nblocks <<< 9

/-- SRC: lvm/ltg.h:60 -/
def BYTE2BLK (nbytes : BitVec 32) : BitVec 32 := nbytes >>> 9

/-- SRC: lvm/ltg.h:56 -/
def BYTEPTRK (shift : ℕ) : ℕ := PGPTRK * (2 ^ shift * DEV_BSIZE)

/-- The count of the pages affected, as `lv_strategy` computes it.
SRC: lvm/lv_strategy.c:296-299 -/
def strategyPct (shift : ℕ) (lb : Buf) : ℕ :=
  if lb.b_bcount.toNat / DEV_BSIZE ≠ 0 then pct shift lb.request else lb.b_blkno.toNat % 2 ^ shift / 2 ^ shift

/-- The two buffers, if the request does not fit in its track group.
SRC: lvm/lv_strategy.c:271-342 -/
def lvSpan (shift : ℕ) (lb : Buf) : Option (Buf × Buf) :=
  if PGPTRK < pwt shift lb.request + strategyPct shift lb then
    let bwp := lb.b_blkno.toNat % 2 ^ shift
    let b_bcount := BLK2BYTE (BitVec.ofNat 32 ((PGPTRK - pwt shift lb.request) * 2 ^ shift + bwp))
    some (⟨lb.b_blkno, b_bcount, lb.b_addr, lb.read, false, 0, 0⟩,
      ⟨lb.b_blkno + BYTE2BLK b_bcount, lb.b_bcount - b_bcount, lb.b_addr + b_bcount, lb.read, false, 0, 0⟩)
  else none

/-- How the layers below leave a buffer. -/
structure Outcome where
  error : Bool
  b_error : ℕ
  b_resid : BitVec 32

/-- The request and its two buffers until they are freed, with whether `b_forw` leads to the other one.  `biodones` counts
the calls of `biodone` for the request. -/
structure Spanned where
  orig : Buf
  bufs : Bool → Option (Buf × Bool)
  biodones : ℕ

def Spanned.start (lb buf1 buf2 : Buf) (o : Bool → Outcome) : Spanned :=
  ⟨lb, fun i => some ({ (if i then buf2 else buf1) with
    error := (o i).error, b_error := (o i).b_error, b_resid := (o i).b_resid }, true), 0⟩

/-- A call for the first buffer or the second one.  There is no result if a buffer is used that has been freed.
SRC: lvm/lv_strategy.c:844-876 -/
def lvCollect (i : Bool) (s : Spanned) : Option Spanned :=
  match s.bufs i with
  | none => none
  | some (lb, other) =>
    let orig := if lb.error then
        { s.orig with error := true, b_error := lb.b_error, b_resid := s.orig.b_resid + lb.b_resid }
      else s.orig
    if other then
      match s.bufs (!i) with
      | none => none
      | some (b, _) => some ⟨orig, update (update s.bufs (!i) (some (b, false))) i none, s.biodones⟩
    else some ⟨orig, update s.bufs i none, s.biodones + 1⟩

end Model

section Pieces

variable {shift : ℕ} {lb buf1 buf2 : Buf}

/-- A piece is accepted, and all its blocks are in one track group. -/
structure InTrack (shift : ℕ) (lb : Buf) : Prop where
  accepted : lvWorkmask shift lb.request = 0
  same : ∀ i < lb.b_bcount.toNat / DEV_BSIZE,
    blk2trk shift (lb.b_blkno + BitVec.ofNat 32 i) = blk2trk shift lb.b_blkno

/-- The two pieces are the bytes of the request, one after the other, and each is in a track group. -/
structure Covers (shift : ℕ) (lb buf1 buf2 : Buf) : Prop where
  blkno : buf1.b_blkno = lb.b_blkno
  addr : buf1.b_addr = lb.b_addr
  whole : buf1.b_bcount.toNat % DEV_BSIZE = 0
  count : buf1.b_bcount.toNat + buf2.b_bcount.toNat = lb.b_bcount.toNat
  next : buf2.b_blkno = lb.b_blkno + BitVec.ofNat 32 (buf1.b_bcount.toNat / DEV_BSIZE)
  nextAddr : buf2.b_addr = lb.b_addr + buf1.b_bcount
  first : InTrack shift buf1
  second : InTrack shift buf2

theorem next_track {P b : ℕ} (hP : 0 < P) (h : b % P = 0) :
    b + (PGPTRK - b / P % PGPTRK) * P = PGPTRK * P * (b / P / PGPTRK + 1) := by
  obtain ⟨m, rfl⟩ := Nat.dvd_of_mod_eq_zero h
  rw [Nat.mul_div_cancel_left m hP]
  have hm : m + (PGPTRK - m % PGPTRK) = PGPTRK * (m / PGPTRK + 1) := by
    unfold PGPTRK
    omega
  calc P * m + (PGPTRK - m % PGPTRK) * P = (m + (PGPTRK - m % PGPTRK)) * P := by ring
    _ = PGPTRK * P * (m / PGPTRK + 1) := by
      rw [hm]
      ring

theorem blk2byte_toNat {k : ℕ} (hk : k < 2 ^ 23) : (BLK2BYTE (BitVec.ofNat 32 k)).toNat = k * DEV_BSIZE := by
  unfold BLK2BYTE DEV_BSIZE
  rw [BitVec.toNat_shiftLeft, BitVec.toNat_ofNat, Nat.shiftLeft_eq]
  omega

theorem byte2blk_blk2byte {k : ℕ} (hk : k < 2 ^ 23) : BYTE2BLK (BLK2BYTE (BitVec.ofNat 32 k)) = BitVec.ofNat 32 k := by
  apply BitVec.eq_of_toNat_eq
  unfold BYTE2BLK
  rw [BitVec.toNat_ushiftRight, blk2byte_toNat hk, BitVec.toNat_ofNat, Nat.shiftRight_eq_div_pow, DEV_BSIZE]
  omega

theorem pct_eq {n : ℕ} (hshift : shift ≤ 16) (hn : lb.b_bcount.toNat = n * DEV_BSIZE) (hpos : 0 < n) :
    pct shift lb.request = (lb.b_blkno.toNat % 2 ^ shift + n - 1) / 2 ^ shift + 1 := by
  have hP : 2 ^ shift ≤ 2 ^ 16 := Nat.pow_le_pow_right (by decide) hshift
  have hblocks : lb.b_bcount.toNat / DEV_BSIZE = n := by rw [hn, Nat.mul_div_cancel _ (by decide)]
  unfold DEV_BSIZE at hn
  have hwrap : (lb.b_blkno.toNat % 2 ^ shift + n + (2 ^ 32 - 1)) % 2 ^ 32 = lb.b_blkno.toNat % 2 ^ shift + n - 1 := by omega
  unfold pct
  dsimp only [Buf.request]
  rw [hblocks, hwrap]

theorem workmask_eq_zero : lvWorkmask shift lb.request = 0 ↔ pwt shift lb.request + pct shift lb.request ≤ PGPTRK := by
  unfold lvWorkmask EINVAL
  split_ifs with h
  · exact iff_of_false (by decide) (Nat.not_le.mpr h)
  · exact iff_of_true rfl (Nat.le_of_not_lt h)

theorem inTrack {n : ℕ} (hshift : shift ≤ 16) (hn : lb.b_bcount.toNat = n * DEV_BSIZE) (hpos : 0 < n)
    (hfits : lb.b_blkno.toNat % (2 ^ shift * PGPTRK) + n ≤ 2 ^ shift * PGPTRK) : InTrack shift lb := by
  have hP : 0 < 2 ^ shift := Nat.two_pow_pos shift
  have hb := lb.b_blkno.isLt
  constructor
  · rw [workmask_eq_zero, pct_eq hshift hn hpos, pwt, Buf.request, ← Nat.add_assoc, Nat.succ_le_iff]
    rw [Nat.mod_mul] at hfits
    have hdiv : (lb.b_blkno.toNat % 2 ^ shift + n - 1) / 2 ^ shift < PGPTRK - lb.b_blkno.toNat / 2 ^ shift % PGPTRK := by
      rw [Nat.div_lt_iff_lt_mul hP, Nat.mul_comm, Nat.mul_sub]
      omega
    dsimp only
    generalize (lb.b_blkno.toNat % 2 ^ shift + n - 1) / 2 ^ shift = d at hdiv ⊢
    omega
  · intro i hi
    rw [hn, Nat.mul_div_cancel _ (by decide : 0 < DEV_BSIZE)] at hi
    have hdvd : 2 ^ shift * PGPTRK ∣ 2 ^ 32 := by
      rw [show PGPTRK = 2 ^ 5 from rfl, ← pow_add]
      exact pow_dvd_pow 2 (by omega)
    obtain ⟨c, hc⟩ := hdvd
    generalize hT : 2 ^ shift * PGPTRK = T at *
    have hTpos : 0 < T := by
      rw [← hT]
      exact Nat.mul_pos hP (by decide)
    have hquot : lb.b_blkno.toNat / T < c := by
      rw [Nat.div_lt_iff_lt_mul hTpos, Nat.mul_comm, ← hc]
      exact hb
    have hsplit := Nat.div_add_mod lb.b_blkno.toNat T
    have hnext : T * (lb.b_blkno.toNat / T + 1) ≤ T * c := Nat.mul_le_mul_left T hquot
    have hsum : lb.b_blkno.toNat + i < 2 ^ 32 := by
      rw [Nat.mul_add, ← hc] at hnext
      omega
    have htrack : blk2trk shift (lb.b_blkno + BitVec.ofNat 32 i) = (lb.b_blkno.toNat + i) / T := by
      unfold blk2trk
      rw [BitVec.toNat_add, BitVec.toNat_ofNat, Nat.add_mod_mod, Nat.mod_eq_of_lt hsum, ← hT, Nat.add_comm TRKSHIFT,
        pow_add]
      rfl
    rw [htrack, blk2trk, Nat.add_comm TRKSHIFT, pow_add, show (2 : ℕ) ^ shift * 2 ^ TRKSHIFT = T from hT]
    have hin : (lb.b_blkno.toNat % T + i) / T = 0 := Nat.div_eq_of_lt (by omega)
    conv_lhs => rw [← hsplit, Nat.add_assoc, Nat.mul_add_div hTpos, hin, Nat.add_zero]

theorem covers_iff (hshift : shift ≤ 16) (hwhole : lb.b_bcount.toNat % DEV_BSIZE = 0)
    (hle : lb.b_bcount.toNat ≤ BYTEPTRK shift) (h : lvSpan shift lb = some (buf1, buf2)) :
    Covers shift lb buf1 buf2 ↔ lb.b_blkno.toNat % 2 ^ shift = 0 := by
  have hP : 0 < 2 ^ shift := Nat.two_pow_pos shift
  have hP' : 2 ^ shift ≤ 2 ^ 16 := Nat.pow_le_pow_right (by decide) hshift
  obtain ⟨n, hn⟩ : ∃ n, lb.b_bcount.toNat = n * DEV_BSIZE := ⟨_, (Nat.div_mul_cancel (Nat.dvd_of_mod_eq_zero hwhole)).symm⟩
  have hnle : n ≤ PGPTRK * 2 ^ shift := by
    unfold BYTEPTRK at hle
    rw [hn, ← Nat.mul_assoc] at hle
    exact Nat.le_of_mul_le_mul_right hle (by decide)
  unfold lvSpan at h
  split_ifs at h with hcross
  obtain ⟨rfl, rfl⟩ := h
  have hpw : pwt shift lb.request = lb.b_blkno.toNat / 2 ^ shift % PGPTRK := rfl
  have hpwlt : pwt shift lb.request < PGPTRK := Nat.mod_lt _ (by decide)
  generalize hk : (PGPTRK - pwt shift lb.request) * 2 ^ shift + lb.b_blkno.toNat % 2 ^ shift = k
  have hkle : (PGPTRK - pwt shift lb.request) * 2 ^ shift ≤ PGPTRK * 2 ^ shift := Nat.mul_le_mul_right _ (Nat.sub_le ..)
  have hkpos : 1 * 2 ^ shift ≤ (PGPTRK - pwt shift lb.request) * 2 ^ shift := Nat.mul_le_mul_right _ (by omega)
  have htrack : PGPTRK * 2 ^ shift ≤ 32 * 2 ^ 16 := Nat.mul_le_mul_left 32 hP'
  have hksmall : k < 2 ^ 23 := by omega
  have hkbytes := blk2byte_toNat hksmall
  constructor
  · intro hcovers
    by_contra hne
    have haccepted := hcovers.first.accepted
    rw [workmask_eq_zero, pct_eq hshift hkbytes (by omega)] at haccepted
    have hdiv : PGPTRK - pwt shift lb.request ≤ (lb.b_blkno.toNat % 2 ^ shift + k - 1) / 2 ^ shift := by
      rw [Nat.le_div_iff_mul_le hP]
      omega
    change pwt shift lb.request + ((lb.b_blkno.toNat % 2 ^ shift + k - 1) / 2 ^ shift + 1) ≤ PGPTRK at haccepted
    omega
  · intro hzero
    rw [hzero, Nat.add_zero] at hk
    have hnpos : 0 < n := by
      rcases Nat.eq_zero_or_pos n with rfl | hpos
      · unfold strategyPct at hcross
        rw [hn, Nat.zero_mul, Nat.zero_div, if_neg (by simp), hzero, Nat.zero_div] at hcross
        omega
      · exact hpos
    have hlt : k < n := by
      unfold strategyPct at hcross
      rw [hn, Nat.mul_div_cancel _ (by decide), if_pos hnpos.ne', pct_eq hshift hn hnpos, hzero, Nat.zero_add] at hcross
      have hdiv : PGPTRK - pwt shift lb.request ≤ (n - 1) / 2 ^ shift := by omega
      rw [Nat.le_div_iff_mul_le hP, hk] at hdiv
      omega
    have hsmall : n * DEV_BSIZE < 2 ^ 32 := hn ▸ lb.b_bcount.isLt
    have hsub : (lb.b_bcount - BLK2BYTE (BitVec.ofNat 32 k)).toNat = (n - k) * DEV_BSIZE := by
      rw [BitVec.toNat_sub, hkbytes, hn]
      unfold DEV_BSIZE at hsmall ⊢
      omega
    have hblocks : (BLK2BYTE (BitVec.ofNat 32 k)).toNat / DEV_BSIZE = k := by
      rw [hkbytes, Nat.mul_div_cancel _ (by decide)]
    refine ⟨rfl, rfl, ?_, ?_, ?_, rfl, ?_, ?_⟩
    · rw [hkbytes, Nat.mul_mod_left]
    · rw [hsub, hkbytes, hn, ← Nat.add_mul, Nat.add_sub_cancel' hlt.le]
    · rw [hblocks, byte2blk_blk2byte hksmall]
    · refine inTrack hshift hkbytes (by omega) ?_
      rw [Nat.mod_mul, hzero, ← hpw, ← hk, Nat.zero_add, Nat.mul_comm (2 ^ shift), Nat.mul_comm (2 ^ shift), ← Nat.add_mul]
      exact Nat.mul_le_mul_right _ (by omega)
    · refine inTrack hshift hsub (Nat.sub_pos_of_lt hlt) ?_
      have hdvd : 2 ^ shift * PGPTRK ∣ 2 ^ 32 := by
        rw [show PGPTRK = 2 ^ 5 from rfl, ← pow_add]
        exact pow_dvd_pow 2 (by omega)
      have hmod : (lb.b_blkno + BYTE2BLK (BLK2BYTE (BitVec.ofNat 32 k))).toNat % (2 ^ shift * PGPTRK) = 0 := by
        rw [byte2blk_blk2byte hksmall, BitVec.toNat_add, BitVec.toNat_ofNat, Nat.add_mod_mod, Nat.mod_mod_of_dvd _ hdvd,
          ← hk, hpw, next_track hP hzero, Nat.mul_comm PGPTRK, Nat.mul_mod_right]
      rw [hmod, Nat.mul_comm]
      omega

end Pieces

section Results

variable {lb buf1 buf2 : Buf} {o : Bool → Outcome} {first : Bool}

/-- `biodone` has been called once, with the error and the residual count of the pieces. -/
def Collected (s : Spanned) (o : Bool → Outcome) : Prop :=
  s.biodones = 1 ∧ (s.orig.error = true ↔ ∃ i, (o i).error = true) ∧ s.orig.b_resid = (o false).b_resid + (o true).b_resid

/-- What the pieces have left that end without an error. -/
def silent (o : Bool → Outcome) : BitVec 32 :=
  (if (o false).error then 0 else (o false).b_resid) + if (o true).error then 0 else (o true).b_resid

theorem collect_both : (lvCollect first (.start lb buf1 buf2 o)).bind (lvCollect !first) = some ⟨{ lb with
    error := lb.error || (o first).error || (o !first).error
    b_error := if (o !first).error then (o !first).b_error else if (o first).error then (o first).b_error else lb.b_error
    b_resid := lb.b_resid + (if (o first).error then (o first).b_resid else 0) +
      if (o !first).error then (o !first).b_resid else 0 }, fun _ => none, 1⟩ := by
  unfold lvCollect Spanned.start
  cases hf : (o first).error <;> cases ht : (o !first).error <;> cases first <;>
    simp_all [update, funext_iff]

theorem resid_iff {r a b : BitVec 32} {e f : Bool} :
    r + (if e then a else 0) + (if f then b else 0) = a + b ↔ r = (if e then 0 else a) + if f then 0 else b := by
  cases e <;> cases f <;> simp only [if_true, Bool.false_eq_true, if_false] <;> constructor <;> intro h <;> bv_omega

theorem collected_iff {s : Spanned} (h : (lvCollect first (.start lb buf1 buf2 o)).bind (lvCollect !first) = some s) :
    Collected s o ↔ (lb.error = true → ∃ i, (o i).error = true) ∧ lb.b_resid = silent o := by
  have hcomm : (o false).b_resid + (o true).b_resid = (o first).b_resid + (o !first).b_resid ∧
      silent o = (if (o first).error then 0 else (o first).b_resid) + if (o !first).error then 0 else (o !first).b_resid := by
    cases first with
    | false => exact ⟨rfl, rfl⟩
    | true => exact ⟨BitVec.add_comm .., BitVec.add_comm ..⟩
  have hany : (∃ i, (o i).error = true) ↔ (o first).error = true ∨ (o !first).error = true := by
    cases first <;> simp [Bool.exists_bool, or_comm]
  rw [collect_both] at h
  cases h
  unfold Collected
  rw [hcomm.1, hcomm.2, hany, resid_iff]
  simp only [true_and, Bool.or_eq_true]
  tauto

/-- A request that crosses a track group is split and put together again as it should be exactly when it begins with a
page, does not have `B_ERROR` unless a piece has it, and has the residual count of the pieces that end without one. -/
theorem span_iff {shift : ℕ} (hshift : shift ≤ 16) (hwhole : lb.b_bcount.toNat % DEV_BSIZE = 0)
    (hle : lb.b_bcount.toNat ≤ BYTEPTRK shift) (h : lvSpan shift lb = some (buf1, buf2)) :
    (Covers shift lb buf1 buf2 ∧
      ∃ s, (lvCollect first (.start lb buf1 buf2 o)).bind (lvCollect !first) = some s ∧ Collected s o) ↔
      lb.b_blkno.toNat % 2 ^ shift = 0 ∧ (lb.error = true → ∃ i, (o i).error = true) ∧ lb.b_resid = silent o := by
  rw [covers_iff hshift hwhole hle h]
  refine and_congr_right fun _ => ⟨?_, fun hright => ?_⟩
  · rintro ⟨s, hs, hcollected⟩
    exact (collected_iff hs).mp hcollected
  · have hs := @collect_both lb buf1 buf2 o first
    exact ⟨_, hs, (collected_iff hs).mpr hright⟩

/-- A write of a track group from the second block on, whose second piece fails. -/
theorem span_iff_page :
    (Covers 3 ⟨8, 131072, 0, false, false, 0, 0⟩ ⟨8, 126976, 0, false, false, 0, 0⟩ ⟨256, 4096, 126976, false, false, 0, 0⟩ ∧
      ∃ s, (lvCollect true (.start ⟨8, 131072, 0, false, false, 0, 0⟩ ⟨8, 126976, 0, false, false, 0, 0⟩
        ⟨256, 4096, 126976, false, false, 0, 0⟩ fun i => ⟨i, 5, if i then 4096 else 0⟩)).bind (lvCollect !true) = some s ∧
          Collected s fun i => ⟨i, 5, if i then 4096 else 0⟩) ↔
      (8 : BitVec 32).toNat % 2 ^ 3 = 0 ∧ (false = true → ∃ i : Bool, i = true) ∧
        (0 : BitVec 32) = silent fun i => ⟨i, 5, if i then 4096 else 0⟩ :=
  span_iff (by decide) (by decide) (by decide) (by decide)

/-- A request for a track group from the second block of a page on. -/
theorem span_crosses :
    ¬∀ (shift : ℕ) (lb buf1 buf2 : Buf) (o : Bool → Outcome) (first : Bool), shift ≤ 16 →
      lb.b_bcount.toNat % DEV_BSIZE = 0 → lb.b_bcount.toNat ≤ BYTEPTRK shift → lvSpan shift lb = some (buf1, buf2) →
      Covers shift lb buf1 buf2 ∧
        ∃ s, (lvCollect first (.start lb buf1 buf2 o)).bind (lvCollect !first) = some s ∧ Collected s o := by
  intro hall
  have hcovers := (hall 3 ⟨1, 131072, 0, false, false, 0, 0⟩ _ _ (fun _ => ⟨false, 0, 0⟩) false (by decide) (by decide)
    (by decide) rfl).1
  exact absurd hcovers.first.accepted (by decide)

end Results

end Osf1.Strategy
