import Osf1.Bmap.Model

/-!
# What the maps tell

`bmap` tells the pointer that is at the place of a logical block, and so does `ufs_ubcbmap` for a
read, at the place that it computes.  The blocks of a cluster follow one another.
-/

set_option autoImplicit false

namespace Osf1.Bmap

section Read

open Osf1.Computation

/-- What is told of a place. -/
def told (fs : Fs) (f : File) : Option (Root × List ℕ) → Except Stop (Option ℕ)
  | none => .error (.errno EFBIG)
  | some x => .ok (if f.forest.ptr x = 0 then none else some (fsbtodb fs (f.forest.ptr x)))

/-- Every block of the device can be read. -/
def Reads (k : Kernel) : Prop := ∀ nb, k.bread nb = none

section Fetch

variable {fs : Fs} {k : Kernel} {f : File} {n nb m : ℕ}

theorem size_div : ((fs.fs_nindir ^ (n + 1) : ℕ) : ℤ) / fs.fs_nindir = (fs.fs_nindir ^ n : ℕ) := by
  rw [← Int.natCast_ediv, pow_succ, Nat.mul_div_cancel _ (nindir_pos fs)]

theorem index_eq : ((m : ℤ) / (fs.fs_nindir ^ n : ℕ) % fs.fs_nindir).toNat =
    m / fs.fs_nindir ^ n % fs.fs_nindir := by
  rw [← Int.natCast_ediv, ← Int.natCast_emod, Int.toNat_natCast]

theorem fetch_eq (hnb : nb ≠ 0) :
    (∃ a e, k.bread a = some e ∧ fetch fs k f n nb (fs.fs_nindir ^ (n + 1) : ℕ) m = .error (.errno e)) ∨
      fetch fs k f n nb (fs.fs_nindir ^ (n + 1) : ℕ) m = .ok
        (if followPath f.block nb (indices fs.fs_nindir m (n + 1)) = 0 then none
        else some (followPath f.block nb (indices fs.fs_nindir (m / fs.fs_nindir) n),
          m % fs.fs_nindir)) := by
  induction n generalizing nb with
  | zero =>
    rw [fetch]
    cases hread : k.bread nb with
    | some e => exact .inl ⟨nb, e, hread, rfl⟩
    | none =>
      right
      have hindex := @index_eq fs 0 m
      simp only [size_div, hindex]
      simp only [indices, pow_zero, Nat.div_one, followPath_cons hnb, followPath_nil]
      by_cases hzero : f.block nb (m % fs.fs_nindir) = 0
      · rw [if_pos hzero, if_pos hzero]
      · rw [if_neg hzero, if_neg hzero]
  | succ n ih =>
    rw [fetch]
    cases hread : k.bread nb with
    | some e => exact .inl ⟨nb, e, hread, rfl⟩
    | none =>
      have hpath : indices fs.fs_nindir m (n + 2) =
          m / fs.fs_nindir ^ (n + 1) % fs.fs_nindir :: indices fs.fs_nindir m (n + 1) := rfl
      have hinit : indices fs.fs_nindir (m / fs.fs_nindir) (n + 1) =
          m / fs.fs_nindir ^ (n + 1) % fs.fs_nindir ::
            indices fs.fs_nindir (m / fs.fs_nindir) n := by
        rw [indices, Nat.div_div_eq_div_mul, ← pow_succ']
      simp only [size_div, index_eq]
      rw [hpath, hinit, followPath_cons hnb, followPath_cons hnb]
      by_cases hzero : f.block nb (m / fs.fs_nindir ^ (n + 1) % fs.fs_nindir) = 0
      · right
        rw [if_pos hzero, hzero, followPath_zero, if_pos rfl]
      · rw [if_neg hzero]
        exact ih hzero

end Fetch

section Bmap

variable {fs : Fs} {k : Kernel} {f : File} {bn : ℤ} {cluster : Bool} {d : ℕ}

@[simp] theorem countRead_i_db : (f.countRead fs k cluster).i_db = f.i_db := by
  cases cluster <;> rfl

@[simp] theorem countRead_i_ib : (f.countRead fs k cluster).i_ib = f.i_ib := by
  cases cluster <;> rfl

@[simp] theorem countRead_block : (f.countRead fs k cluster).block = f.block := by
  cases cluster <;> rfl

theorem bmapOut_bnp {nb : ℕ} {contig : ℤ} :
    (bmapOut fs cluster bn nb contig f).1.map Bmapped.bnp = .ok (some (fsbtodb fs nb)) := by
  cases cluster <;> rfl

theorem ptr_ib {m : ℕ} : f.forest.ptr (.ib d, indices fs.fs_nindir m (d + 1)) =
    followPath f.block (f.i_ib d) (indices fs.fs_nindir m (d + 1)) := rfl

theorem ptr_ib_last {m : ℕ} (h : f.forest.ptr (.ib d, indices fs.fs_nindir m (d + 1)) ≠ 0) :
    f.forest.ptr (.ib d, indices fs.fs_nindir m (d + 1)) =
      f.block (followPath f.block (f.i_ib d) (indices fs.fs_nindir (m / fs.fs_nindir) d)) (m % fs.fs_nindir) := by
  rw [indices_succ] at h ⊢
  refine Forest.ptr_concat fun hzero => h ?_
  rw [Forest.ptr, followPath_append]
  exact (congrArg (followPath f.block · _) hzero).trans followPath_zero

theorem bmap_eq (hbn : bn < 2 ^ 31) :
    (∃ a e, k.bread a = some e ∧ (bmap fs k cluster f bn).1 = .error (.errno e)) ∨
      (bmap fs k cluster f bn).1.map Bmapped.bnp = told fs f (placeOf fs int32 bn) := by
  unfold bmap placeOf
  by_cases hneg : bn < 0
  · right
    rw [if_pos hneg, if_pos hneg]
    rfl
  by_cases hdirect : bn < NDADDR
  · right
    rw [if_neg hneg, if_pos hdirect, if_neg hneg, if_pos hdirect, bmapDirect, countRead_i_db]
    have hdb : f.forest.ptr (.db bn.toNat, []) = f.i_db bn.toNat := rfl
    by_cases hzero : f.i_db bn.toNat = 0
    · rw [if_pos hzero, told, hdb, if_pos hzero]
      rfl
    · rw [if_neg hzero, told, hdb, if_neg hzero, bmapOut_bnp]
  obtain ⟨hint, hm, hm'⟩ := int32_sub hbn hdirect
  rw [if_neg hneg, if_neg hdirect, if_neg hneg, if_neg hdirect, hint]
  cases hlevel : findLevel int32 fs.fs_nindir NIADDR 1 (bn - NDADDR) with
  | none =>
    right
    rfl
  | some x =>
    obtain ⟨j, sh, b⟩ := x
    obtain ⟨d, r, rfl, hd, rfl, rfl, hr, -⟩ := findLevel_some (fits_int32 fs) hm hm' hlevel
    have hsub : NIADDR - (3 - d) = d := by
      unfold NIADDR
      omega
    simp only [Option.map_some, hsub, Int.toNat_natCast, told]
    rw [bmapIndirect, hsub, countRead_i_ib]
    by_cases hzero : f.i_ib d = 0
    · right
      rw [if_pos hzero, ptr_ib, hzero, followPath_zero, if_pos rfl]
      rfl
    rw [if_neg hzero]
    have hfetch := @fetch_eq fs k (f.countRead fs k cluster) d _ r hzero
    rw [countRead_block] at hfetch
    rcases hfetch with ⟨a, e, hread, hfetch⟩ | hfetch
    · left
      refine ⟨a, e, hread, ?_⟩
      rw [hfetch]
    · right
      rw [hfetch]
      by_cases hhole : f.forest.ptr (.ib d, indices fs.fs_nindir r (d + 1)) = 0
      · rw [if_pos hhole, if_pos (ptr_ib.symm.trans hhole)]
        rfl
      · rw [if_neg hhole, if_neg (fun h => hhole (ptr_ib.trans h)), ptr_ib_last hhole]
        simp only [countRead_block, bmapOut_bnp]

end Bmap

section Ubc

variable {fs : Fs} {k : Kernel} {f : File} {bn : ℤ} {cluster sync : Bool} {size : ℕ} {sh b : ℤ} {level : ℕ × ℤ × ℤ}

/-- What is told of a pointer in a block. -/
def shown (fs : Fs) (f : File) (r : Option (ℕ × ℕ)) : Option ℕ :=
  r.bind fun x => if f.block x.1 x.2 = 0 then none else some (fsbtodb fs (f.block x.1 x.2))

theorem fetchAlloc_read {n nb : ℕ} {lbn sh b : ℤ} :
    (fetchAlloc fs k true sync lbn n nb sh b f).2 = f ∧
      (fetchAlloc fs k true sync lbn n nb sh b f).1.map (shown fs f) =
        (fetch fs k f n nb sh b).map (shown fs f) := by
  induction n generalizing nb sh with
  | zero =>
    rw [fetchAlloc, fetch]
    cases k.bread nb with
    | some e => exact ⟨rfl, rfl⟩
    | none =>
      refine ⟨rfl, ?_⟩
      by_cases hzero : f.block nb (b / (sh / fs.fs_nindir) % fs.fs_nindir).toNat = 0
      · simp [hzero, shown, Except.map]
      · simp [hzero]
  | succ n ih =>
    rw [fetchAlloc, fetch]
    cases k.bread nb with
    | some e => exact ⟨rfl, rfl⟩
    | none =>
      by_cases hzero : f.block nb (b / (sh / fs.fs_nindir) % fs.fs_nindir).toNat = 0
      · simp [hzero]
      · simpa [hzero] using ih

theorem fetch_congr {f' : File} {n nb : ℕ} (h : f'.block = f.block) :
    fetch fs k f' n nb sh b = fetch fs k f n nb sh b := by
  induction n generalizing nb sh with
  | zero => rw [fetch, fetch, h]
  | succ n ih =>
    rw [fetch, fetch]
    simp only [h, ih]

theorem fetch_some {n nb : ℕ} {x : ℕ × ℕ} (h : fetch fs k f n nb sh b = .ok (some x)) : f.block x.1 x.2 ≠ 0 := by
  induction n generalizing nb sh with
  | zero =>
    rw [fetch] at h
    cases hread : k.bread nb with
    | some e => simp [hread] at h
    | none =>
      simp only [hread] at h
      split at h
      · cases h
      · rename_i hne
        cases h
        exact hne
  | succ n ih =>
    rw [fetch] at h
    cases hread : k.bread nb with
    | some e => simp [hread] at h
    | none =>
      simp only [hread] at h
      split at h
      · cases h
      · exact ih h

theorem bmapIndirect_bnp {maxcontig : ℤ} :
    (bmapIndirect fs k cluster maxcontig bn f (some level)).1.map Bmapped.bnp =
      if f.i_ib (NIADDR - level.1) = 0 then .ok none
      else (fetch fs k f (NIADDR - level.1) (f.i_ib (NIADDR - level.1)) level.2.1 level.2.2).map
        (shown fs f) := by
  obtain ⟨j, sh, b⟩ := level
  rw [bmapIndirect]
  by_cases hzero : f.i_ib (NIADDR - j) = 0
  · rw [if_pos hzero, if_pos hzero]
    rfl
  rw [if_neg hzero, if_neg hzero]
  cases hfetch : fetch fs k f (NIADDR - j) (f.i_ib (NIADDR - j)) sh b with
  | error e => rfl
  | ok r =>
    cases r with
    | none => rfl
    | some x =>
      have hx : f.block x.1 x.2 ≠ 0 := fetch_some hfetch
      have htold : shown fs f (some x) = some (fsbtodb fs (f.block x.1 x.2)) := if_neg hx
      exact bmapOut_bnp.trans (congrArg Except.ok htold.symm)

theorem ubcData_read :
    (ubcData fs k true sync bn (walk fs k true sync bn f (some level))).2 = f ∧
      (ubcData fs k true sync bn (walk fs k true sync bn f (some level))).1.map Prod.fst =
        if f.i_ib (NIADDR - level.1) = 0 then .ok none
        else (fetch fs k f (NIADDR - level.1) (f.i_ib (NIADDR - level.1)) level.2.1 level.2.2).map
          (shown fs f) := by
  obtain ⟨j, sh, b⟩ := level
  rw [walk, fetchRoot]
  by_cases hzero : f.i_ib (NIADDR - j) = 0
  · simp [hzero, ubcData, Except.map]
  · simp only [ne_eq, hzero, not_false_eq_true, if_true, if_false]
    obtain ⟨hsame, htold⟩ := @fetchAlloc_read fs k f sync (NIADDR - j) (f.i_ib (NIADDR - j)) bn sh b
    rw [← htold]
    cases hwalk : fetchAlloc fs k true sync bn (NIADDR - j) (f.i_ib (NIADDR - j)) sh b f with
    | mk r f' =>
      rw [hwalk] at hsame
      cases hsame
      rcases r with e | _ | ⟨nb, i⟩
      · exact ⟨rfl, rfl⟩
      · exact ⟨rfl, rfl⟩
      · by_cases hhole : f'.block nb i = 0
        · simp [ubcData, hhole, Except.map, shown]
        · simp [ubcData, hhole, Except.map, shown]

theorem ubcDirect_read : (ubcDirect fs k true bn size f).2 = f ∧
    (ubcDirect fs k true bn size f).1.map Prod.fst =
      .ok (if f.i_db bn.toNat = 0 then none else some (fsbtodb fs (f.i_db bn.toNat))) := by
  unfold ubcDirect
  by_cases hzero : f.i_db bn.toNat = 0
  · simp [hzero, Except.map]
  · by_cases hend : (bn.toNat + 1) * fs.fs_bsize ≤ f.i_size
    · simp [hzero, hend, Except.map]
    · simp [hzero, hend, Except.map]

theorem ubcbmap_read_same : (ufs_ubcbmap fs k true sync bn size f).2 = f := by
  unfold ufs_ubcbmap
  by_cases hneg : bn < 0
  · rw [if_pos hneg]
  rw [if_neg hneg]
  simp only [if_true]
  by_cases hdirect : bn < NDADDR
  · rw [if_pos hdirect]
    exact ubcDirect_read.1
  rw [if_neg hdirect]
  cases findLevel int64 fs.fs_nindir NIADDR 1 (int32 (bn - NDADDR)) with
  | none => rfl
  | some level => exact ubcData_read.1

theorem ubcbmap_read_eq (hlevel : ¬bn < NDADDR →
      findLevel int32 fs.fs_nindir NIADDR 1 (int32 (bn - NDADDR)) =
        findLevel int64 fs.fs_nindir NIADDR 1 (int32 (bn - NDADDR))) :
    (bmap fs k cluster f bn).1.map Bmapped.bnp =
      (ufs_ubcbmap fs k true sync bn size f).1.map Prod.fst := by
  unfold ufs_ubcbmap bmap
  by_cases hneg : bn < 0
  · rw [if_pos hneg, if_pos hneg]
    rfl
  rw [if_neg hneg, if_neg hneg]
  simp only [if_true]
  by_cases hdirect : bn < NDADDR
  · rw [if_pos hdirect, if_pos hdirect, ubcDirect_read.2, bmapDirect, countRead_i_db]
    by_cases hzero : f.i_db bn.toNat = 0
    · rw [if_pos hzero, if_pos hzero]
      rfl
    · rw [if_neg hzero, if_neg hzero, bmapOut_bnp]
  rw [if_neg hdirect, if_neg hdirect, hlevel hdirect]
  cases findLevel int64 fs.fs_nindir NIADDR 1 (int32 (bn - NDADDR)) with
  | none => rfl
  | some level =>
    have hshown : shown fs (f.countRead fs k cluster) = shown fs f := by
      unfold shown
      rw [countRead_block]
    rw [ubcData_read.2, bmapIndirect_bnp, countRead_i_ib, hshown, fetch_congr countRead_block]

end Ubc

end Read

/-!
## Clusters

The size that `bmap` returns counts blocks that follow one another on the disk.
-/

section Cluster

open Osf1.Computation

theorem contigFrom_spec {pointer : ℕ → ℕ} {full : ℕ → Bool} {frag n ind prev : ℕ} {maxcontig contig : ℤ} :
    ∃ t : ℕ, t ≤ n ∧ contigFrom pointer full frag maxcontig n ind contig prev = contig + t ∧
      ∀ i < t, pointer (ind + i) = prev + (i + 1) * frag := by
  induction n generalizing ind contig prev with
  | zero => exact ⟨0, le_rfl, (add_zero _).symm, fun i hi => absurd hi (Nat.not_lt_zero i)⟩
  | succ n ih =>
    rw [contigFrom]
    split
    · rename_i hcond
      obtain ⟨t, ht, heq, hnext⟩ := @ih (ind + 1) (pointer ind) (contig + 1)
      refine ⟨t + 1, by omega, by rw [heq]; push_cast; ring, fun i hi => ?_⟩
      cases i with
      | zero =>
        rw [Nat.add_zero, ← hcond.2.1]
        ring
      | succ i =>
        have hi' := hnext i (by omega)
        rw [show ind + (i + 1) = ind + 1 + i by omega, hi', ← hcond.2.1]
        ring
    · exact ⟨0, Nat.zero_le _, (add_zero _).symm, fun i hi => absurd hi (Nat.not_lt_zero i)⟩

theorem contigFrom_one {pointer : ℕ → ℕ} {full : ℕ → Bool} {frag n ind : ℕ} {maxcontig : ℤ} :
    ∃ t : ℕ, t ≤ n ∧
      contigFrom pointer full frag maxcontig n (ind + 1) 1 (pointer ind) = 1 + t ∧
      ∀ i ≤ t, pointer (ind + i) = pointer ind + i * frag := by
  obtain ⟨t, ht, heq, hnext⟩ := @contigFrom_spec pointer full frag n (ind + 1) (pointer ind) maxcontig 1
  refine ⟨t, ht, heq, fun i hi => ?_⟩
  cases i with
  | zero => simp
  | succ i =>
    rw [← hnext i (by omega)]
    congr 1
    omega

section Cluster

variable {fs : Fs} {k : Kernel} {f : File} {bn : ℤ} {sh maxcontig sz : ℤ} {b j a c i : ℕ}

theorem findLevel_add {width : ℤ → ℤ} {N m b i : ℤ} (hfits : Fits width N) (hN : 0 ≤ N)
    (hm : 0 ≤ m) (hi : 0 ≤ i) (hm' : m + i < 2 ^ 31) (h : findLevel width N NIADDR 1 m = some (j, sh, b)) (hb : b + i < sh) :
    findLevel width N NIADDR 1 (m + i) = some (j, sh, b + i) := by
  rw [findLevel_eq hfits hN hm (by omega)] at h
  rw [findLevel_eq hfits hN (by omega) hm']
  by_cases h1 : m < N
  · rw [if_pos h1] at h
    cases h
    rw [if_pos hb]
  rw [if_neg h1] at h
  by_cases h2 : m - N < N * N
  · rw [if_pos h2] at h
    cases h
    rw [if_neg (by omega), if_pos (by omega), show m + i - N = m - N + i by ring]
  rw [if_neg h2] at h
  by_cases h3 : m - N - N * N < width (N * N * N)
  · rw [if_pos h3] at h
    cases h
    rw [if_neg (by omega), if_neg (by omega), if_pos (by omega),
      show m + i - N - N * N = m - N - N * N + i by ring]
  · rw [if_neg h3] at h
    cases h

theorem findLevel_bound {m b : ℤ} (hm : 0 ≤ m) (hm' : m < 2 ^ 31)
    (h : findLevel int32 fs.fs_nindir NIADDR 1 m = some (j, sh, b)) : m - b + sh + NDADDR < 2 ^ 31 := by
  rw [findLevel_eq (fits_int32 fs) (Int.natCast_nonneg _) hm hm', int32_third] at h
  -- The first two levels hold at most 2 ^ 14 + 2 ^ 28 blocks.
  have hfirst : (fs.fs_nindir : ℤ) ≤ 2 ^ 14 := by
    rcases nindir_eq fs with hN | hN | hN | hN | hN <;> rw [hN] <;> norm_num
  have hsecond : (fs.fs_nindir : ℤ) * fs.fs_nindir ≤ 2 ^ 28 := by
    rcases nindir_eq fs with hN | hN | hN | hN | hN <;> rw [hN] <;> norm_num
  rw [NDADDR_eq]
  by_cases h1 : m < fs.fs_nindir
  · rw [if_pos h1] at h
    cases h
    omega
  rw [if_neg h1] at h
  by_cases h2 : m - fs.fs_nindir < (fs.fs_nindir : ℤ) * fs.fs_nindir
  · rw [if_pos h2] at h
    cases h
    omega
  rw [if_neg h2] at h
  by_cases hN : fs.fs_nindir = 1024
  · rw [if_pos hN, hN] at h
    split at h
    · cases h
      omega
    · cases h
  · rw [if_neg hN, if_neg (by omega)] at h
    cases h

theorem fsbtodb_add : fsbtodb fs (a + c) = fsbtodb fs a + fsbtodb fs c := by
  unfold fsbtodb
  rw [Nat.shiftLeft_eq, Nat.shiftLeft_eq, Nat.shiftLeft_eq, add_mul]

theorem told_behind {x : Root × List ℕ} (ha : a ≠ 0) (h : f.forest.ptr x = a + c) :
    told fs f (some x) = .ok (some (fsbtodb fs a + fsbtodb fs c)) := by
  have hne : f.forest.ptr x ≠ 0 := by omega
  simp only [told, if_neg hne]
  rw [h, fsbtodb_add]

theorem bmapDirect_cluster (hneg : ¬bn < 0) (hdirect : bn < NDADDR)
    (h : (bmapDirect fs true maxcontig bn f).1 = .ok ⟨some b, sz⟩) (hi : i < sz) :
    bn + i < NDADDR ∧
      told fs f (placeOf fs int32 (bn + i)) = .ok (some (b + fsbtodb fs (i * fs.fs_frag))) := by
  unfold bmapDirect at h
  by_cases hzero : f.i_db bn.toNat = 0
  · rw [if_pos hzero] at h
    cases h
  rw [if_neg hzero] at h
  obtain ⟨t, ht, heq, hnext⟩ := @contigFrom_one f.i_db
    (fun ind => decide (blksize fs f ind = fs.fs_bsize)) fs.fs_frag
    (NDADDR.toNat - (bn.toNat + 1)) bn.toNat maxcontig
  cases h
  have hlast : NDADDR.toNat = 12 := rfl
  have hplace : placeOf fs int32 (bn + i) = some (.db (bn.toNat + i), []) := by
    unfold placeOf
    rw [if_neg (by omega), if_pos (by rw [NDADDR_eq]; omega)]
    congr 3
    omega
  rw [hplace]
  refine ⟨by rw [NDADDR_eq]; omega, told_behind hzero ?_⟩
  exact hnext i (by omega)

theorem bmapIndirect_cluster (hbn : bn < 2 ^ 31) (hdirect : ¬bn < NDADDR) (h : (bmapIndirect fs k true maxcontig bn f
      (findLevel int32 fs.fs_nindir NIADDR 1 (int32 (bn - NDADDR)))).1 = .ok ⟨some b, sz⟩) (hi : i < sz) :
    bn + i < 2 ^ 31 ∧
      told fs f (placeOf fs int32 (bn + i)) = .ok (some (b + fsbtodb fs (i * fs.fs_frag))) := by
  obtain ⟨hint, hm, hm'⟩ := int32_sub hbn hdirect
  rw [hint] at h
  cases hlevel : findLevel int32 fs.fs_nindir NIADDR 1 (bn - NDADDR) with
  | none =>
    rw [hlevel] at h
    cases h
  | some x =>
    obtain ⟨j, sh, c⟩ := x
    have hbound := findLevel_bound hm hm' hlevel
    obtain ⟨d, r, rfl, hd, rfl, rfl, hr, hsum⟩ := findLevel_some (fits_int32 fs) hm hm' hlevel
    have hsub : NIADDR - (3 - d) = d := by
      unfold NIADDR
      omega
    rw [hlevel, bmapIndirect, hsub] at h
    by_cases hzero : f.i_ib d = 0
    · rw [if_pos hzero] at h
      cases h
    rw [if_neg hzero] at h
    rcases @fetch_eq fs k f d _ r hzero with ⟨a, e, -, hfetch⟩ | hfetch
    · rw [hfetch] at h
      cases h
    rw [hfetch] at h
    by_cases hhole : f.forest.ptr (.ib d, indices fs.fs_nindir r (d + 1)) = 0
    · rw [if_pos (ptr_ib.symm.trans hhole)] at h
      cases h
    have hlast := ptr_ib_last hhole
    rw [if_neg (fun h => hhole (ptr_ib.trans h))] at h
    simp only at h
    obtain ⟨t, ht, heq, hnext⟩ := @contigFrom_one
      (f.block (followPath f.block (f.i_ib d) (indices fs.fs_nindir (r / fs.fs_nindir) d)))
      (fun _ => true) fs.fs_frag (fs.fs_nindir - (r % fs.fs_nindir + 1)) (r % fs.fs_nindir) maxcontig
    cases h
    have hmod : r % fs.fs_nindir < fs.fs_nindir := Nat.mod_lt _ (nindir_pos fs)
    -- The block of pointers lies behind the same indirect pointer.
    have hin : r + i < fs.fs_nindir ^ (d + 1) := by
      have hdiv : r / fs.fs_nindir < fs.fs_nindir ^ d := by
        rw [Nat.div_lt_iff_lt_mul (nindir_pos fs), ← pow_succ]
        exact hr
      have hmul : fs.fs_nindir * (r / fs.fs_nindir + 1) ≤ fs.fs_nindir ^ (d + 1) := by
        rw [pow_succ']
        exact Nat.mul_le_mul_left _ hdiv
      have hsplit := Nat.div_add_mod r fs.fs_nindir
      rw [Nat.mul_add, Nat.mul_one] at hmul
      omega
    have hrange : bn - NDADDR + i < 2 ^ 31 := by
      rw [NDADDR_eq] at hbound ⊢
      omega
    have hadd := findLevel_add (fits_int32 fs) (Int.natCast_nonneg _) hm (Int.natCast_nonneg i)
      hrange hlevel (by exact_mod_cast hin)
    have hbn' : bn + i < 2 ^ 31 := by
      omega
    have hplace : placeOf fs int32 (bn + i) =
        some (.ib d, indices fs.fs_nindir (r + i) (d + 1)) := by
      have hsub' : bn + i - NDADDR = bn - NDADDR + i := by ring
      have hint' : int32 (bn - NDADDR + i) = bn - NDADDR + i := int32_of_range (by omega) hrange
      unfold placeOf
      rw [if_neg (by rw [NDADDR_eq] at hdirect; omega), if_neg (by omega), hsub', hint', hadd]
      simp only [Option.map_some, hsub]
      congr 3
    refine ⟨hbn', ?_⟩
    rw [hplace, ← hlast]
    refine told_behind hhole ?_
    rw [indices_add (by omega), hlast]
    have hnode : f.forest.ptr (.ib d, indices fs.fs_nindir (r / fs.fs_nindir) d) ≠ 0 := by
      intro hz
      refine hhole ?_
      rw [indices_succ, Forest.ptr, followPath_append]
      exact (congrArg (followPath f.block · _) hz).trans followPath_zero
    rw [Forest.ptr_concat hnode]
    exact hnext i (by omega)

theorem bmap_cluster (hbn : bn < 2 ^ 31) (h : (bmap fs k true f bn).1 = .ok ⟨some b, sz⟩) (hi : i < sz) :
    bn + i < 2 ^ 31 ∧
      told fs f (placeOf fs int32 (bn + i)) = .ok (some (b + fsbtodb fs (i * fs.fs_frag))) := by
  unfold bmap at h
  by_cases hneg : bn < 0
  · rw [if_pos hneg] at h
    cases h
  rw [if_neg hneg] at h
  have hsame (x : Option (Root × List ℕ)) :
      told fs (f.countRead fs k true) x = told fs f x := rfl
  by_cases hdirect : bn < NDADDR
  · rw [if_pos hdirect] at h
    obtain ⟨hlt, htold⟩ := bmapDirect_cluster hneg hdirect h hi
    rw [NDADDR_eq] at hlt
    exact ⟨by omega, htold⟩
  · rw [if_neg hdirect] at h
    obtain ⟨hlt, htold⟩ := bmapIndirect_cluster hbn hdirect h hi
    exact ⟨hlt, htold⟩

end Cluster

end Cluster

end Osf1.Bmap
