import Osf1.Bmap.Read

/-!
# What a write does to the tree

A write sets pointers that were 0 to blocks that nothing led to before, from the root to the block
that is written.  Only the pointer to that block is one to a block of the file, and the pointer to
the last fragment where it is extended.
-/

set_option autoImplicit false

namespace Osf1.Bmap

open Function List

section Write

open Osf1.Computation

/-- The tree below an inode, in which no two pointers lead to the same block. -/
def File.Apart (fs : Fs) (f : File) : Prop := f.forest.Apart (shape fs)

/-- The allocator gives blocks that nothing in the file leads to, a fragment that is extended may
also stay where it is, and no block that is written gets lost. -/
structure Sound (fs : Fs) (k : Kernel) : Prop where
  alloc : ∀ f lbn size b, k.alloc f lbn size = .ok b → f.forest.Fresh (shape fs) b
  realloccg : ∀ f lbn osize nsize b, k.realloccg f lbn osize nsize = .ok b → b ≠ 0 ∧
    ∀ x, (shape fs).Place x → x ≠ (.db lbn.toNat, []) → f.forest.ptr x ≠ b
  lost : ∀ nb, k.lost nb = false

/-- The blocks of the file are where they were, but for some. -/
def SameBut (fs : Fs) (f f' : File) (P : Root × List ℕ → Prop) : Prop :=
  ∀ x, Leaf fs x → ¬P x → f'.forest.ptr x = f.forest.ptr x

section Pieces

variable {fs : Fs} {k : Kernel} {f f' : File} {r d i b nb : ℕ} {p : List ℕ}

theorem clear_ptr (hb : f.forest.Fresh (shape fs) b) {x : Root × List ℕ} (hx : (shape fs).Place x) :
    (f.clear b).forest.ptr x = f.forest.ptr x := by
  refine Forest.ptr_congr rfl (fun a ha => ?_) hb hx
  exact update_of_ne ha _ _

theorem clear_apart (hf : f.Apart fs) (hb : f.forest.Fresh (shape fs) b) : (f.clear b).Apart fs := by
  intro x y hx hy hne heq
  rw [clear_ptr hb hx] at hne heq
  rw [clear_ptr hb hy] at heq
  exact hf x y hx hy hne heq

theorem clear_fresh (hb : f.forest.Fresh (shape fs) b) : (f.clear b).forest.Fresh (shape fs) b := by
  refine ⟨hb.1, fun x hx => ?_⟩
  rw [clear_ptr hb hx]
  exact hb.2 x hx

theorem clear_block : (f.clear b).block b i = 0 := by
  show update f.block b (fun _ => 0) b i = 0
  rw [update_self]

theorem setDirect_sets (hroot : f'.i_ib = f.i_ib) (hdb : f'.i_db = update f.i_db i b)
    (hblock : f'.block = f.block) : Forest.Sets (shape fs) f.forest f'.forest (.db i, []) b := by
  refine Forest.sets_root ?_ hblock (fun h => absurd h (Nat.lt_irrefl 0))
    (fun h => absurd h (Nat.lt_irrefl 0))
  funext x
  cases x with
  | db j =>
    show f'.i_db j = _
    rw [hdb]
    by_cases hj : j = i
    · rw [hj, update_self, if_pos rfl]
    · rw [update_of_ne hj, if_neg (fun h => hj (Root.db.inj h))]
      rfl
  | ib j =>
    show f'.i_ib j = _
    rw [hroot, if_neg nofun]
    rfl

theorem setIndirect_sets (hzero : f.i_ib d = 0) (hclear : ∀ i, f.block b i = 0) :
    Forest.Sets (shape fs) f.forest
      { f with i_ib := update f.i_ib d b }.forest (.ib d, []) b := by
  refine Forest.sets_root ?_ rfl (fun _ => hzero) (fun _ i _ => hclear i)
  funext x
  cases x with
  | db j => rfl
  | ib j =>
    show update f.i_ib d b j = _
    by_cases hj : j = d
    · rw [hj, update_self, if_pos rfl]
    · rw [update_of_ne hj, if_neg (fun h => hj (Root.ib.inj h))]
      rfl

theorem link_sets {sync : Bool} (hk : Sound fs k) (hf : f.Apart fs)
    (hx : (shape fs).Place (.ib d, p ++ [i])) (hptr : f.forest.ptr (.ib d, p) = nb) (hnb : nb ≠ 0)
    (hold : f.block nb i = 0) (hb : f.forest.Fresh (shape fs) b)
    (hclear : p.length + 1 < d + 1 → ∀ j, f.block b j = 0) :
    Forest.Sets (shape fs) f.forest (f.link k sync nb i b).forest (.ib d, p ++ [i]) b := by
  have hlink : f.link k sync nb i b =
      { f with block := update f.block nb (update (f.block nb) i b) } := by
    unfold File.link
    rw [hk.lost, Bool.and_false, if_neg Bool.false_ne_true]
  rw [hlink]
  refine Forest.Apart.sets_child hf hx hptr hnb hold hb rfl (fun c j => ?_)
    (fun h j _ => hclear h j)
  show update f.block nb (update (f.block nb) i b) c j = _
  by_cases hc : c = nb
  · subst hc
    rw [update_self]
    by_cases hj : j = i
    · rw [hj, update_self, if_pos ⟨rfl, rfl⟩]
    · rw [update_of_ne hj, if_neg fun h => hj h.2]
      rfl
  · rw [update_of_ne hc, if_neg fun h => hc h.1]
    rfl

theorem sets_apart {x : Root × List ℕ} (hf : f.Apart fs)
    (hs : Forest.Sets (shape fs) f.forest f'.forest x b) (hb : f.forest.Fresh (shape fs) b) : f'.Apart fs :=
  Forest.Apart.sets hf hs fun y hy _ => hb.2 y hy

end Pieces

section Walk

variable {fs : Fs} {k : Kernel} {f : File} {sync : Bool} {lbn : ℤ}

theorem fetchRoot_write (hk : Sound fs k) (hf : f.Apart fs) {d : ℕ} :
    (fetchRoot fs k false lbn d f).2.Apart fs ∧
      SameBut fs f (fetchRoot fs k false lbn d f).2 (fun _ => False) ∧
      ∀ r, (fetchRoot fs k false lbn d f).1 = .ok r →
        ∃ nb, r = some nb ∧ nb ≠ 0 ∧ (fetchRoot fs k false lbn d f).2.i_ib d = nb := by
  unfold fetchRoot
  by_cases hzero : f.i_ib d = 0
  · rw [if_neg (not_not.mpr hzero), if_neg Bool.false_ne_true]
    cases halloc : k.alloc f lbn fs.fs_bsize with
    | error e => exact ⟨hf, fun x _ _ => rfl, nofun⟩
    | ok b =>
      have hb := hk.alloc f lbn _ b halloc
      cases hwrite : k.bwrite b with
      | some e =>
        simp only [hwrite]
        exact ⟨clear_apart hf hb, fun x hx _ => clear_ptr hb hx.1, nofun⟩
      | none =>
        simp only [hwrite]
        have hsets := @setIndirect_sets fs (f.clear b) d b hzero fun i => clear_block
        refine ⟨sets_apart (clear_apart hf hb) hsets (clear_fresh hb), fun x hx _ => ?_, ?_⟩
        · have hne : x ≠ (.ib d, []) := by
            rintro rfl
            exact absurd hx.2 (Nat.succ_ne_zero d).symm
          rw [hsets x hx.1, if_neg hne, clear_ptr hb hx.1]
        · intro r hr
          cases hr
          exact ⟨b, rfl, hb.1, update_self ..⟩
  · rw [if_pos hzero]
    refine ⟨hf, fun x _ _ => rfl, fun r hr => ?_⟩
    cases hr
    exact ⟨_, rfl, hzero, rfl⟩

theorem fetchAlloc_write (hk : Sound fs k) {n d m nb : ℕ} {p : List ℕ} (hf : f.Apart fs)
    (hp : (shape fs).Place (.ib d, p)) (hlen : p.length + n = d)
    (hptr : f.forest.ptr (.ib d, p) = nb) (hnb : nb ≠ 0) :
    let w := fetchAlloc fs k false sync lbn n nb (fs.fs_nindir ^ (n + 1) : ℕ) m f
    w.2.Apart fs ∧ SameBut fs f w.2 (fun _ => False) ∧
      ∀ r, w.1 = .ok r → ∃ a, r = some (a, m % fs.fs_nindir) ∧ a ≠ 0 ∧
        w.2.forest.ptr (.ib d, p ++ indices fs.fs_nindir (m / fs.fs_nindir) n) = a := by
  induction n generalizing f nb p with
  | zero =>
    have hindex := @index_eq fs 0 m
    rw [pow_zero, Nat.div_one] at hindex
    simp only [fetchAlloc, size_div, pow_zero, hindex]
    cases hread : k.bread nb with
    | some e => exact ⟨hf, fun x _ _ => rfl, by rintro _ ⟨⟩⟩
    | none =>
      refine ⟨hf, fun x _ _ => rfl, fun r hr => ?_⟩
      cases hr
      refine ⟨nb, rfl, hnb, ?_⟩
      rw [indices, append_nil]
      exact hptr
  | succ n ih =>
    have hindex := @index_eq fs (n + 1) m
    have hmid : ∀ q, (q ++ [m / fs.fs_nindir ^ (n + 1) % fs.fs_nindir]) ++
        indices fs.fs_nindir (m / fs.fs_nindir) n =
          q ++ indices fs.fs_nindir (m / fs.fs_nindir) (n + 1) := by
      intro q
      rw [indices, Nat.div_div_eq_div_mul, ← pow_succ', append_assoc, singleton_append]
    rw [fetchAlloc]
    simp only [size_div, hindex]
    set i := m / fs.fs_nindir ^ (n + 1) % fs.fs_nindir with hi
    have hplace : (shape fs).Place (.ib d, p ++ [i]) := by
      refine ⟨?_, fun j hj => ?_⟩
      · have hdepth : (shape fs).depth (.ib d) = d + 1 := rfl
        simp only [hdepth, length_append, length_singleton]
        omega
      · rcases mem_append.mp hj with hj | hj
        · exact hp.2 j hj
        · rw [mem_singleton.mp hj, hi]
          exact Nat.mod_lt _ (nindir_pos fs)
    have hlen' : (p ++ [i]).length + n = d := by
      rw [length_append, length_singleton]
      omega
    cases hread : k.bread nb with
    | some e => exact ⟨hf, fun x _ _ => rfl, by rintro _ ⟨⟩⟩
    | none =>
      by_cases hzero : f.block nb i = 0
      · simp only [hzero, ne_eq, not_true_eq_false, if_false, Bool.false_eq_true]
        cases halloc : k.alloc f lbn fs.fs_bsize with
        | error e => exact ⟨hf, fun x _ _ => rfl, by rintro _ ⟨⟩⟩
        | ok b =>
          have hb := hk.alloc f lbn _ b halloc
          cases hwrite : k.bwrite b with
          | some e =>
            simp only [hwrite]
            exact ⟨clear_apart hf hb, fun x hx _ => clear_ptr hb hx.1, by rintro _ ⟨⟩⟩
          | none =>
            simp only [hwrite]
            have hne : nb ≠ b := fun h => hb.2 _ hp (hptr.trans h)
            have hold : (f.clear b).block nb i = 0 := by
              show update f.block b (fun _ => 0) nb i = 0
              rw [update_of_ne hne]
              exact hzero
            have hsets := @link_sets fs k (f.clear b) d i b nb p sync hk (clear_apart hf hb) hplace
              ((clear_ptr hb hp).trans hptr) hnb hold (clear_fresh hb) fun _ j => clear_block
            have hap := sets_apart (clear_apart hf hb) hsets (clear_fresh hb)
            have hptr' : ((f.clear b).link k sync nb i b).forest.ptr (.ib d, p ++ [i]) = b := by
              rw [hsets _ hplace, if_pos rfl]
            obtain ⟨hap', hsame, hres⟩ := ih hap hplace hlen' hptr' hb.1
            refine ⟨hap', fun x hx _ => ?_, fun r hr => ?_⟩
            · have hx' : x ≠ (.ib d, p ++ [i]) := by
                rintro rfl
                have hleaf : (p ++ [i]).length = d + 1 := hx.2
                omega
              rw [hsame x hx not_false, hsets x hx.1, if_neg hx', clear_ptr hb hx.1]
            · rw [← hmid]
              exact hres r hr
      · simp only [hzero, ne_eq, not_false_eq_true, if_true]
        have hptr' : f.forest.ptr (.ib d, p ++ [i]) = f.block nb i := by
          rw [Forest.ptr_concat (hptr.symm ▸ hnb), hptr]
          rfl
        obtain ⟨hap', hsame, hres⟩ := ih hf hplace hlen' hptr' hzero
        refine ⟨hap', hsame, fun r hr => ?_⟩
        rw [← hmid]
        exact hres r hr

variable {width : ℤ → ℤ} {bn : ℤ}

theorem walk_write (hk : Sound fs k) (hf : f.Apart fs) (hfits : Fits width fs.fs_nindir)
    (hbn : bn < 2 ^ 31) (hneg : ¬bn < 0) (hdirect : ¬bn < NDADDR) :
    let w := walk fs k false sync bn f (findLevel width fs.fs_nindir NIADDR 1 (int32 (bn - NDADDR)))
    w.2.Apart fs ∧ SameBut fs f w.2 (fun _ => False) ∧
      ∀ r, w.1 = .ok r → ∃ a i d p, r = some (a, i) ∧ a ≠ 0 ∧ w.2.forest.ptr (.ib d, p) = a ∧
        p.length = d ∧ placeOf fs width bn = some (.ib d, p ++ [i]) := by
  obtain ⟨hint, hm, hm'⟩ := int32_sub hbn hdirect
  have hplace : placeOf fs width bn = (findLevel width fs.fs_nindir NIADDR 1 (bn - NDADDR)).map
      fun x => (.ib (NIADDR - x.1), indices fs.fs_nindir x.2.2.toNat (NIADDR - x.1 + 1)) := by
    unfold placeOf
    rw [if_neg hneg, if_neg hdirect, hint]
  rw [hint, hplace]
  cases hlevel : findLevel width fs.fs_nindir NIADDR 1 (bn - NDADDR) with
  | none => exact ⟨hf, fun x _ _ => rfl, by rintro _ ⟨⟩⟩
  | some x =>
    obtain ⟨j, sh, b⟩ := x
    obtain ⟨d, r, rfl, hd, rfl, rfl, hr, -⟩ := findLevel_some hfits hm hm' hlevel
    have hsub : NIADDR - (3 - d) = d := by
      unfold NIADDR
      omega
    simp only [Option.map_some, hsub, Int.toNat_natCast, walk]
    obtain ⟨hap, hsame, hroot⟩ := @fetchRoot_write fs k f bn hk hf d
    cases hw : fetchRoot fs k false bn d f with
    | mk res f1 =>
      rw [hw] at hap hsame hroot
      cases res with
      | error e => exact ⟨hap, hsame, by rintro _ ⟨⟩⟩
      | ok res =>
        obtain ⟨nb, rfl, hnb, hib⟩ := hroot _ rfl
        have hp : (shape fs).Place (.ib d, []) := ⟨Nat.zero_le _, by simp⟩
        obtain ⟨hap', hsame', hres⟩ := @fetchAlloc_write fs k f1 sync bn hk d d r nb [] hap hp
          (Nat.zero_add d) hib hnb
        refine ⟨hap', fun x hx h => (hsame' x hx h).trans (hsame x hx h), fun q hq => ?_⟩
        obtain ⟨a, rfl, ha, hptr⟩ := hres q hq
        refine ⟨a, _, d, indices fs.fs_nindir (r / fs.fs_nindir) d, rfl, ha, hptr, length_indices, ?_⟩
        rw [indices_succ]

end Walk

section Data

variable {fs : Fs} {k : Kernel} {f : File} {sync : Bool} {bn : ℤ} {width : ℤ → ℤ}

theorem dbtofsb_fsbtodb {b : ℕ} : dbtofsb fs (fsbtodb fs b) = b := Nat.shiftLeft_shiftRight b _

/-- The file has been written at a place, and the result is the block there. -/
def Wrote (fs : Fs) (f f' : File) (x : Root × List ℕ) (b : Option ℕ) : Prop :=
  f'.forest.ptr x ≠ 0 ∧ b = some (fsbtodb fs (f'.forest.ptr x)) ∧ SameBut fs f f' (· = x)

theorem wrote_of_sets {f' : File} {x : Root × List ℕ} {b : ℕ} (hb : b ≠ 0)
    (hx : (shape fs).Place x) (hs : Forest.Sets (shape fs) f.forest f'.forest x b) :
    Wrote fs f f' x (some (fsbtodb fs b)) := by
  have hptr : f'.forest.ptr x = b := by rw [hs x hx, if_pos rfl]
  refine ⟨hptr.symm ▸ hb, by rw [hptr], fun y hy hne => ?_⟩
  rw [hs y hy.1, if_neg hne]

theorem wrote_self {x : Root × List ℕ} (hx : f.forest.ptr x ≠ 0) :
    Wrote fs f f x (some (fsbtodb fs (f.forest.ptr x))) :=
  ⟨hx, rfl, fun _ _ _ => rfl⟩

theorem wrote_trans {f1 f' : File} {x : Root × List ℕ} {b : Option ℕ}
    (h : SameBut fs f f1 fun _ => False) (h' : Wrote fs f1 f' x b) : Wrote fs f f' x b :=
  ⟨h'.1, h'.2.1, fun y hy hne => (h'.2.2 y hy hne).trans (h y hy not_false)⟩

theorem link_wrote (hk : Sound fs k) (hf : f.Apart fs) {a i d b : ℕ} {p : List ℕ}
    (ha : a ≠ 0) (hptr : f.forest.ptr (.ib d, p) = a) (hlen : p.length = d)
    (hplace : (shape fs).Place (.ib d, p ++ [i])) (hold : f.block a i = 0) (hb : f.forest.Fresh (shape fs) b) :
    (f.link k sync a i b).Apart fs ∧
      Wrote fs f (f.link k sync a i b) (.ib d, p ++ [i]) (some (fsbtodb fs b)) := by
  have hsets := @link_sets fs k f d i b a p sync hk hf hplace hptr ha hold hb fun h => by omega
  exact ⟨sets_apart hf hsets hb, wrote_of_sets hb.1 hplace hsets⟩

/-- The file is in order, and the result is the block at a place that has been written. -/
def Puts {α : Type} (fs : Fs) (f : File) (place : Option (Root × List ℕ)) (g : α → Option ℕ)
    (w : Except Stop α × File) : Prop :=
  w.2.Apart fs ∧ ∀ b, w.1 = .ok b → ∃ x, place = some x ∧ Wrote fs f w.2 x (g b)

section Puts

variable {α : Type} {f' : File} {place : Option (Root × List ℕ)} {g : α → Option ℕ} {x : Root × List ℕ}

theorem Puts.error {e : Stop} (hf : f'.Apart fs) : Puts fs f place g (.error e, f') := ⟨hf, nofun⟩

theorem Puts.ok {b : α} (hx : place = some x) (h : f'.Apart fs ∧ Wrote fs f f' x (g b)) :
    Puts fs f place g (.ok b, f') := by
  refine ⟨h.1, fun c hc => ?_⟩
  cases hc
  exact ⟨x, hx, h.2⟩

end Puts

theorem walk_last (hk : Sound fs k) (hf : f.Apart fs) (hfits : Fits width fs.fs_nindir) (hbn : bn < 2 ^ 31)
    (hneg : ¬bn < 0) (hdirect : ¬bn < NDADDR) :
    let w := walk fs k false sync bn f (findLevel width fs.fs_nindir NIADDR 1 (int32 (bn - NDADDR)))
    w.2.Apart fs ∧ ∀ r, w.1 = .ok r → ∃ a i x, r = some (a, i) ∧ placeOf fs width bn = some x ∧
      w.2.forest.ptr x = w.2.block a i ∧
      (w.2.block a i = 0 → ∀ size b, k.alloc w.2 bn size = .ok b → (w.2.link k sync a i b).Apart fs ∧
        Wrote fs f (w.2.link k sync a i b) x (some (fsbtodb fs b))) ∧
      (w.2.block a i ≠ 0 → Wrote fs f w.2 x (some (fsbtodb fs (w.2.block a i)))) := by
  obtain ⟨hap, hsame, hres⟩ := @walk_write fs k f sync width bn hk hf hfits hbn hneg hdirect
  generalize walk fs k false sync bn f _ = w at hap hsame hres
  refine ⟨hap, fun r hr => ?_⟩
  obtain ⟨a, i, d, p, rfl, ha, hptr, hlen, hplace⟩ := hres r hr
  have hlast : w.2.forest.ptr (.ib d, p ++ [i]) = w.2.block a i := by
    rw [Forest.ptr_concat (hptr.symm ▸ ha), hptr]
    rfl
  refine ⟨a, i, _, rfl, hplace, hlast, fun hzero size b hb => ?_, fun hne => ?_⟩
  · obtain ⟨hap', hwrote⟩ := @link_wrote fs k _ sync hk hap a i d b p ha hptr hlen (placeOf_leaf hfits hbn hplace).1
      hzero (hk.alloc _ bn size b hb)
    exact ⟨hap', wrote_trans hsame hwrote⟩
  · rw [← hlast] at hne ⊢
    exact wrote_trans hsame (wrote_self hne)

theorem ballocData_write {clrbuf : Bool} (hk : Sound fs k) (hf : f.Apart fs) (hbn : bn < 2 ^ 31)
    (hneg : ¬bn < 0) (hdirect : ¬bn < NDADDR) :
    Puts fs f (placeOf fs int32 bn) id (ballocData fs k sync clrbuf bn (walk fs k false sync bn f
      (findLevel int32 fs.fs_nindir NIADDR 1 (int32 (bn - NDADDR))))) := by
  obtain ⟨hap, hres⟩ := @walk_last fs k f sync bn int32 hk hf (fits_int32 fs) hbn hneg hdirect
  generalize walk fs k false sync bn f _ = w at hap hres
  obtain ⟨e | res, f1⟩ := w
  · exact .error hap
  obtain ⟨a, i, x, rfl, hplace, hlast, hlink, hwrote⟩ := hres _ rfl
  simp only [ballocData]
  by_cases hzero : f1.block a i = 0
  · rw [if_pos hzero]
    cases halloc : k.alloc f1 bn fs.fs_bsize with
    | error e => exact .error hap
    | ok newb => exact .ok hplace (hlink hzero _ newb halloc)
  · rw [if_neg hzero]
    cases clrbuf with
    | false => exact .ok hplace ⟨hap, hwrote hzero⟩
    | true =>
      have htold := @bmap_eq fs k f1 bn false hbn
      rw [hplace, told, hlast, if_neg hzero] at htold
      simp only [if_true, fileBread]
      cases hread : k.fbread bn with
      | some e => exact .error hap
      | none =>
        rcases htold with ⟨c, e, -, herr⟩ | htold
        · simp only [herr]
          exact .error hap
        · simp only [htold]
          exact .ok hplace ⟨hap, hwrote hzero⟩

theorem ubcData_write (hk : Sound fs k) (hf : f.Apart fs) (hbn : bn < 2 ^ 31) (hneg : ¬bn < 0)
    (hdirect : ¬bn < NDADDR) :
    Puts fs f (placeOf fs int64 bn) Prod.fst (ubcData fs k false sync bn (walk fs k false sync bn f
      (findLevel int64 fs.fs_nindir NIADDR 1 (int32 (bn - NDADDR))))) := by
  obtain ⟨hap, hres⟩ := @walk_last fs k f sync bn int64 hk hf (fits_int64 fs) hbn hneg hdirect
  generalize walk fs k false sync bn f _ = w at hap hres
  obtain ⟨e | res, f1⟩ := w
  · exact .error hap
  obtain ⟨a, i, x, rfl, hplace, -, hlink, hwrote⟩ := hres _ rfl
  simp only [ubcData]
  by_cases hzero : f1.block a i = 0
  · rw [if_pos hzero, if_neg Bool.false_ne_true]
    cases halloc : k.alloc f1 bn fs.fs_bsize with
    | error e => exact .error hap
    | ok newb => exact .ok hplace (hlink hzero _ newb halloc)
  · rw [if_neg hzero]
    exact .ok hplace ⟨hap, hwrote hzero⟩

end Data

section Direct

variable {fs : Fs} {k : Kernel} {f f' : File} {bn : ℤ} {size : ℕ}

/-- A fragment gets a place that nothing else of the file leads to. -/
def Moves (fs : Fs) (realloc : File → ℤ → ℕ → ℕ → Except Stop ℕ) : Prop :=
  ∀ f lbn osize nsize b, realloc f lbn osize nsize = .ok b →
    ∃ a, b = fsbtodb fs a ∧ a ≠ 0 ∧ ∀ x, (shape fs).Place x → x ≠ (.db lbn.toNat, []) → f.forest.ptr x ≠ a

theorem realloccg_moves (hk : Sound fs k) {f : File} {lbn : ℤ} {osize nsize b : ℕ}
    (h : (k.realloccg f lbn osize nsize).map (fsbtodb fs) = .ok b) :
    ∃ a, b = fsbtodb fs a ∧ a ≠ 0 ∧
      ∀ x, (shape fs).Place x → x ≠ (.db lbn.toNat, []) → f.forest.ptr x ≠ a := by
  cases hr : k.realloccg f lbn osize nsize with
  | error e =>
    rw [hr] at h
    cases h
  | ok a =>
    rw [hr] at h
    cases h
    exact ⟨a, rfl, hk.realloccg f lbn osize nsize a hr⟩

theorem reallocBuf_moves (hk : Sound fs k) : Moves fs (reallocBuf fs k) := by
  intro f lbn osize nsize b h
  unfold reallocBuf at h
  split at h
  · cases h
  split at h
  · cases h
  exact realloccg_moves hk h

theorem ufs_ubcrealloc_moves (hk : Sound fs k) : Moves fs (ufs_ubcrealloc fs k) := by
  intro f lbn osize nsize b h
  unfold ufs_ubcrealloc at h
  split at h
  · cases h
  split at h
  · cases h
  exact realloccg_moves hk h

theorem setDirect_wrote {i a : ℕ} (hf : f.Apart fs) (ha : a ≠ 0)
    (hother : ∀ x, (shape fs).Place x → x ≠ (.db i, []) → f.forest.ptr x ≠ a)
    (hdb : f'.i_db = update f.i_db i a) (hib : f'.i_ib = f.i_ib) (hblock : f'.block = f.block) :
    f'.Apart fs ∧ Wrote fs f f' (.db i, []) (some (fsbtodb fs a)) := by
  have hsets := @setDirect_sets fs f f' i a hib hdb hblock
  exact ⟨Forest.Apart.sets hf hsets hother, wrote_of_sets ha ⟨Nat.zero_le _, by simp⟩ hsets⟩

/-- The place of the last fragment, where it is extended. -/
def TailPlace (fs : Fs) (f : File) (bn : ℤ) (x : Root × List ℕ) : Prop :=
  ∃ nb, Tail fs f bn nb ∧ x = (.db nb.toNat, [])

theorem extendTail_write {realloc : File → ℤ → ℕ → ℕ → Except Stop ℕ} (hr : Moves fs realloc) (hf : f.Apart fs) :
    (extendTail fs realloc bn f).2.Apart fs ∧
      SameBut fs f (extendTail fs realloc bn f).2 (TailPlace fs f bn) := by
  unfold extendTail
  by_cases htail : Tail fs f bn (lblkno fs f.i_size)
  · simp only [if_pos htail]
    cases hre : realloc f (lblkno fs f.i_size) (blksize fs f (lblkno fs f.i_size)) fs.fs_bsize with
    | error e => exact ⟨hf, fun x _ _ => rfl⟩
    | ok b =>
      obtain ⟨a, rfl, ha, hother⟩ := hr _ _ _ _ _ hre
      obtain ⟨hap, -, -, hsame⟩ := @setDirect_wrote fs f { f with
        i_size := ((lblkno fs f.i_size).toNat + 1) * fs.fs_bsize
        i_db := update f.i_db (lblkno fs f.i_size).toNat (dbtofsb fs (fsbtodb fs a)) }
        _ a hf ha hother (by rw [dbtofsb_fsbtodb]) rfl rfl
      refine ⟨hap, fun x hx hne => hsame x hx fun h => hne ⟨_, htail, h⟩⟩
  · simp only [if_neg htail]
    exact ⟨hf, fun x _ _ => rfl⟩

theorem fileBread_direct {r : Option ℕ} (hneg : ¬bn < 0) (hdirect : bn < NDADDR)
    (hne : f.i_db bn.toNat ≠ 0) (h : fileBread fs k f bn = .ok r) : r = some (fsbtodb fs (f.i_db bn.toNat)) := by
  unfold fileBread at h
  cases hread : k.fbread bn with
  | some e =>
    rw [hread] at h
    cases h
  | none =>
    simp only [hread] at h
    rw [bmap, if_neg hneg, if_pos hdirect, bmapDirect, countRead_i_db, if_neg hne, bmapOut_bnp] at h
    cases h
    rfl

theorem setDirect_puts {α : Type} {g : α → Option ℕ} {r : α} {a : ℕ} (hf : f.Apart fs) (ha : a ≠ 0)
    (hother : ∀ x, (shape fs).Place x → x ≠ (.db bn.toNat, []) → f.forest.ptr x ≠ a)
    (hr : g r = some (fsbtodb fs a))
    (hdb : f'.i_db = update f.i_db bn.toNat (dbtofsb fs (fsbtodb fs a))) (hib : f'.i_ib = f.i_ib)
    (hblock : f'.block = f.block) : Puts fs f (some (.db bn.toNat, [])) g (.ok r, f') := by
  rw [dbtofsb_fsbtodb] at hdb
  apply Puts.ok rfl
  rw [hr]
  exact setDirect_wrote hf ha hother hdb hib hblock

theorem ballocDirect_write (hk : Sound fs k) (hf : f.Apart fs) (hneg : ¬bn < 0)
    (hdirect : bn < NDADDR) : Puts fs f (some (.db bn.toNat, [])) id (ballocDirect fs k bn size f) := by
  unfold ballocDirect
  by_cases hfull : f.i_db bn.toNat ≠ 0 ∧ (bn.toNat + 1) * fs.fs_bsize ≤ f.i_size
  · simp only [if_pos hfull]
    refine ⟨hf, fun b hb => ⟨_, rfl, ?_⟩⟩
    rw [fileBread_direct hneg hdirect hfull.1 hb]
    exact wrote_self hfull.1
  simp only [if_neg hfull]
  by_cases hne : f.i_db bn.toNat ≠ 0
  · simp only [if_pos hne]
    by_cases hsize : fragroundup fs size ≤ fragroundup fs (blkoff fs f.i_size)
    · simp only [if_pos hsize]
      cases hread : fileBread fs k f bn with
      | error e => exact .error hf
      | ok r =>
        rw [fileBread_direct hneg hdirect hne hread]
        -- The pointer is set to what it was.
        refine setDirect_puts hf hne (fun x hx hxne heq => ?_) rfl rfl rfl rfl
        exact hxne (hf x (.db bn.toNat, []) hx ⟨Nat.zero_le _, by simp⟩ (heq ▸ hne) heq)
    · simp only [if_neg hsize]
      cases hre : reallocBuf fs k f bn (fragroundup fs (blkoff fs f.i_size))
          (fragroundup fs size) with
      | error e => exact .error hf
      | ok b =>
        obtain ⟨a, rfl, ha, hother⟩ := reallocBuf_moves hk _ _ _ _ _ hre
        exact setDirect_puts hf ha hother rfl rfl rfl rfl
  · simp only [if_neg hne]
    cases halloc : k.alloc f bn (newSize fs f bn size) with
    | error e => exact .error hf
    | ok a =>
      have hfresh := hk.alloc f bn _ a halloc
      exact setDirect_puts hf hfresh.1 (fun x hx _ => hfresh.2 x hx) rfl rfl rfl rfl

theorem ubcDirect_write (hk : Sound fs k) (hf : f.Apart fs) :
    Puts fs f (some (.db bn.toNat, [])) Prod.fst (ubcDirect fs k false bn size f) := by
  unfold ubcDirect
  by_cases hfull : f.i_db bn.toNat ≠ 0 ∧ (bn.toNat + 1) * fs.fs_bsize ≤ f.i_size
  · simp only [if_pos hfull]
    exact .ok rfl ⟨hf, wrote_self hfull.1⟩
  simp only [if_neg hfull, Bool.false_eq_true, if_false]
  by_cases hne : f.i_db bn.toNat ≠ 0
  · simp only [if_pos hne]
    by_cases hsize : fragroundup fs size ≤ fragroundup fs (blkoff fs f.i_size)
    · simp only [if_pos hsize]
      exact .ok rfl ⟨hf, wrote_self hne⟩
    · simp only [if_neg hsize]
      cases hre : ufs_ubcrealloc fs k f bn (fragroundup fs (blkoff fs f.i_size))
          (fragroundup fs size) with
      | error e => exact .error hf
      | ok b =>
        obtain ⟨a, rfl, ha, hother⟩ := ufs_ubcrealloc_moves hk _ _ _ _ _ hre
        exact setDirect_puts hf ha hother rfl rfl rfl rfl
  · simp only [if_neg hne]
    cases halloc : k.alloc f bn (newSize fs f bn size) with
    | error e => exact .error hf
    | ok a =>
      have hfresh := hk.alloc f bn _ a halloc
      exact setDirect_puts hf hfresh.1 (fun x hx _ => hfresh.2 x hx) rfl rfl rfl rfl

end Direct

section Calls

variable {fs : Fs} {k : Kernel} {f : File} {bn : ℤ} {size : ℕ} {sync : Bool}

/-- What a successful write of a logical block leaves: the block is the one given, and the others
are as they were, but for the last fragment. -/
def Written (fs : Fs) (width : ℤ → ℤ) (f f' : File) (bn : ℤ) (b : Option ℕ) : Prop :=
  ∃ x, placeOf fs width bn = some x ∧ f'.forest.ptr x ≠ 0 ∧
    b = some (fsbtodb fs (f'.forest.ptr x)) ∧
    SameBut fs f f' fun y => y = x ∨ TailPlace fs f bn y

theorem Puts.behind {α : Type} {width : ℤ → ℤ} {f1 : File} {g : α → Option ℕ} {w : Except Stop α × File}
    (h : Puts fs f1 (placeOf fs width bn) g w) (hsame : SameBut fs f f1 (TailPlace fs f bn)) :
    w.2.Apart fs ∧ ∀ b, w.1 = .ok b → Written fs width f w.2 bn (g b) := by
  refine ⟨h.1, fun b hb => ?_⟩
  obtain ⟨x, hx, hne, hresult, hwrote⟩ := h.2 b hb
  refine ⟨x, hx, hne, hresult, fun y hy hother => ?_⟩
  rw [hwrote y hy fun hyx => hother (.inl hyx), hsame y hy fun htail => hother (.inr htail)]

theorem placeOf_direct {width : ℤ → ℤ} (hneg : ¬bn < 0) (hdirect : bn < NDADDR) :
    placeOf fs width bn = some (.db bn.toNat, []) := by
  unfold placeOf
  rw [if_neg hneg, if_pos hdirect]

theorem balloc_write {clrbuf : Bool} (hk : Sound fs k) (hf : f.Apart fs) (hbn : bn < 2 ^ 31) :
    (balloc fs k sync clrbuf bn size f).2.Apart fs ∧
      ∀ b, (balloc fs k sync clrbuf bn size f).1 = .ok b →
        Written fs int32 f (balloc fs k sync clrbuf bn size f).2 bn b := by
  unfold balloc
  by_cases hneg : bn < 0
  · rw [if_pos hneg]
    exact ⟨hf, nofun⟩
  rw [if_neg hneg]
  obtain ⟨hap, hsame⟩ := @extendTail_write fs f bn (reallocBuf fs k) (reallocBuf_moves hk) hf
  cases htail : extendTail fs (reallocBuf fs k) bn f with
  | mk r f1 =>
    rw [htail] at hap hsame
    cases r with
    | error e => exact ⟨hap, nofun⟩
    | ok u =>
      by_cases hdirect : bn < NDADDR
      · simp only [if_pos hdirect]
        exact Puts.behind (placeOf_direct hneg hdirect ▸ ballocDirect_write hk hap hneg hdirect) hsame
      · simp only [if_neg hdirect]
        exact (ballocData_write hk hap hbn hneg hdirect).behind hsame

theorem ubcbmap_write (hk : Sound fs k) (hf : f.Apart fs) (hbn : bn < 2 ^ 31) :
    (ufs_ubcbmap fs k false sync bn size f).2.Apart fs ∧
      ∀ b, (ufs_ubcbmap fs k false sync bn size f).1 = .ok b →
        Written fs int64 f (ufs_ubcbmap fs k false sync bn size f).2 bn b.1 := by
  unfold ufs_ubcbmap
  by_cases hneg : bn < 0
  · rw [if_pos hneg]
    exact ⟨hf, nofun⟩
  rw [if_neg hneg, if_neg Bool.false_ne_true]
  obtain ⟨hap, hsame⟩ := @extendTail_write fs f bn (ufs_ubcrealloc fs k) (ufs_ubcrealloc_moves hk) hf
  cases htail : extendTail fs (ufs_ubcrealloc fs k) bn f with
  | mk r f1 =>
    rw [htail] at hap hsame
    cases r with
    | error e => exact ⟨hap, nofun⟩
    | ok u =>
      by_cases hdirect : bn < NDADDR
      · simp only [if_pos hdirect]
        exact Puts.behind (placeOf_direct hneg hdirect ▸ ubcDirect_write hk hap) hsame
      · simp only [if_neg hdirect]
        exact (ubcData_write hk hap hbn hneg hdirect).behind hsame

end Calls

end Write

/-!
## The three mappers

Calls on a file, from a new inode on.
-/

section Mappers

open Osf1.Computation

/-- What happens to a file.  `prune` is everything that takes pointers away and sets the size, as
`itrunc` does. -/
inductive Call
  | bmap (k : Kernel) (cluster : Bool) (bn : ℤ)
  | balloc (k : Kernel) (sync clrbuf : Bool) (bn : ℤ) (size : ℕ)
  | ufs_ubcbmap (k : Kernel) (read sync : Bool) (bn : ℤ) (size : ℕ)
  | prune

/-- The allocator takes blocks from the free map, so that nothing in the file leads to them.  A
fragment that is extended may stay where it is. -/
structure Allocates (fs : Fs) (k : Kernel) : Prop where
  alloc : ∀ f lbn size b, k.alloc f lbn size = .ok b → f.forest.Fresh (shape fs) b
  realloccg : ∀ f lbn osize nsize b, k.realloccg f lbn osize nsize = .ok b → b ≠ 0 ∧
    ∀ x, (shape fs).Place x → x ≠ (.db lbn.toNat, []) → f.forest.ptr x ≠ b

/-- A new inode has no blocks. -/
def File.Empty (f : File) : Prop := ∀ i, f.i_db i = 0 ∧ f.i_ib i = 0

def files (fs : Fs) : System File Call where
  init f := f.Empty
  step f c f' :=
    match c with
    | .bmap k cluster bn => f' = (bmap fs k cluster f bn).2
    | .balloc k sync clrbuf bn size =>
      Allocates fs k ∧ bn < 2 ^ 31 ∧ f' = (balloc fs k sync clrbuf bn size f).2
    | .ufs_ubcbmap k read sync bn size =>
      Allocates fs k ∧ bn < 2 ^ 31 ∧ f' = (ufs_ubcbmap fs k read sync bn size f).2
    | .prune => ∀ x, (shape fs).Place x → f'.forest.ptr x = f.forest.ptr x ∨ f'.forest.ptr x = 0

/-- No block of pointers is lost: the synchronous writes succeed. -/
def Call.Kept : Call → Prop
  | .balloc k .. | .ufs_ubcbmap k .. => ∀ nb, k.lost nb = false
  | _ => True

/-- After a write of a logical block `bmap` tells the block given, and of any other but the last
fragment what it told before. -/
def Given (fs : Fs) (f f' : File) (bn : ℤ) (b : Option ℕ) : Prop :=
  b ≠ none ∧ ∀ k cluster, Reads k →
    (bmap fs k cluster f' bn).1.map Bmapped.bnp = .ok b ∧
    ∀ lbn, lbn < 2 ^ 31 → lbn ≠ bn → ¬Tail fs f bn lbn →
      (bmap fs k cluster f' lbn).1.map Bmapped.bnp = (bmap fs k cluster f lbn).1.map Bmapped.bnp

structure MappersAgree (fs : Fs) (f : File) (bn : ℤ) : Prop where
  read : ∀ k cluster sync size, (bmap fs k cluster f bn).1.map Bmapped.bnp =
    (ufs_ubcbmap fs k true sync bn size f).1.map Prod.fst
  balloc : ∀ k sync clrbuf size b, Allocates fs k → (∀ nb, k.lost nb = false) →
    (balloc fs k sync clrbuf bn size f).1 = .ok b → Given fs f (balloc fs k sync clrbuf bn size f).2 bn b
  ufs_ubcbmap : ∀ k sync size b, Allocates fs k → (∀ nb, k.lost nb = false) →
    (ufs_ubcbmap fs k false sync bn size f).1 = .ok b → Given fs f (ufs_ubcbmap fs k false sync bn size f).2 bn b.1
  distinct : ∀ k k' cluster cluster' lbn b, lbn < 2 ^ 31 → lbn ≠ bn →
    (bmap fs k cluster f bn).1.map Bmapped.bnp = .ok (some b) →
      (bmap fs k' cluster' f lbn).1.map Bmapped.bnp ≠ .ok (some b)
  cluster : ∀ k b sz, (bmap fs k true f bn).1 = .ok ⟨some b, sz⟩ → ∀ i : ℕ, i < sz →
    ∀ k' cluster', Reads k' → (bmap fs k' cluster' f (bn + i)).1.map Bmapped.bnp =
      .ok (some (b + fsbtodb fs (i * fs.fs_frag)))

section Agree

variable {fs : Fs} {k : Kernel} {f f' : File} {bn lbn : ℤ} {cluster : Bool}

theorem Allocates.sound (h : Allocates fs k) (hlost : ∀ nb, k.lost nb = false) : Sound fs k :=
  ⟨h.alloc, h.realloccg, hlost⟩

theorem bmap_told (hk : Reads k) (hbn : bn < 2 ^ 31) :
    (bmap fs k cluster f bn).1.map Bmapped.bnp = told fs f (placeOf fs int32 bn) := by
  rcases @bmap_eq fs k f bn cluster hbn with ⟨a, e, hread, -⟩ | h
  · rw [hk a] at hread
    cases hread
  · exact h

theorem bmap_ok {r : Option ℕ} (hbn : bn < 2 ^ 31) (h : (bmap fs k cluster f bn).1.map Bmapped.bnp = .ok r) :
    told fs f (placeOf fs int32 bn) = .ok r := by
  rcases @bmap_eq fs k f bn cluster hbn with ⟨a, e, -, herr⟩ | heq
  · rw [herr] at h
    cases h
  · rw [← heq]
    exact h

theorem told_some {x : Option (Root × List ℕ)} {b : ℕ} (h : told fs f x = .ok (some b)) :
    ∃ y, x = some y ∧ f.forest.ptr y ≠ 0 ∧ b = fsbtodb fs (f.forest.ptr y) := by
  cases x with
  | none => cases h
  | some y =>
    refine ⟨y, rfl, ?_⟩
    simp only [told] at h
    by_cases hzero : f.forest.ptr y = 0
    · rw [if_pos hzero] at h
      cases h
    · rw [if_neg hzero] at h
      cases h
      exact ⟨hzero, rfl⟩

theorem Tail.nonneg (h : Tail fs f bn lbn) : 0 ≤ lbn := by
  by_contra hneg
  obtain ⟨hlast, hdirect, -, hsmall, -⟩ := h
  -- The block number has not fitted, so that the file is larger than an `int` can tell.
  have hlarge : (2 : ℤ) ^ 31 ≤ f.i_size := by
    by_contra hsize
    have hdiv : f.i_size / fs.fs_bsize ≤ f.i_size := Nat.div_le_self _ _
    unfold lblkno at hlast
    rw [← Int.natCast_ediv] at hlast
    generalize f.i_size / fs.fs_bsize = q at hlast hdiv
    rw [int32_of_range (by omega) (by omega)] at hlast
    omega
  have hint : int32 ((lbn + 1) * fs.fs_bsize) < 2 ^ 31 := by
    unfold int32
    have hbmod := @Int.bmod_lt ((lbn + 1) * fs.fs_bsize) (2 ^ 32) (by decide)
    omega
  have hfull : blksize fs f lbn = fs.fs_bsize := by
    unfold blksize
    rw [if_pos (.inr (by omega))]
  omega

theorem tail_of_place (hlbn : lbn < 2 ^ 31) {y : Root × List ℕ}
    (hy : placeOf fs int32 lbn = some y) (h : TailPlace fs f bn y) : Tail fs f bn lbn := by
  obtain ⟨nb, htail, rfl⟩ := h
  have hnb := htail.nonneg
  obtain ⟨i, hi, -, heq⟩ | ⟨d, r, -, -, -, heq⟩ := placeOf_cases (fits_int32 fs) hlbn hy
  · cases heq
    rw [hi, Int.toNat_of_nonneg hnb]
    exact htail
  · cases heq

theorem given_of_written {b : Option ℕ} (hbn : bn < 2 ^ 31) (h : Written fs int32 f f' bn b) :
    Given fs f f' bn b := by
  obtain ⟨x, hx, hne, rfl, hsame⟩ := h
  refine ⟨nofun, fun k cluster hk => ⟨?_, fun lbn hlbn hother htail => ?_⟩⟩
  · rw [bmap_told hk hbn, hx, told, if_neg hne]
  · rw [bmap_told hk hlbn, bmap_told hk hlbn]
    cases hy : placeOf fs int32 lbn with
    | none => rfl
    | some y =>
      have hleaf := placeOf_leaf (fits_int32 fs) hlbn hy
      have hptr := hsame y hleaf fun hcase => by
        rcases hcase with rfl | hcase
        · exact hother (placeOf_injective (fits_int32 fs) hlbn hbn hy hx)
        · exact htail (tail_of_place hlbn hy hcase)
      simp only [told, hptr]

theorem mappers_agree_of (hf : f.Apart fs) (hbn : bn < 2 ^ 31)
    (h : fs.fs_nindir = 1024 ∨ bn < NDADDR + levelStart fs.fs_nindir 2) : MappersAgree fs f bn where
  read k cluster sync size := ubcbmap_read_eq fun hdirect => findLevel_int32 hbn hdirect h
  balloc k sync clrbuf size b halloc hlost hok :=
    given_of_written hbn ((balloc_write (halloc.sound hlost) hf hbn).2 b hok)
  ufs_ubcbmap k sync size b halloc hlost hok := by
    obtain ⟨x, hx, hrest⟩ := (ubcbmap_write (halloc.sound hlost) hf hbn).2 b hok
    rw [← placeOf_int32 hbn h] at hx
    exact given_of_written hbn ⟨x, hx, hrest⟩
  distinct k k' cluster cluster' lbn b hlbn hne hb hb' := by
    obtain ⟨x, hx, hxne, hxb⟩ := told_some (bmap_ok hbn hb)
    obtain ⟨y, hy, -, hyb⟩ := told_some (bmap_ok hlbn hb')
    have hptr : f.forest.ptr x = f.forest.ptr y := by
      rw [← @dbtofsb_fsbtodb fs (f.forest.ptr x), ← hxb, hyb, dbtofsb_fsbtodb]
    have hxy := hf x y (placeOf_leaf (fits_int32 fs) hbn hx).1
      (placeOf_leaf (fits_int32 fs) hlbn hy).1 hxne hptr
    rw [← hxy] at hy
    exact hne (placeOf_injective (fits_int32 fs) hlbn hbn hy hx)
  cluster k b sz hok i hi k' cluster' hk' := by
    obtain ⟨hlt, htold⟩ := bmap_cluster hbn hok hi
    rw [bmap_told hk' hlt, htold]

theorem fetch_reads (hk : Reads k) {n nb : ℕ} {sh b : ℤ} : ∃ r, fetch fs k f n nb sh b = .ok r := by
  induction n generalizing nb sh with
  | zero =>
    rw [fetch, hk nb]
    simp only
    split
    · exact ⟨_, rfl⟩
    · exact ⟨_, rfl⟩
  | succ n ih =>
    rw [fetch, hk nb]
    simp only
    split
    · exact ⟨_, rfl⟩
    · exact ih

theorem not_mappers_agree (hbn : bn < 2 ^ 31) (h : fs.fs_nindir ≠ 1024)
    (hbehind : NDADDR + levelStart fs.fs_nindir 2 ≤ bn) : ¬MappersAgree fs f bn := by
  intro hagree
  have hdirect : ¬bn < NDADDR := by omega
  have hneg : ¬bn < 0 := by
    rw [NDADDR_eq] at hdirect
    omega
  obtain ⟨hnone, hsome⟩ := findLevel_third hbn h hbehind
  obtain ⟨level, hlevel⟩ := Option.isSome_iff_exists.mp hsome
  let k : Kernel := {
    bread := fun _ => none
    fbread := fun _ => none
    bwrite := fun _ => none
    lost := fun _ => false
    alloc := fun _ _ _ => .error .panic
    realloccg := fun _ _ _ _ => .error .panic
    lookup := none
    cluster_maxcontig := 0
    cluster_consec_incr := 0 }
  have hread := hagree.read k false false 0
  have hbmap : (bmap fs k false f bn).1.map Bmapped.bnp = .error (.errno EFBIG) := by
    unfold bmap
    rw [if_neg hneg, if_neg hdirect, hnone]
    rfl
  have hubc : ∃ r, (ufs_ubcbmap fs k true false bn 0 f).1.map Prod.fst = .ok r := by
    unfold ufs_ubcbmap
    rw [if_neg hneg]
    simp only [if_true]
    rw [if_neg hdirect, hlevel, ubcData_read.2]
    split
    · exact ⟨_, rfl⟩
    · obtain ⟨r, hr⟩ := @fetch_reads fs k f (fun _ => rfl) (NIADDR - level.1)
        (f.i_ib (NIADDR - level.1)) level.2.1 level.2.2
      rw [hr]
      exact ⟨_, rfl⟩
  obtain ⟨r, hr⟩ := hubc
  rw [hbmap, hr] at hread
  cases hread

end Agree

section Runs

variable {fs : Fs} {f f' : File}

theorem empty_apart (h : f.Empty) : f.Apart fs := by
  rintro ⟨r, p⟩ y hx hy hne -
  refine absurd ?_ hne
  have hroot : f.forest.root r = 0 := by
    cases r with
    | db i => exact (h i).1
    | ib i => exact (h i).2
  rw [Forest.ptr, hroot, followPath_zero]

theorem bmap_forest {k : Kernel} {cluster : Bool} {bn : ℤ} : (bmap fs k cluster f bn).2.forest = f.forest := by
  have hcount : (f.countRead fs k cluster).forest = f.forest := by
    cases cluster <;> rfl
  have hout (f : File) (nb : ℕ) (contig : ℤ) : (bmapOut fs cluster bn nb contig f).2.forest = f.forest := by
    cases cluster <;> rfl
  unfold bmap
  split
  · rfl
  split
  · unfold bmapDirect
    split
    · exact hcount
    · rw [hout]
      exact hcount
  · cases findLevel int32 fs.fs_nindir NIADDR 1 (int32 (bn - NDADDR)) with
    | none => exact hcount
    | some level =>
      rw [bmapIndirect]
      split
      · exact hcount
      split
      · exact hcount
      · exact hcount
      · rw [hout]
        exact hcount

theorem step_apart {c : Call} (hc : c.Kept) (hf : f.Apart fs) (h : (files fs).step f c f') : f'.Apart fs := by
  cases c with
  | bmap k cluster bn =>
    cases h
    unfold File.Apart
    rw [bmap_forest]
    exact hf
  | balloc k sync clrbuf bn size =>
    obtain ⟨halloc, hbn, rfl⟩ := h
    exact (balloc_write (halloc.sound hc) hf hbn).1
  | ufs_ubcbmap k read sync bn size =>
    obtain ⟨halloc, hbn, rfl⟩ := h
    cases read with
    | false => exact (ubcbmap_write (halloc.sound hc) hf hbn).1
    | true =>
      rw [ubcbmap_read_same]
      exact hf
  | prune =>
    intro x y hx hy hne heq
    have hx' : f'.forest.ptr x = f.forest.ptr x := (h x hx).resolve_right hne
    have hy' : f'.forest.ptr y = f.forest.ptr y := (h y hy).resolve_right (heq ▸ hne)
    rw [hx'] at hne heq
    rw [hy'] at heq
    exact hf x y hx hy hne heq

theorem reachable_apart (h : ((files fs).restrict fun _ c => c.Kept).Reachable f) : f.Apart fs := by
  refine h.invariant (I := fun f => f.Apart fs) (fun _ hinit => empty_apart hinit) ?_
  intro f c f' _ hf hstep
  exact step_apart hstep.1 hf hstep.2

/-- In every run that loses no block of pointers, the mappers agree on exactly the blocks that are
in front of the third level, and on all of them where the size of that level fits an `int`. -/
theorem mappers_agree (hf : ((files fs).restrict fun _ c => c.Kept).Reachable f) {bn : ℤ} (hbn : bn < 2 ^ 31) :
    MappersAgree fs f bn ↔
      fs.fs_nindir = 1024 ∨ bn < NDADDR + fs.fs_nindir + fs.fs_nindir ^ 2 := by
  have hstart : (levelStart fs.fs_nindir 2 : ℤ) = fs.fs_nindir + (fs.fs_nindir : ℤ) ^ 2 := by
    simp [levelStart]
  constructor
  · intro hagree
    by_contra hcond
    rw [not_or, not_lt] at hcond
    exact not_mappers_agree hbn hcond.1 (by omega) hagree
  · intro hcond
    refine mappers_agree_of (reachable_apart hf) hbn (hcond.imp_right fun h => ?_)
    omega

/-- A file system with blocks of 8192 bytes. -/
def fs8192 : Fs where
  fs_bshift := 13
  fs_fragshift := 3
  fs_fsbtodb := 1
  fs_maxcontig := 8
  bshift_range := by decide
  fragshift_le := by decide

/-- A new inode. -/
def newFile : File where
  i_size := 0
  i_db _ := 0
  i_ib _ := 0
  i_consecreads := 0
  i_clusterlbn := 0
  i_clustersz := 0
  block _ _ := 0

theorem newFile_empty : newFile.Empty := fun _ => ⟨rfl, rfl⟩

theorem mappers_agree_newFile : MappersAgree fs8192 newFile 4196363 :=
  (mappers_agree (.init newFile_empty) (by norm_num)).mpr (.inr (by
    have hN : fs8192.fs_nindir = 2048 := rfl
    rw [hN, NDADDR_eq]
    norm_num))

/-- Of the first block behind the third pointer `bmap` tells `EFBIG`, and a read is told a hole. -/
theorem third_level_disagrees : (files fs8192).Reachable newFile ∧ ¬MappersAgree fs8192 newFile 4196364 := by
  refine ⟨.init newFile_empty, not_mappers_agree (by norm_num) (by decide) ?_⟩
  have hN : levelStart fs8192.fs_nindir 2 = 4196352 := rfl
  rw [hN, NDADDR_eq]
  norm_num

end Runs

end Mappers

end Osf1.Bmap
