import Mathlib

/-!
# The search for a cylinder group with space

`hashalloc` asks the allocator for one cylinder group after another until it gets something.
-/

set_option autoImplicit false

namespace Osf1.Bmap.Hashalloc

section Model

variable {σ : Type}

/-- How a search ends, and the calls of the allocator: the group, the preference, and what it returned. -/
structure Search (σ : Type) where
  result : ℕ
  state : σ
  calls : List (ℤ × ℤ × ℕ)

/-- The allocator may change the file system; it is given `ip` and `size` too, which are the same in every call. -/
def tryGroup (allocator : σ → ℤ → ℤ → ℕ × σ) (s : σ) (cg pref : ℤ) (next : σ → Search σ) : Search σ :=
  let (result, s) := allocator s cg pref
  let r := if result ≠ 0 then ⟨result, s, []⟩ else next s
  { r with calls := (cg, pref, result) :: r.calls }

/-- SRC: ufs/ufs_alloc.c:749-756 -/
def bruteForce (allocator : σ → ℤ → ℤ → ℕ × σ) (fs_ncg i cg : ℤ) (s : σ) : Search σ :=
  if i < fs_ncg then
    tryGroup allocator s cg 0 fun s => bruteForce allocator fs_ncg (i + 1) (if cg + 1 = fs_ncg then 0 else cg + 1) s
  else ⟨0, s, []⟩
termination_by (fs_ncg - i).toNat

/-- The quadratic rehash, from the turn in which `i` is `2 ^ k`.  The values stay below `2 * fs_ncg`.
SRC: ufs/ufs_alloc.c:732-748 -/
def rehash (allocator : σ → ℤ → ℤ → ℕ × σ) (fs_ncg icg : ℤ) (k : ℕ) (cg : ℤ) (s : σ) : Search σ :=
  if (2 : ℤ) ^ k < fs_ncg then
    let cg := if fs_ncg ≤ cg + 2 ^ k then cg + 2 ^ k - fs_ncg else cg + 2 ^ k
    tryGroup allocator s cg 0 (rehash allocator fs_ncg icg (k + 1) cg)
  else bruteForce allocator fs_ncg 2 ((icg + 2) % fs_ncg) s
termination_by (fs_ncg - 2 ^ k).toNat
decreasing_by
  have hpos : (0 : ℤ) < 2 ^ k := Int.pow_pos (by decide)
  omega

/-- SRC: ufs/ufs_alloc.c:714-758 -/
def hashalloc (allocator : σ → ℤ → ℤ → ℕ × σ) (fs_ncg : ℤ) (s : σ) (cg pref : ℤ) : Search σ :=
  tryGroup allocator s cg pref (rehash allocator fs_ncg cg 0 cg)

end Model

section Search

variable {σ : Type} {allocator : σ → ℤ → ℤ → ℕ × σ} {fs_ncg icg cg pref i : ℤ} {s : σ} {next : σ → Search σ} {k : ℕ}

/-- The group has been asked for space, and has none. -/
def Search.Failed (r : Search σ) (cg : ℤ) : Prop := ∃ pref, (cg, pref, 0) ∈ r.calls

/-- All calls are for groups that there are, and when nothing has been found a set of groups has failed. -/
structure Search.Tried (fs_ncg : ℤ) (P : ℤ → Prop) (r : Search σ) : Prop where
  bounds : ∀ c ∈ r.calls, 0 ≤ c.1 ∧ c.1 < fs_ncg
  failed : r.result = 0 → ∀ g, P g → r.Failed g

theorem Tried.tryGroup {P Q : ℤ → Prop} (hcg : 0 ≤ cg ∧ cg < fs_ncg) (hnext : ∀ s, (next s).Tried fs_ncg P)
    (hQ : ∀ g, Q g → g = cg ∨ P g) : (tryGroup allocator s cg pref next).Tried fs_ncg Q := by
  unfold Hashalloc.tryGroup
  obtain ⟨result, s'⟩ := allocator s cg pref
  by_cases h : result = 0
  · subst h
    refine ⟨List.forall_mem_cons.mpr ⟨hcg, (hnext s').bounds⟩, fun hr g hg => ?_⟩
    · rcases hQ g hg with rfl | hP
      · exact ⟨pref, List.mem_cons_self⟩
      · obtain ⟨p, hp⟩ := (hnext s').failed (by simpa using hr) g hP
        exact ⟨p, List.mem_cons_of_mem _ (by simpa using hp)⟩
  · simp only [ne_eq, h, not_false_eq_true, if_true]
    exact ⟨List.forall_mem_cons.mpr ⟨hcg, nofun⟩, fun hr => absurd hr h⟩

theorem bruteForce_tried (hcg : 0 ≤ cg ∧ cg < fs_ncg) :
    (bruteForce allocator fs_ncg i cg s).Tried fs_ncg fun g => ∃ t, 0 ≤ t ∧ t < fs_ncg - i ∧ g = (cg + t) % fs_ncg := by
  fun_induction bruteForce allocator fs_ncg i cg s with
  | case1 i cg s h ih =>
    refine Tried.tryGroup hcg (fun s => ih s (by split_ifs <;> omega)) ?_
    rintro g ⟨t, h0, hlt, rfl⟩
    by_cases ht : t = 0
    · left
      rw [ht, Int.add_zero, Int.emod_eq_of_lt hcg.1 hcg.2]
    · refine .inr ⟨t - 1, by omega, by omega, ?_⟩
      split_ifs with hwrap
      · have hsum : cg + t = t - 1 + fs_ncg := by omega
        rw [hsum, Int.add_emod_right, Int.zero_add]
      · congr 1
        omega
  | case2 i cg s h =>
    refine ⟨nofun, ?_⟩
    rintro - g ⟨t, h0, hlt, -⟩
    omega

/-- The brute force search leaves out the start, which has been asked first, and its successor, which is the first group
of the rehash. -/
theorem rehash_tried (hicg : 0 ≤ icg ∧ icg < fs_ncg) (hcg : 0 ≤ cg ∧ cg < fs_ncg) :
    (rehash allocator fs_ncg icg k cg s).Tried fs_ncg fun g => (∃ t, 2 ≤ t ∧ t < fs_ncg ∧ g = (icg + t) % fs_ncg) ∨
      (k = 0 ∧ 1 < fs_ncg ∧ g = (cg + 1) % fs_ncg) := by
  fun_induction rehash allocator fs_ncg icg k cg s with
  | case1 k cg s h cg' ih =>
    have hpos : (0 : ℤ) < 2 ^ k := Int.pow_pos (by decide)
    have hcg' : 0 ≤ cg' ∧ cg' < fs_ncg := by
      simp only [cg']
      split_ifs <;> omega
    refine Tried.tryGroup hcg' (fun s => ih s hcg') ?_
    rintro g (ht | ⟨rfl, hone, rfl⟩)
    · exact .inr (.inl ht)
    · left
      simp only [cg', pow_zero]
      split_ifs with hwrap
      · have hsum : cg + 1 = fs_ncg := by omega
        rw [hsum, Int.emod_self, Int.sub_self]
      · exact Int.emod_eq_of_lt (by omega) (by omega)
  | case2 k cg s h =>
    have hstart : 0 ≤ (icg + 2) % fs_ncg ∧ (icg + 2) % fs_ncg < fs_ncg :=
      ⟨Int.emod_nonneg _ (Int.ne_of_gt (Int.lt_of_le_of_lt hicg.1 hicg.2)), Int.emod_lt_of_pos _ (Int.lt_of_le_of_lt hicg.1 hicg.2)⟩
    have hb := @bruteForce_tried _ allocator _ _ 2 s hstart
    refine ⟨hb.bounds, fun hr g hg => hb.failed hr g ?_⟩
    rcases hg with ⟨t, h2, hlt, rfl⟩ | ⟨rfl, hone, -⟩
    · have hsum : icg + 2 + (t - 2) = icg + t := by omega
      exact ⟨t - 2, by omega, by omega, by rw [Int.emod_add_emod, hsum]⟩
    · rw [pow_zero] at h
      omega

theorem hashalloc_exhaustive (allocator : σ → ℤ → ℤ → ℕ × σ) (s : σ) (pref : ℤ) (h0 : 0 ≤ cg) (hcg : cg < fs_ncg) :
    (∀ c ∈ (hashalloc allocator fs_ncg s cg pref).calls, 0 ≤ c.1 ∧ c.1 < fs_ncg) ∧
    ((hashalloc allocator fs_ncg s cg pref).result = 0 →
      ∀ g, 0 ≤ g → g < fs_ncg → (hashalloc allocator fs_ncg s cg pref).Failed g) := by
  have ht : (hashalloc allocator fs_ncg s cg pref).Tried fs_ncg fun g => 0 ≤ g ∧ g < fs_ncg := by
    refine Tried.tryGroup ⟨h0, hcg⟩ (fun s => rehash_tried ⟨h0, hcg⟩ ⟨h0, hcg⟩) ?_
    rintro g ⟨hg, hlt⟩
    -- how far the group is behind the start
    have hsum : g = (cg + (g - cg) % fs_ncg) % fs_ncg := by
      rw [Int.add_emod_emod, Int.add_comm, Int.sub_add_cancel, Int.emod_eq_of_lt hg hlt]
    have hd := Int.emod_nonneg (g - cg) (show fs_ncg ≠ 0 by omega)
    have hd' := Int.emod_lt_of_pos (g - cg) (show 0 < fs_ncg by omega)
    generalize (g - cg) % fs_ncg = d at hsum hd hd'
    by_cases h2 : 2 ≤ d
    · exact .inr (.inl ⟨d, h2, hd', hsum⟩)
    · obtain rfl | rfl : d = 0 ∨ d = 1 := by omega
      · left
        rw [hsum, Int.add_zero, Int.emod_eq_of_lt h0 hcg]
      · exact .inr (.inr ⟨rfl, hd', hsum⟩)
  exact ⟨ht.bounds, fun hr g hg hlt => ht.failed hr g ⟨hg, hlt⟩⟩

/-- Three groups, the search from the last one. -/
theorem hashalloc_exhaustive_full :
    (∀ c ∈ (hashalloc (fun (_ : Unit) _ _ => (0, ())) 3 () 2 0).calls, 0 ≤ c.1 ∧ c.1 < 3) ∧
    ((hashalloc (fun (_ : Unit) _ _ => (0, ())) 3 () 2 0).result = 0 →
      ∀ g, 0 ≤ g → g < 3 → (hashalloc (fun (_ : Unit) _ _ => (0, ())) 3 () 2 0).Failed g) :=
  hashalloc_exhaustive _ () 0 (by decide) (by decide)

end Search

end Osf1.Bmap.Hashalloc
