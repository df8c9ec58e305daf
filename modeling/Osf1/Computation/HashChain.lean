import Osf1.Computation.Tally

/-!
# A hash table of ordered chains, built of links from a pool

Each class has a chain of links. A link names an item, and a chain is in ascending order of the keys of its
items.
-/

set_option autoImplicit false

namespace Osf1.Computation

open Function List

variable {ι σ : Type*} {key key' : σ → ℕ} {cls : ℕ → ℕ} {used : σ → Prop}
  {chain : ℕ → List (ι × σ)} {n c : ℕ} {free : List ι} {pool : Multiset ι}

/-- Every used item is on the chain of its class, once, and on no other, and every chain is in
ascending order. -/
structure Hashed (key : σ → ℕ) (cls : ℕ → ℕ) (used : σ → Prop)
    (chain : ℕ → List (ι × σ)) : Prop where
  mem_iff : ∀ c x, x ∈ (chain c).map Prod.snd ↔ used x ∧ cls (key x) = c
  nodup : ∀ c, ((chain c).map Prod.snd).Nodup
  sorted : ∀ c, (chain c).Pairwise fun a b => key a.2 ≤ key b.2

/-- The links of the chains of the classes below `n` and the free links are those of the pool. -/
def Pooled (n : ℕ) (chain : ℕ → List (ι × σ)) (free : List ι) (pool : Multiset ι) : Prop :=
  ∑ c ∈ Finset.range n, ((chain c).map Prod.fst : Multiset ι) + (free : Multiset ι) = pool

/-- Insert a link in front of the first one whose key is not smaller. -/
def insertLink (key : σ → ℕ) (e : ι × σ) (l : List (ι × σ)) : List (ι × σ) :=
  l.orderedInsert (fun a b => key a.2 ≤ key b.2) e

theorem insertLink_eq (key : σ → ℕ) (e : ι × σ) {l : List (ι × σ)} (h : l.Pairwise fun a b => key a.2 ≤ key b.2) :
    ∃ l₁ l₂, l = l₁ ++ l₂ ∧ insertLink key e l = l₁ ++ e :: l₂ ∧
      (∀ a ∈ l₁, key a.2 < key e.2) ∧ ∀ b ∈ l₂, key e.2 ≤ key b.2 := by
  induction l with
  | nil => exact ⟨[], [], rfl, rfl, by simp, by simp⟩
  | cons a l ih =>
    rw [pairwise_cons] at h
    by_cases ha : key e.2 ≤ key a.2
    · have hins : insertLink key e (a :: l) = e :: a :: l := by
        simp only [insertLink, orderedInsert_cons, if_pos ha]
      refine ⟨[], a :: l, rfl, hins, by simp, fun b hb => ?_⟩
      rcases mem_cons.mp hb with rfl | hb
      · exact ha
      · exact ha.trans (h.1 b hb)
    · obtain ⟨l₁, l₂, hl, hins, hlt, hle⟩ := ih h.2
      have hcons : insertLink key e (a :: l) = a :: insertLink key e l := by
        simp only [insertLink, orderedInsert_cons, if_neg ha]
      refine ⟨a :: l₁, l₂, by rw [hl, cons_append], by rw [hcons, hins, cons_append], fun b hb => ?_, hle⟩
      rcases mem_cons.mp hb with rfl | hb
      · omega
      · exact hlt b hb

theorem insertLink_perm (key : σ → ℕ) (e : ι × σ) (l : List (ι × σ)) : (insertLink key e l).Perm (e :: l) :=
  perm_orderedInsert ..

namespace Hashed

variable {c b : ℕ} {e : ι × σ} {x : σ}

variable (h : Hashed key cls used chain)
include h

theorem used_of_mem (he : e ∈ chain c) : used e.2 ∧ cls (key e.2) = c :=
  (h.mem_iff c e.2).mp (mem_map_of_mem he)

theorem exists_mem (hx : used x) : ∃ l, (l, x) ∈ chain (cls (key x)) := by
  obtain ⟨e, he, hex⟩ := mem_map.mp ((h.mem_iff _ x).mpr ⟨hx, rfl⟩)
  subst hex
  exact ⟨e.1, he⟩

/-- Only the keys of used items matter. -/
theorem congr_key (hkey : ∀ x, used x → key' x = key x) : Hashed key' cls used chain where
  mem_iff c x := by
    rw [h.mem_iff]
    exact and_congr_right fun hx => by rw [hkey x hx]
  nodup := h.nodup
  sorted c := (h.sorted c).imp_of_mem fun {a b} ha hb hab => by
    rwa [hkey _ (h.used_of_mem ha).1, hkey _ (h.used_of_mem hb).1]

theorem congr_used {used' : σ → Prop} (hused : ∀ x, used' x ↔ used x) : Hashed key cls used' chain where
  mem_iff c x := by rw [h.mem_iff, hused]
  nodup := h.nodup
  sorted := h.sorted

/-- An unused item is inserted under the key that it has, and gets a key of the same class that
fits at the place where it is. -/
theorem insert (hx : ¬used x) (l : ι)
    (hkey : ∀ y, used y → key' y = key y) (hcls : cls (key' x) = cls (key x)) (hfit : ∀ y, used y → cls (key y) = cls (key x) →
      (key y < key x → key y ≤ key' x) ∧ (key x ≤ key y → key' x ≤ key y)) :
    Hashed key' cls (fun y => y = x ∨ used y) (update chain (cls (key x)) (insertLink key (l, x) (chain (cls (key x))))) := by
  have hperm := (insertLink_perm key (l, x) (chain (cls (key x)))).map Prod.snd
  have hother := h.congr_key hkey
  constructor
  · intro c y
    by_cases hc : c = cls (key x)
    · subst hc
      rw [update_self, hperm.mem_iff, map_cons, mem_cons, hother.mem_iff]
      constructor
      · rintro (rfl | ⟨hy, hc⟩)
        · exact ⟨.inl rfl, hcls⟩
        · exact ⟨.inr hy, hc⟩
      · rintro ⟨rfl | hy, hc⟩
        · exact .inl rfl
        · exact .inr ⟨hy, hc⟩
    · rw [update_of_ne hc, hother.mem_iff]
      constructor
      · rintro ⟨hy, hcy⟩
        exact ⟨.inr hy, hcy⟩
      · rintro ⟨rfl | hy, hcy⟩
        · exact absurd (hcy.symm.trans hcls) hc
        · exact ⟨hy, hcy⟩
  · intro c
    by_cases hc : c = cls (key x)
    · subst hc
      rw [update_self, hperm.nodup_iff, map_cons, nodup_cons]
      exact ⟨fun hm => hx ((h.mem_iff _ x).mp hm).1, h.nodup _⟩
    · rw [update_of_ne hc]
      exact h.nodup c
  · intro c
    by_cases hc : c = cls (key x)
    · subst hc
      obtain ⟨l₁, l₂, hl, hins, hlt, hle⟩ := insertLink_eq key (l, x) (h.sorted (cls (key x)))
      have hsorted := hother.sorted (cls (key x))
      have hmem (a : ι × σ) (ha : a ∈ l₁ ∨ a ∈ l₂) :
          used a.2 ∧ cls (key a.2) = cls (key x) := by
        apply h.used_of_mem
        rw [hl]
        exact mem_append.mpr ha
      rw [update_self, hins]
      rw [hl, pairwise_append] at hsorted
      rw [pairwise_append, pairwise_cons]
      refine ⟨hsorted.1, ⟨fun b hb => ?_, hsorted.2.1⟩, fun a ha b hb => ?_⟩
      · obtain ⟨hub, hcb⟩ := hmem b (.inr hb)
        rw [hkey _ hub]
        exact (hfit _ hub hcb).2 (hle b hb)
      · rcases mem_cons.mp hb with rfl | hb
        · obtain ⟨hua, hca⟩ := hmem a (.inl ha)
          rw [hkey _ hua]
          exact (hfit _ hua hca).1 (hlt a ha)
        · exact hsorted.2.2 a ha b hb
    · rw [update_of_ne hc]
      exact hother.sorted c

/-- A link leaves its chain, and its item is not used any more. -/
theorem remove {l₁ l₂ : List (ι × σ)}
    (hc : chain c = l₁ ++ e :: l₂) (hkey : ∀ y, used y → y ≠ e.2 → key' y = key y) :
    Hashed key' cls (fun y => used y ∧ y ≠ e.2) (update chain c (l₁ ++ l₂)) := by
  have he : used e.2 ∧ cls (key e.2) = c := h.used_of_mem (by rw [hc]; simp)
  have hnodup := h.nodup c
  rw [hc, map_append, map_cons, nodup_middle, nodup_cons, ← map_append] at hnodup
  have hold : Hashed key cls (fun y => used y ∧ y ≠ e.2)
      (update chain c (l₁ ++ l₂)) := by
    constructor
    · intro d y
      by_cases hd : d = c
      · subst hd
        have hmem := h.mem_iff d y
        rw [hc, map_append, map_cons] at hmem
        rw [update_self]
        by_cases hy : y = e.2
        · subst hy
          simp only [ne_eq, not_true, and_false, false_and, iff_false]
          exact hnodup.1
        · rw [and_right_comm, ← hmem]
          simp [hy]
      · rw [update_of_ne hd, h.mem_iff]
        constructor
        · rintro ⟨hy, hcy⟩
          refine ⟨⟨hy, fun hye => ?_⟩, hcy⟩
          subst hye
          exact hd (hcy.symm.trans he.2)
        · rintro ⟨⟨hy, -⟩, hcy⟩
          exact ⟨hy, hcy⟩
    · intro d
      by_cases hd : d = c
      · subst hd
        rw [update_self]
        exact hnodup.2
      · rw [update_of_ne hd]
        exact h.nodup d
    · intro d
      by_cases hd : d = c
      · subst hd
        rw [update_self]
        have hsorted := h.sorted d
        rw [hc] at hsorted
        exact pairwise_remove hsorted
      · rw [update_of_ne hd]
        exact h.sorted d
  exact hold.congr_key fun y hy => hkey y hy.1 hy.2

/-- A search for a key that is not smaller than `b` fails only if no used item of the class has
one. -/
theorem find?_eq_none :
    (chain c).find? (fun e => decide (b ≤ key e.2)) = none ↔
      ∀ x, used x → cls (key x) = c → key x < b := by
  rw [List.find?_eq_none]
  constructor
  · intro hf x hx hc
    obtain ⟨l, hl⟩ := h.exists_mem hx
    rw [hc] at hl
    simpa using hf (l, x) hl
  · intro hf e he
    have := h.used_of_mem he
    simpa using hf e.2 this.1 this.2

/-- A search for a key that is not smaller than `b` ends at the smallest one of the class. -/
theorem find?_eq_some (he : (chain c).find? (fun e => decide (b ≤ key e.2)) = some e) :
    used e.2 ∧ cls (key e.2) = c ∧ b ≤ key e.2 ∧
      (∀ x, used x → cls (key x) = c → b ≤ key x → key e.2 ≤ key x) ∧
      (chain c).find? (fun a => decide (key a.2 = key e.2)) = some e := by
  have hmem := h.used_of_mem (mem_of_find?_eq_some he)
  obtain ⟨hb, l₁, l₂, hl, hlt⟩ := find?_eq_some_iff_append.mp he
  have hb : b ≤ key e.2 := by simpa using hb
  have hlt (a : ι × σ) (ha : a ∈ l₁) : key a.2 < b := by simpa using hlt a ha
  refine ⟨hmem.1, hmem.2, hb, fun x hx hc hbx => ?_, ?_⟩
  · obtain ⟨l, hx⟩ := h.exists_mem hx
    have hsorted := h.sorted c
    rw [hl, pairwise_append, pairwise_cons] at hsorted
    rw [hc, hl, mem_append, mem_cons] at hx
    rcases hx with hx | hx | hx
    · exact absurd hbx (not_le.mpr (hlt _ hx))
    · exact le_of_eq (congrArg (fun a => key a.2) hx.symm)
    · exact hsorted.2.1.1 _ hx
  · refine find?_eq_some_iff_append.mpr ⟨by simp, l₁, l₂, hl, fun a ha => ?_⟩
    have := hlt a ha
    have hne : key a.2 ≠ key e.2 := by omega
    simp [hne]

end Hashed

/-- A link moves from the free list to a chain. -/
theorem Pooled.insert {l : ι} {x : σ} (h : Pooled n chain (l :: free) pool) (hc : c < n) :
    Pooled n (update chain c (insertLink key (l, x) (chain c))) free pool := by
  have hperm : ((insertLink key (l, x) (chain c)).map Prod.fst : Multiset ι) =
      l ::ₘ ((chain c).map Prod.fst : Multiset ι) :=
    Multiset.coe_eq_coe.mpr ((insertLink_perm key (l, x) (chain c)).map Prod.fst)
  have hsum := sum_update (Finset.range n)
    (fun l : List (ι × σ) => (l.map Prod.fst : Multiset ι)) chain (Finset.mem_range.mpr hc)
    (insertLink key (l, x) (chain c))
  unfold Pooled at h ⊢
  rw [hperm, Multiset.add_cons, ← Multiset.cons_add] at hsum
  rw [add_right_cancel hsum, Multiset.cons_add, ← Multiset.add_cons, Multiset.cons_coe]
  exact h

/-- A link moves from a chain to the free list. -/
theorem Pooled.remove {l₁ l₂ : List (ι × σ)}
    {e : ι × σ} (h : Pooled n chain free pool) (hc : c < n) (he : chain c = l₁ ++ e :: l₂) :
    Pooled n (update chain c (l₁ ++ l₂)) (e.1 :: free) pool := by
  have hperm : ((chain c).map Prod.fst : Multiset ι) =
      e.1 ::ₘ ((l₁ ++ l₂).map Prod.fst : Multiset ι) := by
    rw [he, map_append, map_cons, map_append]
    exact Multiset.coe_eq_coe.mpr perm_middle
  have hsum := sum_update (Finset.range n)
    (fun l : List (ι × σ) => (l.map Prod.fst : Multiset ι)) chain (Finset.mem_range.mpr hc)
    (l₁ ++ l₂)
  unfold Pooled at h ⊢
  rw [hperm, Multiset.add_cons, ← Multiset.cons_add] at hsum
  rw [← h, ← add_right_cancel hsum, Multiset.cons_add, ← Multiset.add_cons, Multiset.cons_coe]

end Osf1.Computation
