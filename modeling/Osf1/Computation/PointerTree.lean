import Mathlib

/-!
# Trees of pointers

Nodes have numbers, and a node holds pointers to others. A few roots lead to trees of a fixed depth, each node
of which holds the same number of pointers.
-/

set_option autoImplicit false

namespace Osf1.Computation

variable {ρ : Type*}

/-- Where a list of indices leads to from a node. -/
def followPath (node : ℕ → ℕ → ℕ) : ℕ → List ℕ → ℕ
  | b, [] => b
  | b, i :: p => if b = 0 then 0 else followPath node (node b i) p

section Path

variable {node node' : ℕ → ℕ → ℕ} {b i : ℕ} {p q : List ℕ}

@[simp] theorem followPath_nil : followPath node b [] = b := rfl

@[simp] theorem followPath_zero : followPath node 0 p = 0 := by
  cases p <;> rfl

theorem followPath_cons (hb : b ≠ 0) : followPath node b (i :: p) = followPath node (node b i) p := if_neg hb

theorem followPath_append : followPath node b (p ++ q) = followPath node (followPath node b p) q := by
  induction p generalizing b with
  | nil => rfl
  | cons i p ih =>
    by_cases hb : b = 0
    · rw [hb, followPath_zero, followPath_zero, followPath_zero]
    · rw [List.cons_append, followPath_cons hb, followPath_cons hb]
      exact ih

theorem followPath_concat (hb : followPath node b p ≠ 0) :
    followPath node b (p ++ [i]) = node (followPath node b p) i := by
  rw [followPath_append, followPath_cons hb, followPath_nil]

/-- What is not met on the way does not matter. -/
theorem followPath_congr (h : ∀ q j s, p = q ++ j :: s → followPath node b q ≠ 0 →
    node' (followPath node b q) j = node (followPath node b q) j) : followPath node' b p = followPath node b p := by
  induction p generalizing b with
  | nil => rfl
  | cons i p ih =>
    by_cases hb : b = 0
    · rw [hb, followPath_zero, followPath_zero]
    have hi : node' b i = node b i := h [] i p rfl hb
    rw [followPath_cons hb, followPath_cons hb, hi]
    refine ih fun q j s hp hq => ?_
    have hstep : followPath node b (i :: q) = followPath node (node b i) q := followPath_cons hb
    have hcongr := h (i :: q) j s (by rw [hp]; rfl)
    rw [hstep] at hcongr
    exact hcongr hq

end Path

/-- Roots, and what the nodes hold. -/
structure Forest (ρ : Type*) where
  root : ρ → ℕ
  node : ℕ → ℕ → ℕ

/-- The depth of the tree below each root, and the number of pointers that a node holds. -/
structure ForestShape (ρ : Type*) where
  depth : ρ → ℕ
  width : ℕ

/-- A place for a pointer. -/
def ForestShape.Place (σ : ForestShape ρ) (x : ρ × List ℕ) : Prop :=
  x.2.length ≤ σ.depth x.1 ∧ ∀ i ∈ x.2, i < σ.width

namespace Forest

variable {σ : ForestShape ρ} {t t' : Forest ρ} {x y : ρ × List ℕ} {r : ρ} {p q : List ℕ} {a b i : ℕ}

/-- The pointer that is at a place. -/
def ptr (t : Forest ρ) (x : ρ × List ℕ) : ℕ := followPath t.node (t.root x.1) x.2

/-- No two pointers lead to the same node. -/
def Apart (t : Forest ρ) (σ : ForestShape ρ) : Prop :=
  ∀ x y, σ.Place x → σ.Place y → t.ptr x ≠ 0 → t.ptr x = t.ptr y → x = y

/-- No pointer leads to a node. -/
def Fresh (t : Forest ρ) (σ : ForestShape ρ) (b : ℕ) : Prop := b ≠ 0 ∧ ∀ x, σ.Place x → t.ptr x ≠ b

theorem place_append (h : σ.Place (r, p ++ q)) : σ.Place (r, p) := by
  refine ⟨?_, fun i hi => h.2 i (List.mem_append_left q hi)⟩
  have hlen := h.1
  simp only [List.length_append] at hlen
  simp only
  omega

theorem ptr_concat (hb : t.ptr (r, p) ≠ 0) : t.ptr (r, p ++ [i]) = t.node (t.ptr (r, p)) i := followPath_concat hb

/-- The pointers of a node that no pointer leads to do not matter. -/
theorem ptr_congr (hroot : t'.root = t.root) (hnode : ∀ a, a ≠ b → t'.node a = t.node a)
    (hb : t.Fresh σ b) (hy : σ.Place y) : t'.ptr y = t.ptr y := by
  unfold ptr
  rw [hroot]
  refine followPath_congr fun q j s hp _ => congrFun (hnode _ ?_) j
  exact hb.2 (y.1, q) (place_append (q := j :: s) (hp ▸ hy))

variable [DecidableEq ρ]

/-- Only the pointer at one place changes. -/
def Sets (σ : ForestShape ρ) (t t' : Forest ρ) (x : ρ × List ℕ) (b : ℕ) : Prop :=
  ∀ y, σ.Place y → t'.ptr y = if y = x then b else t.ptr y

/-- The new pointer may be the old one, or else one that leads to a fresh node. -/
theorem Apart.sets (ht : t.Apart σ) (hs : Sets σ t t' x b)
    (hb : ∀ y, σ.Place y → y ≠ x → t.ptr y ≠ b) : t'.Apart σ := by
  intro y z hy hz hne heq
  rw [hs y hy] at hne heq
  rw [hs z hz] at heq
  by_cases hyx : y = x
  · by_cases hzx : z = x
    · rw [hyx, hzx]
    · rw [if_pos hyx, if_neg hzx] at heq
      exact absurd heq.symm (hb z hz hzx)
  · by_cases hzx : z = x
    · rw [if_neg hyx, if_pos hzx] at heq
      exact absurd heq (hb y hy hyx)
    · rw [if_neg hyx] at hne heq
      rw [if_neg hzx] at heq
      exact ht y z hy hz hne heq

/-- A root is set.  If it is one of a tree, then it was 0, and the new node holds no pointers. -/
theorem sets_root (hroot : t'.root = fun r' => if r' = r then b else t.root r')
    (hnode : t'.node = t.node) (hold : 0 < σ.depth r → t.root r = 0)
    (hzero : 0 < σ.depth r → ∀ i < σ.width, t.node b i = 0) : Sets σ t t' (r, []) b := by
  rintro ⟨r', p⟩ hy
  unfold ptr
  rw [hroot, hnode]
  by_cases hr : r' = r
  · subst hr
    simp only [if_true]
    cases p with
    | nil => simp
    | cons i p =>
      have hdepth : 0 < σ.depth r' := Nat.lt_of_lt_of_le (Nat.succ_pos _) hy.1
      have hi : i < σ.width := hy.2 i (List.mem_cons_self ..)
      rw [if_neg (by simp), hold hdepth, followPath_zero]
      by_cases hb : b = 0
      · rw [hb, followPath_zero]
      · rw [followPath_cons hb, hzero hdepth i hi, followPath_zero]
  · simp only [if_neg hr]
    rw [if_neg fun h => hr (congrArg Prod.fst h)]

/-- A pointer of a node in a tree is set.  It was 0, and the new node holds no pointers. -/
theorem Apart.sets_child (ht : t.Apart σ) (hx : σ.Place (r, p ++ [i])) (ha : t.ptr (r, p) = a)
    (ha0 : a ≠ 0) (hold : t.node a i = 0) (hb : t.Fresh σ b) (hroot : t'.root = t.root)
    (hnode : ∀ c j, t'.node c j = if c = a ∧ j = i then b else t.node c j)
    (hzero : p.length + 1 < σ.depth r → ∀ j < σ.width, t.node b j = 0) : Sets σ t t' (r, p ++ [i]) b := by
  have hplace : σ.Place (r, p) := place_append hx
  have hba : b ≠ a := fun h => hb.2 _ hplace (ha.trans h.symm)
  have hto : t'.ptr (r, p) = a := by
    rw [← ha]
    unfold ptr
    rw [hroot]
    refine followPath_congr fun q j s hp _ => ?_
    rw [hnode, if_neg]
    rintro ⟨hqa, -⟩
    -- The node itself is not met on the way to it.
    have hq : σ.Place (r, q) := place_append (q := j :: s) (by rw [← hp]; exact hplace)
    have heq := ht (r, q) (r, p) hq hplace (by unfold ptr; rw [hqa]; exact ha0)
      (by rw [ha]; exact hqa)
    have hlen := congrArg List.length ((congrArg Prod.snd heq : q = p).trans hp)
    simp at hlen
  rintro ⟨r', p'⟩ hy
  by_cases hbelow : r' = r ∧ ∃ s, p' = p ++ i :: s
  · obtain ⟨rfl, s, rfl⟩ := hbelow
    have hchild : t'.node a i = b := by rw [hnode, if_pos ⟨rfl, rfl⟩]
    have hnew : t'.ptr (r', p ++ i :: s) = followPath t'.node b s := by
      rw [← hchild, ← followPath_cons ha0, ← hto]
      exact followPath_append
    have hwas : t.ptr (r', p ++ i :: s) = 0 := by
      have : t.ptr (r', p ++ i :: s) = followPath t.node (t.ptr (r', p)) (i :: s) := followPath_append
      rw [this, ha, followPath_cons ha0, hold, followPath_zero]
    rw [hnew, hwas]
    cases s with
    | nil => simp
    | cons j s =>
      have hlen := hy.1
      simp only [List.length_append, List.length_cons] at hlen
      have hj : j < σ.width := hy.2 j (by simp)
      rw [if_neg (by simp), followPath_cons hb.1, hnode, if_neg fun h => hba h.1,
        hzero (by omega) j hj, followPath_zero]
  · have hne : (r', p') ≠ (r, p ++ [i]) := by
      intro h
      cases h
      exact hbelow ⟨rfl, [], rfl⟩
    rw [if_neg hne]
    unfold ptr
    rw [hroot]
    refine followPath_congr fun q j s hp _ => ?_
    rw [hnode, if_neg]
    rintro ⟨hqa, rfl⟩
    have hq : σ.Place (r', q) := place_append (q := j :: s) (by rw [← hp]; exact hy)
    have heq := ht (r', q) (r, p) hq hplace (by unfold ptr; rw [hqa]; exact ha0)
      (by rw [ha]; exact hqa)
    cases heq
    exact hbelow ⟨rfl, s, hp⟩

end Forest

end Osf1.Computation
