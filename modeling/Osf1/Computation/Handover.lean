import Osf1.Computation.Tally

/-!
# A counted queue that is handed over

Some parties put items into a queue and others take them from there; an item may also be given to a party at
once while the queue is empty.  Items are counted before they come to the queue, and the party that has got one
takes it off the count.  A notice may have been promised for an item when it was counted; it is given when
the item is returned, unless it has been called off before the item was taken off the count.

What is kept is that every item is at one place, that the count is right, that the items are got in the order
in which they came, and that the notices that have been given are those that are owed.
-/

set_option autoImplicit false

namespace Osf1.Computation

open Function List

variable {T : Type}

/-- How far an item is that a party has. -/
inductive Stage where
  | offered
  | counted
  | handed
  | settled
  deriving DecidableEq

/-- A queue, what the parties have, and what has happened. -/
structure Office (T : Type) where
  has : T → Option (ℕ × Stage)
  queue : List ℕ
  made : ℕ
  count : ℤ
  placed : List ℕ
  reached : List ℕ
  received : List ℕ
  promised : List ℕ
  dropped : List ℕ
  notified : List ℕ

namespace Office

/-- An item is in the queue, or a party has it that has counted it or has not taken it off the count. -/
def Open (o : Office T) (k : ℕ) : Prop :=
  k ∈ o.queue ∨ ∃ t, o.has t = some (k, .counted) ∨ o.has t = some (k, .handed)

/-- Where an item is. -/
inductive Place (T : Type) where
  | held (t : T) (g : Stage)
  | queue
  | received
  | gone

/-- The item is on the count. -/
def Place.counts : Place T → Bool
  | .held _ .counted => true
  | .held _ .handed => true
  | .queue => true
  | _ => false

/-- The item has come to the queue. -/
def Place.arrived : Place T → Bool
  | .held _ .handed => true
  | .held _ .settled => true
  | .queue => true
  | .received => true
  | _ => false

/-- Every item is at one place. -/
structure Located (o : Office T) (f : ℕ → Place T) : Prop where
  held : ∀ t k g, o.has t = some (k, g) ↔ k < o.made ∧ f k = .held t g
  queue : ∀ k, k ∈ o.queue ↔ k < o.made ∧ f k = .queue
  received : ∀ k, k ∈ o.received ↔ k < o.made ∧ f k = .received

/-- How many of the first items are on the count. -/
def total (f : ℕ → Place T) (n : ℕ) : ℤ := ∑ k ∈ Finset.range n, if (f k).counts then 1 else 0

/-- What is kept. -/
structure Sound (o : Office T) (f : ℕ → Place T) : Prop where
  located : o.Located f
  count : o.count = total f o.made
  order : o.placed = o.reached ++ o.queue
  arrived : ∀ k, k ∈ o.placed ↔ k < o.made ∧ (f k).arrived = true
  nodup : o.placed.Nodup
  once : o.received.Nodup
  promised : ∀ k ∈ o.promised, k < o.made ∧ ((f k).counts = true ∨ (f k).arrived = true)
  dropped : ∀ k ∈ o.dropped, k ∈ o.promised
  notified : ∀ k, k ∈ o.notified ↔ k ∈ o.received ∧ k ∈ o.promised ∧ k ∉ o.dropped
  noticeOnce : o.notified.Nodup

section Places

variable {o o' : Office T} {f : ℕ → Place T} {t t' : T} {g g' : Stage} {k : ℕ} {p : Place T} {l : List ℕ} {n : ℕ}

theorem Located.unique (h : o.Located f) (hk : o.has t = some (k, g)) (hk' : o.has t' = some (k, g')) :
    t' = t ∧ g' = g := by
  have hplace := ((h.held t k g).mp hk).2
  rw [((h.held t' k g').mp hk').2] at hplace
  cases hplace
  exact ⟨rfl, rfl⟩

theorem Located.not_queued (h : o.Located f) (hk : o.has t = some (k, g)) : k ∉ o.queue := by
  intro hmem
  have hplace := ((h.queue k).mp hmem).2
  rw [((h.held t k g).mp hk).2] at hplace
  cases hplace

theorem Located.not_received (h : o.Located f) (hk : o.has t = some (k, g)) : k ∉ o.received := by
  intro hmem
  have hplace := ((h.received k).mp hmem).2
  rw [((h.held t k g).mp hk).2] at hplace
  cases hplace

/-- One item has been moved. -/
theorem Located.move (h : o.Located f) (hk : k < o.made) (hmade : o'.made = o.made)
    (hheld : ∀ t k' g, o'.has t = some (k', g) ↔ k' ≠ k ∧ o.has t = some (k', g) ∨ k' = k ∧ p = .held t g)
    (hqueue : ∀ k', k' ∈ o'.queue ↔ k' ≠ k ∧ k' ∈ o.queue ∨ k' = k ∧ p = .queue)
    (hreceived : ∀ k', k' ∈ o'.received ↔ k' ≠ k ∧ k' ∈ o.received ∨ k' = k ∧ p = .received) :
    o'.Located (update f k p) := by
  have hput : ∀ k' q, (k' < o.made ∧ update f k p k' = q) ↔
      k' ≠ k ∧ (k' < o.made ∧ f k' = q) ∨ k' = k ∧ p = q := by
    intro k' q
    by_cases heq : k' = k
    · subst heq
      simp [hk]
    · simp [heq]
  refine ⟨fun t k' g => ?_, fun k' => ?_, fun k' => ?_⟩
  · rw [hheld, hmade, hput, h.held]
  · rw [hqueue, hmade, hput, h.queue]
  · rw [hreceived, hmade, hput, h.received]

/-- A list without an item, behind which it has been put. -/
theorem mem_append_iff (hk : k ∉ l) (k' : ℕ) : k' ∈ l ++ [k] ↔ k' ≠ k ∧ k' ∈ l ∨ k' = k := by
  rw [mem_append, mem_singleton]
  constructor
  · rintro (hmem | rfl)
    · left
      refine ⟨?_, hmem⟩
      rintro rfl
      exact hk hmem
    · exact .inr rfl
  · rintro (⟨_, hmem⟩ | rfl)
    · exact .inl hmem
    · exact .inr rfl

/-- A list without an item. -/
theorem mem_other_iff {q : Prop} (hk : k ∉ l) (hq : ¬q) (k' : ℕ) : k' ∈ l ↔ k' ≠ k ∧ k' ∈ l ∨ k' = k ∧ q := by
  constructor
  · intro hmem
    left
    refine ⟨?_, hmem⟩
    rintro rfl
    exact hk hmem
  · rintro (⟨_, hmem⟩ | ⟨_, hyes⟩)
    · exact hmem
    · exact absurd hyes hq

/-- The count changes by what an item leaves and what it comes to. -/
theorem total_update (f : ℕ → Place T) (hk : k < n) (p : Place T) :
    total (update f k p) n + (if (f k).counts then 1 else 0) = total f n + if p.counts then 1 else 0 :=
  sum_update (Finset.range n) (fun q : Place T => if q.counts then (1 : ℤ) else 0) f (Finset.mem_range.mpr hk) p

theorem total_same (hk : k < n) (hp : p.counts = (f k).counts) : total f n = total (update f k p) n := by
  have hupdate := total_update f hk p
  rw [hp] at hupdate
  omega

theorem total_in (hk : k < n) (hold : (f k).counts = false) (hp : p.counts = true) :
    total f n + 1 = total (update f k p) n := by
  have hupdate := total_update f hk p
  rw [hold, hp] at hupdate
  simp only [Bool.false_eq_true, if_false, if_true] at hupdate
  omega

theorem total_out (hk : k < n) (hold : (f k).counts = true) (hp : p.counts = false) :
    total f n - 1 = total (update f k p) n := by
  have hupdate := total_update f hk p
  rw [hold, hp] at hupdate
  simp only [Bool.false_eq_true, if_false, if_true] at hupdate
  omega

/-- The items that have come to the queue are the same. -/
theorem arrived_same (h : ∀ k', k' ∈ l ↔ k' < n ∧ (f k').arrived = true) (hsame : p.arrived = (f k).arrived) (k' : ℕ) :
    k' ∈ l ↔ k' < n ∧ (update f k p k').arrived = true := by
  rw [h]
  by_cases heq : k' = k
  · rw [heq, update_self, hsame]
  · rw [update_of_ne heq]

/-- One more item has come to the queue. -/
theorem arrived_add (h : ∀ k', k' ∈ l ↔ k' < n ∧ (f k').arrived = true) (hk : k < n) (hp : p.arrived = true) (k' : ℕ) :
    k' ∈ l ++ [k] ↔ k' < n ∧ (update f k p k').arrived = true := by
  rw [mem_append, mem_singleton, h]
  by_cases heq : k' = k
  · rw [heq, update_self]
    simp [hk, hp]
  · rw [update_of_ne heq]
    simp [heq]

/-- An item that has been promised a notice goes on. -/
theorem promised_on (h : ∀ k' ∈ l, k' < n ∧ ((f k').counts = true ∨ (f k').arrived = true))
    (hp : p.counts = true ∨ p.arrived = true) :
    ∀ k' ∈ l, k' < n ∧ ((update f k p k').counts = true ∨ (update f k p k').arrived = true) := by
  intro k' hmem
  refine ⟨(h k' hmem).1, ?_⟩
  by_cases heq : k' = k
  · rw [heq, update_self]
    exact hp
  · rw [update_of_ne heq]
    exact (h k' hmem).2

end Places

section Moves

variable [DecidableEq T] {o o' : Office T} {f : ℕ → Place T} {t t' : T} {g : Stage} {k : ℕ} {p : Place T}
  {x : Option (ℕ × Stage)}

def give (o : Office T) (t : T) (h : Option (ℕ × Stage)) : Office T := { o with has := update o.has t h }

/-- What the parties have when one of them has given an item away or got one. -/
theorem held_give (hothers : ∀ t₁ g, t₁ ≠ t → o.has t₁ ≠ some (k, g))
    (hown : ∀ k' g, o.has t = some (k', g) → k' = k) (hx : ∀ k' g, x = some (k', g) ↔ k' = k ∧ p = .held t g)
    (hp : ∀ t₁ g, p = .held t₁ g → t₁ = t) (t₁ : T) (k' : ℕ) (g : Stage) :
    update o.has t x t₁ = some (k', g) ↔
      k' ≠ k ∧ o.has t₁ = some (k', g) ∨ k' = k ∧ p = .held t₁ g := by
  by_cases ht : t₁ = t
  · subst ht
    rw [update_self, hx]
    constructor
    · exact .inr
    · rintro (⟨hne, hhas⟩ | hmove)
      · exact absurd (hown k' g hhas) hne
      · exact hmove
  · rw [update_of_ne ht]
    constructor
    · intro hhas
      left
      refine ⟨?_, hhas⟩
      rintro rfl
      exact hothers t₁ g ht hhas
    · rintro (⟨_, hhas⟩ | ⟨_, hplace⟩)
      · exact hhas
      · exact absurd (hp t₁ g hplace) ht

/-- The party gives its item away. -/
theorem Located.held_away (h : o.Located f) (hk : o.has t = some (k, g)) (hp : ∀ t₁ g, p ≠ .held t₁ g)
    (t₁ : T) (k' : ℕ) (g₁ : Stage) :
    update o.has t none t₁ = some (k', g₁) ↔
      k' ≠ k ∧ o.has t₁ = some (k', g₁) ∨ k' = k ∧ p = .held t₁ g₁ := by
  apply held_give
  · intro t₂ g₂ hne hhas
    exact hne (h.unique hk hhas).1
  · intro k₂ g₂ hhas
    rw [hk] at hhas
    cases hhas
    rfl
  · intro k₂ g₂
    simp [hp]
  · intro t₂ g₂ hplace
    exact absurd hplace (hp t₂ g₂)

/-- The party goes on with its item. -/
theorem Located.held_on (h : o.Located f) (hk : o.has t = some (k, g)) (g' : Stage) (t₁ : T) (k' : ℕ) (g₁ : Stage) :
    update o.has t (some (k, g')) t₁ = some (k', g₁) ↔
      k' ≠ k ∧ o.has t₁ = some (k', g₁) ∨ k' = k ∧ Place.held t g' = .held t₁ g₁ := by
  apply held_give
  · intro t₂ g₂ hne hhas
    exact hne (h.unique hk hhas).1
  · intro k₂ g₂ hhas
    rw [hk] at hhas
    cases hhas
    rfl
  · intro k₂ g₂
    simp [eq_comm]
  · intro t₂ g₂ hplace
    cases hplace
    rfl

/-- An item comes into being. -/
theorem Sound.make (h : o.Sound f) (ht : o.has t = none) :
    ({ o.give t (some (o.made, .offered)) with made := o.made + 1 } : Office T).Sound
      (update f o.made (.held t .offered)) := by
  have hput : ∀ k' q, q ≠ .held t .offered →
      ((k' < o.made + 1 ∧ update f o.made (.held t .offered) k' = q) ↔ k' < o.made ∧ f k' = q) := by
    intro k' q hq
    by_cases heq : k' = o.made
    · subst heq
      simp [Ne.symm hq]
    · rw [update_of_ne heq]
      constructor
      · rintro ⟨hlt, hplace⟩
        exact ⟨by omega, hplace⟩
      · rintro ⟨hlt, hplace⟩
        exact ⟨by omega, hplace⟩
  have hother : ∀ k' < o.made, update f o.made (.held t .offered) k' = f k' := fun k' hlt =>
    update_of_ne (Nat.ne_of_lt hlt) ..
  refine ⟨⟨?_, ?_, ?_⟩, ?_, h.order, ?_, h.nodup, h.once, ?_, h.dropped, h.notified, h.noticeOnce⟩
  · intro t₁ k' g
    change update o.has t (some (o.made, .offered)) t₁ = some (k', g) ↔
      k' < o.made + 1 ∧ update f o.made (.held t .offered) k' = .held t₁ g
    by_cases ht₁ : t₁ = t
    · subst ht₁
      rw [update_self]
      by_cases heq : k' = o.made
      · subst heq
        simp
      · rw [update_of_ne heq]
        constructor
        · intro hsome
          cases hsome
          exact absurd rfl heq
        · rintro ⟨hlt, hplace⟩
          have hhas := (h.located.held t₁ k' g).mpr ⟨by omega, hplace⟩
          rw [ht] at hhas
          cases hhas
    · rw [update_of_ne ht₁, hput, h.located.held]
      intro heq
      cases heq
      exact ht₁ rfl
  · intro k'
    change k' ∈ o.queue ↔ k' < o.made + 1 ∧ update f o.made (.held t .offered) k' = .queue
    rw [hput k' .queue (fun heq => nomatch heq), h.located.queue]
  · intro k'
    change k' ∈ o.received ↔ k' < o.made + 1 ∧ update f o.made (.held t .offered) k' = .received
    rw [hput k' .received (fun heq => nomatch heq), h.located.received]
  · change o.count = total _ (o.made + 1)
    unfold total
    rw [Finset.sum_range_succ, update_self, h.count]
    change total f o.made = _ + 0
    rw [add_zero]
    apply Finset.sum_congr rfl
    intro k' hk'
    rw [hother k' (Finset.mem_range.mp hk')]
  · intro k'
    change k' ∈ o.placed ↔ k' < o.made + 1 ∧ (update f o.made (.held t .offered) k').arrived = true
    rw [h.arrived]
    by_cases heq : k' = o.made
    · subst heq
      simp [Place.arrived]
    · rw [update_of_ne heq]
      constructor
      · rintro ⟨hlt, harrived⟩
        exact ⟨by omega, harrived⟩
      · rintro ⟨hlt, harrived⟩
        exact ⟨by omega, harrived⟩
  · intro k' hmem
    obtain ⟨hlt, hplace⟩ := h.promised k' hmem
    rw [hother k' hlt]
    exact ⟨Nat.lt_succ_of_lt hlt, hplace⟩

/-- An item that has been offered only is withdrawn. -/
theorem Sound.withdraw (h : o.Sound f) (hk : o.has t = some (k, .offered)) :
    (o.give t none).Sound (update f k .gone) := by
  obtain ⟨hlt, hplace⟩ := (h.located.held t k _).mp hk
  have hold : (Place.gone : Place T).arrived = (f k).arrived := by
    rw [hplace]
    rfl
  refine ⟨?_, ?_, h.order, arrived_same h.arrived hold, h.nodup, h.once, ?_, h.dropped, h.notified, h.noticeOnce⟩
  · apply h.located.move hlt
    · rfl
    · exact h.located.held_away hk nofun
    · exact mem_other_iff (h.located.not_queued hk) nofun
    · exact mem_other_iff (h.located.not_received hk) nofun
  · apply h.count.trans
    apply total_same hlt
    rw [hplace]
    rfl
  · intro k' hmem
    obtain ⟨hlt', hold'⟩ := h.promised k' hmem
    have hne : k' ≠ k := by
      rintro rfl
      rw [hplace] at hold'
      rcases hold' with hcounts | harrived
      · cases hcounts
      · cases harrived
    rw [update_of_ne hne]
    exact ⟨hlt', hold'⟩

/-- An item is counted, and a notice may be promised for it. -/
theorem Sound.counted (h : o.Sound f) (hk : o.has t = some (k, .offered)) (notice : Bool) :
    ({ o.give t (some (k, .counted)) with
      count := o.count + 1
      promised := if notice then o.promised ++ [k] else o.promised } : Office T).Sound
      (update f k (.held t .counted)) := by
  obtain ⟨hlt, hplace⟩ := (h.located.held t k _).mp hk
  have hold : Place.arrived (.held t .counted) = (f k).arrived := by
    rw [hplace]
    rfl
  have hon := promised_on (k := k) h.promised (p := .held t .counted) (.inl rfl)
  have hnot : k ∉ o.received := h.located.not_received hk
  refine ⟨?_, ?_, h.order, arrived_same h.arrived hold, h.nodup, h.once, ?_, ?_, ?_, h.noticeOnce⟩
  · apply h.located.move hlt
    · rfl
    · exact h.located.held_on hk .counted
    · exact mem_other_iff (h.located.not_queued hk) nofun
    · exact mem_other_iff hnot nofun
  · change o.count + 1 = _
    rw [h.count]
    apply total_in hlt _ rfl
    rw [hplace]
    rfl
  · intro k' hmem
    cases notice with
    | false => exact hon k' hmem
    | true =>
      rcases mem_append.mp hmem with hmem | hmem
      · exact hon k' hmem
      · obtain rfl := mem_singleton.mp hmem
        rw [update_self]
        exact ⟨hlt, .inl rfl⟩
  · intro k' hmem
    have hpromised := h.dropped k' hmem
    cases notice with
    | false => exact hpromised
    | true => exact mem_append_left _ hpromised
  · intro k'
    change k' ∈ o.notified ↔ k' ∈ o.received ∧ k' ∈ (if notice then o.promised ++ [k] else o.promised) ∧ k' ∉ o.dropped
    rw [h.notified]
    cases notice with
    | false => exact Iff.rfl
    | true =>
      rw [if_pos rfl, mem_append, mem_singleton]
      constructor
      · rintro ⟨hreceived, hpromised, hdropped⟩
        exact ⟨hreceived, .inl hpromised, hdropped⟩
      · rintro ⟨hreceived, hpromised | rfl, hdropped⟩
        · exact ⟨hreceived, hpromised, hdropped⟩
        · exact absurd hreceived hnot

omit [DecidableEq T] in
/-- An item that has not come to the queue yet. -/
theorem Sound.not_placed (h : o.Sound f) (hk : o.has t = some (k, .counted)) : k ∉ o.placed := by
  intro hmem
  have harrived := ((h.arrived k).mp hmem).2
  rw [((h.located.held t k _).mp hk).2] at harrived
  cases harrived

theorem nodup_concat {α : Type} {l : List α} {k : α} (h : l.Nodup) (hk : k ∉ l) : (l ++ [k]).Nodup := by
  rw [nodup_append]
  refine ⟨h, nodup_singleton k, ?_⟩
  rintro a ha b hb rfl
  rw [mem_singleton.mp hb] at ha
  exact hk ha

section

variable (h : o.Sound f)
include h

/-- An item is put into the queue. -/
theorem Sound.enqueue (hk : o.has t = some (k, .counted)) :
    ({ o.give t none with
      queue := o.queue ++ [k]
      placed := o.placed ++ [k] } : Office T).Sound (update f k .queue) := by
  obtain ⟨hlt, hplace⟩ := (h.located.held t k _).mp hk
  refine ⟨?_, ?_, ?_, arrived_add h.arrived hlt rfl, nodup_concat h.nodup (h.not_placed hk), h.once,
    promised_on h.promised (.inl rfl), h.dropped, h.notified, h.noticeOnce⟩
  · apply h.located.move hlt
    · rfl
    · exact h.located.held_away hk nofun
    · intro k'
      rw [mem_append_iff (h.located.not_queued hk)]
      simp
    · exact mem_other_iff (h.located.not_received hk) nofun
  · apply h.count.trans
    apply total_same hlt
    rw [hplace]
    rfl
  · change o.placed ++ [k] = o.reached ++ (o.queue ++ [k])
    rw [h.order, append_assoc]

/-- An item is given to a party at once. -/
theorem Sound.hand (hk : o.has t = some (k, .counted)) (ht' : o.has t' = none) (hempty : o.queue = []) :
    ({ (o.give t none).give t' (some (k, .handed)) with
      placed := o.placed ++ [k]
      reached := o.reached ++ [k] } : Office T).Sound (update f k (.held t' .handed)) := by
  obtain ⟨hlt, hplace⟩ := (h.located.held t k _).mp hk
  have haway := h.located.held_away hk (p := .gone) nofun
  have hne : t' ≠ t := by
    rintro rfl
    rw [hk] at ht'
    cases ht'
  refine ⟨?_, ?_, ?_, arrived_add h.arrived hlt rfl, nodup_concat h.nodup (h.not_placed hk), h.once,
    promised_on h.promised (.inl rfl), h.dropped, h.notified, h.noticeOnce⟩
  · apply h.located.move hlt
    · rfl
    · intro t₁ k' g
      have hgive := held_give (o := o.give t none) (t := t') (k := k) (x := some (k, .handed))
        (p := .held t' .handed) ?_ ?_ ?_ ?_ t₁ k' g
      · refine hgive.trans ?_
        change (k' ≠ k ∧ update o.has t none t₁ = some (k', g) ∨ _) ↔ _
        rw [haway]
        simp
      · intro t₂ g₂ _
        change update o.has t none t₂ ≠ some (k, g₂)
        intro hhas
        rw [haway] at hhas
        simp at hhas
      · intro k₂ g₂ hhas
        change update o.has t none t' = some (k₂, g₂) at hhas
        rw [update_of_ne hne, ht'] at hhas
        cases hhas
      · intro k₂ g₂
        simp [eq_comm]
      · intro t₂ g₂ heq
        cases heq
        rfl
    · exact mem_other_iff (h.located.not_queued hk) nofun
    · exact mem_other_iff (h.located.not_received hk) nofun
  · apply h.count.trans
    apply total_same hlt
    rw [hplace]
    rfl
  · change o.placed ++ [k] = o.reached ++ [k] ++ o.queue
    rw [h.order, hempty, append_nil, append_nil]

/-- The first item of the queue is taken. -/
theorem Sound.take {l : List ℕ} (ht : o.has t = none) (hfirst : o.queue = k :: l) :
    ({ o.give t (some (k, .handed)) with
      queue := l
      reached := o.reached ++ [k] } : Office T).Sound (update f k (.held t .handed)) := by
  have hmem : k ∈ o.queue := hfirst ▸ mem_cons_self
  obtain ⟨hlt, hplace⟩ := (h.located.queue k).mp hmem
  have hold : Place.arrived (.held t .handed) = (f k).arrived := by
    rw [hplace]
    rfl
  have hnobody : ∀ t₁ g, o.has t₁ ≠ some (k, g) := fun t₁ g hhas => h.located.not_queued hhas hmem
  have hnodup : (k :: l).Nodup := by
    have hboth := h.nodup
    rw [h.order, hfirst] at hboth
    exact (nodup_append.mp hboth).2.1
  refine ⟨?_, ?_, ?_, arrived_same h.arrived hold, h.nodup, h.once, promised_on h.promised (.inl rfl),
    h.dropped, h.notified, h.noticeOnce⟩
  · apply h.located.move hlt
    · rfl
    · apply held_give
      · exact fun t₁ g _ => hnobody t₁ g
      · intro k₂ g₂ hhas
        rw [ht] at hhas
        cases hhas
      · intro k₂ g₂
        simp [eq_comm]
      · intro t₂ g₂ heq
        cases heq
        rfl
    · intro k'
      rw [hfirst, mem_cons]
      constructor
      · intro hin
        left
        refine ⟨?_, .inr hin⟩
        rintro rfl
        exact (nodup_cons.mp hnodup).1 hin
      · rintro (⟨hne, heq | hin⟩ | ⟨_, heq⟩)
        · exact absurd heq hne
        · exact hin
        · cases heq
    · apply mem_other_iff _ nofun
      intro hreceived
      have hboth := ((h.located.received k).mp hreceived).2
      rw [hplace] at hboth
      cases hboth
  · apply h.count.trans
    apply total_same hlt
    rw [hplace]
    rfl
  · change o.placed = o.reached ++ [k] ++ l
    rw [h.order, hfirst, append_assoc]
    rfl

/-- An item is taken off the count. -/
theorem Sound.settle (hk : o.has t = some (k, .handed)) :
    ({ o.give t (some (k, .settled)) with count := o.count - 1 } : Office T).Sound
      (update f k (.held t .settled)) := by
  obtain ⟨hlt, hplace⟩ := (h.located.held t k _).mp hk
  have hold : Place.arrived (.held t .settled) = (f k).arrived := by
    rw [hplace]
    rfl
  refine ⟨?_, ?_, h.order, arrived_same h.arrived hold, h.nodup, h.once, promised_on h.promised (.inr rfl),
    h.dropped, h.notified, h.noticeOnce⟩
  · apply h.located.move hlt
    · rfl
    · exact h.located.held_on hk .settled
    · exact mem_other_iff (h.located.not_queued hk) nofun
    · exact mem_other_iff (h.located.not_received hk) nofun
  · change o.count - 1 = _
    rw [h.count]
    apply total_out hlt _ rfl
    rw [hplace]
    rfl

/-- An item is returned, and the notice that is owed for it is given. -/
theorem Sound.receive (hk : o.has t = some (k, .settled)) :
    ({ o.give t none with
      received := o.received ++ [k]
      notified := if k ∈ o.promised ∧ k ∉ o.dropped then o.notified ++ [k] else o.notified } : Office T).Sound
      (update f k .received) := by
  obtain ⟨hlt, hplace⟩ := (h.located.held t k _).mp hk
  have hold : (Place.received : Place T).arrived = (f k).arrived := by
    rw [hplace]
    rfl
  have hnot := h.located.not_received hk
  have hunnotified : k ∉ o.notified := fun hmem => hnot ((h.notified k).mp hmem).1
  refine ⟨?_, ?_, h.order, arrived_same h.arrived hold, h.nodup, nodup_concat h.once hnot,
    promised_on h.promised (.inr rfl), h.dropped, ?_, ?_⟩
  · apply h.located.move hlt
    · rfl
    · exact h.located.held_away hk nofun
    · exact mem_other_iff (h.located.not_queued hk) nofun
    · intro k'
      rw [mem_append_iff hnot]
      simp
  · apply h.count.trans
    apply total_same hlt
    rw [hplace]
    rfl
  · intro k'
    change k' ∈ (if k ∈ o.promised ∧ k ∉ o.dropped then o.notified ++ [k] else o.notified) ↔
      k' ∈ o.received ++ [k] ∧ k' ∈ o.promised ∧ k' ∉ o.dropped
    by_cases howed : k ∈ o.promised ∧ k ∉ o.dropped
    · rw [if_pos howed, mem_append, mem_append, mem_singleton, h.notified]
      constructor
      · rintro (⟨hreceived, hrest⟩ | rfl)
        · exact ⟨.inl hreceived, hrest⟩
        · exact ⟨.inr rfl, howed⟩
      · rintro ⟨hreceived | rfl, hrest⟩
        · exact .inl ⟨hreceived, hrest⟩
        · exact .inr rfl
    · rw [if_neg howed, mem_append, mem_singleton, h.notified]
      constructor
      · rintro ⟨hreceived, hrest⟩
        exact ⟨.inl hreceived, hrest⟩
      · rintro ⟨hreceived | rfl, hrest⟩
        · exact ⟨hreceived, hrest⟩
        · exact absurd hrest howed
  · change (if k ∈ o.promised ∧ k ∉ o.dropped then o.notified ++ [k] else o.notified).Nodup
    by_cases howed : k ∈ o.promised ∧ k ∉ o.dropped
    · rw [if_pos howed]
      exact nodup_concat h.noticeOnce hunnotified
    · rw [if_neg howed]
      exact h.noticeOnce

omit [DecidableEq T] in
/-- An item on the count has not been returned. -/
theorem Sound.open_not_received (hopen : o.Open k) : k ∉ o.received := by
  rcases hopen with hqueue | ⟨t, hhas | hhas⟩
  · intro hmem
    have hplace := ((h.located.received k).mp hmem).2
    rw [((h.located.queue k).mp hqueue).2] at hplace
    cases hplace
  · exact h.located.not_received hhas
  · exact h.located.not_received hhas

omit [DecidableEq T] in
/-- A notice is called off. -/
theorem Sound.drop (hopen : o.Open k) (hpromised : k ∈ o.promised) :
    ({ o with dropped := o.dropped ++ [k] } : Office T).Sound f := by
  have hnot := h.open_not_received hopen
  refine ⟨⟨h.located.held, h.located.queue, h.located.received⟩, h.count, h.order, h.arrived, h.nodup, h.once,
    h.promised, ?_, ?_, h.noticeOnce⟩
  · intro k' hmem
    rcases mem_append.mp hmem with hmem | hmem
    · exact h.dropped k' hmem
    · exact (mem_singleton.mp hmem) ▸ hpromised
  · intro k'
    rw [h.notified, mem_append, mem_singleton]
    constructor
    · rintro ⟨hreceived, hpromised', hdropped⟩
      refine ⟨hreceived, hpromised', ?_⟩
      rintro (hmem | rfl)
      · exact hdropped hmem
      · exact hnot hreceived
    · rintro ⟨hreceived, hpromised', hdropped⟩
      exact ⟨hreceived, hpromised', fun hmem => hdropped (.inl hmem)⟩

end

end Moves

section Results

variable {o o' : Office T} {f : ℕ → Place T} {t : T} {k : ℕ} {p : Place T}

variable (h : o.Sound f)
include h

theorem Sound.open_iff (k : ℕ) : o.Open k ↔ k < o.made ∧ (f k).counts = true := by
  constructor
  · rintro (hmem | ⟨t, hhas | hhas⟩)
    · obtain ⟨hlt, hplace⟩ := (h.located.queue k).mp hmem
      rw [hplace]
      exact ⟨hlt, rfl⟩
    · obtain ⟨hlt, hplace⟩ := (h.located.held t k _).mp hhas
      rw [hplace]
      exact ⟨hlt, rfl⟩
    · obtain ⟨hlt, hplace⟩ := (h.located.held t k _).mp hhas
      rw [hplace]
      exact ⟨hlt, rfl⟩
  · rintro ⟨hlt, hcounts⟩
    cases hplace : f k with
    | held t g =>
      have hhas := (h.located.held t k g).mpr ⟨hlt, hplace⟩
      rw [hplace] at hcounts
      cases g with
      | offered => cases hcounts
      | counted => exact .inr ⟨t, .inl hhas⟩
      | handed => exact .inr ⟨t, .inr hhas⟩
      | settled => cases hcounts
    | queue => exact .inl ((h.located.queue k).mpr ⟨hlt, hplace⟩)
    | received =>
      rw [hplace] at hcounts
      cases hcounts
    | gone =>
      rw [hplace] at hcounts
      cases hcounts

/-- What is on the count when one item has been moved. -/
theorem Sound.open_move (h' : o'.Sound (update f k p)) (hmade : o'.made = o.made) (hk : k < o.made)
    (k' : ℕ) : o'.Open k' ↔ k' ≠ k ∧ o.Open k' ∨ k' = k ∧ p.counts = true := by
  rw [h'.open_iff, h.open_iff, hmade]
  by_cases heq : k' = k
  · subst heq
    simp [hk]
  · simp [heq]

/-- What is on the count when an item has come into being. -/
theorem Sound.open_make (h' : o'.Sound (update f o.made p)) (hmade : o'.made = o.made + 1)
    (hp : p.counts = false) (k : ℕ) : o'.Open k ↔ o.Open k := by
  rw [h'.open_iff, h.open_iff, hmade]
  by_cases heq : k = o.made
  · subst heq
    simp [hp]
  · simp [heq, Nat.lt_succ_iff, Nat.le_iff_lt_or_eq]

/-- The item that has been moved stays on the count, or off it. -/
theorem Sound.open_same (h' : o'.Sound (update f k p)) (hmade : o'.made = o.made) (hk : k < o.made)
    (hp : p.counts = (f k).counts) (k' : ℕ) : o'.Open k' ↔ o.Open k' := by
  rw [h.open_move h' hmade hk, h.open_iff]
  by_cases heq : k' = k
  · subst heq
    simp [hk, hp]
  · simp [heq]

/-- The count is the number of the items that are on it. -/
theorem Sound.count_length : ∃ l : List ℕ, l.Nodup ∧ (∀ k, k ∈ l ↔ o.Open k) ∧ o.count = l.length := by
  refine ⟨{k ∈ Finset.range o.made | (f k).counts = true}.toList, Finset.nodup_toList _, ?_, ?_⟩
  · intro k
    rw [Finset.mem_toList, Finset.mem_filter, Finset.mem_range, h.open_iff]
  · rw [h.count, total, Finset.sum_boole, Finset.length_toList]

/-- Where an item is that has come to the queue. -/
theorem Sound.arrived_at (hk : k ∈ o.placed) :
    k ∈ o.queue ∨ (∃ t, o.has t = some (k, .handed) ∨ o.has t = some (k, .settled)) ∨ k ∈ o.received := by
  obtain ⟨hlt, harrived⟩ := (h.arrived k).mp hk
  cases hplace : f k with
  | held t g =>
    have hhas := (h.located.held t k g).mpr ⟨hlt, hplace⟩
    rw [hplace] at harrived
    cases g with
    | offered => cases harrived
    | counted => cases harrived
    | handed => exact .inr (.inl ⟨t, .inl hhas⟩)
    | settled => exact .inr (.inl ⟨t, .inr hhas⟩)
  | queue => exact .inl ((h.located.queue k).mpr ⟨hlt, hplace⟩)
  | received => exact .inr (.inr ((h.located.received k).mpr ⟨hlt, hplace⟩))
  | gone =>
    rw [hplace] at harrived
    cases harrived

theorem Sound.held_placed (hk : o.has t = some (k, .handed) ∨ o.has t = some (k, .settled)) : k ∈ o.placed := by
  rcases hk with hk | hk
  · obtain ⟨hlt, hplace⟩ := (h.located.held t k _).mp hk
    rw [h.arrived, hplace]
    exact ⟨hlt, rfl⟩
  · obtain ⟨hlt, hplace⟩ := (h.located.held t k _).mp hk
    rw [h.arrived, hplace]
    exact ⟨hlt, rfl⟩

theorem Sound.received_placed (hk : k ∈ o.received) : k ∈ o.placed := by
  obtain ⟨hlt, hplace⟩ := (h.located.received k).mp hk
  rw [h.arrived, hplace]
  exact ⟨hlt, rfl⟩

theorem Sound.queue_not_received (hk : k ∈ o.queue) : k ∉ o.received := by
  intro hmem
  have hplace := ((h.located.received k).mp hmem).2
  rw [((h.located.queue k).mp hk).2] at hplace
  cases hplace

/-- The items that have been got are those that parties have or have returned. -/
theorem Sound.reached_iff (k : ℕ) :
    k ∈ o.reached ↔ (∃ t, o.has t = some (k, .handed) ∨ o.has t = some (k, .settled)) ∨ k ∈ o.received := by
  have hnodup := h.nodup
  rw [h.order, nodup_append] at hnodup
  have hplaced : k ∈ o.placed ↔ k ∈ o.reached ∨ k ∈ o.queue := by
    rw [h.order, mem_append]
  constructor
  · intro hmem
    rcases h.arrived_at (hplaced.mpr (.inl hmem)) with hqueue | hrest
    · exact absurd rfl (hnodup.2.2 k hmem k hqueue)
    · exact hrest
  · rintro (⟨t, hhas⟩ | hmem)
    · rcases hplaced.mp (h.held_placed hhas) with hreached | hqueue
      · exact hreached
      · rcases hhas with hhas | hhas
        · exact absurd hqueue (h.located.not_queued hhas)
        · exact absurd hqueue (h.located.not_queued hhas)
    · rcases hplaced.mp (h.received_placed hmem) with hreached | hqueue
      · exact hreached
      · exact absurd hmem (h.queue_not_received hqueue)

end Results

end Office

end Osf1.Computation
