import Mathlib

/-!
# Queues of records of cells

A record is a chain of cells, and the first cell of a record leads to the next record.  `Chain` and
`Queue` say that the memory holds a record or a queue, given as the list of its cells with their
addresses.
-/

set_option autoImplicit false

namespace Osf1.Computation.RecordQueue

open List Function

/-- A cell: what it holds, the next cell of the record, and the next record. -/
structure Cell (β : Type*) where
  val : β
  next : Option ℕ
  record : Option ℕ
deriving DecidableEq

/-- The memory: what is at an address, unless it is free. -/
abbrev Cells (β : Type*) := ℕ → Option (Cell β)

variable {β : Type*}

section Definitions

/-- Where a chain starts that is followed by `e`. -/
def link (l : List (ℕ × β)) (e : Option ℕ) : Option ℕ :=
  match l with
  | [] => e
  | c :: _ => some c.1

/-- Where a queue starts that is followed by `p`. -/
def start (q : List (List (ℕ × β))) (p : Option ℕ) : Option ℕ :=
  match q with
  | [] => p
  | r :: _ => link r none

/-- A chain of cells followed by `e`, whose first cell leads to the record `np`. -/
def Chain (mem : Cells β) (np : Option ℕ) : List (ℕ × β) → Option ℕ → Prop
  | [], _ => True
  | c :: l, e => mem c.1 = some ⟨c.2, link l e, np⟩ ∧ Chain mem none l e

/-- A queue of records followed by the record `p`. -/
def Queue (mem : Cells β) : List (List (ℕ × β)) → Option ℕ → Prop
  | [], _ => True
  | r :: q, p => r ≠ [] ∧ Chain mem (start q p) r none ∧ Queue mem q p

/-- The addresses of cells. -/
def addrs (l : List (ℕ × β)) : List ℕ := l.map Prod.fst

/-- What cells hold. -/
def vals (l : List (ℕ × β)) : List β := l.map Prod.snd

end Definitions

section Lists

variable {l l' : List (ℕ × β)} {q : List (List (ℕ × β))} {c : ℕ × β} {a : ℕ}

@[simp] theorem addrs_nil : addrs ([] : List (ℕ × β)) = [] := rfl

@[simp] theorem addrs_cons : addrs (c :: l) = c.1 :: addrs l := rfl

@[simp] theorem addrs_append : addrs (l ++ l') = addrs l ++ addrs l' := map_append

@[simp] theorem vals_nil : vals ([] : List (ℕ × β)) = [] := rfl

@[simp] theorem vals_cons : vals (c :: l) = c.2 :: vals l := rfl

@[simp] theorem vals_append : vals (l ++ l') = vals l ++ vals l' := map_append

@[simp] theorem vals_length : (vals l).length = l.length := length_map ..

@[simp] theorem vals_eq_nil : vals l = [] ↔ l = [] := map_eq_nil_iff

theorem mem_addrs_flatten : a ∈ addrs q.flatten ↔ ∃ r ∈ q, a ∈ addrs r := by
  simp only [addrs, mem_map, mem_flatten]
  constructor
  · rintro ⟨c, ⟨r, hr, hc⟩, rfl⟩
    exact ⟨r, hr, c, hc, rfl⟩
  · rintro ⟨r, hr, c, hc, rfl⟩
    exact ⟨c, ⟨r, hr, hc⟩, rfl⟩

end Lists

section Chains

variable {mem mem' : Cells β} {np e p : Option ℕ} {l l' : List (ℕ × β)} {a : ℕ} {x : β}

/-- Only the cells of the chain count. -/
theorem Chain.congr (h : Chain mem np l e) (hmem : ∀ b ∈ addrs l, mem' b = mem b) : Chain mem' np l e := by
  induction l generalizing np with
  | nil => trivial
  | cons c l ih =>
    obtain ⟨hc, hl⟩ := h
    refine ⟨(hmem c.1 (mem_cons_self ..)).trans hc, ih hl fun b hb => ?_⟩
    exact hmem b (mem_cons_of_mem _ hb)

theorem Chain.update (h : Chain mem np l e) (ha : a ∉ addrs l) (c : Option (Cell β)) :
    Chain (Function.update mem a c) np l e := by
  apply h.congr
  intro b hb
  apply update_of_ne
  rintro rfl
  exact ha hb

theorem link_append : link (l ++ l') e = link l (link l' e) := by
  cases l with
  | nil => rfl
  | cons c l => rfl

/-- The record that the first cell of the second part of a chain leads to. -/
def inner (l : List (ℕ × β)) (np : Option ℕ) : Option ℕ :=
  match l with
  | [] => np
  | _ :: _ => none

theorem chain_append : Chain mem np (l ++ l') e ↔ Chain mem np l (link l' e) ∧ Chain mem (inner l np) l' e := by
  induction l generalizing np with
  | nil => exact ⟨fun h => ⟨trivial, h⟩, fun h => h.2⟩
  | cons c l ih =>
    have hinner : inner l none = none := by
      cases l with
      | nil => rfl
      | cons => rfl
    rw [cons_append, Chain, Chain, link_append, ih, hinner, and_assoc]
    rfl

/-- The cell at the end of a chain. -/
theorem Chain.last (h : Chain mem np (l ++ [(a, x)]) e) : mem a = some ⟨x, e, inner l np⟩ := (chain_append.mp h).2.1

/-- The last cell of a chain is changed, and leads on elsewhere. -/
theorem Chain.setLast (h : Chain mem np (l ++ [(a, x)]) e) (ha : a ∉ addrs l) (y : β) (e' : Option ℕ) :
    Chain (Function.update mem a (some ⟨y, e', inner l np⟩)) np (l ++ [(a, y)]) e' := by
  obtain ⟨hl, -⟩ := chain_append.mp h
  refine chain_append.mpr ⟨hl.update ha _, ?_, trivial⟩
  exact update_self ..

/-- The first cell of a chain is changed, or leads to another record. -/
theorem Chain.setFront (h : Chain mem np ((a, x) :: l) e) (ha : a ∉ addrs l) (y : β) (np' : Option ℕ) :
    Chain (Function.update mem a (some ⟨y, link l e, np'⟩)) np' ((a, y) :: l) e :=
  ⟨update_self .., h.2.update ha _⟩

/-- A chain is told by its first cell. -/
theorem Chain.unique {np' : Option ℕ} (h : Chain mem np l none) (h' : Chain mem np' l' none)
    (heq : link l none = link l' none) : l = l' := by
  induction l generalizing l' np np' with
  | nil =>
    cases l' with
    | nil => rfl
    | cons c l' => cases heq
  | cons c l ih =>
    cases l' with
    | nil => cases heq
    | cons c' l' =>
      have ha : c.1 = c'.1 := Option.some_inj.mp heq
      have hcell := Option.some_inj.mp (h.1.symm.trans (ha ▸ h'.1))
      rw [ih h.2 h'.2 (congrArg Cell.next hcell), Prod.ext ha (congrArg Cell.val hcell)]

end Chains

section Queues

variable {mem mem' : Cells β} {np e p : Option ℕ} {q q' : List (List (ℕ × β))}
  {r : List (ℕ × β)} {a : ℕ}

/-- Only the cells of the queue count. -/
theorem Queue.congr (h : Queue mem q p) (hmem : ∀ b ∈ addrs q.flatten, mem' b = mem b) : Queue mem' q p := by
  induction q with
  | nil => trivial
  | cons r q ih =>
    obtain ⟨hne, hr, hq⟩ := h
    rw [flatten_cons, addrs_append] at hmem
    refine ⟨hne, hr.congr fun b hb => ?_, ih hq fun b hb => ?_⟩
    · exact hmem b (mem_append_left _ hb)
    · exact hmem b (mem_append_right _ hb)

theorem start_append : start (q ++ q') p = start q (start q' p) := by
  cases q with
  | nil => rfl
  | cons r q => rfl

theorem queue_append : Queue mem (q ++ q') p ↔ Queue mem q (start q' p) ∧ Queue mem q' p := by
  induction q with
  | nil => exact ⟨fun h => ⟨trivial, h⟩, fun h => h.2⟩
  | cons r q ih => rw [cons_append, Queue, Queue, ih, start_append, and_assoc, and_assoc]

theorem Queue.unique (h : Queue mem q none) (h' : Queue mem q' none) (heq : start q none = start q' none) : q = q' := by
  induction q generalizing q' with
  | nil =>
    cases q' with
    | nil => rfl
    | cons r q' =>
      obtain ⟨c, r, rfl⟩ := exists_cons_of_ne_nil h'.1
      cases heq
  | cons r q ih =>
    obtain ⟨c, r, rfl⟩ := exists_cons_of_ne_nil h.1
    cases q' with
    | nil => cases heq
    | cons r' q' =>
      obtain rfl := h.2.1.unique h'.2.1 heq
      rw [ih h.2.2 h'.2.2 (congrArg Cell.record (Option.some_inj.mp (h.2.1.1.symm.trans h'.2.1.1)))]

/-- The last record of a queue. -/
theorem Queue.last (h : Queue mem (q ++ [r]) p) : r ≠ [] ∧ Chain mem p r none := by
  obtain ⟨-, hne, hr, -⟩ := queue_append.mp h
  exact ⟨hne, hr⟩

end Queues

section Layout

variable {mem mem' : Cells β} {mb mb' : Option ℕ} {q q' q₁ q₂ cs cs' : List (List (ℕ × β))}
  {l l' r c : List (ℕ × β)} {a b : ℕ} {x y : β} {m n t : Multiset (ℕ × β)}

/-- The cells of a chain. -/
def block (l : List (ℕ × β)) : Multiset (ℕ × β) := l

@[simp] theorem block_nil : block ([] : List (ℕ × β)) = 0 := rfl

@[simp] theorem block_cons : block ((a, x) :: l) = {(a, x)} + block l := rfl

@[simp] theorem block_append : block (l ++ l') = block l + block l' := rfl

/-- The cells of records. -/
def cells (q : List (List (ℕ × β))) : Multiset (ℕ × β) := block q.flatten

@[simp] theorem cells_nil : cells ([] : List (List (ℕ × β))) = 0 := rfl

@[simp] theorem cells_cons : cells (r :: q) = block r + cells q := by
  simp [cells]

@[simp] theorem cells_append : cells (q ++ q') = cells q + cells q' := by
  simp [cells]

/-- The addresses of cells. -/
def places (m : Multiset (ℕ × β)) : Multiset ℕ := m.map Prod.fst

theorem places_add (m n : Multiset (ℕ × β)) : places (m + n) = places m + places n := Multiset.map_add ..

theorem mem_places_block : a ∈ places (block l) ↔ a ∈ addrs l := Iff.rfl

theorem mem_places_cells : a ∈ places (cells q) ↔ a ∈ addrs q.flatten := Iff.rfl

theorem mem_places_of_mem (hr : r ∈ q) (ha : a ∈ addrs r) : a ∈ places (cells q) :=
  mem_addrs_flatten.mpr ⟨r, hr, ha⟩

/-- The memory holds a queue, chains that are not in it, and nothing else. -/
structure Laid (mem : Cells β) (mb : Option ℕ) (q cs : List (List (ℕ × β))) : Prop where
  head : mb = start q none
  queue : Queue mem q none
  chains : ∀ c ∈ cs, ∃ np, Chain mem np c none
  nodup : (places (cells q + cells cs)).Nodup
  own : ∀ b, b ∉ places (cells q + cells cs) → mem b = none

/-- The cells are the same in both memories. -/
def Kept (mem mem' : Cells β) (m : Multiset (ℕ × β)) : Prop := ∀ b ∈ places m, mem' b = mem b

theorem kept_add : Kept mem mem' (m + n) ↔ Kept mem mem' m ∧ Kept mem mem' n := by
  simp only [Kept, places_add, Multiset.mem_add, or_imp, forall_and]

theorem Kept.chain {np e : Option ℕ} (hk : Kept mem mem' (block l)) (h : Chain mem np l e) : Chain mem' np l e :=
  h.congr hk

theorem Kept.queue {p : Option ℕ} (hk : Kept mem mem' (cells q)) (h : Queue mem q p) : Queue mem' q p := h.congr hk

theorem Kept.chains (hk : Kept mem mem' (cells cs)) (h : ∀ c ∈ cs, ∃ np, Chain mem np c none) :
    ∀ c ∈ cs, ∃ np, Chain mem' np c none := by
  intro c hc
  obtain ⟨np, hchain⟩ := h c hc
  exact ⟨np, hchain.congr fun b hb => hk b (mem_places_of_mem hc hb)⟩

/-- One cell is touched. -/
theorem touched_one (hframe : ∀ b, b ≠ a → mem' b = mem b) : ∀ b, b ∉ places {(a, x)} → mem' b = mem b := by
  intro b hb
  apply hframe
  rintro rfl
  exact hb (by simp [places])

theorem touched_update (mem : Cells β) (a : ℕ) (x : β) (c : Option (Cell β)) :
    ∀ b, b ∉ places {(a, x)} → Function.update mem a c b = mem b :=
  touched_one fun _ hb => update_of_ne hb ..

section

variable (h : Laid mem mb q cs)
include h

/-- The queue and the chains are made of the same cells as before, some of which were touched. -/
theorem Laid.rearrange (hcells : cells q + cells cs = t + n)
    (hframe : ∀ b, b ∉ places t → mem' b = mem b) (hcells' : places (cells q' + cells cs') = places (t + n))
    (hhead : mb' = start q' none) (hqueue : Queue mem' q' none)
    (hchains : ∀ c ∈ cs', ∃ np, Chain mem' np c none) : Laid mem' mb' q' cs' where
  head := hhead
  queue := hqueue
  chains := hchains
  nodup := by
    rw [hcells', ← hcells]
    exact h.nodup
  own b hb := by
    rw [hcells', places_add, Multiset.mem_add, not_or] at hb
    rw [hframe b hb.1]
    apply h.own
    rw [hcells, places_add, Multiset.mem_add, not_or]
    exact hb

/-- A cell of one part of the memory is not in the rest. -/
theorem Laid.apart (hcells : cells q + cells cs = m + n) (ha : a ∈ places m) : a ∉ places n := by
  have hnodup := h.nodup
  rw [hcells, places_add] at hnodup
  exact fun ha' => Multiset.disjoint_left.mp (Multiset.nodup_add.mp hnodup).2.2 ha ha'

/-- The cells of one part of the memory are at addresses of their own. -/
theorem Laid.nodup_addrs (hcells : cells q + cells cs = block l + n) : (addrs l).Nodup := by
  have hnodup := h.nodup
  rw [hcells, places_add] at hnodup
  exact (Multiset.nodup_add.mp hnodup).1

/-- What is not touched stays the same. -/
theorem Laid.kept (hcells : cells q + cells cs = t + n) (hframe : ∀ b, b ∉ places t → mem' b = mem b) :
    Kept mem mem' n := by
  intro b hb
  apply hframe
  intro ht
  exact h.apart hcells ht hb

end

/-- A chain becomes the first record. -/
theorem Laid.insertFront (h : Laid mem mb q (((a, x) :: l) :: cs))
    (hframe : ∀ b, b ≠ a → mem' b = mem b) (ha : mem' a = some ⟨x, link l none, start q none⟩) :
    Laid mem' (some a) (((a, x) :: l) :: q) cs := by
  have hcells : cells q + cells (((a, x) :: l) :: cs) = {(a, x)} + (block l + cells q + cells cs) := by
    rw [cells_cons, block_cons]
    abel
  obtain ⟨⟨hl, hq⟩, hcs⟩ := by simpa only [kept_add] using h.kept hcells (touched_one hframe)
  obtain ⟨⟨np, hchain⟩, hchains⟩ := forall_mem_cons.mp h.chains
  apply h.rearrange hcells (touched_one hframe)
  · rw [cells_cons, block_cons]
    simp only [add_assoc]
  · rfl
  · exact ⟨cons_ne_nil _ _, ⟨ha, hl.chain hchain.2⟩, hq.queue h.queue⟩
  · exact hcs.chains hchains

/-- A chain becomes the record behind another. -/
theorem Laid.insertBehind (h : Laid mem mb (q₁ ++ ((b, y) :: l') :: q₂) (((a, x) :: l) :: cs))
    (hframe : ∀ d, d ≠ a → d ≠ b → mem' d = mem d) (ha : mem' a = some ⟨x, link l none, start q₂ none⟩)
    (hb : mem' b = some ⟨y, link l' none, some a⟩) :
    Laid mem' mb (q₁ ++ ((b, y) :: l') :: ((a, x) :: l) :: q₂) cs := by
  have hcells : cells (q₁ ++ ((b, y) :: l') :: q₂) + cells (((a, x) :: l) :: cs) =
      ({(a, x)} + {(b, y)}) + (block l + block l' + cells q₁ + cells q₂ + cells cs) := by
    rw [cells_append, cells_cons, cells_cons, block_cons, block_cons]
    abel
  have htouched (d : ℕ) (hd : d ∉ places ({(a, x)} + {(b, y)})) : mem' d = mem d := by
    simp only [places, Multiset.map_add, Multiset.map_singleton, Multiset.mem_add,
      Multiset.mem_singleton, not_or] at hd
    exact hframe d hd.1 hd.2
  obtain ⟨⟨⟨⟨hl, hl'⟩, hk₁⟩, hk₂⟩, hcs⟩ := by simpa only [kept_add] using h.kept hcells htouched
  obtain ⟨hq₁, -, hr, hq₂⟩ := queue_append.mp h.queue
  obtain ⟨⟨np, hchain⟩, hchains⟩ := forall_mem_cons.mp h.chains
  apply h.rearrange hcells htouched
  · congr 1
    simp only [cells_append, cells_cons, block_cons]
    abel
  · rw [h.head, start_append, start_append]
    rfl
  · refine queue_append.mpr ⟨hk₁.queue hq₁, cons_ne_nil _ _, ⟨hb, hl'.chain hr.2⟩, ?_⟩
    exact ⟨cons_ne_nil _ _, ⟨ha, hl.chain hchain.2⟩, hk₂.queue hq₂⟩
  · exact hcs.chains hchains

/-- A record is cut behind its first cell, which may be changed. -/
theorem Laid.cut (h : Laid mem mb (q₁ ++ ((a, x) :: l) :: q₂) cs)
    (hframe : ∀ d, d ≠ a → mem' d = mem d) (ha : mem' a = some ⟨y, none, start q₂ none⟩) :
    Laid mem' mb (q₁ ++ [(a, y)] :: q₂) (l :: cs) := by
  have hcells : cells (q₁ ++ ((a, x) :: l) :: q₂) + cells cs =
      {(a, x)} + (block l + cells q₁ + cells q₂ + cells cs) := by
    rw [cells_append, cells_cons, block_cons]
    abel
  obtain ⟨⟨⟨hl, hk₁⟩, hk₂⟩, hcs⟩ := by simpa only [kept_add] using h.kept hcells (touched_one hframe)
  obtain ⟨hq₁, -, hr, hq₂⟩ := queue_append.mp h.queue
  apply h.rearrange hcells (touched_one hframe)
  · rw [cells_append, cells_cons, cells_cons, block_cons, block_nil]
    simp only [places_add]
    rw [show places {(a, y)} = places {(a, x)} from rfl]
    abel
  · rw [h.head, start_append, start_append]
    rfl
  · exact queue_append.mpr ⟨hk₁.queue hq₁, cons_ne_nil _ _, ⟨ha, trivial⟩, hk₂.queue hq₂⟩
  · exact forall_mem_cons.mpr ⟨⟨none, hl.chain hr.2⟩, hcs.chains h.chains⟩

/-- The first record is taken off the queue. -/
theorem Laid.detach (h : Laid mem mb (r :: q) cs) : Laid mem (start q none) q (r :: cs) := by
  have hcells : cells (r :: q) + cells cs = 0 + (cells q + cells (r :: cs)) := by
    rw [cells_cons, cells_cons]
    abel
  apply h.rearrange hcells (fun _ _ => rfl)
  · rw [zero_add]
  · rfl
  · exact h.queue.2.2
  · exact forall_mem_cons.mpr ⟨⟨_, h.queue.2.1⟩, h.chains⟩

/-- A chain without cells does not count. -/
theorem laid_nil : Laid mem mb q ([] :: cs) ↔ Laid mem mb q cs := by
  have hcells : cells ([] :: cs) = cells cs := by simp
  constructor
  · intro h
    exact ⟨h.head, h.queue, (forall_mem_cons.mp h.chains).2, hcells ▸ h.nodup, hcells ▸ h.own⟩
  · intro h
    exact ⟨h.head, h.queue, forall_mem_cons.mpr ⟨⟨none, trivial⟩, h.chains⟩, hcells.symm ▸ h.nodup,
      hcells.symm ▸ h.own⟩

/-- The first cell of a chain is freed. -/
theorem Laid.freeFront (h : Laid mem mb q (((a, x) :: l) :: cs)) :
    Laid (Function.update mem a none) mb q (l :: cs) := by
  have hcells : cells q + cells (((a, x) :: l) :: cs) = {(a, x)} + (cells q + cells (l :: cs)) := by
    abel
  have hnodup := h.nodup
  rw [hcells, places_add] at hnodup
  have hkept := h.kept hcells (touched_update mem a x none)
  rw [cells_cons, kept_add, kept_add] at hkept
  obtain ⟨hq, hl, hcs⟩ := hkept
  obtain ⟨⟨np, hchain⟩, hchains⟩ := forall_mem_cons.mp h.chains
  refine ⟨h.head, hq.queue h.queue, ?_, (Multiset.nodup_add.mp hnodup).2.1, fun d hd => ?_⟩
  · exact forall_mem_cons.mpr ⟨⟨none, hl.chain hchain.2⟩, hcs.chains hchains⟩
  · by_cases hda : d = a
    · rw [hda]
      exact update_self ..
    · rw [update_of_ne hda]
      apply h.own
      rw [hcells, places_add, Multiset.mem_add, not_or]
      exact ⟨by simpa [places] using hda, hd⟩

/-- The first cell of a chain is changed. -/
theorem Laid.setFront (h : Laid mem mb q (((a, x) :: l) :: cs)) (y : β) (np : Option ℕ) :
    Laid (Function.update mem a (some ⟨y, link l none, np⟩)) mb q (((a, y) :: l) :: cs) := by
  have hcells : cells q + cells (((a, x) :: l) :: cs) =
      {(a, x)} + (block l + cells q + cells cs) := by
    rw [cells_cons, block_cons]
    abel
  have hframe := touched_update mem a x (some ⟨y, link l none, np⟩)
  obtain ⟨⟨hl, hq⟩, hcs⟩ := by simpa only [kept_add] using h.kept hcells hframe
  obtain ⟨⟨_, hchain⟩, hchains⟩ := forall_mem_cons.mp h.chains
  apply h.rearrange hcells hframe
  · rw [← hcells]
    simp [places]
  · exact h.head
  · exact hq.queue h.queue
  · refine forall_mem_cons.mpr ⟨⟨np, ?_, hl.chain hchain.2⟩, hcs.chains hchains⟩
    exact update_self ..

/-- A chain is put behind another, whose last cell leads to it now. -/
theorem Laid.join (h : Laid mem mb q ((l ++ [(a, x)]) :: l' :: cs)) {np : Option ℕ}
    (hfirst : Chain mem np (l ++ [(a, x)]) none) (hl' : Chain mem none l' none) :
    Laid (Function.update mem a (some ⟨x, link l' none, inner l np⟩)) mb q
      ((l ++ [(a, x)] ++ l') :: cs) ∧
    Chain (Function.update mem a (some ⟨x, link l' none, inner l np⟩)) np (l ++ [(a, x)] ++ l') none := by
  have hcells : cells q + cells ((l ++ [(a, x)]) :: l' :: cs) =
      {(a, x)} + (block l + block l' + cells q + cells cs) := by
    simp only [cells_cons, block_append, block_cons, block_nil]
    abel
  have hframe := touched_update mem a x (some ⟨x, link l' none, inner l np⟩)
  obtain ⟨⟨⟨-, hk'⟩, hq⟩, hcs⟩ := by simpa only [kept_add] using h.kept hcells hframe
  have ha : a ∉ addrs l := by
    have hnot := h.apart (a := a) hcells (by simp [places])
    intro hmem
    exact hnot (by simp [places_add, mem_places_block, hmem])
  have hinner : inner (l ++ [(a, x)]) np = none := by
    cases l with
    | nil => rfl
    | cons => rfl
  have hchain : Chain (update mem a (some ⟨x, link l' none, inner l np⟩)) np
      (l ++ [(a, x)] ++ l') none := by
    refine chain_append.mpr ⟨hfirst.setLast ha x _, ?_⟩
    rw [hinner]
    exact hk'.chain hl'
  refine ⟨?_, hchain⟩
  apply h.rearrange hcells hframe
  · rw [← hcells]
    congr 1
    simp only [cells_cons, block_append]
    abel
  · exact h.head
  · exact hq.queue h.queue
  · have hchains := (forall_mem_cons.mp (forall_mem_cons.mp h.chains).2).2
    exact forall_mem_cons.mpr ⟨⟨np, hchain⟩, hcs.chains hchains⟩

/-- The last cells of a record and a chain give way to cells of the same addresses, the others are
freed. -/
theorem Laid.replace (h : Laid mem mb (q₁ ++ (l ++ [(a, x)]) :: q₂) (c :: cs)) {k : Option ℕ}
    (ha : mem a = some ⟨x, none, k⟩) (hr : Chain mem' k r none) (hfirst : link r none = some a)
    (hsub : (addrs r).Sublist (a :: addrs c)) (hframe : ∀ d, d ∉ a :: addrs c → mem' d = mem d)
    (hfreed : ∀ d ∈ addrs c, d ∉ addrs r → mem' d = none) : Laid mem' mb (q₁ ++ (l ++ r) :: q₂) cs := by
  obtain ⟨hq₁, -, hrec, hq₂⟩ := queue_append.mp h.queue
  obtain ⟨hl, hlast, -⟩ := chain_append.mp hrec
  have hk : inner l (start q₂ none) = k := congrArg (fun o => (o.map Cell.record).getD none)
    (hlast.symm.trans ha)
  have hcells : cells (q₁ ++ (l ++ [(a, x)]) :: q₂) + cells (c :: cs) =
      block ((a, x) :: c) + (block l + cells q₁ + cells q₂ + cells cs) := by
    simp only [cells_append, cells_cons, block_append, block_cons, block_nil]
    abel
  obtain ⟨⟨⟨hkl, hk₁⟩, hk₂⟩, hcs⟩ := by simpa only [kept_add] using h.kept hcells hframe
  have hstart : start ((l ++ r) :: q₂) none = start ((l ++ [(a, x)]) :: q₂) none := by
    show link (l ++ r) none = link (l ++ [(a, x)]) none
    rw [link_append, link_append, hfirst]
    rfl
  have hcells' : places (cells (q₁ ++ (l ++ r) :: q₂) + cells cs) =
      (addrs r : Multiset ℕ) + places (block l + cells q₁ + cells q₂ + cells cs) := by
    have : cells (q₁ ++ (l ++ r) :: q₂) + cells cs =
        block r + (block l + cells q₁ + cells q₂ + cells cs) := by
      simp only [cells_append, cells_cons, block_append]
      abel
    rw [this, places_add]
    rfl
  have hle : places (cells (q₁ ++ (l ++ r) :: q₂) + cells cs) ≤
      places (cells (q₁ ++ (l ++ [(a, x)]) :: q₂) + cells (c :: cs)) := by
    rw [hcells', hcells, places_add (block ((a, x) :: c))]
    exact add_le_add_left (Multiset.coe_le.mpr hsub.subperm) _
  refine ⟨?_, ?_, hcs.chains (forall_mem_cons.mp h.chains).2, Multiset.nodup_of_le hle h.nodup, fun d hd => ?_⟩
  · rw [h.head, start_append, start_append, hstart]
  · refine queue_append.mpr ⟨?_, ?_, chain_append.mpr ⟨?_, hk ▸ hr⟩, hk₂.queue hq₂⟩
    · rw [hstart]
      exact hk₁.queue hq₁
    · intro hnil
      rw [(append_eq_nil_iff.mp hnil).2] at hfirst
      cases hfirst
    · rw [hfirst]
      exact hkl.chain hl
  · rw [hcells', Multiset.mem_add, not_or] at hd
    by_cases hdc : d ∈ a :: addrs c
    · rcases mem_cons.mp hdc with rfl | hdc
      · cases r with
        | nil => cases hfirst
        | cons x r =>
          obtain rfl := Option.some_inj.mp hfirst
          exact absurd (mem_cons_self ..) hd.1
      · exact hfreed d hdc hd.1
    · rw [hframe d hdc]
      apply h.own
      rw [hcells, places_add, Multiset.mem_add, not_or]
      exact ⟨hdc, hd.2⟩

/-- The cells of a chain are put where the memory is free. -/
def place (mem : Cells β) : List (ℕ × β) → Cells β
  | [] => mem
  | c :: l => Function.update (place mem l) c.1 (some ⟨c.2, link l none, none⟩)

theorem place_of_not_mem (ha : a ∉ addrs l) : place mem l a = mem a := by
  induction l with
  | nil => rfl
  | cons c l ih =>
    rw [addrs_cons, mem_cons, not_or] at ha
    exact (update_of_ne ha.1 ..).trans (ih ha.2)

theorem chain_place (hnodup : (addrs l).Nodup) : Chain (place mem l) none l none := by
  induction l with
  | nil => trivial
  | cons c l ih =>
    obtain ⟨hc, hl⟩ := nodup_cons.mp hnodup
    exact ⟨update_self .., (ih hl).update hc _⟩

/-- A new chain is beside the queue and the other chains. -/
theorem Laid.place (h : Laid mem mb q cs) (hnodup : (addrs l).Nodup)
    (hfresh : ∀ a ∈ addrs l, a ∉ places (cells q + cells cs)) : Laid (place mem l) mb q (l :: cs) := by
  have hcells : cells q + cells (l :: cs) = block l + (cells q + cells cs) := by
    rw [cells_cons]
    abel
  obtain ⟨hq, hcs⟩ : Kept mem (RecordQueue.place mem l) (cells q) ∧ Kept mem (RecordQueue.place mem l) (cells cs) :=
    kept_add.mp fun d hd => place_of_not_mem fun hl => hfresh d hl hd
  refine ⟨h.head, hq.queue h.queue, ?_, ?_, fun d hd => ?_⟩
  · exact forall_mem_cons.mpr ⟨⟨none, chain_place hnodup⟩, hcs.chains h.chains⟩
  · rw [hcells, places_add]
    refine Multiset.nodup_add.mpr ⟨hnodup, h.nodup, Multiset.disjoint_left.mpr fun hd => ?_⟩
    exact hfresh _ hd
  · rw [hcells, places_add, Multiset.mem_add, not_or] at hd
    rw [place_of_not_mem hd.1, h.own d hd.2]

/-- A new cell in front of a chain. -/
theorem Laid.push (h : Laid mem mb q (l :: cs)) (hl : Chain mem none l none) (x : β)
    (hfresh : a ∉ places (cells q + cells (l :: cs))) :
    Laid (Function.update mem a (some ⟨x, link l none, none⟩)) mb q (((a, x) :: l) :: cs) ∧
      Chain (Function.update mem a (some ⟨x, link l none, none⟩)) none ((a, x) :: l) none := by
  have hcells : cells q + cells (((a, x) :: l) :: cs) = {(a, x)} + (cells q + cells (l :: cs)) := by
    abel
  have hkept : Kept mem (update mem a (some ⟨x, link l none, none⟩)) (cells q + cells (l :: cs)) := by
    intro d hd
    apply update_of_ne
    rintro rfl
    exact hfresh hd
  rw [cells_cons, kept_add, kept_add] at hkept
  obtain ⟨hq, hkl, hcs⟩ := hkept
  have hchain : Chain (update mem a (some ⟨x, link l none, none⟩)) none ((a, x) :: l) none :=
    ⟨update_self .., hkl.chain hl⟩
  refine ⟨⟨h.head, hq.queue h.queue, ?_, ?_, fun d hd => ?_⟩, hchain⟩
  · exact forall_mem_cons.mpr ⟨⟨none, hchain⟩, hcs.chains (forall_mem_cons.mp h.chains).2⟩
  · rw [hcells, places_add]
    exact Multiset.nodup_cons.mpr ⟨hfresh, h.nodup⟩
  · rw [hcells, places_add, Multiset.mem_add, not_or] at hd
    have hda : d ≠ a := by simpa [places] using hd.1
    rw [update_of_ne hda, h.own d hd.2]

theorem Chain.allocated {np e : Option ℕ} (h : Chain mem np l e) (ha : a ∈ addrs l) : mem a ≠ none := by
  induction l generalizing np with
  | nil => cases ha
  | cons c l ih =>
    rcases mem_cons.mp ha with rfl | ha
    · rw [h.1]
      exact Option.some_ne_none _
    · exact ih h.2 ha

theorem Queue.allocated {p : Option ℕ} (h : Queue mem q p) (ha : a ∈ addrs q.flatten) : mem a ≠ none := by
  induction q with
  | nil => cases ha
  | cons r q ih =>
    rw [flatten_cons, addrs_append, mem_append] at ha
    rcases ha with ha | ha
    · exact h.2.1.allocated ha
    · exact ih h.2.2 ha

/-- What is free is in none of the chains. -/
theorem Laid.not_mem_of_free (h : Laid mem mb q cs) (ha : mem a = none) : a ∉ places (cells q + cells cs) := by
  intro hmem
  rw [places_add, Multiset.mem_add] at hmem
  rcases hmem with hmem | hmem
  · exact h.queue.allocated hmem ha
  · obtain ⟨c, hc, hac⟩ := mem_addrs_flatten.mp (mem_places_cells.mp hmem)
    obtain ⟨np, hchain⟩ := h.chains c hc
    exact hchain.allocated hac ha

end Layout

end Osf1.Computation.RecordQueue
