import Mathlib

/-!
# Chains of forward links

Every address has a link to at most one other.  `Leads next a l b` says that from the link
`a` on, the links lead through the addresses of `l`, in order, and then on to `b`.
-/

set_option autoImplicit false

namespace Osf1.Computation

open List Function

section ForwardChain

/-- From `a` through `l` to `b`. -/
def Leads (next : ℕ → Option ℕ) : Option ℕ → List ℕ → Option ℕ → Prop
  | a, [], b => a = b
  | a, p :: l, b => a = some p ∧ Leads next (next p) l b

/-- The addresses met from `a` on, at most `fuel` of them. -/
def trail (next : ℕ → Option ℕ) : ℕ → Option ℕ → List ℕ
  | 0, _ => []
  | _ + 1, none => []
  | fuel + 1, some p => p :: trail next fuel (next p)

variable {next next' : ℕ → Option ℕ} {a b c : Option ℕ} {p q : ℕ} {l l' : List ℕ}

theorem leads_append : Leads next a (l ++ l') c ↔ ∃ b, Leads next a l b ∧ Leads next b l' c := by
  induction l generalizing a with
  | nil => simp [Leads]
  | cons p l ih => simp [Leads, ih, and_assoc]

/-- Only the links of the addresses on the way count. -/
theorem Leads.congr (h : Leads next a l b) (hnext : ∀ p ∈ l, next' p = next p) : Leads next' a l b := by
  induction l generalizing a with
  | nil => exact h
  | cons p l ih =>
    obtain ⟨ha, hl⟩ := h
    refine ⟨ha, ?_⟩
    rw [hnext p (mem_cons_self ..)]
    exact ih hl fun q hq => hnext q (mem_cons_of_mem _ hq)

theorem Leads.update (h : Leads next a l b) (hp : p ∉ l) (x : Option ℕ) : Leads (Function.update next p x) a l b :=
  h.congr fun q hq => by
    have hqp : q ≠ p := fun heq => hp (heq ▸ hq)
    exact update_of_ne hqp ..

/-- Following the links finds the chain, if there is enough fuel. -/
theorem Leads.trail_eq (h : Leads next a l none) {fuel : ℕ} (hfuel : l.length ≤ fuel) : trail next fuel a = l := by
  induction l generalizing a fuel with
  | nil =>
    obtain rfl : a = none := h
    cases fuel with
    | zero => rfl
    | succ fuel => rfl
  | cons p l ih =>
    obtain ⟨rfl, hl⟩ := h
    cases fuel with
    | zero => exact absurd hfuel (Nat.not_succ_le_zero _)
    | succ fuel => rw [trail, ih hl (Nat.le_of_succ_le_succ hfuel)]

/-- The chain goes on at the link of its last address. -/
theorem Leads.link (h : Leads next a (l ++ [q]) b) : next q = b := by
  obtain ⟨x, -, hx⟩ := leads_append.mp h
  exact hx.2

/-- Another address is linked behind the last one. -/
theorem Leads.push (h : Leads next a (l ++ [q]) none) (hq : q ∉ l) (hp : p ∉ l ++ [q]) :
    Leads (Function.update (Function.update next p none) q (some p)) a (l ++ [q] ++ [p]) none := by
  have hne : p ≠ q := fun heq => hp (heq ▸ mem_append_right _ (mem_cons_self ..))
  obtain ⟨x, hl, hx⟩ := leads_append.mp h
  refine leads_append.mpr ⟨some p, leads_append.mpr ⟨x, ?_, hx.1, ?_⟩, rfl, ?_⟩
  · exact (hl.update (fun hmem => hp (mem_append_left _ hmem)) none).update hq (some p)
  · exact update_self ..
  · rw [update_of_ne hne, update_self]
    rfl

/-- An address is linked in behind another one. -/
theorem Leads.insertBehind (h : Leads next a (l ++ q :: l') b) (hq : q ∉ l) (hq' : q ∉ l') (hp : p ∉ l ++ q :: l') :
    Leads (Function.update (Function.update next p (next q)) q (some p)) a (l ++ q :: p :: l') b := by
  have hpl : p ∉ l := fun hmem => hp (mem_append_left _ hmem)
  have hpq : p ≠ q := fun heq => hp (heq ▸ mem_append_right _ (mem_cons_self ..))
  have hpl' : p ∉ l' := fun hmem =>
    hp (mem_append_right _ (mem_cons_of_mem _ hmem))
  obtain ⟨x, hl, hx, hl'⟩ := leads_append.mp h
  refine leads_append.mpr ⟨x, (hl.update hpl _).update hq _, hx, ?_⟩
  rw [update_self]
  refine ⟨rfl, ?_⟩
  rw [update_of_ne hpq, update_self]
  exact (hl'.update hpl' _).update hq' _

/-- An address is taken out of the chain by linking around it. -/
theorem Leads.unlink (h : Leads next a (l ++ q :: p :: l') none) (hnodup : (l ++ q :: p :: l').Nodup) :
    Leads (Function.update next q (next p)) a (l ++ q :: l') none := by
  obtain ⟨x, hl, hx, hp, hl'⟩ := leads_append.mp h
  rw [nodup_append] at hnodup
  obtain ⟨-, htail, hdisj⟩ := hnodup
  have hql : q ∉ l := fun hmem => hdisj q hmem q (mem_cons_self ..) rfl
  have hql' : q ∉ l' := fun hmem =>
    (nodup_cons.mp htail).1 (mem_cons_of_mem _ hmem)
  refine leads_append.mpr ⟨x, hl.update hql _, hx, ?_⟩
  rw [update_self]
  exact hl'.update hql' _

end ForwardChain

/-!
## Doubly linked chains in a store

A store maps addresses to cells with a value and two links, and has one link of its own to
the first cell of a chain.  `Linked s l` says that the chain of `s` is the list `l` of
addresses and values, with every `next` and `prev` link as it should be.  A chain is taken
apart into the part in front of a place (`Front`) and the part behind it (`Back`), so that
the two link updates of an insertion or a deletion each concern one part.

A failed dereference is `none`: the lemmas say that on a linked chain there is none.
-/

section LinkedChain

variable {α : Type}

/-- A cell of a doubly linked chain. -/
structure Cell (α : Type) where
  val : α
  next : Option ℕ
  prev : Option ℕ

/-- A finite store of cells and the link to the first cell of a chain. -/
structure Store (α : Type) where
  cell : ℕ → Option (Cell α)
  head : Option ℕ
  bound : ℕ
  outside : ∀ p, bound ≤ p → cell p = none

/-- A zone allocator picks an address that is not in use. -/
structure Zone (α : Type) where
  pick : Store α → ℕ
  unused : ∀ s : Store α, s.cell (pick s) = none

/-- The allocator that hands out the first address past every address in use. -/
def Zone.fresh (α : Type) : Zone α where
  pick s := s.bound
  unused s := s.outside s.bound le_rfl

namespace Store

/-- Write a cell. -/
def put (s : Store α) (p : ℕ) (c : Cell α) : Store α where
  cell q := if q = p then some c else s.cell q
  head := s.head
  bound := max s.bound (p + 1)
  outside q hq := by
    have hne : q ≠ p := by omega
    simpa [hne] using s.outside q (by omega)

/-- Give a cell back to its zone. -/
def release (s : Store α) (p : ℕ) : Store α where
  cell q := if q = p then none else s.cell q
  head := s.head
  bound := s.bound
  outside q hq := by
    split
    · rfl
    · exact s.outside q hq

/-- Change the value of a cell. -/
def setVal (s : Store α) (p : ℕ) (x : α) : Option (Store α) := (s.cell p).map fun c => s.put p { c with val := x }

/-- Set the link that leads away from `q`: its `next`, or the head link. -/
def setNext (s : Store α) : Option ℕ → Option ℕ → Option (Store α)
  | none, n => some { s with head := n }
  | some q, n => (s.cell q).map fun c => s.put q { c with next := n }

/-- Set the `prev` link of `q`, if there is a cell. -/
def setPrev (s : Store α) : Option ℕ → Option ℕ → Option (Store α)
  | none, _ => some s
  | some q, n => (s.cell q).map fun c => s.put q { c with prev := n }

/-- The link that leads away from `q`. -/
def nextOf (s : Store α) : Option ℕ → Option (Option ℕ)
  | none => some s.head
  | some q => (s.cell q).map Cell.next

/-- Take a cell out of its chain and give it back. -/
def unlink (s : Store α) (p : ℕ) : Option (Store α) := do
  let c ← s.cell p
  let s ← s.setNext c.prev c.next
  let s ← s.setPrev c.next c.prev
  return s.release p

/-- Put a new cell into the chain after `q`, or first. -/
def insertAfter (zone : Zone α) (s : Store α) (q : Option ℕ) (x : α) : Option (Store α) := do
  let p := zone.pick s
  let n ← s.nextOf q
  let s := s.put p ⟨x, n, q⟩
  let s ← s.setPrev n (some p)
  s.setNext q (some p)

/-- The store whose chain is a given list, at the addresses from `0` on. -/
def ofList (l : List α) : Store α where
  cell p := l[p]?.map fun x =>
    ⟨x, if p + 1 < l.length then some (p + 1) else none, if p = 0 then none else some (p - 1)⟩
  head := if l = [] then none else some 0
  bound := l.length
  outside p hp := by simp [List.getElem?_eq_none hp]

/-- The values met by following `next` links for at most the given number of cells. -/
def walk (s : Store α) : ℕ → Option ℕ → List α
  | 0, _ => []
  | _ + 1, none => []
  | n + 1, some p =>
    match s.cell p with
    | none => []
    | some c => c.val :: s.walk n c.next

/-- The values of the chain, first to last. -/
def values (s : Store α) : List α := s.walk s.bound s.head

end Store

/-- The address of the first cell of a segment, or `n` if it is empty. -/
def firstOr (l : List (ℕ × α)) (n : Option ℕ) : Option ℕ :=
  match l with
  | [] => n
  | c :: _ => some c.1

/-- The address of the last cell of a segment, or `q` if it is empty. -/
def lastOr (q : Option ℕ) : List (ℕ × α) → Option ℕ
  | [] => q
  | c :: l => lastOr (some c.1) l

/-- The address at a place of the chain: `0` is no cell. -/
def place (l : List (ℕ × α)) : ℕ → Option ℕ
  | 0 => none
  | n + 1 => l[n]?.map Prod.fst

@[simp] theorem firstOr_nil (n : Option ℕ) : firstOr ([] : List (ℕ × α)) n = n := rfl

@[simp] theorem firstOr_cons (c : ℕ × α) (l : List (ℕ × α)) (n : Option ℕ) : firstOr (c :: l) n = some c.1 := rfl

@[simp] theorem lastOr_nil (q : Option ℕ) : lastOr q ([] : List (ℕ × α)) = q := rfl

@[simp] theorem lastOr_cons (q : Option ℕ) (c : ℕ × α) (l : List (ℕ × α)) :
    lastOr q (c :: l) = lastOr (some c.1) l := rfl

@[simp] theorem firstOr_append (l l' : List (ℕ × α)) (n : Option ℕ) :
    firstOr (l ++ l') n = firstOr l (firstOr l' n) := by
  cases l <;> rfl

@[simp] theorem lastOr_append (l l' : List (ℕ × α)) (q : Option ℕ) :
    lastOr q (l ++ l') = lastOr (lastOr q l) l' := by
  induction l generalizing q with
  | nil => rfl
  | cons c l ih => exact ih (some c.1)

/-- The address at the end of the front part of a chain. -/
theorem place_append_length (l l' : List (ℕ × α)) : place (l ++ l') l.length = lastOr none l := by
  induction l using reverseRecOn with
  | nil => rfl
  | append_singleton l c _ => simp [place]

theorem place_append_of_le {l : List (ℕ × α)} (l' : List (ℕ × α)) {n : ℕ}
    (h : n ≤ l.length) : place (l ++ l') n = place l n := by
  cases n with
  | zero => rfl
  | succ n => simp [place, getElem?_append_left (show n < l.length by omega)]

/-- Only the first place past the front part is the first cell of the back part. -/
theorem place_eq_iff {l l' : List (ℕ × α)} {c : ℕ × α} {n : ℕ}
    (hnd : ((l ++ c :: l').map Prod.fst).Nodup) (hn : n ≤ l.length + 1) :
    place (l ++ c :: l') n = some c.1 ↔ n = l.length + 1 := by
  constructor
  · intro h
    by_contra hne
    have hle : n ≤ l.length := by omega
    rw [place_append_of_le _ hle] at h
    cases n with
    | zero => cases h
    | succ n =>
      obtain ⟨d, hd, hdc⟩ := Option.map_eq_some_iff.mp h
      have hmem : c.1 ∈ l.map Prod.fst := mem_map.mpr ⟨d, mem_of_getElem? hd, hdc⟩
      rw [map_append, map_cons, nodup_append] at hnd
      exact hnd.2.2 _ hmem _ (mem_cons_self ..) rfl
  · rintro rfl
    simp [place]

/-- The cells of a segment entered from `q` and left to `n`. -/
def Seg (cell : ℕ → Option (Cell α)) (q : Option ℕ) : List (ℕ × α) → Option ℕ → Prop
  | [], _ => True
  | c :: l, n => cell c.1 = some ⟨c.2, firstOr l n, q⟩ ∧ Seg cell (some c.1) l n

theorem seg_append {cell : ℕ → Option (Cell α)} {l l' : List (ℕ × α)} {q n : Option ℕ} :
    Seg cell q (l ++ l') n ↔
      Seg cell q l (firstOr l' n) ∧ Seg cell (lastOr q l) l' n := by
  induction l generalizing q with
  | nil => simp [Seg]
  | cons c l ih => simp [Seg, ih, and_assoc]

/-- A segment depends on its own cells only. -/
theorem Seg.frame {cell cell' : ℕ → Option (Cell α)} {l : List (ℕ × α)} {q n : Option ℕ}
    (h : Seg cell q l n) (heq : ∀ p ∈ l.map Prod.fst, cell' p = cell p) : Seg cell' q l n := by
  induction l generalizing q with
  | nil => trivial
  | cons c l ih =>
    rw [map_cons, forall_mem_cons] at heq
    exact ⟨heq.1.trans h.1, ih h.2 heq.2⟩

/-- The part of a chain in front of a place, leading on to `n`. -/
structure Front (s : Store α) (l : List (ℕ × α)) (n : Option ℕ) : Prop where
  head : s.head = firstOr l n
  seg : Seg s.cell none l n

/-- The part of a chain behind a place, leading back to `q`. -/
def Back (s : Store α) (q : Option ℕ) (l : List (ℕ × α)) : Prop := Seg s.cell q l none

/-- The chain of the store is `l`. -/
structure Linked (s : Store α) (l : List (ℕ × α)) : Prop where
  front : Front s l none
  nodup : (l.map Prod.fst).Nodup

theorem linked_append {s : Store α} {l l' : List (ℕ × α)} :
    Linked s (l ++ l') ↔ Front s l (firstOr l' none) ∧ Back s (lastOr none l) l' ∧
      ((l ++ l').map Prod.fst).Nodup := by
  constructor
  · rintro ⟨⟨hhead, hseg⟩, hnd⟩
    obtain ⟨hf, hb⟩ := seg_append.mp hseg
    exact ⟨⟨by simpa using hhead, hf⟩, hb, hnd⟩
  · rintro ⟨⟨hhead, hf⟩, hb, hnd⟩
    exact ⟨⟨by simpa using hhead, seg_append.mpr ⟨hf, hb⟩⟩, hnd⟩

/-- The cell at a place of a chain. -/
theorem Linked.cell_eq {s : Store α} {l l' : List (ℕ × α)} {p : ℕ} {x : α} (h : Linked s (l ++ (p, x) :: l')) :
    s.cell p = some ⟨x, firstOr l' none, lastOr none l⟩ := by
  obtain ⟨-, hb, -⟩ := linked_append.mp h
  exact hb.1

theorem Front.frame {s s' : Store α} {l : List (ℕ × α)} {n : Option ℕ} (h : Front s l n)
    (hhead : s'.head = s.head) (heq : ∀ p ∈ l.map Prod.fst, s'.cell p = s.cell p) : Front s' l n :=
  ⟨hhead.trans h.head, h.seg.frame heq⟩

/-- Setting the link out of the front part. -/
theorem Front.setNext {s : Store α} {l : List (ℕ × α)} {n : Option ℕ} (h : Front s l n)
    (hnd : (l.map Prod.fst).Nodup) (n' : Option ℕ) :
    ∃ s', s.setNext (lastOr none l) n' = some s' ∧ Front s' l n' ∧
      ∀ p ∉ l.map Prod.fst, s'.cell p = s.cell p := by
  induction l using reverseRecOn with
  | nil => exact ⟨_, rfl, ⟨rfl, trivial⟩, fun _ _ => rfl⟩
  | append_singleton l c _ =>
    obtain ⟨hseg, hcell, -⟩ := seg_append.mp h.seg
    rw [map_append, nodup_append] at hnd
    have hc (p : ℕ) (hp : p ∈ l.map Prod.fst) : p ≠ c.1 := hnd.2.2 p hp c.1 (by simp)
    refine ⟨s.put c.1 ⟨c.2, n', lastOr none l⟩, ?_, ⟨?_, seg_append.mpr ⟨?_, ?_, trivial⟩⟩, ?_⟩
    · simp [Store.setNext, hcell]
    · simpa [Store.put] using h.head
    · exact hseg.frame fun p hp => by simp [Store.put, hc p hp]
    · simp [Store.put]
    · intro p hp
      have hne : p ≠ c.1 := by
        rintro rfl
        simp at hp
      simp [Store.put, hne]

/-- Setting the link back from the back part. -/
theorem Back.setPrev {s : Store α} {q : Option ℕ} {l : List (ℕ × α)} (h : Back s q l)
    (hnd : (l.map Prod.fst).Nodup) (q' : Option ℕ) :
    ∃ s', s.setPrev (firstOr l none) q' = some s' ∧ Back s' q' l ∧ s'.head = s.head ∧
      ∀ p ∉ l.map Prod.fst, s'.cell p = s.cell p := by
  cases l with
  | nil => exact ⟨s, rfl, trivial, rfl, fun _ _ => rfl⟩
  | cons c l =>
    obtain ⟨hcell, hseg⟩ := h
    rw [map_cons, nodup_cons] at hnd
    refine ⟨s.put c.1 ⟨c.2, firstOr l none, q'⟩, ?_, ⟨?_, ?_⟩, rfl, ?_⟩
    · simp [Store.setPrev, hcell]
    · simp [Store.put]
    · refine hseg.frame fun p hp => ?_
      have hne : p ≠ c.1 := by
        rintro rfl
        exact hnd.1 hp
      simp [Store.put, hne]
    · intro p hp
      have hne : p ≠ c.1 := by
        rintro rfl
        simp at hp
      simp [Store.put, hne]

/-- Taking a cell out of a chain. -/
theorem Linked.unlink {s : Store α} {l l' : List (ℕ × α)} {p : ℕ} {x : α} (h : Linked s (l ++ (p, x) :: l')) :
    ∃ s', s.unlink p = some s' ∧ Linked s' (l ++ l') := by
  obtain ⟨hf, ⟨hcell, hb⟩, hnd⟩ := linked_append.mp h
  rw [map_append, map_cons, nodup_append, nodup_cons] at hnd
  obtain ⟨hndl, ⟨hpl', hndl'⟩, hdis⟩ := hnd
  have hpl (r : ℕ) (hr : r ∈ l.map Prod.fst) : r ≠ p := hdis r hr p (mem_cons_self ..)
  have hll' (r : ℕ) (hr : r ∈ l.map Prod.fst) : r ∉ l'.map Prod.fst :=
    fun hr' => hdis r hr r (mem_cons_of_mem _ hr') rfl
  obtain ⟨s1, hs1, hf1, hout1⟩ := hf.setNext hndl (firstOr l' none)
  have hb1 : Back s1 (some p) l' := hb.frame fun r hr => hout1 r fun hr' => hll' r hr' hr
  obtain ⟨s2, hs2, hb2, hhead2, hout2⟩ := hb1.setPrev hndl' (lastOr none l)
  have hf2 : Front s2 l (firstOr l' none) := hf1.frame hhead2 fun r hr => hout2 r (hll' r hr)
  refine ⟨s2.release p, ?_, linked_append.mpr ⟨?_, ?_, ?_⟩⟩
  · simp [Store.unlink, hcell, hs1, hs2]
  · exact hf2.frame rfl fun r hr => by simp [Store.release, hpl r hr]
  · refine hb2.frame fun r hr => ?_
    have hne : r ≠ p := by
      rintro rfl
      exact hpl' hr
    simp [Store.release, hne]
  · rw [map_append, nodup_append]
    exact ⟨hndl, hndl', fun r hr r' hr' => hdis r hr r' (mem_cons_of_mem _ hr')⟩

/-- Putting a new cell into a chain. -/
theorem Linked.insertAfter (zone : Zone α) {s : Store α} {l l' : List (ℕ × α)} (h : Linked s (l ++ l')) (x : α) :
    ∃ s', s.insertAfter zone (lastOr none l) x = some s' ∧
      Linked s' (l ++ (zone.pick s, x) :: l') := by
  set p := zone.pick s with hp
  have hfresh : ∀ r ∈ (l ++ l').map Prod.fst, r ≠ p := by
    rintro r hr rfl
    obtain ⟨c, hc, hcp⟩ := mem_map.mp hr
    obtain ⟨m, m', hm⟩ := append_of_mem hc
    rw [hm] at h
    have := h.cell_eq (p := c.1) (x := c.2)
    rw [hcp, zone.unused s] at this
    cases this
  obtain ⟨hf, hb, hnd⟩ := linked_append.mp h
  have hnext : s.nextOf (lastOr none l) = some (firstOr l' none) := by
    induction l using reverseRecOn with
    | nil => simp [Store.nextOf, hf.head]
    | append_singleton l c _ =>
      obtain ⟨-, hcell, -⟩ := seg_append.mp hf.seg
      simp [Store.nextOf, hcell]
  rw [map_append] at hfresh hnd
  obtain ⟨hndl, hndl', hdis⟩ := nodup_append.mp hnd
  have hpl : p ∉ l.map Prod.fst := fun hr => hfresh p (mem_append_left _ hr) rfl
  have hpl' : p ∉ l'.map Prod.fst := fun hr => hfresh p (mem_append_right _ hr) rfl
  have hll' (r : ℕ) (hr : r ∈ l.map Prod.fst) : r ∉ l'.map Prod.fst := fun hr' => hdis r hr r hr' rfl
  have hb0 : Back (s.put p ⟨x, firstOr l' none, lastOr none l⟩) (lastOr none l) l' :=
    hb.frame fun r hr => by simp [Store.put, hfresh r (mem_append_right _ hr)]
  have hf0 : Front (s.put p ⟨x, firstOr l' none, lastOr none l⟩) l (firstOr l' none) :=
    hf.frame rfl fun r hr => by simp [Store.put, hfresh r (mem_append_left _ hr)]
  obtain ⟨s1, hs1, hb1, hhead1, hout1⟩ := hb0.setPrev hndl' (some p)
  have hf1 := hf0.frame hhead1 fun r hr => hout1 r (hll' r hr)
  obtain ⟨s2, hs2, hf2, hout2⟩ := hf1.setNext hndl (some p)
  refine ⟨s2, ?_, linked_append.mpr ⟨hf2, ⟨?_, ?_⟩, ?_⟩⟩
  · simp [Store.insertAfter, ← hp, hnext, hs1, hs2]
  · rw [hout2 p hpl, hout1 p hpl']
    simp [Store.put]
  · exact hb1.frame fun r hr => hout2 r fun hr' => hll' r hr' hr
  · rw [map_append, map_cons, nodup_append, nodup_cons]
    refine ⟨hndl, ⟨hpl', hndl'⟩, fun r hr r' hr' => ?_⟩
    rcases mem_cons.mp hr' with rfl | hr'
    · exact hfresh r (mem_append_left _ hr)
    · exact hdis r hr r' hr'

/-- Changing the value of a cell. -/
theorem Linked.setVal {s : Store α} {l l' : List (ℕ × α)} {p : ℕ} {x : α}
    (h : Linked s (l ++ (p, x) :: l')) (y : α) : ∃ s', s.setVal p y = some s' ∧ Linked s' (l ++ (p, y) :: l') := by
  obtain ⟨hf, ⟨hcell, hb⟩, hnd⟩ := linked_append.mp h
  have hnd' := hnd
  rw [map_append, map_cons, nodup_append, nodup_cons] at hnd'
  obtain ⟨-, ⟨hpl', -⟩, hdis⟩ := hnd'
  refine ⟨s.put p ⟨y, firstOr l' none, lastOr none l⟩, by simp [Store.setVal, hcell],
    linked_append.mpr ⟨?_, ⟨by simp [Store.put], ?_⟩, by simpa using hnd⟩⟩
  · refine hf.frame rfl fun r hr => ?_
    have hne : r ≠ p := hdis r hr p (mem_cons_self ..)
    simp [Store.put, hne]
  · refine hb.frame fun r hr => ?_
    have hne : r ≠ p := by
      rintro rfl
      exact hpl' hr
    simp [Store.put, hne]

/-- Every list is the chain of some store. -/
theorem linked_ofList (l : List α) : Linked (Store.ofList l) (l.zipIdx.map Prod.swap) := by
  have hseg : ∀ (r m : List α), l = m ++ r →
      Seg (Store.ofList l).cell (if m.length = 0 then none else some (m.length - 1))
        ((r.zipIdx m.length).map Prod.swap) none := by
    intro r
    induction r with
    | nil => exact fun _ _ => trivial
    | cons x r ih =>
      intro m hm
      refine ⟨?_, ?_⟩
      · cases r <;> simp [Store.ofList, hm]
      · simpa using ih (m ++ [x]) (by simpa using hm)
  refine ⟨⟨?_, ?_⟩, ?_⟩
  · cases l <;> simp [Store.ofList]
  · simpa using hseg l [] rfl
  · have hfst : (l.zipIdx.map Prod.swap).map Prod.fst = range l.length := by
      rw [map_map]
      exact zipIdx_map_snd 0 l |>.trans (range_eq_range' (n := l.length)).symm
    rw [hfst]
    exact nodup_range

/-- A store has one chain. -/
theorem Linked.unique {s : Store α} {l l' : List (ℕ × α)} (h : Linked s l) (h' : Linked s l') : l = l' := by
  have hseg : ∀ (l l' : List (ℕ × α)) (q : Option ℕ), Seg s.cell q l none →
      Seg s.cell q l' none → firstOr l none = firstOr l' none → l = l' := by
    intro l
    induction l with
    | nil =>
      intro l' q _ _ heq
      cases l' with
      | nil => rfl
      | cons c l' => cases heq
    | cons c l ih =>
      intro l' q hl hl' heq
      cases l' with
      | nil => cases heq
      | cons c' l' =>
        have hc : c.1 = c'.1 := Option.some_inj.mp heq
        have hcell := hl.1.symm.trans (hc ▸ hl'.1)
        simp only [Option.some.injEq, Cell.mk.injEq] at hcell
        have htail := ih l' (some c.1) hl.2 (hc ▸ hl'.2) hcell.2.1
        rw [htail, Prod.ext hc hcell.1]
  exact hseg l l' none h.front.seg h'.front.seg (h.front.head.symm.trans h'.front.head)

/-- A chain is no longer than the store. -/
theorem Linked.length_le {s : Store α} {l : List (ℕ × α)} (h : Linked s l) : l.length ≤ s.bound := by
  have hsub : (l.map Prod.fst).toFinset ⊆ Finset.range s.bound := by
    intro p hp
    obtain ⟨c, hc, rfl⟩ := mem_map.mp (mem_toFinset.mp hp)
    obtain ⟨m, m', rfl⟩ := append_of_mem hc
    rw [Finset.mem_range]
    by_contra hge
    have hcell := h.cell_eq (p := c.1) (x := c.2)
    rw [s.outside c.1 (by omega)] at hcell
    cases hcell
  have hcard := Finset.card_le_card hsub
  rw [toFinset_card_of_nodup h.nodup, length_map, Finset.card_range] at hcard
  exact hcard

/-- Following the links of a chain yields its values. -/
theorem Linked.values_eq {s : Store α} {l : List (ℕ × α)} (h : Linked s l) : s.values = l.map Prod.snd := by
  have hwalk : ∀ (l : List (ℕ × α)) (q : Option ℕ) (n : ℕ), Seg s.cell q l none →
      l.length ≤ n → s.walk n (firstOr l none) = l.map Prod.snd := by
    intro l
    induction l with
    | nil =>
      intro q n _ _
      cases n <;> rfl
    | cons c l ih =>
      intro q n hseg hn
      obtain ⟨n, rfl⟩ := Nat.exists_eq_succ_of_ne_zero (Nat.ne_of_gt (Nat.zero_lt_of_lt hn))
      rw [length_cons] at hn
      simp [Store.walk, hseg.1, ih (some c.1) n hseg.2 (by omega)]
  rw [Store.values, h.front.head]
  exact hwalk l none s.bound h.front.seg h.length_le

end LinkedChain

end Osf1.Computation
