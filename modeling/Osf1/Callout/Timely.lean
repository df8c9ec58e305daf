import Osf1.Callout.Model

/-!
# Calls are on time

The times of the calls on `calltodo` are what a queue of deltas tells about the ticks for which the calls
have been asked.  Every event keeps that, as long as no call stays on the queue until it is overdue by
2^31 ticks, when its `int` time would wrap.
-/

set_option autoImplicit false

namespace Osf1.Callout

open Function List

section Timely

open Osf1.Computation Osf1.Computation.DeltaQueue

variable {Func Arg : Type} {n : ℕ} {s s' : Table Func Arg} {next : ℕ → Option ℕ} {time due : ℕ → ℤ}
  {p q : ℕ} {l l' : List ℕ} {a : Option ℕ} {b : ℤ}

theorem int_eq {x : ℤ} (hlo : -2 ^ 31 ≤ x) (hhi : x < 2 ^ 31) : int x = x := by
  apply Int.bmod_eq_of_le <;> omega

theorem int_bounds (x : ℤ) : -2 ^ 31 ≤ int x ∧ int x < 2 ^ 31 := by
  have hlo := Int.le_bmod (x := x) (m := 2 ^ 32) (by decide)
  have hhi := Int.bmod_lt (x := x) (m := 2 ^ 32) (by decide)
  unfold int
  omega

section Lists

/-- The slots on `calltodo`. -/
def Table.todo (n : ℕ) (s : Table Func Arg) : List ℕ := trail s.c_next (n + 1) (s.c_next calltodo)

/-- The slots on `callfree`. -/
def Table.free (n : ℕ) (s : Table Func Arg) : List ℕ := trail s.c_next (n + 1) s.callfree

/-- A function that is to be called, and the tick for which that has been asked. -/
structure Call (Func Arg : Type) where
  c_func : Func
  c_arg : Arg
  due : ℤ
  deriving DecidableEq

/-- The call in a slot. -/
def Table.call (s : Table Func Arg) (p : ℕ) : Call Func Arg := ⟨s.c_func p, s.c_arg p, s.due p⟩

/-- The calls on `calltodo`, in order. -/
def Table.calls (n : ℕ) (s : Table Func Arg) : List (Call Func Arg) := (s.todo n).map s.call

end Lists

section Invariant

/-- The two lists of a table, and what the times on the first one tell. -/
structure Holds (n : ℕ) (s : Table Func Arg) (todo free : List ℕ) : Prop where
  todoChain : Leads s.c_next (s.c_next calltodo) todo none
  freeChain : Leads s.c_next s.callfree free none
  slots : (todo ++ free).Perm (slots n)
  order : InOrder s.due todo
  tells : Tells s.c_time s.due s.now todo
  ahead : ∀ p ∈ todo, s.due p < s.now + 2 ^ 31
  behind : ∀ p ∈ todo, s.now ≤ s.due p + 2 ^ 31

theorem slots_nodup (n : ℕ) : (slots n).Nodup := nodup_range.map fun _ _ h => Nat.succ.inj h

theorem calltodo_notMem (n : ℕ) : calltodo ∉ slots n := by
  simp [slots, calltodo]

variable {todo free : List ℕ}

variable (h : Holds n s todo free)
include h

theorem Holds.nodup : (todo ++ free).Nodup := h.slots.nodup_iff.mpr (slots_nodup n)

theorem Holds.length_le : todo.length + free.length = n := by
  have := h.slots.length_eq
  simpa [Callout.slots] using this

theorem Holds.header_notMem : calltodo ∉ todo ++ free := fun hmem =>
  calltodo_notMem n (h.slots.mem_iff.mp hmem)

theorem Holds.todo_eq : s.todo n = todo :=
  h.todoChain.trail_eq (by have := h.length_le; omega)

theorem Holds.free_eq : s.free n = free :=
  h.freeChain.trail_eq (by have := h.length_le; omega)

theorem Holds.calls_eq : s.calls n = todo.map s.call := by
  unfold Table.calls
  rw [h.todo_eq]

theorem Holds.time_bounds (hp : p ∈ todo) : -2 ^ 31 ≤ s.c_time p ∧ s.c_time p < 2 ^ 31 := by
  have hahead := h.ahead p hp
  have hbehind := h.behind p hp
  obtain ⟨hearly, hlate⟩ := h.tells.bounds h.order hp
  by_cases hle : s.due p ≤ s.now
  · have := hearly hle
    omega
  · have := hlate (by omega)
    omega

end Invariant

section Hardclock

theorem countDown_eq (h : Leads next a l none) (hnodup : l.Nodup) {fuel : ℕ} (hfuel : l.length < fuel)
    (htime : ∀ p ∈ l, -2 ^ 31 < time p ∧ time p < 2 ^ 31) (needsoft : Bool) :
    ∃ b, countDown next fuel a time needsoft = some (tick l time, b) := by
  induction l generalizing a time fuel needsoft with
  | nil =>
    obtain rfl : a = none := h
    cases fuel with
    | zero => cases hfuel
    | succ fuel => exact ⟨needsoft, rfl⟩
  | cons p l ih =>
    obtain ⟨rfl, hl⟩ := h
    obtain ⟨hpl, hnodup⟩ := nodup_cons.mp hnodup
    cases fuel with
    | zero => cases hfuel
    | succ fuel =>
      obtain ⟨hlo, hhi⟩ := htime p (mem_cons_self ..)
      have hint : int (time p - 1) = time p - 1 := int_eq (by omega) (by omega)
      simp only [countDown, tick, hint, update_self]
      by_cases hpos : 0 < time p - 1
      · rw [if_pos hpos, if_pos (by omega)]
        exact ⟨needsoft, rfl⟩
      · rw [if_neg hpos]
        by_cases hzero : time p - 1 = 0
        · rw [if_pos hzero, if_pos (by omega)]
          exact ⟨true, rfl⟩
        · rw [if_neg hzero, if_neg (by omega)]
          apply ih hl hnodup (Nat.lt_of_succ_lt_succ hfuel)
          intro q hq
          rw [update_of_ne (ne_of_mem_of_not_mem hq hpl)]
          exact htime q (mem_cons_of_mem _ hq)

end Hardclock

section Timeout

variable {d t : ℤ}

theorem place_eq {b : ℤ} (h : Leads next (next p) l none) (htells : Tells time due b l)
    (ht : t = d - b) (hb : b < d) (hd : d < b + 2 ^ 31) {fuel : ℕ} (hfuel : l.length < fuel) :
    ∃ pre q l₁ l₂, p :: l₁ = pre ++ [q] ∧ l = l₁ ++ l₂ ∧
      place next time fuel p t = some (q, d - top due b l₁) ∧
      (∀ r ∈ l₁, due r < d) ∧ (∀ r k, l₂ = r :: k → d ≤ due r) := by
  induction l generalizing p b t fuel with
  | nil =>
    have hend : next p = none := h
    cases fuel with
    | zero => cases hfuel
    | succ fuel =>
      refine ⟨[], p, [], [], rfl, rfl, ?_, nofun, nofun⟩
      rw [place, hend, ht]
      rfl
  | cons r l ih =>
    obtain ⟨hnext, hl⟩ := h
    obtain ⟨hr, hrest⟩ := htells
    cases fuel with
    | zero => cases hfuel
    | succ fuel =>
      by_cases hlt : due r < d
      · have hmore : (if 0 < time r then int (t - time r) else t) = d - max b (due r) := by
          by_cases hpos : 0 < time r
          · rw [if_pos hpos, int_eq (by omega) (by omega), max_eq_right (by omega)]
            omega
          · rw [if_neg hpos, max_eq_left (by omega)]
            exact ht
        obtain ⟨pre, q, l₁, l₂, hpre, hsplit, hfound, hbefore, hbehind⟩ :=
          ih hl hrest hmore (max_lt hb hlt) (by omega) (Nat.lt_of_succ_lt_succ hfuel)
        refine ⟨p :: pre, q, r :: l₁, l₂, ?_, ?_, ?_, ?_, hbehind⟩
        · rw [hpre]
          rfl
        · rw [hsplit]
          rfl
        · rw [place, hnext]
          dsimp only
          rw [if_pos (by omega)]
          exact hfound
        · intro x hx
          rcases mem_cons.mp hx with heq | hmem
          · exact heq ▸ hlt
          · exact hbefore x hmem
      · refine ⟨[], p, [], r :: l, rfl, rfl, ?_, nofun, ?_⟩
        · rw [place, hnext]
          dsimp only
          rw [if_neg (by omega), ht]
          rfl
        · rintro x k heq
          cases heq
          omega

/-- The time that is left is taken off the next call's. -/
def shortened (time : ℕ → ℤ) (p2 : Option ℕ) (t : ℤ) : ℕ → ℤ :=
  match p2 with
  | none => time
  | some p2 => update time p2 (int (time p2 - t))

theorem shortened_of_ne (hp : a ≠ some p) : shortened time a t p = time p := by
  cases a with
  | none => rfl
  | some r => exact update_of_ne (fun heq => hp (congrArg some heq.symm)) ..

theorem shortened_self : shortened time (some p) t p = int (time p - t) := update_self ..

theorem tells_shortened (h : Tells time due b (l ++ l')) (hnodup : (l ++ l').Nodup)
    (hp : p ∉ l ++ l') (hb : b < d) (hl : ∀ r ∈ l, due r < d) (hl' : ∀ r ∈ l', d ≤ due r)
    (hahead : ∀ r ∈ l', due r < b + 2 ^ 31) :
    Tells (shortened (update time p (d - top due b l)) l'.head? (d - top due b l)) (update due p d) b (l ++ p :: l') := by
  obtain ⟨-, hl'nodup, hdisj⟩ := nodup_append.mp hnodup
  have hnext (r : ℕ) (hr : r ∉ l') : l'.head? ≠ some r := fun heq => hr (mem_of_mem_head? heq)
  have hp' : l'.head? ≠ some p := hnext p fun hmem => hp (mem_append_right _ hmem)
  have hold (r : ℕ) (hr : r ∈ l ++ l') : update time p (d - top due b l) r = time r :=
    update_of_ne (ne_of_mem_of_not_mem hr hp) ..
  have hptime : shortened (update time p (d - top due b l)) l'.head? (d - top due b l) p =
      d - top due b l := (shortened_of_ne hp').trans (update_self ..)
  apply h.insert
  · rwa [update_self]
  · rwa [update_self]
  · rwa [update_self]
  · intro r hr
    exact update_of_ne (ne_of_mem_of_not_mem hr hp) ..
  · rw [update_self]
    exact hptime
  · intro r hr
    rw [← hold r (mem_append_left _ hr)]
    apply shortened_of_ne
    apply hnext
    exact fun hmem => hdisj r hr r hmem rfl
  · rintro r k rfl
    obtain ⟨-, hr, -⟩ := tells_append.mp h
    have hdr := hl' r (mem_cons_self ..)
    have hrahead := hahead r (mem_cons_self ..)
    have hrold := hold r (mem_append_right _ (mem_cons_self ..))
    constructor
    · rw [hptime, ← hrold]
      apply shortened_self.trans
      apply int_eq <;> omega
    · intro x hx
      rw [← hold x (mem_append_right _ (mem_cons_of_mem _ hx))]
      refine shortened_of_ne (a := some r) fun heq => ?_
      obtain rfl : r = x := Option.some_inj.mp heq
      exact (nodup_cons.mp hl'nodup).1 hx

variable {todo free : List ℕ}

theorem Holds.headed (h : Holds n s todo free) :
    Leads s.c_next (some calltodo) (calltodo :: todo) none := ⟨rfl, h.todoChain⟩

theorem Holds.headed_nodup (h : Holds n s todo free) : ((calltodo :: todo) ++ free).Nodup :=
  nodup_cons.mpr ⟨h.header_notMem, h.nodup⟩

theorem Holds.linkIn {pre l₁ l₂ : List ℕ} (h : Holds n s (l₁ ++ l₂) (p :: free))
    (hpre : calltodo :: l₁ = pre ++ [q]) :
    s.c_next q = l₂.head? ∧
      Leads (update (update s.c_next p l₂.head?) q (some p))
        (update (update s.c_next p l₂.head?) q (some p) calltodo)
        (l₁ ++ p :: l₂) none ∧
      Leads (update (update s.c_next p l₂.head?) q (some p)) (s.c_next p) free
        none := by
  have hheaded : calltodo :: (l₁ ++ l₂) = pre ++ q :: l₂ := by
    rw [← cons_append, hpre, append_assoc]
    rfl
  have hheaded' : calltodo :: (l₁ ++ p :: l₂) = pre ++ q :: p :: l₂ := by
    rw [← cons_append, hpre, append_assoc]
    rfl
  have hchain := h.headed
  have hnodup := h.headed_nodup
  rw [hheaded] at hchain hnodup
  obtain ⟨hchainNodup, hpfree, hdisj⟩ := nodup_append.mp hnodup
  have hp : p ∉ pre ++ q :: l₂ := fun hmem => hdisj p hmem p (mem_cons_self ..) rfl
  have hqfree : q ∉ free := fun hmem => hdisj q (by simp) q (mem_cons_of_mem _ hmem) rfl
  obtain ⟨-, hqNodup, hpreq⟩ := nodup_append.mp hchainNodup
  have hqpre : q ∉ pre := fun hmem => hpreq q hmem q (mem_cons_self ..) rfl
  have hlink : s.c_next q = l₂.head? := by
    obtain ⟨x, -, -, hbehind⟩ := leads_append.mp hchain
    cases l₂ with
    | nil => exact hbehind
    | cons r k => exact hbehind.1
  refine ⟨hlink, ?_, ?_⟩
  · have hins := hchain.insertBehind hqpre (nodup_cons.mp hqNodup).1 hp
    rw [hlink, ← hheaded'] at hins
    exact hins.2
  · exact (h.freeChain.2.update (nodup_cons.mp hpfree).1 _).update hqfree _

theorem Holds.timeout (h : Holds n s todo (p :: free)) (fn : Func) (arg : Arg) (t : ℤ) :
    ∃ s' l l', Callout.timeout n s fn arg t = some s' ∧ todo = l ++ l' ∧
      Holds n s' (l ++ p :: l') free ∧ s'.now = s.now ∧
      s'.call p = ⟨fn, arg, s.now + max 1 (int t)⟩ ∧ ∀ q ∈ todo, s'.call q = s.call q := by
  have hpnew : s.callfree = some p := h.freeChain.1
  have hmax : (if int t ≤ 0 then 1 else int t) = max 1 (int t) := by
    by_cases hle : int t ≤ 0
    · rw [if_pos hle, max_eq_left (by omega)]
    · rw [if_neg hle, max_eq_right (by omega)]
  generalize hd : s.now + max 1 (int t) = d
  have hnow : s.now < d := by
    have := le_max_left 1 (int t)
    omega
  have hhigh : d < s.now + 2 ^ 31 := by
    have : max 1 (int t) < 2 ^ 31 := max_lt (by decide) (int_bounds t).2
    omega
  have hfuel : todo.length < n + 1 := by
    have := h.length_le
    omega
  obtain ⟨pre, q, l₁, l₂, hpre, rfl, hplace, hbefore, hbehind⟩ :=
    place_eq h.todoChain h.tells (by omega : max 1 (int t) = d - s.now) hnow hhigh hfuel
  obtain ⟨hlink, htodoChain, hfreeChain⟩ := h.linkIn hpre
  obtain ⟨htodo, -, hdisj⟩ := nodup_append.mp h.nodup
  have hp : p ∉ l₁ ++ l₂ := fun hmem => hdisj p hmem p (mem_cons_self ..) rfl
  have hback : ∀ r ∈ l₂, d ≤ s.due r := InOrder.le_all (pairwise_append.mp h.order).2.1 hbehind
  have hdue : ∀ r ∈ l₁ ++ l₂, update s.due p d r = s.due r := fun r hr =>
    update_of_ne (ne_of_mem_of_not_mem hr hp) ..
  have hdued : ∀ r ∈ l₁ ++ p :: l₂, update s.due p d r = d ∨
      r ∈ l₁ ++ l₂ ∧ update s.due p d r = s.due r := by
    intro r hr
    by_cases hrp : r = p
    · rw [hrp, update_self]
      exact .inl rfl
    · have hold : r ∈ l₁ ++ l₂ := by
        rw [mem_append, mem_cons] at hr
        rw [mem_append]
        tauto
      exact .inr ⟨hold, hdue r hold⟩
  let s' : Table Func Arg :=
    { c_time := shortened (update s.c_time p (d - top s.due s.now l₁)) l₂.head?
        (d - top s.due s.now l₁)
      c_arg := update s.c_arg p arg
      c_func := update s.c_func p fn
      c_next := update (update s.c_next p l₂.head?) q (some p)
      callfree := s.c_next p
      now := s.now
      due := update s.due p d }
  refine ⟨s', l₁, l₂, ?_, rfl, ⟨htodoChain, hfreeChain, ?_, ?_, ?_, ?_, ?_⟩, rfl, ?_, ?_⟩
  · unfold Callout.timeout
    rw [hmax, hpnew]
    dsimp only [Option.bind_eq_bind, Option.bind_some]
    rw [hplace]
    dsimp only [Option.bind_eq_bind, Option.bind_some]
    rw [hlink, hd]
    cases l₂ <;> rfl
  · apply List.Perm.trans _ h.slots
    simp only [append_assoc, cons_append]
    exact perm_middle.symm.append_left l₁
  · apply h.order.insert hdue <;> rwa [update_self]
  · exact tells_shortened h.tells htodo hp hnow hbefore hback fun r hr =>
      h.ahead r (mem_append_right _ hr)
  · intro r hr
    rcases hdued r hr with heq | hold
    · exact lt_of_eq_of_lt heq hhigh
    · exact lt_of_eq_of_lt hold.2 (h.ahead r hold.1)
  · intro r hr
    rcases hdued r hr with heq | hold
    · change s.now ≤ update s.due p d r + 2 ^ 31
      omega
    · change s.now ≤ update s.due p d r + 2 ^ 31
      rw [hold.2]
      exact h.behind r hold.1
  · simp [Table.call, s']
  · intro r hr
    have hne : r ≠ p := ne_of_mem_of_not_mem hr hp
    simp [Table.call, s', update_of_ne hne]

end Timeout

section Untimeout

variable [DecidableEq Func] [DecidableEq Arg] {todo free : List ℕ} {fn : Func} {arg : Arg} {fuel : ℕ} {pre l₁ l₂ : List ℕ}

theorem find_none (h : Leads s.c_next (s.c_next p) l none)
    (hl : ∀ r ∈ l, ¬(s.c_func r = fn ∧ s.c_arg r = arg)) (hfuel : l.length < fuel) :
    find s fn arg fuel p = some none := by
  induction l generalizing p fuel with
  | nil =>
    have hend : s.c_next p = none := h
    cases fuel with
    | zero => cases hfuel
    | succ fuel => rw [find, hend]
  | cons r l ih =>
    obtain ⟨hnext, hrest⟩ := h
    cases fuel with
    | zero => cases hfuel
    | succ fuel =>
      rw [find, hnext]
      dsimp only
      rw [if_neg (hl r (mem_cons_self ..))]
      apply ih hrest
      · exact fun x hx => hl x (mem_cons_of_mem _ hx)
      · exact Nat.lt_of_succ_lt_succ hfuel

theorem find_some {r : ℕ} (h : Leads s.c_next (s.c_next p) (l ++ r :: l') none)
    (hl : ∀ r ∈ l, ¬(s.c_func r = fn ∧ s.c_arg r = arg)) (hr : s.c_func r = fn ∧ s.c_arg r = arg) (hfuel : l.length < fuel) :
    ∃ pre q, p :: l = pre ++ [q] ∧ find s fn arg fuel p = some (some (q, r)) := by
  induction l generalizing p fuel with
  | nil =>
    have hnext : s.c_next p = some r := h.1
    cases fuel with
    | zero => cases hfuel
    | succ fuel =>
      refine ⟨[], p, rfl, ?_⟩
      rw [find, hnext]
      exact if_pos hr
  | cons x l ih =>
    obtain ⟨hnext, hrest⟩ := h
    cases fuel with
    | zero => cases hfuel
    | succ fuel =>
      obtain ⟨pre, q, hpre, hfound⟩ := ih hrest (fun y hy => hl y (mem_cons_of_mem _ hy))
        (Nat.lt_of_succ_lt_succ hfuel)
      refine ⟨p :: pre, q, ?_, ?_⟩
      · rw [hpre]
        rfl
      · rw [find, hnext]
        dsimp only
        rw [if_neg (hl x (mem_cons_self ..))]
        exact hfound

omit [DecidableEq Func] [DecidableEq Arg] in
theorem Holds.linkOut (h : Holds n s (l₁ ++ p :: l₂) free) (hpre : calltodo :: l₁ = pre ++ [q]) :
    Leads (update (update s.c_next q (s.c_next p)) p s.callfree) (update (update s.c_next q (s.c_next p)) p s.callfree calltodo)
        (l₁ ++ l₂) none ∧
      Leads (update (update s.c_next q (s.c_next p)) p s.callfree) (some p) (p :: free) none := by
  have hheaded : calltodo :: (l₁ ++ p :: l₂) = pre ++ q :: p :: l₂ := by
    rw [← cons_append, hpre, append_assoc]
    rfl
  have hheaded' : calltodo :: (l₁ ++ l₂) = pre ++ q :: l₂ := by
    rw [← cons_append, hpre, append_assoc]
    rfl
  have hchain := h.headed
  have hnodup := h.headed_nodup
  rw [hheaded] at hchain hnodup
  obtain ⟨hchainNodup, -, hdisj⟩ := nodup_append.mp hnodup
  have hqfree : q ∉ free := fun hmem => hdisj q (by simp) q hmem rfl
  have hpfree : p ∉ free := fun hmem => hdisj p (by simp) p hmem rfl
  have hp : p ∉ pre ++ q :: l₂ := by
    have hmiddle : (p :: (pre ++ q :: l₂)).Nodup := by
      apply hchainNodup.perm
      have hperm : (pre ++ [q] ++ p :: l₂).Perm (p :: (pre ++ [q] ++ l₂)) := perm_middle
      simpa using hperm
    exact (nodup_cons.mp hmiddle).1
  constructor
  · have hcut := (hchain.unlink hchainNodup).update hp s.callfree
    rw [← hheaded'] at hcut
    exact hcut.2
  · refine ⟨rfl, ?_⟩
    rw [update_self]
    exact (h.freeChain.update hqfree _).update hpfree _

omit [DecidableEq Func] [DecidableEq Arg] in
theorem Holds.removed {pre l₁ l₂ : List ℕ} (h : Holds n s (l₁ ++ p :: l₂) free)
    (hpre : calltodo :: l₁ = pre ++ [q]) (htime : ∀ r ∈ l₁, time r = s.c_time r)
    (hnext : ∀ r k, l₂ = r :: k →
      time r = s.c_time r + (if 0 < s.c_time p then s.c_time p else 0) ∧ ∀ x ∈ k, time x = s.c_time x) :
    Holds n
      { s with
        c_time := time
        c_next := update (update s.c_next q (s.c_next p)) p s.callfree
        callfree := some p }
      (l₁ ++ l₂) (p :: free) := by
  obtain ⟨htodoChain, hfreeChain⟩ := h.linkOut hpre
  have hmem (r : ℕ) (hr : r ∈ l₁ ++ l₂) : r ∈ l₁ ++ p :: l₂ := by
    rw [mem_append, mem_cons]
    rw [mem_append] at hr
    tauto
  refine ⟨htodoChain, hfreeChain, ?_, ?_, ?_, ?_, ?_⟩
  · apply List.Perm.trans _ h.slots
    simp only [append_assoc, cons_append]
    exact perm_middle.append_left l₁
  · exact h.order.sublist ((sublist_cons_self p l₂).append_left l₁)
  · exact h.tells.remove h.order htime hnext
  · exact fun r hr => h.ahead r (hmem r hr)
  · exact fun r hr => h.behind r (hmem r hr)

omit [DecidableEq Func] [DecidableEq Arg] in
theorem Holds.takeOut (h : Holds n s (l₁ ++ p :: l₂) free)
    (hpre : calltodo :: l₁ = pre ++ [q]) : Holds n (takeOut s q p) (l₁ ++ l₂) (p :: free) := by
  have hnodup := (nodup_append.mp h.nodup).1
  obtain ⟨-, hpl₂, hdisj⟩ := nodup_append.mp hnodup
  obtain ⟨-, htells, hbehind⟩ := tells_append.mp h.tells
  have hlink : s.c_next p = l₂.head? := by
    obtain ⟨x, -, -, hrest⟩ := leads_append.mp h.todoChain
    cases l₂ with
    | nil => exact hrest
    | cons r k => exact hrest.1
  apply h.removed hpre
  · intro r hr
    cases l₂ with
    | nil => rw [hlink]; rfl
    | cons x k =>
      have hrx : r ≠ x := hdisj r hr x (by simp)
      rw [hlink]
      split
      · exact update_of_ne hrx ..
      · rfl
  · rintro r k rfl
    obtain ⟨hr, -⟩ := hbehind
    have hahead := h.ahead r (by simp)
    have hbase : s.now ≤ top s.due s.now l₁ := le_top
    rw [hlink]
    dsimp only [head?_cons]
    by_cases hpos : 0 < s.c_time p
    · have hpr : s.due p ≤ s.due r := by
        have htail := (pairwise_append.mp h.order).2.1
        exact (pairwise_cons.mp htail).1 r (mem_cons_self ..)
      rw [if_pos hpos, if_pos hpos]
      constructor
      · rw [update_self]
        apply int_eq <;> omega
      · intro x hx
        have hrk := (nodup_cons.mp (nodup_cons.mp hpl₂).2).1
        exact update_of_ne (ne_of_mem_of_not_mem hx hrk) ..
    · rw [if_neg hpos, if_neg hpos]
      exact ⟨(Int.add_zero _).symm, fun _ _ => rfl⟩

theorem Holds.untimeout_none (h : Holds n s todo free) (hno : ∀ r ∈ todo, ¬(s.c_func r = fn ∧ s.c_arg r = arg)) :
    untimeout n s fn arg = some s := by
  have hlen := h.length_le
  unfold untimeout
  rw [find_none h.todoChain hno (by omega)]
  rfl

theorem Holds.untimeout_some (h : Holds n s (l₁ ++ p :: l₂) free) (hno : ∀ r ∈ l₁, ¬(s.c_func r = fn ∧ s.c_arg r = arg))
    (hp : s.c_func p = fn ∧ s.c_arg p = arg) :
    ∃ s', untimeout n s fn arg = some s' ∧ Holds n s' (l₁ ++ l₂) (p :: free) ∧ s'.now = s.now ∧
      s'.call = s.call := by
  have hlen := h.length_le
  rw [length_append] at hlen
  obtain ⟨pre, q, hpre, hfound⟩ := find_some h.todoChain hno hp (by omega : l₁.length < n + 1)
  refine ⟨Callout.takeOut s q p, ?_, h.takeOut hpre, rfl, rfl⟩
  unfold untimeout
  rw [hfound]
  rfl

end Untimeout

section Softclock

variable {todo free : List ℕ}

theorem Holds.softclock_due (h : Holds n s (p :: l) free) (hdue : s.due p ≤ s.now) :
    ∃ s', softclock_scan s = (s', some (s.c_func p, s.c_arg p, s.due p - s.now)) ∧
      Holds n s' l (p :: free) ∧ s'.now = s.now ∧ s'.call = s.call := by
  have hnext : s.c_next calltodo = some p := h.todoChain.1
  have hp : s.c_time p = s.due p - s.now := h.tells.1
  have hle : ¬0 < s.c_time p := by omega
  have hsame : ∀ r k, l = r :: k →
      s.c_time r = s.c_time r + (if 0 < s.c_time p then s.c_time p else 0) ∧
        ∀ x ∈ k, s.c_time x = s.c_time x := by
    intro r k _
    rw [if_neg hle]
    exact ⟨(Int.add_zero _).symm, fun _ _ => rfl⟩
  have hfront : calltodo :: ([] : List ℕ) = [] ++ [calltodo] := rfl
  have hfirst : Holds n s ([] ++ p :: l) free := h
  refine ⟨_, ?_, hfirst.removed hfront nofun hsame, rfl, rfl⟩
  unfold softclock_scan
  rw [hnext]
  dsimp only
  rw [if_neg hle, hp]

theorem Holds.softclock_idle (h : Holds n s todo free) (hidle : ∀ p ∈ todo, s.now < s.due p) :
    softclock_scan s = (s, none) := by
  cases todo with
  | nil =>
    have hend : s.c_next calltodo = none := h.todoChain
    unfold softclock_scan
    rw [hend]
  | cons p l =>
    have hnext : s.c_next calltodo = some p := h.todoChain.1
    have hp : s.c_time p = s.due p - s.now := h.tells.1
    have hlate := hidle p (mem_cons_self ..)
    unfold softclock_scan
    rw [hnext]
    dsimp only
    rw [if_pos (by omega)]

end Softclock

section Events

variable {todo free : List ℕ}

theorem startup_holds (n : ℕ) (func₀ : Func) (arg₀ : Arg) : Holds n (startup n func₀ arg₀) [] (slots n) := by
  refine ⟨rfl, ?_, List.Perm.refl _, List.Pairwise.nil, trivial, nofun, nofun⟩
  -- from the slot `k + 1` on, the links lead through those that are behind it
  have hlinks (m k : ℕ) (hn : k + m = n) :
      Leads (startup n func₀ arg₀).c_next (if 0 < m then some (k + 1) else none)
        ((range' k m).map (· + 1)) none := by
    induction m generalizing k with
    | zero => rfl
    | succ m ih =>
      refine ⟨rfl, ?_⟩
      have hnext : (startup n func₀ arg₀).c_next (k + 1) = if 0 < m then some (k + 1 + 1) else none := by
        unfold startup
        dsimp only
        by_cases hm : 0 < m
        · rw [if_pos hm, if_pos (by omega)]
        · rw [if_neg hm, if_neg (by omega)]
      rw [hnext]
      exact ih (k + 1) (by omega)
  have hall := hlinks n 0 (Nat.zero_add n)
  rw [← range_eq_range'] at hall
  exact hall

theorem Holds.hardclock (h : Holds n s todo free) (hintime : ∀ p ∈ todo, -2 ^ 31 < s.c_time p) :
    ∃ s' b, Callout.hardclock n s = some (s', b) ∧ Holds n s' todo free ∧ s'.now = s.now + 1 ∧
      s'.call = s.call := by
  have hnodup := (nodup_append.mp h.nodup).1
  have hfuel : todo.length < n + 1 := by
    have := h.length_le
    omega
  obtain ⟨b, hcount⟩ := countDown_eq h.todoChain hnodup hfuel
    (fun p hp => ⟨hintime p hp, (h.time_bounds hp).2⟩) false
  refine ⟨{ s with c_time := tick todo s.c_time, now := s.now + 1 }, b, ?_, ?_, rfl, rfl⟩
  · unfold Callout.hardclock
    rw [hcount]
    rfl
  · refine { h with tells := h.tells.tick hnodup, ahead := ?_, behind := ?_ }
    · intro p hp
      have := h.ahead p hp
      dsimp only
      omega
    · intro p hp
      have htime := hintime p hp
      have hearly := (h.tells.bounds h.order hp).1
      dsimp only
      by_cases hle : s.due p ≤ s.now
      · have := hearly hle
        omega
      · omega

end Events

end Timely

/-!
## The callout queue

In every run in which no call stays overdue on the queue for 2^31 ticks, every slot is on one of the two
lists, the calls are in the order of their ticks, a call is due exactly from its tick on, and every event
does to the calls what it should and nothing else.
-/

section OnTime

open Osf1.Computation Osf1.Computation.DeltaQueue

variable {Func Arg : Type} {n : ℕ} {s s' : Table Func Arg}

/-- What holds of the table between two events. -/
structure OnTime (n : ℕ) (s : Table Func Arg) : Prop where
  todoEnds : Leads s.c_next (s.c_next calltodo) (s.todo n) none
  freeEnds : Leads s.c_next s.callfree (s.free n) none
  slots : (s.todo n ++ s.free n).Perm (slots n)
  order : InOrder s.due (s.todo n)
  due : ∀ l p l', s.todo n = l ++ p :: l' → ((∀ q ∈ l ++ [p], s.c_time q ≤ 0) ↔ s.due p ≤ s.now)

section Effects

variable [DecidableEq Func] [DecidableEq Arg]

/-- What an event does to the calls and to the clock.  A call that has been run is told by how many ticks
it is late. -/
def Effect (n : ℕ) (s : Table Func Arg) : Event Func Arg → Table Func Arg → Prop
  | .timeout fn arg t, s' =>
    s'.now = s.now ∧ ∃ l l', s.calls n = l ++ l' ∧ s'.calls n = l ++ ⟨fn, arg, s.now + max 1 (int t)⟩ :: l'
  | .untimeout fn arg, s' =>
    s'.now = s.now ∧ s'.calls n = (s.calls n).eraseP fun c => c.c_func = fn ∧ c.c_arg = arg
  | .hardclock, s' => s'.now = s.now + 1 ∧ s'.calls n = s.calls n
  | .softclock, s' =>
    s'.now = s.now ∧
      ((∃ c, s.calls n = c :: s'.calls n ∧ c.due ≤ s.now ∧
          (softclock_scan s).2 = some (c.c_func, c.c_arg, c.due - s.now)) ∨
        (∀ c ∈ s.calls n, s.now < c.due) ∧ s'.calls n = s.calls n ∧ (softclock_scan s).2 = none)

/-- No call is overdue by 2^31 ticks when the clock ticks. -/
def InTime (n : ℕ) (s : Table Func Arg) (e : Event Func Arg) : Prop :=
  e = .hardclock → ∀ p ∈ s.todo n, -2 ^ 31 < s.c_time p

instance (n : ℕ) (s : Table Func Arg) (e : Event Func Arg) : Decidable (InTime n s e) :=
  inferInstanceAs (Decidable (e = .hardclock → ∀ p ∈ s.todo n, -2 ^ 31 < s.c_time p))

end Effects

section Results

variable [DecidableEq Func] [DecidableEq Arg] {todo free : List ℕ}

omit [DecidableEq Func] [DecidableEq Arg] in
theorem Holds.onTime (h : Holds n s todo free) : OnTime n s := by
  refine ⟨?_, ?_, ?_, ?_, ?_⟩
  · exact h.todo_eq ▸ h.todoChain
  · exact h.free_eq ▸ h.freeChain
  · exact h.todo_eq ▸ h.free_eq ▸ h.slots
  · exact h.todo_eq ▸ h.order
  · intro l p l' heq
    rw [h.todo_eq] at heq
    subst heq
    exact h.tells.due_iff h.order

theorem Holds.timeout_effect {p : ℕ} (h : Holds n s todo (p :: free)) (fn : Func) (arg : Arg) (t : ℤ) :
    ∃ s', step n s (.timeout fn arg t) = some s' ∧ Effect n s (.timeout fn arg t) s' ∧
      ∃ todo', Holds n s' todo' free := by
  obtain ⟨s', l, l', hstep, rfl, hholds, hnow, hcallp, hcall⟩ := h.timeout fn arg t
  refine ⟨s', hstep, ⟨hnow, l.map s.call, l'.map s.call, ?_, ?_⟩, _, hholds⟩
  · rw [h.calls_eq, map_append]
  · rw [hholds.calls_eq, map_append, map_cons, hcallp]
    congr 1
    · exact map_congr_left fun q hq => hcall q (mem_append_left _ hq)
    · congr 1
      exact map_congr_left fun q hq => hcall q (mem_append_right _ hq)

theorem cut_first (p : ℕ → Prop) [DecidablePred p] (l : List ℕ) :
    (∀ q ∈ l, ¬p q) ∨ ∃ l₁ q l₂, l = l₁ ++ q :: l₂ ∧ (∀ r ∈ l₁, ¬p r) ∧ p q := by
  induction l with
  | nil => exact .inl nofun
  | cons q l ih =>
    by_cases hq : p q
    · exact .inr ⟨[], q, l, rfl, nofun, hq⟩
    · rcases ih with hno | ⟨l₁, r, l₂, rfl, hno, hr⟩
      · refine .inl fun r hr => ?_
        rcases mem_cons.mp hr with heq | hmem
        · exact heq ▸ hq
        · exact hno r hmem
      · refine .inr ⟨q :: l₁, r, l₂, rfl, fun x hx => ?_, hr⟩
        rcases mem_cons.mp hx with heq | hmem
        · exact heq ▸ hq
        · exact hno x hmem

theorem Holds.untimeout_effect (h : Holds n s todo free) (fn : Func) (arg : Arg) :
    ∃ s', step n s (.untimeout fn arg) = some s' ∧ Effect n s (.untimeout fn arg) s' ∧
      ∃ todo' free', Holds n s' todo' free' := by
  rcases cut_first (fun p => s.c_func p = fn ∧ s.c_arg p = arg) todo with hno | ⟨l₁, p, l₂, rfl, hno, hp⟩
  · refine ⟨s, h.untimeout_none hno, ⟨rfl, ?_⟩, _, _, h⟩
    rw [eraseP_of_forall_not]
    intro c hc
    rw [h.calls_eq] at hc
    obtain ⟨p, hp, rfl⟩ := mem_map.mp hc
    exact fun hmatch => hno p hp (of_decide_eq_true hmatch)
  · obtain ⟨s', hstep, hholds, hnow, hcall⟩ := h.untimeout_some hno hp
    refine ⟨s', hstep, ⟨hnow, ?_⟩, _, _, hholds⟩
    rw [hholds.calls_eq, h.calls_eq, hcall, map_append, map_append, map_cons, eraseP_append_right]
    · rw [eraseP_cons_of_pos]
      exact decide_eq_true hp
    · intro c hc
      obtain ⟨q, hq, rfl⟩ := mem_map.mp hc
      exact fun hmatch => hno q hq (of_decide_eq_true hmatch)

theorem Holds.hardclock_effect (h : Holds n s todo free) (hintime : ∀ p ∈ todo, -2 ^ 31 < s.c_time p) :
    ∃ s', step n s .hardclock = some s' ∧ Effect n s .hardclock s' ∧ Holds n s' todo free := by
  obtain ⟨s', b, hstep, hholds, hnow, hcall⟩ := h.hardclock hintime
  refine ⟨s', ?_, ⟨hnow, ?_⟩, hholds⟩
  · unfold step
    rw [hstep]
    rfl
  · rw [hholds.calls_eq, h.calls_eq, hcall]

theorem Holds.softclock_effect (h : Holds n s todo free) :
    ∃ s', step n s .softclock = some s' ∧ Effect n s .softclock s' ∧
      ∃ todo' free', Holds n s' todo' free' := by
  by_cases hdue : ∃ p l, todo = p :: l ∧ s.due p ≤ s.now
  · obtain ⟨p, l, rfl, hle⟩ := hdue
    obtain ⟨s', hscan, hholds, hnow, hcall⟩ := h.softclock_due hle
    refine ⟨s', ?_, ⟨hnow, .inl ⟨s.call p, ?_, hle, ?_⟩⟩, _, _, hholds⟩
    · unfold step
      rw [hscan]
    · rw [hholds.calls_eq, h.calls_eq, hcall, map_cons]
    · rw [hscan]
      rfl
  · have hidle : ∀ p ∈ todo, s.now + 1 ≤ s.due p := by
      apply h.order.le_all
      intro p l heq
      by_contra hle
      exact hdue ⟨p, l, heq, by omega⟩
    have hscan := h.softclock_idle fun p hp => by have := hidle p hp; omega
    refine ⟨s, ?_, ⟨rfl, .inr ⟨?_, rfl, ?_⟩⟩, _, _, h⟩
    · unfold step
      rw [hscan]
    · intro c hc
      rw [h.calls_eq] at hc
      obtain ⟨p, hp, rfl⟩ := mem_map.mp hc
      have := hidle p hp
      change s.now < s.due p
      omega
    · rw [hscan]

theorem holds_of_reachable {func₀ : Func} {arg₀ : Arg}
    (h : ((system n func₀ arg₀).restrict (InTime n)).Reachable s) : ∃ todo free, Holds n s todo free := by
  apply h.invariant
  · rintro s rfl
    exact ⟨_, _, startup_holds n func₀ arg₀⟩
  · rintro s e s' - ⟨todo, free, hs⟩ ⟨hintime, hstep⟩
    cases e with
    | timeout fn arg t =>
      cases free with
      | nil =>
        have hfull : s.callfree = none := hs.freeChain
        have hnone : step n s (.timeout fn arg t) = none := by
          unfold step timeout
          rw [hfull]
          rfl
        exact absurd (hnone.symm.trans hstep) nofun
      | cons p free =>
        obtain ⟨s₁, hs₁, -, todo', hholds⟩ := hs.timeout_effect fn arg t
        obtain rfl : s₁ = s' := Option.some_inj.mp (hs₁.symm.trans hstep)
        exact ⟨todo', free, hholds⟩
    | untimeout fn arg =>
      obtain ⟨s₁, hs₁, -, hholds⟩ := hs.untimeout_effect fn arg
      obtain rfl : s₁ = s' := Option.some_inj.mp (hs₁.symm.trans hstep)
      exact hholds
    | hardclock =>
      obtain ⟨s₁, hs₁, -, hholds⟩ := hs.hardclock_effect (hs.todo_eq ▸ hintime rfl)
      obtain rfl : s₁ = s' := Option.some_inj.mp (hs₁.symm.trans hstep)
      exact ⟨todo, free, hholds⟩
    | softclock =>
      obtain ⟨s₁, hs₁, -, hholds⟩ := hs.softclock_effect
      obtain rfl : s₁ = s' := Option.some_inj.mp (hs₁.symm.trans hstep)
      exact hholds

/-- Calls are on time, and every event has its effect, but for a `timeout` with the table full. -/
theorem callouts_on_time {func₀ : Func} {arg₀ : Arg} (h : ((system n func₀ arg₀).restrict (InTime n)).Reachable s) :
    OnTime n s ∧ ∀ e, InTime n s e →
      (∃ s', step n s e = some s' ∧ Effect n s e s') ∨
        ((∃ fn arg t, e = .timeout fn arg t) ∧ s.free n = [] ∧ step n s e = none) := by
  obtain ⟨todo, free, hs⟩ := holds_of_reachable h
  refine ⟨hs.onTime, fun e hintime => ?_⟩
  cases e with
  | timeout fn arg t =>
    cases free with
    | nil =>
      have hfull : s.callfree = none := hs.freeChain
      refine .inr ⟨⟨fn, arg, t, rfl⟩, hs.free_eq, ?_⟩
      unfold step timeout
      rw [hfull]
      rfl
    | cons p free =>
      obtain ⟨s', hstep, heffect, -⟩ := hs.timeout_effect fn arg t
      exact .inl ⟨s', hstep, heffect⟩
  | untimeout fn arg =>
    obtain ⟨s', hstep, heffect, -⟩ := hs.untimeout_effect fn arg
    exact .inl ⟨s', hstep, heffect⟩
  | hardclock =>
    obtain ⟨s', hstep, heffect, -⟩ := hs.hardclock_effect (hs.todo_eq ▸ hintime rfl)
    exact .inl ⟨s', hstep, heffect⟩
  | softclock =>
    obtain ⟨s', hstep, heffect, -⟩ := hs.softclock_effect
    exact .inl ⟨s', hstep, heffect⟩

/-- Two calls are asked for, the second one for an earlier tick, and run late; another is cancelled. -/
def threeCalls : List (Event ℕ ℕ) :=
  [.timeout 7 1 2, .timeout 7 2 1, .timeout 8 1 5, .hardclock, .hardclock, .hardclock, .softclock,
    .untimeout 8 1, .softclock]

theorem threeCalls_inTime : System.MeetsAlong (step 3) (InTime 3) (startup 3 0 0) threeCalls :=
  System.MeetsAlong.of_stepsPass (by decide)

theorem callouts_on_time_threeCalls :
    ∃ s, System.runFrom (step 3) (startup 3 0 0) threeCalls = some s ∧ OnTime 3 s :=
  ⟨_, rfl, (callouts_on_time (System.Reachable.runFrom_restrict (.init rfl) threeCalls_inTime rfl)).1⟩

end Results

section Forgotten

/-- A table of one slot with a call for the first tick on the queue. -/
def waiting (now time : ℤ) : Table Unit Unit where
  c_time := update (fun _ => 0) 1 time
  c_arg _ := ()
  c_func _ := ()
  c_next := update (update (startup 1 () ()).c_next 1 none) calltodo (some 1)
  callfree := none
  now := now
  due := update (fun _ => 0) 1 1

theorem waiting_start : step 1 (startup 1 () ()) (.timeout () () 1) = some (waiting 0 1) := rfl

theorem waiting_tick {now time : ℤ} (h : int (time - 1) < 0 ∨ int (time - 1) = 0) :
    step 1 (waiting now time) .hardclock = some (waiting (now + 1) (int (time - 1))) := by
  have hcount : countDown (waiting now time).c_next 2 ((waiting now time).c_next calltodo)
      (waiting now time).c_time false = some (update (fun _ => 0) 1 (int (time - 1)), true) := by
    change countDown (waiting now time).c_next 2 (some 1) (update (fun _ => 0) 1 time) false = _
    simp only [countDown, update_self, update_idem]
    rw [if_neg (by omega)]
    by_cases hzero : int (time - 1) = 0
    · rw [if_pos hzero]
    · rw [if_neg hzero]
      rfl
  unfold step hardclock
  rw [hcount]
  rfl

theorem waiting_reachable (k : ℕ) (hk : (k : ℤ) ≤ 2 ^ 31 + 1) : (system 1 () ()).Reachable (waiting k (1 - k)) := by
  induction k with
  | zero => exact (System.Reachable.init rfl).step waiting_start
  | succ k ih =>
    have hint : int (1 - (k : ℤ) - 1) = 1 - ((k + 1 : ℕ) : ℤ) := by
      rw [int_eq (by omega) (by omega)]
      omega
    have htick : step 1 (waiting k (1 - k)) .hardclock =
        some (waiting (k + 1) (int (1 - (k : ℤ) - 1))) := waiting_tick (by omega)
    rw [hint] at htick
    exact (ih (by omega)).step htick

theorem waiting_wraps (now : ℤ) :
    step 1 (waiting now (-2 ^ 31)) .hardclock = some (waiting (now + 1) (2 ^ 31 - 1)) := by
  have hint : int (-2 ^ 31 - 1) = 2 ^ 31 - 1 := by decide
  have hcount : countDown (waiting now (-2 ^ 31)).c_next 2 ((waiting now (-2 ^ 31)).c_next calltodo)
      (waiting now (-2 ^ 31)).c_time false = some (update (fun _ => 0) 1 (2 ^ 31 - 1), false) := by
    change countDown (waiting now (-2 ^ 31)).c_next 2 (some 1) (update (fun _ => 0) 1 (-2 ^ 31))
      false = _
    simp only [countDown, update_self, update_idem]
    rw [hint, if_pos (by decide)]
  unfold step hardclock
  rw [hcount]
  rfl

/-- A call that stays on the queue for 2^31 ticks after it was due is not due any more. -/
theorem call_forgotten : ∃ s, (system 1 () ()).Reachable s ∧ ¬OnTime 1 s := by
  have hlate : (system 1 () ()).Reachable (waiting (2 ^ 31 + 1) (-2 ^ 31)) :=
    waiting_reachable (2 ^ 31 + 1) (by decide)
  refine ⟨_, hlate.step (waiting_wraps (2 ^ 31 + 1)), fun h => ?_⟩
  have hdue := (h.due [] 1 [] rfl).mpr (by decide) 1 (by decide)
  exact absurd hdue (by decide)

end Forgotten

end OnTime

end Osf1.Callout
