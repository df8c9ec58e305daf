import Osf1.Mach.Copyout

/-!
# Messages that are not well placed

With a kernel in which nothing fails `msg_copyin` gets to every item that it does not refuse.  If its walk and
that of `msg_destroy` are safe, then all of them are well placed.
-/

set_option autoImplicit false

namespace Osf1.Mach

open List

section Misplaced

open Osf1.Computation

variable {σ : Type} {K : Kernel σ} {d : Desc} {p : PortList} {e s t k n fuel : ℕ} {l : List (ℕ × ℕ)}
  {w w' : Walk σ} {b : Bytes} {simple ok : Bool} {ended : Ended} {again : Prop}

section Rounds

/-- How a round of the loop of `msg_copyin` comes to the end of the walk. -/
inductive Round (K : Kernel σ) (e fuel s : ℕ) (simple : Bool) (w : Walk σ) (d : Desc) : Ended → Walk σ → Prop where
  | refused {ret : ℤ} (hrefused : remaining e (s + d.size) < d.need ∨ d.is_port = true ∧ d.ts ≠ 64) :
      Round K e fuel s simple w d (.failed ret s) (w.touch (d.accesses s))
  | bad {w' : Walk σ} (hdata : itemData K d s (w.touch (d.accesses s)) = (none, w')) :
      Round K e fuel s simple w d (.failed SEND_INVALID_MEMORY s) w'
  | invalid {p : PortList} {w₁ w' : Walk σ} (hts : d.is_port = true → d.ts = 64)
      (hdata : itemData K d s (w.touch (d.accesses s)) = (some p, w₁)) (hports : itemPorts K d p w₁ = (false, w')) :
      Round K e fuel s simple w d (.failed SEND_INVALID_PORT e) w'
  | item {p : PortList} {w₁ w₂ w' : Walk σ} {ended : Ended} (hneed : ¬remaining e (s + d.size) < d.need)
      (hts : d.is_port = true → d.ts = 64) (hdata : itemData K d s (w.touch (d.accesses s)) = (some p, w₁))
      (hports : itemPorts K d p w₁ = (true, w₂))
      (hrest : copyinItems K e fuel (d.next s) (simple && d.isInline && !d.is_port) (w₂.passed s (d.next s)) =
        some (ended, w')) : Round K e fuel s simple w d ended w'

theorem copyinItems_inv (hs : s < e) (hd : Desc.read w.mem.buf s = d)
    (h : copyinItems K e (fuel + 1) s simple w = some (ended, w')) : Round K e fuel s simple w d ended w' := by
  rw [copyinItems_round hs hd] at h
  by_cases hsmall : remaining e (s + d.size) < d.need
  · rw [if_pos hsmall] at h
    cases h
    exact .refused (.inl hsmall)
  rw [if_neg hsmall] at h
  by_cases hport : d.is_port = true ∧ d.ts ≠ 64
  · rw [if_pos hport] at h
    cases h
    exact .refused (.inr hport)
  rw [if_neg hport] at h
  have hts : d.is_port = true → d.ts = 64 := fun hyes => by
    by_contra hne
    exact hport ⟨hyes, hne⟩
  cases hdata : itemData K d s (w.touch (d.accesses s)) with
  | mk list w₁ =>
    rw [hdata] at h
    cases list with
    | none =>
      cases h
      exact .bad hdata
    | some p =>
      dsimp only at h
      cases hports : itemPorts K d p w₁ with
      | mk ok w₂ =>
        rw [hports] at h
        cases ok with
        | false =>
          cases h
          exact .invalid hts hdata hports
        | true => exact .item hsmall hts hdata hports h

theorem itemPorts_does (hts : d.is_port = true → d.ts = 64) {w₁ : Walk σ}
    (hdata : itemData K d s w = (some p, w₁)) (hports : itemPorts K d p w₁ = (ok, w')) :
    TookItem K d s w ok w' := by
  have htook := itemData_does K d s w
  rw [hdata] at htook
  have hitem := htook.ports_do hts
  rw [hports] at hitem
  exact hitem

/-- A walk has only gone on. -/
structure Extends (w w' : Walk σ) : Prop where
  items : ∀ x ∈ w.items, x ∈ w'.items
  touched : ∀ x ∈ w.touched, x ∈ w'.touched

theorem Extends.trans {w'' : Walk σ} (h : Extends w w') (h' : Extends w' w'') : Extends w w'' :=
  ⟨fun x hx => h'.items x (h.items x hx), fun x hx => h'.touched x (h.touched x hx)⟩

theorem TookItem.extends (h : TookItem K d s w ok w') : Extends w w' := by
  obtain ⟨l, htouched, -⟩ := h.touched
  refine ⟨fun x hx => ?_, fun x hx => ?_⟩
  · rw [h.items]
    exact hx
  · rw [htouched]
    exact mem_append_left _ hx

theorem extends_passed (w : Walk σ) (s t : ℕ) : Extends w (w.passed s t) :=
  ⟨fun _ hx => mem_append_left _ hx, fun _ hx => hx⟩

theorem copyinItems_extends (h : copyinItems K e fuel s simple w = some (ended, w')) : Extends w w' := by
  induction fuel generalizing s simple w with
  | zero => cases h
  | succ fuel ih =>
    by_cases hs : s < e
    · have htouch : Extends w (w.touch ((Desc.read w.mem.buf s).accesses s)) :=
        ⟨fun _ hx => hx, fun _ hx => mem_append_left _ hx⟩
      apply htouch.trans
      cases copyinItems_inv hs rfl h with
      | refused hrefused => exact ⟨fun _ hx => hx, fun _ hx => hx⟩
      | bad hdata =>
        have htook := itemData_does K (Desc.read w.mem.buf s) s (w.touch ((Desc.read w.mem.buf s).accesses s))
        rw [hdata] at htook
        obtain ⟨l, htouched, -⟩ := htook.touched
        refine ⟨fun x hx => ?_, fun x hx => ?_⟩
        · rw [htook.items]
          exact hx
        · rw [htouched]
          exact mem_append_left _ hx
      | invalid hts hdata hports => exact (itemPorts_does hts hdata hports).extends
      | item hneed hts hdata hports hrest =>
        exact (itemPorts_does hts hdata hports).extends.trans ((extends_passed _ _ _).trans (ih hrest))
    · rw [copyinItems_end (Nat.le_of_not_lt hs)] at h
      cases h
      exact ⟨fun _ hx => hx, fun _ hx => hx⟩

theorem copyinItems_accesses (h : copyinItems K e (fuel + 1) s simple w = some (ended, w')) (hs : s < e)
    (hd : Desc.read w.mem.buf s = d) : ∀ x ∈ d.accesses s, x ∈ w'.touched := by
  intro x hx
  have hfirst : x ∈ (w.touch (d.accesses s)).touched := mem_append_right _ hx
  cases copyinItems_inv hs hd h with
  | refused hrefused => exact hfirst
  | bad hdata =>
    have htook := itemData_does K d s (w.touch (d.accesses s))
    rw [hdata] at htook
    obtain ⟨l, htouched, -⟩ := htook.touched
    rw [htouched]
    exact mem_append_left _ hfirst
  | invalid hts hdata hports => exact (itemPorts_does hts hdata hports).extends.touched x hfirst
  | item hneed hts hdata hports hrest =>
    have hitem := (itemPorts_does hts hdata hports).extends
    exact (hitem.trans ((extends_passed _ _ _).trans (copyinItems_extends hrest))).touched x hfirst

theorem Desc.whole (h : Inside e l) (hl : ∀ x ∈ d.accesses s, x ∈ l) : s + d.size ≤ e := by
  unfold Desc.accesses at hl
  unfold Desc.size
  cases hlong : d.longform with
  | true =>
    rw [hlong, if_pos rfl] at hl
    rw [if_pos rfl]
    have := h _ (hl (s + 4, 8) (mem_cons_of_mem _ (mem_singleton_self _)))
    omega
  | false =>
    exact h _ (hl (s, 4) mem_cons_self)

end Rounds

section Tracking

/-- What `msg_copyin` leaves in a message: all that is ahead, and the descriptors behind it. -/
structure Tracked (b : Bytes) (s : ℕ) (w : Walk σ) : Prop where
  ahead : ∀ i, s ≤ i → w.mem.buf i = b i
  behind : ∀ x ∈ w.items, x.2 ≤ s ∧ x.2 = (Desc.read b x.1).next x.1 ∧ Desc.read w.mem.buf x.1 = Desc.read b x.1

section

variable (h : Tracked b s w)
include h

theorem Tracked.read : Desc.read w.mem.buf s = Desc.read b s :=
  Desc.read_congr fun i hlo _ => h.ahead i hlo

theorem Tracked.keep (hitems : w'.items = w.items) (hbuf : ∀ i, i < s → w'.mem.buf i = w.mem.buf i) :
    ∀ x ∈ w'.items, x.2 ≤ s ∧ x.2 = (Desc.read b x.1).next x.1 ∧
      Desc.read w'.mem.buf x.1 = Desc.read b x.1 := by
  intro x hx
  rw [hitems] at hx
  obtain ⟨hle, hnext, hread⟩ := h.behind x hx
  refine ⟨hle, hnext, ?_⟩
  rw [← hread]
  apply Desc.read_congr
  intro i _ hhi
  rw [hread] at hhi
  have := (Desc.read b x.1).size_le_data x.1
  have := (Desc.read b x.1).data_le_next x.1
  exact hbuf i (by omega)

theorem Tracked.item (hd : Desc.read b s = d) (htook : TookItem K d s (w.touch (d.accesses s)) ok w') :
    Tracked b (d.next s) (w'.passed s (d.next s)) := by
  have hsize := d.size_le_data s
  have hlt := d.lt_next s
  have hread : Desc.read w.mem.buf s = d := h.read.trans hd
  refine ⟨?_, ?_⟩
  · intro i hi
    exact (htook.buf i (.inr hi)).trans (h.ahead i (by omega))
  · intro x hx
    rcases mem_append.mp hx with hmem | hmem
    · obtain ⟨hle, hnext, hsame⟩ := h.keep htook.items (fun i hi => htook.buf i (.inl (by omega))) x hmem
      exact ⟨by omega, hnext, hsame⟩
    · obtain rfl := mem_singleton.mp hmem
      rw [hd]
      refine ⟨Nat.le_refl _, rfl, ?_⟩
      rw [← hread]
      apply Desc.read_congr
      rw [hread]
      intro i _ hhi
      exact htook.buf i (.inl (by omega))

theorem Tracked.all (hrun : copyinItems K e fuel s simple w = some (ended, w')) :
    ∀ x ∈ w'.items, x.2 = (Desc.read b x.1).next x.1 ∧ Desc.read w'.mem.buf x.1 = Desc.read b x.1 := by
  induction fuel generalizing s simple w with
  | zero => cases hrun
  | succ fuel ih =>
    have hsize := (Desc.read b s).size_le_data s
    by_cases hs : s < e
    · cases copyinItems_inv hs h.read hrun with
      | refused hrefused => exact fun x hx => (h.behind x hx).2
      | bad hdata =>
        have htook := itemData_does K (Desc.read b s) s (w.touch ((Desc.read b s).accesses s))
        rw [hdata] at htook
        exact fun x hx => (h.keep htook.items (fun i hi => htook.buf i (.inl (by omega))) x hx).2
      | invalid hts hdata hports =>
        have htook := itemPorts_does hts hdata hports
        exact fun x hx => (h.keep htook.items (fun i hi => htook.buf i (.inl (by omega))) x hx).2
      | item hneed hts hdata hports hrest =>
        exact ih (h.item rfl (itemPorts_does hts hdata hports)) hrest
    · rw [copyinItems_end (Nat.le_of_not_lt hs)] at hrun
      cases hrun
      exact fun x hx => (h.behind x hx).2

end

theorem copyinItems_simple (h : copyinItems K e fuel s false w = some (.done simple, w')) : simple = false := by
  induction fuel generalizing s w with
  | zero => cases h
  | succ fuel ih =>
    by_cases hs : s < e
    · cases copyinItems_inv hs rfl h with
      | item hneed hts hdata hports hrest => exact ih hrest
    · rw [copyinItems_end (Nat.le_of_not_lt hs)] at h
      cases h
      rfl

theorem Complex.not_simple (hcomplex : Complex b e s) (he : e < 2 ^ 64) (h : Tracked b s w)
    (hrun : copyinItems K e fuel s simple w = some (.done ok, w')) (hinside : Inside e w'.touched) :
    ok = false := by
  induction hcomplex generalizing fuel simple w with
  | @refused s hs hrefused =>
    cases fuel with
    | zero => cases hrun
    | succ fuel =>
      have hdesc := Desc.whole hinside (copyinItems_accesses hrun hs h.read)
      cases copyinItems_inv hs h.read hrun with
      | item hneed hts hdata hports hrest =>
        rw [remaining_eq he hdesc] at hneed
        rcases hrefused with hsmall | hport
        · exact absurd hsmall hneed
        · exact absurd (hts hport.1) hport.2
  | @here s hs hitem =>
    cases fuel with
    | zero => cases hrun
    | succ fuel =>
      cases copyinItems_inv hs h.read hrun with
      | item hneed hts hdata hports hrest =>
        have hfalse : (simple && (Desc.read b s).isInline && !(Desc.read b s).is_port) = false := by
          rcases hitem with hport | hout
          · simp [hport]
          · simp [hout]
        rw [hfalse] at hrest
        exact copyinItems_simple hrest
  | @later s hs _ ih =>
    cases fuel with
    | zero => cases hrun
    | succ fuel =>
      cases copyinItems_inv hs h.read hrun with
      | item hneed hts hdata hports hrest => exact ih (h.item rfl (itemPorts_does hts hdata hports)) hrest

end Tracking

section Destroying

theorem destroyPorts_keeps (K : Kernel σ) (d : Desc) (p : PortList) (n k : ℕ) (w : Walk σ) :
    (destroyPorts K d p n k w).2.mem = w.mem ∧ (destroyPorts K d p n k w).2.items = w.items ∧
      ∀ x ∈ w.touched, x ∈ (destroyPorts K d p n k w).2.touched := by
  induction n generalizing k w with
  | zero => exact ⟨rfl, rfl, fun _ hx => hx⟩
  | succ n ih =>
    rw [destroyPorts]
    have htouch : ∀ x ∈ w.touched, x ∈ (w.touch (p.accesses k)).touched := fun x hx => mem_append_left _ hx
    by_cases hinvalid : w.mem.port p k = KERN_OBJ_INVALID
    · rw [if_pos hinvalid]
      exact ⟨rfl, rfl, htouch⟩
    · rw [if_neg hinvalid]
      by_cases hnull : w.mem.port p k ≠ 0
      · rw [if_pos hnull]
        obtain ⟨hmem, hitems, htouched⟩ := ih (k + 1) { w.touch (p.accesses k) with
          kern := K.object_destroy (w.touch (p.accesses k)).kern (w.mem.port p k) d.tn }
        exact ⟨hmem, hitems, fun x hx => htouched x (htouch x hx)⟩
      · rw [if_neg hnull]
        obtain ⟨hmem, hitems, htouched⟩ := ih (k + 1) (w.touch (p.accesses k))
        exact ⟨hmem, hitems, fun x hx => htouched x (htouch x hx)⟩

/-- The items that `msg_destroy` has walked over. -/
structure Found (m : Mem) (w : Walk σ) : Prop where
  mem : w.mem = m
  after : ∀ x ∈ w.items, x.2 = (Desc.read m.buf x.1).after x.1
  internal : ∀ x ∈ w.items, (Desc.read m.buf x.1).tn = MSG_TYPE_INTERNAL_MEMORY →
    ((Desc.read m.buf x.1).data x.1, 8) ∈ w.touched

theorem Found.grow {m : Mem} (h : Found m w) (hmem : w'.mem = w.mem) (hitems : w'.items = w.items)
    (htouched : ∀ x ∈ w.touched, x ∈ w'.touched) : Found m w' := by
  refine ⟨hmem.trans h.mem, ?_, ?_⟩
  · rw [hitems]
    exact h.after
  · rw [hitems]
    exact fun x hx htn => htouched _ (h.internal x hx htn)

theorem destroyItems_round (hs : s < e) (hd : Desc.read w.mem.buf s = d) :
    destroyItems K e (fuel + 1) s w =
      match (if d.is_port = true then
        destroyPorts K d ((w.touch (d.accesses s)).portList d (d.data s)).1 d.elts 0
          ((w.touch (d.accesses s)).portList d (d.data s)).2
        else (true, w.touch (d.accesses s))) with
      | (true, w) =>
        destroyItems K e fuel (destroyData K d (d.data s) w).1
          ((destroyData K d (d.data s) w).2.passed s (destroyData K d (d.data s) w).1)
      | (false, w) => some w := by
  have hplace : d.aligned (s + d.size) = d.data s := rfl
  refine Eq.trans (if_pos hs) ?_
  simp only [hd, hplace]
  generalize (if d.is_port = true then
      destroyPorts K d ((w.touch (d.accesses s)).portList d (d.data s)).1 d.elts 0
        ((w.touch (d.accesses s)).portList d (d.data s)).2
      else (true, w.touch (d.accesses s))) = r
  obtain ⟨ok, w₁⟩ := r
  cases ok with
  | true => rfl
  | false => rfl

theorem destroyItems_finds {m : Mem} (h : Found m w) (hrun : destroyItems K e fuel s w = some w') : Found m w' := by
  induction fuel generalizing s w with
  | zero => cases hrun
  | succ fuel ih =>
    by_cases hs : s < e
    · obtain ⟨d, hd⟩ : ∃ d, Desc.read w.mem.buf s = d := ⟨_, rfl⟩
      have htouch : Found m (w.touch (d.accesses s)) := h.grow rfl rfl fun x hx => mem_append_left _ hx
      have hports : Found m (if d.is_port = true then
          destroyPorts K d ((w.touch (d.accesses s)).portList d (d.data s)).1 d.elts 0
            ((w.touch (d.accesses s)).portList d (d.data s)).2
          else (true, w.touch (d.accesses s))).2 := by
        by_cases hport : d.is_port = true
        · rw [if_pos hport]
          obtain ⟨l, hlist, -⟩ := portList_reads (d := d) (s := s) (e := e) (w := w.touch (d.accesses s)) rfl
          rw [hlist]
          obtain ⟨hmem, hitems, htouched⟩ := destroyPorts_keeps K d (w.mem.portList d s) d.elts 0
            ⟨w.kern, w.mem, w.items, w.touched ++ d.accesses s ++ l⟩
          exact htouch.grow hmem hitems fun x hx => htouched x (mem_append_left _ hx)
        · rw [if_neg hport]
          exact htouch
      rw [destroyItems_round hs hd] at hrun
      generalize (if d.is_port = true then
          destroyPorts K d ((w.touch (d.accesses s)).portList d (d.data s)).1 d.elts 0
            ((w.touch (d.accesses s)).portList d (d.data s)).2
          else (true, w.touch (d.accesses s))) = r at hports hrun
      obtain ⟨ok, w₁⟩ := r
      cases ok with
      | false =>
        cases hrun
        exact hports
      | true =>
        have hread : Desc.read m.buf s = d := by
          rw [← h.mem]
          exact hd
        refine ih ?_ hrun
        obtain ⟨kern, l, hdata, -⟩ := destroyData_reads (K := K) (d := d) (s := s) (e := e) (w := w₁) rfl
        have hinternal : d.tn = MSG_TYPE_INTERNAL_MEMORY →
            (d.data s, 8) ∈ (destroyData K d (d.data s) w₁).2.touched := by
          intro htn
          unfold destroyData
          rw [if_pos htn]
          exact mem_append_right _ (mem_singleton_self _)
        rw [hdata] at hinternal ⊢
        have hgrown : Found m (⟨kern, w₁.mem, w₁.items, w₁.touched ++ l⟩ : Walk σ) :=
          hports.grow rfl rfl fun x hx => mem_append_left _ hx
        refine ⟨hgrown.mem, ?_, ?_⟩
        · intro x hx
          rcases mem_append.mp hx with hmem | hmem
          · exact hgrown.after x hmem
          · obtain rfl := mem_singleton.mp hmem
            rw [hread]
        · intro x hx htn
          rcases mem_append.mp hx with hmem | hmem
          · exact hgrown.internal x hmem htn
          · obtain rfl := mem_singleton.mp hmem
            rw [hread] at htn ⊢
            exact hinternal htn
    · have hend : destroyItems K e (fuel + 1) s w = some w := if_neg hs
      rw [hend] at hrun
      cases hrun
      exact h

end Destroying

end Misplaced

/-!
## Which messages are passed on safely

Exactly those that are well placed.
-/

section Exactness

open Osf1.Computation

variable {d : Desc} {p : PortList} {e s k n fuel : ℕ} {w w' : Walk ℕ} {b buf : Bytes} {simple : Bool}
  {ended : Ended} {again : Prop} {msg_size : ℕ}

section Obliging

/-- A kernel in which nothing fails as long as there are addresses: they are given in their order. -/
def obliging : Kernel ℕ where
  copyin k := (true, k)
  obj_cache_copyin k name := (some name, k)
  object_copyin k _ _ _ := (some 0, k)
  vm_map_copyin k v _ _ := (some v, k)
  kernel_copyout k _ := if k < 2 ^ 64 then (some (BitVec.ofNat 64 k, fun _ => 0), k + 1) else (none, k)
  object_destroy k _ _ := k
  vm_object_deallocate k _ := k
  vm_deallocate k _ _ := k
  vm_map_copy_discard k _ := k
  obj_release k _ := k
  header_copyout k p q := ((p, q), k)
  object_copyout k p _ := (p, k)
  vm_map_find k v _ := (some v, k)
  kernel_copyin k v _ := (some v, k)
  vm_map_copyout k v := (some v, k)
  copyout k := (true, k)
  mapped k a := a.toNat < k
  valid _ _ _ _ p h := by
    cases h
    decide
  fresh k c a l h := by
    by_cases hk : k < 2 ^ 64
    · rw [if_pos hk] at h ⊢
      cases h
      rw [BitVec.toNat_ofNat, Nat.mod_eq_of_lt hk]
      exact ⟨Nat.lt_irrefl k, Nat.lt_succ_self k⟩
    · rw [if_neg hk] at h
      cases h
  object_copyin_mapped _ _ _ _ _ h := h
  vm_map_copyin_mapped _ _ _ _ _ h := h
  kernel_copyout_mapped k c a h := by
    by_cases hk : k < 2 ^ 64
    · rw [if_pos hk]
      exact Nat.lt_succ_of_lt h
    · rw [if_neg hk]
      exact h

theorem obliging_data (hk : w.kern < 2 ^ 64) :
    ∃ p w₁, itemData obliging d s w = (some p, w₁) ∧ w₁.kern ≤ w.kern + 1 := by
  unfold itemData
  by_cases hinline : d.isInline = true
  · rw [if_pos hinline]
    exact ⟨_, _, rfl, Nat.le_succ _⟩
  · rw [if_neg hinline]
    unfold copyinData
    by_cases htn : d.tn ≠ MSG_TYPE_INTERNAL_MEMORY
    · rw [if_pos htn]
      simp only [obliging, Walk.touch, if_pos hk]
      by_cases hport : d.is_port = true
      · rw [if_pos hport]
        exact ⟨_, _, rfl, Nat.le_refl _⟩
      · rw [if_neg hport]
        exact ⟨_, _, rfl, Nat.le_succ _⟩
    · rw [if_neg htn]
      exact ⟨_, _, rfl, Nat.le_succ _⟩

theorem obliging_copyinPorts (d : Desc) (p : PortList) (n k : ℕ) (w : Walk ℕ) :
    ∃ w', copyinPorts obliging d p n k w = (true, w') ∧ w'.kern = w.kern := by
  induction n generalizing k w with
  | zero => exact ⟨w, rfl, rfl⟩
  | succ n ih =>
    rw [copyinPorts]
    by_cases hnull : w.mem.port p k = 0
    · rw [if_pos hnull]
      exact ih _ _
    · rw [if_neg hnull]
      exact ih _ _

theorem obliging_ports (d : Desc) (p : PortList) (w : Walk ℕ) :
    ∃ w', itemPorts obliging d p w = (true, w') ∧ w'.kern = w.kern := by
  unfold itemPorts
  by_cases hport : d.is_port = true
  · rw [if_pos hport]
    exact obliging_copyinPorts ..
  · rw [if_neg hport]
    exact ⟨w, rfl, rfl⟩

end Obliging

section Exactness

theorem Desc.lt_next_of_misfit (h : ¬d.FitsAt e s) : e < d.next s := by
  unfold Desc.FitsAt Desc.need at h
  unfold Desc.next
  have hrounded := d.numbytes_le
  cases hinline : d.isInline with
  | true =>
    rw [hinline, if_pos rfl] at h
    rw [if_pos rfl]
    omega
  | false =>
    rw [hinline, if_neg Bool.false_ne_true] at h
    rw [if_neg Bool.false_ne_true]
    omega

theorem copyinItems_placed (h : Tracked b s w) (hcount : w.kern ≤ s) (he : e < 2 ^ 64)
    (hrun : copyinItems obliging e fuel s simple w = some (ended, w')) (hinside : Inside e w'.touched)
    (hfits : ∀ simple, ended = .done simple → ∀ x ∈ w'.items, Fits b e x.1)
    (hinternal : again → ∀ x ∈ w'.items, (Desc.read b x.1).tn = MSG_TYPE_INTERNAL_MEMORY →
      (Desc.read b x.1).isInline = true → (Desc.read b x.1).rounded = 8 ∧ (Desc.read b x.1).data x.1 + 8 ≤ e) :
    Placed b e again s := by
  induction fuel generalizing s simple w with
  | zero => cases hrun
  | succ fuel ih =>
    by_cases hs : s < e
    · obtain ⟨d, hd⟩ : ∃ d, Desc.read b s = d := ⟨_, rfl⟩
      have hdesc : s + d.size ≤ e := Desc.whole hinside (copyinItems_accesses hrun hs (h.read.trans hd))
      have hround := copyinItems_inv hs (h.read.trans hd) hrun
      have hlt : (w.touch (d.accesses s)).kern < 2 ^ 64 := Nat.lt_of_le_of_lt hcount (Nat.lt_trans hs he)
      obtain ⟨p, w₁, hdata, hkern⟩ := obliging_data (d := d) (s := s) hlt
      obtain ⟨w₂, hports, hkern'⟩ := obliging_ports d p w₁
      cases hround with
      | refused hrefused =>
        rw [remaining_eq he hdesc] at hrefused
        exact .refused hs (hd ▸ hdesc) (hd ▸ hrefused)
      | bad hdata' =>
        rw [hdata] at hdata'
        cases hdata'
      | invalid hts hdata' hports' =>
        rw [hdata] at hdata'
        cases hdata'
        rw [hports] at hports'
        cases hports'
      | item hneed hts hdata' hports' hrest =>
        rw [hdata] at hdata'
        cases hdata'
        rw [hports] at hports'
        cases hports'
        rw [remaining_eq he hdesc] at hneed
        have hok : ¬d.Refused e s := fun hrefused =>
          hrefused.elim hneed fun hport => hport.2 (hts hport.1)
        have hnext := d.lt_next s
        have hitem : (s, d.next s) ∈ w'.items :=
          (copyinItems_extends hrest).items _ (mem_append_right _ (mem_singleton_self _))
        have hfitsAt : d.FitsAt e s := by
          by_contra hmisfit
          have hbehind := Desc.lt_next_of_misfit hmisfit
          cases fuel with
          | zero => cases hrest
          | succ fuel =>
            rw [copyinItems_end (Nat.le_of_lt hbehind)] at hrest
            cases hrest
            have hfit := (hfits _ rfl _ hitem).2
            rw [hd] at hfit
            exact hmisfit hfit
        have hmemory : again → d.tn = MSG_TYPE_INTERNAL_MEMORY → d.isInline = true →
            d.rounded = 8 ∧ d.data s + 8 ≤ e := by
          intro hagain
          have hdata := hinternal hagain (s, d.next s) hitem
          rw [hd] at hdata
          exact hdata
        subst hd
        refine .item hs hdesc hok hfitsAt hmemory ?_
        refine ih (h.item rfl (itemPorts_does hts hdata hports)) ?_ hrest
        change w₂.kern ≤ (Desc.read b s).next s
        have : (w.touch ((Desc.read b s).accesses s)).kern = w.kern := rfl
        omega
    · exact .done (Nat.le_of_not_lt hs)

theorem Found.internal_data {w wd : Walk ℕ} (h : Found w.mem wd) (hitems : wd.items = w.items)
    (hinside : Inside e wd.touched)
    (hall : ∀ x ∈ w.items, x.2 = (Desc.read b x.1).next x.1 ∧ Desc.read w.mem.buf x.1 = Desc.read b x.1) :
    ∀ x ∈ w.items, (Desc.read b x.1).tn = MSG_TYPE_INTERNAL_MEMORY →
      (Desc.read b x.1).isInline = true →
        (Desc.read b x.1).rounded = 8 ∧ (Desc.read b x.1).data x.1 + 8 ≤ e := by
  intro x hx htn hinline
  obtain ⟨hnext, hread⟩ := hall x hx
  rw [← hitems] at hx
  have hafter := h.after x hx
  have hinternal := h.internal x hx
  rw [hread] at hafter hinternal
  have hend := hinside _ (hinternal htn)
  rw [hafter] at hnext
  unfold Desc.after Desc.next at hnext
  rw [if_pos htn, hinline, if_pos rfl] at hnext
  exact ⟨by omega, hend⟩

theorem msg_destroy_finds {mem : Mem} {kern : ℕ} {wd : Walk ℕ}
    (h : msg_destroy obliging kern mem e false = some wd) : Found mem wd := by
  unfold msg_destroy at h
  exact destroyItems_finds ⟨rfl, fun _ hx => absurd hx not_mem_nil, fun _ hx => absurd hx not_mem_nil⟩ h

theorem WellPlaced.of_safe (h : ∃ r, msg_copyin obliging 0 msg_size buf = some r ∧ r.Safe obliging msg_size buf) :
    WellPlaced msg_size buf := by
  intro hsmall hlarge hport hcomplex
  obtain ⟨r, hr, hsafe⟩ := h
  unfold msg_copyin at hr
  rw [if_neg (Nat.not_lt.mpr hsmall), if_neg (Nat.not_lt.mpr hlarge)] at hr
  have hmax : msg_size < 2 ^ 64 := by
    unfold MSG_SIZE_MAX at hlarge
    omega
  obtain ⟨buf', kern, hheader, hkern⟩ : ∃ buf' kern, copyinHeader obliging 0 buf = (some buf', kern) ∧ kern = 0 := by
    unfold copyinHeader
    simp only [if_neg hport, obliging]
    by_cases hlocal : word buf 16 = 0
    · rw [if_pos hlocal]
      exact ⟨_, _, rfl, rfl⟩
    · rw [if_neg hlocal]
      exact ⟨_, _, rfl, rfl⟩
  have hsome : (copyinHeader obliging 0 buf).1 = some buf' := by
    rw [hheader]
  have hsame := (copyinHeader_other hsome).2
  have hthree : buf' 3 = buf 3 := hsame 3 (.inr (by decide))
  have hcopyin : obliging.copyin 0 = (true, 0) := rfl
  have hnot : ¬buf' 3 ≠ 0 := by
    rw [hthree]
    exact not_not.mpr hcomplex
  simp only [hcopyin, hheader, if_neg hnot, Option.bind_eq_bind] at hr
  have hstart : Tracked buf headerSize (⟨kern, ⟨buf', fun _ _ => 0⟩, [], []⟩ : Walk ℕ) :=
    ⟨fun i hi => hsame i (.inl hi), nofun⟩
  have hcount : kern ≤ headerSize := by
    rw [hkern]
    exact Nat.zero_le _
  cases hrun : copyinItems obliging msg_size (msg_size + 1) headerSize true ⟨kern, ⟨buf', fun _ _ => 0⟩, [], []⟩ with
  | none =>
    rw [hrun] at hr
    cases hr
  | some result =>
    obtain ⟨ended, w⟩ := result
    rw [hrun] at hr
    have hall := hstart.all hrun
    cases ended with
    | done simple =>
      cases hr
      have hfits := (hsafe.accepted rfl hcomplex).2
      refine copyinItems_placed hstart hcount hmax hrun hsafe.copyin (fun _ _ => hfits) ?_
      intro hagain
      obtain rfl := hagain.not_simple hmax hstart hrun hsafe.copyin
      obtain ⟨wd, hdestroy, hitems, hinside⟩ := hsafe.destroy rfl 0
      exact (msg_destroy_finds hdestroy).internal_data hitems hinside hall
    | failed ret size =>
      simp only [Option.bind_some] at hr
      generalize hdestroy : msg_destroy obliging w.kern w.mem size false = w at hr
      cases w with
      | none =>
        cases hr
      | some wd =>
        cases hr
        obtain ⟨hitems, hinside⟩ := hsafe.rejected wd rfl
        refine copyinItems_placed hstart hcount hmax hrun hsafe.copyin nofun ?_
        exact fun _ => (msg_destroy_finds hdestroy).internal_data hitems hinside hall

/-- A message for a port `1` with two bytes of a descriptor. -/
def cutOff : Bytes := Function.update (fun _ => 0) 24 1

end Exactness

end Exactness

end Osf1.Mach
