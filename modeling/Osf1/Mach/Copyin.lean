import Osf1.Mach.Model

/-!
# What `msg_copyin` does to the items

An item that `msg_copyin` has walked over is one that `msg_destroy` can walk over: it writes only to the data
of the item, and the ports it leaves there are not `KERN_OBJ_INVALID`.
-/

set_option autoImplicit false

namespace Osf1.Mach

open Function List

section Copyin

open Osf1.Computation

variable {σ : Type} {K : Kernel σ} {m m' : Mem} {d : Desc} {p : PortList}
  {e s t a i j k n fuel lo hi : ℕ} {l l' : List (ℕ × ℕ)} {w w' : Walk σ} {b : Bytes} {v : BitVec 64} {ok : Bool}

section Ports

theorem Mem.port_setPort (m : Mem) (p : PortList) (k : ℕ) (v : BitVec 64) : (m.setPort p k v).port p k = v := by
  cases p with
  | body s => exact word_setWord ..
  | map a =>
    unfold Mem.setPort Mem.port
    dsimp only
    rw [update_self, update_self]

theorem Mem.port_setPort_other (m : Mem) (p : PortList) (v : BitVec 64) (hj : j ≠ k) :
    (m.setPort p k v).port p j = m.port p j := by
  cases p with
  | body s =>
    apply word_congr
    intro i hlo hhi
    exact setWord_other (by omega)
  | map a =>
    unfold Mem.setPort Mem.port
    dsimp only
    rw [update_self, update_of_ne hj]

/-- Only the elements from `lo` to `hi` of a list of ports have changed. -/
structure PortList.Keeps (p : PortList) (lo hi : ℕ) (m m' : Mem) : Prop where
  buf : ∀ i, (∀ s, p = .body s → i < s + 8 * lo ∨ s + 8 * hi ≤ i) → m'.buf i = m.buf i
  ool : ∀ a, p ≠ .map a → m'.ool a = m.ool a

theorem PortList.keeps_refl (p : PortList) (lo hi : ℕ) (m : Mem) : p.Keeps lo hi m m :=
  ⟨fun _ _ => rfl, fun _ _ => rfl⟩

theorem PortList.Keeps.trans {m'' : Mem} (h : p.Keeps lo hi m m') (h' : p.Keeps lo hi m' m'') :
    p.Keeps lo hi m m'' :=
  ⟨fun i hi => (h'.buf i hi).trans (h.buf i hi), fun a ha => (h'.ool a ha).trans (h.ool a ha)⟩

theorem PortList.Keeps.mono {lo' hi' : ℕ} (h : p.Keeps lo hi m m') (hlo : lo' ≤ lo) (hhi : hi ≤ hi') :
    p.Keeps lo' hi' m m' := by
  refine ⟨fun i hi => h.buf i fun s hs => ?_, h.ool⟩
  have := hi s hs
  omega

theorem keeps_setPort (m : Mem) (p : PortList) (k : ℕ) (v : BitVec 64) : p.Keeps k (k + 1) m (m.setPort p k v) := by
  cases p with
  | body s =>
    refine ⟨fun i hi => ?_, fun _ _ => rfl⟩
    have := hi s rfl
    exact setWord_other (by omega)
  | map a =>
    refine ⟨fun _ _ => rfl, fun a' ha => ?_⟩
    have hne : a' ≠ a := fun heq => ha (by rw [heq])
    exact update_of_ne hne ..

/-- What has happened to the ports of a list, from one on. -/
structure CopiedPorts (K : Kernel σ) (p : PortList) (n k : ℕ) (w : Walk σ) (ok : Bool) (w' : Walk σ) : Prop where
  items : w'.items = w.items
  touched : ∃ l, w'.touched = w.touched ++ l ∧ ∀ x ∈ l, x ∈ (List.range' k n).flatMap p.accesses
  keeps : p.Keeps k (k + n) w.mem w'.mem
  before : ∀ j < k, w'.mem.port p j = w.mem.port p j
  mapped : ∀ a, K.mapped w.kern a → K.mapped w'.kern a
  valid : ok = true → ∀ j < n, w'.mem.port p (k + j) ≠ KERN_OBJ_INVALID
  marked : ok = false → ∃ j < n, w'.mem.port p (k + j) = KERN_OBJ_INVALID ∧
    ∀ i < j, w'.mem.port p (k + i) ≠ KERN_OBJ_INVALID

theorem CopiedPorts.cons {kern : σ} (hv : v ≠ KERN_OBJ_INVALID) (hmapped : ∀ a, K.mapped w.kern a → K.mapped kern a)
    (h : CopiedPorts K p n (k + 1)
      ⟨kern, w.mem.setPort p k v, w.items, w.touched ++ p.accesses k⟩ ok w') :
    CopiedPorts K p (n + 1) k w ok w' := by
  obtain ⟨l, htouched, hl⟩ := h.touched
  have hfirst : w'.mem.port p k = v := by
    rw [h.before k (Nat.lt_succ_self k)]
    exact Mem.port_setPort ..
  have hshift : ∀ j, k + 1 + j = k + (j + 1) := fun j => by omega
  refine ⟨h.items, ⟨p.accesses k ++ l, ?_, ?_⟩, ?_, ?_, fun a ha => h.mapped a (hmapped a ha), ?_, ?_⟩
  · rw [htouched, append_assoc]
  · intro x hx
    rcases mem_append.mp hx with hmem | hmem
    · exact mem_append_left _ hmem
    · exact mem_append_right _ (hl x hmem)
  · have hone : p.Keeps k (k + (n + 1)) w.mem (w.mem.setPort p k v) :=
      (keeps_setPort w.mem p k v).mono (Nat.le_refl k) (by omega)
    exact hone.trans (h.keeps.mono (Nat.le_succ k) (by omega))
  · intro j hj
    rw [h.before j (by omega)]
    exact Mem.port_setPort_other _ _ _ (by omega)
  · intro hok j hj
    cases j with
    | zero =>
      rw [Nat.add_zero, hfirst]
      exact hv
    | succ j =>
      rw [← hshift]
      exact h.valid hok j (by omega)
  · intro hok
    obtain ⟨j, hj, hmark, hbefore⟩ := h.marked hok
    refine ⟨j + 1, by omega, ?_, ?_⟩
    · rw [← hshift]
      exact hmark
    · intro i hi
      cases i with
      | zero =>
        rw [Nat.add_zero, hfirst]
        exact hv
      | succ i =>
        rw [← hshift]
        exact hbefore i (by omega)

theorem copyinPorts_does (K : Kernel σ) (d : Desc) (p : PortList) (n k : ℕ) (w : Walk σ) :
    CopiedPorts K p n k w (copyinPorts K d p n k w).1 (copyinPorts K d p n k w).2 := by
  induction n generalizing k w with
  | zero =>
    exact ⟨rfl, ⟨[], (append_nil _).symm, by rintro _ ⟨⟩⟩, p.keeps_refl .., fun _ _ => rfl, fun _ ha => ha,
      fun _ j hj => absurd hj (Nat.not_lt_zero j), by rintro ⟨⟩⟩
  | succ n ih =>
    rw [copyinPorts]
    by_cases hnull : w.mem.port p k = 0
    · rw [if_pos hnull, hnull]
      exact .cons (by decide) (fun _ ha => ha) (ih _ _)
    · rw [if_neg hnull]
      have hmapped := K.object_copyin_mapped w.kern (w.mem.port p k) d.tn d.deallocate
      have hvalid := K.valid w.kern (w.mem.port p k) d.tn d.deallocate
      simp only [Walk.touch]
      cases hcopy : K.object_copyin w.kern (w.mem.port p k) d.tn d.deallocate with
      | mk obj kern =>
        rw [hcopy] at hmapped hvalid
        cases obj with
        | some obj => exact .cons (hvalid obj rfl) hmapped (ih _ _)
        | none =>
          refine ⟨rfl, ⟨p.accesses k, rfl, ?_⟩, ?_, ?_, hmapped, by rintro ⟨⟩, ?_⟩
          · intro x hx
            exact mem_append_left _ hx
          · exact (keeps_setPort w.mem p k _).mono (Nat.le_refl k) (by omega)
          · exact fun j hj => Mem.port_setPort_other _ _ _ (by omega)
          · exact fun _ => ⟨0, Nat.succ_pos n, Mem.port_setPort .., fun i hi => absurd hi (Nat.not_lt_zero i)⟩

end Ports

section Items

/-- The data of an item, out of line or not, before its ports are looked at. -/
def itemData (K : Kernel σ) (d : Desc) (s : ℕ) (w : Walk σ) : Option PortList × Walk σ :=
  if d.isInline then (some (.body (d.data s)), w) else copyinData K d (d.data s) w

/-- What has happened to the data of an item. -/
structure TookData (K : Kernel σ) (d : Desc) (s : ℕ) (w : Walk σ) (list : Option PortList) (w' : Walk σ) :
    Prop where
  items : w'.items = w.items
  touched : ∃ l, w'.touched = w.touched ++ l ∧ ∀ e, d.FitsAt e s → Inside e l
  buf : ∀ i, i < d.data s ∨ d.next s ≤ i → w'.mem.buf i = w.mem.buf i
  ool : ∀ a, K.mapped w.kern a → w'.mem.ool a = w.mem.ool a
  mapped : ∀ a, K.mapped w.kern a → K.mapped w'.kern a
  ports : ∀ p, list = some p → d.is_port = true → p = w'.mem.portList d s ∧
    (d.isInline = false → ¬K.mapped w.kern (word w'.mem.buf (d.data s)) ∧
      K.mapped w'.kern (word w'.mem.buf (d.data s)))

theorem itemData_does (K : Kernel σ) (d : Desc) (s : ℕ) (w : Walk σ) :
    TookData K d s w (itemData K d s w).1 (itemData K d s w).2 := by
  unfold itemData
  cases hinline : d.isInline with
  | true =>
    refine ⟨rfl, ⟨[], (append_nil _).symm, fun e _ => inside_nil e⟩, fun _ _ => rfl, fun _ _ => rfl,
      fun _ ha => ha, ?_⟩
    intro p hp _
    refine ⟨?_, fun hfalse => by rw [hinline] at hfalse; cases hfalse⟩
    unfold Mem.portList
    rw [hinline, if_pos rfl]
    exact (Option.some_inj.mp hp).symm
  | false =>
    have hnext : d.next s = d.data s + 8 := by
      unfold Desc.next
      rw [hinline]
      rfl
    have hneed : d.need = 8 := by
      unfold Desc.need
      rw [hinline]
      rfl
    have htouch : ∀ e, d.FitsAt e s → Inside e [(d.data s, 8)] := by
      intro e hfits
      unfold Desc.FitsAt at hfits
      exact inside_one (by omega)
    have hother : ∀ v i, i < d.data s ∨ d.next s ≤ i →
        setWord w.mem.buf (d.data s) v i = w.mem.buf i := by
      intro v i hi
      exact setWord_other (by omega)
    rw [if_neg Bool.false_ne_true]
    unfold copyinData
    by_cases htn : d.tn ≠ MSG_TYPE_INTERNAL_MEMORY
    · rw [if_pos htn]
      simp only [Walk.touch]
      have hmapped := K.vm_map_copyin_mapped w.kern (word w.mem.buf (d.data s)) d.numbytes d.deallocate
      cases hcopy : K.vm_map_copyin w.kern (word w.mem.buf (d.data s)) d.numbytes d.deallocate with
      | mk copy kern =>
        rw [hcopy] at hmapped
        cases copy with
        | none => exact ⟨rfl, ⟨_, rfl, htouch⟩, fun _ _ => rfl, fun _ _ => rfl, hmapped, by rintro _ ⟨⟩⟩
        | some copy =>
          dsimp only
          by_cases hport : d.is_port = true
          · rw [if_pos hport]
            have hmapped' := K.kernel_copyout_mapped kern copy
            have hfresh := K.fresh kern copy
            cases hout : K.kernel_copyout kern copy with
            | mk r kern' =>
              rw [hout] at hmapped' hfresh
              have hboth : ∀ a, K.mapped w.kern a → K.mapped kern' a := fun a ha => hmapped' a (hmapped a ha)
              cases r with
              | none => exact ⟨rfl, ⟨_, rfl, htouch⟩, fun _ _ => rfl, fun _ _ => rfl, hboth, by rintro _ ⟨⟩⟩
              | some r =>
                obtain ⟨a, array⟩ := r
                obtain ⟨hnew, hlive⟩ := hfresh a array rfl
                refine ⟨rfl, ⟨_, rfl, htouch⟩, hother a, ?_, hboth, ?_⟩
                · intro a' ha'
                  have hne : a' ≠ a := fun heq => hnew (hmapped a (heq ▸ ha'))
                  exact update_of_ne hne ..
                · intro p hp _
                  rw [word_setWord]
                  refine ⟨?_, fun _ => ⟨fun hold => hnew (hmapped a hold), hlive⟩⟩
                  unfold Mem.portList
                  rw [hinline, if_neg Bool.false_ne_true, word_setWord]
                  exact (Option.some_inj.mp hp).symm
          · rw [if_neg hport]
            exact ⟨rfl, ⟨_, rfl, htouch⟩, hother copy, fun _ _ => rfl, hmapped, fun _ _ h => absurd h hport⟩
    · rw [if_neg htn]
      refine ⟨rfl, ⟨[], (append_nil _).symm, fun e _ => inside_nil e⟩, fun _ _ => rfl, fun _ _ => rfl,
        fun _ ha => ha, ?_⟩
      intro p _ hport
      exact absurd (not_not.mp htn) (Desc.port_tn hport)

/-- The ports of an item, if it has any. -/
def itemPorts (K : Kernel σ) (d : Desc) (p : PortList) (w : Walk σ) : Bool × Walk σ :=
  if d.is_port then copyinPorts K d p d.elts 0 w else (true, w)

/-- What has happened to an item. -/
structure TookItem (K : Kernel σ) (d : Desc) (s : ℕ) (w : Walk σ) (ok : Bool) (w' : Walk σ) : Prop where
  items : w'.items = w.items
  touched : ∃ l, w'.touched = w.touched ++ l ∧ ∀ e, d.FitsAt e s → Inside e l
  buf : ∀ i, i < d.data s ∨ d.next s ≤ i → w'.mem.buf i = w.mem.buf i
  ool : ∀ a, K.mapped w.kern a → w'.mem.ool a = w.mem.ool a
  mapped : ∀ a, K.mapped w.kern a → K.mapped w'.kern a
  live : d.is_port = true → d.isInline = false → K.mapped w'.kern (word w'.mem.buf (d.data s))
  valid : ok = true → d.is_port = true → ∀ k < d.elts, w'.mem.port (w'.mem.portList d s) k ≠ KERN_OBJ_INVALID
  marked : ok = false → d.is_port = true ∧ ∃ k < d.elts, w'.mem.port (w'.mem.portList d s) k = KERN_OBJ_INVALID ∧
    ∀ i < k, w'.mem.port (w'.mem.portList d s) i ≠ KERN_OBJ_INVALID

theorem CopiedPorts.buf (h : CopiedPorts K (m.portList d s) d.elts 0 w ok w') (hts : d.ts = 64)
    (hi : i < d.data s ∨ d.next s ≤ i) : w'.mem.buf i = w.mem.buf i := by
  apply h.keeps.buf
  intro s' hs'
  obtain ⟨hinline, rfl⟩ := Mem.portList_body hs'
  have hbytes := Desc.port_bytes hts
  have hrounded := d.numbytes_le
  unfold Desc.next at hi
  rw [hinline, if_pos rfl] at hi
  omega

theorem CopiedPorts.portList (h : CopiedPorts K (w.mem.portList d s) d.elts 0 w ok w') :
    w'.mem.portList d s = w.mem.portList d s := by
  cases hinline : d.isInline with
  | true => rw [Mem.portList_inline _ s hinline, Mem.portList_inline _ s hinline]
  | false =>
    have hword : word w'.mem.buf (d.data s) = word w.mem.buf (d.data s) := by
      apply word_congr
      intro i _ _
      apply h.keeps.buf
      intro s' hs'
      rw [(Mem.portList_body hs').1] at hinline
      cases hinline
    rw [Mem.portList_map _ s hinline, Mem.portList_map _ s hinline, hword]

theorem TookData.ports_do {p : PortList} (h : TookData K d s w (some p) w') (hts : d.is_port = true → d.ts = 64) :
    TookItem K d s w (itemPorts K d p w').1 (itemPorts K d p w').2 := by
  unfold itemPorts
  by_cases hport : d.is_port = true
  · rw [if_pos hport]
    obtain ⟨rfl, hlive⟩ := h.ports p rfl hport
    have hcopied := copyinPorts_does K d (w'.mem.portList d s) d.elts 0 w'
    generalize copyinPorts K d (w'.mem.portList d s) d.elts 0 w' = r at hcopied ⊢
    obtain ⟨l₁, htouched, hinside⟩ := h.touched
    obtain ⟨l₂, htouched', hl₂⟩ := hcopied.touched
    have hsame := hcopied.portList
    refine ⟨hcopied.items.trans h.items, ⟨l₁ ++ l₂, ?_, ?_⟩,
      fun i hi => (hcopied.buf (hts hport) hi).trans (h.buf i hi), ?_,
      fun a ha => hcopied.mapped a (h.mapped a ha), ?_, ?_, ?_⟩
    · rw [htouched', htouched, append_assoc]
    · intro e hfits
      exact (hinside e hfits).append fun x hx => hfits.ports (hts hport) x (hl₂ x hx)
    · intro a ha
      refine (hcopied.keeps.ool a fun heq => ?_).trans (h.ool a ha)
      cases hinline : d.isInline with
      | true =>
        rw [Mem.portList_inline _ s hinline] at heq
        cases heq
      | false =>
        rw [Mem.portList_map _ s hinline] at heq
        cases heq
        exact (hlive hinline).1 ha
    · intro _ hinline
      rw [Mem.portList_map _ s hinline, Mem.portList_map _ s hinline] at hsame
      rw [PortList.map.inj hsame]
      exact hcopied.mapped _ (hlive hinline).2
    · intro hok _ k hk
      have hvalid := hcopied.valid hok k hk
      rw [Nat.zero_add] at hvalid
      rw [hsame]
      exact hvalid
    · intro hok
      obtain ⟨k, hk, hmark, hbefore⟩ := hcopied.marked hok
      rw [Nat.zero_add] at hmark
      rw [hsame]
      refine ⟨hport, k, hk, hmark, fun i hi => ?_⟩
      have hi' := hbefore i hi
      rw [Nat.zero_add] at hi'
      exact hi'
  · rw [if_neg hport]
    exact ⟨h.items, h.touched, h.buf, h.ool, h.mapped, fun hyes => absurd hyes hport,
      fun _ hyes => absurd hyes hport, nofun⟩

end Items

end Copyin

/-!
## Messages that are walked over safely

When every descriptor of a message is in it as a whole, and the data of an item that fit in front of the
alignment fit behind it too, then `msg_copyin` stays in the message, and so do `msg_destroy` and
`msg_copyout` after it, which find the same items.
-/

section Walking

open Osf1.Computation

variable {σ : Type} {K : Kernel σ} {m m' : Mem} {d : Desc} {e s t a i k n f : ℕ} {l : List (ℕ × ℕ)}
  {w w' : Walk σ} {b : Bytes} {ok : Bool} {again : Prop} {simple : Bool} {live : BitVec 64 → Prop}

section Conditions

/-- The item at `s` is one that `msg_copyin` refuses: there are fewer bytes left than it says, or it has ports
of a wrong size. -/
def Desc.Refused (d : Desc) (e s : ℕ) : Prop := e - (s + d.size) < d.need ∨ d.is_port = true ∧ d.ts ≠ 64

/-- The items of a message from `s` on are well placed, up to one that is refused. -/
inductive Placed (b : Bytes) (e : ℕ) (again : Prop) : ℕ → Prop where
  | done {s : ℕ} (hs : e ≤ s) : Placed b e again s
  | refused {s : ℕ} (hs : s < e) (hdesc : s + (Desc.read b s).size ≤ e)
      (hrefused : (Desc.read b s).Refused e s) : Placed b e again s
  | item {s : ℕ} (hs : s < e) (hdesc : s + (Desc.read b s).size ≤ e)
      (hok : ¬(Desc.read b s).Refused e s) (hfits : (Desc.read b s).FitsAt e s)
      (hinternal : again → (Desc.read b s).tn = MSG_TYPE_INTERNAL_MEMORY → (Desc.read b s).isInline = true →
        (Desc.read b s).rounded = 8 ∧ (Desc.read b s).data s + 8 ≤ e)
      (hrest : Placed b e again ((Desc.read b s).next s)) : Placed b e again s

/-- From `s` on there is an item with ports or with data out of line, or one that is refused: the message is
walked over again. -/
inductive Complex (b : Bytes) (e : ℕ) : ℕ → Prop where
  | refused {s : ℕ} (hs : s < e) (hrefused : (Desc.read b s).Refused e s) : Complex b e s
  | here {s : ℕ} (hs : s < e) (hitem : (Desc.read b s).is_port = true ∨ (Desc.read b s).isInline = false) :
      Complex b e s
  | later {s : ℕ} (hs : s < e) (hrest : Complex b e ((Desc.read b s).next s)) : Complex b e s

/-- Items that follow each other, from `s` to `t`. -/
def Adjoin : List (ℕ × ℕ) → ℕ → ℕ → Prop
  | [], s, t => s = t
  | (s', t') :: l, s, t => s = s' ∧ Adjoin l t' t

theorem Adjoin.snoc (h : Adjoin l s t) : Adjoin (l ++ [(t, i)]) s i := by
  induction l generalizing s with
  | nil =>
    obtain rfl : s = t := h
    exact ⟨rfl, rfl⟩
  | cons x l ih => exact ⟨h.1, ih h.2⟩

/-- The item at `s` of a message fits into it. -/
def Fits (b : Bytes) (e s : ℕ) : Prop := s + (Desc.read b s).size ≤ e ∧ (Desc.read b s).FitsAt e s

end Conditions

section Steps

theorem remaining_eq (he : e < 2 ^ 64) (hs : s ≤ e) : remaining e s = e - s := by
  unfold remaining
  omega

theorem copyinItems_end (hs : e ≤ s) : copyinItems K e (f + 1) s simple w = some (.done simple, w) :=
  if_neg (Nat.not_lt.mpr hs)

/-- One round of the loop. -/
theorem copyinItems_round (hs : s < e) (hd : Desc.read w.mem.buf s = d) :
    copyinItems K e (f + 1) s simple w =
      if remaining e (s + d.size) < d.need then
        some (.failed SEND_MSG_TOO_SMALL s, w.touch (d.accesses s))
      else if d.is_port = true ∧ d.ts ≠ 64 then
        some (.failed SEND_INVALID_PORT s, w.touch (d.accesses s))
      else
        match itemData K d s (w.touch (d.accesses s)) with
        | (none, w) => some (.failed SEND_INVALID_MEMORY s, w)
        | (some p, w) =>
          match itemPorts K d p w with
          | (true, w) =>
            copyinItems K e f (d.next s) (simple && d.isInline && !d.is_port) (w.passed s (d.next s))
          | (false, w) => some (.failed SEND_INVALID_PORT e, w) := by
  refine Eq.trans (if_pos hs) ?_
  simp only [hd]
  have hplace : d.aligned (s + d.size) = d.data s := rfl
  rw [hplace]
  by_cases hsmall : remaining e (s + d.size) < d.need
  · rw [if_pos hsmall, if_pos hsmall]
  · rw [if_neg hsmall, if_neg hsmall]
    by_cases hport : d.is_port = true ∧ d.ts ≠ 64
    · rw [if_pos hport, if_pos hport]
    · rw [if_neg hport, if_neg hport]
      obtain ⟨⟨list, w'⟩, hr⟩ : ∃ r, itemData K d s (w.touch (d.accesses s)) = r := ⟨_, rfl⟩
      have hdata : (if d.isInline = true then (some (PortList.body (d.data s)), w.touch (d.accesses s))
          else copyinData K d (d.data s) (w.touch (d.accesses s))) = (list, w') := hr
      rw [hr, hdata]
      cases list with
      | none => rfl
      | some p =>
        obtain ⟨⟨ok, w''⟩, hr'⟩ : ∃ r, itemPorts K d p w' = r := ⟨_, rfl⟩
        have hports : (if d.is_port = true then copyinPorts K d p d.elts 0 w' else (true, w')) = (ok, w'') := hr'
        dsimp only
        rw [hr', hports]
        cases ok with
        | true => rfl
        | false => rfl

end Steps

section Progress

/-- `msg_copyin` has come to `s`. -/
structure Progress (K : Kernel σ) (b : Bytes) (e : ℕ) (again : Prop) (s : ℕ) (simple : Bool) (w : Walk σ) :
    Prop where
  ahead : ∀ i, s ≤ i → w.mem.buf i = b i
  inside : Inside e w.touched
  fits : ∀ x ∈ w.items, Fits b e x.1
  adjoin : Adjoin w.items headerSize s
  passed : again → Passed w.mem (K.mapped w.kern) e w.items headerSize s
  complex : Complex b e s → again
  simple : simple = false → again

theorem Progress.read (h : Progress K b e again s simple w) : Desc.read w.mem.buf s = Desc.read b s :=
  Desc.read_congr fun i hlo _ => h.ahead i hlo

/-- A place where the walk of `msg_destroy` stops with the same items, whatever it finds behind them. -/
def Destroyed (K : Kernel σ) (e size : ℕ) (w : Walk σ) : Prop :=
  ∀ kern, ∃ w', destroyItems K size (size + 1) headerSize ⟨kern, w.mem, [], []⟩ = some w' ∧
    w'.items = w.items ∧ Inside e w'.touched

theorem Passed.length_le_end (h : Passed m live e l s t) : s + l.length ≤ t := by
  induction l generalizing s with
  | nil => exact Nat.le_of_eq h
  | cons x l ih =>
    obtain ⟨rfl, hpasses, hrest⟩ := h
    have hlt := hpasses.lt
    have hle := ih hrest
    rw [length_cons]
    omega

theorem Passed.length_le (h : Passed m live e l s t) : l = [] ∨ s + l.length ≤ e := by
  induction l generalizing s with
  | nil => exact .inl rfl
  | cons x l ih =>
    obtain ⟨rfl, hpasses, hrest⟩ := h
    have hlt := hpasses.lt
    have hdesc := hpasses.desc
    have hsize := (Desc.read m.buf x.1).size_pos
    right
    rcases ih hrest with hnil | hle
    · rw [hnil, length_singleton]
      omega
    · rw [length_cons]
      omega

theorem Passed.destroyed {size : ℕ} (h : Passed w.mem live e w.items headerSize t)
    (ht : size = t ∨ size = e) (hsize : size ≤ t) : Destroyed K e size w := by
  intro kern
  have hlength : w.items.length ≤ size := by
    have := h.length_le_end
    rcases h.length_le with hnil | hle
    · rw [hnil]
      exact Nat.zero_le _
    · omega
  obtain ⟨n, hn⟩ : ∃ n, size + 1 = n + 1 + w.items.length := ⟨size - w.items.length, by omega⟩
  obtain ⟨kern', l, hl, hrun⟩ := h.destroy (K := K) (w := ⟨kern, w.mem, [], []⟩) (f := n + 1)
    (z := size) (by omega) rfl
  refine ⟨⟨kern', w.mem, [] ++ w.items, [] ++ l⟩, ?_, nil_append _, hl⟩
  rw [hn, hrun]
  exact if_neg (Nat.not_lt.mpr hsize)

theorem Passed.stopped (h : Passed w.mem live e w.items headerSize t) (ht : t < e)
    (hd : Desc.read w.mem.buf t = d) (hdesc : t + d.size ≤ e) (hfits : d.FitsAt e t)
    (hport : d.is_port = true) (hts : d.ts = 64) (hk : k < d.elts)
    (hmark : w.mem.port (w.mem.portList d t) k = KERN_OBJ_INVALID)
    (hbefore : ∀ i < k, w.mem.port (w.mem.portList d t) i ≠ KERN_OBJ_INVALID) : Destroyed K e e w := by
  intro kern
  have hlength : w.items.length < e := by
    have := h.length_le_end
    omega
  obtain ⟨n, hn⟩ : ∃ n, e + 1 = n + 1 + w.items.length := ⟨e - w.items.length, by omega⟩
  obtain ⟨kern', l, hl, hrun⟩ := h.destroy (K := K) (w := ⟨kern, w.mem, [], []⟩) (f := n + 1)
    (z := e) (.inr (Nat.le_refl e)) rfl
  have hacc : Inside e (d.accesses t) := Desc.accesses_inside hdesc
  obtain ⟨l₁, hlist, hl₁⟩ := portList_reads (d := d) (s := t) (e := e)
    (w := ⟨kern', w.mem, w.items, l ++ d.accesses t⟩) rfl
  have hbefore' : ∀ i < k, w.mem.port (w.mem.portList d t) (0 + i) ≠ KERN_OBJ_INVALID := fun i hi => by
    rw [Nat.zero_add]
    exact hbefore i hi
  have hmark' : w.mem.port (w.mem.portList d t) (0 + k) = KERN_OBJ_INVALID := by
    rw [Nat.zero_add]
    exact hmark
  obtain ⟨kern'', hstop⟩ := destroyPorts_stops (K := K) (d := d)
    (w := ⟨kern', w.mem, w.items, l ++ d.accesses t ++ l₁⟩) hbefore' hmark' hk rfl
  have hports : Inside e ((range' 0 (k + 1)).flatMap (w.mem.portList d t).accesses) := by
    intro x hx
    obtain ⟨j, hj, hmem⟩ := mem_flatMap.mp hx
    have hbound := mem_range'_1.mp hj
    exact hfits.ports hts x (mem_flatMap.mpr ⟨j, mem_range'_1.mpr (by omega), hmem⟩)
  refine ⟨⟨kern'', w.mem, w.items, l ++ d.accesses t ++ l₁ ++
    (range' 0 (k + 1)).flatMap (w.mem.portList d t).accesses⟩, ?_, rfl,
    ((hl.append hacc).append (hl₁ hfits.outside)).append hports⟩
  rw [hn, hrun]
  refine Eq.trans (if_pos ht) ?_
  simp only [hd, if_pos hport]
  have hplace : d.aligned (t + d.size) = d.data t := rfl
  have hlist' : (Walk.touch ⟨kern', w.mem, [] ++ w.items, [] ++ l⟩ (d.accesses t)).portList d (d.data t) =
      (w.mem.portList d t, ⟨kern', w.mem, w.items, l ++ d.accesses t ++ l₁⟩) := hlist
  rw [hplace, hlist', hstop, if_neg Bool.false_ne_true]

theorem Desc.next_eq_after (h : d.tn = MSG_TYPE_INTERNAL_MEMORY → d.isInline = true → d.rounded = 8) :
    d.next s = d.after s := by
  unfold Desc.next Desc.after
  by_cases htn : d.tn = MSG_TYPE_INTERNAL_MEMORY
  · rw [if_pos htn]
    cases hinline : d.isInline with
    | true => rw [if_pos rfl, h htn hinline]
    | false => rw [if_neg Bool.false_ne_true]
  · rw [if_neg htn]

theorem TookItem.passes (h : TookItem K d s w ok w') (hread : Desc.read w.mem.buf s = d) (hdesc : s + d.size ≤ e)
    (hfits : d.FitsAt e s) (hts : d.is_port = true → d.ts = 64)
    (hinternal : d.tn = MSG_TYPE_INTERNAL_MEMORY → d.isInline = true → d.rounded = 8 ∧ d.data s + 8 ≤ e)
    (hok : ok = true) : Passes w'.mem (K.mapped w'.kern) e s (d.next s) := by
  have hsize := d.size_le_data s
  have hsame : Desc.read w'.mem.buf s = d := by
    rw [← hread]
    apply Desc.read_congr
    rw [hread]
    intro i _ hhi
    exact h.buf i (.inl (by omega))
  refine ⟨?_, ?_, ?_, ?_, ?_⟩
  · rw [hsame]
    exact hdesc
  · rw [hsame]
    exact Desc.next_eq_after fun htn hinline => (hinternal htn hinline).1
  · rw [hsame]
    exact hfits
  · rw [hsame]
    intro htn
    cases hinline : d.isInline with
    | true => exact (hinternal htn hinline).2
    | false => exact hfits.outside hinline
  · rw [hsame]
    exact fun hport => ⟨hts hport, h.live hport, h.valid hok hport⟩

theorem Progress.item (h : Progress K b e again s simple w) (hs : s < e) (hd : Desc.read b s = d)
    (hdesc : s + d.size ≤ e) (hfits : d.FitsAt e s) (hts : d.is_port = true → d.ts = 64)
    (hinternal : again → d.tn = MSG_TYPE_INTERNAL_MEMORY → d.isInline = true → d.rounded = 8 ∧ d.data s + 8 ≤ e)
    (htook : TookItem K d s (w.touch (d.accesses s)) true w') :
    Progress K b e again (d.next s) (simple && d.isInline && !d.is_port) (w'.passed s (d.next s)) := by
  have hsize := d.size_le_data s
  have hitems : w'.items = w.items := htook.items
  obtain ⟨l, htouched, hl⟩ := htook.touched
  have hread : Desc.read w.mem.buf s = d := h.read.trans hd
  refine ⟨?_, ?_, ?_, ?_, ?_, ?_, ?_⟩
  · intro i hi
    have hlt := d.lt_next s
    exact (htook.buf i (.inr hi)).trans (h.ahead i (by omega))
  · change Inside e w'.touched
    rw [htouched]
    exact (h.inside.append (Desc.accesses_inside hdesc)).append (hl e hfits)
  · intro x hx
    change x ∈ w'.items ++ [(s, d.next s)] at hx
    rw [hitems] at hx
    rcases mem_append.mp hx with hmem | hmem
    · exact h.fits x hmem
    · rw [mem_singleton.mp hmem]
      unfold Fits
      rw [hd]
      exact ⟨hdesc, hfits⟩
  · change Adjoin (w'.items ++ [(s, d.next s)]) headerSize (d.next s)
    rw [hitems]
    exact h.adjoin.snoc
  · intro hagain
    change Passed w'.mem (K.mapped w'.kern) e (w'.items ++ [(s, d.next s)]) headerSize (d.next s)
    rw [hitems]
    apply Passed.snoc
    · apply (h.passed hagain).frame
      · exact fun i hi => htook.buf i (.inl (by omega))
      · exact htook.ool
      · exact htook.mapped
    · exact htook.passes hread hdesc hfits hts (hinternal hagain) rfl
  · intro hcomplex
    rw [← hd] at hcomplex
    exact h.complex (.later hs hcomplex)
  · intro hsimple
    cases hold : simple with
    | false => exact h.simple hold
    | true =>
      rw [hold, Bool.true_and] at hsimple
      apply h.complex
      apply Complex.here hs
      rw [hd]
      cases hinline : d.isInline with
      | false => exact .inr rfl
      | true =>
        rw [hinline] at hsimple
        left
        simpa using hsimple

/-- How the walk of `msg_copyin` over a well placed message ends. -/
def Ended.Safe (K : Kernel σ) (b : Bytes) (e : ℕ) (again : Prop) (w : Walk σ) : Ended → Prop
  | .done simple => ∃ t, e ≤ t ∧ Progress K b e again t simple w
  | .failed ret size => ret ≠ SEND_SUCCESS ∧ Inside e w.touched ∧ Destroyed K e size w

section

variable (h : Progress K b e again s simple w)
include h

theorem Progress.refused {ret : ℤ} (hs : s < e) (hd : Desc.read b s = d)
    (hdesc : s + d.size ≤ e) (hrefused : d.Refused e s) (hret : ret ≠ SEND_SUCCESS) :
    (Ended.failed ret s).Safe K b e again (w.touch (d.accesses s)) := by
  have hpassed := h.passed (h.complex (.refused hs (hd ▸ hrefused)))
  exact ⟨hret, h.inside.append (Desc.accesses_inside hdesc),
    Passed.destroyed (w := w.touch (d.accesses s)) hpassed (.inl rfl) (Nat.le_refl s)⟩

theorem Progress.bad (hs : s < e) (hd : Desc.read b s = d)
    (hdesc : s + d.size ≤ e) (hfits : d.FitsAt e s) (hinline : d.isInline = false)
    (htook : TookData K d s (w.touch (d.accesses s)) none w') :
    (Ended.failed SEND_INVALID_MEMORY s).Safe K b e again w' := by
  have hsize := d.size_le_data s
  have hpassed := h.passed (h.complex (.here hs (.inr (hd ▸ hinline))))
  obtain ⟨l, htouched, hl⟩ := htook.touched
  have hitems : w'.items = w.items := htook.items
  refine ⟨by decide, ?_, ?_⟩
  · rw [htouched]
    exact (h.inside.append (Desc.accesses_inside hdesc)).append (hl e hfits)
  · have hpassed' : Passed w'.mem (K.mapped w'.kern) e w'.items headerSize s := by
      rw [hitems]
      apply hpassed.frame
      · exact fun i hi => htook.buf i (.inl (by omega))
      · exact htook.ool
      · exact htook.mapped
    exact hpassed'.destroyed (.inl rfl) (Nat.le_refl s)

theorem Progress.invalid (hs : s < e) (hd : Desc.read b s = d)
    (hdesc : s + d.size ≤ e) (hfits : d.FitsAt e s) (hts : d.is_port = true → d.ts = 64)
    (htook : TookItem K d s (w.touch (d.accesses s)) false w') :
    (Ended.failed SEND_INVALID_PORT e).Safe K b e again w' := by
  have hsize := d.size_le_data s
  obtain ⟨hport, k, hk, hmark, hbefore⟩ := htook.marked rfl
  have hpassed := h.passed (h.complex (.here hs (.inl (hd ▸ hport))))
  obtain ⟨l, htouched, hl⟩ := htook.touched
  have hitems : w'.items = w.items := htook.items
  refine ⟨by decide, ?_, ?_⟩
  · rw [htouched]
    exact (h.inside.append (Desc.accesses_inside hdesc)).append (hl e hfits)
  · have hpassed' : Passed w'.mem (K.mapped w'.kern) e w'.items headerSize s := by
      rw [hitems]
      apply hpassed.frame
      · exact fun i hi => htook.buf i (.inl (by omega))
      · exact htook.ool
      · exact htook.mapped
    have hread : Desc.read w'.mem.buf s = d := by
      have hold : Desc.read w.mem.buf s = d := h.read.trans hd
      rw [← hold]
      apply Desc.read_congr
      rw [hold]
      intro i _ hhi
      exact htook.buf i (.inl (by omega))
    exact hpassed'.stopped hs hread hdesc hfits hport (hts hport) hk hmark hbefore

end

theorem copyinItems_safe (hplaced : Placed b e again s) (he : e < 2 ^ 64)
    (h : Progress K b e again s simple w) (hfuel : e < f + s) (hpos : 0 < f) :
    ∃ ended w', copyinItems K e f s simple w = some (ended, w') ∧ ended.Safe K b e again w' := by
  induction hplaced generalizing f simple w with
  | done hs =>
    obtain ⟨f', rfl⟩ : ∃ f', f = f' + 1 := ⟨f - 1, by omega⟩
    exact ⟨.done simple, w, copyinItems_end hs, _, hs, h⟩
  | @refused s hs hdesc hrefused =>
    obtain ⟨f', rfl⟩ : ∃ f', f = f' + 1 := ⟨f - 1, by omega⟩
    obtain ⟨d, hd⟩ : ∃ d, Desc.read b s = d := ⟨_, rfl⟩
    rw [hd] at hdesc hrefused
    rw [copyinItems_round hs (h.read.trans hd), remaining_eq he hdesc]
    by_cases hsmall : e - (s + d.size) < d.need
    · rw [if_pos hsmall]
      exact ⟨_, _, rfl, h.refused hs hd hdesc hrefused (by decide)⟩
    · rw [if_neg hsmall]
      have hport := hrefused.resolve_left hsmall
      rw [if_pos hport]
      exact ⟨_, _, rfl, h.refused hs hd hdesc hrefused (by decide)⟩
  | @item s hs hdesc hok hfits hinternal hrest ih =>
    obtain ⟨f', rfl⟩ : ∃ f', f = f' + 1 := ⟨f - 1, by omega⟩
    obtain ⟨d, hd⟩ : ∃ d, Desc.read b s = d := ⟨_, rfl⟩
    rw [hd] at hdesc hok hfits hinternal ih
    have hsmall : ¬e - (s + d.size) < d.need := fun hlt => hok (.inl hlt)
    have hts : ¬(d.is_port = true ∧ d.ts ≠ 64) := fun hport => hok (.inr hport)
    have hts' : d.is_port = true → d.ts = 64 := fun hport => by
      by_contra hne
      exact hts ⟨hport, hne⟩
    have hlt := d.lt_next s
    rw [copyinItems_round hs (h.read.trans hd), remaining_eq he hdesc, if_neg hsmall, if_neg hts]
    have hdata := itemData_does K d s (w.touch (d.accesses s))
    have hsome : d.isInline = true → ∃ p, (itemData K d s (w.touch (d.accesses s))).1 = some p := by
      intro hinline
      refine ⟨.body (d.data s), ?_⟩
      unfold itemData
      rw [if_pos hinline]
    generalize itemData K d s (w.touch (d.accesses s)) = r at hdata hsome ⊢
    obtain ⟨list, w₁⟩ := r
    cases list with
    | none =>
      have hinline : d.isInline = false := by
        by_contra hne
        obtain ⟨p, hp⟩ := hsome (Bool.not_eq_false _ ▸ hne)
        cases hp
      exact ⟨_, _, rfl, h.bad hs hd hdesc hfits hinline hdata⟩
    | some p =>
      have hitem := hdata.ports_do hts'
      dsimp only
      generalize itemPorts K d p w₁ = r' at hitem ⊢
      obtain ⟨ok, w₂⟩ := r'
      cases ok with
      | false => exact ⟨_, _, rfl, h.invalid hs hd hdesc hfits hts' hitem⟩
      | true =>
        refine ih (h.item hs hd hdesc hfits hts' hinternal hitem) (by omega) ?_
        omega

end Progress

end Walking

end Osf1.Mach
