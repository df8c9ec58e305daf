import Osf1.Mach.Copyin

/-!
# What `msg_copyout` walks over

It writes to an item only while it is there, so what is ahead of it is still as `msg_copyin` has left it, and
it finds the same items, up to one for which there is no memory.
-/

set_option autoImplicit false

namespace Osf1.Mach

open List Option

section Copyout

open Osf1.Computation

variable {σ : Type} {K : Kernel σ} {m : Mem} {d : Desc} {p : PortList} {e z s t k n f : ℕ}
  {l : List (ℕ × ℕ)} {w w' w'' : Walk σ} {live : BitVec 64 → Prop} {v : BitVec 64}

/-- What has happened to an item: its data have been read and written, and nothing behind it. -/
structure Moved (e t : ℕ) (w w' : Walk σ) : Prop where
  items : w'.items = w.items
  touched : Inside e w.touched → Inside e w'.touched
  buf : ∀ i, t ≤ i → w'.mem.buf i = w.mem.buf i

theorem moved_refl (e t : ℕ) (w : Walk σ) : Moved e t w w := ⟨rfl, fun h => h, fun _ _ => rfl⟩

theorem Moved.trans (h : Moved e t w w') (h' : Moved e t w' w'') : Moved e t w w'' :=
  ⟨h'.items.trans h.items, fun hw => h'.touched (h.touched hw), fun i hi => (h'.buf i hi).trans (h.buf i hi)⟩

theorem moved_touch (h : Inside e l) : Moved e t w (w.touch l) := ⟨rfl, fun hw => hw.append h, fun _ _ => rfl⟩

theorem Moved.touch (h : Moved e t w w') (hl : Inside e l) : Moved e t w (w'.touch l) := h.trans (moved_touch hl)

theorem Moved.kern (h : Moved e t w w') (k : σ) : Moved e t w { w' with kern := k } := ⟨h.items, h.touched, h.buf⟩

theorem Moved.setWord (h : Moved e t w w') (hs : s + 8 ≤ t) : Moved e t w (w'.setWord s v) :=
  ⟨h.items, h.touched, fun i hi => (setWord_other (.inr (by omega))).trans (h.buf i hi)⟩

theorem copyoutPorts_moves (hinside : Inside e ((List.range' k n).flatMap p.accesses))
    (hbuf : ∀ s, p = .body s → s + 8 * (k + n) ≤ t) : Moved e t w (copyoutPorts K d p n k w) := by
  induction n generalizing k w with
  | zero => exact moved_refl e t w
  | succ n ih =>
    have hrest : ∀ s, p = .body s → s + 8 * (k + 1 + n) ≤ t := fun s hs => by
      have := hbuf s hs
      omega
    have htouch : Moved e t w (w.touch (p.accesses k)) := moved_touch hinside.left
    rw [copyoutPorts]
    by_cases hnull : w.mem.port p k ≠ 0
    · rw [if_pos hnull]
      refine Moved.trans ?_ (ih hinside.right hrest)
      refine ⟨rfl, htouch.touched, ?_⟩
      intro i hi
      apply (keeps_setPort _ p k _).buf
      intro s hs
      have := hbuf s hs
      omega
    · rw [if_neg hnull]
      exact htouch.trans (ih hinside.right hrest)

theorem copyoutData_ports {w₀ : Walk σ} (hread : Moved e (d.data s + 8) w w₀) :
    Moved e (d.data s + 8) w
      (if d.is_port = true then
        match K.kernel_copyin w₀.kern (word w₀.mem.buf (d.data s)) d.numbytes with
        | (none, kern) => (false, { w₀ with kern := kern }.setWord (d.data s) 0)
        | (some copy, kern) => (true, { w₀ with kern := kern }.setWord (d.data s) copy)
      else (true, w₀)).2 := by
  have hle := Nat.le_refl (d.data s + 8)
  by_cases hport : d.is_port = true
  · rw [if_pos hport]
    cases K.kernel_copyin w₀.kern (word w₀.mem.buf (d.data s)) d.numbytes with
    | mk r kern =>
      cases r with
      | none => exact (hread.kern kern).setWord hle
      | some copy => exact (hread.kern kern).setWord hle
  · rw [if_neg hport]
    exact hread

theorem copyoutData_moves (hinside : d.tn = MSG_TYPE_INTERNAL_MEMORY ∨ d.isInline = false → d.data s + 8 ≤ e) :
    Moved e (d.after s) w (copyoutData K d s (d.data s) w).2 ∧
      ∀ t, (copyoutData K d s (d.data s) w).1 = some t → t = d.after s := by
  have hdata := d.size_le_data s
  unfold copyoutData
  by_cases htn : d.tn = MSG_TYPE_INTERNAL_MEMORY
  · have hafter : d.after s = d.data s + 8 := if_pos htn
    have hend := hinside (.inl htn)
    rw [if_pos htn, hafter]
    dsimp only
    have hread : Moved e (d.data s + 8) w ((w.touch [(d.data s, 8)]).setWord (d.data s) 0) :=
      (moved_touch (inside_one hend)).setWord (Nat.le_refl _)
    cases K.vm_map_find ((w.touch [(d.data s, 8)]).setWord (d.data s) 0).kern
      (word (w.touch [(d.data s, 8)]).mem.buf (d.data s)) d.numbytes with
    | mk r kern =>
      cases r with
      | none => exact ⟨hread.kern kern, by rintro _ ⟨⟩⟩
      | some a =>
        have hname : Inside e [(s + 4, 2)] := inside_one (by omega)
        have hfound := ((hread.kern kern).setWord (v := a) (Nat.le_refl (d.data s + 8))).touch hname
        refine ⟨⟨hfound.items, hfound.touched, ?_⟩, ?_⟩
        · intro i hi
          exact (store_other (.inr (by omega))).trans (hfound.buf i hi)
        · intro t ht
          exact (some_inj.mp ht).symm
  · rw [if_neg htn]
    cases hinline : d.isInline with
    | true =>
      have hafter : d.after s = d.data s + d.rounded := by
        unfold Desc.after
        rw [if_neg htn, hinline]
        rfl
      rw [if_pos rfl, hafter]
      exact ⟨moved_refl .., fun t ht => (some_inj.mp ht).symm⟩
    | false =>
      have hafter : d.after s = d.data s + 8 := by
        unfold Desc.after
        rw [if_neg htn, hinline]
        rfl
      have hread : Moved e (d.data s + 8) w (w.touch [(d.data s, 8)]) :=
        moved_touch (inside_one (hinside (.inr hinline)))
      have hle := Nat.le_refl (d.data s + 8)
      rw [if_neg Bool.false_ne_true, hafter]
      dsimp only
      -- the ports of an array are copied in from the kernel's map first
      have hports := copyoutData_ports (K := K) hread
      generalize (if d.is_port = true then _ else _ : Bool × Walk σ) = r at hports ⊢
      obtain ⟨ok, w₁⟩ := r
      cases ok with
      | false => exact ⟨hports, by rintro _ ⟨⟩⟩
      | true =>
        cases K.vm_map_copyout w₁.kern (word w₁.mem.buf (d.data s)) with
        | mk r kern =>
          cases r with
          | none => exact ⟨(hports.kern _).setWord hle, by rintro _ ⟨⟩⟩
          | some a => exact ⟨(hports.kern kern).setWord hle, fun t ht => (some_inj.mp ht).symm⟩

theorem copyoutItems_round (hs : s < z) (hread : Desc.read w.mem.buf s = d) :
    copyoutItems K z (f + 1) s w =
      match copyoutData K d s (d.data s) (if d.is_port = true then
        copyoutPorts K d ((w.touch (d.accesses s)).portList d (d.data s)).1 d.elts 0
          ((w.touch (d.accesses s)).portList d (d.data s)).2
        else w.touch (d.accesses s)) with
      | (none, w) => some (false, w)
      | (some next, w) => copyoutItems K z f next (w.passed s next) := by
  have hplace : d.aligned (s + d.size) = d.data s := rfl
  refine Eq.trans (if_pos hs) ?_
  simp only [hread, hplace] <;> rfl

theorem Passes.copyout (h : Passes m live e s t) (hs : s < z) (hahead : ∀ i, s ≤ i → w.mem.buf i = m.buf i) :
    ∃ w', Moved e t w w' ∧
      (copyoutItems K z (f + 1) s w = some (false, w') ∨
        copyoutItems K z (f + 1) s w = copyoutItems K z f t (w'.passed s t)) := by
  obtain ⟨d, hd⟩ : ∃ d, Desc.read m.buf s = d := ⟨_, rfl⟩
  have hread : Desc.read w.mem.buf s = d := (Desc.read_congr fun i hlo _ => hahead i hlo).trans hd
  have ht : t = d.after s := by
    rw [h.after, hd]
  have hdesc := h.desc
  have hfits := h.fits
  have hinternal := h.internal
  rw [hd] at hdesc hfits hinternal
  have htouch : Moved e t w (w.touch (d.accesses s)) := moved_touch (Desc.accesses_inside hdesc)
  have hports : Moved e t w (if d.is_port = true then
      copyoutPorts K d ((w.touch (d.accesses s)).portList d (d.data s)).1 d.elts 0
        ((w.touch (d.accesses s)).portList d (d.data s)).2
      else w.touch (d.accesses s)) := by
    by_cases hport : d.is_port = true
    · rw [if_pos hport]
      have hts : d.ts = 64 := by
        have hports := h.ports
        rw [hd] at hports
        exact (hports hport).1
      obtain ⟨l, hlist, hl⟩ := portList_reads (d := d) (s := s) (e := e) (w := w.touch (d.accesses s)) rfl
      rw [hlist]
      have hmoved : Moved e t w ⟨w.kern, w.mem, w.items, w.touched ++ d.accesses s ++ l⟩ :=
        htouch.touch (hl hfits.outside)
      apply hmoved.trans
      apply copyoutPorts_moves
      · exact hfits.ports hts
      · intro s' hs'
        obtain ⟨hinline, rfl⟩ := Mem.portList_body hs'
        have hbytes := Desc.port_bytes hts
        have hrounded := d.numbytes_le
        rw [ht]
        unfold Desc.after
        rw [if_neg (Desc.port_tn hport), if_pos hinline]
        omega
    · rw [if_neg hport]
      exact htouch
  rw [copyoutItems_round hs hread]
  generalize (if d.is_port = true then
      copyoutPorts K d ((w.touch (d.accesses s)).portList d (d.data s)).1 d.elts 0
        ((w.touch (d.accesses s)).portList d (d.data s)).2
      else w.touch (d.accesses s)) = w₁ at hports ⊢
  have hdata := copyoutData_moves (K := K) (d := d) (s := s) (e := e) (w := w₁)
    fun hout => hout.elim hinternal hfits.outside
  generalize copyoutData K d s (d.data s) w₁ = r at hdata ⊢
  obtain ⟨next, w₂⟩ := r
  obtain ⟨hmoved, hnext⟩ := hdata
  rw [← ht] at hmoved hnext
  refine ⟨w₂, hports.trans hmoved, ?_⟩
  cases next with
  | none => exact .inl rfl
  | some next =>
    right
    rw [hnext next rfl]

theorem Passed.copyout (h : Passed m live e l s t) (ht : z ≤ t) (hlt : l ≠ [] → e ≤ z)
    (hahead : ∀ i, s ≤ i → w.mem.buf i = m.buf i) (hinside : Inside e w.touched) :
    ∃ ok w', copyoutItems K z (f + 1 + l.length) s w = some (ok, w') ∧ Inside e w'.touched ∧
      w'.items <+: w.items ++ l ∧ (ok = true → w'.items = w.items ++ l) := by
  induction l generalizing s w with
  | nil =>
    obtain rfl : s = t := h
    refine ⟨true, w, if_neg (Nat.not_lt.mpr ht), hinside, ?_, ?_⟩
    · exact prefix_append ..
    · intro _
      rw [append_nil]
  | cons x l ih =>
    obtain ⟨rfl, hpasses, hrest⟩ := h
    have hs : x.1 < z := by
      have := hpasses.desc
      have := (Desc.read m.buf x.1).size_pos
      have := hlt (cons_ne_nil x l)
      omega
    obtain ⟨w₁, hmoved, hrun⟩ := hpasses.copyout (K := K) (f := f + 1 + l.length) hs hahead
    rcases hrun with hstop | hgo
    · refine ⟨false, w₁, hstop, hmoved.touched hinside, ?_, nofun⟩
      rw [hmoved.items]
      exact prefix_append ..
    · have hahead' : ∀ i, x.2 ≤ i → (w₁.passed x.1 x.2).mem.buf i = m.buf i := by
        intro i hi
        have := hpasses.lt
        exact (hmoved.buf i hi).trans (hahead i (by omega))
      obtain ⟨ok, w', hend, hinside', hprefix, hall⟩ :=
        ih hrest (fun _ => hlt (cons_ne_nil x l)) hahead' (hmoved.touched hinside)
      have hitems : (w₁.passed x.1 x.2).items ++ l = w.items ++ x :: l := by
        change (w₁.items ++ [(x.1, x.2)]) ++ l = w.items ++ x :: l
        rw [hmoved.items, append_assoc]
        rfl
      rw [hitems] at hprefix hall
      exact ⟨ok, w', hgo.trans hend, hinside', hprefix, hall⟩

end Copyout

/-!
## Messages that are passed on safely

A well placed message is walked over inside its bytes: by `msg_copyin`, by `msg_destroy` when it is refused or
thrown away, and by `msg_copyout`.
-/

section Safety

open Osf1.Computation

variable {σ : Type} {K : Kernel σ} {kern : σ} {msg_size : ℕ} {buf : Bytes} {mem : Mem} {e t : ℕ}
  {simple : Bool} {w : Walk σ} {r : Sent σ}

section Definitions

/-- The items that are walked over when a message is destroyed or received: none if there are neither ports
nor data out of line. -/
def Sent.items (r : Sent σ) : List (ℕ × ℕ) := if r.simple then [] else r.walk.items

/-- The walks over a message stay in its first `msg_size` bytes and find the same items, and every item of an
accepted message fits into it. -/
structure Sent.Safe (K : Kernel σ) (msg_size : ℕ) (buf : Bytes) (r : Sent σ) : Prop where
  copyin : Inside msg_size r.walk.touched
  rejected : ∀ w, r.destroyed = some w → w.items = r.walk.items ∧ Inside msg_size w.touched
  accepted : r.ret = SEND_SUCCESS → buf 3 = 0 →
    (∃ t, msg_size ≤ t ∧ Adjoin r.walk.items headerSize t) ∧ ∀ x ∈ r.walk.items, Fits buf msg_size x.1
  destroy : r.ret = SEND_SUCCESS → ∀ kern, ∃ w, msg_destroy K kern r.walk.mem r.size r.simple = some w ∧
    w.items = r.items ∧ Inside msg_size w.touched
  copyout : r.ret = SEND_SUCCESS → ∀ kern, ∃ ret w,
    msg_copyout K kern r.walk.mem r.size r.simple = some (ret, w) ∧
    w.items <+: r.items ∧ (ret ≠ RCV_NOT_ENOUGH_MEMORY → w.items = r.items) ∧ Inside msg_size w.touched

/-- If the items of a message are looked at, then they are well placed.  A message that is walked over again
has 8 bytes of data in each inline item of `MSG_TYPE_INTERNAL_MEMORY`. -/
def WellPlaced (msg_size : ℕ) (buf : Bytes) : Prop :=
  headerSize ≤ msg_size → msg_size ≤ MSG_SIZE_MAX → word buf 24 ≠ 0 → buf 3 = 0 →
    Placed buf msg_size (Complex buf msg_size headerSize) headerSize

end Definitions

section Ends

theorem Sent.error_safe {ret : ℤ} {size : ℕ} (hret : ret ≠ SEND_SUCCESS) :
    (Sent.error ret size kern mem).Safe K msg_size buf :=
  ⟨inside_nil _, nofun, fun h => absurd h hret, fun h => absurd h hret, fun h => absurd h hret⟩

theorem msg_destroy_simple (K : Kernel σ) (kern : σ) (mem : Mem) (e : ℕ) :
    ∃ kern', msg_destroy K kern mem e true = some ⟨kern', mem, [], []⟩ := by
  unfold msg_destroy
  exact ⟨_, rfl⟩

theorem msg_destroy_walks (h : Destroyed K e e w) :
    ∃ w', msg_destroy K kern w.mem e false = some w' ∧ w'.items = w.items ∧ Inside e w'.touched := by
  unfold msg_destroy
  exact h _

theorem headerWords_other {p q : BitVec 64} {i : ℕ} (hi : headerSize ≤ i ∨ i < 16) :
    setWord (setWord buf 16 p) 24 q i = buf i := by
  unfold headerSize at hi
  rw [setWord_other (by omega), setWord_other (by omega)]

theorem msg_copyout_simple (K : Kernel σ) (kern : σ) (mem : Mem) (e : ℕ) : ∃ ret w, msg_copyout K kern mem e true = some (ret, w) ∧
    w.items = [] ∧ w.touched = [] := by
  unfold msg_copyout
  exact ⟨_, _, rfl, rfl, rfl⟩

theorem msg_copyout_walks (h : Passed w.mem (K.mapped w.kern) e w.items headerSize t) (ht : e ≤ t) :
    ∃ ret w', msg_copyout K kern w.mem e false = some (ret, w') ∧ w'.items <+: w.items ∧
      (ret ≠ RCV_NOT_ENOUGH_MEMORY → w'.items = w.items) ∧ Inside e w'.touched := by
  have hlength : w.items.length ≤ e := by
    rcases h.length_le with hnil | hle
    · rw [hnil]
      exact Nat.zero_le _
    · omega
  obtain ⟨n, hn⟩ : ∃ n, e + 1 = n + 1 + w.items.length := ⟨e - w.items.length, by omega⟩
  unfold msg_copyout
  obtain ⟨⟨⟨local_port, remote_port⟩, kern'⟩, hheader⟩ :
    ∃ r, K.header_copyout kern (word w.mem.buf 16) (word w.mem.buf 24) = r := ⟨_, rfl⟩
  simp only [hheader, Bool.false_eq_true, if_false]
  obtain ⟨ok, w', hrun, hinside, hprefix, hall⟩ := h.copyout (K := K) (z := e) (f := n)
    (w := ⟨kern', { w.mem with buf := setWord (setWord w.mem.buf 16 local_port) 24 remote_port }, [], []⟩) ht
    (fun _ => Nat.le_refl e) (fun i hi => headerWords_other (.inl hi)) (inside_nil e)
  rw [hn, hrun]
  simp only [bind_eq_bind, bind_some]
  cases ok with
  | true =>
    exact ⟨_, _, rfl, hprefix, fun _ => hall rfl, hinside⟩
  | false =>
    exact ⟨_, _, rfl, hprefix, fun hret => absurd rfl hret, hinside⟩

theorem Progress.sent {again : Prop} (h : Progress K buf msg_size again t simple w) (ht : msg_size ≤ t) :
    (⟨SEND_SUCCESS, msg_size, simple, w, none⟩ : Sent σ).Safe K msg_size buf := by
  refine ⟨h.inside, nofun, fun _ _ => ⟨⟨t, ht, h.adjoin⟩, h.fits⟩, fun _ kern => ?_, fun _ kern => ?_⟩
  · cases hsimple : simple with
    | true =>
      obtain ⟨kern', heq⟩ := msg_destroy_simple K kern w.mem msg_size
      exact ⟨_, heq, rfl, inside_nil _⟩
    | false =>
      have hpassed := h.passed (h.simple hsimple)
      exact msg_destroy_walks (hpassed.destroyed (.inr rfl) ht)
  · cases hsimple : simple with
    | true =>
      obtain ⟨ret, w', heq, hitems, htouched⟩ := msg_copyout_simple K kern w.mem msg_size
      refine ⟨ret, w', heq, ?_, ?_, ?_⟩
      · rw [hitems]
        exact nil_prefix
      · exact fun _ => hitems
      · rw [htouched]
        exact inside_nil _
    | false => exact msg_copyout_walks (h.passed (h.simple hsimple)) ht

theorem sent_simple (hsimple : buf 3 ≠ 0) :
    (⟨SEND_SUCCESS, msg_size, true, ⟨kern, mem, [], []⟩, none⟩ : Sent σ).Safe K msg_size buf := by
  refine ⟨inside_nil _, nofun, fun _ h => absurd h hsimple, fun _ kern => ?_, fun _ kern => ?_⟩
  · obtain ⟨kern', heq⟩ := msg_destroy_simple K kern mem msg_size
    exact ⟨_, heq, rfl, inside_nil _⟩
  · obtain ⟨ret, w', heq, hitems, htouched⟩ := msg_copyout_simple K kern mem msg_size
    refine ⟨ret, w', heq, ?_, ?_, ?_⟩
    · rw [hitems]
      exact nil_prefix
    · exact fun _ => hitems
    · rw [htouched]
      exact inside_nil _

end Ends

section Safety

theorem copyinHeader_other {buf' : Bytes} (h : (copyinHeader K kern buf).1 = some buf') :
    word buf 24 ≠ 0 ∧ ∀ i, headerSize ≤ i ∨ i < 16 → buf' i = buf i := by
  unfold copyinHeader at h
  by_cases hnull : word buf 24 = 0
  · rw [if_pos hnull] at h
    cases h
  · refine ⟨hnull, ?_⟩
    rw [if_neg hnull] at h
    cases hdest : K.obj_cache_copyin kern (word buf 24) with
    | mk dest kern' =>
      rw [hdest] at h
      cases dest with
      | none => cases h
      | some dest_port =>
        dsimp only at h
        by_cases hlocal : word buf 16 = 0
        · rw [if_pos hlocal] at h
          cases h
          exact fun i hi => headerWords_other hi
        · rw [if_neg hlocal] at h
          cases hreply : K.obj_cache_copyin kern' (word buf 16) with
          | mk reply kern'' =>
            rw [hreply] at h
            cases reply with
            | none => cases h
            | some reply_port =>
              cases h
              exact fun i hi => headerWords_other hi

theorem WellPlaced.safe (h : WellPlaced msg_size buf) (K : Kernel σ) (kern : σ) :
    ∃ r, msg_copyin K kern msg_size buf = some r ∧ r.Safe K msg_size buf := by
  unfold msg_copyin
  by_cases hsmall : msg_size < headerSize
  · exact ⟨_, if_pos hsmall, Sent.error_safe (by decide)⟩
  by_cases hlarge : MSG_SIZE_MAX < msg_size
  · exact ⟨_, (if_neg hsmall).trans (if_pos hlarge), Sent.error_safe (by decide)⟩
  rw [if_neg hsmall, if_neg hlarge]
  cases K.copyin kern with
  | mk ok kern =>
    cases ok with
    | false => exact ⟨_, rfl, Sent.error_safe (by decide)⟩
    | true =>
      dsimp only
      have hother : ∀ buf', (copyinHeader K kern buf).1 = some buf' →
          word buf 24 ≠ 0 ∧ ∀ i, headerSize ≤ i ∨ i < 16 → buf' i = buf i := fun _ h => copyinHeader_other h
      cases hheader : copyinHeader K kern buf with
      | mk header kern =>
        rw [hheader] at hother
        cases header with
        | none => exact ⟨_, rfl, Sent.error_safe (by decide)⟩
        | some buf' =>
          obtain ⟨hport, hsame⟩ := hother buf' rfl
          have hthree : buf' 3 = buf 3 := hsame 3 (.inr (by decide))
          dsimp only
          rw [hthree]
          by_cases hsimple : buf 3 ≠ 0
          · exact ⟨_, if_pos hsimple, sent_simple hsimple⟩
          rw [if_neg hsimple]
          have hplaced := h (Nat.le_of_not_lt hsmall) (Nat.le_of_not_lt hlarge) hport (not_not.mp hsimple)
          have hstart : Progress K buf msg_size (Complex buf msg_size headerSize) headerSize true
              ⟨kern, ⟨buf', fun _ _ => 0⟩, [], []⟩ :=
            ⟨fun i hi => hsame i (.inl hi), inside_nil _, nofun, rfl, fun _ => rfl, fun hc => hc, nofun⟩
          have hmax : msg_size < 2 ^ 64 := by
            unfold MSG_SIZE_MAX at hlarge
            omega
          obtain ⟨ended, w, hrun, hsafe⟩ := copyinItems_safe (f := msg_size + 1) hplaced hmax hstart
            (by omega) (Nat.succ_pos _)
          simp only [hrun, bind_eq_bind, bind_some]
          cases ended with
          | done simple =>
            obtain ⟨t, ht, hprogress⟩ := hsafe
            exact ⟨_, rfl, hprogress.sent ht⟩
          | failed ret size =>
            obtain ⟨hret, hinside, hdestroyed⟩ := hsafe
            obtain ⟨w', heq, hitems, hinside'⟩ : ∃ w', msg_destroy K w.kern w.mem size false = some w' ∧
                w'.items = w.items ∧ Inside msg_size w'.touched := by
              unfold msg_destroy
              exact hdestroyed _
            simp only [heq, bind_some]
            refine ⟨_, rfl, hinside, ?_, fun h => absurd h hret, fun h => absurd h hret, fun h => absurd h hret⟩
            intro v hv
            cases hv
            exact ⟨hitems, hinside'⟩

end Safety

end Safety

end Osf1.Mach
