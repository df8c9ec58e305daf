import Osf1.Clists.Taking

/-!
# Putting characters at the end

`putc` and `b_to_q` put characters behind the last one.  Before they store one they find a place for it,
with a new block when the last one is full, so that from this place on the rest of the block can be used.
-/

set_option autoImplicit false

namespace Osf1.Clists

open Function List

open Osf1.Computation Osf1.Computation.BlockQueue

variable {m m' : Mem} {q q' : Clist} {y z a cf cp n k f : ℕ} {bs bs' free free' l init : List ℕ}
  {xs : List (Char8 × Bool)}

/-- The places from `cp` on are the next ones, behind those of `l`. -/
structure Open (m : Mem) (cf cp : ℕ) (bs free l : List ℕ) : Prop extends Blocks m bs free where
  front : 16 ≤ offset cp
  last : block cp ∈ bs
  room : ∀ n, 0 < n → offset cp + n ≤ 64 →
    Spans 16 64 cf bs (cp + n) ∧ BlockQueue.places 16 64 cf bs (cp + n) = l ++ List.range' cp n

section Opening

theorem Loc.openSame (h : Loc m q bs free) (hbs : bs ≠ []) (hcl : offset q.c_cl ≠ 0) :
    Open m q.c_cf q.c_cl bs free (q.places bs) := by
  obtain ⟨init, z, rfl, hz, hlo, hhi⟩ := h.lastPlace hbs
  unfold offset at hcl
  have hblock : block q.c_cl = z := block_eq hz (by omega) (by omega)
  refine { h with front := ?_, last := ?_, room := ?_ }
  · unfold offset
    omega
  · rw [hblock]
    exact mem_append_right _ (mem_singleton_self _)
  · intro n _ hn
    unfold offset at hn
    exact (h.spans hbs).extend (by omega)

theorem Blocks.fetch (h : Blocks m bs (y :: free)) :
    cfreelist_fetch m = (some y, { m with
      c_next := update m.c_next y none
      cfreelist := m.c_next y
      cfreecount := m.cfreecount - 48 }) := by
  unfold cfreelist_fetch
  rw [h.freeChain.1]

theorem Blocks.fetch_none (h : Blocks m bs []) : cfreelist_fetch m = (none, m) := by
  have hnil : m.cfreelist = none := h.freeChain
  unfold cfreelist_fetch
  rw [hnil]

theorem Blocks.taken (h : Blocks m bs (y :: free)) {links : ℕ → Option ℕ} {cs : List ℕ}
    (hlinks : ∀ x, x ∉ y :: bs → links x = m.c_next x) (hperm : cs.Perm (y :: bs))
    (hchain : Leads links cs.head? cs none) :
    Blocks ⟨links, m.c_quote, m.byte, m.c_next y, m.cfreecount - 48⟩ cs free := by
  have hall : (cs ++ free).Perm (bs ++ y :: free) := (hperm.append_right free).trans perm_middle.symm
  have hnodup : (cs ++ free).Nodup := hall.nodup_iff.mpr h.nodup
  refine ⟨hchain, ?_, ?_, fun b hb => h.cleared b (mem_cons_of_mem _ hb),
    fun b hb => h.aligned b (hall.mem_iff.mp hb), hnodup⟩
  · apply h.freeChain.2.congr
    intro x hx
    exact hlinks x fun hmem => (nodup_append.mp hnodup).2.2 x (hperm.mem_iff.mpr hmem) x hx rfl
  · have hcount := h.freecount
    rw [length_cons] at hcount
    change m.cfreecount - 48 = _
    omega

theorem Blocks.openFirst (h : Blocks m [] (y :: free)) :
    Open (cfreelist_fetch m).2 (y + 16) (y + 16) [y] free [] := by
  obtain ⟨hy, -⟩ := h.aligned y (mem_cons_self ..)
  rw [h.fetch]
  have hchain : Leads (update m.c_next y none) [y].head? [y] none := ⟨rfl, update_self ..⟩
  refine { h.taken (fun x hx => update_of_ne (ne_of_not_mem_cons hx) ..) (.refl _) hchain with
    front := ?_, last := ?_, room := ?_ }
  · rw [offset_add hy (by omega)]
  · rw [block_add hy (by omega)]
    exact mem_singleton_self _
  · intro n hpos hn
    rw [offset_add hy (by omega)] at hn
    refine ⟨⟨le_rfl, by omega, by omega⟩, ?_⟩
    rw [BlockQueue.places, Nat.add_sub_cancel_left, nil_append]

theorem Loc.openNext (h : Loc m q (init ++ [z]) (y :: free)) (hcl : q.c_cl = z + 64) :
    Open (fetchNext m z).2 q.c_cf (y + 16) (init ++ [z] ++ [y]) free (q.places (init ++ [z])) := by
  obtain ⟨hy, -⟩ := h.aligned y (mem_append_right _ (mem_cons_self ..))
  obtain ⟨hbs, hfree, hdisj⟩ := nodup_append.mp h.nodup
  have hyz : y ∉ init ++ [z] := fun hmem => hdisj y hmem y (mem_cons_self ..) rfl
  have hzinit : z ∉ init := fun hmem => (nodup_append.mp hbs).2.2 z hmem z (mem_singleton_self _) rfl
  have hspans := h.spans (by simp)
  rw [hcl] at hspans
  have hfetch : (fetchNext m z).2 =
      ⟨update (update m.c_next y none) z (some y), m.c_quote, m.byte, m.c_next y,
        m.cfreecount - 48⟩ := by
    unfold fetchNext
    rw [h.fetch]
  rw [hfetch]
  have hchain := h.chain.push hzinit hyz
  have hhead : (init ++ [z] ++ [y]).head? = (init ++ [z]).head? := by
    cases init <;> rfl
  rw [← hhead] at hchain
  have hlinks : ∀ x, x ∉ y :: (init ++ [z]) →
      update (update m.c_next y none) z (some y) x = m.c_next x := by
    intro x hx
    have hxz : x ≠ z := fun heq => hx (by simp [heq])
    rw [update_of_ne hxz, update_of_ne (ne_of_not_mem_cons hx)]
  refine { h.taken hlinks (perm_append_singleton _ _) hchain with front := ?_, last := ?_, room := ?_ }
  · rw [offset_add hy (by omega)]
  · rw [block_add hy (by omega)]
    exact mem_append_right _ (mem_singleton_self _)
  · intro n hpos hn
    rw [offset_add hy (by omega)] at hn
    have hgrow := hspans.grow (y := y) hpos hn
    rw [← hcl] at hgrow
    exact hgrow

end Opening

section Writing

/-- Characters have been stored from `cp` on, within a block. -/
structure Wrote (m m' : Mem) (cp : ℕ) (xs : List (Char8 × Bool)) : Prop where
  link : m'.c_next = m.c_next
  list : m'.cfreelist = m.cfreelist
  count : m'.cfreecount = m.cfreecount
  quote : ∀ b, b ≠ block cp → m'.c_quote b = m.c_quote b
  wrote : content m' (List.range' cp xs.length) = xs
  other : ∀ a, a ∉ List.range' cp xs.length → m'.byte a = m.byte a ∧ isquote m' a = isquote m a

theorem Open.wrote (h : Open m cf cp bs free l) (hw : Wrote m m' cp xs) (hxs : xs ≠ [])
    (hroom : offset cp + xs.length ≤ 64) :
    Loc m' ⟨l.length + xs.length, cf, cp + xs.length⟩ bs free ∧ Frame m m' bs ∧
      content m' ((⟨l.length + xs.length, cf, cp + xs.length⟩ : Clist).places bs) = content m l ++ xs := by
  obtain ⟨hspans, hplaces⟩ := h.room xs.length (length_pos_of_ne_nil hxs) hroom
  have hbs : bs ≠ [] := ne_nil_of_mem h.last
  have hin : ∀ a ∈ range' cp xs.length, block a = block cp := by
    intro a ha
    have := mem_range'_1.mp ha
    unfold offset at hroom
    unfold block at *
    omega
  refine ⟨{ chain := ?_, freeChain := ?_, freecount := ?_, cleared := ?_, aligned := h.aligned, nodup := h.nodup,
            spans := fun _ => hspans, null := fun hnil => absurd hnil hbs, count := ?_ }, ⟨?_, ?_, ?_⟩, ?_⟩
  · rw [hw.link]
    exact h.chain
  · rw [hw.link, hw.list]
    exact h.freeChain
  · rw [hw.count]
    exact h.freecount
  · intro b hb i
    have hne : b ≠ block cp := fun heq =>
      (nodup_append.mp h.nodup).2.2 _ h.last b hb heq.symm
    rw [hw.quote b hne]
    exact h.cleared b hb i
  · unfold Clist.places
    rw [hplaces, length_append, length_range']
    rfl
  · intro b _
    rw [hw.link]
  · exact fun b hb => hw.quote b fun heq => hb (heq ▸ h.last)
  · exact fun a ha => (hw.other a fun hmem => ha (hin a hmem ▸ h.last)).1
  · have hnodup := hspans.nodup h.apart
    unfold Clist.places
    rw [hplaces] at hnodup ⊢
    have hold : content m' l = content m l := by
      apply map_congr_left
      intro a ha
      have hne : a ∉ range' cp xs.length := fun hmem =>
        (nodup_append.mp hnodup).2.2 a ha a hmem rfl
      rw [(hw.other a hne).1, (hw.other a hne).2]
    rw [← hold, ← hw.wrote, content, map_append]
    simp only [content, length_map, length_range']

theorem isquote_setquote (m : Mem) (cp a : ℕ) : isquote (setquote m cp) a = (isquote m a || decide (a = cp)) := by
  unfold isquote setquote
  dsimp only
  by_cases hb : block a = block cp
  · rw [hb, update_self]
    by_cases ho : offset a = offset cp
    · have heq : a = cp := by
        have := block_bounds a
        unfold block offset at *
        omega
      rw [heq, update_self]
      simp
    · have hne : a ≠ cp := fun heq => ho (congrArg offset heq)
      rw [update_of_ne ho]
      simp [hne]
  · have hne : a ≠ cp := fun heq => hb (congrArg block heq)
    rw [update_of_ne hb]
    simp [hne]

theorem store_same (m : Mem) (cp : ℕ) (c : Char8) : (m.store cp c).byte cp = c := update_self ..

theorem store_other (m : Mem) {cp : ℕ} (c : Char8) (ha : a ≠ cp) : (m.store cp c).byte a = m.byte a :=
  update_of_ne ha ..

theorem isquote_store (m : Mem) (cp : ℕ) (c : Char8) (a : ℕ) : isquote (m.store cp c) a = isquote m a := rfl

theorem wrote_one (m : Mem) (cp : ℕ) (c : Char8) (quoted : Bool) :
    Wrote m ((if quoted then setquote m cp else m).store cp c) cp [(c, quoted || isquote m cp)] := by
  cases quoted with
  | true =>
    refine ⟨rfl, rfl, rfl, fun b hb => update_of_ne hb .., ?_, ?_⟩
    · rw [if_pos rfl]
      simp [content, store_same, isquote_store, isquote_setquote]
    · intro a ha
      have hne : a ≠ cp := fun heq => ha (by simp [heq])
      rw [if_pos rfl]
      refine ⟨store_other _ c hne, ?_⟩
      rw [isquote_store, isquote_setquote]
      simp [hne]
  | false =>
    refine ⟨rfl, rfl, rfl, fun _ _ => rfl, ?_, ?_⟩
    · simp [content, store_same, isquote_store]
    · intro a ha
      have hne : a ≠ cp := fun heq => ha (by simp [heq])
      exact ⟨store_other _ c hne, rfl⟩

theorem copy_other {cs : List Char8} (ha : a ∉ List.range' cp cs.length) : (m.copy cp cs).byte a = m.byte a := by
  induction cs generalizing m cp with
  | nil => rfl
  | cons c cs ih =>
    rw [Mem.copy, ih (fun hmem => ha (mem_cons_of_mem _ hmem))]
    exact store_other _ c (ne_of_not_mem_cons ha)

theorem copy_bytes (m : Mem) (cp : ℕ) (cs : List Char8) :
    (List.range' cp cs.length).map (m.copy cp cs).byte = cs := by
  induction cs generalizing m cp with
  | nil => rfl
  | cons c cs ih =>
    have hout : cp ∉ range' (cp + 1) cs.length := by
      rw [mem_range'_1]
      omega
    rw [length_cons, range'_succ, map_cons, Mem.copy, ih, copy_other hout, store_same]

theorem copy_rest (m : Mem) (cp : ℕ) (cs : List Char8) :
    (m.copy cp cs).c_next = m.c_next ∧ (m.copy cp cs).c_quote = m.c_quote ∧
      (m.copy cp cs).cfreelist = m.cfreelist ∧ (m.copy cp cs).cfreecount = m.cfreecount := by
  induction cs generalizing m cp with
  | nil => exact ⟨rfl, rfl, rfl, rfl⟩
  | cons c cs ih => exact ih (m.store cp c) (cp + 1)

theorem wrote_copy {cs : List Char8} (hclear : ∀ k < cs.length, isquote m (cp + k) = false) :
    Wrote m (m.copy cp cs) cp (cs.map fun c => (c, false)) := by
  obtain ⟨hlink, hquote, hlist, hcount⟩ := copy_rest m cp cs
  have hmark : ∀ a, isquote (m.copy cp cs) a = isquote m a := by
    intro a
    unfold isquote
    rw [hquote]
  refine ⟨hlink, hlist, hcount, fun b _ => congrFun hquote b, ?_, ?_⟩
  · rw [length_map]
    have hfalse : content (m.copy cp cs) (range' cp cs.length) =
        ((range' cp cs.length).map (m.copy cp cs).byte).map fun c => (c, false) := by
      rw [content, map_map]
      apply map_congr_left
      intro a ha
      obtain ⟨hlo, hhi⟩ := mem_range'_1.mp ha
      obtain ⟨k, rfl⟩ := Nat.exists_eq_add_of_le hlo
      rw [hmark, hclear k (by omega)]
      rfl
    rw [hfalse, copy_bytes]
  · intro a ha
    rw [length_map] at ha
    exact ⟨copy_other ha, hmark a⟩

end Writing

section Putc

/-- The room behind the last character in its block. -/
def Clist.spare (q : Clist) : ℕ := if offset q.c_cl = 0 then 0 else 64 - offset q.c_cl

/-- The next `n` places in the last block have no mark. -/
def Clear (m : Mem) (q : Clist) (n : ℕ) : Prop := ∀ k < n, k < q.spare → isquote m (q.c_cl + k) = false

/-- A place has been found: behind the last character, or in a new block. -/
structure Ready (m : Mem) (q : Clist) (bs free : List ℕ) (m' : Mem) (cf cp : ℕ) (bs' free' : List ℕ) :
    Prop where
  opened : Open m' cf cp bs' free' (q.places bs)
  perm : (bs' ++ free').Perm (bs ++ free)
  frame : Frame m m' (bs ++ free)
  kept : content m' (q.places bs) = content m (q.places bs)
  spare : (0 < q.spare ∧ cp = q.c_cl ∧ m' = m ∧ free' = free) ∨
    (q.spare = 0 ∧ offset cp = 16 ∧ ∃ y, free = y :: free')
  clear : ∀ n, Clear m q n → ∀ k < n, offset cp + k < 64 → isquote m' (cp + k) = false

theorem Loc.readySame (h : Loc m q bs free) (hbs : bs ≠ []) (hcl : offset q.c_cl ≠ 0) :
    Ready m q bs free m q.c_cf q.c_cl bs free := by
  have hspare : q.spare = 64 - offset q.c_cl := if_neg hcl
  have hlt : offset q.c_cl < 64 := Nat.mod_lt _ (by omega)
  refine ⟨h.openSame hbs hcl, .refl _, .refl .., rfl, .inl ⟨by omega, rfl, rfl, rfl⟩, ?_⟩
  intro n hn k hk hk'
  exact hn k hk (by omega)

theorem Blocks.fresh (h : Blocks m bs (y :: free)) (hk : k < 48) : isquote m (y + 16 + k) = false := by
  obtain ⟨hy, -⟩ := h.aligned y (mem_append_right _ (mem_cons_self ..))
  have hblock : block (y + 16 + k) = y := block_eq hy (by omega) (by omega)
  unfold isquote
  rw [hblock]
  exact h.cleared y (mem_cons_self ..) _

theorem Loc.readyFirst (h : Loc m q [] (y :: free)) :
    Ready m q [] (y :: free) (cfreelist_fetch m).2 (y + 16) (y + 16) [y] free := by
  obtain ⟨hy, -⟩ := h.aligned y (mem_cons_self ..)
  have hspare : q.spare = 0 := by
    unfold Clist.spare
    rw [(h.null rfl).2]
    rfl
  have hopen := h.openFirst
  rw [h.fetch] at hopen ⊢
  refine ⟨hopen, .refl _, ⟨?_, fun _ _ => rfl, fun _ _ => rfl⟩, rfl,
    .inr ⟨hspare, offset_add hy (by omega), y, rfl⟩, ?_⟩
  · intro b hb
    exact update_of_ne (ne_of_not_mem_cons hb) ..
  · intro n _ k _ hk
    rw [offset_add hy (by omega)] at hk
    exact h.fresh (by omega)

theorem Loc.readyNext (h : Loc m q (init ++ [z]) (y :: free)) (hcl : q.c_cl = z + 64) :
    Ready m q (init ++ [z]) (y :: free) (fetchNext m z).2 q.c_cf (y + 16) (init ++ [z] ++ [y]) free := by
  obtain ⟨hy, -⟩ := h.aligned y (mem_append_right _ (mem_cons_self ..))
  obtain ⟨hz, -⟩ := h.aligned z (mem_append_left _ (mem_append_right _ (mem_singleton_self _)))
  have hspare : q.spare = 0 := by
    unfold Clist.spare offset
    rw [if_pos (by omega)]
  have hopen := h.openNext hcl
  have hfetch : (fetchNext m z).2 =
      ⟨update (update m.c_next y none) z (some y), m.c_quote, m.byte, m.c_next y,
        m.cfreecount - 48⟩ := by
    unfold fetchNext
    rw [h.fetch]
  rw [hfetch] at hopen ⊢
  refine ⟨hopen, ?_, ⟨?_, fun _ _ => rfl, fun _ _ => rfl⟩, rfl,
    .inr ⟨hspare, offset_add hy (by omega), y, rfl⟩, ?_⟩
  · rw [append_assoc _ [y]]
    rfl
  · intro b hb
    have hby : b ≠ y := fun heq => hb (by simp [heq])
    have hbz : b ≠ z := fun heq => hb (by simp [heq])
    change update (update m.c_next y none) z (some y) b = m.c_next b
    rw [update_of_ne hbz, update_of_ne hby]
  · intro n _ k _ hk
    rw [offset_add hy (by omega)] at hk
    exact h.fresh (by omega)

theorem Blocks.fetchNext_none (h : Blocks m (init ++ [z]) []) : fetchNext m z = (none, m) := by
  have hlink : m.c_next z = none := h.chain.link
  have hsame : update m.c_next z none = m.c_next := by
    rw [← hlink]
    exact update_eq_self z m.c_next
  unfold fetchNext
  rw [h.fetch_none]
  dsimp only
  rw [hsame]

theorem Blocks.fetchNext_some (h : Blocks m bs (y :: free)) (z : ℕ) : (fetchNext m z).1 = some y := by
  unfold fetchNext
  rw [h.fetch]

section

variable (h : Loc m q bs free)
include h

theorem Loc.fullBlock (hbs : bs ≠ []) (hcl : offset q.c_cl = 0) : ∃ init z, bs = init ++ [z] ∧ q.c_cl = z + 64 := by
  obtain ⟨init, z, rfl, hz, hlo, hhi⟩ := h.lastPlace hbs
  unfold offset at hcl
  exact ⟨init, z, rfl, by omega⟩

theorem Loc.pointers (hbs : bs ≠ []) : ¬(q.c_cl = 0 ∨ q.c_cc < 0) := by
  obtain ⟨init, z, rfl, hz, hlo, hhi⟩ := h.lastPlace hbs
  have := h.count
  omega

theorem Loc.roomFor :
    (q.spare = 0 ∧ free = [] ∧ Clists.roomFor m q = (none, m, q)) ∨
      ∃ m' cf cp bs' free', Clists.roomFor m q = (some cp, m', { q with c_cf := cf }) ∧
        Ready m q bs free m' cf cp bs' free' := by
  unfold Clists.roomFor
  by_cases hbs : bs = []
  · subst hbs
    rw [if_pos (.inl (h.null rfl).2)]
    cases free with
    | nil =>
      refine .inl ⟨?_, rfl, ?_⟩
      · unfold Clist.spare
        rw [(h.null rfl).2]
        rfl
      · rw [h.fetch_none]
    | cons y free =>
      refine .inr ⟨_, y + 16, y + 16, _, _, ?_, h.readyFirst⟩
      rw [h.fetch]
      rfl
  · rw [if_neg (h.pointers hbs)]
    by_cases hcl : offset q.c_cl = 0
    · obtain ⟨init, z, rfl, hend⟩ := h.fullBlock hbs hcl
      have hz : q.c_cl - 64 = z := by omega
      rw [if_pos hcl, hz]
      cases free with
      | nil =>
        refine .inl ⟨if_pos hcl, rfl, ?_⟩
        rw [h.fetchNext_none]
      | cons y free =>
        refine .inr ⟨_, q.c_cf, y + 16, _, _, ?_, h.readyNext hend⟩
        have hsome := h.fetchNext_some z
        revert hsome
        cases fetchNext m z with
        | mk bp m' =>
          intro hsome
          subst hsome
          rfl
    · rw [if_neg hcl]
      exact .inr ⟨m, q.c_cf, q.c_cl, bs, free, rfl, h.readySame hbs hcl⟩

theorem Ready.wrote {m₁ : Mem} (hr : Ready m q bs free m₁ cf cp bs' free')
    (hw : Wrote m₁ m' cp xs) (hxs : xs ≠ []) (hroom : offset cp + xs.length ≤ 64) :
    Step m bs free m' ⟨q.c_cc + xs.length, cf, cp + xs.length⟩ bs' free' ∧
      content m' ((⟨q.c_cc + xs.length, cf, cp + xs.length⟩ : Clist).places bs') =
        content m (q.places bs) ++ xs := by
  obtain ⟨hloc, hframe, hcontent⟩ := hr.opened.wrote hw hxs hroom
  rw [← h.count] at hloc hcontent
  rw [hr.kept] at hcontent
  have hsub : ∀ b ∈ bs', b ∈ bs ++ free := fun b hb =>
    hr.perm.mem_iff.mp (mem_append_left _ hb)
  exact ⟨⟨hloc, hr.perm, hr.frame.trans (hframe.mono hsub)⟩, hcontent⟩

end

/-- Whether a character is put with a quote. -/
def quotes (c : BitVec 64) : Bool := decide (c &&& TTY_QUOTE.setWidth 64 ≠ 0)

/-- Where the end of a clist is when a character has been put: one place further, or behind the first place
of a new block. -/
def Further (m : Mem) (q : Clist) (free : List ℕ) (m' : Mem) (q' : Clist) (free' : List ℕ) : Prop :=
  (0 < q.spare ∧ q'.spare = q.spare - 1 ∧ free' = free ∧ q'.c_cl = q.c_cl + 1 ∧
      ∀ a, a ≠ q.c_cl → isquote m' a = isquote m a) ∨
    (q.spare = 0 ∧ q'.spare = 47 ∧ (∃ y, free = y :: free') ∧ ∀ n, Clear m' q' n)

theorem Loc.putc (h : Loc m q bs free) (c : BitVec 64) (hclear : quotes c = true ∨ Clear m q 1) :
    (q.spare = 0 ∧ free = [] ∧ Clists.putc c m q = (false, m, q)) ∨
      ∃ m' q' bs' free', Clists.putc c m q = (true, m', q') ∧ Step m bs free m' q' bs' free' ∧
        content m' (q'.places bs') = content m (q.places bs) ++ [(c.setWidth 8, quotes c)] ∧
        Further m q free m' q' free' := by
  rcases h.roomFor with ⟨hspare, hfree, hroom⟩ | ⟨m₁, cf, cp, bs', free', hroom, hr⟩
  · refine .inl ⟨hspare, hfree, ?_⟩
    unfold Clists.putc
    rw [hroom]
  · have hoff : offset cp < 64 := Nat.mod_lt _ (by omega)
    have hmark : (quotes c || isquote m₁ cp) = quotes c := by
      rcases hclear with hquoted | hclear
      · rw [hquoted]
        rfl
      · have hfalse := hr.clear 1 hclear 0 Nat.one_pos (by omega)
        rw [Nat.add_zero] at hfalse
        rw [hfalse, Bool.or_false]
    have hw := wrote_one m₁ cp (c.setWidth 8) (quotes c)
    rw [hmark] at hw
    obtain ⟨hstep, hcontent⟩ := hr.wrote h hw (cons_ne_nil _ _)
      (by
        rw [length_singleton]
        omega)
    refine .inr ⟨_, _, bs', free', ?_, hstep, hcontent, ?_⟩
    · unfold Clists.putc
      rw [hroom]
      simp [quotes]
    · have hfront := hr.opened.front
      have hspare' : (⟨q.c_cc + 1, cf, cp + 1⟩ : Clist).spare = 64 - offset cp - 1 := by
        unfold Clist.spare offset at *
        dsimp only
        by_cases hend : (cp + 1) % 64 = 0
        · rw [if_pos hend]
          omega
        · rw [if_neg hend]
          omega
      have hother : ∀ a, a ≠ cp →
          isquote ((if quotes c then setquote m₁ cp else m₁).store cp (c.setWidth 8)) a = isquote m₁ a :=
        fun a ha => (hw.other a (by simp [ha])).2
      rcases hr.spare with ⟨hpos, rfl, rfl, hfree⟩ | ⟨hzero, hcp, hy⟩
      · have hspare : q.spare = 64 - offset q.c_cl := by
          unfold Clist.spare at hpos ⊢
          by_cases hcl : offset q.c_cl = 0
          · rw [if_pos hcl] at hpos
            omega
          · rw [if_neg hcl]
        refine .inl ⟨hpos, ?_, hfree, rfl, hother⟩
        rw [hspare]
        exact hspare'
      · rw [hcp] at hspare'
        refine .inr ⟨hzero, hspare', hy, ?_⟩
        intro n k _ hk
        have hk' : k < 47 := Nat.lt_of_lt_of_eq hk hspare'
        have hempty : Clear m q (k + 2) := fun j _ hj => absurd hj (by omega)
        have hfalse := hr.clear (k + 2) hempty (k + 1) (by omega) (by omega)
        refine (hother _ ?_).trans ?_
        · change cp + 1 + k ≠ cp
          omega
        · rw [← hfalse]
          congr 1
          change cp + 1 + k = cp + (k + 1)
          omega

end Putc

section Copying

variable {cs : List Char8}

/-- How much one round of `b_to_q` copies. -/
def chunk (cp : ℕ) (cs : List Char8) : ℕ := min cs.length (64 - offset cp)

theorem Ready.copied {m₁ : Mem} (h : Loc m q bs free) (hr : Ready m q bs free m₁ cf cp bs' free')
    (hcs : cs ≠ []) (hclear : Clear m q cs.length) :
    Step m bs free (m₁.copy cp (cs.take (chunk cp cs))) ⟨q.c_cc + chunk cp cs, cf, cp + chunk cp cs⟩ bs' free' ∧
      content (m₁.copy cp (cs.take (chunk cp cs)))
          ((⟨q.c_cc + chunk cp cs, cf, cp + chunk cp cs⟩ : Clist).places bs') =
        content m (q.places bs) ++ (cs.take (chunk cp cs)).map (fun c => (c, false)) ∧
      (cs.drop (chunk cp cs) = [] ∨ offset (cp + chunk cp cs) = 0) := by
  have hoff : offset cp < 64 := Nat.mod_lt _ (by omega)
  have hpos := length_pos_of_ne_nil hcs
  have hchunk : chunk cp cs ≤ cs.length ∧ chunk cp cs ≤ 64 - offset cp ∧ 0 < chunk cp cs := by
    unfold chunk
    omega
  obtain ⟨hlen, hfit, hsome⟩ := hchunk
  have htake : (cs.take (chunk cp cs)).length = chunk cp cs := length_take_of_le hlen
  have hw : Wrote m₁ (m₁.copy cp (cs.take (chunk cp cs))) cp ((cs.take (chunk cp cs)).map fun c => (c, false)) := by
    apply wrote_copy
    intro k hk
    exact hr.clear _ hclear k (by omega) (by omega)
  have hxs : (cs.take (chunk cp cs)).map (fun c => (c, false)) ≠ [] := by
    apply ne_nil_of_length_pos
    rw [length_map, htake]
    exact hsome
  obtain ⟨hstep, hcontent⟩ := hr.wrote h hw hxs
    (by
      rw [length_map, htake]
      omega)
  rw [length_map, htake] at hstep hcontent
  refine ⟨hstep, hcontent, ?_⟩
  by_cases hall : chunk cp cs = cs.length
  · left
    rw [hall]
    exact drop_length
  · right
    have hend : chunk cp cs = 64 - offset cp := by
      unfold chunk at hall ⊢
      omega
    rw [hend]
    unfold offset
    omega

theorem moveIn_round (hcs : cs ≠ []) (hcp : offset cp ≠ 0) :
    moveIn (f + 1) m cp cs =
      moveIn f (m.copy cp (cs.take (chunk cp cs))) (cp + chunk cp cs) (cs.drop (chunk cp cs)) := by
  rw [moveIn, if_neg hcs, if_neg hcp]
  rfl

theorem moveIn_fetch (hcs : cs ≠ []) (hcp : offset cp = 0) (hy : (fetchNext m (cp - 64)).1 = some y)
    (hoff : offset (y + 16) ≠ 0) :
    moveIn (f + 1) m cp cs = moveIn (f + 1) (fetchNext m (cp - 64)).2 (y + 16) cs := by
  rw [moveIn_round hcs hoff, moveIn, if_neg hcs, if_pos hcp]
  revert hy
  cases fetchNext m (cp - 64) with
  | mk bp m' =>
    intro hy
    subst hy
    rfl

/-- What a part of a buffer is when some of it has been put into a clist. -/
structure Moved (m : Mem) (q : Clist) (bs free : List ℕ) (cs : List Char8) (rest : List Char8) (m' : Mem)
    (q' : Clist) (bs' free' : List ℕ) : Prop where
  step : Step m bs free m' q' bs' free'
  all : ∃ moved, cs = moved ++ rest ∧
    content m' (q'.places bs') = content m (q.places bs) ++ moved.map fun c => (c, false)
  stuck : rest = [] ∨ free' = []

theorem chunk_le (cp : ℕ) (cs : List Char8) : chunk cp cs ≤ cs.length := Nat.min_le_left ..

theorem Moved.behind {m₁ m₂ : Mem} {cf' : ℕ} {rest : List Char8} {bs₁ free₁ : List ℕ}
    (h : Loc m q bs free) (hr : Ready m q bs free m₁ cf cp bs₁ free₁) (hcs : cs ≠ [])
    (hclear : Clear m q cs.length) (hm₂ : m₂ = m₁.copy cp (cs.take (chunk cp cs)))
    (hmoved : Moved m₂ ⟨q.c_cc + chunk cp cs, cf, cp + chunk cp cs⟩ bs₁ free₁ (cs.drop (chunk cp cs)) rest m'
      ⟨q.c_cc + chunk cp cs + ((cs.drop (chunk cp cs)).length - rest.length), cf, cf'⟩ bs' free') :
    Moved m q bs free cs rest m' ⟨q.c_cc + (cs.length - rest.length), cf, cf'⟩ bs' free' := by
  subst hm₂
  obtain ⟨hstep, hcontent, -⟩ := hr.copied h hcs hclear
  have hle := chunk_le cp cs
  have hcount : q.c_cc + chunk cp cs + (((cs.drop (chunk cp cs)).length : ℤ) - rest.length) =
      q.c_cc + (cs.length - rest.length) := by
    rw [length_drop]
    omega
  rw [hcount] at hmoved
  obtain ⟨moved, hall, hmore⟩ := hmoved.all
  refine ⟨hstep.trans hmoved.step, ⟨cs.take (chunk cp cs) ++ moved, ?_, ?_⟩, hmoved.stuck⟩
  · rw [append_assoc, ← hall, take_append_drop]
  · rw [hmore, hcontent, map_append, append_assoc]

theorem Loc.moveIn (h : Loc m q bs free) (hbs : bs ≠ []) (hcl : cs = [] ∨ offset q.c_cl = 0)
    (hfuel : cs.length < f) :
    ∃ rest m' cq bs' free', Clists.moveIn f m q.c_cl cs = some (rest, m', cq) ∧
      Moved m q bs free cs rest m' ⟨q.c_cc + (cs.length - rest.length), q.c_cf, cq⟩ bs' free' := by
  induction f generalizing m q bs free cs with
  | zero => cases hfuel
  | succ f ih =>
    by_cases hcs : cs = []
    · subst hcs
      have hsame : (⟨q.c_cc + (([] : List Char8).length - ([] : List Char8).length), q.c_cf, q.c_cl⟩ : Clist) = q := by
        simp
      refine ⟨[], m, q.c_cl, bs, free, ?_, ?_⟩
      · rw [Clists.moveIn, if_pos rfl]
      · rw [hsame]
        exact ⟨Step.refl h, ⟨[], rfl, (append_nil _).symm⟩, .inl rfl⟩
    · have hcl := hcl.resolve_left hcs
      obtain ⟨init, z, rfl, hend⟩ := h.fullBlock hbs hcl
      have hz : q.c_cl - 64 = z := by omega
      cases free with
      | nil =>
        have hsame : (⟨q.c_cc + ((cs.length : ℤ) - cs.length), q.c_cf, q.c_cl⟩ : Clist) = q := by
          simp
        refine ⟨cs, m, q.c_cl, init ++ [z], [], ?_, ?_⟩
        · rw [Clists.moveIn, if_neg hcs, if_pos hcl, hz, h.fetchNext_none]
          rfl
        · rw [hsame]
          exact ⟨Step.refl h, ⟨[], rfl, (append_nil _).symm⟩, .inr rfl⟩
      | cons y free =>
        have hr := h.readyNext hend
        obtain ⟨hy, -⟩ := h.aligned y (mem_append_right _ (mem_cons_self ..))
        have hoff : offset (y + 16) ≠ 0 := by
          rw [offset_add hy (by omega)]
          omega
        have hclear : Clear m q cs.length := by
          intro k _ hk
          rw [Clist.spare, if_pos hcl] at hk
          omega
        obtain ⟨hstep, -, hmore⟩ := hr.copied h hcs hclear
        have hlen : (cs.drop (chunk (y + 16) cs)).length < f := by
          have hpos : 0 < chunk (y + 16) cs := by
            have := length_pos_of_ne_nil hcs
            unfold chunk offset
            omega
          have hle := chunk_le (y + 16) cs
          rw [length_drop]
          omega
        obtain ⟨rest, m', cq, bs', free', hrun, hmoved⟩ := ih hstep.loc (by simp) hmore hlen
        refine ⟨rest, m', cq, bs', free', ?_, Moved.behind h hr hcs hclear rfl hmoved⟩
        rw [moveIn_fetch hcs hcl (hz ▸ h.fetchNext_some z) hoff, moveIn_round hcs hoff, hz]
        exact hrun

theorem Loc.b_to_q (h : Loc m q bs free) (hclear : Clear m q cs.length) :
    ∃ rest m' q' bs' free', Clists.b_to_q m q cs = some (rest, m', q') ∧
      Moved m q bs free cs rest m' q' bs' free' := by
  unfold Clists.b_to_q
  by_cases hcs : cs = []
  · subst hcs
    exact ⟨[], m, q, bs, free, rfl, Step.refl h, ⟨[], rfl, (append_nil _).symm⟩, .inl rfl⟩
  · rw [if_neg hcs]
    by_cases hbs : bs = []
    · subst hbs
      rw [if_pos (.inl (h.null rfl).2)]
      cases free with
      | nil =>
        rw [h.fetch_none]
        exact ⟨cs, m, q, [], [], rfl, Step.refl h, ⟨[], rfl, (append_nil _).symm⟩, .inr rfl⟩
      | cons y free =>
        have hr := h.readyFirst
        obtain ⟨hy, -⟩ := h.aligned y (mem_cons_self ..)
        have hoff : offset (y + 16) ≠ 0 := by
          rw [offset_add hy (by omega)]
          omega
        obtain ⟨hstep, -, hmore⟩ := hr.copied h hcs hclear
        obtain ⟨rest, m', cq, bs', free', hrun, hmoved⟩ :=
          hstep.loc.moveIn (f := cs.length) (by simp) hmore
            (by
              have := length_pos_of_ne_nil hcs
              rw [length_drop]
              unfold chunk offset
              omega)
        refine ⟨rest, m', ⟨q.c_cc + (cs.length - rest.length), y + 16, cq⟩, bs', free', ?_,
          Moved.behind h hr hcs hclear rfl hmoved⟩
        have hsome : (cfreelist_fetch m).1 = some y := by
          rw [h.fetch]
        revert hsome hrun
        cases cfreelist_fetch m with
        | mk bp m₁ =>
          intro hrun hsome
          subst hsome
          dsimp only [c_info] at hrun ⊢
          rw [moveIn_round hcs hoff, hrun]
          rfl
    · rw [if_neg (h.pointers hbs)]
      dsimp only
      by_cases hcl : offset q.c_cl = 0
      · obtain ⟨rest, m', cq, bs', free', hrun, hmoved⟩ :=
          h.moveIn (f := cs.length + 1) hbs (.inr hcl) (Nat.lt_succ_self _)
        refine ⟨rest, m', ⟨q.c_cc + (cs.length - rest.length), q.c_cf, cq⟩, bs', free', ?_, hmoved⟩
        rw [hrun]
        rfl
      · have hr := h.readySame hbs hcl
        obtain ⟨hstep, -, hmore⟩ := hr.copied h hcs hclear
        obtain ⟨rest, m', cq, bs', free', hrun, hmoved⟩ :=
          hstep.loc.moveIn (f := cs.length) hbs hmore
            (by
              have := length_pos_of_ne_nil hcs
              rw [length_drop]
              unfold chunk offset
              omega)
        refine ⟨rest, m', ⟨q.c_cc + (cs.length - rest.length), q.c_cf, cq⟩, bs', free', ?_,
          Moved.behind h hr hcs hclear rfl hmoved⟩
        rw [moveIn_round hcs hcl, hrun]
        rfl

end Copying

end Osf1.Clists
