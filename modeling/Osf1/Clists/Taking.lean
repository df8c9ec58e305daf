import Osf1.Clists.Model

/-!
# Taking characters from the front

`getc`, `q_to_b` and `ndflush` take characters from the front of a clist, and give a block back when its
last character is taken.
-/

set_option autoImplicit false

namespace Osf1.Clists

open Function List

section Taking

open Osf1.Computation Osf1.Computation.BlockQueue

variable {m m' : Mem} {q q' : Clist} {b z a cp n k f : ℕ} {bs bs' free free' l : List ℕ} {cc : ℤ}

/-- A clist has been changed, with blocks of its own and of the free list only. -/
structure Step (m : Mem) (bs free : List ℕ) (m' : Mem) (q' : Clist) (bs' free' : List ℕ) : Prop where
  loc : Loc m' q' bs' free'
  perm : (bs' ++ free').Perm (bs ++ free)
  frame : Frame m m' (bs ++ free)

theorem Step.refl (h : Loc m q bs free) : Step m bs free m q bs free := ⟨h, .refl _, .refl m _⟩

theorem Step.trans {m'' : Mem} {q'' : Clist} {bs'' free'' : List ℕ} (h : Step m bs free m' q' bs' free')
    (h' : Step m' bs' free' m'' q'' bs'' free'') : Step m bs free m'' q'' bs'' free'' where
  loc := h'.loc
  perm := h'.perm.trans h.perm
  frame := h.frame.trans (h'.frame.mono fun _ hb => h.perm.mem_iff.mp hb)

section Front

/-- What is left of a clist when some characters of its first block have been taken. -/
def afterTaking (m : Mem) (q : Clist) (n : ℕ) : Mem × Clist :=
  if q.c_cc - n ≤ 0 then (cfreelist_return m (block (q.c_cf + n - 1)), ⟨q.c_cc - n, 0, 0⟩)
  else if offset (q.c_cf + n) = 0 then
    (cfreelist_return m (q.c_cf + n - 64), ⟨q.c_cc - n, nextInfo m (q.c_cf + n - 64), q.c_cl⟩)
  else (m, ⟨q.c_cc - n, q.c_cf + n, q.c_cl⟩)

theorem afterTaking_count (m : Mem) (q : Clist) (n : ℕ) : (afterTaking m q n).2.c_cc = q.c_cc - n := by
  unfold afterTaking
  split
  · rfl
  · split <;> rfl

theorem Loc.count_room (h : Loc m q (b :: bs) free) :
    (bs = [] → q.c_cc = room 64 q.c_cf b bs q.c_cl) ∧
      (bs ≠ [] → room 64 q.c_cf b bs q.c_cl = b + 64 - q.c_cf ∧ (b + 64 - q.c_cf : ℕ) < q.c_cc) := by
  have hcount := h.count
  have hspans := h.spans (cons_ne_nil _ _)
  unfold Clist.places at hcount
  rw [places_cons, length_append, length_range'] at hcount
  cases bs with
  | nil =>
    refine ⟨fun _ => ?_, fun hne => absurd rfl hne⟩
    rw [hcount]
    rfl
  | cons b' bs =>
    refine ⟨nofun, fun _ => ?_⟩
    have hroom : room 64 q.c_cf b (b' :: bs) q.c_cl = b + 64 - q.c_cf := if_neg (cons_ne_nil _ _)
    have hpos := hspans.next.1.room_pos
    have hlen : 0 < (BlockQueue.places 16 64 (b' + 16) (b' :: bs) q.c_cl).length := by
      rw [places_cons, length_append, length_range']
      omega
    dsimp only at hcount
    omega

theorem Loc.afterTaking_lt (h : Loc m q (b :: bs) free) (hn : n < room 64 q.c_cf b bs q.c_cl) :
    afterTaking m q n = (m, ⟨q.c_cc - n, q.c_cf + n, q.c_cl⟩) := by
  obtain ⟨hblock, hlo, hhi⟩ := h.cf_block
  obtain ⟨hb, hbpos⟩ := h.aligned b (mem_cons_self ..)
  obtain ⟨hsingle, hmore⟩ := h.count_room
  have hle := (h.spans (cons_ne_nil _ _)).room_le
  have hleft : ¬q.c_cc - n ≤ 0 := by
    by_cases hbs : bs = []
    · have := hsingle hbs
      omega
    · have := hmore hbs
      omega
  have hoffset : ¬offset (q.c_cf + n) = 0 := by
    unfold offset
    omega
  unfold afterTaking
  rw [if_neg hleft, if_neg hoffset]

theorem Loc.afterTaking_last (h : Loc m q [b] free) :
    afterTaking m q (room 64 q.c_cf b [] q.c_cl) = (cfreelist_return m b, Clist.empty) := by
  obtain ⟨hblock, hlo, hhi⟩ := h.cf_block
  obtain ⟨hb, hbpos⟩ := h.aligned b (mem_cons_self ..)
  have hcount := h.count_room.1 rfl
  have hspans := h.spans (cons_ne_nil _ _)
  have hle := hspans.room_le
  have hlast : block (q.c_cf + room 64 q.c_cf b [] q.c_cl - 1) = b := block_eq hb (by omega) (by omega)
  have hzero : q.c_cc - room 64 q.c_cf b [] q.c_cl = 0 := by omega
  unfold afterTaking
  rw [hzero, if_pos (Int.le_refl 0), hlast]
  rfl

theorem Loc.afterTaking_next (h : Loc m q (b :: bs) free) (hbs : bs ≠ []) :
    afterTaking m q (room 64 q.c_cf b bs q.c_cl) =
      (cfreelist_return m b, ⟨q.c_cc - room 64 q.c_cf b bs q.c_cl, nextInfo m b, q.c_cl⟩) := by
  obtain ⟨hblock, hlo, hhi⟩ := h.cf_block
  obtain ⟨hb, hbpos⟩ := h.aligned b (mem_cons_self ..)
  obtain ⟨hroom, hcount⟩ := h.count_room.2 hbs
  have hend : q.c_cf + (b + 64 - q.c_cf) = b + 64 := by omega
  have hoffset : offset (b + 64) = 0 := by
    unfold offset
    omega
  unfold afterTaking
  rw [hroom, if_neg (by omega), hend, if_pos hoffset, Nat.add_sub_cancel]

theorem Loc.taking (h : Loc m q (b :: bs) free) (hn : n ≤ room 64 q.c_cf b bs q.c_cl) :
    ∃ bs' free', Step m (b :: bs) free (afterTaking m q n).1 (afterTaking m q n).2 bs' free' ∧
      content m (q.places (b :: bs)) = content m (List.range' q.c_cf n) ++
        content (afterTaking m q n).1 ((afterTaking m q n).2.places bs') := by
  have hperm : (bs ++ b :: free).Perm (b :: bs ++ free) := perm_middle
  have hframe : Frame m (cfreelist_return m b) (b :: bs ++ free) :=
    (frame_return m b).mono fun x hx => by
      rw [mem_singleton.mp hx]
      exact mem_cons_self ..
  by_cases hlt : n < room 64 q.c_cf b bs q.c_cl
  · -- the block has characters left
    obtain ⟨hloc, hplaces⟩ := h.advance hlt
    rw [h.afterTaking_lt hlt]
    refine ⟨b :: bs, free, Step.refl hloc, ?_⟩
    rw [hplaces, content, map_append]
    rfl
  · have hall : n = room 64 q.c_cf b bs q.c_cl := by omega
    subst hall
    cases bs with
    | nil =>
      -- the last character is taken
      rw [h.afterTaking_last]
      refine ⟨[], b :: free, ⟨h.lastBlock, hperm, hframe⟩, ?_⟩
      exact (append_nil _).symm
    | cons b' bs =>
      obtain ⟨hroom, hcount⟩ := h.count_room.2 (cons_ne_nil _ _)
      obtain ⟨hnext, hloc, hplaces⟩ := h.nextBlock
      rw [h.afterTaking_next (cons_ne_nil _ _), hroom]
      refine ⟨b' :: bs, b :: free, ⟨hloc, hperm, hframe⟩, ?_⟩
      rw [hplaces, content, map_append]
      congr 1
      apply (content_return fun a ha => ?_).symm
      have hbbs : b ∉ b' :: bs := by
        have hall : (b :: (b' :: bs ++ free)).Nodup := h.nodup
        exact fun hmem => (nodup_cons.mp hall).1 (mem_append_left _ hmem)
      exact fun heq => hbbs (heq ▸ hloc.places_block ha)

end Front

section Getting

theorem intOf_read (m : Mem) (a : ℕ) :
    orQuote (signedChar m a &&& 0xff) (isquote m a) = intOf (m.byte a, isquote m a) := by
  have hmask : signedChar m a &&& 0xff = (m.byte a).setWidth 32 := by
    unfold signedChar
    apply BitVec.eq_of_getLsbD_eq
    intro i hi
    have hff : ∀ i < 32, (0xff : BitVec 32).getLsbD i = decide (i < 8) := by decide
    rw [BitVec.getLsbD_and, BitVec.getLsbD_signExtend, BitVec.getLsbD_setWidth, hff i hi]
    by_cases h8 : i < 8
    · simp [h8, hi]
    · have hge : 8 ≤ i := by omega
      simp [h8, hi, BitVec.getLsbD_of_ge _ i hge]
  unfold intOf
  rw [hmask]

theorem getc_some (hcc : ¬q.c_cc ≤ 0) :
    getc m q = (intOf (m.byte q.c_cf, isquote m q.c_cf), afterTaking m q 1) := by
  unfold getc afterTaking
  rw [if_neg hcc, intOf_read]
  rw [Int.natCast_one]
  by_cases hlast : q.c_cc - 1 ≤ 0
  · rw [if_pos hlast, if_pos hlast]
  · rw [if_neg hlast, if_neg hlast]
    by_cases hoffset : offset (q.c_cf + 1) = 0
    · rw [if_pos hoffset, if_pos hoffset]
    · rw [if_neg hoffset, if_neg hoffset]

theorem content_cons (m : Mem) (a : ℕ) (l : List ℕ) :
    content m (a :: l) = (m.byte a, isquote m a) :: content m l := rfl

theorem Loc.getc (h : Loc m q bs free) :
    ∃ c m' q' bs' free', Clists.getc m q = (c, m', q') ∧ Step m bs free m' q' bs' free' ∧
      match content m (q.places bs) with
      | [] => c = -1 ∧ content m' (q'.places bs') = []
      | x :: xs => c = intOf x ∧ content m' (q'.places bs') = xs := by
  by_cases hcc : q.c_cc ≤ 0
  · obtain ⟨rfl, rfl⟩ := h.empty hcc
    exact ⟨-1, m, Clist.empty, [], free, rfl, Step.refl h, rfl, rfl⟩
  · obtain ⟨b, bs, rfl⟩ := h.nonempty hcc
    have hpos := (h.spans (cons_ne_nil _ _)).room_pos
    obtain ⟨bs', free', hstep, hcontent⟩ := h.taking hpos
    refine ⟨_, _, _, bs', free', getc_some hcc, hstep, ?_⟩
    rw [hcontent]
    exact ⟨rfl, rfl⟩

/-- How many characters there are in the first block. -/
def Clist.firstCount (q : Clist) : ℤ := min (64 - (offset q.c_cf : ℤ)) q.c_cc

theorem Loc.firstCount (h : Loc m q (b :: bs) free) : q.firstCount = room 64 q.c_cf b bs q.c_cl := by
  obtain ⟨hblock, hlo, hhi⟩ := h.cf_block
  obtain ⟨hb, -⟩ := h.aligned b (mem_cons_self ..)
  obtain ⟨hsingle, hmore⟩ := h.count_room
  have hle := (h.spans (cons_ne_nil _ _)).room_le
  unfold Clist.firstCount offset
  by_cases hbs : bs = []
  · have := hsingle hbs
    omega
  · have := hmore hbs
    omega

theorem Loc.firstCount_le (h : Loc m q bs free) : q.firstCount ≤ 48 := by
  cases bs with
  | nil =>
    have hcount : q.c_cc = 0 := h.count
    unfold Clist.firstCount
    omega
  | cons b bs =>
    have hfirst := h.cf_block
    have hle := (h.spans (cons_ne_nil _ _)).room_le
    rw [h.firstCount]
    omega

theorem Loc.getc_first (h : Loc m q (b :: bs) free) :
    (q.firstCount = 1 ∧ (Clists.getc m q).2.1.cfreelist ≠ none) ∨
      (1 < q.firstCount ∧ (Clists.getc m q).2.1 = m ∧
        (Clists.getc m q).2.2.firstCount = q.firstCount - 1) := by
  have hcc : ¬q.c_cc ≤ 0 := by
    intro hle
    exact cons_ne_nil _ _ (h.empty hle).1
  have hpos := (h.spans (cons_ne_nil _ _)).room_pos
  rw [getc_some hcc]
  by_cases hlt : 1 < room 64 q.c_cf b bs q.c_cl
  · right
    have hloc := (h.advance hlt).1
    rw [h.afterTaking_lt hlt, h.firstCount, hloc.firstCount]
    have hless : room 64 (q.c_cf + 1) b bs q.c_cl = room 64 q.c_cf b bs q.c_cl - 1 := by
      unfold room
      split <;> omega
    refine ⟨by omega, rfl, ?_⟩
    dsimp only
    omega
  · left
    have hone : room 64 q.c_cf b bs q.c_cl = 1 := by omega
    refine ⟨by rw [h.firstCount, hone]; rfl, ?_⟩
    rw [← hone]
    cases bs with
    | nil =>
      rw [h.afterTaking_last]
      exact Option.some_ne_none _
    | cons b' bs =>
      rw [h.afterTaking_next (cons_ne_nil _ _)]
      exact Option.some_ne_none _

end Getting

section Moving

/-- How much one round of `q_to_b` moves. -/
def nc (q : Clist) (cc : ℤ) : ℤ := min (min (64 - (offset q.c_cf : ℤ)) cc) q.c_cc

theorem moveOut_round {p : List Char8} (hcc : cc ≠ 0) (hnc : ((nc q cc).toNat : ℤ) = nc q cc) :
    moveOut (f + 1) m q cc p =
      let after := afterTaking m q (nc q cc).toNat
      let moved := p ++ (range' q.c_cf (nc q cc).toNat).map m.byte
      if q.c_cc - nc q cc ≤ 0 then some (moved, after)
      else moveOut f after.1 after.2 (cc - nc q cc) moved := by
  rw [moveOut, if_neg hcc]
  unfold afterTaking
  rw [hnc]
  by_cases hlast : q.c_cc - nc q cc ≤ 0
  · rw [if_pos hlast, if_pos hlast]
    exact if_pos hlast
  · rw [if_neg hlast, if_neg hlast]
    refine (if_neg hlast).trans ?_
    by_cases hoffset : offset (q.c_cf + (nc q cc).toNat) = 0
    · rw [if_pos hoffset]
      exact if_pos hoffset
    · rw [if_neg hoffset]
      exact if_neg hoffset

theorem Loc.nc_bounds (h : Loc m q (b :: bs) free) (hcc : 0 < cc) :
    0 < nc q cc ∧ nc q cc ≤ cc ∧ nc q cc ≤ q.c_cc ∧ (nc q cc).toNat ≤ room 64 q.c_cf b bs q.c_cl := by
  obtain ⟨hblock, hlo, hhi⟩ := h.cf_block
  obtain ⟨hb, -⟩ := h.aligned b (mem_cons_self ..)
  obtain ⟨hsingle, hmore⟩ := h.count_room
  have hroompos := (h.spans (cons_ne_nil _ _)).room_pos
  have hoffset : (64 : ℤ) - (offset q.c_cf : ℤ) = (b + 64 - q.c_cf : ℕ) := by
    unfold offset
    omega
  have hpos : 0 < q.c_cc := by
    by_cases hbs : bs = []
    · have := hsingle hbs
      omega
    · have := (hmore hbs).2
      omega
  unfold nc
  refine ⟨by omega, by omega, by omega, ?_⟩
  by_cases hbs : bs = []
  · have := hsingle hbs
    omega
  · have := hmore hbs
    omega

theorem content_bytes (m : Mem) (l : List ℕ) : (content m l).map Prod.fst = l.map m.byte := by
  unfold content
  rw [map_map]
  rfl

theorem Loc.moveOut {p : List Char8} (h : Loc m q (b :: bs) free) (hcc : 0 ≤ cc) (hfuel : cc < f) :
    ∃ m' q' bs' free',
      Clists.moveOut f m q cc p =
        some (p ++ ((content m (q.places (b :: bs))).take cc.toNat).map Prod.fst, m', q') ∧
      Step m (b :: bs) free m' q' bs' free' ∧
      content m' (q'.places bs') = (content m (q.places (b :: bs))).drop cc.toNat := by
  induction f generalizing m q b bs free cc p with
  | zero => omega
  | succ f ih =>
    by_cases hzero : cc = 0
    · subst hzero
      refine ⟨m, q, b :: bs, free, ?_, Step.refl h, ?_⟩
      · rw [Clists.moveOut, if_pos rfl]
        simp
      · simp
    · obtain ⟨hpos, hle, hlecc, hroom⟩ := h.nc_bounds (show 0 < cc by omega)
      obtain ⟨bs', free', hstep, hcontent⟩ := h.taking hroom
      have hcast : ((nc q cc).toNat : ℤ) = nc q cc := Int.toNat_of_nonneg (by omega)
      have hlen : (content m (range' q.c_cf (nc q cc).toNat)).length = (nc q cc).toNat := by
        rw [content, length_map, length_range']
      rw [moveOut_round hzero hcast, hcontent]
      have hcount : (afterTaking m q (nc q cc).toNat).2.c_cc = q.c_cc - nc q cc := by
        rw [afterTaking_count, hcast]
      by_cases hlast : q.c_cc - nc q cc ≤ 0
      · -- there are no characters left
        rw [if_pos hlast]
        have hbs' := (hstep.loc.empty (hcount ▸ hlast)).1
        subst hbs'
        refine ⟨_, _, [], free', ?_, hstep, ?_⟩
        · rw [take_of_length_le, map_append, content_bytes]
          · simp [Clist.places, BlockQueue.places, content]
          · simp [Clist.places, BlockQueue.places, content]
            omega
        · rw [drop_of_length_le]
          · rfl
          · simp [Clist.places, BlockQueue.places, content]
            omega
      · rw [if_neg hlast]
        obtain ⟨b', bs'', rfl⟩ := hstep.loc.nonempty (hcount ▸ hlast)
        obtain ⟨m'', q'', bs'', free'', hrun, hstep', hcontent'⟩ :=
          ih (p := p ++ (range' q.c_cf (nc q cc).toNat).map m.byte) hstep.loc
            (show (0 : ℤ) ≤ cc - nc q cc by omega) (by omega)
        have hsplit : cc.toNat = (nc q cc).toNat + (cc - nc q cc).toNat := by omega
        refine ⟨m'', q'', bs'', free'', ?_, hstep.trans hstep', ?_⟩
        · rw [hrun, hsplit, take_append, hlen, Nat.add_sub_cancel_left, map_append,
            take_of_length_le (hlen.le.trans (Nat.le_add_right ..)), content_bytes, append_assoc]
        · rw [hcontent', hsplit, drop_append, hlen, Nat.add_sub_cancel_left,
            drop_of_length_le (hlen.le.trans (Nat.le_add_right ..)), nil_append]

theorem Loc.q_to_b (h : Loc m q bs free) (cc : ℤ) :
    ∃ m' q' bs' free',
      Clists.q_to_b m q cc = some (((content m (q.places bs)).take cc.toNat).map Prod.fst, m', q') ∧
      Step m bs free m' q' bs' free' ∧ content m' (q'.places bs') = (content m (q.places bs)).drop cc.toNat := by
  unfold Clists.q_to_b
  by_cases hcc : cc ≤ 0
  · have hzero : cc.toNat = 0 := by omega
    rw [if_pos hcc, hzero]
    exact ⟨m, q, bs, free, rfl, Step.refl h, rfl⟩
  · rw [if_neg hcc]
    by_cases hempty : q.c_cc ≤ 0
    · rw [if_pos hempty]
      obtain ⟨rfl, rfl⟩ := h.empty hempty
      refine ⟨m, Clist.empty, [], free, ?_, Step.refl h, ?_⟩
      · simp [Clist.places, BlockQueue.places, content]
      · simp [Clist.places, BlockQueue.places, content]
    · rw [if_neg hempty]
      obtain ⟨b, bs, rfl⟩ := h.nonempty hempty
      exact h.moveOut (by omega) (by omega)

end Moving

section Flushing

/-- A flushed clist has no pointers when it has no characters. -/
def settled (q : Clist) : Clist := if q.c_cc ≤ 0 then Clist.empty else q

theorem Loc.rem (h : Loc m q (b :: bs) free) :
    ((if b = block (q.c_cl - 1) then q.c_cl else b + 64 : ℕ) : ℤ) - q.c_cf = room 64 q.c_cf b bs q.c_cl := by
  obtain ⟨hblock, hlo, hhi⟩ := h.cf_block
  obtain ⟨hb, -⟩ := h.aligned b (mem_cons_self ..)
  have hspans := h.spans (cons_ne_nil _ _)
  cases bs with
  | nil =>
    obtain ⟨-, hlt, hle⟩ := hspans
    have hlast : block (q.c_cl - 1) = b := block_eq hb (by omega) (by omega)
    have hroom : room 64 q.c_cf b [] q.c_cl = q.c_cl - q.c_cf := rfl
    rw [hlast, if_pos rfl, hroom]
    omega
  | cons b' bs =>
    have hroom : room 64 q.c_cf b (b' :: bs) q.c_cl = b + 64 - q.c_cf := if_neg (cons_ne_nil _ _)
    have hne : b ≠ block (q.c_cl - 1) := by
      obtain ⟨init, z, hz⟩ : ∃ init z, b' :: bs = init ++ [z] :=
        ⟨_, _, (dropLast_append_getLast (cons_ne_nil b' bs)).symm⟩
      have hend : Spans 16 64 (b' + 16) (init ++ [z]) q.c_cl := hz ▸ hspans.next.1
      have hmem : z ∈ b' :: bs := by
        rw [hz]
        exact mem_append_right _ (mem_singleton_self _)
      have hzalign := (h.aligned z (mem_append_left _ (mem_cons_of_mem _ hmem))).1
      have hlast : block (q.c_cl - 1) = z := by
        have := hend.last
        exact block_eq hzalign (by omega) (by omega)
      have hall : (b :: (b' :: bs ++ free)).Nodup := h.nodup
      rw [hlast]
      exact (ne_of_mem_of_not_mem (mem_append_left _ hmem) (nodup_cons.mp hall).1).symm
    rw [if_neg hne, hroom]
    omega

theorem Loc.flush (h : Loc m q (b :: bs) free) (hfuel : cc < f) (hpos : 0 < f) :
    ∃ m' q' bs' free',
      Clists.flush f m q cc = some (m', q') ∧ Step m (b :: bs) free m' (settled q') bs' free' ∧
      content m' ((settled q').places bs') = (content m (q.places (b :: bs))).drop cc.toNat := by
  induction f generalizing m q b bs free cc with
  | zero => omega
  | succ f ih =>
    obtain ⟨hblock, hlo, hhi⟩ := h.cf_block
    have hroompos := (h.spans (cons_ne_nil _ _)).room_pos
    obtain ⟨hsingle, hmore⟩ := h.count_room
    have hleft : room 64 q.c_cf b bs q.c_cl ≤ q.c_cc := by
      by_cases hbs : bs = []
      · exact Int.le_of_eq (hsingle hbs).symm
      · have := hmore hbs
        omega
    by_cases hcc : 0 < cc
    · have hgo : 0 < cc ∧ q.c_cc ≠ 0 := ⟨hcc, by omega⟩
      rw [Clists.flush, if_pos hgo, hblock]
      dsimp only
      rw [h.rem]
      by_cases hrem : (room 64 q.c_cf b bs q.c_cl : ℤ) ≤ cc
      · -- the first block is flushed
        rw [if_pos hrem]
        obtain ⟨bs', free', hstep, hcontent⟩ := h.taking le_rfl
        have hlen : (content m (range' q.c_cf (room 64 q.c_cf b bs q.c_cl))).length =
            room 64 q.c_cf b bs q.c_cl := by
          rw [content, length_map, length_range']
        cases bs with
        | nil =>
          have hzero : q.c_cc - room 64 q.c_cf b [] q.c_cl = 0 := by
            rw [hsingle rfl]
            omega
          rw [h.afterTaking_last] at hstep hcontent
          have hbs' := (hstep.loc.empty (Int.le_refl 0)).1
          subst hbs'
          obtain ⟨f, rfl⟩ : ∃ n, f = n + 1 := ⟨f - 1, by omega⟩
          rw [hzero, Clists.flush, if_neg (fun hgo => hgo.2 rfl)]
          refine ⟨_, _, [], free', rfl, hstep, ?_⟩
          rw [hcontent, drop_append, drop_of_length_le (by omega)]
          simp [Clist.places, BlockQueue.places, content]
        | cons b₂ bs =>
          rw [h.afterTaking_next (cons_ne_nil _ _)] at hstep hcontent
          have hne : ¬q.c_cc - room 64 q.c_cf b (b₂ :: bs) q.c_cl ≤ 0 := by
            have := hmore (cons_ne_nil _ _)
            omega
          obtain ⟨b', bs', rfl⟩ := hstep.loc.nonempty hne
          obtain ⟨m'', q'', bs'', free'', hrun, hstep', hcontent'⟩ :=
            ih hstep.loc (show cc - room 64 q.c_cf b (b₂ :: bs) q.c_cl < f by omega) (by omega)
          have hsplit : cc.toNat = room 64 q.c_cf b (b₂ :: bs) q.c_cl +
              (cc - room 64 q.c_cf b (b₂ :: bs) q.c_cl).toNat := by omega
          refine ⟨m'', q'', bs'', free'', hrun, hstep.trans hstep', ?_⟩
          rw [hcontent', hcontent, hsplit, drop_append, hlen, Nat.add_sub_cancel_left,
            drop_of_length_le (hlen.le.trans (Nat.le_add_right ..)), nil_append]
      · -- the first block has characters left
        have hcast : (cc.toNat : ℤ) = cc := Int.toNat_of_nonneg (Int.le_of_lt hcc)
        have hlt : cc.toNat < room 64 q.c_cf b bs q.c_cl := by omega
        obtain ⟨hloc, hplaces⟩ := h.advance hlt
        rw [hcast] at hloc hplaces
        have hne : ¬q.c_cc - cc ≤ 0 := by omega
        have hsettled : settled ⟨q.c_cc - cc, q.c_cf + cc.toNat, q.c_cl⟩ =
            ⟨q.c_cc - cc, q.c_cf + cc.toNat, q.c_cl⟩ := if_neg hne
        rw [if_neg hrem, if_neg hne]
        refine ⟨_, _, b :: bs, free, rfl, ?_, ?_⟩
        · rw [hsettled]
          exact Step.refl hloc
        · rw [hsettled, hplaces, content, content, map_append, drop_append, drop_of_length_le (by simp)]
          simp
    · have hzero : cc.toNat = 0 := by omega
      have hsettled : settled q = q := if_neg (by omega)
      rw [Clists.flush, if_neg (fun hgo => hcc hgo.1), hzero]
      refine ⟨m, q, b :: bs, free, rfl, ?_, ?_⟩
      · rw [hsettled]
        exact Step.refl h
      · rw [hsettled]
        rfl

theorem Loc.ndflush (h : Loc m q bs free) (cc : ℤ) :
    ∃ m' q' bs' free', Clists.ndflush m q cc = some (m', q') ∧ Step m bs free m' q' bs' free' ∧
      content m' (q'.places bs') = (content m (q.places bs)).drop cc.toNat := by
  unfold Clists.ndflush
  by_cases hempty : q.c_cc ≤ 0
  · rw [if_pos hempty]
    obtain ⟨rfl, rfl⟩ := h.empty hempty
    refine ⟨m, Clist.empty, [], free, rfl, Step.refl h, ?_⟩
    simp [Clist.places, BlockQueue.places, content]
  · rw [if_neg hempty]
    obtain ⟨b, bs, rfl⟩ := h.nonempty hempty
    obtain ⟨m', q', bs', free', hrun, hstep, hcontent⟩ := h.flush (show cc < (cc.toNat + 1 : ℕ) by omega)
      (Nat.succ_pos _)
    refine ⟨m', settled q', bs', free', ?_, hstep, hcontent⟩
    rw [hrun]
    rfl

end Flushing

end Taking

/-!
## Taking the last character back

`unputc` takes the last character of a clist.
-/

section Unputting

open Osf1.Computation Osf1.Computation.BlockQueue

variable {m m' : Mem} {q q' : Clist} {b z a cp n k f : ℕ} {bs bs' free free' l : List ℕ} {cc : ℤ}

/-- What `unputc` and `nextc` read at an address: the character is not masked. -/
def unmasked (m : Mem) (a : ℕ) : BitVec 32 := orQuote (signedChar m a) (isquote m a)

theorem unmasked_eq_iff (m : Mem) (a : ℕ) :
    unmasked m a = intOf (m.byte a, isquote m a) ↔ (m.byte a).msb = false := by
  unfold unmasked intOf signedChar
  constructor
  · intro heq
    by_contra hmsb
    have hset : (m.byte a).msb = true := by simpa using hmsb
    have hbit := congrArg (fun c : BitVec 32 => c.getLsbD 31) heq
    have hleft : ((m.byte a).signExtend 32).getLsbD 31 = true := by
      rw [BitVec.getLsbD_signExtend]
      simp [hset]
    have hright : ((m.byte a).setWidth 32).getLsbD 31 = false := by
      simp [BitVec.getLsbD_of_ge]
    have hquote : TTY_QUOTE.getLsbD 31 = false := by decide
    cases hq : isquote m a with
    | true =>
      rw [hq] at hbit
      simp only [orQuote, if_pos, BitVec.getLsbD_or, hleft, hright, hquote] at hbit
      cases hbit
    | false =>
      rw [hq] at hbit
      simp only [orQuote, Bool.false_eq_true, if_false, hleft, hright] at hbit
      cases hbit
  · intro hmsb
    rw [BitVec.signExtend_eq_setWidth_of_msb_false hmsb]

theorem walk_finds (init : List ℕ) {y : ℕ} (h : Leads m.c_next (some b) (init ++ [y] ++ [z]) none)
    (hz : z ∉ init ++ [y]) (hfuel : init.length < f) : walk m f b z = some y := by
  induction init generalizing b f with
  | nil =>
    cases f with
    | zero => cases hfuel
    | succ f =>
      obtain ⟨hb, hlink, -⟩ := h
      rw [Option.some_inj] at hb
      subst hb
      rw [walk, if_pos hlink]
  | cons x init ih =>
    cases f with
    | zero => cases hfuel
    | succ f =>
      obtain ⟨hb, hrest⟩ := h
      rw [Option.some_inj] at hb
      subst hb
      have hlink : ∃ x', m.c_next b = some x' ∧ x' ∈ init ++ [y] := by
        cases init with
        | nil => exact ⟨y, hrest.1, mem_cons_self ..⟩
        | cons x' init => exact ⟨x', hrest.1, mem_cons_self ..⟩
      obtain ⟨x', hx', hmem⟩ := hlink
      have hz' : z ∉ init ++ [y] := fun h => hz (mem_cons_of_mem _ h)
      have hne : m.c_next b ≠ some z := by
        rw [hx']
        exact fun heq => hz' (Option.some_inj.mp heq ▸ hmem)
      rw [walk, if_neg hne, hx']
      apply ih (hx' ▸ hrest) hz'
      simpa using hfuel

theorem Loc.lastPlace (h : Loc m q bs free) (hbs : bs ≠ []) :
    ∃ init z, bs = init ++ [z] ∧ z % 64 = 0 ∧ z + 16 < q.c_cl ∧ q.c_cl ≤ z + 64 := by
  refine ⟨bs.dropLast, bs.getLast hbs, (dropLast_append_getLast hbs).symm, ?_⟩
  have hend := h.spans hbs
  rw [← dropLast_append_getLast hbs] at hend
  exact ⟨(h.aligned _ (mem_append_left _ (getLast_mem hbs))).1, hend.last⟩

theorem Loc.dropLast {init : List ℕ} {y : ℕ} (h : Loc m q (init ++ [y] ++ [z]) free) {cl : ℕ}
    (hspans : Spans 16 64 q.c_cf (init ++ [y]) cl)
    (hcount : q.c_cc - 1 = (BlockQueue.places 16 64 q.c_cf (init ++ [y]) cl).length) :
    Loc
      { cfreelist_return m z with
        c_next := update (cfreelist_return m z).c_next y none }
      ⟨q.c_cc - 1, q.c_cf, cl⟩ (init ++ [y]) (z :: free) := by
  have hperm : (init ++ [y] ++ z :: free).Perm (init ++ [y] ++ [z] ++ free) := by
    rw [append_assoc _ [z]]
    rfl
  have hnodup : (init ++ [y] ++ z :: free).Nodup := hperm.nodup_iff.mpr h.nodup
  obtain ⟨hbs, hfree, hdisj⟩ := nodup_append.mp hnodup
  have hz : z ∉ free := (nodup_cons.mp hfree).1
  have hzbs : z ∉ init ++ [y] := fun hmem => hdisj z hmem z (mem_cons_self ..) rfl
  have hmem : y ∈ init ++ [y] := mem_append_right _ (mem_singleton_self _)
  have hyz : y ≠ z := ne_of_mem_of_not_mem hmem hzbs
  have hyfree : y ∉ free := fun hy => hdisj y hmem y (mem_cons_of_mem _ hy) rfl
  have hyinit : y ∉ init := fun hy =>
    (nodup_append.mp hbs).2.2 y hy y (mem_singleton_self _) rfl
  refine ⟨⟨?_, ?_, ?_, ?_, ?_, hnodup⟩, fun _ => hspans, fun hnil => absurd hnil (by simp), hcount⟩
  · -- the chain ends at `y` now
    have hchain := h.chain
    have hhead : (init ++ [y] ++ [z]).head? = (init ++ [y]).head? := by
      cases init <;> rfl
    rw [hhead] at hchain
    obtain ⟨x, hfront, -⟩ := leads_append.mp hchain
    obtain ⟨x', hinit, hx', -⟩ := leads_append.mp hfront
    apply leads_append.mpr
    have hzinit : z ∉ init := fun hmem => hzbs (mem_append_left _ hmem)
    refine ⟨x', (hinit.update hzinit _).update hyinit _, hx', ?_⟩
    exact update_self ..
  · refine ⟨rfl, ?_⟩
    change Leads (update (update m.c_next z m.cfreelist) y none)
      (update (update m.c_next z m.cfreelist) y none z) free none
    rw [update_of_ne hyz.symm, update_self]
    exact (h.freeChain.update hz _).update hyfree _
  · change m.cfreecount + 48 = _
    rw [h.freecount, length_cons]
    omega
  · intro x hx i
    change update m.c_quote z _ x i = false
    by_cases hxz : x = z
    · rw [hxz, update_self]
    · rw [update_of_ne hxz]
      exact h.cleared x ((mem_cons.mp hx).resolve_left hxz) i
  · exact fun x hx => h.aligned x (hperm.mem_iff.mp hx)

theorem Loc.unputc {nclist : ℕ} (h : Loc m q bs free) (hnclist : bs.length ≤ nclist) :
    ∃ c m' q' bs' free', Clists.unputc nclist m q = some (c, m', q') ∧ Step m bs free m' q' bs' free' ∧
      ((content m (q.places bs) = [] ∧ c = -1 ∧ content m' (q'.places bs') = []) ∨
        ∃ a, c = unmasked m a ∧
          content m (q.places bs) = content m' (q'.places bs') ++ [(m.byte a, isquote m a)]) := by
  by_cases hcc : q.c_cc ≤ 0
  · obtain ⟨rfl, rfl⟩ := h.empty hcc
    exact ⟨-1, m, Clist.empty, [], free, rfl, Step.refl h, .inl ⟨rfl, rfl, rfl⟩⟩
  · have hbs : bs ≠ [] := by
      rintro rfl
      exact hcc (Int.le_of_eq h.count)
    obtain ⟨init, z, rfl, hz, hlo, hhi⟩ := h.lastPlace hbs
    have hspans := h.spans hbs
    have hcl : q.c_cl - 1 + 1 = q.c_cl := by omega
    have hblock : block (q.c_cl - 1) = z := block_eq hz (by omega) (by omega)
    have hsingle : init = [] → q.c_cc = q.c_cl - q.c_cf := by
      rintro rfl
      have hroom : q.c_cc = (q.c_cl - q.c_cf : ℕ) := h.count_room.1 rfl
      omega
    unfold Clists.unputc
    rw [if_neg hcc]
    dsimp only
    rw [hblock]
    by_cases honly : q.c_cc - 1 ≤ 0
    · -- the only character is taken
      have hinit : init = [] := by
        cases init with
        | nil => rfl
        | cons b init =>
          have hfirst := h.cf_block
          have := (h.count_room.2 (by simp)).2
          omega
      subst hinit
      have hcount := hsingle rfl
      have hzero : q.c_cc - 1 = 0 := by omega
      have hlast : q.c_cl - 1 = q.c_cf := by omega
      have hplaces : q.places [z] = [q.c_cf] := by
        have hlen : q.c_cl - q.c_cf = 1 := by omega
        simp [Clist.places, BlockQueue.places, hlen]
      rw [if_pos honly, hzero, hlast]
      refine ⟨_, _, _, [], z :: free, rfl, ⟨h.lastBlock, .refl _, ?_⟩, .inr ⟨q.c_cf, rfl, ?_⟩⟩
      · exact (frame_return m z).mono fun x hx => mem_append_left _ hx
      · rw [nil_append, hplaces]
        rfl
    · have hinfo : c_info z = z + 16 := rfl
      rw [if_neg honly, hinfo]
      by_cases hfirst : q.c_cl - 1 = z + 16
      · -- the last block is given back
        have hinit : init ≠ [] := by
          rintro rfl
          have := hsingle rfl
          have := h.cf_block
          omega
        obtain ⟨init, y, rfl⟩ : ∃ init' y, init = init' ++ [y] := ⟨_, _, (dropLast_append_getLast hinit).symm⟩
        have hend : q.c_cl = z + 16 + 1 := by omega
        rw [hend] at hspans
        obtain ⟨hspans', hplaces⟩ := hspans.shrink
        have hcount := h.count
        unfold Clist.places at hcount
        rw [hend, hplaces, length_append, length_singleton] at hcount
        have hloc := h.dropLast hspans' (by omega)
        have hnodup : (init ++ [y] ++ [z]).Nodup := (nodup_append.mp h.nodup).1
        have hz' : z ∉ init ++ [y] := fun hmem =>
          (nodup_append.mp hnodup).2.2 z hmem z (mem_singleton_self _) rfl
        have hhead : block q.c_cf = (init ++ [y]).head (by simp) := by
          cases init with
          | nil => exact h.cf_block.1
          | cons b init => exact h.cf_block.1
        have hwalk : walk m nclist (block q.c_cf) z = some y := by
          apply walk_finds init _ hz'
          · simp at hnclist
            omega
          · rw [hhead]
            have hchain := h.chain
            cases init with
            | nil => exact hchain
            | cons b init => exact hchain
        rw [if_pos hfirst, hwalk]
        refine ⟨_, _, _, init ++ [y], z :: free, rfl, ⟨hloc, ?_, ?_⟩, .inr ⟨q.c_cl - 1, rfl, ?_⟩⟩
        · rw [append_assoc _ [z]]
          rfl
        · refine ⟨fun x hx => ?_, ?_, ?_⟩
          · have hxy : x ≠ y := fun heq => hx (by simp [heq])
            have hxz : x ≠ z := fun heq => hx (by simp [heq])
            change update (update m.c_next z m.cfreelist) y none x = m.c_next x
            rw [update_of_ne hxy, update_of_ne hxz]
          · exact fun x hx => (frame_return m z).quote x fun hmem => hx (by simp_all)
          · exact fun x hx => (frame_return m z).byte x fun hmem => hx (by simp_all)
        · have hkeep : content (cfreelist_return m z) (BlockQueue.places 16 64 q.c_cf (init ++ [y]) (y + 64)) =
              content m (BlockQueue.places 16 64 q.c_cf (init ++ [y]) (y + 64)) :=
            content_return fun a ha heq => hz' (heq ▸ hloc.places_block ha)
          unfold Clist.places
          rw [hend, hplaces, content, map_append]
          exact congrArg (· ++ _) hkeep.symm
      · rw [if_neg hfirst]
        have hspans' : Spans 16 64 q.c_cf (init ++ [z]) (q.c_cl - 1 + 1) := hcl.symm ▸ hspans
        obtain ⟨hretract, hplaces⟩ := hspans'.retract
          (fun hinit => by
            have := hsingle hinit
            omega)
          (fun _ => by omega)
        rw [hcl] at hplaces
        have hcount := h.count
        unfold Clist.places at hcount
        rw [hplaces, length_append, length_singleton] at hcount
        have hloc : Loc m ⟨q.c_cc - 1, q.c_cf, q.c_cl - 1⟩ (init ++ [z]) free :=
          { h with
            spans := fun _ => hretract
            null := fun hnil => absurd hnil hbs
            count := by
              unfold Clist.places
              dsimp only
              omega }
        refine ⟨_, _, _, init ++ [z], free, rfl, Step.refl hloc, .inr ⟨q.c_cl - 1, rfl, ?_⟩⟩
        unfold Clist.places
        rw [hplaces, content, map_append]
        rfl

end Unputting

/-!
## Reading a clist

The characters of a clist are found by following its addresses from the first one on.
-/

section Reading

open Osf1.Computation Osf1.Computation.BlockQueue

variable {m m' : Mem} {q q' : Clist} {b z a cp n k f e : ℕ} {bs bs' free free' l : List ℕ} {cc : ℤ}

section Following

/-- The address of the character behind the one at `cp`. -/
def following (m : Mem) (cp : ℕ) : ℕ :=
  if offset (cp + 1) = 0 then nextInfo m (cp + 1 - 64) else cp + 1

/-- The addresses of some characters from `cp` on. -/
def addresses (m : Mem) : ℕ → ℕ → List ℕ
  | 0, _ => []
  | n + 1, cp => cp :: addresses m n (following m cp)

/-- Where the characters of a clist are. -/
def Clist.addresses (m : Mem) (q : Clist) : List ℕ := Clists.addresses m q.c_cc.toNat q.c_cf

/-- The characters of a clist, with whether they are quoted. -/
def chars (m : Mem) (q : Clist) : List (Char8 × Bool) := content m (q.addresses m)

theorem addresses_within (hb : b % 64 = 0) (hf : b ≤ f) (hk : f + k < b + 64) :
    addresses m (k + n) f = List.range' f k ++ addresses m n (f + k) := by
  induction k generalizing f with
  | zero => simp
  | succ k ih =>
    have hoffset : ¬offset (f + 1) = 0 := by
      unfold offset
      omega
    have hadd : k + 1 + n = k + n + 1 := by omega
    have hend : f + 1 + k = f + (k + 1) := by omega
    rw [hadd, addresses, following, if_neg hoffset, ih (by omega) (by omega), hend]
    rfl

theorem addresses_next (hb : b % 64 = 0) (hf : b ≤ f) (hk : f < b + 64) :
    addresses m (b + 64 - f + n) f = List.range' f (b + 64 - f) ++ addresses m n (nextInfo m b) := by
  obtain ⟨k, hk'⟩ : ∃ k, b + 64 - f = k + 1 := ⟨b + 64 - f - 1, by omega⟩
  have hadd : k + 1 + n = k + (1 + n) := by omega
  have hlast : f + k + 1 = b + 64 := by omega
  have hoffset : offset (f + k + 1) = 0 := by
    unfold offset
    omega
  rw [hk', hadd, addresses_within hb hf (by omega), Nat.add_comm 1 n, addresses, following,
    if_pos hoffset, hlast, Nat.add_sub_cancel, range'_concat, Nat.one_mul, append_assoc]
  rfl

theorem addresses_places (hchain : Leads m.c_next bs.head? bs none) (hspans : Spans 16 64 f bs e)
    (haligned : ∀ b ∈ bs, b % 64 = 0) :
    addresses m (BlockQueue.places 16 64 f bs e).length f = BlockQueue.places 16 64 f bs e := by
  induction bs generalizing f with
  | nil => exact hspans.elim
  | cons b bs ih =>
    have hb := haligned b (mem_cons_self ..)
    cases bs with
    | nil =>
      obtain ⟨hlo, hlt, hhi⟩ := hspans
      obtain ⟨k, hk⟩ : ∃ k, e - f = k + 1 := ⟨e - f - 1, by omega⟩
      rw [BlockQueue.places, length_range', hk, addresses_within hb (by omega) (by omega),
        range'_concat, Nat.one_mul]
      rfl
    | cons b' bs =>
      obtain ⟨hlo, hlt, hrest⟩ := hspans
      have hchain' : Leads m.c_next (b' :: bs).head? (b' :: bs) none := ⟨rfl, hchain.2.2⟩
      have hnext : nextInfo m b = b' + 16 := by
        unfold nextInfo
        rw [hchain.2.1]
        rfl
      rw [BlockQueue.places, length_append, length_range', addresses_next hb (by omega) hlt, hnext,
        ih hchain' hrest fun x hx => haligned x (mem_cons_of_mem _ hx)]

theorem Loc.addresses (h : Loc m q bs free) : q.addresses m = q.places bs := by
  have hcount : q.c_cc.toNat = (q.places bs).length := by
    rw [h.count]
    rfl
  unfold Clist.addresses
  rw [hcount]
  cases bs with
  | nil => rfl
  | cons b bs =>
    apply addresses_places h.chain (h.spans (cons_ne_nil _ _))
    exact fun x hx => (h.aligned x (mem_append_left _ hx)).1

theorem Loc.chars (h : Loc m q bs free) : Clists.chars m q = content m (q.places bs) := by
  unfold Clists.chars
  rw [h.addresses]

theorem Loc.chars_length (h : Loc m q bs free) : q.c_cc = (Clists.chars m q).length := by
  rw [h.chars, content, length_map]
  exact h.count

theorem Blocks.apart (h : Blocks m bs free) : Apart 64 bs := by
  have hnodup : bs.Nodup := (nodup_append.mp h.nodup).1
  refine List.Pairwise.imp_of_mem ?_ hnodup
  intro b b' hb hb' hne
  have hal := (h.aligned b (mem_append_left _ hb)).1
  have hal' := (h.aligned b' (mem_append_left _ hb')).1
  exact Clists.apart hal hal' hne

end Following

section Nextc

theorem addresses_length (m : Mem) (n cp : ℕ) : (Clists.addresses m n cp).length = n := by
  induction n generalizing cp with
  | zero => rfl
  | succ n ih => rw [Clists.addresses, length_cons, ih]

theorem addresses_succ (hk : (Clists.addresses m n f)[k]? = some cp) (hlt : k + 1 < n) :
    (Clists.addresses m n f)[k + 1]? = some (following m cp) := by
  induction k generalizing n f with
  | zero =>
    obtain ⟨n, rfl⟩ : ∃ n', n = n' + 2 := ⟨n - 2, by omega⟩
    simp only [Clists.addresses, getElem?_cons_zero, Option.some_inj] at hk
    subst hk
    rfl
  | succ k ih =>
    obtain ⟨n, rfl⟩ : ∃ n', n = n' + 1 := ⟨n - 1, by omega⟩
    exact ih hk (by omega)

theorem Loc.end_iff (h : Loc m q bs free) (hk : (q.places bs)[k]? = some cp) :
    cp + 1 = q.c_cl ↔ k + 1 = (q.places bs).length := by
  have hbs : bs ≠ [] := by
    rintro rfl
    cases hk
  have hspans := h.spans hbs
  have hnodup := hspans.nodup h.apart
  have hlast := hspans.getLast?
  obtain ⟨hlt, hget⟩ := List.getElem?_eq_some_iff.mp hk
  obtain ⟨init, z, rfl, -, hlo, -⟩ := h.lastPlace hbs
  rw [List.getLast?_eq_getElem?] at hlast
  constructor
  · intro hend
    have heq : (q.places (init ++ [z]))[k]? = (q.places (init ++ [z]))[(q.places (init ++ [z])).length - 1]? := by
      rw [hk]
      refine Eq.trans ?_ hlast.symm
      rw [← hend, Nat.add_sub_cancel]
    have := (List.getElem?_inj hlt hnodup).mp heq
    omega
  · intro hend
    have hk' : (q.places (init ++ [z])).length - 1 = k := by omega
    have heq : some cp = some (q.c_cl - 1) := by
      rw [← hk, ← hlast]
      unfold Clist.places at hk' ⊢
      rw [hk']
    have := Option.some_inj.mp heq
    omega

theorem Loc.nextc (h : Loc m q bs free) (hk : (q.addresses m)[k]? = some cp) :
    Clists.nextc m q cp = ((q.addresses m)[k + 1]?).map fun a => (a, unmasked m a) := by
  have hend := h.end_iff (h.addresses ▸ hk)
  obtain ⟨hlt, -⟩ := List.getElem?_eq_some_iff.mp hk
  have hlen : (q.addresses m).length = q.c_cc.toNat := addresses_length ..
  rw [← h.addresses] at hend
  unfold Clists.nextc
  by_cases hlast : k + 1 = (q.addresses m).length
  · rw [if_neg (fun hgo => hgo.2 (hend.mpr hlast)), List.getElem?_eq_none hlast.ge]
    rfl
  · have hgo : q.c_cc ≠ 0 ∧ cp + 1 ≠ q.c_cl := ⟨by omega, fun heq => hlast (hend.mp heq)⟩
    have hnext : (q.addresses m)[k + 1]? = some (following m cp) := addresses_succ hk (by omega)
    rw [if_pos hgo, hnext]
    rfl

end Nextc

section Ndqb

theorem unquoted_eq (m : Mem) (cp n : ℕ) :
    unquoted m cp n = ((content m (List.range' cp n)).takeWhile fun x => !x.2).length := by
  induction n generalizing cp with
  | zero => rfl
  | succ n ih =>
    rw [range'_succ, content_cons, unquoted]
    by_cases hq : isquote m cp = true
    · simp [hq]
    · have hq' : isquote m cp = false := by simpa using hq
      simp [hq', ih]

theorem Loc.ndqb (h : Loc m q bs free) (flag : Bool) :
    ∃ k, (q.addresses m).take k = List.range' q.c_cf k ∧ (Clists.chars m q ≠ [] → 0 < k) ∧
      Clists.ndqb m q flag =
        if flag then (((Clists.chars m q).take k).takeWhile fun x => !x.2).length else k := by
  by_cases hcc : q.c_cc ≤ 0
  · obtain ⟨rfl, rfl⟩ := h.empty hcc
    refine ⟨0, rfl, fun hne => absurd rfl hne, ?_⟩
    cases flag <;> rfl
  · obtain ⟨b, bs, rfl⟩ := h.nonempty hcc
    obtain ⟨hblock, hlo, hhi⟩ := h.cf_block
    obtain ⟨hb, -⟩ := h.aligned b (mem_cons_self ..)
    obtain ⟨hsingle, hmore⟩ := h.count_room
    have hroompos := (h.spans (cons_ne_nil _ _)).room_pos
    have hle := (h.spans (cons_ne_nil _ _)).room_le
    have htake : (q.places (b :: bs)).take (room 64 q.c_cf b bs q.c_cl) =
        range' q.c_cf (room 64 q.c_cf b bs q.c_cl) := by
      unfold Clist.places
      rw [places_cons]
      simp
    have hend : block (q.c_cf + 48) = b + 64 := by
      unfold block
      omega
    have hcount : (if q.c_cc < ((b + 64 : ℕ) : ℤ) - q.c_cf then q.c_cc else ((b + 64 : ℕ) : ℤ) - q.c_cf) =
        room 64 q.c_cf b bs q.c_cl := by
      by_cases hbs : bs = []
      · have := hsingle hbs
        split_ifs <;> omega
      · have := hmore hbs
        split_ifs <;> omega
    refine ⟨room 64 q.c_cf b bs q.c_cl, ?_, fun _ => hroompos, ?_⟩
    · rw [h.addresses, htake]
    · unfold Clists.ndqb
      rw [if_neg hcc, hend]
      dsimp only
      rw [hcount]
      cases flag with
      | false => rfl
      | true =>
        have hchars : (Clists.chars m q).take (room 64 q.c_cf b bs q.c_cl) =
            content m (range' q.c_cf (room 64 q.c_cf b bs q.c_cl)) := by
          rw [h.chars, content, ← map_take, htake]
          rfl
        rw [hchars, if_pos rfl, if_pos rfl, unquoted_eq]
        rfl

end Ndqb

end Reading

end Osf1.Clists
