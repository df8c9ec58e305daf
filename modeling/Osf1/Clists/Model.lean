import Osf1.Computation.BlockQueue
import Osf1.Computation.LinkedChain
import Osf1.Computation.Transition

/-!
# Character lists

The clists of `bsd/tty_subr.c`, as they are on a machine with pointers of 8 bytes and a signed `char`.  A
`struct cblock` has 64 bytes and is aligned to that: a link, a bit for every byte of the block that says
whether the character there is quoted, and from the 17th byte on the characters.  A clist points to its
first character and behind its last one, and the low bits of these pointers tell where in a block they
are.  A pointer that is 0 is `NULL`.
-/

set_option autoImplicit false

namespace Osf1.Clists

open Function List

section Model

open Osf1.Computation

/-- Characters are bytes, and what the routines return is an `int`. -/
abbrev Char8 := BitVec 8

/-- SRC: sys/tty.h:258 -/
def TTY_QUOTE : BitVec 32 := 0x100

/-- The memory of the blocks: the links and the quote bits by the address of the block, the characters by
their own.
SRC: sys/clist.h:57-61, conf/param.c:428-430 -/
structure Mem where
  c_next : ℕ → Option ℕ
  c_quote : ℕ → ℕ → Bool
  byte : ℕ → Char8
  cfreelist : Option ℕ
  cfreecount : ℤ

/-- SRC: sys/tty.h:119-123 -/
structure Clist where
  c_cc : ℤ
  c_cf : ℕ
  c_cl : ℕ
  deriving DecidableEq

/-- A clist without characters. -/
def Clist.empty : Clist := ⟨0, 0, 0⟩

/-- `(vm_offset_t)cp & CROUND`. -/
def offset (cp : ℕ) : ℕ := cp % 64

/-- `(vm_offset_t)cp & ~CROUND`. -/
def block (cp : ℕ) : ℕ := cp - cp % 64

/-- `bp->c_info`. -/
def c_info (bp : ℕ) : ℕ := bp + 16

/-- `bp->c_next->c_info`, which is an address even if there is no next block. -/
def nextInfo (m : Mem) (bp : ℕ) : ℕ := c_info ((m.c_next bp).getD 0)

/-- SRC: bsd/tty_subr.c:72-74 -/
def isquote (m : Mem) (cp : ℕ) : Bool := m.c_quote (block cp) (offset cp)

/-- SRC: bsd/tty_subr.c:69-71 -/
def setquote (m : Mem) (cp : ℕ) : Mem :=
  { m with
    c_quote := update m.c_quote (block cp) (update (m.c_quote (block cp)) (offset cp) true) }

/-- A character is stored. -/
def Mem.store (m : Mem) (cp : ℕ) (c : Char8) : Mem := { m with byte := update m.byte cp c }

/-- A block is cleared and given back.
SRC: bsd/tty_subr.c:82-88 -/
def cfreelist_return (m : Mem) (bp : ℕ) : Mem where
  c_next := update m.c_next bp m.cfreelist
  c_quote := update m.c_quote bp fun _ => false
  byte cp := if block cp = bp then 0 else m.byte cp
  cfreelist := some bp
  cfreecount := m.cfreecount + 48

/-- A block is taken, if there is one.
SRC: bsd/tty_subr.c:90-97 -/
def cfreelist_fetch (m : Mem) : Option ℕ × Mem :=
  match m.cfreelist with
  | none => (none, m)
  | some bp =>
    (some bp,
      { m with
        c_next := update m.c_next bp none
        cfreelist := m.c_next bp
        cfreecount := m.cfreecount - 48 })

/-- A block is taken and linked behind another one, or `NULL` is.
SRC: bsd/tty_subr.c:290-291, 333-334 -/
def fetchNext (m : Mem) (bp : ℕ) : Option ℕ × Mem :=
  let (nbp, m) := cfreelist_fetch m
  (nbp, { m with c_next := update m.c_next bp nbp })

/-- The character at an address as an `int`: it is signed. -/
def signedChar (m : Mem) (cp : ℕ) : BitVec 32 := (m.byte cp).signExtend 32

/-- `c |= TTY_QUOTE`, if the character is quoted. -/
def orQuote (c : BitVec 32) (quoted : Bool) : BitVec 32 := if quoted then c ||| TTY_QUOTE else c

section Taking

/-- SRC: bsd/tty_subr.c:102-134 -/
def getc (m : Mem) (p : Clist) : BitVec 32 × Mem × Clist :=
  if p.c_cc ≤ 0 then (-1, m, Clist.empty)
  else
    let c := orQuote (signedChar m p.c_cf &&& 0xff) (isquote m p.c_cf)
    let c_cf := p.c_cf + 1
    if p.c_cc - 1 ≤ 0 then
      (c, cfreelist_return m (block (c_cf - 1)), ⟨p.c_cc - 1, 0, 0⟩)
    else if offset c_cf = 0 then
      let bp := c_cf - 64
      (c, cfreelist_return m bp, ⟨p.c_cc - 1, nextInfo m bp, p.c_cl⟩)
    else (c, m, ⟨p.c_cc - 1, c_cf, p.c_cl⟩)

/-- The loop of `q_to_b`, with what has been moved so far.
SRC: bsd/tty_subr.c:161-183 -/
def moveOut : ℕ → Mem → Clist → ℤ → List Char8 → Option (List Char8 × Mem × Clist)
  | 0, _, _, _, _ => none
  | fuel + 1, m, q, cc, moved =>
    if cc = 0 then some (moved, m, q)
    else
      let nc := min (min (64 - (offset q.c_cf : ℤ)) cc) q.c_cc
      let moved := moved ++ (List.range' q.c_cf nc.toNat).map m.byte
      let q := { q with c_cf := q.c_cf + nc.toNat, c_cc := q.c_cc - nc }
      let cc := cc - nc
      if q.c_cc ≤ 0 then
        some (moved, cfreelist_return m (block (q.c_cf - 1)), { q with c_cf := 0, c_cl := 0 })
      else if offset q.c_cf = 0 then
        let bp := q.c_cf - 64
        moveOut fuel (cfreelist_return m bp) { q with c_cf := nextInfo m bp } cc moved
      else moveOut fuel m q cc moved

/-- Copy a clist to a buffer.  It returns what has been copied, whose length is what the routine returns.
SRC: bsd/tty_subr.c:140-187 -/
def q_to_b (m : Mem) (q : Clist) (cc : ℤ) : Option (List Char8 × Mem × Clist) :=
  if cc ≤ 0 then some ([], m, q)
  else if q.c_cc ≤ 0 then some ([], m, Clist.empty)
  else moveOut (cc.toNat + 1) m q cc []

/-- The loop of `ndflush`.
SRC: bsd/tty_subr.c:244-266 -/
def flush : ℕ → Mem → Clist → ℤ → Option (Mem × Clist)
  | 0, _, _, _ => none
  | fuel + 1, m, q, cc =>
    if 0 < cc ∧ q.c_cc ≠ 0 then
      let bp := block q.c_cf
      let last := if bp = block (q.c_cl - 1) then q.c_cl else bp + 64
      let rem : ℤ := (last : ℤ) - q.c_cf
      if rem ≤ cc then
        flush fuel (cfreelist_return m bp) ⟨q.c_cc - rem, nextInfo m bp, q.c_cl⟩ (cc - rem)
      else
        let q := { q with c_cc := q.c_cc - cc, c_cf := q.c_cf + cc.toNat }
        if q.c_cc ≤ 0 then some (cfreelist_return m bp, q) else some (m, q)
    else some (m, q)

/-- Flush `cc` bytes.
SRC: bsd/tty_subr.c:232-272 -/
def ndflush (m : Mem) (q : Clist) (cc : ℤ) : Option (Mem × Clist) :=
  if q.c_cc ≤ 0 then some (m, q)
  else do
    let (m, q) ← flush (cc.toNat + 1) m q cc
    some (m, if q.c_cc ≤ 0 then Clist.empty else q)

/-- The walk of `unputc` to the block in front of the last one.
SRC: bsd/tty_subr.c:412-413 -/
def walk (m : Mem) : ℕ → ℕ → ℕ → Option ℕ
  | 0, _, _ => none
  | fuel + 1, bp, cl => if m.c_next bp = some cl then some bp else walk m fuel ((m.c_next bp).getD 0) cl

/-- Remove the last character and return it.
SRC: bsd/tty_subr.c:382-421 -/
def unputc (nclist : ℕ) (m : Mem) (p : Clist) : Option (BitVec 32 × Mem × Clist) :=
  if p.c_cc ≤ 0 then some (-1, m, p)
  else
    let c_cl := p.c_cl - 1
    let c := orQuote (signedChar m c_cl) (isquote m c_cl)
    if p.c_cc - 1 ≤ 0 then
      some (c, cfreelist_return m (block c_cl), ⟨p.c_cc - 1, 0, 0⟩)
    else if c_cl = c_info (block c_cl) then do
      let bp ← walk m nclist (block p.c_cf) (block c_cl)
      let m' := cfreelist_return m (block c_cl)
      some (c, { m' with c_next := update m'.c_next bp none }, ⟨p.c_cc - 1, p.c_cf, bp + 64⟩)
    else some (c, m, ⟨p.c_cc - 1, p.c_cf, c_cl⟩)

end Taking

section Looking

/-- The characters up to the first one that is quoted.
SRC: bsd/tty_subr.c:215-222 -/
def unquoted (m : Mem) (cp : ℕ) : ℕ → ℕ
  | 0 => 0
  | n + 1 => if isquote m cp then 0 else unquoted m (cp + 1) n + 1

/-- Count the contiguous characters from the first one on.
SRC: bsd/tty_subr.c:193-227 -/
def ndqb (m : Mem) (q : Clist) (flag : Bool) : ℤ :=
  if q.c_cc ≤ 0 then -q.c_cc
  else
    let cc : ℤ := (block (q.c_cf + 48) : ℤ) - q.c_cf
    let cc := if q.c_cc < cc then q.c_cc else cc
    if flag then unquoted m q.c_cf cc.toNat else cc

/-- The character behind the one at `cp`, with its address, which is 0 if there is none.
SRC: bsd/tty_subr.c:361-377 -/
def nextc (m : Mem) (p : Clist) (cp : ℕ) : Option (ℕ × BitVec 32) :=
  if p.c_cc ≠ 0 ∧ cp + 1 ≠ p.c_cl then
    let cp := if offset (cp + 1) = 0 then nextInfo m (cp + 1 - 64) else cp + 1
    some (cp, orQuote (signedChar m cp) (isquote m cp))
  else none

end Looking

section Putting

/-- Where the next character goes, with a new block if that is needed and there is one.
SRC: bsd/tty_subr.c:284-295 -/
def roomFor (m : Mem) (p : Clist) : Option ℕ × Mem × Clist :=
  if p.c_cl = 0 ∨ p.c_cc < 0 then
    match cfreelist_fetch m with
    | (none, m) => (none, m, p)
    | (some bp, m) => (some (c_info bp), m, { p with c_cf := c_info bp })
  else if offset p.c_cl = 0 then
    match fetchNext m (p.c_cl - 64) with
    | (none, m) => (none, m, p)
    | (some bp, m) => (some (c_info bp), m, p)
  else (some p.c_cl, m, p)

/-- It says whether the character has been put: the routine returns 0 then, and -1 if not.
SRC: bsd/tty_subr.c:275-303 -/
def putc (c : BitVec 64) (m : Mem) (p : Clist) : Bool × Mem × Clist :=
  match roomFor m p with
  | (none, m, p) => (false, m, p)
  | (some cp, m, p) =>
    let m := if c &&& TTY_QUOTE.setWidth 64 ≠ 0 then setquote m cp else m
    (true, m.store cp (c.setWidth 8), ⟨p.c_cc + 1, p.c_cf, cp + 1⟩)

/-- Characters are copied to an address and those behind it. -/
def Mem.copy (m : Mem) : ℕ → List Char8 → Mem
  | _, [] => m
  | cq, c :: cs => (m.store cq c).copy (cq + 1) cs

/-- The loop of `b_to_q`: what is left of the buffer, and the end of the clist.
SRC: bsd/tty_subr.c:331-344 -/
def moveIn : ℕ → Mem → ℕ → List Char8 → Option (List Char8 × Mem × ℕ)
  | 0, _, _, _ => none
  | fuel + 1, m, cq, cs =>
    if cs = [] then some (cs, m, cq)
    else
      match if offset cq = 0 then (fetchNext m (cq - 64)).map (Option.map c_info) id else (some cq, m) with
      | (none, m) => some (cs, m, cq)
      | (some cq, m) =>
        let nc := min cs.length (64 - offset cq)
        moveIn fuel (m.copy cq (cs.take nc)) (cq + nc) (cs.drop nc)

/-- Copy a buffer to a clist.  It returns what has not been transferred, whose length is what the routine
returns.
SRC: bsd/tty_subr.c:309-350 -/
def b_to_q (m : Mem) (q : Clist) (cs : List Char8) : Option (List Char8 × Mem × Clist) :=
  if cs = [] then some ([], m, q)
  else
    let start : Option (ℕ × Mem × Clist) :=
      if q.c_cl = 0 ∨ q.c_cc < 0 then
        match cfreelist_fetch m with
        | (none, _) => none
        | (some bp, m) => some (c_info bp, m, { q with c_cf := c_info bp })
      else some (q.c_cl, m, q)
    match start with
    | none => some (cs, m, q)
    | some (cq, m, q) => do
      let (rest, m, cq) ← moveIn (cs.length + 1) m cq cs
      some (rest, m, { q with c_cl := cq, c_cc := q.c_cc + (cs.length - rest.length) })

end Putting

section Calls

variable {ι : Type*} [DecidableEq ι]

/-- The blocks, and the clists that share them. -/
structure State (ι : Type*) where
  mem : Mem
  q : ι → Clist

/-- A routine has changed the memory and a clist. -/
def State.set (s : State ι) (i : ι) (r : Mem × Clist) : State ι := ⟨r.1, update s.q i r.2⟩

/-- The loop of `catq`: a character that cannot be put is dropped.
SRC: bsd/tty_subr.c:453-454 -/
def catLoop (fromq toq : ι) : ℕ → State ι → Option (State ι)
  | 0, _ => none
  | fuel + 1, s =>
    let (c, r) := getc s.mem (s.q fromq)
    let s := s.set fromq r
    if 0 ≤ c.toInt then
      let (_, r) := putc (c.signExtend 64) s.mem (s.q toq)
      catLoop fromq toq fuel (s.set toq r)
    else some s

/-- Put the characters of a clist on the end of another one.  It does not end if there is one that is put
on its own end.
SRC: bsd/tty_subr.c:427-455 -/
def catq (fromq toq : ι) (s : State ι) : Option (State ι) :=
  if (s.q toq).c_cc = 0 then
    some { s with q := update (update s.q toq (s.q fromq)) fromq Clist.empty }
  else catLoop fromq toq ((s.q fromq).c_cc.toNat + 1) s

/-- The calls of the routines. -/
inductive Call (ι : Type*) where
  | getc (i : ι)
  | q_to_b (i : ι) (cc : ℤ)
  | ndqb (i : ι) (flag : Bool)
  | ndflush (i : ι) (cc : ℤ)
  | putc (c : BitVec 64) (i : ι)
  | b_to_q (cs : List Char8) (i : ι)
  | nextc (i : ι) (cp : ℕ)
  | unputc (i : ι)
  | catq (fromq toq : ι)

/-- What they return. -/
inductive Result where
  | char (c : BitVec 32)
  | buffer (cs : List Char8)
  | count (n : ℤ)
  | status (ok : Bool)
  | next (r : Option (ℕ × BitVec 32))
  | void

/-- A call, with what it returns. -/
def call (nclist : ℕ) (s : State ι) : Call ι → Option (Result × State ι)
  | .getc i =>
    let (c, r) := getc s.mem (s.q i)
    some (.char c, s.set i r)
  | .q_to_b i cc => (q_to_b s.mem (s.q i) cc).map fun (cs, r) => (.buffer cs, s.set i r)
  | .ndqb i flag => some (.count (ndqb s.mem (s.q i) flag), s)
  | .ndflush i cc => (ndflush s.mem (s.q i) cc).map fun r => (.void, s.set i r)
  | .putc c i =>
    let (ok, r) := putc c s.mem (s.q i)
    some (.status ok, s.set i r)
  | .b_to_q cs i => (b_to_q s.mem (s.q i) cs).map fun (rest, r) => (.buffer rest, s.set i r)
  | .nextc i cp => some (.next (nextc s.mem (s.q i) cp), s)
  | .unputc i => (unputc nclist s.mem (s.q i)).map fun (c, r) => (.char c, s.set i r)
  | .catq fromq toq => (catq fromq toq s).map fun s => (.void, s)

/-- The loop of `cinit` frees some blocks, from an address on.
SRC: bsd/init_main.c:980-984 -/
def freeBlocks : ℕ → Mem → ℕ → Mem
  | 0, m, _ => m
  | n + 1, m, cp =>
    freeBlocks n
      { m with
        c_next := update m.c_next cp m.cfreelist
        cfreelist := some cp
        cfreecount := m.cfreecount + 48 }
      (cp + 64)

/-- Where the first block is: the memory begins at `cfree`.
SRC: bsd/init_main.c:978-979 -/
def firstBlock (cfree : ℕ) : ℕ := (cfree + 63) / 64 * 64

/-- How many blocks begin from there on in front of `&cfree[nclist-1]`. -/
def blockCount (cfree nclist : ℕ) : ℕ := (cfree + 64 * (nclist - 1) - firstBlock cfree + 63) / 64

/-- The memory is cleared when it is allocated. -/
def cinit (cfree nclist : ℕ) : Mem :=
  freeBlocks (blockCount cfree nclist) ⟨fun _ => none, fun _ _ => false, fun _ => 0, none, 0⟩ (firstBlock cfree)

/-- The blocks there are. -/
def cblocks (cfree nclist : ℕ) : List ℕ :=
  (List.range (blockCount cfree nclist)).map fun k => firstBlock cfree + 64 * k

/-- After `cinit` the routines are called in any order. -/
def system (ι : Type*) [DecidableEq ι] (cfree nclist : ℕ) : System (State ι) (Call ι) :=
  System.ofFun ⟨cinit cfree nclist, fun _ => Clist.empty⟩ fun s e => (call nclist s e).map Prod.snd

end Calls

end Model

/-!
## What a clist holds

A clist is a queue of places in its blocks, and what it holds is what is stored at these places.  The
blocks are chained, and so are those that are free, which have no quote bits set.
-/

section Represents

open Osf1.Computation Osf1.Computation.BlockQueue

variable {m m' : Mem} {q q' : Clist} {b z a cp n k : ℕ} {bs free l places' : List ℕ}

/-- The characters at some places, with whether they are quoted. -/
def content (m : Mem) (l : List ℕ) : List (Char8 × Bool) := l.map fun a => (m.byte a, isquote m a)

/-- The places of a clist in its blocks. -/
def Clist.places (q : Clist) (bs : List ℕ) : List ℕ := BlockQueue.places 16 64 q.c_cf bs q.c_cl

/-- A character as an `int`. -/
def intOf (x : Char8 × Bool) : BitVec 32 := orQuote (x.1.setWidth 32) x.2

section Addresses

theorem block_add (hb : b % 64 = 0) (hk : k < 64) : block (b + k) = b := by
  unfold block
  omega

theorem offset_add (hb : b % 64 = 0) (hk : k < 64) : offset (b + k) = k := by
  unfold offset
  omega

theorem block_eq (hb : b % 64 = 0) (hlo : b ≤ a) (hhi : a < b + 64) : block a = b := by
  unfold block
  omega

theorem block_bounds (a : ℕ) : block a ≤ a ∧ a < block a + 64 := by
  unfold block
  omega

theorem apart (hb : b % 64 = 0) (hz : z % 64 = 0) (hne : b ≠ z) : b + 64 ≤ z ∨ z + 64 ≤ b := by
  omega

end Addresses

section Memory

/-- The memory outside some blocks is as it was. -/
structure Frame (m m' : Mem) (l : List ℕ) : Prop where
  link : ∀ b, b ∉ l → m'.c_next b = m.c_next b
  quote : ∀ b, b ∉ l → m'.c_quote b = m.c_quote b
  byte : ∀ a, block a ∉ l → m'.byte a = m.byte a

theorem Frame.refl (m : Mem) (l : List ℕ) : Frame m m l := ⟨fun _ _ => rfl, fun _ _ => rfl, fun _ _ => rfl⟩

theorem Frame.trans {m'' : Mem} (h : Frame m m' l) (h' : Frame m' m'' l) : Frame m m'' l where
  link b hb := (h'.link b hb).trans (h.link b hb)
  quote b hb := (h'.quote b hb).trans (h.quote b hb)
  byte a ha := (h'.byte a ha).trans (h.byte a ha)

theorem Frame.mono {l' : List ℕ} (h : Frame m m' l) (hl : ∀ b ∈ l, b ∈ l') : Frame m m' l' where
  link b hb := h.link b fun hmem => hb (hl b hmem)
  quote b hb := h.quote b fun hmem => hb (hl b hmem)
  byte a ha := h.byte a fun hmem => ha (hl _ hmem)

theorem Frame.content (h : Frame m m' l) {as : List ℕ} (has : ∀ a ∈ as, block a ∉ l) :
    content m' as = content m as := by
  apply map_congr_left
  intro a ha
  unfold isquote
  rw [h.byte a (has a ha), h.quote _ (has a ha)]

theorem frame_return (m : Mem) (b : ℕ) : Frame m (cfreelist_return m b) [b] where
  link _ hx := update_of_ne (ne_of_not_mem_cons hx) ..
  quote _ hx := update_of_ne (ne_of_not_mem_cons hx) ..
  byte _ hx := if_neg (ne_of_not_mem_cons hx)

end Memory

/-- The blocks of a clist, and those that are free. -/
structure Blocks (m : Mem) (bs free : List ℕ) : Prop where
  chain : Leads m.c_next bs.head? bs none
  freeChain : Leads m.c_next m.cfreelist free none
  freecount : m.cfreecount = 48 * free.length
  cleared : ∀ b ∈ free, ∀ i, m.c_quote b i = false
  aligned : ∀ b ∈ bs ++ free, b % 64 = 0 ∧ 0 < b
  nodup : (bs ++ free).Nodup

/-- A clist with its blocks, and the blocks that are free. -/
structure Loc (m : Mem) (q : Clist) (bs free : List ℕ) : Prop extends Blocks m bs free where
  spans : bs ≠ [] → Spans 16 64 q.c_cf bs q.c_cl
  null : bs = [] → q.c_cf = 0 ∧ q.c_cl = 0
  count : q.c_cc = (q.places bs).length

section Taking

theorem Loc.places_block (h : Loc m q bs free) (ha : a ∈ q.places bs) : block a ∈ bs := by
  have hne : bs ≠ [] := by
    rintro rfl
    cases ha
  obtain ⟨b, hb, hlo, hhi⟩ := (h.spans hne).mem ha
  have haligned := (h.aligned b (mem_append_left _ hb)).1
  rwa [block_eq haligned (by omega) hhi]

theorem Loc.empty (h : Loc m q bs free) (hcc : q.c_cc ≤ 0) : bs = [] ∧ q = Clist.empty := by
  have hbs : bs = [] := by
    cases bs with
    | nil => rfl
    | cons b bs =>
      have hpos := (h.spans (cons_ne_nil _ _)).room_pos
      have hlen : 0 < (q.places (b :: bs)).length := by
        unfold Clist.places
        rw [places_cons, length_append, length_range']
        omega
      have := h.count
      omega
  subst hbs
  obtain ⟨hcf, hcl⟩ := h.null rfl
  have hcount : q.c_cc = 0 := h.count
  refine ⟨rfl, ?_⟩
  cases q
  simp_all [Clist.empty]

theorem Loc.nonempty (h : Loc m q bs free) (hcc : ¬q.c_cc ≤ 0) : ∃ b bs', bs = b :: bs' := by
  cases bs with
  | nil => exact absurd (Int.le_of_eq h.count) hcc
  | cons b bs' => exact ⟨b, bs', rfl⟩

section

variable (h : Loc m q (b :: bs) free)
include h

theorem Loc.cf_block : block q.c_cf = b ∧ b + 16 ≤ q.c_cf ∧ q.c_cf < b + 64 := by
  obtain ⟨hlo, hhi⟩ := (h.spans (cons_ne_nil _ _)).first
  have haligned := (h.aligned b (mem_cons_self ..)).1
  exact ⟨block_eq haligned (by omega) hhi, hlo, hhi⟩

theorem Loc.advance (hn : n < room 64 q.c_cf b bs q.c_cl) :
    Loc m ⟨q.c_cc - n, q.c_cf + n, q.c_cl⟩ (b :: bs) free ∧
      q.places (b :: bs) = List.range' q.c_cf n ++
        (⟨q.c_cc - n, q.c_cf + n, q.c_cl⟩ : Clist).places (b :: bs) := by
  obtain ⟨hspans, hplaces⟩ := (h.spans (cons_ne_nil _ _)).advance hn
  refine ⟨{ h with spans := fun _ => hspans, null := nofun, count := ?_ }, hplaces⟩
  have hlen := congrArg length hplaces
  rw [length_append, length_range'] at hlen
  have hcount := h.count
  unfold Clist.places at hcount ⊢
  dsimp only
  omega

theorem Loc.given {cc : ℤ} {cf cl : ℕ} (hspans : bs ≠ [] → Spans 16 64 cf bs cl) (hnull : bs = [] → cf = 0 ∧ cl = 0)
    (hcount : cc = (BlockQueue.places 16 64 cf bs cl).length) :
    Loc (cfreelist_return m b) ⟨cc, cf, cl⟩ bs (b :: free) := by
  have hall : (b :: (bs ++ free)).Nodup := h.nodup
  obtain ⟨hb, hnodup⟩ := nodup_cons.mp hall
  rw [mem_append] at hb
  have hbbs : b ∉ bs := fun hmem => hb (.inl hmem)
  have hbfree : b ∉ free := fun hmem => hb (.inr hmem)
  have hperm : (bs ++ b :: free).Perm (b :: (bs ++ free)) := perm_middle
  refine ⟨⟨?_, ?_, ?_, ?_, ?_, ?_⟩, hspans, hnull, hcount⟩
  · have hchain := h.chain.2.update hbbs m.cfreelist
    cases bs with
    | nil => rfl
    | cons b' bs' =>
      refine ⟨rfl, ?_⟩
      exact hchain.2
  · refine ⟨rfl, ?_⟩
    change Leads (update m.c_next b m.cfreelist) (update m.c_next b m.cfreelist b) free none
    rw [update_self]
    exact h.freeChain.update hbfree _
  · change m.cfreecount + 48 = _
    rw [h.freecount, length_cons]
    omega
  · intro x hx i
    by_cases hxb : x = b
    · rw [hxb]
      change update m.c_quote b _ b i = false
      rw [update_self]
    · change update m.c_quote b _ x i = false
      rw [update_of_ne hxb]
      exact h.cleared x ((mem_cons.mp hx).resolve_left hxb) i
  · exact fun x hx => h.aligned x (hperm.mem_iff.mp hx)
  · exact hperm.nodup_iff.mpr h.nodup

end

theorem Loc.nextBlock {b' : ℕ} (h : Loc m q (b :: b' :: bs) free) :
    nextInfo m b = b' + 16 ∧
      Loc (cfreelist_return m b) ⟨q.c_cc - (b + 64 - q.c_cf : ℕ), nextInfo m b, q.c_cl⟩ (b' :: bs)
        (b :: free) ∧
      q.places (b :: b' :: bs) = List.range' q.c_cf (b + 64 - q.c_cf) ++
        (⟨q.c_cc - (b + 64 - q.c_cf : ℕ), nextInfo m b, q.c_cl⟩ : Clist).places (b' :: bs) := by
  have hnext : nextInfo m b = b' + 16 := by
    unfold nextInfo
    rw [h.chain.2.1]
    rfl
  obtain ⟨hspans, hplaces⟩ := (h.spans (cons_ne_nil _ _)).next
  rw [hnext]
  refine ⟨rfl, h.given (fun _ => hspans) nofun ?_, hplaces⟩
  have hlen := congrArg length hplaces
  rw [length_append, length_range'] at hlen
  have hcount := h.count
  unfold Clist.places at hcount
  omega

theorem Loc.lastBlock (h : Loc m q [b] free) : Loc (cfreelist_return m b) Clist.empty [] (b :: free) :=
  h.given (fun hne => absurd rfl hne) (fun _ => ⟨rfl, rfl⟩) rfl

theorem content_return (hl : ∀ a ∈ l, block a ≠ b) : content (cfreelist_return m b) l = content m l :=
  (frame_return m b).content fun a ha hmem => hl a ha (mem_singleton.mp hmem)

end Taking

end Represents

end Osf1.Clists
