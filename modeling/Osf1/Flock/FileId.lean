import Osf1.Computation.Transition
import Osf1.Flock.Model

/-!
# File identifiers and their reference counts

A vnode with locks has a `flino` on the list `fids`, which counts the threads that use it. A step is one
section of `findfid`, `allocfid` or `freefid` under `FIDS_LOCK` or `FLINO_LOCK`, or a change of the lock chain
by a thread that uses the `flino`.
-/

set_option autoImplicit false

namespace Osf1.Flock.FileId

open Osf1.Computation List

/-- SRC: sys/flock.h:96-109 -/
structure Flino where
  addr : ℕ
  vp : Vnode
  flRefcnt : ℤ
  flFlck : List Filock
  deriving DecidableEq, Repr

/-- Where a thread is. -/
inductive Thread where
  | idle
  /-- `findfid` has returned `NULL`. -/
  | missed (vp : Vnode)
  /-- `allocfid` has a `flino` of its own, which is not on the list. -/
  | allocated (flip : ℕ) (vp : Vnode)
  /-- `findfid` or `allocfid` has returned the `flino`. -/
  | holds (flip : ℕ)
  /-- `freefid` is between its two sections. -/
  | freeing (flip : ℕ)
  deriving DecidableEq, Repr

/-- A thread between a successful `findfid` or `allocfid` and the end of `freefid`. -/
def Uses (flip : ℕ) (p : Thread) : Prop := p = .holds flip ∨ p = .freeing flip

instance (flip : ℕ) : DecidablePred (Uses flip) := fun _ => inferInstanceAs (Decidable (_ ∨ _))

/-- The list `fids` and the threads. -/
@[ext] structure State (T : Type) where
  fids : List Flino
  thread : T → Thread

/-- What the threads do. -/
inductive Event (T : Type) where
  | findfid (t : T) (vp : Vnode)
  /-- The caller of `findfid` does without a `flino`. -/
  | leave (t : T)
  /-- `ZALLOC` from `lockfile_zone`. -/
  | zalloc (t : T) (flip : Option ℕ)
  /-- `allocfid` under `FIDS_LOCK`. -/
  | allocfid (t : T)
  /-- The lock chain changes under `FICHAIN_LOCK`. -/
  | chain (t : T) (c : List Filock)
  /-- `freefid` under `FLINO_LOCK`. -/
  | freefid (t : T)
  /-- `freefid` under `FIDS_LOCK`. -/
  | freefidSlow (t : T)

/-- The search `while (flip != NULL)` for a vnode. -/
def lookup (fids : List Flino) (vp : Vnode) : Option Flino := fids.find? fun f => f.vp = vp

/-- The `flino` at an address. -/
def at? (fids : List Flino) (flip : ℕ) : Option Flino := fids.find? fun f => f.addr = flip

/-- Write through a `flino` pointer. -/
def write (fids : List Flino) (flip : ℕ) (g : Flino → Flino) : List Flino :=
  fids.map fun f => if f.addr = flip then g f else f

/-- `fl_refcnt++`. -/
def raise (f : Flino) : Flino := { f with flRefcnt := f.flRefcnt + 1 }

/-- `--fl_refcnt`. -/
def lower (f : Flino) : Flino := { f with flRefcnt := f.flRefcnt - 1 }

/-- Another lock chain. -/
def withChain (c : List Filock) (f : Flino) : Flino := { f with flFlck := c }

/-- The record that `allocfid` has not put on the list yet. -/
def Thread.own : Thread → Option ℕ
  | .allocated flip _ => some flip
  | _ => none

variable {T : Type} [Fintype T] [DecidableEq T]

/-- A thread goes on to another place. -/
def State.goto (s : State T) (t : T) (p : Thread) : State T := { s with thread := Function.update s.thread t p }

/-- A thread that has found a `flino` takes a reference. -/
def State.hold (s : State T) (t : T) (f : Flino) : State T :=
  { s.goto t (.holds f.addr) with fids := write s.fids f.addr raise }

/-- An address that `ZALLOC` may return: no `flino` on the list or in the hands of
`allocfid` is there. -/
def Unused (s : State T) (flip : ℕ) : Prop := flip ∉ s.fids.map Flino.addr ∧ ∀ t, (s.thread t).own ≠ some flip

instance (s : State T) (flip : ℕ) : Decidable (Unused s flip) := inferInstanceAs (Decidable (_ ∧ _))

/-- Search the list and take a reference.
SRC: vfs/vfs_flock.c:240-259 -/
def findfid (s : State T) (t : T) (vp : Vnode) : State T :=
  match lookup s.fids vp with
  | some f => s.hold t f
  | none => s.goto t (.missed vp)

/-- Look again, and put the new `flino` on the list unless there is one by now.
SRC: vfs/vfs_flock.c:282-317 -/
def allocfid (s : State T) (t : T) (flip : ℕ) (vp : Vnode) : State T :=
  match lookup s.fids vp with
  | some flinop => s.hold t flinop
  | none => { s.goto t (.holds flip) with fids := ⟨flip, vp, 1, []⟩ :: s.fids }

/-- Give up a reference, unless it is the last to a `flino` without locks.
SRC: vfs/vfs_flock.c:326-328,346-349 -/
def freefid (s : State T) (t : T) (f : Flino) : State T :=
  if f.flRefcnt = 1 ∧ f.flFlck = [] then s.goto t (.freeing f.addr)
  else { s.goto t .idle with fids := write s.fids f.addr lower }

/-- Take the `flino` off the list, unless it is in use again.
SRC: vfs/vfs_flock.c:329-345 -/
def freefidSlow (s : State T) (t : T) (f : Flino) : State T :=
  if f.flRefcnt ≠ 1 ∨ f.flFlck ≠ [] then s.goto t .idle
  else { s.goto t .idle with fids := s.fids.filter fun g => g.addr ≠ f.addr }

/-- One step.  Pointers lead to a `flino` of the list or nowhere (`listed_of_uses`). -/
def step (s : State T) : Event T → Option (State T)
  | .findfid t vp => if s.thread t = .idle then some (findfid s t vp) else none
  | .leave t =>
    match s.thread t with
    | .missed _ => some (s.goto t .idle)
    | _ => none
  | .zalloc t flip =>
    match s.thread t, flip with
    | .missed _, none => some (s.goto t .idle)
    | .missed vp, some flip =>
      if Unused s flip then some (s.goto t (.allocated flip vp)) else none
    | _, _ => none
  | .allocfid t =>
    match s.thread t with
    | .allocated flip vp => some (allocfid s t flip vp)
    | _ => none
  | .chain t c =>
    match s.thread t with
    | .holds flip => some { s with fids := write s.fids flip (withChain c) }
    | _ => none
  | .freefid t =>
    match s.thread t with
    | .holds flip => (at? s.fids flip).map (freefid s t)
    | _ => none
  | .freefidSlow t =>
    match s.thread t with
    | .freeing flip => (at? s.fids flip).map (freefidSlow s t)
    | _ => none

/-- Nobody uses a `flino` and there is none. -/
def State.start : State T := ⟨[], fun _ => .idle⟩

/-- The list of file identifiers, used by the threads `T`. -/
def fidSystem (T : Type) [Fintype T] [DecidableEq T] : System (State T) (Event T) := System.ofFun State.start step

/-- The threads that use a `flino`. -/
def users (s : State T) (flip : ℕ) : ℕ := tally (Uses flip) s.thread

/-- What holds of the list and the threads.  `tight` says that no thread has left without
giving up its reference. -/
structure FidInv (tight : Prop) (s : State T) : Prop where
  addrs : (s.fids.map Flino.addr).Nodup
  vps : (s.fids.map Flino.vp).Nodup
  unlisted : ∀ t flip, (s.thread t).own = some flip → flip ∉ s.fids.map Flino.addr
  apart : ∀ t t' flip, (s.thread t).own = some flip → (s.thread t').own = some flip → t = t'
  listed : ∀ t flip, Uses flip (s.thread t) → flip ∈ s.fids.map Flino.addr
  count : ∀ f ∈ s.fids, (users s f.addr : ℤ) ≤ f.flRefcnt
  exactCount : tight → ∀ f ∈ s.fids, f.flRefcnt = users s f.addr
  chained : tight → ∀ f ∈ s.fids, f.flRefcnt = 0 → f.flFlck ≠ []

/-- The references of one thread to a `flino`. -/
def refs (flip : ℕ) (p : Thread) : ℕ := if Uses flip p then 1 else 0

@[simp] theorem refs_idle (flip : ℕ) : refs flip .idle = 0 := by simp [refs, Uses]

@[simp] theorem refs_missed (flip : ℕ) (vp : Vnode) : refs flip (.missed vp) = 0 := by
  simp [refs, Uses]

@[simp] theorem refs_allocated (flip a : ℕ) (vp : Vnode) : refs flip (.allocated a vp) = 0 := by
  simp [refs, Uses]

@[simp] theorem refs_holds (flip a : ℕ) : refs flip (.holds a) = if flip = a then 1 else 0 := by
  simp [refs, Uses, eq_comm]

@[simp] theorem refs_freeing (flip a : ℕ) : refs flip (.freeing a) = if flip = a then 1 else 0 := by
  simp [refs, Uses, eq_comm]

variable {s : State T} {tight : Prop} {t : T} {flip : ℕ} {f : Flino}

theorem users_goto (s : State T) (t : T) (p : Thread) (flip : ℕ) :
    users (s.goto t p) flip + refs flip (s.thread t) = users s flip + refs flip p :=
  tally_update ..

@[simp] theorem write_id (fids : List Flino) (flip : ℕ) : write fids flip id = fids := by
  simp [write]

theorem map_write {β : Type*} {k : Flino → β} {g : Flino → Flino} (hg : ∀ f, k (g f) = k f)
    (fids : List Flino) (flip : ℕ) : (write fids flip g).map k = fids.map k := by
  rw [write, map_map]
  apply map_congr_left
  intro f _
  by_cases heq : f.addr = flip
  · simp [heq, hg]
  · simp [heq]

/-- The invariant after a thread has gone from one place to another and has written to a
`flino`: the count must have changed by what the thread has left and entered. -/
theorem FidInv.move (h : FidInv tight s) {t : T} {p : Thread} {flip : ℕ} {g : Flino → Flino}
    (haddr : ∀ f, (g f).addr = f.addr) (hvp : ∀ f, (g f).vp = f.vp)
    (hown : ∀ a, p.own = some a → a ∉ s.fids.map Flino.addr ∧ ∀ t', (s.thread t').own ≠ some a)
    (huses : ∀ a, Uses a p → a ∈ s.fids.map Flino.addr)
    (hcount : ∀ f ∈ s.fids, f.flRefcnt + refs f.addr p ≤
      (if f.addr = flip then g f else f).flRefcnt + refs f.addr (s.thread t))
    (htight : tight → ∀ f ∈ s.fids,
      (if f.addr = flip then g f else f).flRefcnt + refs f.addr (s.thread t) = f.flRefcnt + refs f.addr p ∧
      ((if f.addr = flip then g f else f).flRefcnt = 0 → (if f.addr = flip then g f else f).flFlck ≠ [])) :
    FidInv tight { s.goto t p with fids := write s.fids flip g } := by
  have hmem {f' : Flino} (hf' : f' ∈ write s.fids flip g) :
      ∃ f ∈ s.fids, f' = (if f.addr = flip then g f else f) ∧ f'.addr = f.addr := by
    obtain ⟨f, hf, rfl⟩ := mem_map.mp hf'
    refine ⟨f, hf, rfl, ?_⟩
    split
    · exact haddr f
    · rfl
  have husers (f : Flino) := users_goto s t p f.addr
  refine ⟨?_, ?_, ?_, ?_, ?_, ?_, ?_, ?_⟩
  · exact map_write haddr s.fids flip ▸ h.addrs
  · exact map_write hvp s.fids flip ▸ h.vps
  · intro t' a ha
    rw [map_write haddr]
    by_cases ht : t' = t
    · subst ht
      exact (hown a (by simpa [State.goto] using ha)).1
    · exact h.unlisted t' a (by simpa [State.goto, ht] using ha)
  · intro t' t'' a ha ha'
    by_cases ht : t' = t <;> by_cases ht' : t'' = t
    · rw [ht, ht']
    · subst ht
      exact absurd (by simpa [State.goto, ht'] using ha')
        ((hown a (by simpa [State.goto] using ha)).2 t'')
    · subst ht'
      exact absurd (by simpa [State.goto, ht] using ha)
        ((hown a (by simpa [State.goto] using ha')).2 t')
    · exact h.apart t' t'' a (by simpa [State.goto, ht] using ha)
        (by simpa [State.goto, ht'] using ha')
  · intro t' a ha
    rw [map_write haddr]
    by_cases ht : t' = t
    · subst ht
      exact huses a (by simpa [State.goto] using ha)
    · exact h.listed t' a (by simpa [State.goto, ht] using ha)
  · intro f' hf'
    obtain ⟨f, hf, rfl, heq⟩ := hmem hf'
    have hle := hcount f hf
    have hold := h.count f hf
    have hu := husers f
    rw [heq]
    change (users (s.goto t p) f.addr : ℤ) ≤ _
    omega
  · intro ht f' hf'
    obtain ⟨f, hf, rfl, heq⟩ := hmem hf'
    have hex := (htight ht f hf).1
    have hold := h.exactCount ht f hf
    have hu := husers f
    rw [heq]
    change _ = (users (s.goto t p) f.addr : ℤ)
    omega
  · intro ht f' hf' h0
    obtain ⟨f, hf, rfl, -⟩ := hmem hf'
    exact (htight ht f hf).2 h0

theorem FidInv.stroll (h : FidInv tight s) {p : Thread}
    (hown : ∀ a, p.own = some a → a ∉ s.fids.map Flino.addr ∧ ∀ t', (s.thread t').own ≠ some a)
    (hp : ∀ a, refs a p = 0) (ht : ∀ a, refs a (s.thread t) = 0) : FidInv tight (s.goto t p) := by
  have hno (a : ℕ) : ¬Uses a p := by
    intro hu
    have h0 := hp a
    simp [refs, hu] at h0
  have hmoved : FidInv tight { s.goto t p with fids := write s.fids 0 id } := by
    apply h.move (fun _ => rfl) (fun _ => rfl) hown (fun a ha => absurd ha (hno a))
    · intro f _
      simp [hp, ht]
    · intro htight f hf
      simpa [hp, ht] using h.chained htight f hf
  rw [write_id] at hmoved
  exact hmoved

theorem mem_addrs_of_at? {fids : List Flino} (h : at? fids flip = some f) : f ∈ fids ∧ f.addr = flip :=
  ⟨mem_of_find?_eq_some h, by simpa using find?_some h⟩

section

variable (h : FidInv tight s)
include h

theorem FidInv.hold (hf : f ∈ s.fids) (ht : ∀ a, refs a (s.thread t) = 0) : FidInv tight (s.hold t f) := by
  have hin : f.addr ∈ s.fids.map Flino.addr := mem_map_of_mem hf
  apply h.move (g := raise) (fun _ => rfl) (fun _ => rfl)
  · intro a ha
    cases ha
  · intro a ha
    rcases ha with heq | heq
    · cases heq
      exact hin
    · cases heq
  · intro f' _
    rw [ht, refs_holds]
    split <;> simp [raise]
  · intro htight f' hf'
    rw [ht, refs_holds]
    have hcount := h.exactCount htight f' hf'
    split
    · refine ⟨by simp [raise], fun h0 => ?_⟩
      have hpos : f'.flRefcnt + 1 = 0 := h0
      omega
    · exact ⟨by simp, h.chained htight f' hf'⟩

theorem FidInv.insert {vp : Vnode} (ht : s.thread t = .allocated flip vp) (hvp : lookup s.fids vp = none) :
    FidInv tight { s.goto t (.holds flip) with fids := ⟨flip, vp, 1, []⟩ :: s.fids } := by
  have hnew : flip ∉ s.fids.map Flino.addr := h.unlisted t flip (by simp [ht, Thread.own])
  have hunused : users s flip = 0 := by
    apply (tally_eq_zero_iff s.thread).mpr
    intro t' hu
    exact hnew (h.listed t' flip hu)
  have hone : users (s.goto t (.holds flip)) flip = 1 := by
    have hu := users_goto s t (.holds flip) flip
    rw [ht, hunused] at hu
    simpa using hu
  have hsame {f : Flino} (hf : f ∈ s.fids) :
      users (s.goto t (.holds flip)) f.addr = users s f.addr := by
    have hne : f.addr ≠ flip := fun heq => hnew (heq ▸ mem_map_of_mem hf)
    have hu := users_goto s t (.holds flip) f.addr
    rw [ht] at hu
    simpa [hne] using hu
  refine ⟨?_, ?_, ?_, ?_, ?_, ?_, ?_, ?_⟩
  · exact nodup_cons.mpr ⟨hnew, h.addrs⟩
  · refine nodup_cons.mpr ⟨fun hin => ?_, h.vps⟩
    obtain ⟨f, hf, heq⟩ := mem_map.mp hin
    exact find?_eq_none.mp hvp f hf (by simpa using heq)
  · intro t' a ha
    by_cases heq : t' = t
    · subst heq
      simp [State.goto, Thread.own] at ha
    · have hold : (s.thread t').own = some a := by simpa [State.goto, heq] using ha
      intro hin
      rcases mem_cons.mp hin with hflip | hin
      · apply heq
        apply h.apart t' t flip (hold.trans (congrArg some hflip))
        simp [ht, Thread.own]
      · exact h.unlisted t' a hold hin
  · intro t' t'' a ha ha'
    by_cases heq : t' = t
    · subst heq
      simp [State.goto, Thread.own] at ha
    · by_cases heq' : t'' = t
      · subst heq'
        simp [State.goto, Thread.own] at ha'
      · exact h.apart t' t'' a (by simpa [State.goto, heq] using ha)
          (by simpa [State.goto, heq'] using ha')
  · intro t' a ha
    by_cases heq : t' = t
    · subst heq
      simp [State.goto, Uses] at ha
      simp [ha]
    · exact mem_cons_of_mem _ (h.listed t' a (by simpa [State.goto, heq] using ha))
  · intro f hf
    rcases mem_cons.mp hf with heq | hf
    · subst heq
      exact le_of_eq (congrArg Nat.cast hone)
    · exact (congrArg Nat.cast (hsame hf)).trans_le (h.count f hf)
  · intro htight f hf
    rcases mem_cons.mp hf with heq | hf
    · subst heq
      exact (congrArg Nat.cast hone).symm
    · exact (h.exactCount htight f hf).trans (congrArg Nat.cast (hsame hf)).symm
  · intro htight f hf h0
    rcases mem_cons.mp hf with heq | hf
    · subst heq
      cases h0
    · exact h.chained htight f hf h0

theorem FidInv.remove (hf : f ∈ s.fids) (ht : s.thread t = .freeing f.addr) (hcnt : f.flRefcnt = 1) :
    FidInv tight { s.goto t .idle with fids := s.fids.filter fun g => g.addr ≠ f.addr } := by
  have hsub : (s.fids.filter fun g => g.addr ≠ f.addr).Sublist s.fids := filter_sublist
  have hlast (t' : T) (hu : Uses f.addr (s.thread t')) : t' = t := by
    have hle := h.count f hf
    rw [hcnt] at hle
    exact eq_of_tally_le_one (by exact_mod_cast hle) hu (.inr ht)
  have hother {t' : T} (hne : (s.goto t .idle).thread t' ≠ .idle) :
      t' ≠ t ∧ (s.goto t .idle).thread t' = s.thread t' := by
    by_cases heq : t' = t
    · simp [State.goto, heq] at hne
    · exact ⟨heq, by simp [State.goto, heq]⟩
  have hkept {g : Flino} (hg : g ∈ s.fids.filter fun g => g.addr ≠ f.addr) :
      g ∈ s.fids ∧ users (s.goto t .idle) g.addr = users s g.addr := by
    obtain ⟨hmem, hne⟩ := mem_filter.mp hg
    have hu := users_goto s t .idle g.addr
    rw [ht] at hu
    refine ⟨hmem, ?_⟩
    simpa [of_decide_eq_true hne] using hu
  have hown {t' : T} {a : ℕ} (ha : ((s.goto t .idle).thread t').own = some a) :
      (s.thread t').own = some a := by
    have hne : (s.goto t .idle).thread t' ≠ .idle := fun hq => by simp [hq, Thread.own] at ha
    rw [(hother hne).2] at ha
    exact ha
  refine ⟨h.addrs.sublist (hsub.map _), h.vps.sublist (hsub.map _), ?_, ?_, ?_, ?_, ?_, ?_⟩
  · intro t' a ha hin
    exact h.unlisted t' a (hown ha) ((hsub.map _).subset hin)
  · intro t' t'' a ha ha'
    exact h.apart t' t'' a (hown ha) (hown ha')
  · intro t' a ha
    have hidle : (s.goto t .idle).thread t' ≠ .idle := fun hq => by simp [hq, Uses] at ha
    obtain ⟨hne, hq⟩ := hother hidle
    rw [hq] at ha
    obtain ⟨g, hg, rfl⟩ := mem_map.mp (h.listed t' a ha)
    apply mem_map_of_mem
    rw [mem_filter, decide_eq_true_eq]
    exact ⟨hg, fun heq => hne (hlast t' (heq ▸ ha))⟩
  · intro g hg
    obtain ⟨hmem, heq⟩ := hkept hg
    exact (congrArg Nat.cast heq).trans_le (h.count g hmem)
  · intro htight g hg
    obtain ⟨hmem, heq⟩ := hkept hg
    exact (h.exactCount htight g hmem).trans (congrArg Nat.cast heq).symm
  · intro htight g hg
    exact h.chained htight g (hkept hg).1

theorem FidInv.rechain (ht : s.thread t = .holds flip) (c : List Filock) :
    FidInv tight { s with fids := write s.fids flip (withChain c) } := by
  have hsame : s.goto t (.holds flip) = s := by simp [State.goto, ← ht]
  have hmoved : FidInv tight { s.goto t (.holds flip) with
      fids := write s.fids flip (withChain c) } := by
    apply h.move (g := withChain c) (fun _ => rfl) (fun _ => rfl)
    · intro a ha
      cases ha
    · intro a ha
      exact h.listed t a (ht ▸ ha)
    · intro f _
      rw [ht]
      split <;> exact le_rfl
    · intro htight f hf
      rw [ht]
      split
      · rename_i heq
        refine ⟨rfl, fun h0 => ?_⟩
        have hpos : 0 < users s f.addr := tally_pos (i := t) (.inl (heq ▸ ht))
        have hcount := h.exactCount htight f hf
        have hzero : f.flRefcnt = 0 := h0
        omega
      · exact ⟨rfl, h.chained htight f hf⟩
  rw [hsame] at hmoved
  exact hmoved

theorem FidInv.freefid (hf : f ∈ s.fids) (ht : s.thread t = .holds f.addr) : FidInv tight (freefid s t f) := by
  unfold FileId.freefid
  split
  · have hmoved : FidInv tight
        { s.goto t (.freeing f.addr) with fids := write s.fids f.addr id } := by
      apply h.move (fun _ => rfl) (fun _ => rfl)
      · intro a ha
        cases ha
      · intro a ha
        rcases ha with heq | heq
        · cases heq
        · cases heq
          exact mem_map_of_mem hf
      · intro g _
        simp [ht]
      · intro htight g hg
        simpa [ht] using h.chained htight g hg
    rw [write_id] at hmoved
    exact hmoved
  · rename_i hlast
    apply h.move (g := lower) (fun _ => rfl) (fun _ => rfl)
    · intro a ha
      cases ha
    · intro a ha
      simp [Uses] at ha
    · intro g _
      rw [ht, refs_holds]
      split <;> simp [lower]
    · intro htight g hg
      rw [ht, refs_holds]
      split
      · rename_i heq
        obtain rfl : g = f := inj_on_of_nodup_map h.addrs hg hf heq
        refine ⟨by simp [lower], fun h0 hnil => hlast ⟨?_, hnil⟩⟩
        have hone : g.flRefcnt - 1 = 0 := h0
        omega
      · exact ⟨by simp, h.chained htight g hg⟩

theorem FidInv.freefidSlow (hf : f ∈ s.fids)
    (ht : s.thread t = .freeing f.addr) (hsure : tight → f.flRefcnt = 1 ∧ f.flFlck = []) :
    FidInv tight (freefidSlow s t f) := by
  unfold FileId.freefidSlow
  split
  · rename_i hbusy
    have hloose : ¬tight := by
      intro htight
      obtain ⟨hone, hnil⟩ := hsure htight
      rcases hbusy with hne | hne
      · exact hne hone
      · exact hne hnil
    have hmoved : FidInv tight { s.goto t .idle with fids := write s.fids f.addr id } := by
      apply h.move (fun _ => rfl) (fun _ => rfl)
      · intro a ha
        cases ha
      · intro a ha
        simp [Uses] at ha
      · intro g _
        simp
      · intro htight
        exact absurd htight hloose
    rw [write_id] at hmoved
    exact hmoved
  · rename_i hfree
    exact h.remove hf ht (by simpa using fun hne => hfree (.inl hne))

end

/-- `freefid` does not find, under `FIDS_LOCK`, that somebody has come in between. -/
def freesForSure (s : State T) : Event T → Prop
  | .freefidSlow t => ∀ f ∈ s.fids, s.thread t = .freeing f.addr → f.flRefcnt = 1 ∧ f.flFlck = []
  | _ => True

theorem FidInv.step (h : FidInv tight s) {s' : State T} {e : Event T} (hs : step s e = some s')
    (hsure : tight → freesForSure s e) : FidInv tight s' := by
  have hfree : ∀ a, (Thread.idle).own = some a →
      a ∉ s.fids.map Flino.addr ∧ ∀ t', (s.thread t').own ≠ some a := fun a ha => by cases ha
  cases e with
  | findfid t vp =>
    simp only [FileId.step, Option.ite_none_right_eq_some, Option.some.injEq] at hs
    obtain ⟨ht, rfl⟩ := hs
    unfold findfid
    split
    · rename_i f hf
      exact h.hold (mem_of_find?_eq_some hf) (by simp [ht])
    · exact h.stroll (fun a ha => by cases ha) (by simp) (by simp [ht])
  | leave t =>
    simp only [FileId.step] at hs
    split at hs
    · rename_i vp ht
      cases hs
      exact h.stroll hfree (by simp) (by simp [ht])
    · cases hs
  | zalloc t flip =>
    simp only [FileId.step] at hs
    split at hs
    · rename_i vp ht
      cases hs
      exact h.stroll hfree (by simp) (by simp [ht])
    · rename_i vp flip ht
      simp only [Option.ite_none_right_eq_some, Option.some.injEq] at hs
      obtain ⟨hunused, rfl⟩ := hs
      apply h.stroll _ (by simp) (by simp [ht])
      rintro a ⟨⟩
      exact hunused
    · cases hs
  | allocfid t =>
    simp only [FileId.step] at hs
    split at hs
    · rename_i flip vp ht
      cases hs
      unfold allocfid
      split
      · rename_i f hf
        exact h.hold (mem_of_find?_eq_some hf) (by simp [ht])
      · exact h.insert ht ‹_›
    · cases hs
  | chain t c =>
    simp only [FileId.step] at hs
    split at hs
    · rename_i flip ht
      cases hs
      exact h.rechain ht c
    · cases hs
  | freefid t =>
    simp only [FileId.step] at hs
    split at hs
    · rename_i flip ht
      obtain ⟨f, hf, rfl⟩ := Option.map_eq_some_iff.mp hs
      obtain ⟨hmem, rfl⟩ := mem_addrs_of_at? hf
      exact h.freefid hmem ht
    · cases hs
  | freefidSlow t =>
    simp only [FileId.step] at hs
    split at hs
    · rename_i flip ht
      obtain ⟨f, hf, rfl⟩ := Option.map_eq_some_iff.mp hs
      obtain ⟨hmem, rfl⟩ := mem_addrs_of_at? hf
      exact h.freefidSlow hmem ht fun htight => hsure htight f hmem ht
    · cases hs

omit [DecidableEq T] in
theorem fidInv_start : FidInv tight (State.start : State T) := by
  constructor <;> simp [State.start, Thread.own, Uses]

/-- In a run in which no `freefid` finds that somebody has come in between, the count of a `flino` is the number
of threads that use it. -/
theorem fids_refcnt (h : ((fidSystem T).restrict freesForSure).Reachable s) :
    (∀ f ∈ s.fids, f.flRefcnt = users s f.addr) ∧
      ((∀ t, s.thread t = .idle) → ∀ f ∈ s.fids, f.flFlck ≠ []) := by
  have hinv : FidInv True s := by
    apply h.invariant
    · rintro s rfl
      exact fidInv_start
    · intro s e s' _ hs hstep
      exact hs.step hstep.2 fun _ => hstep.1
  refine ⟨hinv.exactCount trivial, fun hidle f hf => ?_⟩
  apply hinv.chained trivial f hf
  rw [hinv.exactCount trivial f hf]
  have hnone : users s f.addr = 0 := by
    apply (tally_eq_zero_iff s.thread).mpr
    intro t
    simp [hidle t, Uses]
  rw [hnone]
  rfl

/-- One of two threads has made a `flino` for vnode 7. -/
def oneUser : State Bool := ⟨[⟨0, 7, 1, []⟩], Function.update (fun _ => .idle) true (.holds 0)⟩

theorem fids_refcnt_oneUser : (∀ f ∈ oneUser.fids, f.flRefcnt = users oneUser f.addr) ∧
    ((∀ t, oneUser.thread t = .idle) → ∀ f ∈ oneUser.fids, f.flFlck ≠ []) := by
  have hrun : ∃ s', System.runFrom step (State.start : State Bool)
      [.findfid true 7, .zalloc true (some 0), .allocfid true] = some s' ∧ s' = oneUser := by
    refine ⟨_, rfl, State.ext rfl ?_⟩
    funext t
    cases t <;> rfl
  obtain ⟨s', hrun, heq⟩ := hrun
  rw [heq] at hrun
  have hmeets : System.MeetsAlong step freesForSure (State.start : State Bool)
      [.findfid true 7, .zalloc true (some 0), .allocfid true] :=
    ⟨trivial, fun _ _ => ⟨trivial, fun _ _ => ⟨trivial, fun _ _ => trivial⟩⟩⟩
  have hs : ((fidSystem Bool).restrict freesForSure).Reachable oneUser := .runFrom_restrict (.init rfl) hmeets hrun
  exact fids_refcnt hs

/-- Thread `true` is about to free the `flino` when thread `false` finds it; `true` leaves it
alone and keeps its reference, and `false` takes the count down to the one that is left. -/
theorem fids_refcnt_lost :
    ∃ s : State Bool, (fidSystem Bool).Reachable s ∧ (∀ t, s.thread t = .idle) ∧
      ∃ f ∈ s.fids, f.flFlck = [] ∧ f.flRefcnt ≠ users s f.addr := by
  have hrun : ∃ s, System.runFrom step (State.start : State Bool)
      [.findfid true 7, .zalloc true (some 0), .allocfid true, .freefid true,
       .findfid false 7, .freefidSlow true, .freefid false] = some s ∧
      (∀ t, s.thread t = .idle) ∧ s.fids = [⟨0, 7, 1, []⟩] := by
    refine ⟨_, rfl, ?_, rfl⟩
    decide
  obtain ⟨s, hrun, hidle, hfids⟩ := hrun
  refine ⟨s, System.reachable_of_runFrom hrun, hidle, ⟨0, 7, 1, []⟩, ?_, rfl, ?_⟩
  · simp [hfids]
  · have hnone : users s 0 = 0 := by
      apply (tally_eq_zero_iff s.thread).mpr
      intro t
      simp [hidle t, Uses]
    simp [hnone]

end Osf1.Flock.FileId
