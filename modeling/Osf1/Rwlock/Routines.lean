import Osf1.Rwlock.Model

/-!
# What the routines keep

Each routine, and each loop that goes on, keeps what the threads hold, and whoever sleeps waits for
something that has not happened.
-/

set_option autoImplicit false

namespace Osf1.Rwlock

open Function Option

section Routines

open Osf1.Computation

variable {T : Type} [DecidableEq T] {s s' : State T} {l l' : Lock T} {t u : T} {x y : Thread} {pc : Pc}
  {nap : Bool}

/-- What a thread waits for in a loop to end. -/
def Lock.Waits (l : Lock T) : Pc → Prop
  | .idle => False
  | .wantWrite => l.want_write
  | .drain => l.read_count ≠ 0 ∨ l.want_upgrade
  | .wantRead => l.want_write ∨ l.want_upgrade
  | .upgrade | .tryUpgrade => l.read_count ≠ 0

/-- Who sleeps and has not been woken still has something to wait for. -/
def Awaits (s : State T) : Prop := ∀ t, (s.th t).asleep → s.lock.Waits (s.th t).pc

theorem Awaits.update (hothers : ∀ u, u ≠ t → (s.th u).asleep → l'.Waits (s.th u).pc)
    (hx : x.asleep → l'.Waits x.pc) : Awaits ({ s with lock := l' }.setThread t x) := by
  intro u hu
  by_cases hut : u = t
  · rw [hut] at hu ⊢
    simp only [State.setThread, update_self] at hu ⊢
    exact hx hu
  · simp only [State.setThread, update_of_ne hut] at hu ⊢
    exact hothers u hut hu

omit [DecidableEq T] in
theorem Awaits.idle (h : Awaits s) (hpc : (s.th t).pc = .idle) : (s.th t).asleep = false := by
  rw [← Bool.not_eq_true]
  intro hasleep
  have := h t hasleep
  rw [hpc] at this
  exact this

theorem Awaits.move (h : Awaits s) (hx : x.asleep = false) : Awaits (s.setThread t x) := by
  have hothers : ∀ u, u ≠ t → (s.th u).asleep → s.lock.Waits (s.th u).pc := fun u _ => h u
  exact Awaits.update hothers fun hasleep => absurd hasleep (Bool.not_eq_true _ ▸ hx)

omit [DecidableEq T] in
theorem Lock.Waits.addRead (h : l.Waits pc) : { l with read_count := l.read_count + 1 }.Waits pc := by
  cases pc with
  | idle => exact h
  | wantWrite => exact h
  | drain => exact .inl (Nat.succ_ne_zero _)
  | wantRead => exact h
  | upgrade => exact Nat.succ_ne_zero _
  | tryUpgrade => exact Nat.succ_ne_zero _

omit [DecidableEq T] in
theorem Lock.Waits.upgraded (h : l.Waits pc) (hpc : ¬pc.Upgrading) (n : ℕ) :
    { l with want_upgrade := true, read_count := n }.Waits pc := by
  cases pc with
  | idle => exact h
  | wantWrite => exact h
  | drain => exact .inr rfl
  | wantRead => exact .inr rfl
  | upgrade => exact absurd (.inl rfl) hpc
  | tryUpgrade => exact absurd (.inr rfl) hpc

variable [Fintype T]

/-- What every step keeps. -/
structure Ok (s : State T) : Prop where
  inv : Inv s
  awaits : Awaits s

section Writers

/-- A thread has the lock for writing, not only recursively. -/
def Thread.Base (x : Thread) : Prop := (x.hasWrite ∧ x.pc ≠ .drain) ∨ (x.hasUpgrade ∧ ¬x.pc.Upgrading)

omit [DecidableEq T] in
theorem Inv.base (h : Inv s) (hw : (s.th t).Writing) : (s.th t).Base := by
  obtain hdepth | hwrite | hup := hw
  · have hown : s.lock.thread = some t := by
      by_contra hne
      exact hdepth ((h.one t).other hne)
    exact ((h.one t).own hown).2
  · exact .inl hwrite
  · refine .inr ⟨hup.1, ?_⟩
    rintro (heq | heq)
    · exact hup.2.1 heq
    · exact hup.2.2 heq

omit [DecidableEq T] in
theorem Inv.alone (h : Inv s) (hb : (s.th t).Base) (hut : u ≠ t) : (s.th u).reads = 0 ∧ ¬(s.th u).Base := by
  have htu := h.two t u (Ne.symm hut)
  rcases hb with hw | hup
  · obtain ⟨hreads, hup⟩ := htu.writer hw.1 hw.2
    refine ⟨hreads, ?_⟩
    rintro (hb | hb)
    · exact absurd hb.1 (Bool.not_eq_true _ ▸ htu.write hw.1)
    · exact absurd hb.1 (Bool.not_eq_true _ ▸ hup)
  · obtain ⟨hreads, hdrain⟩ := htu.upgrader hup.1 hup.2
    refine ⟨hreads, ?_⟩
    rintro (hb | hb)
    · exact hb.2 (hdrain hb.1)
    · exact absurd hb.1 (Bool.not_eq_true _ ▸ htu.upgrade hup.1)

omit [DecidableEq T] in
theorem Inv.free_of_base (h : Inv s) (hb : (s.th t).Base) : Free s t := by
  intro u hut
  have halone := (h.alone hb hut).2
  constructor
  · intro hw
    by_contra hpc
    exact halone (.inl ⟨hw, hpc⟩)
  · intro hup
    by_contra hpc
    exact halone (.inr ⟨hup, hpc⟩)

omit [DecidableEq T] in
theorem Inv.free_of_flags (h : Inv s) (hwrite : ¬s.lock.want_write) (hup : ¬s.lock.want_upgrade) (t : T) :
    Free s t := fun u _ =>
  ⟨fun hw => absurd ((h.one u).write hw) hwrite, fun hw => absurd ((h.one u).upgrade hw) hup⟩

omit [DecidableEq T] in
theorem Inv.depth_zero (h : Inv s) (hb : (s.th t).Base) (hdepth : (s.th t).depth = 0) :
    s.lock.recursion_depth = 0 := by
  cases hthread : s.lock.thread with
  | none => exact h.nobody hthread
  | some u =>
    obtain ⟨hrec, hbase⟩ := (h.one u).own hthread
    by_cases hut : u = t
    · rw [hrec, hut, hdepth]
    · exact absurd hbase (h.alone hb hut).2

end Writers

section Giving

theorem Inv.giveWrite (h : Inv s) (hpc : (s.th t).pc = .idle) (hw : (s.th t).Writing)
    (hclosed : (s.th t).giveWrite.Writing ∨ s.lock.thread ≠ some t) :
    Inv ({ s with lock := s.lock.giveWrite }.setThread t (s.th t).giveWrite) := by
  have hbase := h.base hw
  by_cases hdepth : (s.th t).depth = 0
  · have hrec := h.depth_zero hbase hdepth
    by_cases hup : (s.th t).hasUpgrade
    · have hflag := (h.one t).upgrade hup
      have hl : s.lock.giveWrite = { s.lock with want_upgrade := false } := by
        unfold Lock.giveWrite
        rw [if_neg (by simp [hrec]), if_pos hflag]
      have hx : (s.th t).giveWrite = { s.th t with hasUpgrade := false } := by
        unfold Thread.giveWrite
        rw [if_neg (by simp [hdepth]), if_pos hup]
      rw [hl, hx]
      rw [hx] at hclosed
      apply h.update t
      · rfl
      · exact fun hw => .inr ⟨hw, id⟩
      · exact nofun
      · exact h.nobody
      · refine { h.one t with
          upgrade := nofun
          upgrades := fun hup => absurd hup (hpc ▸ plain_idle.2)
          own := fun hown => ⟨((h.one t).own hown).1, ?_⟩ }
        rcases hclosed with hwriting | hother
        · obtain hd | hwrite | hupgrade := hwriting
          · exact absurd hdepth hd
          · exact .inl hwrite
          · exact absurd hupgrade.1 nofun
        · exact absurd hown hother
      · intro u hut
        exact { h.one u with
          upgrade := fun hu =>
            absurd hu (Bool.not_eq_true _ ▸ (h.two t u (Ne.symm hut)).upgrade hup) }
      · intro u hut
        refine ⟨{ h.two t u (Ne.symm hut) with upgrade := nofun, upgrader := nofun },
          { h.two u t hut with upgrade := fun _ => rfl, writer := ?_ }⟩
        exact fun hu hne => ⟨((h.two u t hut).writer hu hne).1, rfl⟩
    · have hwrite : (s.th t).hasWrite := by
        rcases hbase with hb | hb
        · exact hb.1
        · exact absurd hb.1 hup
      have hnoup : ¬s.lock.want_upgrade := by
        intro hflag
        obtain ⟨u, hu⟩ := h.upgrade hflag
        by_cases hut : u = t
        · exact hup (hut ▸ hu)
        · have hpc' : (s.th t).pc ≠ .drain := fun heq => nomatch hpc.symm.trans heq
          have hnone := ((h.two t u (Ne.symm hut)).writer hwrite hpc').2
          exact absurd hu (Bool.not_eq_true _ ▸ hnone)
      have hl : s.lock.giveWrite = { s.lock with want_write := false } := by
        unfold Lock.giveWrite
        rw [if_neg (by simp [hrec]), if_neg hnoup]
      have hx : (s.th t).giveWrite = { s.th t with hasWrite := false } := by
        unfold Thread.giveWrite
        rw [if_neg (by simp [hdepth]), if_neg hup]
      rw [hl, hx]
      rw [hx] at hclosed
      apply h.update t
      · rfl
      · exact nofun
      · exact fun hw => .inr ⟨hw, id⟩
      · exact h.nobody
      · refine { h.one t with
          write := nofun
          drains := fun heq => nomatch hpc.symm.trans heq
          own := fun hown => ⟨((h.one t).own hown).1, ?_⟩ }
        rcases hclosed with hwriting | hother
        · obtain hd | hwrite | hupgrade := hwriting
          · exact absurd hdepth hd
          · exact absurd hwrite.1 nofun
          · exact absurd hupgrade.1 hup
        · exact absurd hown hother
      · intro u hut
        exact { h.one u with
          write := fun hu =>
            absurd hu (Bool.not_eq_true _ ▸ (h.two t u (Ne.symm hut)).write hwrite) }
      · intro u hut
        refine ⟨{ h.two t u (Ne.symm hut) with write := nofun, writer := nofun },
          { h.two u t hut with write := fun _ => rfl, upgrader := ?_ }⟩
        exact fun hu hne => ⟨((h.two u t hut).upgrader hu hne).1, nofun⟩
  · have hown : s.lock.thread = some t := by
      by_contra hne
      exact hdepth ((h.one t).other hne)
    have hrec := ((h.one t).own hown).1
    have hl : s.lock.giveWrite = { s.lock with recursion_depth := s.lock.recursion_depth - 1 } := by
      unfold Lock.giveWrite
      rw [if_pos (hrec ▸ hdepth)]
    have hx : (s.th t).giveWrite = { s.th t with depth := (s.th t).depth - 1 } := by
      unfold Thread.giveWrite
      rw [if_pos hdepth]
    rw [hl, hx]
    apply h.update t
    · rfl
    · exact fun hw => .inr ⟨hw, id⟩
    · exact fun hw => .inr ⟨hw, id⟩
    · exact fun hnone => absurd (hown.symm.trans hnone) nofun
    · exact { h.one t with
        other := fun hne => absurd hown hne
        own := fun _ => ⟨congrArg (· - 1) hrec, ((h.one t).own hown).2⟩ }
    · intro u hut
      exact { h.one u with
        own := fun hu => absurd (some_inj.mp (hu.symm.trans hown)) hut }
    · exact fun u hut => ⟨{ h.two t u (Ne.symm hut) with }, { h.two u t hut with }⟩

omit [DecidableEq T] in
theorem Inv.ok_wake (h : Inv s) : Ok s.wake := by
  refine ⟨h.wake, fun t hasleep => ?_⟩
  exact absurd hasleep (Bool.not_eq_true _ ▸ h.wake_asleep t)

theorem Ok.lock_done (h : Ok s) (hpc : (s.th t).pc = .idle) (hmay : (s.th t).reads ≠ 0 ∨ (s.th t).Writing)
    (hclosed : (s.th t).reads = 0 → (s.th t).giveWrite.Writing ∨ s.lock.thread ≠ some t)
    (hs : Rwlock.lock_done s t = some s') : Ok s' := by
  obtain rfl := some_inj.mp hs
  apply Inv.ok_wake
  by_cases hreads : (s.th t).reads = 0
  · have hw := hmay.resolve_left (by simp [hreads])
    have hzero : s.lock.read_count = 0 := by
      rw [h.inv.reads]
      apply Finset.sum_eq_zero
      intro u _
      by_cases hut : u = t
      · rw [hut, hreads]
      · exact (h.inv.alone (h.inv.base hw) hut).1
    have hl : s.lock.done = s.lock.giveWrite := by
      unfold Lock.done Lock.giveWrite
      rw [if_neg (by simp [hzero])]
    have hx : (s.th t).done = (s.th t).giveWrite := by
      unfold Thread.done
      rw [if_neg (by simp [hreads])]
    rw [hl, hx]
    exact h.inv.giveWrite hpc hw (hclosed hreads)
  · have hcount := h.inv.reads_le t
    have hl : s.lock.done = { s.lock with read_count := s.lock.read_count - 1 } := by
      unfold Lock.done
      rw [if_pos (by omega)]
    have hx : (s.th t).done = { s.th t with reads := (s.th t).reads - 1 } := by
      unfold Thread.done
      rw [if_pos hreads]
    rw [hl, hx]
    exact h.inv.dropRead hreads

theorem Ok.lock_write_to_read (h : Ok s) (hpc : (s.th t).pc = .idle) (hw : (s.th t).Writing)
    (hclosed : (s.th t).giveWrite.Writing ∨ s.lock.thread ≠ some t)
    (hs : Rwlock.lock_write_to_read s t = some s') : Ok s' := by
  obtain rfl := some_inj.mp hs
  apply Inv.ok_wake
  have hadd := h.inv.addRead (h.inv.free_of_base (h.inv.base hw))
  have hth : (s.addRead t).th t = { s.th t with reads := (s.th t).reads + 1 } := update_self ..
  apply hadd.giveWrite
  · rw [hth]
    exact hpc
  · rw [hth]
    exact hw
  · have hgive : ((s.addRead t).th t).giveWrite =
        { (s.th t).giveWrite with reads := (s.th t).reads + 1 } := by
      rw [hth]
      unfold Thread.giveWrite
      split
      · rfl
      · split <;> rfl
    rw [hgive]
    exact hclosed

end Giving

section Waiting

variable (h : Ok s)
include h

theorem Ok.thread_sleep (hwaits : s.lock.Waits (s.th t).pc) : Ok (s.thread_sleep t) := by
  refine ⟨?_, Awaits.update (fun u _ => h.awaits u) fun _ => hwaits⟩
  apply h.inv.update t
  · rfl
  · exact fun hw => .inr ⟨hw, id⟩
  · exact fun hw => .inr ⟨hw, id⟩
  · exact h.inv.nobody
  · exact { h.inv.one t with asleep := fun _ => rfl }
  · exact fun u _ => { h.inv.one u with asleep := fun _ => rfl }
  · exact fun u hut => ⟨{ h.inv.two t u (Ne.symm hut) with }, { h.inv.two u t hut with }⟩

theorem Ok.wait (hwaits : s.lock.Waits (s.th t).pc) (hs : s.wait t nap = some s') : Ok s' := by
  unfold State.wait at hs
  cases nap with
  | false => exact some_inj.mp hs ▸ h
  | true =>
    by_cases hsleep : s.lock.can_sleep
    · rw [if_pos hsleep] at hs
      exact some_inj.mp hs ▸ h.thread_sleep hwaits
    · rw [if_neg hsleep] at hs
      cases hs

theorem Ok.move (hx : x = { s.th t with pc := x.pc, asleep := x.asleep, result := x.result })
    (hasleep : x.asleep = false) (hplain : x.pc.Plain)
    (hdrain : (s.th t).pc = .drain → s.lock.read_count = 0 ∧ s.lock.want_upgrade = false)
    (hupgrading : (s.th t).pc.Upgrading → s.lock.read_count = 0) : Ok (s.setThread t x) :=
  ⟨h.inv.move hx (fun ha => absurd ha (Bool.not_eq_true _ ▸ hasleep)) hplain hdrain hupgrading,
    h.awaits.move hasleep⟩

theorem Ok.finish (hasleep : (s.th t).asleep = false)
    (hdrain : (s.th t).pc = .drain → s.lock.read_count = 0 ∧ s.lock.want_upgrade = false)
    (hupgrading : (s.th t).pc.Upgrading → s.lock.read_count = 0) (result : Option Bool) : Ok (s.returns t result) :=
  h.move (x := { s.th t with pc := .idle, result := result }) rfl hasleep plain_idle hdrain hupgrading

theorem Ok.returns (hasleep : (s.th t).asleep = false) (hplain : (s.th t).pc.Plain)
    (result : Option Bool) : Ok (s.returns t result) :=
  h.finish hasleep (fun heq => absurd heq hplain.1) (fun hup => absurd hup hplain.2) result

theorem Ok.drain (hpc : (s.th t).pc = .drain) (hasleep : (s.th t).asleep = false)
    (hs : Rwlock.drain s t nap = some s') : Ok s' := by
  unfold Rwlock.drain at hs
  by_cases hwaits : s.lock.read_count ≠ 0 ∨ s.lock.want_upgrade
  · rw [if_pos hwaits] at hs
    apply h.wait _ hs
    rw [hpc]
    exact hwaits
  · rw [if_neg hwaits] at hs
    obtain rfl := some_inj.mp hs
    apply h.finish hasleep
    · exact fun _ => ⟨not_not.mp fun hne => hwaits (.inl hne),
        Bool.eq_false_iff.mpr fun hup => hwaits (.inr hup)⟩
    · exact fun hup => absurd (hpc ▸ hup) not_upgrading_drain

theorem Ok.takeWrite (hwrite : ¬s.lock.want_write) (hplain : (s.th t).pc.Plain)
    (hasleep : (s.th t).asleep = false) : Ok (s.takeWrite t) := by
  refine ⟨h.inv.takeWrite (Bool.eq_false_iff.mpr hwrite) hplain, Awaits.update ?_ ?_⟩
  · intro u _ hu
    have hold := h.awaits u hu
    cases hpc : (s.th u).pc <;> rw [hpc] at hold
    · exact hold
    · exact rfl
    · exact hold
    · exact .inl rfl
    · exact hold
    · exact hold
  · exact fun ha => absurd ha (Bool.not_eq_true _ ▸ hasleep)

theorem Ok.wantWrite (hplain : (s.th t).pc.Plain) (hasleep : (s.th t).asleep = false)
    (hs : Rwlock.wantWrite s t nap = some s') : Ok s' := by
  unfold Rwlock.wantWrite at hs
  by_cases hwrite : s.lock.want_write
  · rw [if_pos hwrite] at hs
    have hmove : Ok (s.setThread t { s.th t with pc := .wantWrite }) :=
      h.move rfl hasleep plain_wantWrite (fun heq => absurd heq hplain.1)
        (fun hup => absurd hup hplain.2)
    apply hmove.wait _ hs
    simpa [State.setThread, Lock.Waits] using hwrite
  · rw [if_neg hwrite] at hs
    apply (h.takeWrite hwrite hplain hasleep).drain _ _ hs
    · simp [State.takeWrite, State.setThread]
    · simpa [State.takeWrite, State.setThread] using hasleep

theorem Ok.addRead (hfree : Free s t) (hasleep : (s.th t).asleep = false) : Ok (s.addRead t) := by
  refine ⟨h.inv.addRead hfree, Awaits.update ?_ ?_⟩
  · exact fun u _ hu => (h.awaits u hu).addRead
  · exact fun ha => absurd ha (Bool.not_eq_true _ ▸ hasleep)

theorem Ok.addRead_returns (hfree : Free s t) (hplain : (s.th t).pc.Plain)
    (hasleep : (s.th t).asleep = false) (result : Option Bool) : Ok ((s.addRead t).returns t result) := by
  apply (h.addRead hfree hasleep).returns
  · simpa [State.addRead, State.setThread] using hasleep
  · simpa [State.addRead, State.setThread] using hplain

theorem Ok.wantRead (hplain : (s.th t).pc.Plain) (hasleep : (s.th t).asleep = false)
    (hs : Rwlock.wantRead s t nap = some s') : Ok s' := by
  unfold Rwlock.wantRead at hs
  by_cases hwaits : s.lock.want_write ∨ s.lock.want_upgrade
  · rw [if_pos hwaits] at hs
    have hmove : Ok (s.setThread t { s.th t with pc := .wantRead }) :=
      h.move rfl hasleep plain_wantRead (fun heq => absurd heq hplain.1)
        (fun hup => absurd hup hplain.2)
    apply hmove.wait _ hs
    simpa [State.setThread, Lock.Waits] using hwaits
  · rw [if_neg hwaits] at hs
    obtain rfl := some_inj.mp hs
    apply h.addRead_returns _ hplain hasleep
    exact h.inv.free_of_flags (fun hw => hwaits (.inl hw)) (fun hup => hwaits (.inr hup)) t

theorem Ok.upgrade (hpc : (s.th t).pc = .upgrade) (hasleep : (s.th t).asleep = false)
    (hs : Rwlock.upgrade s t nap = some s') : Ok s' := by
  unfold Rwlock.upgrade at hs
  by_cases hwaits : s.lock.read_count ≠ 0
  · rw [if_pos hwaits] at hs
    apply h.wait _ hs
    rw [hpc]
    exact hwaits
  · rw [if_neg hwaits] at hs
    obtain rfl := some_inj.mp hs
    apply h.finish hasleep
    · exact fun heq => nomatch hpc.symm.trans heq
    · exact fun _ => not_not.mp hwaits

theorem Ok.tryUpgrade (hpc : (s.th t).pc = .tryUpgrade) (hasleep : (s.th t).asleep = false)
    (hs : Rwlock.tryUpgrade s t = some s') : Ok s' := by
  unfold Rwlock.tryUpgrade at hs
  by_cases hwaits : s.lock.read_count ≠ 0
  · rw [if_pos hwaits] at hs
    obtain rfl := some_inj.mp hs
    apply h.thread_sleep
    rw [hpc]
    exact hwaits
  · rw [if_neg hwaits] at hs
    obtain rfl := some_inj.mp hs
    apply h.finish hasleep
    · exact fun heq => nomatch hpc.symm.trans heq
    · exact fun _ => not_not.mp hwaits

end Waiting

section Calls

theorem Ok.addDepth_returns (h : Ok s) (hown : s.lock.thread = some t) (hpc : (s.th t).pc = .idle)
    (result : Option Bool) : Ok ((s.addDepth t).returns t result) := by
  have hasleep := h.awaits.idle hpc
  have hadd : Ok (s.addDepth t) := by
    refine ⟨h.inv.addDepth hown, Awaits.update (fun u _ hu => ?_) fun ha => ?_⟩
    · have hold := h.awaits u hu
      cases hpcu : (s.th u).pc <;> rw [hpcu] at hold <;> exact hold
    · exact absurd ha (Bool.not_eq_true _ ▸ hasleep)
  apply hadd.returns
  · simpa [State.addDepth, State.setThread] using hasleep
  · simpa [State.addDepth, State.setThread, hpc] using plain_idle

theorem Ok.lock_write (h : Ok s) (hpc : (s.th t).pc = .idle)
    (hs : Rwlock.lock_write s t nap = some s') : Ok s' := by
  have hasleep := h.awaits.idle hpc
  unfold Rwlock.lock_write at hs
  by_cases hown : s.lock.thread = some t
  · rw [if_pos hown] at hs
    exact some_inj.mp hs ▸ h.addDepth_returns hown hpc none
  · rw [if_neg hown] at hs
    exact h.wantWrite (hpc ▸ plain_idle) hasleep hs

theorem Ok.lock_read (h : Ok s) (hpc : (s.th t).pc = .idle) (hs : Rwlock.lock_read s t nap = some s') : Ok s' := by
  have hasleep := h.awaits.idle hpc
  have hplain : (s.th t).pc.Plain := hpc ▸ plain_idle
  unfold Rwlock.lock_read at hs
  by_cases hown : s.lock.thread = some t
  · rw [if_pos hown] at hs
    have hfree := h.inv.free_of_base ((h.inv.one t).own hown).2
    exact some_inj.mp hs ▸ h.addRead_returns hfree hplain hasleep none
  · rw [if_neg hown] at hs
    exact h.wantRead hplain hasleep hs

theorem Ok.lock_try_write (h : Ok s) (hpc : (s.th t).pc = .idle)
    (hs : Rwlock.lock_try_write s t = some s') : Ok s' := by
  have hasleep := h.awaits.idle hpc
  have hplain : (s.th t).pc.Plain := hpc ▸ plain_idle
  unfold Rwlock.lock_try_write at hs
  by_cases hown : s.lock.thread = some t
  · rw [if_pos hown] at hs
    exact some_inj.mp hs ▸ h.addDepth_returns hown hpc (some true)
  · rw [if_neg hown] at hs
    by_cases hbusy : s.lock.want_write ∨ s.lock.want_upgrade ∨ s.lock.read_count ≠ 0
    · rw [if_pos hbusy] at hs
      exact some_inj.mp hs ▸ h.returns hasleep hplain (some false)
    · rw [if_neg hbusy] at hs
      obtain ⟨hwrite, hup, hcount⟩ : ¬s.lock.want_write ∧ ¬s.lock.want_upgrade ∧ s.lock.read_count = 0 := by
        tauto
      obtain rfl := some_inj.mp hs
      apply (h.takeWrite hwrite hplain hasleep).finish
      · simpa [State.takeWrite, State.setThread] using hasleep
      · exact fun _ => ⟨hcount, Bool.eq_false_iff.mpr hup⟩
      · exact fun _ => hcount

theorem Ok.lock_try_read (h : Ok s) (hpc : (s.th t).pc = .idle)
    (hs : Rwlock.lock_try_read s t = some s') : Ok s' := by
  have hasleep := h.awaits.idle hpc
  have hplain : (s.th t).pc.Plain := hpc ▸ plain_idle
  unfold Rwlock.lock_try_read at hs
  by_cases hown : s.lock.thread = some t
  · rw [if_pos hown] at hs
    have hfree := h.inv.free_of_base ((h.inv.one t).own hown).2
    exact some_inj.mp hs ▸ h.addRead_returns hfree hplain hasleep (some true)
  · rw [if_neg hown] at hs
    by_cases hbusy : s.lock.want_write ∨ s.lock.want_upgrade
    · rw [if_pos hbusy] at hs
      exact some_inj.mp hs ▸ h.returns hasleep hplain (some false)
    · rw [if_neg hbusy] at hs
      have hfree := h.inv.free_of_flags (fun hw => hbusy (.inl hw)) (fun hup => hbusy (.inr hup)) t
      exact some_inj.mp hs ▸ h.addRead_returns hfree hplain hasleep (some true)

theorem Ok.dropRead_writer (h : Ok s) (hb : (s.th t).Base) (hreads : (s.th t).reads ≠ 0)
    (hasleep : (s.th t).asleep = false) : Ok (s.dropRead t) := by
  refine ⟨h.inv.dropRead hreads, Awaits.update (fun u hut hu => ?_) fun ha => ?_⟩
  · have hold := h.awaits u hu
    have htu := h.inv.two t u (Ne.symm hut)
    cases hpcu : (s.th u).pc <;> rw [hpcu] at hold
    · exact hold
    · exact hold
    · -- a writer that waits for the readers has let this thread upgrade before
      refine .inr ?_
      rcases hb with hw | hup
      · exact absurd ((h.inv.one u).drains hpcu) (Bool.not_eq_true _ ▸ htu.write hw.1)
      · exact (h.inv.one t).upgrade hup.1
    · exact hold
    · have hhas := (h.inv.one u).upgrades (hpcu ▸ .inl rfl)
      rcases hb with hw | hup
      · exact absurd hhas (Bool.not_eq_true _ ▸ (htu.writer hw.1 hw.2).2)
      · exact absurd hhas (Bool.not_eq_true _ ▸ htu.upgrade hup.1)
    · have hhas := (h.inv.one u).upgrades (hpcu ▸ .inr rfl)
      rcases hb with hw | hup
      · exact absurd hhas (Bool.not_eq_true _ ▸ (htu.writer hw.1 hw.2).2)
      · exact absurd hhas (Bool.not_eq_true _ ▸ htu.upgrade hup.1)
  · exact absurd ha (Bool.not_eq_true _ ▸ hasleep)

omit [Fintype T] in
theorem takeUpgrade_dropRead : (s.takeUpgrade t pc).dropRead t = (s.dropRead t).takeUpgrade t pc := by
  simp [State.takeUpgrade, State.dropRead, State.setThread]

theorem Ok.startUpgrade (h : Ok s) (hpc : (s.th t).pc = .idle) (hreads : (s.th t).reads ≠ 0)
    (hup : ¬s.lock.want_upgrade) (hupgrading : pc.Upgrading) : Ok ((s.dropRead t).takeUpgrade t pc) := by
  have hth : (s.dropRead t).th t = { s.th t with reads := (s.th t).reads - 1 } := update_self ..
  have hother (u : T) (hut : u ≠ t) : (s.dropRead t).th u = s.th u := update_of_ne hut ..
  constructor
  · apply (h.inv.dropRead hreads).takeUpgrade (Bool.eq_false_iff.mpr hup)
    · rw [hth]
      exact hpc ▸ plain_idle
    · exact hupgrading
    · intro u hut hw
      rw [hother u hut] at hw ⊢
      by_contra hne
      exact hreads ((h.inv.two u t hut).writer hw hne).1
  · apply Awaits.update
    · intro u hut hu
      rw [hother u hut] at hu ⊢
      apply (h.awaits u hu).upgraded
      exact fun hpcu => hup ((h.inv.one u).upgrade ((h.inv.one u).upgrades hpcu))
    · intro ha
      rw [hth] at ha
      exact absurd ha (Bool.not_eq_true _ ▸ h.awaits.idle hpc)

theorem Ok.lock_read_to_write (h : Ok s) (hpc : (s.th t).pc = .idle) (hreads : (s.th t).reads ≠ 0)
    (hs : Rwlock.lock_read_to_write s t nap = some s') : Ok s' := by
  have hasleep := h.awaits.idle hpc
  have hth : (s.dropRead t).th t = { s.th t with reads := (s.th t).reads - 1 } := update_self ..
  have hpc' : ((s.dropRead t).th t).pc = .idle := by
    rw [hth]
    exact hpc
  have hcount := h.inv.reads_le t
  unfold Rwlock.lock_read_to_write at hs
  rw [if_neg (by omega)] at hs
  by_cases hown : s.lock.thread = some t
  · rw [if_pos (by exact hown)] at hs
    have hdrop := h.dropRead_writer ((h.inv.one t).own hown).2 hreads hasleep
    exact some_inj.mp hs ▸ hdrop.addDepth_returns hown hpc' (some false)
  · rw [if_neg (by exact hown)] at hs
    by_cases hup : s.lock.want_upgrade
    · rw [if_pos (by exact hup)] at hs
      have hdrop := h.inv.dropRead hreads
      have hwake : ((s.dropRead t).wake.th t).pc = .idle := by
        unfold State.wake
        split
        · exact hpc'
        · exact hpc'
      exact some_inj.mp hs ▸ hdrop.ok_wake.returns (hdrop.wake_asleep t) (hwake ▸ plain_idle) (some true)
    · rw [if_neg (by exact hup)] at hs
      apply (h.startUpgrade hpc hreads hup (.inl rfl)).upgrade _ _ hs
      · simp [State.takeUpgrade, State.setThread]
      · simpa [State.takeUpgrade, State.setThread, hth] using hasleep

theorem Ok.lock_try_read_to_write (h : Ok s) (hpc : (s.th t).pc = .idle) (hreads : (s.th t).reads ≠ 0)
    (hs : Rwlock.lock_try_read_to_write s t = some s') : Ok s' := by
  have hasleep := h.awaits.idle hpc
  have hth : (s.dropRead t).th t = { s.th t with reads := (s.th t).reads - 1 } := update_self ..
  have hcount := h.inv.reads_le t
  unfold Rwlock.lock_try_read_to_write at hs
  by_cases hown : s.lock.thread = some t
  · rw [if_pos hown, if_neg (by omega)] at hs
    have hdrop := h.dropRead_writer ((h.inv.one t).own hown).2 hreads hasleep
    have hpc' : ((s.dropRead t).th t).pc = .idle := by
      rw [hth]
      exact hpc
    exact some_inj.mp hs ▸ hdrop.addDepth_returns hown hpc' (some true)
  · rw [if_neg hown] at hs
    by_cases hup : s.lock.want_upgrade
    · rw [if_pos hup] at hs
      exact some_inj.mp hs ▸ h.returns hasleep (hpc ▸ plain_idle) (some false)
    · rw [if_neg hup, if_neg (by omega), takeUpgrade_dropRead] at hs
      apply (h.startUpgrade hpc hreads hup (.inr rfl)).tryUpgrade _ _ hs
      · simp [State.takeUpgrade, State.setThread]
      · simpa [State.takeUpgrade, State.setThread, hth] using hasleep

omit [DecidableEq T] [Fintype T] in
theorem Lock.Waits.thread (h : l.Waits pc) (owner : Option T) : { l with thread := owner }.Waits pc := by
  cases pc <;> exact h

theorem Ok.lock_set_recursive (h : Ok s) (hw : (s.th t).Writing)
    (hs : Rwlock.lock_set_recursive s t = some s') : Ok s' := by
  unfold Rwlock.lock_set_recursive at hs
  by_cases hwrite : s.lock.want_write
  · rw [if_pos hwrite] at hs
    obtain rfl := some_inj.mp hs
    have hbase := h.inv.base hw
    have hrest (u : T) (hut : u ≠ t) : s.lock.thread ≠ some u := fun hown =>
      (h.inv.alone hbase hut).2 ((h.inv.one u).own hown).2
    have hdepth : s.lock.recursion_depth = (s.th t).depth := by
      cases hthread : s.lock.thread with
      | none => rw [h.inv.nobody hthread, (h.inv.one t).other (by rw [hthread]; exact nofun)]
      | some u =>
        by_cases hut : u = t
        · exact ((h.inv.one t).own (hut ▸ hthread)).1
        · exact absurd hthread (hrest u hut)
    refine ⟨⟨h.inv.reads, h.inv.write, h.inv.upgrade, nofun, fun u => ?_, h.inv.two⟩,
      fun u hu => (h.awaits u hu).thread _⟩
    by_cases hut : u = t
    · rw [hut]
      exact { h.inv.one t with other := fun hne => absurd rfl hne, own := fun _ => ⟨hdepth, hbase⟩ }
    · exact { h.inv.one u with
        other := fun _ => (h.inv.one u).other (hrest u hut)
        own := fun hown => absurd (some_inj.mp hown).symm hut }
  · rw [if_neg hwrite] at hs
    cases hs

theorem Ok.lock_clear_recursive (h : Ok s) (hs : Rwlock.lock_clear_recursive s t = some s') : Ok s' := by
  unfold Rwlock.lock_clear_recursive at hs
  by_cases hown : s.lock.thread = some t
  · rw [if_pos hown] at hs
    by_cases hdepth : s.lock.recursion_depth = 0
    · rw [if_pos hdepth] at hs
      obtain rfl := some_inj.mp hs
      refine ⟨⟨h.inv.reads, h.inv.write, h.inv.upgrade, fun _ => hdepth, fun u => ?_, h.inv.two⟩,
        fun u hu => (h.awaits u hu).thread _⟩
      refine { h.inv.one u with other := fun _ => ?_, own := nofun }
      by_cases hut : u = t
      · rw [hut, ← ((h.inv.one t).own hown).1]
        exact hdepth
      · apply (h.inv.one u).other
        exact fun hu => hut (some_inj.mp (hu.symm.trans hown))
    · rw [if_neg hdepth] at hs
      exact some_inj.mp hs ▸ h
  · rw [if_neg hown] at hs
    cases hs

end Calls

end Routines

/-!
## Read/write lock exclusion

In every run in which no thread gives up its last write hold while the lock is left to it for recursion, a
writer excludes everybody else, the lock counts the holds, and no wakeup is lost.
-/

section Exclusion

open Osf1.Computation

variable {T : Type} [DecidableEq T] {s s' : State T} {t : T} {nap : Bool}

/-- A thread that gives up its last write hold has ended the recursion with `lock_clear_recursive`. -/
def Closed (s : State T) : Event T → Prop
  | .call t .done _ =>
    (s.th t).reads = 0 → (s.th t).giveWrite.Writing ∨ s.lock.thread ≠ some t
  | .call t .writeToRead _ => (s.th t).giveWrite.Writing ∨ s.lock.thread ≠ some t
  | _ => True

instance (s : State T) (e : Event T) : Decidable (Closed s e) := by
  unfold Closed
  split <;> infer_instance

variable [Fintype T]

/-- What the lock is for. -/
structure Safe (s : State T) : Prop where
  exclusion : ∀ t u, (s.th t).Writing → u ≠ t → (s.th u).reads = 0 ∧ ¬(s.th u).Writing
  read_count : s.lock.read_count = ∑ t, (s.th t).reads
  want_write : s.lock.want_write ↔ ∃ t, (s.th t).hasWrite
  oneWrite : ∀ t u, (s.th t).hasWrite → (s.th u).hasWrite → t = u
  want_upgrade : s.lock.want_upgrade ↔ ∃ t, (s.th t).hasUpgrade
  oneUpgrade : ∀ t u, (s.th t).hasUpgrade → (s.th u).hasUpgrade → t = u
  sleeping : ∀ t, (s.th t).asleep → s.lock.waiting ∧ s.lock.Waits (s.th t).pc

omit [DecidableEq T] in
theorem Ok.safe (h : Ok s) : Safe s where
  exclusion t u hw hut := by
    obtain ⟨hreads, hbase⟩ := h.inv.alone (h.inv.base hw) hut
    exact ⟨hreads, fun hu => hbase (h.inv.base hu)⟩
  read_count := h.inv.reads
  want_write := ⟨h.inv.write, fun ⟨t, ht⟩ => (h.inv.one t).write ht⟩
  oneWrite t u ht hu := by
    by_contra hne
    exact absurd hu (Bool.not_eq_true _ ▸ (h.inv.two t u hne).write ht)
  want_upgrade := ⟨h.inv.upgrade, fun ⟨t, ht⟩ => (h.inv.one t).upgrade ht⟩
  oneUpgrade t u ht hu := by
    by_contra hne
    exact absurd hu (Bool.not_eq_true _ ▸ (h.inv.two t u hne).upgrade ht)
  sleeping t ht := ⟨(h.inv.one t).asleep ht, h.awaits t ht⟩

theorem Ok.step {e : Event T} (h : Ok s) (hclosed : Closed s e) (hs : Rwlock.step s e = some s') : Ok s' := by
  cases e with
  | call t routine nap =>
    simp only [Rwlock.step] at hs
    by_cases hguard : (s.th t).pc = .idle ∧ (s.th t).May routine
    · rw [if_pos hguard] at hs
      obtain ⟨hpc, hmay⟩ := hguard
      cases routine with
      | write => exact h.lock_write hpc hs
      | done => exact h.lock_done hpc hmay hclosed hs
      | read => exact h.lock_read hpc hs
      | readToWrite => exact h.lock_read_to_write hpc hmay hs
      | writeToRead => exact h.lock_write_to_read hpc hmay hclosed hs
      | tryWrite => exact h.lock_try_write hpc hs
      | tryRead => exact h.lock_try_read hpc hs
      | tryReadToWrite => exact h.lock_try_read_to_write hpc hmay hs
      | setRecursive => exact h.lock_set_recursive hmay hs
      | clearRecursive => exact h.lock_clear_recursive hs
    · rw [if_neg hguard] at hs
      cases hs
  | resume t nap =>
    simp only [Rwlock.step] at hs
    obtain ⟨hasleep, hs⟩ := ite_none_left_eq_some.mp hs
    rw [Bool.not_eq_true] at hasleep
    unfold resume at hs
    cases hpc : (s.th t).pc <;> rw [hpc] at hs
    · cases hs
    · exact h.wantWrite (hpc ▸ plain_wantWrite) hasleep hs
    · exact h.drain hpc hasleep hs
    · exact h.wantRead (hpc ▸ plain_wantRead) hasleep hs
    · exact h.upgrade hpc hasleep hs
    · exact h.tryUpgrade hpc hasleep hs

theorem ok_of_reachable {can_sleep : Bool} (h : ((system T can_sleep).restrict Closed).Reachable s) : Ok s := by
  apply h.invariant
  · rintro s rfl
    exact ⟨start_inv can_sleep, nofun⟩
  · exact fun s e s' _ hok hstep => hok.step hstep.1 hstep.2

section Failures

omit [DecidableEq T] [Fintype T] in
theorem wake_th (s : State T) (t : T) : s.wake.th t = { s.th t with asleep := (s.wake.th t).asleep } := by
  unfold State.wake
  split <;> rfl

theorem Ok.readToWrite_fails (h : Ok s) (hs : Rwlock.step s (.call t .readToWrite nap) = some s')
    (hpc' : (s'.th t).pc = .idle) (hresult : (s'.th t).result = some true) :
    s'.th t = { s.th t with reads := (s.th t).reads - 1, result := some true } := by
  simp only [Rwlock.step] at hs
  by_cases hguard : (s.th t).pc = .idle ∧ (s.th t).May .readToWrite
  · rw [if_pos hguard] at hs
    have hpc := hguard.1
    have hasleep := h.awaits.idle hpc
    have hreads : (s.th t).reads ≠ 0 := hguard.2
    have hcount := h.inv.reads_le t
    change Rwlock.lock_read_to_write s t nap = some s' at hs
    unfold Rwlock.lock_read_to_write at hs
    rw [if_neg (by omega)] at hs
    by_cases hown : s.lock.thread = some t
    · rw [if_pos (by exact hown)] at hs
      obtain rfl := some_inj.mp hs
      simp [State.returns, State.setThread] at hresult
    · rw [if_neg (by exact hown)] at hs
      by_cases hup : s.lock.want_upgrade
      · rw [if_pos (by exact hup)] at hs
        obtain rfl := some_inj.mp hs
        have hwake := (h.inv.dropRead hreads).wake_asleep t
        have hth : (s.dropRead t).wake.th t = { s.th t with reads := (s.th t).reads - 1 } := by
          rw [wake_th, hwake, State.dropRead, State.setThread]
          simp [hasleep]
        simp [State.returns, State.setThread, hth, hpc]
      · rw [if_neg (by exact hup)] at hs
        unfold Rwlock.upgrade at hs
        split at hs
        · unfold State.wait at hs
          cases nap with
          | false =>
            obtain rfl := some_inj.mp hs
            simp [State.takeUpgrade, State.setThread] at hpc'
          | true =>
            simp only [if_true] at hs
            split at hs
            · obtain rfl := some_inj.mp hs
              simp [State.thread_sleep, State.takeUpgrade, State.setThread] at hpc'
            · cases hs
        · obtain rfl := some_inj.mp hs
          simp [State.returns, State.setThread] at hresult
  · rw [if_neg hguard] at hs
    cases hs

omit [Fintype T] in
theorem tryReadToWrite_fails (hs : Rwlock.step s (.call t .tryReadToWrite nap) = some s')
    (hpc' : (s'.th t).pc = .idle) (hresult : (s'.th t).result = some false) :
    s'.th t = { s.th t with result := some false } := by
  simp only [Rwlock.step] at hs
  by_cases hguard : (s.th t).pc = .idle ∧ (s.th t).May .tryReadToWrite
  · rw [if_pos hguard] at hs
    have hpc := hguard.1
    change lock_try_read_to_write s t = some s' at hs
    unfold lock_try_read_to_write at hs
    split at hs
    · split at hs
      · cases hs
      · obtain rfl := some_inj.mp hs
        simp [State.returns, State.setThread] at hresult
    · split at hs
      · obtain rfl := some_inj.mp hs
        simp [State.returns, State.setThread, hpc]
      · split at hs
        · cases hs
        · unfold tryUpgrade at hs
          split at hs
          · obtain rfl := some_inj.mp hs
            simp [State.thread_sleep, State.takeUpgrade, State.dropRead, State.setThread] at hpc'
          · obtain rfl := some_inj.mp hs
            simp [State.returns, State.setThread] at hresult
  · rw [if_neg hguard] at hs
    cases hs

end Failures

/-- The lock excludes, counts and wakes, and what fails leaves the holds as it should. -/
theorem lock_safe {can_sleep : Bool} (h : ((system T can_sleep).restrict Closed).Reachable s) :
    Safe s ∧ ∀ t nap s', (s'.th t).pc = .idle →
      (step s (.call t .readToWrite nap) = some s' → (s'.th t).result = some true →
        s'.th t = { s.th t with reads := (s.th t).reads - 1, result := some true }) ∧
      (step s (.call t .tryReadToWrite nap) = some s' → (s'.th t).result = some false →
        s'.th t = { s.th t with result := some false }) := by
  have hok := ok_of_reachable h
  refine ⟨hok.safe, fun t nap s' hpc => ⟨fun hs hresult => ?_, fun hs hresult => ?_⟩⟩
  · exact hok.readToWrite_fails hs hpc hresult
  · exact tryReadToWrite_fails hs hpc hresult

/-- A thread reads, another one sleeps for a write hold, the first one upgrades and recurses, and gives
all up. -/
def upgrading : List (Event Bool) :=
  [.call true .read false, .call false .write true, .call true .readToWrite true,
    .call true .setRecursive false, .call true .write false, .call true .done false,
    .call true .clearRecursive false, .call true .done false, .resume false true]

theorem upgrading_closed : System.MeetsAlong step Closed (start Bool true) upgrading :=
  System.MeetsAlong.of_stepsPass (by decide)

theorem lock_safe_upgrading : ∃ s, System.runFrom step (start Bool true) upgrading = some s ∧ Safe s :=
  ⟨_, rfl, (lock_safe (System.Reachable.runFrom_restrict (.init rfl) upgrading_closed rfl)).1⟩

/-- A thread gives up the lock while it may still take it recursively, and takes it when another one has
it. -/
def leftOpen : List (Event Bool) :=
  [.call true .write false, .call true .setRecursive false, .call true .done false,
    .call false .write false, .call true .write false]

theorem lock_taken_twice : ∃ s, (system Bool true).Reachable s ∧ ¬Safe s := by
  obtain ⟨s, hs, hboth⟩ : ∃ s, System.runFrom step (start Bool true) leftOpen = some s ∧
      (s.th true).Writing ∧ (s.th false).Writing := ⟨_, rfl, by decide, by decide⟩
  refine ⟨s, System.reachable_of_runFrom hs, fun h => ?_⟩
  exact (h.exclusion true false hboth.1 (by decide)).2 hboth.2

/-- By its next step a thread that waits gets what it waits for. -/
def Gets (s : State T) (t : T) (nap : Bool) : Prop :=
  ∃ s', step s (.resume t nap) = some s' ∧ (s'.th t).pc = .idle ∧ ((s'.th t).reads ≠ 0 ∨ (s'.th t).Writing)

theorem Ok.gets (h : Ok s) (hread : s.lock.read_count = 0) (hwaits : ¬s.lock.Waits (s.th t).pc)
    (hpc : (s.th t).pc ≠ .idle) (hup : ¬(s.th t).pc.Upgrading → s.lock.want_upgrade = false) : Gets s t nap := by
  have hasleep : (s.th t).asleep = false := Bool.eq_false_iff.mpr fun hsleeps => hwaits (h.awaits t hsleeps)
  have hdrains := (h.inv.one t).drains
  have hupgrades := (h.inv.one t).upgrades
  unfold Gets Rwlock.step resume Thread.Writing
  cases hcase : (s.th t).pc <;> rw [hcase] at hwaits hpc hup hdrains hupgrades
  · exact absurd rfl hpc
  · have hwrite : s.lock.want_write = false := by simpa [Lock.Waits] using hwaits
    simp [hasleep, hcase, Rwlock.wantWrite, Rwlock.drain, hwrite, hread, hup, Pc.Upgrading, State.takeWrite,
      State.returns, State.setThread]
  · simp [hasleep, hcase, Rwlock.drain, hread, hup, Pc.Upgrading, hdrains, State.returns, State.setThread]
  · obtain ⟨hwrite, hupgrade⟩ := not_or.mp hwaits
    simp [hasleep, hcase, Rwlock.wantRead, hwrite, hupgrade, State.addRead, State.returns, State.setThread]
  · simp [hasleep, hcase, Rwlock.upgrade, hread, hupgrades (.inl rfl), State.returns, State.setThread]
  · simp [hasleep, hcase, Rwlock.tryUpgrade, hread, hupgrades (.inr rfl), State.returns, State.setThread]

/-- Nobody waits for a free lock: when all holds have been given up and a thread waits, there is one that gets what
it waits for by its next step. -/
theorem lock_gets {can_sleep : Bool} (h : ((system T can_sleep).restrict Closed).Reachable s)
    (hfree : ∀ u, (s.th u).reads = 0 ∧ ¬(s.th u).Writing) (hpc : (s.th t).pc ≠ .idle) (nap : Bool) : ∃ u, Gets s u nap := by
  have hok := ok_of_reachable h
  have hread : s.lock.read_count = 0 := hok.inv.reads.trans (Finset.sum_eq_zero fun u _ => (hfree u).1)
  by_cases hup : s.lock.want_upgrade
  · obtain ⟨u, hu⟩ := hok.inv.upgrade hup
    have hupgrading : (s.th u).pc.Upgrading := by
      by_contra hnot
      exact (hfree u).2 (.inr (.inr ⟨hu, not_or.mp hnot⟩))
    refine ⟨u, hok.gets hread ?_ ?_ fun hnot => absurd hupgrading hnot⟩
    · rcases hupgrading with hcase | hcase <;> simp [hcase, Lock.Waits, hread]
    · rcases hupgrading with hcase | hcase <;> simp [hcase]
  · by_cases hwrite : s.lock.want_write
    · obtain ⟨u, hu⟩ := hok.inv.write hwrite
      have hdrain : (s.th u).pc = .drain := by
        by_contra hnot
        exact (hfree u).2 (.inr (.inl ⟨hu, hnot⟩))
      refine ⟨u, hok.gets hread ?_ ?_ fun _ => Bool.eq_false_iff.mpr hup⟩
      · simp [hdrain, Lock.Waits, hread, hup]
      · simp [hdrain]
    · refine ⟨t, hok.gets hread ?_ hpc fun _ => Bool.eq_false_iff.mpr hup⟩
      cases (s.th t).pc <;> simp [Lock.Waits, hread, hup, hwrite]

theorem lock_gets_upgrading :
    ∃ s, System.runFrom step (start Bool true) upgrading.dropLast = some s ∧ ∃ u, Gets s u true :=
  ⟨_, rfl, lock_gets (t := false) (System.Reachable.runFrom_restrict (.init rfl)
    (show System.MeetsAlong step Closed (start Bool true) upgrading.dropLast from .of_stepsPass (by decide)) rfl)
    (by decide) (by decide) true⟩

end Exclusion

end Osf1.Rwlock
