import Osf1.Computation.LinkedChain
import Osf1.Ipc.Perm

/-!
# Messages: the data of `svipc_msg.c`

A message queue is a chain of message headers with a pointer to its last one, and a list of
the types that sleeping receivers wait for.  Headers come from a zone that the queues share.
Every message and every element of a wait list bears a number that the kernel does not know,
so that what is allocated later at the same address can be told from it.
-/

set_option autoImplicit false

namespace Osf1.Message

open List

section Model

open Osf1.Ipc

/-- SRC: sys/msg.h:166-172 -/
structure MsgInfo where
  msgmax : ℕ
  msgmnb : ℕ
  msgmni : ℕ
  msgtql : ℕ
  msgmni_pos : 0 < msgmni

/-- The limits as they are shipped.
SRC: sys/param.h:243-253 -/
def msginfo : MsgInfo := ⟨8192, 16384, 50, 40, by decide⟩

/-- SRC: sys/msg.h:57-58 -/
def MSG_NOERROR : ℕ := 0o10000

def MSG_TAG : ℕ := 0o20000

/-- SRC: sys/msg.h:142-149 -/
def MSG_R : ℕ := IPC_R

def MSG_W : ℕ := IPC_W

def MSG_RWAIT : ℕ := 0o1000

def MSG_WWAIT : ℕ := 0o2000

/-- SRC: sys/msg.h:71-76 -/
structure Msg where
  msgNext : Option ℕ
  msgType : Int64
  msgTs : ℕ
  /-- The text at `msg_addr`. -/
  msgAddr : List UInt8
  serial : ℕ
  deriving DecidableEq

/-- An element of a wait list, with its address.
SRC: sys/msg.h:78-82 -/
structure MsgWait where
  addr : ℕ
  msgWaitType : Int64
  msgWaitCnt : ℤ
  serial : ℕ
  deriving DecidableEq

/-- SRC: sys/msg.h:91-105 -/
structure MsqidDs where
  msgPerm : IpcPerm
  msgFirst : Option ℕ
  msgLast : Option ℕ
  msgCbytes : UInt16
  msgQnum : ℤ
  msgQbytes : ℕ
  msgLspid : Pid
  msgLrpid : Pid
  msgWaitList : List MsgWait

/-- What processes sleep on: an element of a wait list, `&qp->msg_qnum`, `qp`, or
`&msghdr_wait`. -/
inductive Chan where
  | wait (addr : ℕ)
  | qnum (slot : ℕ)
  | queue (slot : ℕ)
  | msghdrWait
  deriving DecidableEq

/-- The arguments of `msgrcv`. -/
structure Rcv where
  msqid : ℤ
  msgsz : ℤ
  msgtyp : Int64
  msgflg : ℕ
  cred : Cred
  deriving DecidableEq

/-- The arguments of `msgsnd`. -/
structure Snd where
  msqid : ℤ
  msgsz : ℤ
  msgflg : ℕ
  cred : Cred
  deriving DecidableEq

inductive Call where
  | rcv (a : Rcv)
  | snd (a : Snd)
  deriving DecidableEq

/-- A sleeping call.  `serial` is the number of the element of the wait list, if it sleeps
on one. -/
structure Frame where
  call : Call
  chan : Chan
  serial : ℕ
  deriving DecidableEq

/-- A process as the facility sees it. -/
inductive Proc where
  | running
  | asleep (f : Frame)
  /-- Its `mpsleep` will return zero. -/
  | woken (f : Frame)
  /-- Its `mpsleep` will return an error. -/
  | signalled (f : Frame)
  deriving DecidableEq

/-- A message that a receiver has got, with the queue and the argument `msgtyp` of the call. -/
structure Delivery where
  slot : ℕ
  msgtyp : Int64
  msg : Msg
  size : ℤ

/-- `msg` is the memory that the headers are in, and `msghdrZone` the headers that are
allocated.  The deliveries so far and the next number are not known to the kernel. -/
structure State where
  msgque : ℕ → MsqidDs
  msg : ℕ → Msg
  msghdrZone : List ℕ
  curMsghdrs : ℤ
  msghdrWait : ℕ
  proc : Pid → Proc
  serial : ℕ
  delivered : List Delivery

/-- No queues. -/
def State.start : State where
  msgque _ := ⟨⟨0, 0, 0, 0, 0, 0, 0⟩, none, none, 0, 0, 0, 0, 0, []⟩
  msg _ := ⟨none, 0, 0, [], 0⟩
  msghdrZone := []
  curMsghdrs := 0
  msghdrWait := 0
  proc _ := .running
  serial := 0
  delivered := []

/-- `mode & ~bits`. -/
def clearBits (mode bits : ℕ) : ℕ := mode ^^^ (mode &&& bits)

/-- Write to a queue. -/
def State.modify (s : State) (i : ℕ) (f : MsqidDs → MsqidDs) : State :=
  { s with msgque := Function.update s.msgque i (f (s.msgque i)) }

/-- A process goes to another place. -/
def State.setProc (s : State) (p : Pid) (x : Proc) : State := { s with proc := Function.update s.proc p x }

/-- The processes that sleep on an address are woken. -/
def wakeup (c : Chan) (s : State) : State :=
  { s with
    proc := fun q =>
      match s.proc q with
      | .asleep f => if f.chan = c then .woken f else .asleep f
      | x => x }

/-- SRC: bsd/svipc_msg.c:94-102 -/
def freeMsghdr (mp : ℕ) (s : State) : State :=
  let s := { s with msghdrZone := s.msghdrZone.erase mp }
  let s := if s.msghdrWait ≠ 0 then wakeup .msghdrWait { s with msghdrWait := 0 } else s
  { s with curMsghdrs := s.curMsghdrs - 1 }

/-- Take a message off its queue.
SRC: bsd/svipc_msg.c:308-317 -/
def unlink (i : ℕ) (preMp : Option ℕ) (mp : ℕ) (s : State) : State :=
  let next := (s.msg mp).msgNext
  let s :=
    match preMp with
    | none => s.modify i fun qp => { qp with msgFirst := next }
    | some q => { s with msg := Function.update s.msg q { s.msg q with msgNext := next } }
  s.modify i fun qp =>
    { qp with
      msgLast := if next = none then preMp else qp.msgLast
      msgQnum := qp.msgQnum - 1 }

/-- SRC: bsd/svipc_msg.c:319-323 -/
def wakeWriters (i : ℕ) (s : State) : State :=
  if (s.msgque i).msgPerm.mode &&& MSG_WWAIT ≠ 0 then
    wakeup (.queue i) (s.modify i fun qp =>
      { qp with msgPerm := { qp.msgPerm with mode := clearBits qp.msgPerm.mode MSG_WWAIT } })
  else s

/-- SRC: bsd/svipc_msg.c:303-330 -/
def msgfree (i : ℕ) (preMp : Option ℕ) (mp : ℕ) (s : State) : State :=
  freeMsghdr mp (wakeWriters i (unlink i preMp mp s))

/-- The loop of `msgrcv` over the messages of a queue: `best_mp` and `pre_best_mp` at its
end.  A walk over more headers than there are goes round.
SRC: bsd/svipc_msg.c:463-494 -/
def searchLoop (msg : ℕ → Msg) (msgtyp : Int64) :
    ℕ → Option ℕ → Option ℕ → Option ℕ → Option ℕ → Option (Option ℕ × Option ℕ)
  | 0, _, _, _, _ => none
  | _ + 1, none, _, bestMp, preBestMp => some (bestMp, preBestMp)
  | fuel + 1, some mp, preMp, bestMp, preBestMp =>
    if msgtyp > 0 then
      if msgtyp ≠ (msg mp).msgType then
        searchLoop msg msgtyp fuel (msg mp).msgNext (some mp) bestMp preBestMp
      else some (some mp, preMp)
    else if (msg mp).msgType ≤ -msgtyp then
      if bestMp.any fun b => decide ((msg b).msgType ≤ (msg mp).msgType) then
        searchLoop msg msgtyp fuel (msg mp).msgNext (some mp) bestMp preBestMp
      else searchLoop msg msgtyp fuel (msg mp).msgNext (some mp) (some mp) preMp
    else searchLoop msg msgtyp fuel (msg mp).msgNext (some mp) bestMp preBestMp

/-- The message that a receiver of `msgtyp` gets, and the one in front of it.
SRC: bsd/svipc_msg.c:455-494 -/
def search (s : State) (i : ℕ) (msgtyp : Int64) : Option (Option ℕ × Option ℕ) :=
  if msgtyp = 0 then some ((s.msgque i).msgFirst, none)
  else searchLoop s.msg msgtyp (s.msghdrZone.length + 1) (s.msgque i).msgFirst none none none

/-- Conversion to `int`. -/
def toInt (x : ℤ) : ℤ := Int.bmod x (2 ^ 32)

/-- The queue of an identifier.
SRC: bsd/svipc_msg.c:109-124 -/
def msgconv (mi : MsgInfo) (s : State) (msqid : ℤ) : Option ℕ :=
  let id := toInt msqid
  if id < 0 then none
  else
    let i := (id % mi.msgmni).toNat
    if ¬(s.msgque i).msgPerm.Alloc ∨ id / mi.msgmni ≠ (s.msgque i).msgPerm.seq.toNat then none
    else some i

/-- `qp_wait->msg_wait_cnt++` for the first element of a type. -/
def countWait (typ : Int64) : List MsgWait → List MsgWait
  | [] => []
  | w :: l =>
    if w.msgWaitType = typ then { w with msgWaitCnt := w.msgWaitCnt + 1 } :: l
    else w :: countWait typ l

/-- A receiver is counted in the element of its type, which is made if there is none: the list
and the element.
SRC: bsd/svipc_msg.c:568-586 -/
def joinWait (typ : Int64) (addr serial : ℕ) (l : List MsgWait) : List MsgWait × MsgWait :=
  match l.find? fun w => w.msgWaitType = typ with
  | some w => (countWait typ l, w)
  | none => (countWait typ (⟨addr, typ, 0, serial⟩ :: l), ⟨addr, typ, 0, serial⟩)

/-- A receiver that was interrupted takes itself off the element of its type.
SRC: bsd/svipc_msg.c:597-614 -/
def leaveWait (typ : Int64) : List MsgWait → List MsgWait
  | [] => []
  | w :: l =>
    if w.msgWaitType = typ then
      if w.msgWaitCnt - 1 = 0 then l else { w with msgWaitCnt := w.msgWaitCnt - 1 } :: l
    else w :: leaveWait typ l

end Model

/-!
## Which message `msgrcv` finds

For a message type the receiver gets the first message of that type; for a negative argument
the first of those of the least type, among the types up to its absolute value; for zero the
first message.  The negation is that of a machine word.
-/

section Search

open Osf1.Computation

/-- A message that a receiver may get. -/
def Eligible (msgtyp : Int64) (m : Msg) : Prop :=
  if msgtyp = 0 then True else if msgtyp > 0 then m.msgType = msgtyp else m.msgType ≤ -msgtyp

/-- Of the messages of a queue, `m` is the one to get, with `l₁` in front of it and `l₂`
behind it. -/
structure Picks (msgtyp : Int64) (l₁ : List Msg) (m : Msg) (l₂ : List Msg) : Prop where
  eligible : Eligible msgtyp m
  earliest : ∀ m' ∈ l₁, Eligible msgtyp m' → msgtyp < 0 ∧ m.msgType < m'.msgType
  least : ∀ m' ∈ l₂, Eligible msgtyp m' → msgtyp < 0 → m.msgType ≤ m'.msgType

/-- What the search of the messages at the addresses `l` yields: `best_mp` and
`pre_best_mp`. -/
inductive SearchEnd (msg : ℕ → Msg) (msgtyp : Int64) (l : List ℕ) :
    Option ℕ × Option ℕ → Prop where
  | none (preMp : Option ℕ) (h : ∀ a ∈ l, ¬Eligible msgtyp (msg a)) :
      SearchEnd msg msgtyp l (none, preMp)
  | found (l₁ l₂ : List ℕ) (mp : ℕ) (hl : l = l₁ ++ mp :: l₂)
      (hp : Picks msgtyp (l₁.map msg) (msg mp) (l₂.map msg)) :
      SearchEnd msg msgtyp l (some mp, l₁.getLast?)

variable {msg : ℕ → Msg} {msgtyp : Int64} {m : Msg} {done rest l : List ℕ} {mp : Option ℕ} {fuel : ℕ}

theorem eligible_pos (h : msgtyp > 0) : Eligible msgtyp m ↔ m.msgType = msgtyp := by
  unfold Eligible
  rw [if_neg (Int64.ne_of_lt h).symm, if_pos h]

theorem eligible_neg (h : msgtyp < 0) : Eligible msgtyp m ↔ m.msgType ≤ -msgtyp := by
  unfold Eligible
  rw [if_neg (Int64.ne_of_lt h), if_neg (Int64.lt_asymm h)]

theorem searchLoop_pos (hpos : msgtyp > 0) (hchain : Leads (fun a => (msg a).msgNext) mp rest none) (hfuel : rest.length < fuel)
    (hdone : ∀ a ∈ done, ¬Eligible msgtyp (msg a)) :
    ∃ r, searchLoop msg msgtyp fuel mp done.getLast? none none = some r ∧
      SearchEnd msg msgtyp (done ++ rest) r := by
  induction rest generalizing done mp fuel with
  | nil =>
    obtain rfl : mp = none := hchain
    cases fuel with
    | zero => cases hfuel
    | succ fuel =>
      refine ⟨(none, none), rfl, .none none ?_⟩
      rw [append_nil]
      exact hdone
  | cons a rest ih =>
    obtain ⟨rfl, hrest⟩ := hchain
    cases fuel with
    | zero => cases hfuel
    | succ fuel =>
      rw [searchLoop, if_pos hpos]
      split
      · rename_i hne
        have hpassed : ∀ b ∈ done ++ [a], ¬Eligible msgtyp (msg b) := by
          intro b hb
          rcases mem_append.mp hb with hb | hb
          · exact hdone b hb
          · obtain rfl := mem_singleton.mp hb
            rw [eligible_pos hpos]
            exact hne.symm
        have hnext := ih hrest (Nat.lt_of_succ_lt_succ hfuel) hpassed
        rw [getLast?_concat, append_assoc] at hnext
        exact hnext
      · rename_i heq
        refine ⟨(some a, done.getLast?), rfl, .found done rest a rfl ⟨?_, ?_, ?_⟩⟩
        · rw [eligible_pos hpos]
          exact (not_not.mp heq).symm
        · intro m hm hel
          obtain ⟨b, hb, rfl⟩ := mem_map.mp hm
          exact absurd hel (hdone b hb)
        · intro m _ _ hneg
          exact absurd hneg (Int64.lt_asymm hpos)

theorem SearchEnd.pass {l : List ℕ} {r : Option ℕ × Option ℕ} {a : ℕ} (h : SearchEnd msg msgtyp l r)
    (ha : Eligible msgtyp (msg a) → ∃ b, r.1 = some b ∧ (msg b).msgType ≤ (msg a).msgType) :
    SearchEnd msg msgtyp (l ++ [a]) r := by
  cases h with
  | none preMp h =>
    refine .none preMp fun b hb => ?_
    rcases mem_append.mp hb with hb | hb
    · exact h b hb
    · obtain rfl := mem_singleton.mp hb
      intro hel
      obtain ⟨c, hc, -⟩ := ha hel
      cases hc
  | found l₁ l₂ mp hl hp =>
    refine .found l₁ (l₂ ++ [a]) mp (by rw [hl]; simp) ⟨hp.eligible, hp.earliest, ?_⟩
    intro m hm hel hneg
    rw [map_append] at hm
    rcases mem_append.mp hm with hm | hm
    · exact hp.least m hm hel hneg
    · obtain rfl := mem_singleton.mp hm
      obtain ⟨b, hb, hle⟩ := ha hel
      obtain rfl := Option.some_inj.mp hb
      exact hle

theorem SearchEnd.better {r : Option ℕ × Option ℕ} {a : ℕ} (hneg : msgtyp < 0)
    (h : SearchEnd msg msgtyp l r) (hel : Eligible msgtyp (msg a))
    (ha : ∀ b, r.1 = some b → (msg a).msgType < (msg b).msgType) :
    SearchEnd msg msgtyp (l ++ [a]) (some a, l.getLast?) := by
  refine .found l [] a rfl ⟨hel, fun m hm hm' => ⟨hneg, ?_⟩, fun m hm => absurd hm not_mem_nil⟩
  cases h with
  | none preMp h =>
    obtain ⟨b, hb, rfl⟩ := mem_map.mp hm
    exact absurd hm' (h b hb)
  | found l₁ l₂ mp hl hp =>
    have hlt := ha mp rfl
    rw [hl, map_append, map_cons] at hm
    rcases mem_append.mp hm with hm | hm
    · exact Int64.lt_trans hlt (hp.earliest m hm hm').2
    · rcases mem_cons.mp hm with heq | hm
      · exact heq ▸ hlt
      · exact Int64.lt_of_lt_of_le hlt (hp.least m hm hm' hneg)

theorem searchLoop_neg (hneg : msgtyp < 0) {best : Option ℕ × Option ℕ} (hchain : Leads (fun a => (msg a).msgNext) mp rest none)
    (hfuel : rest.length < fuel) (hbest : SearchEnd msg msgtyp done best) :
    ∃ r, searchLoop msg msgtyp fuel mp done.getLast? best.1 best.2 = some r ∧
      SearchEnd msg msgtyp (done ++ rest) r := by
  have hnpos : ¬msgtyp > 0 := Int64.lt_asymm hneg
  induction rest generalizing done mp fuel best with
  | nil =>
    obtain rfl : mp = none := hchain
    cases fuel with
    | zero => cases hfuel
    | succ fuel =>
      refine ⟨best, rfl, ?_⟩
      rw [append_nil]
      exact hbest
  | cons a rest ih =>
    obtain ⟨rfl, hrest⟩ := hchain
    cases fuel with
    | zero => cases hfuel
    | succ fuel =>
      have hlt := Nat.lt_of_succ_lt_succ hfuel
      have hgoes {best : Option ℕ × Option ℕ} (hbest : SearchEnd msg msgtyp (done ++ [a]) best) :
          ∃ r, searchLoop msg msgtyp fuel (msg a).msgNext (some a) best.1 best.2 = some r ∧
            SearchEnd msg msgtyp (done ++ a :: rest) r := by
        have hnext := ih hrest hlt hbest
        rw [getLast?_concat, append_assoc] at hnext
        exact hnext
      rw [searchLoop, if_neg hnpos]
      split
      · rename_i hle
        split
        · rename_i hany
          apply hgoes (hbest.pass fun _ => ?_)
          generalize hb : best.1 = w at hany
          cases w with
          | none =>
            cases hany
          | some b =>
            exact ⟨b, rfl, of_decide_eq_true hany⟩
        · rename_i hnone
          apply hgoes (hbest.better hneg ((eligible_neg hneg).mpr hle) fun b hb => ?_)
          rw [← Int64.not_le]
          intro hba
          apply hnone
          rw [hb]
          exact decide_eq_true hba
      · rename_i hnle
        exact hgoes (hbest.pass fun hel => absurd ((eligible_neg hneg).mp hel) hnle)

theorem search_end {s : State} {i : ℕ} (hchain : Leads (fun a => (s.msg a).msgNext) (s.msgque i).msgFirst l none)
    (hfuel : l.length ≤ s.msghdrZone.length) (msgtyp : Int64) :
    ∃ r, search s i msgtyp = some r ∧ SearchEnd s.msg msgtyp l r := by
  unfold search
  split
  · rename_i hzero
    subst hzero
    refine ⟨_, rfl, ?_⟩
    cases l with
    | nil =>
      have hnil : (s.msgque i).msgFirst = none := hchain
      rw [hnil]
      exact .none none fun a ha => absurd ha not_mem_nil
    | cons a l =>
      rw [hchain.1]
      have hel : Eligible 0 (s.msg a) := by
        unfold Eligible
        trivial
      refine .found [] l a rfl ⟨hel, fun m hm => absurd hm not_mem_nil, ?_⟩
      exact fun _ _ _ hneg => absurd hneg Int64.lt_irrefl
  · rename_i hne
    have hlt : l.length < s.msghdrZone.length + 1 := Nat.lt_succ_of_le hfuel
    have hnone : ∀ a ∈ ([] : List ℕ), ¬Eligible msgtyp (s.msg a) := fun a ha => absurd ha not_mem_nil
    by_cases hpos : msgtyp > 0
    · exact searchLoop_pos hpos hchain hlt hnone
    · have hneg : msgtyp < 0 := Int64.lt_of_le_of_ne (Int64.not_lt.mp hpos) hne
      exact searchLoop_neg hneg hchain hlt (.none none hnone)

end Search

end Osf1.Message
