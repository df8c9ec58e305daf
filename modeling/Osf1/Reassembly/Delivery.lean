import Osf1.Reassembly.Model

/-!
# What is handed up

As long as no fragment ends behind offset 65535, a datagram has the bytes of the fragments that have
been received, each at its offset.  But `m_pkthdr.len` does not count the header that is made visible
again, whatever has been received.
-/

set_option autoImplicit false

namespace Osf1.Reassembly

open Osf1.Computation List Option

variable {lim : Limits} {s : State} {pkt : Packet} {mget : Bool} {m : List Mbuf} {f q : Frag}
  {qs front back frags : List Frag} {fp : Ipq} {key : Key} {n : ℤ} {i next stop : ℕ} {d : Datagram}
  {o : Outcome} {P : Key → Frag → Prop}

section Contents

theorem content_cons (b : Mbuf) (m : List Mbuf) : content (b :: m) = b.data ++ content m := flatMap_cons

theorem content_m_adj (i : ℕ) (m : List Mbuf) : content (m_adj i m) = (content m).drop i := by
  induction m generalizing i with
  | nil => exact drop_nil.symm
  | cons b m ih =>
    unfold m_adj
    split
    · rename_i hzero
      rw [hzero, drop_zero]
    · split
      · rename_i hle
        rw [content_cons, content_cons, ih, drop_append, drop_eq_nil_of_le hle]
      · rename_i hlt
        rw [content_cons, content_cons, drop_append_of_le_length (by omega)]

theorem content_catLast (b : Mbuf) (m : List Mbuf) : content (catLast b m) = b.data ++ content m := by
  induction m generalizing b with
  | nil => exact content_cons b []
  | cons c m ih =>
    unfold catLast
    split
    · split
      · rename_i hempty
        rw [content_cons, content_cons, eq_nil_of_length_eq_zero hempty, nil_append]
      · rw [content_cons, content_cons]
    · rw [ih, content_cons, append_assoc]

theorem content_m_cat (m n : List Mbuf) : content (m_cat m n) = content m ++ content n := by
  induction m with
  | nil => rfl
  | cons b m ih =>
    cases m with
    | nil =>
      rw [content_cons, append_assoc]
      exact content_catLast b n
    | cons c m =>
      unfold m_cat
      rw [content_cons, ih, content_cons b, append_assoc]

theorem content_foldl (m : List Mbuf) (qs : List Frag) :
    content (qs.foldl (fun m q => m_cat m q.m) m) = content m ++ qs.flatMap fun q => content q.m := by
  induction qs generalizing m with
  | nil => exact (append_nil _).symm
  | cons q qs ih => rw [foldl_cons, ih, content_m_cat, flatMap_cons, append_assoc]

end Contents

section Fragments

theorem forall_before (h : ∀ q ∈ qs, P key q) : ∀ q ∈ before i qs, P key q := fun q hq =>
  h q (takeWhile_subset _ hq)

theorem forall_after (h : ∀ q ∈ qs, P key q) : ∀ q ∈ after i qs, P key q := fun q hq =>
  h q (dropWhile_subset _ hq)

/-- What is kept when data is taken from the front of a fragment. -/
def KeptByTrim (P : Key → Frag → Prop) : Prop := ∀ key q i, P key q → i < q.ip.ip_len → P key (q.trim i)

theorem trimFront_keeps (hP : KeptByTrim P) (hf : P key f) {prev : Option Frag} {f' : Frag}
    (h : trimFront prev f = some f') : P key f' := by
  cases prev with
  | none => exact some_inj.mp h ▸ hf
  | some p =>
    simp only [trimFront] at h
    split at h
    · exact some_inj.mp h ▸ hf
    · split at h
      · cases h
      · rename_i hlt
        obtain rfl := some_inj.mp h
        exact hP key f _ hf (by omega)

theorem trimBack_keeps (hP : KeptByTrim P) (hqs : ∀ q ∈ qs, P key q) : ∀ q ∈ (trimBack f qs n).1, P key q := by
  induction qs generalizing n with
  | nil => exact hqs
  | cons x qs ih =>
    have hrest (q : Frag) (hq : q ∈ qs) : P key q := hqs q (mem_cons_of_mem _ hq)
    unfold trimBack
    split
    · split
      · rename_i hlt
        intro q hq
        cases hq with
        | head => exact hP key x _ (hqs x (mem_cons_self ..)) hlt
        | tail _ hq => exact hrest q hq
      · exact ih hrest
    · exact hqs

/-- The queue that has been made for a fragment, if there is one. -/
def Outcome.queue? : Outcome → Option Ipq
  | .queued fp _ | .overquota fp _ | .delivered fp _ _ => some fp
  | _ => none

variable {inuse : ℤ} {fp' x : Ipq} {ipq : List Ipq}

theorem insertFrag_queue (h : (insertFrag lim fp front back f inuse).queue? = some fp') :
    fp' = { fp with frags := front ++ f :: back } := by
  unfold insertFrag at h
  simp only at h
  split at h
  · split at h
    · exact (some_inj.mp h).symm
    · exact (some_inj.mp h).symm
  · split at h
    · exact (some_inj.mp h).symm
    · exact (some_inj.mp h).symm

theorem insertFrag_delivered (h : insertFrag lim fp front back f inuse = .delivered fp' d n) :
    ∃ next, complete fp'.frags = some next ∧ concatenate fp.key next fp'.frags = some d := by
  unfold insertFrag at h
  simp only at h
  split at h
  · split at h <;> cases h
  · rename_i next hnext
    split at h
    · cases h
    · rename_i d' hd
      cases h
      exact ⟨next, hnext, hd⟩

theorem key_of_findQueue (h : findQueue key ipq = some fp) : fp.key = key := by
  simpa using find?_some h

theorem outcome_queue (hP : KeptByTrim P) (hs : ∀ fp ∈ s.ipq, ∀ q ∈ fp.frags, P fp.key q)
    (hnew : P pkt.ip.key ⟨pkt.ip, pkt.m, space pkt.m⟩) (h : (outcome lim s pkt mget).queue? = some fp) :
    fp.key = pkt.ip.key ∧ ∀ q ∈ fp.frags, P pkt.ip.key q := by
  unfold outcome ip_reass at h
  simp only at h
  split at h
  · split at h
    · cases h
    · split at h
      · rw [insertFrag_queue h]
        exact ⟨rfl, fun q hq => mem_singleton.mp hq ▸ hnew⟩
      · cases h
  · rename_i old hold
    have hkey := key_of_findQueue hold
    have hqs : ∀ q ∈ old.frags, P pkt.ip.key q := hkey ▸ hs old (mem_of_find?_eq_some hold)
    split at h
    · cases h
    · rename_i f htrim
      rw [insertFrag_queue h]
      refine ⟨hkey, fun q hq => ?_⟩
      rcases mem_append.mp hq with hq | hq
      · exact forall_before hqs q hq
      · cases hq with
        | head => exact trimFront_keeps hP hnew htrim
        | tail _ hq => exact trimBack_keeps hP (forall_after hqs) q hq

theorem outcome_delivered (h : outcome lim s pkt mget = .delivered fp d n) :
    ∃ next, complete fp.frags = some next ∧ concatenate fp.key next fp.frags = some d := by
  have hqueue : (outcome lim s pkt mget).queue? = some fp := by
    rw [h]
    rfl
  unfold outcome ip_reass at h hqueue
  simp only at h hqueue
  split at h
  · rename_i hnone
    rw [hnone] at hqueue
    split at h
    · cases h
    · rename_i hroom
      rw [if_neg hroom] at hqueue
      split at h
      · rename_i hmget
        rw [if_pos hmget] at hqueue
        obtain ⟨next, hnext, hd⟩ := insertFrag_delivered h
        have hkey : fp.key = pkt.ip.key := by rw [insertFrag_queue hqueue]
        exact ⟨next, hnext, hkey ▸ hd⟩
      · cases h
  · rename_i old hold
    rw [hold] at hqueue
    simp only at hqueue
    split at h
    · cases h
    · rename_i f htrim
      rw [htrim] at hqueue
      obtain ⟨next, hnext, hd⟩ := insertFrag_delivered h
      have hkey : fp.key = old.key := by rw [insertFrag_queue hqueue]
      exact ⟨next, hnext, hkey ▸ hd⟩

theorem settle_queue (hx : x ∈ (s.settle key o).ipq) : x ∈ s.ipq ∨ o.queue? = some x := by
  cases o with
  | dropped => exact .inl hx
  | refused => exact .inl hx
  | queued fp n =>
    unfold State.settle at hx
    simp only at hx
    split at hx
    · cases hx with
      | head => exact .inr rfl
      | tail _ hx => exact .inl hx
    · rcases mem_replaceFirst hx with hx | hx
      · exact .inr (congrArg some (mem_singleton.mp hx).symm)
      · exact .inl hx
  | overquota fp n => exact .inl ((mem_replaceFirst hx).resolve_left nofun)
  | delivered fp d n => exact .inl ((mem_replaceFirst hx).resolve_left nofun)

/-- How many timeouts a queue still has. -/
def Ipq.life (fp : Ipq) : ℕ := (fp.ipq_ttl + 255) % 256 + 1

theorem slowtimo_queue (hx : x ∈ (ip_slowtimo ipq n).1) :
    ∃ y ∈ ipq, x.key = y.key ∧ x.frags = y.frags ∧ x.life + 1 = y.life := by
  induction ipq generalizing n with
  | nil => cases hx
  | cons fp fps ih =>
    simp only [ip_slowtimo] at hx
    split at hx
    · obtain ⟨y, hy, hsame⟩ := ih hx
      exact ⟨y, mem_cons_of_mem _ hy, hsame⟩
    · cases hx with
      | head =>
        refine ⟨fp, mem_cons_self .., rfl, rfl, ?_⟩
        simp only [Ipq.life]
        omega
      | tail _ hx =>
        obtain ⟨y, hy, hsame⟩ := ih hx
        exact ⟨y, mem_cons_of_mem _ hy, hsame⟩

theorem step_keeps {e : Event} {t : State} (hP : KeptByTrim P) (hs : ∀ fp ∈ s.ipq, ∀ q ∈ fp.frags, P fp.key q)
    (hnew : ∀ pkt mget, e = .frag pkt mget → P pkt.ip.key ⟨pkt.ip, pkt.m, space pkt.m⟩)
    (ht : step lim s e = some t) : ∀ fp ∈ t.ipq, ∀ q ∈ fp.frags, P fp.key q := by
  intro fp hfp
  cases e with
  | frag pkt mget =>
    obtain rfl := some_inj.mp ht
    rcases settle_queue hfp with hold | hmade
    · exact hs fp hold
    · obtain ⟨hkey, hall⟩ := outcome_queue hP hs (hnew pkt mget rfl) hmade
      exact hkey ▸ hall
  | whole key =>
    simp only [step] at ht
    split at ht
    · exact hs fp (some_inj.mp ht ▸ hfp)
    · obtain rfl := some_inj.mp ht
      exact hs fp ((mem_replaceFirst hfp).resolve_left (by rintro ⟨⟩))
  | slowtimo =>
    obtain rfl := some_inj.mp ht
    obtain ⟨y, hy, hkey, hfrags, -⟩ := slowtimo_queue hfp
    rw [hkey, hfrags]
    exact hs y hy
  | drain =>
    obtain rfl := some_inj.mp ht
    cases hfp

end Fragments

section Datagrams

theorem nextFrom_length (hsize : ∀ q ∈ frags, (content q.m).length = q.ip.ip_len)
    (h : nextFrom i frags = some next) : i + (frags.flatMap fun q => content q.m).length = next := by
  induction frags generalizing i with
  | nil => exact some_inj.mp h
  | cons q qs ih =>
    simp only [nextFrom] at h
    split at h
    · cases h
    · have hrest := ih (fun x hx => hsize x (mem_cons_of_mem _ hx)) h
      rw [flatMap_cons, length_append, hsize q (mem_cons_self ..)]
      omega

theorem nextFrom_byte {R : ℕ → Byte → Prop} (hsize : ∀ q ∈ frags, (content q.m).length = q.ip.ip_len)
    (hbyte : ∀ q ∈ frags, ∀ k b, (content q.m)[k]? = some b → R (q.ip.ip_off + k) b)
    (h : nextFrom i frags = some next) {k : ℕ} {b : Byte}
    (hb : (frags.flatMap fun q => content q.m)[k]? = some b) : R (i + k) b := by
  induction frags generalizing i k with
  | nil => cases hb
  | cons q qs ih =>
    have hq := hsize q (mem_cons_self ..)
    simp only [nextFrom] at h
    split at h
    · cases h
    rename_i hoff
    rw [flatMap_cons] at hb
    by_cases hk : k < (content q.m).length
    · rw [getElem?_append_left hk] at hb
      have hR := hbyte q (mem_cons_self ..) k b hb
      rwa [not_not.mp hoff] at hR
    · rw [getElem?_append_right (by omega)] at hb
      have hR := ih (fun x hx => hsize x (mem_cons_of_mem _ hx))
        (fun x hx => hbyte x (mem_cons_of_mem _ hx)) h hb
      have heq : i + q.ip.ip_len + (k - (content q.m).length) = i + k := by omega
      rwa [heq] at hR

theorem nextFrom_stop (h : nextFrom i frags = some next) (hlast : frags.getLast? = some q) : next = q.ip.stop := by
  induction frags generalizing i with
  | nil => cases hlast
  | cons x qs ih =>
    simp only [nextFrom] at h
    split at h
    · cases h
    rename_i hoff
    cases qs with
    | nil =>
      rw [getLast?_singleton, some_inj] at hlast
      have hnext := some_inj.mp h
      unfold Ip.stop
      rw [← hlast, not_not.mp hoff]
      exact hnext.symm
    | cons y qs =>
      exact ih h hlast

theorem complete_spec (h : complete frags = some next) :
    nextFrom 0 frags = some next ∧ ∃ q, frags.getLast? = some q ∧ q.ip.ip_mff = false := by
  unfold complete at h
  split at h
  · rename_i n q hnext hlast
    split at h
    · cases h
    · rename_i hmff
      obtain rfl := some_inj.mp h
      exact ⟨hnext, q, hlast, Bool.eq_false_iff.mpr hmff⟩
  · cases h

theorem concatenate_spec (h : concatenate key next frags = some d) :
    content d.m = (frags.flatMap fun q => content q.m) ∧ d.pkthdr_len = next ∧
      d.ip.ip_len = u_short next ∧ ∃ q qs, frags = q :: qs ∧ d.ip.ip_hl = q.ip.ip_hl := by
  cases frags with
  | nil => cases h
  | cons q qs =>
    obtain rfl := some_inj.mp h
    exact ⟨content_foldl q.m qs, rfl, rfl, q, qs, rfl, rfl⟩

end Datagrams

section Runs

/-- What has been received for a datagram: a byte at an offset. -/
def Carried (received : List Packet) (key : Key) (o : ℕ) (b : Byte) : Prop :=
  ∃ pkt ∈ received, pkt.ip.key = key ∧ ∃ k, o = pkt.ip.ip_off + k ∧ (content pkt.m)[k]? = some b

/-- The queues, with the packets that have been received so far. -/
def recordedStep (lim : Limits) (s : State × List Packet) (e : Event) : Option (State × List Packet) :=
  (step lim s.1 e).map fun t =>
    match e with
    | .frag pkt _ => (t, pkt :: s.2)
    | _ => (t, s.2)

def recordedSystem (lim : Limits) : System (State × List Packet) Event :=
  System.ofFun (⟨[], 0⟩, []) (recordedStep lim)

/-- What is to hold of the data that is handed up:
- the queued fragments cover a range from 0 on, and no more follow the last one;
- each byte has been carried at its offset by a packet that has been received;
- if these agree with each other then it is the bytes that they agree on;
- `ip_len` is its length. -/
structure Assembled (received : List Packet) (fp : Ipq) (d : Datagram) : Prop where
  covers : nextFrom 0 fp.frags = some (content d.m).length ∧ ∃ q, fp.frags.getLast? = some q ∧ q.ip.ip_mff = false
  carried : ∀ o b, (content d.m)[o]? = some b → Carried received fp.key o b
  agreed : ∀ byte : ℕ → Byte, (∀ o b, Carried received fp.key o b → b = byte o) →
    content d.m = (List.range (content d.m).length).map byte
  ip_len : d.ip.ip_len = (content d.m).length

/-- The length of all mbufs, the header being in the first one. -/
def Datagram.length (d : Datagram) : ℕ := 4 * d.ip.ip_hl + (content d.m).length

/-- What is to hold of a datagram that a packet completes: `m_pkthdr.len` is the length of its mbufs,
and the header length that `ipintr` passes on, which is that of the packet, is that of its header. -/
structure Reassembled (received : List Packet) (pkt : Packet) (fp : Ipq) (d : Datagram) : Prop
    extends Assembled received fp d where
  pkthdr : d.pkthdr_len = d.length
  hlen : pkt.ip.ip_hl = d.ip.ip_hl

/-- The lengths of a fragment are right. -/
def Sized (q : Frag) : Prop := (content q.m).length = q.ip.ip_len ∧ 5 ≤ q.ip.ip_hl

/-- A fragment has what has been received. -/
def Sourced (received : List Packet) (key : Key) (q : Frag) : Prop :=
  q.ip.stop < 2 ^ 16 ∧ (content q.m).length = q.ip.ip_len ∧
    ∀ k b, (content q.m)[k]? = some b → Carried received key (q.ip.ip_off + k) b

theorem sized_keptByTrim : KeptByTrim fun _ => Sized := by
  rintro key q i ⟨hsize, hhl⟩ -
  refine ⟨?_, hhl⟩
  have hdrop : content (q.trim i).m = (content q.m).drop i := content_m_adj i q.m
  rw [hdrop, length_drop, hsize]
  rfl

variable {received : List Packet}

theorem sourced_keptByTrim : KeptByTrim (Sourced received) := by
  rintro key q i ⟨hstop, hsize, hbyte⟩ hi
  have hdrop : content (q.trim i).m = (content q.m).drop i := content_m_adj i q.m
  have hstop' : q.ip.ip_off + q.ip.ip_len < 2 ^ 16 := hstop
  have hoff : (q.trim i).ip.ip_off = q.ip.ip_off + i := Nat.mod_eq_of_lt (by omega)
  have hlen : (q.trim i).ip.ip_len = q.ip.ip_len - i := rfl
  refine ⟨?_, ?_, fun k b hb => ?_⟩
  · unfold Ip.stop
    omega
  · rw [hdrop, length_drop, hsize, hlen]
  · rw [hdrop, getElem?_drop] at hb
    rw [hoff, Nat.add_assoc]
    exact hbyte (i + k) b hb

theorem Carried.mono {o : ℕ} {b : Byte} (h : Carried received key o b) (pkt : Packet) : Carried (pkt :: received) key o b := by
  obtain ⟨p, hp, hrest⟩ := h
  exact ⟨p, mem_cons_of_mem _ hp, hrest⟩

theorem Sourced.mono (h : Sourced received key q) (pkt : Packet) : Sourced (pkt :: received) key q :=
  ⟨h.1, h.2.1, fun k b hb => (h.2.2 k b hb).mono pkt⟩

theorem Packet.sized (pkt : Packet) : Sized ⟨pkt.ip, pkt.m, space pkt.m⟩ := ⟨pkt.len_eq, pkt.hl_ge⟩

theorem Packet.sourced (pkt : Packet) (received : List Packet) (hstop : pkt.ip.stop < 2 ^ 16) :
    Sourced (pkt :: received) pkt.ip.key ⟨pkt.ip, pkt.m, space pkt.m⟩ := by
  refine ⟨hstop, pkt.len_eq, fun k b hb => ?_⟩
  exact ⟨pkt, mem_cons_self .., rfl, k, rfl, hb⟩

variable {s : State × List Packet}

theorem reachable_sized (h : (recordedSystem lim).Reachable s) : ∀ fp ∈ s.1.ipq, ∀ q ∈ fp.frags, Sized q := by
  refine h.invariant (I := fun s => ∀ fp ∈ s.1.ipq, ∀ q ∈ fp.frags, Sized q) ?_ ?_
  · rintro s rfl fp hfp
    cases hfp
  · rintro s e t - hs ht
    obtain ⟨t', ht', rfl⟩ := map_eq_some_iff.mp ht
    have hkept := step_keeps sized_keptByTrim hs (fun pkt _ _ => pkt.sized) ht'
    cases e <;> exact hkept

theorem reachable_sourced (h : (recordedSystem lim).Reachable s) :
    (∀ pkt ∈ s.2, pkt.ip.stop < 2 ^ 16) →
      ∀ fp ∈ s.1.ipq, ∀ q ∈ fp.frags, Sourced s.2 fp.key q := by
  refine h.invariant (I := fun s => (∀ pkt ∈ s.2, pkt.ip.stop < 2 ^ 16) →
    ∀ fp ∈ s.1.ipq, ∀ q ∈ fp.frags, Sourced s.2 fp.key q) ?_ ?_
  · rintro s rfl - fp hfp
    cases hfp
  · rintro s e t - hs ht hstop
    obtain ⟨t', ht', rfl⟩ := map_eq_some_iff.mp ht
    cases e with
    | frag pkt mget =>
      have hold := hs fun p hp => hstop p (mem_cons_of_mem _ hp)
      refine step_keeps (P := Sourced (pkt :: s.2)) sourced_keptByTrim
        (fun fp hfp q hq => (hold fp hfp q hq).mono pkt) (fun p m hp => ?_) ht'
      obtain ⟨rfl, rfl⟩ := Event.frag.inj hp
      exact pkt.sourced s.2 (hstop pkt (mem_cons_self ..))
    | whole key => exact step_keeps sourced_keptByTrim (hs hstop) (fun _ _ he => by cases he) ht'
    | slowtimo => exact step_keeps sourced_keptByTrim (hs hstop) (fun _ _ he => by cases he) ht'
    | drain => exact step_keeps sourced_keptByTrim (hs hstop) (fun _ _ he => by cases he) ht'

theorem assembled (hsourced : ∀ q ∈ fp.frags, Sourced received fp.key q)
    (hnext : complete fp.frags = some next) (hd : concatenate fp.key next fp.frags = some d) :
    Assembled received fp d := by
  obtain ⟨hcontent, -, hlen, -⟩ := concatenate_spec hd
  obtain ⟨hfrom, q, hlast, hmff⟩ := complete_spec hnext
  have hsize (q : Frag) (hq : q ∈ fp.frags) := (hsourced q hq).2.1
  have htotal : (content d.m).length = next := by
    rw [hcontent]
    exact (Nat.zero_add _).symm.trans (nextFrom_length hsize hfrom)
  have hstop : next < 2 ^ 16 := by
    rw [nextFrom_stop hfrom hlast]
    exact (hsourced q (mem_of_getLast? hlast)).1
  have hcarried (o : ℕ) (b : Byte) (hb : (content d.m)[o]? = some b) :
      Carried received fp.key o b := by
    rw [hcontent] at hb
    have h := nextFrom_byte (R := Carried received fp.key) hsize
      (fun q hq => (hsourced q hq).2.2) hfrom hb
    rwa [Nat.zero_add] at h
  refine ⟨⟨htotal ▸ hfrom, q, hlast, hmff⟩, hcarried, fun byte hbyte => ?_, ?_⟩
  · refine ext_getElem (by rw [length_map, length_range]) fun o ho _ => ?_
    rw [getElem_map, getElem_range]
    exact hbyte o _ (hcarried o _ (getElem?_eq_getElem ho))
  · rw [hlen, htotal]
    exact Nat.mod_eq_of_lt hstop

/-- No datagram that is handed up is as it is to be: `m_pkthdr.len` lacks the length of the header.
Its data is right as long as no packet ends behind offset 65535. -/
theorem not_reassembled (h : (recordedSystem lim).Reachable s) (ho : outcome lim s.1 pkt mget = .delivered fp d n) :
    ¬Reassembled (pkt :: s.2) pkt fp d ∧ d.length = d.pkthdr_len + 4 * d.ip.ip_hl ∧
    ((∀ p ∈ pkt :: s.2, p.ip.stop < 2 ^ 16) → Assembled (pkt :: s.2) fp d) := by
  have hqueue : (outcome lim s.1 pkt mget).queue? = some fp := by
    rw [ho]
    rfl
  obtain ⟨next, hnext, hd⟩ := outcome_delivered ho
  obtain ⟨hcontent, hpkthdr, -, q, qs, hfrags, hhl⟩ := concatenate_spec hd
  obtain ⟨hkey, hsized⟩ := outcome_queue sized_keptByTrim (reachable_sized h) pkt.sized hqueue
  have hlength : (content d.m).length = next := by
    rw [hcontent]
    have hfrom := (complete_spec hnext).1
    exact (Nat.zero_add _).symm.trans (nextFrom_length (fun q hq => (hsized q hq).1) hfrom)
  have hhl5 : 5 ≤ d.ip.ip_hl := by
    rw [hhl]
    exact (hsized q (hfrags ▸ mem_cons_self ..)).2
  have htotal : d.length = d.pkthdr_len + 4 * d.ip.ip_hl := by
    unfold Datagram.length
    omega
  refine ⟨fun hr => ?_, htotal, fun hstop => ?_⟩
  · have hsame := hr.pkthdr
    omega
  · have hold := reachable_sourced h fun p hp => hstop p (mem_cons_of_mem _ hp)
    obtain ⟨-, hsourced⟩ := outcome_queue (P := Sourced (pkt :: s.2)) sourced_keptByTrim
      (fun fp hfp q hq => (hold fp hfp q hq).mono pkt)
      (pkt.sourced s.2 (hstop pkt (mem_cons_self ..))) hqueue
    exact assembled (hkey ▸ hsourced) hnext hd

/-- The rest of the datagram of `firstPacket`. -/
def lastPacket : Packet where
  ip := ⟨5, false, 3, 8, 1, 17, 10, 11, []⟩
  m := [⟨none, 92, List.replicate 3 1⟩]
  hl_ge := by decide
  hl_lt := by decide
  off_lt := by decide
  off_mod := by decide
  len_eq := by decide
  len_lt := by decide
  is_frag := .inr (by decide)
  space_lt := by decide

/-- The data and the length of what is handed up after two fragments. -/
def handedUp (s : State × List Packet) : Option (ℕ × ℕ) :=
  match outcome someLimits s.1 lastPacket true with
  | .delivered _ d _ => some ((content d.m).length, d.pkthdr_len)
  | _ => none

theorem handedUp_some {s : State × List Packet} (h : handedUp s = some (i, next)) :
    ∃ fp d n, outcome someLimits s.1 lastPacket true = .delivered fp d n ∧
      (content d.m).length = i ∧ d.pkthdr_len = next := by
  unfold handedUp at h
  split at h
  · rename_i fp d n ho
    obtain ⟨rfl, rfl⟩ := Prod.mk_inj.mp (some_inj.mp h)
    exact ⟨fp, d, n, ho, rfl, rfl⟩
  · cases h

theorem firstPacket_lastPacket :
    ((System.runFrom (recordedStep someLimits) (⟨[], 0⟩, []) [.frag firstPacket true]).bind
      handedUp) = some (11, 11) := by
  decide

theorem not_reassembled_lastPacket :
    ∃ s fp d n, System.runFrom (recordedStep someLimits) (⟨[], 0⟩, []) [.frag firstPacket true] =
        some s ∧ outcome someLimits s.1 lastPacket true = .delivered fp d n ∧
      ¬Reassembled (lastPacket :: s.2) lastPacket fp d := by
  obtain ⟨s, hs, hd⟩ := bind_eq_some_iff.mp firstPacket_lastPacket
  obtain ⟨fp, d, n, ho, -, -⟩ := handedUp_some hd
  have hreach : (recordedSystem someLimits).Reachable s := System.reachable_of_runFrom hs
  exact ⟨s, fp, d, n, hs, ho, (not_reassembled hreach ho).1⟩

theorem pkthdr_lacks_header :
    ¬∀ (lim : Limits) (s : State × List Packet) (pkt : Packet) (mget : Bool) (fp : Ipq)
      (d : Datagram) (n : ℤ), (recordedSystem lim).Reachable s →
        outcome lim s.1 pkt mget = .delivered fp d n → Reassembled (pkt :: s.2) pkt fp d := by
  intro hall
  obtain ⟨s, hs, hd⟩ := bind_eq_some_iff.mp firstPacket_lastPacket
  obtain ⟨fp, d, n, ho, hlen, hpkthdr⟩ := handedUp_some hd
  have hr := hall someLimits s lastPacket true fp d n (System.reachable_of_runFrom hs) ho
  have hsame := hr.pkthdr
  have hhl : 5 ≤ d.ip.ip_hl := by
    obtain ⟨next, -, hc⟩ := outcome_delivered ho
    obtain ⟨-, -, -, q, qs, hfrags, hhl⟩ := concatenate_spec hc
    have hqueue : (outcome someLimits s.1 lastPacket true).queue? = some fp := by
      rw [ho]
      rfl
    obtain ⟨-, hsized⟩ := outcome_queue sized_keptByTrim
      (reachable_sized (System.reachable_of_runFrom hs)) lastPacket.sized hqueue
    rw [hhl]
    exact (hsized q (hfrags ▸ mem_cons_self ..)).2
  unfold Datagram.length at hsame
  omega

end Runs

section Lifetime

/-- How many timeouts a new queue has. -/
def Limits.life (lim : Limits) : ℕ := (lim.ipfragttl % 256 + 255) % 256 + 1

def Event.slow : Event → Bool
  | .slowtimo => true
  | _ => false

variable {x : Ipq} {e : Event} {es : List Event} {t : State}

theorem outcome_life (h : (outcome lim s pkt mget).queue? = some x) :
    (∃ y ∈ s.ipq, x.key = y.key ∧ x.life = y.life) ∨ (x.life = lim.life ∧ findQueue x.key s.ipq = none) := by
  unfold outcome ip_reass at h
  simp only at h
  split at h
  · rename_i hnone
    split at h
    · cases h
    · split at h
      · rw [insertFrag_queue h]
        exact .inr ⟨rfl, hnone⟩
      · cases h
  · rename_i old hold
    split at h
    · cases h
    · rw [insertFrag_queue h]
      exact .inl ⟨old, mem_of_find?_eq_some hold, rfl, rfl⟩

/-- A queue has been there, and has a timeout less after a timeout, or it is new. -/
theorem step_life (ht : step lim s e = some t) (hx : x ∈ t.ipq) :
    (∃ y ∈ s.ipq, x.key = y.key ∧ x.life + (if e.slow then 1 else 0) = y.life) ∨
      (x.life = lim.life ∧ findQueue x.key s.ipq = none) := by
  cases e with
  | frag pkt mget =>
    obtain rfl := some_inj.mp ht
    rcases settle_queue hx with hold | hmade
    · exact .inl ⟨x, hold, rfl, rfl⟩
    · exact outcome_life hmade
  | whole key =>
    simp only [step] at ht
    split at ht
    · exact .inl ⟨x, some_inj.mp ht ▸ hx, rfl, rfl⟩
    · obtain rfl := some_inj.mp ht
      exact .inl ⟨x, (mem_replaceFirst hx).resolve_left not_mem_nil, rfl, rfl⟩
  | slowtimo =>
    obtain rfl := some_inj.mp ht
    obtain ⟨y, hy, hkey, -, hlife⟩ := slowtimo_queue hx
    exact .inl ⟨y, hy, hkey, hlife⟩
  | drain =>
    obtain rfl := some_inj.mp ht
    cases hx

theorem reachable_life (h : (reassemblySystem lim).Reachable s) : ∀ fp ∈ s.ipq, fp.life ≤ lim.life := by
  refine h.invariant (I := fun s => ∀ fp ∈ s.ipq, fp.life ≤ lim.life) ?_ ?_
  · rintro s rfl fp hfp
    cases hfp
  · intro s e t _ hs ht fp hfp
    rcases step_life ht hfp with ⟨y, hy, -, hlife⟩ | ⟨hlife, -⟩
    · exact (Nat.le_add_right ..).trans (hlife.trans_le (hs y hy))
    · exact hlife.le

theorem gone_of_life {k : ℕ} (hs : ∀ fp ∈ s.ipq, fp.key = key → fp.life ≤ k) (hk : k ≤ es.countP Event.slow)
    (hrun : System.runFrom (step lim) s es = some t) :
    ∃ es₁ es₂ u, es = es₁ ++ es₂ ∧ System.runFrom (step lim) s es₁ = some u ∧ findQueue key u.ipq = none := by
  induction es generalizing s k with
  | nil =>
    refine ⟨[], [], s, rfl, rfl, find?_eq_none.mpr fun fp hfp hkey => ?_⟩
    have hlife := hs fp hfp (of_decide_eq_true hkey)
    exact absurd (hlife.trans hk) (Nat.not_succ_le_zero _)
  | cons e es ih =>
    by_cases hnone : findQueue key s.ipq = none
    · exact ⟨[], e :: es, s, rfl, rfl, hnone⟩
    · obtain ⟨s', hs', hrest⟩ := bind_eq_some_iff.mp hrun
      rw [countP_cons] at hk
      have hlife (fp : Ipq) (hfp : fp ∈ s'.ipq) (hkey : fp.key = key) :
          fp.life ≤ k - if e.slow then 1 else 0 := by
        rcases step_life hs' hfp with ⟨y, hy, hsame, heq⟩ | ⟨-, hnew⟩
        · have hle := hs y hy (hsame.symm.trans hkey)
          omega
        · exact absurd (hkey ▸ hnew) hnone
      obtain ⟨es₁, es₂, u, rfl, hu, hgone⟩ := ih hlife (by omega) hrest
      exact ⟨e :: es₁, es₂, u, rfl, bind_eq_some_iff.mpr ⟨s', hs', hu⟩, hgone⟩

/-- Whatever fragments arrive, the queue of a datagram does not outlast the timeouts of a new one. -/
theorem fragments_released (h : (reassemblySystem lim).Reachable s) (hrun : System.runFrom (step lim) s es = some t)
    (hslow : lim.life ≤ es.countP Event.slow) (key : Key) :
    ∃ es₁ es₂ u, es = es₁ ++ es₂ ∧ System.runFrom (step lim) s es₁ = some u ∧ findQueue key u.ipq = none :=
  gone_of_life (fun fp hfp _ => reachable_life h fp hfp) hslow hrun

def twoTimeouts : Limits := { someLimits with ipfragttl := 2 }

theorem fragments_released_firstPacket :
    ∃ s, System.runFrom (step twoTimeouts) ⟨[], 0⟩ [.frag firstPacket true] = some s ∧ s.ipq.length = 1 ∧
      ∃ es₁ es₂ u, [.slowtimo, .frag firstPacket true, .slowtimo] = es₁ ++ es₂ ∧
        System.runFrom (step twoTimeouts) s es₁ = some u ∧ findQueue firstPacket.ip.key u.ipq = none := by
  have hruns : ((System.runFrom (step twoTimeouts) ⟨[], 0⟩ [.frag firstPacket true]).bind fun s =>
      (System.runFrom (step twoTimeouts) s [.slowtimo, .frag firstPacket true, .slowtimo]).map fun _ =>
        s.ipq.length) = some 1 := by
    decide
  obtain ⟨s, hs, hrest⟩ := bind_eq_some_iff.mp hruns
  obtain ⟨t, ht, hlength⟩ := map_eq_some_iff.mp hrest
  exact ⟨s, hs, hlength, fragments_released (System.reachable_of_runFrom hs) ht (by decide) _⟩

end Lifetime

end Osf1.Reassembly
