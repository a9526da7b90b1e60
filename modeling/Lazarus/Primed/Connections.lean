import Lazarus.Lib.Along
import Lazarus.Lib.Table
import Lazarus.Lib.Tally
import Lazarus.Wire.Cursor

/-! Live connections, in all and by remote address. An address counts as its host, however it is written;
whether it is the pool's own gateway is asked of the address as it is written. -/

namespace Lazarus.Primed

open Wire (Fixed)

inductive IpAddr where
  | v4 (octets : Fixed 4)
  | v6 (octets : Fixed 16)
deriving DecidableEq

namespace IpAddr

/-- The IPv4 address that an IPv6 one stands for. -/
def toIpv4Mapped (octets : Fixed 16) : Option (Fixed 4) :=
  if octets.val.take 12 = List.replicate 10 0 ++ [0xff, 0xff] then
    some ⟨octets.val.drop 12, by simp [octets.property]⟩
  else none

/-- An IPv4 address written as an IPv6 one. -/
def mapped (octets : Fixed 4) : Fixed 16 :=
  ⟨List.replicate 10 0 ++ [0xff, 0xff] ++ octets.val, by simp [octets.property]⟩

def isLoopback : IpAddr → Bool
  | v4 octets => octets.val.head? == some 127
  | v6 octets => octets.val == List.replicate 15 0 ++ [1]

end IpAddr

structure Connections where
  perIp : Table IpAddr Nat := ∅
  total : Nat := 0
deriving DecidableEq

namespace Connections

/-- What one remote address means: an IPv6 host has its whole /64. -/
def key (ip : IpAddr) : IpAddr :=
  match ip with
  | .v4 _ => ip
  | .v6 octets =>
    match IpAddr.toIpv4Mapped octets with
    | some v4 => .v4 v4
    | none => .v6 ⟨octets.val.take 8 ++ List.replicate 8 0, by simp [octets.property]⟩

/-- The last slots are kept for loopback. -/
def reservedFor (ip : IpAddr) (maxTotal : Nat) : Nat := if ip.isLoopback then 0 else min (maxTotal / 8) 2

/-- Reserve a slot, or say which limit it would break. -/
def admitIp (c : Connections) (ip : IpAddr) (maxTotal maxPerIp : Nat) : Connections × Except String Unit :=
  if maxTotal - reservedFor ip maxTotal ≤ c.total then (c, .error "connection limit reached")
  else
    let n := (c.perIp.get? (key ip)).getD 0
    if maxPerIp ≤ n then
      ({ c with perIp := c.perIp.insert (key ip) n }, .error "per-address connection limit reached")
    else ({ perIp := c.perIp.insert (key ip) (n + 1), total := c.total + 1 }, .ok ())

def release (c : Connections) (ip : IpAddr) : Connections :=
  { perIp :=
      match c.perIp.get? (key ip) with
      | some n => if n - 1 = 0 then c.perIp.erase (key ip) else c.perIp.insert (key ip) (n - 1)
      | none => c.perIp
    total := c.total - 1 }

end Connections

inductive ConnStep where
  | admitIp (ip : IpAddr)
  | release (ip : IpAddr)
deriving DecidableEq

/-- The counts, and beside them the addresses whose connections are open. -/
structure Listener where
  conns : Connections := {}
  live : List IpAddr := []

namespace Listener

def step (maxTotal maxPerIp : Nat) (l : Listener) : ConnStep → Listener
  | .admitIp ip =>
    { conns := (l.conns.admitIp ip maxTotal maxPerIp).1
      live := if (l.conns.admitIp ip maxTotal maxPerIp).2 = .ok () then ip :: l.live else l.live }
  | .release ip => { conns := l.conns.release ip, live := l.live.erase ip }

/-- A release is of a connection that was admitted and is open. -/
def Matched (l : Listener) : ConnStep → Prop
  | .admitIp _ => True
  | .release ip => ip ∈ l.live

/-- The connections a host has open. -/
def ofHost (l : Listener) (host : IpAddr) : Nat := l.live.countP fun ip => Connections.key ip = host

/-- The connections of others than the pool's own gateway. -/
def strangers (l : Listener) : Nat := l.live.countP fun ip => !ip.isLoopback

/-- Each host is counted while it has a connection open, within the limits. -/
structure Counted (maxTotal maxPerIp : Nat) (l : Listener) : Prop where
  all : l.conns.total = l.live.length
  sum : Tally.total id l.conns.perIp = l.conns.total
  each : ∀ host, l.conns.perIp.get? host = if l.ofHost host = 0 then none else some (l.ofHost host)
  within : ∀ host, l.ofHost host ≤ maxPerIp
  strangers : l.strangers ≤ maxTotal - min (maxTotal / 8) 2

end Listener

variable {maxTotal maxPerIp : Nat} {l : Listener}

open Connections Listener

section Counts

private theorem counted_start : Counted maxTotal maxPerIp {} where
  all := rfl
  sum := rfl
  each _ := rfl
  within _ := Nat.zero_le _
  strangers := Nat.zero_le _

/-- What a host is counted at, no entry being none. -/
theorem Listener.Counted.getD (counted : Counted maxTotal maxPerIp l) (host : IpAddr) :
    (l.conns.perIp.get? host).getD 0 = l.ofHost host := by
  rw [counted.each]
  split
  · rename_i none
    exact none.symm
  · rfl

theorem Listener.Counted.admitIp (pos : 1 ≤ maxPerIp) (counted : Counted maxTotal maxPerIp l) (ip : IpAddr) :
    Counted maxTotal maxPerIp (l.step maxTotal maxPerIp (.admitIp ip)) := by
  simp only [Listener.step, Connections.admitIp]
  by_cases full : maxTotal - reservedFor ip maxTotal ≤ l.conns.total
  · simp only [if_pos full, reduceCtorEq, if_false]
    exact counted
  · have count : (AList.lookup (key ip) l.conns.perIp).getD 0 = l.ofHost (key ip) := counted.getD (key ip)
    simp only [if_neg full, counted.getD]
    by_cases many : maxPerIp ≤ l.ofHost (key ip)
    · -- a host at its limit is counted already, so that nothing new is written
      simp only [if_pos many, reduceCtorEq, if_false]
      refine { counted with sum := ?_, each := fun host => ?_ }
      · have sum := Tally.total_insert id l.conns.perIp (key ip) (l.ofHost (key ip))
        rw [Option.map_id_fun, id_eq, count] at sum
        exact (Nat.add_right_cancel sum).trans counted.sum
      · rw [Table.get?_insert]
        split
        · rename_i same
          subst same
          have some : l.ofHost (key ip) ≠ 0 := by omega
          exact (if_neg some).symm
        · exact counted.each host
    · simp only [if_neg many, if_true]
      have more : ∀ (conns : Connections) (host : IpAddr), Listener.ofHost ⟨conns, ip :: l.live⟩ host =
          l.ofHost host + if key ip = host then 1 else 0 := fun conns host => by
        simp [Listener.ofHost, List.countP_cons]
      refine ⟨?_, ?_, fun host => ?_, fun host => ?_, ?_⟩
      · simp [counted.all]
      · have sum := Tally.total_insert id l.conns.perIp (key ip) (l.ofHost (key ip) + 1)
        rw [Option.map_id_fun, id_eq, count, counted.sum] at sum
        show Tally.total id _ = l.conns.total + 1
        exact Nat.add_right_cancel (sum.trans (by rw [id_eq, Nat.add_right_comm, Nat.add_assoc]))
      · rw [Table.get?_insert, more]
        by_cases same : host = key ip
        · subst same
          simp
        · rw [if_neg same, if_neg (Ne.symm same), Nat.add_zero]
          exact counted.each host
      · rw [more]
        by_cases same : key ip = host
        · subst same
          rw [if_pos rfl]
          omega
        · rw [if_neg same]
          exact counted.within host
      · have before := counted.strangers
        have few : l.strangers ≤ l.live.length := List.countP_le_length
        simp only [Listener.strangers, List.countP_cons] at before few ⊢
        cases house : ip.isLoopback with
        | true => simpa using before
        | false =>
          simp only [reservedFor, house, counted.all] at full
          simp only [Bool.not_false, if_true]
          simp at full
          omega

theorem Listener.Counted.release (counted : Counted maxTotal maxPerIp l) {ip : IpAddr} (live : ip ∈ l.live) :
    Counted maxTotal maxPerIp (l.step maxTotal maxPerIp (.release ip)) := by
  have fewer : ∀ host, (l.step maxTotal maxPerIp (.release ip)).ofHost host =
      l.ofHost host - if key ip = host then 1 else 0 := fun host => by
    simp [Listener.step, Listener.ofHost, List.countP_erase, live]
  have pos : l.ofHost (key ip) ≠ 0 := (List.countP_pos_iff.mpr ⟨ip, live, by simp⟩).ne'
  refine ⟨?_, ?_, fun host => ?_, fun host => ?_, ?_⟩
  · simp only [Listener.step, Connections.release]
    rw [counted.all, List.length_erase_of_mem live]
  · have here : l.conns.perIp.get? (key ip) = some (l.ofHost (key ip)) := by rw [counted.each, if_neg pos]
    have before := counted.sum
    simp only [Listener.step, Connections.release, here]
    split
    · have sum := Tally.total_erase id l.conns.perIp (key ip)
      rw [show AList.lookup (key ip) l.conns.perIp = some (l.ofHost (key ip)) from here] at sum
      simp only [Option.map_some, id_eq, Option.getD_some] at sum
      omega
    · have sum := Tally.total_insert id l.conns.perIp (key ip) (l.ofHost (key ip) - 1)
      rw [show AList.lookup (key ip) l.conns.perIp = some (l.ofHost (key ip)) from here] at sum
      simp only [Option.map_some, id_eq, Option.getD_some] at sum
      omega
  · rw [fewer]
    simp only [Listener.step, Connections.release, counted.each (key ip), if_neg pos]
    by_cases same : key ip = host
    · subst same
      rw [if_pos rfl]
      split
      · rw [Table.get?_erase, if_pos rfl]
      · rw [Table.get?_insert, if_pos rfl]
    · rw [if_neg same, Nat.sub_zero]
      split
      · rw [Table.get?_erase, if_neg (Ne.symm same), counted.each]
      · rw [Table.get?_insert, if_neg (Ne.symm same), counted.each]
  · rw [fewer]
    exact (Nat.sub_le _ _).trans (counted.within host)
  · refine Nat.le_trans ?_ counted.strangers
    exact List.erase_sublist.countP_le

theorem Listener.Counted.step (pos : 1 ≤ maxPerIp) (counted : Counted maxTotal maxPerIp l) (op : ConnStep)
    (matched : Matched l op) : Counted maxTotal maxPerIp (l.step maxTotal maxPerIp op) := by
  cases op with
  | admitIp ip => exact counted.admitIp pos ip
  | release ip => exact counted.release matched

private theorem counted_run (pos : 1 ≤ maxPerIp) (ops : List ConnStep)
    (matched : Run.Along Matched (Listener.step maxTotal maxPerIp) {} ops) :
    Counted maxTotal maxPerIp (ops.foldl (Listener.step maxTotal maxPerIp) {}) :=
  Run.foldl_invariant (Counted maxTotal maxPerIp)
    (fun _ op counted matched => counted.step pos op matched) matched counted_start

end Counts

section Spelling

/-- An IPv4 address may be written as an IPv6 one. -/
inductive Respelled : IpAddr → IpAddr → Prop
  | same (ip : IpAddr) : Respelled ip ip
  | mapped (octets : Fixed 4) : Respelled (.v4 octets) (.v6 (IpAddr.mapped octets))

/-- The same step, its address written otherwise. -/
inductive RespelledStep : ConnStep → ConnStep → Prop
  | admitIp {ip ip' : IpAddr} (written : Respelled ip ip') : RespelledStep (.admitIp ip) (.admitIp ip')
  | release {ip ip' : IpAddr} (written : Respelled ip ip') : RespelledStep (.release ip) (.release ip')

/-- What the admissions of a run are told. -/
def answers (maxTotal maxPerIp : Nat) : Connections → List ConnStep → List (Except String Unit)
  | _, [] => []
  | c, .admitIp ip :: rest =>
    (c.admitIp ip maxTotal maxPerIp).2 :: answers maxTotal maxPerIp (c.admitIp ip maxTotal maxPerIp).1 rest
  | c, .release ip :: rest => answers maxTotal maxPerIp (c.release ip) rest

/-- Both spellings are of the pool's own gateway or neither is, or no slot that is kept for it is at stake. -/
def Alike (maxTotal : Nat) (c : Connections) (ip ip' : IpAddr) : Prop :=
  ip.isLoopback = ip'.isLoopback ∨ c.total < maxTotal - min (maxTotal / 8) 2 ∨ maxTotal ≤ c.total

/-- Every admission of a run is of addresses that are alike. -/
def AlikeAlong (maxTotal maxPerIp : Nat) : Connections → List ConnStep → List ConnStep → Prop
  | c, .admitIp ip :: rest, .admitIp ip' :: rest' =>
    Alike maxTotal c ip ip' ∧ AlikeAlong maxTotal maxPerIp (c.admitIp ip maxTotal maxPerIp).1 rest rest'
  | c, .release ip :: rest, .release _ :: rest' => AlikeAlong maxTotal maxPerIp (c.release ip) rest rest'
  | _, _, _ => True

variable {c : Connections} {ip ip' : IpAddr}

/-- An address has one key however it is written. -/
theorem Respelled.key_eq (written : Respelled ip ip') : key ip' = key ip := by
  cases written with
  | same => rfl
  | mapped octets =>
    have taken : (IpAddr.mapped octets).val.take 12 = List.replicate 10 0 ++ [0xff, 0xff] := rfl
    have left : (IpAddr.mapped octets).val.drop 12 = octets.val := rfl
    simp only [key, IpAddr.toIpv4Mapped, if_pos taken, left]

theorem Respelled.release_eq (written : Respelled ip ip') : c.release ip' = c.release ip := by
  simp only [Connections.release, written.key_eq]

private theorem isLoopback_mapped (octets : Fixed 4) : IpAddr.isLoopback
    (.v6 (IpAddr.mapped octets)) = false := by
  unfold IpAddr.isLoopback IpAddr.mapped
  simp [List.replicate_succ]

theorem Alike.admit_eq (written : Respelled ip ip') (alike : Alike maxTotal c ip ip') :
    c.admitIp ip' maxTotal maxPerIp = c.admitIp ip maxTotal maxPerIp := by
  have same : maxTotal - reservedFor ip' maxTotal ≤ c.total ↔ maxTotal - reservedFor ip maxTotal ≤ c.total := by
    rcases alike with alike | room | full
    · rw [reservedFor, reservedFor, alike]
    · have none : ∀ ip, ¬ maxTotal - reservedFor ip maxTotal ≤ c.total := fun ip => by
        unfold reservedFor
        split <;> omega
      exact iff_of_false (none ip') (none ip)
    · exact iff_of_true ((Nat.sub_le _ _).trans full) ((Nat.sub_le _ _).trans full)
  simp only [Connections.admitIp, same, written.key_eq]

private theorem admit_respelled (written : Respelled ip ip') :
    (c.admitIp ip' maxTotal maxPerIp).2 = (c.admitIp ip maxTotal maxPerIp).2 ↔ Alike maxTotal c ip ip' := by
  refine ⟨fun told => ?_, fun alike => by rw [alike.admit_eq written]⟩
  cases written with
  | same => exact .inl rfl
  | mapped octets =>
    by_contra apart
    simp only [Alike, isLoopback_mapped, not_or, Bool.not_eq_false, Nat.not_lt, Nat.not_le] at apart
    obtain ⟨house, reached, room⟩ := apart
    have kept : maxTotal - reservedFor (.v6 (IpAddr.mapped octets)) maxTotal ≤ c.total := by
      simpa [reservedFor, isLoopback_mapped] using reached
    have open' : ¬ maxTotal - reservedFor (.v4 octets) maxTotal ≤ c.total := by
      rw [reservedFor, if_pos house]
      omega
    simp only [Connections.admitIp, if_pos kept, if_neg open'] at told
    split at told
    · simp at told
    · cases told

private theorem answers_respelled {ops ops' : List ConnStep} (written : List.Forall₂ RespelledStep ops ops') :
    answers maxTotal maxPerIp c ops' = answers maxTotal maxPerIp c ops ↔
      AlikeAlong maxTotal maxPerIp c ops ops' := by
  induction written generalizing c with
  | nil => simp [answers, AlikeAlong]
  | cons here later ih =>
    cases here with
    | admitIp written =>
      rw [answers, answers, AlikeAlong, List.cons.injEq, admit_respelled written]
      exact and_congr_right fun alike => by rw [alike.admit_eq written, ih]
    | release written => rw [answers, answers, AlikeAlong, written.release_eq, ih]

end Spelling

/-- **Connection limits count hosts.** After any run the total is the sum of the counts, no host is kept at zero
or held beyond its limit, and strangers leave the slots that are kept for loopback. Writing IPv4 addresses as
IPv6 ones changes no admission exactly where, of each that is admitted, it changes nothing about being loopback,
or no kept slot is at stake. -/
theorem connections_count_hosts (pos : 1 ≤ maxPerIp) {ops ops' : List ConnStep}
    (matched : Run.Along Matched (Listener.step maxTotal maxPerIp) {} ops)
    (written : List.Forall₂ RespelledStep ops ops') :
    let l := ops.foldl (Listener.step maxTotal maxPerIp) {}
    l.conns.total = l.conns.perIp.values.sum ∧
      (∀ host count, l.conns.perIp.get? host = some count → 0 < count ∧ count ≤ maxPerIp) ∧
      l.strangers ≤ maxTotal - min (maxTotal / 8) 2 ∧
      (answers maxTotal maxPerIp {} ops' = answers maxTotal maxPerIp {} ops ↔
        AlikeAlong maxTotal maxPerIp {} ops ops') := by
  have counted := counted_run pos ops matched
  refine ⟨counted.sum.symm, fun host count found => ?_, counted.strangers, answers_respelled written⟩
  rw [counted.each] at found
  split at found
  · cases found
  · cases found
    exact ⟨by omega, counted.within host⟩

/-- Seven connections each of two hosts, which leave the two slots that are kept, and then one of
the pool's own gateway. -/
def houseLast (house : IpAddr) : List ConnStep :=
  List.replicate 7 (.admitIp (.v4 ⟨[203, 0, 113, 1], rfl⟩)) ++
    List.replicate 7 (.admitIp (.v4 ⟨[203, 0, 113, 2], rfl⟩)) ++ [.admitIp house]

def houseAddress : Fixed 4 := ⟨[127, 0, 0, 1], rfl⟩

private theorem respelled_houseLast : List.Forall₂ RespelledStep (houseLast (.v4 houseAddress))
    (houseLast (.v6 (IpAddr.mapped houseAddress))) := by
  have same : ∀ ops : List ConnStep, List.Forall₂ RespelledStep ops ops := fun ops => by
    refine List.forall₂_same.mpr fun op _ => ?_
    cases op with
    | admitIp ip => exact .admitIp (.same ip)
    | release ip => exact .release (.same ip)
  exact List.rel_append (same _) (.cons (.admitIp (.mapped houseAddress)) .nil)

theorem connections_count_hosts_houseLast :
    let l := (houseLast (.v4 houseAddress)).foldl (Listener.step 16 8) {}
    l.conns.total = l.conns.perIp.values.sum ∧
      (∀ host count, l.conns.perIp.get? host = some count → 0 < count ∧ count ≤ 8) ∧
      l.strangers ≤ 16 - min (16 / 8) 2 ∧
      (answers 16 8 {} (houseLast (.v6 (IpAddr.mapped houseAddress))) =
        answers 16 8 {} (houseLast (.v4 houseAddress)) ↔
        AlikeAlong 16 8 {} (houseLast (.v4 houseAddress)) (houseLast (.v6 (IpAddr.mapped houseAddress)))) :=
  connections_count_hosts (by decide) (by simp [houseLast, List.replicate, Matched]) respelled_houseLast

/-- The pool's own gateway gets a slot that is kept for it under one spelling of its address
and not under the other. -/
theorem house_locked_out :
    (answers 16 8 {} (houseLast (.v4 houseAddress))).getLast? = some (.ok ()) ∧
      (answers 16 8 {} (houseLast (.v6 (IpAddr.mapped houseAddress)))).getLast? =
      some (.error "connection limit reached") ∧
      List.Forall₂ RespelledStep (houseLast (.v4 houseAddress))
        (houseLast (.v6 (IpAddr.mapped houseAddress))) := by
  refine ⟨by decide, by decide, ?_⟩
  exact respelled_houseLast

end Lazarus.Primed
