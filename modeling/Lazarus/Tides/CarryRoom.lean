import Lazarus.Tides.Placement

/-! The carry a split pays, turn by turn: the room each placed miner finds, what it is given of it, and what
those who go without leave behind. -/

namespace Lazarus.Tides

open Machine

section Fitting

variable (p : SplitParams) (now : Nat)

/-- The bytes an output to a queued miner takes. -/
def Queued.need (q : Queued) : Nat := 9 + (q.script.getD []).length

/-- A queued miner is owed its floor, and there is an output for it while so many outputs, bytes
and stale places last. -/
def Queued.Fits (outputs bytes stale : Nat) (q : Queued) : Prop :=
  q.total ≠ 0 ∧ q.script.isSome = true ∧ p.floorFor q.miner now ≤ q.total ∧ 0 < outputs ∧ q.need ≤ bytes ∧
    (p.isStale q.miner now = true → 0 < stale)

instance (outputs bytes stale : Nat) (q : Queued) : Decidable (q.Fits p now outputs bytes stale) :=
  inferInstanceAs (Decidable (_ ∧ _ ∧ _ ∧ _ ∧ _ ∧ _))

/-- Those of a queue that fit, each beside those before it. -/
def fitting (outputs bytes stale : Nat) : List Queued → List Queued
  | [] => []
  | q :: rest =>
    if q.Fits p now outputs bytes stale then
      q :: fitting (outputs - 1) (bytes - q.need) (stale - if p.isStale q.miner now then 1 else 0) rest
    else fitting outputs bytes stale rest

variable {p now}

private theorem placed_fitting (queue : List Queued) (s : Placing) :
    (queue.foldl (place p now) s).placed.map Placed.queued = s.placed.map Placed.queued ++
      fitting p now (p.maxOutputs - s.placed.length) (p.outputBudgetBytes - s.bytes)
        (p.staleMaxOutputs - s.stalePlaced) queue := by
  induction queue generalizing s with
  | nil => simp [fitting]
  | cons q rest ih =>
    rw [List.foldl_cons, ih, fitting]
    by_cases nothing : q.total = 0
    · rw [place_nothing nothing, if_neg fun fits => fits.1 nothing]
    · cases found : q.script with
      | none =>
        rw [place_refused nothing found, if_neg]
        · rfl
        · rintro ⟨_, payable, _⟩
          simp [found] at payable
      | some script =>
        have need : q.need = 9 + script.length := by rw [Queued.need, found, Option.getD_some]
        rw [place_payable nothing found]
        cases limit : leftOut p now s q script with
        | none =>
          obtain ⟨floor, count, bytes, stale⟩ := leftOut_none limit
          have own : Placed.queued ⟨q.miner, script, q.earned⟩ = q := by rw [Placed.queued, ← found]
          have fits : q.Fits p now (p.maxOutputs - s.placed.length) (p.outputBudgetBytes - s.bytes)
              (p.staleMaxOutputs - s.stalePlaced) :=
            ⟨nothing, by rw [found, Option.isSome_some], floor, by omega, by omega,
              fun gone => Nat.sub_pos_of_lt (stale gone)⟩
          rw [if_pos fits, need]
          simp only [Placing.take, List.map_append, List.map_cons, List.map_nil, own, List.length_append,
            List.length_singleton, List.append_assoc, List.singleton_append, Nat.sub_sub]
        | some reason =>
          rw [if_neg]
          · rfl
          · rintro ⟨_, _, floor, count, bytes, stale⟩
            unfold leftOut at limit
            rw [if_neg (Nat.not_lt.mpr floor), if_neg] at limit
            · cases limit
            · rintro (full | full | ⟨gone, full⟩)
              · omega
              · omega
              · have left := stale gone
                omega

end Fitting

/-- A placed miner's turn in the second pass: the room it finds, and the carry it is
paid, if it has an output. -/
structure Turn where
  placed : Placed
  room : Nat
  given : Option Nat

section Turns

variable (p : SplitParams) (now : Nat)

/-- The carry a placed miner is paid, or none where it goes without. -/
def given (room : Nat) (x : Placed) : Option Nat :=
  let carry := min x.miner.carry room
  if x.earned + carry < p.floorFor x.miner now ∨ p.isStale x.miner now ∧ carry < x.miner.carry then none
  else some carry

/-- Carry paid comes out of the room; a miner that goes without leaves its share in it. -/
def roomAfter (room : Nat) (x : Placed) : Option Nat → Nat
  | some carry => room - carry
  | none => satAdd room x.earned

def turns : Nat → List Placed → List Turn
  | _, [] => []
  | room, x :: rest => ⟨x, room, given p now room x⟩ :: turns (roomAfter room x (given p now room x)) rest

/-- The room the last turn leaves. -/
def lastRoom : Nat → List Placed → Nat
  | room, [] => room
  | room, x :: rest => lastRoom (roomAfter room x (given p now room x)) rest

namespace Turn

def payee (t : Turn) : Option Payee :=
  t.given.map fun carry =>
    { identity := t.placed.miner.identity, work := t.placed.miner.work, sats := t.placed.earned + carry, carry,
      script := t.placed.script }

def passedOver (t : Turn) : Option Unpaid :=
  if t.given = none then
    some
      { identity := t.placed.miner.identity, sats := t.placed.total, earned := t.placed.earned,
        reason := .overBudget }
  else none

/-- Paid, and less carry than its balance. -/
def Cut (t : Turn) : Prop := ∃ carry, t.given = some carry ∧ carry < t.placed.miner.carry

/-- Carry of its balance that it is not paid. -/
def withheld (t : Turn) : Nat := t.placed.miner.carry - t.given.getD 0

/-- Paid its balance whole. -/
def Whole (t : Turn) : Prop := t.given = some t.placed.miner.carry

instance (t : Turn) : Decidable t.Whole := inferInstanceAs (Decidable (_ = _))

/-- What it leaves in the room by going without. -/
def freed (t : Turn) : Nat := if t.given = none then t.placed.earned else 0

/-- What of the room it is paid. -/
def granted (t : Turn) : Nat := t.given.getD 0

end Turn

variable {p now}

theorem turns_placed (room : Nat) (placed : List Placed) :
    (turns p now room placed).map Turn.placed = placed := by
  induction placed generalizing room with
  | nil => rfl
  | cons x rest ih => rw [turns, List.map_cons, ih]

theorem foldl_pay (p : SplitParams) (now : Nat) (placed : List Placed) (s : Paying) :
    (placed.foldl (pay p now) s).payees = s.payees ++ (turns p now s.carryRoom placed).filterMap Turn.payee ∧
      (placed.foldl (pay p now) s).unpaid = s.unpaid ++
      (turns p now s.carryRoom placed).filterMap Turn.passedOver ∧
      (placed.foldl (pay p now) s).carryRoom = lastRoom p now s.carryRoom placed := by
  induction placed generalizing s with
  | nil => simp [turns, lastRoom]
  | cons x rest ih =>
    obtain ⟨payees, unpaid, room⟩ := ih (pay p now s x)
    rw [List.foldl_cons, payees, unpaid, room]
    by_cases out : x.earned + min x.miner.carry s.carryRoom < p.floorFor x.miner now ∨
        p.isStale x.miner now ∧ min x.miner.carry s.carryRoom < x.miner.carry
    · have without : given p now s.carryRoom x = none := if_pos out
      have step : pay p now s x = { s with
          carryRoom := satAdd s.carryRoom x.earned
          unpaid := s.unpaid ++
            [{ identity := x.miner.identity, sats := x.total, earned := x.earned, reason := .overBudget }]
            } := by
        unfold pay
        simp only
        rw [if_pos out]
        rfl
      rw [step, turns, lastRoom, without]
      simp [List.filterMap_cons, Turn.payee, Turn.passedOver, roomAfter]
    · have some : given p now s.carryRoom x = some (min x.miner.carry s.carryRoom) := if_neg out
      have step : pay p now s x = { s with
          carryRoom := s.carryRoom - min x.miner.carry s.carryRoom
          paid := s.paid + (x.earned + min x.miner.carry s.carryRoom)
          carryPaid := s.carryPaid + min x.miner.carry s.carryRoom
          payees := s.payees ++ [{
            identity := x.miner.identity, work := x.miner.work,
            sats := x.earned + min x.miner.carry s.carryRoom,
            carry := min x.miner.carry s.carryRoom, script := x.script }] } := by
        unfold pay
        simp only
        rw [if_neg out]
      rw [step, turns, lastRoom, some]
      simp [Turn.payee, Turn.passedOver, roomAfter]

theorem given_some {room carry : Nat} {x : Placed} (paid : given p now room x = some carry) :
    carry = min x.miner.carry room := by
  unfold given at paid
  simp only at paid
  split at paid
  · cases paid
  · exact (Option.some.inj paid).symm

private theorem given_none {room : Nat} {x : Placed} (without : given p now room x = none)
    (floor : p.floorFor x.miner now ≤ x.total) : room < x.miner.carry := by
  by_contra enough
  have all : min x.miner.carry room = x.miner.carry := Nat.min_eq_left (Nat.le_of_not_lt enough)
  have most : x.total ≤ x.earned + x.miner.carry := satAdd_le
  unfold given at without
  simp only [all] at without
  split at without
  · rename_i short
    rcases short with low | ⟨_, part⟩
    · omega
    · omega
  · cases without

end Turns

section Room

variable {p : SplitParams} {now room : Nat}

private theorem turns_room {placed : List Placed} (fits : room + (placed.map Placed.earned).sum ≤ u64Max)
    {before after : List Turn} {t : Turn} (shape : turns p now room placed = before ++ t :: after) :
    t.given = given p now t.room t.placed ∧
      t.room + (before.map Turn.granted).sum = room + (before.map Turn.freed).sum := by
  induction before generalizing room placed with
  | nil =>
    cases placed with
    | nil => cases shape
    | cons x rest =>
      obtain ⟨rfl, -⟩ := List.cons.inj shape
      exact ⟨rfl, rfl⟩
  | cons first before ih =>
    cases placed with
    | nil => cases shape
    | cons x rest =>
      obtain ⟨rfl, later⟩ := List.cons.inj shape
      rw [List.map_cons, List.sum_cons] at fits
      simp only [List.map_cons, List.sum_cons]
      cases paid : given p now room x with
      | none =>
        have next : roomAfter room x none = room + x.earned := satAdd_eq (by omega)
        rw [paid, next] at later
        obtain ⟨own, law⟩ := ih (by omega) later
        refine ⟨own, ?_⟩
        simp only [Turn.granted, Turn.freed, Option.getD_none, ↓reduceIte] at law ⊢
        omega
      | some carry =>
        have part : carry = min x.miner.carry room := given_some paid
        have next : roomAfter room x (some carry) = room - carry := rfl
        rw [paid, next] at later
        obtain ⟨own, law⟩ := ih (by omega) later
        refine ⟨own, ?_⟩
        simp only [Turn.granted, Turn.freed, Option.getD_some, reduceCtorEq, ↓reduceIte] at law ⊢
        omega

private theorem lastRoom_law {placed : List Placed} (fits : room + (placed.map Placed.earned).sum ≤ u64Max) :
    lastRoom p now room placed + ((turns p now room placed).map Turn.granted).sum =
      room + ((turns p now room placed).map Turn.freed).sum := by
  induction placed generalizing room with
  | nil => rfl
  | cons x rest ih =>
    rw [List.map_cons, List.sum_cons] at fits
    rw [turns, lastRoom, List.map_cons, List.sum_cons, List.map_cons, List.sum_cons]
    cases paid : given p now room x with
    | none =>
      have next : roomAfter room x none = room + x.earned := satAdd_eq (by omega)
      have law := @ih (room + x.earned) (by omega)
      rw [next]
      simp only [Turn.granted, Turn.freed, Option.getD_none, ↓reduceIte] at law ⊢
      omega
    | some carry =>
      have part : carry = min x.miner.carry room := given_some paid
      have next : roomAfter room x (some carry) = room - carry := rfl
      have law := @ih (room - carry) (by omega)
      rw [next]
      simp only [Turn.granted, Turn.freed, Option.getD_some, reduceCtorEq, ↓reduceIte] at law ⊢
      omega

private theorem mem_turns {placed : List Placed}
    (fits : room + (placed.map Placed.earned).sum ≤ u64Max) {t : Turn}
    (member : t ∈ turns p now room placed) : t.placed ∈ placed ∧ t.given = given p now t.room t.placed := by
  obtain ⟨before, after, shape⟩ := List.append_of_mem member
  refine ⟨?_, (turns_room fits shape).1⟩
  rw [← turns_placed (p := p) room placed]
  exact List.mem_map_of_mem member

end Room

section Order

/-- Each payee is paid its balance, or what those before it left of the room there is for the carry of all. -/
def InOrder (room : Nat) (run : List Turn) : Prop :=
  ∀ before t after carry, run = before ++ t :: after → t.given = some carry →
    carry = min t.placed.miner.carry (room - (before.map Turn.granted).sum)

/-- Nobody leaves room behind once a payee has been cut. -/
def NoneFreedLate (run : List Turn) : Prop := run.Pairwise fun first second => first.Cut → second.freed = 0

/-- How a room goes to the balances of a line of placed miners, in their order. A miner whose balance the room
does not cover and that is under its floor with what there is, is turned out and leaves its share; the first one
that stays takes all there is, and nobody behind it may have earned something and be under its floor without
carry. If nobody comes to that, what is left at the end must be short of every balance turned out. -/
def HeldFairly (p : SplitParams) (now : Nat) : Nat → List Nat → List Queued → Prop
  | room, turnedOut, [] => room = 0 ∨ ∀ balance ∈ turnedOut, room < balance
  | room, turnedOut, q :: behind =>
    if q.miner.carry ≤ room then HeldFairly p now (room - q.miner.carry) turnedOut behind
    else if p.isStale q.miner now ∨ q.earned + room < p.floorFor q.miner now then
      HeldFairly p now (room + q.earned) (q.miner.carry :: turnedOut) behind
    else ∀ r ∈ behind, r.earned = 0 ∨ p.floorFor r.miner now ≤ r.earned

variable {p : SplitParams} {now room : Nat} {placed : List Placed}

private theorem granted_of_some {t : Turn} {carry : Nat} (paid : t.given = some carry) :
    t.granted = carry ∧ t.freed = 0 := by
  constructor
  · rw [Turn.granted, paid, Option.getD_some]
  · rw [Turn.freed, paid, if_neg (by simp)]

private theorem sum_freed_eq_zero {run : List Turn} (none : ∀ t ∈ run, t.freed = 0) :
    (run.map Turn.freed).sum = 0 := by
  apply List.sum_eq_zero
  intro amount member
  obtain ⟨t, listed, rfl⟩ := List.mem_map.mp member
  exact none t listed

private theorem inOrder_iff (fits : room + (placed.map Placed.earned).sum ≤ u64Max) :
    InOrder (room + ((turns p now room placed).map Turn.freed).sum) (turns p now room placed) ↔
      NoneFreedLate (turns p now room placed) := by
  constructor
  · intro inOrder
    apply List.pairwise_iff_forall_sublist.mpr
    intro first second pair cut
    obtain ⟨earlier, later, whole, here, there⟩ := List.cons_sublist_iff.mp pair
    obtain ⟨before, between, rfl⟩ := List.append_of_mem here
    have shape : turns p now room placed = before ++ first :: (between ++ later) := by
      rw [whole, List.append_assoc, List.cons_append]
    obtain ⟨carry, paid, less⟩ := cut
    obtain ⟨own, law⟩ := turns_room fits shape
    have fair := inOrder before first _ carry shape paid
    have part := given_some (own.symm.trans paid)
    have nothing := (granted_of_some paid).2
    have member : second ∈ between ++ later := List.mem_append_right _ (List.singleton_sublist.mp there)
    have some : second.freed ≤ ((between ++ later).map Turn.freed).sum :=
      List.le_sum_of_mem (List.mem_map_of_mem member)
    rw [shape, List.map_append, List.sum_append, List.map_cons, List.sum_cons] at fair
    omega
  · intro late before t after carry shape paid
    obtain ⟨own, law⟩ := turns_room fits shape
    have part := given_some (own.symm.trans paid)
    have nothing := (granted_of_some paid).2
    rw [shape, List.map_append, List.sum_append, List.map_cons, List.sum_cons, nothing]
    by_cases whole : t.placed.miner.carry ≤ t.room
    · omega
    · have cut : t.Cut := ⟨carry, paid, by omega⟩
      have after : (after.map Turn.freed).sum = 0 := by
        apply sum_freed_eq_zero
        intro other member
        rw [NoneFreedLate, shape] at late
        have follows := (List.pairwise_append.mp late).2.1
        exact (List.pairwise_cons.mp follows).1 other member cut
      omega

private theorem quiet_iff (stale : ∀ x ∈ placed, p.isStale x.miner now = true → x.earned = 0) :
    (∀ t ∈ turns p now 0 placed, t.freed = 0) ↔ ∀ x ∈ placed, x.earned = 0 ∨
      p.floorFor x.miner now ≤ x.earned := by
  induction placed with
  | nil => simp [turns]
  | cons x rest ih =>
    obtain ⟨here, stale⟩ := List.forall_mem_cons.mp stale
    rw [turns, List.forall_mem_cons, List.forall_mem_cons]
    cases paid : given p now 0 x with
    | none =>
      have left : Turn.freed ⟨x, 0, none⟩ = x.earned := rfl
      rw [left]
      constructor
      · rintro ⟨nothing, later⟩
        rw [roomAfter, nothing] at later
        exact ⟨.inl nothing, (ih stale).mp later⟩
      · rintro ⟨able, later⟩
        have nothing : x.earned = 0 := by
          rcases able with nothing | floor
          · exact nothing
          · unfold given at paid
            simp only [Nat.min_zero, Nat.add_zero] at paid
            split at paid
            · rename_i out
              rcases out with low | ⟨gone, _⟩
              · omega
              · exact here gone
            · cases paid
        refine ⟨nothing, ?_⟩
        rw [roomAfter, nothing]
        exact (ih stale).mpr later
    | some carry =>
      have none : carry = 0 := by
        have part := given_some paid
        omega
      have floor : p.floorFor x.miner now ≤ x.earned := by
        unfold given at paid
        simp only [Nat.min_zero, Nat.add_zero] at paid
        split at paid
        · cases paid
        · rename_i stays
          exact Nat.le_of_not_lt fun low => stays (.inl low)
      have left : Turn.freed ⟨x, 0, some carry⟩ = 0 := rfl
      rw [left, none]
      exact and_congr ⟨fun _ => .inr floor, fun _ => rfl⟩ (ih stale)

/-- Balances are held back fairly exactly where nobody leaves room too late, and what is left at the end would
not have paid any part withheld, from these miners or from those turned out before. -/
theorem heldFairly_iff (fits : room + (placed.map Placed.earned).sum ≤ u64Max)
    (floors : ∀ x ∈ placed, p.floorFor x.miner now ≤ x.total)
    (stale : ∀ x ∈ placed, p.isStale x.miner now = true → x.earned = 0) (turnedOut : List Nat) :
    HeldFairly p now room turnedOut (placed.map Placed.queued) ↔
      NoneFreedLate (turns p now room placed) ∧
      (lastRoom p now room placed = 0 ∨ ∀ balance ∈ turnedOut, lastRoom p now room placed < balance) ∧
      ∀ t ∈ turns p now room placed, ¬ t.Whole →
        lastRoom p now room placed = 0 ∨ lastRoom p now room placed < t.withheld := by
  induction placed generalizing room turnedOut with
  | nil => simp [HeldFairly, NoneFreedLate, turns, lastRoom]
  | cons x rest ih =>
    obtain ⟨floor, floors⟩ := List.forall_mem_cons.mp floors
    obtain ⟨_, stale⟩ := List.forall_mem_cons.mp stale
    have most : x.total ≤ x.earned + x.miner.carry := satAdd_le
    rw [List.map_cons, List.sum_cons] at fits
    rw [List.map_cons, HeldFairly, NoneFreedLate, turns, List.pairwise_cons, lastRoom, List.forall_mem_cons]
    change (if x.miner.carry ≤ room then _ else _) ↔ _
    by_cases covered : x.miner.carry ≤ room
    · -- paid whole, so nothing is asked of it
      have all : min x.miner.carry room = x.miner.carry := Nat.min_eq_left covered
      have paid : given p now room x = some x.miner.carry := by
        unfold given
        simp only [all]
        exact if_neg (by omega)
      have whole : Turn.Whole ⟨x, room, some x.miner.carry⟩ := rfl
      have uncut : ¬ Turn.Cut ⟨x, room, some x.miner.carry⟩ := by
        rintro ⟨carry, same, less⟩
        obtain rfl := Option.some.inj same
        exact Nat.lt_irrefl _ less
      have later := @ih (room - x.miner.carry) (by omega) floors stale turnedOut
      rw [if_pos covered, paid]
      simp only [roomAfter, whole, uncut, not_true_eq_false, false_implies, implies_true, true_and]
      exact later
    · rw [if_neg covered]
      have part : min x.miner.carry room = room := Nat.min_eq_right (by omega)
      change (if p.isStale x.miner now = true ∨ x.earned + room < p.floorFor x.miner now then _ else _) ↔ _
      by_cases out : p.isStale x.miner now = true ∨ x.earned + room < p.floorFor x.miner now
      · -- turned out: its whole balance is withheld
        have without : given p now room x = none := by
          unfold given
          simp only [part]
          refine if_pos ?_
          rcases out with gone | low
          · exact .inr ⟨gone, by omega⟩
          · exact .inl low
        have next : roomAfter room x none = room + x.earned := satAdd_eq (by omega)
        have uncut : ¬ Turn.Cut ⟨x, room, none⟩ := by
          rintro ⟨carry, same, _⟩
          cases same
        have part : ¬ Turn.Whole ⟨x, room, none⟩ := fun whole => by cases whole
        have withheld : Turn.withheld ⟨x, room, none⟩ = x.miner.carry := rfl
        have later := @ih (room + x.earned) (by omega) floors stale (x.miner.carry :: turnedOut)
        rw [if_pos out, without, next]
        simp only [uncut, part, withheld, not_false_eq_true, false_implies,
          implies_true, true_and, forall_const]
        refine later.trans (and_congr_right fun _ => ?_)
        rw [List.forall_mem_cons]
        constructor
        · rintro ⟨none | ⟨here, before⟩, each⟩
          · exact ⟨.inl none, .inl none, each⟩
          · exact ⟨.inr before, .inr here, each⟩
        · rintro ⟨none | before, none' | here, each⟩
          · exact ⟨.inl none, each⟩
          · exact ⟨.inl none, each⟩
          · exact ⟨.inl none', each⟩
          · exact ⟨.inr ⟨here, before⟩, each⟩
      · -- cut: it takes all the room, so whoever frees some now does so too late
        rw [not_or, Nat.not_lt] at out
        have paid : given p now room x = some room := by
          unfold given
          simp only [part]
          refine if_neg ?_
          rintro (low | ⟨gone, _⟩)
          · omega
          · exact out.1 gone
        have cut : Turn.Cut ⟨x, room, some room⟩ := ⟨room, rfl, by change room < x.miner.carry; omega⟩
        have next : roomAfter room x (some room) = 0 := Nat.sub_self room
        have quiet := @quiet_iff p now rest stale
        rw [if_neg (by rw [not_or, Nat.not_lt]; exact out), paid, next]
        have same : (∀ r ∈ rest.map Placed.queued, r.earned = 0 ∨ p.floorFor r.miner now ≤ r.earned) ↔
            ∀ t ∈ turns p now 0 rest, t.freed = 0 := by
          rw [quiet, List.forall_mem_map]
          rfl
        rw [same]
        constructor
        · intro none
          have law := @lastRoom_law p now 0 rest (by omega)
          have nothing := sum_freed_eq_zero none
          have last : lastRoom p now 0 rest = 0 := by omega
          refine ⟨⟨fun t later _ => none t later, ?_⟩, .inl last, fun _ => .inl last, fun _ _ _ => .inl last⟩
          exact List.pairwise_of_forall_mem_list fun _ _ t later _ => none t later
        · exact fun ⟨⟨late, _⟩, _⟩ t later => late t later cut

/-- Where everybody who earned something is at its floor without carry, balances are held back fairly. -/
theorem HeldFairly.of_able {line : List Queued} {turnedOut : List Nat}
    (able : ∀ q ∈ line, q.earned = 0 ∨ p.floorFor q.miner now ≤ q.earned)
    (stale : ∀ q ∈ line, p.isStale q.miner now = true → q.earned = 0)
    (short : ∀ balance ∈ turnedOut, room < balance) :
    HeldFairly p now room turnedOut line := by
  induction line generalizing room turnedOut with
  | nil => exact .inr short
  | cons q behind ih =>
    obtain ⟨here, able⟩ := List.forall_mem_cons.mp able
    obtain ⟨gone, stale⟩ := List.forall_mem_cons.mp stale
    rw [HeldFairly]
    split
    · exact ih able stale fun balance listed => (Nat.sub_le _ _).trans_lt (short balance listed)
    · rename_i uncovered
      split
      · rename_i out
        have nothing : q.earned = 0 := by
          rcases out with left | low
          · exact gone left
          · omega
        rw [nothing, Nat.add_zero]
        exact ih able stale (List.forall_mem_cons.mpr ⟨Nat.lt_of_not_le uncovered, short⟩)
      · exact able

end Order

section Compute

variable (miners : List MinerStat) (totalWork value : Nat) (p : SplitParams) (now : Nat)
  (scriptFor : String → Option Script)

/-- The turns of the second pass of a split. -/
def SplitParams.turnsOf : List Turn :=
  turns p now (p.firstPass miners totalWork value now scriptFor).carryRoom
    (p.firstPass miners totalWork value now scriptFor).placed

variable {p miners totalWork value now scriptFor}

private theorem firstPass_fitting :
    (p.firstPass miners totalWork value now scriptFor).placed.map Placed.queued =
    fitting p now p.maxOutputs p.outputBudgetBytes p.staleMaxOutputs
      (p.queue miners totalWork value scriptFor) :=
  placed_fitting (p.queue miners totalWork value scriptFor) (p.opening miners totalWork value scriptFor)

theorem work_stale {m : MinerStat} (gone : p.isStale m now = true) : m.work = 0 := by
  simp only [SplitParams.isStale, Bool.and_eq_true, beq_iff_eq] at gone
  exact gone.1.1.2

theorem earned_stale {m : MinerStat} (gone : p.isStale m now = true) : p.earned totalWork value m = 0 := by
  apply if_neg
  rw [work_stale gone]
  exact fun both => Nat.lt_irrefl 0 both.2

end Compute

/-- Carry is held back for want of room. The turns of a split are its outputs and those it turns out; a payee
that is cut takes all the room there is, and one turned out finds less than its balance. Balances are paid in
order, whoever goes without, and nothing is left in the pool that would have paid a part withheld, exactly where
those that have an output by the limits hold the room that their shares leave of the value back fairly. -/
theorem carry_held_back (miners : List MinerStat) (totalWork value : Nat)
    (p : SplitParams) (rebateOwed now : Nat) (scriptFor : String → Option Script) (bounded : p.Bounded)
    (worked : (miners.map MinerStat.work).sum ≤ totalWork) (fits : value ≤ u64Max) :
    let s := compute miners totalWork value p rebateOwed now scriptFor
    let run := p.turnsOf miners totalWork value now scriptFor
    let line := fitting p now p.maxOutputs p.outputBudgetBytes p.staleMaxOutputs
      (p.queue miners totalWork value scriptFor)
    s.payees = run.filterMap Turn.payee ∧
    s.unpaid = (p.firstPass miners totalWork value now scriptFor).unpaid ++ run.filterMap Turn.passedOver ∧
    (∀ t ∈ run, (t.Cut → t.given = some t.room) ∧ (t.given = none → t.room < t.placed.miner.carry)) ∧
    (InOrder (value - (s.payees.map fun payee => payee.sats - payee.carry).sum) run ∧
        (∀ t ∈ run, ¬ t.Whole → s.poolSats = 0 ∨ s.poolSats < t.withheld) ↔
      HeldFairly p now (value - (line.map Queued.earned).sum) [] line) := by
  intro s run line
  let first := p.firstPass miners totalWork value now scriptFor
  have room : first.carryRoom + (first.placed.map Placed.earned).sum = value :=
    firstPass_room bounded worked fits
  have below : first.carryRoom + (first.placed.map Placed.earned).sum ≤ u64Max := by omega
  obtain ⟨payees, unpaid, last⟩ := foldl_pay p now first.placed
    { carryRoom := first.carryRoom, unpaid := first.unpaid }
  have paidEach : s.payees = run.filterMap Turn.payee := payees
  have shares : ∀ list : List Turn, (list.map fun t => t.placed.earned).sum = (list.map Turn.freed).sum +
      ((list.filterMap Turn.payee).map fun payee => payee.sats - payee.carry).sum := by
    intro list
    induction list with
    | nil => rfl
    | cons t rest ih =>
      rw [List.map_cons, List.sum_cons, List.map_cons, List.sum_cons, ih]
      cases paid : t.given with
      | none =>
        have left : t.freed = t.placed.earned := if_pos paid
        have without : t.payee = none := by rw [Turn.payee, paid, Option.map_none]
        rw [List.filterMap_cons_none without]
        omega
      | some carry =>
        have nothing := (granted_of_some paid).2
        obtain ⟨payee, output, share⟩ : ∃ payee, t.payee = some payee ∧
          payee.sats - payee.carry = t.placed.earned :=
          ⟨_, by rw [Turn.payee, paid, Option.map_some], Nat.add_sub_cancel _ _⟩
        rw [List.filterMap_cons_some output, List.map_cons, List.sum_cons]
        omega
  have earned : (first.placed.map Placed.earned).sum = (run.map Turn.freed).sum +
      (s.payees.map fun payee => payee.sats - payee.carry).sum := by
    rw [paidEach, ← shares run, ← turns_placed (p := p) first.carryRoom first.placed, List.map_map]
    rfl
  have forAll : value - (s.payees.map fun payee => payee.sats - payee.carry).sum =
      first.carryRoom + (run.map Turn.freed).sum := by omega
  have order : InOrder _ run ↔ NoneFreedLate run := inOrder_iff below
  have pool : s.poolSats = lastRoom p now first.carryRoom first.placed := by
    have total := @pay_room p now value fits first.placed
      { carryRoom := first.carryRoom, unpaid := first.unpaid } (by simpa using room)
    rw [last] at total
    have remainder : s.poolSats = value - (first.placed.foldl (pay p now)
      { carryRoom := first.carryRoom, unpaid := first.unpaid }).paid := rfl
    rw [remainder]
    exact (Nat.eq_sub_of_add_eq total).symm
  have same : first.placed.map Placed.queued = line := firstPass_fitting
  have start : value - (line.map Queued.earned).sum = first.carryRoom := by
    have shares : (line.map Queued.earned).sum = (first.placed.map Placed.earned).sum := by
      rw [← same, List.map_map]
      rfl
    omega
  have stale : ∀ x ∈ first.placed, p.isStale x.miner now = true → x.earned = 0 := by
    intro x member gone
    rw [(mem_firstPass member).2.2]
    exact earned_stale gone
  rw [forAll, pool, start, ← same]
  refine ⟨paidEach, unpaid, ?_, ?_⟩
  · intro t member
    obtain ⟨listed, own⟩ := mem_turns below member
    refine ⟨?_, fun without => given_none (own.symm.trans without) (firstPass_floor t.placed listed)⟩
    rintro ⟨carry, paid, less⟩
    have most := given_some (own.symm.trans paid)
    have all : carry = t.room := by omega
    rw [← all]
    exact paid
  · rw [heldFairly_iff below firstPass_floor stale []]
    exact and_congr order (and_iff_right (.inr nofun)).symm

/-- Three miners and a room of 750: the first is cut by fifty, the second is turned out. -/
def cutThenFreed (floor : Nat) : Split × List Turn :=
  let miners : List MinerStat := [{ identity := "first", work := 100, carry := 800 },
    { identity := "second", work := 150, carry := 300 }, { identity := "unpayable", work := 750 }]
  let scriptFor := fun identity => if identity = "unpayable" then none else some ([] : Script)
  (compute miners 1000 1000 { minPayout := floor } 0 0 scriptFor,
    ({ minPayout := floor } : SplitParams).turnsOf miners 1000 1000 0 scriptFor)

/-- Where the second miner is over its floor without its balance, the first takes all the room there is. -/
theorem carry_held_back_steady :
    (cutThenFreed 100).2.map Turn.given = [some 750, some 0] ∧
      ∀ t ∈ (cutThenFreed 100).2, ¬ t.Whole → (cutThenFreed 100).1.poolSats = 0 ∨
        (cutThenFreed 100).1.poolSats < t.withheld := by
  refine ⟨by decide, ?_⟩
  refine ((carry_held_back _ 1000 1000 { minPayout := 100 } 0 0 _ (by decide) (by decide) (by decide)).2.2.2.mpr
    ?_).2
  exact .of_able (by decide) (by decide) nofun

/-- Where it is turned out it leaves 150 in the pool, and the fifty withheld from the first stay withheld. -/
theorem carry_withheld_with_room :
    (cutThenFreed 400).1.payees.map (fun payee => (payee.identity, payee.carry)) = [("first", 750)] ∧
      (cutThenFreed 400).1.poolSats = 150 ∧ (cutThenFreed 400).2.map Turn.withheld = [50, 300] ∧
      ¬ ∀ t ∈ (cutThenFreed 400).2, ¬ t.Whole → (cutThenFreed 400).1.poolSats = 0 ∨
        (cutThenFreed 400).1.poolSats < t.withheld := by
  decide

end Lazarus.Tides
