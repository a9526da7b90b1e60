import Lazarus.Prime.Run

/-! The window of the older Prime against the shares it was credited with. Rows of a minute each stand for the
shares that are in it, none counted twice, and what is trimmed is the oldest. -/

namespace Lazarus.Prime

open Machine
open Wire (Bytes Fixed)

/-- A share as it comes to the ledger, with what the window may hold then. -/
structure Share where
  now : Nat
  identity : String
  work : Nat
  key : Fixed 16
  windowTarget : Nat
deriving DecidableEq

/-- Where work is filed: its bucket and its identity. -/
abbrev Place := Nat × String

def Credit.place (c : Credit) : Place := (c.ts, c.identity)

def Share.place (s : Share) : Place := (bucketOf s.now, s.identity)

/-- A share credited, and the window trimmed to its target behind it. -/
def Ledger.enter (l : Ledger) (s : Share) : Ledger :=
  (l.credit s.now s.identity s.work s.key).1.trim (max s.windowTarget 1)

/-- The work of rows at a place. -/
def rowWork (place : Place) (credits : List Credit) : Nat :=
  Tally.tally place (credits.map fun c => (c.place, c.work))

/-- The work of shares at a place. -/
def shareWork (place : Place) (shares : List Share) : Nat :=
  Tally.tally place (shares.map fun s => (s.place, s.work))

/-- The work of shares no older than a bucket. -/
def workSince (bucket : Nat) (shares : List Share) : Nat :=
  ((shares.filter fun s => bucket ≤ bucketOf s.now).map Share.work).sum

/-- A share goes for want of room: at some time there came a share whose target was less than the work of those
accepted by then that are no older than the share that goes, itself among them. -/
def Outgrown (shares accepted : List Share) (s : Share) : Prop :=
  ∃ earlier last later, shares = earlier ++ last :: later ∧ s ∈ earlier ++ [last] ∧
    max last.windowTarget 1 < workSince (bucketOf s.now) (accepted.filter fun a => a ∈ earlier ++ [last])

private theorem workSince_le {first second : List Share} (among : first.Sublist second) (bucket : Nat) :
    workSince bucket first ≤ workSince bucket second :=
  ((among.filter _).map _).sum_le_sum fun _ _ => Nat.zero_le _

theorem Outgrown.more {shares accepted accepted' : List Share} {s : Share}
    (outgrown : Outgrown shares accepted s) (among : accepted.Sublist accepted') (next : Share) :
    Outgrown (shares ++ [next]) accepted' s := by
  obtain ⟨earlier, last, later, rfl, come, less⟩ := outgrown
  refine ⟨earlier, last, later ++ [next], by simp, come, less.trans_le ?_⟩
  exact workSince_le (among.filter _) _

private theorem bucketOf_mono {a b : Nat} (before : a ≤ b) : bucketOf a ≤ bucketOf b := by
  unfold bucketOf bucketSecs
  omega

private theorem forall_place (p : Nat → Prop) {credits : List Credit} (all : ∀ c ∈ credits, p c.ts)
    {place : Place} (there : place ∈ credits.map Credit.place) : p place.1 := by
  obtain ⟨c, member, rfl⟩ := List.mem_map.mp there
  exact all c member

section Filing

private theorem addToRow_place {bucket : Nat} {identity : String} {work : Nat} {credits : List Credit}
    (newest : credits.Pairwise fun a b => b.ts ≤ a.ts) (behind : ∀ c ∈ credits, c.ts ≤ bucket)
    (fits : (credits.map Credit.work).sum + work ≤ u64Max) :
    (∀ rows, addToRow bucket identity work credits = some rows →
      (rows.map Credit.place = credits.map Credit.place ∧ (bucket, identity) ∈ credits.map Credit.place) ∧
        ∀ place, rowWork place rows = rowWork place credits + if (bucket, identity) = place then work else 0) ∧
      (addToRow bucket identity work credits = none → (bucket, identity) ∉ credits.map Credit.place) := by
  induction credits with
  | nil => exact ⟨fun rows added => (by cases added), fun _ => by simp⟩
  | cons c older ih =>
    obtain ⟨next, newest⟩ := List.pairwise_cons.mp newest
    rw [List.map_cons, List.sum_cons] at fits
    obtain ⟨found, missing⟩ := ih newest (fun other member => behind other (by simp [member])) (by omega)
    have here := behind c (by simp)
    rw [addToRow]
    by_cases past : c.ts < bucket
    · rw [if_pos past]
      refine ⟨fun rows added => (by cases added), fun _ => ?_⟩
      intro filed
      obtain ⟨c', member, same⟩ := List.mem_map.mp filed
      have at' : c'.ts = bucket := congrArg Prod.fst same
      rcases List.mem_cons.mp member with rfl | later
      · omega
      · have before := next c' later
        omega
    rw [if_neg past]
    have now : c.ts = bucket := by omega
    by_cases own : c.identity = identity
    · rw [if_pos own]
      have placed : c.place = (bucket, identity) := by rw [Credit.place, now, own]
      refine ⟨?_, fun none => by cases none⟩
      intro rows added
      cases added
      have exact : satAdd c.work work = c.work + work := satAdd_eq (by omega)
      refine ⟨⟨rfl, by simp [placed]⟩, ?_⟩
      intro place
      simp only [rowWork, List.map_cons, Tally.tally_cons, exact]
      rw [show ({ c with work := c.work + work } : Credit).place = (bucket, identity) from placed, placed]
      by_cases same : (bucket, identity) = place
      · simp only [same, if_true]
        omega
      · simp only [same, if_false]
        omega
    · rw [if_neg own]
      have other : c.place ≠ (bucket, identity) := fun same => own (congrArg Prod.snd same)
      constructor
      · intro rows added
        obtain ⟨later, addedLater, rfl⟩ := Option.map_eq_some_iff.mp added
        obtain ⟨⟨places, member⟩, work⟩ := found later addedLater
        refine ⟨⟨by simp [places], by simp [member]⟩, ?_⟩
        intro place
        have rest := work place
        simp only [rowWork, List.map_cons, Tally.tally_cons] at rest ⊢
        omega
      · intro none
        have noneLater := missing (Option.map_eq_none_iff.mp none)
        simp only [List.map_cons, List.mem_cons, not_or]
        exact ⟨other.symm, noneLater⟩

private theorem rowWork_reverse (place : Place) (credits : List Credit) :
    rowWork place credits.reverse = rowWork place credits := by
  have turned :
    (credits.reverse.map fun c => (c.place, c.work)).Perm (credits.map fun c => (c.place, c.work)) :=
    (List.reverse_perm credits).map _
  exact (turned.map _).sum_eq

private theorem file_place {bucket : Nat} {identity : String} {work : Nat} {credits : List Credit}
    (oldest : credits.Pairwise fun a b => a.ts ≤ b.ts) (behind : ∀ c ∈ credits, c.ts ≤ bucket)
    (fits : (credits.map Credit.work).sum + work ≤ u64Max) :
    ((file bucket identity work credits).map Credit.place = credits.map Credit.place ∧
          (bucket, identity) ∈ credits.map Credit.place ∨
        (file bucket identity work credits).map Credit.place = credits.map Credit.place ++
          [(bucket, identity)] ∧ (bucket, identity) ∉ credits.map Credit.place) ∧
      ∀ place, rowWork place (file bucket identity work credits) =
        rowWork place credits + if (bucket, identity) = place then work else 0 := by
  have turned : (credits.reverse.map Credit.work).sum = (credits.map Credit.work).sum := by
    rw [List.map_reverse, List.sum_reverse]
  obtain ⟨found, missing⟩ := @addToRow_place bucket identity work credits.reverse
    (List.pairwise_reverse.mpr oldest) (fun c member => behind c (List.mem_reverse.mp member))
      (turned.symm ▸ fits)
  unfold file
  cases added : addToRow bucket identity work credits.reverse with
  | none =>
    have absent := missing added
    rw [List.map_reverse, List.mem_reverse] at absent
    refine ⟨.inr ⟨by simp [Credit.place], absent⟩, ?_⟩
    intro place
    simp [rowWork, Credit.place]
  | some rows =>
    obtain ⟨⟨places, present⟩, work⟩ := found rows added
    rw [List.map_reverse] at places present
    refine ⟨.inl ⟨?_, List.mem_reverse.mp present⟩, ?_⟩
    · simp only [List.map_reverse, places, List.reverse_reverse]
    · intro place
      simp only [rowWork_reverse, work place]

end Filing

section Spilling

private theorem spill_suffix (target : Nat) (credits : List Credit) :
    ∃ gone, credits = gone ++ (spill target credits (credits.map Credit.work).sum).1 ∧
      ∀ before c after, gone = before ++ c :: after → target <
        ((c :: after ++ (spill target credits (credits.map Credit.work).sum).1).map Credit.work).sum := by
  induction credits with
  | nil => exact ⟨[], rfl, by simp⟩
  | cons c rest ih =>
    rw [List.map_cons, List.sum_cons, spill]
    by_cases more : target < c.work + (rest.map Credit.work).sum
    · rw [if_pos more, Nat.add_sub_cancel_left]
      obtain ⟨gone, shape, excess⟩ := ih
      refine ⟨c :: gone, by rw [List.cons_append, ← shape], ?_⟩
      intro before c' after split
      cases before with
      | nil =>
        obtain ⟨rfl, rfl⟩ := List.cons.inj split
        rw [List.cons_append, ← shape, List.map_cons, List.sum_cons]
        exact more
      | cons first before =>
        exact excess before c' after (List.cons.inj split).2
    · rw [if_neg more]
      exact ⟨[], rfl, by simp⟩

private theorem spill_le (target : Nat) (credits : List Credit) :
    (spill target credits (credits.map Credit.work).sum).2 ≤ target := by
  induction credits with
  | nil => exact Nat.zero_le _
  | cons c rest ih =>
    rw [List.map_cons, List.sum_cons, spill]
    by_cases more : target < c.work + (rest.map Credit.work).sum
    · rw [if_pos more, Nat.add_sub_cancel_left]
      exact ih
    · rw [if_neg more]
      exact Nat.le_of_not_lt more

end Spilling

/-- A window against the shares taken into it so far: which were accepted, and which of those it still holds. -/
structure Windowed (now : Nat) (accepted kept : List Share) (l : Ledger) : Prop where
  among : kept.Sublist accepted
  oldest : l.credits.Pairwise fun a b => a.ts ≤ b.ts
  distinct : (l.credits.map Credit.place).Nodup
  summed : ∀ place, rowWork place l.credits = shareWork place kept
  placed : ∀ s ∈ kept, s.place ∈ l.credits.map Credit.place
  older : ∀ s ∈ accepted, s ∈ kept ∨ ∀ c ∈ l.credits, bucketOf s.now ≤ c.ts
  behind : ∀ c ∈ l.credits, c.ts ≤ bucketOf now
  past : ∀ s ∈ accepted, bucketOf s.now ≤ bucketOf now
  once : (accepted.map Share.key).Nodup
  seen : l.seen = (accepted.map Share.key).reverse
  shares : l.shares = accepted.length
  counted : l.Counted

private theorem windowed_empty (now : Nat) : Windowed now [] [] {} where
  among := List.Sublist.refl _
  oldest := List.Pairwise.nil
  distinct := List.nodup_nil
  summed _ := rfl
  placed s member := by cases member
  older s member := by cases member
  behind c member := by cases member
  past s member := by cases member
  once := List.nodup_nil
  seen := rfl
  shares := rfl
  counted := ⟨rfl, Nat.zero_le _⟩

theorem Windowed.later {now later : Nat} (after : now ≤ later) {accepted kept : List Share} {l : Ledger}
    (windowed : Windowed now accepted kept l) : Windowed later accepted kept l :=
  { windowed with
    behind := fun c member => Nat.le_trans (windowed.behind c member) (bucketOf_mono after)
    past := fun s member => Nat.le_trans (windowed.past s member) (bucketOf_mono after) }

private theorem shareWork_append (place : Place) (first second : List Share) :
    shareWork place (first ++ second) = shareWork place first + shareWork place second := by
  simp [shareWork]

private theorem rowWork_append (place : Place) (first second : List Credit) :
    rowWork place (first ++ second) = rowWork place first + rowWork place second := by
  simp [rowWork]

private theorem rowWork_absent {place : Place} {credits : List Credit}
    (absent : place ∉ credits.map Credit.place) : rowWork place credits = 0 := by
  apply Tally.tally_eq_zero
  intro entry member same
  obtain ⟨c, listed, rfl⟩ := List.mem_map.mp member
  exact absent (List.mem_map.mpr ⟨c, listed, same⟩)

private theorem pairwise_place {credits : List Credit} :
    credits.Pairwise (fun a b => a.ts ≤ b.ts) ↔ (credits.map Credit.place).Pairwise fun a b => a.1 ≤ b.1 := by
  rw [List.pairwise_map]
  rfl

/-- A new share taken into the window. -/
theorem Windowed.credit {accepted kept : List Share} {l : Ledger} {s : Share}
    (windowed : Windowed s.now accepted kept l) (new : s.key ∉ l.seen)
    (room : l.seen.length < seenCap) (fits : effort l.entries + s.work ≤ u64Max) :
    Windowed s.now (accepted ++ [s]) (kept ++ [s]) (l.credit s.now s.identity s.work s.key).1 := by
  have shape : (l.credit s.now s.identity s.work s.key).1 = { l with
      seen := s.key :: l.seen
      credits := file (bucketOf s.now) s.identity s.work l.credits
      total := satAdd l.total s.work
      shares := l.shares + 1
      acceptedWork := satAdd l.acceptedWork s.work } := by
    rw [Ledger.credit, if_neg new, if_neg (Nat.not_le.mpr room)]
  have counted := windowed.counted.credit fits s.now s.identity s.key
  rw [Ledger.effort_entries] at fits
  obtain ⟨places, work⟩ :=
    @file_place (bucketOf s.now) s.identity s.work l.credits windowed.oldest windowed.behind (by omega)
  have listed : ∀ place, place ∈ (file (bucketOf s.now) s.identity s.work l.credits).map Credit.place ↔
      place ∈ l.credits.map Credit.place ∨ place = s.place := by
    intro place
    rcases places with ⟨same, present⟩ | ⟨more, -⟩
    · rw [same]
      constructor
      · exact .inl
      · rintro (there | rfl)
        · exact there
        · exact present
    · rw [more, List.mem_append, List.mem_singleton]
      rfl
  have rowsBehind : ∀ c ∈ file (bucketOf s.now) s.identity s.work l.credits, c.ts ≤ bucketOf s.now := by
    intro c member
    rcases (listed c.place).mp (List.mem_map.mpr ⟨c, member, rfl⟩) with there | same
    · exact forall_place (fun ts => ts ≤ bucketOf s.now) windowed.behind there
    · exact Nat.le_of_eq (congrArg Prod.fst same)
  rw [shape] at counted ⊢
  refine ⟨windowed.among.append (List.Sublist.refl _), ?_, ?_, ?_, ?_, ?_, rowsBehind, ?_, ?_, ?_, ?_, counted⟩
  · show (file (bucketOf s.now) s.identity s.work l.credits).Pairwise fun a b => a.ts ≤ b.ts
    have oldest := pairwise_place.mp windowed.oldest
    rw [pairwise_place]
    rcases places with ⟨same, -⟩ | ⟨more, -⟩
    · rw [same]
      exact oldest
    · rw [more]
      apply List.pairwise_append.mpr
      refine ⟨oldest, List.pairwise_singleton _ _, ?_⟩
      intro place there last isLast
      rw [List.mem_singleton.mp isLast]
      exact forall_place (fun ts => ts ≤ bucketOf s.now) windowed.behind there
  · show ((file (bucketOf s.now) s.identity s.work l.credits).map Credit.place).Nodup
    rcases places with ⟨same, -⟩ | ⟨more, absent⟩
    · rw [same]
      exact windowed.distinct
    · rw [more]
      apply List.nodup_append.mpr
      refine ⟨windowed.distinct, List.nodup_singleton _, ?_⟩
      rintro place there last isLast rfl
      rw [List.mem_singleton.mp isLast] at there
      exact absent there
  · intro place
    show rowWork place (file (bucketOf s.now) s.identity s.work l.credits) = _
    rw [work place, windowed.summed place, shareWork_append]
    simp [shareWork, Share.place]
  · intro s' member
    apply (listed s'.place).mpr
    rcases List.mem_append.mp member with before | last
    · exact .inl (windowed.placed s' before)
    · rw [List.mem_singleton.mp last]
      exact .inr rfl
  · intro s' member
    rcases List.mem_append.mp member with before | last
    · rcases windowed.older s' before with held | gone
      · exact .inl (List.mem_append_left _ held)
      · refine .inr ?_
        intro c there
        rcases (listed c.place).mp (List.mem_map.mpr ⟨c, there, rfl⟩) with old | same
        · exact forall_place (fun ts => bucketOf s'.now ≤ ts) gone old
        · have stamp : c.ts = bucketOf s.now := congrArg Prod.fst same
          have less := windowed.past s' before
          omega
    · exact .inl (List.mem_append_right _ last)
  · intro s' member
    rcases List.mem_append.mp member with before | last
    · exact windowed.past s' before
    · rw [List.mem_singleton.mp last]
  · rw [List.map_append, List.map_cons, List.map_nil]
    apply List.nodup_append.mpr
    refine ⟨windowed.once, List.nodup_singleton _, ?_⟩
    rintro key there last isLast rfl
    rw [List.mem_singleton.mp isLast] at there
    exact new (by rw [windowed.seen]; exact List.mem_reverse.mpr there)
  · show s.key :: l.seen = _
    rw [windowed.seen]
    simp
  · show l.shares + 1 = _
    rw [windowed.shares]
    simp

private theorem shareWork_filter {place : Place} {gone : List Place} (left : place ∉ gone) (kept : List Share) :
    shareWork place (kept.filter fun s => decide (s.place ∉ gone)) = shareWork place kept := by
  induction kept with
  | nil => rfl
  | cons s others ih =>
    have apart : s.place ∈ gone → s.place ≠ place := fun within same => left (same ▸ within)
    unfold shareWork at ih ⊢
    by_cases within : s.place ∈ gone
    · rw [List.filter_cons_of_neg (by simpa using within), ih, List.map_cons, Tally.tally_cons,
        if_neg (apart within), Nat.zero_add]
    · rw [List.filter_cons_of_pos (by simpa using within), List.map_cons, List.map_cons, Tally.tally_cons,
        Tally.tally_cons, ih]

private theorem sum_of_tally {κ : Type} [DecidableEq κ] {first second : List (κ × Nat)}
    (same : ∀ key, Tally.tally key first = Tally.tally key second) :
    (first.map Prod.snd).sum = (second.map Prod.snd).sum := by
  let keys := ((first ++ second).map Prod.fst).dedup
  have covered : ∀ entry ∈ first ++ second, entry.1 ∈ keys :=
    fun entry member => List.mem_dedup.mpr (List.mem_map.mpr ⟨entry, member, rfl⟩)
  have one := Tally.sum_tally keys (List.nodup_dedup _) first fun entry member =>
    covered entry (List.mem_append_left _ member)
  have other := Tally.sum_tally keys (List.nodup_dedup _) second
    fun entry member => covered entry (List.mem_append_right _ member)
  rw [← one, ← other]
  simp only [same]

private theorem rows_since {credits : List Credit} {kept : List Share}
    (summed : ∀ place, rowWork place credits = shareWork place kept) (bucket : Nat) :
    ((credits.filter fun c => bucket ≤ c.ts).map Credit.work).sum = workSince bucket kept := by
  have same : ∀ place : Place,
      Tally.tally place
        ((credits.map fun c => (c.place, c.work)).filter fun entry => decide (bucket ≤ entry.1.1)) =
        Tally.tally place
          ((kept.map fun s => (s.place, s.work)).filter fun entry => decide (bucket ≤ entry.1.1)) := by
    intro place
    have whole := summed place
    unfold rowWork shareWork at whole
    rw [Tally.tally_filter_key place _ fun place => decide (bucket ≤ place.1),
      Tally.tally_filter_key place _ fun place => decide (bucket ≤ place.1), whole]
  have sums := sum_of_tally same
  rw [List.filter_map, List.filter_map, List.map_map, List.map_map] at sums
  exact sums

/-- Trimming lets go of the shares of the rows that go, and of no others, and of those only for want of room. -/
theorem Windowed.trim {now : Nat} {accepted kept : List Share} {l : Ledger}
    (windowed : Windowed now accepted kept l) (target : Nat) :
    ∃ kept', Windowed now accepted kept' (l.trim target) ∧
      ∀ s ∈ kept, s ∉ kept' → target < workSince (bucketOf s.now) kept := by
  by_cases none : target = 0
  · exact ⟨kept, by rw [Ledger.trim, if_pos none]; exact windowed, fun _ member out => absurd member out⟩
  obtain ⟨gone, shape, excess⟩ := spill_suffix target l.credits
  have since := rows_since windowed.summed
  rw [← windowed.counted.total] at shape excess
  have counted := windowed.counted.trim target
  have trimmed : l.trim target = { l with
      credits := (spill target l.credits l.total).1, total := (spill target l.credits l.total).2 } := by
    rw [Ledger.trim, if_neg none]
  rw [trimmed] at counted ⊢
  generalize (spill target l.credits l.total).2 = total at counted ⊢
  generalize (spill target l.credits l.total).1 = rest at shape excess counted ⊢
  have distinct := windowed.distinct
  have oldest := windowed.oldest
  rw [shape, List.map_append] at distinct
  rw [shape] at oldest
  obtain ⟨-, restDistinct, apart⟩ := List.nodup_append.mp distinct
  obtain ⟨-, restOldest, ordered⟩ := List.pairwise_append.mp oldest
  have within : ∀ c ∈ rest, c ∈ l.credits := fun c member => by rw [shape]; exact List.mem_append_right _ member
  refine ⟨kept.filter fun s => decide (s.place ∉ gone.map Credit.place), ?_, ?_⟩
  rotate_left
  · -- the row that goes is at the front of those no older than the share
    intro s member out
    have left : s.place ∈ gone.map Credit.place := by
      by_contra stays
      exact out (List.mem_filter.mpr ⟨member, decide_eq_true stays⟩)
    obtain ⟨c, listed, place⟩ := List.mem_map.mp left
    obtain ⟨before, after, split⟩ := List.append_of_mem listed
    have minute : c.ts = bucketOf s.now := congrArg Prod.fst place
    have behind : (c :: after ++ rest).filter (fun c => bucketOf s.now ≤ c.ts) = c :: after ++ rest := by
      apply List.filter_eq_self.mpr
      have sorted := windowed.oldest
      rw [shape, split, List.append_assoc, List.cons_append] at sorted
      have onward := (List.pairwise_cons.mp (List.pairwise_append.mp sorted).2.1).1
      intro other later
      rw [List.cons_append] at later
      rcases List.mem_cons.mp later with rfl | later
      · exact decide_eq_true minute.ge
      · exact decide_eq_true (minute.ge.trans (onward other later))
    have part : ((c :: after ++ rest).map Credit.work).sum ≤ workSince (bucketOf s.now) kept := by
      rw [← since, shape, split, List.append_assoc, List.filter_append, behind]
      exact ((List.sublist_append_right _ _).map _).sum_le_sum fun _ _ => Nat.zero_le _
    exact (excess before c after split).trans_le part
  refine ⟨List.filter_sublist.trans windowed.among, restOldest, restDistinct, ?_, ?_, ?_,
    fun c member => windowed.behind c (within c member), windowed.past,
    windowed.once, windowed.seen, windowed.shares,
    counted⟩
  · intro place
    have whole := windowed.summed place
    rw [shape, rowWork_append] at whole
    show rowWork place rest = _
    by_cases left : place ∈ gone.map Credit.place
    · have absent : place ∉ rest.map Credit.place := fun there => apart place left place there rfl
      rw [rowWork_absent absent]
      symm
      apply Tally.tally_eq_zero
      intro entry member same
      obtain ⟨s, held, rfl⟩ := List.mem_map.mp member
      have stays := of_decide_eq_true (List.mem_filter.mp held).2
      exact stays (by rw [show s.place = place from same]; exact left)
    · rw [rowWork_absent left, Nat.zero_add] at whole
      rw [whole]
      exact (shareWork_filter left kept).symm
  · intro s member
    obtain ⟨held, stays⟩ := List.mem_filter.mp member
    have there := windowed.placed s held
    rw [shape, List.map_append, List.mem_append] at there
    exact there.resolve_left (of_decide_eq_true stays)
  · intro s member
    rcases windowed.older s member with held | before
    · by_cases stays : s.place ∈ gone.map Credit.place
      · refine .inr ?_
        intro c later
        exact forall_place (fun ts => ts ≤ c.ts) (fun c' member' => ordered c' member' c later) stays
      · exact .inl (List.mem_filter.mpr ⟨held, decide_eq_true stays⟩)
    · exact .inr fun c later => before c (within c later)

private theorem trim_total_le {l : Ledger} (counted : l.Counted) {target : Nat} (some : target ≠ 0) :
    (l.trim target).total ≤ target := by
  rw [Ledger.trim, if_neg some]
  show (spill target l.credits l.total).2 ≤ target
  rw [counted.total]
  exact spill_le target l.credits

private theorem trim_total_le_total {l : Ledger} (counted : l.Counted)
    (target : Nat) : (l.trim target).total ≤ l.total := by
  unfold Ledger.trim
  split
  · exact Nat.le_refl _
  · show (spill target l.credits l.total).2 ≤ l.total
    rw [counted.total]
    exact (work_spill target l.credits).2

private theorem credit_total_le (l : Ledger) (now : Nat) (identity : String) (work : Nat) (key : Fixed 16) :
    (l.credit now identity work key).1.total ≤ l.total + work := by
  unfold Ledger.credit
  split
  · exact Nat.le_add_right _ _
  · exact satAdd_le

private theorem enter_carry (l : Ledger) (s : Share) : (l.enter s).carry = l.carry := by
  unfold Ledger.enter Ledger.trim Ledger.credit
  split <;> split <;> rfl

/-- What a run of shares has come to: those accepted, those kept, and why the others are not. -/
structure Taken (shares accepted kept : List Share) (l : Ledger) : Prop where
  among : accepted.Sublist shares
  covered : ∀ s ∈ shares, s.key ∈ accepted.map Share.key
  windowed : ∀ now, (∀ s ∈ shares, s.now ≤ now) → Windowed now accepted kept l
  outgrown : ∀ s ∈ accepted, s ∉ kept → Outgrown shares accepted s

/-- One more share, of the clock's last second, taken up and the window trimmed behind it. -/
theorem Taken.enter {shares accepted kept : List Share} {l : Ledger} {s : Share}
    (taken : Taken shares accepted kept l) (latest : ∀ before ∈ shares, before.now ≤ s.now)
    (few : shares.length < seenCap) (fits : effort l.entries + s.work ≤ u64Max) :
    (∃ accepted' kept', Taken (shares ++ [s]) accepted' kept' (l.enter s)) ∧
      (l.enter s).total ≤ l.total + s.work ∧ (l.enter s).total ≤ max s.windowTarget 1 := by
  have here := taken.windowed s.now latest
  have room : l.seen.length < seenCap := by
    have listed := taken.among.length_le
    rw [here.seen, List.length_reverse, List.length_map]
    omega
  obtain ⟨accepted', kept', more, among, covered, credited, outgrown⟩ :
    ∃ accepted' kept', accepted.Sublist accepted' ∧
      accepted'.Sublist (shares ++ [s]) ∧ (∀ s' ∈ shares ++ [s], s'.key ∈ accepted'.map Share.key) ∧
      Windowed s.now accepted' kept' (l.credit s.now s.identity s.work s.key).1 ∧
      ∀ x ∈ accepted', x ∉ kept' → Outgrown shares accepted x := by
    by_cases repeated : s.key ∈ l.seen
    · refine ⟨accepted, kept, List.Sublist.refl _, taken.among.trans (List.sublist_append_left _ _), ?_, ?_,
        taken.outgrown⟩
      · intro s' member
        rcases List.mem_append.mp member with before | last
        · exact taken.covered s' before
        · rw [List.mem_singleton.mp last]
          rw [here.seen] at repeated
          exact List.mem_reverse.mp repeated
      · rw [Ledger.credit, if_pos repeated]
        exact here
    · refine ⟨accepted ++ [s], kept ++ [s], List.sublist_append_left _ _,
        taken.among.append (List.Sublist.refl _), ?_, here.credit repeated room fits, ?_⟩
      · intro s' member
        rw [List.map_append, List.mem_append]
        rcases List.mem_append.mp member with before | last
        · exact .inl (taken.covered s' before)
        · exact .inr (List.mem_map.mpr ⟨s', last, rfl⟩)
      · intro x member out
        rw [List.mem_append, not_or] at out
        exact taken.outgrown x ((List.mem_append.mp member).resolve_right out.2) out.1
  obtain ⟨kept'', trimmed, letGo⟩ := credited.trim (max s.windowTarget 1)
  have total := credit_total_le l s.now s.identity s.work s.key
  have less := trim_total_le_total credited.counted (max s.windowTarget 1)
  refine ⟨⟨accepted', kept'', among, covered, fun now after => trimmed.later (after s (by simp)), ?_⟩,
    less.trans total, trim_total_le credited.counted (by omega)⟩
  intro x member out
  by_cases held : x ∈ kept'
  · refine ⟨shares, s, [], by simp, among.subset member, (letGo x held out).trans_le ?_⟩
    rw [List.filter_eq_self.mpr fun a listed => decide_eq_true (among.subset listed)]
    exact workSince_le credited.among _
  · exact (outgrown x member held).more more s

private theorem foldl_enter {shares : List Share} (steady : shares.Pairwise fun a b => a.now ≤ b.now)
    (few : shares.length ≤ seenCap) (fits : (shares.map Share.work).sum ≤ u64Max) :
    ∃ accepted kept, Taken shares accepted kept (shares.foldl Ledger.enter {}) ∧
      (shares.foldl Ledger.enter {}).carry = ∅ ∧
      (shares.foldl Ledger.enter {}).total ≤ (shares.map Share.work).sum ∧
      ∀ s ∈ shares.getLast?, (shares.foldl Ledger.enter {}).total ≤ max s.windowTarget 1 := by
  induction shares using List.reverseRecOn with
  | nil =>
    exact ⟨[], [], ⟨List.Sublist.refl _, nofun, fun now _ => windowed_empty now, nofun⟩,
      rfl, Nat.le_refl _, nofun⟩
  | append_singleton earlier s ih =>
    obtain ⟨steady, -, ordered⟩ := List.pairwise_append.mp steady
    rw [List.length_append, List.length_singleton] at few
    rw [List.map_append, List.sum_append, List.map_singleton, List.sum_singleton] at fits ⊢
    obtain ⟨accepted, kept, taken, carry, total, -⟩ := ih steady (by omega) (by omega)
    rw [List.foldl_append, List.foldl_cons, List.foldl_nil]
    generalize earlier.foldl Ledger.enter {} = l at taken carry total ⊢
    have latest : ∀ before ∈ earlier, before.now ≤ s.now :=
      fun before member => ordered before member s (by simp)
    have effortTotal : effort l.entries = l.total := by
      rw [Ledger.effort_entries, carry, (taken.windowed s.now latest).counted.total]
      rfl
    obtain ⟨⟨accepted', kept', taken'⟩, more, within⟩ := taken.enter latest (by omega) (by omega)
    refine ⟨accepted', kept', taken', (enter_carry l s).trans carry, more.trans (by omega), ?_⟩
    intro s' last
    rw [List.getLast?_concat, Option.mem_some_iff] at last
    subst last
    exact within

/-- Shares in the order of the clock, each credited and the window trimmed behind it: each key is accepted once;
the rows are one for a minute and an identity and hold exactly the work of the shares kept there; the total is
the work of the shares kept, within the last target; and a share is let go only for want of room, and is no
newer, by the minute, than any that is kept. -/
theorem window_holds_newest (shares : List Share) (steady : shares.Pairwise fun a b => a.now ≤ b.now)
    (few : shares.length ≤ seenCap) (fits : (shares.map Share.work).sum ≤ u64Max) :
    ∃ accepted kept : List Share,
      let l := shares.foldl Ledger.enter {}
      (accepted.Sublist shares ∧ (accepted.map Share.key).Nodup ∧
        (∀ s ∈ shares, s.key ∈ accepted.map Share.key) ∧ l.shares = accepted.length) ∧
      (kept.Sublist accepted ∧
        ∀ s ∈ accepted, s ∉ kept → Outgrown shares accepted s ∧ ∀ s' ∈ kept, bucketOf s.now ≤ bucketOf s'.now) ∧
      ((l.credits.map Credit.place).Nodup ∧ (∀ c ∈ l.credits, c.work = shareWork c.place kept) ∧
        ∀ s ∈ kept, s.place ∈ l.credits.map Credit.place) ∧
      l.total = (kept.map Share.work).sum ∧ ∀ s ∈ shares.getLast?, l.total ≤ max s.windowTarget 1 := by
  obtain ⟨accepted, kept, taken, -, -, last⟩ := foldl_enter steady few fits
  obtain ⟨now, after⟩ : ∃ now, ∀ s ∈ shares, s.now ≤ now :=
    ⟨(shares.map Share.now).sum, fun s member =>
      List.single_le_sum (fun _ _ => Nat.zero_le _) _ (List.mem_map.mpr ⟨s, member, rfl⟩)⟩
  have held := taken.windowed now after
  refine ⟨accepted, kept, ⟨taken.among, held.once, taken.covered, held.shares⟩, ⟨held.among, ?_⟩,
    ⟨held.distinct, ?_, held.placed⟩, ?_, last⟩
  · intro s member notKept
    refine ⟨taken.outgrown s member notKept, fun s' kept' => ?_⟩
    have before := (held.older s member).resolve_left notKept
    exact forall_place (fun ts => bucketOf s.now ≤ ts) before (held.placed s' kept')
  · intro c member
    rw [← held.summed c.place]
    symm
    apply Tally.tally_of_mem
    · rw [List.map_map]
      exact held.distinct
    · exact List.mem_map.mpr ⟨c, member, rfl⟩
  · rw [held.counted.total]
    have same := sum_of_tally held.summed
    rw [List.map_map, List.map_map] at same
    exact same

/-- Three shares: the second is sent again under another name, the third fills the window by itself. -/
def threeShares : List Share :=
  [⟨60, "miner", 5, .ofNat 16 1, 100⟩, ⟨61, "other", 5, .ofNat 16 1, 100⟩, ⟨130, "pool", 7, .ofNat 16 2, 8⟩]

theorem window_holds_newest_lastShare : ∃ kept : List Share, kept.Sublist threeShares ∧
    (kept.map Share.work).sum = 7 := by
  have total : (threeShares.foldl Ledger.enter {}).total = 7 := by decide +kernel
  obtain ⟨accepted, kept, ⟨among, -⟩, ⟨within, -⟩, -, same, -⟩ :=
    window_holds_newest threeShares (by decide) (by decide) (by decide)
  exact ⟨kept, within.trans among, same.symm.trans total⟩

end Lazarus.Prime
