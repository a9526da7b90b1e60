import Lazarus.Lib.Fallible
import Lazarus.Wire.Cursor

/-! What reading gives at bytes of a known form, and what bytes were there where it succeeded. -/

namespace Lazarus.Wire.Cursor

open LittleEndian

/-- Some bytes are read, and some are to come. -/
def between (before after : Bytes) : Cursor := { buf := before ++ after, pos := before.length }

@[simp] theorem pos_between (before after : Bytes) : (between before after).pos = before.length := rfl

@[simp] theorem remaining_between (before after : Bytes) : (between before after).remaining = after.length := by
  simp [remaining, between]

/-- Wherever these bytes stand, reading at them gives this and moves past them. -/
def Gives (r : Read α) (data : Bytes) (x : α) : Prop :=
  ∀ before after, r (between before (data ++ after)) = .ok (x, between (before ++ data) after)

section Rules

variable {r : Read α} {f : α → Read β} {x : α} {y : β} {first second : Bytes}

/-- What follows a read goes on from behind its bytes. -/
theorem Gives.bind_eq (here : Gives r first x) (f : α → Read β) (before after : Bytes) :
    (r >>= f) (between before (first ++ after)) = f x (between (before ++ first) after) := by
  change Except.bind (r (between before (first ++ after))) (fun out => f out.1 out.2) = _
  rw [here before after]
  rfl

theorem Gives.pure (x : α) : Gives (Pure.pure x) [] x := by
  intro before after
  rw [List.append_nil]
  rfl

theorem Gives.bind (here : Gives r first x) (later : Gives (f x) second y) :
    Gives (r >>= f) (first ++ second) y := by
  intro before after
  rw [List.append_assoc, here.bind_eq, later, List.append_assoc]

theorem get_bind_eq (f : Cursor → Read β) (c : Cursor) : ((get : Read Cursor) >>= f) c = f c c := rfl

/-- A read whose result is only passed on. -/
theorem Gives.map (here : Gives r first x) (g : α → β) : Gives
    (r >>= fun x => Pure.pure (g x)) first (g x) := by
  have both := here.bind (f := fun x => Pure.pure (g x)) (Gives.pure (g x))
  rwa [List.append_nil] at both

theorem gives_take (data : Bytes) : Gives (take data.length) data data := by
  intro before after
  rw [take, if_neg (by simp)]
  simp [between]

theorem gives_number (width n : Nat) (g : Bytes → α) :
    Gives (take width >>= fun s => Pure.pure (g s)) (bytes width n) (g (bytes width n)) := by
  have plain := gives_take (bytes width n)
  rw [length_bytes] at plain
  exact plain.map g

theorem gives_u8 (b : UInt8) : Gives u8 [b] b := by
  have plain := (gives_take [b]).map fun s => UInt8.ofNat (value s)
  have same : UInt8.ofNat (value [b]) = b := by simp
  rwa [same] at plain

theorem gives_u16 {n : Nat} (fits : n < 256 ^ 2) : Gives u16 (bytes 2 n) (UInt16.ofNat n) := by
  have number := gives_number 2 n fun s => UInt16.ofNat (value s)
  rwa [value_bytes, Nat.mod_eq_of_lt fits] at number

theorem gives_u32 {n : Nat} (fits : n < 256 ^ 4) : Gives u32 (bytes 4 n) (UInt32.ofNat n) := by
  have number := gives_number 4 n fun s => UInt32.ofNat (value s)
  rwa [value_bytes, Nat.mod_eq_of_lt fits] at number

theorem gives_u64 {n : Nat} (fits : n < 256 ^ 8) : Gives u64 (bytes 8 n) (UInt64.ofNat n) := by
  have number := gives_number 8 n fun s => UInt64.ofNat (value s)
  rwa [value_bytes, Nat.mod_eq_of_lt fits] at number

end Rules

section Sound

/-- Wherever this read succeeds, it took off some bytes that stand to its result as said, and no more. -/
def Cuts (r : Read α) (shape : Bytes → α → Prop) : Prop :=
  ∀ before rest x c, r (between before rest) = .ok (x, c) →
    ∃ data after, rest = data ++ after ∧ c = between (before ++ data) after ∧ shape data x

variable {r : Read α} {f : α → Read β} {shape : Bytes → α → Prop}

theorem bind_ok {c c' : Cursor} {y : β} (through : (r >>= f) c = .ok (y, c')) :
    ∃ x mid, r c = .ok (x, mid) ∧ f x mid = .ok (y, c') := by
  change Except.bind (r c) (fun out => f out.1 out.2) = _ at through
  obtain ⟨⟨x, mid⟩, first, later⟩ := Fallible.bind_eq_ok.mp through
  exact ⟨x, mid, first, later⟩

/-- A read and one that goes on from its result take off the bytes of both. -/
theorem Cuts.bind {later : α → Bytes → β → Prop} (here : Cuts r shape) (next : ∀ x, Cuts (f x) (later x)) :
    Cuts (r >>= f) fun data y => ∃ first second x, data = first ++ second ∧
      shape first x ∧ later x second y := by
  intro before rest y c through
  obtain ⟨x, mid, head, tail⟩ := bind_ok through
  obtain ⟨first, after, rfl, rfl, shaped⟩ := here before rest x mid head
  obtain ⟨second, after, rfl, rfl, done⟩ := next x _ _ y c tail
  exact ⟨first ++ second, after, (List.append_assoc ..).symm, by rw [List.append_assoc],
    first, second, x, rfl, shaped, done⟩

theorem Cuts.pure (x : α) : Cuts (Pure.pure x) fun data y => data = [] ∧ y = x := by
  intro before rest y c through
  obtain ⟨rfl, rfl⟩ := Prod.mk.inj (Except.ok.inj through)
  exact ⟨[], rest, rfl, by rw [List.append_nil], rfl, rfl⟩

theorem Cuts.throw (e : Error) (shape : Bytes → α → Prop) : Cuts (throw e) shape :=
  fun _ _ _ _ through => nomatch through

theorem Cuts.ite {p : Prop} [Decidable p] {s : Read α} (yes : p → Cuts r shape) (no : ¬ p → Cuts s shape) :
    Cuts (if p then r else s) shape := by
  split
  · exact yes ‹p›
  · exact no ‹¬ p›

theorem Cuts.weaken {shape' : Bytes → α → Prop} (here : Cuts r shape)
    (more : ∀ data x, shape data x → shape' data x) : Cuts r shape' := by
  intro before rest x c through
  obtain ⟨data, after, split, moved, shaped⟩ := here before rest x c through
  exact ⟨data, after, split, moved, more data x shaped⟩

theorem cuts_take (n : Nat) : Cuts (take n) fun data x => x = data ∧ data.length = n := by
  intro before rest x c through
  unfold take at through
  split at through
  · cases through
  · rename_i enough
    rw [remaining_between, Nat.not_lt] at enough
    obtain ⟨rfl, rfl⟩ := Prod.mk.inj (Except.ok.inj through)
    have here : ((between before rest).buf.drop (between before rest).pos).take n = rest.take n := by
      simp [between]
    have size : (rest.take n).length = n := by rw [List.length_take, Nat.min_eq_left enough]
    exact ⟨rest.take n, rest.drop n, (List.take_append_drop n rest).symm, by simp [between, size], here, size⟩

/-- A number stands for the bytes it is read from. -/
theorem cuts_number (width : Nat) (g : Nat → α) :
    Cuts (take width >>= fun s => Pure.pure (g (value s))) fun data x =>
      ∃ n < 256 ^ width, data = bytes width n ∧ x = g n := by
  refine ((cuts_take width).bind fun s => Cuts.pure (g (value s))).weaken ?_
  rintro data x ⟨first, second, s, rfl, ⟨rfl, size⟩, rfl, rfl⟩
  refine ⟨value s, size ▸ value_lt s, ?_, rfl⟩
  rw [List.append_nil, ← size, bytes_value]

theorem cuts_u8 : Cuts u8 fun data x => data = [x] := by
  refine (cuts_number 1 UInt8.ofNat).weaken ?_
  rintro data x ⟨n, small, rfl, rfl⟩
  rfl

theorem cuts_u16 : Cuts u16 fun data x => data = bytes 2 x.toNat := by
  refine (cuts_number 2 UInt16.ofNat).weaken ?_
  rintro data x ⟨n, small, rfl, rfl⟩
  rw [UInt16.toNat_ofNat_of_lt' (by rw [UInt16.size]; omega)]

theorem cuts_u32 : Cuts u32 fun data x => data = bytes 4 x.toNat := by
  refine (cuts_number 4 UInt32.ofNat).weaken ?_
  rintro data x ⟨n, small, rfl, rfl⟩
  rw [UInt32.toNat_ofNat_of_lt' (by rw [UInt32.size]; omega)]

theorem cuts_u64 : Cuts u64 fun data x => data = bytes 8 x.toNat := by
  refine (cuts_number 8 UInt64.ofNat).weaken ?_
  rintro data x ⟨n, small, rfl, rfl⟩
  rw [UInt64.toNat_ofNat_of_lt' (by rw [UInt64.size]; omega)]

end Sound

end Lazarus.Wire.Cursor
