import Lazarus.Wire.Cursor

/-! The cursor with its slices checked, so that a read out of range shows: what a read does to the bytes it
was written for, that it never leaves the buffer, and what it can return. -/

namespace Lazarus.Wire

/-- How a read ends without a result: in an error, or by a slice or a subtraction out of range. -/
inductive Fault where
  | error (e : Error)
  | panic
deriving DecidableEq

abbrev Parse := StateT Cursor (Except Fault)

namespace Parse

def fail (e : Error) : Parse α := fun _ => .error (.error e)

def panic : Parse α := fun _ => .error .panic

def remaining : Parse Nat := fun c => if c.pos ≤ c.buf.length then
  .ok (c.buf.length - c.pos, c) else .error .panic

def slice (start stop : Nat) : Parse Bytes := fun c =>
  if start ≤ stop ∧ stop ≤ c.buf.length then .ok ((c.buf.drop start).take (stop - start), c) else .error .panic

def take (n : Nat) : Parse Bytes := do
  if (← remaining) < n then fail .short
  else
    let pos := (← get).pos
    let s ← slice pos (pos + n)
    modify fun c => { c with pos := pos + n }
    return s

def u8 : Parse UInt8 := do
  match ← take 1 with
  | b :: _ => return b
  | [] => panic

def u16 : Parse UInt16 := return UInt16.ofNat (LittleEndian.value (← take 2))

def u32 : Parse UInt32 := return UInt32.ofNat (LittleEndian.value (← take 4))

def u64 : Parse UInt64 := return UInt64.ofNat (LittleEndian.value (← take 8))

def array (n : Nat) : Parse (Fixed n) := do
  let s ← take n
  if size : s.length = n then return ⟨s, size⟩ else panic

/-- A string that ends with a zero byte among its first `max + 1`. The zero is taken too. -/
def cstr (max : Nat) : Parse Bytes := do
  let c ← get
  let rest ← slice c.pos c.buf.length
  match (rest.take (max + 1)).findIdx? (· == 0) with
  | none => fail (.malformed "unterminated string")
  | some stop =>
    let s ← slice c.pos (c.pos + stop)
    modify fun c => { c with pos := c.pos + stop + 1 }
    return s

/-- The same read so many times over. -/
def many (r : Parse α) : Nat → Parse (List α)
  | 0 => return []
  | n + 1 => do
    let x ← r
    return x :: (← many r n)

section Bind

variable {r : Parse α} {f : α → Parse β} {c c' : Cursor} {y : β}

theorem bind_ok (through : (r >>= f) c = .ok (y, c')) : ∃ x mid, r c = .ok
    (x, mid) ∧ f x mid = .ok (y, c') := by
  change Except.bind (r c) (fun out => f out.1 out.2) = _ at through
  cases first : r c with
  | error fault =>
    rw [first] at through
    cases through
  | ok out =>
    rw [first] at through
    exact ⟨out.1, out.2, rfl, through⟩

theorem bind_of_ok {x : α} {mid : Cursor} (first : r c = .ok (x, mid)) : (r >>= f) c = f x mid := by
  change Except.bind (r c) (fun out => f out.1 out.2) = _
  rw [first]
  rfl

theorem bind_of_error {fault : Fault} (first : r c = .error fault) : (r >>= f) c = .error fault := by
  change Except.bind (r c) (fun out => f out.1 out.2) = _
  rw [first]
  rfl

end Bind

/-- From inside the buffer a plain read either is short or moves on by what it takes. -/
theorem take_eq (n : Nat) {c : Cursor} (inside : c.pos ≤ c.buf.length) :
    take n c = if c.buf.length - c.pos < n then .error (.error .short)
      else .ok ((c.buf.drop c.pos).take n, { c with pos := c.pos + n }) := by
  have left : remaining c = .ok (c.buf.length - c.pos, c) := if_pos inside
  unfold take
  rw [bind_of_ok left]
  split
  · rfl
  · rename_i enough
    have cut : slice c.pos (c.pos + n) c = .ok ((c.buf.drop c.pos).take n, c) := by
      rw [slice, if_pos ⟨by omega, by omega⟩, Nat.add_sub_cancel_left]
    have here : (get : Parse Cursor) c = .ok (c, c) := rfl
    rw [bind_of_ok here]
    rw [bind_of_ok cut]
    rfl

section Reads

/-- Wherever these bytes stand, reading at them gives this and moves past them. -/
def Reads (r : Parse α) (data : Bytes) (x : α) : Prop :=
  ∀ before after, r ⟨before ++ data ++ after, before.length⟩ =
    .ok (x, ⟨before ++ data ++ after, (before ++ data).length⟩)

variable {r : Parse α} {f : α → Parse β} {x : α} {y : β} {first second : Bytes}

theorem Reads.pure (x : α) : Reads (Pure.pure x) [] x := by
  intro before after
  rw [List.append_nil]
  rfl

theorem Reads.bind (here : Reads r first x) (later : Reads (f x) second y) :
    Reads (r >>= f) (first ++ second) y := by
  intro before after
  have one := here before (second ++ after)
  have two := later (before ++ first) after
  simp only [List.append_assoc] at one two ⊢
  rw [bind_of_ok one, two]

/-- A read whose result is only passed on. -/
theorem Reads.map (here : Reads r first x) (g : α → β) : Reads
    (r >>= fun x => Pure.pure (g x)) first (g x) := by
  have both := here.bind (f := fun x => Pure.pure (g x)) (Reads.pure (g x))
  rwa [List.append_nil] at both

theorem reads_take (data : Bytes) : Reads (take data.length) data data := by
  intro before after
  rw [take_eq]
  · simp
  · simp

theorem reads_u8 (b : UInt8) : Reads u8 [b] b := by
  have both :=
    (reads_take [b]).bind (f := fun s => match s with | b :: _ => return b | [] => panic) (Reads.pure b)
  exact both

theorem reads_number (width n : Nat) (g : Bytes → α) :
    Reads (take width >>= fun s => Pure.pure (g s)) (LittleEndian.bytes width n)
      (g (LittleEndian.bytes width n)) := by
  have plain := reads_take (LittleEndian.bytes width n)
  rw [LittleEndian.length_bytes] at plain
  exact plain.map g

theorem reads_u16 (v : UInt16) : Reads u16 (LittleEndian.bytes 2 v.toNat) v := by
  have number := reads_number 2 v.toNat fun s => UInt16.ofNat (LittleEndian.value s)
  rwa [LittleEndian.value_bytes, Nat.mod_eq_of_lt (show v.toNat < 256 ^ 2 from v.toNat_lt),
    UInt16.ofNat_toNat] at number

theorem reads_u32 (v : UInt32) : Reads u32 (LittleEndian.bytes 4 v.toNat) v := by
  have number := reads_number 4 v.toNat fun s => UInt32.ofNat (LittleEndian.value s)
  rwa [LittleEndian.value_bytes, Nat.mod_eq_of_lt (show v.toNat < 256 ^ 4 from v.toNat_lt),
    UInt32.ofNat_toNat] at number

theorem reads_u64 (v : UInt64) : Reads u64 (LittleEndian.bytes 8 v.toNat) v := by
  have number := reads_number 8 v.toNat fun s => UInt64.ofNat (LittleEndian.value s)
  rwa [LittleEndian.value_bytes, Nat.mod_eq_of_lt (show v.toNat < 256 ^ 8 from v.toNat_lt),
    UInt64.ofNat_toNat] at number

theorem reads_array (a : Fixed n) : Reads (array n) a.val a := by
  obtain ⟨data, rfl⟩ := a
  have both : Reads (array data.length) (data ++ []) ⟨data, rfl⟩ :=
    (reads_take data).bind (by rw [dif_pos rfl]; exact Reads.pure _)
  rwa [List.append_nil] at both

theorem reads_many {encode : α → Bytes} {xs : List α} (each : ∀ x ∈ xs, Reads r (encode x) x) :
    Reads (many r xs.length) (xs.flatMap encode) xs := by
  induction xs with
  | nil => exact Reads.pure []
  | cons x xs ih =>
    rw [List.flatMap_cons]
    exact (each x (by simp)).bind ((ih fun y member => each y (by simp [member])).map (x :: ·))

/-- Where a string without zeros ends. -/
theorem findIdx?_zero {name : Bytes} (plain : 0 ∉ name) (rest : Bytes)
    {limit : Nat} (short : name.length < limit) :
    ((name ++ 0 :: rest).take limit).findIdx? (· == 0) = some name.length := by
  induction name generalizing limit with
  | nil =>
    cases limit with
    | zero => cases short
    | succ limit => rfl
  | cons b name ih =>
    cases limit with
    | zero => cases short
    | succ limit =>
      rw [List.mem_cons, not_or] at plain
      rw [List.cons_append, List.take_succ_cons, List.findIdx?_cons, ih plain.2 (by simpa using short)]
      simp [Ne.symm plain.1]

theorem reads_cstr {name : Bytes} {limit : Nat} (plain : 0 ∉ name) (short : name.length ≤ limit) :
    Reads (cstr limit) (name ++ [0]) name := by
  intro before after
  have here : (get : Parse Cursor) ⟨before ++ (name ++ [0]) ++ after, before.length⟩ =
      .ok (⟨before ++ (name ++ [0]) ++ after, before.length⟩,
        ⟨before ++ (name ++ [0]) ++ after, before.length⟩) := rfl
  have rest : slice before.length (before ++ (name ++ [0]) ++ after).length
    ⟨before ++ (name ++ [0]) ++ after, before.length⟩ =
      .ok (name ++ 0 :: after, ⟨before ++ (name ++ [0]) ++ after, before.length⟩) := by
    rw [slice, if_pos ⟨by simp, Nat.le_refl _⟩]
    simp
  have cut :
    slice before.length (before.length + name.length) ⟨before ++ (name ++ [0]) ++ after, before.length⟩ =
      .ok (name, ⟨before ++ (name ++ [0]) ++ after, before.length⟩) := by
    rw [slice, if_pos ⟨by simp, by simp⟩]
    simp
  unfold cstr
  rw [bind_of_ok here, bind_of_ok rest, findIdx?_zero plain after (Nat.lt_succ_of_le short)]
  dsimp only
  rw [bind_of_ok cut]
  change Except.ok (name, _) = _
  simp [Nat.add_assoc]

end Reads

section Safe

/-- Nothing is out of range, and the cursor stays inside its buffer. -/
def SafeAt (c : Cursor) (r : Parse α) : Prop :=
  r c ≠ .error .panic ∧ ∀ x c', r c = .ok (x, c') → c'.buf = c.buf ∧ c.pos ≤ c'.pos ∧ c'.pos ≤ c'.buf.length

/-- The read is safe from anywhere inside a buffer of at most this length. -/
def Safe (limit : Nat) (r : Parse α) : Prop := ∀ c, c.buf.length ≤ limit → c.pos ≤ c.buf.length → SafeAt c r

variable {limit : Nat} {r : Parse α} {f : α → Parse β}

theorem SafeAt.bind {c : Cursor} (first : SafeAt c r)
    (later : ∀ x mid, r c = .ok (x, mid) → mid.buf = c.buf → c.pos ≤ mid.pos →
      mid.pos ≤ mid.buf.length → SafeAt mid (f x)) :
    SafeAt c (r >>= f) := by
  obtain ⟨quiet, within⟩ := first
  cases here : r c with
  | error fault =>
    rw [SafeAt, bind_of_error here]
    refine ⟨?_, nofun⟩
    intro stop
    cases stop
    exact quiet here
  | ok out =>
    obtain ⟨x, mid⟩ := out
    obtain ⟨same, forth, inside⟩ := within x mid here
    obtain ⟨quiet', within'⟩ := later x mid here same forth inside
    rw [SafeAt, bind_of_ok here]
    refine ⟨quiet', ?_⟩
    intro y c' through
    obtain ⟨same', forth', inside'⟩ := within' y c' through
    exact ⟨same'.trans same, Nat.le_trans forth forth', inside'⟩

theorem Safe.pure (x : α) : Safe limit (Pure.pure x) := by
  intro c _ inside
  refine ⟨nofun, ?_⟩
  intro y c' same
  cases same
  exact ⟨rfl, Nat.le_refl _, inside⟩

theorem Safe.fail (e : Error) : Safe limit (fail e : Parse α) :=
  fun _ _ _ => ⟨nofun, nofun⟩

/-- What follows a read may count on what is known of its result. -/
theorem Safe.bind_known {known : α → Prop} (first : Safe limit r)
    (result : ∀ c x c', r c = .ok (x, c') → known x)
    (later : ∀ x, known x → Safe limit (f x)) : Safe limit (r >>= f) := by
  intro c small inside
  apply (first c small inside).bind
  intro x mid here same _ inside'
  exact later x (result c x mid here) mid (by rw [same]; exact small) inside'

theorem Safe.bind (first : Safe limit r) (later : ∀ x, Safe limit (f x)) : Safe limit (r >>= f) :=
  first.bind_known (fun _ _ _ _ => trivial) fun x _ => later x

theorem Safe.ite {p : Prop} [Decidable p] {s : Parse α} (yes : Safe limit r) (no : Safe limit s) :
    Safe limit (if p then r else s) := by
  split
  · exact yes
  · exact no

theorem safe_take (n : Nat) : Safe limit (take n) := by
  intro c _ inside
  rw [SafeAt, take_eq n inside]
  split
  · exact ⟨nofun, nofun⟩
  · rename_i enough
    refine ⟨nofun, ?_⟩
    intro x c' through
    cases through
    refine ⟨rfl, Nat.le_add_right _ _, ?_⟩
    change c.pos + n ≤ c.buf.length
    omega

theorem take_ok {n : Nat} {c c' : Cursor} {s : Bytes} (through : take n c = .ok (s, c')) :
    s.length = n ∧ c' = { c with pos := c.pos + n } := by
  by_cases inside : c.pos ≤ c.buf.length
  · rw [take_eq n inside] at through
    split at through
    · cases through
    · cases through
      refine ⟨?_, rfl⟩
      rw [List.length_take, List.length_drop]
      omega
  · have stop : remaining c = .error .panic := if_neg inside
    rw [take, bind_of_error stop] at through
    cases through

theorem Safe.take {n : Nat} {g : Bytes → Parse α} (later : ∀ s : Bytes, s.length = n → Safe limit (g s)) :
    Safe limit (take n >>= g) :=
  (safe_take n).bind_known (fun _ _ _ through => (take_ok through).1) later

theorem u8_ok {c c' : Cursor} {b : UInt8} (through : u8 c = .ok (b, c')) :
    c' = { c with pos := c.pos + 1 } := by
  obtain ⟨s, mid, taken, rest⟩ := bind_ok through
  cases s with
  | nil => cases rest
  | cons b' s =>
    cases rest
    exact (take_ok taken).2

theorem u32_ok {c c' : Cursor} {v : UInt32} (through : u32 c = .ok (v, c')) :
    c' = { c with pos := c.pos + 4 } := by
  obtain ⟨s, mid, taken, rest⟩ := bind_ok through
  cases rest
  exact (take_ok taken).2

theorem array_ok {n : Nat} {c c' : Cursor} {a : Fixed n} (through : array n c = .ok (a, c')) :
    c' = { c with pos := c.pos + n } := by
  obtain ⟨s, mid, taken, rest⟩ := bind_ok through
  split at rest
  · cases rest
    exact (take_ok taken).2
  · cases rest

theorem safe_u8 : Safe limit u8 := by
  apply Safe.take
  intro s size
  cases s with
  | nil => cases size
  | cons b rest => exact Safe.pure b

theorem safe_u16 : Safe limit u16 := (safe_take 2).bind fun _ => Safe.pure _

theorem safe_u32 : Safe limit u32 := (safe_take 4).bind fun _ => Safe.pure _

theorem safe_u64 : Safe limit u64 := (safe_take 8).bind fun _ => Safe.pure _

theorem safe_array (n : Nat) : Safe limit (array n) := by
  apply Safe.take
  intro s size
  rw [dif_pos size]
  exact Safe.pure _

theorem safe_many (safe : Safe limit r) (n : Nat) : Safe limit (many r n) := by
  induction n with
  | zero => exact Safe.pure []
  | succ n ih => exact safe.bind fun x => ih.bind fun xs => Safe.pure (x :: xs)

/-- The byte a search for a zero stops at, and those before it. -/
theorem findIdx?_zero_some {data : Bytes} {limit stop : Nat}
    (found : (data.take limit).findIdx? (· == 0) = some stop) :
    data.take stop = data.takeWhile (· ≠ 0) ∧ stop < limit ∧ stop < data.length := by
  induction data generalizing limit stop with
  | nil => simp at found
  | cons b data ih =>
    cases limit with
    | zero => simp at found
    | succ limit =>
      rw [List.take_succ_cons, List.findIdx?_cons] at found
      by_cases zero : b = 0
      · have here : stop = 0 := by simpa [zero, eq_comm] using found
        simp [here, zero]
      · have apart : (b == 0) = false := by simpa using zero
        rw [apart, if_neg Bool.false_ne_true] at found
        obtain ⟨later, seen, rfl⟩ := Option.map_eq_some_iff.mp found
        obtain ⟨same, early, short⟩ := ih seen
        refine ⟨?_, by omega, by simpa using short⟩
        rw [List.take_succ_cons, same, List.takeWhile_cons, if_pos (by simpa using zero)]

/-- What a string's read makes of its buffer, when it ends. -/
theorem cstr_eq (most : Nat) {c : Cursor} (inside : c.pos ≤ c.buf.length) :
    cstr most c = .error (.error (.malformed "unterminated string")) ∨
      ∃ stop, stop ≤ most ∧ c.pos + stop < c.buf.length ∧
        cstr most c = .ok ((c.buf.drop c.pos).takeWhile (· ≠ 0), { c with pos := c.pos + stop + 1 }) ∧
        ((c.buf.drop c.pos).takeWhile (· ≠ 0)).length = stop := by
  have here : (get : Parse Cursor) c = .ok (c, c) := rfl
  have rest : slice c.pos c.buf.length c = .ok (c.buf.drop c.pos, c) := by
    rw [slice, if_pos ⟨inside, Nat.le_refl _⟩, ← List.length_drop, List.take_length]
  unfold cstr
  rw [bind_of_ok here, bind_of_ok rest]
  cases found : ((c.buf.drop c.pos).take (most + 1)).findIdx? (· == 0) with
  | none => exact .inl rfl
  | some stop =>
    obtain ⟨same, early, short⟩ := findIdx?_zero_some found
    rw [List.length_drop] at short
    have cut : slice c.pos (c.pos + stop) c = .ok ((c.buf.drop c.pos).takeWhile (· ≠ 0), c) := by
      rw [slice, if_pos ⟨Nat.le_add_right _ _, by omega⟩, Nat.add_sub_cancel_left, same]
    refine .inr ⟨stop, by omega, by omega, ?_, ?_⟩
    · dsimp only
      rw [bind_of_ok cut]
      rfl
    · rw [← same, List.length_take, List.length_drop]
      omega

theorem cstr_ok {most : Nat} {c c' : Cursor} {s : Bytes} (through : cstr most c = .ok (s, c')) :
    s = (c.buf.drop c.pos).takeWhile (· ≠ 0) ∧ s.length ≤ most := by
  by_cases inside : c.pos ≤ c.buf.length
  · rcases cstr_eq most inside with unended | ⟨stop, early, _, ended, size⟩
    · rw [unended] at through
      cases through
    · rw [ended] at through
      cases through
      exact ⟨rfl, by omega⟩
  · have here : (get : Parse Cursor) c = .ok (c, c) := rfl
    have stop : slice c.pos c.buf.length c = .error .panic := if_neg fun both => inside both.1
    rw [cstr, bind_of_ok here, bind_of_error stop] at through
    cases through

theorem safe_cstr (most : Nat) : Safe limit (cstr most) := by
  intro c _ inside
  rcases cstr_eq most inside with unended | ⟨stop, _, within, ended, _⟩
  · rw [SafeAt, unended]
    exact ⟨nofun, nofun⟩
  · rw [SafeAt, ended]
    refine ⟨nofun, ?_⟩
    intro x c' through
    cases through
    refine ⟨rfl, ?_, ?_⟩
    · change c.pos ≤ c.pos + stop + 1
      omega
    · change c.pos + stop + 1 ≤ c.buf.length
      omega

end Safe

section Ensures

/-- Whatever the read returns has this property. -/
def Ensures (r : Parse α) (post : α → Prop) : Prop := ∀ c x c', r c = .ok (x, c') → post x

variable {r : Parse α} {f : α → Parse β} {post : β → Prop}

theorem Ensures.pure {x : α} {post : α → Prop} (holds : post x) : Ensures (Pure.pure x) post := by
  intro c y c' same
  cases same
  exact holds

theorem Ensures.fail (e : Error) (post : α → Prop) : Ensures (fail e) post := nofun

theorem Ensures.bind {mid : α → Prop} (first : Ensures r mid) (later : ∀ x, mid x → Ensures (f x) post) :
    Ensures (r >>= f) post := by
  intro c y c' through
  obtain ⟨x, between, here, there⟩ := bind_ok through
  exact later x (first c x between here) between y c' there

/-- A read of which nothing need be known. -/
theorem Ensures.skip (later : ∀ x, Ensures (f x) post) : Ensures (r >>= f) post :=
  Ensures.bind (fun _ _ _ _ => True.intro) fun x _ => later x

theorem ensures_take (n : Nat) : Ensures (take n) (·.length = n) := fun _ _ _ through => (take_ok through).1

theorem ensures_many (r : Parse α) (n : Nat) : Ensures (many r n) (·.length = n) := by
  induction n with
  | zero => exact Ensures.pure rfl
  | succ n ih =>
    exact Ensures.skip fun x => ih.bind fun xs size => Ensures.pure (by rw [List.length_cons, size])

end Ensures

end Parse

end Lazarus.Wire
