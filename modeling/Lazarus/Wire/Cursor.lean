import Lazarus.Lib.LittleEndian

/-! Byte strings as they come off the wire, and the cursor that reads them. -/

namespace Lazarus.Wire

abbrev Bytes := List UInt8

/-- An array of bytes of one length. -/
abbrev Fixed (n : Nat) := { bytes : Bytes // bytes.length = n }

def Fixed.zero (n : Nat) : Fixed n := ⟨List.replicate n 0, List.length_replicate⟩

/-- The little-endian bytes of a number. -/
def Fixed.ofNat (n value : Nat) : Fixed n := ⟨LittleEndian.bytes n value, LittleEndian.length_bytes n value⟩

inductive Error where
  | short
  | malformed (what : String)
  | tooLong
  | decrypt
deriving DecidableEq

structure Cursor where
  buf : Bytes
  pos : Nat := 0

/-- A read moves the cursor, or fails. -/
abbrev Read := StateT Cursor (Except Error)

namespace Cursor

def remaining (c : Cursor) : Nat := c.buf.length - c.pos

def take (n : Nat) : Read Bytes := fun c =>
  if c.remaining < n then .error .short
  else .ok ((c.buf.drop c.pos).take n, { c with pos := c.pos + n })

def u8 : Read UInt8 := return UInt8.ofNat (LittleEndian.value (← take 1))

def u16 : Read UInt16 := return UInt16.ofNat (LittleEndian.value (← take 2))

def u32 : Read UInt32 := return UInt32.ofNat (LittleEndian.value (← take 4))

def u64 : Read UInt64 := return UInt64.ofNat (LittleEndian.value (← take 8))

end Cursor

end Lazarus.Wire
