/-!
# Lox.Field

Integers in byte fields, most significant byte first.

A value is written into a field as a signed 32-bit integer: what does not fit
in 32 bits is dropped, and a field wider than four bytes is filled with
copies of the sign.  A field may stick out of the bytes it is written to;
what lies outside is dropped.
-/

namespace Lox.Field

/-- The signed 32-bit integer that an integer wraps to. -/
def wrap (value : Int) : Int := value.bmod 0x100000000

/-- Set one byte, if it is there. -/
def setByte (bytes : List UInt8) (position : Int) (byte : Int) : List UInt8 :=
  match position with
  | .ofNat index => bytes.set index (UInt8.ofInt byte)
  | .negSucc _ => bytes

/-- Write the low bytes of a value into the first `size` bytes of a field,
from the last byte to the first. -/
def writeBytes (bytes : List UInt8) (offset : Int) : Nat → Int → List UInt8
  | 0, _ => bytes
  | size + 1, value =>
    writeBytes (setByte bytes (offset + size) (value % 256)) offset size (value / 256)

/-- Write a value into the field of `size` bytes at `offset`. -/
def write (bytes : List UInt8) (offset : Int) (size : Nat) (value : Int) : List UInt8 :=
  writeBytes bytes offset size (wrap value)

end Lox.Field
