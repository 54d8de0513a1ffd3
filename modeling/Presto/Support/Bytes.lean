import Presto.Support.MachineInteger

/-!
# Byte strings as numbers

Little-endian and big-endian values of byte strings.
-/

namespace Presto.Support

/-- The value of bytes, least significant first. -/
def decodeLE : List UInt8 → ℕ
  | [] => 0
  | byte :: rest => byte.toNat + 256 * decodeLE rest

/-- The value of bytes, most significant first. -/
def decodeBE (bytes : List UInt8) : ℕ :=
  decodeLE bytes.reverse

/-- The low bytes of a number, least significant first. -/
def encodeLE : (width value : ℕ) → List UInt8
  | 0, _ => []
  | width + 1, value => UInt8.ofNat value :: encodeLE width (value / 256)

end Presto.Support
