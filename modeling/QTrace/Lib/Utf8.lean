import Mathlib

/-! Well-formed UTF-8: no overlong form, no surrogate, nothing past the last code point. -/

namespace QTrace.Lib

/-- Between two characters, or inside one: the range of the next byte and the number of
plain continuation bytes behind it. -/
inductive Utf8State
  | boundary
  | inside (low high : UInt8) (more : ℕ)
  deriving DecidableEq

def utf8Step : Utf8State → UInt8 → Option Utf8State
  | .boundary, byte =>
    if byte < 0x80 then some .boundary
    else if 0xC2 ≤ byte && byte ≤ 0xDF then some (.inside 0x80 0xBF 0)
    else if byte = 0xE0 then some (.inside 0xA0 0xBF 1)
    else if byte = 0xED then some (.inside 0x80 0x9F 1)
    else if 0xE1 ≤ byte && byte ≤ 0xEF then some (.inside 0x80 0xBF 1)
    else if byte = 0xF0 then some (.inside 0x90 0xBF 2)
    else if 0xF1 ≤ byte && byte ≤ 0xF3 then some (.inside 0x80 0xBF 2)
    else if byte = 0xF4 then some (.inside 0x80 0x8F 2)
    else none
  | .inside low high more, byte =>
    if low ≤ byte && byte ≤ high then
      match more with
      | 0 => some .boundary
      | more + 1 => some (.inside 0x80 0xBF more)
    else none

/-- Whether a byte string spells a text. -/
def utf8Valid (bytes : List UInt8) : Bool := bytes.foldlM utf8Step .boundary = some .boundary

example : utf8Valid [0x78, 0xC3, 0xA9, 0xF0, 0x9F, 0x98, 0x80] = true := by decide

end QTrace.Lib
