import Mathlib

/-! JSON texts as bytes, written without blanks: numbers in decimal, strings with the short
escapes where they exist, arrays and objects with their items in order. -/

namespace QTrace.Lib

/-- The bytes of a text of the source. -/
def ascii (text : String) : List UInt8 := text.toUTF8.data.toList

/-- A JSON text. -/
abbrev Json := List UInt8

namespace Json

def null : Json := ascii "null"

def bool (value : Bool) : Json := if value then ascii "true" else ascii "false"

def natural (value : ℕ) : Json := (Nat.toDigits 10 value).map fun digit => digit.toNat.toUInt8

def integer (value : ℤ) : Json :=
  match value with
  | .ofNat n => natural n
  | .negSucc n => 45 :: natural (n + 1)

/-- A digit of a `\u` escape. -/
def hexDigit (value : UInt8) : UInt8 := if value < 10 then 48 + value else 87 + value

def escape (byte : UInt8) : List UInt8 :=
  if 93 ≤ byte then [byte]
  else if byte = 34 then [92, 34]
  else if byte = 92 then [92, 92]
  else if 32 ≤ byte then [byte]
  else if byte = 8 then [92, 98]
  else if byte = 9 then [92, 116]
  else if byte = 10 then [92, 110]
  else if byte = 12 then [92, 102]
  else if byte = 13 then [92, 114]
  else [92, 117, 48, 48, hexDigit (byte / 16), hexDigit (byte % 16)]

def string (bytes : List UInt8) : Json := 34 :: bytes.flatMap escape ++ [34]

def array (items : List Json) : Json := 91 :: [44].intercalate items ++ [93]

/-- An object; no name of a field has a character to escape. -/
def object (fields : List (String × Json)) : Json :=
  123 :: [44].intercalate (fields.map fun field => 34 :: ascii field.1 ++ 34 :: 58 :: field.2) ++ [125]

def option {α : Type} (value : α → Json) : Option α → Json
  | none => null
  | some a => value a

/-- A field that is left out where it is absent. -/
def presentField {α : Type} (name : String) (value : α → Json) : Option α → List (String × Json)
  | none => []
  | some a => [(name, value a)]

/-- A field that is left out where it has its default. -/
def nonDefaultField {α : Type} [DecidableEq α] (name : String) (value : α → Json) (default a : α) :
    List (String × Json) :=
  if a = default then [] else [(name, value a)]

/-- An alternative without data. -/
def variant (name : String) : Json := 34 :: ascii name ++ [34]

/-- An alternative with data, tagged by its name. -/
def tagged (name : String) (value : Json) : Json := object [(name, value)]

end Json

end QTrace.Lib
