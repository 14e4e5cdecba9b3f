import TripleRules.Text.Extending

/-!
# Quoted text and digits

A name that is shown in a message stands between double quotes. Quotes, backslashes and the common control characters are
escaped by a backslash; a character that a reader cannot see on its own is written by its code, in digits. The readers of the
project read numbers and codes back from digits; the value of digits grows from the left (`numeral_append_singleton`).
-/

namespace TripleRules.Text

/-! ## Digits -/

/-- Whether a character is a hexadecimal digit, of either case. -/
def isHexDigit (c : Char) : Bool := c.isDigit || ('a' ≤ c && c ≤ 'f') || ('A' ≤ c && c ≤ 'F')

/-- The value of a digit of a base up to sixteen. -/
def digitValue (c : Char) : Nat :=
  if c.isDigit then c.toNat - '0'.toNat
  else if c.isLower then c.toNat - 'a'.toNat + 10
  else c.toNat - 'A'.toNat + 10

/-- The number that digits of a base stand for, the most significant first. -/
def numeral (base : Nat) (ds : List Char) : Nat := ds.foldl (fun v d => base * v + digitValue d) 0

@[simp] theorem numeral_nil (base : Nat) : numeral base [] = 0 := rfl

/-- A further digit multiplies by the base and adds its own value. -/
theorem numeral_append_singleton (base : Nat) (ds : List Char) (d : Char) :
    numeral base (ds ++ [d]) = base * numeral base ds + digitValue d := by
  rw [numeral, List.foldl_append, List.foldl_cons, List.foldl_nil, numeral]

/-! ## Quoted text -/

/-- The digits of a code in lower-case hexadecimal, without leading zeros. -/
def hexDigits (code : Nat) : List Char := Nat.toDigits 16 code

/-- Whether a character is not seen on its own: it is unprintable, a display ignores it, or it is a mark on the character
before it. -/
def isUnseen (c : Char) : Bool := isUnprintable c || isIgnorable c || isExtending c

/-- The characters that stand for a character of a quoted text. -/
def quoteChar (c : Char) : List Char :=
  match c with
  | '\x00' => ['\\', '0']
  | '\t' => ['\\', 't']
  | '\r' => ['\\', 'r']
  | '\n' => ['\\', 'n']
  | '\\' => ['\\', '\\']
  | '"' => ['\\', '"']
  | c => if isUnseen c then ['\\', 'u', '\x7b'] ++ hexDigits c.toNat ++ ['\x7d'] else [c]

/-- A text between double quotes. -/
def quoted (s : String) : String := "\"" ++ String.ofList (s.toList.flatMap quoteChar) ++ "\""

/-- A list of quoted texts between brackets. -/
def quotedList (ss : List String) : String := "[" ++ ", ".intercalate (ss.map quoted) ++ "]"

end TripleRules.Text
