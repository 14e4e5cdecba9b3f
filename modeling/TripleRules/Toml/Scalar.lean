import TripleRules.Text.Quoted
import TripleRules.Toml

/-!
# Numbers, booleans and moments

A scalar that is not a string is an unbroken run of letters, digits, signs, underscores, points and colons. An underscore may
stand between two digits. Integers have 64 bits with a sign, and are decimal, hexadecimal, octal or binary; a decimal integer
does not start with a zero. A positive number that is too large for floating point is refused.
-/

namespace TripleRules.Toml

open Text (numeral isHexDigit)

/-- The digits of a run in which an underscore may stand between two digits. -/
def digits? (isDigit : Char → Bool) : List Char → Option (List Char)
  | [] => none
  | [c] => if isDigit c then some [c] else none
  | c :: '_' :: cs => if isDigit c then (digits? isDigit cs).map (c :: ·) else none
  | c :: d :: cs => if isDigit c then (digits? isDigit (d :: cs)).map (c :: ·) else none

/-- Takes the sign off a number. -/
def unsigned : List Char → Bool × List Char
  | '-' :: cs => (true, cs)
  | '+' :: cs => (false, cs)
  | cs => (false, cs)

/-- The digits of a decimal whole number, which starts with a zero only if it is zero. -/
def wholeDigits? (cs : List Char) : Option (List Char) :=
  match digits? Char.isDigit cs with
  | some ('0' :: _ :: _) => none
  | other => other

/-- Integers are smaller than this number, and their opposites are not larger. -/
def integerBound : Nat := Nat.pow 2 63

/-- An integer without a sign in a base other than ten. -/
def based? (base : Nat) (isDigit : Char → Bool) (cs : List Char) : Option Int :=
  (digits? isDigit cs).bind fun ds =>
    let v := numeral base ds
    if v < integerBound then some v else none

/-- Reads an integer. -/
def integer? : List Char → Option Int
  | '0' :: 'x' :: cs => based? 16 isHexDigit cs
  | '0' :: 'o' :: cs => based? 8 (fun c => '0' ≤ c && c ≤ '7') cs
  | '0' :: 'b' :: cs => based? 2 (fun c => c == '0' || c == '1') cs
  | cs =>
    let (negative, cs) := unsigned cs
    (wholeDigits? cs).bind fun ds =>
      let v := numeral 10 ds
      if negative then if v ≤ integerBound then some (-v) else none
      else if v < integerBound then some v else none

/-- The least number that rounds to more than the largest one of floating point: it is half a unit of the last place above
that one. -/
def floatBound : Nat := Nat.pow 2 1024 - Nat.pow 2 970

/-- Whether a decimal number is too large for floating point. The numbers of digits settle all but a few cases. -/
def overflows (mantissa : Nat) (exponent : Int) : Bool :=
  let length := (Nat.toDigits 10 mantissa).length + exponent
  if mantissa = 0 || length < 308 then false
  else if 310 < length then true
  else if exponent ≥ 0 then mantissa * Nat.pow 10 exponent.toNat ≥ floatBound
  else mantissa ≥ floatBound * Nat.pow 10 (-exponent).toNat

/-- The exponent of a number; a number without one has the exponent zero. -/
def exponent? : List Char → Option Int
  | [] => some 0
  | c :: cs =>
    if c == 'e' || c == 'E' then
      let (negative, cs) := unsigned cs
      (digits? Char.isDigit cs).map fun ds => if negative then -(numeral 10 ds : Int) else numeral 10 ds
    else none

/-- Whether a run is a number with a fraction, an exponent or both, or the name of infinity or of no number. -/
def isFloat (cs : List Char) : Bool :=
  let (negative, cs) := unsigned cs
  let isPart : Char → Bool := fun c => c.isDigit || c == '_'
  let finite : Option Bool := do
    let whole ← wholeDigits? (cs.takeWhile isPart)
    let rest := cs.dropWhile isPart
    let (fraction, rest) ← match rest with
      | '.' :: rest => (digits? Char.isDigit (rest.takeWhile isPart)).map (·, rest.dropWhile isPart)
      | rest => some ([], rest)
    if fraction.isEmpty && rest.isEmpty then none
    let e ← exponent? rest
    return negative || !overflows (numeral 10 (whole ++ fraction)) (e - fraction.length)
  finite == some true || cs == "inf".toList || cs == "nan".toList

/-- The value of two decimal digits. -/
def pair? (a b : Char) : Option Nat := if a.isDigit && b.isDigit then some (numeral 10 [a, b]) else none

/-- The number of days of a month. -/
def daysOf (year month : Nat) : Nat :=
  if month = 2 then if year % 4 = 0 && (year % 100 != 0 || year % 400 = 0) then 29 else 28
  else if month = 4 || month = 6 || month = 9 || month = 11 then 30
  else 31

/-- What follows a date. -/
def afterDate? : List Char → Option (List Char)
  | y₁ :: y₂ :: y₃ :: y₄ :: '-' :: m₁ :: m₂ :: '-' :: d₁ :: d₂ :: rest => do
    let century ← pair? y₁ y₂
    let year ← pair? y₃ y₄
    let month ← pair? m₁ m₂
    let day ← pair? d₁ d₂
    if 1 ≤ month && month ≤ 12 && 1 ≤ day && day ≤ daysOf (100 * century + year) month then some rest else none
  | _ => none

/-- What follows a time of day. The seconds may have a fraction, and there may be a leap second. -/
def afterTime? : List Char → Option (List Char)
  | h₁ :: h₂ :: ':' :: m₁ :: m₂ :: ':' :: s₁ :: s₂ :: rest => do
    let hour ← pair? h₁ h₂
    let minute ← pair? m₁ m₂
    let second ← pair? s₁ s₂
    if hour < 24 && minute < 60 && second ≤ 60 then
      match rest with
      | '.' :: d :: ds => if d.isDigit then some (ds.dropWhile Char.isDigit) else some rest
      | _ => some rest
    else none
  | _ => none

/-- Whether a run is empty or an offset from universal time. -/
def isOffset : List Char → Bool
  | [] => true
  | [c] => c == 'Z' || c == 'z'
  | [s, h₁, h₂, ':', m₁, m₂] =>
    (s == '+' || s == '-') && (pair? h₁ h₂).any (· < 24) && (pair? m₁ m₂).any (· < 60)
  | _ => false

/-- Whether a run is a time of day with an offset or without one. -/
def isTimeWithOffset (cs : List Char) : Bool := (afterTime? cs).any isOffset

/-- Whether a run is a moment: a date, a time of day, or both. -/
def isMoment (cs : List Char) : Bool :=
  match afterDate? cs with
  | some [] => true
  | some (c :: rest) => (c == 'T' || c == 't') && isTimeWithOffset rest
  | none => afterTime? cs == some []

/-- The characters that a scalar consists of. -/
def isScalarChar (c : Char) : Bool := c.isAlphanum || c == '+' || c == '-' || c == '_' || c == '.' || c == ':'

/-- Reads a run as a scalar. -/
def ofRun? (run : List Char) : Option Toml :=
  if run = "true".toList then some (boolean true)
  else if run = "false".toList then some (boolean false)
  else
    match integer? run with
    | some v => some (integer v)
    | none =>
      if isFloat run then some (float (String.ofList run))
      else if isMoment run then some (moment (String.ofList run))
      else none

/-- Reads a scalar at the start of a text. A date may be followed by a space and a time of day. -/
def scalar? (cs : List Char) : Option (Toml × List Char) := do
  let run := cs.takeWhile isScalarChar
  let rest := cs.dropWhile isScalarChar
  let value ← ofRun? run
  match rest with
  | ' ' :: more =>
    let time := more.takeWhile isScalarChar
    if afterDate? run == some [] && isTimeWithOffset time then
      return (moment (String.ofList (run ++ ' ' :: time)), more.dropWhile isScalarChar)
    else return (value, rest)
  | _ => return (value, rest)

end TripleRules.Toml
