import TripleRules.Toml.Scalar

/-!
# Strings and keys

A string is basic, with escapes between double quotes, or literal, between single quotes. Three quotes open a string of several
lines; a line break right after them does not count, and up to two quotes may stand before the three that close it. Control
characters other than the tab stand in no string.
-/

namespace TripleRules.Toml

open Text (numeral isHexDigit)

/-- Whether a character may stand in a string or a comment. -/
def isPlain (c : Char) : Bool := c == '\t' || (0x20 ≤ c.toNat && c.toNat != 0x7F)

/-- The character that a letter after a backslash stands for. -/
def escapedChar? (c : Char) : Option Char :=
  match c with
  | 'b' => some '\x08'
  | 't' => some '\t'
  | 'n' => some '\n'
  | 'f' => some '\x0c'
  | 'r' => some '\r'
  | '"' => some '"'
  | '\\' => some '\\'
  | _ => none

/-- The character with a code in hexadecimal. -/
def codeChar? (ds : List Char) : Option Char :=
  let code := numeral 16 ds
  if ds.all isHexDigit && (code < 0xD800 || (0xE000 ≤ code && code < 0x110000)) then some (Char.ofNat code) else none

/-- The rest of a basic string, without the opening quote. The characters read so far are kept newest first. -/
def basic? (acc : List Char) : List Char → Option (String × List Char)
  | '"' :: rest => some (String.ofList acc.reverse, rest)
  | '\\' :: 'u' :: a :: b :: c :: d :: rest =>
    match codeChar? [a, b, c, d] with
    | some x => basic? (x :: acc) rest
    | none => none
  | '\\' :: 'U' :: a :: b :: c :: d :: e :: f :: g :: h :: rest =>
    match codeChar? [a, b, c, d, e, f, g, h] with
    | some x => basic? (x :: acc) rest
    | none => none
  | '\\' :: c :: rest =>
    match escapedChar? c with
    | some x => basic? (x :: acc) rest
    | none => none
  | c :: rest => if isPlain c then basic? (c :: acc) rest else none
  | [] => none

/-- The rest of a literal string, without the opening quote. -/
def literal? (acc : List Char) : List Char → Option (String × List Char)
  | '\'' :: rest => some (String.ofList acc.reverse, rest)
  | c :: rest => if isPlain c then literal? (c :: acc) rest else none
  | [] => none

/-- The quotes before the three that close a string of several lines, which are read already. -/
def closeLines (quote : Char) (acc : List Char) : List Char → String × List Char
  | a :: b :: rest =>
    if a = quote ∧ b = quote then (String.ofList (a :: b :: acc).reverse, rest)
    else if a = quote then (String.ofList (a :: acc).reverse, b :: rest)
    else (String.ofList acc.reverse, a :: b :: rest)
  | [a] => if a = quote then (String.ofList (a :: acc).reverse, []) else (String.ofList acc.reverse, [a])
  | [] => (String.ofList acc.reverse, [])

/-- The rest of a basic string of several lines. A backslash at the end of a line takes the line break and all blank space
after it away; the gap tells whether such space is being skipped, and whether the line break has been met. -/
def basicLines? (acc : List Char) (gap : Option Bool) : List Char → Option (String × List Char)
  | [] => none
  | '\r' :: '\n' :: rest =>
    match gap with
    | some _ => basicLines? acc (some true) rest
    | none => basicLines? ('\n' :: acc) none rest
  | '\n' :: rest =>
    match gap with
    | some _ => basicLines? acc (some true) rest
    | none => basicLines? ('\n' :: acc) none rest
  | '"' :: '"' :: '"' :: rest => if gap = some false then none else some (closeLines '"' acc rest)
  | '\\' :: 'u' :: a :: b :: c :: d :: rest =>
    match gap, codeChar? [a, b, c, d] with
    | some false, _ => none
    | _, some x => basicLines? (x :: acc) none rest
    | _, none => none
  | '\\' :: 'U' :: a :: b :: c :: d :: e :: f :: g :: h :: rest =>
    match gap, codeChar? [a, b, c, d, e, f, g, h] with
    | some false, _ => none
    | _, some x => basicLines? (x :: acc) none rest
    | _, none => none
  | '\\' :: '\n' :: rest => if gap = some false then none else basicLines? acc (some true) rest
  | '\\' :: '\r' :: '\n' :: rest => if gap = some false then none else basicLines? acc (some true) rest
  | '\\' :: c :: rest =>
    if gap = some false then none
    else if c = ' ' ∨ c = '\t' then basicLines? acc (some false) rest
    else
      match escapedChar? c with
      | some x => basicLines? (x :: acc) none rest
      | none => none
  | c :: rest =>
    if gap.isSome ∧ (c = ' ' ∨ c = '\t') then basicLines? acc gap rest
    else if gap = some false then none
    else if isPlain c then basicLines? (c :: acc) none rest
    else none

/-- The rest of a literal string of several lines. -/
def literalLines? (acc : List Char) : List Char → Option (String × List Char)
  | [] => none
  | '\r' :: '\n' :: rest => literalLines? ('\n' :: acc) rest
  | '\n' :: rest => literalLines? ('\n' :: acc) rest
  | '\'' :: '\'' :: '\'' :: rest => some (closeLines '\'' acc rest)
  | c :: rest => if isPlain c then literalLines? (c :: acc) rest else none

/-- Takes a line break off the start of a text. -/
def dropNewline : List Char → List Char
  | '\r' :: '\n' :: rest => rest
  | '\n' :: rest => rest
  | cs => cs

/-- Reads a string of any kind. -/
def string? : List Char → Option (String × List Char)
  | '"' :: '"' :: '"' :: rest => basicLines? [] none (dropNewline rest)
  | '"' :: rest => basic? [] rest
  | '\'' :: '\'' :: '\'' :: rest => literalLines? [] (dropNewline rest)
  | '\'' :: rest => literal? [] rest
  | _ => none

/-- Whether a character may stand in a key without quotes. -/
def isBareChar (c : Char) : Bool := c.isAlphanum || c == '-' || c == '_'

/-- Reads one part of a key. -/
def simpleKey? : List Char → Option (String × List Char)
  | '"' :: rest => basic? [] rest
  | '\'' :: rest => literal? [] rest
  | cs =>
    let run := cs.takeWhile isBareChar
    if run.isEmpty then none else some (String.ofList run, cs.dropWhile isBareChar)

/-- Takes spaces and tabs off the start of a text. -/
def dropBlank (cs : List Char) : List Char := cs.dropWhile fun c => c == ' ' || c == '\t'

/-- The largest number of parts of a key, and of values inside each other. -/
def maxDepth : Nat := 79

/-- Reads a key of at most the given number of parts, between which points stand. Blank space around a part does not count. -/
def keyPath? : Nat → List Char → Option (List String × List Char)
  | 0, _ => none
  | n + 1, cs => do
    let (part, rest) ← simpleKey? (dropBlank cs)
    match dropBlank rest with
    | '.' :: rest =>
      let (parts, rest) ← keyPath? n rest
      return (part :: parts, rest)
    | rest => return ([part], rest)

end TripleRules.Toml
