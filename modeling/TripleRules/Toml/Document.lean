import TripleRules.Toml.Text

/-!
# Documents

A document is a sequence of lines. A line gives a value to a key, or is the header of a table, to which the lines after it
belong. Every step reads at least one character, so the length of the text bounds the number of steps.
-/

namespace TripleRules.Toml

/-- What follows the line break or the end of the text, if either comes next. -/
def lineBreak? : List Char → Option (List Char)
  | [] => some []
  | '\n' :: rest => some rest
  | '\r' :: '\n' :: rest => some rest
  | _ => none

/-- What follows the rest of a line, which may hold blank space and a comment. -/
def lineEnd? (cs : List Char) : Option (List Char) :=
  match dropBlank cs with
  | '#' :: rest => lineBreak? (rest.dropWhile isPlain)
  | rest => lineBreak? rest

/-- Takes blank space, comments and line breaks off the start of a text, over at most the given number of lines. -/
def dropLines? : Nat → List Char → Option (List Char)
  | 0, _ => none
  | n + 1, cs =>
    match dropBlank cs with
    | '#' :: rest =>
      match rest.dropWhile isPlain with
      | [] => none
      | rest => (lineBreak? rest).bind (dropLines? n)
    | '\n' :: rest => dropLines? n rest
    | '\r' :: '\n' :: rest => dropLines? n rest
    | rest => some rest

/-- A key with its value, before the value is given to the key. -/
structure Assignment where
  path : List String
  key : String
  value : Toml

/-- Splits a key into the path to a table and the key in that table. -/
def splitKey? : List String → Option (List String × String)
  | [] => none
  | [k] => some ([], k)
  | k :: ks => (splitKey? ks).map fun (path, key) => (k :: path, key)

/-- What follows the equals sign after a key. -/
def afterEquals? : List Char → Option (List Char)
  | '=' :: rest => some (dropBlank rest)
  | _ => none

mutual

/-- Reads a value. The first number bounds the steps, the second the values inside each other. -/
def value? : Nat → Nat → List Char → Option (Toml × List Char)
  | 0, _, _ => none
  | n + 1, depth, cs =>
    match cs with
    | '"' :: _ => (string? cs).map fun (s, rest) => (string s, rest)
    | '\'' :: _ => (string? cs).map fun (s, rest) => (string s, rest)
    | '[' :: rest => if depth = 0 then none else items? n (depth - 1) [] rest
    | '\x7b' :: rest =>
      if depth = 0 then none
      else
        match dropBlank rest with
        | '\x7d' :: rest => some (inline [], rest)
        | rest => members? n (depth - 1) [] rest
    | cs => scalar? cs

/-- Reads the items of an array up to the closing bracket. -/
def items? : Nat → Nat → List Toml → List Char → Option (Toml × List Char)
  | 0, _, _, _ => none
  | n + 1, depth, acc, cs => do
    match ← dropLines? (cs.length + 1) cs with
    | ']' :: rest => return (array acc.reverse, rest)
    | cs =>
      let (v, rest) ← value? n depth cs
      match ← dropLines? (rest.length + 1) rest with
      | ',' :: rest => items? n depth (v :: acc) rest
      | ']' :: rest => return (array (v :: acc).reverse, rest)
      | _ => none

/-- Reads the members of an inline table up to the closing brace. -/
def members? : Nat → Nat → Entries → List Char → Option (Toml × List Char)
  | 0, _, _, _ => none
  | n + 1, depth, acc, cs => do
    let (parts, rest) ← keyPath? maxDepth cs
    let (path, key) ← splitKey? parts
    let (v, rest) ← value? n depth (← afterEquals? rest)
    let acc ← assign path key v acc
    match dropBlank rest with
    | ',' :: rest => members? n depth acc rest
    | '\x7d' :: rest => return (inline acc, rest)
    | _ => none

end

/-- Reads a line that gives a value to a key. -/
def assignment? (cs : List Char) : Option (Assignment × List Char) := do
  let (parts, rest) ← keyPath? maxDepth cs
  let (path, key) ← splitKey? parts
  let rest ← afterEquals? rest
  let (value, rest) ← value? (2 * rest.length + 1) maxDepth rest
  return (⟨path, key, value⟩, ← lineEnd? rest)

/-- Reads the rest of a header that the given characters close. -/
def header? (close : List Char) (cs : List Char) : Option (List String × List Char) := do
  let (parts, rest) ← keyPath? maxDepth cs
  if close.isPrefixOf rest then return (parts, ← lineEnd? (rest.drop close.length)) else none

/-- Reads lines, at most the given number. The path is that of the last header. -/
def lines? : Nat → List String → Entries → List Char → Option Entries
  | 0, _, _, _ => none
  | n + 1, current, root, cs =>
    match dropBlank cs with
    | [] => some root
    | '#' :: rest => do lines? n current root (← lineBreak? (rest.dropWhile isPlain))
    | '\n' :: rest => lines? n current root rest
    | '\r' :: '\n' :: rest => lines? n current root rest
    | '[' :: '[' :: rest => do
      let (parts, rest) ← header? [']', ']'] rest
      let (path, key) ← splitKey? parts
      lines? n parts (← appendTable path key root) rest
    | '[' :: rest => do
      let (parts, rest) ← header? [']'] rest
      let (path, key) ← splitKey? parts
      lines? n parts (← openTable path key root) rest
    | cs => do
      let (a, rest) ← assignment? cs
      lines? n current (← descend false (fun _ es => assign a.path a.key a.value es) current false root) rest

/-- The entries of a document. A byte order mark at its start does not count. -/
def parse? (text : String) : Option Entries :=
  let cs := match text.toList with
    | '\ufeff' :: cs => cs
    | cs => cs
  lines? (cs.length + 1) [] [] cs

end TripleRules.Toml
