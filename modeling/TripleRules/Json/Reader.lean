import TripleRules.Json
import TripleRules.Text.Quoted

/-!
# Reading JSON text

The reader takes one character at a time. Characters are gathered into lexemes, and each lexeme moves a stack of open arrays
and objects. Both are single steps, so reading a text is a fold over its characters. Where a name occurs twice in an object,
the last member counts.
-/

namespace TripleRules.Json

/-! ## Numbers and words -/

/-- What follows the digits at the start of a list, which has to hold at least one. -/
def afterDigits? (cs : List Char) : Option (List Char) :=
  match cs with
  | c :: rest => if c.isDigit then some (rest.dropWhile Char.isDigit) else none
  | [] => none

/-- What follows the whole part of a number: zero alone, or digits that start with another one. -/
def afterWhole? : List Char → Option (List Char)
  | '0' :: rest => some rest
  | cs => afterDigits? cs

/-- Whether a list is empty or the exponent of a number. -/
def isExponent : List Char → Bool
  | [] => true
  | e :: rest =>
    (e == 'e' || e == 'E') &&
      afterDigits? (match rest with
        | '+' :: ds => ds
        | '-' :: ds => ds
        | ds => ds) == some []

/-- Whether a list is what may follow the whole part of a number: a fraction, an exponent, both or neither. -/
def isTail : List Char → Bool
  | '.' :: rest =>
    match afterDigits? rest with
    | some rest => isExponent rest
    | none => false
  | cs => isExponent cs

/-- A number or one of the three words. -/
def ofWord? (w : String) : Option Json :=
  match w with
  | "null" => some null
  | "true" => some (bool true)
  | "false" => some (bool false)
  | w =>
    match w.toList with
    | '-' :: cs => (afterWhole? cs).bind fun rest => if isTail rest then some (number w) else none
    | cs =>
      (afterWhole? cs).bind fun rest =>
        if rest.isEmpty then some (natural (Text.numeral 10 cs))
        else if isTail rest then some (number w)
        else none

/-! ## The stack of open containers -/

/-- The smallest part of a text that has a meaning of its own. -/
inductive Lexeme where
  | arrayStart
  | arrayEnd
  | objectStart
  | objectEnd
  | comma
  | colon
  | text (s : String)
  | word (s : String)
  deriving Repr

/-- A container that is not closed yet. The items of an array are kept newest first; an object waits for the value of a
name. -/
inductive Open where
  | array (items : List Json)
  | object (members : List (String × Json)) (name : String)

/-- What has been read, and so what may follow. The containers around it are listed innermost first. -/
inductive Reading where
  | value (outer : List Open)
  | firstItem (outer : List Open)
  | firstName (outer : List Open)
  | nextName (members : List (String × Json)) (outer : List Open)
  | colon (members : List (String × Json)) (name : String) (outer : List Open)
  | done (value : Json) (outer : List Open)

/-- The step that starts a value. -/
def startValue? (outer : List Open) : Lexeme → Option Reading
  | .arrayStart => some (.firstItem outer)
  | .objectStart => some (.firstName outer)
  | .text s => some (.done (string s) outer)
  | .word w => (ofWord? w).map (.done · outer)
  | _ => none

/-- One step of the reader. -/
def Reading.step? : Reading → Lexeme → Option Reading
  | .value outer, l => startValue? outer l
  | .firstItem outer, .arrayEnd => some (.done (Json.array []) outer)
  | .firstItem outer, l => startValue? (.array [] :: outer) l
  | .firstName outer, .objectEnd => some (.done (Json.object []) outer)
  | .firstName outer, .text s => some (.colon [] s outer)
  | .nextName members outer, .text s => some (.colon members s outer)
  | .colon members name outer, .colon => some (.value (.object members name :: outer))
  | .done v (.array items :: outer), .comma => some (.value (.array (v :: items) :: outer))
  | .done v (.array items :: outer), .arrayEnd => some (.done (Json.array (v :: items).reverse) outer)
  | .done v (.object members name :: outer), .comma => some (.nextName (putEntry name v members) outer)
  | .done v (.object members name :: outer), .objectEnd => some (.done (Json.object (putEntry name v members)) outer)
  | _, _ => none

/-! ## Characters -/

/-- The lexeme that is being gathered. -/
inductive Gathering where
  | between
  | word (s : String)
  | text (s : String)
  | escape (s : String)
  | unicode (s : String) (digits code : Nat) (high : Option Nat)
  | second (s : String) (high : Nat) (slash : Bool)

/-- The characters that numbers and words consist of. -/
def isWordChar (c : Char) : Bool := c.isAlphanum || c == '-' || c == '+' || c == '.'

/-- A character outside of strings and words. -/
def outside? (r : Reading) (c : Char) : Option (Gathering × Reading) :=
  match c with
  | '[' => (r.step? .arrayStart).map (.between, ·)
  | ']' => (r.step? .arrayEnd).map (.between, ·)
  | '\x7b' => (r.step? .objectStart).map (.between, ·)
  | '\x7d' => (r.step? .objectEnd).map (.between, ·)
  | ',' => (r.step? .comma).map (.between, ·)
  | ':' => (r.step? .colon).map (.between, ·)
  | '"' => some (.text "", r)
  | c =>
    if c = ' ' ∨ c = '\n' ∨ c = '\r' ∨ c = '\t' then some (.between, r)
    else if isWordChar c then some (.word c.toString, r)
    else none

/-- The character that a letter after a backslash stands for. -/
def escaped? (c : Char) : Option Char :=
  match c with
  | '"' => some '"'
  | '\\' => some '\\'
  | '/' => some '/'
  | 'b' => some '\x08'
  | 'f' => some '\x0c'
  | 'n' => some '\n'
  | 'r' => some '\r'
  | 't' => some '\t'
  | _ => none

/-- The end of a unicode escape. A code in the upper half of the surrogates waits for one in the lower half, and no other use
of a surrogate is allowed. -/
def closeUnicode? (s : String) (code : Nat) : Option Nat → Option Gathering
  | none =>
    if 0xD800 ≤ code ∧ code < 0xDC00 then some (.second s code false)
    else if 0xDC00 ≤ code ∧ code < 0xE000 then none
    else some (.text (s.push (Char.ofNat code)))
  | some high =>
    if 0xDC00 ≤ code ∧ code < 0xE000 then
      some (.text (s.push (Char.ofNat (0x10000 + (high - 0xD800) * 0x400 + (code - 0xDC00)))))
    else none

/-- One character. -/
def Gathering.step? : Gathering × Reading → Char → Option (Gathering × Reading)
  | (.between, r), c => outside? r c
  | (.word w, r), c =>
    if isWordChar c then some (.word (w.push c), r)
    else (r.step? (.word w)).bind (outside? · c)
  | (.text s, r), c =>
    if c = '"' then (r.step? (.text s)).map (.between, ·)
    else if c = '\\' then some (.escape s, r)
    else if c.toNat < 0x20 then none
    else some (.text (s.push c), r)
  | (.escape s, r), c =>
    if c = 'u' then some (.unicode s 0 0 none, r)
    else (escaped? c).map fun e => (.text (s.push e), r)
  | (.unicode s digits code high, r), c =>
    let code := 16 * code + Text.digitValue c
    if !Text.isHexDigit c then none
    else if digits = 3 then (closeUnicode? s code high).map (·, r)
    else some (.unicode s (digits + 1) code high, r)
  | (.second s high false, r), c => if c = '\\' then some (.second s high true, r) else none
  | (.second s high true, r), c => if c = 'u' then some (.unicode s 0 0 (some high), r) else none

/-- The value that a text holds, if it holds exactly one. -/
def parse? (text : String) : Option Json := do
  let (g, r) ← text.toList.foldlM Gathering.step? (.between, .value [])
  let r ← match g with
    | .between => some r
    | .word w => r.step? (.word w)
    | _ => none
  match r with
  | .done v [] => some v
  | _ => none

end TripleRules.Json
