import TripleRules.Diagram
import TripleRules.Proofs.Lists

/-!
# Reading DOT texts

A reader for texts in the DOT language that knows nothing of networks. A text is cut into words, quoted strings, marks and arrows; a
quoted string goes on up to the first quote that has no active backslash before it. A document is a name and statements, each of
which sets an attribute, describes what it names, or draws an edge. Main statement: statements that are printed, one on each line,
are read back, whatever characters stand in their values (`document_print`).
-/

namespace TripleRules.Dot

/-! ## Lexemes -/

/-- What a text is made of, blanks apart. -/
inductive Lexeme where
  | word (s : String)
  | text (s : String)
  | mark (c : Char)
  | arrow
  deriving DecidableEq, Repr

/-- What the reader is in the middle of. -/
inductive Mode where
  | blank
  | word (cs : List Char)
  | dash
  | quoted (cs : List Char)
  /-- A quoted string, right after an active backslash. -/
  | escaped (cs : List Char)
  deriving DecidableEq, Repr

/-- Whether a character can stand in a word. -/
def isWordChar (c : Char) : Bool := c.isAlphanum || c == '_'

/-- The characters that are lexemes by themselves. -/
def marks : List Char := ['\x7b', '\x7d', '[', ']', '=', ',', ';']

/-- What begins with a character. -/
def begin (c : Char) : Option (Mode × List Lexeme) :=
  if isWordChar c then some (.word [c], [])
  else if c = ' ' ∨ c = '\n' then some (.blank, [])
  else if c = '"' then some (.quoted [], [])
  else if c = '-' then some (.dash, [])
  else if c ∈ marks then some (.blank, [.mark c])
  else none

/-- Reads a character: the mode after it, and the lexemes it completes. A backslash before any other character than a quote or a
backslash stands for itself. -/
def Mode.step : Mode → Char → Option (Mode × List Lexeme)
  | blank, c => begin c
  | word cs, c =>
    if isWordChar c then some (word (cs ++ [c]), [])
    else (begin c).map fun (m, ls) => (m, .word (String.ofList cs) :: ls)
  | dash, c => if c = '>' then some (blank, [.arrow]) else none
  | quoted cs, c =>
    if c = '"' then some (blank, [.text (String.ofList cs)])
    else if c = '\\' then some (escaped cs, [])
    else some (quoted (cs ++ [c]), [])
  | escaped cs, c => if c = '"' ∨ c = '\\' then some (quoted (cs ++ [c]), []) else some (quoted (cs ++ ['\\', c]), [])

/-- The lexemes that the end of the text completes. It must not cut a quoted string or an arrow short. -/
def Mode.finish : Mode → Option (List Lexeme)
  | blank => some []
  | word cs => some [.word (String.ofList cs)]
  | _ => none

/-- The lexemes of a text. -/
def lex (m : Mode) : List Char → Option (List Lexeme)
  | [] => m.finish
  | c :: cs => (m.step c).bind fun (m', ls) => (lex m' cs).map (ls ++ ·)

/-! ## Documents -/

/-- A statement of a document. Attributes are names with their values. -/
inductive Statement where
  /-- An attribute of the whole graph. -/
  | setting (name value : String)
  /-- A vertex, or the defaults for all of them. -/
  | named (name : String) (attributes : List (String × String))
  | edge (tail head : String) (attributes : List (String × String))
  deriving DecidableEq, Repr

/-- The value that a lexeme can stand for. -/
def Lexeme.value? : Lexeme → Option String
  | word s | text s => some s
  | _ => none

/-- The attributes up to the closing bracket. -/
def pairs : List Lexeme → Option (List (String × String))
  | [.word name, .mark '=', v, .mark ']'] => v.value?.map fun value => [(name, value)]
  | .word name :: .mark '=' :: v :: .mark ',' :: ls => v.value?.bind fun value => (pairs ls).map ((name, value) :: ·)
  | _ => none

/-- The attributes at the end of a statement, which may have none. -/
def attributes : List Lexeme → Option (List (String × String))
  | [] => some []
  | .mark '[' :: ls => pairs ls
  | _ => none

/-- A statement from its lexemes. -/
def statement : List Lexeme → Option Statement
  | [.word name, .mark '=', v] => v.value?.map (.setting name)
  | .word tail :: .arrow :: .word head :: ls => (attributes ls).map (.edge tail head)
  | .word name :: ls => (attributes ls).map (.named name)
  | _ => none

/-- The lexemes of each statement up to the closing brace, after which nothing may follow; `before` are those of the first statement
that were read already. -/
def split (before : List Lexeme) : List Lexeme → Option (List (List Lexeme))
  | [] => none
  | l :: ls =>
    if l = .mark ';' then (split [] ls).map (before :: ·)
    else if l = .mark '\x7d' then if before = [] ∧ ls = [] then some [] else none
    else split (before ++ [l]) ls

/-- The statements of a directed graph. -/
def body : List Lexeme → Option (List Statement)
  | .word "digraph" :: .word _ :: .mark '\x7b' :: ls => (split [] ls).bind fun parts => parts.mapM statement
  | _ => none

/-- Reads a document. -/
def document (s : String) : Option (List Statement) := (lex .blank s.toList).bind body

/-! ## Printing -/

/-- Whether a value can stand without quotes. -/
def IsWord (s : String) : Prop := s.toList ≠ [] ∧ s.toList.all isWordChar

instance (s : String) : Decidable (IsWord s) := inferInstanceAs (Decidable (_ ∧ _))

/-- A value as it is printed: between quotes unless it is a word. -/
def printValue (s : String) : String := if IsWord s then s else "\"" ++ escapeLabel s ++ "\""

/-- An attribute as it is printed. -/
def printAttribute (a : String × String) : String := a.1 ++ "=" ++ printValue a.2

/-- The attributes of a statement as they are printed. -/
def printAttributes : List (String × String) → String
  | [] => ""
  | a :: as => " [" ++ printAttribute a ++ String.join (as.map fun b => ", " ++ printAttribute b) ++ "]"

/-- A statement as it is printed, without the line around it. -/
def Statement.print : Statement → String
  | setting name value => printAttribute (name, value)
  | named name attributes => name ++ printAttributes attributes
  | edge tail head attributes => tail ++ " -> " ++ head ++ printAttributes attributes

/-- A document as it is printed. -/
def print (name : String) (ss : List Statement) : String :=
  "digraph " ++ name ++ " \x7b\n" ++ String.join (ss.map fun s => "  " ++ s.print ++ ";\n") ++ "\x7d\n"

/-- Names are words. Nothing is asked of values. -/
def Statement.Plain : Statement → Prop
  | setting name _ => IsWord name
  | named name attributes => IsWord name ∧ ∀ a ∈ attributes, IsWord a.1
  | edge tail head attributes => IsWord tail ∧ IsWord head ∧ ∀ a ∈ attributes, IsWord a.1

/-! ## Cutting a text into lexemes -/

/-- What is read of a text is what its first character gives, and what is read of the rest. -/
theorem lex_cons {m m' : Mode} {c : Char} {ls : List Lexeme} (h : m.step c = some (m', ls)) (cs : List Char) :
    lex m (c :: cs) = (lex m' cs).map (ls ++ ·) := by
  rw [lex, h]
  rfl

/-- A character that completes no lexeme. -/
theorem lex_cons_nil {m m' : Mode} {c : Char} (h : m.step c = some (m', [])) (cs : List Char) :
    lex m (c :: cs) = lex m' cs := by
  rw [lex_cons h]
  exact Option.map_id'

theorem step_space : Mode.step .blank ' ' = some (.blank, []) := rfl

theorem step_newline : Mode.step .blank '\n' = some (.blank, []) := rfl

theorem step_mark {c : Char} (h : c ∈ marks) : Mode.step .blank c = some (.blank, [.mark c]) := by
  simp only [marks, List.mem_cons, List.not_mem_nil, or_false] at h
  rcases h with rfl | rfl | rfl | rfl | rfl | rfl | rfl <;> rfl

/-- A word goes on through its characters. -/
theorem lex_word_append (cs : List Char) {ws : List Char} (hw : ∀ c ∈ ws, isWordChar c) (ds : List Char) :
    lex (.word cs) (ws ++ ds) = lex (.word (cs ++ ws)) ds := by
  induction ws generalizing cs with
  | nil => rw [List.nil_append, List.append_nil]
  | cons w ws ih =>
    have hstep : Mode.step (.word cs) w = some (.word (cs ++ [w]), []) := if_pos (hw w List.mem_cons_self)
    rw [List.cons_append, lex_cons_nil hstep, ih _ fun c hc => hw c (List.mem_cons_of_mem w hc), List.append_assoc,
      List.singleton_append]

/-- A word ends before anything that is not one of its characters. -/
theorem lex_word_end (cs : List Char) {ds : List Char} (hd : ∀ c ∈ ds.head?, isWordChar c = false) :
    lex (.word cs) ds = (lex .blank ds).map (.word (String.ofList cs) :: ·) := by
  cases ds with
  | nil => rfl
  | cons d ds =>
    have hstep : Mode.step (.word cs) d = (begin d).map fun (m, ls) => (m, .word (String.ofList cs) :: ls) :=
      if_neg (by rw [hd d rfl]; exact Bool.false_ne_true)
    rw [lex, hstep, lex, Mode.step]
    cases begin d with
    | none => rfl
    | some p => simp [Function.comp_def]

/-- What escaping makes of a string is read as the string. No character ends it, as each quote has an active backslash before it, and
no backslash of the string is active, as each one is written twice. -/
theorem lex_quoted_escape (cs s ds : List Char) :
    lex (.quoted cs) (s.flatMap escapeLabelChar ++ ds) = lex (.quoted (cs ++ s)) ds := by
  induction s generalizing cs with
  | nil => rw [List.flatMap_nil, List.nil_append, List.append_nil]
  | cons c s ih =>
    have hc : lex (.quoted cs) (escapeLabelChar c ++ (s.flatMap escapeLabelChar ++ ds)) =
        lex (.quoted (cs ++ [c])) (s.flatMap escapeLabelChar ++ ds) := by
      unfold escapeLabelChar
      split
      · exact (lex_cons_nil rfl _).trans (lex_cons_nil rfl _)
      · exact (lex_cons_nil rfl _).trans (lex_cons_nil rfl _)
      · rename_i hback hquote
        exact lex_cons_nil (by rw [Mode.step, if_neg hquote, if_neg hback]) _
    rw [List.flatMap_cons, List.append_assoc, hc, ih, List.append_assoc, List.singleton_append]

/-- Before anything that does not continue a word, the text is read as the lexemes. -/
def Lexes (cs : List Char) (ls : List Lexeme) : Prop :=
  ∀ ds : List Char, (∀ c ∈ ds.head?, isWordChar c = false) → lex .blank (cs ++ ds) = (lex .blank ds).map (ls ++ ·)

namespace Lexes

/-- A blank or a mark is read alike before everything. -/
theorem cons {c : Char} {cs : List Char} {ls ks : List Lexeme} (h : Mode.step .blank c = some (.blank, ls)) (hc : Lexes cs ks) :
    Lexes (c :: cs) (ls ++ ks) := by
  intro ds hd
  rw [List.cons_append, lex_cons h, hc ds hd, Option.map_map]
  simp [Function.comp_def]

/-- Lexemes are put together at a blank or a mark. -/
theorem append {c : Char} {cs ds : List Char} {ls ks js : List Lexeme} (hd : Lexes ds ls)
    (h : Mode.step .blank c = some (.blank, ks)) (hc : Lexes cs js) : Lexes (ds ++ c :: cs) (ls ++ (ks ++ js)) := by
  have hword : isWordChar c = false := by
    refine Bool.eq_false_iff.2 fun hw => ?_
    rw [Mode.step, begin, if_pos hw] at h
    nomatch h
  intro es he
  have hhead : ∀ x ∈ (c :: (cs ++ es)).head?, isWordChar x = false := fun x hx => Option.some.inj hx ▸ hword
  rw [List.append_assoc, List.cons_append, hd _ hhead, lex_cons h, hc es he, Option.map_map, Option.map_map]
  simp [Function.comp_def]

theorem nil : Lexes [] [] := fun _ _ => Option.map_id'.symm

/-- An arrow is one lexeme. -/
theorem arrow {cs : List Char} {ls : List Lexeme} (h : Lexes cs ls) : Lexes ('-' :: '>' :: cs) (.arrow :: ls) := by
  intro ds hd
  have hend : Mode.step .dash '>' = some (.blank, [.arrow]) := rfl
  rw [List.cons_append, List.cons_append, lex_cons_nil rfl, lex_cons hend, h ds hd, Option.map_map]
  rfl

/-- A word is one lexeme if something that is no letter follows. -/
theorem word {s : String} (h : IsWord s) : Lexes s.toList [.word s] := by
  obtain ⟨hne, hall⟩ := h
  rw [List.all_eq_true] at hall
  intro ds hd
  obtain ⟨c, cs, hs⟩ := List.exists_cons_of_ne_nil hne
  rw [hs] at hall
  have hbegin : Mode.step .blank c = some (.word [c], []) := if_pos (hall c List.mem_cons_self)
  have hcs : ∀ c ∈ cs, isWordChar c := fun x hx => hall x (List.mem_cons_of_mem c hx)
  rw [hs, List.cons_append, lex_cons_nil hbegin, lex_word_append [c] hcs, lex_word_end _ hd, List.singleton_append, ← hs,
    String.ofList_toList]
  rfl

/-- A text in quotes is one lexeme, whatever characters it has: the quotes in it are escaped. -/
theorem text (s : String) : Lexes ("\"" ++ escapeLabel s ++ "\"").toList [.text s] := by
  intro ds _
  have hchars : ("\"" ++ escapeLabel s ++ "\"").toList ++ ds = '"' :: (s.toList.flatMap escapeLabelChar ++ '"' :: ds) := by
    simp [escapeLabel]
  have hclose : Mode.step (.quoted s.toList) '"' = some (.blank, [.text (String.ofList s.toList)]) := rfl
  rw [hchars, lex_cons_nil rfl, lex_quoted_escape, List.nil_append, lex_cons hclose, String.ofList_toList]

end Lexes

/-! ## The lexemes of what is printed -/

/-- The lexeme of a value. -/
def Lexeme.ofValue (s : String) : Lexeme := if IsWord s then .word s else .text s

/-- A value that became a lexeme is taken from it again. -/
@[simp] theorem Lexeme.value?_ofValue (s : String) : (ofValue s).value? = some s := by
  unfold ofValue
  split <;> rfl

/-- The lexemes of an attribute. -/
def attributeLexemes (a : String × String) : List Lexeme := [.word a.1, .mark '=', .ofValue a.2]

/-- The lexemes of the attributes after the first, with the closing bracket. -/
def furtherLexemes (as : List (String × String)) : List Lexeme :=
  (as.flatMap fun a => .mark ',' :: attributeLexemes a) ++ [.mark ']']

/-- The lexemes of the attributes of a statement. -/
def attributesLexemes : List (String × String) → List Lexeme
  | [] => []
  | a :: as => .mark '[' :: (attributeLexemes a ++ furtherLexemes as)

/-- The lexemes of a statement. -/
def Statement.lexemes : Statement → List Lexeme
  | setting name value => attributeLexemes (name, value)
  | named name attributes => .word name :: attributesLexemes attributes
  | edge tail head attributes => .word tail :: .arrow :: .word head :: attributesLexemes attributes

/-- A printed value is one lexeme, with or without quotes. -/
theorem lexes_printValue (s : String) : Lexes (printValue s).toList [.ofValue s] := by
  unfold printValue Lexeme.ofValue
  split
  · rename_i hw
    exact .word hw
  · exact .text s

/-- A printed attribute is its name, the sign of equality and its value. -/
theorem lexes_printAttribute {a : String × String} (h : IsWord a.1) : Lexes (printAttribute a).toList (attributeLexemes a) := by
  have hchars : (printAttribute a).toList = a.1.toList ++ '=' :: (printValue a.2).toList := by
    simp [printAttribute]
  rw [hchars]
  exact (Lexes.word h).append (step_mark (c := '=') (by decide)) (lexes_printValue a.2)

/-- The attributes after the first one are read up to the closing bracket and what follows it. -/
theorem lexes_further {as : List (String × String)} (h : ∀ a ∈ as, IsWord a.1) {ds : List Char} {ls : List Lexeme}
    (hd : Lexes ds ls) {cs : List Char} {ks : List Lexeme} (hc : Lexes cs ks) :
    Lexes (cs ++ ((as.flatMap fun a => ',' :: ' ' :: (printAttribute a).toList) ++ ']' :: ds)) (ks ++ (furtherLexemes as ++ ls)) := by
  induction as generalizing cs ks with
  | nil => exact hc.append (step_mark (c := ']') (by decide)) hd
  | cons a as ih =>
    have hrest := ih (fun b hb => h b (List.mem_cons_of_mem a hb)) (lexes_printAttribute (h a List.mem_cons_self))
    simpa [furtherLexemes] using hc.append (step_mark (c := ',') (by decide)) (.cons step_space hrest)

/-- The printed attributes are read as their lexemes after whatever stands before them. -/
theorem lexes_attributes {as : List (String × String)} (h : ∀ a ∈ as, IsWord a.1) {cs : List Char} {ks : List Lexeme}
    (hc : Lexes cs ks) : Lexes (cs ++ (printAttributes as).toList) (ks ++ attributesLexemes as) := by
  cases as with
  | nil => simpa [printAttributes, attributesLexemes] using hc
  | cons a as =>
    have hrest := lexes_further (fun b hb => h b (List.mem_cons_of_mem a hb)) .nil
      (lexes_printAttribute (h a List.mem_cons_self))
    simpa [printAttributes, attributesLexemes, String.toList_join, List.flatMap_map] using
      hc.append step_space (.cons (step_mark (c := '[') (by decide)) hrest)

/-- A printed statement whose names are words is read as its lexemes. -/
theorem lexes_statement {s : Statement} (h : s.Plain) : Lexes s.print.toList s.lexemes := by
  cases s with
  | setting name value => exact lexes_printAttribute h
  | named name as =>
    rw [Statement.print, String.toList_append]
    exact lexes_attributes h.2 (.word h.1)
  | edge tail head as =>
    have hhead := lexes_attributes h.2.2 (.word h.2.1)
    have harrow := (Lexes.word h.1).append step_space (.arrow (.cons step_space hhead))
    simpa [Statement.print, Statement.lexemes] using harrow

/-- The printed lines of a document are read as the lexemes of its statements, each with its semicolon, and the closing brace. -/
theorem lexes_lines {ss : List Statement} (h : ∀ s ∈ ss, s.Plain) :
    Lexes ((String.join (ss.map fun s => "  " ++ s.print ++ ";\n")).toList ++ ['\x7d', '\n'])
      ((ss.flatMap fun s => s.lexemes ++ [.mark ';']) ++ [.mark '\x7d']) := by
  induction ss with
  | nil =>
    have hend := Lexes.cons (step_mark (c := '\x7d') (by decide)) (.cons step_newline .nil)
    exact hend
  | cons s ss ih =>
    have hrest := ih fun t ht => h t (List.mem_cons_of_mem s ht)
    have hline := (lexes_statement (h s List.mem_cons_self)).append (step_mark (c := ';') (by decide)) (.cons step_newline hrest)
    simpa [String.toList_join] using Lexes.cons step_space (.cons step_space hline)

/-! ## Reading what is printed -/

/-- Attributes that are separated by commas are taken apart again. -/
theorem pairs_lexemes (a : String × String) (as : List (String × String)) :
    pairs (attributeLexemes a ++ furtherLexemes as) = some (a :: as) := by
  induction as generalizing a with
  | nil => exact (congrArg (Option.map _) (Lexeme.value?_ofValue a.2)).trans rfl
  | cons b as ih =>
    have hpair : attributeLexemes a ++ furtherLexemes (b :: as) =
        .word a.1 :: .mark '=' :: .ofValue a.2 :: .mark ',' :: (attributeLexemes b ++ furtherLexemes as) := by
      simp [attributeLexemes, furtherLexemes]
    rw [hpair, pairs, Lexeme.value?_ofValue, Option.bind_some, ih, Option.map_some]

/-- The list of attributes, which may be missing, is taken from its lexemes. -/
theorem attributes_lexemes (as : List (String × String)) : attributes (attributesLexemes as) = some as := by
  cases as with
  | nil => rfl
  | cons a as => exact pairs_lexemes a as

/-- A statement is taken from its lexemes. -/
theorem statement_lexemes (s : Statement) : statement s.lexemes = some s := by
  cases s with
  | setting name value => simp [Statement.lexemes, attributeLexemes, statement]
  | named name as =>
    have hnamed : statement (.word name :: attributesLexemes as) = (attributes (attributesLexemes as)).map (.named name) := by
      cases as <;> rfl
    rw [Statement.lexemes, hnamed, attributes_lexemes, Option.map_some]
  | edge tail head as => rw [Statement.lexemes, statement, attributes_lexemes, Option.map_some]

/-- Whether a lexeme neither ends a statement nor the document. -/
def Lexeme.Inside (l : Lexeme) : Prop := l ≠ .mark ';' ∧ l ≠ .mark '\x7d'

theorem inside_attributeLexemes (a : String × String) : ∀ l ∈ attributeLexemes a, l.Inside := by
  have hvalue : (Lexeme.ofValue a.2).Inside := by
    unfold Lexeme.ofValue
    split <;> exact ⟨Lexeme.noConfusion, Lexeme.noConfusion⟩
  simpa [attributeLexemes, Lexeme.Inside] using hvalue

theorem inside_attributesLexemes (as : List (String × String)) : ∀ l ∈ attributesLexemes as, l.Inside := by
  cases as with
  | nil => exact fun l hl => absurd hl List.not_mem_nil
  | cons a as =>
    intro l hl
    simp only [attributesLexemes, furtherLexemes, List.mem_cons, List.mem_append, List.mem_flatMap, List.not_mem_nil,
      or_false] at hl
    rcases hl with rfl | hl | ⟨b, -, rfl | hl⟩ | rfl
    · simp [Lexeme.Inside]
    · exact inside_attributeLexemes a l hl
    · simp [Lexeme.Inside]
    · exact inside_attributeLexemes b l hl
    · simp [Lexeme.Inside]

/-- No statement has a semicolon or a brace among its lexemes. -/
theorem inside_lexemes (s : Statement) : ∀ l ∈ s.lexemes, l.Inside := by
  cases s with
  | setting name value => exact inside_attributeLexemes (name, value)
  | named name as => simpa [Statement.lexemes, Lexeme.Inside] using inside_attributesLexemes as
  | edge tail head as => simpa [Statement.lexemes, Lexeme.Inside] using inside_attributesLexemes as

/-- A statement ends at the first semicolon. -/
theorem split_append {ls : List Lexeme} (h : ∀ l ∈ ls, l.Inside) (before ks : List Lexeme) :
    split before (ls ++ .mark ';' :: ks) = (split [] ks).map ((before ++ ls) :: ·) := by
  induction ls generalizing before with
  | nil => rw [List.nil_append, split, if_pos rfl, List.append_nil]
  | cons l ls ih =>
    obtain ⟨hsemicolon, hbrace⟩ := h l List.mem_cons_self
    rw [List.cons_append, split, if_neg hsemicolon, if_neg hbrace, ih fun k hk => h k (List.mem_cons_of_mem l hk),
      List.append_assoc, List.singleton_append]

/-- The semicolons split the lexemes of a document into those of its statements. -/
theorem split_lexemes (ss : List Statement) :
    split [] ((ss.flatMap fun s => s.lexemes ++ [.mark ';']) ++ [.mark '\x7d']) = some (ss.map Statement.lexemes) := by
  induction ss with
  | nil => rfl
  | cons s ss ih =>
    rw [List.flatMap_cons, List.append_assoc, List.append_assoc, List.singleton_append, split_append (inside_lexemes s), ih]
    rfl

/-- Statements that are printed are read back, whatever characters stand in their values. -/
theorem document_print {name : String} (hname : IsWord name) {ss : List Statement} (h : ∀ s ∈ ss, s.Plain) :
    document (print name ss) = some ss := by
  have hdigraph : Lexes "digraph".toList [.word "digraph"] := .word (by decide)
  have hopen := (Lexes.word hname).append step_space (.cons (step_mark (c := '\x7b') (by decide)) (.cons step_newline (lexes_lines h)))
  have hall := hdigraph.append step_space hopen [] fun c hc => nomatch hc
  have hlex : lex .blank (print name ss).toList = some (.word "digraph" :: .word name :: .mark '\x7b' ::
      ((ss.flatMap fun s => s.lexemes ++ [.mark ';']) ++ [.mark '\x7d'])) := by
    simpa [print, lex, Mode.finish] using hall
  have hstatements : (ss.map Statement.lexemes).mapM statement = some ss := by
    rw [List.mapM_map]
    exact (List.mapM_eq_pure_map fun s _ => statement_lexemes s).trans (congrArg some ss.map_id')
  rw [document, hlex, Option.bind_some, body, split_lexemes, Option.bind_some, hstatements]

/-- A label that looks as if it ended and drew an edge. -/
example : document "digraph g \x7b\n  n0 [label=\"a\\\\\\\"]; n1 -> n0;\"];\n\x7d\n" =
    some [.named "n0" [("label", "a\\\"]; n1 -> n0;")]] := by
  decide

end TripleRules.Dot
