import TripleRules.Network

/-!
# Bindings

A satisfied rule may have many matches. The one that is reported is the least, where matches are compared fact by fact in the
order of the conditions. Its bindings give each selected variable the term that the last condition mentioning it stands for.
-/

namespace TripleRules

/-- The terms of the selected variables. -/
abbrev Bindings := Table Term

namespace Network

/-- The facts of a chain in the order of the conditions. -/
def matchOf (n : Network) (token : TokenId) : List Fact := ((n.tokens.chainFacts token).filterMap n.fact?).reverse

/-- The token with the least match among one and others; of equal ones, the first. -/
def leastFrom (n : Network) (best : TokenId) (others : List TokenId) : TokenId :=
  others.foldl (fun best t => if (compare (n.matchOf t) (n.matchOf best)).isLT then t else best) best

/-- The token with the least match; of equal ones, the first. -/
def leastToken? (n : Network) : List TokenId → Option TokenId
  | [] => none
  | t :: ts => some (n.leastFrom t ts)

/-- Binds a variable, if there is one, it is selected and it is not bound yet. -/
def bind (select : List String) (b : Bindings) : Option String → Term → Bindings
  | some name, term => if select.contains name then b.insertNew name term else b
  | none, _ => b

/-- Binds the variables of a token: that of its subject, then that of its object. -/
def bindLink (n : Network) (select : List String) (b : Bindings) (token : TokenId) : Bindings :=
  match n.tokens.link? token with
  | some l =>
    match n.fact? l.fact with
    | some f => bind select (bind select b l.subjectVar f.subject) l.objectVar f.object
    | none => b
  | none => b

/-- The bindings of a match, read from its last condition back to its first. -/
def bindingsOf (n : Network) (select : List String) (token : TokenId) : Bindings :=
  (n.tokens.chain token).foldl (n.bindLink select) .empty

/-- The bindings of the least match of a rule, and nothing if the rule is not satisfied. A name stands for the production that
was last given a match under it, or else for the newest rule of that name. -/
def bindings (n : Network) (rule : String) : Outcome (Option Bindings) :=
  match (n.satisfied.find? rule).or (n.byName.find? rule) with
  | none => .error (.unknownRule rule)
  | some id => do
    let p ← n.productionNode id
    return (n.leastToken? p.tokens.toList.reverse).map (n.bindingsOf p.select)

end Network

end TripleRules
