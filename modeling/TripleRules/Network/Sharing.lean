/-!
# Sharing counters

How often compiling a rule asked for a part of the network, and how often that part was there already.
-/

namespace TripleRules

/-- The parts created and the parts shared, by kind. -/
structure Sharing where
  alphaCreated : Nat
  alphaShared : Nat
  joinsCreated : Nat
  joinsShared : Nat
  memoriesCreated : Nat
  memoriesShared : Nat
  deriving DecidableEq, Repr

namespace Sharing

/-- The counters of a network without rules. -/
def zero : Sharing := ⟨0, 0, 0, 0, 0, 0⟩

/-- The number of requests that a part served that was there already. -/
def shares (s : Sharing) : Nat := s.alphaShared + s.joinsShared + s.memoriesShared

/-- The number of parts there would be without sharing: one for each request. -/
def requests (s : Sharing) : Nat :=
  s.alphaCreated + s.alphaShared + s.joinsCreated + s.joinsShared + s.memoriesCreated + s.memoriesShared

/-- The number of shares for a hundred requests, in floating point: the quotient is rounded first, then its product with one
hundred. It is zero where nothing was asked for. Both counts are taken as words of 64 bits. -/
def rate (s : Sharing) : Float :=
  if s.requests > 0 then s.shares.toUInt64.toFloat / s.requests.toUInt64.toFloat * 100.0 else 0.0

end Sharing

end TripleRules
