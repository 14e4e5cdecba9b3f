import TripleRules.Engine
import TripleRules.Export
import TripleRules.Form.Matches
import TripleRules.Form.Network
import TripleRules.Form.Settings
import TripleRules.Form.SettingsFile
import TripleRules.Json.Printer
import TripleRules.Json.Reader
import TripleRules.Proofs.Bare
import TripleRules.Proofs.Chain
import TripleRules.Proofs.Order
import TripleRules.Proofs.Alpha
import TripleRules.Proofs.Wiring
import TripleRules.Proofs.Widening
import TripleRules.Proofs.Compilation
import TripleRules.Proofs.SameRules
import TripleRules.Proofs.Pairing
import TripleRules.Proofs.Placing
import TripleRules.Proofs.Additions
import TripleRules.Proofs.Delivery
import TripleRules.Proofs.Activations
import TripleRules.Proofs.Runs
import TripleRules.Proofs.Intake
import TripleRules.Proofs.Tuples
import TripleRules.Proofs.Counterparts
import TripleRules.Proofs.Lifetime
import TripleRules.Proofs.NaiveJoin
import TripleRules.Proofs.Substitution
import TripleRules.Proofs.Answers
import TripleRules.Proofs.Matching
import TripleRules.Proofs.Completeness
import TripleRules.Proofs.Soundness
import TripleRules.Proofs.SameFacts
import TripleRules.Proofs.OrderIndependence
import TripleRules.Proofs.Histories
import TripleRules.Proofs.Confluence
import TripleRules.Proofs.Forgetting
import TripleRules.Proofs.Routing
import TripleRules.Proofs.Requests
import TripleRules.Proofs.RuleNames
import TripleRules.Proofs.Inequalities
import TripleRules.Proofs.Trie
import TripleRules.Proofs.PrefixTrie
import TripleRules.Proofs.WellFormed
import TripleRules.Proofs.Scores
import TripleRules.Proofs.Strict
import TripleRules.Proofs.Refusals
import TripleRules.Proofs.Outranking
import TripleRules.Proofs.Interference
import TripleRules.Proofs.Mentions
import TripleRules.Proofs.LeastMatch
import TripleRules.Proofs.Consistency
import TripleRules.Proofs.Ranking
import TripleRules.Proofs.Batches
import TripleRules.Proofs.Extension
import TripleRules.Proofs.Insertion
import TripleRules.Proofs.Renaming
import TripleRules.Proofs.RenamedRules
import TripleRules.Proofs.Tallies
import TripleRules.Proofs.DotReader
import TripleRules.Proofs.Drawings
import TripleRules.Proofs.Walks
import TripleRules.Proofs.Termination
import TripleRules.Proofs.Legends
import TripleRules.Proofs.JsonForms
import TripleRules.Proofs.Distances
import TripleRules.Proofs.Bookkeeping
