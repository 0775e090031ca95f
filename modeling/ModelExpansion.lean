import ModelExpansion.Expansion
import ModelExpansion.Odometer
import ModelExpansion.Sat.Enumeration
import ModelExpansion.Proofs.Sat.History
import ModelExpansion.Proofs.Sat.Enumeration
import ModelExpansion.Proofs.WellFounded.Alternation
import ModelExpansion.Proofs.Encoding.Agreement
import ModelExpansion.Proofs.Interchange.TotalStructures
import ModelExpansion.Proofs.Interchange.Classes
import ModelExpansion.Proofs.WellFounded.Rounds
import ModelExpansion.Proofs.WellFounded.Completion
import ModelExpansion.Proofs.Completion
import ModelExpansion.Proofs.Sentences
import ModelExpansion.Proofs.NestedFixpoint.Value
import ModelExpansion.Proofs.NestedFixpoint.Completion
import ModelExpansion.Proofs.Calculation.Confluence
import ModelExpansion.Proofs.Evaluation.Grounding
import ModelExpansion.Proofs.Encoding.AtomTable
import ModelExpansion.Proofs.Encoding.Definitional
import ModelExpansion.Proofs.Limits
import ModelExpansion.Proofs.Sat.Moments
import ModelExpansion.Proofs.Writing
import ModelExpansion.Proofs.Sat.Observation
import ModelExpansion.Proofs.Sat.Lessons
import ModelExpansion.Proofs.Sat.Watching
import ModelExpansion.Proofs.Fixing
import ModelExpansion.Proofs.Calculation.Values
import ModelExpansion.Proofs.Encoding.Totals
import ModelExpansion.Proofs.Exclusion
import ModelExpansion.Proofs.Sat.Overshoot
import ModelExpansion.Proofs.Recursion
import ModelExpansion.Proofs.WellFounded.Bounds
import ModelExpansion.Proofs.Calculation.Check
import ModelExpansion.Proofs.InfiniteDomains
import ModelExpansion.Proofs.Groundness
import ModelExpansion.Proofs.Tuples
import ModelExpansion.Proofs.Saturation
import ModelExpansion.Proofs.NestedFixpoint.Oscillation
import ModelExpansion.Proofs.Sat.Luby
import ModelExpansion.Proofs.Subsorts
import ModelExpansion.Proofs.Odometer
import ModelExpansion.Proofs.Evaluation.Bindings
