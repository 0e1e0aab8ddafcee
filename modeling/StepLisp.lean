import StepLisp.Machine.Boot
import StepLisp.Proofs.Store.Object
import StepLisp.Proofs.Store.Trace
import StepLisp.Proofs.Store.Collect
import StepLisp.Proofs.Act
import StepLisp.Proofs.Stack.Fits
import StepLisp.Proofs.Store.Conduct
import StepLisp.Proofs.Stack.Effect
import StepLisp.Proofs.Stack.Operation
import StepLisp.Proofs.Course
import StepLisp.Proofs.Checkpoint.Guards
import StepLisp.Proofs.Checkpoint.Step
import StepLisp.Proofs.Detached.Basic
import StepLisp.Proofs.Detached.Deliver
import StepLisp.Proofs.Detached.Primitive
import StepLisp.Proofs.Detached.Form
import StepLisp.Proofs.Store.Chain
import StepLisp.Proofs.Sequence
import StepLisp.Proofs.Stack.Step
import StepLisp.Proofs.Stack.Transition
import StepLisp.Proofs.Stack.Discipline
import StepLisp.Proofs.Renaming.Alike
import StepLisp.Proofs.Renaming.Respects
import StepLisp.Proofs.Store.Sound
import StepLisp.Proofs.Renaming.Store
import StepLisp.Proofs.Renaming.Lookup
import StepLisp.Proofs.Text.Page
import StepLisp.Proofs.Renaming.Observe
import StepLisp.Proofs.Renaming.Image
import StepLisp.Proofs.Renaming.Machine
import StepLisp.Proofs.Renaming.Operation
import StepLisp.Proofs.Renaming.Primitive
import StepLisp.Proofs.Renaming.Foreign
import StepLisp.Proofs.Renaming.Operand
import StepLisp.Proofs.Renaming.Form
import StepLisp.Proofs.Renaming.Closure
import StepLisp.Proofs.Renaming.Step
import StepLisp.Proofs.Renaming.Collect
import StepLisp.Proofs.Renaming.Run
import StepLisp.Proofs.Store.Handles
import StepLisp.Proofs.Liveness
import StepLisp.Proofs.Transparency
import StepLisp.Proofs.Checkpoint.Marking
import StepLisp.Proofs.Resumption
import StepLisp.Proofs.Trap
import StepLisp.Proofs.Direct.Refinement
import StepLisp.Proofs.Stack.Tail
import StepLisp.Proofs.Exhaustion
import StepLisp.Proofs.Scoping
import StepLisp.Proofs.Ancestry
import StepLisp.Proofs.Budget
import StepLisp.Proofs.Text.Grammar
import StepLisp.Proofs.Text.Numeral
import StepLisp.Proofs.Text.Written
import StepLisp.Proofs.Text.Shown
import StepLisp.Proofs.Text.Build
import StepLisp.Proofs.Text.RoundTrip
import StepLisp.Proofs.Text.Acceptance
import StepLisp.Proofs.Text.Bytes
import StepLisp.Proofs.Text.Reading
import StepLisp.Proofs.Decimal.Rounding
import StepLisp.Proofs.Decimal.Bits
import StepLisp.Proofs.Decimal.Scientific
import StepLisp.Proofs.Decimal.Shortest
import StepLisp.Proofs.Decimal.ReadBack
import StepLisp.Proofs.Text.Rereading
import StepLisp.Proofs.Text.Passes
import StepLisp.Proofs.Store.Unfolding
import StepLisp.Proofs.Store.Equality
import StepLisp.Proofs.Text.Rendering
import StepLisp.Proofs.Template.Expansion
import StepLisp.Proofs.Template.Outcome
import StepLisp.Proofs.Template.Refinement
import StepLisp.Proofs.Parameters
import StepLisp.Proofs.Prelude.Calls
import StepLisp.Proofs.Prelude.Correct
import StepLisp.Proofs.Arithmetic
import StepLisp.Proofs.Body
import StepLisp.Proofs.Operands
import StepLisp.Proofs.Prelude.Expanding
import StepLisp.Proofs.Prelude.Let
import StepLisp.Proofs.Progression
import StepLisp.Proofs.Calendar
import StepLisp.Proofs.Decimal.Whole
import StepLisp.Proofs.Foreign.Expression
import StepLisp.Proofs.Foreign.Shuffle
import StepLisp.Proofs.Foreign.Time
import StepLisp.Proofs.Interning
