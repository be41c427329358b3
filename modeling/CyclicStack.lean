import CyclicStack.Main
import CyclicStack.Proofs.Encoding.RoundTrip
import CyclicStack.Proofs.Load.Assembly
import CyclicStack.Proofs.Load.Patching
import CyclicStack.Proofs.Machine.Initialization
import CyclicStack.Proofs.Machine.Limit
import CyclicStack.Proofs.Machine.Safety
import CyclicStack.Proofs.Memory.Sharing
import CyclicStack.Proofs.Execution.Locality
import CyclicStack.Proofs.Machine.Depth
import CyclicStack.Proofs.Machine.Frame
import CyclicStack.Proofs.Load.Interpretation
import CyclicStack.Proofs.Text.Section
import CyclicStack.Proofs.Load.Order
import CyclicStack.Proofs.Machine.Simulation
import CyclicStack.Proofs.Memory.Mirror
import CyclicStack.Proofs.Load.Replacement
import CyclicStack.Proofs.Load.NormalForm
import CyclicStack.Proofs.Text.Placement
import CyclicStack.Proofs.Load.Blame
import CyclicStack.Proofs.Schedule.Grid
import CyclicStack.Proofs.Stack.Operators
import CyclicStack.Proofs.Stack.Division
import CyclicStack.Proofs.Stack.Power
import CyclicStack.Proofs.Text.Numeral
import CyclicStack.Proofs.Text.Choice
import CyclicStack.Proofs.Text.Printing
import CyclicStack.Proofs.Text.Runs
import CyclicStack.Proofs.Text.Address
import CyclicStack.Proofs.Encoding.Layout
import CyclicStack.Proofs.Memory.Bounds
import CyclicStack.Proofs.Machine.Forward
import CyclicStack.Proofs.Load.Commutation
import CyclicStack.Proofs.Load.Declarations
import CyclicStack.Proofs.Number.General
