import LamaSM.Marks
import LamaSM.Depths
import LamaSM.RootRuns
import LamaSM.Demand
import LamaSM.Sweeps
import LamaSM.Patterns
import LamaSM.Variables
import LamaSM.References
import LamaSM.Aggregates
import LamaSM.Blocks
import LamaSM.Pairs
import LamaSM.RootPool
import LamaSM.Termination
import LamaSM.Rewrites
import LamaSM.MaxStacks
import LamaSM.Counting
import LamaSM.Passing
import LamaSM.Loading
import LamaSM.Acceptance
import LamaSM.Slots
import LamaSM.Existing
import LamaSM.Tags
import LamaSM.Gc.Operations
import LamaSM.Gc.Texts
import LamaSM.Gc.Allocating
import LamaSM.Gc.Construction
import LamaSM.Lib.Clients
