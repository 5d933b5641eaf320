import Scriptlet.Main
import Scriptlet.Proofs.Evaluation.Correctness
import Scriptlet.Proofs.Code.Discipline
import Scriptlet.Proofs.Code.Bodies
import Scriptlet.Proofs.Code.RoundTrip
import Scriptlet.Proofs.Code.ScopeHistory
import Scriptlet.Proofs.Code.Acceptance
import Scriptlet.Proofs.Code.FaultPoints
import Scriptlet.Proofs.Code.Linking
import Scriptlet.Proofs.Code.JumpTargets
import Scriptlet.Proofs.Code.CompoundAssignment
import Scriptlet.Proofs.Heap.Sweeping
import Scriptlet.Proofs.Heap.Garbage
import Scriptlet.Proofs.Heap.Arena
import Scriptlet.Proofs.Heap.Stores
import Scriptlet.Proofs.Heap.SweepLoop
import Scriptlet.Proofs.Machine.ExactCounts
import Scriptlet.Proofs.Machine.HostBindings
import Scriptlet.Proofs.Machine.Mirror
import Scriptlet.Proofs.Machine.Isolation
import Scriptlet.Proofs.Machine.Lists
import Scriptlet.Proofs.Machine.Fields
import Scriptlet.Proofs.Machine.DirectCalls
import Scriptlet.Proofs.Machine.Display
import Scriptlet.Proofs.Machine.MethodCalls
import Scriptlet.Proofs.Machine.Overwrites
import Scriptlet.Proofs.Machine.Comparisons
import Scriptlet.Proofs.Machine.ReadBack
import Scriptlet.Proofs.Number.Integers
import Scriptlet.Proofs.Reading.Refusals
import Scriptlet.Proofs.Reading.Nesting
import Scriptlet.Proofs.Scanning.Numerals
import Scriptlet.Proofs.Scanning.Rendering
import Scriptlet.Proofs.Session.Layout
import Scriptlet.Proofs.Code.Unbroken
import Scriptlet.Proofs.Session.Reports
