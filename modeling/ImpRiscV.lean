import ImpRiscV.Label.Spelling
import ImpRiscV.Lowering.Cursor
import ImpRiscV.Proofs.Steps
import ImpRiscV.Proofs.Placement
import ImpRiscV.Proofs.DefinedLabels
import ImpRiscV.Proofs.Violations
import ImpRiscV.Proofs.Evaluation
import ImpRiscV.Proofs.Machine
import ImpRiscV.Proofs.CallTrace
import ImpRiscV.Proofs.Simulation
import ImpRiscV.Proofs.Constructs
import ImpRiscV.Proofs.Calls
import ImpRiscV.Proofs.Preservation
import ImpRiscV.Proofs.Walk
import ImpRiscV.Proofs.Outline
import ImpRiscV.Proofs.Staging
import ImpRiscV.Proofs.ExpressionOutline
import ImpRiscV.Proofs.FunctionOutline
import ImpRiscV.Proofs.StackBalance
import ImpRiscV.Proofs.LabelTexts
import ImpRiscV.Proofs.Layout
import ImpRiscV.Proofs.References
import ImpRiscV.Proofs.Divergence
import ImpRiscV.Proofs.CallStack
import ImpRiscV.Proofs.Guarding
import ImpRiscV.Proofs.FrameIsolation
import ImpRiscV.Proofs.Relocation
import ImpRiscV.Proofs.FrameAccess
import ImpRiscV.Proofs.Decoding
import ImpRiscV.Proofs.Tracking
import ImpRiscV.Proofs.Exit
import ImpRiscV.Proofs.Rearrangement
import ImpRiscV.Proofs.Records
import ImpRiscV.Proofs.StackPeak
import ImpRiscV.Proofs.Unwinding
import ImpRiscV.Proofs.Allocation
