import FlowFacts.DeadCode
import FlowFacts.GenKill
import FlowFacts.Drawing
import FlowFacts.Proofs.Elimination
import FlowFacts.Proofs.Convergence
import FlowFacts.Proofs.BitSetHistory
import FlowFacts.Proofs.Contract
import FlowFacts.Proofs.Rising
import FlowFacts.Proofs.Renaming
import FlowFacts.Proofs.Safety
import FlowFacts.Proofs.Sweep
import FlowFacts.Proofs.Cutoff
import FlowFacts.Proofs.Coarsening
import FlowFacts.Proofs.Faults
import FlowFacts.Proofs.Folding
import FlowFacts.Proofs.Meeting
import FlowFacts.Proofs.Mentions
import FlowFacts.Proofs.StraightLine
import FlowFacts.Proofs.Text
import FlowFacts.Proofs.FactText
import FlowFacts.Proofs.Drawing
import FlowFacts.Proofs.Cursor
import FlowFacts.Proofs.WorklistHistory
