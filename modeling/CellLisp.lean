import CellLisp.Main
import CellLisp.Store.Inspection
import CellLisp.Proofs.Process
import CellLisp.Proofs.Process.Simulation
import CellLisp.Proofs.Store
import CellLisp.Proofs.Change
import CellLisp.Proofs.Process.Move
import CellLisp.Proofs.Balance
import CellLisp.Proofs.Failure
import CellLisp.Proofs.Locality
import CellLisp.Proofs.Nesting
import CellLisp.Proofs.Ownership
import CellLisp.Proofs.Sugar
import CellLisp.Proofs.Atomicity
import CellLisp.Proofs.Joining
import CellLisp.Proofs.Blind
import CellLisp.Proofs.Process.Lockstep
import CellLisp.Proofs.Privacy
import CellLisp.Proofs.Words
import CellLisp.Proofs.Quotation
import CellLisp.Proofs.Constancy
import CellLisp.Proofs.Parentheses
import CellLisp.Proofs.Meaning
import CellLisp.Proofs.Kept
import CellLisp.Proofs.Writing
import CellLisp.Proofs.Walking
import CellLisp.Proofs.Order
import CellLisp.Proofs.Quiet
import CellLisp.Proofs.Lexing
import CellLisp.Proofs.Compositional
import CellLisp.Proofs.Arithmetic
import CellLisp.Proofs.Internal
import CellLisp.Proofs.Split
import CellLisp.Proofs.InPlace
import CellLisp.Proofs.Reserved
import CellLisp.Proofs.Division
import CellLisp.Proofs.Power
import CellLisp.Proofs.Hygiene
import CellLisp.Proofs.Commuting
import CellLisp.Proofs.Comments
import CellLisp.Proofs.Concatenation
import CellLisp.Proofs.Assignment
import CellLisp.Proofs.Totals
import CellLisp.Proofs.Reading
import CellLisp.Proofs.Coherence
