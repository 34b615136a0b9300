import ForthMachine.Main
import ForthMachine.Proofs.Image.Agreement
import ForthMachine.Proofs.Image.Consistency
import ForthMachine.Snapshot
import ForthMachine.Proofs.Machine.Trail
import ForthMachine.Proofs.Machine.Recoil
import ForthMachine.Proofs.Words.Failure
import ForthMachine.Proofs.Machine.Atomicity
import ForthMachine.Proofs.Dictionary.AppendOnly
import ForthMachine.Proofs.Image.Ending
import ForthMachine.Proofs.Image.Composition
import ForthMachine.Proofs.Image.Relocation
import ForthMachine.Proofs.Machine.Delivery
import ForthMachine.Proofs.Machine.Layout
import ForthMachine.Proofs.Listing.Target
import ForthMachine.Proofs.Listing.Relocation
import ForthMachine.Proofs.CommandLine.Recovery
import ForthMachine.Proofs.Listing.Patching
import ForthMachine.Proofs.Machine.Tracing
import ForthMachine.Proofs.Machine.Advancement
import ForthMachine.Proofs.Dictionary.Sameness
import ForthMachine.Proofs.Machine.Likeness
import ForthMachine.Proofs.Text.Decoding
import ForthMachine.Proofs.Snapshot.Dump
import ForthMachine.Proofs.Words.Move
import ForthMachine.Proofs.Image.CoreWords
import ForthMachine.Proofs.Source.Grammar
import ForthMachine.Proofs.Image.Abandonment
import ForthMachine.Proofs.Interpreter.Number
import ForthMachine.Proofs.Image.Printout
import ForthMachine.Proofs.Dictionary.Refinement
import ForthMachine.Proofs.Machine.Attribution
import ForthMachine.Proofs.Machine.Characters
import ForthMachine.Proofs.Machine.Nesting
import ForthMachine.Proofs.Dictionary.Walk
import ForthMachine.Proofs.Text.Readers
