import LiveSwitch.CommandLine.Workdir
import LiveSwitch.Main
import LiveSwitch.ObjectMap.Indexed
import LiveSwitch.Program.Mutation
import LiveSwitch.Sample.Forwarding
import LiveSwitch.Switch.Dataplane
import LiveSwitch.Proofs.Document.Order
import LiveSwitch.Proofs.Plan.Origins
import LiveSwitch.Proofs.Register.Eager
import LiveSwitch.Proofs.Sample.Convergence
import LiveSwitch.Proofs.Switch.Accounts
import LiveSwitch.Proofs.Switch.Actions
import LiveSwitch.Proofs.Switch.Arrays
import LiveSwitch.Proofs.Switch.Atomicity
import LiveSwitch.Proofs.Switch.Copies
import LiveSwitch.Proofs.Switch.Rehashes
import LiveSwitch.Proofs.Switch.Retained
import LiveSwitch.Proofs.Switch.Revisions
import LiveSwitch.Proofs.Switch.Writes
import LiveSwitch.Proofs.Text.Denotes
import LiveSwitch.Proofs.Plan.Grammar
import LiveSwitch.Proofs.Plan.Writing
import LiveSwitch.Proofs.Switch.Defaults
import LiveSwitch.Proofs.Document.NextTables
import LiveSwitch.Proofs.Switch.NextTables
import LiveSwitch.Proofs.Program.Frames
import LiveSwitch.Proofs.Switch.Acyclic
import LiveSwitch.Proofs.Switch.Engine
import LiveSwitch.Proofs.Hash.Remainders
import LiveSwitch.Proofs.Hash.Checksum
import LiveSwitch.Proofs.Hash.Concatenation
import LiveSwitch.Proofs.Switch.Entries
import LiveSwitch.Proofs.Expr.Truncation
import LiveSwitch.Proofs.Expr.Dependence
import LiveSwitch.Proofs.Switch.InputFailures
import LiveSwitch.Proofs.ObjectMap.Calls
import LiveSwitch.Proofs.Pipeline.Calls
