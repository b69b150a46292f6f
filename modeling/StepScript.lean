import StepScript.Proofs.Isolation
import StepScript.Script.Encode
import StepScript.Session.Basic
import StepScript.Proofs.Unbounded
import StepScript.Proofs.Termination
import StepScript.Proofs.Waiting
import StepScript.Proofs.Course
import StepScript.Proofs.Handling
import StepScript.Proofs.Recoveries
import StepScript.Proofs.Raised
import StepScript.Proofs.Recovery
import StepScript.Proofs.Clearing
import StepScript.Proofs.Reachable
import StepScript.Proofs.Installation
import StepScript.Proofs.Noninterference
import StepScript.Proofs.Conversation
import StepScript.Proofs.Starting
import StepScript.Proofs.Twin
import StepScript.Proofs.Dispatch
import StepScript.Proofs.Habit
import StepScript.Proofs.Confinement
import StepScript.Proofs.Secrecy
import StepScript.Proofs.Outlet
import StepScript.Proofs.Capture
import StepScript.Proofs.Reading
import StepScript.Proofs.RoundTrip
import StepScript.Proofs.Signals
import StepScript.Proofs.Infallible
import StepScript.Proofs.Registry
import StepScript.Proofs.Inline
import StepScript.Proofs.Snapshot
import StepScript.Proofs.Flattening
import StepScript.Proofs.Forgetting
import StepScript.Proofs.Envelopes
import StepScript.Proofs.Forks
import StepScript.Proofs.Fences
import StepScript.Proofs.Appending
import StepScript.Proofs.Writing
import StepScript.Proofs.Constants
import StepScript.Proofs.Hoisting
import StepScript.Proofs.AtWork
import StepScript.Proofs.Ceilings
import StepScript.Proofs.Assignment
import StepScript.Proofs.Grants
import StepScript.Proofs.Transcript
import StepScript.Proofs.Providers
import StepScript.Proofs.Stores
import StepScript.Proofs.Numerals
import StepScript.Proofs.Traversal
import StepScript.Proofs.Modes
