import StepScript.Engine.Settle

/-!
# StepScript.Session.Observation

What the host gets to see of an operation.
-/

namespace StepScript

namespace Effect

/-- The calls of the host's callbacks for output and input. -/
def isHostCall : Effect → Bool
  | .emit outlet _ => outlet = .host
  | .whisper .. | .prompt _ => true
  | _ => false

def report? : Effect → Option (String × String × RuntimeError)
  | .report event source e => some (event, source, e)
  | _ => none

end Effect

def hostCalls (trace : Array Effect) : List Effect := trace.toList.filter Effect.isHostCall

/-- A call of a transcribed provider, with the number of its conversation. -/
structure Request where
  conversation : Nat
  call : ProviderCall

structure Observation where
  /-- What the operation itself did. -/
  log : List Effect := []
  /-- What each handler did, if it did something. -/
  handlers : List (List Effect) := []
  /-- Failed handlers: event, source and failure, sorted by these. -/
  eventErrors : List (String × String × RuntimeError) := []
  requests : List Request := []

/-- The order of lists of texts, by the first texts that differ. -/
def textsLe : List String → List String → Bool
  | [], _ => true
  | _ :: _, [] => false
  | a :: as, b :: bs => a < b || (a == b && textsLe as bs)

/-- The order of reports: by event, then source, then text. -/
def reportLe (a b : String × String × RuntimeError) : Bool :=
  textsLe [a.1, a.2.1, a.2.2.display] [b.1, b.2.1, b.2.2.display]

/-- Numbers conversations from one in the order in which they are first met. -/
def numberCalls : List Conversation → List ProviderCall → List Request × List Conversation
  | met, [] => ([], met)
  | met, c :: rest =>
    let conversation := c.context.conversation
    let met := if conversation ∈ met then met else met ++ [conversation]
    let (requests, all) := numberCalls met rest
    (⟨met.idxOf conversation + 1, c⟩ :: requests, all)

end StepScript
