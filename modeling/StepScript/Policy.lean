import StepScript.Error.Basic
import StepScript.Json.Decode

/-!
# StepScript.Policy

Capabilities and what grants them.

* `Policy` — how requests are decided; a host may bring one of its own.
* `Gate`   — the policies at hand: everything is allowed, or what some grant covers.
-/

namespace StepScript

/-- Something that may be done, possibly only within a scope. -/
structure Capability where
  resource : String
  verb : String
  scope : Option String := none
  deriving DecidableEq, Repr

namespace Capability

def wildcard : String := "*"

def modelAdmin : Capability := { resource := "model", verb := "admin" }

def modelRead : Capability := { resource := "model", verb := "read" }

def accountAdmin : Capability := { resource := "account", verb := "admin" }

def eventEmit : Capability := { resource := "event", verb := "emit" }

def matches? (granted wanted : String) : Bool := granted = wildcard || granted = wanted

/-- A grant without a scope covers every scope. -/
def scopeCovers : Option String → Option String → Bool
  | none, _ => true
  | some granted, some wanted => matches? granted wanted
  | some _, none => false

/-- Does a grant of `granted` satisfy a request for `wanted`? -/
def covers (granted wanted : Capability) : Bool :=
  matches? granted.resource wanted.resource && matches? granted.verb wanted.verb &&
    scopeCovers granted.scope wanted.scope

def text (c : Capability) : String :=
  match c.scope with
  | some scope => c.resource ++ ":" ++ c.verb ++ ":" ++ scope
  | none => c.resource ++ ":" ++ c.verb

end Capability

/-- Who may do what: everything, or what some grant covers. -/
inductive Gate where
  | open
  | grants (list : List Capability)

namespace Gate

def allows : Gate → Capability → Bool
  | .open, _ => true
  | .grants list, c => list.any (·.covers c)

end Gate

/-- A request that was refused, and the words of the refusal. -/
structure Denied where
  capability : Capability
  text : String := capability.text
  deriving DecidableEq, Repr

namespace Denied

def message (d : Denied) : String := "capability denied: " ++ d.text

def toRuntimeError (d : Denied) : RuntimeError :=
  { code := .policy, message := d.message, cause := some d.message }

end Denied

/-- A policy decides on the capability alone. It keeps no state, so it decides the same request the
same way each time, and it cannot come back to the engine. -/
structure Policy where
  check : Capability → Except Denied Unit

namespace Gate

def check (g : Gate) (c : Capability) : Except Denied Unit :=
  if g.allows c then .ok () else .error { capability := c }

def policy (g : Gate) : Policy := ⟨g.check⟩

instance : Coe Gate Policy := ⟨policy⟩

end Gate

namespace Json.Decoder

def capability : Decoder Capability := fun n doc => do
  let fs ← doc.record? ["resource", "verb", "scope"] n
  let m := n - 1
  return { resource := ← fs.required "resource" (string m)
           verb := ← fs.required "verb" (string m)
           scope := ← fs.withDefault "scope" none (optional string m) }

end Json.Decoder
end StepScript
