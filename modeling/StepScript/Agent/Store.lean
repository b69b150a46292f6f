import StepScript.Policy
import StepScript.Table

/-!
# StepScript.Agent.Store

Stores of named records.

* `RecordKind` — what a store needs to know of its records: their name and when one is valid.
* `register`, `update`, `delete`, `get`, `list` — the operations on a store, which is a table from
  the records' own names.
* `authorized` — an operation that the policy gate has to allow first.

A change gives the store after it or an error, all in one step. So it is the shape of these
operations that leaves a store as it is when one fails; there are no half-made changes to look at.
-/

namespace StepScript

inductive StoreError where
  | notFound (kind name : String)
  | duplicate (kind name : String)
  | invalid (kind reason : String)
  | policy (denied : Denied)
  deriving DecidableEq, Repr

namespace StoreError

def message : StoreError → String
  | notFound kind name => s!"{kind} '{name}' not found"
  | duplicate kind name => s!"{kind} '{name}' already exists"
  | invalid kind reason => s!"invalid {kind}: {reason}"
  | policy denied => denied.message

def code : StoreError → Code
  | notFound .. => .keyNotFound
  | duplicate .. => .duplicate
  | invalid .. => .type
  | policy _ => .policy

def toRuntimeError (e : StoreError) : RuntimeError :=
  { code := e.code, message := e.message, cause := some e.message }

end StoreError

structure RecordKind (α : Type) where
  label : String
  name : α → String
  /-- Why a record cannot be stored, if it cannot. -/
  defect? : α → Option String

namespace RecordKind

variable {α : Type} (k : RecordKind α)

def validate (a : α) : Except StoreError Unit :=
  match k.defect? a with
  | some reason => .error (.invalid k.label reason)
  | none => .ok ()

def get (store : Table α) (name : String) : Except StoreError α :=
  match store.get? name with
  | some a => .ok a
  | none => .error (.notFound k.label name)

def register (store : Table α) (a : α) : Except StoreError (Table α) := do
  k.validate a
  if store.contains (k.name a) then .error (.duplicate k.label (k.name a))
  else .ok (store.insert (k.name a) a)

def update (store : Table α) (a : α) : Except StoreError (Table α) := do
  k.validate a
  if store.contains (k.name a) then .ok (store.insert (k.name a) a)
  else .error (.notFound k.label (k.name a))

def delete (store : Table α) (name : String) : Except StoreError (Table α) :=
  if store.contains name then .ok (store.erase name) else .error (.notFound k.label name)

/-- The records in the order of their names. -/
def list (store : Table α) : List α := store.values.mergeSort fun a b => k.name a ≤ k.name b

def listNames (store : Table α) : List String := store.names.mergeSort fun a b => a ≤ b

end RecordKind

/-- Asks the gate before anything is done. -/
def authorized {α : Type} (gate : Policy) (c : Capability) (action : Except StoreError α) :
    Except StoreError α :=
  match gate.check c with
  | .ok () => action
  | .error denied => .error (.policy denied)

end StepScript
