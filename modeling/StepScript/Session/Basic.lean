import StepScript.Session.Observation

/-!
# StepScript.Session.Basic

A host's session with one engine: a root instance, forks that the host keeps under names, and the
operations on them.
-/

namespace StepScript

structure Session where
  engine : Engine
  world : World := {}
  /-- The forks that the host keeps. -/
  forks : Table Frame := {}
  /-- The names that forks were ever kept under. -/
  names : List (InstanceId × String) := []
  /-- The conversations that were seen, in order. -/
  conversations : List Conversation := []

namespace Session

def rootName : String := "root"

/-- The instance of a name. -/
def frame? (s : Session) (name : String) : Option Frame :=
  match s.forks.get? name with
  | some f => some f
  | none => if name = rootName then some .root else none

/-- Runs an operation and every handler that it starts. -/
def perform {α : Type} (s : Session) (x : Exec α) :
    Except Interrupt α × Observation × Session :=
  let settled := s.engine.perform x s.world
  let traces := settled.trace :: settled.handlers
  let calls := (settled.world.calls.toList.drop s.world.calls.size).filter (·.transcribed)
  let (requests, met) := numberCalls s.conversations calls
  let seen : Observation :=
    { log := hostCalls settled.trace
      handlers := (settled.handlers.map hostCalls).filter (!·.isEmpty)
      eventErrors := (traces.flatMap (·.toList.filterMap Effect.report?)).mergeSort reportLe
      requests := requests }
  (settled.result, seen, { s with world := settled.world, conversations := met })

/-- Ends the life of a kept fork; tells whether there was one. -/
def drop (s : Session) (name : String) : Bool × Session :=
  match s.forks.get? name with
  | some f => (true, { s with world := s.world.release f.id, forks := s.forks.erase name })
  | none => (false, s)

/-- Forks an instance and keeps the fork under a name, in the place of an earlier one. -/
def fork (s : Session) (parent : Frame) (name label : String) (handler : Option (List Step)) :
    Except Interrupt Unit × Observation × Session :=
  let (result, seen, s) := s.perform (Exec.fork s.engine parent label handler parent.outlet)
  match result with
  | .ok child =>
    let s := (s.drop name).2
    (.ok (), seen,
      { s with forks := s.forks.insert name child, names := (child.id, name) :: s.names })
  | .error i => (.error i, seen, s)

/-- Changes the stores, unless there is a reason not to. -/
def change {ε : Type} (s : Session) (f : World → Except ε World) : Except ε Session :=
  (f s.world).map fun w => { s with world := w }

section Stores

variable (s : Session)

def registerModel (m : AgentModel) : World → Except StoreError World := fun w => do
  return { w with models := ← AgentModel.kind.register w.models m }

def updateModel (m : AgentModel) : World → Except StoreError World := fun w => do
  return { w with models := ← AgentModel.kind.update w.models m }

def deleteModel (name : String) : World → Except StoreError World := fun w => do
  return { w with models := ← AgentModel.kind.delete w.models name }

def registerAccount (a : Account) : World → Except StoreError World := fun w => do
  return { w with accounts := ← Account.kind.register w.accounts a }

def updateAccount (a : Account) : World → Except StoreError World := fun w => do
  return { w with accounts := ← Account.kind.update w.accounts a }

def deleteAccount (name : String) : World → Except StoreError World := fun w => do
  return { w with accounts := ← Account.kind.delete w.accounts name }

/-- A change of the agent models, which the gate has to allow. -/
def administerModels (f : World → Except StoreError World) : Except StoreError Session :=
  authorized s.engine.gate .modelAdmin (s.change f)

/-- A change of the accounts, which the gate has to allow. -/
def administerAccounts (f : World → Except StoreError World) : Except StoreError Session :=
  authorized s.engine.gate .accountAdmin (s.change f)

def changeProviders (f : ProviderRegistry → Except ProviderError ProviderRegistry) :
    Except ProviderError Session :=
  s.change fun w => (f w.providers).map fun r => { w with providers := r }

end Stores

/-- A call of a provider by the host itself. -/
def chat (name model prompt : String) : Exec (Except ProviderError ChatReply) := do
  match (← get).providers.get name with
  | .error e => pure (.error e)
  | .ok r =>
    Exec.chat r { conversation := .direct, turn := 1, deadline := false }
      { model := model, prompt := prompt, apiKey := "", temperature := 0, maxTokens := none }

end Session

/-- What a session starts with. -/
structure Setup where
  engine : Engine
  providers : List (String × Provider) := []
  models : List AgentModel := []
  accounts : List Account := []

/-- Why a session did not start. -/
inductive SetupError where
  | config (e : ConfigError)
  | store (e : StoreError)
  | provider (e : ProviderError)

/-- Starts a session with valid settings and filled stores. -/
def Setup.start (s : Setup) : Except SetupError Session := do
  s.engine.config.validate.mapError .config
  let providers ← s.providers.foldlM (fun r (name, p) => (r.register name p).mapError .provider)
    ({} : ProviderRegistry)
  let models ← s.models.foldlM (fun t m => (AgentModel.kind.register t m).mapError .store) {}
  let accounts ← s.accounts.foldlM (fun t a => (Account.kind.register t a).mapError .store) {}
  return { engine := s.engine
           world := { providers := providers, models := models, accounts := accounts } }

end StepScript
