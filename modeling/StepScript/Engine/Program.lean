import StepScript.Engine.Entry

/-!
# StepScript.Engine.Program

Programs of the root instance: loading one, appending to it, registering event handlers. A program
is prepared as a whole, and checked against the tables of the root, before the first of them is
written; then they are written one by one.
-/

namespace StepScript

/-- A program whose parts are ready to be stored. -/
structure Prepared where
  procedures : List Procedure
  commands : List Commands
  handlers : List EventHandler

def ProcedureDecl.prepare (d : ProcedureDecl) : Except RuntimeError Procedure := do
  let body ← Body.ofSteps d.body
  return { name := d.name, requiredParams := d.requiredParams, optionalParams := d.optionalParams,
           body := body, position := d.position }

def CommandBlock.prepare (c : CommandBlock) : Except RuntimeError Commands := do
  return { body := ← Body.ofSteps c.body, position := c.position }

/-- Procedures have names of their own, which the host has not reserved; `seen` are those before. -/
def prepareProcedures (reserved : List String) :
    List String → List ProcedureDecl → Except RuntimeError (List Procedure)
  | _, [] => .ok []
  | seen, d :: rest =>
    if d.name ∈ reserved then .error ((Fault.procedureOfHost d.name).error.withPosition d.position)
    else if d.name ∈ seen then .error ((Fault.procedureTwice d.name).error.withPosition d.position)
    else do
      let p ← d.prepare
      return p :: (← prepareProcedures reserved (d.name :: seen) rest)

namespace Root

/-- Is there a handler of this name, for whatever event? -/
def hasHandler (r : Root) (name : String) : Bool := r.handlers.any (·.handlerName = some name)

/-- Named handlers have names that are not taken. -/
def checkAvailable (r : Root) : List EventHandler → Except RuntimeError Unit
  | [] => .ok ()
  | h :: rest =>
    match h.handlerName with
    | some name =>
      if r.hasHandler name then .error ((Fault.handlerTaken name).error.withPosition h.position)
      else r.checkAvailable rest
    | none => r.checkAvailable rest

/-- Procedures have names that are not taken. -/
def checkNew (r : Root) (procedures : List Procedure) : Except RuntimeError Unit :=
  match procedures.find? (r.procedures.contains ·.name) with
  | some p => .error ((Fault.procedureTaken p.name).error.withPosition p.position)
  | none => .ok ()

def insertProcedure (r : Root) (p : Procedure) : Root :=
  { r with procedures := r.procedures.insert p.name p }

def insertHandler (r : Root) (h : EventHandler) : Root := { r with handlers := r.handlers ++ [h] }

end Root

namespace Exec

/-- Looks at the tables of the root. -/
def checkRoot (check : Root → Except RuntimeError Unit) : Exec Unit := do
  ofExcept (check (← get).root)

/-- Writes into the tables of the root. -/
def modifyRoot (change : Root → Root) : Exec Unit :=
  modify fun w => { w with root := change w.root }

/-- Adds procedures, of new names unless they may be defined again. -/
def insertProcedures (redefine : Bool) (procedures : List Procedure) : Exec Unit := do
  if redefine then pure () else checkRoot (·.checkNew procedures)
  procedures.forM fun p => modifyRoot (·.insertProcedure p)

def insertHandlers (handlers : List EventHandler) : Exec Unit :=
  handlers.forM fun h => modifyRoot (·.insertHandler h)

end Exec

namespace Engine

variable (engine : Engine) (f : Frame)

/-- Evaluates the name of an event and takes the handler out of the body. -/
def prepareHandler (d : EventDecl) : Exec EventHandler := do
  match ← Exec.mapError (·.atIfUnknown d.position) (engine.evaluate f d.name) with
  | .string name => do
    match d.handlerName with
    | some handler =>
      if handler ∈ engine.symbols.eventHandlers then
        Exec.fail ((Fault.handlerOfHost handler).error.withPosition d.position)
      else pure ()
    | none => pure ()
    let body ← Exec.ofExcept (Body.ofSteps d.body)
    return { eventName := name, handlerName := d.handlerName,
             payloadVariable := d.payloadVariable, body := body, position := d.position }
  | v => Exec.fail ((Fault.eventNameValue v.typeName).error.withPosition d.position)

/-- Handlers in order; `seen` are the names before. -/
def prepareHandlers : List String → List EventDecl → Exec (List EventHandler)
  | _, [] => pure []
  | seen, d :: rest => do
    let h ← prepareHandler engine f d
    match h.handlerName with
    | some name =>
      if name ∈ seen then Exec.fail ((Fault.handlerTwice name).error.withPosition d.position)
      else return h :: (← prepareHandlers (name :: seen) rest)
    | none => return h :: (← prepareHandlers seen rest)

def prepare (p : Program) : Exec Prepared := do
  let procedures ← Exec.ofExcept (prepareProcedures engine.symbols.procedures [] p.procedures)
  let commands ← Exec.ofExcept (p.commands.mapM CommandBlock.prepare)
  let handlers ← prepareHandlers engine f [] p.events
  return { procedures := procedures, commands := commands, handlers := handlers }

def requireRoot (operation : String) : Exec Unit :=
  if f.isRoot then pure () else Exec.fault (.rootOnly operation)

/-- Replaces the program of the root. -/
def load (p : Program) : Exec Unit := do
  requireRoot f "load"
  let prepared ← engine.prepare f p
  let procedures := prepared.procedures.foldl (fun t p => t.insert p.name p) {}
  Exec.modifyRoot fun r => { r with procedures := procedures }
  Exec.modifyRoot fun r => { r with commands := prepared.commands }
  Exec.modifyRoot fun r => { r with handlers := [] }
  Exec.insertHandlers prepared.handlers

/-- Adds to the program of the root. -/
def append (p : Program) : Exec Unit := do
  requireRoot f "append"
  let prepared ← engine.prepare f p
  Exec.checkRoot (·.checkAvailable prepared.handlers)
  Exec.insertProcedures engine.config.allowRedefinition prepared.procedures
  Exec.modifyRoot fun r => { r with commands := r.commands ++ prepared.commands }
  Exec.insertHandlers prepared.handlers

/-- Registers one event handler. -/
def registerEvent (d : EventDecl) : Exec Unit := do
  let h ← engine.prepareHandler f d
  Exec.checkRoot (·.checkAvailable [h])
  Exec.modifyRoot (·.insertHandler h)

end Engine
end StepScript
