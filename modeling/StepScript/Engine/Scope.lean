import StepScript.Engine.World

/-!
# StepScript.Engine.Scope

Instances and their variables.

* Reading looks at locals, then globals, then constants of the root, then constants of the host.
* Writing binds a local, except that the root writes its globals. Nothing writes a constant and
  no fork writes a global.
* A fork starts without locals and sees the globals as they are when it is made.
-/

namespace StepScript

namespace World

def instance? (w : World) (id : InstanceId) : Option Instance :=
  w.instances.find? (·.frame.id = id)

def locals (w : World) (id : InstanceId) : Table Value :=
  match w.instance? id with
  | some i => i.locals
  | none => {}

/-- Changes the latest instance of an id in a list. -/
def updateLatest (id : InstanceId) (f : Instance → Instance) : List Instance → List Instance
  | [] => []
  | i :: rest => if i.frame.id = id then f i :: rest else i :: updateLatest id f rest

/-- Changes one live instance. -/
def update (w : World) (id : InstanceId) (f : Instance → Instance) : World :=
  { w with instances := updateLatest id f w.instances }

/-- Binds a local, whatever else has the name. -/
def bind (w : World) (id : InstanceId) (name : String) (v : Value) : World :=
  w.update id fun i => { i with locals := i.locals.insert name v }

def bindAll (w : World) (id : InstanceId) (pairs : List (String × Value)) : World :=
  pairs.foldl (fun w p => w.bind id p.1 p.2) w

/-- Ends the life of an instance. -/
def release (w : World) (id : InstanceId) : World :=
  { w with instances := w.instances.eraseP (·.frame.id = id) }

/-- The globals that an instance reads. -/
def globalsOf (w : World) (f : Frame) : Table Value := f.snapshot.getD w.root.globals

def lookup? (w : World) (symbols : Symbols) (f : Frame) (name : String) : Option Value :=
  (w.locals f.id).get? name
    |>.or ((w.globalsOf f).get? name)
    |>.or (w.root.constants.get? name)
    |>.or (symbols.constants.get? name)

def isConstant (w : World) (symbols : Symbols) (name : String) : Bool :=
  w.root.constants.contains name || symbols.constants.contains name

/-- Is the name a global now, or was it one when the instance was forked? -/
def isGlobal (w : World) (f : Frame) (name : String) : Bool :=
  (w.globalsOf f).contains name || w.root.globals.contains name

def setGlobal (w : World) (name : String) (v : Value) : World :=
  { w with root := { w.root with globals := w.root.globals.insert name v } }

/-- The assignment of a script. -/
def assign (w : World) (symbols : Symbols) (f : Frame) (name : String) (v : Value) :
    Except Fault World :=
  if w.isConstant symbols name then .error (.constantWrite name)
  else if w.isGlobal f name then
    if f.isRoot then .ok (w.setGlobal name v) else .error (.globalWrite name)
  else .ok (w.bind f.id name v)

/-- Makes a name global; a local of the root of that name is given up. -/
def defineGlobal (w : World) (symbols : Symbols) (f : Frame) (name : String) (v : Value) :
    Except Fault World :=
  if !f.isRoot then .error (.rootOnly "set global variable")
  else if w.isConstant symbols name then .error (.constantWrite name)
  else
    let w := w.update f.id fun i => { i with locals := i.locals.erase name }
    .ok (w.setGlobal name v)

def defineConstant (w : World) (f : Frame) (name : String) (v : Value) : Except Fault World :=
  if !f.isRoot then .error (.rootOnly "set global constant")
  else if w.root.constants.contains name then .error (.constantDefined name)
  else .ok { w with root := { w.root with constants := w.root.constants.insert name v } }

/-- The frame of the next fork of an instance. -/
def nextFrame (w : World) (parent : Frame) (label : String) (handler : Option (List Step))
    (outlet : Outlet) : Frame where
  id := (match w.instance? parent.id with
    | some i => i.forks
    | none => 0) :: parent.id
  depth := parent.depth + 1
  callStack := parent.callStack ++ [label]
  handler := handler
  outlet := outlet
  snapshot := some w.root.globals

/-- Adds a fork to the live instances. -/
def enlist (w : World) (parent : Frame) (child : Frame) : World :=
  let w := w.update parent.id fun i => { i with forks := i.forks + 1 }
  { w with instances := { frame := child } :: w.instances }

end World

/-- The failure of a fork below the deepest level. -/
def Engine.refusal (engine : Engine) (parent : Frame) (label : String) : RuntimeError :=
  (Fault.depthExceeded (parent.depth + 1) engine.config.maxCallDepth label).error

namespace Exec

def read (engine : Engine) (f : Frame) (name : String) : Exec Value := do
  match (← get).lookup? engine.symbols f name with
  | some v => pure v
  | none => fault (.undefined name)

/-- Replaces the world, unless there is a reason not to. -/
def change (x : World → Except Fault World) : Exec Unit := do
  match x (← get) with
  | .ok w => set w
  | .error f => fault f

def write (engine : Engine) (f : Frame) (name : String) (v : Value) : Exec Unit :=
  change fun w => w.assign engine.symbols f name v

def bindLocal (f : Frame) (name : String) (v : Value) : Exec Unit := modify fun w => w.bind f.id name v

/-- Makes a fork without asking for its depth. -/
def branch (parent : Frame) (label : String) (handler : Option (List Step)) (outlet : Outlet) :
    Exec Frame := do
  let child := (← get).nextFrame parent label handler outlet
  modify fun w => w.enlist parent child
  pure child

/-- Makes a fork, which is at most `maxCallDepth` levels below the root. -/
def fork (engine : Engine) (parent : Frame) (label : String) (handler : Option (List Step))
    (outlet : Outlet) : Exec Frame :=
  if parent.depth + 1 ≤ engine.config.maxCallDepth then branch parent label handler outlet
  else fail (engine.refusal parent label)

end Exec
end StepScript
