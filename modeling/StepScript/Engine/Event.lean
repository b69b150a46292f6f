import StepScript.Engine.Scope

/-!
# StepScript.Engine.Event

Raising events. A handler gets a fork of the raising instance at once and runs later, when the
operation that raised the event has ended.
-/

namespace StepScript

namespace Value

/-- A map of exactly a name and a source, both texts, and a payload. -/
def isCanonicalEvent : Value → Bool
  | .map entries =>
    entries.length = 3 &&
      (match Entries.get? "name" entries with | some (.string _) => true | _ => false) &&
      (match Entries.get? "source" entries with | some (.string _) => true | _ => false) &&
      Entries.contains "payload" entries
  | _ => false

/-- What handlers get: the payload itself if it already is an event. -/
def event (name source : String) (payload : Value) : Value :=
  if payload.isCanonicalEvent then payload
  else .map [("name", .string name), ("payload", payload), ("source", .string source)]

end Value

namespace Exec

/-- Tells the host of a handler that failed, if it wants to know. -/
def report (engine : Engine) (event source : String) (e : RuntimeError) : Exec Unit :=
  if engine.host.eventError then note (.report event source e) else pure ()

/-- Starts one handler. A fork that is too deep is reported at once. -/
def start (engine : Engine) (f : Frame) (name source : String) (event : Value)
    (h : EventHandler) : Exec Nat := do
  match ← attempt (fork engine f ("event:" ++ name) h.body.handler f.outlet) with
  | .ok child =>
    let p : Pending :=
      { frame := child, handler := h, eventName := name, source := source, event := event }
    modify fun w => { w with pending := w.pending ++ [p] }
    pure 1
  | .error e => do
    report engine name source (e.withPosition h.position)
    pure 0

def startAll (engine : Engine) (f : Frame) (name source : String) (event : Value) :
    List EventHandler → Exec Nat
  | [] => pure 0
  | h :: rest => do
    let n ← start engine f name source event h
    return n + (← startAll engine f name source event rest)

/-- Can the host take what a handler of this instance emits and whispers? -/
def wired (engine : Engine) (f : Frame) : Bool :=
  (f.outlet ≠ .host || engine.host.emit) && engine.host.whisper

/-- Starts every handler of an event and counts those that were started. -/
def raise (engine : Engine) (f : Frame) (name source : String) (payload : Value) : Exec Nat := do
  match (← get).root.handlersOf name with
  | [] => pure 0
  | handlers =>
    if wired engine f then startAll engine f name source (.event name source payload) handlers
    else crash (some s!"host misconfiguration: event '{name}' has handlers but the emit/whisper callbacks are not set")

end Exec
end StepScript
