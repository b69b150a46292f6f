import StepScript.Proofs.Computation

/-!
# StepScript.Proofs.Hooks

The executor with some of its parts exchanged.

* `Hooks`         — the parts: how variables are written, how a failure is shown to a handler, what
  comes of a handler among the steps of a block and of the end of a block. `Engine.hooks` are those
  of the engine.
* `Hooks.block`, `Hooks.run`, `Hooks.enter` — the executor with these parts.
* `Hooks.Passive` — parts with which it is the engine, apart from the step that no stored body has:
  `Hooks.block_eq`, by induction over the syntax, and `Hooks.run_eq`, `Hooks.runBlock_eq`.
-/

namespace StepScript

/-- An instance takes note of a failure that its handler is to look at, and shows it to the
handler. -/
def Exec.announce (engine : Engine) (f : Frame) (e : RuntimeError) : Exec Unit := do
  note (.recover f.id e)
  bindLocal f engine.config.errorVariable e.toValue

mutual

def Action.hasHandler : Action → Bool
  | .onError _ => true
  | .branch _ thenBlock none => Step.handlerIn thenBlock
  | .branch _ thenBlock (some elseBlock) => Step.handlerIn thenBlock || Step.handlerIn elseBlock
  | .loop _ body => Step.handlerIn body
  | .forEach _ _ body => Step.handlerIn body
  | _ => false

/-- Is there a handler among the steps, at any depth? -/
def Step.handlerIn : List Step → Bool
  | [] => false
  | .mk _ action :: rest => action.hasHandler || Step.handlerIn rest

end

structure Hooks where
  /-- An assignment of an instance. -/
  write : Frame → String → Value → Exec Unit
  /-- What an instance does before its handler looks at a failure. -/
  announce : Frame → RuntimeError → Exec Unit
  /-- A handler that stands among the steps of a block. -/
  inline : List Step → Exec StepResult
  /-- The end of a block that was run in a mode. -/
  ended : Mode → Outcome → Exec Outcome

abbrev Engine.hooks (engine : Engine) : Hooks where
  write := Exec.write engine
  announce := Exec.announce engine
  inline _ := pure ⟨.nil, .proceed⟩
  ended _ := pure

namespace Hooks

open Exec

section Executor

variable (hooks : Hooks) (engine : Engine)

section Steps

variable (enter : Enter) (f : Frame)

def assign (target : Target) (v : Value) : Exec Unit := do
  match target with
  | .variable name => hooks.write f name v
  | .element name key => do
    let k ← evaluate engine enter f key
    let container ← read engine f name
    hooks.write f name (← ofFault (container.setElement k v))

def assignEach : List Target → List Value → Exec Unit
  | t :: ts, v :: vs => do
    assign hooks engine enter f t v
    assignEach ts vs
  | _, _ => pure ()

def assignAll (targets : List Target) (v : Value) : Exec Unit :=
  match targets, v with
  | [t], v => assign hooks engine enter f t v
  | ts, .list vs =>
    if vs.length = ts.length then assignEach hooks engine enter f ts vs
    else fault (.assignCount v.describeCount ts.length)
  | ts, v => fault (.assignCount v.describeCount ts.length)

/-- The actions without blocks. -/
def simple (mode : Mode) (p : Position) : Action → Exec StepResult
  | .set targets value => do
    let v ← evaluate engine enter f value
    assignAll hooks engine enter f targets v
    return ⟨v, .proceed⟩
  | .ask agentModel prompt into => do
    let m ← evaluate engine enter f agentModel
    let q ← evaluate engine enter f prompt
    let v ← ask engine enter f m q p
    match into with
    | some target => assign hooks engine enter f target v
    | none => pure ()
    return ⟨v, .proceed⟩
  | .promptUser prompt into => do
    let q ← evaluate engine enter f prompt
    let v ← promptUser engine q.display
    assign hooks engine enter f into v
    return ⟨v, .proceed⟩
  | .onError body => hooks.inline body
  | a => execSimple engine enter f mode p a

variable (mode : Mode) (recover : RuntimeError → Exec Unit)

mutual

def action (p : Position) : Action → Exec StepResult
  | .branch condition thenBlock elseBlock => do
    if (← evaluate engine enter f condition).truthy then
      return .ofOutcome (← block thenBlock .nil false >>= hooks.ended mode)
    else match elseBlock with
      | some steps => return .ofOutcome (← block steps .nil false >>= hooks.ended mode)
      | none => return ⟨.nil, .proceed⟩
  | .loop condition body =>
    repeatWhile engine.config.maxLoopIterations
      (do return (← evaluate engine enter f condition).truthy)
      (block body .nil false >>= hooks.ended mode) engine.config.maxLoopIterations false
  | .forEach item collection body => do
    let items ← ofFault (← evaluate engine enter f collection).items
    repeatFor engine.config.maxLoopIterations (hooks.write f item)
      (block body .nil false >>= hooks.ended mode) items engine.config.maxLoopIterations false
  | a => simple hooks engine enter f mode p a

/-- The steps from here on. They are no whole block, so their end is left to what they are part
of. -/
def block : List Step → Value → Bool → Exec Outcome
  | [], last, cleared => return { value := last, cleared := cleared }
  | .mk p a :: rest, _, cleared =>
    attempt (action p a) >>= afterStep (block rest) (fun e => recover (e.atIfUnknown p)) cleared

end

/-- A block that is a body or a handler. -/
def whole (steps : List Step) : Exec Outcome :=
  block hooks engine enter f mode recover steps .nil false >>= hooks.ended mode

end Steps

section Frames

variable (enter : Enter) (f : Frame)

def runHandler (active : Option RuntimeError) (steps : List Step) : Exec Outcome :=
  whole hooks engine enter f { inHandler := true, active := active } fail steps

def recover (e : RuntimeError) : Exec Unit :=
  if e.isControl || e.handled then fail e
  else match f.handler with
    | none => fail e
    | some steps => do
      hooks.announce f e
      attempt (runHandler hooks engine enter f (some e) steps) >>= afterHandler e

def run (mode : Mode) (steps : List Step) : Exec Outcome :=
  if mode.inHandler then runHandler hooks engine enter f mode.active steps
  else whole hooks engine enter f mode (recover hooks engine enter f) steps

end Frames

def enterLevels : Nat → Enter
  | 0, parent, a => fail ((engine.refusal parent a.label).atIfUnknown a.position)
  | levels + 1, parent, a => do
    let child ← branch parent a.label a.body.handler a.outlet
    modify fun w => w.bindAll child.id a.bindings
    ensuring
      (mapError RuntimeError.leavingFrame
        (run hooks engine (enterLevels levels) child {} a.body.steps))
      (·.release child.id)

def enter : Enter := fun f => enterLevels hooks engine (engine.levels f) f

def runBlock (f : Frame) (mode : Mode) (steps : List Step) : Exec Outcome :=
  run hooks engine (enter hooks engine) f mode steps

end Executor

/-- Variables are written and failures are shown as the engine does it, and what is done at the end
of a block changes nothing. -/
structure Passive (hooks : Hooks) (engine : Engine) : Prop where
  write : hooks.write = Exec.write engine
  announce : hooks.announce = Exec.announce engine
  ended (enter : Enter) (f : Frame) (mode : Mode) (recover : RuntimeError → Exec Unit)
    (steps : List Step) :
    Exec.runBlock engine enter f mode recover steps .nil false >>= hooks.ended mode =
      Exec.runBlock engine enter f mode recover steps .nil false

theorem Passive.own (engine : Engine) : engine.hooks.Passive engine :=
  ⟨rfl, rfl, fun _ _ _ _ _ => bind_pure _⟩

section Passive

variable {hooks : Hooks} {engine : Engine} {enter : Enter} {f : Frame} {mode : Mode}
variable {recover : RuntimeError → Exec Unit}

theorem assign_eq (h : hooks.write = Exec.write engine) (target : Target) (v : Value) :
    assign hooks engine enter f target v = Exec.assign engine enter f target v := by
  rcases target with name | ⟨name, key⟩ <;> simp only [assign, Exec.assign, h]

theorem assignEach_eq (h : hooks.write = Exec.write engine) (targets : List Target) :
    ∀ vs, assignEach hooks engine enter f targets vs = Exec.assignEach engine enter f targets vs := by
  induction targets with
  | nil => intro vs; simp only [assignEach, Exec.assignEach]
  | cons t ts ih =>
    intro vs
    cases vs with
    | nil => simp only [assignEach, Exec.assignEach]
    | cons v vs => simp only [assignEach, Exec.assignEach, assign_eq h, ih]

theorem assignAll_eq (h : hooks.write = Exec.write engine) (targets : List Target) (v : Value) :
    assignAll hooks engine enter f targets v = Exec.assignAll engine enter f targets v := by
  rcases targets with - | ⟨t, - | ⟨t', ts⟩⟩
  · cases v <;> simp only [assignAll, Exec.assignAll, assignEach_eq h]
  · simp only [assignAll, Exec.assignAll, assign_eq h]
  · cases v <;> simp only [assignAll, Exec.assignAll, assignEach_eq h]

/-- Only a handler among steps can be met with something else. -/
theorem simple_eq (h : hooks.Passive engine) (p : Position) (a : Action)
    (ha : a.hasHandler = true → hooks.inline = engine.hooks.inline) :
    simple hooks engine enter f mode p a = execSimple engine enter f mode p a := by
  cases a with
  | set targets value => simp only [simple, execSimple, assignAll_eq h.write]
  | ask agentModel prompt into => cases into <;> simp only [simple, execSimple, assign_eq h.write]
  | promptUser prompt into => simp only [simple, execSimple, assign_eq h.write]
  | onError body =>
    rw [simple, ha (by simp only [Action.hasHandler]), execSimple]
  | _ => simp only [simple]

mutual

theorem action_eq (h : hooks.Passive engine) (p : Position) : ∀ a : Action,
    (a.hasHandler = true → hooks.inline = engine.hooks.inline) →
    action hooks engine enter f mode recover p a = execAction engine enter f mode recover p a
  | .branch condition thenBlock none, ha => by
    have hthen := block_eq h thenBlock (by simpa only [Action.hasHandler] using ha)
    simp only [action, execAction, hthen, h.ended]
  | .branch condition thenBlock (some elseBlock), ha => by
    simp only [Action.hasHandler, Bool.or_eq_true] at ha
    have hthen := block_eq h thenBlock fun hb => ha (.inl hb)
    have helse := block_eq h elseBlock fun hb => ha (.inr hb)
    simp only [action, execAction, hthen, helse, h.ended]
  | .loop condition body, ha => by
    have hbody := block_eq h body (by simpa only [Action.hasHandler] using ha)
    simp only [action, execAction, hbody, h.ended]
  | .forEach item collection body, ha => by
    have hbody := block_eq h body (by simpa only [Action.hasHandler] using ha)
    simp only [action, execAction, hbody, h.ended, h.write]
  | .set .., ha | .call _, ha | .ret _, ha | .emit _, ha | .whisper .., ha | .must _, ha
  | .mustBe .., ha | .fail _, ha | .onError _, ha | .clearError, ha | .ask .., ha
  | .promptUser .., ha | .breakLoop, ha | .continueLoop, ha | .expression _, ha => by
    simp only [action, execAction]
    exact simple_eq h p _ ha

theorem block_eq (h : hooks.Passive engine) : ∀ steps : List Step,
    (Step.handlerIn steps = true → hooks.inline = engine.hooks.inline) → ∀ last cleared,
    block hooks engine enter f mode recover steps last cleared =
      Exec.runBlock engine enter f mode recover steps last cleared
  | [], _, last, cleared => by simp only [block, Exec.runBlock]
  | .mk p a :: rest, hs, last, cleared => by
    simp only [Step.handlerIn, Bool.or_eq_true] at hs
    have haction := action_eq h p a fun hb => hs (.inl hb)
    have hrest : block hooks engine enter f mode recover rest =
        Exec.runBlock engine enter f mode recover rest :=
      funext fun last => funext fun cleared =>
        block_eq h rest (fun hb => hs (.inr hb)) last cleared
    rw [runBlock_cons, ← haction, ← hrest]
    simp only [block]

end

theorem whole_eq (h : hooks.Passive engine) {steps : List Step}
    (hs : Step.handlerIn steps = true → hooks.inline = engine.hooks.inline) :
    whole hooks engine enter f mode recover steps =
      Exec.runBlock engine enter f mode recover steps .nil false := by
  rw [whole, block_eq h steps hs, h.ended]

theorem recover_eq (h : hooks.Passive engine)
    (hf : ∀ block, f.handler = some block → Step.handlerIn block = true →
      hooks.inline = engine.hooks.inline) (e : RuntimeError) :
    Hooks.recover hooks engine enter f e = Exec.recover engine enter f e := by
  unfold Hooks.recover Exec.recover
  cases hh : f.handler with
  | none => rfl
  | some block =>
    simp only [runHandler, whole_eq h (hf block hh), h.announce]
    rfl

theorem run_eq (h : hooks.Passive engine)
    (hf : ∀ block, f.handler = some block → Step.handlerIn block = true →
      hooks.inline = engine.hooks.inline) (mode : Mode) {steps : List Step}
    (hs : Step.handlerIn steps = true → hooks.inline = engine.hooks.inline) :
    run hooks engine enter f mode steps = Exec.run engine enter f mode steps := by
  have hrecover : Hooks.recover hooks engine enter f = Exec.recover engine enter f :=
    funext fun e => recover_eq h hf e
  simp only [run, Exec.run, runHandler, Exec.runHandler, whole_eq h hs, hrecover]

theorem enterLevels_eq (h : hooks.Passive engine) (hinline : hooks.inline = engine.hooks.inline)
    (levels : Nat) : enterLevels hooks engine levels = Exec.enter engine levels := by
  induction levels with
  | zero => rfl
  | succ levels ih =>
    funext parent a
    simp only [enterLevels, Exec.enter, ih, run_eq h (fun _ _ _ => hinline) _ fun _ => hinline]

theorem runBlock_eq (h : hooks.Passive engine) (hinline : hooks.inline = engine.hooks.inline)
    (f : Frame) (mode : Mode) (steps : List Step) :
    hooks.runBlock engine f mode steps = engine.runBlock f mode steps := by
  have henter : enter hooks engine = engine.enter :=
    funext fun f => congrFun (enterLevels_eq h hinline (engine.levels f)) f
  rw [runBlock, henter, run_eq h (fun _ _ _ => hinline) mode fun _ => hinline]
  rfl

end Passive

/-! ## The parts of the engine -/

section Own

variable (engine : Engine) (enter : Enter) (f : Frame) (mode : Mode)

theorem own_assign (target : Target) (v : Value) :
    engine.hooks.assign engine enter f target v = Exec.assign engine enter f target v :=
  assign_eq rfl target v

theorem own_simple (p : Position) (a : Action) :
    engine.hooks.simple engine enter f mode p a = execSimple engine enter f mode p a :=
  simple_eq (.own engine) p a fun _ => rfl

theorem own_block (recover : RuntimeError → Exec Unit) (steps : List Step) (last : Value)
    (cleared : Bool) : engine.hooks.block engine enter f mode recover steps last cleared =
      Exec.runBlock engine enter f mode recover steps last cleared :=
  block_eq (.own engine) steps (fun _ => rfl) last cleared

theorem own_runHandler (active : Option RuntimeError) (steps : List Step) :
    engine.hooks.runHandler engine enter f active steps =
      Exec.runHandler engine enter f active steps :=
  whole_eq (.own engine) fun _ => rfl

theorem own_recover (e : RuntimeError) :
    engine.hooks.recover engine enter f e = Exec.recover engine enter f e :=
  recover_eq (.own engine) (fun _ _ _ => rfl) e

theorem own_run (steps : List Step) :
    engine.hooks.run engine enter f mode steps = Exec.run engine enter f mode steps :=
  run_eq (.own engine) (fun _ _ _ => rfl) mode fun _ => rfl

end Own

end Hooks
end StepScript
