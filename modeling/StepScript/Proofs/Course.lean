import StepScript.Proofs.Computation

/-!
# StepScript.Proofs.Course

The body of an instance without its handler. A failure of a step, at whatever nesting of blocks,
suspends the body; what is to become of the failure is for someone else to say.

* `Course`      — a run that has ended or waits for the ruling on a failure. The failure may be
  cleared, or a loop signal may take its place; a third way to go on does not exist.
* `Path`        — a course for each world to start from, as a monad.
* `Path.action`, `Path.block` — the executor, with a suspension where a step fails.
-/

namespace StepScript

/-- A run up to the failures in it. It is resumed with nothing if the failure was cleared and with
the loop signal that takes its place otherwise, and in the world that this left behind. -/
inductive Course (α : Type) where
  | ended (result : Except Interrupt α) (w : World)
  | raised (e : RuntimeError) (w : World) (resume : Option RuntimeError → World → Course α)

namespace Course

variable {α β : Type}

def bind : Course α → (α → World → Course β) → Course β
  | .ended (.ok a) w, k => k a w
  | .ended (.error i) w, _ => .ended (.error i) w
  | .raised e w resume, k => .raised e w fun s w' => (resume s w').bind k

def attempt : Course α → Course (Except RuntimeError α)
  | .ended (.ok a) w => .ended (.ok (.ok a)) w
  | .ended (.error (.failed e)) w => .ended (.ok (.error e)) w
  | .ended (.error (.crashed text)) w => .ended (.error (.crashed text)) w
  | .raised e w resume => .raised e w fun s w' => (resume s w').attempt

end Course

def Path (α : Type) : Type := World → Course α

namespace Path

open Exec (afterStep afterPass)

variable {α : Type}

instance : Monad Path where
  pure a := fun w => .ended (.ok a) w
  bind x k := fun w => (x w).bind k

/-- A computation in which no step of the body fails. -/
def lift (x : Exec α) : Path α := fun w => .ended (x w).1 (x w).2

def attempt (x : Path α) : Path (Except RuntimeError α) := fun w => (x w).attempt

def raise (e : RuntimeError) : Path Unit := fun w => .raised e w fun
  | none, w' => .ended (.ok ()) w'
  | some s, w' => .ended (.error (.failed s)) w'

/-- Loop signals pass by, and so do failures that come as handled. -/
def meet (e : RuntimeError) : Path Unit :=
  if e.isControl || e.handled then lift (Exec.fail e) else raise e

def pass (body : Path Outcome) : Path LoopFlow := do
  match ← attempt body with
  | .ok o => return if o.returned then .returned o.value else .next o.cleared
  | .error e =>
    match e.code with
    | .break => return .leave
    | .continue => return .next false
    | _ => lift (Exec.fail e)

def repeatWhile (limit : Nat) (condition : Path Bool) (body : Path Outcome) :
    Nat → Bool → Path StepResult
  | 0, cleared => do
    if ← condition then lift (Exec.fault (.loopExceeded limit)) else pure (.ofLoop cleared)
  | left + 1, cleared => do
    if ← condition then pass body >>= afterPass cleared (repeatWhile limit condition body left)
    else pure (.ofLoop cleared)

def repeatFor (limit : Nat) (visit : Value → Path Unit) (body : Path Outcome) :
    List Value → Nat → Bool → Path StepResult
  | [], _, cleared => pure (.ofLoop cleared)
  | _ :: _, 0, _ => lift (Exec.fault (.loopExceeded limit))
  | v :: rest, left + 1, cleared => do
    visit v
    pass body >>= afterPass cleared (repeatFor limit visit body rest left)

end Path

def Frame.bare (f : Frame) : Frame := { f with handler := none }

namespace Path

open Exec (afterStep runBlock_cons)

variable (engine : Engine) (f : Frame)

def evaluate (e : Expression) : Path Value := lift (Exec.evaluate engine engine.enter f e)

mutual

def action (p : Position) : Action → Path StepResult
  | .branch condition thenBlock elseBlock => do
    if (← evaluate engine f condition).truthy then
      return .ofOutcome (← block thenBlock .nil false)
    else match elseBlock with
      | some steps => return .ofOutcome (← block steps .nil false)
      | none => return ⟨.nil, .proceed⟩
  | .loop condition body =>
    repeatWhile engine.config.maxLoopIterations
      (do return (← evaluate engine f condition).truthy)
      (block body .nil false) engine.config.maxLoopIterations false
  | .forEach item collection body => do
    let items ← lift (Exec.ofFault (← evaluate engine f collection).items)
    repeatFor engine.config.maxLoopIterations (fun v => lift (Exec.write engine f item v))
      (block body .nil false) items engine.config.maxLoopIterations false
  | a => lift (Exec.execSimple engine engine.enter f {} p a)

def block : List Step → Value → Bool → Path Outcome
  | [], last, cleared => return { value := last, cleared := cleared }
  | .mk p a :: rest, _, cleared =>
    attempt (action p a) >>= afterStep (block rest) (fun e => meet (e.atIfUnknown p)) cleared

end

/-- The body of an instance, whatever its handler. -/
def body (steps : List Step) : Path Outcome := block engine f.bare steps .nil false

/-! ## The executor and the path together -/

theorem block_cons (engine : Engine) (f : Frame) (p : Position) (a : Action) (rest : List Step)
    (last : Value) (cleared : Bool) :
    block engine f (.mk p a :: rest) last cleared =
      attempt (action engine f p a) >>=
        afterStep (block engine f rest) (fun e => meet (e.atIfUnknown p)) cleared := by
  simp only [block]

/-- `P` relates what the executor does in the instance to the path, since it relates their parts. -/
structure Follows (P : ∀ α : Type, Exec α → Path α → Prop) : Prop where
  pure {α : Type} (a : α) : P α (Pure.pure a) (Pure.pure a)
  bind {α β : Type} {x : Exec α} {X : Path α} {k : α → Exec β} {K : α → Path β} :
    P α x X → (∀ a, P β (k a) (K a)) → P β (x >>= k) (X >>= K)
  evaluate (e : Expression) :
    P Value (Exec.evaluate engine engine.enter f e) (Path.evaluate engine f.bare e)
  items (v : Value) : P (List Value) (Exec.ofFault v.items) (lift (Exec.ofFault v.items))
  exceeded (limit : Nat) :
    P StepResult (Exec.fault (.loopExceeded limit)) (lift (Exec.fault (.loopExceeded limit)))
  write (name : String) (v : Value) :
    P Unit (Exec.write engine f name v) (lift (Exec.write engine f.bare name v))
  simple (p : Position) (a : Action) :
    P StepResult (Exec.execSimple engine engine.enter f {} p a)
      (lift (Exec.execSimple engine engine.enter f.bare {} p a))
  pass {x : Exec Outcome} {X : Path Outcome} :
    P Outcome x X → P LoopFlow (Exec.pass x) (Path.pass X)
  step {x : Exec StepResult} {X : Path StepResult} {rest : Value → Bool → Exec Outcome}
    {Rest : Value → Bool → Path Outcome} (p : Position) (cleared : Bool) :
    P StepResult x X → (∀ v c, P Outcome (rest v c) (Rest v c)) →
    P Outcome
      (Exec.attempt x >>= afterStep rest
        (fun e => Exec.recover engine engine.enter f (e.atIfUnknown p)) cleared)
      (attempt X >>= afterStep Rest (fun e => meet (e.atIfUnknown p)) cleared)

section Follows

variable {engine : Engine} {f : Frame} {P : ∀ α : Type, Exec α → Path α → Prop}

theorem repeatWhile_follows (hP : Follows engine f P) {limit : Nat} {condition : Exec Bool}
    {Condition : Path Bool} {body : Exec Outcome} {Body : Path Outcome}
    (hcondition : P Bool condition Condition) (hbody : P Outcome body Body) (left : Nat) :
    ∀ cleared, P StepResult (Exec.repeatWhile limit condition body left cleared)
      (repeatWhile limit Condition Body left cleared) := by
  induction left with
  | zero =>
    intro cleared
    simp only [Exec.repeatWhile, repeatWhile]
    refine hP.bind hcondition fun b => ?_
    cases b
    · exact hP.pure _
    · exact hP.exceeded limit
  | succ left ih =>
    intro cleared
    simp only [Exec.repeatWhile, repeatWhile]
    refine hP.bind hcondition fun b => ?_
    cases b
    · exact hP.pure _
    · refine hP.bind (hP.pass hbody) fun flow => ?_
      cases flow with
      | leave => exact hP.pure _
      | next c => exact ih _
      | returned v => exact hP.pure _

theorem repeatFor_follows (hP : Follows engine f P) {limit : Nat} {visit : Value → Exec Unit}
    {Visit : Value → Path Unit} {body : Exec Outcome} {Body : Path Outcome}
    (hvisit : ∀ v, P Unit (visit v) (Visit v)) (hbody : P Outcome body Body) (items : List Value) :
    ∀ left cleared, P StepResult (Exec.repeatFor limit visit body items left cleared)
      (repeatFor limit Visit Body items left cleared) := by
  induction items with
  | nil =>
    intro left cleared
    simp only [Exec.repeatFor, repeatFor]
    exact hP.pure _
  | cons v rest ih =>
    intro left cleared
    cases left with
    | zero =>
      simp only [Exec.repeatFor, repeatFor]
      exact hP.exceeded limit
    | succ left =>
      simp only [Exec.repeatFor, repeatFor]
      refine hP.bind (hvisit v) fun _ => hP.bind (hP.pass hbody) fun flow => ?_
      cases flow with
      | leave => exact hP.pure _
      | next c => exact ih _ _
      | returned v => exact hP.pure _

mutual

theorem action_follows (hP : Follows engine f P) (p : Position) : ∀ a, P StepResult
    (Exec.execAction engine engine.enter f {} (Exec.recover engine engine.enter f) p a)
    (action engine f.bare p a)
  | .branch condition thenBlock none => by
    have hthen := block_follows hP thenBlock
    simp only [Exec.execAction, action]
    refine hP.bind (hP.evaluate condition) fun v => ?_
    split
    · exact hP.bind (hthen _ _) fun _ => hP.pure _
    · exact hP.pure _
  | .branch condition thenBlock (some elseBlock) => by
    have hthen := block_follows hP thenBlock
    have helse := block_follows hP elseBlock
    simp only [Exec.execAction, action]
    refine hP.bind (hP.evaluate condition) fun v => ?_
    split
    · exact hP.bind (hthen _ _) fun _ => hP.pure _
    · exact hP.bind (helse _ _) fun _ => hP.pure _
  | .loop condition body => by
    have hbody := block_follows hP body
    simp only [Exec.execAction, action]
    exact repeatWhile_follows hP (hP.bind (hP.evaluate condition) fun _ => hP.pure _)
      (hbody _ _) _ _
  | .forEach item collection body => by
    have hbody := block_follows hP body
    simp only [Exec.execAction, action]
    refine hP.bind (hP.evaluate collection) fun c => hP.bind (hP.items c) fun items => ?_
    exact repeatFor_follows hP (hP.write item) (hbody _ _) items _ _
  | .set .. | .call _ | .ret _ | .emit _ | .whisper .. | .must _ | .mustBe .. | .fail _
  | .onError _ | .clearError | .ask .. | .promptUser .. | .breakLoop | .continueLoop
  | .expression _ => by
    simp only [Exec.execAction, action]
    exact hP.simple p _

theorem block_follows (hP : Follows engine f P) : ∀ steps last cleared, P Outcome
    (Exec.runBlock engine engine.enter f {} (Exec.recover engine engine.enter f) steps last cleared)
    (block engine f.bare steps last cleared)
  | [], last, cleared => by
    simp only [Exec.runBlock, block]
    exact hP.pure _
  | .mk p a :: rest, last, cleared => by
    have haction := action_follows hP p a
    have hrest := block_follows hP rest
    rw [runBlock_cons, block_cons]
    exact hP.step p cleared haction hrest

end

end Follows

end Path
end StepScript
