import StepScript.Engine.Settle

/-!
# StepScript.Proofs.Computation

Computations in a world, run step by step: what each way to build a computation does to the world
that it starts from, and how the executor goes on after a step.
-/

namespace StepScript

/-- What the host is told of failures. -/
def Engine.notices (engine : Engine) (event source : String) (es : List RuntimeError) :
    List Effect :=
  if engine.host.eventError then es.map (.report event source) else []

theorem Engine.mem_notices {engine : Engine} {event source : String} {es : List RuntimeError}
    {effect : Effect} (h : effect ∈ engine.notices event source es) :
    ∃ e, effect = .report event source e := by
  unfold notices at h
  split at h
  · obtain ⟨e, -, rfl⟩ := List.mem_map.1 h
    exact ⟨e, rfl⟩
  · cases h

namespace Exec

variable {α β : Type}

@[simp] theorem pure_apply (a : α) (w : World) : (pure a : Exec α) w = (.ok a, w) := rfl

@[simp] theorem get_apply (w : World) : (get : Exec World) w = (.ok w, w) := rfl

@[simp] theorem set_apply (w w' : World) : (set w' : Exec PUnit) w = (.ok (), w') := rfl

@[simp] theorem modify_apply (g : World → World) (w : World) :
    (modify g : Exec PUnit) w = (.ok (), g w) := rfl

@[simp] theorem fail_apply (e : RuntimeError) (w : World) :
    (fail e : Exec α) w = (.error (.failed e), w) := rfl

@[simp] theorem note_apply (e : Effect) (w : World) :
    note e w = (.ok (), { w with trace := w.trace.push e }) := rfl

@[simp] theorem bindLocal_apply (f : Frame) (name : String) (v : Value) (w : World) :
    bindLocal f name v w = (.ok (), w.bind f.id name v) := rfl

theorem bind_apply (x : Exec α) (k : α → Exec β) (w : World) :
    (x >>= k) w = match x w with
      | (.ok a, w') => k a w'
      | (.error i, w') => (.error i, w') := by
  show ExceptT.bindCont k (x w).1 (x w).2 = _
  cases x w with
  | mk r w' => cases r <;> rfl

theorem bind_ok {x : Exec α} {k : α → Exec β} {w w' : World} {a : α} (h : x w = (.ok a, w')) :
    (x >>= k) w = k a w' := by
  rw [bind_apply, h]

theorem bind_error {x : Exec α} {k : α → Exec β} {w w' : World} {i : Interrupt}
    (h : x w = (.error i, w')) : (x >>= k) w = (.error i, w') := by
  rw [bind_apply, h]

theorem bind_eq_ok_iff {x : Exec α} {k : α → Exec β} {w w' : World} {b : β} :
    (x >>= k) w = (.ok b, w') ↔ ∃ a w₁, x w = (.ok a, w₁) ∧ k a w₁ = (.ok b, w') := by
  rcases hx : x w with ⟨i | a, w₁⟩
  · rw [bind_error hx]
    constructor
    · intro h
      cases h
    · rintro ⟨a, w₂, h, -⟩
      cases h
  · rw [bind_ok hx]
    constructor
    · exact fun h => ⟨a, w₁, rfl, h⟩
    · rintro ⟨a', w₂, h, hk⟩
      cases h
      exact hk

theorem bind_eq_error_iff {x : Exec α} {k : α → Exec β} {w w' : World} {i : Interrupt} :
    (x >>= k) w = (.error i, w') ↔
      x w = (.error i, w') ∨ ∃ a w₁, x w = (.ok a, w₁) ∧ k a w₁ = (.error i, w') := by
  rcases hx : x w with ⟨j | a, w₁⟩
  · rw [bind_error hx]
    constructor
    · intro h
      cases h
      exact .inl rfl
    · rintro (h | ⟨a, w₂, h, -⟩)
      · cases h
        rfl
      · cases h
  · rw [bind_ok hx]
    constructor
    · exact fun h => .inr ⟨a, w₁, rfl, h⟩
    · rintro (h | ⟨a', w₂, h, hk⟩)
      · cases h
      · cases h
        exact hk

theorem attempt_ok {x : Exec α} {w w' : World} {a : α} (h : x w = (.ok a, w')) :
    attempt x w = (.ok (.ok a), w') := by
  simp [attempt, h]

theorem attempt_failed {x : Exec α} {w w' : World} {e : RuntimeError}
    (h : x w = (.error (.failed e), w')) : attempt x w = (.ok (.error e), w') := by
  simp [attempt, h]

theorem attempt_crashed {x : Exec α} {w w' : World} {text : Option String}
    (h : x w = (.error (.crashed text), w')) : attempt x w = (.error (.crashed text), w') := by
  simp [attempt, h]

@[simp] theorem attempt_world (x : Exec α) (w : World) : (attempt x w).2 = (x w).2 := by
  rcases hx : x w with ⟨(e | text) | a, w'⟩
  · rw [attempt_failed hx]
  · rw [attempt_crashed hx]
  · rw [attempt_ok hx]

/-- Whether a failure is caught depends on the result alone. -/
theorem attempt_result {x y : Exec α} {w v : World} (h : (x w).1 = (y v).1) :
    (attempt x w).1 = (attempt y v).1 := by
  rcases hx : x w with ⟨r, w'⟩
  rcases hy : y v with ⟨r', v'⟩
  obtain rfl : r = r' := by simpa only [hx, hy] using h
  rcases r with (e | text) | a
  · rw [attempt_failed hx, attempt_failed hy]
  · rw [attempt_crashed hx, attempt_crashed hy]
  · rw [attempt_ok hx, attempt_ok hy]

@[simp] theorem mapError_world (g : RuntimeError → RuntimeError) (x : Exec α) (w : World) :
    (mapError g x w).2 = (x w).2 := by
  unfold mapError
  split <;> simp_all

/-- What is done with a failure that was caught to be changed. -/
def reraise (g : RuntimeError → RuntimeError) : Except RuntimeError α → Exec α
  | .ok a => pure a
  | .error e => fail (g e)

theorem mapError_eq (g : RuntimeError → RuntimeError) (x : Exec α) :
    mapError g x = attempt x >>= reraise g := by
  funext w
  rcases hx : x w with ⟨(e | text) | a, w'⟩
  · rw [bind_ok (attempt_failed hx)]
    simp [mapError, hx, reraise]
  · rw [bind_error (attempt_crashed hx)]
    simp [mapError, hx]
  · rw [bind_ok (attempt_ok hx)]
    simp [mapError, hx, reraise]

theorem mapError_result (g : RuntimeError → RuntimeError) {x y : Exec α} {w v : World}
    (h : (x w).1 = (y v).1) : (mapError g x w).1 = (mapError g y v).1 := by
  have hattempt := attempt_result h
  rw [mapError_eq, mapError_eq]
  cases ha : (attempt x w).1 with
  | error i =>
    rw [bind_error (Prod.ext ha rfl), bind_error (Prod.ext (hattempt.symm.trans ha) rfl)]
  | ok r =>
    rw [bind_ok (Prod.ext ha rfl), bind_ok (Prod.ext (hattempt.symm.trans ha) rfl)]
    cases r <;> rfl

@[simp] theorem ensuring_apply (x : Exec α) (g : World → World) (w : World) :
    ensuring x g w = ((x w).1, g (x w).2) := rfl

theorem change_ok {x : World → Except Fault World} {w w' : World} (h : x w = .ok w') :
    change x w = (.ok (), w') := by
  simp only [change, bind_apply, get_apply, h, set_apply]

theorem change_error {x : World → Except Fault World} {w : World} {fault : Fault}
    (h : x w = .error fault) : change x w = (.error (.failed fault.error), w) := by
  simp only [change, bind_apply, get_apply, h]
  rfl

theorem change_world (x : World → Except Fault World) (w : World) :
    (change x w).2 = match x w with
      | .ok w' => w'
      | .error _ => w := by
  simp only [change, bind_apply, get_apply]
  cases x w <;> rfl

/-- An assignment binds a local or, on the root, changes a global; or it fails. -/
theorem write_world (engine : Engine) (f : Frame) (name : String) (v : Value) (w : World) :
    (write engine f name v w).2 = w ∨
      (f.isRoot = true ∧ (write engine f name v w).2 = w.setGlobal name v) ∨
      (write engine f name v w).2 = w.bind f.id name v := by
  simp only [write, change, bind_apply, get_apply, World.assign]
  split
  · exact .inl rfl
  · split
    · split
      · rename_i hroot
        exact .inr (.inl ⟨hroot, rfl⟩)
      · exact .inl rfl
    · exact .inr (.inr rfl)

/-- The assignment of a fork binds a local, unless the name is a constant or a global. -/
theorem write_of_fork {engine : Engine} {f : Frame} (hf : f.isRoot = false) (name : String)
    (v : Value) (w : World) : write engine f name v w =
      if w.isConstant engine.symbols name then
        (.error (.failed (Fault.constantWrite name).error), w)
      else if w.isGlobal f name then (.error (.failed (Fault.globalWrite name).error), w)
      else (.ok (), w.bind f.id name v) := by
  unfold write
  split
  · next hc => exact change_error (by simp only [World.assign, hc, if_true])
  · next hc =>
    split
    · next hg =>
      refine change_error ?_
      simp only [World.assign, hc, hg, hf, Bool.false_eq_true, if_true, if_false]
    · next hg =>
      refine change_ok ?_
      simp only [World.assign, hc, hg, Bool.false_eq_true, if_false]

theorem defineGlobal_world (symbols : Symbols) (f : Frame) (name : String) (v : Value)
    (w : World) : (change (·.defineGlobal symbols f name v) w).2 = w ∨
      (change (·.defineGlobal symbols f name v) w).2 =
        (w.update f.id fun i => { i with locals := i.locals.erase name }).setGlobal name v := by
  rw [change_world]
  unfold World.defineGlobal
  split
  · rename_i h
    split at h
    · cases h
    · split at h
      · cases h
      · cases h
        exact .inr rfl
  · exact .inl rfl

theorem defineConstant_world (f : Frame) (name : String) (v : Value) (w : World) :
    ∃ constants, (change (·.defineConstant f name v) w).2 =
      { w with root := { w.root with constants := constants } } := by
  rw [change_world]
  unfold World.defineConstant
  split
  · rename_i h
    split at h
    · cases h
    · split at h
      · cases h
      · cases h
        exact ⟨_, rfl⟩
  · exact ⟨_, rfl⟩

theorem change_eq_ok_iff {x : World → Except Fault World} {w w' : World} :
    change x w = (.ok (), w') ↔ x w = .ok w' := by
  cases h : x w with
  | ok w₁ =>
    rw [change_ok h]
    constructor <;> intro h' <;> cases h' <;> rfl
  | error fault =>
    rw [change_error h]
    constructor <;> intro h' <;> cases h'

section Success

variable {engine : Engine} {symbols : Symbols} {f : Frame} {name : String} {v : Value}
variable {w w' : World}

/-- What an assignment has checked, and where the value is. -/
theorem write_eq_ok_iff : write engine f name v w = (.ok (), w') ↔
    w.isConstant engine.symbols name = false ∧
      ((w.isGlobal f name = true ∧ f.isRoot = true ∧ w' = w.setGlobal name v) ∨
        (w.isGlobal f name = false ∧ w' = w.bind f.id name v)) := by
  rw [write, change_eq_ok_iff]
  cases hc : w.isConstant engine.symbols name <;> cases hg : w.isGlobal f name <;>
    cases hr : f.isRoot <;> simp [World.assign, hc, hg, hr, eq_comm]

theorem defineGlobal_eq_ok_iff : change (·.defineGlobal symbols f name v) w = (.ok (), w') ↔
    f.isRoot = true ∧ w.isConstant symbols name = false ∧
      w' = (w.update f.id fun i => { i with locals := i.locals.erase name }).setGlobal name v := by
  rw [change_eq_ok_iff]
  cases hr : f.isRoot <;> cases hc : w.isConstant symbols name <;>
    simp [World.defineGlobal, hr, hc, eq_comm]

theorem defineConstant_eq_ok_iff : change (·.defineConstant f name v) w = (.ok (), w') ↔
    f.isRoot = true ∧ w.root.constants.get? name = none ∧
      w' = { w with root := { w.root with constants := w.root.constants.insert name v } } := by
  rw [change_eq_ok_iff]
  cases hr : f.isRoot <;> cases hc : w.root.constants.get? name <;>
    simp [World.defineConstant, Table.contains, hr, hc, eq_comm]

end Success

theorem report_apply (engine : Engine) (event source : String) (e : RuntimeError) (w : World) :
    report engine event source e w =
      (.ok (), { w with trace := w.trace ++ engine.notices event source [e] }) := by
  unfold report Engine.notices
  split
  · simp
  · simp

section Start

variable {engine : Engine} {f : Frame}

theorem fork_of_depth (hd : f.depth + 1 ≤ engine.config.maxCallDepth) (label : String)
    (handler : Option (List Step)) (outlet : Outlet) (w : World) :
    let child := w.nextFrame f label handler outlet
    fork engine f label handler outlet w = (.ok child, w.enlist f child) := by
  rw [fork, if_pos hd]
  rfl

theorem fork_of_refusal (hd : ¬ f.depth + 1 ≤ engine.config.maxCallDepth) (label : String)
    (handler : Option (List Step)) (outlet : Outlet) (w : World) :
    fork engine f label handler outlet w = (.error (.failed (engine.refusal f label)), w) := by
  rw [fork, if_neg hd]
  rfl

theorem start_of_depth (hd : f.depth + 1 ≤ engine.config.maxCallDepth) (name source : String)
    (event : Value) (h : EventHandler) (w : World) :
    let child := w.nextFrame f ("event:" ++ name) h.body.handler f.outlet
    let p : Pending :=
      { frame := child, handler := h, eventName := name, source := source, event := event }
    start engine f name source event h w =
      (.ok 1, { w.enlist f child with pending := (w.enlist f child).pending ++ [p] }) := by
  intro child p
  have hfork : attempt (fork engine f ("event:" ++ name) h.body.handler f.outlet) w =
      (.ok (.ok child), w.enlist f child) :=
    attempt_ok (fork_of_depth hd _ _ _ w)
  simp only [start]
  rw [bind_ok hfork]
  rfl

theorem start_of_refusal (hd : ¬ f.depth + 1 ≤ engine.config.maxCallDepth) (name source : String)
    (event : Value) (h : EventHandler) (w : World) :
    start engine f name source event h w =
      let e := (engine.refusal f ("event:" ++ name)).withPosition h.position
      (.ok 0, { w with trace := w.trace ++ engine.notices name source [e] }) := by
  have hfork : attempt (fork engine f ("event:" ++ name) h.body.handler f.outlet) w =
      (.ok (.error (engine.refusal f ("event:" ++ name))), w) :=
    attempt_failed (fork_of_refusal hd _ _ _ w)
  simp only [start]
  rw [bind_ok hfork]
  simp only
  rw [bind_ok (report_apply _ _ _ _ _)]
  rfl

/-- A handler that is started waits in the next fork of the instance; or there can be no fork, which
is at most reported. -/
theorem start_world (engine : Engine) (f : Frame) (name source : String) (event : Value)
    (h : EventHandler) (w : World) :
    let child := w.nextFrame f ("event:" ++ name) h.body.handler f.outlet
    let p : Pending :=
      { frame := child, handler := h, eventName := name, source := source, event := event }
    (f.depth + 1 ≤ engine.config.maxCallDepth ∧ (start engine f name source event h w).2 =
      { w.enlist f child with pending := (w.enlist f child).pending ++ [p] }) ∨
    ∃ trace, (start engine f name source event h w).2 = { w with trace := trace } := by
  intro child p
  by_cases hd : f.depth + 1 ≤ engine.config.maxCallDepth
  · exact .inl ⟨hd, congrArg Prod.snd (start_of_depth hd name source event h w)⟩
  · exact .inr ⟨_, congrArg Prod.snd (start_of_refusal hd name source event h w)⟩

end Start

/-- Where a body starts that runs in the next fork of an instance. -/
def entryWorld (f : Frame) (a : Activation) (w : World) : World :=
  let child := w.nextFrame f a.label a.body.handler a.outlet
  (w.enlist f child).bindAll child.id a.bindings

theorem enter_apply (engine : Engine) (levels : Nat) (f : Frame) (a : Activation) (w : World) :
    let child := w.nextFrame f a.label a.body.handler a.outlet
    let body := mapError RuntimeError.leavingFrame
      (run engine (enter engine levels) child {} a.body.steps) (entryWorld f a w)
    enter engine (levels + 1) f a w = (body.1, body.2.release child.id) := by
  intro child body
  have hbranch : branch f a.label a.body.handler a.outlet w = (.ok child, w.enlist f child) := rfl
  simp only [enter]
  rw [bind_ok hbranch, bind_ok (modify_apply _ _), ensuring_apply]
  rfl

/-- The world after a body has run in a fork. -/
theorem enter_world (engine : Engine) (levels : Nat) (f : Frame) (a : Activation) (w : World) :
    let child := w.nextFrame f a.label a.body.handler a.outlet
    (enter engine (levels + 1) f a w).2 =
      (run engine (enter engine levels) child {} a.body.steps (entryWorld f a w)).2.release
        child.id := by
  intro child
  rw [enter_apply, mapError_world]

theorem bindAll_eq (id : InstanceId) (pairs : List (String × Value)) : ∀ w : World,
    ∃ instances, w.bindAll id pairs = { w with instances := instances } := by
  induction pairs with
  | nil => intro w; exact ⟨w.instances, rfl⟩
  | cons p rest ih => intro w; exact ih (w.bind id p.1 p.2)

/-- Making a fork and binding its locals changes nothing but the instances. -/
theorem entryWorld_eq (f : Frame) (a : Activation) (w : World) :
    ∃ instances, entryWorld f a w = { w with instances := instances } :=
  bindAll_eq _ _ (w.enlist f (w.nextFrame f a.label a.body.handler a.outlet))

section Entry

variable (f : Frame) (a : Activation) (w : World)

@[simp] theorem entryWorld_trace : (entryWorld f a w).trace = w.trace := by
  obtain ⟨instances, h⟩ := entryWorld_eq f a w
  rw [h]

@[simp] theorem entryWorld_pending : (entryWorld f a w).pending = w.pending := by
  obtain ⟨instances, h⟩ := entryWorld_eq f a w
  rw [h]

@[simp] theorem entryWorld_captures : (entryWorld f a w).captures = w.captures := by
  obtain ⟨instances, h⟩ := entryWorld_eq f a w
  rw [h]

end Entry

/-! ## What follows a step, a pass, a handler and a turn -/

section Continuations

variable {m : Type → Type} [Monad m]

/-- The rest of a block after a step, which may have failed. -/
def afterStep (rest : Value → Bool → m Outcome) (settle : RuntimeError → m Unit) (cleared : Bool) :
    Except RuntimeError StepResult → m Outcome
  | .ok ⟨v, .proceed⟩ => rest v cleared
  | .ok ⟨v, .cleared⟩ => rest v true
  | .ok ⟨v, .returned⟩ => return { value := v, returned := true, cleared := cleared }
  | .error e => do
    settle e
    rest .nil cleared

def afterPass (cleared : Bool) (again : Bool → m StepResult) : LoopFlow → m StepResult
  | .returned v => pure ⟨v, .returned⟩
  | .leave => pure (.ofLoop cleared)
  | .next c => again (cleared || c)

def afterHandler (e : RuntimeError) : Except RuntimeError Outcome → Exec Unit
  | .ok o => if o.cleared then pure () else fail e.markHandled
  | .error inner => fail inner.markHandled

def afterTurn (t : Talk) (turn : Nat) (previous : Option String) (again : String → Exec String)
    (r : Envelope × String) : Exec String :=
  match verdict t.model r.1.control turn previous r.2 with
  | .again => again r.2
  | v => conclude t turn r.2 v

end Continuations

/-- The script of a reply as a body that emits into a capture. -/
def actions (t : Talk) (turn serial : Nat) (body : Body) : Activation :=
  { label := s!"ask:{t.model.name}#{turn}", outlet := .capture serial, body := body }

/-- A reply that is no script fails before anything happens. Otherwise a capture is opened, the
script runs, and its output is what went into the capture. -/
theorem act_cases (engine : Engine) (enter : Enter) (f : Frame) (t : Talk) (turn : Nat)
    (reply : Envelope) (w : World) :
    (∃ e, act engine enter f t turn reply w = (.error (.failed e), w) ∧
      ((∃ p, engine.grammar reply.script = .error p ∧
          e = p.toRuntimeError.withPosition t.position) ∨
        ∃ steps e', engine.grammar reply.script = .ok steps ∧ Body.ofSteps steps = .error e' ∧
          e = e'.atIfUnknown t.position)) ∨
    ∃ steps body, engine.grammar reply.script = .ok steps ∧ Body.ofSteps steps = .ok body ∧
      act engine enter f t turn reply w =
        let run := enter f (actions t turn w.captures body) { w with captures := w.captures + 1 }
        (run.1.map fun _ => "\n".intercalate (capturedLines w.captures run.2.trace), run.2) := by
  unfold act
  cases hsteps : engine.grammar reply.script with
  | error e => exact .inl ⟨_, bind_error rfl, .inl ⟨e, rfl, rfl⟩⟩
  | ok steps =>
    have hplaced : placed t.position
        ((Except.ok steps : Except ParseError (List Step)).mapError ParseError.toRuntimeError) w =
          (.ok steps, w) := rfl
    rw [bind_ok hplaced]
    cases hbody : Body.ofSteps steps with
    | error e => exact .inl ⟨_, bind_error rfl, .inr ⟨steps, e, rfl, hbody, rfl⟩⟩
    | ok body =>
      have hbuilt : ofExcept ((Except.ok body : Except RuntimeError Body).mapError
          (·.atIfUnknown t.position)) w = (.ok body, w) := rfl
      refine .inr ⟨steps, body, rfl, hbody, ?_⟩
      rw [bind_ok hbuilt, bind_ok (get_apply w), bind_ok (modify_apply _ w)]
      show (enter f (actions t turn w.captures body) >>= _) { w with captures := w.captures + 1 } = _
      rcases hrun : enter f (actions t turn w.captures body) { w with captures := w.captures + 1 } with
        ⟨r, w'⟩
      cases r with
      | error i => exact bind_error hrun
      | ok o => exact bind_ok hrun

def callFound (enter : Enter) (f : Frame) (name : String) (args : List Value) :
    Option Procedure → Exec Value
  | none => fault (.procedureMissing name)
  | some p =>
    if args.length < p.arity.1 ∨ p.arity.2 < args.length then
      fault (.procedureArity name p.expected args.length)
    else do
      let o ← enter f
        { label := name, outlet := f.outlet, body := p.body, bindings := p.bindings args }
      return if o.returned then o.value else .nil

theorem callProcedure_eq (enter : Enter) (f : Frame) (name : String) (args : List Value) :
    callProcedure enter f name args =
      get >>= fun w => callFound enter f name args (w.root.procedures.get? name) := by
  funext w
  simp only [callProcedure, bind_apply, get_apply]
  cases w.root.procedures.get? name <;> rfl

def callNamed (engine : Engine) (enter : Enter) (f : Frame) (name : String) (args : List Value)
    (isProcedure : Bool) : Exec Value :=
  if isProcedure then callProcedure enter f name args
  else if engine.tools.contains name then invoke engine f name args
  else fault (.procedureMissing name)

section Call

variable (engine : Engine) (enter : Enter) (f : Frame) {name : String} (args : List Value)

theorem call_of_tool {tool : String} (h : toolName? name = some tool) :
    call engine enter f name args = invoke engine f tool args := by
  simp only [call, h]

theorem call_of_name (h : toolName? name = none) :
    call engine enter f name args =
      get >>= fun w => callNamed engine enter f name args (w.root.procedures.contains name) := by
  simp only [call, h, callNamed]

end Call

theorem runBlock_cons (engine : Engine) (enter : Enter) (f : Frame) (mode : Mode)
    (recover : RuntimeError → Exec Unit) (p : Position) (a : Action) (rest : List Step)
    (last : Value) (cleared : Bool) :
    runBlock engine enter f mode recover (.mk p a :: rest) last cleared =
      attempt (execAction engine enter f mode recover p a) >>=
        afterStep (runBlock engine enter f mode recover rest)
          (fun e => recover (e.atIfUnknown p)) cleared := by
  simp only [runBlock]
  rfl

end Exec

/-- The world after a handler: its fork is gone, and the host has been told if it failed. -/
theorem Engine.runPending_eq (engine : Engine) (p : Pending) (w : World) :
    let run := engine.handlerBody p { w with trace := #[] }
    engine.runPending p w =
      { run.2.release p.frame.id with
        trace := run.2.trace ++
          engine.notices p.eventName p.source (failureOf run.1).toList } := by
  simp only [runPending]
  rcases engine.handlerBody p { w with trace := #[] } with ⟨result, w₁⟩
  cases hfailure : failureOf result with
  | none => simp [hfailure, notices, World.release]
  | some e => simp [hfailure, Exec.report_apply, World.release]

end StepScript
