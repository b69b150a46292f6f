import StepScript.Proofs.Reachable
import StepScript.Proofs.Unbounded

/-!
# StepScript.Proofs.Termination

The unbounded engine comes to its end on every program, and then it has done what the engine does.

* `Exec.Converges` — with a large enough allowance, nothing is cut off.
* `Unbounded.block_converges` — a block in one instance, if what it enters converges: by induction
  over its syntax, and for a loop over the passes and for a conversation over the turns that are
  left.
* `Unbounded.enter_converges` — a body in a fork, by induction on the levels below the parent.
* `Unbounded.settle_converges` — the handlers that wait: each round of them is deeper than the last.
-/

namespace StepScript
namespace Exec

/-- `X none` is a computation of the engine, `X (some (n, cut))` the unbounded one with the
allowance `n`. From every world some allowance, and every larger one, is enough for both to do
the same. -/
def Converges (α : Type) (X : Option (Nat × Cut) → Exec α) : Prop :=
  ∀ w, ∃ n, ∀ m, n ≤ m → ∀ cut, X (some (m, cut)) w = X none w

namespace Converges

variable {α β : Type}

theorem const (x : Exec α) : Converges α fun _ => x := fun _ => ⟨0, fun _ _ _ => rfl⟩

theorem bind {X : Option (Nat × Cut) → Exec α} {K : Option (Nat × Cut) → α → Exec β}
    (hX : Converges α X) (hK : ∀ a, Converges β fun i => K i a) :
    Converges β fun i => X i >>= K i := by
  intro w
  obtain ⟨n, hn⟩ := hX w
  cases hx : X none w with
  | mk r w' =>
    cases r with
    | ok a =>
      obtain ⟨n', hn'⟩ := hK a w'
      refine ⟨max n n', fun m hm cut => ?_⟩
      have hsome : X (some (m, cut)) w = (.ok a, w') := (hn m (by omega) cut).trans hx
      show (X (some (m, cut)) >>= K (some (m, cut))) w = (X none >>= K none) w
      rw [bind_ok hsome, bind_ok hx]
      exact hn' m (by omega) cut
    | error i =>
      refine ⟨n, fun m hm cut => ?_⟩
      have hsome : X (some (m, cut)) w = (.error i, w') := (hn m hm cut).trans hx
      show (X (some (m, cut)) >>= K (some (m, cut))) w = (X none >>= K none) w
      rw [bind_error hsome, bind_error hx]

theorem attempt {X : Option (Nat × Cut) → Exec α} (hX : Converges α X) :
    Converges (Except RuntimeError α) fun i => Exec.attempt (X i) := by
  intro w
  obtain ⟨n, hn⟩ := hX w
  refine ⟨n, fun m hm cut => ?_⟩
  simp only [Exec.attempt, hn m hm cut]

theorem ensuring (g : World → World) {X : Option (Nat × Cut) → Exec α} (hX : Converges α X) :
    Converges α fun i => Exec.ensuring (X i) g := by
  intro w
  obtain ⟨n, hn⟩ := hX w
  refine ⟨n, fun m hm cut => ?_⟩
  simp only [Exec.ensuring, hn m hm cut]

theorem closed : Closed (fun _ => True) Converges where
  pure a := const (Pure.pure a)
  bind hX hK := hX.bind hK
  get {β K} hK w := by
    obtain ⟨n, hn⟩ := hK w w
    exact ⟨n, hn⟩
  attempt {α β X K} hX hok herror := by
    refine hX.attempt.bind fun r => ?_
    cases r with
    | ok a => exact hok a
    | error e => exact herror e trivial
  fail _ := const _
  crash text _ := const (Exec.crash text)
  unwired _ := trivial
  plain _ := trivial
  placed _ _ := trivial

/-- One call more needs one more of the allowance. -/
theorem delay {X Y : Option (Nat × Cut) → Exec α} (hX : Converges α X)
    (hsome : ∀ n cut, Y (some (n + 1, cut)) = X (some (n, cut))) (hnone : Y none = X none) :
    Converges α Y := by
  intro w
  obtain ⟨n, hn⟩ := hX w
  refine ⟨n + 1, fun m hm cut => ?_⟩
  obtain ⟨m, rfl⟩ : ∃ k, m = k + 1 := ⟨m - 1, by omega⟩
  rw [hsome, hnone]
  exact hn m (by omega) cut

end Converges
end Exec

namespace Unbounded

open Exec

/-- One of the engine and one for each allowance. -/
def side {β : Type} (x : β) (y : Nat → Cut → β) : Option (Nat × Cut) → β
  | none => x
  | some (n, cut) => y n cut

section Instance

variable {engine : Engine} {base : Enter} {f : Frame}

abbrev entering (engine : Engine) (base : Enter) : Option (Nat × Cut) → Enter :=
  side base fun n cut => enter engine cut n

variable (henter : ∀ a, Converges Outcome fun i => entering engine base i f a)

include henter

theorem services_converge :
    Services Converges engine (entering engine base) (fun _ => f) f.outlet where
  outlet _ := rfl
  enter := henter
  start _ _ _ _ := .const _
  consult _ _ := .const _
  enterTool _ := .const _
  host _ _ _ := .const _
  chat _ _ _ := .const _
  capture _ := .const _
  openConversation := .const _

theorem expressions_converge :
    Expressions Converges engine (entering engine base) (fun _ => f) where
  read _ := .const _
  call := call_closed Converges.closed (services_converge henter)

theorem primitives_converge :
    Primitives Converges engine (entering engine base) (fun _ => f) where
  toExpressions := expressions_converge henter
  write _ _ := .const _
  ask := ask_closed Converges.closed (services_converge henter)
  emit _ := .const _
  whisper _ _ := .const _
  promptUser _ := .const _
  clear := .const _

omit henter in
/-- The verdict to go on is given only if turns are left. -/
theorem verdict_ne_again {m : AgentModel} {turn : Nat} (h : m.maxTurns ≤ turn)
    (control : LoopControl) (previous : Option String) (output : String) :
    verdict m control turn previous output ≠ .again := by
  unfold verdict
  split
  · simp
  · rw [if_pos h]
    split <;> simp
  · simp

/-- So the bound on the turns of a conversation is never met. -/
theorem converse_converges (t : Talk) (left : Nat) : ∀ turn previous,
    t.model.maxTurns ≤ turn + left → Converges String (side
      (Exec.converse engine base f t left turn previous)
      fun n cut => converse engine cut n f t turn previous) := by
  have hturn := ((services_converge henter).talks Converges.closed).takeTurn Converges.closed t
  induction left with
  | zero =>
    intro turn previous hleft
    have hX : Converges String fun i =>
        takeTurn engine (entering engine base i) f t turn previous >>= fun r =>
          conclude t turn r.2 (verdict t.model r.1.control turn previous r.2) :=
      (hturn turn previous).bind fun _ => .const _
    refine hX.delay (fun n cut => ?_) rfl
    simp only [side, converse]
    congr 1
    funext ⟨reply, output⟩
    have hstop := verdict_ne_again hleft reply.control previous output
    cases hv : verdict t.model reply.control turn previous output with
    | again => exact absurd hv hstop
    | finished | aborted _ | rejected => rfl
  | succ left ih =>
    intro turn previous hleft
    have hX : Converges String fun i =>
        takeTurn engine (entering engine base i) f t turn previous >>=
          afterTurn t turn previous fun output =>
            side (Exec.converse engine base f t left (turn + 1) (some output))
              (fun n cut => converse engine cut n f t (turn + 1) (some output)) i := by
      refine (hturn turn previous).bind fun r => ?_
      unfold afterTurn
      split
      · exact ih (turn + 1) _ (by omega)
      · exact .const _
    refine hX.delay (fun n cut => ?_) ?_
    · simp only [side, converse]
      rfl
    · simp only [side, Exec.converse]
      rfl

/-- A loop that has made `passes` of the passes it may make has the others left. -/
theorem loop_converges {mode : Mode} (condition : Expression) {body : List Step}
    {blocks : Exec Outcome} (hbody : Converges Outcome (side blocks
      fun n cut => block engine cut n f mode body .nil false)) (left : Nat) : ∀ passes cleared,
    passes + left = engine.config.maxLoopIterations → Converges StepResult (side
      (repeatWhile engine.config.maxLoopIterations
        (do return (← evaluate engine base f condition).truthy) blocks left cleared)
      fun n cut => loop engine cut n f mode condition body passes cleared) := by
  have hcondition :=
    evaluate_closed Converges.closed.toSequenced (expressions_converge henter) condition
  have hpass := Converges.closed.pass hbody
  induction left with
  | zero =>
    intro passes cleared hleft
    have hX : Converges StepResult fun i =>
        evaluate engine (entering engine base i) f condition >>= fun v =>
          if v.truthy then fault (.loopExceeded engine.config.maxLoopIterations)
          else pure (.ofLoop cleared) :=
      hcondition.bind fun _ => .const _
    refine hX.delay (fun n cut => ?_) ?_
    · simp only [side, loop]
      rw [if_pos (show engine.config.maxLoopIterations < passes + 1 by omega)]
    · simp only [side, repeatWhile, bind_assoc, pure_bind]
  | succ left ih =>
    intro passes cleared hleft
    have hX : Converges StepResult fun i =>
        evaluate engine (entering engine base i) f condition >>= fun v =>
          if v.truthy then
            pass (side blocks (fun n cut => block engine cut n f mode body .nil false) i) >>=
              afterPass cleared fun cleared => side
                (repeatWhile engine.config.maxLoopIterations
                  (do return (← evaluate engine base f condition).truthy) blocks left cleared)
                (fun n cut => loop engine cut n f mode condition body (passes + 1) cleared) i
          else pure (.ofLoop cleared) := by
      refine hcondition.bind fun v => ?_
      split
      · refine hpass.bind fun flow => ?_
        cases flow with
        | leave => exact .const _
        | next c => exact ih (passes + 1) (cleared || c) (by omega)
        | returned v => exact .const _
      · exact .const _
    refine hX.delay (fun n cut => ?_) ?_
    · simp only [side, loop]
      rw [if_neg (show ¬ engine.config.maxLoopIterations < passes + 1 by omega)]
      rfl
    · simp only [side, repeatWhile, bind_assoc, pure_bind]
      rfl

omit henter in
theorem each_converges {mode : Mode} {item : String} {body : List Step} {blocks : Exec Outcome}
    (hbody : Converges Outcome (side blocks
      fun n cut => block engine cut n f mode body .nil false)) (items : List Value) :
    ∀ left passes cleared, passes + left = engine.config.maxLoopIterations →
      Converges StepResult (side
        (repeatFor engine.config.maxLoopIterations (write engine f item) blocks items left cleared)
        fun n cut => each engine cut n f mode item body items passes cleared) := by
  have hpass := Converges.closed.pass hbody
  induction items with
  | nil =>
    intro left passes cleared hleft
    refine (Converges.const (pure (.ofLoop cleared))).delay (fun n cut => ?_) ?_
    · simp only [side, each]
    · simp only [side, repeatFor]
  | cons v rest ih =>
    intro left passes cleared hleft
    cases left with
    | zero =>
      have hX : Converges StepResult fun _ =>
          fault (.loopExceeded engine.config.maxLoopIterations) := .const _
      refine hX.delay (fun n cut => ?_) ?_
      · simp only [side, each]
        rw [if_pos (show engine.config.maxLoopIterations < passes + 1 by omega)]
      · simp only [side, repeatFor]
    | succ left =>
      have hX : Converges StepResult fun i =>
          write engine f item v >>= fun _ =>
            pass (side blocks (fun n cut => block engine cut n f mode body .nil false) i) >>=
              afterPass cleared fun cleared => side
                (repeatFor engine.config.maxLoopIterations (write engine f item) blocks rest left
                  cleared)
                (fun n cut => each engine cut n f mode item body rest (passes + 1) cleared) i := by
        refine (Converges.const _).bind fun _ => hpass.bind fun flow => ?_
        cases flow with
        | leave => exact .const _
        | next c => exact ih left (passes + 1) (cleared || c) (by omega)
        | returned v => exact .const _
      refine hX.delay (fun n cut => ?_) ?_
      · simp only [side, each]
        rw [if_neg (show ¬ engine.config.maxLoopIterations < passes + 1 by omega)]
        rfl
      · simp only [side, repeatFor]
        rfl

end Instance

section Blocks

variable {engine : Engine} {base : Enter} {f : Frame} {mode : Mode}
variable {recovery : RuntimeError → Exec Unit}

/-- The actions that the engine and the unbounded engine execute by the same definition. -/
theorem simple_converges (henter : ∀ a, Converges Outcome fun i => entering engine base i f a)
    {p : Position} {action : Action}
    (hstep : ∀ n cut, step engine cut (n + 1) f mode p action =
      execSimple engine (enter engine cut n) f mode p action)
    (hexec : execAction engine base f mode recovery p action =
      execSimple engine base f mode p action) :
    Converges StepResult (side (execAction engine base f mode recovery p action)
      fun n cut => step engine cut n f mode p action) := by
  have hX : Converges StepResult fun i =>
      execSimple engine (entering engine base i) f mode p action :=
    execSimple_closed Converges.closed.toSequenced (primitives_converge henter) p action
      (fun _ => trivial) (fun _ => trivial) fun _ _ => trivial
  exact hX.delay hstep hexec

mutual

theorem step_converges (henter : ∀ a, Converges Outcome fun i => entering engine base i f a)
    (hrecover : ∀ e, Converges Unit (side (recovery e)
      fun n cut => recover engine cut n f mode e)) (p : Position) : ∀ action,
    Converges StepResult (side (execAction engine base f mode recovery p action)
      fun n cut => step engine cut n f mode p action)
  | .branch condition thenBlock none => by
    have hcondition :=
      evaluate_closed Converges.closed.toSequenced (expressions_converge henter) condition
    have hthen := block_converges henter hrecover thenBlock .nil false
    have hX : Converges StepResult fun i =>
        evaluate engine (entering engine base i) f condition >>= fun v =>
          if v.truthy then
            StepResult.ofOutcome <$> side
              (runBlock engine base f mode recovery thenBlock .nil false)
              (fun n cut => block engine cut n f mode thenBlock .nil false) i
          else pure ⟨.nil, .proceed⟩ := by
      refine hcondition.bind fun v => ?_
      split
      · exact hthen.bind fun _ => .const _
      · exact .const _
    refine hX.delay (fun n cut => ?_) ?_
    · simp only [side, step]
      rfl
    · simp only [side, execAction]
      rfl
  | .branch condition thenBlock (some elseBlock) => by
    have hcondition :=
      evaluate_closed Converges.closed.toSequenced (expressions_converge henter) condition
    have hthen := block_converges henter hrecover thenBlock .nil false
    have helse := block_converges henter hrecover elseBlock .nil false
    have hX : Converges StepResult fun i =>
        evaluate engine (entering engine base i) f condition >>= fun v =>
          if v.truthy then
            StepResult.ofOutcome <$> side
              (runBlock engine base f mode recovery thenBlock .nil false)
              (fun n cut => block engine cut n f mode thenBlock .nil false) i
          else
            StepResult.ofOutcome <$> side
              (runBlock engine base f mode recovery elseBlock .nil false)
              (fun n cut => block engine cut n f mode elseBlock .nil false) i := by
      refine hcondition.bind fun v => ?_
      split
      · exact hthen.bind fun _ => .const _
      · exact helse.bind fun _ => .const _
    refine hX.delay (fun n cut => ?_) ?_
    · simp only [side, step]
      rfl
    · simp only [side, execAction]
      rfl
  | .loop condition body => by
    have hbody := block_converges henter hrecover body .nil false
    have hloop := loop_converges henter condition hbody engine.config.maxLoopIterations 0 false
      (by omega)
    exact hloop.delay (fun n cut => by simp only [side, step]) (by simp only [side, execAction])
  | .forEach item collection body => by
    have hcollection :=
      evaluate_closed Converges.closed.toSequenced (expressions_converge henter) collection
    have hbody := block_converges henter hrecover body .nil false
    have hX : Converges StepResult fun i =>
        evaluate engine (entering engine base i) f collection >>= fun v =>
          ofFault v.items >>= fun items => side
            (repeatFor engine.config.maxLoopIterations (write engine f item)
              (runBlock engine base f mode recovery body .nil false) items
              engine.config.maxLoopIterations false)
            (fun n cut => each engine cut n f mode item body items 0 false) i :=
      hcollection.bind fun v => (Converges.const _).bind fun items =>
        each_converges hbody items _ 0 false (by omega)
    refine hX.delay (fun n cut => ?_) ?_
    · simp only [side, step]
    · simp only [side, execAction]
  | .ask agentModel prompt into => by
    have heval := evaluate_closed Converges.closed.toSequenced (expressions_converge henter)
    have hask := ((services_converge henter).talks Converges.closed).askWith Converges.closed fun t =>
      converse_converges henter t (t.model.maxTurns - 1) 1 none (by omega)
    have hX : Converges StepResult fun i =>
        evaluate engine (entering engine base i) f agentModel >>= fun m =>
          evaluate engine (entering engine base i) f prompt >>= fun q =>
            askWith (fun t => side
              (Exec.converse engine base f t (t.model.maxTurns - 1) 1 none)
              (fun n cut => converse engine cut n f t 1 none) i) m q p >>= fun v =>
              (match into with
                | some target => assign engine (entering engine base i) f target v
                | none => pure ()) >>= fun _ => pure ⟨v, .proceed⟩ := by
      refine (heval agentModel).bind fun m => (heval prompt).bind fun q => ?_
      refine (hask m q p).bind fun v => ?_
      cases into with
      | some target =>
        have hassign :=
          assign_closed Converges.closed.toSequenced (primitives_converge henter).toActivities v
            target
        exact hassign.bind fun _ => .const _
      | none => exact (Converges.const (pure ())).bind fun _ => .const _
    refine hX.delay (fun n cut => ?_) ?_
    · simp only [side, step]
      cases into <;> rfl
    · simp only [side, execAction, execSimple, ask_eq]
      cases into <;> rfl
  | .set .. | .call _ | .ret _ | .emit _ | .whisper .. | .must _ | .mustBe .. | .fail _
  | .onError _ | .clearError | .promptUser .. | .breakLoop | .continueLoop | .expression _ => by
    refine simple_converges henter (fun n cut => ?_) ?_
    · simp only [step]
    · simp only [execAction]

theorem block_converges (henter : ∀ a, Converges Outcome fun i => entering engine base i f a)
    (hrecover : ∀ e, Converges Unit (side (recovery e)
      fun n cut => recover engine cut n f mode e)) : ∀ steps last cleared,
    Converges Outcome (side (runBlock engine base f mode recovery steps last cleared)
      fun n cut => block engine cut n f mode steps last cleared)
  | [], last, cleared => by
    refine (Converges.const (pure { value := last, cleared := cleared })).delay
      (fun n cut => ?_) ?_
    · simp only [side, block]
    · simp only [side, runBlock]
  | .mk p action :: rest, last, cleared => by
    have haction := step_converges henter hrecover p action
    have hrest := block_converges henter hrecover rest
    have hX : Converges Outcome fun i =>
        attempt (side (execAction engine base f mode recovery p action)
          (fun n cut => step engine cut n f mode p action) i) >>=
          afterStep
            (fun v cleared => side (runBlock engine base f mode recovery rest v cleared)
              (fun n cut => block engine cut n f mode rest v cleared) i)
            (fun e => side (recovery (e.atIfUnknown p))
              (fun n cut => recover engine cut n f mode (e.atIfUnknown p)) i) cleared := by
      refine haction.attempt.bind fun r => ?_
      rcases r with e | ⟨v, flow⟩
      · exact (hrecover _).bind fun _ => hrest _ _
      · cases flow with
        | proceed => exact hrest _ _
        | returned => exact .const _
        | cleared => exact hrest _ _
    refine hX.delay (fun n cut => ?_) ?_
    · simp only [side, block]
      rfl
    · simp only [side, runBlock_cons]

end

/-- Inside a handler nothing is handled. -/
theorem handler_converges (henter : ∀ a, Converges Outcome fun i => entering engine base i f a)
    (active : Option RuntimeError) (steps : List Step) :
    Converges Outcome (side (runHandler engine base f active steps) fun n cut =>
      block engine cut n f { inHandler := true, active := active } steps .nil false) := by
  refine block_converges henter (fun e => ?_) steps .nil false
  have hX : Converges Unit fun _ => fail e := .const _
  refine hX.delay (fun n cut => ?_) rfl
  simp [side, recover]

/-- Outside of handlers a failure is handled once, by a block inside a handler. -/
theorem recover_converges (henter : ∀ a, Converges Outcome fun i => entering engine base i f a)
    (hmode : mode.inHandler = false) (e : RuntimeError) :
    Converges Unit (side (Exec.recover engine base f e)
      fun n cut => recover engine cut n f mode e) := by
  by_cases hpass : (e.isControl || e.handled) = true
  · have hX : Converges Unit fun _ => fail e := .const _
    refine hX.delay (fun n cut => ?_) ?_
    · simp only [side, recover, hmode, Bool.or_false, if_pos hpass]
    · simp only [side, Exec.recover, if_pos hpass]
  · cases hh : f.handler with
    | none =>
      have hX : Converges Unit fun _ => fail e := .const _
      refine hX.delay (fun n cut => ?_) ?_
      · simp only [side, recover, hmode, Bool.or_false, if_neg hpass, hh]
      · simp only [side, Exec.recover, if_neg hpass, hh]
    | some handler =>
      have hhandler := handler_converges henter (some e) handler
      have hX : Converges Unit fun i =>
          note (.recover f.id e) >>= fun _ =>
            bindLocal f engine.config.errorVariable e.toValue >>= fun _ =>
              attempt (side (runHandler engine base f (some e) handler)
                (fun n cut =>
                  block engine cut n f { inHandler := true, active := some e } handler .nil false)
                i) >>= afterHandler e :=
        (Converges.const _).bind fun _ => (Converges.const _).bind fun _ =>
          hhandler.attempt.bind fun _ => .const _
      refine hX.delay (fun n cut => ?_) ?_
      · simp only [side, recover, hmode, Bool.or_false, if_neg hpass, hh]
        rfl
      · simp only [side, Exec.recover, if_neg hpass, hh]
        rfl

theorem run_converges (henter : ∀ a, Converges Outcome fun i => entering engine base i f a)
    (mode : Mode) (steps : List Step) :
    Converges Outcome (side (run engine base f mode steps)
      fun n cut => block engine cut n f mode steps .nil false) := by
  cases hmode : mode.inHandler with
  | false =>
    simp only [run, hmode]
    exact block_converges henter (recover_converges henter hmode) steps .nil false
  | true =>
    have hrun := handler_converges henter mode.active steps
    rw [← hmode] at hrun
    simp only [run, hmode]
    exact hrun

end Blocks

section Forks

variable {engine : Engine}

/-- A body in a fork, by induction on the levels below the parent: the fork has one less, so what
it enters converges. -/
theorem enter_converges (levels : Nat) : ∀ (f : Frame) (a : Activation), engine.levels f = levels →
    Converges Outcome fun i => entering engine (Exec.enter engine levels) i f a := by
  induction levels with
  | zero =>
    intro f a hlevels
    have hX : Converges Outcome fun _ =>
        fail ((engine.refusal f a.label).atIfUnknown a.position) := .const _
    refine hX.delay (fun n cut => ?_) ?_
    · have hdeep : ¬ f.depth + 1 ≤ engine.config.maxCallDepth := by
        unfold Engine.levels at hlevels
        omega
      simp only [side, enter, fork, if_neg hdeep]
      rfl
    · simp only [side, Exec.enter]
  | succ levels ih =>
    intro f a hlevels w
    have hroom : f.depth + 1 ≤ engine.config.maxCallDepth := by
      unfold Engine.levels at hlevels
      omega
    let child := w.nextFrame f a.label a.body.handler a.outlet
    have hchild : engine.levels child = levels := by
      show engine.config.maxCallDepth - (f.depth + 1) = levels
      unfold Engine.levels at hlevels
      omega
    have hbody := run_converges (fun a' => ih child a' hchild) {} a.body.steps
    have hleaving := Converges.closed.mapError (g := RuntimeError.leavingFrame) hbody
      fun _ _ => trivial
    obtain ⟨n, hn⟩ := hleaving.ensuring (·.release child.id)
      ((w.enlist f child).bindAll child.id a.bindings)
    refine ⟨n + 1, fun m hm cut => ?_⟩
    obtain ⟨m, rfl⟩ : ∃ k, m = k + 1 := ⟨m - 1, by omega⟩
    have hbranch : branch f a.label a.body.handler a.outlet w = (.ok child, w.enlist f child) := rfl
    have hfork : mapError (·.atIfUnknown a.position)
        (fork engine f a.label a.body.handler a.outlet) w = (.ok child, w.enlist f child) := by
      rw [fork, if_pos hroom]
      rfl
    simp only [side, enter, Exec.enter]
    rw [bind_ok hfork, bind_ok hbranch, bind_ok (modify_apply _ _), bind_ok (modify_apply _ _)]
    exact hn m (by omega) cut

/-- Whatever an instance enters. -/
theorem engine_enter_converges (engine : Engine) (f : Frame) (a : Activation) :
    Converges Outcome fun i => entering engine engine.enter i f a :=
  enter_converges (engine.levels f) f a rfl

end Forks

/-! ## Operations and the handlers that they start -/

section Operations

variable {engine : Engine} {f : Frame}

theorem commands_eq_executeAll (cs : List Commands) : ∀ last,
    commands engine.enter f cs last = engine.executeAll f cs last := by
  induction cs with
  | nil => intro last; rfl
  | cons c rest ih =>
    intro last
    simp only [commands, Engine.executeAll, Engine.executeCommands, bind_assoc, pure_bind, ih]

theorem operation_eq_exec {α : Type} (op : Operation α) :
    operation engine engine.enter f op = op.exec engine f := by
  cases op with
  | evaluate e => rfl
  | run procedure args => rfl
  | call name args => rfl
  | execute steps => rfl
  | executeLoaded =>
    simp only [operation, Operation.exec, Engine.executeLoaded, commands_eq_executeAll]
  | raise event source payload => rfl

theorem commands_converge (cs : List Commands) : ∀ last,
    Converges Value fun i => commands (entering engine engine.enter i) f cs last := by
  induction cs with
  | nil => intro last; exact .const _
  | cons c rest ih => intro last; exact (engine_enter_converges engine f _).bind fun o => ih o.value

theorem operation_converges {α : Type} (engine : Engine) (f : Frame) (op : Operation α) :
    Converges α fun i => operation engine (entering engine engine.enter i) f op := by
  have henter := engine_enter_converges engine f
  have hV := services_converge henter
  cases op with
  | evaluate e => exact evaluate_closed Converges.closed.toSequenced (expressions_converge henter) e
  | run procedure args => exact callProcedure_closed Converges.closed hV procedure args
  | call name args => exact call_closed Converges.closed hV name args
  | execute steps => exact (Converges.const _).bind fun body => commands_converge _ _
  | executeLoaded => exact Converges.closed.get fun w => commands_converge w.root.commands _
  | raise event source payload => exact .const _

end Operations

section Handlers

variable (engine : Engine)

theorem handlerBody_converges (p : Pending) :
    Converges Outcome
      (side (engine.handlerBody p) fun n cut => handlerBody (body engine cut n) p) := by
  have hrun := Converges.closed.mapError (g := RuntimeError.leavingFrame)
    (run_converges (engine_enter_converges engine p.frame) {} p.handler.body.steps)
    fun _ _ => trivial
  intro w
  cases hv : p.handler.payloadVariable with
  | some name =>
    obtain ⟨n, hn⟩ := (Converges.const (bindLocal p.frame name p.event)).bind (fun _ => hrun) w
    refine ⟨n, fun m hm cut => ?_⟩
    simp only [side, Engine.handlerBody, handlerBody, hv]
    exact hn m hm cut
  | none =>
    obtain ⟨n, hn⟩ := hrun w
    refine ⟨n, fun m hm cut => ?_⟩
    simp only [side, Engine.handlerBody, handlerBody, hv]
    exact hn m hm cut

theorem runPending_converges (p : Pending) (w : World) : ∃ n, ∀ m, n ≤ m → ∀ cut,
    runPending engine (body engine cut m) p w = engine.runPending p w := by
  obtain ⟨n, hn⟩ := handlerBody_converges engine p { w with trace := #[] }
  refine ⟨n, fun m hm cut => ?_⟩
  have hbody : handlerBody (body engine cut m) p { w with trace := #[] } =
      engine.handlerBody p { w with trace := #[] } := hn m hm cut
  exact congrArg (endPending engine p) hbody

theorem runRound_converges (queue : List Pending) : ∀ w, ∃ n, ∀ m, n ≤ m → ∀ cut,
    runRound engine (body engine cut m) queue w = engine.runRound queue w := by
  induction queue with
  | nil => intro w; exact ⟨0, fun _ _ _ => rfl⟩
  | cons p rest ih =>
    intro w
    obtain ⟨n, hn⟩ := runPending_converges engine p w
    obtain ⟨n', hn'⟩ := ih (engine.runPending p w)
    refine ⟨max n n', fun m hm cut => ?_⟩
    simp only [runRound, Engine.runRound]
    rw [hn m (by omega) cut, hn' m (by omega) cut]

/-- If the rounds that the engine allows are enough, nothing is lost by allowing more. -/
theorem settle_converges (rounds : Nat) : ∀ w, (engine.settleRounds rounds w).2.pending = [] →
    ∃ n, ∀ m, n ≤ m → ∀ cut, settle engine cut m w = engine.settleRounds rounds w := by
  induction rounds with
  | zero =>
    intro w hw
    have hidle : w.pending = [] := hw
    refine ⟨1, fun m hm cut => ?_⟩
    obtain ⟨m, rfl⟩ : ∃ k, m = k + 1 := ⟨m - 1, by omega⟩
    simp only [settle, hidle, Engine.settleRounds]
  | succ rounds ih =>
    intro w hw
    cases hp : w.pending with
    | nil =>
      refine ⟨1, fun m hm cut => ?_⟩
      obtain ⟨m, rfl⟩ : ∃ k, m = k + 1 := ⟨m - 1, by omega⟩
      simp only [settle, hp, Engine.settleRounds]
    | cons p rest =>
      simp only [Engine.settleRounds, hp] at hw
      obtain ⟨n, hn⟩ := runRound_converges engine (p :: rest) { w with pending := [] }
      obtain ⟨n', hn'⟩ := ih _ hw
      refine ⟨max n n' + 1, fun m hm cut => ?_⟩
      obtain ⟨m, rfl⟩ : ∃ k, m = k + 1 := ⟨m - 1, by omega⟩
      simp only [settle, hp, Engine.settleRounds]
      rw [hn m (by omega) cut, hn' m (by omega) cut]

end Handlers

/-- What an operation starts is seated like what waited before. -/
theorem exec_seated {α : Type} (engine : Engine) (f : Frame) (op : Operation α) {w : World}
    (hw : w.Seated engine) : (op.exec engine f { w with trace := #[] }).2.Seated engine :=
  hw.started (op.exec_starts engine f { w with trace := #[] } (.of_pending rfl))

theorem perform_converges {α : Type} (engine : Engine) (f : Frame) (op : Operation α) {w : World}
    (hw : w.Seated engine) : ∃ n, ∀ m, n ≤ m → ∀ cut,
      perform engine cut m f op w = engine.perform (op.exec engine f) w := by
  have hseated := exec_seated engine f op hw
  obtain ⟨n, hn⟩ := operation_converges engine f op { w with trace := #[] }
  rcases hexec : op.exec engine f { w with trace := #[] } with ⟨result, w₁⟩
  rw [hexec] at hseated
  obtain ⟨n', hn'⟩ := settle_converges engine engine.config.maxCallDepth w₁
    (engine.settle_pending hseated)
  refine ⟨max n n', fun m hm cut => ?_⟩
  have hop : operation engine (enter engine cut m) f op { w with trace := #[] } = (result, w₁) := by
    rw [← hexec, ← operation_eq_exec]
    exact hn m (by omega) cut
  simp only [perform, Engine.perform, Engine.settle, hop, hexec, hn' m (by omega) cut]

/-- Every script comes to its end. Whatever the program, the settings and the state, a block in any
mode on any instance and an operation with its handlers need only so much of an allowance; with more
of it nothing changes, whatever would have come out of a cut. And then no handler waits. -/
theorem every_run_ends (engine : Engine) (f : Frame) (w : World) :
    (∀ (mode : Mode) (steps : List Step), ∃ n, ∀ m, n ≤ m → ∀ cut,
      block engine cut m f mode steps .nil false w = engine.runBlock f mode steps w) ∧
    ∀ {α : Type} (op : Operation α), w.Reachable engine →
      (∃ n, ∀ m, n ≤ m → ∀ cut,
        perform engine cut m f op w = engine.perform (op.exec engine f) w) ∧
      (engine.perform (op.exec engine f) w).world.pending = [] := by
  refine ⟨fun mode steps => ?_, fun op hw => ⟨perform_converges engine f op hw.seated, ?_⟩⟩
  · exact run_converges (engine_enter_converges engine f) mode steps w
  · exact engine.settle_pending (exec_seated engine f op hw.seated)

/-- An event whose handler raises it again, while such a handler waits already. -/
theorem every_run_ends_of_echo :
    let engine : Engine := { tools := Engine.builtinTools }
    let echo : EventDecl :=
      { name := .string "echo", body := [Step.call "emit_event" [.string "echo"]] }
    let w₀ := ((HostRequest.registerEvent echo).exec engine .root {}).2
    let op := Operation.raise "echo" "host" .nil
    let w := ((HostRequest.operate op).exec engine .root w₀).2
    (w.Reachable engine ∧ w.pending ≠ []) ∧
      (∃ n, ∀ m, n ≤ m → ∀ cut,
        perform engine cut m .root op w = engine.perform (op.exec engine .root) w) ∧
      (engine.perform (op.exec engine .root) w).world.pending = [] := by
  intro engine echo w₀ op w
  have hw₀ : w₀.Reachable engine := .ask _ .start List.mem_cons_self
  have hw : w.Reachable engine := .ask _ hw₀ List.mem_cons_self
  exact ⟨⟨hw, nofun⟩, (every_run_ends engine .root w).2 op hw⟩

end Unbounded
end StepScript
