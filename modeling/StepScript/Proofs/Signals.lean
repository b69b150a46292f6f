import StepScript.Proofs.Confinement
import StepScript.Proofs.Dispatch
import StepScript.Proofs.Raised

/-!
# StepScript.Proofs.Signals

Loop signals and the loops that they are meant for.

* `Step.keepsSignals` — every `break` and `continue` of a block stands inside a loop of the block.
* `Exec.Raising`      — what the steps and the blocks of an instance can fail with, said apart for
  those that keep their signals. A loop needs nothing of its body: it catches all signals.
* `Exec.runBlock_raises` — it holds of every block, by induction over the syntax.
* `Engine.signals_stay_in_loops` — so no signal leaves a block that keeps its signals, and none
  leaves a frame.
-/

namespace StepScript

mutual

def Action.keepsSignals : Action → Bool
  | .breakLoop => false
  | .continueLoop => false
  | .branch _ thenBlock none => Step.keepsSignals thenBlock
  | .branch _ thenBlock (some elseBlock) =>
    Step.keepsSignals thenBlock && Step.keepsSignals elseBlock
  | .onError body => Step.keepsSignals body
  | _ => true

/-- Does every loop signal of the block stand inside a loop of the block? -/
def Step.keepsSignals : List Step → Bool
  | [] => true
  | .mk _ action :: rest => action.keepsSignals && Step.keepsSignals rest

end

theorem Code.isControl_eq_false {c : Code} (hbreak : c ≠ .break) (hcontinue : c ≠ .continue) :
    c.isControl = false := by
  cases c <;> first | rfl | exact absurd rfl hbreak | exact absurd rfl hcontinue

namespace Exec

variable {engine : Engine} {enter : Enter} {f : Frame} {mode : Mode}
variable {recover : RuntimeError → Exec Unit} {S B : Bool → RuntimeError → Prop}

/-- What steps (`S`) and blocks (`B`) can fail with if they keep their signals, and what if they may
not. -/
structure Raising (engine : Engine) (enter : Enter) (f : Frame) (mode : Mode)
    (recover : RuntimeError → Exec Unit) (S B : Bool → RuntimeError → Prop) : Prop where
  primitives (kept : Bool) : Primitives (Fails (S kept)) engine (fun _ => enter) (fun _ => f)
  plain (kept : Bool) (e : RuntimeError) : e.Plain → S kept e
  placed (kept : Bool) (e : RuntimeError) (p : Position) : S kept e → S kept (e.atIfUnknown p)
  active (kept : Bool) (e : RuntimeError) : mode.active = some e → S kept e
  signal (e : RuntimeError) : e.isControl = true → S false e
  nested (kept : Bool) (e : RuntimeError) : B kept e → S kept e
  /-- A loop lets through what is no signal. -/
  caught (kept : Bool) (e : RuntimeError) : B false e → e.isControl = false → S kept e
  recover (kept : Bool) (e : RuntimeError) : S kept e → Fails (B kept) Unit fun _ => recover e

namespace Raising

variable (h : Raising engine enter f mode recover S B)

include h

theorem closed (kept : Bool) : Closed (S kept) (Fails (S kept)) :=
  Fails.closed (h.plain kept) (h.placed kept)

/-- The signals of the body end here, whether it keeps them or not. -/
theorem pass {body : Unit → Exec Outcome} (hbody : Fails (B false) Outcome body) (kept : Bool) :
    Fails (S kept) LoopFlow fun i => Exec.pass (body i) := by
  have hP := h.closed kept
  unfold Exec.pass
  refine Fails.attempt hbody (fun o => hP.pure _) fun e he => ?_
  dsimp only
  split
  · exact hP.pure _
  · exact hP.pure _
  · rename_i hbreak hcontinue
    exact hP.fail (h.caught kept e he (Code.isControl_eq_false hbreak hcontinue))

/-- A block as a step of the block around it. -/
theorem ofBlock {block : Unit → Exec Outcome} {kept : Bool}
    (hblock : Fails (B kept) Outcome block) :
    Fails (S kept) StepResult fun i => do return .ofOutcome (← block i) :=
  (h.closed kept).bind (hblock.mono (h.nested kept)) fun _ => (h.closed kept).pure _

theorem evaluate (kept : Bool) (e : Expression) :
    Fails (S kept) Value fun _ => Exec.evaluate engine enter f e :=
  evaluate_closed (h.closed kept).toSequenced (h.primitives kept).toExpressions e

theorem simple (p : Position) (action : Action) (kept : Bool)
    (hkept : kept = true → action.keepsSignals = true) :
    Fails (S kept) StepResult fun _ => execSimple engine enter f mode p action := by
  have hsignal (hloose : action.keepsSignals = false) : kept = false := by
    cases kept with
    | false => rfl
    | true => exact absurd (hkept rfl) (by rw [hloose]; exact Bool.false_ne_true)
  refine execSimple_closed (h.closed kept).toSequenced (h.primitives kept) p action ?_ ?_
    (h.active kept)
  · rintro rfl
    rw [hsignal (by simp only [Action.keepsSignals])]
    exact h.signal _ rfl
  · rintro rfl
    rw [hsignal (by simp only [Action.keepsSignals])]
    exact h.signal _ rfl

end Raising

mutual

theorem execAction_raises (h : Raising engine enter f mode recover S B) (p : Position) :
    ∀ action kept, (kept = true → Action.keepsSignals action = true) →
      Fails (S kept) StepResult fun _ => execAction engine enter f mode recover p action
  | .branch condition thenBlock none, kept, hkept => by
    have hthen := runBlock_raises h thenBlock kept
      (fun hk => by simpa only [Action.keepsSignals] using hkept hk) .nil false
    simp only [execAction]
    refine (h.closed kept).bind (h.evaluate kept condition) fun v => ?_
    split
    · exact h.ofBlock hthen
    · exact (h.closed kept).pure _
  | .branch condition thenBlock (some elseBlock), kept, hkept => by
    have hblocks (hk : kept = true) :
        Step.keepsSignals thenBlock = true ∧ Step.keepsSignals elseBlock = true := by
      simpa only [Action.keepsSignals, Bool.and_eq_true] using hkept hk
    have hthen := runBlock_raises h thenBlock kept (fun hk => (hblocks hk).1) .nil false
    have helse := runBlock_raises h elseBlock kept (fun hk => (hblocks hk).2) .nil false
    simp only [execAction]
    refine (h.closed kept).bind (h.evaluate kept condition) fun v => ?_
    split
    · exact h.ofBlock hthen
    · exact h.ofBlock helse
  | .loop condition body, kept, _ => by
    -- the body may signal, whatever is asked of the loop
    have hbody := runBlock_raises h body false nofun .nil false
    have hcondition : Fails (S kept) Bool fun _ => do
        return (← evaluate engine enter f condition).truthy :=
      (h.closed kept).bind (h.evaluate kept condition) fun v => (h.closed kept).pure v.truthy
    simp only [execAction]
    exact (h.closed kept).repeatWhile hcondition (h.pass hbody kept) _ _
  | .forEach item collection body, kept, _ => by
    have hbody := runBlock_raises h body false nofun .nil false
    simp only [execAction]
    refine (h.closed kept).bind (h.evaluate kept collection) fun c => ?_
    refine (h.closed kept).bind ((h.closed kept).ofFault (Value.items_sober c)) fun items => ?_
    exact (h.closed kept).repeatFor (fun v => (h.primitives kept).write item v)
      (h.pass hbody kept) items _ _
  | .set .., kept, hkept | .call _, kept, hkept | .ret _, kept, hkept | .emit _, kept, hkept
  | .whisper .., kept, hkept | .must _, kept, hkept | .mustBe .., kept, hkept
  | .fail _, kept, hkept | .onError _, kept, hkept | .clearError, kept, hkept
  | .ask .., kept, hkept | .promptUser .., kept, hkept | .breakLoop, kept, hkept
  | .continueLoop, kept, hkept | .expression _, kept, hkept => by
    simp only [execAction]
    exact h.simple p _ kept hkept

theorem runBlock_raises (h : Raising engine enter f mode recover S B) :
    ∀ steps kept, (kept = true → Step.keepsSignals steps = true) → ∀ last cleared,
      Fails (B kept) Outcome fun _ => runBlock engine enter f mode recover steps last cleared
  | [], kept, _, last, cleared => by
    simp only [runBlock]
    exact .of_ok fun w => ⟨_, rfl⟩
  | .mk p action :: rest, kept, hkept, last, cleared => by
    have hparts (hk : kept = true) :
        action.keepsSignals = true ∧ Step.keepsSignals rest = true := by
      simpa only [Step.keepsSignals, Bool.and_eq_true] using hkept hk
    have haction := execAction_raises h p action kept fun hk => (hparts hk).1
    have hrest := runBlock_raises h rest kept fun hk => (hparts hk).2
    simp only [runBlock_cons]
    refine Fails.attempt haction (fun r => ?_) fun e he => ?_
    · obtain ⟨v, flow⟩ := r
      cases flow with
      | proceed => exact hrest v cleared
      | returned => exact .of_ok fun w => ⟨_, rfl⟩
      | cleared => exact hrest v true
    · exact (h.recover kept _ (h.placed kept e p he)).bind fun _ => hrest _ _

end

/-! ## Blocks that keep their signals -/

/-- No loop signal, if signals are kept. -/
def Unsignalled (kept : Bool) (e : RuntimeError) : Prop := kept = true → e.isControl = false

section Unsignalled

variable (henter : ∀ a, Fails RuntimeError.Plain Outcome fun _ => enter f a)
variable (hhost : engine.HostFails fun e => e.isControl = false)

include henter hhost

theorem raising_unsignalled (hactive : ∀ e, mode.active = some e → e.isControl = false)
    (hrecover : ∀ e, e.isControl = false →
      Fails (fun e => e.isControl = false) Unit fun _ => recover e) :
    Raising engine enter f mode recover Unsignalled Unsignalled where
  primitives kept := primitives_fail henter (fun e he _ => he.1)
    (fun e p he hk => (e.atIfUnknown_isControl p).trans (he hk)) (hhost.mono fun e he _ => he)
  plain kept e he _ := he.1
  placed kept e p he hk := (e.atIfUnknown_isControl p).trans (he hk)
  active kept e he _ := hactive e he
  signal e _ := nofun
  nested kept e he := he
  caught kept e _ he _ := he
  recover kept e he := by
    cases kept with
    | true => exact (hrecover e (he rfl)).mono fun e he _ => he
    | false => exact fun w e _ => nofun

theorem runHandler_unsignalled {active : Option RuntimeError}
    (hactive : ∀ e, active = some e → e.isControl = false) {steps : List Step}
    (hsteps : Step.keepsSignals steps = true) :
    Fails (fun e => e.isControl = false) Outcome fun _ =>
      runHandler engine enter f active steps := by
  have h : Raising engine enter f { inHandler := true, active := active } fail Unsignalled
      Unsignalled :=
    raising_unsignalled henter hhost hactive fun e he w e' he' => by
      cases he'
      exact he
  exact (runBlock_raises h steps true (fun _ => hsteps) .nil false).mono fun e he => he rfl

theorem recover_unsignalled (hhandler : ∀ h, f.handler = some h → Step.keepsSignals h = true)
    (e : RuntimeError) (he : e.isControl = false) :
    Fails (fun e => e.isControl = false) Unit fun _ => Exec.recover engine enter f e := by
  have hP : Closed (fun e => e.isControl = false) (Fails fun e => e.isControl = false) :=
    Fails.closed (fun _ he => he.1) fun e p he => (e.atIfUnknown_isControl p).trans he
  refine recover_of_handler hP.toSequenced (fun _ => rfl)
    (fun _ e => .of_ok fun w => ⟨_, rfl⟩) (fun _ he => he) e he fun block hblock => ?_
  refine runHandler_unsignalled henter hhost (fun e' h' => ?_) (hhandler block hblock)
  cases h'
  exact he

theorem run_unsignalled (hhandler : ∀ h, f.handler = some h → Step.keepsSignals h = true)
    (hactive : ∀ e, mode.active = some e → e.isControl = false) {steps : List Step}
    (hsteps : Step.keepsSignals steps = true) :
    Fails (fun e => e.isControl = false) Outcome fun _ => run engine enter f mode steps := by
  unfold run
  split
  · exact runHandler_unsignalled henter hhost hactive hsteps
  · have h := raising_unsignalled henter hhost hactive (recover_unsignalled henter hhost hhandler)
    exact (runBlock_raises h steps true (fun _ => hsteps) .nil false).mono fun e he => he rfl

end Unsignalled

/-! ## Frames -/

section Frames

variable (henter : ∀ a, Fails RuntimeError.Plain Outcome fun _ => enter f a)

include henter

theorem callProcedure_fails (name : String) (args : List Value) :
    Fails RuntimeError.Plain Value fun _ => callProcedure enter f name args := by
  simp only [callProcedure_eq]
  refine Fails.plain.get fun w => ?_
  cases w.root.procedures.get? name with
  | none => exact Fails.plain.fault rfl
  | some p =>
    simp only [callFound]
    split
    · exact Fails.plain.fault rfl
    · exact Fails.plain.bind (henter _) fun _ => Fails.plain.pure _

theorem ask_fails (agentModel prompt : Value) (p : Position) :
    Fails RuntimeError.Plain Value fun _ => ask engine enter f agentModel prompt p := by
  have hT : Talks (Fails RuntimeError.Plain) engine (fun _ => enter) (fun _ => f) :=
    ⟨fun _ _ _ => .of_ok fun _ => ⟨_, rfl⟩,
      act_closed Fails.plain henter fun _ => .of_ok fun _ => ⟨_, rfl⟩,
      .of_ok fun _ => ⟨_, rfl⟩⟩
  exact hT.ask Fails.plain agentModel prompt p

end Frames

end Exec

namespace Engine

open Exec World

variable (engine : Engine) (f : Frame)

theorem execute_fails (steps : List Step) :
    Fails RuntimeError.Plain Value fun _ => engine.execute f steps :=
  Fails.plain.bind (Fails.plain.ofExcept (Body.ofSteps_plain steps)) fun _ =>
    executeCommands_closed Fails.plain.toSequenced (fun a _ => enter_fails _ a) _

theorem executeLoaded_fails : Fails RuntimeError.Plain Value fun _ => engine.executeLoaded f :=
  Fails.plain.get fun w =>
    executeAll_closed Fails.plain.toSequenced (fun a _ => enter_fails _ a) w.root.commands _

/-! ## Reports -/

/-- The host is told of no loop signal. -/
def Discreet (trace : Array Effect) : Prop :=
  ∀ event source e, .report event source e ∈ trace.toList → e.isControl = false

variable {engine}

theorem Discreet.of_told {w w' : World} (h : Told engine { w with trace := #[] } w') :
    Discreet w'.trace := by
  obtain ⟨new, hnew, htold⟩ := h
  intro event source e he
  rw [hnew] at he
  obtain ⟨parent, p, rfl⟩ := htold event source e (by simpa using he)
  exact ((engine.refusal_plain parent _).withPosition p).1

theorem handlerBody_fails (p : Pending) :
    Fails RuntimeError.Plain Outcome fun _ => engine.handlerBody p := by
  have hbody : Fails RuntimeError.Plain Outcome fun _ =>
      mapError RuntimeError.leavingFrame (engine.runBlock p.frame {} p.handler.body.steps) :=
    leavingFrame_fails fun _ => engine.runBlock p.frame {} p.handler.body.steps
  simp only [handlerBody]
  split
  · exact Fails.bind (.of_ok fun _ => ⟨(), rfl⟩) fun _ => hbody
  · exact Fails.plain.bind (Fails.plain.pure ()) fun _ => hbody

/-- The host is told of a handler that failed or crashed as a caller would be. -/
theorem failureOf_plain {p : Pending} {w : World} {e : RuntimeError}
    (h : failureOf (engine.handlerBody p w).1 = some e) : e.Plain := by
  match hresult : (engine.handlerBody p w).1 with
  | .ok o =>
    rw [hresult] at h
    cases h
  | .error (.failed e') =>
    rw [hresult] at h
    cases h
    exact handlerBody_fails p w e hresult
  | .error (.crashed text) =>
    rw [hresult] at h
    cases h
    exact ⟨rfl, rfl⟩

theorem runPending_discreet (p : Pending) (w : World) : Discreet (engine.runPending p w).trace := by
  have htold : Told engine { w with trace := #[] }
      (engine.handlerBody p { w with trace := #[] }).2 :=
    told_habit.handlerBody trivial _ (.of_trace rfl)
  intro event source e he
  rw [runPending_eq, Array.toList_appendList, List.mem_append] at he
  rcases he with he | he
  · exact Discreet.of_told htold event source e he
  · unfold notices at he
    split at he
    · obtain ⟨e', hfailure, heq⟩ := List.mem_map.1 he
      cases heq
      exact (failureOf_plain (Option.mem_toList.1 hfailure)).1
    · cases he

theorem perform_discreet {α : Type} (c : HostCall α) (w : World) :
    let settled := engine.perform (c.exec engine f) w
    ∀ trace ∈ settled.trace :: settled.handlers, Discreet trace := by
  intro settled trace htrace
  have htold : Told engine { w with trace := #[] } (c.exec engine f { w with trace := #[] }).2 :=
    c.exec_habit told_habit trivial (fun _ _ _ => .of_trace rfl)
      (fun _ => raise_closed Tells.closed (fun _ => rfl) start_tells) _ (.of_trace rfl)
  rcases List.mem_cons.1 htrace with rfl | hhandler
  · exact .of_told htold
  · exact settle_traces runPending_discreet _ trace hhandler

/-- Loop signals stay inside their loops. A block that keeps its signals, in whatever mode, fails
with no signal, provided that the instance's handler keeps its own, that the failure to react to is
none and that the host raises none. Without any proviso, no signal leaves a procedure, a command
block, a conversation or the handler of an event. -/
theorem signals_stay_in_loops (engine : Engine) (f : Frame) (w : World) :
    (engine.HostFails (fun e => e.isControl = false) →
      (∀ h, f.handler = some h → Step.keepsSignals h = true) →
      ∀ mode steps, (∀ e, mode.active = some e → e.isControl = false) →
        Step.keepsSignals steps = true →
        ∀ e, (engine.runBlock f mode steps w).1 = .error (.failed e) → e.isControl = false) ∧
    (∀ name args e, (engine.callProcedure f name args w).1 = .error (.failed e) →
      e.isControl = false) ∧
    (∀ steps e, (engine.execute f steps w).1 = .error (.failed e) → e.isControl = false) ∧
    (∀ e, (engine.executeLoaded f w).1 = .error (.failed e) → e.isControl = false) ∧
    (∀ agentModel prompt p e,
      (Exec.ask engine engine.enter f agentModel prompt p w).1 = .error (.failed e) →
        e.isControl = false) ∧
    ∀ {α : Type} (c : HostCall α),
      let settled := engine.perform (c.exec engine f) w
      ∀ trace ∈ settled.trace :: settled.handlers, ∀ event source e,
        .report event source e ∈ trace.toList → e.isControl = false := by
  have henter (a : Activation) : Fails RuntimeError.Plain Outcome fun _ => engine.enter f a :=
    enter_fails _ a
  refine ⟨fun hhost hhandler mode steps hactive hsteps => ?_, fun name args e he => ?_,
    fun steps e he => ?_, fun e he => ?_, fun agentModel prompt p e he => ?_,
    fun c => perform_discreet f c w⟩
  · exact run_unsignalled henter hhost hhandler hactive hsteps w
  · exact (callProcedure_fails henter name args w e he).1
  · exact (engine.execute_fails f steps w e he).1
  · exact (engine.executeLoaded_fails f w e he).1
  · exact (ask_fails henter agentModel prompt p w e he).1

/-- A loop that is left, then a tool that fails, in an instance whose handler leaves a loop of its
own: what comes out is the failure of the tool. The lone `break` of a procedure is no signal to its
caller. -/
theorem signals_stay_in_loops_of_left :
    let lost : RuntimeError := { code := .external, message := "lost" }
    let tool : Tool := { name := "lose", action := .host fun _ _ => .error (.failed lost) }
    let engine : Engine :=
      { config := { maxLoopIterations := 4 }, tools := Table.ofList [("lose", tool)] }
    let left : Step := Step.of (.loop (.bool true) [Step.of .breakLoop])
    let f : Frame := { Frame.root with handler := some [left] }
    let steps : List Step := [left, Step.call "lose" []]
    let loose : ProcedureDecl := { name := "loose", body := [Step.of .breakLoop] }
    let w := (engine.load .root { procedures := [loose] } {}).2
    (engine.HostFails (fun e => e.isControl = false) ∧
        (∀ h, f.handler = some h → Step.keepsSignals h = true) ∧ Step.keepsSignals steps = true) ∧
      (∃ e, (engine.runBlock f {} steps w).1 = .error (.failed e) ∧ e.message = "lost" ∧
        e.isControl = false) ∧
      ∃ e, (engine.callProcedure f "loose" [] w).1 = .error (.failed e) ∧ e.isControl = false := by
  intro lost tool engine left f steps loose w
  have hhost : engine.HostFails fun e => e.isControl = false := by
    refine .of_tool rfl rfl rfl fun caller args e hfailed => ?_
    cases hfailed
    rfl
  have hhandler : ∀ h, f.handler = some h → Step.keepsSignals h = true := by
    intro h hh
    cases hh
    rfl
  obtain ⟨hblocks, hcalls, -⟩ := signals_stay_in_loops engine f w
  refine ⟨⟨hhost, hhandler, rfl⟩, ⟨_, rfl, rfl, ?_⟩, ⟨_, rfl, ?_⟩⟩
  · exact hblocks hhost hhandler {} steps nofun rfl _ rfl
  · exact hcalls "loose" [] _ rfl

end Engine
end StepScript
