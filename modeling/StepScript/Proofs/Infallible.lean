import StepScript.Proofs.Signals

/-!
# StepScript.Proofs.Infallible

Instances whose handler clears every failure.

* `Exec.recover_clears`   — such a handler clears any failure that it gets to see.
* `Exec.raising_cleared`  — so steps of the instance fail, but blocks that keep their signals do
  not: what is plain is cleared in the innermost block. Only loop signals get out of it, and what
  the host has marked as seen.
* `Exec.Crashes`          — the texts that a computation can crash with. Scripts have no crashes of
  their own: if the tools of the host do not crash either, what is left is an event for whose
  handlers the host has no callbacks.
* `Engine.clear_all_infallible` — so every body of the instance returns.
-/

namespace StepScript

def Engine.HostCalm (engine : Engine) : Prop :=
  ∀ {name : String} {tool : Tool} {run : Caller → List Value → Except Interrupt Value}
    (caller : Caller) (args : List Value) (text : Option String),
    engine.tools.get? name = some tool → tool.action = .host run →
      run caller args ≠ .error (.crashed text)

theorem Engine.HostCalm.of_tool {engine : Engine} {name : String} {tool : Tool}
    {run : Caller → List Value → Except Interrupt Value}
    (htools : engine.tools = Table.ofList [(name, tool)]) (hrun : tool.action = .host run)
    (hcalm : ∀ caller args text, run caller args ≠ .error (.crashed text)) : engine.HostCalm := by
  intro name' tool' run' caller args text ht ha
  rw [htools] at ht
  obtain ⟨-, rfl⟩ := Prod.mk.inj (List.mem_singleton.1 (Table.mem_of_get?_ofList ht))
  cases hrun.symm.trans ha
  exact hcalm caller args text

namespace Exec

variable {engine : Engine} {enter : Enter} {f : Frame} {α : Type}

/-! ## Failures -/

/-- The handler of a single `clear_error` comes to its end and has cleared the failure. -/
theorem runHandler_clears (active : Option RuntimeError) (p : Position) (w : World) :
    runHandler engine enter f active [.mk p .clearError] w =
      (.ok { value := .nil, cleared := true }, { w with trace := w.trace.push (.clear f.id) }) := by
  simp only [runHandler, runBlock_cons, execAction, execSimple, if_true]
  rfl

theorem recover_clears {p : Position} (hf : f.handler = some [.mk p .clearError])
    {e : RuntimeError} (he : e.Plain) (w : World) :
    (Exec.recover engine enter f e w).1 = .ok () := by
  simp only [Exec.recover, he.1, he.2, hf, Bool.or_self, Bool.false_eq_true, if_false]
  rw [bind_ok (note_apply _ w), bind_ok (bindLocal_apply ..),
    bind_ok (attempt_ok (runHandler_clears (some e) p _))]
  rfl

/-- What steps of such an instance fail with, if the host fails with what satisfies `Q`. -/
inductive StepFailure (Q : RuntimeError → Prop) (kept : Bool) (e : RuntimeError) : Prop where
  | plain : e.Plain → StepFailure Q kept e
  | host : e.isControl = false → Q e → StepFailure Q kept e
  | signal : kept = false → e.isControl = true → StepFailure Q kept e

/-- What its blocks fail with. A failure that is marked as seen passes by the handler, and so do
signals. -/
inductive BlockFailure (Q : RuntimeError → Prop) (kept : Bool) (e : RuntimeError) : Prop where
  | marked : e.isControl = false → e.handled = true → Q e → BlockFailure Q kept e
  | signal : kept = false → e.isControl = true → BlockFailure Q kept e

variable {Q : RuntimeError → Prop}

theorem StepFailure.placed (hQ : ∀ (e : RuntimeError) p, Q e → Q (e.atIfUnknown p)) {kept : Bool}
    {e : RuntimeError} (p : Position) (he : StepFailure Q kept e) :
    StepFailure Q kept (e.atIfUnknown p) := by
  cases he with
  | plain hplain => exact .plain (hplain.atIfUnknown p)
  | host hcontrol hq => exact .host ((e.atIfUnknown_isControl p).trans hcontrol) (hQ e p hq)
  | signal hkept hcontrol => exact .signal hkept ((e.atIfUnknown_isControl p).trans hcontrol)

theorem recover_blockFailure {p : Position} (hf : f.handler = some [.mk p .clearError])
    {kept : Bool} {e : RuntimeError} (he : StepFailure Q kept e) :
    Fails (BlockFailure Q kept) Unit fun _ => Exec.recover engine enter f e := by
  have hplain (h : e.Plain) : Fails (BlockFailure Q kept) Unit fun _ =>
      Exec.recover engine enter f e :=
    .of_ok fun w => ⟨(), recover_clears hf h w⟩
  have hpasses (h : (e.isControl || e.handled) = true) (hb : BlockFailure Q kept e) :
      Fails (BlockFailure Q kept) Unit fun _ => Exec.recover engine enter f e := by
    intro w e' he'
    simp only [Exec.recover, h, if_true, fail_apply] at he'
    cases he'
    exact hb
  cases he with
  | plain h => exact hplain h
  | signal hkept hcontrol => exact hpasses (by rw [hcontrol]; rfl) (.signal hkept hcontrol)
  | host hcontrol hq =>
    cases hmarked : e.handled with
    | true => exact hpasses (by rw [hmarked, Bool.or_true]) (.marked hcontrol hmarked hq)
    | false => exact hplain ⟨hcontrol, hmarked⟩

theorem raising_cleared {p : Position} (hf : f.handler = some [.mk p .clearError])
    (henter : ∀ a, Fails RuntimeError.Plain Outcome fun _ => enter f a)
    (hQ : ∀ (e : RuntimeError) p, Q e → Q (e.atIfUnknown p))
    (hhost : engine.HostFails fun e => e.isControl = false ∧ Q e) :
    Raising engine enter f {} (Exec.recover engine enter f) (StepFailure Q) (BlockFailure Q) where
  primitives kept := primitives_fail henter (fun _ => .plain) (fun _ p => .placed hQ p)
    (hhost.mono fun _ he => .host he.1 he.2)
  plain _ _ := .plain
  placed _ _ p := .placed hQ p
  active _ _ he := by cases he
  signal _ he := .signal rfl he
  nested _ _ he := by
    cases he with
    | marked hcontrol _ hq => exact .host hcontrol hq
    | signal hkept hcontrol => exact .signal hkept hcontrol
  caught _ _ he hnone := by
    cases he with
    | marked hcontrol _ hq => exact .host hcontrol hq
    | signal _ hcontrol => exact absurd (hnone.symm.trans hcontrol) Bool.false_ne_true
  recover _ _ he := recover_blockFailure hf he

/-- A failure that gets out is one that came from the host and was marked there. -/
theorem run_fails_marked {p : Position} (hf : f.handler = some [.mk p .clearError])
    (henter : ∀ a, Fails RuntimeError.Plain Outcome fun _ => enter f a)
    (hQ : ∀ (e : RuntimeError) p, Q e → Q (e.atIfUnknown p))
    (hhost : engine.HostFails fun e => e.isControl = false ∧ Q e) {steps : List Step}
    (hsteps : Step.keepsSignals steps = true) {w : World} {e : RuntimeError}
    (he : (run engine enter f {} steps w).1 = .error (.failed e)) : e.handled = true ∧ Q e := by
  have hraised := runBlock_raises (raising_cleared hf henter hQ hhost) steps true (fun _ => hsteps)
    .nil false w e he
  cases hraised with
  | marked _ hmarked hq => exact ⟨hmarked, hq⟩
  | signal hkept _ => cases hkept

theorem run_never_fails {p : Position} (hf : f.handler = some [.mk p .clearError])
    (henter : ∀ a, Fails RuntimeError.Plain Outcome fun _ => enter f a)
    (hhost : engine.HostFails RuntimeError.Plain) {steps : List Step}
    (hsteps : Step.keepsSignals steps = true) (w : World) (e : RuntimeError) :
    (run engine enter f {} steps w).1 ≠ .error (.failed e) := by
  intro he
  obtain ⟨hmarked, hunmarked⟩ := run_fails_marked (Q := fun e => e.handled = false) hf henter
    (fun e p h => (e.atIfUnknown_handled p).trans h) hhost hsteps he
  exact Bool.false_ne_true (hunmarked.symm.trans hmarked)

/-! ## Crashes -/

/-- A computation crashes only with texts that satisfy `C`. -/
def Crashes (C : Option String → Prop) (α : Type) (X : Unit → Exec α) : Prop :=
  ∀ w text, (X () w).1 = .error (.crashed text) → C text

/-- The crash of an event whose handlers have nowhere to emit or whisper to. -/
def Unserved (text : Option String) : Prop := ∃ event, text = some (misconfigured event)

variable {C : Option String → Prop}

theorem Crashes.of_ok {X : Unit → Exec α} (h : ∀ w, ∃ a, (X () w).1 = .ok a) : Crashes C α X := by
  intro w text htext
  obtain ⟨a, ha⟩ := h w
  rw [ha] at htext
  cases htext

theorem Crashes.closed (hC : ∀ event, C (some (misconfigured event))) :
    Closed (fun _ => True) (Crashes C) C where
  pure a := .of_ok fun w => ⟨a, rfl⟩
  bind {α β X K} hX hK w text h := by
    simp only [bind_apply] at h
    match hx : X () w with
    | (.ok a, w') =>
      rw [hx] at h
      exact hK a w' text h
    | (.error i, w') =>
      rw [hx] at h
      cases h
      exact hX w text (by rw [hx])
  get hK w := hK w w
  attempt {α β X K} hX hok herror w text h := by
    change ((Exec.attempt (X ()) >>= K ()) w).1 = _ at h
    match hx : X () w with
    | (.ok a, w') =>
      rw [bind_ok (attempt_ok hx)] at h
      exact hok a w' text h
    | (.error (.failed e), w') =>
      rw [bind_ok (attempt_failed hx)] at h
      exact herror e trivial w' text h
    | (.error (.crashed text'), w') =>
      rw [bind_error (attempt_crashed hx)] at h
      cases h
      exact hX w text (by rw [hx])
  fail _ w text h := by cases h
  crash text htext w text' h := by
    cases h
    exact htext
  unwired := hC
  plain _ := trivial
  placed _ _ := trivial

section Calm

variable (hcalm : engine.HostCalm)

include hcalm

theorem run_unserved (henter : ∀ a, Crashes Unserved Outcome fun _ => enter f a) (mode : Mode)
    (steps : List Step) : Crashes Unserved Outcome fun _ => run engine enter f mode steps := by
  have hP : Closed (fun _ => True) (Crashes Unserved) Unserved :=
    Crashes.closed fun event => ⟨event, rfl⟩
  have hI : Primitives (Crashes Unserved) engine (fun _ => enter) (fun _ => f) := by
    refine primitives_of_ok hP Crashes.of_ok henter ?_ fun _ _ _ _ _ _ => trivial
    intro name tool run args ht ha w text htext
    cases hr : run f.caller args with
    | ok v =>
      simp only [hr, ofInterrupt] at htext
      cases htext
    | error i =>
      simp only [hr, ofInterrupt] at htext
      cases htext
      exact absurd hr (hcalm f.caller args text ht ha)
  exact run_closed hP.toSequenced hI (fun _ => rfl) (fun _ => .of_ok fun _ => ⟨_, rfl⟩)
    (fun _ _ => .of_ok fun _ => ⟨_, rfl⟩) ⟨trivial, trivial⟩ (fun _ _ => trivial)
    (fun _ _ => trivial) steps

theorem enter_unserved (levels : Nat) : ∀ (f : Frame) (a : Activation),
    Crashes Unserved Outcome fun _ => Exec.enter engine levels f a := by
  have hP : Closed (fun _ => True) (Crashes Unserved) Unserved :=
    Crashes.closed fun event => ⟨event, rfl⟩
  induction levels with
  | zero => intro f a; exact hP.fail trivial
  | succ levels ih =>
    intro f a w text htext
    simp only [enter_apply] at htext
    exact hP.mapError (run_unserved hcalm (ih _) {} a.body.steps) (fun _ _ => trivial) _ text htext

end Calm

/-! ## Both -/

/-- The host has callbacks for the handlers of every event that was raised on the way. -/
def Served (r : Except Interrupt α) : Prop :=
  ∀ event, r ≠ .error (.crashed (some (misconfigured event)))

theorem Served.returns {r : Except Interrupt α} (hserved : Served r)
    (hfail : ∀ e, r ≠ .error (.failed e))
    (hcrash : ∀ text, r = .error (.crashed text) → Unserved text) : ∃ a, r = .ok a := by
  rcases r with (e | text) | a
  · exact absurd rfl (hfail e)
  · obtain ⟨event, rfl⟩ := hcrash text rfl
    exact absurd rfl (hserved event)
  · exact ⟨a, rfl⟩

/-- The caller of a body that never fails sees what the body itself returns. -/
theorem Served.returns_mapError {g : RuntimeError → RuntimeError} {x : Exec α} {w : World}
    (hserved : Served (mapError g x w).1) (hfail : ∀ e, (x w).1 ≠ .error (.failed e))
    (hcrash : ∀ text, (x w).1 = .error (.crashed text) → Unserved text) :
    ∃ a, (mapError g x w).1 = .ok a := by
  have hsame : (mapError g x w).1 = (x w).1 := by
    rcases hx : x w with ⟨(e | text) | a, w'⟩
    · exact absurd (congrArg Prod.fst hx) (hfail e)
    · simp only [mapError, hx]
    · simp only [mapError, hx]
  rw [hsame] at hserved ⊢
  exact hserved.returns hfail hcrash

end Exec

namespace Engine

open Exec

/-- An instance whose handler is a single `clear_error` is infallible. The host is trusted to raise no
loop signals and not to crash. Then all that gets by the handler of a body that keeps its signals is
a failure which the host has marked as seen. If there are none of these either, the body returns,
whatever its steps do: run in the instance itself, entered as a procedure, a command block or a turn
of a conversation, or as the handler of an event. -/
theorem clear_all_infallible (engine : Engine)
    (hsignals : engine.HostFails fun e => e.isControl = false) (hcalm : engine.HostCalm)
    (p : Position) (steps : List Step) (hsteps : Step.keepsSignals steps = true) :
    (∀ f w e, f.handler = some [.mk p .clearError] →
      (engine.runBlock f {} steps w).1 = .error (.failed e) → e.handled = true) ∧
    (engine.HostFails (fun e => e.handled = false) →
      (∀ f w, f.handler = some [.mk p .clearError] → Served (engine.runBlock f {} steps w).1 →
        ∃ o, (engine.runBlock f {} steps w).1 = .ok o) ∧
      (∀ levels f a w, a.body = ⟨steps, some [.mk p .clearError]⟩ →
        Served (Exec.enter engine (levels + 1) f a w).1 →
          ∃ o, (Exec.enter engine (levels + 1) f a w).1 = .ok o) ∧
      ∀ (q : Pending) w, q.frame.handler = some [.mk p .clearError] →
        q.handler.body.steps = steps → Served (engine.handlerBody q w).1 →
          ∃ o, (engine.handlerBody q w).1 = .ok o) := by
  have henter (f : Frame) (a : Activation) :
      Fails RuntimeError.Plain Outcome fun _ => engine.enter f a := enter_fails _ a
  refine ⟨fun f w e hf he => ?_, fun hunmarked => ?_⟩
  · exact (run_fails_marked (Q := fun _ => True) hf (henter f) (fun _ _ _ => trivial)
      (hsignals.mono fun _ h => ⟨h, trivial⟩) hsteps he).1
  have hhost : engine.HostFails RuntimeError.Plain := hsignals.and hunmarked
  have hblock (f : Frame) (hf : f.handler = some [.mk p .clearError]) (w : World)
      (e : RuntimeError) : (engine.runBlock f {} steps w).1 ≠ .error (.failed e) :=
    run_never_fails hf (henter f) hhost hsteps w e
  have hcrash (f : Frame) : Crashes Unserved Outcome fun _ => engine.runBlock f {} steps := by
    have henter (a : Activation) : Crashes Unserved Outcome fun _ => engine.enter f a :=
      enter_unserved hcalm _ f a
    exact run_unserved hcalm henter {} steps
  refine ⟨fun f w hf hserved => ?_, fun levels f a w ha hserved => ?_,
    fun q w hq hbody hserved => ?_⟩
  · exact hserved.returns (hblock f hf w) (hcrash f w)
  · simp only [enter_apply, ha] at hserved ⊢
    exact hserved.returns_mapError
      (run_never_fails rfl (fun b => enter_fails levels b) hhost hsteps _)
      (run_unserved hcalm (enter_unserved hcalm levels _) {} steps _)
  · obtain ⟨w', hw'⟩ : ∃ w', engine.handlerBody q w =
        mapError RuntimeError.leavingFrame (engine.runBlock q.frame {} steps) w' := by
      rw [handlerBody, hbody]
      cases q.handler.payloadVariable with
      | none => exact ⟨w, rfl⟩
      | some name => exact ⟨w.bind q.frame.id name q.event, rfl⟩
    rw [hw'] at hserved ⊢
    exact hserved.returns_mapError (hblock q.frame hq w') (hcrash q.frame w')

/-- A failed check, a loop without an end, a procedure that calls itself without an end, a tool that
fails and an agent that nobody knows. -/
theorem clear_all_infallible_of_failures :
    let lost : RuntimeError := { code := .external, message := "lost" }
    let tool : Tool := { name := "lose", action := .host fun _ _ => .error (.failed lost) }
    let engine : Engine :=
      { config := { maxLoopIterations := 3, maxCallDepth := 2 }
        tools := Table.ofList [("lose", tool)] }
    let f : Frame := { Frame.root with handler := some [Step.clearError] }
    let steps : List Step :=
      [Step.of (.must (.bool false)), Step.of (.loop (.bool true) [Step.call "lose" []]),
        Step.call "again" [], Step.ask "nobody" .nil "x", Step.of (.ret [.bool true])]
    let again : ProcedureDecl := { name := "again", body := [Step.call "again" []] }
    let w := (engine.load .root { procedures := [again] } {}).2
    (engine.HostFails (fun e => e.isControl = false) ∧
        engine.HostFails (fun e => e.handled = false) ∧ engine.HostCalm ∧
        Step.keepsSignals steps = true ∧ f.handler = some [Step.clearError] ∧
        Served (engine.runBlock f {} steps w).1) ∧
      ∃ o, (engine.runBlock f {} steps w).1 = .ok o := by
  intro lost tool engine f steps again w
  have htool {Q : RuntimeError → Prop} (hlost : Q lost) : engine.HostFails Q := by
    refine .of_tool rfl rfl rfl fun caller args e he => ?_
    cases he
    exact hlost
  have hcalm : engine.HostCalm := by
    refine HostCalm.of_tool rfl rfl fun caller args text h => ?_
    cases h
  have hserved : Served (engine.runBlock f {} steps w).1 := by
    intro event h
    cases h
  obtain ⟨-, hreturns⟩ := clear_all_infallible engine (htool rfl) hcalm .unknown steps rfl
  obtain ⟨hblocks, -⟩ := hreturns (htool rfl)
  exact ⟨⟨htool rfl, htool rfl, hcalm, rfl, rfl, hserved⟩, hblocks f w rfl hserved⟩

/-- A tool that runs steps of its own and returns their failure, which a handler there has already
seen: it passes by the handler here, which would have cleared it. -/
theorem clear_all_passed_by :
    let inner : Frame := { Frame.root with handler := some [] }
    let own : Caller → List Value → Except Interrupt Value := fun _ _ =>
      (Engine.runBlock {} inner {} [Step.fail "lost"] {}).1.map Outcome.value
    let engine : Engine := { tools := Table.ofList [("run", { name := "run", action := .host own })] }
    let f : Frame := { Frame.root with handler := some [Step.clearError] }
    let r := (engine.runBlock f {} [Step.call "run" []] {}).1
    (engine.HostFails (fun e => e.isControl = false) ∧ engine.HostCalm ∧
        Step.keepsSignals [Step.call "run" []] = true ∧ f.handler = some [Step.clearError] ∧
        Served r) ∧
      ∃ e, r = .error (.failed e) ∧ e.message = "lost" ∧ e.handled = true := by
  intro inner own engine f r
  have hhost : engine.HostFails fun e => e.isControl = false := by
    refine .of_tool rfl rfl rfl fun caller args e he => ?_
    cases he
    rfl
  have hcalm : engine.HostCalm := by
    refine HostCalm.of_tool rfl rfl fun caller args text h => ?_
    cases h
  have hserved : Served (engine.runBlock f {} [Step.call "run" []] {}).1 := by
    intro event h
    cases h
  exact ⟨⟨hhost, hcalm, rfl, rfl, hserved⟩, _, rfl, rfl, rfl⟩

end Engine
end StepScript
