import StepScript.Proofs.Closure

/-!
# StepScript.Proofs.Raised

What failures a step without blocks can raise. Most of them are the engine's own and plain; the
others are loop signals of the step itself, the failure that a handler reacts to, and whatever the
tools and the prompter of the host come up with.

* `Engine.HostFails Q` — the failures of the host satisfy `Q`.
* `Exec.Fails Q`       — a computation fails only with failures that satisfy `Q`.
* `Exec.enter_fails`   — a body in a fork fails only with plain failures.
-/

namespace StepScript

theorem World.assign_sober (w : World) (symbols : Symbols) (f : Frame) (name : String)
    (v : Value) : FailsWith Fault.Sober (w.assign symbols f name v) := by
  unfold World.assign
  split
  · exact .error rfl
  · split
    · split
      · exact .ok _
      · exact .error rfl
    · exact .ok _

structure Engine.HostFails (engine : Engine) (Q : RuntimeError → Prop) : Prop where
  tool {name : String} {tool : Tool} {run : Caller → List Value → Except Interrupt Value}
    (caller : Caller) (args : List Value) {e : RuntimeError} :
    engine.tools.get? name = some tool → tool.action = .host run →
      run caller args = .error (.failed e) → Q e
  prompter {ask : Nat → String → Except RuntimeError Value} (n : Nat) (text : String) :
    engine.host.prompter = some ask → FailsWith Q (ask n text)

theorem Engine.HostFails.mono {engine : Engine} {Q Q' : RuntimeError → Prop}
    (h : engine.HostFails Q) (hQ : ∀ e, Q e → Q' e) : engine.HostFails Q' where
  tool caller args _ ht ha hr := hQ _ (h.tool caller args ht ha hr)
  prompter n text ha e he := hQ e (h.prompter n text ha e he)

theorem Engine.HostFails.and {engine : Engine} {Q Q' : RuntimeError → Prop}
    (h : engine.HostFails Q) (h' : engine.HostFails Q') : engine.HostFails fun e => Q e ∧ Q' e where
  tool caller args _ ht ha hr := ⟨h.tool caller args ht ha hr, h'.tool caller args ht ha hr⟩
  prompter n text ha e he := ⟨h.prompter n text ha e he, h'.prompter n text ha e he⟩

/-- A host with one tool and no prompter. -/
theorem Engine.HostFails.of_tool {engine : Engine} {Q : RuntimeError → Prop} {name : String}
    {tool : Tool} {run : Caller → List Value → Except Interrupt Value}
    (htools : engine.tools = Table.ofList [(name, tool)]) (hrun : tool.action = .host run)
    (hprompter : engine.host.prompter = none)
    (hQ : ∀ caller args e, run caller args = .error (.failed e) → Q e) : engine.HostFails Q where
  tool caller args e ht ha hr := by
    rw [htools] at ht
    obtain ⟨-, rfl⟩ := Prod.mk.inj (List.mem_singleton.1 (Table.mem_of_get?_ofList ht))
    cases hrun.symm.trans ha
    exact hQ caller args e hr
  prompter n text ha := by
    rw [hprompter] at ha
    cases ha

namespace Exec

variable {engine : Engine} {f : Frame} {Q : RuntimeError → Prop} {α : Type}

def Fails (Q : RuntimeError → Prop) (α : Type) (X : Unit → Exec α) : Prop :=
  ∀ w e, (X () w).1 = .error (.failed e) → Q e

theorem Fails.mono {Q' : RuntimeError → Prop} {X : Unit → Exec α} (h : Fails Q α X)
    (hQ : ∀ e, Q e → Q' e) : Fails Q' α X :=
  fun w e he => hQ e (h w e he)

theorem Fails.of_ok {X : Unit → Exec α} (h : ∀ w, ∃ a, (X () w).1 = .ok a) : Fails Q α X := by
  intro w e he
  obtain ⟨a, ha⟩ := h w
  rw [ha] at he
  cases he

theorem Fails.bind {β : Type} {X : Unit → Exec α} {K : Unit → α → Exec β} (hX : Fails Q α X)
    (hK : ∀ a, Fails Q β fun i => K i a) : Fails Q β fun i => X i >>= K i := by
  intro w e he
  simp only [bind_apply] at he
  match hx : X () w with
  | (.ok a, w') =>
    rw [hx] at he
    exact hK a w' e he
  | (.error i, w') =>
    rw [hx] at he
    cases he
    exact hX w e (by rw [hx])

/-- A failure that is caught does not matter, but what is done with it may. -/
theorem Fails.attempt {β : Type} {X : Unit → Exec α} {K : Unit → Except RuntimeError α → Exec β}
    {Q' : RuntimeError → Prop} (hX : Fails Q' α X) (hok : ∀ a, Fails Q β fun i => K i (.ok a))
    (herror : ∀ e, Q' e → Fails Q β fun i => K i (.error e)) :
    Fails Q β fun i => Exec.attempt (X i) >>= K i := by
  intro w e he
  change ((Exec.attempt (X ()) >>= K ()) w).1 = _ at he
  match hx : X () w with
  | (.ok a, w') =>
    rw [bind_ok (attempt_ok hx)] at he
    exact hok a w' e he
  | (.error (.failed e'), w') =>
    rw [bind_ok (attempt_failed hx)] at he
    exact herror e' (hX w e' (by rw [hx])) w' e he
  | (.error (.crashed text), w') =>
    rw [bind_error (attempt_crashed hx)] at he
    cases he

theorem Fails.closed (hplain : ∀ e : RuntimeError, e.Plain → Q e)
    (hplaced : ∀ (e : RuntimeError) p, Q e → Q (e.atIfUnknown p)) : Closed Q (Fails Q) where
  pure a := .of_ok fun w => ⟨a, rfl⟩
  bind := .bind
  get hK w := hK w w
  attempt := .attempt
  fail he w e h := by
    cases h
    exact he
  crash _ _ w e h := by cases h
  unwired _ := trivial
  plain := hplain _
  placed p := hplaced _ p

theorem Fails.plain : Closed RuntimeError.Plain (Fails RuntimeError.Plain) :=
  Fails.closed (fun _ he => he) fun _ p he => he.atIfUnknown p

/-- Whatever goes wrong in a frame, what leaves it is plain. -/
theorem leavingFrame_fails (X : Unit → Exec α) :
    Fails RuntimeError.Plain α fun i => mapError RuntimeError.leavingFrame (X i) := by
  have hX : Fails (fun _ => True) α X := fun _ _ _ => trivial
  simp only [mapError_eq]
  refine hX.attempt (fun a => Fails.plain.pure a) fun e _ => ?_
  exact Fails.plain.fail (RuntimeError.leavingFrame_plain e)

/-- The caller of a body sees only plain failures. -/
theorem enter_fails (levels : Nat) (a : Activation) :
    Fails RuntimeError.Plain Outcome fun _ => Exec.enter engine levels f a := by
  cases levels with
  | zero => exact Fails.plain.fail ((engine.refusal_plain f a.label).atIfUnknown a.position)
  | succ levels =>
    intro w e he
    simp only [enter_apply] at he
    exact leavingFrame_fails
      (fun _ => run engine (Exec.enter engine levels) _ {} a.body.steps) _ e he

/-! ## Properties of results

A property that every computation has which returns a value holds of what steps do as soon as it
holds of the bodies that are entered and of what the host does. -/

section Results

variable {P : ∀ α : Type, (Unit → Exec α) → Prop} {C : Option String → Prop} (hP : Closed Q P C)
  (hok : ∀ {α : Type} {X : Unit → Exec α}, (∀ w, ∃ a, (X () w).1 = .ok a) → P α X)
  {enter : Enter} (henter : ∀ a, P Outcome fun _ => enter f a)
  (hhost : ∀ {name : String} {tool : Tool} {run : Caller → List Value → Except Interrupt Value}
    (args : List Value), engine.tools.get? name = some tool → tool.action = .host run →
      P Value fun _ => ofInterrupt (run f.caller args))

include hP hok henter hhost

theorem services_of_ok : Services P engine (fun _ => enter) (fun _ => f) f.outlet where
  outlet _ := rfl
  enter := henter
  start := start_closed hP engine f (fun _ _ _ => hok fun _ => ⟨_, rfl⟩)
    (fun _ _ _ => hok fun _ => ⟨_, rfl⟩) fun _ => hok fun _ => ⟨_, rfl⟩
  consult _ _ := hok fun _ => ⟨_, rfl⟩
  enterTool _ := hok fun _ => ⟨_, rfl⟩
  host := hhost
  chat _ _ _ := hok fun _ => ⟨_, rfl⟩
  capture _ := hok fun _ => ⟨_, rfl⟩
  openConversation := hok fun _ => ⟨_, rfl⟩

theorem primitives_of_ok
    (hprompter : ∀ ask n text, engine.host.prompter = some ask → FailsWith Q (ask n text)) :
    Primitives P engine (fun _ => enter) (fun _ => f) := by
  have hV : Services P engine (fun _ => enter) (fun _ => f) f.outlet :=
    services_of_ok hP hok henter hhost
  have hnote : ∀ effect, P Unit fun _ => note effect := fun _ => hok fun _ => ⟨_, rfl⟩
  have hwrite (name : String) (v : Value) : P Unit fun _ => write engine f name v := by
    unfold write change
    refine hP.get fun w => ?_
    dsimp only
    split
    · exact hok fun _ => ⟨_, rfl⟩
    · rename_i reason hreason
      exact hP.fault (World.assign_sober w engine.symbols f name v reason hreason)
  exact
    { read := read_closed hP engine f
      call := call_closed hP hV
      write := hwrite
      ask := ask_closed hP hV
      emit := emit_closed hP engine f fun _ => hnote _
      whisper := whisper_closed hP engine fun _ _ => hnote _
      promptUser := promptUser_closed hP engine (fun _ => hnote _)
        (fun _ => hok fun _ => ⟨_, rfl⟩) hprompter
      clear := hnote _ }

end Results

theorem primitives_fail {enter : Enter}
    (henter : ∀ a, Fails RuntimeError.Plain Outcome fun _ => enter f a)
    (hplain : ∀ e : RuntimeError, e.Plain → Q e)
    (hplaced : ∀ (e : RuntimeError) p, Q e → Q (e.atIfUnknown p)) (hhost : engine.HostFails Q) :
    Primitives (Fails Q) engine (fun _ => enter) (fun _ => f) := by
  refine primitives_of_ok (Fails.closed hplain hplaced) Fails.of_ok
    (fun a => (henter a).mono hplain) ?_ fun _ n text h => hhost.prompter n text h
  intro name tool run args ht ha w e he
  cases hr : run f.caller args with
  | ok v =>
    simp only [hr, ofInterrupt] at he
    cases he
  | error i =>
    simp only [hr, ofInterrupt] at he
    cases he
    exact hhost.tool _ _ ht ha hr

end Exec
end StepScript
