import StepScript.Proofs.Closure

/-!
# StepScript.Proofs.Recoveries

What the trace tells of one instance: the runs of its handler and the failures it has cleared.

* `watched`         — the effects that a watch picks out of the trace, in order.
* `recoveries id`   — the failures for which the handler of the instance `id` was run.
* `Exec.enter_unseen` — what an instance enters has no effects of the instance itself: by induction
  on the levels below it, since forks have longer ids.
* `Exec.runHandler_quiet` — nor does its handler run the handler of the instance.
-/

namespace StepScript

/-- What a watch over the effects has seen. -/
def watched {β : Type} (watch : Effect → Option β) (trace : Array Effect) : List β :=
  trace.toList.filterMap watch

/-- The effects that the watch looks for are those of one instance: it clears a failure or runs its
handler. -/
def Watches {β : Type} (id : InstanceId) (watch : Effect → Option β) : Prop :=
  ∀ effect, effect ≠ .clear id → (∀ e, effect ≠ .recover id e) → watch effect = none

def recovery? (id : InstanceId) : Effect → Option RuntimeError
  | .recover id' e => if id' = id then some e else none
  | _ => none

/-- The failures that the handler of an instance has been run for. -/
def recoveries (id : InstanceId) : Array Effect → List RuntimeError := watched (recovery? id)

theorem watches_recovery (id : InstanceId) : Watches id (recovery? id) := by
  intro effect _ hrecover
  cases effect with
  | recover id' e =>
    have hne : id' ≠ id := fun heq => hrecover e (by rw [heq])
    exact if_neg hne
  | _ => rfl

theorem recoveries_push_recover (id : InstanceId) (trace : Array Effect) (e : RuntimeError) :
    recoveries id (trace.push (.recover id e)) = recoveries id trace ++ [e] := by
  simp [recoveries, watched, recovery?]

namespace Exec

variable {engine : Engine} {enter : Enter} {f : Frame} {id : InstanceId} {α β : Type}
variable {watch : Effect → Option β}

/-- The watch sees nothing of a computation. -/
abbrev Unseen (watch : Effect → Option β) : ∀ α : Type, (Unit → Exec α) → Prop :=
  Keeps fun w w' => watched watch w'.trace = watched watch w.trace

theorem Unseen.closed : Closed (fun _ => True) (Unseen watch) :=
  Keeps.closed (fun h h' => h'.trans h) fun _ => rfl

theorem Unseen.of_trace {X : Unit → Exec α} (h : ∀ w, (X () w).2.trace = w.trace) :
    Unseen watch α X :=
  fun w _ => congrArg (watched watch) (h w)

theorem note_unseen {effect : Effect} (h : watch effect = none) :
    Unseen watch Unit fun _ => note effect := by
  intro w _
  show watched watch (w.trace.push effect) = watched watch w.trace
  simp [watched, h]

theorem write_unseen (name : String) (v : Value) :
    Unseen watch Unit fun _ => write engine f name v := by
  refine .of_trace fun w => ?_
  rcases write_world engine f name v w with h | ⟨-, h⟩ | h <;> rw [h] <;> rfl

section Instance

variable (hwatch : Watches id watch) (henter : ∀ a, Unseen watch Outcome fun _ => enter f a)

include hwatch henter

theorem services_unseen : Services (Unseen watch) engine (fun _ => enter) (fun _ => f) f.outlet where
  outlet _ := rfl
  enter := henter
  start := start_closed Unseen.closed engine f
    (fun _ _ _ => note_unseen (hwatch _ nofun fun _ => nofun))
    (fun _ _ _ => .of_trace fun _ => rfl) fun _ => .of_trace fun _ => rfl
  consult _ _ := note_unseen (hwatch _ nofun fun _ => nofun)
  enterTool _ := note_unseen (hwatch _ nofun fun _ => nofun)
  host _ _ _ := Unseen.closed.ofInterrupt _
  chat _ _ _ := .of_trace fun _ => rfl
  capture _ := .of_trace fun _ => rfl
  openConversation := .of_trace fun _ => rfl

theorem activities_unseen : Activities (Unseen watch) engine (fun _ => enter) (fun _ => f) where
  read := read_closed Unseen.closed engine f
  call := call_closed Unseen.closed (services_unseen hwatch henter)
  write := write_unseen
  ask := ask_closed Unseen.closed (services_unseen hwatch henter)
  emit := emit_closed Unseen.closed engine f fun _ =>
    note_unseen (hwatch _ nofun fun _ => nofun)
  whisper := whisper_closed Unseen.closed engine fun _ _ =>
    note_unseen (hwatch _ nofun fun _ => nofun)
  promptUser := promptUser_closed Unseen.closed engine
    (fun _ => note_unseen (hwatch _ nofun fun _ => nofun))
    (fun _ => .of_trace fun _ => rfl) fun _ _ _ _ _ _ => trivial

theorem primitives_unseen (hclear : watch (.clear f.id) = none) :
    Primitives (Unseen watch) engine (fun _ => enter) (fun _ => f) where
  toActivities := activities_unseen hwatch henter
  clear := note_unseen hclear

theorem run_unseen (hid : f.id ≠ id) (mode : Mode) (steps : List Step) :
    Unseen watch Outcome fun _ => run engine enter f mode steps := by
  have hclear : watch (.clear f.id) = none := by
    refine hwatch _ (fun h => hid ?_) fun _ => nofun
    cases h
    rfl
  have hnote : ∀ e, Unseen watch Unit fun _ => note (.recover f.id e) := by
    intro e
    refine note_unseen (hwatch _ nofun fun e' h => hid ?_)
    cases h
    rfl
  exact run_closed Unseen.closed.toSequenced (primitives_unseen hwatch henter hclear)
    (fun _ => rfl) hnote (fun _ _ => .of_trace fun _ => rfl) ⟨trivial, trivial⟩ (fun _ _ => trivial)
    (fun _ _ => trivial) steps

end Instance

theorem enter_unseen (hwatch : Watches id watch) (levels : Nat) : ∀ (f : Frame) (a : Activation),
    id.length ≤ f.id.length → Unseen watch Outcome fun _ => Exec.enter engine levels f a := by
  induction levels with
  | zero => intro f a _; exact Unseen.closed.fail trivial
  | succ levels ih =>
    intro f a hlength
    refine enter_keeps (R := fun w w' => watched watch w'.trace = watched watch w.trace)
      (fun h h' => h'.trans h) (fun _ => rfl) (fun _ _ => rfl) fun w => ?_
    let child := w.nextFrame f a.label a.body.handler a.outlet
    have hchild : child.id.length = f.id.length + 1 := rfl
    have hne : child.id ≠ id := by
      intro h
      rw [h] at hchild
      omega
    exact run_unseen hwatch (fun a' => ih child a' (by omega)) hne {} a.body.steps

/-! ## Runs of the handler -/

/-- A computation does not run the handler of the instance `id`. -/
abbrev Quiet (id : InstanceId) : ∀ α : Type, (Unit → Exec α) → Prop := Unseen (recovery? id)

theorem Quiet.closed : Closed (fun _ => True) (Quiet id) := Unseen.closed

section Handlers

variable (henter : ∀ a, Quiet id Outcome fun _ => enter f a)

include henter

theorem primitives_quiet : Primitives (Quiet id) engine (fun _ => enter) (fun _ => f) :=
  primitives_unseen (watches_recovery id) henter rfl

/-- A handler is not handled, so it adds no run of a handler of its instance. -/
theorem runHandler_quiet (active : Option RuntimeError) (block : List Step) :
    Quiet id Outcome fun _ => runHandler engine enter f active block :=
  runHandler_closed Quiet.closed.toSequenced (primitives_quiet henter) ⟨trivial, trivial⟩
    (fun _ _ => trivial) block

end Handlers

end Exec

namespace Engine

variable (engine : Engine) (f : Frame) (a : Activation)

theorem enter_unseen {β : Type} {watch : Effect → Option β} (hwatch : Watches f.id watch) :
    Exec.Unseen watch Outcome fun _ => engine.enter f a :=
  Exec.enter_unseen hwatch (engine.levels f) f a (Nat.le_refl _)

theorem enter_quiet : Exec.Quiet f.id Outcome fun _ => engine.enter f a :=
  engine.enter_unseen f a (watches_recovery f.id)

end Engine
end StepScript
