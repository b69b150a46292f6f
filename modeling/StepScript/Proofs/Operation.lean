import StepScript.Proofs.Closure

/-!
# StepScript.Proofs.Operation

What a host can have a live instance do with scripts, as one type: the value of an expression, a
procedure or tool by name, steps or the loaded commands in a fork, an event for its handlers.

* `Operation.exec_of_callees` — what holds of the bodies that an instance enters, of its tools and of
  its events holds of the operations on it.
-/

namespace StepScript

/-- An operation on an instance, indexed by what it answers. -/
inductive Operation : Type → Type where
  | evaluate (e : Expression) : Operation Value
  | run (procedure : String) (args : List Value) : Operation Value
  | call (name : String) (args : List Value) : Operation Value
  | execute (steps : List Step) : Operation Value
  | executeLoaded : Operation Value
  | raise (event source : String) (payload : Value) : Operation Nat

/-- The operation on the instance `f`, without the handlers that it starts. -/
def Operation.exec (engine : Engine) (f : Frame) : {α : Type} → Operation α → Exec α
  | _, .evaluate e => engine.evaluate f e
  | _, .run procedure args => engine.callProcedure f procedure args
  | _, .call name args => engine.call f name args
  | _, .execute steps => engine.execute f steps
  | _, .executeLoaded => engine.executeLoaded f
  | _, .raise event source payload => engine.raise f event source payload

def Operation.raises : {α : Type} → Operation α → Bool
  | _, .raise .. => true
  | _, _ => false

section Closed

open Exec

universe u

variable {ι : Type u} {P : ∀ α : Type, (ι → Exec α) → Prop} {engine : Engine} {f : Frame}

section Commands

variable {Q : RuntimeError → Prop} {C : Option String → Prop} (hP : Sequenced Q P C)

variable (henter : ∀ a, a.outlet = f.outlet → P Outcome fun _ => engine.enter f a)

include hP henter

theorem executeCommands_closed (c : Commands) : P Value fun _ => engine.executeCommands f c :=
  hP.bind (henter _ rfl) fun _ => hP.pure _

theorem executeAll_closed (commands : List Commands) : ∀ last,
    P Value fun _ => engine.executeAll f commands last := by
  induction commands with
  | nil => intro last; exact hP.pure last
  | cons c rest ih => intro last; exact hP.bind (executeCommands_closed hP henter c) ih

end Commands

theorem Operation.exec_of_callees (hP : Sequenced (fun _ => True) P) (hL : Lookups P)
    (hR : Rooted P) (hC : Callees P engine (fun _ => engine.enter) (fun _ => f) f.outlet)
    (hread : ∀ name, P Value fun _ => read engine f name) {α : Type} (op : Operation α)
    (hraise : op.raises = true →
      ∀ event source payload, P Nat fun _ => Exec.raise engine f event source payload) :
    P α fun _ => op.exec engine f := by
  have hcall := hC.call hP hL
  cases op with
  | evaluate e => exact evaluate_closed hP ⟨hread, hcall⟩ e
  | run procedure args => exact hC.callProcedure hP hL procedure args
  | call name args => exact hcall name args
  | execute steps =>
    exact hP.bind (hP.ofExcept fun _ _ => trivial) fun _ => executeCommands_closed hP hC.enter _
  | executeLoaded => exact hR.get fun root => executeAll_closed hP hC.enter root.commands _
  | raise event source payload => exact hraise rfl event source payload

theorem Operation.exec_closed (hP : Closed (fun _ => True) P)
    (hV : Services P engine (fun _ => engine.enter) (fun _ => f) f.outlet)
    (hread : ∀ name, P Value fun _ => read engine f name) {α : Type} (op : Operation α) :
    P α fun _ => op.exec engine f :=
  op.exec_of_callees hP.toSequenced hP.lookups hP.rooted
    ((hV.calls hP).callees hP.toSequenced hP.lookups) hread fun _ => raise_closed hP hV.outlet hV.start

end Closed

end StepScript
