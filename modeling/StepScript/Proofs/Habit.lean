import StepScript.Proofs.Operation

/-!
# StepScript.Proofs.Habit

Relations between worlds that hold along everything that instances run.

* `Exec.Habit`  — a relation holds along what the instances of a kind do to the world themselves, and
  the forks that they call procedures in are of that kind again.
* `Habit.enter` — so it holds along the bodies that they enter, by induction on the levels below them.
* `Habit.runBlock`, `Habit.handlerBody`, `Habit.operation`, `Habit.ask` — and along all that a host
  can have an instance run.
* `Engine.settle_keeps` — what holds along each handler holds along all that wait.
-/

namespace StepScript
namespace Exec

/-- `R` is a habit of the instances `F`. What an agent tells them to do may be told by the bodies
that they enter in forks of the kind `F`. -/
structure Habit (F : Frame → Prop) (R : World → World → Prop) (engine : Engine) : Prop where
  trans {a b c : World} : R a b → R b c → R a c
  target {a b : World} : R a b → R b b
  instances {w : World} (instances : List Instance) : R w w → R w { w with instances := instances }
  procedure {f : Frame} (w : World) (label : String) (handler : Option (List Step)) :
    F f → F (w.nextFrame f label handler f.outlet)
  write {f : Frame} (name : String) (v : Value) :
    F f → Keeps R Unit fun _ => Exec.write engine f name v
  invoke {f : Frame} (name : String) (args : List Value) :
    F f → Keeps R Value fun _ => Exec.invoke engine f name args
  emit {f : Frame} (v : Value) : F f → Keeps R Unit fun _ => note (.emit f.outlet v)
  whisper (handle data : Value) : Keeps R Unit fun _ => note (.whisper handle data)
  promptUser (text : String) : Keeps R Value fun _ => Exec.promptUser engine text
  recover {f : Frame} (e : RuntimeError) : F f → Keeps R Unit fun _ => note (.recover f.id e)
  clear {f : Frame} : F f → Keeps R Unit fun _ => note (.clear f.id)
  chat (r : Registration) (c : ChatContext) (q : ChatRequest) :
    Keeps R (Except ProviderError ChatReply) fun _ => Exec.chat r c q
  act {enter : Enter} {f : Frame} : F f →
    (∀ a, (∀ w : World, F (w.nextFrame f a.label a.body.handler a.outlet)) →
      Keeps R Outcome fun _ => enter f a) →
    ∀ t turn reply, Keeps R String fun _ => Exec.act engine enter f t turn reply
  openConversation : Keeps R Unit fun _ => Exec.openConversation

namespace Habit

variable {F : Frame → Prop} {R : World → World → Prop} {engine : Engine}
variable (h : Habit F R engine)

include h

theorem closed : Closed (fun _ => True) (Keeps R) := Keeps.closed h.trans h.target

theorem bindLocal {f : Frame} (name : String) (v : Value) :
    Keeps R Unit fun _ => Exec.bindLocal f name v :=
  fun _ hw => h.instances _ hw

section Instance

variable {enter : Enter} {f : Frame} (hf : F f)
variable (henter : ∀ a, (∀ w : World, F (w.nextFrame f a.label a.body.handler a.outlet)) →
  Keeps R Outcome fun _ => enter f a)

include hf henter

theorem callees : Callees (Keeps R) engine (fun _ => enter) (fun _ => f) f.outlet where
  enter a ha := henter a fun w => by
    rw [ha]
    exact h.procedure w a.label a.body.handler hf
  invoke name args := h.invoke name args hf
  outlet _ := rfl

theorem talks : Talks (Keeps R) engine (fun _ => enter) (fun _ => f) :=
  ⟨h.chat, h.act hf henter, h.openConversation⟩

theorem primitives : Primitives (Keeps R) engine (fun _ => enter) (fun _ => f) where
  read := read_closed h.closed engine f
  call := (h.callees hf henter).call h.closed.toSequenced h.closed.lookups
  write name v := h.write name v hf
  ask := (h.talks hf henter).ask h.closed
  emit := emit_closed h.closed engine f fun v => h.emit v hf
  whisper := whisper_closed h.closed engine h.whisper
  promptUser := h.promptUser
  clear := h.clear hf

theorem run (mode : Mode) (steps : List Step) :
    Keeps R Outcome fun _ => Exec.run engine enter f mode steps :=
  run_closed h.closed.toSequenced (h.primitives hf henter) (fun _ => rfl)
    (fun e => h.recover e hf) h.bindLocal ⟨trivial, trivial⟩ (fun _ _ => trivial)
    (fun _ _ => trivial) steps

end Instance

theorem enter (levels : Nat) : ∀ (f : Frame) (a : Activation),
    (∀ w : World, F (w.nextFrame f a.label a.body.handler a.outlet)) →
      Keeps R Outcome fun _ => Exec.enter engine levels f a := by
  induction levels with
  | zero => intro f a _; exact h.closed.fail trivial
  | succ levels ih =>
    intro f a hchild
    exact enter_keeps (R := R) h.trans h.target h.instances fun w =>
      h.run (hchild w) (ih _) {} a.body.steps

theorem engineEnter (f : Frame) : ∀ a : Activation,
    (∀ w : World, F (w.nextFrame f a.label a.body.handler a.outlet)) →
      Keeps R Outcome fun _ => engine.enter f a :=
  h.enter (engine.levels f) f

theorem runBlock {f : Frame} (hf : F f) (mode : Mode) (steps : List Step) :
    Keeps R Outcome fun _ => engine.runBlock f mode steps :=
  h.run hf (h.engineEnter f) mode steps

theorem handlerBody {p : Pending} (hp : F p.frame) :
    Keeps R Outcome fun _ => engine.handlerBody p :=
  handlerBody_closed h.closed.toSequenced (fun _ => rfl) (fun _ => rfl) h.bindLocal
    (h.runBlock hp {} _)

theorem ask {f : Frame} (hf : F f) (agentModel prompt : Value) (p : Position) :
    Keeps R Value fun _ => Exec.ask engine engine.enter f agentModel prompt p :=
  (h.talks hf (h.engineEnter f)).ask h.closed agentModel prompt p

theorem operation {f : Frame} (hf : F f) {α : Type} (op : Operation α)
    (hraise : op.raises = true →
      ∀ event source payload, Keeps R Nat fun _ => raise engine f event source payload) :
    Keeps R α fun _ => op.exec engine f :=
  op.exec_of_callees h.closed.toSequenced h.closed.lookups h.closed.rooted
    (h.callees hf (h.engineEnter f)) (read_closed h.closed engine f) hraise

end Habit

end Exec

namespace Engine

variable (engine : Engine) {R : World → World → Prop}

/-- A relation holds along all rounds of handlers if it holds along each of them and along taking
them from the queue. -/
theorem settle_keeps (refl : ∀ w, R w w) (trans : ∀ {a b c}, R a b → R b c → R a c)
    (hqueue : ∀ w : World, R w { w with pending := [] })
    (hrun : ∀ p w, R w (engine.runPending p w)) (w : World) : R w (engine.settle w).2 := by
  have hround (queue : List Pending) : ∀ w, R w (engine.runRound queue w).2 := by
    induction queue with
    | nil => intro w; exact refl w
    | cons p rest ih => intro w; exact trans (hrun p w) (ih _)
  have hrounds (rounds : Nat) : ∀ w, R w (engine.settleRounds rounds w).2 := by
    induction rounds with
    | zero => intro w; exact refl w
    | succ rounds ih =>
      intro w
      simp only [settleRounds]
      split
      · exact refl w
      · exact trans (trans (hqueue w) (hround _ _)) (ih _)
  exact hrounds _ w

end Engine
end StepScript
