import StepScript.Proofs.Registry
import StepScript.Proofs.Termination

/-!
# StepScript.Proofs.Inline

Handlers among the steps of a block, which no stored body has. An executor may do with them whatever
it likes: nobody can tell.

* `Inline`       — what an executor does with such a step. `Inline.enter` and `Inline.perform` are the
  engine with that in the place of its own answer, and flat blocks run as they do there
  (`Hooks.run_eq`).
* `Inline.Unaffected` — a computation is the same with both, from a world whose tables are in order.
  It enters flat bodies only: those of the tables and those that were made ready to run.
* `Engine.registries_wellFormed` — so the tables are always in order, and the step is never
  executed.
-/

namespace StepScript

/-- What an executor does with a handler that stands among the steps of a block. -/
abbrev Inline := List Step → Exec StepResult

namespace Inline

open Exec

section Executor

variable (inline : Inline) (engine : Engine)

def hooks : Hooks := { engine.hooks with inline := inline }

theorem hooks_passive : (inline.hooks engine).Passive engine :=
  ⟨rfl, rfl, fun _ _ _ _ _ => bind_pure _⟩

def enter : Enter := (inline.hooks engine).enter engine

def body (f : Frame) (steps : List Step) : Exec Outcome :=
  (inline.hooks engine).runBlock engine f {} steps

def settleRounds : Nat → World → List (Array Effect) × World
  | 0, w => ([], w)
  | rounds + 1, w =>
    match w.pending with
    | [] => ([], w)
    | round =>
      let (traces, w) := Unbounded.runRound engine (body inline engine) round { w with pending := [] }
      let (later, w) := settleRounds rounds w
      (traces ++ later, w)

def perform {α : Type} (x : Exec α) (w : World) : Engine.Settled α :=
  let (result, w) := x { w with trace := #[] }
  let trace := w.trace
  let (handlers, w) := settleRounds inline engine engine.config.maxCallDepth w
  { result := result, trace := trace, handlers := handlers, world := w }

end Executor

/-! ## Computations that are not affected -/

open World

/-- From a world in order, both members of a family do the same and leave a world in order. -/
def Unaffected (engine : Engine) (α : Type) (X : Bool → Exec α) : Prop :=
  ∀ w : World, w.Orderly engine → X true w = X false w ∧ (X false w).2.Orderly engine

namespace Unaffected

variable {engine : Engine} {α β : Type}

/-- What is the same anyway has only to leave the program alone. -/
theorem of_manages {x : Exec α} (h : Manages α fun _ => x) : Unaffected engine α fun _ => x :=
  fun w hw => ⟨rfl, (h w (.refl w)).orderly hw⟩

/-- The rest may rely on what is known of the value that is returned. -/
theorem bind_of {T : α → Prop} {X : Bool → Exec α} {K : Bool → α → Exec β}
    (hX : Unaffected engine α X) (hT : Returns T (X false))
    (hK : ∀ a, T a → Unaffected engine β fun i => K i a) :
    Unaffected engine β fun i => X i >>= K i := by
  intro w hw
  obtain ⟨hsame, horderly⟩ := hX w hw
  rcases hx : X false w with ⟨i | a, w'⟩
  · rw [hx] at hsame horderly
    simp only [bind_error hsame, bind_error hx]
    exact ⟨trivial, horderly⟩
  · rw [hx] at hsame horderly
    simp only [bind_ok hsame, bind_ok hx]
    exact hK a (hT w a w' hx) w' horderly

theorem bind {X : Bool → Exec α} {K : Bool → α → Exec β} (hX : Unaffected engine α X)
    (hK : ∀ a, Unaffected engine β fun i => K i a) : Unaffected engine β fun i => X i >>= K i :=
  bind_of (T := fun _ => True) hX (fun _ _ _ _ => trivial) fun a _ => hK a

theorem attempt {X : Bool → Exec α} (hX : Unaffected engine α X) :
    Unaffected engine (Except RuntimeError α) fun i => Exec.attempt (X i) := by
  intro w hw
  obtain ⟨hsame, horderly⟩ := hX w hw
  refine ⟨?_, ?_⟩
  · simp only [Exec.attempt, hsame]
  · rw [attempt_world]
    exact horderly

theorem closed : Closed (fun _ => True) (Unaffected engine) where
  pure _ := fun _ hw => ⟨rfl, hw⟩
  bind := bind
  get hK := fun w hw => hK w w hw
  attempt {α β X K} hX hok herror := by
    refine bind hX.attempt fun r => ?_
    cases r with
    | ok a => exact hok a
    | error e => exact herror e trivial
  fail _ := fun _ hw => ⟨rfl, hw⟩
  crash _ _ := fun _ hw => ⟨rfl, hw⟩
  unwired _ := trivial
  plain _ := trivial
  placed _ _ := trivial

theorem ensuring {X : Bool → Exec α} (hX : Unaffected engine α X) {g : World → World}
    (hg : ∀ w, Managed w (g w)) : Unaffected engine α fun i => Exec.ensuring (X i) g := by
  intro w hw
  obtain ⟨hsame, horderly⟩ := hX w hw
  simp only [ensuring_apply, hsame]
  exact ⟨trivial, (hg _).orderly horderly⟩

end Unaffected

/-- The two ways to run the body of an instance. -/
def running (inline : Inline) (engine : Engine) (enter : Bool → Enter) (f : Frame)
    (steps : List Step) : Bool → Exec Outcome
  | true => (inline.hooks engine).run engine (enter true) f {} steps
  | false => Exec.run engine (enter false) f {} steps

/-- The two ways to run a body in a fork. -/
def entering (inline : Inline) (engine : Engine) (levels : Nat) : Bool → Enter
  | true => (inline.hooks engine).enterLevels engine levels
  | false => Exec.enter engine levels

section Instance

variable {engine : Engine} {enter : Bool → Enter} {f : Frame}
variable (henter : ∀ a, a.body.Flat → Unaffected engine Outcome fun i => enter i f a)

include henter

/-- The body of a stored procedure is flat. -/
theorem callProcedure_unaffected (name : String) (args : List Value) :
    Unaffected engine Value fun i => callProcedure (enter i) f name args := by
  intro w hw
  simp only [callProcedure_eq, bind_ok (get_apply w)]
  cases hget : w.root.procedures.get? name with
  | none => exact ⟨rfl, hw⟩
  | some q =>
    have hflat := (hw.root.procedures name q hget).2.2
    have hP : Closed (fun _ => True) (Unaffected engine) := Unaffected.closed
    have hfound : Unaffected engine Value fun i => callFound (enter i) f name args (some q) := by
      simp only [callFound]
      split
      · exact hP.fault rfl
      · exact hP.bind (henter _ hflat) fun _ => hP.pure _
    exact hfound w hw

theorem call_unaffected (name : String) (args : List Value) :
    Unaffected engine Value fun i => call engine (enter i) f name args := by
  have hP : Closed (fun _ => True) (Unaffected engine) := Unaffected.closed
  have hinvoke (tool : String) : Unaffected engine Value fun _ => invoke engine f tool args :=
    .of_manages (managed_habit.invoke tool args trivial)
  cases hn : toolName? name with
  | some tool =>
    simp only [call_of_tool engine _ _ args hn]
    exact hinvoke tool
  | none =>
    simp only [call_of_name engine _ _ args hn]
    refine hP.get fun w => ?_
    cases w.root.procedures.contains name with
    | true => exact callProcedure_unaffected henter name args
    | false =>
      simp only [callNamed, Bool.false_eq_true, if_false]
      split
      · exact hinvoke name
      · exact hP.fault rfl

/-- The script of a reply is made ready before it runs. -/
theorem act_unaffected (t : Talk) (turn : Nat) (reply : Envelope) :
    Unaffected engine String fun i => act engine (enter i) f t turn reply := by
  have hP : Closed (fun _ => True) (Unaffected engine) := Unaffected.closed
  have hcapture (n : Nat) :
      Unaffected engine Unit fun _ => modify fun w => { w with captures := n } :=
    .of_manages (.of_root (fun _ => rfl) fun _ => rfl)
  unfold act
  refine hP.bind (placed_closed hP _ ?_) fun steps => ?_
  · cases engine.grammar reply.script with
    | ok steps => exact .ok steps
    | error e => exact .error (ParseError.toRuntimeError_plain e)
  refine .bind_of (hP.ofExcept fun _ _ => trivial)
    (.ofExcept ((Body.ofSteps_flat steps).mapError _)) fun body hbody => ?_
  refine hP.get fun w => hP.bind (hcapture _) fun _ => hP.bind (henter _ hbody) fun _ => ?_
  exact hP.get fun w => hP.pure _

theorem ask_unaffected (agentModel prompt : Value) (p : Position) :
    Unaffected engine Value fun i => ask engine (enter i) f agentModel prompt p := by
  have hhabit : Habit (fun _ => True) Managed engine := managed_habit
  have hT : Talks (Unaffected engine) engine enter (fun _ => f) :=
    ⟨fun r c q => .of_manages (hhabit.chat r c q), act_unaffected henter,
      .of_manages hhabit.openConversation⟩
  exact hT.ask Unaffected.closed agentModel prompt p

theorem primitives_unaffected : Primitives (Unaffected engine) engine enter (fun _ => f) where
  read := read_closed Unaffected.closed engine f
  call := call_unaffected henter
  write name v := .of_manages (write_manages name v)
  ask := ask_unaffected henter
  emit := emit_closed Unaffected.closed engine f fun _ => .of_manages (note_manages _)
  whisper := whisper_closed Unaffected.closed engine fun _ _ => .of_manages (note_manages _)
  promptUser text := .of_manages (managed_habit.promptUser text)
  clear := .of_manages (note_manages _)

theorem run_unaffected (mode : Mode) (steps : List Step) :
    Unaffected engine Outcome fun i => Exec.run engine (enter i) f mode steps :=
  run_closed Unaffected.closed.toSequenced (primitives_unaffected henter) (fun _ => rfl)
    (fun _ => .of_manages (note_manages _))
    (fun _ _ => .of_manages (.of_root (fun _ => rfl) fun _ => rfl))
    ⟨trivial, trivial⟩ (fun _ _ => trivial) (fun _ _ => trivial) steps

/-- The body of an instance that was made for it. -/
theorem running_unaffected (inline : Inline) {b : Body} (hb : b.Flat) (hf : f.handler = b.handler) :
    Unaffected engine Outcome (running inline engine enter f b.steps) := by
  intro w hw
  obtain ⟨hsame, horderly⟩ := run_unaffected henter {} b.steps w hw
  refine ⟨?_, horderly⟩
  show (inline.hooks engine).run engine (enter true) f {} b.steps w = _
  have hflat {steps : List Step} (hs : Step.handlerIn steps = false) :
      Step.handlerIn steps = true → (inline.hooks engine).inline = engine.hooks.inline :=
    fun h => absurd h (Bool.eq_false_iff.1 hs)
  rw [Hooks.run_eq (inline.hooks_passive engine) (fun h hh => hflat (hb.handler h (hf ▸ hh))) {}
    (hflat hb.steps)]
  exact hsame

theorem commands_unaffected (cs : List Commands) (hcs : ∀ c ∈ cs, c.body.Flat) : ∀ last,
    Unaffected engine Value fun i => Unbounded.commands (enter i) f cs last := by
  induction cs with
  | nil => intro last; exact Unaffected.closed.pure last
  | cons c rest ih =>
    intro last
    obtain ⟨hc, hrest⟩ := List.forall_mem_cons.1 hcs
    simp only [Unbounded.commands]
    exact .bind (henter _ hc) fun o => ih hrest o.value

theorem operation_unaffected {α : Type} (op : Operation α) :
    Unaffected engine α fun i => Unbounded.operation engine (enter i) f op := by
  have hP : Closed (fun _ => True) (Unaffected engine) := Unaffected.closed
  cases op with
  | evaluate e =>
    exact evaluate_closed hP.toSequenced (primitives_unaffected henter).toExpressions e
  | run procedure args => exact callProcedure_unaffected henter procedure args
  | call name args => exact call_unaffected henter name args
  | execute steps =>
    refine .bind_of (hP.ofExcept fun _ _ => trivial) (.ofExcept (Body.ofSteps_flat steps))
      fun body hbody => commands_unaffected henter _ ?_ _
    intro c hc
    cases List.mem_singleton.1 hc
    exact hbody
  | executeLoaded => exact fun w hw => commands_unaffected henter _ hw.root.commands _ w hw
  | raise event source payload => exact .of_manages (raise_manages event source payload)

end Instance

section Engines

variable (inline : Inline) (engine : Engine)

theorem entering_succ (levels : Nat) (f : Frame) (a : Activation) :
    (fun i => entering inline engine (levels + 1) i f a) = fun i =>
      branch f a.label a.body.handler a.outlet >>= fun child =>
        modify (fun w => w.bindAll child.id a.bindings) >>= fun _ =>
          ensuring (mapError RuntimeError.leavingFrame
            (running inline engine (entering inline engine levels) child a.body.steps i))
            (·.release child.id) := by
  funext i
  cases i with
  | true => rfl
  | false => rfl

theorem entering_unaffected (levels : Nat) : ∀ (f : Frame) (a : Activation), a.body.Flat →
    Unaffected engine Outcome fun i => entering inline engine levels i f a := by
  have hP : Closed (fun _ => True) (Unaffected engine) := Unaffected.closed
  induction levels with
  | zero =>
    intro f a _ w hw
    exact ⟨rfl, hw⟩
  | succ levels ih =>
    intro f a ha
    have hchild : Returns (fun child => child.handler = a.body.handler)
        (branch f a.label a.body.handler a.outlet) := by
      intro w child w' hbranch
      cases hbranch
      rfl
    have hbind (id : InstanceId) :
        Manages Unit fun _ => modify fun w => w.bindAll id a.bindings := by
      intro w _
      show Managed w (w.bindAll id a.bindings)
      obtain ⟨instances, h⟩ := bindAll_eq id a.bindings w
      rw [h]
      exact .of_same rfl rfl rfl rfl
    rw [entering_succ]
    refine .bind_of (.of_manages (.of_root (fun _ => rfl) fun _ => rfl)) hchild fun child hc => ?_
    refine .bind (.of_manages (hbind child.id)) fun _ => ?_
    have hbody := running_unaffected (ih child) inline ha hc
    refine .ensuring (hP.mapError hbody fun _ _ => trivial) ?_
    exact fun w => .of_same rfl rfl rfl rfl

def ways : Bool → Enter
  | true => enter inline engine
  | false => engine.enter

theorem ways_unaffected (f : Frame) (a : Activation) (ha : a.body.Flat) :
    Unaffected engine Outcome fun i => ways inline engine i f a := by
  have h := entering_unaffected inline engine (engine.levels f) f a ha
  intro w hw
  exact h w hw

/-! ## Handlers that wait -/

theorem handlerBody_unaffected {p : Pending} (hp : p.handler.body.Flat ∧ p.Seats) {w : World}
    (hw : w.Orderly engine) :
    Unbounded.handlerBody (body inline engine) p w = engine.handlerBody p w := by
  have hP : Closed (fun _ => True) (Unaffected engine) := Unaffected.closed
  have hrun : Unaffected engine Outcome fun i => mapError RuntimeError.leavingFrame
      (running inline engine (ways inline engine) p.frame p.handler.body.steps i) :=
    hP.mapError (running_unaffected (ways_unaffected inline engine p.frame) inline hp.1 hp.2)
      fun _ _ => trivial
  simp only [Unbounded.handlerBody, Engine.handlerBody]
  cases p.handler.payloadVariable with
  | none => exact (hrun w hw).1
  | some name =>
    have hbound : (w.bind p.frame.id name p.event).Orderly engine := ⟨hw.root, hw.pending⟩
    exact (hrun _ hbound).1

theorem runPending_unaffected {p : Pending} (hp : p.handler.body.Flat ∧ p.Seats) {w : World}
    (hw : w.Orderly engine) :
    Unbounded.runPending engine (body inline engine) p w = engine.runPending p w := by
  have hreset : ({ w with trace := #[] } : World).Orderly engine := ⟨hw.root, hw.pending⟩
  exact congrArg (Unbounded.endPending engine p) (handlerBody_unaffected inline engine hp hreset)

theorem runRound_unaffected (queue : List Pending) : ∀ w : World, w.Orderly engine →
    (∀ p ∈ queue, p.handler.body.Flat ∧ p.Seats) →
      Unbounded.runRound engine (body inline engine) queue w = engine.runRound queue w ∧
        (engine.runRound queue w).2.Orderly engine := by
  induction queue with
  | nil => intro w hw _; exact ⟨rfl, hw⟩
  | cons p rest ih =>
    intro w hw hqueue
    obtain ⟨hp, hrest⟩ := List.forall_mem_cons.1 hqueue
    have hnext : (engine.runPending p w).Orderly engine :=
      (engine.runPending_managed p w).orderly hw
    obtain ⟨hsame, horderly⟩ := ih _ hnext hrest
    simp only [Unbounded.runRound, Engine.runRound, runPending_unaffected inline engine hp hw, hsame]
    exact ⟨trivial, horderly⟩

theorem settleRounds_unaffected (rounds : Nat) : ∀ w : World, w.Orderly engine →
    settleRounds inline engine rounds w = engine.settleRounds rounds w := by
  induction rounds with
  | zero => intro w _; rfl
  | succ rounds ih =>
    intro w hw
    have hempty : ({ w with pending := [] } : World).Orderly engine := ⟨hw.root, nofun⟩
    cases hp : w.pending with
    | nil => simp only [settleRounds, Engine.settleRounds, hp]
    | cons p rest =>
      obtain ⟨hsame, horderly⟩ :=
        runRound_unaffected inline engine (p :: rest) _ hempty (hp ▸ hw.pending)
      simp only [settleRounds, Engine.settleRounds, hp, hsame, ih _ horderly]

theorem perform_unaffected {α : Type} {X : Bool → Exec α} (hX : Unaffected engine α X) {w : World}
    (hw : w.Orderly engine) : perform inline engine (X true) w = engine.perform (X false) w := by
  have hreset : ({ w with trace := #[] } : World).Orderly engine := ⟨hw.root, hw.pending⟩
  obtain ⟨hsame, horderly⟩ := hX _ hreset
  rcases hx : X false { w with trace := #[] } with ⟨r, w₁⟩
  rw [hx] at hsame horderly
  simp only [perform, Engine.perform, Engine.settle, hsame, hx,
    settleRounds_unaffected inline engine _ _ horderly]

end Engines

end Inline

/-- The tables of the root are well-formed in every world that a host can bring about, whatever it
has installed or failed to install. Procedures are stored under their own names, none of which is
reserved. No two handlers have the same name and none has a name of the host. Under each event its
handlers are listed in the order of their registration, which is that of their declaration. And all
bodies are flat, so it does not matter what the executor does with a handler among the steps of a
block: no operation, no conversation and no handler of an event comes across one. -/
theorem Engine.registries_wellFormed (engine : Engine) (w : World) (hw : w.Reachable engine) :
    (∀ name q, w.root.procedures.get? name = some q →
      q.name = name ∧ name ∉ engine.symbols.procedures) ∧
    ((handlerNames w.root.handlers).Nodup ∧
      ∀ h ∈ w.root.handlers, ∀ name, h.handlerName = some name →
        name ∉ engine.symbols.eventHandlers) ∧
    ((∃ hs, World.Enrolled engine hs w ∧
        ∀ event, w.root.handlersOf event = hs.filter (·.eventName = event)) ∧
      ∀ f i p w₀, Installation.prepare engine f i w = (.ok p, w₀) →
        EventDecl.DeclareAll i.events p.handlers) ∧
    ((∀ name q, w.root.procedures.get? name = some q → q.body.Flat) ∧
      (∀ c ∈ w.root.commands, c.body.Flat) ∧ ∀ h ∈ w.root.handlers, h.body.Flat) ∧
    ∀ (inline : Inline) (f : Frame),
      (∀ {α : Type} (op : Operation α),
        inline.perform engine (Unbounded.operation engine (inline.enter engine) f op) w =
          engine.perform (op.exec engine f) w) ∧
      ∀ agentModel prompt p,
        inline.perform engine (Exec.ask engine (inline.enter engine) f agentModel prompt p) w =
          engine.perform (Exec.ask engine engine.enter f agentModel prompt p) w := by
  obtain ⟨hs, hhistory⟩ := hw.enrolled
  obtain ⟨⟨hroot, hpending⟩, hhandlers⟩ := hhistory.orderly
  refine ⟨fun name q hq => ?_, ⟨hroot.names, fun h hh => (hroot.handlers h hh).name⟩,
    ⟨⟨hs, hhistory, fun event => ?_⟩, fun f i p w₀ hp => ?_⟩,
    ⟨fun name q hq => (hroot.procedures name q hq).2.2, hroot.commands,
      fun h hh => (hroot.handlers h hh).body⟩, fun inline f => ?_⟩
  · obtain ⟨hname, hfree, -⟩ := hroot.procedures name q hq
    exact ⟨hname, hfree⟩
  · rw [Root.handlersOf, hhandlers]
  · exact (i.prepare_returns engine f w p w₀ hp).2
  · have henter := Inline.ways_unaffected inline engine f
    refine ⟨fun op => ?_, fun agentModel prompt p => ?_⟩
    · have hop := Inline.operation_unaffected henter op
      rw [← Unbounded.operation_eq_exec]
      exact Inline.perform_unaffected inline engine hop ⟨hroot, hpending⟩
    · have hask := Inline.ask_unaffected henter agentModel prompt p
      exact Inline.perform_unaffected inline engine hask ⟨hroot, hpending⟩

/-- A handler of the same name cannot be appended, one of another name can be registered for the
same event. Its body declares a handler of its own, which is not among its steps any more when the
event is raised: an executor that crashes there does not crash. -/
theorem Engine.registries_wellFormed_of_second :
    let engine : Engine := { symbols := { eventHandlers := ["hosted"] } }
    let first : EventDecl := { name := .string "tick", handlerName := some "first", body := [] }
    let second : EventDecl :=
      { name := .string "tick", handlerName := some "second"
        body := [Step.onError [Step.clearError], Step.fail "lost"] }
    let w₁ := ((HostRequest.load { events := [first] }).exec engine .root {}).2
    let w₂ := ((HostRequest.append { events := [second, first] }).exec engine .root w₁).2
    let w := ((HostRequest.registerEvent second).exec engine .root w₂).2
    let inline : Inline := fun _ => Exec.crash (some "executed")
    let op := Operation.raise "tick" "clock" .nil
    w.Reachable engine ∧
      (handlerNames w.root.handlers = ["first", "second"] ∧ (handlerNames w.root.handlers).Nodup) ∧
      (w.root.handlersOf "tick").length = 2 ∧ (∀ h ∈ w.root.handlers, h.body.Flat) ∧
      inline.perform engine (Unbounded.operation engine (inline.enter engine) .root op) w =
        engine.perform (op.exec engine .root) w := by
  intro engine first second w₁ w₂ w inline op
  have hw₁ : w₁.Reachable engine := .ask _ .start List.mem_cons_self
  have hw₂ : w₂.Reachable engine := .ask _ hw₁ List.mem_cons_self
  have hw : w.Reachable engine := .ask _ hw₂ List.mem_cons_self
  obtain ⟨-, ⟨hnames, -⟩, -, ⟨-, -, hflat⟩, hinline⟩ := engine.registries_wellFormed w hw
  exact ⟨hw, ⟨rfl, hnames⟩, rfl, hflat, (hinline inline .root).1 op⟩

end StepScript
