import StepScript.Proofs.Failure
import StepScript.Proofs.Hooks

/-!
# StepScript.Proofs.Closure

What holds of everything that an instance runs because it holds of the few things that running
code can do to the world.

* `Exec.Sequenced`  — a property of families of computations that sequencing, failing and catching a
  failure keep. A family is indexed by whatever the computations differ in: nothing, one of two runs
  to be compared, or an allowance.
* `Exec.Closed`     — so is reading the world; `Exec.Lookups` and `Exec.Rooted` are what is left of
  that if the worlds of a family differ.
* `Exec.Keeps`      — the closed property that a relation holds between the worlds before and
  after.
* `Exec.Callees`, `Exec.Tools`, `Exec.Calls`, `Exec.Talks`, `Exec.Services` — the property holds of
  what calls, tools and conversations are made of.
* `Exec.Activities`, `Exec.Primitives` — the property holds of what one instance does to the world,
  without clearing failures and with it.
* `evaluate_closed`, `Hooks.simple_closed`, `Hooks.block_closed` — then it holds of every expression,
  step and block in that instance, by induction over their syntax, whatever parts the executor has.
  `execSimple_closed`, `runBlock_closed`, `run_closed` — so it does of those of the engine.
-/

namespace StepScript

universe u

variable {ι : Type u} {Q : RuntimeError → Prop} {P : ∀ α : Type, (ι → Exec α) → Prop}
variable {C : Option String → Prop}

namespace Exec

/-- The text of the crash when an event has handlers and the host has no callbacks for them. -/
def misconfigured (event : String) : String :=
  s!"host misconfiguration: event '{event}' has handlers but the emit/whisper callbacks are not set"

/-- `P` is kept by the ways to put computations together; `Q` says which failures they may end
with and `C` which crashes. -/
structure Sequenced (Q : RuntimeError → Prop) (P : ∀ α : Type, (ι → Exec α) → Prop)
    (C : Option String → Prop := fun _ => True) : Prop where
  pure {α : Type} (a : α) : P α fun _ => Pure.pure a
  bind {α β : Type} {X : ι → Exec α} {K : ι → α → Exec β} :
    P α X → (∀ a, P β fun i => K i a) → P β fun i => X i >>= K i
  attempt {α β : Type} {X : ι → Exec α} {K : ι → Except RuntimeError α → Exec β} :
    P α X → (∀ a, P β fun i => K i (.ok a)) → (∀ e, Q e → P β fun i => K i (.error e)) →
    P β fun i => Exec.attempt (X i) >>= K i
  fail {α : Type} {e : RuntimeError} : Q e → P α fun _ => Exec.fail e
  crash {α : Type} (text : Option String) : C text → P α fun _ => Exec.crash text
  unwired (event : String) : C (some (misconfigured event))
  plain {e : RuntimeError} : e.Plain → Q e
  placed {e : RuntimeError} (p : Position) : Q e → Q (e.atIfUnknown p)

/-- Besides, `P` lets computations go on with the world as it is. A property of runs from different
worlds does not. -/
structure Closed (Q : RuntimeError → Prop) (P : ∀ α : Type, (ι → Exec α) → Prop)
    (C : Option String → Prop := fun _ => True) : Prop extends Sequenced Q P C where
  get {β : Type} {K : ι → World → Exec β} :
    (∀ w, P β fun i => K i w) → P β fun i => MonadState.get >>= K i

/-- `P` lets computations go on with the tables that calls look at. -/
structure Lookups (P : ∀ α : Type, (ι → Exec α) → Prop) : Prop where
  procedures {β : Type} {K : ι → Table Procedure → Exec β} :
    (∀ t, P β fun i => K i t) → P β fun i => MonadState.get >>= fun w => K i w.root.procedures
  models {β : Type} {K : ι → Table AgentModel → Exec β} :
    (∀ t, P β fun i => K i t) → P β fun i => MonadState.get >>= fun w => K i w.models

/-- `P` lets computations go on with all that the root owns. -/
structure Rooted (P : ∀ α : Type, (ι → Exec α) → Prop) : Prop where
  get {β : Type} {K : ι → Root → Exec β} :
    (∀ r, P β fun i => K i r) → P β fun i => MonadState.get >>= fun w => K i w.root

theorem Closed.lookups (hP : Closed Q P C) : Lookups P where
  procedures hK := hP.get fun w => hK w.root.procedures
  models hK := hP.get fun w => hK w.models

theorem Closed.rooted (hP : Closed Q P C) : Rooted P :=
  ⟨fun hK => hP.get fun w => hK w.root⟩

/-- Whatever a computation ends with, it ends in a world that `R` relates to the world it starts
from. The worlds to start from are those that `R` relates to themselves. -/
def Keeps (R : World → World → Prop) (α : Type) (X : Unit → Exec α) : Prop :=
  ∀ w, R w w → R w (X () w).2

theorem Keeps.closed {R : World → World → Prop} (trans : ∀ {a b c}, R a b → R b c → R a c)
    (target : ∀ {a b}, R a b → R b b) : Closed (fun _ => True) (Keeps R) where
  pure a w h := h
  bind {α β X K} hX hK w h := by
    show R w ((X () >>= K ()) w).2
    rw [bind_apply]
    have hx := hX w h
    cases hw : X () w with
    | mk r w' =>
      rw [hw] at hx
      cases r with
      | ok a => exact trans hx (hK a w' (target hx))
      | error i => exact hx
  get hK w h := hK w w h
  attempt {α β X K} hX hok herror w h := by
    show R w ((Exec.attempt (X ()) >>= K ()) w).2
    have hx := hX w h
    cases hw : X () w with
    | mk r w' =>
      rw [hw] at hx
      match r with
      | .ok a =>
        rw [bind_ok (attempt_ok hw)]
        exact trans hx (hok a w' (target hx))
      | .error (.failed e) =>
        rw [bind_ok (attempt_failed hw)]
        exact trans hx (herror e trivial w' (target hx))
      | .error (.crashed text) =>
        rw [bind_error (attempt_crashed hw)]
        exact hx
  fail _ w h := h
  crash _ _ w h := h
  unwired _ := trivial
  plain _ := trivial
  placed _ _ := trivial

/-- Tools of the host see who calls them, not the world. -/
theorem Sequenced.ofInterrupt (hP : Sequenced (fun _ => True) P) {α : Type}
    (x : Except Interrupt α) : P α fun _ => Exec.ofInterrupt x := by
  rcases x with (e | text) | a
  · exact hP.fail trivial
  · exact hP.crash text trivial
  · exact hP.pure a

/-- A fork comes and goes with its instance. A relation that does not look at instances holds along
a body that is entered if it holds along the steps of the fork. -/
theorem enter_keeps {R : World → World → Prop} (trans : ∀ {a b c}, R a b → R b c → R a c)
    (target : ∀ {a b}, R a b → R b b)
    (hinstances : ∀ {w : World} instances, R w w → R w { w with instances := instances })
    {engine : Engine} {levels : Nat} {f : Frame} {a : Activation}
    (hrun : ∀ w : World, Keeps R Outcome fun _ => run engine (Exec.enter engine levels)
      (w.nextFrame f a.label a.body.handler a.outlet) {} a.body.steps) :
    Keeps R Outcome fun _ => Exec.enter engine (levels + 1) f a := by
  intro w hw
  have hstart : R w (entryWorld f a w) := by
    obtain ⟨instances, hentry⟩ := entryWorld_eq f a w
    rw [hentry]
    exact hinstances instances hw
  have hbody := trans hstart (hrun w _ (target hstart))
  rw [enter_world]
  exact trans hbody (hinstances _ (target hbody))

/-- `P` holds of what expressions of the instance `f` do to the world. -/
structure Expressions (P : ∀ α : Type, (ι → Exec α) → Prop) (engine : Engine) (enter : ι → Enter)
    (f : ι → Frame) : Prop where
  read (name : String) : P Value fun i => Exec.read engine (f i) name
  call (name : String) (args : List Value) :
    P Value fun i => Exec.call engine (enter i) (f i) name args

/-- `P` holds of what steps of the instance `f` do to the world, apart from clearing a failure. -/
structure Activities (P : ∀ α : Type, (ι → Exec α) → Prop) (engine : Engine) (enter : ι → Enter)
    (f : ι → Frame) (hooks : Hooks := engine.hooks) : Prop extends Expressions P engine enter f where
  write (name : String) (v : Value) : P Unit fun i => hooks.write (f i) name v
  ask (agentModel prompt : Value) (p : Position) :
    P Value fun i => Exec.ask engine (enter i) (f i) agentModel prompt p
  emit (v : Value) : P Unit fun i => Exec.emit engine (f i) v
  whisper (handle data : Value) : P Unit fun _ => Exec.whisper engine handle data
  promptUser (text : String) : P Value fun _ => Exec.promptUser engine text

theorem Activities.mono {P' : ∀ α : Type, (ι → Exec α) → Prop} {engine : Engine}
    {enter : ι → Enter} {f : ι → Frame} (h : ∀ {α : Type} {X : ι → Exec α}, P α X → P' α X)
    (hA : Activities P engine enter f) : Activities P' engine enter f where
  read name := h (hA.read name)
  call name args := h (hA.call name args)
  write name v := h (hA.write name v)
  ask agentModel prompt p := h (hA.ask agentModel prompt p)
  emit v := h (hA.emit v)
  whisper handle data := h (hA.whisper handle data)
  promptUser text := h (hA.promptUser text)

/-- `P` holds of what steps of the instance `f` do to the world. -/
structure Primitives (P : ∀ α : Type, (ι → Exec α) → Prop) (engine : Engine) (enter : ι → Enter)
    (f : ι → Frame) (hooks : Hooks := engine.hooks) : Prop
    extends Activities P engine enter f hooks where
  clear : P Unit fun i => note (.clear (f i).id)

namespace Sequenced

variable (hP : Sequenced Q P C)

include hP

theorem fault {α : Type} {f : Fault} (h : f.Sober) : P α fun _ => Exec.fault f :=
  hP.fail (hP.plain (Fault.error_plain h))

theorem ofFault {α : Type} {x : Except Fault α} (h : FailsWith Fault.Sober x) :
    P α fun _ => Exec.ofFault x := by
  cases x with
  | ok a => exact hP.pure a
  | error f => exact hP.fault (h f rfl)

theorem ofExcept {α : Type} {x : Except RuntimeError α} (h : FailsWith Q x) :
    P α fun _ => Exec.ofExcept x := by
  cases x with
  | ok a => exact hP.pure a
  | error e => exact hP.fail (h e rfl)

theorem mapError {α : Type} {X : ι → Exec α} (hX : P α X) {g : RuntimeError → RuntimeError}
    (hg : ∀ e, Q e → Q (g e)) : P α fun i => Exec.mapError g (X i) := by
  simp only [mapError_eq]
  exact hP.attempt hX (fun a => hP.pure a) fun e he => hP.fail (hg e he)

/-- A loop that never asks for what its body did keeps the property of one pass. -/
theorem pass {body : ι → Exec Outcome} (hbody : P Outcome body) :
    P LoopFlow fun i => Exec.pass (body i) := by
  unfold Exec.pass
  refine hP.attempt hbody (fun o => ?_) fun e he => ?_
  · exact hP.pure _
  · dsimp only
    split
    · exact hP.pure _
    · exact hP.pure _
    · exact hP.fail he

theorem repeatWhile {limit : Nat} {condition : ι → Exec Bool} {body : ι → Exec Outcome}
    (hcondition : P Bool condition) (hpass : P LoopFlow fun i => Exec.pass (body i)) (left : Nat) :
    ∀ cleared, P StepResult fun i =>
      Exec.repeatWhile limit (condition i) (body i) left cleared := by
  induction left with
  | zero =>
    intro cleared
    simp only [Exec.repeatWhile]
    refine hP.bind hcondition fun b => ?_
    cases b
    · exact hP.pure _
    · exact hP.fault rfl
  | succ left ih =>
    intro cleared
    simp only [Exec.repeatWhile]
    refine hP.bind hcondition fun b => ?_
    cases b
    · exact hP.pure _
    · refine hP.bind hpass fun flow => ?_
      cases flow
      · exact hP.pure _
      · exact ih _
      · exact hP.pure _

theorem repeatFor {limit : Nat} {visit : ι → Value → Exec Unit} {body : ι → Exec Outcome}
    (hvisit : ∀ v, P Unit fun i => visit i v) (hpass : P LoopFlow fun i => Exec.pass (body i))
    (items : List Value) :
    ∀ left cleared, P StepResult fun i =>
      Exec.repeatFor limit (visit i) (body i) items left cleared := by
  induction items with
  | nil => intro left cleared; simp only [Exec.repeatFor]; exact hP.pure _
  | cons v rest ih =>
    intro left cleared
    cases left with
    | zero => simp only [Exec.repeatFor]; exact hP.fault rfl
    | succ left =>
      simp only [Exec.repeatFor]
      refine hP.bind (hvisit v) fun _ => hP.bind hpass fun flow => ?_
      cases flow
      · exact hP.pure _
      · exact ih _ _
      · exact hP.pure _

end Sequenced

section Effects

variable (hP : Closed Q P C) (engine : Engine) (f : Frame)

include hP

theorem read_closed (name : String) : P Value fun _ => read engine f name := by
  unfold read
  refine hP.get fun w => ?_
  split
  · exact hP.pure _
  · exact hP.fault rfl

theorem report_closed (hnote : ∀ event source e, P Unit fun _ => note (.report event source e))
    (event source : String) (e : RuntimeError) : P Unit fun _ => report engine event source e := by
  unfold report
  split
  · exact hnote event source e
  · exact hP.pure _

theorem emit_closed (hnote : ∀ v, P Unit fun _ => note (.emit f.outlet v)) (v : Value) :
    P Unit fun _ => emit engine f v := by
  unfold emit
  split
  · exact hnote v
  · exact hP.pure _

theorem whisper_closed (hnote : ∀ handle data, P Unit fun _ => note (.whisper handle data))
    (handle data : Value) : P Unit fun _ => whisper engine handle data := by
  unfold whisper
  split
  · exact hnote handle data
  · exact hP.pure _

/-- The answer to a prompt counts the prompt; its failure is the host's. -/
theorem promptUser_closed (hnote : ∀ text, P Unit fun _ => note (.prompt text))
    (hcount : ∀ n, P Unit fun _ => modify fun w => { w with prompts := n })
    (hhost : ∀ ask n text, engine.host.prompter = some ask → FailsWith Q (ask n text))
    (text : String) : P Value fun _ => promptUser engine text := by
  unfold promptUser
  split
  · exact hP.fault rfl
  · rename_i ask hask
    refine hP.bind (hnote text) fun _ => hP.get fun w => hP.bind (hcount _) fun _ => ?_
    exact hP.ofExcept (hhost ask _ _ hask)

theorem fork_closed {label : String} {handler : Option (List Step)} {outlet : Outlet}
    (hbranch : P Frame fun _ => branch f label handler outlet) :
    P Frame fun _ => fork engine f label handler outlet := by
  unfold fork
  split
  · exact hbranch
  · exact hP.fail (hP.plain (engine.refusal_plain f label))

/-- To start a handler is to make a fork and to wait, or to report that there can be no fork. -/
theorem start_closed (hnote : ∀ event source e, P Unit fun _ => note (.report event source e))
    (hbranch : ∀ label handler outlet, P Frame fun _ => branch f label handler outlet)
    (hwait : ∀ p, P Unit fun _ => modify fun w => { w with pending := w.pending ++ [p] })
    (name source : String) (event : Value) (h : EventHandler) :
    P Nat fun _ => start engine f name source event h := by
  refine hP.attempt (fork_closed hP engine f (hbranch _ _ _)) (fun child => ?_) fun e _ => ?_
  · exact hP.bind (hwait _) fun _ => hP.pure _
  · exact hP.bind (report_closed hP engine hnote _ _ _) fun _ => hP.pure _

end Effects

section Instance

variable {engine : Engine} {enter : ι → Enter} {f : ι → Frame}

mutual

theorem evaluate_closed (hP : Sequenced Q P C) (hI : Expressions P engine enter f) :
    ∀ e, P Value fun i => evaluate engine (enter i) (f i) e
  | .literal l => by simp only [evaluate]; exact hP.pure _
  | .variable name => by simp only [evaluate]; exact hI.read name
  | .list items => by
    simp only [evaluate]
    exact hP.bind (evaluateAll_closed hP hI items) fun _ => hP.pure _
  | .map entries => by
    simp only [evaluate]
    exact hP.bind (evaluateEntries_closed hP hI entries []) fun _ => hP.pure _
  | .binary op left right => by
    have hl := evaluate_closed hP hI left
    have hr := evaluate_closed hP hI right
    simp only [evaluate]
    refine hP.bind hl fun l => ?_
    cases Value.shortCircuit op l with
    | some v => exact hP.pure v
    | none => exact hP.bind hr fun r => hP.ofFault (Value.binary_sober op l r)
  | .unary op operand => by
    have ho := evaluate_closed hP hI operand
    simp only [evaluate]
    exact hP.bind ho fun v => hP.ofFault (Value.unary_sober op v)
  | .index target key => by
    have ht := evaluate_closed hP hI target
    have hk := evaluate_closed hP hI key
    simp only [evaluate]
    exact hP.bind ht fun t => hP.bind hk fun k => hP.ofFault (Value.index_sober t k)
  | .call name args => by
    have ha := evaluateAll_closed hP hI args
    simp only [evaluate]
    exact hP.bind ha fun vs => hI.call name vs

theorem evaluateAll_closed (hP : Sequenced Q P C) (hI : Expressions P engine enter f) :
    ∀ es, P (List Value) fun i => evaluateAll engine (enter i) (f i) es
  | [] => by simp only [evaluateAll]; exact hP.pure _
  | e :: rest => by
    have he := evaluate_closed hP hI e
    have hr := evaluateAll_closed hP hI rest
    simp only [evaluateAll]
    exact hP.bind he fun _ => hP.bind hr fun _ => hP.pure _

theorem evaluateEntries_closed (hP : Sequenced Q P C) (hI : Expressions P engine enter f) :
    ∀ es done, P (List (String × Value)) fun i =>
      evaluateEntries engine (enter i) (f i) es done
  | [], done => by simp only [evaluateEntries]; exact hP.pure _
  | (k, e) :: rest, done => by
    have he := evaluate_closed hP hI e
    simp only [evaluateEntries]
    exact hP.bind he fun v => evaluateEntries_closed hP hI rest (Entries.insert k v done)

end

end Instance

/-- What blocks need besides the primitives: the signals and the failure that steps may raise, and
what becomes of a failure. -/
structure Steering (Q : RuntimeError → Prop) (P : ∀ α : Type, (ι → Exec α) → Prop) (mode : Mode)
    (recover : ι → RuntimeError → Exec Unit) : Prop where
  breakLoop : Q Fault.breakSignal.error
  continueLoop : Q Fault.continueSignal.error
  active (e : RuntimeError) : mode.active = some e → Q e
  recover (e : RuntimeError) : Q e → P Unit fun i => recover i e

end Exec

/-! ## Steps and blocks -/

namespace Hooks

open Exec

variable {hooks : Hooks} {engine : Engine} {enter : ι → Enter} {f : ι → Frame} {mode : Mode}
variable {recover : ι → RuntimeError → Exec Unit}

/-- `P` holds of what comes of a handler among steps and of the end of a block. -/
structure Ends (P : ∀ α : Type, (ι → Exec α) → Prop) (hooks : Hooks) : Prop where
  inline (body : List Step) : P StepResult fun _ => hooks.inline body
  ended (mode : Mode) (o : Outcome) : P Outcome fun _ => hooks.ended mode o

theorem Ends.own (hP : Sequenced Q P C) (engine : Engine) : Ends P engine.hooks :=
  ⟨fun _ => hP.pure _, fun _ _ => hP.pure _⟩

section Steps

variable (hP : Sequenced Q P C) (hA : Activities P engine enter f hooks)

include hP hA

theorem assign_closed (v : Value) :
    ∀ target, P Unit fun i => hooks.assign engine (enter i) (f i) target v
  | .variable name => hA.write name v
  | .element name key => by
    simp only [assign]
    refine hP.bind (evaluate_closed hP hA.toExpressions key) fun k => ?_
    refine hP.bind (hA.read name) fun c => ?_
    exact hP.bind (hP.ofFault (Value.setElement_sober c k v)) fun c' => hA.write name c'

theorem assignEach_closed (targets : List Target) :
    ∀ vs, P Unit fun i => hooks.assignEach engine (enter i) (f i) targets vs := by
  induction targets with
  | nil => intro vs; simp only [assignEach]; exact hP.pure _
  | cons t ts ih =>
    intro vs
    cases vs with
    | nil => simp only [assignEach]; exact hP.pure _
    | cons v vs =>
      simp only [assignEach]
      exact hP.bind (assign_closed hP hA v t) fun _ => ih vs

theorem assignAll_closed (targets : List Target) (v : Value) :
    P Unit fun i => hooks.assignAll engine (enter i) (f i) targets v := by
  unfold assignAll
  split
  · exact assign_closed hP hA _ _
  · split
    · exact assignEach_closed hP hA _ _
    · exact hP.fault rfl
  · exact hP.fault rfl

/-- The actions without blocks. A loop signal or the failure of a handler may be raised only if
`Q` allows it. -/
theorem simple_closed (hinline : ∀ body, P StepResult fun _ => hooks.inline body) (p : Position)
    (a : Action) (hclear : a = .clearError → P Unit fun i => note (.clear (f i).id))
    (hbreak : a = .breakLoop → Q Fault.breakSignal.error)
    (hcontinue : a = .continueLoop → Q Fault.continueSignal.error)
    (hactive : ∀ e, mode.active = some e → Q e) :
    P StepResult fun i => hooks.simple engine (enter i) (f i) mode p a := by
  cases a with
  | set targets value =>
    simp only [simple]
    exact hP.bind (evaluate_closed hP hA.toExpressions value) fun v =>
      hP.bind (assignAll_closed hP hA targets v) fun _ => hP.pure _
  | call e | expression e =>
    simp only [simple, execSimple]
    exact hP.bind (evaluate_closed hP hA.toExpressions e) fun _ => hP.pure _
  | ret values =>
    simp only [simple, execSimple]
    split
    · exact hP.fault rfl
    · exact hP.bind (evaluateAll_closed hP hA.toExpressions values) fun _ => hP.pure _
  | emit e =>
    simp only [simple, execSimple]
    exact hP.bind (evaluate_closed hP hA.toExpressions e) fun v =>
      hP.bind (hA.emit v) fun _ => hP.pure _
  | whisper handle data =>
    simp only [simple, execSimple]
    exact hP.bind (evaluate_closed hP hA.toExpressions handle) fun h =>
      hP.bind (evaluate_closed hP hA.toExpressions data) fun d =>
        hP.bind (hA.whisper h d) fun _ => hP.pure _
  | must e =>
    simp only [simple, execSimple]
    refine hP.attempt (evaluate_closed hP hA.toExpressions e) (fun v => ?_) fun e' he' => ?_
    · dsimp only
      split
      · exact hP.pure _
      · exact hP.fault rfl
    · dsimp only
      split
      · exact hP.fail he'
      · exact hP.fail (hP.plain ⟨rfl, rfl⟩)
  | mustBe check args =>
    simp only [simple, execSimple]
    refine hP.bind (evaluateAll_closed hP hA.toExpressions args) fun vs => ?_
    refine hP.attempt (hA.call check vs) (fun v => ?_) fun e' _ => ?_
    · dsimp only
      split
      · exact hP.pure _
      · exact hP.fault rfl
    · exact hP.fail (hP.plain ⟨rfl, rfl⟩)
  | fail message =>
    cases message with
    | some e =>
      simp only [simple, execSimple]
      exact hP.bind (evaluate_closed hP hA.toExpressions e) fun _ => hP.fault rfl
    | none =>
      simp only [simple, execSimple]
      split
      · rename_i e he
        exact hP.fail (hactive e he)
      · exact hP.fault rfl
  | clearError =>
    simp only [simple, execSimple]
    split
    · exact hP.bind (hclear rfl) fun _ => hP.pure _
    · exact hP.fault rfl
  | ask agentModel prompt into =>
    simp only [simple]
    refine hP.bind (evaluate_closed hP hA.toExpressions agentModel) fun m =>
      hP.bind (evaluate_closed hP hA.toExpressions prompt) fun q => ?_
    refine hP.bind (hA.ask m q p) fun v => ?_
    cases into with
    | some target => exact hP.bind (assign_closed hP hA v target) fun _ => hP.pure _
    | none => exact hP.bind (hP.pure ()) fun _ => hP.pure _
  | promptUser prompt into =>
    simp only [simple]
    exact hP.bind (evaluate_closed hP hA.toExpressions prompt) fun q =>
      hP.bind (hA.promptUser q.display) fun v =>
        hP.bind (assign_closed hP hA v into) fun _ => hP.pure _
  | breakLoop => simp only [simple, execSimple]; exact hP.fail (hbreak rfl)
  | continueLoop => simp only [simple, execSimple]; exact hP.fail (hcontinue rfl)
  | onError body => simp only [simple]; exact hinline body
  | branch _ _ _ | loop _ _ | forEach _ _ _ =>
    simp only [simple, execSimple]
    exact hP.pure _

end Steps

mutual

theorem action_closed (hP : Sequenced Q P C) (hI : Primitives P engine enter f hooks)
    (hE : Ends P hooks) (hS : Steering Q P mode recover) (p : Position) :
    ∀ a, P StepResult fun i => hooks.action engine (enter i) (f i) mode (recover i) p a
  | .branch condition thenBlock none => by
    have ht := block_closed hP hI hE hS thenBlock
    simp only [action]
    refine hP.bind (evaluate_closed hP hI.toExpressions condition) fun v => ?_
    split
    · exact hP.bind (hP.bind (ht _ _) (hE.ended mode)) fun _ => hP.pure _
    · exact hP.pure _
  | .branch condition thenBlock (some elseBlock) => by
    have ht := block_closed hP hI hE hS thenBlock
    have he := block_closed hP hI hE hS elseBlock
    simp only [action]
    refine hP.bind (evaluate_closed hP hI.toExpressions condition) fun v => ?_
    split
    · exact hP.bind (hP.bind (ht _ _) (hE.ended mode)) fun _ => hP.pure _
    · exact hP.bind (hP.bind (he _ _) (hE.ended mode)) fun _ => hP.pure _
  | .loop condition body => by
    have hb := block_closed hP hI hE hS body
    have hc : P Bool fun i => do return (← evaluate engine (enter i) (f i) condition).truthy :=
      hP.bind (evaluate_closed hP hI.toExpressions condition) fun v => hP.pure v.truthy
    simp only [action]
    exact hP.repeatWhile hc (hP.pass (hP.bind (hb _ _) (hE.ended mode))) _ _
  | .forEach item collection body => by
    have hb := block_closed hP hI hE hS body
    simp only [action]
    refine hP.bind (evaluate_closed hP hI.toExpressions collection) fun c => ?_
    refine hP.bind (hP.ofFault (Value.items_sober c)) fun items => ?_
    exact hP.repeatFor (fun v => hI.write item v) (hP.pass (hP.bind (hb _ _) (hE.ended mode)))
      items _ _
  | .set .. | .call _ | .ret _ | .emit _ | .whisper .. | .must _ | .mustBe .. | .fail _
  | .onError _ | .clearError | .ask .. | .promptUser .. | .breakLoop | .continueLoop
  | .expression _ => by
    simp only [action]
    exact simple_closed hP hI.toActivities hE.inline p _ (fun _ => hI.clear)
      (fun _ => hS.breakLoop) (fun _ => hS.continueLoop) hS.active

theorem block_closed (hP : Sequenced Q P C) (hI : Primitives P engine enter f hooks)
    (hE : Ends P hooks) (hS : Steering Q P mode recover) : ∀ steps last cleared,
    P Outcome fun i => hooks.block engine (enter i) (f i) mode (recover i) steps last cleared
  | [], last, cleared => by simp only [block]; exact hP.pure _
  | .mk p a :: rest, last, cleared => by
    have ha := action_closed hP hI hE hS p a
    have hr := block_closed hP hI hE hS rest
    simp only [block]
    refine hP.attempt ha (fun r => ?_) fun e he => ?_
    · obtain ⟨v, flow⟩ := r
      cases flow
      · exact hr v cleared
      · exact hP.pure _
      · exact hr v true
    · exact hP.bind (hS.recover _ (hP.placed p he)) fun _ => hr _ _

end

section Frames

variable (hP : Sequenced Q P C) {h : Option (List Step)}

include hP

/-- A handler keeps what the body keeps, as long as the failures that it leaves behind may be
marked as seen. -/
theorem recover_of_handler (hhandler : ∀ i, (f i).handler = h)
    (hannounce : h ≠ none → ∀ e, P Unit fun i => hooks.announce (f i) e)
    (hmark : ∀ e, Q e → Q e.markHandled) (e : RuntimeError) (he : Q e)
    (hattend : ∀ block, h = some block →
      P Outcome fun i => hooks.runHandler engine (enter i) (f i) (some e) block) :
    P Unit fun i => Hooks.recover hooks engine (enter i) (f i) e := by
  simp only [Hooks.recover, hhandler]
  split
  · exact hP.fail he
  · cases h with
    | none => exact hP.fail he
    | some block =>
      refine hP.bind (hannounce (Option.some_ne_none block) e) fun _ => ?_
      refine hP.attempt (hattend block rfl) (fun o => ?_) fun e' he' => ?_
      · simp only [afterHandler]
        split
        · exact hP.pure _
        · exact hP.fail (hmark e he)
      · exact hP.fail (hmark e' he')

variable (hI : Primitives P engine enter f hooks) (hE : Ends P hooks)

include hI hE

theorem runHandler_closed (hQ : Q Fault.breakSignal.error ∧ Q Fault.continueSignal.error)
    {active : Option RuntimeError} (hactive : ∀ e, active = some e → Q e) (block : List Step) :
    P Outcome fun i => hooks.runHandler engine (enter i) (f i) active block :=
  hP.bind (block_closed hP hI hE
    { breakLoop := hQ.1
      continueLoop := hQ.2
      active := hactive
      recover := fun _ he => hP.fail he } block _ _) (hE.ended _)

theorem recover_closed (hhandler : ∀ i, (f i).handler = h)
    (hannounce : h ≠ none → ∀ e, P Unit fun i => hooks.announce (f i) e)
    (hQ : Q Fault.breakSignal.error ∧ Q Fault.continueSignal.error)
    (hmark : ∀ e, Q e → Q e.markHandled) (e : RuntimeError) (he : Q e) :
    P Unit fun i => Hooks.recover hooks engine (enter i) (f i) e := by
  refine recover_of_handler hP hhandler hannounce hmark e he fun block _ => ?_
  refine runHandler_closed hP hI hE hQ (fun e' h' => ?_) block
  cases h'
  exact he

/-- A block as a handler or as a body. An instance that has a handler announces failures before it
handles them. -/
theorem run_closed (hhandler : ∀ i, (f i).handler = h)
    (hannounce : h ≠ none → ∀ e, P Unit fun i => hooks.announce (f i) e)
    (hQ : Q Fault.breakSignal.error ∧ Q Fault.continueSignal.error)
    (hmark : ∀ e, Q e → Q e.markHandled) (hactive : ∀ e, mode.active = some e → Q e)
    (steps : List Step) : P Outcome fun i => hooks.run engine (enter i) (f i) mode steps := by
  unfold run
  split
  · exact runHandler_closed hP hI hE hQ hactive steps
  · exact hP.bind (block_closed hP hI hE
      { breakLoop := hQ.1
        continueLoop := hQ.2
        active := hactive
        recover := recover_closed hP hI hE hhandler hannounce hQ hmark } steps _ _) (hE.ended mode)

end Frames

end Hooks

/-! ## The executor itself -/

namespace Exec

section Blocks

variable {engine : Engine} {enter : ι → Enter} {f : ι → Frame} {mode : Mode}
variable (hP : Sequenced Q P C)

include hP

theorem assign_closed (hA : Activities P engine enter f) (v : Value) (target : Target) :
    P Unit fun i => assign engine (enter i) (f i) target v := by
  simpa only [Hooks.own_assign] using Hooks.assign_closed hP hA v target

theorem execSimple_of_activities (hA : Activities P engine enter f) (p : Position) (action : Action)
    (hclear : action = .clearError → P Unit fun i => note (.clear (f i).id))
    (hbreak : action = .breakLoop → Q Fault.breakSignal.error)
    (hcontinue : action = .continueLoop → Q Fault.continueSignal.error)
    (hactive : ∀ e, mode.active = some e → Q e) :
    P StepResult fun i => execSimple engine (enter i) (f i) mode p action := by
  simpa only [Hooks.own_simple] using
    Hooks.simple_closed hP hA (fun _ => hP.pure _) p action hclear hbreak hcontinue hactive

theorem execSimple_closed (hI : Primitives P engine enter f) (p : Position) (action : Action)
    (hbreak : action = .breakLoop → Q Fault.breakSignal.error)
    (hcontinue : action = .continueLoop → Q Fault.continueSignal.error)
    (hactive : ∀ e, mode.active = some e → Q e) :
    P StepResult fun i => execSimple engine (enter i) (f i) mode p action :=
  execSimple_of_activities hP hI.toActivities p action (fun _ => hI.clear) hbreak hcontinue hactive

theorem runBlock_closed (hI : Primitives P engine enter f)
    {recover : ι → RuntimeError → Exec Unit} (hS : Steering Q P mode recover) (steps : List Step)
    (last : Value) (cleared : Bool) :
    P Outcome fun i => runBlock engine (enter i) (f i) mode (recover i) steps last cleared := by
  simpa only [Hooks.own_block] using
    Hooks.block_closed hP hI (.own hP engine) hS steps last cleared

theorem recover_of_handler {h : Option (List Step)} (hhandler : ∀ i, (f i).handler = h)
    (hannounce : h ≠ none → ∀ e, P Unit fun i => announce engine (f i) e)
    (hmark : ∀ e, Q e → Q e.markHandled) (e : RuntimeError) (he : Q e)
    (hattend : ∀ block, h = some block →
      P Outcome fun i => runHandler engine (enter i) (f i) (some e) block) :
    P Unit fun i => Exec.recover engine (enter i) (f i) e := by
  simp only [← Hooks.own_runHandler] at hattend
  simpa only [Hooks.own_recover] using
    Hooks.recover_of_handler hP hhandler hannounce hmark e he hattend

variable (hI : Primitives P engine enter f)

include hI

theorem runHandler_closed (hQ : Q Fault.breakSignal.error ∧ Q Fault.continueSignal.error)
    {active : Option RuntimeError} (hactive : ∀ e, active = some e → Q e) (block : List Step) :
    P Outcome fun i => runHandler engine (enter i) (f i) active block := by
  simpa only [Hooks.own_runHandler] using
    Hooks.runHandler_closed hP hI (.own hP engine) hQ hactive block

theorem run_of_announce {h : Option (List Step)} (hhandler : ∀ i, (f i).handler = h)
    (hannounce : h ≠ none → ∀ e, P Unit fun i => announce engine (f i) e)
    (hQ : Q Fault.breakSignal.error ∧ Q Fault.continueSignal.error)
    (hmark : ∀ e, Q e → Q e.markHandled) (hactive : ∀ e, mode.active = some e → Q e)
    (steps : List Step) : P Outcome fun i => run engine (enter i) (f i) mode steps := by
  simpa only [Hooks.own_run] using
    Hooks.run_closed hP hI (.own hP engine) hhandler hannounce hQ hmark hactive steps

theorem run_closed {h : Option (List Step)} (hhandler : ∀ i, (f i).handler = h)
    (hnote : ∀ e, P Unit fun i => note (.recover (f i).id e))
    (hbind : ∀ name v, P Unit fun i => bindLocal (f i) name v)
    (hQ : Q Fault.breakSignal.error ∧ Q Fault.continueSignal.error)
    (hmark : ∀ e, Q e → Q e.markHandled) (hactive : ∀ e, mode.active = some e → Q e)
    (steps : List Step) : P Outcome fun i => run engine (enter i) (f i) mode steps :=
  run_of_announce hP hI hhandler (fun _ e => hP.bind (hnote e) fun _ => hbind _ _) hQ hmark
    hactive steps

end Blocks

/-! ## Calls and conversations -/

/-- Who is asked, by whom and with which key, or why nobody can be. -/
def Talk.resolve (w : World) (name : String) (prompt : Value) (p : Position) :
    Except RuntimeError Talk :=
  match AgentModel.kind.get w.models name with
  | .error e => .error (e.toRuntimeError.withPosition p)
  | .ok model =>
    match w.providers.get model.provider with
    | .error e =>
      .error (((Fault.providerMissing model.name).error.withCause e.message).withPosition p)
    | .ok provider =>
      match apiKey w model with
      | .error e => .error (e.toRuntimeError.withPosition p)
      | .ok key => .ok
        { model := model, provider := provider, apiKey := key, prompt := prompt.toJson,
          conversation := .ask w.conversations, position := p }

theorem Talk.resolve_plain (w : World) (name : String) (prompt : Value) (p : Position) :
    FailsWith RuntimeError.Plain (Talk.resolve w name prompt p) := by
  unfold Talk.resolve
  split
  · exact .error ((StoreError.toRuntimeError_plain _).withPosition p)
  · split
    · exact .error ⟨rfl, rfl⟩
    · split
      · exact .error ((StoreError.toRuntimeError_plain _).withPosition p)
      · exact .ok _

def openConversation : Exec Unit := modify fun w => { w with conversations := w.conversations + 1 }

/-- Asks an agent by name, however the conversation is held. -/
def askWith (converse : Talk → Exec String) (agentModel prompt : Value) (p : Position) :
    Exec Value := do
  match agentModel with
  | .string name => do
    let t ← ofExcept (Talk.resolve (← get) name prompt p)
    openConversation
    return .string (← converse t)
  | v => fail ((Fault.modelNameType v.typeName).error.withPosition p)

theorem placed_mapError_ok {α ε : Type} (p : Position) (g : ε → RuntimeError) (a : α) (w : World) :
    placed p ((Except.ok a : Except ε α).mapError g) w = (.ok a, w) := rfl

theorem placed_mapError_error {α ε : Type} (p : Position) (g : ε → RuntimeError) (e : ε)
    (w : World) : placed p ((Except.error e : Except ε α).mapError g) w =
      (.error (.failed ((g e).withPosition p)), w) := rfl

theorem ask_eq (engine : Engine) (enter : Enter) (f : Frame) (agentModel prompt : Value)
    (p : Position) :
    ask engine enter f agentModel prompt p =
      askWith (fun t => converse engine enter f t (t.model.maxTurns - 1) 1 none) agentModel prompt
        p := by
  cases agentModel with
  | string name =>
    funext w
    simp only [ask, askWith, bind_apply, get_apply, Talk.resolve]
    cases AgentModel.kind.get w.models name with
    | error e => rfl
    | ok model =>
      cases hp : w.providers.get model.provider with
      | error e => simp only [placed_mapError_ok, hp, placed_mapError_error, ofExcept, fail_apply]
      | ok provider =>
        cases hk : apiKey w model with
        | error e =>
          simp only [placed_mapError_ok, hp, hk, placed_mapError_error, ofExcept, fail_apply]
        | ok key =>
          simp only [placed_mapError_ok, hp, hk, ofExcept, pure_apply, set_apply, openConversation,
            modify_apply]
  | nil | number _ | bool _ | list _ | map _ | handle _ _ => rfl

section Calls

variable {engine : Engine} {enter : ι → Enter} {f : ι → Frame} {outlet : Outlet}

/-- `P` holds of what calls by name come down to: bodies that are entered and tools. -/
structure Callees (P : ∀ α : Type, (ι → Exec α) → Prop) (engine : Engine) (enter : ι → Enter)
    (f : ι → Frame) (outlet : Outlet) : Prop where
  enter (a : Activation) : a.outlet = outlet → P Outcome fun i => enter i (f i) a
  invoke (name : String) (args : List Value) :
    P Value fun i => Exec.invoke engine (f i) name args
  outlet (i : ι) : (f i).outlet = outlet

structure Tools (P : ∀ α : Type, (ι → Exec α) → Prop) (engine : Engine) (f : ι → Frame) : Prop where
  raise (name source : String) (payload : Value) :
    P Nat fun i => Exec.raise engine (f i) name source payload
  consult (c : Capability) (allowed : Bool) : P Unit fun _ => note (.consult c allowed)
  enterTool (name : String) : P Unit fun _ => note (.enter name)
  host {name : String} {tool : Tool} {run : Caller → List Value → Except Interrupt Value}
    (args : List Value) : engine.tools.get? name = some tool → tool.action = .host run →
    P Value fun i => ofInterrupt (run (f i).caller args)

/-- `P` holds of what calls of procedures and tools do besides looking at tables. -/
structure Calls (P : ∀ α : Type, (ι → Exec α) → Prop) (engine : Engine) (enter : ι → Enter)
    (f : ι → Frame) (outlet : Outlet) : Prop extends Tools P engine f where
  outlet (i : ι) : (f i).outlet = outlet
  enter (a : Activation) : P Outcome fun i => enter i (f i) a

theorem startAll_closed (hP : Sequenced Q P C) {name source : String} {event : Value}
    (handlers : List EventHandler)
    (hstart : ∀ h ∈ handlers, P Nat fun i => start engine (f i) name source event h) :
    P Nat fun i => startAll engine (f i) name source event handlers := by
  induction handlers with
  | nil => simp only [startAll]; exact hP.pure _
  | cons h rest ih =>
    obtain ⟨hfirst, hrest⟩ := List.forall_mem_cons.1 hstart
    simp only [startAll]
    exact hP.bind hfirst fun _ => hP.bind (ih hrest) fun _ => hP.pure _

theorem raise_closed (hP : Closed Q P C) (houtlet : ∀ i, (f i).outlet = outlet)
    (hstart : ∀ name source event h, P Nat fun i => start engine (f i) name source event h)
    (name source : String) (payload : Value) :
    P Nat fun i => raise engine (f i) name source payload := by
  simp only [raise, wired, houtlet]
  refine hP.get fun w => ?_
  split
  · exact hP.pure _
  · split
    · exact startAll_closed hP.toSequenced _ fun h _ => hstart name source _ h
    · exact hP.crash _ (hP.unwired name)

theorem runBuiltin_closed (hP : Sequenced Q P C) (hL : Lookups P) (b : Builtin)
    (hraise : b = .emitEvent →
      ∀ name source payload, P Nat fun i => raise engine (f i) name source payload)
    (args : List Value) : P Value fun i => runBuiltin engine (f i) b args := by
  unfold runBuiltin
  dsimp only
  split
  · exact hP.fault rfl
  · cases b with
    | emitEvent =>
      dsimp only
      split
      · exact hP.bind (hraise rfl _ _ _) fun _ => hP.pure _
      · exact hP.fault rfl
    | len => exact hP.bind (hP.ofFault (Value.length_sober _)) fun _ => hP.pure _
    | typeOf | notEmpty | isType _ => exact hP.pure _
    | listModels =>
      exact hL.models (K := fun _ t => Pure.pure (Value.list (t.values.map AgentModel.toValue)))
        fun t => hP.pure _

namespace Callees

variable (hC : Callees P engine enter f outlet) (hP : Sequenced Q P C) (hL : Lookups P)

include hC hP hL

theorem callProcedure (name : String) (args : List Value) :
    P Value fun i => Exec.callProcedure (enter i) (f i) name args := by
  simp only [callProcedure_eq]
  refine hL.procedures (K := fun i t => callFound (enter i) (f i) name args (t.get? name))
    fun t => ?_
  cases t.get? name with
  | none => exact hP.fault rfl
  | some p =>
    simp only [callFound, hC.outlet]
    split
    · exact hP.fault rfl
    · exact hP.bind (hC.enter _ rfl) fun _ => hP.pure _

theorem call (name : String) (args : List Value) :
    P Value fun i => Exec.call engine (enter i) (f i) name args := by
  cases hn : toolName? name with
  | some tool =>
    simp only [call_of_tool engine _ _ args hn]
    exact hC.invoke tool args
  | none =>
    simp only [call_of_name engine _ _ args hn]
    refine hL.procedures
      (K := fun i t => callNamed engine (enter i) (f i) name args (t.contains name)) fun t => ?_
    cases t.contains name with
    | true => exact hC.callProcedure hP hL name args
    | false =>
      simp only [callNamed, Bool.false_eq_true, if_false]
      split
      · exact hC.invoke name args
      · exact hP.fault rfl

end Callees

namespace Tools

variable (hT : Tools P engine f) (hP : Sequenced Q P C)

include hT hP

theorem consultAll (tool : String) (wanted : List Capability) :
    P Unit fun _ => Exec.consultAll engine tool wanted := by
  induction wanted with
  | nil => simp only [Exec.consultAll]; exact hP.pure _
  | cons c rest ih =>
    simp only [Exec.consultAll]
    cases engine.gate.check c with
    | ok _ => exact hP.bind (hT.consult c true) fun _ => ih
    | error denied => exact hP.bind (hT.consult c false) fun _ => hP.fail (hP.plain ⟨rfl, rfl⟩)

theorem invoke (hL : Lookups P) (name : String) (args : List Value) :
    P Value fun i => Exec.invoke engine (f i) name args := by
  unfold Exec.invoke
  cases ht : engine.tools.get? name with
  | none => exact hP.fault rfl
  | some tool =>
    refine hP.bind (hT.consultAll hP name tool.requires) fun _ => ?_
    refine hP.bind (hT.enterTool name) fun _ => ?_
    cases ha : tool.action with
    | builtin b => exact runBuiltin_closed hP hL b (fun _ => hT.raise) args
    | host run => exact hT.host args ht ha

end Tools

/-- What a tool of the host does is not seen in the world. -/
theorem invoke_closed {f : Frame} (hP : Closed (fun _ => True) P)
    (hraise : ∀ name source payload, P Nat fun _ => raise engine f name source payload)
    (hconsult : ∀ c allowed, P Unit fun _ => note (.consult c allowed))
    (henter : ∀ name, P Unit fun _ => note (.enter name)) (name : String) (args : List Value) :
    P Value fun _ => invoke engine f name args := by
  have hT : Tools P engine fun _ => f :=
    ⟨hraise, hconsult, henter, fun _ _ _ => hP.ofInterrupt _⟩
  exact hT.invoke hP.toSequenced hP.lookups name args

namespace Calls

variable (hC : Calls P engine enter f outlet) (hP : Sequenced Q P C) (hL : Lookups P)

include hC hP hL

theorem callees : Callees P engine enter f outlet :=
  ⟨fun a _ => hC.enter a, hC.toTools.invoke hP hL, hC.outlet⟩

theorem call (name : String) (args : List Value) :
    P Value fun i => Exec.call engine (enter i) (f i) name args :=
  (hC.callees hP hL).call hP hL name args

end Calls

end Calls

section Services

variable {engine : Engine} {enter : ι → Enter} {f : ι → Frame} {outlet : Outlet}

/-- `P` holds of what calls, tools and conversations do besides reading the world. -/
structure Services (P : ∀ α : Type, (ι → Exec α) → Prop) (engine : Engine) (enter : ι → Enter)
    (f : ι → Frame) (outlet : Outlet) : Prop where
  outlet (i : ι) : (f i).outlet = outlet
  enter (a : Activation) : P Outcome fun i => enter i (f i) a
  start (name source : String) (event : Value) (h : EventHandler) :
    P Nat fun i => Exec.start engine (f i) name source event h
  consult (c : Capability) (allowed : Bool) : P Unit fun _ => note (.consult c allowed)
  enterTool (name : String) : P Unit fun _ => note (.enter name)
  host {name : String} {tool : Tool} {run : Caller → List Value → Except Interrupt Value}
    (args : List Value) : engine.tools.get? name = some tool → tool.action = .host run →
    P Value fun i => ofInterrupt (run (f i).caller args)
  chat (r : Registration) (c : ChatContext) (q : ChatRequest) :
    P (Except ProviderError ChatReply) fun _ => Exec.chat r c q
  capture (n : Nat) : P Unit fun _ => modify fun w => { w with captures := n }
  openConversation : P Unit fun _ => Exec.openConversation

variable (hP : Closed Q P C) (hV : Services P engine enter f outlet)

include hP hV

theorem Services.calls : Calls P engine enter f outlet :=
  ⟨⟨raise_closed hP hV.outlet hV.start, hV.consult, hV.enterTool, hV.host⟩, hV.outlet, hV.enter⟩

theorem callProcedure_closed (name : String) (args : List Value) :
    P Value fun i => callProcedure (enter i) (f i) name args :=
  ((hV.calls hP).callees hP.toSequenced hP.lookups).callProcedure hP.toSequenced hP.lookups name args

theorem call_closed (name : String) (args : List Value) :
    P Value fun i => call engine (enter i) (f i) name args :=
  (hV.calls hP).call hP.toSequenced hP.lookups name args

end Services

section Talks

structure Talks (P : ∀ α : Type, (ι → Exec α) → Prop) (engine : Engine) (enter : ι → Enter)
    (f : ι → Frame) : Prop where
  chat (r : Registration) (c : ChatContext) (q : ChatRequest) :
    P (Except ProviderError ChatReply) fun _ => Exec.chat r c q
  act (t : Talk) (turn : Nat) (reply : Envelope) :
    P String fun i => Exec.act engine (enter i) (f i) t turn reply
  openConversation : P Unit fun _ => Exec.openConversation

variable {engine : Engine} {enter : ι → Enter} {f : ι → Frame}
variable (hP : Closed Q P C) (hT : Talks P engine enter f)

include hP

theorem placed_closed {α : Type} (p : Position) {x : Except RuntimeError α}
    (h : FailsWith RuntimeError.Plain x) : P α fun _ => placed p x := by
  cases x with
  | ok a => exact hP.pure a
  | error e => exact hP.fail (hP.plain ((h e rfl).withPosition p))

/-- An exchange is one call of the provider, on behalf of the conversation. -/
theorem exchange_closed {t : Talk}
    (hchat : ∀ c q, c.conversation = t.conversation →
      P (Except ProviderError ChatReply) fun _ => Exec.chat t.provider c q)
    (turn : Nat) (previous : Option String) :
    P Envelope fun _ => exchange engine t turn previous := by
  unfold exchange
  refine hP.bind (hchat _ _ rfl) fun reply => ?_
  split
  · exact hP.fail (hP.plain ((ProviderError.toRuntimeError_plain _).withPosition _))
  · split
    · exact hP.pure _
    · exact hP.fail (hP.plain ⟨rfl, rfl⟩)

theorem act_closed (henter : ∀ a, P Outcome fun i => enter i (f i) a)
    (hcapture : ∀ n, P Unit fun _ => modify fun w => { w with captures := n })
    (t : Talk) (turn : Nat) (reply : Envelope) :
    P String fun i => act engine (enter i) (f i) t turn reply := by
  unfold act
  refine hP.bind (placed_closed hP _ ?_) fun steps => ?_
  · cases engine.grammar reply.script with
    | ok steps => exact .ok steps
    | error e => exact .error (ParseError.toRuntimeError_plain e)
  refine hP.bind (hP.ofExcept ?_) fun body => ?_
  · cases h : Body.ofSteps steps with
    | ok body => exact .ok body
    | error e => exact .error (hP.plain ((Body.ofSteps_plain steps e h).atIfUnknown _))
  refine hP.get fun w => hP.bind (hcapture _) fun _ => hP.bind (henter _) fun _ => ?_
  exact hP.get fun w => hP.pure _

include hT in
theorem Talks.takeTurn (t : Talk) (turn : Nat) (previous : Option String) :
    P (Envelope × String) fun i => Exec.takeTurn engine (enter i) (f i) t turn previous := by
  unfold Exec.takeTurn
  refine hP.bind (exchange_closed hP (fun c q _ => hT.chat _ c q) turn previous) fun reply => ?_
  exact hP.bind (hT.act t turn reply) fun _ => hP.pure _

theorem conclude_closed (t : Talk) (turn : Nat) (output : String) (v : Verdict) :
    P String fun _ => conclude t turn output v := by
  cases v with
  | again | finished => exact hP.pure _
  | aborted _ | rejected => exact hP.fail (hP.plain ⟨rfl, rfl⟩)

theorem converse_closed {t : Talk} (hturn : ∀ turn previous, P (Envelope × String) fun i =>
      takeTurn engine (enter i) (f i) t turn previous) (left : Nat) : ∀ turn previous,
    P String fun i => converse engine (enter i) (f i) t left turn previous := by
  induction left with
  | zero =>
    intro turn previous
    simp only [converse]
    exact hP.bind (hturn turn previous) fun _ => conclude_closed hP t turn _ _
  | succ left ih =>
    intro turn previous
    simp only [converse]
    refine hP.bind (hturn turn previous) fun r => ?_
    split
    · exact ih _ _
    · exact conclude_closed hP t turn _ _

include hT in
theorem Talks.askWith {converse : ι → Talk → Exec String}
    (hconverse : ∀ t, P String fun i => converse i t) (agentModel prompt : Value) (p : Position) :
    P Value fun i => Exec.askWith (converse i) agentModel prompt p := by
  cases agentModel with
  | string name =>
    have htalk (w : World) : P Talk fun _ => ofExcept (Talk.resolve w name prompt p) :=
      hP.ofExcept fun e he => hP.plain (Talk.resolve_plain w name prompt p e he)
    refine hP.get fun w => hP.bind (htalk w) fun t => ?_
    refine hP.bind hT.openConversation fun _ => ?_
    exact hP.bind (hconverse t) fun _ => hP.pure _
  | nil | number _ | bool _ | list _ | map _ | handle _ _ =>
    exact hP.fail (hP.plain ⟨rfl, rfl⟩)

include hT in
theorem Talks.ask (agentModel prompt : Value) (p : Position) :
    P Value fun i => Exec.ask engine (enter i) (f i) agentModel prompt p := by
  simp only [ask_eq]
  exact hT.askWith hP (fun t => converse_closed hP (hT.takeTurn hP t) _ 1 none) agentModel prompt p

theorem Services.talks {outlet : Outlet} (hV : Services P engine enter f outlet) :
    Talks P engine enter f :=
  ⟨hV.chat, act_closed hP hV.enter hV.capture, hV.openConversation⟩

theorem ask_closed {outlet : Outlet} (hV : Services P engine enter f outlet)
    (agentModel prompt : Value) (p : Position) :
    P Value fun i => ask engine (enter i) (f i) agentModel prompt p :=
  (hV.talks hP).ask hP agentModel prompt p

end Talks

/-- The body of a started handler. -/
theorem handlerBody_closed (hP : Sequenced Q P C) {engine : Engine} {p : ι → Pending}
    {h : EventHandler} {event : Value} (hhandler : ∀ i, (p i).handler = h)
    (hevent : ∀ i, (p i).event = event)
    (hbind : ∀ name v, P Unit fun i => bindLocal (p i).frame name v)
    (hrun : P Outcome fun i => engine.runBlock (p i).frame {} h.body.steps) :
    P Outcome fun i => engine.handlerBody (p i) := by
  have hbody : P Outcome fun i =>
      mapError RuntimeError.leavingFrame (engine.runBlock (p i).frame {} h.body.steps) :=
    hP.mapError hrun fun e _ => hP.plain (RuntimeError.leavingFrame_plain e)
  simp only [Engine.handlerBody, hhandler, hevent]
  split
  · exact hP.bind (hbind _ _) fun _ => hbody
  · exact hP.bind (hP.pure ()) fun _ => hbody

end Exec
end StepScript
