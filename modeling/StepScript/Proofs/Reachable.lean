import StepScript.Proofs.Habit
import StepScript.Proofs.Isolation
import StepScript.Proofs.Waiting

/-!
# StepScript.Proofs.Reachable

The worlds that a host can bring about, and what is true of all of them.

* `HostRequest`     — what a host asks of a live instance: operations of scripts, blocks, variables,
  programs and forks.
* `Engine.Tends`    — what happens beside requests: handlers are run, one or all of those that wait,
  and stores are administered.
* `World.Reachable` — requests in any order on any live instances, that between them, and forks that
  are given up.
* `Reachable.coherent`, `Reachable.seated` — instances and waiting handlers fit together.
* `HostCall`        — a request, or a conversation of its own.
* `Operation.perform_sandboxed` — so an operation and its handlers change nothing that was there.
-/

namespace StepScript

/-- What a host can ask of a live instance, indexed by the answer. -/
inductive HostRequest : Type → Type 1 where
  | operate {α : Type} (op : Operation α) : HostRequest α
  | block (mode : Mode) (steps : List Step) : HostRequest Outcome
  | set (name : String) (v : Value) : HostRequest Unit
  | setGlobal (name : String) (v : Value) : HostRequest Unit
  | setConstant (name : String) (v : Value) : HostRequest Unit
  | load (p : Program) : HostRequest Unit
  | append (p : Program) : HostRequest Unit
  | registerEvent (d : EventDecl) : HostRequest Unit
  | fork (label : String) (handler : Option (List Step)) : HostRequest Frame

def HostRequest.exec (engine : Engine) (f : Frame) : {α : Type} → HostRequest α → Exec α
  | _, .operate op => op.exec engine f
  | _, .block mode steps => engine.runBlock f mode steps
  | _, .set name v => Exec.write engine f name v
  | _, .setGlobal name v => Exec.change (·.defineGlobal engine.symbols f name v)
  | _, .setConstant name v => Exec.change (·.defineConstant f name v)
  | _, .load p => engine.load f p
  | _, .append p => engine.append f p
  | _, .registerEvent d => engine.registerEvent f d
  | _, .fork label handler => Exec.fork engine f label handler f.outlet

def HostRequest.raises : {α : Type} → HostRequest α → Bool
  | _, .operate op => op.raises
  | _, _ => false

def HostRequest.forks : {α : Type} → HostRequest α → Bool
  | _, .fork _ _ => true
  | _, _ => false

/-- What is done to a world beside requests. A handler that waits is run, whichever is next, or all
are run that wait and come to wait; the stores are changed, and what was recorded is replaced.
Handlers are only run `inside` some of the instances. -/
inductive Engine.Tends (engine : Engine) (inside : InstanceId → Prop) : World → World → Prop where
  | handle {w : World} {p : Pending} {before after : List Pending} :
      w.pending = before ++ p :: after → inside p.frame.id →
      Tends engine inside w (engine.runPending p { w with pending := before ++ after })
  | settle {w : World} : (∀ p ∈ w.pending, inside p.frame.id) →
      Tends engine inside w (engine.settle w).2
  | administer (w : World) (models : Table AgentModel) (accounts : Table Account)
      (providers : ProviderRegistry) :
      Tends engine inside w { w with models := models, accounts := accounts, providers := providers }
  | record (w : World) (trace : Array Effect) (calls : Array ProviderCall) :
      Tends engine inside w { w with trace := trace, calls := calls }

/-- The worlds of an engine. Handlers may wait while more is asked for. The host gives up forks that
it has made, and changes the stores and what it has recorded as it likes. -/
inductive World.Reachable (engine : Engine) : World → Prop where
  | start : Reachable engine {}
  | ask {w : World} {f : Frame} {α : Type} (r : HostRequest α) :
      Reachable engine w → f ∈ w.frames → Reachable engine (r.exec engine f w).2
  | tend {w w' : World} : Reachable engine w → engine.Tends (fun _ => True) w w' →
      Reachable engine w'
  | drop {w : World} {id : InstanceId} : Reachable engine w → id ≠ Frame.root.id →
      (∀ p ∈ w.pending, p.frame.id ≠ id) → Reachable engine (w.release id)

/-! ## Programs -/

namespace Exec

universe u

variable {ι : Type u} {P : ∀ α : Type, (ι → Exec α) → Prop} (hP : Sequenced (fun _ => True) P)

section Tables

variable (hroot : ∀ g : Root → Root, P Unit fun _ => modifyRoot g)

include hP

theorem requireRoot_closed (f : Frame) (operation : String) :
    P Unit fun _ => Engine.requireRoot f operation := by
  unfold Engine.requireRoot
  split
  · exact hP.pure _
  · exact hP.fail trivial

theorem checkRoot_closed (hR : Rooted P) (check : Root → Except RuntimeError Unit) :
    P Unit fun _ => checkRoot check :=
  hR.get fun _ => hP.ofExcept fun _ _ => trivial

include hroot

theorem forM_modifyRoot_closed {β : Type} (g : β → Root → Root) (xs : List β) :
    P Unit fun _ => xs.forM fun x => modifyRoot (g x) := by
  induction xs with
  | nil => exact hP.pure _
  | cons x xs ih =>
    simp only [List.forM_eq_forM, List.forM_cons] at ih ⊢
    exact hP.bind (hroot (g x)) fun _ => ih

theorem insertHandlers_closed (handlers : List EventHandler) :
    P Unit fun _ => insertHandlers handlers :=
  forM_modifyRoot_closed hP hroot (fun h r => r.insertHandler h) handlers

theorem insertProcedures_closed (hR : Rooted P) (redefine : Bool) (procedures : List Procedure) :
    P Unit fun _ => insertProcedures redefine procedures := by
  have hinsert := forM_modifyRoot_closed hP hroot (fun p r => r.insertProcedure p) procedures
  cases redefine with
  | true => exact hP.bind (hP.pure ()) fun _ => hinsert
  | false => exact hP.bind (checkRoot_closed hP hR _) fun _ => hinsert

end Tables

variable {engine : Engine} {f : Frame} (heval : ∀ e, P Value fun _ => engine.evaluate f e)

include hP heval

/-- Preparing a program does no more to the world than to evaluate the names of events. -/
theorem prepareHandler_closed (d : EventDecl) :
    P EventHandler fun _ => engine.prepareHandler f d := by
  unfold Engine.prepareHandler
  refine hP.bind (hP.mapError (heval d.name) fun _ _ => trivial) fun v => ?_
  cases v with
  | string name =>
    have hbody : P EventHandler fun _ => ofExcept (Body.ofSteps d.body) >>= fun body =>
        Pure.pure (.mk name d.handlerName d.payloadVariable body d.position) :=
      hP.bind (hP.ofExcept fun _ _ => trivial) fun _ => hP.pure _
    dsimp only
    split
    · split
      · exact hP.bind (hP.fail trivial) fun _ => hbody
      · exact hbody
    · exact hbody
  | nil | number _ | bool _ | list _ | map _ | handle _ _ => exact hP.fail trivial

theorem prepareHandlers_closed (decls : List EventDecl) : ∀ seen,
    P (List EventHandler) fun _ => engine.prepareHandlers f seen decls := by
  induction decls with
  | nil => intro seen; simp only [Engine.prepareHandlers]; exact hP.pure _
  | cons d rest ih =>
    intro seen
    simp only [Engine.prepareHandlers]
    refine hP.bind (prepareHandler_closed hP heval d) fun h => ?_
    split
    · split
      · exact hP.fail trivial
      · exact hP.bind (ih _) fun _ => hP.pure _
    · exact hP.bind (ih _) fun _ => hP.pure _

theorem prepare_closed (p : Program) : P Prepared fun _ => engine.prepare f p := by
  unfold Engine.prepare
  refine hP.bind (hP.ofExcept fun _ _ => trivial) fun procedures => ?_
  refine hP.bind (hP.ofExcept fun _ _ => trivial) fun commands => ?_
  exact hP.bind (prepareHandlers_closed hP heval p.events []) fun _ => hP.pure _

variable (hroot : ∀ g : Root → Root, P Unit fun _ => modifyRoot g)

include hroot

theorem load_closed (p : Program) : P Unit fun _ => engine.load f p := by
  unfold Engine.load
  refine hP.bind (requireRoot_closed hP f "load") fun _ => ?_
  refine hP.bind (prepare_closed hP heval p) fun prepared => ?_
  refine hP.bind (hroot _) fun _ => hP.bind (hroot _) fun _ => hP.bind (hroot _) fun _ => ?_
  exact insertHandlers_closed hP hroot prepared.handlers

variable (hR : Rooted P)

include hR

theorem append_closed (p : Program) : P Unit fun _ => engine.append f p := by
  unfold Engine.append
  refine hP.bind (requireRoot_closed hP f "append") fun _ => ?_
  refine hP.bind (prepare_closed hP heval p) fun prepared => ?_
  refine hP.bind (checkRoot_closed hP hR _) fun _ => ?_
  refine hP.bind (insertProcedures_closed hP hroot hR _ prepared.procedures) fun _ => ?_
  exact hP.bind (hroot _) fun _ => insertHandlers_closed hP hroot prepared.handlers

theorem registerEvent_closed (d : EventDecl) : P Unit fun _ => engine.registerEvent f d := by
  unfold Engine.registerEvent
  refine hP.bind (prepareHandler_closed hP heval d) fun h => ?_
  exact hP.bind (checkRoot_closed hP hR _) fun _ => hroot _

end Exec

/-! ## Requests keep worlds in order -/

namespace World

/-- The same instances, as far as coherence looks at them, and the same handlers that wait. -/
structure Alike (w w' : World) : Prop where
  frames : w'.frames = w.frames
  forkCount : ∀ id, w'.forkCount id = w.forkCount id
  pending : w'.pending = w.pending

namespace Alike

variable {w w' w'' : World}

theorem of_instances (hi : w'.instances = w.instances) (hp : w'.pending = w.pending) : Alike w w' :=
  ⟨by simp only [World.frames, hi],
    fun id => by simp only [World.forkCount, instance?, hi], hp⟩

theorem trans (h : Alike w w') (h' : Alike w' w'') : Alike w w'' :=
  ⟨h'.frames.trans h.frames, fun id => (h'.forkCount id).trans (h.forkCount id),
    h'.pending.trans h.pending⟩

theorem ids (h : Alike w w') : w'.ids = w.ids := by
  simp only [World.ids, h.frames]

theorem coherent (h : Alike w w') (hw : w.Coherent) : w'.Coherent :=
  hw.congr h.ids h.forkCount h.pending

/-- Locals do not matter. -/
theorem update (w : World) (id : InstanceId) (g : Table Value → Table Value) :
    Alike w (w.update id fun i => { i with locals := g i.locals }) := by
  have hg : ∀ i : Instance, { i with locals := g i.locals }.frame = i.frame := fun _ => rfl
  refine ⟨update_frames hg w id, fun id' => ?_, rfl⟩
  simp only [World.forkCount]
  rw [instance?_update hg]
  by_cases h : id = id'
  · rw [if_pos h]
    cases w.instance? id' <;> rfl
  · rw [if_neg h]

end Alike

theorem write_alike (engine : Engine) (f : Frame) (name : String) (v : Value) (w : World) :
    Alike w (Exec.write engine f name v w).2 := by
  rcases Exec.write_world engine f name v w with h | ⟨-, h⟩ | h
  · rw [h]
    exact .of_instances rfl rfl
  · rw [h]
    exact .of_instances rfl rfl
  · rw [h]
    exact .update w f.id fun locals => locals.insert name v

theorem defineGlobal_alike (symbols : Symbols) (f : Frame) (name : String) (v : Value) (w : World) :
    Alike w (Exec.change (·.defineGlobal symbols f name v) w).2 := by
  rcases Exec.defineGlobal_world symbols f name v w with h | h <;> rw [h]
  · exact .of_instances rfl rfl
  · exact (Alike.update w f.id fun locals => locals.erase name).trans (.of_instances rfl rfl)

theorem defineConstant_alike (f : Frame) (name : String) (v : Value) (w : World) :
    Alike w (Exec.change (·.defineConstant f name v) w).2 := by
  obtain ⟨constants, h⟩ := Exec.defineConstant_world f name v w
  rw [h]
  exact .of_instances rfl rfl

end World

namespace Exec

open World

variable {engine : Engine} {f : Frame} {α : Type}

/-- From a coherent world in which `f` is live to another one. -/
abbrev Sound (f : Frame) : ∀ α : Type, (Unit → Exec α) → Prop :=
  Keeps fun _ w => f.id ∈ w.ids ∧ w.Coherent

theorem Sound.closed : Closed (fun _ => True) (Sound f) :=
  Keeps.closed (fun _ h => h) fun h => h

theorem Spares.sound {mine : InstanceId → Prop} {X : Unit → Exec α} (h : Spares f mine α X) :
    Sound f α X := by
  intro w hw
  have hspared := (h w ⟨hw.1, .refl hw.2⟩).2
  exact ⟨hspared.live hw.1, hspared.coherent⟩

theorem Sound.of_alike {X : Unit → Exec α} (h : ∀ w, Alike w (X () w).2) : Sound f α X := by
  intro w hw
  refine ⟨?_, (h w).coherent hw.2⟩
  rw [(h w).ids]
  exact hw.1

/-- In a coherent world in which `f` is live, the only forks that stay are those of handlers that
wait. -/
abbrev Extends (f : Frame) : ∀ α : Type, (Unit → Exec α) → Prop :=
  Keeps fun w w' => f.id ∈ w.ids ∧ Extended w w'

theorem Extends.closed : Closed (fun _ => True) (Extends f) :=
  Keeps.closed (fun h h' => ⟨h.1, h.2.trans h'.2⟩)
    fun h => ⟨h.2.live h.1, .of_frames h.2.coherent rfl rfl⟩

theorem Extends.apply {X : Unit → Exec α} (h : Extends f α X) {w : World} (hf : f.id ∈ w.ids)
    (hw : w.Coherent) : Extended w (X () w).2 :=
  (h w ⟨hf, .of_frames hw rfl rfl⟩).2

theorem Extends.sound {X : Unit → Exec α} (h : Extends f α X) : Sound f α X :=
  fun _ hw => ⟨(h.apply hw.1 hw.2).live hw.1, (h.apply hw.1 hw.2).coherent⟩

theorem Spares.extends {mine : InstanceId → Prop} {X : Unit → Exec α} (h : Spares f mine α X) :
    Extends f α X :=
  fun w hw => ⟨hw.1, (h w ⟨hw.1, .refl hw.2.coherent⟩).2.toExtended⟩

theorem Extends.of_alike {X : Unit → Exec α} (h : ∀ w, Alike w (X () w).2) : Extends f α X :=
  fun w hw => ⟨hw.1, .of_frames ((h w).coherent hw.2.coherent) (h w).frames (h w).pending⟩

theorem ask_extends (agentModel prompt : Value) (p : Position) :
    Extends f Value fun _ => ask engine engine.enter f agentModel prompt p :=
  (ask_closed Spares.closed (services_undisturbing engine f) agentModel prompt p).extends

/-- So it is with the steps of an instance, be it the root. -/
theorem runBlock_extends (mode : Mode) (steps : List Step) :
    Extends f Outcome fun _ => engine.runBlock f mode steps := by
  have hV := services_undisturbing engine f
  have hnote (effect : Effect) : Extends f Unit fun _ => note effect :=
    .of_alike fun _ => .of_instances rfl rfl
  have hI : Primitives (Extends f) engine (fun _ => engine.enter) (fun _ => f) :=
    { read := read_closed Extends.closed engine f
      call := fun name args => (call_closed Spares.closed hV name args).extends
      write := fun name v => .of_alike (write_alike engine f name v)
      ask := ask_extends
      emit := emit_closed Extends.closed engine f fun _ => hnote _
      whisper := whisper_closed Extends.closed engine fun _ _ => hnote _
      promptUser := promptUser_closed Extends.closed engine (fun _ => hnote _)
        (fun _ => .of_alike fun _ => .of_instances rfl rfl) fun _ _ _ _ _ _ => trivial
      clear := hnote _ }
  exact run_closed Extends.closed.toSequenced hI (fun _ => rfl) (fun _ => hnote _)
    (fun name v => .of_alike fun w => .update w f.id fun locals => locals.insert name v)
    ⟨trivial, trivial⟩ (fun _ _ => trivial) (fun _ _ => trivial) steps

theorem fork_sound (label : String) (handler : Option (List Step)) :
    Sound f Frame fun _ => fork engine f label handler f.outlet := by
  refine fork_closed Sound.closed engine f fun w hw => ?_
  have henlist : (w.enlist f (w.nextFrame f label handler f.outlet)).Coherent :=
    hw.2.enlist label handler f.outlet hw.1
  refine ⟨?_, henlist⟩
  show f.id ∈ (w.enlist f (w.nextFrame f label handler f.outlet)).ids
  rw [enlist_ids]
  exact List.mem_cons_of_mem _ hw.1

end Exec

section Requests

open World Exec

universe u

variable {engine : Engine} {f : Frame}

/-- What holds of the steps of an instance and of the few other things that the host can have it do
holds of all requests. -/
theorem HostRequest.exec_of_operations {ι : Type u} {P : ∀ α : Type, (ι → Exec α) → Prop}
    (hP : Sequenced (fun _ => True) P) (hR : Rooted P) {α : Type} (r : HostRequest α)
    (hoperate : ∀ {β : Type} (op : Operation β), (op.raises = true → r.raises = true) →
      P β fun _ => op.exec engine f)
    (hblock : ∀ mode steps, P Outcome fun _ => engine.runBlock f mode steps)
    (hset : ∀ name v, P Unit fun _ => write engine f name v)
    (hglobal : ∀ name v, P Unit fun _ => change (·.defineGlobal engine.symbols f name v))
    (hconstant : ∀ name v, P Unit fun _ => change (·.defineConstant f name v))
    (hroot : ∀ g : Root → Root, P Unit fun _ => modify fun w => { w with root := g w.root })
    (hfork : r.forks = true →
      ∀ label handler, P Frame fun _ => Exec.fork engine f label handler f.outlet) :
    P α fun _ => r.exec engine f := by
  have heval (e : Expression) : P Value fun _ => engine.evaluate f e :=
    hoperate (.evaluate e) fun h => absurd h Bool.false_ne_true
  cases r with
  | operate op => exact hoperate op id
  | block mode steps => exact hblock mode steps
  | set name v => exact hset name v
  | setGlobal name v => exact hglobal name v
  | setConstant name v => exact hconstant name v
  | load p => exact load_closed hP heval hroot p
  | append p => exact append_closed hP heval hroot hR p
  | registerEvent d => exact registerEvent_closed hP heval hroot hR d
  | fork label handler => exact hfork rfl label handler

/-- Unless it is for a fork, a request leaves no forks behind but those of handlers that wait. -/
theorem HostRequest.exec_extends {α : Type} (r : HostRequest α) (hr : r.forks = false) :
    Extends f α fun _ => r.exec engine f :=
  r.exec_of_operations Extends.closed.toSequenced Extends.closed.rooted
    (fun op _ => (op.exec_spares engine f).extends) runBlock_extends
    (fun name v => .of_alike (write_alike engine f name v))
    (fun name v => .of_alike (defineGlobal_alike engine.symbols f name v))
    (fun name v => .of_alike (defineConstant_alike f name v))
    (fun _ => .of_alike fun _ => .of_instances rfl rfl)
    fun h => absurd h (by simp [hr])

theorem HostRequest.exec_sound {α : Type} (r : HostRequest α) :
    Sound f α fun _ => r.exec engine f := by
  cases r with
  | fork label handler => exact fork_sound label handler
  | _ => exact (HostRequest.exec_extends _ rfl).sound

/-- What a request starts waits in a fork below the instance. -/
theorem HostRequest.exec_starts {α : Type} (r : HostRequest α) :
    Starts engine f.depth α fun _ => r.exec engine f :=
  r.exec_of_operations Starts.closed.toSequenced Starts.closed.rooted
    (fun op _ => op.exec_starts engine f)
    (started_habit.runBlock (Nat.le_refl _))
    (fun name v => .of_pending fun w => (write_alike engine f name v w).pending)
    (fun name v => .of_pending fun w => (defineGlobal_alike engine.symbols f name v w).pending)
    (fun name v => .of_pending fun w => (defineConstant_alike f name v w).pending)
    (fun _ => .of_pending fun _ => rfl)
    fun _ _ _ => fork_closed Starts.closed engine f (.of_pending fun _ => rfl)

end Requests

namespace Engine.Tends

variable {engine : Engine} {inside inside' : InstanceId → Prop} {w w' : World}

theorem imp (h : engine.Tends inside w w')
    (himp : ∀ p ∈ w.pending, inside p.frame.id → inside' p.frame.id) :
    engine.Tends inside' w w' := by
  cases h with
  | @handle p _ _ hpending hp =>
    refine .handle hpending (himp p ?_ hp)
    rw [hpending]
    exact List.mem_append_right _ List.mem_cons_self
  | settle hp => exact .settle fun p hm => himp p hm (hp p hm)
  | administer => exact .administer ..
  | record => exact .record ..

/-- Instances and waiting handlers still fit together, and no handler has a part in the tables of
the root. -/
theorem sound (h : engine.Tends inside w w') (hw : w.Coherent) :
    w'.Coherent ∧ w'.root = w.root := by
  cases h with
  | @handle p before after hpending =>
    have hperm : (p :: (before ++ after)).Perm w.pending := World.perm_pending hpending
    have hqueue : { w with pending := [p] ++ (before ++ after) }.Coherent := hw.perm hperm
    obtain ⟨hshared, hcoherent, -⟩ :=
      engine.runPending_apart (w := { w with pending := before ++ after }) hqueue
    exact ⟨hcoherent, hshared.root⟩
  | settle =>
    have hsettled := engine.settle_sheltered (.start hw)
    exact ⟨hsettled.coherent, hsettled.shared.root⟩
  | administer => exact ⟨hw.congr rfl (fun _ => rfl) rfl, rfl⟩
  | record => exact ⟨hw.congr rfl (fun _ => rfl) rfl, rfl⟩

theorem coherent (h : engine.Tends inside w w') (hw : w.Coherent) : w'.Coherent := (h.sound hw).1

theorem root (h : engine.Tends inside w w') (hw : w.Coherent) : w'.root = w.root := (h.sound hw).2

theorem seated (h : engine.Tends inside w w') (hw : w.Seated engine) : w'.Seated engine := by
  cases h with
  | @handle p before after hpending =>
    have hrest : { w with pending := before ++ after }.Seated engine := fun q hq =>
      hw q ((World.perm_pending hpending).mem_iff.1 (List.mem_cons_of_mem _ hq))
    exact hrest.started (engine.runPending_starts p _)
  | settle =>
    intro p hp
    rw [engine.settle_pending hw] at hp
    cases hp
  | administer => exact hw
  | record => exact hw

end Engine.Tends

namespace World.Reachable

variable {engine : Engine} {w : World}

theorem coherent (h : w.Reachable engine) : w.Coherent := by
  induction h with
  | start => exact coherent_start
  | ask r _ hf ih => exact (r.exec_sound _ ⟨List.mem_map_of_mem hf, ih⟩).2
  | tend _ htends ih => exact htends.coherent ih
  | drop _ _ hp ih => exact ih.release hp

theorem seated (h : w.Reachable engine) : w.Seated engine := by
  induction h with
  | start => exact fun _ => nofun
  | ask r _ _ ih => exact ih.started (r.exec_starts _ (.of_pending rfl))
  | tend _ htends ih => exact htends.seated ih
  | drop _ _ _ ih => exact ih

end World.Reachable

/-- What a host calls on an instance: a request, or a conversation without a script around it. -/
inductive HostCall : Type → Type 1 where
  | request {α : Type} (r : HostRequest α) : HostCall α
  | ask (agentModel prompt : Value) (p : Position) : HostCall Value

def HostCall.exec (engine : Engine) (f : Frame) : {α : Type} → HostCall α → Exec α
  | _, .request r => r.exec engine f
  | _, .ask agentModel prompt p => Exec.ask engine engine.enter f agentModel prompt p

def HostCall.raises : {α : Type} → HostCall α → Bool
  | _, .request r => r.raises
  | _, .ask .. => false

def HostCall.forks : {α : Type} → HostCall α → Bool
  | _, .request r => r.forks
  | _, .ask .. => false

section HostCalls

open Exec

variable {F : Frame → Prop} {R : World → World → Prop} {engine : Engine} {f : Frame}

/-- A habit of an instance that does not look at variables and programs holds along all that the host
calls on it, except where the host raises events. -/
theorem HostCall.exec_habit (h : Habit F R engine) (hf : F f)
    (hscope : ∀ {w : World} root instances, R w w →
      R w { w with root := root, instances := instances }) {α : Type} (c : HostCall α)
    (hraise : c.raises = true →
      ∀ event source payload, Keeps R Nat fun _ => raise engine f event source payload) :
    Keeps R α fun _ => c.exec engine f := by
  cases c with
  | ask agentModel prompt p => exact h.ask hf agentModel prompt p
  | request r =>
    refine r.exec_of_operations h.closed.toSequenced h.closed.rooted
      (fun op hop => h.operation hf op fun hr => hraise (hop hr)) (h.runBlock hf)
      (fun name v => h.write name v hf) (fun name v w hw => ?_) (fun name v w hw => ?_)
      (fun _ _ hw => hscope _ _ hw) fun _ label handler => ?_
    · rcases defineGlobal_world engine.symbols f name v w with hw' | hw' <;> rw [hw']
      · exact hw
      · exact hscope _ _ hw
    · obtain ⟨constants, hw'⟩ := defineConstant_world f name v w
      rw [hw']
      exact hscope _ w.instances hw
    · exact fork_closed h.closed engine f fun _ hw => h.instances _ hw

theorem HostCall.exec_extends {α : Type} (c : HostCall α) (hc : c.forks = false) :
    Extends f α fun _ => c.exec engine f := by
  cases c with
  | request r => exact r.exec_extends hc
  | ask agentModel prompt p => exact ask_extends agentModel prompt p

end HostCalls

open World

/-- Scripts are sandboxed: whatever an instance is told to do, the tables of the root, the stores
and the locals of all instances are as before; and so they are when the handlers have run. Only a
handler that waited already is then run, too, and writes into its own instance. -/
theorem Operation.perform_sandboxed {α : Type} (engine : Engine) (f : Frame) (op : Operation α)
    (w : World) (hw : w.Reachable engine) (hf : f ∈ w.frames) :
    let w₁ := (op.exec engine f { w with trace := #[] }).2
    let w' := (engine.perform (op.exec engine f) w).world
    (SameShared w w₁ ∧ ∀ id ∈ w.ids, id ∈ w₁.ids ∧ w₁.locals id = w.locals id) ∧
    SameShared w w' ∧
      ∀ id ∈ w.ids, (∀ p ∈ w.pending, p.frame.id ≠ id) →
        id ∈ w'.ids ∧ w'.locals id = w.locals id := by
  have hcoherent := hw.coherent
  have hstart := (Sheltered.start hcoherent).withTrace #[]
  have hop := (op.exec_spares engine f { w with trace := #[] }
    ⟨List.mem_map_of_mem hf, .refl (hcoherent.congr rfl (fun _ => rfl) rfl)⟩).2
  have hend := engine.settle_sheltered (hstart.undisturbed hop fun _ _ => id)
  have hshared : SameShared w (op.exec engine f { w with trace := #[] }).2 :=
    ⟨hop.shared.root, hop.shared.models, hop.shared.accounts, hop.shared.providers⟩
  refine ⟨⟨hshared, fun id hid => ⟨hop.live hid, hop.locals id hid nofun⟩⟩, hend.shared, ?_⟩
  intro id hid hp
  have hmem : id ∈ w.bystanders := mem_bystanders.2 ⟨hid, hp⟩
  exact ⟨hend.live.mem_iff.2 (List.mem_append_right _ hmem), hend.locals id hmem⟩

/-- Steps that are executed on a fork write into a fork of it, even to a name that it has bound. -/
theorem Operation.perform_sandboxed_of_fork :
    let engine : Engine := {}
    let child := ({} : World).nextFrame .root "kept" none .host
    let w₀ := ((HostRequest.fork "kept" none).exec engine .root {}).2
    let w := ((HostRequest.set "x" (.bool true)).exec engine child w₀).2
    let op := Operation.execute [Step.set "x" (.bool false)]
    let w' := (engine.perform (op.exec engine child) w).world
    (w.Reachable engine ∧ child ∈ w.frames) ∧
      SameShared w w' ∧ child.id ∈ w'.ids ∧ w'.locals child.id = w.locals child.id := by
  intro engine child w₀ w op w'
  have hw₀ : w₀.Reachable engine := .ask _ .start List.mem_cons_self
  have hchild₀ : child ∈ w₀.frames := List.mem_cons_self
  have hw : w.Reachable engine := .ask _ hw₀ hchild₀
  have hchild : child ∈ w.frames := List.mem_cons_self
  obtain ⟨-, hshared, hlocals⟩ := op.perform_sandboxed engine child w hw hchild
  exact ⟨⟨hw, hchild⟩, hshared, hlocals child.id (List.mem_map_of_mem hchild) fun _ => nofun⟩

end StepScript
