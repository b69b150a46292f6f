import Mathlib.Data.List.Nodup
import Mathlib.Logic.Relation
import StepScript.Proofs.Confinement
import StepScript.Proofs.Dispatch
import StepScript.Proofs.Registry

/-!
# StepScript.Proofs.Snapshot

A fork reads the globals that it was made with.

* `Engine.Does`      — what an instance does to variables, with the name that it writes or binds. All
  else that it does, writes that are refused included, is beside the variables (`World.Aside`).
  `HostCall.exec_does` — whatever a host calls on an instance consists of that.
* `Engine.Reassigns` — a block comes to write a name: an alarm in the place of such writes is heard.
  `Engine.does_of_not_reassigns` — a block that does not consists of deeds to other names.
* `World.Holds`      — what a live instance has under a name. Other instances have no part in it.
* `World.Unbound`    — a live instance that has not bound a name. For a name of its snapshot, it
  stays so along the deeds of all instances, its own included.
* `Engine.Beside`    — what is done beside one instance: calls on others, handlers in other forks.
* `Engine.Later`     — that and calls on the instance itself, with forks and bindings between them, in
  the course of which the instance does not bind one name.
* `Engine.snapshot_stable` — so the fork reads what the name stood for when it was made, and it can
  never write it.
-/

namespace StepScript

namespace World

/-- Nothing was done to variables: the globals and the locals of all live instances are as before,
and what was a constant of the root still is one, with its value. Instances may be added and effects
noted. -/
structure Aside (w w' : World) : Prop where
  globals : w'.root.globals = w.root.globals
  constants : ∀ n v, w.root.constants.get? n = some v → w'.root.constants.get? n = some v
  frames : ∀ f ∈ w.frames, f ∈ w'.frames
  locals : ∀ id ∈ w.ids, w'.locals id = w.locals id
  coherent : w'.Coherent
  traced : ∃ new, w'.trace.toList = w.trace.toList ++ new

namespace Aside

variable {engine : Engine} {w w' : World}

theorem of_undisturbed (h : Undisturbed (fun _ => False) w w') (ht : Confined engine w w') :
    Aside w w' := by
  obtain ⟨new, hnew, -⟩ := ht
  have hroot : w'.root = w.root := h.shared.root
  exact ⟨congrArg Root.globals hroot, fun n v hn => hroot ▸ hn, fun f hf => h.frames_subset hf,
    fun id hid => h.locals id hid nofun, h.coherent, new, hnew⟩

theorem of_instances (h : w.Coherent) (hi : w'.instances = w.instances)
    (hp : w'.pending = w.pending) (hr : w'.root = w.root)
    (ht : ∃ new, w'.trace.toList = w.trace.toList ++ new) : Aside w w' := by
  have halike : Alike w w' := .of_instances hi hp
  refine ⟨congrArg Root.globals hr, fun n v hn => hr ▸ hn, fun f hf => ?_, fun id _ => ?_,
    h.congr halike.ids halike.forkCount halike.pending, ht⟩
  · simp only [World.frames, hi]
    exact hf
  · simp only [World.locals, instance?, hi]

theorem refl (h : w.Coherent) : Aside w w :=
  of_instances h rfl rfl rfl ⟨[], (List.append_nil _).symm⟩

theorem enlist (h : w.Coherent) {parent : Frame} (hp : parent.id ∈ w.ids) (label : String)
    (handler : Option (List Step)) (outlet : Outlet) :
    Aside w (w.enlist parent (w.nextFrame parent label handler outlet)) := by
  have hfresh := h.fresh label handler outlet hp
  refine ⟨rfl, fun _ _ => id, fun f hf => ?_, fun id hid => ?_, h.enlist label handler outlet hp, [],
    (List.append_nil _).symm⟩
  · rw [enlist_frames]
    exact List.mem_cons_of_mem _ hf
  · exact enlist_locals_of_ne w parent _ fun e => hfresh (e ▸ hid)

/-- The tables of the program may be replaced, and constants added. -/
theorem withRoot (h : Aside w w') {root : Root} (hglobals : root.globals = w'.root.globals)
    (hconstants : ∀ n v, w'.root.constants.get? n = some v → root.constants.get? n = some v) :
    Aside w { w' with root := root } :=
  ⟨hglobals.trans h.globals, fun n v hn => hconstants n v (h.constants n v hn), h.frames, h.locals,
    h.coherent.congr rfl (fun _ => rfl) rfl, h.traced⟩

end Aside

/-- The instance is live, and this is what it holds among its locals under the name, if anything. -/
structure Holds (f : Frame) (n : String) (o : Option Value) (w : World) : Prop where
  live : f ∈ w.frames
  coherent : w.Coherent
  found : (w.locals f.id).get? n = o

namespace Holds

variable {f : Frame} {n : String} {o : Option Value} {w w' : World}

theorem aside (h : Holds f n o w) (ha : Aside w w') : Holds f n o w' := by
  refine ⟨ha.frames f h.live, ha.coherent, ?_⟩
  rw [ha.locals f.id (List.mem_map_of_mem h.live)]
  exact h.found

theorem of_instances (h : Holds f n o w) (hi : w'.instances = w.instances)
    (hp : w'.pending = w.pending) : Holds f n o w' := by
  have halike : Alike w w' := .of_instances hi hp
  refine ⟨?_, halike.coherent h.coherent, ?_⟩
  · rw [halike.frames]
    exact h.live
  · simp only [World.locals, instance?, hi]
    exact h.found

theorem update_self (h : Holds f n o w) (change : Table Value → Table Value) :
    Holds f n ((change (w.locals f.id)).get? n)
      (w.update f.id fun i => { i with locals := change i.locals }) := by
  have halike : Alike w (w.update f.id fun i => { i with locals := change i.locals }) :=
    .update w f.id change
  refine ⟨?_, halike.coherent h.coherent, ?_⟩
  · rw [halike.frames]
    exact h.live
  · rw [update_locals_self (List.mem_map_of_mem h.live)]

/-- Changes to the locals of another instance, or to other names. -/
theorem update (h : Holds f n o w) {id : InstanceId} (change : Table Value → Table Value)
    (hsame : id = f.id → (change (w.locals f.id)).get? n = (w.locals f.id).get? n) :
    Holds f n o (w.update id fun i => { i with locals := change i.locals }) := by
  by_cases hid : id = f.id
  · have hself := h.update_self change
    rw [hsame hid, h.found, ← hid] at hself
    exact hself
  · have hframe (i : Instance) : { i with locals := change i.locals }.frame = i.frame := rfl
    have halike : Alike w (w.update id fun i => { i with locals := change i.locals }) :=
      .update w id change
    refine ⟨?_, halike.coherent h.coherent, ?_⟩
    · rw [halike.frames]
      exact h.live
    · simp only [World.locals, instance?_update hframe, if_neg hid]
      exact h.found

/-- A binding of another name, or of another instance. -/
theorem bind (h : Holds f n o w) {id : InstanceId} {name : String} (v : Value)
    (hne : id = f.id → name ≠ n) : Holds f n o (w.bind id name v) :=
  h.update (·.insert name v) fun hid => by rw [Table.get?_insert, if_neg (hne hid)]

/-- Another instance is given up. -/
theorem release (h : Holds f n o w) {id : InstanceId} (hid : id ≠ f.id)
    (hp : ∀ p ∈ w.pending, p.frame.id ≠ id) : Holds f n o (w.release id) := by
  refine ⟨?_, h.coherent.release hp, ?_⟩
  · rw [release_frames, List.mem_eraseP_of_neg (by simpa using Ne.symm hid)]
    exact h.live
  · rw [release_locals_of_ne _ _ hid]
    exact h.found

end Holds

end World

/-! ## What instances do to variables -/

/-- What an instance does to variables, one thing at a time, with the name that it writes or
binds. -/
inductive Engine.Does (engine : Engine) (f : Frame) : Option String → World → World → Prop where
  | set {name : String} {v : Value} {w w' : World} :
      Exec.write engine f name v w = (.ok (), w') → Does engine f (some name) w w'
  | define {name : String} {v : Value} {w w' : World} :
      Exec.change (·.defineGlobal engine.symbols f name v) w = (.ok (), w') →
      Does engine f (some name) w w'
  | announce (e : RuntimeError) (w : World) : f.handler ≠ none →
      Does engine f (some engine.config.errorVariable) w (Exec.announce engine f e w).2
  | aside {w w' : World} : w.Aside w' → Does engine f none w w'

namespace Exec

open World

variable (engine : Engine) (f : Frame)

theorem announce_world (e : RuntimeError) (w : World) :
    (announce engine f e w).2 = { w with trace := w.trace.push (.recover f.id e) }.bind f.id
      engine.config.errorVariable e.toValue := rfl

theorem announce_alike (e : RuntimeError) (w : World) : Alike w (announce engine f e w).2 := by
  let noted : World := { w with trace := w.trace.push (.recover f.id e) }
  have hnoted : Alike w noted := .of_instances rfl rfl
  exact hnoted.trans (.update noted f.id fun locals =>
    locals.insert engine.config.errorVariable e.toValue)

variable {engine f}

theorem read_of_lookup {w : World} {n : String} {v : Value}
    (h : w.lookup? engine.symbols f n = some v) : read engine f n w = (.ok v, w) := by
  simp only [read, bind_apply, get_apply, h, pure_apply]

/-- What fails changes nothing. -/
theorem change_cases (x : World → Except Fault World) (w : World) :
    (change x w).2 = w ∨ change x w = (.ok (), (change x w).2) := by
  cases h : x w with
  | ok w' => exact .inr (by rw [change_ok h])
  | error fault => exact .inl (by rw [change_error h])

end Exec

namespace Engine.Does

open World Exec

variable {engine : Engine} {f g : Frame} {name : Option String} {n : String} {w w' : World}
variable {o : Option Value}

/-- All live instances stay so. -/
theorem live (h : engine.Does g name w w') (hw : w.Coherent) (hf : f ∈ w.frames) :
    w'.Coherent ∧ f ∈ w'.frames := by
  have of_alike {w' : World} (halike : Alike w w') : w'.Coherent ∧ f ∈ w'.frames :=
    ⟨halike.coherent hw, halike.frames ▸ hf⟩
  cases h with
  | @set name v _ _ hwrite =>
    have halike := write_alike engine g name v w
    rw [hwrite] at halike
    exact of_alike halike
  | @define name v _ _ hdefine =>
    have halike := defineGlobal_alike engine.symbols g name v w
    rw [hdefine] at halike
    exact of_alike halike
  | announce e => exact of_alike (announce_alike engine g e w)
  | aside haside => exact ⟨haside.coherent, haside.frames f hf⟩

/-- What an instance holds under a name is left alone by others, and by what it does itself to other
names. -/
theorem holds (h : engine.Does g name w w') (hne : g.id = f.id → name ≠ some n)
    (hw : Holds f n o w) : Holds f n o w' := by
  cases h with
  | @set name v _ _ hwrite =>
    rcases (write_eq_ok_iff.1 hwrite).2 with ⟨-, -, rfl⟩ | ⟨-, rfl⟩
    · exact hw.of_instances rfl rfl
    · exact hw.bind v fun hid e => hne hid (congrArg some e)
  | @define name v _ _ hdefine =>
    obtain ⟨-, -, rfl⟩ := defineGlobal_eq_ok_iff.1 hdefine
    have hupdated : Holds f n o
        (w.update g.id fun i => { i with locals := i.locals.erase name }) :=
      hw.update (·.erase name) fun hid => by
        rw [Table.get?_erase, if_neg fun e => hne hid (congrArg some e)]
    exact hupdated.of_instances rfl rfl
  | announce e =>
    have hnoted : Holds f n o { w with trace := w.trace.push (.recover g.id e) } :=
      hw.of_instances rfl rfl
    rw [announce_world]
    exact hnoted.bind _ fun hid e => hne hid (congrArg some e)
  | aside haside => exact hw.aside haside

theorem globals (h : engine.Does g name w w') (hne : name ≠ some n) :
    w'.root.globals.get? n = w.root.globals.get? n := by
  cases h with
  | @set name v _ _ hwrite =>
    have hother : name ≠ n := fun e => hne (congrArg some e)
    rcases (write_eq_ok_iff.1 hwrite).2 with ⟨-, -, rfl⟩ | ⟨-, rfl⟩
    · exact (Table.get?_insert _ n name v).trans (if_neg hother)
    · rfl
  | @define name v _ _ hdefine =>
    have hother : name ≠ n := fun e => hne (congrArg some e)
    obtain ⟨-, -, rfl⟩ := defineGlobal_eq_ok_iff.1 hdefine
    exact (Table.get?_insert _ n name v).trans (if_neg hother)
  | announce e => rfl
  | aside haside => rw [haside.globals]

/-- Where the globals have changed, the root has assigned a variable or a global, with success. -/
theorem by_root (h : engine.Does g name w w') (hne : w'.root.globals ≠ w.root.globals) :
    g.isRoot = true ∧ ∃ m v, name = some m ∧ (write engine g m v w = (.ok (), w') ∨
      change (·.defineGlobal engine.symbols g m v) w = (.ok (), w')) := by
  cases h with
  | set hwrite =>
    rcases (write_eq_ok_iff.1 hwrite).2 with ⟨-, hroot, -⟩ | ⟨-, rfl⟩
    · exact ⟨hroot, _, _, rfl, .inl hwrite⟩
    · exact absurd rfl hne
  | define hdefine =>
    exact ⟨(defineGlobal_eq_ok_iff.1 hdefine).1, _, _, rfl, .inr hdefine⟩
  | announce e => exact absurd rfl hne
  | aside haside => exact absurd haside.globals hne

theorem globals_of_fork (h : engine.Does g name w w') (hg : g.isRoot = false) :
    w'.root.globals = w.root.globals := by
  by_contra hne
  rw [(h.by_root hne).1] at hg
  cases hg

theorem traced (h : engine.Does g name w w') :
    ∃ new, w'.trace.toList = w.trace.toList ++ new := by
  cases h with
  | set hwrite =>
    rcases (write_eq_ok_iff.1 hwrite).2 with ⟨-, -, rfl⟩ | ⟨-, rfl⟩ <;>
      exact ⟨[], (List.append_nil _).symm⟩
  | define hdefine =>
    obtain ⟨-, -, rfl⟩ := defineGlobal_eq_ok_iff.1 hdefine
    exact ⟨[], (List.append_nil _).symm⟩
  | announce e => exact ⟨[.recover g.id e], Array.toList_push⟩
  | aside haside => exact haside.traced

/-- Effects are never taken back. -/
theorem trace_subset (h : engine.Does g name w w') {effect : Effect} (he : effect ∈ w.trace) :
    effect ∈ w'.trace := by
  obtain ⟨new, hnew⟩ := h.traced
  rw [← Array.mem_toList_iff, hnew]
  exact List.mem_append_left _ (Array.mem_toList_iff.2 he)

end Engine.Does

namespace Engine

open World

/-- Whatever an instance does, to one name after the other. -/
abbrev Deeds (engine : Engine) (f : Frame) : World → World → Prop :=
  Relation.ReflTransGen fun w w' => ∃ name, engine.Does f name w w'

variable {engine : Engine} {f g : Frame} {n : String} {w w' : World} {o : Option Value}

theorem Deeds.globals_of_fork (h : engine.Deeds g w w') (hg : g.isRoot = false) :
    w'.root.globals = w.root.globals := by
  induction h with
  | refl => rfl
  | tail _ hstep ih =>
    obtain ⟨name, hdoes⟩ := hstep
    exact (hdoes.globals_of_fork hg).trans ih

/-- What another instance does is done elsewhere. -/
theorem Deeds.holds (h : engine.Deeds g w w') (hid : g.id ≠ f.id) (hw : Holds f n o w) :
    Holds f n o w' := by
  induction h with
  | refl => exact hw
  | tail _ hstep ih =>
    obtain ⟨name, hdoes⟩ := hstep
    exact hdoes.holds (fun e => absurd e hid) ih

end Engine

/-! ## Steps of an instance -/

namespace Exec

open World

variable {engine : Engine} {f : Frame} {α : Type} {D : World → World → Prop}

/-- From a coherent world in which `f` is live to another one, by steps of `D`. -/
structure Acted (f : Frame) (D : World → World → Prop) (w w' : World) : Prop where
  start : f.id ∈ w.ids ∧ w.Coherent
  deeds : Relation.ReflTransGen D w w'
  done : f.id ∈ w'.ids ∧ w'.Coherent

abbrev Acts (f : Frame) (D : World → World → Prop) : ∀ α : Type, (Unit → Exec α) → Prop :=
  Keeps (Acted f D)

theorem Acts.closed : Closed (fun _ => True) (Acts f D) :=
  Keeps.closed (fun h h' => ⟨h.start, h.deeds.trans h'.deeds, h'.done⟩)
    fun h => ⟨h.done, .refl, h.done⟩

theorem Acts.apply {X : Unit → Exec α} (h : Acts f D α X) {w : World} (hf : f.id ∈ w.ids)
    (hw : w.Coherent) : Relation.ReflTransGen D w (X () w).2 :=
  (h w ⟨⟨hf, hw⟩, .refl, hf, hw⟩).deeds

/-- One deed, after which the world is still in order. -/
theorem Acts.single {X : Unit → Exec α} (hsound : Sound f α X)
    (hX : ∀ w, w.Coherent → D w (X () w).2) : Acts f D α X :=
  fun w hw => ⟨hw.start, .single (hX w hw.start.2), hsound w hw.start⟩

section Asides

variable (haside : ∀ w w' : World, w.Aside w' → D w w')

include haside

/-- What disturbs nobody is beside all variables. -/
theorem acts_of_spares {X : Unit → Exec α} (hspares : Spares f (fun _ => False) α X)
    (htrace : Confines engine α X) : Acts f D α X := by
  intro w hw
  have hspared := (hspares w ⟨hw.start.1, .refl hw.start.2⟩).2
  have hbeside : w.Aside (X () w).2 := .of_undisturbed hspared (htrace w (.of_trace rfl))
  exact ⟨hw.start, .single (haside _ _ hbeside), hspares.sound w hw.start⟩

theorem note_acts (effect : Effect) : Acts f D Unit fun _ => note effect := by
  have hsound : Sound f Unit fun _ => note effect := .of_alike fun _ => .of_instances rfl rfl
  exact .single hsound fun w hw =>
    haside _ _ (.of_instances hw rfl rfl rfl ⟨[effect], Array.toList_push⟩)

/-- The steps of an instance do to its variables what its writes do and what it does when a failure
is shown to its handler: the bodies that it enters and the agents that it asks have no part in its
variables. -/
theorem run_acts {hooks : Hooks} (hwrite : ∀ name v, Acts f D Unit fun _ => hooks.write f name v)
    (hannounce : f.handler ≠ none → ∀ e, Acts f D Unit fun _ => hooks.announce f e)
    (hends : hooks.Ends (Acts f D)) (mode : Mode) (steps : List Step) :
    Acts f D Outcome fun _ => hooks.run engine engine.enter f mode steps := by
  have hV := services_undisturbing engine f
  have hC : Primitives (Confines engine) engine (fun _ => engine.enter) (fun _ => f) :=
    confined_habit.primitives trivial fun a _ => confined_habit.enter _ f a fun _ => trivial
  have hI : Primitives (Acts f D) engine (fun _ => engine.enter) (fun _ => f) hooks :=
    { read := read_closed Acts.closed engine f
      call := fun name args => acts_of_spares haside
        (call_closed Spares.closed hV name args) (hC.call name args)
      write := hwrite
      ask := fun agentModel prompt p => acts_of_spares haside
        (ask_closed Spares.closed hV agentModel prompt p) (hC.ask agentModel prompt p)
      emit := emit_closed Acts.closed engine f fun _ => note_acts haside _
      whisper := whisper_closed Acts.closed engine fun _ _ => note_acts haside _
      promptUser := promptUser_closed Acts.closed engine (fun _ => note_acts haside _)
        (fun _ => .single (.of_alike fun _ => .of_instances rfl rfl) fun w hw =>
          haside _ _ (.of_instances hw rfl rfl rfl ⟨[], (List.append_nil _).symm⟩))
        fun _ _ _ _ _ _ => trivial
      clear := note_acts haside _ }
  exact hooks.run_closed Acts.closed.toSequenced hI hends (fun _ => rfl) hannounce
    ⟨trivial, trivial⟩ (fun _ _ => trivial) (fun _ _ => trivial) steps

end Asides

/-- A write is done, or it is refused and nothing is. -/
theorem write_does (engine : Engine) (f : Frame) (name : String) (v : Value) {w : World}
    (hw : w.Coherent) : engine.Does f none w (write engine f name v w).2 ∨
      write engine f name v w = (.ok (), (write engine f name v w).2) := by
  rcases change_cases (·.assign engine.symbols f name v) w with hsame | hok
  · refine .inl (.aside ?_)
    rw [write, hsame]
    exact .refl hw
  · exact .inr hok

theorem runBlock_does (engine : Engine) (f : Frame) (mode : Mode) (steps : List Step) {w : World}
    (hf : f.id ∈ w.ids) (hw : w.Coherent) : engine.Deeds f w (engine.runBlock f mode steps w).2 := by
  have hrun : Acts f (fun w w' => ∃ name, engine.Does f name w w') Outcome fun _ =>
      engine.hooks.run engine engine.enter f mode steps := by
    refine run_acts (fun _ _ h => ⟨none, .aside h⟩) (fun name v => ?_) (fun hhandler e => ?_)
      (.own Acts.closed.toSequenced engine) mode steps
    · refine .single (.of_alike (write_alike engine f name v)) fun w hw => ?_
      rcases write_does engine f name v hw with hrefused | hok
      · exact ⟨none, hrefused⟩
      · exact ⟨some name, .set hok⟩
    · exact .single (.of_alike (announce_alike engine f e)) fun w _ => ⟨_, .announce e w hhandler⟩
  rw [Hooks.own_run] at hrun
  exact hrun.apply hf hw

end Exec

namespace Engine

open World Exec

/-- The parts of an engine with an alarm in the place of all writes of a name that succeed, and of
all failures that are bound to it. -/
def alarmed (engine : Engine) (n : String) (alarm : Exec Unit) : Hooks :=
  { engine.hooks with
    write := fun f name v w =>
      if name = n ∧ (Exec.write engine f name v w).1.isOk then alarm w
      else Exec.write engine f name v w
    announce := fun f e =>
      if engine.config.errorVariable = n then alarm else Exec.announce engine f e }

/-- An instance comes to write the name, or to bind a failure to it, when it runs the steps: there
is an alarm that is heard. -/
def Reassigns (engine : Engine) (f : Frame) (mode : Mode) (n : String) (steps : List Step)
    (w : World) : Prop :=
  ∃ alarm, (engine.alarmed n alarm).run engine engine.enter f mode steps w ≠
    engine.runBlock f mode steps w

example : Reassigns {} .root {} "x" [Step.set "x" .nil] {} :=
  ⟨crash none, fun h => absurd (congrArg (·.1.isOk) h) (by decide)⟩

/-- What an instance does to other names than `n`. -/
abbrev DoesElse (engine : Engine) (f : Frame) (n : String) (w w' : World) : Prop :=
  ∃ name, engine.Does f name w w' ∧ name ≠ some n

variable {engine : Engine} {f : Frame} {mode : Mode} {n : String} {steps : List Step} {w : World}

/-- With an alarm that ends all, no write of the name is done. -/
theorem alarmed_write_acts (name : String) (v : Value) :
    Acts f (engine.DoesElse f n) Unit fun _ =>
      (engine.alarmed n (crash none)).write f name v := by
  intro w hstart
  show Acted f (engine.DoesElse f n) w ((engine.alarmed n (crash none)).write f name v w).2
  by_cases halarm : name = n ∧ (Exec.write engine f name v w).1.isOk
  · have hwrite : (engine.alarmed n (crash none)).write f name v w = crash none w := if_pos halarm
    rw [hwrite]
    exact hstart
  · have hwrite : (engine.alarmed n (crash none)).write f name v w =
        Exec.write engine f name v w := if_neg halarm
    have hdoes : engine.DoesElse f n w (Exec.write engine f name v w).2 := by
      rcases write_does engine f name v hstart.start.2 with hrefused | hok
      · exact ⟨none, hrefused, nofun⟩
      · refine ⟨some name, .set hok, fun e => halarm ⟨Option.some.inj e, ?_⟩⟩
        rw [hok]
        rfl
    have hsound : Sound f Unit fun _ => Exec.write engine f name v :=
      .of_alike (write_alike engine f name v)
    rw [hwrite]
    exact ⟨hstart.start, .single hdoes, hsound w hstart.start⟩

/-- If no alarm is heard, not even one that ends all, the steps consist of what is done to other
names. -/
theorem does_of_not_reassigns (h : ¬ engine.Reassigns f mode n steps w) (hf : f.id ∈ w.ids)
    (hw : w.Coherent) :
    Relation.ReflTransGen (engine.DoesElse f n) w (engine.runBlock f mode steps w).2 := by
  have hclosed : Closed (fun _ => True) (Acts f (engine.DoesElse f n)) := Acts.closed
  have hrun : Acts f (engine.DoesElse f n) Outcome fun _ =>
      (engine.alarmed n (crash none)).run engine engine.enter f mode steps := by
    refine run_acts (fun _ _ h => ⟨none, .aside h, nofun⟩) alarmed_write_acts (fun hhandler e => ?_)
      ⟨fun _ => hclosed.pure _, fun _ _ => hclosed.pure _⟩ mode steps
    simp only [alarmed]
    split
    · exact hclosed.crash none trivial
    · next hother =>
      exact .single (.of_alike (announce_alike engine f e)) fun w _ =>
        ⟨_, .announce e w hhandler, fun e => hother (Option.some.inj e)⟩
  have hsame : (engine.alarmed n (crash none)).run engine engine.enter f mode steps w =
      engine.runBlock f mode steps w := by
    by_contra hne
    exact h ⟨_, hne⟩
  rw [← hsame]
  exact hrun.apply hf hw

/-- So what the root holds under the name stays. -/
theorem globals_of_not_reassigns (h : ¬ engine.Reassigns f mode n steps w) (hf : f.id ∈ w.ids)
    (hw : w.Coherent) :
    (engine.runBlock f mode steps w).2.root.globals.get? n = w.root.globals.get? n := by
  have hdeeds := does_of_not_reassigns h hf hw
  generalize (engine.runBlock f mode steps w).2 = w' at hdeeds ⊢
  induction hdeeds with
  | refl => rfl
  | tail _ hstep ih =>
    obtain ⟨name, hdoes, hne⟩ := hstep
    exact (hdoes.globals hne).trans ih

end Engine

/-! ## Calls of the host -/

namespace Installation

/-- Installations have no part in the globals and constants. -/
theorem commit_variables (engine : Engine) (i : Installation) (r : Root) (p : Prepared) :
    Yields (fun r' => r'.globals = r.globals ∧ r'.constants = r.constants)
      (i.commit engine r p) := by
  cases i with
  | load _ => exact .ok ⟨rfl, rfl⟩
  | append _ =>
    refine .bind (r.checkAvailable_yields p.handlers) fun _ _ => ?_
    refine .bind (r.addProcedures_yields _ p.procedures) fun r' hr' => .ok ?_
    subst hr'
    exact ⟨rfl, rfl⟩
  | register _ => exact .bind (r.checkAvailable_yields p.handlers) fun _ _ => .ok ⟨rfl, rfl⟩

open World Exec

theorem exec_aside (engine : Engine) (i : Installation) {f : Frame} {w : World}
    (hw : w.Coherent) (hf : f.id ∈ w.ids) : w.Aside (i.exec engine f w).2 := by
  have htrace : Confines engine Prepared fun _ => i.prepare engine f :=
    i.prepare_closed Confines.closed.toSequenced fun e =>
      (HostCall.request (.operate (.evaluate e))).exec_confines engine f
  have hprepare : w.Aside (i.prepare engine f w).2 :=
    .of_undisturbed (i.prepare_spares w ⟨hf, .refl hw⟩).2 (htrace w (.of_trace rfl))
  rcases exec_cases engine f i w with ⟨e, w₀, hp, hexec⟩ | ⟨p, w₀, e, hp, -, hexec⟩ |
    ⟨p, w₀, root, hp, hc, hexec⟩
  · rw [hexec]
    rw [hp] at hprepare
    exact hprepare
  · rw [hexec]
    rw [hp] at hprepare
    exact hprepare
  · rw [hexec]
    rw [hp] at hprepare
    obtain ⟨hglobals, hconstants⟩ := i.commit_variables engine w₀.root p root hc
    exact hprepare.withRoot hglobals fun n v hn => hconstants ▸ hn

end Installation

/-- Can the call assign variables in the name of the instance? -/
def HostCall.assigns : {α : Type} → HostCall α → Bool
  | _, .request (.block ..) => true
  | _, .request (.set ..) => true
  | _, .request (.setGlobal ..) => true
  | _, _ => false

section HostCalls

open World Exec

variable (engine : Engine) {f : Frame} {α : Type} {w : World}

/-- The calls that do not are beside all variables. -/
theorem HostCall.exec_aside (c : HostCall α) (hc : c.assigns = false) (hw : w.Coherent)
    (hf : f.id ∈ w.ids) : w.Aside (c.exec engine f w).2 := by
  have htrace := c.exec_confines engine f w (.of_trace rfl)
  cases c with
  | ask agentModel prompt p =>
    have hspares : Spares f (fun _ => False) Value fun _ =>
        Exec.ask engine engine.enter f agentModel prompt p :=
      ask_closed Spares.closed (services_undisturbing engine f) agentModel prompt p
    exact .of_undisturbed (hspares w ⟨hf, .refl hw⟩).2 htrace
  | request r =>
    cases r with
    | operate op => exact .of_undisturbed (op.exec_spares engine f w ⟨hf, .refl hw⟩).2 htrace
    | load p => exact Installation.exec_aside engine (.load p) hw hf
    | append p => exact Installation.exec_aside engine (.append p) hw hf
    | registerEvent d => exact Installation.exec_aside engine (.register d) hw hf
    | setConstant name v =>
      show w.Aside (change (·.defineConstant f name v) w).2
      rcases change_cases (·.defineConstant f name v) w with hsame | hok
      · rw [hsame]
        exact .refl hw
      · obtain ⟨-, hnew, hw'⟩ := defineConstant_eq_ok_iff.1 hok
        rw [hw']
        refine (Aside.refl hw).withRoot rfl fun n v' hn => ?_
        have hne : name ≠ n := by
          rintro rfl
          rw [hn] at hnew
          cases hnew
        rw [Table.get?_insert, if_neg hne]
        exact hn
    | fork label handler =>
      show w.Aside (Exec.fork engine f label handler f.outlet w).2
      unfold Exec.fork
      split
      · exact .enlist hw hf label handler f.outlet
      · exact .refl hw
    | block | set | setGlobal => cases hc

/-- Whatever a host calls on an instance consists of what the instance does. -/
theorem HostCall.exec_does (c : HostCall α) (hw : w.Coherent) (hf : f.id ∈ w.ids) :
    engine.Deeds f w (c.exec engine f w).2 := by
  cases hc : c.assigns with
  | false => exact .single ⟨none, .aside (c.exec_aside engine hc hw hf)⟩
  | true =>
    cases c with
    | ask => cases hc
    | request r =>
      cases r with
      | block mode steps => exact runBlock_does engine f mode steps hf hw
      | set name v =>
        refine .single ?_
        rcases write_does engine f name v hw with hrefused | hok
        · exact ⟨none, hrefused⟩
        · exact ⟨some name, .set hok⟩
      | setGlobal name v =>
        refine .single ?_
        show ∃ label, engine.Does f label w (change (·.defineGlobal engine.symbols f name v) w).2
        rcases change_cases (·.defineGlobal engine.symbols f name v) w with hsame | hok
        · refine ⟨none, .aside ?_⟩
          rw [hsame]
          exact .refl hw
        · exact ⟨some name, .define hok⟩
      | operate | setConstant | load | append | registerEvent | fork => cases hc

end HostCalls

/-! ## Names of the snapshot -/

/-- A fork that was made when the name was a global with this value. -/
structure Frame.Captures (f : Frame) (n : String) (v : Value) : Prop where
  forked : f.isRoot = false
  held : ∃ globals, f.snapshot = some globals ∧ globals.get? n = some v

namespace Frame.Captures

open World

variable {engine : Engine} {f : Frame} {n : String} {v : Value} (h : f.Captures n v)

include h

theorem globalsOf (w : World) : (w.globalsOf f).get? n = some v := by
  obtain ⟨globals, hsnapshot, hget⟩ := h.held
  simp only [World.globalsOf, hsnapshot, Option.getD_some, hget]

theorem isGlobal (w : World) : w.isGlobal f n = true := by
  simp only [World.isGlobal, Table.contains, h.globalsOf w, Option.isSome_some, Bool.true_or]

/-- The fork reads the value, whatever the root has done to the name. -/
theorem read {w : World} (hfree : (w.locals f.id).get? n = none) :
    Exec.read engine f n w = (.ok v, w) := by
  refine Exec.read_of_lookup ?_
  simp only [lookup?, hfree, h.globalsOf w, Option.none_or, Option.some_or]

/-- And it cannot write the name: if it is no constant by now, it is still a global. -/
theorem write (engine : Engine) (v' : Value) (w : World) :
    ∃ e, Exec.write engine f n v' w = (.error (.failed e), w) ∧ e.code = .writeViolation := by
  rw [Exec.write_of_fork h.forked, if_pos (h.isGlobal w)]
  split
  · exact ⟨_, rfl, rfl⟩
  · exact ⟨_, rfl, rfl⟩

/-- Of what the fork does itself, an assignment is refused, and the name is shown no failure. -/
theorem does {name : Option String} {w w' : World} (hdoes : engine.Does f name w w')
    (hcalm : n = engine.config.errorVariable → ∀ e, .recover f.id e ∉ w'.trace) :
    name ≠ some n := by
  rintro rfl
  cases hdoes with
  | set hwrite =>
    obtain ⟨e, hrefused, -⟩ := h.write engine _ w
    rw [hrefused] at hwrite
    cases hwrite
  | define hdefine =>
    have hroot := (Exec.defineGlobal_eq_ok_iff.1 hdefine).1
    rw [h.forked] at hroot
    cases hroot
  | announce e => exact hcalm rfl e Array.mem_push_self

end Frame.Captures

theorem World.nextFrame_captures {w : World} {n : String} {v : Value}
    (hn : w.root.globals.get? n = some v) (parent : Frame) (label : String)
    (handler : Option (List Step)) (outlet : Outlet) :
    (w.nextFrame parent label handler outlet).Captures n v :=
  ⟨rfl, w.root.globals, rfl, hn⟩

namespace World

/-- The instance is live, and the name is none of its locals. -/
abbrev Unbound (f : Frame) (n : String) (w : World) : Prop := Holds f n none w

theorem Unbound.deeds {engine : Engine} {f : Frame} {n : String} {v : Value} {w w' : World}
    (h : Unbound f n w) (hcaptures : f.Captures n v) (hdeeds : engine.Deeds f w w')
    (hcalm : n = engine.config.errorVariable → ∀ e, .recover f.id e ∉ w'.trace) :
    Unbound f n w' := by
  induction hdeeds with
  | refl => exact h
  | tail _ hstep ih =>
    obtain ⟨name, hdoes⟩ := hstep
    -- a failure that is not among the effects now was not before
    have hbefore := ih fun hn e he => hcalm hn e (hdoes.trace_subset he)
    exact hdoes.holds (fun _ => hcaptures.does hdoes hcalm) hbefore

end World

/-! ## Handlers that run in other forks -/

namespace World

/-- The handlers of `queue` are about to run, none of them in `f`. Of those that wait, only handlers
that waited in `w₀` may have `f`. -/
structure Elsewhere (f : Frame) (n : String) (o : Option Value) (w₀ : World)
    (queue : List Pending) (w : World) : Prop where
  holds : Holds f n o { w with pending := queue ++ w.pending }
  apart : ∀ p ∈ queue, p.frame.id ≠ f.id
  fresh : ∀ p ∈ w.pending, p ∈ w₀.pending ∨ p.frame.id ≠ f.id

end World

namespace Engine

open World Exec

variable (engine : Engine) {f : Frame} {n : String} {o : Option Value} {w₀ : World}

theorem runPending_elsewhere {p : Pending} {queue : List Pending} {w : World}
    (h : Elsewhere f n o w₀ (p :: queue) w) : Elsewhere f n o w₀ queue (engine.runPending p w) := by
  have hcoherent := h.holds.coherent
  have hu := engine.handlerBody_undisturbed hcoherent
  obtain ⟨new, hpending, hframes, hnew⟩ := hu.started_fresh
  have hne : p.frame.id ≠ f.id := h.apart p List.mem_cons_self
  have hlive : f ∈ w.frames := h.holds.live
  have hid : f.id ∈ w.ids := List.mem_map_of_mem hlive
  refine ⟨⟨?_, (engine.runPending_apart hcoherent).2.1, ?_⟩,
    fun q hq => h.apart q (List.mem_cons_of_mem _ hq), fun q hq => ?_⟩
  · rw [runPending_eq]
    show f ∈ (World.release _ p.frame.id).frames
    rw [release_frames, hframes, List.mem_eraseP_of_neg (by simpa using Ne.symm hne)]
    exact List.mem_append_right _ hlive
  · rw [runPending_eq]
    show ((World.release _ p.frame.id).locals f.id).get? n = o
    rw [release_locals_of_ne _ _ hne, hu.locals f.id hid (Ne.symm hne)]
    exact h.holds.found
  · rw [runPending_eq] at hq
    replace hq : q ∈ (engine.handlerBody p { w with trace := #[] }).2.pending := hq
    rw [hpending] at hq
    rcases List.mem_append.1 hq with hq | hq
    · exact h.fresh q hq
    · exact .inr fun e => hnew q hq (e ▸ hid)

variable {engine} {w w' : World}

/-- Handlers that run in other forks leave the locals alone. -/
theorem Tends.holds (h : engine.Tends (· ≠ f.id) w w') (hw : Holds f n o w) : Holds f n o w' := by
  cases h with
  | @handle p before after hpending hp =>
    have hperm := perm_pending hpending
    have hstart : Elsewhere f n o w [p] { w with pending := before ++ after } := by
      refine ⟨⟨hw.live, hw.coherent.perm hperm, hw.found⟩, fun q hq => ?_, fun q hq => .inl ?_⟩
      · rw [List.mem_singleton.1 hq]
        exact hp
      · exact hperm.mem_iff.1 (List.mem_cons_of_mem _ hq)
    exact (engine.runPending_elsewhere hstart).holds
  | settle hp =>
    have hround : ∀ {w' : World}, Elsewhere f n o w [] w' →
        Elsewhere f n o w w'.pending { w' with pending := [] } := fun h =>
      ⟨h.holds.of_instances rfl (by simp), fun p hm => (h.fresh p hm).elim (hp p) id,
        fun p hm => absurd hm List.not_mem_nil⟩
    exact (engine.settle_queue engine.runPending_elsewhere hround
      ⟨hw, fun _ hm => absurd hm List.not_mem_nil, fun _ => .inl⟩).holds
  | administer => exact hw.of_instances rfl rfl
  | record => exact hw.of_instances rfl rfl

/-- What is done beside an instance: other instances are called or given up, and handlers are run in
other forks. -/
inductive Beside (engine : Engine) (f : Frame) : World → World → Prop where
  | call {w : World} {g : Frame} {α : Type} (c : HostCall α) : g ∈ w.frames → g ≠ f →
      Beside engine f w (c.exec engine g w).2
  | drop {w : World} {id : InstanceId} : id ≠ f.id → (∀ p ∈ w.pending, p.frame.id ≠ id) →
      Beside engine f w (w.release id)
  | tend {w w' : World} : engine.Tends (· ≠ f.id) w w' → Beside engine f w w'

namespace Beside

theorem holds (h : engine.Beside f w w') (hw : Holds f n o w) : Holds f n o w' := by
  cases h with
  | @call g _ c hg hne =>
    -- whoever has the id of a live instance is that instance
    have hid : g.id ≠ f.id := fun e =>
      hne (List.inj_on_of_nodup_map hw.coherent.nodup hg hw.live e)
    exact (c.exec_does engine hw.coherent (List.mem_map_of_mem hg)).holds hid hw
  | drop hid hp => exact hw.release hid hp
  | tend htends => exact htends.holds hw

/-- The globals are in the hands of the root. -/
theorem globals (h : engine.Beside f w w') (hw : Holds f n o w) (hf : f.isRoot = true) :
    w'.root.globals = w.root.globals := by
  cases h with
  | @call g _ c hg hne =>
    have hfork : g.isRoot = false := by
      refine Bool.eq_false_iff.2 fun hroot => hne ?_
      refine List.inj_on_of_nodup_map hw.coherent.nodup hg hw.live ?_
      rw [List.isEmpty_iff.1 hroot, List.isEmpty_iff.1 hf]
    exact (c.exec_does engine hw.coherent (List.mem_map_of_mem hg)).globals_of_fork hfork
  | drop => rfl
  | tend htends => rw [htends.root hw.coherent]

end Beside

/-- What can have been done since `w₀` to the instances of an engine, as long as `n` was not bound
in `f`: whatever is done beside `f`, calls on `f` itself, forks and bindings. A name is bound in an
instance directly, or in a call if the instance has a handler that is shown a failure. -/
inductive Later (engine : Engine) (f : Frame) (n : String) (w₀ : World) : World → Prop where
  | start : Later engine f n w₀ w₀
  | beside {w w' : World} : Later engine f n w₀ w → engine.Beside f w w' → Later engine f n w₀ w'
  | call {w : World} {α : Type} (c : HostCall α) : Later engine f n w₀ w → f ∈ w.frames →
      (n = engine.config.errorVariable →
        ∀ e, .recover f.id e ∉ (c.exec engine f { w with trace := #[] }).2.trace) →
      Later engine f n w₀ (c.exec engine f { w with trace := #[] }).2
  | fork {w : World} {g : Frame} (label : String) (handler : Option (List Step))
      (outlet : Outlet) : Later engine f n w₀ w → g ∈ w.frames →
      Later engine f n w₀ (w.enlist g (w.nextFrame g label handler outlet))
  | bind {w : World} {g : Frame} {name : String} (v : Value) : Later engine f n w₀ w →
      (g.id = f.id → name ≠ n) → Later engine f n w₀ (w.bind g.id name v)

/-- A fork that was made just now has no locals. -/
theorem unbound_nextFrame (h : w.Coherent) {parent : Frame} (hparent : parent ∈ w.frames)
    (label : String) (handler : Option (List Step)) (outlet : Outlet) :
    let f := w.nextFrame parent label handler outlet
    Unbound f n (w.enlist parent f) := by
  intro f
  refine ⟨?_, h.enlist label handler outlet (List.mem_map_of_mem hparent), ?_⟩
  · rw [enlist_frames]
    exact List.mem_cons_self
  · rw [enlist_locals_child]
    rfl

theorem Later.unbound {v : Value} (h : engine.Later f n w₀ w) (hcaptures : f.Captures n v)
    (hw₀ : Unbound f n w₀) : Unbound f n w := by
  induction h with
  | start => exact hw₀
  | beside _ hbeside ih => exact hbeside.holds ih
  | @call w _ c _ hf hcalm ih =>
    have hquiet : Unbound f n { w with trace := #[] } := ih.of_instances rfl rfl
    have hdeeds := c.exec_does engine hquiet.coherent (List.mem_map_of_mem hf)
    exact hquiet.deeds hcaptures hdeeds hcalm
  | fork label handler outlet _ hg ih =>
    exact ih.aside (.enlist ih.coherent (List.mem_map_of_mem hg) label handler outlet)
  | bind v _ hne ih => exact ih.bind v hne

/-- Snapshots are stable. Whatever is done after a fork was made, on the root and on all instances,
and as long as the fork has not bound the name itself, it reads the value that a global had when it
was made, and it is refused to write it. The globals change only where the root assigns a variable
or a global with success: calls on instances consist of deeds, and no other deed changes them. A
block that does not come to write a name leaves the global of that name alone, and handlers leave
them all. -/
theorem snapshot_stable (engine : Engine) (w₀ : World) (parent : Frame) (label : String)
    (handler : Option (List Step)) (outlet : Outlet) (n : String) (v : Value)
    (hw₀ : w₀.Coherent) (hparent : parent ∈ w₀.frames)
    (hn : w₀.root.globals.get? n = some v) :
    let f := w₀.nextFrame parent label handler outlet
    (∀ w, engine.Later f n (w₀.enlist parent f) w → Exec.read engine f n w = (.ok v, w) ∧
      ∀ v', ∃ e, Exec.write engine f n v' w = (.error (.failed e), w) ∧
        e.code = .writeViolation) ∧
    (∀ (w : World) (g : Frame) {α : Type} (c : HostCall α), w.Coherent → g ∈ w.frames →
      let w' := (c.exec engine g w).2
      engine.Deeds g w w' ∧
        (c.assigns = false ∨ g.isRoot = false → w'.root.globals = w.root.globals)) ∧
    (∀ (g : Frame) (name : Option String) (w w' : World), engine.Does g name w w' →
      w'.root.globals ≠ w.root.globals →
      g.isRoot = true ∧ ∃ m v', name = some m ∧ (Exec.write engine g m v' w = (.ok (), w') ∨
        Exec.change (·.defineGlobal engine.symbols g m v') w = (.ok (), w'))) ∧
    (∀ (w : World) (g : Frame) (mode : Mode) (steps : List Step) (m : String), w.Coherent →
      g ∈ w.frames → ¬ engine.Reassigns g mode m steps w →
      (engine.runBlock g mode steps w).2.root.globals.get? m = w.root.globals.get? m) ∧
    ∀ w : World, w.Coherent → (engine.settle w).2.root.globals = w.root.globals ∧
      ∀ before p after, w.pending = before ++ p :: after →
        (engine.runPending p { w with pending := before ++ after }).root.globals =
          w.root.globals := by
  intro f
  have hcaptures : f.Captures n v := nextFrame_captures hn parent label handler outlet
  have hmade : Unbound f n (w₀.enlist parent f) :=
    unbound_nextFrame hw₀ hparent label handler outlet
  have htends {w w' : World} (h : engine.Tends (fun _ => True) w w') (hw : w.Coherent) :
      w'.root.globals = w.root.globals := congrArg Root.globals (h.root hw)
  refine ⟨fun w hw => ⟨hcaptures.read (hw.unbound hcaptures hmade).found,
      fun v' => hcaptures.write engine v' w⟩, fun w g α c hw hg => ?_, fun g name w w' hd => hd.by_root,
    fun w g mode steps m hw hg h => globals_of_not_reassigns h (List.mem_map_of_mem hg) hw,
    fun w hw => ⟨htends (.settle fun _ _ => trivial) hw,
      fun before p after hpending => htends (.handle hpending trivial) hw⟩⟩
  have hdeeds := c.exec_does engine hw (List.mem_map_of_mem hg)
  refine ⟨hdeeds, fun hkeep => ?_⟩
  rcases hkeep with hc | hroot
  · exact (c.exec_aside engine hc hw (List.mem_map_of_mem hg)).globals
  · exact hdeeds.globals_of_fork hroot

/-- A fork keeps reading a global that the root has changed, and then made a constant as well. It
has tried to write the name itself, in vain. A block in which the root writes another name leaves the
global as it is. -/
theorem snapshot_stable_of_rewritten :
    let engine : Engine := {}
    let w₀ := ((HostRequest.setGlobal "x" (.bool true)).exec engine .root {}).2
    let f := w₀.nextFrame .root "kept" none .host
    let w₁ := w₀.enlist .root f
    let w₂ := ((HostCall.request (.set "x" (.bool false))).exec engine .root w₁).2
    let w₃ := ((HostCall.request (.setConstant "x" .nil)).exec engine .root w₂).2
    let w₄ := ((HostCall.request (.block {} [Step.set "x" .nil])).exec engine f
      { w₃ with trace := #[] }).2
    let other := [Step.set "y" .nil]
    (w₀.Coherent ∧ Frame.root ∈ w₀.frames ∧ w₀.root.globals.get? "x" = some (.bool true) ∧
      engine.Later f "x" w₁ w₄ ∧ ¬ engine.Reassigns .root {} "x" other w₀) ∧
    Exec.read engine .root "x" w₄ = (.ok (.bool false), w₄) ∧
    Exec.read engine f "x" w₄ = (.ok (.bool true), w₄) ∧
    (∃ e, Exec.write engine f "x" .nil w₄ = (.error (.failed e), w₄) ∧
      e.code = .writeViolation) ∧
    (engine.runBlock .root {} other w₀).2.root.globals.get? "x" = some (.bool true) := by
  intro engine w₀ f w₁ w₂ w₃ w₄ other
  have hw₀ : w₀.Coherent := (Reachable.ask _ .start List.mem_cons_self).coherent
  have hroot : Frame.root ∈ w₀.frames := List.mem_cons_self
  have hget : w₀.root.globals.get? "x" = some (.bool true) := rfl
  have hne : "x" ≠ engine.config.errorVariable := by decide
  have hfork : Frame.root ≠ f := fun e => absurd (congrArg Frame.id e) (by decide)
  have hw₂ : engine.Later f "x" w₁ w₂ := .beside .start
    (.call (.request (.set "x" (.bool false))) (List.mem_cons_of_mem _ List.mem_cons_self) hfork)
  have hw₃ : engine.Later f "x" w₁ w₃ := hw₂.beside
    (.call (.request (.setConstant "x" .nil)) (List.mem_cons_of_mem _ List.mem_cons_self) hfork)
  have hw₄ : engine.Later f "x" w₁ w₄ :=
    .call (.request (.block {} [Step.set "x" .nil])) hw₃ List.mem_cons_self
      fun h => absurd h hne
  have hother : ¬ engine.Reassigns .root {} "x" other w₀ := by
    rintro ⟨alarm, hheard⟩
    exact hheard rfl
  obtain ⟨hlater, -, -, hblocks, -⟩ :=
    snapshot_stable engine w₀ .root "kept" none .host "x" (.bool true) hw₀ hroot hget
  obtain ⟨hread, hwrite⟩ := hlater w₄ hw₄
  exact ⟨⟨hw₀, hroot, hget, hw₄, hother⟩, rfl, hread, hwrite .nil,
    (hblocks w₀ .root {} other "x" hw₀ hroot hother).trans hget⟩

end Engine

end StepScript
