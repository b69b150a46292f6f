import StepScript.Proofs.Isolation

/-!
# StepScript.Proofs.Starting

What raising an event does at once, before any handler runs.

* `Exec.Launched` — every handler waits in a fork of its own, and nothing else has happened.
* `Exec.startAll_launched` — so it is if forks can be made.
* `Exec.startAll_refused`  — else every handler is reported, and nothing else has happened.
* `Exec.raise_of_wired`    — raising an event starts its handlers, if the host can take what they
  emit and whisper.
-/

namespace StepScript

/-- A handler that waits in a fork of `f` for an event to be handled. -/
structure Pending.Awaits (p : Pending) (f : Frame) (globals : Table Value) (name source : String)
    (event : Value) : Prop where
  eventName : p.eventName = name
  source : p.source = source
  event : p.event = event
  parent : p.frame.parent? = some f.id
  depth : p.frame.depth = f.depth + 1
  callStack : p.frame.callStack = f.callStack ++ ["event:" ++ name]
  handler : p.frame.handler = p.handler.body.handler
  outlet : p.frame.outlet = f.outlet
  snapshot : p.frame.snapshot = some globals

namespace Exec

open World

variable {engine : Engine} {f : Frame} {name source : String} {event : Value}

/-- The handlers `started` wait, each in a new fork of `f` without locals. -/
structure Launched (f : Frame) (name source : String) (event : Value) (w w' : World)
    (started : List Pending) : Prop where
  pending : w'.pending = w.pending ++ started
  frames : w'.frames = (started.map (·.frame)).reverse ++ w.frames
  awaits : ∀ p ∈ started, p.Awaits f w.root.globals name source event
  fresh : ∀ p ∈ started, w'.locals p.frame.id = {}
  trace : w'.trace = w.trace
  undisturbed : Undisturbed (fun _ => False) w w'

theorem Launched.refl {w : World} (hw : w.Coherent) : Launched f name source event w w [] :=
  ⟨by simp, by simp, by simp, by simp, rfl, .refl hw⟩

theorem start_launched (hd : f.depth + 1 ≤ engine.config.maxCallDepth) (name source : String)
    (event : Value) (h : EventHandler) {w : World} (hw : w.Coherent) (hf : f.id ∈ w.ids) : ∃ p w',
      start engine f name source event h w = (.ok 1, w') ∧ p.handler = h ∧
        Launched f name source event w w' [p] := by
  let p : Pending :=
    { frame := w.nextFrame f ("event:" ++ name) h.body.handler f.outlet, handler := h
      eventName := name, source := source, event := event }
  refine ⟨p, _, start_of_depth hd name source event h w, rfl, ?_⟩
  have hu : Undisturbed (fun _ => False) w
      { w.enlist f p.frame with pending := (w.enlist f p.frame).pending ++ [p] } :=
    .wait hw hf ("event:" ++ name) h.body.handler f.outlet rfl
  refine ⟨rfl, enlist_frames w f p.frame, fun q hq => ?_, fun q hq => ?_, rfl, hu⟩
  · rw [List.mem_singleton.1 hq]
    exact ⟨rfl, rfl, rfl, rfl, rfl, rfl, rfl, rfl, rfl⟩
  · rw [List.mem_singleton.1 hq]
    exact enlist_locals_child w f p.frame

theorem Launched.trans {w w' w'' : World} {started started' : List Pending}
    (h : Launched f name source event w w' started)
    (h' : Launched f name source event w' w'' started') :
    Launched f name source event w w'' (started ++ started') := by
  refine ⟨?_, ?_, fun p hp => ?_, fun p hp => ?_, h'.trace.trans h.trace,
    h.undisturbed.trans h'.undisturbed⟩
  · rw [h'.pending, h.pending, List.append_assoc]
  · rw [h'.frames, h.frames]
    simp
  · rcases List.mem_append.1 hp with hp | hp
    · exact h.awaits p hp
    · have hawaits := h'.awaits p hp
      rw [h.undisturbed.shared.root] at hawaits
      exact hawaits
  · rcases List.mem_append.1 hp with hp | hp
    · -- those that were started before keep their forks as they were
      have hlive : p.frame.id ∈ w'.ids := by
        refine h.undisturbed.coherent.waiting p ?_
        rw [h.pending]
        exact List.mem_append_right _ hp
      rw [h'.undisturbed.locals _ hlive nofun]
      exact h.fresh p hp
    · exact h'.fresh p hp

theorem startAll_launched (hd : f.depth + 1 ≤ engine.config.maxCallDepth) (name source : String)
    (event : Value) (handlers : List EventHandler) : ∀ {w : World}, w.Coherent → f.id ∈ w.ids →
      ∃ started w', startAll engine f name source event handlers w = (.ok handlers.length, w') ∧
        started.map (·.handler) = handlers ∧ Launched f name source event w w' started := by
  induction handlers with
  | nil =>
    intro w hw _
    exact ⟨[], w, rfl, rfl, .refl hw⟩
  | cons h rest ih =>
    intro w hw hf
    obtain ⟨p, w₁, hstart, hp, hlaunched⟩ := start_launched hd name source event h hw hf
    have hu := hlaunched.undisturbed
    obtain ⟨started, w', hall, hrest, hlaunched'⟩ := ih hu.coherent (hu.live hf)
    refine ⟨p :: started, w', ?_, ?_, hlaunched.trans hlaunched'⟩
    · simp only [startAll]
      rw [bind_ok hstart, bind_ok hall, List.length_cons, Nat.add_comm]
      rfl
    · rw [List.map_cons, hp, hrest]

theorem startAll_refused (hd : ¬ f.depth + 1 ≤ engine.config.maxCallDepth) (name source : String)
    (event : Value) (handlers : List EventHandler) : ∀ w : World,
      startAll engine f name source event handlers w = (.ok 0,
        { w with trace := w.trace ++ engine.notices name source (handlers.map fun h =>
          (engine.refusal f ("event:" ++ name)).withPosition h.position) }) := by
  induction handlers with
  | nil =>
    intro w
    simp [startAll, Engine.notices]
  | cons h rest ih =>
    intro w
    simp only [startAll]
    rw [bind_ok (start_of_refusal hd name source event h w), bind_ok (ih _)]
    simp only [Engine.notices]
    split <;> simp

theorem raise_of_wired (hwired : wired engine f = true) (name source : String) (payload : Value)
    (w : World) : raise engine f name source payload w =
      startAll engine f name source (.event name source payload) (w.root.handlersOf name) w := by
  simp only [raise, bind_apply, get_apply, hwired]
  cases w.root.handlersOf name with
  | nil => rfl
  | cons h rest => rfl

/-- Nobody could hear the handlers: a fault of the host, the same for whoever they are. -/
theorem raise_of_unwired {f' : Frame} (hwired : wired engine f = false)
    (hwired' : wired engine f' = false) {w w' : World} (hsome : w.root.handlersOf name ≠ [])
    (hsome' : w'.root.handlersOf name ≠ []) (source : String) (payload : Value) :
    (raise engine f name source payload w).1 = (raise engine f' name source payload w').1 ∧
      (raise engine f name source payload w).2 = w ∧
      (raise engine f' name source payload w').2 = w' := by
  simp only [raise, bind_apply, get_apply, hwired, hwired']
  cases hh : w.root.handlersOf name with
  | nil => exact absurd hh hsome
  | cons h rest =>
    cases hh' : w'.root.handlersOf name with
    | nil => exact absurd hh' hsome'
    | cons h' rest' => exact ⟨rfl, rfl, rfl⟩

theorem raise_of_nobody {w : World} (hnone : w.root.handlersOf name = []) (source : String)
    (payload : Value) : raise engine f name source payload w = (.ok 0, w) := by
  simp only [raise, bind_apply, get_apply, hnone]
  rfl

end Exec
end StepScript
