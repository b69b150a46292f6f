import StepScript.Proofs.Reachable
import StepScript.Proofs.Twin

/-!
# StepScript.Proofs.Dispatch

The handlers of an event, run in whatever order.

* `Engine.conduct`  — what a handler shows of itself: what it emits and whispers, and its failure.
* `Schedule`        — the handlers of one event run in some order, with other handlers in between.
* `World.Poised`    — what running a handler keeps of those that still wait.
* `Engine.dispatch_isolates` — every handler runs once, the host hears of it exactly if it failed,
  and it behaves as it does alone.
* `Engine.dispatch_of_counting` — except that a handler can count the handlers of its event.
-/

namespace StepScript

/-! ## Reports -/

/-- The failure to make a fork for a handler of an event. -/
def Engine.Refuses (engine : Engine) (event : String) (e : RuntimeError) : Prop :=
  ∃ parent p, e = (engine.refusal parent ("event:" ++ event)).withPosition p

/-- The only failures that the host was told of are those to make forks for handlers. -/
def World.Told (engine : Engine) (w w' : World) : Prop :=
  ∃ new, w'.trace.toList = w.trace.toList ++ new ∧
    ∀ event source e, .report event source e ∈ new → engine.Refuses event e

namespace World.Told

variable {engine : Engine} {w w' w'' : World}

theorem of_trace (h : w'.trace = w.trace) : Told engine w w' :=
  ⟨[], by simp [h], by simp⟩

theorem trans (h : Told engine w w') (h' : Told engine w' w'') : Told engine w w'' := by
  obtain ⟨new, hnew, htold⟩ := h
  obtain ⟨new', hnew', htold'⟩ := h'
  refine ⟨new ++ new', by rw [hnew', hnew, List.append_assoc], fun event source e he => ?_⟩
  rcases List.mem_append.1 he with he | he
  · exact htold event source e he
  · exact htold' event source e he

end World.Told

namespace Exec

open World

section Telling

variable {engine : Engine} {enter : Enter} {f : Frame} {α : Type}

abbrev Tells (engine : Engine) : ∀ α : Type, (Unit → Exec α) → Prop := Keeps (Told engine)

theorem Tells.closed : Closed (fun _ => True) (Tells engine) :=
  Keeps.closed .trans fun _ => .of_trace rfl

theorem Tells.of_trace {X : Unit → Exec α} (h : ∀ w, (X () w).2.trace = w.trace) :
    Tells engine α X :=
  fun w _ => .of_trace (h w)

theorem note_tells {effect : Effect} (h : ∀ event source e, effect ≠ .report event source e) :
    Tells engine Unit fun _ => note effect := by
  intro w _
  refine ⟨[effect], Array.toList_push, fun event source e he => ?_⟩
  exact absurd (List.mem_singleton.1 he).symm (h event source e)

theorem write_tells (name : String) (v : Value) :
    Tells engine Unit fun _ => write engine f name v := by
  refine .of_trace fun w => ?_
  rcases write_world engine f name v w with h | ⟨-, h⟩ | h <;> rw [h] <;> rfl

theorem start_tells (name source : String) (event : Value) (h : EventHandler) :
    Tells engine Nat fun _ => start engine f name source event h := by
  intro w _
  by_cases hd : f.depth + 1 ≤ engine.config.maxCallDepth
  · simp only [start_of_depth hd]
    exact .of_trace rfl
  · simp only [start_of_refusal hd]
    refine ⟨_, Array.toList_appendList, fun event' source' e he => ?_⟩
    unfold Engine.notices at he
    split at he
    · cases List.mem_singleton.1 he
      exact ⟨f, h.position, rfl⟩
    · cases he

theorem told_habit : Habit (fun _ => True) (Told engine) engine where
  trans := .trans
  target _ := .of_trace rfl
  instances _ _ := .of_trace rfl
  procedure _ _ _ _ := trivial
  write name v _ := write_tells name v
  invoke name args _ := invoke_closed Tells.closed
    (raise_closed Tells.closed (fun _ => rfl) start_tells)
    (fun _ _ => note_tells fun _ _ _ => nofun) (fun _ => note_tells fun _ _ _ => nofun) name args
  emit _ _ := note_tells fun _ _ _ => nofun
  whisper _ _ := note_tells fun _ _ _ => nofun
  promptUser := promptUser_closed Tells.closed engine (fun _ => note_tells fun _ _ _ => nofun)
    (fun _ => Tells.of_trace fun _ => rfl) fun _ _ _ _ _ _ => trivial
  recover _ _ := note_tells fun _ _ _ => nofun
  clear _ := note_tells fun _ _ _ => nofun
  chat _ _ _ := Tells.of_trace fun _ => rfl
  act _ henter := act_closed Tells.closed (fun a => henter a fun _ => trivial)
    fun _ => Tells.of_trace fun _ => rfl
  openConversation := Tells.of_trace fun _ => rfl

end Telling

end Exec

/-! ## Running a handler -/

/-- What a handler shows of itself: its emissions and whispers, and its failure. -/
structure Conduct where
  voice : List Effect
  failure : Option RuntimeError

/-- What the host sees of a handler: its voice, and once that it failed, if it did. Before that, the
host is told only of handlers that could not be started. -/
def Conduct.Seen (c : Conduct) (engine : Engine) (name source : String) (trace : Array Effect) :
    Prop :=
  ∃ body : Array Effect, trace = body ++ engine.notices name source c.failure.toList ∧
    StepScript.voice body = c.voice ∧
    ∀ event source e, .report event source e ∈ body.toList → engine.Refuses event e

namespace Engine

open World Exec

variable (engine : Engine)

def conduct (p : Pending) (w : World) : Conduct :=
  let run := engine.handlerBody p { w with trace := #[] }
  { voice := StepScript.voice run.2.trace, failure := failureOf run.1 }

theorem runPending_seen (p : Pending) (w : World) :
    (engine.conduct p w).Seen engine p.eventName p.source (engine.runPending p w).trace := by
  obtain ⟨new, hnew, htold⟩ :=
    told_habit.handlerBody (p := p) trivial { w with trace := #[] } (.of_trace rfl)
  rw [runPending_eq]
  refine ⟨_, rfl, rfl, fun event source e he => htold event source e ?_⟩
  rw [hnew] at he
  exact he

end Engine

/-! ## Handlers that wait for their turn -/

namespace World

/-- The handlers of `queue` are as they were started, and the tables and stores as in `w₀`. -/
structure Poised (w₀ : World) (queue : List Pending) (w : World) : Prop where
  shared : SameShared w₀ w
  coherent : { w with pending := queue ++ w.pending }.Coherent
  fresh : ∀ p ∈ queue, w.locals p.frame.id = {}

namespace Poised

variable {w₀ w : World} {queue : List Pending} {p : Pending}

theorem perm (h : Poised w₀ queue w) {queue' : List Pending} (hperm : queue'.Perm queue) :
    Poised w₀ queue' w :=
  ⟨h.shared, h.coherent.perm (hperm.append_right _), fun p hp => h.fresh p (hperm.mem_iff.1 hp)⟩

theorem first (h : Poised w₀ (p :: queue) w) : Poised w₀ [p] w := by
  refine ⟨h.shared, h.coherent.of_pending ?_ ?_, fun q hq => ?_⟩
  · intro q hq
    rcases List.mem_cons.1 hq with rfl | hq
    · exact List.mem_cons_self
    · exact List.mem_append_right _ hq
  · have halone := h.coherent.alone
    simp only [List.cons_append, List.map_cons, List.map_append] at halone ⊢
    exact halone.sublist (List.Sublist.cons_cons _ (List.sublist_append_right _ _))
  · exact h.fresh q (List.mem_singleton.1 hq ▸ List.mem_cons_self)

end Poised
end World

namespace Engine

open World Exec

variable (engine : Engine) {w₀ w : World} {p : Pending} {queue : List Pending}

theorem runPending_poised (h : Poised w₀ (p :: queue) w) :
    Poised w₀ queue (engine.runPending p w) := by
  obtain ⟨hshared, hcoherent, hlocals⟩ := engine.runPending_apart h.coherent
  refine ⟨h.shared.trans hshared, hcoherent, fun q hq => ?_⟩
  rw [hlocals q hq]
  exact h.fresh q (List.mem_cons_of_mem _ hq)

/-- So it is with a handler that was not started with them. -/
theorem runOther_poised {before after : List Pending} (hpending : w.pending = before ++ p :: after)
    (h : Poised w₀ queue w) :
    Poised w₀ queue (engine.runPending p { w with pending := before ++ after }) := by
  have hperm : (p :: queue ++ (before ++ after)).Perm (queue ++ w.pending) := by
    rw [hpending]
    have hfirst : (p :: (queue ++ (before ++ after))).Perm (queue ++ p :: (before ++ after)) :=
      List.perm_middle.symm
    exact hfirst.trans (List.perm_middle.symm.append_left queue)
  obtain ⟨hshared, hcoherent, hlocals⟩ :=
    engine.runPending_apart (w := { w with pending := before ++ after }) (h.coherent.perm hperm)
  have hsame : SameShared w { w with pending := before ++ after } := ⟨rfl, rfl, rfl, rfl⟩
  refine ⟨h.shared.trans (hsame.trans hshared), hcoherent, fun q hq => ?_⟩
  rw [hlocals q hq]
  exact h.fresh q hq

end Engine

/-! ## Schedules -/

/-- The handlers of a queue run in some order, each to its end. Handlers that wait in the world may
run between them. The log has each handler of the queue, with the world in which its turn came. -/
inductive Schedule (engine : Engine) :
    List Pending → World → List (Pending × World) → World → Prop where
  | joined (w : World) : Schedule engine [] w [] w
  | run {before after : List Pending} {p : Pending} {w w' : World} {log : List (Pending × World)} :
      Schedule engine (before ++ after) (engine.runPending p w) log w' →
      Schedule engine (before ++ p :: after) w ((p, w) :: log) w'
  | other {queue before after : List Pending} {q : Pending} {w w' : World}
      {log : List (Pending × World)} : w.pending = before ++ q :: after →
      Schedule engine queue (engine.runPending q { w with pending := before ++ after }) log w' →
      Schedule engine queue w log w'

namespace Schedule

open World

variable {engine : Engine}

theorem first {p : Pending} {queue : List Pending} {w w' : World} {log : List (Pending × World)}
    (h : Schedule engine queue (engine.runPending p w) log w') :
    Schedule engine (p :: queue) w ((p, w) :: log) w' := by
  show Schedule engine ([] ++ p :: queue) w ((p, w) :: log) w'
  exact .run h

/-- A round of handlers is a schedule. -/
theorem of_round (engine : Engine) (queue : List Pending) : ∀ w : World, ∃ log,
    Schedule engine queue w log (engine.runRound queue w).2 ∧
      log.map (fun e => (engine.runPending e.1 e.2).trace) = (engine.runRound queue w).1 := by
  induction queue with
  | nil => intro w; exact ⟨[], .joined w, rfl⟩
  | cons p rest ih =>
    intro w
    obtain ⟨log, hlog, htraces⟩ := ih (engine.runPending p w)
    refine ⟨(p, w) :: log, hlog.first, ?_⟩
    rw [List.map_cons, htraces]
    rfl

/-- Whatever the order, every handler runs once, and finds its fork as it was made. -/
theorem poised {w₀ : World} {queue : List Pending} {w w' : World} {log : List (Pending × World)}
    (hs : Schedule engine queue w log w') (h : Poised w₀ queue w) :
    (log.map Prod.fst).Perm queue ∧ ∀ p v, (p, v) ∈ log → Poised w₀ [p] v := by
  induction hs with
  | joined w => exact ⟨.refl _, by simp⟩
  | @run before after p w w' log _ ih =>
    have hfirst : Poised w₀ (p :: (before ++ after)) w := h.perm List.perm_middle.symm
    obtain ⟨hperm, hlog⟩ := ih (engine.runPending_poised hfirst)
    refine ⟨(hperm.cons p).trans List.perm_middle.symm, fun q v hq => ?_⟩
    rcases List.mem_cons.1 hq with hq | hq
    · cases hq
      exact hfirst.first
    · exact hlog q v hq
  | other hpending _ ih => exact ih (engine.runOther_poised hpending h)

end Schedule

/-! ## The same handler elsewhere -/

namespace Engine

open World Exec

variable (engine : Engine)

theorem conduct_eq {odd : String → Prop} {w₀ w₀' w w' : World} {p p' : Pending}
    (hk : Kindred odd w₀ w₀') (hw : Poised w₀ [p] w) (hw' : Poised w₀' [p'] w')
    (hm : p.frame.Mates p'.frame) (hhandler : p'.handler = p.handler) (hevent : p'.event = p.event)
    (hr : Reticent odd w (engine.runPending p w)) :
    engine.conduct p' w' = engine.conduct p w := by
  let q (i : Bool) : Pending := cond i p p'
  let v (i : Bool) : World := cond i { w with trace := #[] } { w' with trace := #[] }
  have htwin : Twin odd (fun i => (q i).frame) v := by
    refine ⟨fun i => ?_, fun i => ?_, hk.congr (hw.shared.trans ⟨rfl, rfl, rfl, rfl⟩)
      (hw'.shared.trans ⟨rfl, rfl, rfl, rfl⟩), ?_, rfl⟩
    · cases i with
      | false => exact hw'.coherent.waiting p' List.mem_cons_self
      | true => exact hw.coherent.waiting p List.mem_cons_self
    · cases i with
      | false => exact hw'.coherent.of_queue.congr rfl (fun _ => rfl) rfl
      | true => exact hw.coherent.of_queue.congr rfl (fun _ => rfl) rfl
    · exact (hw.fresh p List.mem_cons_self).trans (hw'.fresh p' List.mem_cons_self).symm
  have hreticent : Reticent odd (v true) (engine.handlerBody (q true) (v true)).2 := by
    rw [runPending_eq] at hr
    exact ⟨hr.calls, hr.prompts, hr.pending⟩
  obtain ⟨hresult, -, hvoice⟩ :=
    (handlerBody_twinned engine (p := q) hm hhandler hevent).agrees v htwin hreticent
  have hfailure : failureOf (engine.handlerBody p' { w' with trace := #[] }).1 =
      failureOf (engine.handlerBody p { w with trace := #[] }).1 := congrArg failureOf hresult.symm
  simp only [conduct, hfailure]
  exact congrArg (Conduct.mk · _) hvoice.symm

end Engine

section Alone

open World Exec

variable {f : Frame} {name source : String} {event : Value}

theorem Pending.Awaits.forked {p : Pending} {globals : Table Value}
    (h : p.Awaits f globals name source event) : p.frame.isRoot = false := by
  have hparent := h.parent
  unfold Frame.parent? at hparent
  unfold Frame.isRoot
  split at hparent
  · cases hparent
  · rename_i hid
    rw [hid]
    rfl

theorem Pending.Awaits.mates {p p' : Pending} {globals : Table Value}
    (h : p.Awaits f globals name source event) (h' : p'.Awaits f globals name source event)
    (hhandler : p'.handler = p.handler) : p.frame.Mates p'.frame := by
  refine ⟨h'.depth.trans h.depth.symm, h'.callStack.trans h.callStack.symm, ?_,
    h'.outlet.trans h.outlet.symm, h'.snapshot.trans h.snapshot.symm, h.forked, h'.forked⟩
  rw [h'.handler, h.handler, hhandler]

theorem Exec.Launched.poised {w w' : World} {started : List Pending}
    (h : Launched f name source event w w' started) :
    Poised w started { w' with pending := w.pending } := by
  have hu := h.undisturbed
  refine ⟨⟨hu.shared.root, hu.shared.models, hu.shared.accounts, hu.shared.providers⟩,
    hu.coherent.perm ?_, h.fresh⟩
  rw [h.pending]
  exact List.perm_append_comm

/-- The world in which `h` is the only handler of its event. -/
def World.withOnly (w : World) (h : EventHandler) : World :=
  { w with root := { w.root with
      handlers := w.root.handlers.filter (·.eventName ≠ h.eventName) ++ [h] } }

theorem World.withOnly_handlersOf (w : World) (h : EventHandler) (event : String) :
    (w.withOnly h).root.handlersOf event =
      if event = h.eventName then [h] else w.root.handlersOf event := by
  simp only [withOnly, Root.handlersOf, List.filter_append, List.filter_filter]
  split
  · rename_i he
    simp [he]
  · rename_i he
    have hne : ¬ h.eventName = event := fun e => he e.symm
    simp only [hne, List.filter_cons, List.filter_nil, decide_false, Bool.false_eq_true, if_false,
      List.append_nil]
    refine List.filter_congr fun g _ => ?_
    by_cases hg : g.eventName = event
    · simp [hg, he]
    · simp [hg]

theorem World.withOnly_kindred {w : World} {h : EventHandler} (hname : h ∈ w.root.handlersOf name) :
    Kindred (· = name) w (w.withOnly h) := by
  obtain rfl : h.eventName = name := of_decide_eq_true (List.mem_filter.1 hname).2
  refine ⟨rfl, rfl, rfl, fun event he => ?_, fun event he => ?_, rfl, rfl, rfl⟩
  · rw [withOnly_handlersOf, if_neg he]
  · subst he
    rw [withOnly_handlersOf, if_pos rfl]
    exact ⟨List.ne_nil_of_mem hname, List.cons_ne_nil _ _⟩

theorem Exec.raise_withOnly {engine : Engine} (hwired : wired engine f = true) {w : World}
    {h : EventHandler} (hname : h ∈ w.root.handlersOf name) (source : String) (payload : Value) :
    raise engine f name source payload (w.withOnly h) =
      startAll engine f name source (.event name source payload) [h] (w.withOnly h) := by
  obtain rfl : h.eventName = name := of_decide_eq_true (List.mem_filter.1 hname).2
  rw [raise_of_wired hwired, withOnly_handlersOf, if_pos rfl]

theorem World.Kindred.refl (w : World) : Kindred (fun _ => False) w w :=
  ⟨rfl, rfl, rfl, fun _ _ => rfl, fun _ => False.elim, rfl, rfl, rfl⟩

end Alone

namespace Engine

open World Exec

/-- One handler is started, which conducts itself like this whenever its turn comes. -/
def StartsOne (engine : Engine) (x : Exec Nat) (w : World) (c : Conduct) : Prop :=
  ∃ p w₁, x w = (.ok 1, w₁) ∧ w₁.pending = w.pending ++ [p] ∧
    ∀ log w', Schedule engine [p] { w₁ with pending := w.pending } log w' →
      log.map (fun e => engine.conduct e.1 e.2) = [c]

variable {engine : Engine} {f : Frame} {name source : String} {event : Value}

theorem startsOne_of_kindred {odd : String → Prop} {w u v : World} {p : Pending}
    (hd : f.depth + 1 ≤ engine.config.maxCallDepth) (hu : u.Coherent) (hf : f.id ∈ u.ids)
    (hk : Kindred odd w u) (hp : p.Awaits f w.root.globals name source event)
    (hv : Poised w [p] v) (hr : Reticent odd v (engine.runPending p v)) :
    engine.StartsOne (startAll engine f name source event [p.handler]) u (engine.conduct p v) := by
  obtain ⟨started, u₁, hall, hstarted, hlaunched⟩ :=
    startAll_launched hd name source event [p.handler] hu hf
  obtain ⟨p', rest, rfl, hhandler, hrest⟩ := List.map_eq_cons_iff.1 hstarted
  obtain rfl := List.map_eq_nil_iff.1 hrest
  have hp' := hlaunched.awaits p' List.mem_cons_self
  rw [hk.globals] at hp'
  refine ⟨p', u₁, hall, hlaunched.pending, fun log u' hlog => ?_⟩
  -- the log has one entry, in which the handler is poised as `p` is
  obtain ⟨hperm, hpoised⟩ := hlog.poised hlaunched.poised
  obtain ⟨⟨q, v'⟩, rest, rfl, hq, hrest⟩ := List.map_eq_cons_iff.1 (List.perm_singleton.1 hperm)
  obtain rfl := List.map_eq_nil_iff.1 hrest
  obtain rfl : q = p' := hq
  have hv' := hpoised q v' List.mem_cons_self
  rw [List.map_singleton, engine.conduct_eq hk hv hv' (hp.mates hp' hhandler) hhandler
    (hp'.event.trans hp.event.symm) hr]

/-- Events are dispatched to all their handlers, and none of them makes a difference to another, in
every coherent world and so in every reachable one. If forks can be made, each handler gets one, and
the instance that raised the event goes on with their number. In whatever order they then run, each
runs once, and the host is told once of each that failed and of no other. What a handler emits and
whispers, and how it fails, is the same as if it were the only one that was started, if it asks and
prompts nobody; and as if it were the only one there is, if it starts no handlers of the same event
either. If no fork can be made, no handler is started, and each is reported once, at its own
place. -/
theorem dispatch_isolates (engine : Engine) (f : Frame) (name source : String) (payload : Value)
    (w : World) (hw : w.Coherent) (hf : f.id ∈ w.ids) (hemit : engine.host.emit = true)
    (hwhisper : engine.host.whisper = true) :
    let event := Value.event name source payload
    let handlers := w.root.handlersOf name
    let run := Exec.raise engine f name source payload w
    (f.depth + 1 ≤ engine.config.maxCallDepth → ∃ started,
      run.1 = .ok handlers.length ∧ started.map (·.handler) = handlers ∧
      Launched f name source event w run.2 started ∧
      ∀ log w', Schedule engine started { run.2 with pending := w.pending } log w' →
        (log.map Prod.fst).Perm started ∧ ∀ p v, (p, v) ∈ log →
          (engine.conduct p v).Seen engine name source (engine.runPending p v).trace ∧
          (Reticent (fun _ => False) v (engine.runPending p v) →
            engine.StartsOne (startAll engine f name source event [p.handler]) w
              (engine.conduct p v)) ∧
          (Reticent (· = name) v (engine.runPending p v) →
            engine.StartsOne (Exec.raise engine f name source payload) (w.withOnly p.handler)
              (engine.conduct p v))) ∧
    (¬ f.depth + 1 ≤ engine.config.maxCallDepth → ∃ es,
      run = (.ok 0, { w with trace := w.trace ++ engine.notices name source es }) ∧
      es.map (·.position) = handlers.map (some ·.position) ∧
      ∀ e ∈ es, e.code = .resourceExhaustion) := by
  intro event handlers run
  have hwired : wired engine f = true := by simp [wired, hemit, hwhisper]
  have hrun : run = startAll engine f name source event handlers w :=
    raise_of_wired hwired name source payload w
  refine ⟨fun hd => ?_, fun hd => ?_⟩
  · obtain ⟨started, w₁, hall, hstarted, hlaunched⟩ :=
      startAll_launched hd name source event handlers hw hf
    rw [hrun, hall]
    refine ⟨started, rfl, hstarted, hlaunched, fun log w' hlog => ?_⟩
    obtain ⟨hperm, hpoised⟩ := hlog.poised hlaunched.poised
    refine ⟨hperm, fun p v hpv => ?_⟩
    have hmem : p ∈ started := hperm.mem_iff.1 (List.mem_map.2 ⟨(p, v), hpv, rfl⟩)
    have hp := hlaunched.awaits p hmem
    have hhandler : p.handler ∈ handlers := hstarted ▸ List.mem_map_of_mem hmem
    refine ⟨?_, fun hr => ?_, fun hr => ?_⟩
    · have hseen := engine.runPending_seen p v
      rw [hp.eventName, hp.source] at hseen
      exact hseen
    · exact startsOne_of_kindred hd hw hf (.refl w) hp (hpoised p v hpv) hr
    · have hk := withOnly_kindred hhandler
      have hcoherent : (w.withOnly p.handler).Coherent := hw.congr rfl (fun _ => rfl) rfl
      unfold StartsOne
      rw [raise_withOnly hwired hhandler]
      exact startsOne_of_kindred hd hcoherent hf hk hp (hpoised p v hpv) hr
  · refine ⟨handlers.map fun h => (engine.refusal f ("event:" ++ name)).withPosition h.position,
      ?_, ?_, fun e he => ?_⟩
    · rw [hrun, startAll_refused hd]
    · rw [List.map_map]
      rfl
    · obtain ⟨h, -, rfl⟩ := List.mem_map.1 he
      rfl

/-- Two handlers, of which the first fails. In the round in which they run, the host sees of both
what it should. -/
theorem dispatch_isolates_of_failing :
    let engine : Engine := {}
    let failing : EventDecl := { name := .string "tick", body := [Step.fail "broken"] }
    let emitting : EventDecl := { name := .string "tick", body := [Step.emit (.string "fine")] }
    let w := ((HostRequest.load { events := [failing, emitting] }).exec engine .root {}).2
    let run := Exec.raise engine .root "tick" "clock" .nil w
    (w.Coherent ∧ Frame.root.id ∈ w.ids ∧ engine.host.emit = true ∧ engine.host.whisper = true) ∧
      run.1 = .ok 2 ∧ run.2.pending.length = 2 ∧
      ∃ log w', Schedule engine run.2.pending { run.2 with pending := [] } log w' ∧
        ∀ p v, (p, v) ∈ log →
          (engine.conduct p v).Seen engine "tick" "clock" (engine.runPending p v).trace := by
  intro engine failing emitting w run
  have hw : w.Coherent := by
    have hreachable : w.Reachable engine := .ask _ .start List.mem_cons_self
    exact hreachable.coherent
  have hf : Frame.root.id ∈ w.ids := List.mem_cons_self
  obtain ⟨hdispatch, -⟩ := dispatch_isolates engine .root "tick" "clock" .nil w hw hf rfl rfl
  obtain ⟨started, hresult, hstarted, hlaunched, hschedule⟩ := hdispatch (by decide)
  obtain rfl : run.2.pending = started := hlaunched.pending
  obtain ⟨log, hlog, -⟩ := Schedule.of_round engine run.2.pending { run.2 with pending := [] }
  refine ⟨⟨hw, hf, rfl, rfl⟩, rfl, rfl, log, _, hlog, fun p v hpv => ?_⟩
  exact ((hschedule log _ hlog).2 p v hpv).1

/-- A handler can count the handlers of its event: it raises the event itself. It asks and prompts
nobody, but the number that it emits is not the one that it would emit if it were the only one. -/
theorem dispatch_of_counting :
    let engine : Engine := { tools := Engine.builtinTools }
    let counting : EventDecl :=
      { name := .string "tick", body := [Step.emit (.call "emit_event" [.string "tick"])] }
    let other : EventDecl := { name := .string "tick", body := [] }
    let w := ((HostRequest.load { events := [counting, other] }).exec engine .root {}).2
    let run := Exec.raise engine .root "tick" "clock" .nil w
    let v := { run.2 with pending := [] }
    w.Reachable engine ∧ ∃ p q log w',
      run.2.pending = [p, q] ∧ Schedule engine [p, q] v ((p, v) :: log) w' ∧
      Reticent (fun _ => False) v (engine.runPending p v) ∧
      ¬ engine.StartsOne (Exec.raise engine .root "tick" "clock" .nil) (w.withOnly p.handler)
        (engine.conduct p v) := by
  intro engine counting other w run v
  have hw : w.Reachable engine := .ask _ .start List.mem_cons_self
  refine ⟨hw, _, _, _, _, rfl, .first (.first (.joined _)), ⟨rfl, rfl, fun _ _ _ _ => id⟩, ?_⟩
  rintro ⟨p, w₁, hraise, hpending, hone⟩
  obtain rfl : _ = w₁ := congrArg Prod.snd hraise
  obtain ⟨rfl, -⟩ := List.cons_eq_cons.1 (hpending : [_] = [p])
  have hemitted : [[Effect.emit .host (.nat 1)]] = [[Effect.emit .host (.nat 2)]] :=
    congrArg (List.map Conduct.voice) (hone _ _ (.first (.joined _)))
  simp only [List.cons.injEq, Effect.emit.injEq, Value.nat, Value.number.injEq] at hemitted
  exact absurd hemitted.1.1.2 (by decide)

end Engine
end StepScript
