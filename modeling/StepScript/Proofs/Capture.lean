import StepScript.Proofs.Habit
import StepScript.Proofs.Outlet

/-!
# StepScript.Proofs.Capture

What the actions of an agent emit goes into the output of the turn, and nowhere else.

* `World.Diverted n` — since there were `n` captures, nothing was emitted but into later ones, and no
  handler was started that could.
* `Exec.act_diverts` — that is what actions do, with all procedures, handlers and agents that they
  reach; `Engine.Stems` — and the handlers that come of them later.
* `Exec.Says`        — the values that an instance and the procedures emit which it calls, in order,
  without those of the agents that it asks.
* `Says.captured`    — just these go into the capture of the instance.
* `Exec.agent_output_captured` — what follows for asking and for the turns of a conversation.
-/

namespace StepScript

/-- A capture that was opened when there were `n` already. -/
def Outlet.Since (n : Nat) : Outlet → Prop
  | .host => False
  | .capture serial => n ≤ serial

theorem Outlet.Since.not_open {n : Nat} {o : Outlet} (h : o.Since n) : ¬ o.Open n := by
  cases o with
  | host => exact h.elim
  | capture serial => exact Nat.not_lt.2 h

/-! ## Emissions that are diverted -/

namespace World

/-- Since there were `n` captures, what was emitted went into later ones, and so will what the
handlers emit that were started. -/
structure Diverted (n : Nat) (w w' : World) : Prop where
  since : n ≤ w.captures
  captures : w.captures ≤ w'.captures
  emitted : ∃ new, w'.trace.toList = w.trace.toList ++ new ∧ ∀ o v, .emit o v ∈ new → o.Since n
  started : ∃ new, w'.pending = w.pending ++ new ∧ ∀ p ∈ new, p.frame.outlet.Since n

namespace Diverted

variable {n : Nat} {w w' w'' : World}

theorem of_same (hn : n ≤ w.captures) (hc : w.captures ≤ w'.captures) (ht : w'.trace = w.trace)
    (hp : w'.pending = w.pending) : Diverted n w w' :=
  ⟨hn, hc, ⟨[], by simp [ht], by simp⟩, ⟨[], by simp [hp], by simp⟩⟩

theorem target (h : Diverted n w w') : Diverted n w' w' :=
  .of_same (Nat.le_trans h.since h.captures) (Nat.le_refl _) rfl rfl

theorem trans (h : Diverted n w w') (h' : Diverted n w' w'') : Diverted n w w'' := by
  obtain ⟨hn, hc, ⟨new, hnew, hsince⟩, ⟨started, hstarted, hwait⟩⟩ := h
  obtain ⟨-, hc', ⟨new', hnew', hsince'⟩, ⟨started', hstarted', hwait'⟩⟩ := h'
  refine ⟨hn, Nat.le_trans hc hc', ⟨new ++ new', ?_, ?_⟩, ⟨started ++ started', ?_, ?_⟩⟩
  · rw [hnew', hnew, List.append_assoc]
  · intro o v hmem
    rcases List.mem_append.1 hmem with hmem | hmem
    · exact hsince o v hmem
    · exact hsince' o v hmem
  · rw [hstarted', hstarted, List.append_assoc]
  · intro p hmem
    rcases List.mem_append.1 hmem with hmem | hmem
    · exact hwait p hmem
    · exact hwait' p hmem

end Diverted
end World

namespace Exec

open World

variable {engine : Engine} {enter : Enter} {f : Frame} {n : Nat} {α : Type}

abbrev Diverts (n : Nat) : ∀ α : Type, (Unit → Exec α) → Prop := Keeps (Diverted n)

theorem Diverts.closed : Closed (fun _ => True) (Diverts n) := Keeps.closed .trans .target

theorem Diverts.of_same {X : Unit → Exec α}
    (h : ∀ w, (X () w).2.captures = w.captures ∧ (X () w).2.trace = w.trace ∧
      (X () w).2.pending = w.pending) : Diverts n α X := by
  intro w hw
  obtain ⟨hc, ht, hp⟩ := h w
  exact .of_same hw.since (Nat.le_of_eq hc.symm) ht hp

theorem note_diverts {e : Effect} (h : ∀ o v, e = .emit o v → o.Since n) :
    Diverts n Unit fun _ => note e := by
  intro w hw
  refine ⟨hw.since, Nat.le_refl _, ⟨[e], Array.toList_push, fun o v hmem => ?_⟩, hw.started⟩
  exact h o v (List.mem_singleton.1 hmem).symm

theorem write_diverts (name : String) (v : Value) :
    Diverts n Unit fun _ => write engine f name v := by
  refine .of_same fun w => ?_
  rcases write_world engine f name v w with h | ⟨-, h⟩ | h <;> rw [h] <;> exact ⟨rfl, rfl, rfl⟩

theorem start_diverts (hf : f.outlet.Since n) (name source : String) (event : Value)
    (h : EventHandler) : Diverts n Nat fun _ => start engine f name source event h := by
  intro w hw
  dsimp only
  by_cases hd : f.depth + 1 ≤ engine.config.maxCallDepth
  · rw [start_of_depth hd]
    refine ⟨hw.since, Nat.le_refl _, hw.emitted, ⟨[_], rfl, fun p hmem => ?_⟩⟩
    rw [List.mem_singleton.1 hmem]
    exact hf
  · rw [start_of_refusal hd]
    refine ⟨hw.since, Nat.le_refl _, ⟨_, Array.toList_appendList, fun o v hmem => ?_⟩, hw.started⟩
    obtain ⟨e, he⟩ := Engine.mem_notices hmem
    cases he

theorem invoke_diverts (hf : f.outlet.Since n) (name : String) (args : List Value) :
    Diverts n Value fun _ => invoke engine f name args :=
  invoke_closed Diverts.closed (raise_closed Diverts.closed (fun _ => rfl) (start_diverts hf))
    (fun _ _ => note_diverts nofun) (fun _ => note_diverts nofun) name args

/-- Actions emit into the next capture, whoever asked for them. -/
theorem act_diverts
    (henter : ∀ a : Activation, a.outlet.Since n → Diverts n Outcome fun _ => enter f a)
    (t : Talk) (turn : Nat) (reply : Envelope) :
    Diverts n String fun _ => act engine enter f t turn reply := by
  intro w hw
  dsimp only
  rcases act_cases engine enter f t turn reply w with ⟨e, hact, -⟩ | ⟨_, body, -, -, hact⟩
  · rw [hact]
    exact hw
  · have hopened : Diverted n w { w with captures := w.captures + 1 } :=
      .of_same hw.since (Nat.le_succ _) rfl rfl
    rw [hact]
    exact hopened.trans (henter (actions t turn w.captures body) hw.since _ hopened.target)

theorem diverted_habit : Habit (fun f => f.outlet.Since n) (Diverted n) engine where
  trans := .trans
  target := .target
  instances _ hw := .of_same hw.since (Nat.le_refl _) rfl rfl
  procedure _ _ _ hf := hf
  write name v _ := write_diverts name v
  invoke name args hf := invoke_diverts hf name args
  emit _ hf := note_diverts (by rintro _ _ ⟨⟩; exact hf)
  whisper _ _ := note_diverts nofun
  promptUser := promptUser_closed Diverts.closed engine (fun _ => note_diverts nofun)
    (fun _ => Diverts.of_same fun _ => ⟨rfl, rfl, rfl⟩) fun _ _ _ _ _ _ => trivial
  recover _ _ := note_diverts nofun
  clear _ := note_diverts nofun
  chat _ _ _ := Diverts.of_same fun _ => ⟨rfl, rfl, rfl⟩
  act _ henter := act_diverts fun a ha => henter a fun _ => ha
  openConversation := Diverts.of_same fun _ => ⟨rfl, rfl, rfl⟩

section Asking

variable (engine : Engine) (levels : Nat) (f : Frame)

theorem actions_divert (t : Talk) (turn : Nat) (reply : Envelope) :
    Diverts n String fun _ => act engine (Exec.enter engine levels) f t turn reply :=
  act_diverts (fun a ha => diverted_habit.enter levels f a fun _ => ha) t turn reply

/-- An agent that is asked emits nothing but into captures of its own. -/
theorem ask_diverts (agentModel prompt : Value) (p : Position) :
    Diverts n Value fun _ => ask engine (Exec.enter engine levels) f agentModel prompt p := by
  have htalks : Talks (Diverts n) engine (fun _ => Exec.enter engine levels) (fun _ => f) :=
    { chat := fun _ _ _ => .of_same fun _ => ⟨rfl, rfl, rfl⟩
      act := actions_divert engine levels f
      openConversation := .of_same fun _ => ⟨rfl, rfl, rfl⟩ }
  exact htalks.ask Diverts.closed agentModel prompt p

end Asking

end Exec

/-! ## Handlers that come of actions -/

namespace Engine

open World Exec

/-- The handlers that were started, those that they start when they are run, and so on. They may be run
at any time when there are `n` captures. -/
inductive Stems (engine : Engine) (n : Nat) (started : List Pending) : Pending → Prop where
  | started {p : Pending} : p ∈ started → Stems engine n started p
  | next {p q : Pending} {u : World} {new : List Pending} : Stems engine n started p →
      n ≤ u.captures → (engine.runPending p u).pending = u.pending ++ new → q ∈ new →
      Stems engine n started q

variable {engine : Engine} {n : Nat}

theorem runPending_diverts {p : Pending} (hp : p.frame.outlet.Since n) {u : World}
    (hu : n ≤ u.captures) : Diverted n { u with trace := #[] } (engine.runPending p u) := by
  have hbody : Diverts n Outcome fun _ => engine.handlerBody p := diverted_habit.handlerBody hp
  have hdone := hbody { u with trace := #[] } (.of_same hu (Nat.le_refl _) rfl rfl)
  rw [runPending_eq]
  refine hdone.trans ⟨hdone.target.since, Nat.le_refl _, ⟨_, Array.toList_appendList, ?_⟩,
    ⟨[], (List.append_nil _).symm, by simp⟩⟩
  intro o v hmem
  obtain ⟨e, he⟩ := mem_notices hmem
  cases he

theorem Stems.since {started : List Pending} (hstarted : ∀ p ∈ started, p.frame.outlet.Since n)
    {p : Pending} (h : engine.Stems n started p) : p.frame.outlet.Since n := by
  induction h with
  | started hp => exact hstarted _ hp
  | next _ hu hnew hq ih =>
    obtain ⟨new, hpending, hsince⟩ := (runPending_diverts ih hu).started
    rw [hnew] at hpending
    exact hsince _ (List.append_cancel_left hpending ▸ hq)

end Engine

/-! ## What an instance says -/

namespace World

structure Silent (w w' : World) : Prop where
  captures : w'.captures = w.captures
  trace : ∃ new, w'.trace.toList = w.trace.toList ++ new ∧ ∀ o v, .emit o v ∉ new

namespace Silent

variable {w w' w'' : World}

theorem of_same (hc : w'.captures = w.captures) (ht : w'.trace = w.trace) : Silent w w' :=
  ⟨hc, [], by simp [ht], by simp⟩

theorem trans (h : Silent w w') (h' : Silent w' w'') : Silent w w'' := by
  obtain ⟨hc, new, hnew, hnone⟩ := h
  obtain ⟨hc', new', hnew', hnone'⟩ := h'
  refine ⟨hc'.trans hc, new ++ new', by rw [hnew', hnew, List.append_assoc], fun o v hmem => ?_⟩
  rcases List.mem_append.1 hmem with hmem | hmem
  · exact hnone o v hmem
  · exact hnone' o v hmem

end Silent
end World

namespace Exec

open World

/-- The values that are emitted when the instance `f`, with `levels` below it, runs a computation:
by itself and by the procedures that it calls. The actions of agents that it asks are their own. -/
inductive Says (engine : Engine) : Nat → Frame → {α : Type} → Exec α → World → List Value → Prop where
  | silent {levels : Nat} {f : Frame} {α : Type} {x : Exec α} {w : World} :
      Silent w (x w).2 → Says engine levels f x w []
  | emit {levels : Nat} {f : Frame} {v : Value} {w : World} :
      Says engine levels f (Exec.emit engine f v) w [v]
  | ok {levels : Nat} {f : Frame} {α β : Type} {x : Exec α} {k : α → Exec β} {w w' : World} {a : α}
      {vs vs' : List Value} : x w = (.ok a, w') → Says engine levels f x w vs →
      Says engine levels f (k a) w' vs' → Says engine levels f (x >>= k) w (vs ++ vs')
  | error {levels : Nat} {f : Frame} {α β : Type} {x : Exec α} {k : α → Exec β} {w w' : World}
      {i : Interrupt} {vs : List Value} : x w = (.error i, w') → Says engine levels f x w vs →
      Says engine levels f (x >>= k) w vs
  | attempt {levels : Nat} {f : Frame} {α : Type} {x : Exec α} {w : World} {vs : List Value} :
      Says engine levels f x w vs → Says engine levels f (Exec.attempt x) w vs
  | procedure {levels : Nat} {f : Frame} {a : Activation} {w : World} {vs : List Value} :
      a.outlet = f.outlet →
      Says engine levels (w.nextFrame f a.label a.body.handler a.outlet)
        (run engine (Exec.enter engine levels) (w.nextFrame f a.label a.body.handler a.outlet) {}
          a.body.steps) (entryWorld f a w) vs →
      Says engine (levels + 1) f (Exec.enter engine (levels + 1) f a) w vs
  | ask {levels : Nat} {f : Frame} {agentModel prompt : Value} {p : Position} {w : World} :
      Says engine levels f (Exec.ask engine (Exec.enter engine levels) f agentModel prompt p) w []

variable {engine : Engine} {levels : Nat} {f : Frame} {α : Type}

/-! ### Computations that say nothing -/

abbrev Hushed : ∀ α : Type, (Unit → Exec α) → Prop := Keeps Silent

theorem Hushed.closed : Closed (fun _ => True) Hushed :=
  Keeps.closed .trans fun _ => .of_same rfl rfl

theorem Hushed.of_same {X : Unit → Exec α}
    (h : ∀ w, (X () w).2.captures = w.captures ∧ (X () w).2.trace = w.trace) : Hushed α X :=
  fun w _ => .of_same (h w).1 (h w).2

theorem note_hushed {e : Effect} (h : ∀ o v, e ≠ .emit o v) : Hushed Unit fun _ => note e :=
  fun _ _ => ⟨rfl, [e], Array.toList_push, fun o v hmem => h o v (List.mem_singleton.1 hmem).symm⟩

theorem write_hushed (name : String) (v : Value) :
    Hushed Unit fun _ => write engine f name v := by
  refine .of_same fun w => ?_
  rcases write_world engine f name v w with h | ⟨-, h⟩ | h <;> rw [h] <;> exact ⟨rfl, rfl⟩

theorem raise_hushed (name source : String) (payload : Value) :
    Hushed Nat fun _ => raise engine f name source payload := by
  refine raise_closed Hushed.closed (fun _ => rfl) ?_ name source payload
  exact start_closed Hushed.closed engine f (fun _ _ _ => note_hushed nofun)
    (fun _ _ _ => .of_same fun _ => ⟨rfl, rfl⟩) fun _ => .of_same fun _ => ⟨rfl, rfl⟩

/-- Tools emit nothing. -/
theorem invoke_hushed (name : String) (args : List Value) :
    Hushed Value fun _ => invoke engine f name args :=
  invoke_closed Hushed.closed raise_hushed (fun _ _ => note_hushed nofun)
    (fun _ => note_hushed nofun) name args

/-! ### Whatever runs says something -/

/-- It can be told what the computation says, from whatever world. -/
def Speaks (engine : Engine) (levels : Nat) (f : Frame) (α : Type) (X : Unit → Exec α) : Prop :=
  ∀ w, ∃ vs, Says engine levels f (X ()) w vs

namespace Speaks

theorem of_hushed {X : Unit → Exec α} (h : Hushed α X) : Speaks engine levels f α X :=
  fun w => ⟨[], .silent (h w (.of_same rfl rfl))⟩

theorem bind {β : Type} {X : Unit → Exec α} {K : Unit → α → Exec β}
    (hX : Speaks engine levels f α X) (hK : ∀ a, Speaks engine levels f β fun i => K i a) :
    Speaks engine levels f β fun i => X i >>= K i := by
  intro w
  obtain ⟨vs, hvs⟩ := hX w
  rcases hx : X () w with ⟨r, w'⟩
  cases r with
  | error i => exact ⟨vs, .error hx hvs⟩
  | ok a =>
    obtain ⟨vs', hvs'⟩ := hK a w'
    exact ⟨vs ++ vs', .ok hx hvs hvs'⟩

theorem closed : Closed (fun _ => True) (Speaks engine levels f) where
  pure a := of_hushed (Hushed.closed.pure a)
  bind := bind
  get hK := bind (of_hushed (.of_same fun _ => ⟨rfl, rfl⟩)) hK
  attempt {α β X K} hX hok herror := by
    refine bind (fun w => ?_) fun r => ?_
    · obtain ⟨vs, hvs⟩ := hX w
      exact ⟨vs, .attempt hvs⟩
    · cases r with
      | ok a => exact hok a
      | error e => exact herror e trivial
  fail _ := of_hushed (Hushed.closed.fail trivial)
  crash text _ := of_hushed (Hushed.closed.crash text trivial)
  unwired _ := trivial
  plain _ := trivial
  placed _ _ := trivial

end Speaks

theorem run_speaks
    (henter : ∀ a : Activation, a.outlet = f.outlet →
      Speaks engine levels f Outcome fun _ => Exec.enter engine levels f a)
    (mode : Mode) (steps : List Step) :
    Speaks engine levels f Outcome fun _ => run engine (Exec.enter engine levels) f mode steps := by
  have hP : Closed (fun _ => True) (Speaks engine levels f) := Speaks.closed
  have hcallees : Callees (Speaks engine levels f) engine (fun _ => Exec.enter engine levels)
      (fun _ => f) f.outlet :=
    ⟨henter, fun name args => .of_hushed (invoke_hushed name args), fun _ => rfl⟩
  have hnote {e : Effect} (h : ∀ o v, e ≠ .emit o v) :
      Speaks engine levels f Unit fun _ => note e := .of_hushed (note_hushed h)
  have hprimitives : Primitives (Speaks engine levels f) engine (fun _ => Exec.enter engine levels)
      (fun _ => f) :=
    { read := read_closed hP engine f
      call := hcallees.call hP.toSequenced hP.lookups
      write := fun name v => .of_hushed (write_hushed name v)
      ask := fun _ _ _ _ => ⟨[], .ask⟩
      emit := fun v _ => ⟨[v], .emit⟩
      whisper := whisper_closed hP engine fun _ _ => hnote nofun
      promptUser := promptUser_closed hP engine (fun _ => hnote nofun)
        (fun _ => .of_hushed (.of_same fun _ => ⟨rfl, rfl⟩)) fun _ _ _ _ _ _ => trivial
      clear := hnote nofun }
  exact run_closed hP.toSequenced hprimitives (fun _ => rfl) (fun _ => hnote nofun)
    (fun _ _ => .of_hushed (.of_same fun _ => ⟨rfl, rfl⟩)) ⟨trivial, trivial⟩ (fun _ _ => trivial)
    (fun _ _ => trivial) steps

/-- The induction is on the levels below the instance. -/
theorem enter_speaks (levels : Nat) : ∀ (f : Frame) (a : Activation), a.outlet = f.outlet →
    Speaks engine levels f Outcome fun _ => Exec.enter engine levels f a := by
  induction levels with
  | zero => intro f a _; exact Speaks.closed.fail trivial
  | succ levels ih =>
    intro f a ha w
    obtain ⟨vs, hvs⟩ := run_speaks (ih (w.nextFrame f a.label a.body.handler a.outlet)) {}
      a.body.steps (entryWorld f a w)
    exact ⟨vs, .procedure ha hvs⟩

/-! ## What is captured -/

theorem captured_append (serial : Nat) (xs ys : List Effect) :
    captured serial (xs ++ ys) = captured serial xs ++ captured serial ys :=
  List.filterMap_append

theorem captured_eq_nil {serial : Nat} {effects : List Effect}
    (h : ∀ v, .emit (.capture serial) v ∉ effects) : captured serial effects = [] := by
  refine List.filterMap_eq_nil_iff.2 fun effect hmem => ?_
  cases effect with
  | emit outlet v =>
    dsimp only
    split
    · next houtlet => exact absurd (houtlet ▸ hmem) (h v)
    · rfl
  | whisper _ _ | prompt _ | report _ _ _ | consult _ _ | enter _ | recover _ _ | clear _ => rfl

/-- Just what the instance says goes into its capture. -/
theorem Says.captured {α : Type} {x : Exec α} {w : World} {vs : List Value}
    (h : Says engine levels f x w vs) : ∀ {serial : Nat}, f.outlet = .capture serial →
      serial < w.captures → w.captures ≤ (x w).2.captures ∧
        ∃ new, (x w).2.trace.toList = w.trace.toList ++ new ∧ captured serial new = vs := by
  induction h with
  | silent hsilent =>
    intro serial _ _
    obtain ⟨hcaptures, new, hnew, hnone⟩ := hsilent
    exact ⟨Nat.le_of_eq hcaptures.symm, new, hnew, captured_eq_nil fun v => hnone _ v⟩
  | @emit levels f v w =>
    intro serial hf _
    have hemit : Exec.emit engine f v w =
        (.ok (), { w with trace := w.trace.push (.emit (.capture serial) v) }) := by
      simp [Exec.emit, hf]
    rw [hemit]
    exact ⟨Nat.le_refl _, [_], Array.toList_push, by simp [StepScript.captured]⟩
  | ok hx _ _ ih ih' =>
    intro serial hf hserial
    obtain ⟨hcaptures, new, hnew, hvs⟩ := ih hf hserial
    rw [hx] at hcaptures hnew
    obtain ⟨hcaptures', new', hnew', hvs'⟩ := ih' hf (Nat.lt_of_lt_of_le hserial hcaptures)
    rw [bind_ok hx]
    refine ⟨Nat.le_trans hcaptures hcaptures', new ++ new', ?_, ?_⟩
    · rw [hnew', hnew, List.append_assoc]
    · rw [captured_append, hvs, hvs']
  | error hx _ ih =>
    intro serial hf hserial
    rw [bind_error hx]
    rw [hx] at ih
    exact ih hf hserial
  | attempt _ ih =>
    intro serial hf hserial
    rw [attempt_world]
    exact ih hf hserial
  | procedure ha _ ih =>
    intro serial hf hserial
    rw [enter_world]
    have hrun := ih (ha.trans hf) (by rw [entryWorld_captures]; exact hserial)
    rw [entryWorld_captures, entryWorld_trace] at hrun
    exact hrun
  | @ask levels f agentModel prompt p w =>
    intro serial _ hserial
    obtain ⟨-, hcaptures, ⟨new, hnew, hsince⟩, -⟩ :=
      ask_diverts engine levels f agentModel prompt p w
        (.of_same (Nat.le_refl w.captures) (Nat.le_refl _) rfl rfl)
    refine ⟨hcaptures, new, hnew, captured_eq_nil fun v hmem => ?_⟩
    exact (hsince _ v hmem).not_open hserial

/-- What was captured when a body was entered whose outlet is a capture with nothing in it. -/
theorem enter_captured {a : Activation} {serial : Nat} {w : World} {vs : List Value}
    (ha : a.outlet = .capture serial) (hserial : serial < w.captures)
    (hempty : captured serial w.trace.toList = [])
    (hvs : Says engine levels (w.nextFrame f a.label a.body.handler a.outlet)
      (run engine (Exec.enter engine levels) (w.nextFrame f a.label a.body.handler a.outlet) {}
        a.body.steps) (entryWorld f a w) vs) :
    capturedLines serial (Exec.enter engine (levels + 1) f a w).2.trace = vs.map Value.display := by
  obtain ⟨-, new, hnew, hcaptured⟩ := hvs.captured ha (by rw [entryWorld_captures]; exact hserial)
  rw [entryWorld_trace] at hnew
  rw [capturedLines, enter_world]
  dsimp only [release]
  rw [hnew, captured_append, hempty, hcaptured, List.nil_append]

theorem eq_of_map_ok {ε β : Type} {x : Except ε α} {b b' : β}
    (h : x.map (fun _ => b) = .ok b') : b = b' := by
  cases x with
  | error e => cases h
  | ok a => exact Except.ok.inj h

/-- The output of a turn is what the fork of its actions says. -/
theorem act_output {t : Talk} {turn : Nat} {reply : Envelope} {w : World} (hw : Underway f w)
    {output : String} (h : (act engine (Exec.enter engine levels) f t turn reply w).1 = .ok output) :
    ∃ below steps body, levels = below + 1 ∧
      engine.grammar reply.script = .ok steps ∧ Body.ofSteps steps = .ok body ∧
      let opened : World := { w with captures := w.captures + 1 }
      let a := actions t turn w.captures body
      let fork := opened.nextFrame f a.label a.body.handler a.outlet
      ∀ vs, Says engine below fork (run engine (Exec.enter engine below) fork {} body.steps)
        (entryWorld f a opened) vs → output = "\n".intercalate (vs.map Value.display) := by
  rcases act_cases engine (Exec.enter engine levels) f t turn reply w with
    ⟨e, hact, -⟩ | ⟨steps, body, hsteps, hbody, hact⟩
  · rw [hact] at h
    cases h
  · rw [hact] at h
    have houtput := eq_of_map_ok h
    cases levels with
    | zero => cases h
    | succ below =>
      refine ⟨below, steps, body, rfl, hsteps, hbody, fun vs hvs => ?_⟩
      have hempty : captured w.captures w.trace.toList = [] := by
        refine captured_eq_nil fun v hmem => ?_
        exact Nat.lt_irrefl _ (hw.emitted _ v (Array.mem_toList_iff.1 hmem))
      have hlines := enter_captured (w := { w with captures := w.captures + 1 }) rfl
        (Nat.lt_succ_self _) hempty hvs
      rw [← houtput, hlines]

end Exec

/-- From `w` to `w'`, nothing is emitted to the outlet of the instance, and nothing will be by the
handlers that were started meanwhile and by those that come of them, whenever they are run. -/
def Engine.Unheard (engine : Engine) (f : Frame) (w w' : World) : Prop :=
  (∃ new, w'.trace.toList = w.trace.toList ++ new ∧ ∀ v, .emit f.outlet v ∉ new) ∧
  ∃ started, w'.pending = w.pending ++ started ∧
    ∀ p, engine.Stems w.captures started p → ∀ u : World, w.captures ≤ u.captures →
      ∀ v, .emit f.outlet v ∉ (engine.runPending p u).trace

theorem World.Diverted.unheard {engine : Engine} {f : Frame} {w w' : World}
    (h : World.Diverted w.captures w w') (hf : f.outlet.Open w.captures) :
    engine.Unheard f w w' := by
  obtain ⟨-, -, ⟨new, hnew, hsince⟩, ⟨started, hstarted, hwait⟩⟩ := h
  refine ⟨⟨new, hnew, fun v hmem => (hsince _ v hmem).not_open hf⟩,
    ⟨started, hstarted, fun p hp u hu v hmem => ?_⟩⟩
  obtain ⟨new', hnew', hsince'⟩ := (Engine.runPending_diverts (hp.since hwait) hu).emitted
  rw [← Array.mem_toList_iff, hnew'] at hmem
  exact (hsince' _ v hmem).not_open hf

namespace Exec

open World

/-- Agents are heard in the output of their turns and nowhere else. While an instance asks, and in each
turn, the actions of the agent, with the procedures, handlers and agents that they reach, emit nothing
to the outlet of the instance; nor do the handlers that come of them. Whispers go to the host all the
same. The output of a turn is what the fork of the actions says, a line for each value. -/
theorem agent_output_captured (engine : Engine) (levels : Nat) (f : Frame) (w : World)
    (hw : Underway f w) :
    (∀ agentModel prompt p, engine.Unheard f w
      (ask engine (Exec.enter engine levels) f agentModel prompt p w).2) ∧
    (engine.host.whisper = true → ∀ handle data (u : World), whisper engine handle data u =
      (.ok (), { u with trace := u.trace.push (.whisper handle data) })) ∧
    ∀ (t : Talk) (turn : Nat) (reply : Envelope),
      let turned := act engine (Exec.enter engine levels) f t turn reply w
      engine.Unheard f w turned.2 ∧
      ∀ output, turned.1 = .ok output → ∃ below steps body, levels = below + 1 ∧
        engine.grammar reply.script = .ok steps ∧ Body.ofSteps steps = .ok body ∧
        let opened : World := { w with captures := w.captures + 1 }
        let a := actions t turn w.captures body
        let fork := opened.nextFrame f a.label a.body.handler a.outlet
        let said := Says engine below fork (run engine (Exec.enter engine below) fork {} body.steps)
          (entryWorld f a opened)
        (∃ vs, said vs) ∧ ∀ vs, said vs → output = "\n".intercalate (vs.map Value.display) := by
  have hstart : Diverted w.captures w w := .of_same (Nat.le_refl _) (Nat.le_refl _) rfl rfl
  refine ⟨fun agentModel prompt p => ?_, fun hhost handle data u => ?_,
    fun t turn reply => ⟨?_, fun output houtput => ?_⟩⟩
  · exact (ask_diverts engine levels f agentModel prompt p w hstart).unheard hw.outlet
  · simp [whisper, hhost]
  · exact (actions_divert engine levels f t turn reply w hstart).unheard hw.outlet
  · obtain ⟨below, steps, body, hlevels, hsteps, hbody, hsaid⟩ := act_output hw houtput
    exact ⟨below, steps, body, hlevels, hsteps, hbody,
      run_speaks (enter_speaks below _) {} body.steps _, hsaid⟩

/-- Actions that ask another agent between two emissions. What that one emits is in a capture of its
own. -/
theorem agent_output_captured_of_nested :
    let inner := [Step.emit (.string "hidden")]
    let outer :=
      [Step.emit (.string "first"), Step.ask "helper" .nil "reply", Step.emit (.string "last")]
    let engine : Engine := { grammar := fun script => .ok (if script = "" then inner else outer) }
    let agent : Provider := .scripted "agent" [.ok "\x7b\x7d"]
    let model : AgentModel := { name := "helper", model := "m" }
    let w : World :=
      { models := Table.ofList [("helper", model)]
        providers :=
          { providers := Table.ofList [("agent", ⟨0, agent⟩)], primary := some "agent" } }
    let t : Talk :=
      { model := model, provider := ⟨0, agent⟩, apiKey := "", prompt := Value.toJson .nil,
        conversation := .ask 0, position := .unknown }
    let turned := act engine (Exec.enter engine 2) .root t 1 { actions := .string "outer" } w
    Underway .root w ∧ engine.Unheard .root w turned.2 ∧
      capturedLines 1 turned.2.trace = ["hidden"] ∧ turned.1.toOption = some "first\nlast" ∧
      ∃ vs : List Value, "first\nlast" = "\n".intercalate (vs.map Value.display) := by
  intro inner outer engine agent model w t turned
  have hreachable : w.Reachable engine := .tend .start (.administer _ _ _ _)
  have hw : Underway .root w := .of_reachable hreachable List.mem_cons_self
  have houtput : turned.1.toOption = some "first\nlast" := by
    dsimp only [turned, t, w, model, agent, engine, outer, inner]
    decide +kernel
  have hnested : capturedLines 1 turned.2.trace = ["hidden"] := by
    dsimp only [turned, t, w, model, agent, engine, outer, inner]
    decide +kernel
  obtain ⟨-, -, hturns⟩ := agent_output_captured engine 2 .root w hw
  obtain ⟨hunheard, hsaid⟩ := hturns t 1 { actions := .string "outer" }
  refine ⟨hw, hunheard, hnested, houtput, ?_⟩
  cases hturned : turned.1 with
  | error i =>
    rw [hturned] at houtput
    cases houtput
  | ok output =>
    rw [hturned] at houtput
    obtain ⟨_, _, _, -, -, -, ⟨vs, hvs⟩, hlines⟩ := hsaid output hturned
    exact ⟨vs, (Option.some.inj houtput).symm.trans (hlines vs hvs)⟩

end Exec
end StepScript
