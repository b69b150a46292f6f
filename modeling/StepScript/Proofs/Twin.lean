import StepScript.Proofs.Conversation
import StepScript.Proofs.Habit
import StepScript.Proofs.Starting

/-!
# StepScript.Proofs.Twin

The same script in two forks of two worlds.

* `voice`            — what others hear of a script: its emissions and whispers.
* `World.Reticent`   — nobody was asked or prompted meanwhile, and no handler was started of an
  event whose handlers are not the same in both worlds.
* `World.Twin`       — two worlds that two forks cannot tell apart.
* `Exec.Twinned`     — computations of two forks that end alike, as long as the first is reticent.
* `Exec.enter_twinned`, `Exec.handlerBody_twinned` — bodies in forks and handlers are such.
-/

namespace StepScript

/-- What others hear of a script. -/
def Effect.voiced : Effect → Bool
  | .emit .. | .whisper .. => true
  | _ => false

def voice (trace : Array Effect) : List Effect := trace.toList.filter Effect.voiced

theorem voice_push (trace : Array Effect) (e : Effect) :
    voice (trace.push e) = voice trace ++ [e].filter Effect.voiced := by
  simp only [voice, Array.toList_push, List.filter_append]

theorem voice_notices (trace : Array Effect) (engine : Engine) (event source : String)
    (es : List RuntimeError) : voice (trace ++ engine.notices event source es) = voice trace := by
  have hsilent : (engine.notices event source es).filter Effect.voiced = [] := by
    unfold Engine.notices
    split
    · simp [List.filter_eq_nil_iff, Effect.voiced]
    · rfl
  simp only [voice, Array.toList_appendList, List.filter_append, hsilent, List.append_nil]

/-! ## Worlds that go on -/

namespace World

/-- Calls and prompts are counted, and started handlers wait behind the others. -/
structure Advanced (w w' : World) : Prop where
  calls : w.calls.size ≤ w'.calls.size
  prompts : w.prompts ≤ w'.prompts
  pending : ∃ new, w'.pending = w.pending ++ new

/-- No agent was asked, nobody was prompted, and no handler of an odd event was started. -/
structure Reticent (odd : String → Prop) (w w' : World) : Prop where
  calls : w'.calls.size = w.calls.size
  prompts : w'.prompts = w.prompts
  pending : ∀ new, w'.pending = w.pending ++ new → ∀ p ∈ new, ¬ odd p.eventName

namespace Advanced

variable {w w' w'' : World}

theorem of_same (hcalls : w'.calls = w.calls) (hprompts : w'.prompts = w.prompts)
    (hpending : w'.pending = w.pending) : Advanced w w' :=
  ⟨by simp [hcalls], Nat.le_of_eq hprompts.symm, [], by simp [hpending]⟩

theorem trans (h : Advanced w w') (h' : Advanced w' w'') : Advanced w w'' := by
  obtain ⟨new, hnew⟩ := h.pending
  obtain ⟨new', hnew'⟩ := h'.pending
  refine ⟨Nat.le_trans h.calls h'.calls, Nat.le_trans h.prompts h'.prompts, new ++ new', ?_⟩
  rw [hnew', hnew, List.append_assoc]

/-- Who was reticent all the time was so in each part of it. -/
theorem reticent {odd : String → Prop} (h : Advanced w w') (h' : Advanced w' w'')
    (hr : Reticent odd w w'') : Reticent odd w w' ∧ Reticent odd w' w'' := by
  obtain ⟨new, hnew⟩ := h.pending
  obtain ⟨new', hnew'⟩ := h'.pending
  have hall := hr.pending (new ++ new') (by rw [hnew', hnew, List.append_assoc])
  have hcalls := hr.calls
  have hprompts := hr.prompts
  have h₁ := h.calls
  have h₂ := h'.calls
  have h₃ := h.prompts
  have h₄ := h'.prompts
  refine ⟨⟨by omega, by omega, fun some hsome p hp => ?_⟩,
    ⟨by omega, by omega, fun some hsome p hp => ?_⟩⟩
  · rw [hnew, List.append_cancel_left_eq] at hsome
    exact hall p (List.mem_append_left _ (hsome ▸ hp))
  · rw [hnew', List.append_cancel_left_eq] at hsome
    exact hall p (List.mem_append_right _ (hsome ▸ hp))

end Advanced
end World

namespace Exec

open World

section Advancing

variable {engine : Engine} {enter : Enter} {f : Frame} {α : Type}

abbrev Advances : ∀ α : Type, (Unit → Exec α) → Prop := Keeps Advanced

theorem Advances.closed : Closed (fun _ => True) Advances :=
  Keeps.closed .trans fun _ => .of_same rfl rfl rfl

theorem Advances.of_same {X : Unit → Exec α} (h : ∀ w, (X () w).2.calls = w.calls ∧
    (X () w).2.prompts = w.prompts ∧ (X () w).2.pending = w.pending) : Advances α X :=
  fun w _ => .of_same (h w).1 (h w).2.1 (h w).2.2

theorem note_advances (e : Effect) : Advances Unit fun _ => note e :=
  .of_same fun _ => ⟨rfl, rfl, rfl⟩

theorem bindLocal_advances (name : String) (v : Value) :
    Advances Unit fun _ => bindLocal f name v :=
  .of_same fun _ => ⟨rfl, rfl, rfl⟩

theorem write_advances (name : String) (v : Value) :
    Advances Unit fun _ => write engine f name v := by
  refine .of_same fun w => ?_
  rcases write_world engine f name v w with h | ⟨-, h⟩ | h <;> rw [h] <;> exact ⟨rfl, rfl, rfl⟩

theorem start_advances (name source : String) (event : Value) (h : EventHandler) :
    Advances Nat fun _ => start engine f name source event h := by
  intro w _
  rcases start_world engine f name source event h w with ⟨-, hstart⟩ | ⟨trace, hstart⟩
  · rw [hstart]
    exact ⟨Nat.le_refl _, Nat.le_refl _, [_], rfl⟩
  · rw [hstart]
    exact .of_same rfl rfl rfl

theorem chat_advances (r : Registration) (c : ChatContext) (q : ChatRequest) :
    Advances (Except ProviderError ChatReply) fun _ => chat r c q := by
  intro w _
  refine ⟨?_, Nat.le_refl _, [], (List.append_nil _).symm⟩
  show w.calls.size ≤ (w.calls.push _).size
  rw [Array.size_push]
  exact Nat.le_succ _

/-- Without a prompter a prompt fails at once; otherwise it is counted. -/
theorem promptUser_cases (engine : Engine) (text : String) :
    (∀ w, promptUser engine text w = (.error (.failed Fault.noPrompter.error), w)) ∨
    ∀ w, ∃ trace, (promptUser engine text w).2 =
      { w with trace := trace, prompts := w.prompts + 1 } := by
  cases hp : engine.host.prompter with
  | none =>
    refine .inl fun w => ?_
    simp only [promptUser, hp]
    rfl
  | some prompter =>
    refine .inr fun w => ⟨w.trace.push (.prompt text), ?_⟩
    simp only [promptUser, hp, bind_apply, note_apply, get_apply, modify_apply]
    cases prompter w.prompts text <;> rfl

theorem promptUser_advances (text : String) : Advances Value fun _ => promptUser engine text := by
  intro w hw
  rcases promptUser_cases engine text with h | h
  · simp only [h]
    exact hw
  · obtain ⟨trace, htrace⟩ := h w
    rw [htrace]
    exact ⟨Nat.le_refl _, Nat.le_succ _, [], (List.append_nil _).symm⟩

theorem advanced_habit : Habit (fun _ => True) Advanced engine where
  trans := .trans
  target _ := .of_same rfl rfl rfl
  instances _ _ := .of_same rfl rfl rfl
  procedure _ _ _ _ := trivial
  write name v _ := write_advances name v
  invoke name args _ := invoke_closed Advances.closed
    (raise_closed Advances.closed (fun _ => rfl) start_advances) (fun _ _ => note_advances _)
    (fun _ => note_advances _) name args
  emit _ _ := note_advances _
  whisper _ _ := note_advances _
  promptUser := promptUser_advances
  recover _ _ := note_advances _
  clear _ := note_advances _
  chat := chat_advances
  act _ henter := act_closed Advances.closed (fun a => henter a fun _ => trivial)
    fun _ => Advances.of_same fun _ => ⟨rfl, rfl, rfl⟩
  openConversation := Advances.of_same fun _ => ⟨rfl, rfl, rfl⟩

theorem enter_advances (levels : Nat) (f : Frame) (a : Activation) :
    Advances Outcome fun _ => Exec.enter engine levels f a :=
  advanced_habit.enter levels f a fun _ => trivial

end Advancing

end Exec

/-! ## Two worlds -/

/-- Two forks that differ only in their place. -/
structure Frame.Mates (f f' : Frame) : Prop where
  depth : f'.depth = f.depth
  callStack : f'.callStack = f.callStack
  handler : f'.handler = f.handler
  outlet : f'.outlet = f.outlet
  snapshot : f'.snapshot = f.snapshot
  forked : f.isRoot = false
  forked' : f'.isRoot = false

/-- What is the same on both sides is the same as on the first. -/
theorem eq_on_first {γ : Sort _} {g : Bool → γ} (h : g false = g true) (i : Bool) :
    g i = g true := by
  cases i with
  | false => exact h
  | true => rfl

theorem Frame.Mates.isRoot {f : Bool → Frame} (h : (f true).Mates (f false)) (i : Bool) :
    (f i).isRoot = false := by
  cases i with
  | false => exact h.forked'
  | true => exact h.forked

namespace World

/-- Two worlds with the same tables and stores. Odd events have handlers in both, but not the
same. -/
structure Kindred (odd : String → Prop) (w w' : World) : Prop where
  globals : w'.root.globals = w.root.globals
  constants : w'.root.constants = w.root.constants
  procedures : w'.root.procedures = w.root.procedures
  handlers : ∀ event, ¬ odd event → w'.root.handlersOf event = w.root.handlersOf event
  peopled : ∀ event, odd event → w.root.handlersOf event ≠ [] ∧ w'.root.handlersOf event ≠ []
  models : w'.models = w.models
  accounts : w'.accounts = w.accounts
  providers : w'.providers = w.providers

theorem Kindred.congr {odd : String → Prop} {w w' v v' : World} (h : Kindred odd w w')
    (hv : SameShared w v) (hv' : SameShared w' v') : Kindred odd v v' := by
  constructor
  · rw [hv.root, hv'.root, h.globals]
  · rw [hv.root, hv'.root, h.constants]
  · rw [hv.root, hv'.root, h.procedures]
  · rw [hv.root, hv'.root]
    exact h.handlers
  · rw [hv.root, hv'.root]
    exact h.peopled
  · rw [hv.models, hv'.models, h.models]
  · rw [hv.accounts, hv'.accounts, h.accounts]
  · rw [hv.providers, hv'.providers, h.providers]

/-- Two worlds that look the same to two forks, and in which the same was heard. -/
structure Twin (odd : String → Prop) (f : Bool → Frame) (w : Bool → World) : Prop where
  live : ∀ i, (f i).id ∈ (w i).ids
  coherent : ∀ i, (w i).Coherent
  kindred : Kindred odd (w true) (w false)
  locals : (w true).locals (f true).id = (w false).locals (f false).id
  voice : voice (w true).trace = voice (w false).trace

end World

namespace Exec

open World

section Twinning

variable {odd : String → Prop} {f : Bool → Frame} {α β : Type}

/-- Run by the forks `f` of two worlds that look the same to them, computations end alike, with the
same locals and the same voice, if the first of them was reticent. -/
structure Twinned (odd : String → Prop) (f : Bool → Frame) (α : Type) (X : Bool → Exec α) :
    Prop where
  spares : ∀ i, Spares (f i) (· = (f i).id) α fun _ => X i
  advances : Advances α fun _ => X true
  agrees : ∀ w : Bool → World, Twin odd f w → Reticent odd (w true) (X true (w true)).2 →
    (X true (w true)).1 = (X false (w false)).1 ∧
    (X true (w true)).2.locals (f true).id = (X false (w false)).2.locals (f false).id ∧
    voice (X true (w true)).2.trace = voice (X false (w false)).2.trace

namespace Twinned

variable {X : Bool → Exec α}

theorem twin (hX : Twinned odd f α X) {w : Bool → World} (hw : Twin odd f w)
    (hr : Reticent odd (w true) (X true (w true)).2) : Twin odd f fun i => (X i (w i)).2 := by
  obtain ⟨-, hlocals, hvoice⟩ := hX.agrees w hw hr
  have hspared (i : Bool) := (hX.spares i (w i) ⟨hw.live i, .refl (hw.coherent i)⟩).2
  exact ⟨fun i => (hspared i).live (hw.live i), fun i => (hspared i).coherent,
    hw.kindred.congr (hspared true).shared (hspared false).shared, hlocals, hvoice⟩

theorem pure (a : α) : Twinned odd f α fun _ => Pure.pure a :=
  ⟨fun _ => Spares.closed.pure a, Advances.closed.pure a, fun _ hw _ => ⟨rfl, hw.locals, hw.voice⟩⟩

theorem bind {K : Bool → α → Exec β} (hX : Twinned odd f α X)
    (hK : ∀ a, Twinned odd f β fun i => K i a) : Twinned odd f β fun i => X i >>= K i := by
  refine ⟨fun i => Spares.closed.bind (hX.spares i) fun a => (hK a).spares i,
    Advances.closed.bind hX.advances fun a => (hK a).advances, fun w hw hr => ?_⟩
  have hadvanced := hX.advances (w true) (.of_same rfl rfl rfl)
  cases hx : (X true (w true)).1 with
  | error i =>
    rw [bind_error (Prod.ext hx rfl)] at hr ⊢
    obtain ⟨hresult, hlocals, hvoice⟩ := hX.agrees w hw hr
    rw [bind_error (Prod.ext (hresult.symm.trans hx) rfl)]
    exact ⟨rfl, hlocals, hvoice⟩
  | ok a =>
    rw [bind_ok (Prod.ext hx rfl)] at hr ⊢
    have hrest := (hK a).advances (X true (w true)).2 (.of_same rfl rfl rfl)
    obtain ⟨hr₁, hr₂⟩ := hadvanced.reticent hrest hr
    rw [bind_ok (Prod.ext ((hX.agrees w hw hr₁).1.symm.trans hx) rfl)]
    exact (hK a).agrees _ (hX.twin hw hr₁) hr₂

/-- To catch a failure is to look at the result, which is the same in both worlds. -/
theorem attempt (hX : Twinned odd f α X) :
    Twinned odd f (Except RuntimeError α) fun i => Exec.attempt (X i) := by
  refine ⟨fun i w hw => ?_, fun w hw => ?_, fun w hw hr => ?_⟩
  · rw [attempt_world]
    exact hX.spares i w hw
  · rw [attempt_world]
    exact hX.advances w hw
  · rw [attempt_world] at hr
    obtain ⟨hresult, hlocals, hvoice⟩ := hX.agrees w hw hr
    simp only [attempt_world]
    exact ⟨attempt_result hresult, hlocals, hvoice⟩

theorem closed : Sequenced (fun _ => True) (Twinned odd f) where
  pure := pure
  bind := bind
  attempt {α β X K} hX hok herror := by
    refine bind hX.attempt fun r => ?_
    cases r with
    | ok a => exact hok a
    | error e => exact herror e trivial
  fail _ := ⟨fun _ => Spares.closed.fail trivial, Advances.closed.fail trivial,
    fun _ hw _ => ⟨rfl, hw.locals, hw.voice⟩⟩
  unwired _ := trivial
  crash text _ := ⟨fun _ => Spares.closed.crash text trivial, Advances.closed.crash text trivial,
    fun _ hw _ => ⟨rfl, hw.locals, hw.voice⟩⟩
  plain _ := trivial
  placed _ _ := trivial

/-- Computations may go on with anything that is the same in both worlds. -/
theorem reading {γ : Type} {view : World → γ}
    (hview : ∀ w, Twin odd f w → view (w false) = view (w true)) {K : Bool → γ → Exec β}
    (hK : ∀ c, Twinned odd f β fun i => K i c) :
    Twinned odd f β fun i => get >>= fun w => K i (view w) := by
  refine ⟨fun i => Spares.closed.get fun w => (hK (view w)).spares i,
    Advances.closed.get fun w => (hK (view w)).advances, fun w hw hr => ?_⟩
  have hagrees := (hK (view (w true))).agrees w hw hr
  show (K true (view (w true)) (w true)).1 = (K false (view (w false)) (w false)).1 ∧
    (K true (view (w true)) (w true)).2.locals (f true).id =
      (K false (view (w false)) (w false)).2.locals (f false).id ∧
    voice (K true (view (w true)) (w true)).2.trace =
      voice (K false (view (w false)) (w false)).2.trace
  rw [hview w hw]
  exact hagrees

theorem lookups : Lookups (Twinned odd f) where
  procedures := reading fun _ hw => hw.kindred.procedures
  models := reading fun _ hw => hw.kindred.models

end Twinned

section Effects

variable {engine : Engine}

theorem note_twinned {e : Bool → Effect}
    (h : [e true].filter Effect.voiced = [e false].filter Effect.voiced) :
    Twinned odd f Unit fun i => note (e i) := by
  refine ⟨fun i => note_spares (e i), note_advances (e true), fun w hw _ => ?_⟩
  refine ⟨rfl, hw.locals, ?_⟩
  simp only [note_apply, voice_push, hw.voice, h]

theorem bindLocal_twinned (name : String) (v : Value) :
    Twinned odd f Unit fun i => bindLocal (f i) name v := by
  refine ⟨fun i w hw => ⟨hw.1, .bind hw.2.coherent (by rfl) name v⟩, bindLocal_advances name v,
    fun w hw _ => ⟨rfl, ?_, hw.voice⟩⟩
  simp only [bindLocal_apply]
  rw [bind_locals_self (hw.live true), bind_locals_self (hw.live false), hw.locals]

variable (hm : (f true).Mates (f false))

include hm

theorem read_twinned (name : String) : Twinned odd f Value fun i => read engine (f i) name := by
  refine ⟨fun i => read_closed Spares.closed engine (f i) name,
    read_closed Advances.closed engine (f true) name, fun w hw _ => ?_⟩
  have hlookup : (w false).lookup? engine.symbols (f false) name =
      (w true).lookup? engine.symbols (f true) name := by
    simp only [lookup?, globalsOf, hm.snapshot, ← hw.locals, hw.kindred.globals,
      hw.kindred.constants]
  simp only [read, bind_apply, get_apply, hlookup]
  cases (w true).lookup? engine.symbols (f true) name with
  | some v => exact ⟨rfl, hw.locals, hw.voice⟩
  | none => exact ⟨rfl, hw.locals, hw.voice⟩

/-- The tables that forbid an assignment are the same in both worlds. -/
theorem write_twinned (name : String) (v : Value) :
    Twinned odd f Unit fun i => write engine (f i) name v := by
  refine ⟨fun i => write_spares (hm.isRoot i) (by rfl) name v, write_advances name v,
    fun w hw hr => ?_⟩
  have hconstant : (w false).isConstant engine.symbols name =
      (w true).isConstant engine.symbols name := by
    simp only [isConstant, hw.kindred.constants]
  have hglobal : (w false).isGlobal (f false) name = (w true).isGlobal (f true) name := by
    simp only [isGlobal, globalsOf, hm.snapshot, hw.kindred.globals]
  simp only [write_of_fork (hm.isRoot _), hconstant, hglobal]
  split
  · exact ⟨rfl, hw.locals, hw.voice⟩
  · split
    · exact ⟨rfl, hw.locals, hw.voice⟩
    · refine ⟨rfl, ?_, hw.voice⟩
      rw [bind_locals_self (hw.live true), bind_locals_self (hw.live false), hw.locals]

theorem emit_twinned (v : Value) : Twinned odd f Unit fun i => emit engine (f i) v := by
  have houtlet (i : Bool) : (f i).outlet = (f true).outlet :=
    eq_on_first (g := fun i => (f i).outlet) hm.outlet i
  simp only [emit, houtlet]
  split
  · exact note_twinned rfl
  · exact .pure _

omit hm in
theorem whisper_twinned (handle data : Value) :
    Twinned odd f Unit fun _ => whisper engine handle data := by
  unfold whisper
  split
  · exact note_twinned rfl
  · exact .pure _

omit hm in
/-- Whoever is prompted notices, so a reticent script can only find that there is no prompter. -/
theorem promptUser_twinned (text : String) :
    Twinned odd f Value fun _ => promptUser engine text := by
  refine ⟨fun _ => promptUser_closed Spares.closed engine (fun _ => note_spares _)
      (fun _ => .of_instances (fun _ => ⟨rfl, rfl, rfl, rfl⟩) (fun _ => rfl) fun _ => rfl)
      (fun _ _ _ _ _ _ => trivial) text, promptUser_advances text, fun w hw hr => ?_⟩
  rcases promptUser_cases engine text with h | h
  · rw [h, h]
    exact ⟨rfl, hw.locals, hw.voice⟩
  · obtain ⟨trace, htrace⟩ := h (w true)
    have hprompts := hr.prompts
    rw [htrace] at hprompts
    exact absurd hprompts (Nat.succ_ne_self _)

/-- An event has the same handlers in both worlds; or it is odd, and then a reticent script can only
find that no handler can be started, or that nobody would hear it. -/
theorem raise_twinned (name source : String) (payload : Value) :
    Twinned odd f Nat fun i => raise engine (f i) name source payload := by
  have hspares (i : Bool) :
      Spares (f i) (· = (f i).id) Nat fun _ => raise engine (f i) name source payload :=
    raise_closed Spares.closed (fun _ => rfl) start_spares name source payload
  have hadvances : Advances Nat fun _ => raise engine (f true) name source payload :=
    raise_closed Advances.closed (fun _ => rfl) start_advances name source payload
  refine ⟨hspares, hadvances, fun w hw hr => ?_⟩
  have hwired : wired engine (f false) = wired engine (f true) := by
    simp only [wired, hm.outlet]
  cases hwt : wired engine (f true) with
  | true =>
    rw [hwt] at hwired
    rw [raise_of_wired hwt] at hr ⊢
    rw [raise_of_wired hwired]
    by_cases hd : (f true).depth + 1 ≤ engine.config.maxCallDepth
    · have hd' : (f false).depth + 1 ≤ engine.config.maxCallDepth := by rwa [hm.depth]
      obtain ⟨started, w₁, hall, hstarted, hlaunched⟩ := startAll_launched hd name source
        (.event name source payload) ((w true).root.handlersOf name) (hw.coherent true)
        (hw.live true)
      obtain ⟨_, w₂, hall', -, hlaunched'⟩ := startAll_launched hd' name source
        (.event name source payload) ((w false).root.handlersOf name) (hw.coherent false)
        (hw.live false)
      rw [hall] at hr ⊢
      rw [hall']
      have heven : ¬ odd name := by
        intro hodd
        cases started with
        | nil => exact (hw.kindred.peopled name hodd).1 hstarted.symm
        | cons p rest =>
          refine hr.pending (p :: rest) hlaunched.pending p List.mem_cons_self ?_
          rw [(hlaunched.awaits p List.mem_cons_self).eventName]
          exact hodd
      refine ⟨by rw [hw.kindred.handlers name heven], ?_, ?_⟩
      · rw [hlaunched.undisturbed.locals _ (hw.live true) id,
          hlaunched'.undisturbed.locals _ (hw.live false) id, hw.locals]
      · rw [hlaunched.trace, hlaunched'.trace, hw.voice]
    · have hd' : ¬ (f false).depth + 1 ≤ engine.config.maxCallDepth := by rwa [hm.depth]
      rw [startAll_refused hd, startAll_refused hd']
      refine ⟨rfl, hw.locals, ?_⟩
      simp only [voice_notices, hw.voice]
  | false =>
    rw [hwt] at hwired
    by_cases hnone : (w true).root.handlersOf name = []
    · have heven : ¬ odd name := fun hodd => (hw.kindred.peopled name hodd).1 hnone
      have hnone' := (hw.kindred.handlers name heven).trans hnone
      rw [raise_of_nobody hnone, raise_of_nobody hnone']
      exact ⟨rfl, hw.locals, hw.voice⟩
    · have hsome : (w false).root.handlersOf name ≠ [] := by
        by_cases hodd : odd name
        · exact (hw.kindred.peopled name hodd).2
        · rw [hw.kindred.handlers name hodd]
          exact hnone
      obtain ⟨hresult, hw₁, hw₂⟩ := raise_of_unwired hwt hwired hnone hsome source payload
      rw [hw₁, hw₂]
      exact ⟨hresult, hw.locals, hw.voice⟩

end Effects

/-- What the steps of two forks need of the bodies that they enter. -/
structure Entering (odd : String → Prop) (f : Bool → Frame) (enter : Enter) : Prop where
  spares : ∀ i a, Spares (f i) (fun _ => False) Outcome fun _ => enter (f i) a
  advances : ∀ a, Advances Outcome fun _ => enter (f true) a
  consults : ∀ n a, Consults n Outcome fun _ => enter (f true) a
  twinned : ∀ a, Twinned odd f Outcome fun i => enter (f i) a

section Instance

variable {engine : Engine} {enter : Enter} (hm : (f true).Mates (f false))
variable (hE : Entering odd f enter)

include hE

/-- An agent that is found is asked, so a reticent script can only find that there is none. -/
theorem ask_twinned (agentModel prompt : Value) (p : Position) :
    Twinned odd f Value fun i => ask engine enter (f i) agentModel prompt p := by
  have hspares (i : Bool) : Spares (f i) (· = (f i).id) Value fun _ =>
      ask engine enter (f i) agentModel prompt p :=
    ask_closed Spares.closed (services_spare (hE.spares i)) agentModel prompt p
  have hadvances : Advances Value fun _ => ask engine enter (f true) agentModel prompt p :=
    (advanced_habit.talks trivial fun a _ => hE.advances a).ask Advances.closed agentModel prompt p
  refine ⟨hspares, hadvances, fun w hw hr => ?_⟩
  cases agentModel with
  | string name =>
    cases hresolve : Talk.resolve (w true) name prompt p with
    | error e =>
      have hresolve' := resolve_congr hw.kindred.models hw.kindred.accounts hw.kindred.providers
        hresolve
      rw [ask_of_nobody engine enter (f true) hresolve,
        ask_of_nobody engine enter (f false) hresolve']
      exact ⟨rfl, hw.locals, hw.voice⟩
    | ok t =>
      have hcalls := ask_calls engine hE.consults (resolve_eq_ok_iff.1 hresolve)
      have hsame := hr.calls
      omega
  | nil | number _ | bool _ | list _ | map _ | handle _ _ => exact ⟨rfl, hw.locals, hw.voice⟩

include hm

theorem calls_twinned : Calls (Twinned odd f) engine (fun _ => enter) f (f true).outlet where
  outlet := eq_on_first (g := fun i => (f i).outlet) hm.outlet
  enter := hE.twinned
  raise := raise_twinned hm
  consult _ _ := note_twinned rfl
  enterTool _ := note_twinned rfl
  host {name tool run} args _ _ := by
    have hcaller (i : Bool) : (f i).caller = (f true).caller := by
      refine eq_on_first (g := fun i => (f i).caller) ?_ i
      simp only [Frame.caller, hm.callStack, hm.depth, hm.forked, hm.forked']
    simp only [hcaller]
    exact Twinned.closed.ofInterrupt _

theorem primitives_twinned : Primitives (Twinned odd f) engine (fun _ => enter) f where
  read := read_twinned hm
  call := (calls_twinned hm hE).call Twinned.closed Twinned.lookups
  write := write_twinned hm
  ask := ask_twinned hE
  emit := emit_twinned hm
  whisper := whisper_twinned
  promptUser := promptUser_twinned
  clear := note_twinned rfl

theorem run_twinned (mode : Mode) (steps : List Step) :
    Twinned odd f Outcome fun i => run engine enter (f i) mode steps := by
  have hhandler := eq_on_first (g := fun i => (f i).handler) hm.handler
  exact run_closed Twinned.closed (primitives_twinned hm hE) hhandler (fun _ => note_twinned rfl)
    bindLocal_twinned ⟨trivial, trivial⟩ (fun _ _ => trivial) (fun _ _ => trivial) steps

end Instance

variable {engine : Engine}

/-- Two forks of two forks, with the same locals to start with. -/
theorem Twin.entry {w : Bool → World} (hm : (f true).Mates (f false)) (hw : Twin odd f w)
    (a : Activation) :
    let child (i : Bool) := (w i).nextFrame (f i) a.label a.body.handler a.outlet
    (child true).Mates (child false) ∧ Twin odd child fun i => entryWorld (f i) a (w i) := by
  intro child
  have hfork (i : Bool) : ((w i).enlist (f i) (child i)).Coherent :=
    (hw.coherent i).enlist a.label a.body.handler a.outlet (hw.live i)
  have hlive (i : Bool) : (child i).id ∈ ((w i).enlist (f i) (child i)).ids := by simp
  have hbound (i : Bool) : Undisturbed (· = (child i).id) ((w i).enlist (f i) (child i))
      (entryWorld (f i) a (w i)) :=
    .bindAll (hfork i) (by rfl) a.bindings
  have hlocals (i : Bool) : (entryWorld (f i) a (w i)).locals (child i).id =
      a.bindings.foldl (fun t p => t.insert p.1 p.2) {} := by
    have hself := bindAll_locals_self a.bindings (hlive i)
    rw [enlist_locals_child] at hself
    exact hself
  have hshared (i : Bool) : SameShared (w i) (entryWorld (f i) a (w i)) := by
    obtain ⟨instances, hentry⟩ := entryWorld_eq (f i) a (w i)
    rw [hentry]
    exact ⟨rfl, rfl, rfl, rfl⟩
  have hvoice (i : Bool) : (entryWorld (f i) a (w i)).trace = (w i).trace := by
    obtain ⟨instances, hentry⟩ := entryWorld_eq (f i) a (w i)
    rw [hentry]
  refine ⟨⟨?_, ?_, rfl, rfl, ?_, rfl, rfl⟩, fun i => (hbound i).live (hlive i),
    fun i => (hbound i).coherent, hw.kindred.congr (hshared true) (hshared false), ?_, ?_⟩
  · exact congrArg (· + 1) hm.depth
  · exact congrArg (· ++ [a.label]) hm.callStack
  · exact congrArg some hw.kindred.globals
  · rw [hlocals, hlocals]
  · rw [hvoice, hvoice, hw.voice]

/-- A body that is entered from two forks shows the same, and leaves both as they were. The
induction is on the levels below the forks. -/
theorem enter_twinned (levels : Nat) : ∀ {f : Bool → Frame}, (f true).Mates (f false) →
    ∀ a, Twinned odd f Outcome fun i => Exec.enter engine levels (f i) a := by
  induction levels with
  | zero =>
    intro f hm a
    have hrefusal : engine.refusal (f false) a.label = engine.refusal (f true) a.label := by
      simp only [Engine.refusal, hm.depth]
    refine ⟨fun _ => Spares.closed.fail trivial, Advances.closed.fail trivial, fun w hw _ => ?_⟩
    simp only [Exec.enter, hrefusal]
    exact ⟨rfl, hw.locals, hw.voice⟩
  | succ levels ih =>
    intro f hm a
    refine ⟨fun i => (enter_spares _ (f i) a).mono fun _ => False.elim, enter_advances _ (f true) a,
      fun w hw hr => ?_⟩
    let child (i : Bool) := (w i).nextFrame (f i) a.label a.body.handler a.outlet
    obtain ⟨hmates, hentry⟩ := Twin.entry hm hw a
    have hE : Entering odd child (Exec.enter engine levels) :=
      ⟨fun i a' => enter_spares levels (child i) a', enter_advances levels (child true),
        fun n => enter_consults levels (child true), ih hmates⟩
    have hbody : Twinned odd child Outcome fun i =>
        run engine (Exec.enter engine levels) (child i) {} a.body.steps :=
      run_twinned hmates hE {} a.body.steps
    -- the fork itself is made and released without a word
    have hreticent : Reticent odd (entryWorld (f true) a (w true))
        (run engine (Exec.enter engine levels) (child true) {} a.body.steps
          (entryWorld (f true) a (w true))).2 := by
      obtain ⟨instances, hsame⟩ := entryWorld_eq (f true) a (w true)
      rw [enter_world] at hr
      generalize entryWorld (f true) a (w true) = w₁ at hr hsame ⊢
      subst hsame
      exact ⟨hr.calls, hr.prompts, hr.pending⟩
    obtain ⟨hresult, -, hvoice⟩ := hbody.agrees _ hentry hreticent
    have hspared (i : Bool) : Undisturbed (fun _ => False) (w i)
        (Exec.enter engine (levels + 1) (f i) a (w i)).2 :=
      (enter_spares (levels + 1) (f i) a (w i) ⟨hw.live i, .refl (hw.coherent i)⟩).2
    refine ⟨?_, ?_, ?_⟩
    · rw [enter_apply, enter_apply]
      exact mapError_result _ hresult
    · rw [(hspared true).locals _ (hw.live true) id,
        (hspared false).locals _ (hw.live false) id, hw.locals]
    · rw [enter_world, enter_world]
      exact hvoice

end Twinning

/-- A handler that waits in two worlds shows the same in both. -/
theorem handlerBody_twinned {odd : String → Prop} (engine : Engine) {p : Bool → Pending}
    (hm : (p true).frame.Mates (p false).frame) (hhandler : (p false).handler = (p true).handler)
    (hevent : (p false).event = (p true).event) :
    Twinned odd (fun i => (p i).frame) Outcome fun i => engine.handlerBody (p i) := by
  have henter (a : Activation) : (fun i => engine.enter (p i).frame a) =
      fun i => Exec.enter engine (engine.levels (p true).frame) (p i).frame a := by
    funext i
    have hlevels := eq_on_first (g := fun i => engine.levels (p i).frame)
      (by simp only [Engine.levels, hm.depth]) i
    simp only [Engine.enter, hlevels]
  have hE : Entering odd (fun i => (p i).frame) engine.enter :=
    { spares := fun i a => enter_spares _ (p i).frame a
      advances := fun a => enter_advances _ (p true).frame a
      consults := fun n a => enter_consults _ (p true).frame a
      twinned := fun a => by
        rw [henter]
        exact enter_twinned _ hm a }
  exact handlerBody_closed Twinned.closed (eq_on_first (g := fun i => (p i).handler) hhandler)
    (eq_on_first (g := fun i => (p i).event) hevent) bindLocal_twinned (run_twinned hm hE {} _)

end Exec
end StepScript
