import Mathlib.Data.List.Basic
import StepScript.Proofs.Envelopes
import StepScript.Proofs.Operation
import StepScript.Proofs.Stores

/-!
# StepScript.Proofs.Conversation

How a conversation with an agent goes, turn by turn.

* `World.Consulted n` — only conversations with numbers from `n` on were held. The script of a turn
  may hold conversations of its own, and their numbers are later ones.
* `Asks`       — what a request for a turn says. An agent that reads it finds just that.
* `Taken`      — how a turn goes: the provider is called and answers, the answer is read as a reply,
  and the script of the reply runs and emits. It ends at the first of these that fails.
* `Held`       — the turns of a conversation so far, each with the reply and the output.
* `Stops`      — after which turns a conversation does not go on.
* `Conversed`  — the course of a conversation: turns up to the first after which it stops, or up to
  one that fails.
* `ask_protocol` — every `ask` is such a conversation, or nothing at all has happened.
-/

namespace StepScript

/-- Calls of providers were made only for conversations with numbers from `n` on. -/
structure World.Consulted (n : Nat) (w w' : World) : Prop where
  opened : n ≤ w.conversations
  later : w.conversations ≤ w'.conversations
  calls : ∃ new, w'.calls.toList = w.calls.toList ++ new ∧
    ∀ c ∈ new, ∃ m, n ≤ m ∧ c.context.conversation = .ask m

namespace World.Consulted

variable {n : Nat} {w w' w'' : World}

theorem of_same (hn : n ≤ w.conversations) (hopen : w'.conversations = w.conversations)
    (hcalls : w'.calls = w.calls) : Consulted n w w' :=
  ⟨hn, Nat.le_of_eq hopen.symm, [], by simp [hcalls], by simp⟩

theorem target (h : Consulted n w w') : Consulted n w' w' :=
  .of_same (Nat.le_trans h.opened h.later) rfl rfl

theorem trans (h : Consulted n w w') (h' : Consulted n w' w'') : Consulted n w w'' := by
  obtain ⟨new, hcalls, hnew⟩ := h.calls
  obtain ⟨new', hcalls', hnew'⟩ := h'.calls
  refine ⟨h.opened, Nat.le_trans h.later h'.later, new ++ new', ?_, fun c hc => ?_⟩
  · rw [hcalls', hcalls, List.append_assoc]
  · rcases List.mem_append.1 hc with hc | hc
    · exact hnew c hc
    · exact hnew' c hc

end World.Consulted

namespace Exec

open World

section Consulting

variable {engine : Engine} {enter : Enter} {f : Frame} {n : Nat} {α : Type}

abbrev Consults (n : Nat) : ∀ α : Type, (Unit → Exec α) → Prop := Keeps (Consulted n)

theorem Consults.closed : Closed (fun _ => True) (Consults n) := Keeps.closed .trans .target

theorem Consults.of_same {X : Unit → Exec α}
    (h : ∀ w, (X () w).2.conversations = w.conversations ∧ (X () w).2.calls = w.calls) :
    Consults n α X :=
  fun w hw => .of_same hw.opened (h w).1 (h w).2

theorem note_consults (e : Effect) : Consults n Unit fun _ => note e :=
  .of_same fun _ => ⟨rfl, rfl⟩

theorem write_consults (name : String) (v : Value) :
    Consults n Unit fun _ => write engine f name v := by
  refine .of_same fun w => ?_
  rcases write_world engine f name v w with h | ⟨-, h⟩ | h <;> rw [h] <;> exact ⟨rfl, rfl⟩

theorem start_consults (name source : String) (event : Value) (h : EventHandler) :
    Consults n Nat fun _ => start engine f name source event h := by
  refine .of_same fun w => ?_
  rcases start_world engine f name source event h w with ⟨-, h⟩ | ⟨trace, h⟩ <;> rw [h] <;>
    exact ⟨rfl, rfl⟩

theorem chat_consults {m : Nat} (hm : n ≤ m) (r : Registration) {c : ChatContext}
    (hc : c.conversation = .ask m) (q : ChatRequest) :
    Consults n (Except ProviderError ChatReply) fun _ => chat r c q := by
  intro w hw
  refine ⟨hw.opened, Nat.le_refl _, [_], Array.toList_push, fun call hcall => ?_⟩
  rw [List.mem_singleton.1 hcall]
  exact ⟨m, hm, hc⟩

theorem capture_consults (serial : Nat) :
    Consults n Unit fun _ => modify fun w => { w with captures := serial } :=
  .of_same fun _ => ⟨rfl, rfl⟩

section Instance

variable (henter : ∀ a, Consults n Outcome fun _ => enter f a)

include henter

theorem act_consults (t : Talk) (turn : Nat) (reply : Envelope) :
    Consults n String fun _ => act engine enter f t turn reply :=
  act_closed Consults.closed henter capture_consults t turn reply

/-- The number of a conversation is taken from the count of those before it. -/
theorem ask_consults (agentModel prompt : Value) (p : Position) :
    Consults n Value fun _ => ask engine enter f agentModel prompt p := by
  have hP : Closed (fun _ => True) (Consults n) := Consults.closed
  simp only [ask_eq]
  cases agentModel with
  | string name =>
    intro w hw
    cases ht : Talk.resolve w name prompt p with
    | error e => simpa [askWith, bind_apply, ht, ofExcept] using hw
    | ok t =>
      have hnumber : t.conversation = .ask w.conversations := by
        unfold Talk.resolve at ht
        grind
      have hturn (turn : Nat) (previous : Option String) :
          Consults n (Envelope × String) fun _ => takeTurn engine enter f t turn previous := by
        refine hP.bind (exchange_closed hP (fun c q hc => ?_) turn previous) fun reply => ?_
        · exact chat_consults hw.opened t.provider (hc.trans hnumber) q
        · exact hP.bind (act_consults henter t turn reply) fun _ => hP.pure _
      have hopen : Consults n Unit fun _ => openConversation :=
        fun w hw => ⟨hw.opened, Nat.le_succ _, [], by simp [openConversation], by simp⟩
      have hrest := hP.bind hopen fun _ =>
        hP.bind (converse_closed hP hturn (t.model.maxTurns - 1) 1 none) fun text =>
          hP.pure (Value.string text)
      have hrun := hrest w hw
      simpa [askWith, bind_apply, ht, ofExcept] using hrun
  | nil | number _ | bool _ | list _ | map _ | handle _ _ => exact hP.fail trivial

theorem run_consults (mode : Mode) (steps : List Step) :
    Consults n Outcome fun _ => run engine enter f mode steps := by
  have hP : Closed (fun _ => True) (Consults n) := Consults.closed
  have hcalls : Calls (Consults n) engine (fun _ => enter) (fun _ => f) f.outlet :=
    { outlet := fun _ => rfl
      enter := henter
      raise := raise_closed hP (fun _ => rfl) start_consults
      consult := fun c allowed => note_consults (.consult c allowed)
      enterTool := fun name => note_consults (.enter name)
      host := fun _ _ _ => Consults.closed.ofInterrupt _ }
  have hprimitives : Primitives (Consults n) engine (fun _ => enter) (fun _ => f) :=
    { read := read_closed hP engine f
      call := hcalls.call hP.toSequenced hP.lookups
      write := write_consults
      ask := ask_consults henter
      emit := emit_closed hP engine f fun _ => note_consults _
      whisper := whisper_closed hP engine fun _ _ => note_consults _
      promptUser := promptUser_closed hP engine (fun _ => note_consults _)
        (fun _ => .of_same fun _ => ⟨rfl, rfl⟩) fun _ _ _ _ _ _ => trivial
      clear := note_consults _ }
  exact run_closed hP.toSequenced hprimitives (fun _ => rfl) (fun _ => note_consults _)
    (fun _ _ => .of_same fun _ => ⟨rfl, rfl⟩) ⟨trivial, trivial⟩ (fun _ _ => trivial)
    (fun _ _ => trivial) steps

end Instance

theorem enter_consults (levels : Nat) : ∀ (f : Frame) (a : Activation),
    Consults n Outcome fun _ => Exec.enter engine levels f a := by
  induction levels with
  | zero => intro f a; exact Consults.closed.fail trivial
  | succ levels ih =>
    intro f a
    exact enter_keeps .trans .target (fun _ hw => .of_same hw.opened rfl rfl)
      fun w => run_consults (ih _) {} a.body.steps

end Consulting

end Exec

/-! ## Requests -/

/-- The prompt can be read back from the text of a request: its members are in order, its numbers are
read as themselves, and it does not nest too deep. -/
structure Talk.Legible (t : Talk) : Prop where
  sorted : t.prompt.Sorted
  numbers : ∀ n ∈ t.prompt.numbers, n.Legible
  depth : t.prompt.depth + 3 ≤ Json.nestingLimit

namespace Exec

/-- The request for a turn, on behalf of the conversation. Its prompt is the text of an envelope with
the prompt of the conversation, the number of the turn and the output before, and is read as that
envelope. -/
structure Asks (t : Talk) (turn : Nat) (previous : Option String) (c : ProviderCall) : Prop where
  conversation : c.context.conversation = t.conversation
  number : c.context.turn = turn
  provider : c.serial = t.provider.serial
  model : c.request.model = t.model.model
  key : c.request.apiKey = t.apiKey
  prompt : ∃ e : Envelope, c.request.prompt = e.toJson.pretty ∧
    (t.Legible → turn < powTwo 64 → Envelope.parse c.request.prompt = .ok e) ∧
    e.userData.find? ["fields", "prompt"] = some t.prompt ∧
    e.userData.find? ["fields", "turn"] = some (.nat turn) ∧
    e.userData.find? ["fields", "previous_output"] = previous.map .string

def callOf (engine : Engine) (t : Talk) (turn : Nat) (previous : Option String) : ProviderCall where
  serial := t.provider.serial
  provider := t.provider.provider.name
  transcribed := t.provider.provider.transcribed
  context :=
    { conversation := t.conversation, turn := turn, deadline := engine.host.deadline }
  request :=
    { model := t.model.model
      prompt := (Envelope.request t.model.name t.prompt turn previous).toPrompt
      apiKey := t.apiKey
      temperature := t.model.temperature.getD engine.config.ask.temperature
      maxTokens := engine.config.ask.maxTokens }

theorem callOf_asks (engine : Engine) (t : Talk) (turn : Nat) (previous : Option String) :
    Asks t turn previous (callOf engine t turn previous) where
  conversation := rfl
  number := rfl
  provider := rfl
  model := rfl
  key := rfl
  prompt := by
    obtain ⟨-, hfields⟩ := Envelope.request_fields t.model.name t.prompt turn previous
    refine ⟨_, rfl, fun ht hturn => ?_, hfields⟩
    exact Envelope.parse_request t.model.name previous ht.sorted ht.numbers hturn
      (Envelope.request_depth t.model.name turn previous ht.depth)

/-! ## Turns -/

structure Turn where
  reply : Envelope
  output : String

/-- The output of the turn of a number. Turns are counted from one, and nothing precedes the
first. -/
def outputOf (turns : List Turn) : Nat → Option String
  | 0 => none
  | t + 1 => turns[t]?.map (·.output)

theorem outputOf_append {turns : List Turn} (more : List Turn) {t : Nat} (h : t ≤ turns.length) :
    outputOf (turns ++ more) t = outputOf turns t := by
  cases t with
  | zero => rfl
  | succ t => simp only [outputOf, List.getElem?_append_left h]

theorem outputOf_last (turns : List Turn) (last : Turn) :
    outputOf (turns ++ [last]) (turns.length + 1) = some last.output := by
  simp [outputOf]

/-- The provider is called for a turn. Its answer may depend on how often it was called before. -/
def Called (t : Talk) (turn : Nat) (previous : Option String) (w : World)
    (answer : Except ProviderError ChatReply) (w' : World) : Prop :=
  ∃ c : ProviderCall, Asks t turn previous c ∧ w' = { w with calls := w.calls.push c } ∧
    t.provider.provider.chat (w.calls.filter (·.serial = t.provider.serial)).size c.context
      c.request = answer

/-- How a turn goes. The answer of the provider is read as a reply, the script of the reply is run in
a fork, and the output are the lines that go into the capture of the fork. What fails first is the
failure of the turn. -/
inductive Taken (engine : Engine) (enter : Enter) (f : Frame) (t : Talk) (turn : Nat)
    (previous : Option String) (w : World) : Except Interrupt Turn → World → Prop where
  | unanswered {e : ProviderError} {w' : World} : Called t turn previous w (.error e) w' →
      Taken engine enter f t turn previous w
        (.error (.failed (e.toRuntimeError.withPosition t.position))) w'
  | unread {r : ChatReply} {e : EnvelopeError} {w' : World} :
      Called t turn previous w (.ok r) w' → Envelope.parse r.text = .error e →
      Taken engine enter f t turn previous w (.error (.failed
        (((Fault.malformedReply t.model.name).error.withPosition t.position).withCause
          e.message))) w'
  | ungrammatical {r : ChatReply} {reply : Envelope} {e : ParseError} {w' : World} :
      Called t turn previous w (.ok r) w' → Envelope.parse r.text = .ok reply →
      engine.grammar reply.script = .error e →
      Taken engine enter f t turn previous w
        (.error (.failed (e.toRuntimeError.withPosition t.position))) w'
  | misplaced {r : ChatReply} {reply : Envelope} {steps : List Step} {e : RuntimeError}
      {w' : World} : Called t turn previous w (.ok r) w' → Envelope.parse r.text = .ok reply →
      engine.grammar reply.script = .ok steps → Body.ofSteps steps = .error e →
      Taken engine enter f t turn previous w (.error (.failed (e.atIfUnknown t.position))) w'
  | acted {r : ChatReply} {reply : Envelope} {steps : List Step} {body : Body}
      {result : Except Interrupt Outcome} {w₁ w' : World} :
      Called t turn previous w (.ok r) w₁ → Envelope.parse r.text = .ok reply →
      engine.grammar reply.script = .ok steps → Body.ofSteps steps = .ok body →
      enter f (actions t turn w₁.captures body) { w₁ with captures := w₁.captures + 1 } =
        (result, w') →
      Taken engine enter f t turn previous w (result.map fun _ =>
        ⟨reply, "\n".intercalate (capturedLines w₁.captures w'.trace)⟩) w'

/-- The provider does not answer, its answer is no envelope, or it is the reply. -/
theorem exchange_cases (engine : Engine) (t : Talk) (turn : Nat) (previous : Option String)
    (w : World) :
    (∃ e w₁, Called t turn previous w (.error e) w₁ ∧ exchange engine t turn previous w =
      (.error (.failed (e.toRuntimeError.withPosition t.position)), w₁)) ∨
    (∃ r e w₁, Called t turn previous w (.ok r) w₁ ∧ Envelope.parse r.text = .error e ∧
      exchange engine t turn previous w = (.error (.failed
        (((Fault.malformedReply t.model.name).error.withPosition t.position).withCause
          e.message)), w₁)) ∨
    ∃ r reply w₁, Called t turn previous w (.ok r) w₁ ∧ Envelope.parse r.text = .ok reply ∧
      exchange engine t turn previous w = (.ok reply, w₁) := by
  let c := callOf engine t turn previous
  let w₁ : World := { w with calls := w.calls.push c }
  have hcalled : Called t turn previous w (t.provider.provider.chat
      (w.calls.filter (·.serial = t.provider.serial)).size c.context c.request) w₁ :=
    ⟨c, callOf_asks engine t turn previous, rfl, rfl⟩
  have hchat : chat t.provider c.context c.request w = (.ok (t.provider.provider.chat
      (w.calls.filter (·.serial = t.provider.serial)).size c.context c.request), w₁) := rfl
  cases hanswer : t.provider.provider.chat
      (w.calls.filter (·.serial = t.provider.serial)).size c.context c.request with
  | error e =>
    rw [hanswer] at hcalled hchat
    exact .inl ⟨e, w₁, hcalled, bind_ok hchat⟩
  | ok r =>
    rw [hanswer] at hcalled hchat
    cases hreply : Envelope.parse r.text with
    | error e =>
      refine .inr (.inl ⟨r, e, w₁, hcalled, hreply, (bind_ok hchat).trans ?_⟩)
      simp only [hreply]
      rfl
    | ok reply =>
      refine .inr (.inr ⟨r, reply, w₁, hcalled, hreply, (bind_ok hchat).trans ?_⟩)
      simp only [hreply]
      rfl

theorem takeTurn_taken (engine : Engine) (enter : Enter) (f : Frame) (t : Talk) (turn : Nat)
    (previous : Option String) (w : World) :
    let run := takeTurn engine enter f t turn previous w
    Taken engine enter f t turn previous w (run.1.map fun r => ⟨r.1, r.2⟩) run.2 := by
  intro run
  rcases exchange_cases engine t turn previous w with ⟨e, w₁, hcalled, hexchange⟩ |
    ⟨r, e, w₁, hcalled, hreply, hexchange⟩ | ⟨r, reply, w₁, hcalled, hreply, hexchange⟩
  · have hrun : run = _ := bind_error hexchange
    rw [hrun]
    exact .unanswered hcalled
  · have hrun : run = _ := bind_error hexchange
    rw [hrun]
    exact .unread hcalled hreply
  · have hrun : run = (act engine enter f t turn reply >>= fun output =>
        pure (reply, output)) w₁ := bind_ok hexchange
    rw [hrun]
    rcases act_cases engine enter f t turn reply w₁ with ⟨e, hact, hcause⟩ |
      ⟨steps, body, hsteps, hbody, hact⟩
    · rw [bind_error hact]
      rcases hcause with ⟨p, hsteps, rfl⟩ | ⟨steps, e, hsteps, hbody, rfl⟩
      · exact .ungrammatical hcalled hreply hsteps
      · exact .misplaced hcalled hreply hsteps hbody
    · rcases henter : enter f (actions t turn w₁.captures body)
        { w₁ with captures := w₁.captures + 1 } with ⟨i | o, w'⟩
      · rw [henter] at hact
        rw [bind_error hact]
        exact .acted hcalled hreply hsteps hbody henter
      · rw [henter] at hact
        rw [bind_ok hact]
        exact .acted hcalled hreply hsteps hbody henter

theorem Taken.of_ok {engine : Engine} {enter : Enter} {f : Frame} {t : Talk} {turn : Nat}
    {previous : Option String} {w w' : World} {reply : Envelope} {output : String}
    (h : takeTurn engine enter f t turn previous w = (.ok (reply, output), w')) :
    Taken engine enter f t turn previous w (.ok ⟨reply, output⟩) w' := by
  have htaken := takeTurn_taken engine enter f t turn previous w
  rw [h] at htaken
  exact htaken

theorem Taken.of_error {engine : Engine} {enter : Enter} {f : Frame} {t : Talk} {turn : Nat}
    {previous : Option String} {w w' : World} {i : Interrupt}
    (h : takeTurn engine enter f t turn previous w = (.error i, w')) :
    Taken engine enter f t turn previous w (.error i) w' := by
  have htaken := takeTurn_taken engine enter f t turn previous w
  rw [h] at htaken
  exact htaken

/-- The turns of a conversation, from the world where it was opened to the world after the last.
Each is told its number and the output of the turn before. -/
inductive Held (engine : Engine) (enter : Enter) (f : Frame) (t : Talk) (w : World) :
    List Turn → World → Prop where
  | start : Held engine enter f t w [] w
  | turn {turns : List Turn} {last : Turn} {w₁ w₂ : World} : Held engine enter f t w turns w₁ →
      Taken engine enter f t (turns.length + 1) (outputOf turns turns.length) w₁ (.ok last) w₂ →
      Held engine enter f t w (turns ++ [last]) w₂

end Exec

/-! ## Signals -/

/-- The agent's signal is the word, without regard to the blanks around it and the case of its
letters. -/
def LoopControl.Says (c : LoopControl) (word : String) : Prop :=
  ∃ s, c.signal = some s ∧ lowered (Text.trimmed s) = word.toList

def Signal.word : Signal → Option String
  | .continue => some "continue"
  | .done => some "done"
  | .abort => some "abort"
  | .unknown _ => none

namespace LoopControl

theorem heard_of_none {c : LoopControl} (h : c.signal = none) : c.heard = none := by
  unfold heard
  rw [h]
  rfl

/-- A blank signal is none. -/
theorem heard_of_some {c : LoopControl} {s : String} (h : c.signal = some s) :
    c.heard = if lowered (Text.trimmed s) = [] then none
      else if lowered (Text.trimmed s) = "continue".toList then some .continue
      else if lowered (Text.trimmed s) = "done".toList then some .done
      else if lowered (Text.trimmed s) = "abort".toList then some .abort
      else some (.unknown (Text.trimmed s)) := by
  have hblank : (Text.trimmed s).isEmpty = true ↔ lowered (Text.trimmed s) = [] := by
    simp [lowered, String.isEmpty_iff]
  simp only [heard, h, bind, Option.bind, hblank]

theorem heard_iff_says (c : LoopControl) {signal : Signal} {word : String}
    (hword : signal.word = some word) : c.heard = some signal ↔ c.Says word := by
  constructor
  · intro hc
    cases h : c.signal with
    | none => rw [heard_of_none h] at hc; cases hc
    | some s =>
      refine ⟨s, h, ?_⟩
      rw [heard_of_some h] at hc
      split at hc
      · cases hc
      · split at hc
        · cases hc
          cases hword
          assumption
        · split at hc
          · cases hc
            cases hword
            assumption
          · split at hc
            · cases hc
              cases hword
              assumption
            · cases hc
              cases hword
  · rintro ⟨s, h, hs⟩
    rw [heard_of_some h, hs]
    cases signal with
    | «continue» =>
      cases hword
      rw [if_neg (by decide), if_pos rfl]
    | done =>
      cases hword
      rw [if_neg (by decide), if_neg (by decide), if_pos rfl]
    | abort =>
      cases hword
      rw [if_neg (by decide), if_neg (by decide), if_neg (by decide), if_pos rfl]
    | unknown => cases hword

theorem heard_continue_iff (c : LoopControl) : c.heard = some .continue ↔ c.Says "continue" :=
  c.heard_iff_says rfl

theorem heard_abort_iff (c : LoopControl) : c.heard = some .abort ↔ c.Says "abort" :=
  c.heard_iff_says rfl

end LoopControl

/-- Another turn follows exactly if nothing speaks against it. -/
theorem verdict_eq_again_iff {m : AgentModel} {c : LoopControl} {turn : Nat}
    {previous : Option String} {output : String} :
    verdict m c turn previous output = .again ↔
      c.Says "continue" ∧ m.allowLoop = true ∧ turn < m.maxTurns ∧ previous ≠ some output := by
  rw [← c.heard_continue_iff]
  unfold verdict
  split
  · grind
  · grind
  · grind

namespace Exec

/-- The conversation does not go on after the turn of this number. -/
def Stops (m : AgentModel) (turns : List Turn) (t : Nat) : Prop :=
  ∃ turn, turns[t - 1]? = some turn ∧
    (¬ turn.reply.control.Says "continue" ∨ m.allowLoop = false ∨ m.maxTurns ≤ t ∨
      2 ≤ t ∧ outputOf turns t = outputOf turns (t - 1))

/-- What comes of a conversation that stops after a turn. -/
inductive Delivers (m : AgentModel) (last : Turn) : Except Interrupt String → Prop where
  | aborted {e : RuntimeError} : last.reply.control.Says "abort" → e.code = .external →
      Delivers m last (.error (.failed e))
  | rejected {e : RuntimeError} : last.reply.control.Says "continue" → m.allowLoop = false →
      e.code = .policy → Delivers m last (.error (.failed e))
  | output : ¬ last.reply.control.Says "abort" →
      ¬ (last.reply.control.Says "continue" ∧ m.allowLoop = false) →
      Delivers m last (.ok last.output)

/-- Conversations from one world, with the turns that succeeded, the number of requests, the result
and the world at the end. -/
inductive Conversed (engine : Engine) (enter : Enter) (f : Frame) (t : Talk) (w : World) :
    List Turn → Nat → Except Interrupt String → World → Prop where
  | stopped {turns : List Turn} {last : Turn} {w' : World} {result : Except Interrupt String} :
      Held engine enter f t w (turns ++ [last]) w' →
      Stops t.model (turns ++ [last]) (turns.length + 1) →
      (∀ s, 1 ≤ s → s ≤ turns.length → ¬ Stops t.model (turns ++ [last]) s) →
      Delivers t.model last result →
      Conversed engine enter f t w (turns ++ [last]) (turns.length + 1) result w'
  | failed {turns : List Turn} {w₁ w' : World} {i : Interrupt} :
      Held engine enter f t w turns w₁ →
      (∀ s, 1 ≤ s → s ≤ turns.length → ¬ Stops t.model turns s) →
      Taken engine enter f t (turns.length + 1) (outputOf turns turns.length) w₁ (.error i) w' →
      Conversed engine enter f t w turns (turns.length + 1) (.error i) w'

section Course

variable {engine : Engine} {enter : Enter} {f : Frame} {t : Talk} {w : World}

theorem stops_append {m : AgentModel} {turns : List Turn} (more : List Turn) {s : Nat}
    (h₁ : 1 ≤ s) (h₂ : s ≤ turns.length) : Stops m (turns ++ more) s ↔ Stops m turns s := by
  have hlt : s - 1 < turns.length := by omega
  simp only [Stops, List.getElem?_append_left hlt, outputOf_append more h₂,
    outputOf_append more (Nat.le_of_lt hlt)]

theorem stops_last_iff {m : AgentModel} {turns : List Turn} {last : Turn} :
    Stops m (turns ++ [last]) (turns.length + 1) ↔
      verdict m last.reply.control (turns.length + 1) (outputOf turns turns.length) last.output ≠
        .again := by
  have hlast : (turns ++ [last])[turns.length + 1 - 1]? = some last := by simp
  have hprevious : outputOf (turns ++ [last]) (turns.length + 1 - 1) =
      outputOf turns turns.length :=
    outputOf_append [last] (Nat.le_refl _)
  have hfirst : outputOf turns turns.length = some last.output → 2 ≤ turns.length + 1 := by
    intro h
    cases turns with
    | nil => cases h
    | cons _ _ => exact Nat.le_add_left 2 _
  simp only [Stops, hlast, hprevious, outputOf_last, ne_eq, verdict_eq_again_iff,
    Option.some.injEq, exists_eq_left']
  grind

theorem conclude_delivers (t : Talk) (last : Turn) (turn : Nat) (previous : Option String)
    (w : World) :
    ∃ result, conclude t turn last.output
      (verdict t.model last.reply.control turn previous last.output) w = (result, w) ∧
      Delivers t.model last result := by
  have hcontinue := last.reply.control.heard_continue_iff
  have habort := last.reply.control.heard_abort_iff
  unfold verdict
  split
  · next h => exact ⟨_, rfl, .aborted (habort.1 h) rfl⟩
  · next h =>
    have hsilent : ¬ last.reply.control.Says "abort" := by
      rw [← habort, h]
      decide
    cases hloop : t.model.allowLoop with
    | false => exact ⟨_, rfl, .rejected (hcontinue.1 h) hloop rfl⟩
    | true =>
      have hmay : ¬ (last.reply.control.Says "continue" ∧ t.model.allowLoop = false) := by
        simp [hloop]
      simp only [Bool.not_true, Bool.false_eq_true, if_false]
      split
      · exact ⟨_, rfl, .output hsilent hmay⟩
      · split
        · exact ⟨_, rfl, .output hsilent hmay⟩
        · exact ⟨_, rfl, .output hsilent hmay⟩
  · next h₁ h₂ =>
    exact ⟨_, rfl, .output (fun h => h₁ (habort.2 h)) fun h => h₂ (hcontinue.2 h.1)⟩

/-- A turn after which the conversation stops is its last. -/
theorem Held.conversed {turns : List Turn} {w₁ w₂ : World} {reply : Envelope} {output : String}
    (hheld : Held engine enter f t w turns w₁)
    (hgoes : ∀ s, 1 ≤ s → s ≤ turns.length → ¬ Stops t.model turns s)
    (hturn : Taken engine enter f t (turns.length + 1) (outputOf turns turns.length) w₁
      (.ok ⟨reply, output⟩) w₂)
    (hstop : verdict t.model reply.control (turns.length + 1) (outputOf turns turns.length)
      output ≠ .again) :
    ∃ turns' n, Conversed engine enter f t w turns' n
      (conclude t (turns.length + 1) output (verdict t.model reply.control (turns.length + 1)
        (outputOf turns turns.length) output) w₂).1
      (conclude t (turns.length + 1) output (verdict t.model reply.control (turns.length + 1)
        (outputOf turns turns.length) output) w₂).2 := by
  obtain ⟨result, hend, hresult⟩ := conclude_delivers t ⟨reply, output⟩ (turns.length + 1)
    (outputOf turns turns.length) w₂
  rw [hend]
  refine ⟨_, _, .stopped (hheld.turn hturn) (stops_last_iff.2 hstop) (fun s h₁ h₂ => ?_) hresult⟩
  rw [stops_append _ h₁ h₂]
  exact hgoes s h₁ h₂

/-- The turns after the first ones, which did not stop the conversation. As many may follow as the
bound leaves, so the bound never cuts a conversation short. -/
theorem converse_conversed (left : Nat) : ∀ {turns : List Turn} {w₁ : World},
    Held engine enter f t w turns w₁ →
    (∀ s, 1 ≤ s → s ≤ turns.length → ¬ Stops t.model turns s) →
    t.model.maxTurns ≤ turns.length + 1 + left →
    ∃ turns' n, Conversed engine enter f t w turns' n
      (converse engine enter f t left (turns.length + 1) (outputOf turns turns.length) w₁).1
      (converse engine enter f t left (turns.length + 1) (outputOf turns turns.length) w₁).2 := by
  induction left with
  | zero =>
    intro turns w₁ hheld hgoes hleft
    simp only [converse]
    rcases hturn : takeTurn engine enter f t (turns.length + 1) (outputOf turns turns.length) w₁
      with ⟨i | ⟨reply, output⟩, w₂⟩
    · rw [bind_error hturn]
      exact ⟨turns, _, .failed hheld hgoes (.of_error hturn)⟩
    · rw [bind_ok hturn]
      refine hheld.conversed hgoes (.of_ok hturn) fun hagain => ?_
      have hlt := (verdict_eq_again_iff.1 hagain).2.2.1
      omega
  | succ left ih =>
    intro turns w₁ hheld hgoes hleft
    simp only [converse]
    rcases hturn : takeTurn engine enter f t (turns.length + 1) (outputOf turns turns.length) w₁
      with ⟨i | ⟨reply, output⟩, w₂⟩
    · rw [bind_error hturn]
      exact ⟨turns, _, .failed hheld hgoes (.of_error hturn)⟩
    · rw [bind_ok hturn]
      cases hv : verdict t.model reply.control (turns.length + 1) (outputOf turns turns.length)
        output with
      | again =>
        have hlength : (turns ++ [(⟨reply, output⟩ : Turn)]).length = turns.length + 1 := by simp
        have hrest := ih (hheld.turn (.of_ok hturn)) (fun s h₁ h₂ => ?_) (by omega)
        · rw [hlength, outputOf_last] at hrest
          simpa only [hv] using hrest
        · rcases Nat.lt_or_eq_of_le h₂ with hlt | rfl
          · rw [stops_append _ h₁ (by omega)]
            exact hgoes s h₁ (by omega)
          · rw [hlength, stops_last_iff]
            exact not_not_intro hv
      | finished | aborted _ | rejected =>
        have hend := hheld.conversed hgoes (.of_ok hturn) (by simp [hv])
        simpa only [hv] using hend

end Course

/-! ## Calls -/

end Exec

/-- The calls of a conversation since some world. -/
def World.callsOf (w w' : World) (c : Conversation) : List ProviderCall :=
  (w'.calls.toList.drop w.calls.size).filter (·.context.conversation = c)

namespace Exec

open World

/-- The requests of a conversation since it was opened: they are `n`, numbered from one, and each
carries the output of the turn before. -/
structure Requested (t : Talk) (turns : List Turn) (n : Nat) (w w' : World) : Prop where
  kept : ∃ new, w'.calls.toList = w.calls.toList ++ new
  count : (w.callsOf w' t.conversation).length = n
  numbered : ∀ i c, (w.callsOf w' t.conversation)[i]? = some c → Asks t (i + 1) (outputOf turns i) c

section Requests

variable {engine : Engine} {enter : Enter} {f : Frame} {t : Talk} {m : Nat} {w w' : World}
variable {turns : List Turn} {n : Nat}

theorem callsOf_of_append {new : List ProviderCall} (h : w'.calls.toList = w.calls.toList ++ new)
    (c : Conversation) : w.callsOf w' c = new.filter (·.context.conversation = c) := by
  rw [World.callsOf, h, ← Array.length_toList, List.drop_left]

@[simp] theorem callsOf_self (w : World) (c : Conversation) : w.callsOf w c = [] :=
  callsOf_of_append (List.append_nil _).symm c

/-- A turn makes one call of the conversation; all that its script makes belong to later ones. -/
theorem Taken.calls {turn : Nat} {previous : Option String} {result : Except Interrupt Turn}
    (henter : ∀ n a, Consults n Outcome fun _ => enter f a) (hm : t.conversation = .ask m)
    (hopen : m < w.conversations) (h : Taken engine enter f t turn previous w result w') :
    m < w'.conversations ∧ ∃ c new, w'.calls.toList = w.calls.toList ++ c :: new ∧
      Asks t turn previous c ∧ ∀ c' ∈ new, c'.context.conversation ≠ t.conversation := by
  have hcalled {answer : Except ProviderError ChatReply} {w₁ : World}
      (h : Called t turn previous w answer w₁) : m < w₁.conversations ∧
        ∃ c new, w₁.calls.toList = w.calls.toList ++ c :: new ∧ Asks t turn previous c ∧
          ∀ c' ∈ new, c'.context.conversation ≠ t.conversation := by
    obtain ⟨c, hc, rfl, -⟩ := h
    exact ⟨hopen, c, [], Array.toList_push, hc, by simp⟩
  cases h with
  | unanswered h | unread h | ungrammatical h | misplaced h => exact hcalled h
  | @acted _ _ _ body _ w₁ _ h _ _ _ hrun =>
    obtain ⟨hopen₁, c, new, hcalls, hc, hnew⟩ := hcalled h
    have hlater : Consulted (m + 1) { w₁ with captures := w₁.captures + 1 }
        (enter f (actions t turn w₁.captures body) { w₁ with captures := w₁.captures + 1 }).2 :=
      henter (m + 1) _ _ (.of_same hopen₁ rfl rfl)
    rw [hrun] at hlater
    obtain ⟨new', hcalls', hnew'⟩ := hlater.calls
    replace hcalls' : w'.calls.toList = w₁.calls.toList ++ new' := hcalls'
    refine ⟨Nat.lt_of_lt_of_le hlater.opened hlater.later, c, new ++ new', ?_, hc, fun c' hc' => ?_⟩
    · rw [hcalls', hcalls, List.append_assoc, List.cons_append]
    · rcases List.mem_append.1 hc' with hc' | hc'
      · exact hnew c' hc'
      · obtain ⟨m', hm', hconversation⟩ := hnew' c' hc'
        rw [hconversation, hm]
        intro h
        cases h
        omega

/-- To open a conversation is not yet to ask for anything. -/
theorem Requested.of_open {k : Nat} (h : Requested t turns n { w with conversations := k } w') :
    Requested t turns n w w' :=
  ⟨h.kept, h.count, h.numbered⟩

theorem Requested.append (h : Requested t turns n w w') (hn : n ≤ turns.length + 1)
    (more : List Turn) : Requested t (turns ++ more) n w w' := by
  refine ⟨h.kept, h.count, fun i c hc => ?_⟩
  have hi : i < n := h.count ▸ (List.getElem?_eq_some_iff.1 hc).1
  rw [outputOf_append more (by omega)]
  exact h.numbered i c hc

/-- One more turn, be it that it fails. -/
theorem Requested.turn {result : Except Interrupt Turn} {w'' : World}
    (henter : ∀ n a, Consults n Outcome fun _ => enter f a) (hm : t.conversation = .ask m)
    (hopen : m < w'.conversations) (h : Requested t turns turns.length w w')
    (hturn : Taken engine enter f t (turns.length + 1) (outputOf turns turns.length) w' result w'') :
    m < w''.conversations ∧ Requested t turns (turns.length + 1) w w'' := by
  obtain ⟨hopen', c, new, hcalls, hc, hnew⟩ := hturn.calls henter hm hopen
  obtain ⟨before, hbefore⟩ := h.kept
  rw [hbefore, List.append_assoc] at hcalls
  have hnone : new.filter (·.context.conversation = t.conversation) = [] := by
    simpa [List.filter_eq_nil_iff] using hnew
  have hown := callsOf_of_append hcalls t.conversation
  rw [List.filter_append, ← callsOf_of_append hbefore,
    List.filter_cons_of_pos (by simp [hc.conversation]), hnone] at hown
  refine ⟨hopen', ⟨_, hcalls⟩, ?_, fun i c' hc' => ?_⟩
  · rw [hown, List.length_append, h.count, List.length_singleton]
  · rw [hown] at hc'
    rcases Nat.lt_trichotomy i turns.length with hi | rfl | hi
    · rw [List.getElem?_append_left (h.count ▸ hi)] at hc'
      exact h.numbered i c' hc'
    · rw [List.getElem?_append_right (Nat.le_of_eq h.count), h.count, Nat.sub_self] at hc'
      cases hc'
      exact hc
    · rw [List.getElem?_eq_none (by simp [h.count]; omega)] at hc'
      cases hc'

theorem Held.requested (henter : ∀ n a, Consults n Outcome fun _ => enter f a)
    (hm : t.conversation = .ask m) (hopen : m < w.conversations)
    (h : Held engine enter f t w turns w') :
    m < w'.conversations ∧ Requested t turns turns.length w w' := by
  induction h with
  | start => exact ⟨hopen, ⟨[], by simp⟩, by simp, by simp⟩
  | @turn turns last w₁ w₂ _ hturn ih =>
    obtain ⟨hopen₁, hrequested⟩ := ih
    obtain ⟨hopen₂, hnext⟩ := hrequested.turn henter hm hopen₁ hturn
    refine ⟨hopen₂, ?_⟩
    rw [List.length_append]
    exact hnext.append (Nat.le_refl _) [last]

/-- A conversation that stops or fails made one request for each turn that was taken or tried. -/
theorem Conversed.requested {result : Except Interrupt String}
    (henter : ∀ n a, Consults n Outcome fun _ => enter f a)
    (hm : t.conversation = .ask m) (hopen : m < w.conversations)
    (h : Conversed engine enter f t w turns n result w') : Requested t turns n w w' := by
  cases h with
  | stopped hheld _ _ _ =>
    have hrequested := (hheld.requested henter hm hopen).2
    rw [List.length_append] at hrequested
    exact hrequested
  | failed hheld _ hturn =>
    obtain ⟨hopen₁, hrequested⟩ := hheld.requested henter hm hopen
    exact (hrequested.turn henter hm hopen₁ hturn).2

theorem lt_maxTurns_of_goes {model : AgentModel} {s : Nat} (h₁ : 1 ≤ s) (h₂ : s ≤ turns.length)
    (h : ¬ Stops model turns s) : s < model.maxTurns := by
  refine Nat.lt_of_not_le fun hle => h ?_
  exact ⟨_, List.getElem?_eq_getElem (by omega), .inr (.inr (.inl hle))⟩

theorem Conversed.count_le {result : Except Interrupt String}
    (h : Conversed engine enter f t w turns n result w') :
    1 ≤ n ∧ (t.model.maxTurns ≠ 0 → n ≤ t.model.maxTurns) := by
  have hbound {taken : List Turn} {k : Nat} (hk : k ≤ taken.length)
      (hgoes : ∀ s, 1 ≤ s → s ≤ k → ¬ Stops t.model taken s) (hmax : t.model.maxTurns ≠ 0) :
      k + 1 ≤ t.model.maxTurns := by
    cases k with
    | zero => omega
    | succ k =>
      have hone := Nat.le_add_left 1 k
      exact lt_maxTurns_of_goes hone hk (hgoes _ hone (Nat.le_refl _))
  cases h with
  | stopped _ _ hgoes _ =>
    exact ⟨Nat.le_add_left 1 _, hbound (by simp) hgoes⟩
  | failed _ hgoes _ => exact ⟨Nat.le_add_left 1 _, hbound (Nat.le_refl _) hgoes⟩

end Requests

end Exec

theorem AgentModel.maxTurns_ne_zero {models : Table AgentModel} (h : kind.Filled models)
    {name : String} {m : AgentModel} (hm : kind.get models name = .ok m) : m.maxTurns ≠ 0 := by
  have hvalid : kind.defect? m = none := by
    unfold RecordKind.get at hm
    split at hm
    · next hget => cases hm; exact h.valid hget
    · cases hm
  simp only [kind] at hvalid
  split at hvalid
  · cases hvalid
  · split at hvalid
    · cases hvalid
    · assumption

namespace Exec

open World

/-- Everybody that the conversation needs can be found: the model by its name, its provider, and its
account if it has one. -/
structure Resolved (w : World) (agentModel prompt : Value) (p : Position) (t : Talk) : Prop where
  model : ∃ name, agentModel = .string name ∧ AgentModel.kind.get w.models name = .ok t.model
  provider : w.providers.get t.model.provider = .ok t.provider
  key : apiKey w t.model = .ok t.apiKey
  prompt : t.prompt = prompt.toJson
  conversation : t.conversation = .ask w.conversations
  position : t.position = p

theorem resolve_eq_ok_iff {w : World} {name : String} {prompt : Value} {p : Position} {t : Talk} :
    Talk.resolve w name prompt p = .ok t ↔ Resolved w (.string name) prompt p t := by
  constructor
  · intro h
    unfold Talk.resolve at h
    split at h
    · cases h
    · next model hmodel =>
      split at h
      · cases h
      · next provider hprovider =>
        split at h
        · cases h
        · next key hkey =>
          cases h
          exact ⟨⟨name, rfl, hmodel⟩, hprovider, hkey, rfl, rfl, rfl⟩
  · rintro ⟨⟨_, ⟨rfl⟩, hmodel⟩, hprovider, hkey, hprompt, hconversation, hposition⟩
    simp only [Talk.resolve, hmodel, hprovider, hkey, ← hprompt, ← hconversation, ← hposition]

/-- Only the number of the conversation tells worlds with the same stores apart. -/
theorem resolve_congr {w w' : World} (hmodels : w'.models = w.models)
    (haccounts : w'.accounts = w.accounts) (hproviders : w'.providers = w.providers)
    {name : String} {prompt : Value} {p : Position} {e : RuntimeError}
    (h : Talk.resolve w name prompt p = .error e) : Talk.resolve w' name prompt p = .error e := by
  simp only [Talk.resolve, apiKey, hmodels, haccounts, hproviders] at h ⊢
  split at h
  · exact h
  · split at h
    · exact h
    · split at h
      · exact h
      · cases h

theorem ask_of_nobody (engine : Engine) (enter : Enter) (f : Frame) {w : World} {name : String}
    {prompt : Value} {p : Position} {e : RuntimeError}
    (h : Talk.resolve w name prompt p = .error e) :
    ask engine enter f (.string name) prompt p w = (.error (.failed e), w) := by
  simp only [ask_eq, askWith, bind_apply, get_apply, h]
  rfl

theorem ask_unresolved (engine : Engine) (enter : Enter) (f : Frame) {agentModel prompt : Value}
    {p : Position} {w : World} (h : ¬ ∃ t, Resolved w agentModel prompt p t) :
    ∃ e, ask engine enter f agentModel prompt p w = (.error (.failed e), w) := by
  cases agentModel with
  | string name =>
    cases hr : Talk.resolve w name prompt p with
    | ok t => exact absurd ⟨t, resolve_eq_ok_iff.1 hr⟩ h
    | error e => exact ⟨e, ask_of_nobody engine enter f hr⟩
  | nil | number _ | bool _ | list _ | map _ | handle _ _ => exact ⟨_, rfl⟩

/-- An `ask` whose agent is found is a conversation that is opened in this very world. -/
theorem ask_of_resolve (engine : Engine) (enter : Enter) (f : Frame) {w : World} {name : String}
    {prompt : Value} {p : Position} {t : Talk} (h : Talk.resolve w name prompt p = .ok t) :
    let opened := { w with conversations := w.conversations + 1 }
    let finish := converse engine enter f t (t.model.maxTurns - 1) 1 none opened
    ask engine enter f (.string name) prompt p w = (finish.1.map Value.string, finish.2) := by
  intro opened finish
  have hopened : ask engine enter f (.string name) prompt p w =
      (converse engine enter f t (t.model.maxTurns - 1) 1 none >>= fun text =>
        pure (Value.string text)) opened := by
    rw [ask_eq]
    simp only [askWith, bind_apply, get_apply, h]
    rfl
  rw [hopened]
  rcases hend : finish with ⟨i | text, w'⟩
  · exact bind_error hend
  · exact bind_ok hend

theorem ask_conversed (engine : Engine) (enter : Enter) (f : Frame) {w : World}
    {agentModel prompt : Value} {p : Position} {t : Talk} (h : Resolved w agentModel prompt p t) :
    ∃ turns n result,
      (ask engine enter f agentModel prompt p w).1 = result.map Value.string ∧
      Conversed engine enter f t { w with conversations := w.conversations + 1 } turns n result
        (ask engine enter f agentModel prompt p w).2 := by
  obtain ⟨name, rfl, -⟩ := h.model
  have hstart : Held engine enter f t { w with conversations := w.conversations + 1 } []
      { w with conversations := w.conversations + 1 } := .start
  obtain ⟨turns, n, hconversed⟩ := converse_conversed (t.model.maxTurns - 1) hstart
    (fun s h₁ h₂ => absurd (Nat.le_trans h₁ h₂) (by decide)) (by simp; omega)
  rw [ask_of_resolve engine enter f (resolve_eq_ok_iff.2 h)]
  exact ⟨turns, n, _, rfl, hconversed⟩

/-- An agent that is found is asked. -/
theorem ask_calls (engine : Engine) {enter : Enter} {f : Frame}
    (henter : ∀ n a, Consults n Outcome fun _ => enter f a) {w : World}
    {agentModel prompt : Value} {p : Position} {t : Talk} (h : Resolved w agentModel prompt p t) :
    w.calls.size < (ask engine enter f agentModel prompt p w).2.calls.size := by
  obtain ⟨turns, n, result, -, hconversed⟩ := ask_conversed engine enter f h
  have hrequested := hconversed.requested henter h.conversation (Nat.lt_succ_self _)
  obtain ⟨new, hnew⟩ := hrequested.kept
  have hone := hconversed.count_le.1
  have hcount := hrequested.count
  rw [callsOf_of_append hnew] at hcount
  have hlength := List.length_filter_le (·.context.conversation = t.conversation) new
  have hsize := congrArg List.length hnew
  simp only [List.length_append, Array.length_toList] at hsize
  omega

/-- The protocol of conversations. If the agent cannot be found, nothing happens but a failure.
Otherwise there are turns up to the first after which the conversation stops, or up to one that
fails; there is one request for each, and the requests are numbered. -/
theorem ask_protocol (engine : Engine) (enter : Enter) (f : Frame) (levels : Nat)
    (henter : ∀ a, enter f a = Exec.enter engine levels f a) (agentModel prompt : Value)
    (p : Position) (w : World) :
    let run := ask engine enter f agentModel prompt p w
    ((¬ ∃ t, Resolved w agentModel prompt p t) → ∃ e, run = (.error (.failed e), w)) ∧
    ∀ t, Resolved w agentModel prompt p t → ∃ turns n result,
      Conversed engine enter f t { w with conversations := w.conversations + 1 } turns n result
        run.2 ∧
      run.1 = result.map Value.string ∧ Requested t turns n w run.2 ∧ 1 ≤ n ∧
      (AgentModel.kind.Filled w.models → n ≤ t.model.maxTurns) := by
  intro run
  have hconsults (n : Nat) (a : Activation) : Consults n Outcome fun _ => enter f a := by
    simp only [henter]
    exact enter_consults levels f a
  refine ⟨ask_unresolved engine enter f, fun t ht => ?_⟩
  obtain ⟨name, -, hmodel⟩ := ht.model
  obtain ⟨turns, n, result, hresult, hconversed⟩ := ask_conversed engine enter f ht
  obtain ⟨hone, hmax⟩ := hconversed.count_le
  have hrequested := hconversed.requested hconsults ht.conversation (Nat.lt_succ_self _)
  exact ⟨turns, n, result, hconversed, hresult, hrequested.of_open, hone,
    fun hfilled => hmax (AgentModel.maxTurns_ne_zero hfilled hmodel)⟩

/-- An agent that always asks for another turn and says the same again: the second turn is its last,
though three more would be allowed, and only the second request tells of an output. -/
theorem ask_protocol_of_parrot :
    let engine : Engine := { grammar := fun _ => .ok [Step.emit (.string "again")] }
    let more : ChatReply := { text := "\x7b\"loop\": \x7b\"signal\": \" Continue \"\x7d\x7d" }
    let parrot : Provider := { name := "parrot", chat := fun _ _ _ => .ok more }
    let model : AgentModel := { name := "echo", model := "m", allowLoop := true }
    let w : World :=
      { models := Table.ofList [("echo", model)]
        providers :=
          { providers := Table.ofList [("parrot", ⟨0, parrot⟩)], primary := some "parrot" } }
    let t : Talk :=
      { model := model, provider := ⟨0, parrot⟩, apiKey := "", prompt := Value.toJson .nil,
        conversation := .ask 0, position := .unknown }
    let run := ask engine engine.enter .root (.string "echo") .nil .unknown w
    (Resolved w (.string "echo") .nil .unknown t ∧ AgentModel.kind.Filled w.models ∧ t.Legible) ∧
      run.1 = .ok (.string "again") ∧
      ∃ turns e₁ e₂,
        Conversed engine engine.enter .root t { w with conversations := 1 } turns 2 (.ok "again")
          run.2 ∧
        (w.callsOf run.2 t.conversation).map (fun c => Envelope.parse c.request.prompt) =
          [.ok e₁, .ok e₂] ∧
        e₁.userData.find? ["fields", "previous_output"] = none ∧
        e₂.userData.find? ["fields", "previous_output"] = some (.string "again") := by
  intro engine more parrot model w t run
  have ht : Resolved w (.string "echo") .nil .unknown t :=
    ⟨⟨"echo", rfl, rfl⟩, rfl, rfl, rfl, rfl, rfl⟩
  have hlegible : t.Legible := ⟨trivial, by simp [t, Value.toJson, Json.numbers], by decide⟩
  have hstored : AgentModel.kind.register {} model = .ok w.models := by
    dsimp only [w, model]
    rfl
  have hrun : run.1.toOption.map Value.display = some "again" := by
    dsimp only [run, t, w, model, parrot, more, engine]
    decide +kernel
  have hcount : (w.callsOf run.2 t.conversation).length = 2 := by
    dsimp only [run, t, w, model, parrot, more, engine]
    decide +kernel
  obtain ⟨-, hask⟩ := ask_protocol engine engine.enter .root (engine.levels .root) (fun _ => rfl)
    (.string "echo") .nil .unknown w
  obtain ⟨turns, n, result, hconversed, hresult, hrequested, -, -⟩ := hask t ht
  obtain rfl : n = 2 := hrequested.count.symm.trans hcount
  obtain rfl : result = .ok "again" := by
    rw [hresult] at hrun
    cases result with
    | error i => cases hrun
    | ok text => exact congrArg Except.ok (Option.some.inj hrun)
  obtain ⟨c₁, c₂, hcalls⟩ := List.length_eq_two.1 hcount
  obtain ⟨e₁, -, hparse₁, -, -, hprevious₁⟩ := (hrequested.numbered 0 c₁ (by rw [hcalls]; rfl)).prompt
  obtain ⟨e₂, -, hparse₂, -, -, -⟩ := (hrequested.numbered 1 c₂ (by rw [hcalls]; rfl)).prompt
  replace hparse₁ := hparse₁ hlegible (by decide)
  replace hparse₂ := hparse₂ hlegible (by decide)
  have hprompt : (w.callsOf run.2 t.conversation)[1]?.map (·.request.prompt) =
      some (callOf engine t 2 (some "again")).request.prompt := by
    dsimp only [run, t, w, model, parrot, more, engine]
    decide +kernel
  rw [hcalls] at hprompt
  replace hprompt : c₂.request.prompt = _ := Option.some.inj hprompt
  obtain ⟨e, -, hparse, -, -, hagain⟩ := (callOf_asks engine t 2 (some "again")).prompt
  obtain rfl : e₂ = e := by
    rw [hprompt, hparse hlegible (by decide)] at hparse₂
    exact (Except.ok.inj hparse₂).symm
  exact ⟨⟨ht, .register .empty hstored, hlegible⟩, hresult, turns, e₁, e₂, hconversed,
    by simp [hcalls, hparse₁, hparse₂], hprevious₁, hagain⟩

end Exec
end StepScript
