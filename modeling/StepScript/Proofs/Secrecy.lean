import StepScript.Proofs.Conversation
import StepScript.Proofs.Reachable

/-!
# StepScript.Proofs.Secrecy

The keys of accounts do not reach scripts.

* `World.veiled` — a world in which no key can be read, neither in the accounts nor in the record of
  the calls of providers.
* `Exec.Blind`   — to run a computation behind the veil is to run it as it is and to draw the veil
  afterwards. The two computations may differ in a key that they hold themselves.
* `Exec.exchange_blind` — a request, which holds the key, is such a computation if the provider
  replies to everybody alike; `Exec.enter_blind` and `HostCall.exec_blind` — so is all that scripts do.
* `HostCall.perform_secret` — hence two runs that start from worlds with different keys are the same
  but for the keys in their requests.
-/

namespace StepScript

/-! ## Drawing the veil -/

def Account.veiled (a : Account) : Account := { a with apiKey := "" }

def ProviderCall.veiled (c : ProviderCall) : ProviderCall :=
  { c with request := { c.request with apiKey := "" } }

/-- Whoever asks gets the same reply. -/
def Provider.Impartial (p : Provider) : Prop :=
  ∀ earlier context request key,
    p.chat earlier context { request with apiKey := key } = p.chat earlier context request

/-- A provider that is found is registered under some name. -/
theorem ProviderRegistry.registered_of_get {registry : ProviderRegistry} {name : String}
    {r : Registration} (h : registry.get name = .ok r) :
    ∃ name', registry.providers.get? name' = some r := by
  unfold get at h
  simp only [bind, Except.bind] at h
  split at h
  · split at h
    · next primary _ =>
      split at h
      · next hr => cases h; exact ⟨primary, hr⟩
      · cases h
    · cases h
  · split at h
    · next hr => cases h; exact ⟨name, hr⟩
    · cases h

namespace World

/-- The world without the keys of the accounts and of the requests that were made. -/
def veiled (w : World) : World :=
  { w with accounts := w.accounts.map Account.veiled, calls := w.calls.map ProviderCall.veiled }

def Impartial (w : World) : Prop :=
  ∀ name r, w.providers.providers.get? name = some r → r.provider.Impartial

theorem bindAll_veiled (id : InstanceId) (pairs : List (String × Value)) : ∀ w : World,
    w.veiled.bindAll id pairs = (w.bindAll id pairs).veiled := by
  induction pairs with
  | nil => intro w; rfl
  | cons p rest ih => intro w; exact ih (w.bind id p.1 p.2)

theorem account_veiled (w : World) (name : String) :
    Account.kind.get w.veiled.accounts name = (Account.kind.get w.accounts name).map .veiled := by
  have hget : w.veiled.accounts.get? name = (w.accounts.get? name).map .veiled :=
    w.accounts.get?_map Account.veiled name
  simp only [RecordKind.get, hget]
  cases w.accounts.get? name <;> rfl

end World

/-- A conversation as it is held, or behind the veil. -/
def Talk.behind (t : Talk) : Bool → Talk
  | true => { t with apiKey := "" }
  | false => t

namespace Talk

variable (t : Talk) (i : Bool)

@[simp] theorem behind_model : (t.behind i).model = t.model := by cases i <;> rfl

@[simp] theorem behind_provider : (t.behind i).provider = t.provider := by cases i <;> rfl

@[simp] theorem behind_prompt : (t.behind i).prompt = t.prompt := by cases i <;> rfl

@[simp] theorem behind_conversation : (t.behind i).conversation = t.conversation := by
  cases i <;> rfl

@[simp] theorem behind_position : (t.behind i).position = t.position := by cases i <;> rfl

end Talk

namespace Exec

variable {engine : Engine} {enter : Enter} {f : Frame} {α β : Type}

/-- The second computation does behind the veil what the first one does, and providers stay
impartial. -/
def Blind (α : Type) (X : Bool → Exec α) : Prop :=
  ∀ w : World, w.Impartial →
    X true w.veiled = ((X false w).1, (X false w).2.veiled) ∧ (X false w).2.Impartial

namespace Blind

variable {X : Bool → Exec α}

/-- Computations that do not look behind the veil, and leave the providers alone. -/
theorem of_same {x : Exec α} (hx : ∀ w, x w.veiled = ((x w).1, (x w).2.veiled))
    (hp : ∀ w, (x w).2.providers = w.providers) : Blind α fun _ => x := by
  refine fun w hw => ⟨hx w, fun name r hr => hw name r ?_⟩
  rw [← hp w]
  exact hr

theorem bind {K : Bool → α → Exec β} (hX : Blind α X) (hK : ∀ a, Blind β fun i => K i a) :
    Blind β fun i => X i >>= K i := by
  intro w hw
  obtain ⟨hx, himpartial⟩ := hX w hw
  rcases hrun : X false w with ⟨r, w'⟩
  rw [hrun] at hx himpartial
  cases r with
  | error i =>
    simp only
    rw [bind_error hx, bind_error hrun]
    exact ⟨rfl, himpartial⟩
  | ok a =>
    simp only
    rw [bind_ok hx, bind_ok hrun]
    exact hK a w' himpartial

theorem attempt (hX : Blind α X) :
    Blind (Except RuntimeError α) fun i => Exec.attempt (X i) := by
  intro w hw
  obtain ⟨hx, himpartial⟩ := hX w hw
  rcases hrun : X false w with ⟨(e | text) | a, w'⟩ <;> rw [hrun] at hx himpartial <;> simp only
  · rw [attempt_failed hx, attempt_failed hrun]
    exact ⟨rfl, himpartial⟩
  · rw [attempt_crashed hx, attempt_crashed hrun]
    exact ⟨rfl, himpartial⟩
  · rw [attempt_ok hx, attempt_ok hrun]
    exact ⟨rfl, himpartial⟩

theorem sequenced : Sequenced (fun _ => True) Blind where
  pure a := of_same (fun _ => rfl) fun _ => rfl
  bind := bind
  attempt {α β X K} hX hok herror := by
    refine bind hX.attempt fun r => ?_
    cases r with
    | ok a => exact hok a
    | error e => exact herror e trivial
  fail _ := of_same (fun _ => rfl) fun _ => rfl
  unwired _ := trivial
  crash text _ := of_same (fun _ => rfl) fun _ => rfl
  plain _ := trivial
  placed _ _ := trivial

/-- Computations may go on with the world as far as they do not look behind the veil. -/
theorem reading {K : Bool → World → Exec β} (hview : ∀ w : World, K true w.veiled = K true w)
    (hK : ∀ w, Blind β fun i => K i w) : Blind β fun i => get >>= K i := by
  intro w hw
  show K true w.veiled w.veiled = ((K false w w).1, (K false w w).2.veiled) ∧
    (K false w w).2.Impartial
  rw [hview]
  exact hK w w hw

theorem lookups : Lookups Blind where
  procedures hK := reading (fun _ => rfl) fun w => hK w.root.procedures
  models hK := reading (fun _ => rfl) fun w => hK w.models

theorem rooted : Rooted Blind := ⟨fun hK => reading (fun _ => rfl) fun w => hK w.root⟩

theorem ensuring (hX : Blind α X) {g : World → World} (hg : ∀ w : World, g w.veiled = (g w).veiled)
    (hp : ∀ w, (g w).providers = w.providers) : Blind α fun i => Exec.ensuring (X i) g := by
  intro w hw
  obtain ⟨hx, himpartial⟩ := hX w hw
  simp only [ensuring_apply]
  refine ⟨by rw [hx, hg], fun name r hr => himpartial name r ?_⟩
  rw [← hp]
  exact hr

end Blind

/-! ## Variables, emissions and events -/

theorem note_blind (e : Effect) : Blind Unit fun _ => note e :=
  .of_same (fun _ => rfl) fun _ => rfl

theorem bindLocal_blind (name : String) (v : Value) : Blind Unit fun _ => bindLocal f name v :=
  .of_same (fun _ => rfl) fun _ => rfl

theorem read_blind (name : String) : Blind Value fun _ => read engine f name := by
  refine Blind.reading (fun _ => rfl) fun w => ?_
  split
  · exact Blind.sequenced.pure _
  · exact Blind.sequenced.fault rfl

/-- A change of the world that is the same behind the veil. -/
theorem change_blind {x : World → Except Fault World}
    (hx : ∀ w : World, x w.veiled = (x w).map World.veiled)
    (hp : ∀ w, (change x w).2.providers = w.providers) : Blind Unit fun _ => change x := by
  refine .of_same (fun w => ?_) hp
  cases h : x w with
  | ok w' => rw [change_ok h, change_ok ((hx w).trans (congrArg _ h))]
  | error fault => rw [change_error h, change_error ((hx w).trans (congrArg _ h))]

theorem write_blind (name : String) (v : Value) : Blind Unit fun _ => write engine f name v := by
  refine change_blind (fun w => ?_) fun w => ?_
  · have hconstant : w.veiled.isConstant engine.symbols name = w.isConstant engine.symbols name := rfl
    have hglobal : w.veiled.isGlobal f name = w.isGlobal f name := rfl
    simp only [World.assign, hconstant, hglobal]
    split
    · rfl
    · split
      · split <;> rfl
      · rfl
  · show (write engine f name v w).2.providers = w.providers
    rcases write_world engine f name v w with h | ⟨-, h⟩ | h <;> rw [h] <;> rfl

theorem defineGlobal_blind (name : String) (v : Value) :
    Blind Unit fun _ => change (·.defineGlobal engine.symbols f name v) := by
  refine change_blind (fun w => ?_) fun w => ?_
  · have hconstant : w.veiled.isConstant engine.symbols name = w.isConstant engine.symbols name := rfl
    simp only [World.defineGlobal, hconstant]
    split
    · rfl
    · split <;> rfl
  · rcases defineGlobal_world engine.symbols f name v w with h | h
    · rw [h]
    · rw [h]
      rfl

theorem defineConstant_blind (name : String) (v : Value) :
    Blind Unit fun _ => change (·.defineConstant f name v) := by
  refine change_blind (fun w => ?_) fun w => ?_
  · have hroot : w.veiled.root = w.root := rfl
    simp only [World.defineConstant, hroot]
    split
    · rfl
    · split <;> rfl
  · obtain ⟨constants, h⟩ := defineConstant_world f name v w
    rw [h]

theorem emit_blind (v : Value) : Blind Unit fun _ => emit engine f v := by
  unfold emit
  split
  · exact note_blind _
  · exact Blind.sequenced.pure _

theorem whisper_blind (handle data : Value) : Blind Unit fun _ => whisper engine handle data := by
  unfold whisper
  split
  · exact note_blind _
  · exact Blind.sequenced.pure _

theorem report_blind (event source : String) (e : RuntimeError) :
    Blind Unit fun _ => report engine event source e := by
  unfold report
  split
  · exact note_blind _
  · exact Blind.sequenced.pure _

theorem promptUser_blind (text : String) : Blind Value fun _ => promptUser engine text := by
  unfold promptUser
  split
  · exact Blind.sequenced.fault rfl
  · refine (note_blind _).bind fun _ => .reading (fun _ => rfl) fun w => ?_
    refine Blind.bind (.of_same (fun _ => rfl) fun _ => rfl) fun _ => ?_
    exact Blind.sequenced.ofExcept fun _ _ => trivial

theorem fork_blind (label : String) (handler : Option (List Step)) (outlet : Outlet) :
    Blind Frame fun _ => fork engine f label handler outlet := by
  unfold fork
  split
  · exact .of_same (fun _ => rfl) fun _ => rfl
  · exact Blind.sequenced.fail trivial

theorem start_blind (name source : String) (event : Value) (h : EventHandler) :
    Blind Nat fun _ => start engine f name source event h := by
  unfold start
  refine Blind.sequenced.attempt (fork_blind _ _ _) (fun child => ?_) fun e _ => ?_
  · exact Blind.bind (.of_same (fun _ => rfl) fun _ => rfl) fun _ => Blind.sequenced.pure _
  · exact (report_blind _ _ _).bind fun _ => Blind.sequenced.pure _

theorem raise_blind (name source : String) (payload : Value) :
    Blind Nat fun _ => raise engine f name source payload := by
  have hall (event : Value) (handlers : List EventHandler) :
      Blind Nat fun _ => startAll engine f name source event handlers := by
    induction handlers with
    | nil => exact Blind.sequenced.pure _
    | cons h rest ih =>
      exact (start_blind name source event h).bind fun _ => ih.bind fun _ => Blind.sequenced.pure _
  unfold raise
  refine Blind.reading (fun _ => rfl) fun w => ?_
  split
  · exact Blind.sequenced.pure _
  · split
    · exact hall _ _
    · exact Blind.sequenced.crash _ trivial

/-! ## Conversations -/

/-- Behind the veil the same agent is found, or nobody for the same reason. -/
theorem resolve_veiled (w : World) (name : String) (prompt : Value) (p : Position) :
    Talk.resolve w.veiled name prompt p = (Talk.resolve w name prompt p).map (·.behind true) := by
  have hmodels : w.veiled.models = w.models := rfl
  have hproviders : w.veiled.providers = w.providers := rfl
  simp only [Talk.resolve, hmodels, hproviders]
  cases AgentModel.kind.get w.models name with
  | error e => rfl
  | ok model =>
    dsimp only
    cases w.providers.get model.provider with
    | error e => rfl
    | ok provider =>
      dsimp only [apiKey]
      cases model.account with
      | none => rfl
      | some account =>
        dsimp only
        rw [w.account_veiled account]
        cases Account.kind.get w.accounts account <;> rfl

theorem chat_apply (r : Registration) (c : ChatContext) (q : ChatRequest) (w : World) :
    let entry : ProviderCall := ⟨r.serial, r.provider.name, r.provider.transcribed, c, q⟩
    Exec.chat r c q w =
      (.ok (r.provider.chat (w.calls.filter (·.serial = r.serial)).size c q),
        { w with calls := w.calls.push entry }) := rfl

/-- A call of an impartial provider is answered alike, whichever key it brings. -/
theorem chat_blind {r : Registration} (hr : r.provider.Impartial) (c : ChatContext)
    {q : Bool → ChatRequest} (hq : q true = { q false with apiKey := "" }) :
    Blind (Except ProviderError ChatReply) fun i => Exec.chat r c (q i) := by
  intro w hw
  have hearlier : (w.veiled.calls.filter (·.serial = r.serial)).size =
      (w.calls.filter (·.serial = r.serial)).size := by
    show ((w.calls.map ProviderCall.veiled).filter (·.serial = r.serial)).size = _
    rw [Array.filter_map, Array.size_map]
    rfl
  have hreply := hr (w.calls.filter (·.serial = r.serial)).size c (q false) ""
  refine ⟨?_, hw⟩
  simp only [chat_apply, hearlier, hq, hreply]
  simp [World.veiled, ProviderCall.veiled]

/-- The key goes into the request and nowhere else. -/
theorem exchange_blind {t : Talk} (ht : t.provider.provider.Impartial) (turn : Nat)
    (previous : Option String) :
    Blind Envelope fun i => exchange engine (t.behind i) turn previous := by
  simp only [exchange, Talk.behind_model, Talk.behind_provider, Talk.behind_prompt,
    Talk.behind_conversation, Talk.behind_position]
  refine (chat_blind ht _ rfl).bind fun reply => ?_
  cases reply with
  | error e => exact Blind.sequenced.fail trivial
  | ok reply =>
    dsimp only
    split
    · exact Blind.sequenced.pure _
    · exact Blind.sequenced.fail trivial

section Instance

variable (henter : ∀ a, Blind Outcome fun _ => enter f a)

include henter

theorem act_blind (t : Talk) (turn : Nat) (reply : Envelope) :
    Blind String fun i => act engine enter f (t.behind i) turn reply := by
  simp only [act, Talk.behind_model, Talk.behind_position]
  refine Blind.bind ?_ fun steps => ?_
  · unfold placed
    split
    · exact Blind.sequenced.pure _
    · exact Blind.sequenced.fail trivial
  refine (Blind.sequenced.ofExcept fun _ _ => trivial).bind fun body => ?_
  refine .reading (fun _ => rfl) fun w => ?_
  refine Blind.bind (.of_same (fun _ => rfl) fun _ => rfl) fun _ => (henter _).bind fun _ => ?_
  exact .reading (fun _ => rfl) fun w => Blind.sequenced.pure _

theorem converse_blind {t : Talk} (ht : t.provider.provider.Impartial) (left : Nat) :
    ∀ turn previous, Blind String fun i =>
      converse engine enter f (t.behind i) left turn previous := by
  have hturn (turn : Nat) (previous : Option String) : Blind (Envelope × String) fun i =>
      takeTurn engine enter f (t.behind i) turn previous :=
    (exchange_blind ht turn previous).bind fun reply =>
      (act_blind henter t turn reply).bind fun _ => Blind.sequenced.pure _
  have hend (turn : Nat) (output : String) (v : Verdict) :
      Blind String fun i => conclude (t.behind i) turn output v := by
    cases v with
    | again | finished => exact Blind.sequenced.pure _
    | aborted _ | rejected =>
      simp only [conclude, Talk.behind_model, Talk.behind_position]
      exact Blind.sequenced.fail trivial
  induction left with
  | zero =>
    intro turn previous
    simp only [converse, Talk.behind_model]
    exact (hturn turn previous).bind fun r => hend _ _ _
  | succ left ih =>
    intro turn previous
    simp only [converse, Talk.behind_model]
    refine (hturn turn previous).bind fun r => ?_
    split
    · exact ih _ _
    · exact hend _ _ _

/-- The key is looked up under the same name; whether it is found does not depend on it. -/
theorem ask_blind (agentModel prompt : Value) (p : Position) :
    Blind Value fun _ => ask engine enter f agentModel prompt p := by
  cases agentModel with
  | nil | number _ | bool _ | list _ | map _ | handle _ _ => exact Blind.sequenced.fail trivial
  | string name =>
    intro w hw
    have hveiled := resolve_veiled w name prompt p
    cases hresolve : Talk.resolve w name prompt p with
    | error e =>
      rw [hresolve] at hveiled
      have hrun := ask_of_nobody engine enter f hresolve
      simp only [hrun]
      exact ⟨ask_of_nobody engine enter f hveiled, hw⟩
    | ok t =>
      rw [hresolve] at hveiled
      have ht : t.provider.provider.Impartial := by
        obtain ⟨registered, hr⟩ :=
          ProviderRegistry.registered_of_get (resolve_eq_ok_iff.1 hresolve).provider
        exact hw registered t.provider hr
      obtain ⟨hconverse, himpartial⟩ := converse_blind henter ht (t.model.maxTurns - 1) 1 none
        { w with conversations := w.conversations + 1 } hw
      simp only [ask_of_resolve engine enter f hveiled, ask_of_resolve engine enter f hresolve]
      refine ⟨?_, himpartial⟩
      exact congrArg (fun run => (run.1.map Value.string, run.2)) hconverse

theorem callees_blind : Callees Blind engine (fun _ => enter) (fun _ => f) f.outlet := by
  have hcalls : Calls Blind engine (fun _ => enter) (fun _ => f) f.outlet :=
    { outlet := fun _ => rfl
      enter := henter
      raise := raise_blind
      consult := fun _ _ => note_blind _
      enterTool := fun _ => note_blind _
      host := fun _ _ _ => Blind.sequenced.ofInterrupt _ }
  exact hcalls.callees Blind.sequenced Blind.lookups

theorem run_blind (mode : Mode) (steps : List Step) :
    Blind Outcome fun _ => run engine enter f mode steps := by
  have hprimitives : Primitives Blind engine (fun _ => enter) (fun _ => f) :=
    { read := read_blind
      call := (callees_blind henter).call Blind.sequenced Blind.lookups
      write := write_blind
      ask := ask_blind henter
      emit := emit_blind
      whisper := whisper_blind
      promptUser := promptUser_blind
      clear := note_blind _ }
  exact run_closed Blind.sequenced hprimitives (fun _ => rfl) (fun _ => note_blind _)
    bindLocal_blind ⟨trivial, trivial⟩ (fun _ _ => trivial) (fun _ _ => trivial) steps

end Instance

theorem enter_blind (levels : Nat) : ∀ (f : Frame) (a : Activation),
    Blind Outcome fun _ => Exec.enter engine levels f a := by
  induction levels with
  | zero => intro f a; exact Blind.sequenced.fail trivial
  | succ levels ih =>
    intro f a
    have hbranch : Blind Frame fun _ => branch f a.label a.body.handler a.outlet :=
      .of_same (fun _ => rfl) fun _ => rfl
    refine hbranch.bind fun child => Blind.bind ?_ fun _ => ?_
    · refine .of_same (fun w => ?_) fun w => ?_
      · exact congrArg (Prod.mk _) (w.bindAll_veiled child.id a.bindings)
      · obtain ⟨instances, hbound⟩ := bindAll_eq child.id a.bindings w
        simp only [modify_apply, hbound]
    · refine Blind.ensuring ?_ (fun _ => rfl) fun _ => rfl
      exact Blind.sequenced.mapError (run_blind (ih child) {} a.body.steps) fun _ _ => trivial

end Exec

/-! ## Calls of the host and handlers -/

open Exec

theorem HostCall.exec_blind {α : Type} (engine : Engine) (f : Frame) (c : HostCall α) :
    Blind α fun _ => c.exec engine f := by
  have henter : ∀ a, Blind Outcome fun _ => engine.enter f a :=
    enter_blind (engine.levels f) f
  cases c with
  | ask agentModel prompt p => exact ask_blind henter agentModel prompt p
  | request r =>
    exact r.exec_of_operations Blind.sequenced Blind.rooted
      (fun op _ => op.exec_of_callees Blind.sequenced Blind.lookups Blind.rooted
        (callees_blind henter) read_blind fun _ => raise_blind)
      (run_blind henter) write_blind defineGlobal_blind defineConstant_blind
      (fun _ => .of_same (fun _ => rfl) fun _ => rfl) fun _ _ _ => fork_blind _ _ _

namespace Engine

variable (engine : Engine)

/-- A handler does behind the veil what it does otherwise. -/
theorem runPending_veiled (p : Pending) {w : World} (hw : w.Impartial) :
    engine.runPending p w.veiled = (engine.runPending p w).veiled ∧
      (engine.runPending p w).Impartial := by
  have henter : ∀ a, Blind Outcome fun _ => engine.enter p.frame a :=
    enter_blind (engine.levels p.frame) p.frame
  have hbody : Blind Outcome fun _ => engine.handlerBody p :=
    handlerBody_closed Blind.sequenced (fun _ => rfl) (fun _ => rfl) bindLocal_blind
      (run_blind henter {} _)
  obtain ⟨hveiled, himpartial⟩ := hbody { w with trace := #[] } hw
  have hrun : engine.handlerBody p { w.veiled with trace := #[] } =
      ((engine.handlerBody p { w with trace := #[] }).1,
        (engine.handlerBody p { w with trace := #[] }).2.veiled) := hveiled
  refine ⟨?_, ?_⟩
  · rw [runPending_eq, runPending_eq, hrun]
    rfl
  · rw [runPending_eq]
    exact himpartial

theorem runRound_veiled (queue : List Pending) : ∀ {w : World}, w.Impartial →
    engine.runRound queue w.veiled =
        ((engine.runRound queue w).1, (engine.runRound queue w).2.veiled) ∧
      (engine.runRound queue w).2.Impartial := by
  induction queue with
  | nil => intro w hw; exact ⟨rfl, hw⟩
  | cons p rest ih =>
    intro w hw
    obtain ⟨hp, himpartial⟩ := engine.runPending_veiled p hw
    obtain ⟨hrest, himpartial'⟩ := ih himpartial
    refine ⟨?_, himpartial'⟩
    simp only [runRound, hp, hrest]
    rfl

theorem settleRounds_veiled (rounds : Nat) : ∀ {w : World}, w.Impartial →
    engine.settleRounds rounds w.veiled =
        ((engine.settleRounds rounds w).1, (engine.settleRounds rounds w).2.veiled) ∧
      (engine.settleRounds rounds w).2.Impartial := by
  induction rounds with
  | zero => intro w hw; exact ⟨rfl, hw⟩
  | succ rounds ih =>
    intro w hw
    have hpending : w.veiled.pending = w.pending := rfl
    simp only [settleRounds, hpending]
    cases w.pending with
    | nil => exact ⟨rfl, hw⟩
    | cons p rest =>
      have hopen : World.Impartial { w with pending := [] } := hw
      have hveiled : World.veiled { w with pending := [] } = { w.veiled with pending := [] } := rfl
      obtain ⟨hround, himpartial⟩ := engine.runRound_veiled (p :: rest) hopen
      obtain ⟨hlater, himpartial'⟩ := ih himpartial
      rw [hveiled] at hround
      refine ⟨?_, himpartial'⟩
      simp only [hround, hlater]

/-- What is done behind the veil, with all handlers that come of it. -/
theorem perform_veiled {α : Type} {x : Exec α} (hx : Blind α fun _ => x) {w : World}
    (hw : w.Impartial) :
    engine.perform x w.veiled =
        { engine.perform x w with world := (engine.perform x w).world.veiled } ∧
      (engine.perform x w).world.Impartial := by
  obtain ⟨hrun, himpartial⟩ := hx { w with trace := #[] } hw
  have hveiled : World.veiled { w with trace := #[] } = { w.veiled with trace := #[] } := rfl
  obtain ⟨hsettle, himpartial'⟩ := engine.settleRounds_veiled engine.config.maxCallDepth himpartial
  rw [hveiled] at hrun
  simp only [perform, settle, hrun, hsettle]
  exact ⟨rfl, himpartial'⟩

end Engine

/-- Keys are secret. Of two worlds that differ in the keys of accounts alone, with providers that do
not reply to keys, a call of the host makes two worlds that differ in the keys of accounts and requests
alone; it answers the same, and all that it and its handlers do meanwhile is the same. -/
theorem HostCall.perform_secret {α : Type} (engine : Engine) (f : Frame) (c : HostCall α)
    (w w' : World) (hkeys : w.veiled = w'.veiled) (hproviders : w.Impartial) :
    let s := engine.perform (c.exec engine f) w
    let s' := engine.perform (c.exec engine f) w'
    s.result = s'.result ∧ s.trace = s'.trace ∧ s.handlers = s'.handlers ∧
      s.world.veiled = s'.world.veiled ∧ s.world.Impartial := by
  intro s s'
  have hproviders' : w'.Impartial := by
    have hsame : w.veiled.providers = w'.veiled.providers := by rw [hkeys]
    intro name r hr
    exact hproviders name r (hsame ▸ hr)
  obtain ⟨hs, himpartial⟩ := engine.perform_veiled (c.exec_blind engine f) hproviders
  obtain ⟨hs', -⟩ := engine.perform_veiled (c.exec_blind engine f) hproviders'
  have hsame : { s with world := s.world.veiled } = { s' with world := s'.world.veiled } := by
    rw [← hs, ← hs', hkeys]
  rw [Engine.Settled.mk.injEq] at hsame
  obtain ⟨hresult, htrace, hhandlers, hworld⟩ := hsame
  exact ⟨hresult, htrace, hhandlers, hworld, himpartial⟩

/-- An agent is asked with one key or the other. The requests show which, and nothing else does. -/
theorem HostCall.perform_secret_of_asked :
    let engine : Engine := { grammar := fun _ => .ok [Step.emit (.string "done")] }
    let agent : Provider := .scripted "agent" [.ok "\x7b\x7d"]
    let model : AgentModel := { name := "helper", model := "m", account := some "billing" }
    let withKey (key : String) : World :=
      { models := Table.ofList [("helper", model)]
        accounts := Table.ofList [("billing", ⟨"billing", "agent", key⟩)]
        providers :=
          { providers := Table.ofList [("agent", ⟨0, agent⟩)], primary := some "agent" } }
    let w := withKey "one"
    let w' := withKey "other"
    let c : HostCall Value := .ask (.string "helper") .nil .unknown
    let s := engine.perform (c.exec engine .root) w
    let s' := engine.perform (c.exec engine .root) w'
    (w.veiled = w'.veiled ∧ w.Impartial) ∧
      (s.world.calls.map (·.request.apiKey) = #["one"] ∧
        s'.world.calls.map (·.request.apiKey) = #["other"]) ∧
      s.result = s'.result ∧ s.trace = s'.trace ∧ s.world.veiled = s'.world.veiled := by
  intro engine agent model withKey w w' c s s'
  have hkeys : w.veiled = w'.veiled := rfl
  have hproviders : w.Impartial := by
    intro name r hr
    obtain ⟨-, rfl⟩ := Prod.mk.inj (List.mem_singleton.1 (Table.mem_of_get?_ofList hr))
    exact fun _ _ _ _ => rfl
  obtain ⟨hresult, htrace, -, hworld, -⟩ := c.perform_secret engine .root w w' hkeys hproviders
  refine ⟨⟨hkeys, hproviders⟩, ⟨?_, ?_⟩, hresult, htrace, hworld⟩
  · dsimp only [s, c, w, withKey, model, agent, engine]
    decide +kernel
  · dsimp only [s', c, w', withKey, model, agent, engine]
    decide +kernel

end StepScript
