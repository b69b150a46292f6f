import StepScript.Proofs.Handling

/-!
# StepScript.Proofs.Clearing

What a handler can make of a failure that it does not clear.

* `Step.clearIn`   — whether a block has a `clear_error`, at any depth.
* `Exec.Returns`   — what a computation can return.
* `Exec.runBlock_goes` — a block returns only outside of handlers, and clears only inside of them
  and only if it has a `clear_error`.
* `Exec.runHandler_uncleared` — so without a `clear_error` a handler clears nothing.
* `Engine.recovery_needs_clear` — then a failure is not made good, unless the handler ends with a
  loop signal, which takes the place of the failure.
-/

namespace StepScript

mutual

def Action.hasClear : Action → Bool
  | .clearError => true
  | .branch _ thenBlock none => Step.clearIn thenBlock
  | .branch _ thenBlock (some elseBlock) => Step.clearIn thenBlock || Step.clearIn elseBlock
  | .loop _ body => Step.clearIn body
  | .forEach _ _ body => Step.clearIn body
  | .onError body => Step.clearIn body
  | _ => false

def Step.clearIn : List Step → Bool
  | [] => false
  | .mk _ action :: rest => action.hasClear || Step.clearIn rest

end

namespace Exec

variable {α β : Type}

def Returns (T : α → Prop) (x : Exec α) : Prop := ∀ w a w', x w = (.ok a, w') → T a

namespace Returns

variable {S : α → Prop} {T : β → Prop} {x : Exec α} {k : α → Exec β}

theorem pure {a : α} (h : S a) : Returns S (Pure.pure a) := by
  intro w a' w' hrun
  cases hrun
  exact h

theorem fail (e : RuntimeError) : Returns S (Exec.fail e) := by
  intro w a w' hrun
  cases hrun

theorem fault (f : Fault) : Returns S (Exec.fault f) := fail f.error

theorem bind (hx : Returns S x) (hk : ∀ a, S a → Returns T (k a)) : Returns T (x >>= k) := by
  intro w b w' hrun
  match hw : x w with
  | (.ok a, w₁) =>
    rw [bind_ok hw] at hrun
    exact hk a (hx w a w₁ hw) w₁ b w' hrun
  | (.error i, w₁) =>
    rw [bind_error hw] at hrun
    cases hrun

/-- What comes last returns the value. -/
theorem last (hk : ∀ a, Returns T (k a)) : Returns T (x >>= k) :=
  bind (fun _ _ _ _ => trivial : Returns (fun _ => True) x) fun a _ => hk a

theorem attempt {k : Except RuntimeError α → Exec β} (hx : Returns S x)
    (hok : ∀ a, S a → Returns T (k (.ok a))) (herror : ∀ e, Returns T (k (.error e))) :
    Returns T (Exec.attempt x >>= k) := by
  intro w b w' hrun
  match hw : x w with
  | (.ok a, w₁) =>
    rw [bind_ok (attempt_ok hw)] at hrun
    exact hok a (hx w a w₁ hw) w₁ b w' hrun
  | (.error (.failed e), w₁) =>
    rw [bind_ok (attempt_failed hw)] at hrun
    exact herror e w₁ b w' hrun
  | (.error (.crashed text), w₁) =>
    rw [bind_error (attempt_crashed hw)] at hrun
    cases hrun

end Returns

/-! ## Where blocks can go -/

variable {engine : Engine} {enter : Enter} {f : Frame} {mode : Mode}
variable {recover : RuntimeError → Exec Unit} {T : Flow → Prop}

abbrev Goes (T : Flow → Prop) (x : Exec StepResult) : Prop := Returns (fun r => T r.flow) x

/-- The block has ended as steps do that go only where `T` says. -/
def EndsBy (T : Flow → Prop) (o : Outcome) : Prop :=
  (o.returned = true → T .returned) ∧ (o.cleared = true → T .cleared)

section Flows

variable (hproceed : T .proceed) (hreturned : mode.inHandler = false → T .returned)

include hproceed hreturned

/-- Only a `return` outside of handlers returns, and only a `clear_error` inside of them clears. -/
theorem execSimple_goes (p : Position) (action : Action)
    (hcleared : action = .clearError → mode.inHandler = true → T .cleared) :
    Goes T (execSimple engine enter f mode p action) := by
  cases action with
  | set targets value =>
    simp only [execSimple]
    exact .last fun _ => .last fun _ => .pure hproceed
  | call e | expression e =>
    simp only [execSimple]
    exact .last fun _ => .pure hproceed
  | ret values =>
    simp only [execSimple]
    split
    · exact .fault _
    · next hmode => exact .last fun _ => .pure (hreturned (Bool.eq_false_iff.2 hmode))
  | emit e =>
    simp only [execSimple]
    exact .last fun _ => .last fun _ => .pure hproceed
  | whisper handle data =>
    simp only [execSimple]
    exact .last fun _ => .last fun _ => .last fun _ => .pure hproceed
  | must e =>
    simp only [execSimple]
    refine .last fun r => ?_
    cases r with
    | ok v =>
      dsimp only
      split
      · exact .pure hproceed
      · exact .fault _
    | error e =>
      dsimp only
      split
      · exact .fail _
      · exact .fail _
  | mustBe check args =>
    simp only [execSimple]
    refine .last fun _ => .last fun r => ?_
    cases r with
    | ok v =>
      dsimp only
      split
      · exact .pure hproceed
      · exact .fault _
    | error e => exact .fail _
  | fail message =>
    cases message with
    | some e => simp only [execSimple]; exact .last fun _ => .fault _
    | none =>
      simp only [execSimple]
      split
      · exact .fail _
      · exact .fault _
  | clearError =>
    simp only [execSimple]
    split
    · next hmode => exact .last fun _ => .pure (hcleared rfl hmode)
    · exact .fault _
  | ask agentModel prompt into =>
    simp only [execSimple]
    refine .last fun _ => .last fun _ => .last fun _ => ?_
    cases into with
    | some target => exact .last fun _ => .pure hproceed
    | none => exact .pure hproceed
  | promptUser prompt into =>
    simp only [execSimple]
    exact .last fun _ => .last fun _ => .last fun _ => .pure hproceed
  | breakLoop => simp only [execSimple]; exact .fault _
  | continueLoop => simp only [execSimple]; exact .fault _
  | branch _ _ _ | loop _ _ | forEach _ _ _ | onError _ =>
    simp only [execSimple]
    exact .pure hproceed

omit hreturned in
theorem ofOutcome_goes {o : Outcome} (h : EndsBy T o) : T (StepResult.ofOutcome o).flow := by
  simp only [StepResult.ofOutcome]
  split
  · exact h.1 (by assumption)
  · split
    · exact h.2 (by assumption)
    · exact hproceed

omit hreturned in
theorem ofLoop_goes {cleared : Bool} (h : cleared = true → T .cleared) :
    T (StepResult.ofLoop cleared).flow := by
  simp only [StepResult.ofLoop]
  split
  · exact h (by assumption)
  · exact hproceed

def LoopsBy (T : Flow → Prop) : LoopFlow → Prop
  | .leave => True
  | .next cleared => cleared = true → T .cleared
  | .returned _ => T .returned

omit hproceed hreturned in
theorem pass_goes {body : Exec Outcome} (hbody : Returns (EndsBy T) body) :
    Returns (LoopsBy T) (pass body) := by
  refine .attempt hbody (fun o ho => ?_) fun e => ?_
  · refine .pure ?_
    split
    · exact ho.1 (by assumption)
    · exact ho.2
  · dsimp only
    split
    · exact .pure trivial
    · exact .pure nofun
    · exact .fail e

omit hreturned in
theorem repeatWhile_goes {limit : Nat} {condition : Exec Bool} {body : Exec Outcome}
    (hbody : Returns (EndsBy T) body) (left : Nat) : ∀ cleared : Bool,
    (cleared = true → T .cleared) → Goes T (repeatWhile limit condition body left cleared) := by
  induction left with
  | zero =>
    intro cleared h
    simp only [repeatWhile]
    refine .last fun b => ?_
    cases b
    · exact .pure (ofLoop_goes hproceed h)
    · exact .fault _
  | succ left ih =>
    intro cleared h
    simp only [repeatWhile]
    refine .last fun b => ?_
    cases b
    · exact .pure (ofLoop_goes hproceed h)
    · refine .bind (pass_goes hbody) fun flow hflow => ?_
      cases flow with
      | leave => exact .pure (ofLoop_goes hproceed h)
      | next c => exact ih _ fun hc => (Bool.or_eq_true _ _ ▸ hc).elim h hflow
      | returned v => exact .pure hflow

omit hreturned in
theorem repeatFor_goes {limit : Nat} {visit : Value → Exec Unit} {body : Exec Outcome}
    (hbody : Returns (EndsBy T) body) (items : List Value) : ∀ (left : Nat) (cleared : Bool),
    (cleared = true → T .cleared) → Goes T (repeatFor limit visit body items left cleared) := by
  induction items with
  | nil => intro left cleared h; simp only [repeatFor]; exact .pure (ofLoop_goes hproceed h)
  | cons v rest ih =>
    intro left cleared h
    cases left with
    | zero => simp only [repeatFor]; exact .fault _
    | succ left =>
      simp only [repeatFor]
      refine .last fun _ => .bind (pass_goes hbody) fun flow hflow => ?_
      cases flow with
      | leave => exact .pure (ofLoop_goes hproceed h)
      | next c => exact ih _ _ fun hc => (Bool.or_eq_true _ _ ▸ hc).elim h hflow
      | returned v => exact .pure hflow

end Flows

mutual

theorem execAction_goes (hproceed : T .proceed) (hreturned : mode.inHandler = false → T .returned)
    (p : Position) : ∀ action,
    (Action.hasClear action = true → mode.inHandler = true → T .cleared) →
    Goes T (execAction engine enter f mode recover p action)
  | .branch condition thenBlock none, h => by
    have hthen := runBlock_goes hproceed hreturned thenBlock .nil false
      (fun hclear => h (by simpa [Action.hasClear] using hclear)) nofun
    simp only [execAction]
    refine .last fun v => ?_
    split
    · exact .bind hthen fun o ho => .pure (ofOutcome_goes hproceed ho)
    · exact .pure hproceed
  | .branch condition thenBlock (some elseBlock), h => by
    have hthen := runBlock_goes hproceed hreturned thenBlock .nil false
      (fun hclear => h (by simp [Action.hasClear, hclear])) nofun
    have helse := runBlock_goes hproceed hreturned elseBlock .nil false
      (fun hclear => h (by simp [Action.hasClear, hclear])) nofun
    simp only [execAction]
    refine .last fun v => ?_
    split
    · exact .bind hthen fun o ho => .pure (ofOutcome_goes hproceed ho)
    · exact .bind helse fun o ho => .pure (ofOutcome_goes hproceed ho)
  | .loop condition body, h => by
    have hbody := runBlock_goes hproceed hreturned body .nil false
      (fun hclear => h (by simpa [Action.hasClear] using hclear)) nofun
    simp only [execAction]
    exact repeatWhile_goes hproceed hbody _ false nofun
  | .forEach item collection body, h => by
    have hbody := runBlock_goes hproceed hreturned body .nil false
      (fun hclear => h (by simpa [Action.hasClear] using hclear)) nofun
    simp only [execAction]
    exact .last fun _ => .last fun items => repeatFor_goes hproceed hbody items _ false nofun
  | .set .., h | .call _, h | .ret _, h | .emit _, h | .whisper .., h | .must _, h | .mustBe .., h
  | .fail _, h | .onError _, h | .clearError, h | .ask .., h | .promptUser .., h | .breakLoop, h
  | .continueLoop, h | .expression _, h => by
    simp only [execAction]
    exact execSimple_goes hproceed hreturned p _ fun hclear => h (by rw [hclear]; rfl)

/-- A block goes where its steps can go, by induction over the syntax. -/
theorem runBlock_goes (hproceed : T .proceed) (hreturned : mode.inHandler = false → T .returned) :
    ∀ (steps : List Step) (last : Value) (cleared : Bool),
    (Step.clearIn steps = true → mode.inHandler = true → T .cleared) →
    (cleared = true → T .cleared) →
    Returns (EndsBy T) (runBlock engine enter f mode recover steps last cleared)
  | [], last, cleared, _, hbefore => by simp only [runBlock]; exact .pure ⟨nofun, hbefore⟩
  | .mk p action :: rest, last, cleared, h, hbefore => by
    have haction := execAction_goes hproceed hreturned p action
      fun hclear => h (by simp [Step.clearIn, hclear])
    have hrest := fun v c => runBlock_goes hproceed hreturned rest v c
      fun hclear => h (by simp [Step.clearIn, hclear])
    simp only [runBlock]
    refine .attempt haction (fun r hr => ?_) fun e => ?_
    · match r with
      | ⟨v, .proceed⟩ => exact hrest v cleared hbefore
      | ⟨v, .cleared⟩ => exact hrest v true fun _ => hr
      | ⟨v, .returned⟩ => exact .pure ⟨fun _ => hr, hbefore⟩
    · exact .last fun _ => hrest .nil cleared hbefore

end

/-- Handlers do not return, and bodies do not clear. -/
def Allows (mode : Mode) : Flow → Prop
  | .proceed => True
  | .returned => mode.inHandler = false
  | .cleared => mode.inHandler = true

theorem execAction_allowed (p : Position) (action : Action) :
    Goes (Allows mode) (execAction engine enter f mode recover p action) :=
  execAction_goes trivial id p action fun _ => id

theorem runBlock_allowed (steps : List Step) (last : Value) :
    Returns (EndsBy (Allows mode)) (runBlock engine enter f mode recover steps last false) :=
  runBlock_goes trivial id steps last false (fun _ => id) nofun

theorem runHandler_uncleared {h : List Step} (hh : Step.clearIn h = false)
    (active : Option RuntimeError) :
    Returns (fun o => o.cleared = false) (runHandler engine enter f active h) := by
  intro w o w' hrun
  refine Bool.eq_false_iff.2 fun hcleared => ?_
  have hends : EndsBy (· ≠ .cleared) o :=
    runBlock_goes (by decide) (fun _ => by decide) h .nil false
      (fun hclear => absurd (hh.symm.trans hclear) Bool.false_ne_true) nofun w o w' hrun
  exact hends.2 hcleared rfl

end Exec

/-! ## Runs with and without the handler -/

namespace Engine

variable {engine : Engine} {f : Frame} {h steps : List Step} {w : World}

theorem runBlock_of_ended {result : Except Interrupt Outcome} {w' : World}
    (hbody : Path.body engine f steps w = .ended result w') :
    engine.runBlock f {} steps w = (result, w') := by
  have hrun := engine.runBlock_realizes f steps w
  simp only [Path.ending, hbody, Course.play] at hrun
  exact hrun

theorem runBlock_of_raised {e : RuntimeError} {w₁ : World}
    {resume : Option RuntimeError → World → Course Outcome} (hf : f.handler = none)
    (hbody : Path.body engine f steps w = .raised e w₁ resume) :
    ∃ e', engine.runBlock f {} steps w = (.error (.failed e'), w₁) ∧ e.Same e' ∧
      e.isControl = false := by
  have hrun := engine.runBlock_realizes f steps w
  simp only [Path.ending, hbody, Course.play, rule, hf] at hrun
  obtain ⟨e', hrun, hsame, hcontrol, -⟩ := hrun
  exact ⟨e', hrun, hsame, hcontrol⟩

/-- A run goes well only if the ruling on the first failure lets the body go on. -/
theorem rule_of_ok {e : RuntimeError} {w₁ w' : World} {o : Outcome}
    {resume : Option RuntimeError → World → Course Outcome}
    (hbody : Path.body engine f steps w = .raised e w₁ resume)
    (hok : engine.runBlock f {} steps w = (.ok o, w')) :
    (∃ w₂, engine.rule f e w₁ = .cleared w₂) ∨ ∃ s w₂, engine.rule f e w₁ = .signalled s w₂ := by
  have hrun := engine.runBlock_realizes f steps w
  simp only [Path.ending, hbody, Course.play, hok] at hrun
  cases hrule : engine.rule f e w₁ with
  | cleared w₂ => exact .inl ⟨w₂, rfl⟩
  | signalled s w₂ => exact .inr ⟨s, w₂, rfl⟩
  | final e' w₂ =>
    rw [hrule] at hrun
    obtain ⟨_, hrun, -⟩ := hrun
    cases hrun
  | crashed text w₂ =>
    rw [hrule] at hrun
    cases hrun

/-- A handler without a `clear_error` recovers nothing, except by a loop signal. What goes well
without it goes the same way with it; and what goes well with it does so without it, or else the
handler answered the failure with which the body ends otherwise by a `break` or `continue` of its
own. -/
theorem recovery_needs_clear (engine : Engine) (f : Frame) (h : List Step)
    (hh : Step.clearIn h = false) (steps : List Step) (w : World) :
    let guarded : Frame := { f with handler := some h }
    let run := engine.runBlock guarded {} steps w
    let bare := engine.runBlock { f with handler := none } {} steps w
    (∀ o w', bare = (.ok o, w') → run = (.ok o, w')) ∧
    ∀ o w', run = (.ok o, w') → bare = (.ok o, w') ∨
      ∃ e e' w₁ s w₂, bare = (.error (.failed e'), w₁) ∧ e.Same e' ∧ e.isControl = false ∧
        Exec.runHandler engine engine.enter guarded (some e) h (engine.announced guarded e w₁) =
          (.error (.failed s), w₂) ∧ s.isControl = true := by
  intro guarded run bare
  -- the course of the body is the same one with and without the handler
  cases hbody : Path.body engine f steps w with
  | ended result w' =>
    have hrun : run = (result, w') := runBlock_of_ended hbody
    have hbare : bare = (result, w') := runBlock_of_ended hbody
    rw [hrun, hbare]
    exact ⟨fun o w₁ => id, fun o w₁ => .inl⟩
  | raised e w₁ resume =>
    obtain ⟨e', hbare, hsame, hcontrol⟩ :=
      runBlock_of_raised (f := { f with handler := none }) rfl hbody
    refine ⟨fun o w' hok => ?_, fun o w' hok => .inr ?_⟩
    · cases hbare.symm.trans hok
    · rcases rule_of_ok (f := guarded) hbody hok with ⟨w₂, hrule⟩ | ⟨s, w₂, hrule⟩
      · obtain ⟨o', hattended, hcleared⟩ := rule_cleared (f := guarded) rfl hrule
        rw [Exec.runHandler_uncleared hh (some e) _ o' w₂ hattended] at hcleared
        cases hcleared
      · obtain ⟨hattended, hsignal⟩ := rule_signalled (f := guarded) rfl hrule
        exact ⟨e, e', w₁, s, w₂, hbare, hsame, hcontrol, hattended, hsignal⟩

/-- A `break` in a handler leaves the loop in which the body has failed: the failure is lost. -/
theorem recovery_by_break :
    let engine : Engine := { config := { maxLoopIterations := 4 } }
    let h : List Step := [.mk .unknown .breakLoop]
    let steps : List Step := [.mk .unknown (.loop (.literal (.bool true))
      [.mk .unknown (.fail (some (.literal (.string "lost"))))])]
    Step.clearIn h = false ∧
      (∃ w', engine.runBlock { Frame.root with handler := some h } {} steps {} =
        (.ok { value := .nil }, w')) ∧
      ∃ e w', engine.runBlock { Frame.root with handler := none } {} steps {} =
        (.error (.failed e), w') ∧ e.message = "lost" :=
  ⟨rfl, ⟨_, rfl⟩, _, _, rfl, rfl⟩

/-- A handler that fails on its own: the run cannot go well, as it does not without the handler. -/
theorem recovery_needs_clear_of_fail :
    let h : List Step := [.mk .unknown (.fail none)]
    let steps : List Step := [.mk .unknown (.expression (.variable "missing"))]
    let run := ({} : Engine).runBlock { Frame.root with handler := some h } {} steps {}
    Step.clearIn h = false ∧ ∀ o w', run ≠ (.ok o, w') := by
  intro h steps run
  refine ⟨rfl, fun o w' hok => ?_⟩
  obtain ⟨-, hneeds⟩ := recovery_needs_clear {} Frame.root h rfl steps {}
  rcases hneeds o w' hok with hbare | ⟨e, e', w₁, s, w₂, -, -, hcontrol, hattended, hsignal⟩
  · cases hbare
  · cases hattended
    rw [RuntimeError.atIfUnknown_isControl, hcontrol] at hsignal
    cases hsignal

end Engine
end StepScript
