import StepScript.Proofs.Closure
import StepScript.Proofs.Course

/-!
# StepScript.Proofs.Handling

What the handler of an instance makes of the failures of its body.

* `Engine.rule`  — the ruling on one failure: the steps of the handler are run for it, once.
* `Course.play`  — a course to its end, every failure in it ruled on. A final ruling ends it there
  and then.
* `Engine.runBlock_realizes` — the executor does just that. There the failure passes through all
  blocks around the failed step, and what keeps them from handling it again is its mark.
-/

namespace StepScript

/-- What becomes of a failure: it is cleared, a loop signal takes its place, or it ends the body as
it is or with another failure instead. -/
inductive Ruling where
  | cleared (w : World)
  | signalled (s : RuntimeError) (w : World)
  | final (e : RuntimeError) (w : World)
  | crashed (text : Option String) (w : World)

def Ruling.world : Ruling → World
  | .cleared w | .signalled _ w | .final _ w | .crashed _ w => w

/-- The world in which a handler starts. -/
def Engine.announced (engine : Engine) (f : Frame) (e : RuntimeError) (w : World) : World :=
  { w with trace := w.trace.push (.recover f.id e) }.bind f.id engine.config.errorVariable e.toValue

/-- The steps of a handler, as they are run for a failure: a failure among them ends them. -/
abbrev Engine.attend (engine : Engine) (f : Frame) (e : RuntimeError) (h : List Step) :
    Exec Outcome :=
  Exec.runBlock engine engine.enter f { inHandler := true, active := some e } Exec.fail h .nil false

def Engine.rule (engine : Engine) (f : Frame) (e : RuntimeError) (w : World) : Ruling :=
  match f.handler with
  | none => .final e w
  | some h =>
    match engine.attend f e h (engine.announced f e w) with
    | (.ok o, w') => if o.cleared then .cleared w' else .final e w'
    | (.error (.failed s), w') => if s.isControl then .signalled s w' else .final s w'
    | (.error (.crashed text), w') => .crashed text w'

section Rule

variable {engine : Engine} {f : Frame} {h : List Step} {e s : RuntimeError} {w w' : World}

/-- A handler that neither clears nor fails rules that the failure stands. -/
theorem Engine.rule_of_uncleared (hh : f.handler = some h) {o : Outcome} (ho : o.cleared = false)
    (hrun : engine.attend f e h (engine.announced f e w) = (.ok o, w')) :
    engine.rule f e w = .final e w' := by
  simp [rule, hh, hrun, ho]

/-- A handler that fails rules that its own failure stands. -/
theorem Engine.rule_of_failed (hh : f.handler = some h) (hs : s.isControl = false)
    (hrun : engine.attend f e h (engine.announced f e w) = (.error (.failed s), w')) :
    engine.rule f e w = .final s w' := by
  simp [rule, hh, hrun, hs]

theorem Engine.rule_cleared (hh : f.handler = some h) (hrule : engine.rule f e w = .cleared w') :
    ∃ o, engine.attend f e h (engine.announced f e w) = (.ok o, w') ∧ o.cleared = true := by
  simp only [rule, hh] at hrule
  split at hrule
  · split at hrule
    · cases hrule
      exact ⟨_, by assumption, by assumption⟩
    · cases hrule
  · split at hrule <;> cases hrule
  · cases hrule

theorem Engine.rule_signalled (hh : f.handler = some h)
    (hrule : engine.rule f e w = .signalled s w') :
    engine.attend f e h (engine.announced f e w) = (.error (.failed s), w') ∧
      s.isControl = true := by
  simp only [rule, hh] at hrule
  split at hrule
  · split at hrule <;> cases hrule
  · split at hrule
    · cases hrule
      exact ⟨by assumption, by assumption⟩
    · cases hrule
  · cases hrule

end Rule

/-- How a body ends: by itself, or with a failure on which a final ruling was made. -/
inductive Ending (α : Type) where
  | done (result : Except Interrupt α) (w : World)
  | stopped (e : RuntimeError) (w : World)

namespace Ending

variable {α β : Type}

def world : Ending α → World
  | .done _ w | .stopped _ w => w

def bind : Ending α → (α → World → Ending β) → Ending β
  | .done (.ok a) w, k => k a w
  | .done (.error i) w, _ => .done (.error i) w
  | .stopped e w, _ => .stopped e w

def attempt : Ending α → Ending (Except RuntimeError α)
  | .done (.ok a) w => .done (.ok (.ok a)) w
  | .done (.error (.failed e)) w => .done (.ok (.error e)) w
  | .done (.error (.crashed text)) w => .done (.error (.crashed text)) w
  | .stopped e w => .stopped e w

end Ending

namespace Course

variable {α β : Type} (rule : RuntimeError → World → Ruling)

/-- Goes on until the body ends or a ruling ends it. -/
def play : Course α → Ending α
  | .ended result w => .done result w
  | .raised e w resume =>
    match rule e w with
    | .cleared w' => (resume none w').play
    | .signalled s w' => (resume (some s.markHandled) w').play
    | .final e' w' => .stopped e' w'
    | .crashed text w' => .done (.error (.crashed text)) w'

theorem play_bind (c : Course α) (k : α → World → Course β) :
    (c.bind k).play rule = (c.play rule).bind fun a w => (k a w).play rule := by
  induction c with
  | ended result w => cases result <;> rfl
  | raised e w resume ih =>
    simp only [bind, play]
    cases rule e w with
    | cleared w' => exact ih none w'
    | signalled s w' => exact ih _ w'
    | final e' w' => rfl
    | crashed text w' => rfl

theorem play_attempt (c : Course α) : c.attempt.play rule = (c.play rule).attempt := by
  induction c with
  | ended result w =>
    match result with
    | .ok a => rfl
    | .error (.failed e) => rfl
    | .error (.crashed text) => rfl
  | raised e w resume ih =>
    simp only [attempt, play]
    cases rule e w with
    | cleared w' => exact ih none w'
    | signalled s w' => exact ih _ w'
    | final e' w' => rfl
    | crashed text w' => rfl

end Course

namespace Path

variable {α β : Type} (rule : RuntimeError → World → Ruling)

def ending (X : Path α) (w : World) : Ending α := Course.play rule (X w)

theorem ending_bind (X : Path α) (K : α → Path β) (w : World) :
    (X >>= K).ending rule w = (X.ending rule w).bind fun a w' => (K a).ending rule w' :=
  Course.play_bind rule (X w) K

theorem ending_attempt (X : Path α) (w : World) :
    X.attempt.ending rule w = (X.ending rule w).attempt :=
  Course.play_attempt rule (X w)

theorem ending_raise (e : RuntimeError) (w : World) :
    (raise e).ending rule w =
      match rule e w with
      | .cleared w' => .done (.ok ()) w'
      | .signalled s w' => .done (.error (.failed s.markHandled)) w'
      | .final e' w' => .stopped e' w'
      | .crashed text w' => .done (.error (.crashed text)) w' := by
  simp only [ending, raise, Course.play]

end Path

/-! ## What an instance does does not depend on its handler -/

namespace Exec

/-- The two members of a family are the same computation. -/
def Agree (α : Type) (X : Bool → Exec α) : Prop := X true = X false

theorem Agree.closed : Closed (fun _ => True) Agree where
  pure _ := rfl
  bind {α β X K} hX hK := by
    show X true >>= K true = X false >>= K false
    rw [show X true = X false from hX, show K true = K false from funext hK]
  get {β K} hK := by
    show MonadState.get >>= K true = MonadState.get >>= K false
    rw [show K true = K false from funext hK]
  attempt {α β X K} hX hok herror := by
    have hK : K true = K false := by
      funext r
      cases r with
      | ok a => exact hok a
      | error e => exact herror e trivial
    show Exec.attempt (X true) >>= K true = Exec.attempt (X false) >>= K false
    rw [show X true = X false from hX, hK]
  fail _ := rfl
  crash _ _ := rfl
  unwired _ := trivial
  plain _ := trivial
  placed _ _ := trivial

variable (engine : Engine) (f : Frame)

/-- An instance with and without its handler. -/
def bared : Bool → Frame
  | true => f
  | false => f.bare

theorem enter_bare (a : Activation) : engine.enter f a = engine.enter f.bare a := by
  show Exec.enter engine (engine.levels f) f a = Exec.enter engine (engine.levels f) f.bare a
  cases engine.levels f with
  | zero => rfl
  | succ levels => rfl

theorem services_agree :
    Services Agree engine (fun _ => engine.enter) (bared f) f.outlet where
  outlet i := by cases i <;> rfl
  enter a := enter_bare engine f a
  start _ _ _ _ := rfl
  consult _ _ := rfl
  enterTool _ := rfl
  host _ _ _ := rfl
  chat _ _ _ := rfl
  capture _ := rfl
  openConversation := rfl

theorem primitives_agree : Primitives Agree engine (fun _ => engine.enter) (bared f) where
  read _ := rfl
  call := call_closed Agree.closed (services_agree engine f)
  write _ _ := rfl
  ask := ask_closed Agree.closed (services_agree engine f)
  emit _ := rfl
  whisper _ _ := rfl
  promptUser _ := rfl
  clear := rfl

theorem evaluate_bare (e : Expression) :
    evaluate engine engine.enter f e = evaluate engine engine.enter f.bare e :=
  evaluate_closed Agree.closed.toSequenced (primitives_agree engine f).toExpressions e

theorem execSimple_bare (mode : Mode) (p : Position) (a : Action) :
    execSimple engine engine.enter f mode p a = execSimple engine engine.enter f.bare mode p a :=
  execSimple_closed Agree.closed.toSequenced (primitives_agree engine f) p a (fun _ => trivial)
    (fun _ => trivial) fun _ _ => trivial

end Exec

/-! ## The executor plays the course of the body -/

/-- An ending as the executor shows it. A failure that was ruled on is marked, unless there is no
handler to see it again. -/
def Ending.Shown {α : Type} (f : Frame) (r : Except Interrupt α × World) : Ending α → Prop
  | .done result w => r = (result, w)
  | .stopped e w => ∃ e', r = (.error (.failed e'), w) ∧ e.Same e' ∧ e.isControl = false ∧
      (e'.handled = true ∨ f.handler = none)

theorem Ending.Shown.world {α : Type} {f : Frame} {r : Except Interrupt α × World} {x : Ending α}
    (h : x.Shown f r) : r.2 = x.world := by
  cases x with
  | done result w => exact congrArg Prod.snd h
  | stopped e w =>
    obtain ⟨e', hr, -⟩ := h
    exact congrArg Prod.snd hr

/-- A computation shows how the path ends. -/
def Path.Realized (engine : Engine) (f : Frame) (α : Type) (x : Exec α) (X : Path α) : Prop :=
  ∀ w, (X.ending (engine.rule f) w).Shown f (x w)

namespace Path

open Exec

variable {engine : Engine} {f : Frame} {α β : Type}

theorem Realized.pure (a : α) : Realized engine f α (Pure.pure a) (Pure.pure a) := fun _ => rfl

theorem Realized.lift {x y : Exec α} (h : x = y) : Realized engine f α x (lift y) := by
  intro w
  subst h
  rfl

theorem Realized.bind {x : Exec α} {X : Path α} {k : α → Exec β} {K : α → Path β}
    (hx : Realized engine f α x X) (hk : ∀ a, Realized engine f β (k a) (K a)) :
    Realized engine f β (x >>= k) (X >>= K) := by
  intro w
  have hshown := hx w
  rw [ending_bind]
  match hp : X.ending (engine.rule f) w with
  | .done (.ok a) w' =>
    rw [hp] at hshown
    rw [bind_ok hshown]
    exact hk a w'
  | .done (.error i) w' =>
    rw [hp] at hshown
    rw [bind_error hshown]
    rfl
  | .stopped e w' =>
    rw [hp] at hshown
    obtain ⟨e', hx', hrest⟩ := hshown
    rw [bind_error hx']
    exact ⟨e', rfl, hrest⟩

/-- A failure that was ruled on meets what is around the block that it leaves, and has to come out
of that again. -/
theorem Realized.attempt {x : Exec α} {X : Path α} {k : Except RuntimeError α → Exec β}
    {K : Except RuntimeError α → Path β} (hx : Realized engine f α x X)
    (hk : ∀ r, Realized engine f β (k r) (K r))
    (hpast : ∀ e w, e.isControl = false → e.handled = true ∨ f.handler = none →
      ∃ e', k (.error e) w = (.error (.failed e'), w) ∧ e.Same e' ∧ e'.handled = e.handled) :
    Realized engine f β (Exec.attempt x >>= k) (attempt X >>= K) := by
  intro w
  have hshown := hx w
  rw [ending_bind, ending_attempt]
  match hp : X.ending (engine.rule f) w with
  | .done (.ok a) w' =>
    rw [hp] at hshown
    rw [bind_ok (attempt_ok hshown)]
    exact hk (.ok a) w'
  | .done (.error (.failed e)) w' =>
    rw [hp] at hshown
    rw [bind_ok (attempt_failed hshown)]
    exact hk (.error e) w'
  | .done (.error (.crashed text)) w' =>
    rw [hp] at hshown
    rw [bind_error (attempt_crashed hshown)]
    rfl
  | .stopped e w' =>
    rw [hp] at hshown
    obtain ⟨e', hx', hsame, hcontrol, hmark⟩ := hshown
    rw [bind_ok (attempt_failed hx')]
    have hcontrol' : e'.isControl = false := by
      rw [hsame.isControl]
      exact hcontrol
    obtain ⟨e'', hk', hsame', hmark'⟩ := hpast e' w' hcontrol' hmark
    exact ⟨e'', hk', hsame.trans hsame', hcontrol, by rw [hmark']; exact hmark⟩

theorem pass_realized {x : Exec Outcome} {X : Path Outcome} (hx : Realized engine f Outcome x X) :
    Realized engine f LoopFlow (Exec.pass x) (pass X) := by
  refine Realized.attempt hx (fun r => ?_) fun e w hcontrol _ => ⟨e, ?_, .refl e, rfl⟩
  · cases r with
    | ok o => exact .pure _
    | error e =>
      dsimp only
      cases e.code with
      | «break» => exact .pure _
      | «continue» => exact .pure _
      | _ => exact .lift rfl
  · -- loops take only their own signals
    dsimp only
    unfold RuntimeError.isControl at hcontrol
    cases hcode : e.code with
    | «break» | «continue» => simp [hcode, Code.isControl] at hcontrol
    | _ => rfl

/-- The executor's way to deal with a failure is the ruling on it. -/
theorem meet_realized (e : RuntimeError) :
    Realized engine f Unit (Exec.recover engine engine.enter f e) (meet e) := by
  intro w
  by_cases hpass : (e.isControl || e.handled) = true
  · rw [meet, if_pos hpass, Exec.recover, if_pos hpass]
    rfl
  · have hcontrol : e.isControl = false := by
      cases h : e.isControl <;> simp_all
    rw [meet, if_neg hpass, Exec.recover, if_neg hpass, ending_raise]
    simp only [Engine.rule]
    cases hh : f.handler with
    | none => exact ⟨e, rfl, .refl e, hcontrol, .inr hh⟩
    | some h =>
      have hbind : bindLocal f engine.config.errorVariable e.toValue
          { w with trace := w.trace.push (.recover f.id e) } =
            (.ok (), engine.announced f e w) := rfl
      have hattend : runHandler engine engine.enter f (some e) h = engine.attend f e h := rfl
      simp only
      rw [bind_ok (note_apply _ _), bind_ok hbind, hattend]
      rcases hrun : engine.attend f e h (engine.announced f e w) with ⟨(s | text) | o, w'⟩
      · rw [bind_ok (attempt_failed hrun)]
        simp only
        cases hs : s.isControl with
        | true => rfl
        | false => exact ⟨s.markHandled, rfl, s.same_markHandled, hs, .inl rfl⟩
      · rw [bind_error (attempt_crashed hrun)]
        rfl
      · rw [bind_ok (attempt_ok hrun)]
        simp only
        cases o.cleared with
        | true => rfl
        | false => exact ⟨e.markHandled, rfl, e.same_markHandled, hcontrol, .inl rfl⟩

theorem afterStep_realized {rest : Value → Bool → Exec Outcome} {Rest : Value → Bool → Path Outcome}
    (hrest : ∀ v c, Realized engine f Outcome (rest v c) (Rest v c)) (p : Position)
    (cleared : Bool) : ∀ r, Realized engine f Outcome
      (afterStep rest (fun e => Exec.recover engine engine.enter f (e.atIfUnknown p)) cleared r)
      (afterStep Rest (fun e => meet (e.atIfUnknown p)) cleared r)
  | .ok ⟨v, .proceed⟩ => hrest v cleared
  | .ok ⟨v, .cleared⟩ => hrest v true
  | .ok ⟨_, .returned⟩ => .pure _
  | .error _ => (meet_realized _).bind fun _ => hrest .nil cleared

theorem follows_realized : Follows engine f (Realized engine f) where
  pure := .pure
  bind := .bind
  evaluate e := .lift (evaluate_bare engine f e)
  items _ := .lift rfl
  exceeded _ := .lift rfl
  write _ _ := .lift rfl
  simple p a := .lift (execSimple_bare engine f {} p a)
  pass := pass_realized
  step p cleared hx hrest := by
    refine Realized.attempt hx (afterStep_realized hrest p cleared) fun e w hcontrol hmark => ?_
    -- the mark, or the lack of a handler, lets the failure pass
    have hpass : Exec.recover engine engine.enter f (e.atIfUnknown p) w =
        (.error (.failed (e.atIfUnknown p)), w) := by
      rw [Exec.recover, RuntimeError.atIfUnknown_isControl, RuntimeError.atIfUnknown_handled]
      rcases hmark with hmark | hmark
      · rw [hmark, hcontrol]
        rfl
      · rw [hmark]
        split <;> rfl
    refine ⟨e.atIfUnknown p, ?_, e.same_atIfUnknown p, e.atIfUnknown_handled p⟩
    exact bind_error hpass

end Path

/-- A body runs as its course goes when the handler rules on the failures in it. -/
theorem Engine.runBlock_realizes (engine : Engine) (f : Frame) (steps : List Step) :
    Path.Realized engine f Outcome (engine.runBlock f {} steps) (Path.body engine f steps) :=
  Path.block_follows Path.follows_realized steps .nil false

end StepScript
