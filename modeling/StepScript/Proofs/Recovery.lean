import StepScript.Proofs.Handling
import StepScript.Proofs.Raised
import StepScript.Proofs.Recoveries

/-!
# StepScript.Proofs.Recovery

The handler of an instance runs once for every failure of the body, and its ruling is final.

* `Course.failures`, `Course.Meets` — the failures that come up in a course when they are ruled on,
  in order.
* `Course.Silent` — no handler runs between the failures that come up.
* `Course.Leaves` — no failure but a loop signal ends a body without having come up.
* `Engine.handler_rules_once` — hence what the trace of a run has to tell, and how the run ends.
-/

namespace StepScript

/-! ## Failures that come up -/

namespace Course

variable {α β : Type} {rule : RuntimeError → World → Ruling}

/-- The failures that come up, until the body ends or a ruling ends it. -/
def failures (rule : RuntimeError → World → Ruling) : Course α → List RuntimeError
  | .ended _ _ => []
  | .raised e w resume => e ::
    match rule e w with
    | .cleared w' => (resume none w').failures rule
    | .signalled s w' => (resume (some s.markHandled) w').failures rule
    | .final _ _ => []
    | .crashed _ _ => []

/-- In the course, after the failures `before`, the failure `e` comes up in the world `w`. -/
inductive Meets (rule : RuntimeError → World → Ruling) :
    Course α → List RuntimeError → RuntimeError → World → Prop where
  | here {e : RuntimeError} {w : World} {resume : Option RuntimeError → World → Course α} :
      Meets rule (.raised e w resume) [] e w
  | cleared {e e' : RuntimeError} {w w' w₁ : World} {before : List RuntimeError}
      {resume : Option RuntimeError → World → Course α} :
      rule e w = .cleared w' → Meets rule (resume none w') before e' w₁ →
      Meets rule (.raised e w resume) (e :: before) e' w₁
  | signalled {e e' s : RuntimeError} {w w' w₁ : World} {before : List RuntimeError}
      {resume : Option RuntimeError → World → Course α} :
      rule e w = .signalled s w' → Meets rule (resume (some s.markHandled) w') before e' w₁ →
      Meets rule (.raised e w resume) (e :: before) e' w₁

theorem Meets.play_final {c : Course α} {before : List RuntimeError} {e e' : RuntimeError}
    {w w' : World} (h : c.Meets rule before e w) (hrule : rule e w = .final e' w') :
    c.play rule = .stopped e' w' := by
  induction h with
  | here => simp only [play, hrule]
  | cleared hcleared _ ih => simp only [play, hcleared]; exact ih hrule
  | signalled hsignal _ ih => simp only [play, hsignal]; exact ih hrule

/-- A final ruling is made on the last failure. -/
theorem Meets.failures_final {c : Course α} {before : List RuntimeError} {e e' : RuntimeError}
    {w w' : World} (h : c.Meets rule before e w) (hrule : rule e w = .final e' w') :
    c.failures rule = before ++ [e] := by
  induction h with
  | here => simp only [failures, hrule, List.nil_append]
  | cleared hcleared _ ih => simp only [failures, hcleared, ih hrule, List.cons_append]
  | signalled hsignal _ ih => simp only [failures, hsignal, ih hrule, List.cons_append]

/-- From the world `w` on, and after every ruling, the handler of `id` does not run until the next
failure comes up. -/
def Silent (id : InstanceId) : Course α → World → Prop
  | .ended _ w', w => recoveries id w'.trace = recoveries id w.trace
  | .raised _ w' resume, w =>
    recoveries id w'.trace = recoveries id w.trace ∧ ∀ s w₁, (resume s w₁).Silent id w₁

namespace Silent

variable {id : InstanceId}

theorem before {c : Course α} {w w' : World} (h : c.Silent id w')
    (hw : recoveries id w'.trace = recoveries id w.trace) : c.Silent id w := by
  cases c with
  | ended result w₁ => exact Eq.trans h hw
  | raised e w₁ resume => exact ⟨Eq.trans h.1 hw, h.2⟩

theorem bind {k : α → World → Course β} (hk : ∀ a w, (k a w).Silent id w) (c : Course α) :
    ∀ {w}, c.Silent id w → (c.bind k).Silent id w := by
  induction c with
  | ended result w' =>
    intro w h
    cases result with
    | ok a => exact (hk a w').before h
    | error i => exact h
  | raised e w' resume ih =>
    intro w h
    exact ⟨h.1, fun s w₁ => ih s w₁ (h.2 s w₁)⟩

theorem attempt (c : Course α) : ∀ {w}, c.Silent id w → c.attempt.Silent id w := by
  induction c with
  | ended result w' =>
    intro w h
    match result with
    | .ok a => exact h
    | .error (.failed e) => exact h
    | .error (.crashed text) => exact h
  | raised e w' resume ih =>
    intro w h
    exact ⟨h.1, fun s w₁ => ih s w₁ (h.2 s w₁)⟩

/-- If every ruling takes one run of the handler, there are as many runs as failures. -/
theorem recoveries_play
    (hrule : ∀ e w, recoveries id (rule e w).world.trace = recoveries id w.trace ++ [e])
    (c : Course α) : ∀ {w}, c.Silent id w →
      recoveries id (c.play rule).world.trace = recoveries id w.trace ++ c.failures rule := by
  induction c with
  | ended result w' =>
    intro w h
    exact h.trans (List.append_nil _).symm
  | raised e w' resume ih =>
    intro w h
    have hruled : recoveries id (rule e w').world.trace = recoveries id w.trace ++ [e] := by
      rw [hrule, h.1]
    have hresumed (s : Option RuntimeError) (w₁ : World) (hw₁ : (rule e w').world = w₁) :
        recoveries id ((resume s w₁).play rule).world.trace =
          recoveries id w.trace ++ e :: (resume s w₁).failures rule := by
      rw [ih s w₁ (h.2 s w₁), ← hw₁, hruled, List.append_assoc, List.singleton_append]
    cases hr : rule e w' with
    | cleared w₁ => simp only [play, failures, hr]; exact hresumed _ w₁ (by rw [hr]; rfl)
    | signalled s w₁ => simp only [play, failures, hr]; exact hresumed _ w₁ (by rw [hr]; rfl)
    | final e' w₁ => simp only [play, failures, hr]; rw [hr] at hruled; exact hruled
    | crashed text w₁ => simp only [play, failures, hr]; rw [hr] at hruled; exact hruled

end Silent

/-- However the failures are ruled on, a failure that ends the course satisfies `Q`. -/
def Leaves (Q : RuntimeError → Prop) : Course α → Prop
  | .ended (.error (.failed e)) _ => Q e
  | .ended (.error (.crashed _)) _ => True
  | .ended (.ok _) _ => True
  | .raised _ _ resume => ∀ w, (resume none w).Leaves Q ∧
      ∀ s : RuntimeError, s.isControl = true → (resume (some s) w).Leaves Q

namespace Leaves

variable {Q Q' : RuntimeError → Prop}

theorem bind {k : α → World → Course β} (hk : ∀ a w, (k a w).Leaves Q) (c : Course α) :
    c.Leaves Q → (c.bind k).Leaves Q := by
  induction c with
  | ended result w =>
    intro h
    match result with
    | .ok a => exact hk a w
    | .error (.failed e) => exact h
    | .error (.crashed text) => trivial
  | raised e w resume ih =>
    intro h w'
    exact ⟨ih none w' (h w').1, fun s hs => ih (some s) w' ((h w').2 s hs)⟩

/-- Once a failure has been caught it no longer matters what it was. -/
theorem attempt {k : Except RuntimeError α → World → Course β}
    (hok : ∀ a w, (k (.ok a) w).Leaves Q')
    (herror : ∀ e w, Q e → (k (.error e) w).Leaves Q') (c : Course α) :
    c.Leaves Q → (c.attempt.bind k).Leaves Q' := by
  induction c with
  | ended result w =>
    intro h
    match result with
    | .ok a => exact hok a w
    | .error (.failed e) => exact herror e w h
    | .error (.crashed text) => trivial
  | raised e w resume ih =>
    intro h w'
    exact ⟨ih none w' (h w').1, fun s hs => ih (some s) w' ((h w').2 s hs)⟩

end Leaves

end Course

/-! ## The failures of a body -/

namespace Path

open Exec

variable {engine : Engine} {f : Frame} {α β : Type}

/-- From every world, the path runs no handler of `id` before a failure comes up. -/
def Silent (id : InstanceId) (α : Type) (_ : Exec α) (X : Path α) : Prop :=
  ∀ w, Course.Silent id (X w) w

theorem Silent.lift {id : InstanceId} {x y : Exec α} (h : Quiet id α fun _ => y) :
    Silent id α x (Path.lift y) := fun w => h w rfl

theorem Silent.bind {id : InstanceId} {x : Exec α} {X : Path α} {k : α → Exec β} {K : α → Path β}
    (hX : Silent id α x X) (hK : ∀ a, Silent id β (k a) (K a)) :
    Silent id β (x >>= k) (X >>= K) :=
  fun w => Course.Silent.bind hK (X w) (hX w)

theorem Silent.attempt {id : InstanceId} {x : Exec α} {X : Path α} (hX : Silent id α x X) :
    Silent id _ (Exec.attempt x) X.attempt :=
  fun w => Course.Silent.attempt (X w) (hX w)

theorem meet_silent {id : InstanceId} {x : Exec Unit} (e : RuntimeError) :
    Silent id Unit x (meet e) := by
  intro w
  unfold meet
  split
  · exact Eq.refl (recoveries id w.trace)
  · refine ⟨rfl, fun s w₁ => ?_⟩
    cases s with
    | none => exact Eq.refl (recoveries id w₁.trace)
    | some s => exact Eq.refl (recoveries id w₁.trace)

theorem follows_silent : Follows engine f (Silent f.id) := by
  have hI : Primitives (Quiet f.id) engine (fun _ => engine.enter) fun _ => f.bare :=
    primitives_quiet (engine.enter_quiet f.bare)
  exact
    { pure := fun a => .lift (Quiet.closed.pure a)
      bind := .bind
      evaluate := fun e => .lift (evaluate_closed Quiet.closed.toSequenced hI.toExpressions e)
      items := fun v => .lift (Quiet.closed.ofFault (Value.items_sober v))
      exceeded := fun _ => .lift (Quiet.closed.fault rfl)
      write := fun name v => .lift (hI.write name v)
      simple := fun p a =>
        .lift (execSimple_closed Quiet.closed.toSequenced hI p a (fun _ => trivial)
          (fun _ => trivial) fun _ _ => trivial)
      pass := fun hX => hX.attempt.bind fun r => by
        cases r with
        | ok o => exact .lift (Quiet.closed.pure _)
        | error e =>
          dsimp only
          cases e.code with
          | «break» | «continue» => exact .lift (Quiet.closed.pure _)
          | _ => exact .lift (Quiet.closed.fail trivial)
      step := fun p cleared hX hrest => hX.attempt.bind fun r => by
        match r with
        | .ok ⟨v, .proceed⟩ => exact hrest v cleared
        | .ok ⟨v, .cleared⟩ => exact hrest v true
        | .ok ⟨v, .returned⟩ => exact .lift (Quiet.closed.pure _)
        | .error e => exact (meet_silent _).bind fun _ => hrest .nil cleared }

/-- However the path goes, the failures that end it are loop signals or still have to come up. -/
def Loose (α : Type) (_ : Exec α) (X : Path α) : Prop :=
  ∀ w, Course.Leaves (fun e => e.isControl = true ∨ e.handled = false) (X w)

theorem Loose.lift {x y : Exec α} (h : Fails (fun e => e.handled = false) α fun _ => y) :
    Loose α x (Path.lift y) := by
  intro w
  unfold Path.lift
  match hy : y w with
  | (.ok a, w') => trivial
  | (.error (.failed e), w') => exact .inr (h w e (congrArg Prod.fst hy))
  | (.error (.crashed text), w') => trivial

/-- Every failure that is no loop signal comes up. -/
theorem meet_leaves {Q : RuntimeError → Prop} (hQ : ∀ e : RuntimeError, e.isControl = true → Q e)
    {e : RuntimeError} (he : e.isControl = true ∨ e.handled = false) (w : World) :
    Course.Leaves Q (meet e w) := by
  unfold meet
  split
  · rename_i hpass
    refine hQ e ?_
    rcases he with hcontrol | hhandled
    · exact hcontrol
    · simpa [hhandled] using hpass
  · exact fun w' => ⟨trivial, fun s hs => hQ s hs⟩

theorem step_leaves {Q : RuntimeError → Prop} (hQ : ∀ e : RuntimeError, e.isControl = true → Q e)
    {x : Exec StepResult} {X : Path StepResult} {Rest : Value → Bool → Path Outcome}
    (p : Position) (cleared : Bool) (hX : Loose StepResult x X)
    (hrest : ∀ v c w, Course.Leaves Q (Rest v c w)) (w : World) :
    Course.Leaves Q
      ((attempt X >>= afterStep Rest (fun e => meet (e.atIfUnknown p)) cleared) w) := by
  refine Course.Leaves.attempt (fun r w' => ?_) (fun e w' he => ?_) (X w) (hX w)
  · match r with
    | ⟨v, .proceed⟩ => exact hrest v cleared w'
    | ⟨v, .cleared⟩ => exact hrest v true w'
    | ⟨v, .returned⟩ => trivial
  · have he' : (e.atIfUnknown p).isControl = true ∨ (e.atIfUnknown p).handled = false := by
      rw [RuntimeError.atIfUnknown_isControl, RuntimeError.atIfUnknown_handled]
      exact he
    exact Course.Leaves.bind (fun _ w₁ => hrest .nil cleared w₁) _ (meet_leaves hQ he' w')

theorem follows_loose (hhost : engine.HostFails fun e => e.handled = false) :
    Follows engine f Loose := by
  have hP : Closed (fun e => e.handled = false) (Fails fun e => e.handled = false) :=
    Fails.closed (fun _ he => he.2) fun e p he => (e.atIfUnknown_handled p).trans he
  have hI : Primitives (Fails fun e => e.handled = false) engine (fun _ => engine.enter)
      fun _ => f.bare :=
    primitives_fail (enter_fails _) (fun _ he => he.2)
      (fun e p he => (e.atIfUnknown_handled p).trans he) hhost
  exact
    { pure := fun a => .lift (hP.pure a)
      bind := fun {α β x X k K} hX hK w => Course.Leaves.bind hK (X w) (hX w)
      evaluate := fun e => .lift (evaluate_closed hP.toSequenced hI.toExpressions e)
      items := fun v => .lift (hP.ofFault (Value.items_sober v))
      exceeded := fun _ => .lift (hP.fault rfl)
      write := fun name v => .lift (hI.write name v)
      simple := fun p a => .lift (execSimple_closed hP.toSequenced hI p a (fun _ => rfl)
        (fun _ => rfl) fun _ => nofun)
      pass := fun {x X} hX w => by
        refine Course.Leaves.attempt (fun o w' => ?_) (fun e w' he => ?_) (X w) (hX w)
        · trivial
        · dsimp only
          cases e.code with
          | «break» | «continue» => trivial
          | _ => exact he
      step := fun p cleared hX hrest w => step_leaves (fun _ => .inl) p cleared hX hrest w }

/-- No failure of a step ends a block, only loop signals do. -/
theorem block_leaves (hhost : engine.HostFails fun e => e.handled = false) (steps : List Step) :
    ∀ last cleared w, Course.Leaves (fun e => e.isControl = true)
      (block engine f.bare steps last cleared w) := by
  induction steps with
  | nil => intro last cleared w; simp only [block]; trivial
  | cons step rest ih =>
    intro last cleared w
    obtain ⟨p, a⟩ := step
    rw [block_cons]
    exact step_leaves (fun _ => id) p cleared (action_follows (follows_loose hhost) p a) ih w

end Path

namespace Engine

variable {engine : Engine} {f : Frame} {h : List Step} {e e' : RuntimeError} {w w' : World}

theorem rule_recoveries (hh : f.handler = some h) (e : RuntimeError) (w : World) :
    recoveries f.id (engine.rule f e w).world.trace = recoveries f.id w.trace ++ [e] := by
  have hstart : recoveries f.id (engine.announced f e w).trace = recoveries f.id w.trace ++ [e] :=
    recoveries_push_recover f.id w.trace e
  have hrun : recoveries f.id (engine.attend f e h (engine.announced f e w)).2.trace =
      recoveries f.id (engine.announced f e w).trace :=
    Exec.runHandler_quiet (engine.enter_quiet f) (some e) h _ rfl
  have hworld : (engine.rule f e w).world =
      (engine.attend f e h (engine.announced f e w)).2 := by
    simp only [rule, hh]
    split
    · split <;> simp_all [Ruling.world]
    · split <;> simp_all [Ruling.world]
    · simp_all [Ruling.world]
  rw [hworld, hrun, hstart]

theorem run_of_final {steps : List Step} {before : List RuntimeError} {w₁ : World}
    (hmeets : Course.Meets (engine.rule f) (Path.body engine f steps w) before e w₁)
    (hrule : engine.rule f e w₁ = .final e' w') :
    ∃ e'', engine.runBlock f {} steps w = (.error (.failed e''), w') ∧ e'.Same e'' := by
  have hrun := engine.runBlock_realizes f steps w
  rw [Path.ending, hmeets.play_final hrule] at hrun
  obtain ⟨e'', hrun, hsame, -⟩ := hrun
  exact ⟨e'', hrun, hsame⟩

/-- The handler runs exactly once for each failure and its ruling is final. A run of a body is the
course of the body in which the handler rules on the failures: for each of them its steps are run
once, with the failure as the active one. All failures but loop signals come up there, at whatever
nesting of blocks, and the trace has one run of the handler for each, in order. If the handler neither clears the failure `e` nor ends with a loop signal, then `e`, or the
failure of the handler instead, is how the run ends: with nothing after the handler, and no other
run of it. -/
theorem handler_rules_once (engine : Engine) (f : Frame) (h : List Step)
    (hhost : engine.HostFails fun e => e.handled = false) (hh : f.handler = some h)
    (steps : List Step) (w : World) :
    let course := Path.body engine f steps w
    let run := engine.runBlock f {} steps w
    (Course.play (engine.rule f) course).Shown f run ∧
    Course.Leaves (fun e => e.isControl = true) course ∧
    recoveries f.id run.2.trace =
      recoveries f.id w.trace ++ Course.failures (engine.rule f) course ∧
    ∀ before e w₁, Course.Meets (engine.rule f) course before e w₁ →
      let attended := Exec.runBlock engine engine.enter f { inHandler := true, active := some e }
        Exec.fail h .nil false (engine.announced f e w₁)
      ∀ last : RuntimeError,
        (∃ o, attended.1 = .ok o ∧ o.cleared = false ∧ last = e) ∨
          (attended.1 = .error (.failed last) ∧ last.isControl = false) →
        Course.failures (engine.rule f) course = before ++ [e] ∧
          ∃ e', run = (.error (.failed e'), attended.2) ∧ last.Same e' := by
  intro course run
  have hshown : (Course.play (engine.rule f) course).Shown f run :=
    engine.runBlock_realizes f steps w
  have hsilent : Course.Silent f.id course w :=
    Path.block_follows Path.follows_silent steps .nil false w
  refine ⟨hshown, Path.block_leaves hhost steps .nil false w, ?_, ?_⟩
  · rw [hshown.world]
    exact Course.Silent.recoveries_play (rule_recoveries hh) course hsilent
  · intro before e w₁ hmeets attended last hlast
    have hrule : engine.rule f e w₁ = .final last attended.2 := by
      rcases hlast with ⟨o, hresult, ho, rfl⟩ | ⟨hresult, hcontrol⟩
      · exact rule_of_uncleared hh ho (Prod.ext hresult rfl)
      · exact rule_of_failed hh hcontrol (Prod.ext hresult rfl)
    exact ⟨hmeets.failures_final hrule, run_of_final hmeets hrule⟩

/-- A failure in a loop of the body: the handler sees it once, says so, and lets it stand. -/
theorem handler_rules_once_in_loop :
    let engine : Engine := { config := { maxLoopIterations := 4 }, host := { emit := true } }
    let h : List Step := [.mk .unknown (.emit (.literal (.string "seen")))]
    let f : Frame := { Frame.root with handler := some h }
    let steps : List Step := [.mk .unknown (.loop (.literal (.bool true))
      [.mk .unknown (.fail (some (.literal (.string "lost"))))])]
    let run := engine.runBlock f {} steps {}
    (engine.HostFails (fun e => e.handled = false) ∧ f.handler = some h) ∧
      ∃ e e', recoveries f.id run.2.trace = [e] ∧ run.1 = .error (.failed e') ∧ e.Same e' ∧
        e.message = "lost" ∧
        run.2.trace.toList = [.recover f.id e, .emit .host (.string "seen")] := by
  intro engine h f steps run
  have hhost : engine.HostFails fun e => e.handled = false :=
    ⟨fun _ _ _ => nofun, fun _ _ => nofun⟩
  obtain ⟨-, -, hrecoveries, hmeets⟩ := handler_rules_once engine f h hhost rfl steps {}
  obtain ⟨hfailures, e', hrun, hsame⟩ := hmeets [] _ _ .here _ (.inl ⟨_, rfl, rfl, rfl⟩)
  refine ⟨⟨hhost, rfl⟩, _, e', hrecoveries.trans hfailures, congrArg Prod.fst hrun, hsame, rfl, ?_⟩
  -- the run ends where the handler has ended
  rw [congrArg Prod.snd hrun]
  rfl

end Engine
end StepScript
