import StepScript.Proofs.Clearing
import StepScript.Proofs.Raised

/-!
# StepScript.Proofs.Flattening

Blocks in blocks.

* `Exec.runBlock_append` — a block in two parts: the second part goes on where the first one ends.
* `Exec.runBlock_after`  — what was cleared before a block does not matter to its steps.
* `Exec.runBlock_passes` — a failure that leaves a block has been dealt with: the block around it
  passes it on as it is.
* `Engine.runBlock_flatten` — so steps that are put into a branch that is always taken run as they
  do without it.
-/

namespace StepScript

theorem RuntimeError.atIfUnknown_unknown (e : RuntimeError) : e.atIfUnknown .unknown = e := by
  simp [atIfUnknown, Position.unknown, Position.isUnknown]

namespace Exec

variable {engine : Engine} {enter : Enter} {f : Frame} {mode : Mode}
variable {recover : RuntimeError → Exec Unit}

theorem map_ok {α β : Type} {x : Exec α} {w w' : World} {a : α} (g : α → β)
    (h : x w = (.ok a, w')) : (g <$> x) w = (.ok (g a), w') := by
  rw [map_eq_pure_bind, bind_ok h]
  rfl

theorem map_error {α β : Type} {x : Exec α} {w w' : World} {i : Interrupt} (g : α → β)
    (h : x w = (.error i, w')) : (g <$> x) w = (.error i, w') := by
  rw [map_eq_pure_bind, bind_error h]

/-! ## Two blocks in a row -/

/-- Goes on with a block, unless the steps before it have returned. -/
def andThen (rest : Value → Bool → Exec Outcome) (o : Outcome) : Exec Outcome :=
  if o.returned then pure o else rest o.value o.cleared

theorem runBlock_append (first second : List Step) : ∀ (last : Value) (cleared : Bool),
    runBlock engine enter f mode recover (first ++ second) last cleared =
      runBlock engine enter f mode recover first last cleared >>=
        andThen (runBlock engine enter f mode recover second) := by
  induction first with
  | nil =>
    intro last cleared
    simp only [List.nil_append, runBlock, pure_bind, andThen, Bool.false_eq_true, if_false]
  | cons step rest ih =>
    intro last cleared
    obtain ⟨p, action⟩ := step
    rw [List.cons_append, runBlock_cons, runBlock_cons, bind_assoc]
    congr 1
    funext r
    rcases r with e | ⟨v, flow⟩
    · simp only [afterStep, bind_assoc, ih]
    · cases flow with
      | proceed => exact ih v cleared
      | cleared => exact ih v true
      | returned => simp only [afterStep, pure_bind, andThen, if_true]

/-- A clearing before the block, added to its outcome. -/
def Outcome.after (cleared : Bool) (o : Outcome) : Outcome :=
  { o with cleared := cleared || o.cleared }

theorem runBlock_after (steps : List Step) : ∀ (last : Value) (cleared : Bool),
    runBlock engine enter f mode recover steps last cleared =
      Outcome.after cleared <$> runBlock engine enter f mode recover steps last false := by
  induction steps with
  | nil =>
    intro last cleared
    simp only [runBlock, map_pure, Outcome.after, Bool.or_false]
  | cons step rest ih =>
    intro last cleared
    obtain ⟨p, action⟩ := step
    rw [runBlock_cons, runBlock_cons, map_bind]
    congr 1
    funext r
    rcases r with e | ⟨v, flow⟩
    · simp only [afterStep, map_bind]
      congr 1
      funext _
      exact ih .nil cleared
    · cases flow with
      | proceed => exact ih v cleared
      | cleared =>
        show runBlock engine enter f mode recover rest v true =
          Outcome.after cleared <$> runBlock engine enter f mode recover rest v true
        rw [ih v true, Functor.map_map]
        congr 1
        funext o
        simp only [Outcome.after, Bool.true_or, Bool.or_true]
      | returned => simp only [afterStep, map_pure, Outcome.after, Bool.or_false]

/-- The first step gives the block its value. -/
theorem runBlock_of_ne_nil {steps : List Step} (h : steps ≠ []) (last last' : Value)
    (cleared : Bool) : runBlock engine enter f mode recover steps last cleared =
      runBlock engine enter f mode recover steps last' cleared := by
  cases steps with
  | nil => exact absurd rfl h
  | cons step rest =>
    obtain ⟨p, action⟩ := step
    rw [runBlock_cons, runBlock_cons]

/-! ## Failures that leave a block -/

/-- A failure that comes out of `recover` as it is. -/
def PassesBy (recover : RuntimeError → Exec Unit) (e : RuntimeError) : Prop := recover e = fail e

/-- The handler of an instance sees a failure once: what it has left of it passes by. -/
theorem recover_passes (e : RuntimeError) :
    Fails (PassesBy (Exec.recover engine enter f)) Unit fun _ => Exec.recover engine enter f e := by
  have hfail {s : RuntimeError} (h : PassesBy (Exec.recover engine enter f) s) :
      Fails (PassesBy (Exec.recover engine enter f)) Unit fun _ => fail s := by
    rintro w e ⟨⟩
    exact h
  have hmarked (s : RuntimeError) : PassesBy (Exec.recover engine enter f) s.markHandled := by
    unfold PassesBy Exec.recover
    rw [if_pos (by simp [RuntimeError.markHandled])]
  by_cases hpass : (e.isControl || e.handled) = true
  · have hrecover : Exec.recover engine enter f e = fail e := by rw [Exec.recover, if_pos hpass]
    rw [hrecover]
    exact hfail hrecover
  · cases hh : f.handler with
    | none =>
      have hrecover : Exec.recover engine enter f e = fail e := by
        rw [Exec.recover, if_neg hpass, hh]
      rw [hrecover]
      exact hfail hrecover
    | some block =>
      rw [Exec.recover, if_neg hpass, hh]
      have hhandler : Fails (fun _ => True) Outcome fun _ =>
          runHandler engine enter f (some e) block := fun _ _ _ => trivial
      refine Fails.bind (.of_ok fun w => ⟨_, rfl⟩) fun _ => ?_
      refine Fails.bind (.of_ok fun w => ⟨_, rfl⟩) fun _ => ?_
      refine hhandler.attempt (fun o => ?_) fun s _ => hfail (hmarked s)
      dsimp only
      split
      · exact .of_ok fun w => ⟨_, rfl⟩
      · exact hfail (hmarked e)

theorem runBlock_passes (hrecover : ∀ e, Fails (PassesBy recover) Unit fun _ => recover e)
    (steps : List Step) : ∀ last cleared, Fails (PassesBy recover) Outcome fun _ =>
      runBlock engine enter f mode recover steps last cleared := by
  induction steps with
  | nil =>
    intro last cleared
    simp only [runBlock]
    exact .of_ok fun w => ⟨_, rfl⟩
  | cons step rest ih =>
    intro last cleared
    obtain ⟨p, action⟩ := step
    have haction : Fails (fun _ => True) StepResult fun _ =>
        execAction engine enter f mode recover p action := fun _ _ _ => trivial
    simp only [runBlock_cons]
    refine haction.attempt (fun r => ?_) fun e _ => (hrecover _).bind fun _ => ih .nil cleared
    obtain ⟨v, flow⟩ := r
    cases flow with
    | proceed => exact ih v cleared
    | cleared => exact ih v true
    | returned => exact .of_ok fun w => ⟨_, rfl⟩

/-! ## Blocks in blocks -/

/-- The branch that is always taken. -/
def unconditional (block : List Step) : Step :=
  .mk .unknown (.branch (.literal (.bool true)) block none)

theorem execAction_unconditional (p : Position) (block : List Step) :
    execAction engine enter f mode recover p (.branch (.literal (.bool true)) block none) =
      StepResult.ofOutcome <$> runBlock engine enter f mode recover block .nil false := by
  simp only [execAction, evaluate, pure_bind]
  rfl

/-- What becomes of the block's outcome is the same inside the branch and without it: a block does
not both clear and return, so what it has cleared is not lost with the branch. -/
theorem runBlock_unconditional (hrecover : ∀ e, Fails (PassesBy recover) Unit fun _ => recover e)
    {block : List Step} (hblock : block ≠ []) (rest : List Step) (last : Value) (cleared : Bool) :
    runBlock engine enter f mode recover (unconditional block :: rest) last cleared =
      runBlock engine enter f mode recover (block ++ rest) last cleared := by
  funext w
  rw [unconditional, runBlock_cons, execAction_unconditional, runBlock_append,
    runBlock_of_ne_nil hblock last .nil, runBlock_after block .nil cleared]
  rcases hrun : runBlock engine enter f mode recover block .nil false w with ⟨(e | text) | o, w'⟩
  · have hpass : recover e = fail e :=
      runBlock_passes hrecover block .nil false w e (congrArg Prod.fst hrun)
    rw [bind_ok (attempt_failed (map_error _ hrun)), bind_error (map_error _ hrun)]
    simp only [afterStep, e.atIfUnknown_unknown, hpass]
    exact bind_error (fail_apply e w')
  · rw [bind_error (attempt_crashed (map_error _ hrun)), bind_error (map_error _ hrun)]
  · obtain ⟨hreturned, hcleared⟩ := runBlock_allowed block .nil w o w' hrun
    rw [bind_ok (attempt_ok (map_ok _ hrun)), bind_ok (map_ok _ hrun)]
    obtain ⟨v, returned, cleared'⟩ := o
    cases returned with
    | true =>
      obtain rfl : cleared' = false := by
        cases cleared' with
        | false => rfl
        | true => exact absurd ((hreturned rfl).symm.trans (hcleared rfl)) Bool.false_ne_true
      simp only [StepResult.ofOutcome, afterStep, andThen, Outcome.after, if_true, Bool.or_false]
    | false =>
      cases cleared' with
      | false =>
        simp only [StepResult.ofOutcome, afterStep, andThen, Outcome.after, Bool.false_eq_true,
          if_false, Bool.or_false]
      | true =>
        simp only [StepResult.ofOutcome, afterStep, andThen, Outcome.after, Bool.false_eq_true,
          if_true, if_false, Bool.or_true]

/-- A block of an instance, as its body or as a handler. -/
theorem run_unconditional (before : List Step) {block : List Step} (hblock : block ≠ [])
    (rest : List Step) :
    run engine enter f mode (before ++ [unconditional block] ++ rest) =
      run engine enter f mode (before ++ block ++ rest) := by
  have hfail (e : RuntimeError) : Fails (PassesBy fail) Unit fun _ => fail e := fun _ _ _ => rfl
  unfold run
  simp only [runHandler, List.append_assoc, runBlock_append before, List.singleton_append]
  split
  · congr 2
    funext v c
    exact runBlock_unconditional hfail hblock rest v c
  · congr 2
    funext v c
    exact runBlock_unconditional recover_passes hblock rest v c

end Exec

namespace Engine

open Exec (unconditional)

/-- Steps run as they do inside a branch that is always taken, whatever stands around them: the
answer, a failure with its position and its cause, the world after the run and its trace are the
same. -/
theorem runBlock_flatten (engine : Engine) (f : Frame) (mode : Mode) (before : List Step)
    {block : List Step} (hblock : block ≠ []) (rest : List Step) (w : World) :
    engine.runBlock f mode (before ++ [unconditional block] ++ rest) w =
      engine.runBlock f mode (before ++ block ++ rest) w :=
  congrFun (Exec.run_unconditional before hblock rest) w

/-- A failure in the middle of the branch is handled once, and the step after it still runs. -/
theorem runBlock_flatten_of_resumed :
    let f : Frame := { Frame.root with handler := some [.mk .unknown .clearError] }
    let block : List Step := [.mk .unknown (.fail (some (.literal (.string "lost")))),
      .mk .unknown (.expression (.literal (.string "found")))]
    let run := fun steps => ({} : Engine).runBlock f {} steps {}
    block ≠ [] ∧ run [unconditional block] = run block ∧
      ∃ w', run [unconditional block] = (.ok { value := .string "found" }, w') ∧
        w'.trace.size = 2 := by
  intro f block run
  have hblock : block ≠ [] := List.cons_ne_nil _ _
  exact ⟨hblock, runBlock_flatten {} f {} [] hblock [] {}, _, rfl, rfl⟩

end Engine
end StepScript
