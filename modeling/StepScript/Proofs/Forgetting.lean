import StepScript.Proofs.Clearing
import StepScript.Proofs.Recoveries

/-!
# StepScript.Proofs.Forgetting

What a handler tells of the failures that it has cleared.

* `World.clears`     — how often an instance has cleared a failure, by the trace.
* `Exec.forgotten`   — how many of them are forgotten in a run of a handler: those in passes through
  loops that do not come to their end.
* `Exec.Accounts`    — a computation tells of a clearing if and only if there is one that is not
  forgotten. Sequences and loops keep this.
* `Engine.cleared_iff` — so handlers tell of all but the forgotten ones, by induction over their
  syntax.
-/

namespace StepScript

def clearing? (id : InstanceId) : Effect → Option Unit
  | .clear id' => if id' = id then some () else none
  | _ => none

theorem watches_clearing (id : InstanceId) : Watches id (clearing? id) := by
  intro effect hclear _
  cases effect with
  | clear id' =>
    have hne : id' ≠ id := fun heq => hclear (by rw [heq])
    exact if_neg hne
  | _ => rfl

/-- How often an instance has cleared a failure. -/
def World.clears (w : World) (id : InstanceId) : Nat := (watched (clearing? id) w.trace).length

def LoopFlow.cleared : LoopFlow → Bool
  | .next cleared => cleared
  | _ => false

def StepResult.cleared (r : StepResult) : Bool := r.flow = .cleared

theorem StepResult.ofLoop_cleared (cleared : Bool) : (ofLoop cleared).cleared = cleared := by
  cases cleared <;> rfl

theorem StepResult.ofOutcome_cleared {o : Outcome} (h : o.returned = false) :
    (ofOutcome o).cleared = o.cleared := by
  simp only [cleared, ofOutcome, h, Bool.false_eq_true, if_false]
  cases o.cleared <;> rfl

namespace Exec

/-! ## Counting along a run -/

variable {α β : Type}

/-- What is counted in the rest of a run, which a computation comes before. -/
def thereafter (x : Exec α) (count : α → World → Nat) (w : World) : Nat :=
  match x w with
  | (.ok a, w') => count a w'
  | (.error _, _) => 0

theorem thereafter_ok {x : Exec α} {count : α → World → Nat} {w w' : World} {a : α}
    (h : x w = (.ok a, w')) : thereafter x count w = count a w' := by
  rw [thereafter, h]

/-- A loop goes on after a pass, unless the pass has left it. -/
def onward (count : World → Nat) : LoopFlow → World → Nat
  | .next _ => count
  | _ => fun _ => 0

/-- A pass through a loop that does not come to its end forgets all that it has cleared. -/
def forgottenInPass (id : InstanceId) (body : Exec Outcome) (inBody : World → Nat) (w : World) :
    Nat :=
  match body w with
  | (.ok _, _) => inBody w
  | (.error _, w') => w'.clears id - w.clears id

def forgottenInWhile (condition : Exec Bool) (body : Exec Outcome) (inPass : World → Nat) :
    Nat → World → Nat
  | 0 => fun _ => 0
  | left + 1 => thereafter condition fun holds w =>
    if holds then inPass w +
      thereafter (pass body) (onward (forgottenInWhile condition body inPass left)) w
    else 0

def forgottenInFor (visit : Value → Exec Unit) (body : Exec Outcome) (inPass : World → Nat) :
    List Value → Nat → World → Nat
  | [], _ => fun _ => 0
  | _ :: _, 0 => fun _ => 0
  | v :: rest, left + 1 => thereafter (visit v) fun _ w => inPass w +
    thereafter (pass body) (onward (forgottenInFor visit body inPass rest left)) w

section

variable (engine : Engine) (enter : Enter) (f : Frame) (mode : Mode)

mutual

def forgottenInAction : Action → World → Nat
  | .branch condition thenBlock elseBlock => thereafter (evaluate engine enter f condition) fun v =>
    if v.truthy then forgotten thenBlock
    else match elseBlock with
      | some block => forgotten block
      | none => fun _ => 0
  | .loop condition body =>
    let run := runBlock engine enter f mode fail body .nil false
    forgottenInWhile (do return (← evaluate engine enter f condition).truthy) run
      (forgottenInPass f.id run (forgotten body)) engine.config.maxLoopIterations
  | .forEach item collection body =>
    let run := runBlock engine enter f mode fail body .nil false
    thereafter (evaluate engine enter f collection) fun v =>
      thereafter (ofFault v.items) fun items =>
        forgottenInFor (write engine f item) run (forgottenInPass f.id run (forgotten body)) items
          engine.config.maxLoopIterations
  | _ => fun _ => 0

/-- The clearings that a handler forgets. A failure in a handler ends it. -/
def forgotten : List Step → World → Nat
  | [] => fun _ => 0
  | .mk p action :: rest => fun w => forgottenInAction action w +
    thereafter (execAction engine enter f mode fail p action) (fun _ => forgotten rest) w

end

end

/-! ## Computations that account for clearings -/

/-- If the computation ends well, what it ends with tells of a clearing if and only if there was one
before it or if not all that it has made are forgotten. -/
def Accounts (id : InstanceId) (lost : World → Nat) (before : Bool) (told : α → Bool)
    (x : Exec α) : Prop :=
  ∀ w a w', x w = (.ok a, w') →
    w.clears id + lost w ≤ w'.clears id ∧
      (told a = true ↔ before = true ∨ w.clears id + lost w < w'.clears id)

/-- A computation clears no failure of the instance `id`. -/
abbrev Uncleared (id : InstanceId) (α : Type) (x : Exec α) : Prop :=
  Unseen (clearing? id) α fun _ => x

theorem Uncleared.clears {id : InstanceId} {x : Exec α} (h : Uncleared id α x) (w : World) :
    (x w).2.clears id = w.clears id :=
  congrArg List.length (h w rfl)

namespace Accounts

variable {id : InstanceId} {lost : World → Nat} {before : Bool} {told : α → Bool}
variable {x : Exec α} {S : α → Prop} {rest : α → World → Nat} {told' : β → Bool}

theorem of_uncleared (hx : Uncleared id α x) (htold : Returns (fun a => told a = before) x) :
    Accounts id (fun _ => 0) before told x := by
  intro w a w' hrun
  have hclears : w'.clears id = w.clears id := by simpa only [hrun] using hx.clears w
  simp only [htold w a w' hrun, Nat.add_zero]
  exact ⟨by omega, ⟨.inl, fun h => h.resolve_right (by omega)⟩⟩

theorem pure {a : α} (h : told a = before) : Accounts id (fun _ => 0) before told (Pure.pure a) :=
  of_uncleared (Unseen.closed.pure a) (.pure h)

theorem fault (lost : World → Nat) (e : Fault) :
    Accounts id lost before told (Exec.fault e : Exec α) := by
  intro w a w' hrun
  cases hrun

/-- A clearing before the computation is told of as well. -/
theorem late (hx : Accounts id lost false told x) :
    Accounts id lost before (fun a => before || told a) x := by
  intro w a w' hrun
  obtain ⟨hle, htold⟩ := hx w a w' hrun
  refine ⟨hle, ?_⟩
  rw [Bool.or_eq_true, htold]
  simp only [Bool.false_eq_true, false_or]

theorem bind {k : α → Exec β} (hx : Accounts id lost before told x) (hS : Returns S x)
    (hk : ∀ a, S a → Accounts id (rest a) (told a) told' (k a)) :
    Accounts id (fun w => lost w + thereafter x rest w) before told' (x >>= k) := by
  intro w b w' hrun
  match hw : x w with
  | (.ok a, w₁) =>
    rw [bind_ok hw] at hrun
    obtain ⟨hle, htold⟩ := hx w a w₁ hw
    obtain ⟨hle', htold'⟩ := hk a (hS w a w₁ hw) w₁ b w' hrun
    simp only [thereafter_ok hw]
    rw [htold', htold, or_assoc]
    exact ⟨by omega, or_congr_right (by omega)⟩
  | (.error i, w₁) =>
    rw [bind_error hw] at hrun
    cases hrun

theorem attempt {k : Except RuntimeError α → Exec β} (hx : Accounts id lost before told x)
    (hS : Returns S x) (hok : ∀ a, S a → Accounts id (rest a) (told a) told' (k (.ok a)))
    (herror : ∀ e w b w', k (.error e) w ≠ (.ok b, w')) :
    Accounts id (fun w => lost w + thereafter x rest w) before told' (Exec.attempt x >>= k) := by
  have hbind := bind hx hS hok
  intro w b w' hrun
  match hw : x w with
  | (.ok a, w₁) =>
    rw [bind_ok (attempt_ok hw)] at hrun
    exact hbind w b w' ((bind_ok hw).trans hrun)
  | (.error (.failed e), w₁) =>
    rw [bind_ok (attempt_failed hw)] at hrun
    exact absurd hrun (herror e w₁ b w')
  | (.error (.crashed text), w₁) =>
    rw [bind_error (attempt_crashed hw)] at hrun
    cases hrun

/-- What clears nothing comes first. -/
theorem after {k : α → Exec β} (hx : Uncleared id α x)
    (hk : ∀ a, Accounts id (rest a) before told' (k a)) :
    Accounts id (thereafter x rest) before told' (x >>= k) := by
  have hfirst : Accounts id (fun _ => 0) before (fun _ => before) x :=
    of_uncleared hx fun _ _ _ _ => rfl
  have hbind := hfirst.bind (fun _ _ _ _ => trivial : Returns (fun _ => True) x) fun a _ => hk a
  simpa only [Nat.zero_add] using hbind

/-- What comes last clears nothing and tells what has been told. -/
theorem map {g : α → β} (hx : Accounts id lost before told x) (hS : Returns S x)
    (hg : ∀ a, S a → told' (g a) = told a) :
    Accounts id lost before told' (x >>= fun a => Pure.pure (g a)) := by
  intro w b w' hrun
  match hw : x w with
  | (.ok a, w₁) =>
    rw [bind_ok hw] at hrun
    cases hrun
    rw [hg a (hS w a _ hw)]
    exact hx w a _ hw
  | (.error i, w₁) =>
    rw [bind_error hw] at hrun
    cases hrun

/-- A pass that a signal ends tells of nothing, and all that it has cleared is forgotten. -/
theorem pass {body : Exec Outcome} (hbody : Accounts id lost false Outcome.cleared body)
    (hgrows : ∀ w, w.clears id ≤ (body w).2.clears id)
    (hreturned : Returns (fun o => o.returned = false) body) :
    Accounts id (forgottenInPass id body lost) false LoopFlow.cleared (Exec.pass body) := by
  intro w flow w' hrun
  match hw : body w with
  | (.ok o, w₁) =>
    simp only [Exec.pass, bind_ok (attempt_ok hw), hreturned w o w₁ hw] at hrun
    cases hrun
    simp only [forgottenInPass, hw]
    exact hbody w o _ hw
  | (.error (.failed e), w₁) =>
    have hle : w.clears id ≤ w₁.clears id := by simpa only [hw] using hgrows w
    rw [Exec.pass, bind_ok (attempt_failed hw)] at hrun
    have hflow : flow.cleared = false ∧ w₁ = w' := by
      cases hcode : e.code with
      | «break» | «continue» =>
        simp only [hcode] at hrun
        cases hrun
        exact ⟨rfl, rfl⟩
      | _ =>
        simp only [hcode] at hrun
        cases hrun
    obtain ⟨hcleared, rfl⟩ := hflow
    simp only [forgottenInPass, hw, hcleared, Bool.false_eq_true, false_or, false_iff]
    omega
  | (.error (.crashed text), w₁) =>
    rw [Exec.pass, bind_error (attempt_crashed hw)] at hrun
    cases hrun

section Loops

variable {body : Exec Outcome} {inPass : World → Nat}
variable (hpass : Accounts id inPass false LoopFlow.cleared (Exec.pass body))
variable (hreturned : Returns (fun flow => ∀ v, flow ≠ .returned v) (Exec.pass body))

include hpass hreturned

/-- A pass and the passes after it. -/
theorem afterPass {again : Bool → Exec StepResult} {count : World → Nat}
    (hagain : ∀ c, Accounts id count c StepResult.cleared (again c)) (before : Bool) :
    Accounts id (fun w => inPass w + thereafter (Exec.pass body) (onward count) w) before
      StepResult.cleared (Exec.pass body >>= Exec.afterPass before again) := by
  refine bind hpass.late hreturned fun flow hflow => ?_
  cases flow with
  | leave => exact pure ((StepResult.ofLoop_cleared before).trans (Bool.or_false before).symm)
  | next c => exact hagain (before || c)
  | returned v => exact absurd rfl (hflow v)

theorem repeatWhile {condition : Exec Bool} (hcondition : Uncleared id Bool condition)
    (limit left : Nat) : ∀ before, Accounts id (forgottenInWhile condition body inPass left) before
      StepResult.cleared (Exec.repeatWhile limit condition body left before) := by
  induction left with
  | zero =>
    intro before
    refine of_uncleared (Unseen.closed.bind hcondition fun holds => ?_) (.last fun holds => ?_)
    · cases holds with
      | true => exact Unseen.closed.fault rfl
      | false => exact Unseen.closed.pure _
    · cases holds with
      | true => exact .fault _
      | false => exact .pure (StepResult.ofLoop_cleared before)
  | succ left ih =>
    intro before
    refine after hcondition fun holds => ?_
    cases holds with
    | true => exact afterPass hpass hreturned ih before
    | false => exact pure (StepResult.ofLoop_cleared before)

theorem repeatFor {visit : Value → Exec Unit} (hvisit : ∀ v, Uncleared id Unit (visit v))
    (limit : Nat) (items : List Value) : ∀ left before,
    Accounts id (forgottenInFor visit body inPass items left) before StepResult.cleared
      (Exec.repeatFor limit visit body items left before) := by
  induction items with
  | nil =>
    intro left before
    exact pure (StepResult.ofLoop_cleared before)
  | cons v rest ih =>
    intro left before
    cases left with
    | zero => exact fault _ _
    | succ left =>
      exact after (hvisit v) fun _ => afterPass hpass hreturned (ih left) before

end Loops

end Accounts

/-! ## Handlers -/

section Handlers

variable {engine : Engine} {enter : Enter} {f : Frame} {mode : Mode}
variable (henter : ∀ a, Uncleared f.id Outcome (enter f a))

include henter

theorem runBlock_grows (steps : List Step) (last : Value) (cleared : Bool) (w : World) :
    w.clears f.id ≤ (runBlock engine enter f mode fail steps last cleared w).2.clears f.id := by
  let Grows : ∀ α : Type, (Unit → Exec α) → Prop :=
    Keeps fun w w' => w.clears f.id ≤ w'.clears f.id
  have hP : Closed (fun _ => True) Grows := Keeps.closed Nat.le_trans fun _ => Nat.le_refl _
  have hA : Activities Grows engine (fun _ => enter) (fun _ => f) :=
    (activities_unseen (watches_clearing f.id) henter).mono fun h w _ =>
      Nat.le_of_eq (Uncleared.clears h w).symm
  have hclear : Grows Unit fun _ => note (.clear f.id) := by
    intro w _
    simp [World.clears, watched, clearing?]
  have hS : Steering (fun _ => True) Grows mode fun _ => fail :=
    { breakLoop := trivial
      continueLoop := trivial
      active := fun _ _ => trivial
      recover := fun _ _ => hP.fail trivial }
  exact runBlock_closed hP.toSequenced ⟨hA, hclear⟩ hS steps last cleared w (Nat.le_refl _)

theorem evaluate_uncleared (e : Expression) :
    Uncleared f.id Value (evaluate engine enter f e) :=
  evaluate_closed Unseen.closed.toSequenced
    (activities_unseen (watches_clearing f.id) henter).toExpressions e

variable (hmode : mode.inHandler = true)

include hmode

theorem execSimple_accounts (p : Position) (action : Action) :
    Accounts f.id (fun _ => 0) false StepResult.cleared
      (execSimple engine enter f mode p action) := by
  by_cases hclear : action = .clearError
  · subst hclear
    intro w r w' hrun
    rw [execSimple, if_pos hmode] at hrun
    cases hrun
    simp [World.clears, watched, clearing?, StepResult.cleared]
  · refine .of_uncleared (execSimple_of_activities Unseen.closed.toSequenced
      (activities_unseen (watches_clearing f.id) henter) p action (fun h => absurd h hclear)
      (fun _ => trivial) (fun _ => trivial) fun _ _ => trivial) fun w r w' hrun => ?_
    have hflow : r.flow ≠ .cleared := execSimple_goes (T := (· ≠ .cleared)) (by decide)
      (fun _ => by decide) p action (fun h => absurd h hclear) w r w' hrun
    exact decide_eq_false hflow

omit henter in
theorem runBlock_unreturned (steps : List Step) (last : Value) :
    Returns (fun o => o.returned = false)
      (runBlock engine enter f mode fail steps last false) := by
  intro w o w' hrun
  refine Bool.eq_false_iff.2 fun hreturned => ?_
  have hbody := (runBlock_allowed steps last w o w' hrun).1 hreturned
  exact Bool.false_ne_true (hbody.symm.trans hmode)

omit henter in
theorem pass_unreturned (steps : List Step) :
    Returns (fun flow => ∀ v, flow ≠ .returned v)
      (pass (runBlock engine enter f mode fail steps .nil false)) := by
  rintro w flow w' hrun v rfl
  have hbody : mode.inHandler = false := pass_goes (runBlock_allowed steps .nil) w _ w' hrun
  exact Bool.false_ne_true (hbody.symm.trans hmode)

end Handlers

section Blocks

variable {engine : Engine} {enter : Enter} {f : Frame} {mode : Mode}

mutual

theorem execAction_accounts (henter : ∀ a, Uncleared f.id Outcome (enter f a))
    (hmode : mode.inHandler = true) (p : Position) : ∀ action,
    Accounts f.id (forgottenInAction engine enter f mode action) false StepResult.cleared
      (execAction engine enter f mode fail p action)
  | .branch condition thenBlock none => by
    have hthen := runBlock_accounts henter hmode thenBlock .nil false
    simp only [execAction, forgottenInAction]
    refine .after (evaluate_uncleared henter condition) fun v => ?_
    split
    · exact hthen.map (runBlock_unreturned hmode thenBlock .nil) fun _ =>
        StepResult.ofOutcome_cleared
    · exact .pure rfl
  | .branch condition thenBlock (some elseBlock) => by
    have hthen := runBlock_accounts henter hmode thenBlock .nil false
    have helse := runBlock_accounts henter hmode elseBlock .nil false
    simp only [execAction, forgottenInAction]
    refine .after (evaluate_uncleared henter condition) fun v => ?_
    split
    · exact hthen.map (runBlock_unreturned hmode thenBlock .nil) fun _ =>
        StepResult.ofOutcome_cleared
    · exact helse.map (runBlock_unreturned hmode elseBlock .nil) fun _ =>
        StepResult.ofOutcome_cleared
  | .loop condition body => by
    have hbody := runBlock_accounts henter hmode body .nil false
    have hpass := hbody.pass (runBlock_grows henter body .nil false)
      (runBlock_unreturned hmode body .nil)
    have hcondition : Uncleared f.id Bool do
        return (← evaluate engine enter f condition).truthy :=
      Unseen.closed.bind (evaluate_uncleared henter condition) fun v =>
        Unseen.closed.pure v.truthy
    simp only [execAction, forgottenInAction]
    exact .repeatWhile hpass (pass_unreturned hmode body) hcondition _ _ false
  | .forEach item collection body => by
    have hbody := runBlock_accounts henter hmode body .nil false
    have hpass := hbody.pass (runBlock_grows henter body .nil false)
      (runBlock_unreturned hmode body .nil)
    simp only [execAction, forgottenInAction]
    refine .after (evaluate_uncleared henter collection) fun v => ?_
    refine .after (Unseen.closed.ofFault (Value.items_sober v)) fun items => ?_
    exact .repeatFor hpass (pass_unreturned hmode body) (write_unseen item) _ items _ false
  | .set .. | .call _ | .ret _ | .emit _ | .whisper .. | .must _ | .mustBe .. | .fail _
  | .onError _ | .clearError | .ask .. | .promptUser .. | .breakLoop | .continueLoop
  | .expression _ => by
    simp only [execAction, forgottenInAction]
    exact execSimple_accounts henter hmode p _

/-- A handler accounts for the clearings of its instance. -/
theorem runBlock_accounts (henter : ∀ a, Uncleared f.id Outcome (enter f a))
    (hmode : mode.inHandler = true) : ∀ (steps : List Step) (last : Value) (before : Bool),
    Accounts f.id (forgotten engine enter f mode steps) before Outcome.cleared
      (runBlock engine enter f mode fail steps last before)
  | [], last, before => by
    simp only [runBlock, forgotten]
    exact .pure rfl
  | .mk p action :: rest, last, before => by
    have haction : Accounts f.id (forgottenInAction engine enter f mode action) before
        (fun r => before || r.cleared) (execAction engine enter f mode fail p action) :=
      (execAction_accounts henter hmode p action).late
    have hrest := runBlock_accounts henter hmode rest
    rw [runBlock_cons]
    simp only [forgotten]
    refine haction.attempt (execAction_allowed p action) (fun r hr => ?_) fun e w b w' hrun => ?_
    · obtain ⟨v, flow⟩ := r
      cases flow with
      | proceed =>
        have hbefore : (before || StepResult.cleared ⟨v, .proceed⟩) = before := Bool.or_false before
        rw [hbefore]
        exact hrest v before
      | cleared =>
        have hbefore : (before || StepResult.cleared ⟨v, .cleared⟩) = true := Bool.or_true before
        rw [hbefore]
        exact hrest v true
      | returned => exact absurd (hr.symm.trans hmode) Bool.false_ne_true
    · rw [afterStep, bind_error (fail_apply (e.atIfUnknown p) w)] at hrun
      cases hrun

end

end Blocks

end Exec

namespace Engine

/-- The clearings that a handler forgets when it is run in an instance. -/
def forgotten (engine : Engine) (f : Frame) (active : Option RuntimeError) (steps : List Step) :
    World → Nat :=
  Exec.forgotten engine engine.enter f { inHandler := true, active := active } steps

/-- A block that is run as a handler and ends well says that it has cleared the failure if and only
if its instance has, apart from the clearings in passes through loops that a signal has ended. -/
theorem cleared_iff (engine : Engine) (f : Frame) (active : Option RuntimeError)
    (steps : List Step) {w w' : World} {o : Outcome}
    (hrun : engine.runBlock f { inHandler := true, active := active } steps w = (.ok o, w')) :
    w.clears f.id + engine.forgotten f active steps w ≤ w'.clears f.id ∧
      (o.cleared = true ↔
        w.clears f.id + engine.forgotten f active steps w < w'.clears f.id) := by
  have henter (a : Activation) : Exec.Uncleared f.id Outcome (engine.enter f a) :=
    engine.enter_unseen f a (watches_clearing f.id)
  obtain ⟨hle, htold⟩ := Exec.runBlock_accounts henter rfl steps .nil false w o w' hrun
  exact ⟨hle, htold.trans (or_iff_right Bool.false_ne_true)⟩

/-- A pass that clears the failure and is left by a `break`: the block does not tell of it. -/
theorem clear_lost_by_break :
    let steps : List Step := [.mk .unknown (.loop (.literal (.bool true))
      [.mk .unknown .clearError, .mk .unknown .breakLoop])]
    let engine : Engine := { config := { maxLoopIterations := 4 } }
    ∃ w', engine.runBlock .root { inHandler := true } steps {} = (.ok { value := .nil }, w') ∧
      World.clears {} Frame.root.id = 0 ∧ w'.clears Frame.root.id = 1 :=
  ⟨_, rfl, rfl, rfl⟩

/-- What is cleared before the loop is told of, and what a `break` ends is not. -/
theorem cleared_iff_of_forgotten :
    let steps : List Step := [.mk .unknown .clearError, .mk .unknown (.loop (.literal (.bool true))
      [.mk .unknown .clearError, .mk .unknown .breakLoop])]
    let engine : Engine := { config := { maxLoopIterations := 4 } }
    ∃ o w', engine.runBlock .root { inHandler := true } steps {} = (.ok o, w') ∧
      engine.forgotten .root none steps {} = 1 ∧ w'.clears Frame.root.id = 2 ∧
      o.cleared = true := by
  intro steps engine
  have hrun : ∃ o w', engine.runBlock .root { inHandler := true } steps {} = (.ok o, w') ∧
      engine.forgotten .root none steps {} = 1 ∧ w'.clears Frame.root.id = 2 :=
    ⟨_, _, rfl, rfl, rfl⟩
  obtain ⟨o, w', hrun, hforgotten, hclears⟩ := hrun
  refine ⟨o, w', hrun, hforgotten, hclears, ?_⟩
  refine (cleared_iff engine .root none steps hrun).2.2 ?_
  rw [hforgotten, hclears]
  decide

end Engine
end StepScript
