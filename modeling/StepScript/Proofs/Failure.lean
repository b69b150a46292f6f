import StepScript.Engine.Settle

/-!
# StepScript.Proofs.Failure

Failures as the engine itself raises them. Apart from `break` and `continue`, no reason of the
engine steers a loop, and no failure starts out as one that a handler has seen.

* `FailsWith` — every error of a result has a property.
* `RuntimeError.Plain` — neither a loop signal nor handled.
* `RuntimeError.Same`  — equal in code, message and cause; the place and the mark of a handler may
  differ.
-/

namespace StepScript

def FailsWith {ε α : Type} (P : ε → Prop) (x : Except ε α) : Prop := ∀ e, x = .error e → P e

namespace FailsWith

variable {ε α β : Type} {P : ε → Prop}

theorem ok (a : α) : FailsWith P (.ok a : Except ε α) := by
  intro e h
  cases h

theorem error {e : ε} (h : P e) : FailsWith P (.error e : Except ε α) := by
  intro e' h'
  cases h'
  exact h

theorem bind {x : Except ε α} {k : α → Except ε β} (hx : FailsWith P x)
    (hk : ∀ a, FailsWith P (k a)) : FailsWith P (x >>= k) := by
  intro e h
  cases x with
  | error _ => cases h; exact hx e rfl
  | ok a => exact hk a e h

theorem map {x : Except ε α} (hx : FailsWith P x) (g : α → β) : FailsWith P (x.map g) := by
  cases x with
  | error e => exact error (hx e rfl)
  | ok a => exact ok (g a)

end FailsWith

namespace RuntimeError

/-- A failure that a handler may still look at. -/
def Plain (e : RuntimeError) : Prop := e.isControl = false ∧ e.handled = false

/-- The same failure, wherever it is placed and whether or not a handler has seen it. -/
structure Same (e e' : RuntimeError) : Prop where
  code : e'.code = e.code
  message : e'.message = e.message
  cause : e'.cause = e.cause

namespace Same

theorem refl (e : RuntimeError) : Same e e := ⟨rfl, rfl, rfl⟩

theorem trans {a b c : RuntimeError} (h : Same a b) (h' : Same b c) : Same a c :=
  ⟨h'.code.trans h.code, h'.message.trans h.message, h'.cause.trans h.cause⟩

theorem isControl {a b : RuntimeError} (h : Same a b) : b.isControl = a.isControl := by
  simp only [RuntimeError.isControl, h.code]

end Same

theorem same_markHandled (e : RuntimeError) : Same e e.markHandled := ⟨rfl, rfl, rfl⟩

theorem same_atIfUnknown (e : RuntimeError) (p : Position) : Same e (e.atIfUnknown p) := by
  unfold atIfUnknown
  split <;> exact ⟨rfl, rfl, rfl⟩

@[simp] theorem atIfUnknown_handled (e : RuntimeError) (p : Position) :
    (e.atIfUnknown p).handled = e.handled := by
  unfold atIfUnknown
  split <;> rfl

@[simp] theorem atIfUnknown_isControl (e : RuntimeError) (p : Position) :
    (e.atIfUnknown p).isControl = e.isControl := (same_atIfUnknown e p).isControl

/-- A failure that leaves a frame is one that the caller's handler may look at. -/
theorem leavingFrame_plain (e : RuntimeError) : e.leavingFrame.Plain := by
  unfold leavingFrame
  split
  · exact ⟨rfl, rfl⟩
  · exact ⟨rfl, rfl⟩
  · rename_i hb hc
    refine ⟨?_, rfl⟩
    simp only [isControl]
    cases h : e.code <;> first | rfl | exact absurd h hb | exact absurd h hc

namespace Plain

variable {e : RuntimeError}

theorem withPosition (h : e.Plain) (p : Position) : (e.withPosition p).Plain := h

theorem atIfUnknown (h : e.Plain) (p : Position) : (e.atIfUnknown p).Plain :=
  ⟨by rw [atIfUnknown_isControl]; exact h.1, by rw [atIfUnknown_handled]; exact h.2⟩

end Plain
end RuntimeError

theorem Fault.error_plain {f : Fault} (h : f.code.isControl = false) : f.error.Plain := ⟨h, rfl⟩

theorem StoreError.toRuntimeError_plain (e : StoreError) : e.toRuntimeError.Plain :=
  ⟨by cases e <;> rfl, rfl⟩

theorem ProviderError.toRuntimeError_plain (e : ProviderError) : e.toRuntimeError.Plain :=
  ⟨rfl, rfl⟩

theorem ParseError.toRuntimeError_plain (e : ParseError) : e.toRuntimeError.Plain := ⟨rfl, rfl⟩

theorem Engine.refusal_plain (engine : Engine) (parent : Frame) (label : String) :
    (engine.refusal parent label).Plain := ⟨rfl, rfl⟩

namespace Body

mutual

theorem checkAction_plain : ∀ action, FailsWith RuntimeError.Plain (checkAction action)
  | .branch _ thenBlock none => by
    simp only [checkAction]
    exact .bind (checkBlock_plain thenBlock) fun _ => .ok ()
  | .branch _ thenBlock (some elseBlock) => by
    simp only [checkAction]
    exact .bind (checkBlock_plain thenBlock) fun _ => checkBlock_plain elseBlock
  | .loop _ body => by simp only [checkAction]; exact checkBlock_plain body
  | .forEach _ _ body => by simp only [checkAction]; exact checkBlock_plain body
  | .onError body => by simp only [checkAction]; exact checkBlock_plain body
  | .set .. | .call _ | .ret _ | .emit _ | .whisper .. | .must _ | .mustBe .. | .fail _
  | .clearError | .ask .. | .promptUser .. | .breakLoop | .continueLoop | .expression _ => by
    simp only [checkAction]
    exact .ok ()

theorem checkBlock_plain : ∀ steps, FailsWith RuntimeError.Plain (checkBlock steps)
  | [] => by simp only [checkBlock]; exact .ok ()
  | .mk p action :: rest => by
    have hrest := checkBlock_plain rest
    have haction := checkAction_plain action
    simp only [checkBlock]
    split
    · exact .bind (.error ⟨rfl, rfl⟩) fun _ => hrest
    · exact .bind haction fun _ => hrest

end

theorem split_plain (steps : List Step) :
    ∀ found, FailsWith RuntimeError.Plain (split found steps) := by
  induction steps with
  | nil => intro found; exact .ok _
  | cons step rest ih =>
    intro found
    unfold split
    split
    · rename_i heq; cases heq
    · rename_i p block rest' heq
      cases heq
      refine .bind (checkBlock_plain block) fun _ => ?_
      split
      · exact .error ⟨rfl, rfl⟩
      · exact ih _
    · rename_i heq
      cases heq
      exact .bind (checkAction_plain _) fun _ => .bind (ih _) fun _ => .ok _

theorem ofSteps_plain (steps : List Step) : FailsWith RuntimeError.Plain (ofSteps steps) :=
  split_plain steps none

end Body

/-- A reason that is no loop signal. -/
def Fault.Sober (f : Fault) : Prop := f.code.isControl = false

namespace Value

theorem add_sober (l r : Value) : FailsWith Fault.Sober (add l r) := by
  unfold add
  split <;> first | exact .ok _ | exact .error rfl

theorem arithmetic_sober (op : BinaryOperator) {g : Float → Float → Except Fault Float}
    (hg : ∀ x y, FailsWith Fault.Sober (g x y)) (l r : Value) :
    FailsWith Fault.Sober (arithmetic op g l r) := by
  unfold arithmetic
  split
  · exact (hg _ _).map _
  · exact .error rfl

theorem quotient_sober (g : Float → Float → Float) (x y : Float) :
    FailsWith Fault.Sober (quotient g x y) := by
  unfold quotient
  split
  · exact .error rfl
  · exact .ok _

theorem comparison_sober (op : BinaryOperator) (test : Ordering → Bool) (l r : Value) :
    FailsWith Fault.Sober (comparison op test l r) := by
  unfold comparison
  split
  · exact .ok _
  · exact .error rfl

theorem binary_sober (op : BinaryOperator) (l r : Value) :
    FailsWith Fault.Sober (binary op l r) := by
  cases op with
  | add => exact add_sober l r
  | subtract | multiply => exact arithmetic_sober _ (fun _ _ => .ok _) l r
  | divide | modulo => exact arithmetic_sober _ (quotient_sober _) l r
  | equal | notEqual | and | or => exact .ok _
  | less | lessEqual | greater | greaterEqual => exact comparison_sober _ _ l r

theorem unary_sober (op : UnaryOperator) (v : Value) : FailsWith Fault.Sober (unary op v) := by
  unfold unary
  split <;> first | exact .ok _ | exact .error rfl

theorem place_sober (n : Nat) (v : Value) : FailsWith Fault.Sober (place n v) := by
  unfold place
  split
  · split
    · split
      · exact .ok _
      · exact .error rfl
    · exact .error rfl
  · exact .error rfl

theorem key_sober (v : Value) : FailsWith Fault.Sober (key v) := by
  unfold key
  split
  · exact .ok _
  · exact .error rfl

theorem index_sober (t i : Value) : FailsWith Fault.Sober (index t i) := by
  unfold index
  split
  · exact .bind (place_sober _ _) fun _ => .ok _
  · refine .bind (key_sober _) fun k => ?_
    split
    · exact .ok _
    · exact .error rfl
  · exact .bind (place_sober _ _) fun _ => .ok _
  · exact .error rfl

theorem setElement_sober (c i v : Value) : FailsWith Fault.Sober (setElement c i v) := by
  unfold setElement
  split
  · exact .bind (place_sober _ _) fun _ => .ok _
  · exact .bind (key_sober _) fun _ => .ok _
  · exact .error rfl

theorem items_sober (v : Value) : FailsWith Fault.Sober v.items := by
  unfold items
  split <;> first | exact .ok _ | exact .error rfl

theorem length_sober (v : Value) : FailsWith Fault.Sober v.length := by
  unfold length
  split <;> first | exact .ok _ | exact .error rfl

end Value
end StepScript
