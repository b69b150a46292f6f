import StepScript.Proofs.AtWork
import StepScript.Proofs.Clearing

/-!
# StepScript.Proofs.Modes

Blocks of bodies may return, blocks of handlers may clear, and no block does both.

* `Mode.Fits`  — a block has ended as its mode allows. Then the step around it can tell how, even
  though it asks first whether the block has returned (`Mode.Fits.flow_cleared`).
* `Audit`      — what an executor makes of the end of a block. `Audit.runBlock` is the engine with
  an auditor who sees all blocks end: those of branches and loops, handlers, and bodies in forks.
* `Audit.Fair` — the auditor objects to nothing that fits. `Audit.runBlock_eq` — so there is never
  anything to object to.
* `Engine.modes_apart` — so modes do not mix, however deep blocks are nested.
-/

namespace StepScript

namespace Mode

/-- A handler has not returned, a body has not cleared. -/
structure Fits (mode : Mode) (o : Outcome) : Prop where
  handler : mode.inHandler = true → o.returned = false
  body : mode.inHandler = false → o.cleared = false

instance (mode : Mode) (o : Outcome) : Decidable (mode.Fits o) :=
  decidable_of_iff ((mode.inHandler = true → o.returned = false) ∧
    (mode.inHandler = false → o.cleared = false))
    ⟨fun h => ⟨h.1, h.2⟩, fun h => ⟨h.handler, h.body⟩⟩

namespace Fits

variable {mode : Mode} {o : Outcome}

theorem of_endsBy (h : Exec.EndsBy (Exec.Allows mode) o) : mode.Fits o where
  handler hmode := Bool.eq_false_iff.2 fun hreturned =>
    Bool.noConfusion (hmode.symm.trans (h.1 hreturned))
  body hmode := Bool.eq_false_iff.2 fun hcleared =>
    Bool.noConfusion (hmode.symm.trans (h.2 hcleared))

theorem not_both (h : mode.Fits o) : ¬ (o.returned = true ∧ o.cleared = true) := by
  rintro ⟨hreturned, hcleared⟩
  cases hmode : mode.inHandler with
  | true => exact Bool.noConfusion (hreturned.symm.trans (h.handler hmode))
  | false => exact Bool.noConfusion (hcleared.symm.trans (h.body hmode))

/-- That a return goes before a clearing hides no clearing. -/
theorem flow_cleared (h : mode.Fits o) :
    (StepResult.ofOutcome o).flow = .cleared ↔ o.cleared = true := by
  cases hreturned : o.returned with
  | false => cases hcleared : o.cleared <;> simp [StepResult.ofOutcome, hreturned, hcleared]
  | true =>
    have hcleared : o.cleared = false := Bool.eq_false_iff.2 fun hc => h.not_both ⟨hreturned, hc⟩
    simp [StepResult.ofOutcome, hreturned, hcleared]

end Fits

end Mode

theorem StepResult.ofOutcome_returned (o : Outcome) :
    (ofOutcome o).flow = .returned ↔ o.returned = true := by
  cases hreturned : o.returned with
  | true => simp [ofOutcome, hreturned]
  | false => cases hcleared : o.cleared <;> simp [ofOutcome, hreturned, hcleared]

/-- What does nothing to the values that can be returned does nothing. -/
theorem Exec.Returns.bind_eq_self {α : Type} {S : α → Prop} {x : Exec α} {k : α → Exec α}
    (hx : Returns S x) (hk : ∀ a, S a → k a = Pure.pure a) : x >>= k = x := by
  funext w
  rcases hw : x w with ⟨i | a, w'⟩
  · exact bind_error hw
  · rw [bind_ok hw, hk a (hx w a w' hw)]
    rfl

/-! ## Auditors -/

/-- What an executor makes of the end of a block that was run in a mode. -/
abbrev Audit := Mode → Outcome → Exec Outcome

namespace Audit

open Exec

def hooks (audit : Audit) (engine : Engine) : Hooks := { engine.hooks with ended := audit }

def runBlock (audit : Audit) (engine : Engine) (f : Frame) (mode : Mode) (steps : List Step) :
    Exec Outcome :=
  (audit.hooks engine).runBlock engine f mode steps

/-- The auditor objects to nothing that fits. -/
def Fair (audit : Audit) : Prop := ∀ mode o, mode.Fits o → audit mode o = pure o

/-- A block fits its mode when it ends, whatever becomes of its failures and whatever its calls do,
so there is nothing to object to. -/
theorem Fair.passive {audit : Audit} (haudit : audit.Fair) (engine : Engine) :
    (audit.hooks engine).Passive engine :=
  ⟨rfl, rfl, fun _ _ mode _ steps =>
    (runBlock_allowed steps .nil).bind_eq_self fun o ho => haudit mode o (.of_endsBy ho)⟩

theorem runBlock_eq {audit : Audit} (haudit : audit.Fair) (engine : Engine) (f : Frame) (mode : Mode)
    (steps : List Step) : audit.runBlock engine f mode steps = engine.runBlock f mode steps :=
  Hooks.runBlock_eq (haudit.passive engine) rfl f mode steps

/-- An auditor who is not fair is heard: whoever objects to clearings stops the handler. -/
example :
    let audit : Audit := fun _ o => if o.cleared then crash (some "cleared") else pure o
    let f : Frame := { Frame.root with handler := some [.clearError] }
    ∃ w', audit.runBlock {} f {} [.fail "lost"] {} = (.error (.crashed (some "cleared")), w') :=
  ⟨_, rfl⟩

end Audit

namespace Engine

theorem runBlock_fits {engine : Engine} {f : Frame} {mode : Mode} {steps : List Step}
    {w w' : World} {o : Outcome} (hrun : engine.runBlock f mode steps w = (.ok o, w')) :
    mode.Fits o := by
  rw [runBlock_eq] at hrun
  exact .of_endsBy (Exec.runBlock_allowed steps .nil w o w' hrun)

/-- The modes of blocks do not mix. A block that was run as a handler has not returned, one that was
run as a body has not cleared, whatever its handler has cleared meanwhile. So no block does both,
and the step around it goes on just as the block has ended. And this holds of all blocks that run on
the way, in branches, loops, handlers and forks: an auditor who objects only to mixed modes never
does. -/
theorem modes_apart (engine : Engine) (f : Frame) (mode : Mode) (steps : List Step) (w : World) :
    (∀ o w', engine.runBlock f mode steps w = (.ok o, w') →
      (mode.inHandler = true → o.returned = false) ∧
      (mode.inHandler = false → o.cleared = false) ∧
      ¬ (o.returned = true ∧ o.cleared = true) ∧
      ((StepResult.ofOutcome o).flow = .returned ↔ o.returned = true) ∧
      ((StepResult.ofOutcome o).flow = .cleared ↔ o.cleared = true)) ∧
    ∀ audit : Audit, audit.Fair →
      audit.runBlock engine f mode steps w = engine.runBlock f mode steps w := by
  refine ⟨fun o w' hrun => ?_, fun audit haudit => ?_⟩
  · have hfits := runBlock_fits hrun
    exact ⟨hfits.handler, hfits.body, hfits.not_both, StepResult.ofOutcome_returned o,
      hfits.flow_cleared⟩
  · rw [Audit.runBlock_eq haudit]

/-- The body fails deep inside of a loop, a handler clears the failure in a loop of its own, and the
body goes on and returns. An auditor who crashes on mixed modes has nothing to object to in this
body, nor when the same handler runs by itself. -/
theorem modes_apart_of_recovered :
    let engine : Engine := { config := { maxLoopIterations := 4 } }
    let h : List Step := [.of (.forEach "x" (.list [.nil, .nil])
      [.of (.branch (.bool true) [.clearError] none)])]
    let steps : List Step := [.of (.loop (.bool true)
      [.of (.branch (.bool true) [.fail "lost", .ret (.string "found")] none)])]
    let f : Frame := { Frame.root with handler := some h }
    let audit : Audit := fun mode o => if mode.Fits o then pure o else Exec.crash (some "mixed")
    audit.Fair ∧
      (∃ o w', engine.runBlock f {} steps {} = (.ok o, w') ∧
        (o.returned = true ∧ o.cleared = false) ∧
        audit.runBlock engine f {} steps {} = (.ok o, w')) ∧
      ∃ o w', engine.runBlock f { inHandler := true } h {} = (.ok o, w') ∧
        (o.returned = false ∧ o.cleared = true) ∧
        audit.runBlock engine f { inHandler := true } h {} = (.ok o, w') := by
  intro engine h steps f audit
  have hfair : audit.Fair := fun mode o ho => if_pos ho
  obtain ⟨hbody, hbodyAudit⟩ := modes_apart engine f {} steps {}
  obtain ⟨hhandler, hhandlerAudit⟩ := modes_apart engine f { inHandler := true } h {}
  refine ⟨hfair, ⟨_, _, rfl, ⟨rfl, ?_⟩, hbodyAudit audit hfair⟩, _, _, rfl, ⟨?_, rfl⟩,
    hhandlerAudit audit hfair⟩
  · exact (hbody _ _ rfl).2.1 rfl
  · exact (hhandler _ _ rfl).1 rfl

end Engine
end StepScript
