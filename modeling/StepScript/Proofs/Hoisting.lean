import StepScript.Script.Body

/-!
# StepScript.Proofs.Hoisting

Which steps make a body.

* `Action.blocks`, `Step.Inside` — the blocks of an action, and the steps that stand in a block at
  any depth.
* `Body.Seeks`     — a check that fails at a misplaced handler, unless there is none.
  `checkBlock_seeks` — so does the check of a block, by induction over its syntax.
* `Body.Split`     — what becomes of a list of steps, told from the handler that was found before
  it. `split_spec` — so it is for every list, by induction over it.
* `Body.hoists_exactly` — bodies are accepted if and only if they are legal, their steps are kept in
  order, and a body that is not accepted is refused at one of its handlers.
-/

namespace StepScript

def Action.blocks : Action → List (List Step)
  | .branch _ thenBlock elseBlock => thenBlock :: elseBlock.toList
  | .loop _ body => [body]
  | .forEach _ _ body => [body]
  | .onError body => [body]
  | _ => []

/-- A step stands in a block: among its steps or, at any depth, inside of one of them. -/
inductive Step.Inside (s : Step) : List Step → Prop where
  | here {block : List Step} : s ∈ block → Inside s block
  | deeper {t : Step} {inner block : List Step} : t ∈ block → inner ∈ t.action.blocks →
      Inside s inner → Inside s block

/-- A step stands in one of the blocks of an action, at any depth. -/
def Action.Encloses (a : Action) (s : Step) : Prop := ∃ block ∈ a.blocks, s.Inside block

def Step.isHandler : Step → Bool
  | .mk _ (.onError _) => true
  | _ => false

theorem Step.isHandler_iff {s : Step} :
    s.isHandler = true ↔ ∃ block, s = .mk s.position (.onError block) := by
  obtain ⟨p, a⟩ := s
  cases a <;> simp [isHandler, position]

theorem Step.inside_cons {s t : Step} {rest : List Step} :
    s.Inside (t :: rest) ↔ s = t ∨ t.action.Encloses s ∨ s.Inside rest := by
  constructor
  · rintro (hmem | ⟨hmem, hblock, hinside⟩)
    · rcases List.mem_cons.1 hmem with rfl | hrest
      · exact .inl rfl
      · exact .inr (.inr (.here hrest))
    · rcases List.mem_cons.1 hmem with rfl | hrest
      · exact .inr (.inl ⟨_, hblock, hinside⟩)
      · exact .inr (.inr (.deeper hrest hblock hinside))
  · rintro (rfl | ⟨block, hblock, hinside⟩ | hrest | ⟨hmem, hblock, hinside⟩)
    · exact .here List.mem_cons_self
    · exact .deeper List.mem_cons_self hblock hinside
    · exact .here (List.mem_cons_of_mem _ hrest)
    · exact .deeper (List.mem_cons_of_mem _ hmem) hblock hinside

/-- Steps that make a body: at most one of them is a handler, and no handler stands inside of a
step. -/
structure Step.Legal (steps : List Step) : Prop where
  once : steps.countP Step.isHandler ≤ 1
  flat : ∀ t ∈ steps, ∀ s, t.action.Encloses s → s.isHandler = false

namespace Body

/-! ## The check of a block -/

/-- A check that goes through the steps of `T`: it fails at a handler among them, or there is
none. -/
def Seeks (T : Step → Prop) (x : Except RuntimeError Unit) : Prop :=
  (x = .ok () ∧ ∀ s, T s → s.isHandler = false) ∨
    ∃ s, T s ∧ s.isHandler = true ∧ x = .error (misplaced s.position)

namespace Seeks

variable {S T : Step → Prop} {x y : Except RuntimeError Unit}

theorem none (h : ∀ s, ¬ T s) : Seeks T (.ok ()) := .inl ⟨rfl, fun s hs => absurd hs (h s)⟩

theorem congr (h : ∀ s, S s ↔ T s) (hx : Seeks S x) : Seeks T x := by
  obtain rfl : S = T := funext fun s => propext (h s)
  exact hx

/-- One check after the other. -/
theorem andThen (hx : Seeks S x) (hy : Seeks T y) :
    Seeks (fun s => S s ∨ T s) (x >>= fun _ => y) := by
  rcases hx with ⟨rfl, hnone⟩ | ⟨s, hs, hhandler, rfl⟩
  · rcases hy with ⟨rfl, hnone'⟩ | ⟨s, hs, hhandler, rfl⟩
    · exact .inl ⟨rfl, fun s hs => hs.elim (hnone s) (hnone' s)⟩
    · exact .inr ⟨s, .inr hs, hhandler, rfl⟩
  · exact .inr ⟨s, .inl hs, hhandler, rfl⟩

end Seeks

mutual

theorem checkAction_seeks : ∀ a, Seeks (Action.Encloses a) (checkAction a)
  | .branch _ thenBlock none => by
    have hthen := checkBlock_seeks thenBlock
    simp only [checkAction]
    refine (hthen.andThen (.none (T := fun _ => False) fun _ => id)).congr fun s => ?_
    simp [Action.Encloses, Action.blocks]
  | .branch _ thenBlock (some elseBlock) => by
    have hthen := checkBlock_seeks thenBlock
    have helse := checkBlock_seeks elseBlock
    simp only [checkAction]
    refine (hthen.andThen helse).congr fun s => ?_
    simp [Action.Encloses, Action.blocks]
  | .loop _ body | .forEach _ _ body | .onError body => by
    have hbody := checkBlock_seeks body
    simp only [checkAction]
    refine hbody.congr fun s => ?_
    simp [Action.Encloses, Action.blocks]
  | .set .. | .call _ | .ret _ | .emit _ | .whisper .. | .must _ | .mustBe .. | .fail _
  | .clearError | .ask .. | .promptUser .. | .breakLoop | .continueLoop | .expression _ => by
    simp only [checkAction]
    refine .none fun s hs => ?_
    obtain ⟨block, hblock, -⟩ := hs
    cases hblock

theorem checkBlock_seeks : ∀ steps, Seeks (fun s => s.Inside steps) (checkBlock steps)
  | [] => by
    simp only [checkBlock]
    refine .none fun s hs => ?_
    cases hs with
    | here hmem => cases hmem
    | deeper hmem => cases hmem
  | .mk p a :: rest => by
    have haction := checkAction_seeks a
    have hrest := checkBlock_seeks rest
    simp only [checkBlock]
    split
    · -- the handler is found before what is in it
      exact .inr ⟨_, .here List.mem_cons_self, rfl, rfl⟩
    · rename_i hother
      rcases haction.andThen hrest with ⟨hok, hnone⟩ | ⟨s, hs, hhandler, herror⟩
      · refine .inl ⟨hok, fun s hs => ?_⟩
        rcases Step.inside_cons.1 hs with rfl | hs
        · refine Bool.eq_false_iff.2 fun hhandler => ?_
          obtain ⟨block, heq⟩ := Step.isHandler_iff.1 hhandler
          cases heq
          exact hother block rfl
        · exact hnone s hs
      · exact .inr ⟨s, Step.inside_cons.2 (.inr hs), hhandler, herror⟩

end

/-! ## The body -/

/-- What becomes of the steps that follow `found`. They are parted into steps and handler; or a
handler stands inside of one of them, or there is one handler too many. -/
inductive Split (found : Found) (steps : List Step) : Except RuntimeError Body → Prop where
  | accepted {body : Body} : found.toList.length + steps.countP Step.isHandler ≤ 1 →
      (∀ t ∈ steps, ∀ s, t.action.Encloses s → s.isHandler = false) →
      body.steps = steps.filter (!·.isHandler) →
      (∀ block, body.handler = some block ↔
        (∃ p, found = some (p, block)) ∨ ∃ p, .mk p (.onError block) ∈ steps) →
      Split found steps (.ok body)
  | nested {t s : Step} : t ∈ steps → t.action.Encloses s → s.isHandler = true →
      Split found steps (.error (misplaced s.position))
  | second {s : Step} {first : Position} : s ∈ steps → s.isHandler = true →
      1 < found.toList.length + steps.countP Step.isHandler →
      Split found steps (.error ((Fault.secondHandler first).error.withPosition s.position))

theorem split_of_step {t : Step} (h : t.isHandler = false) (found : Found) (rest : List Step) :
    split found (t :: rest) = checkAction t.action >>= fun _ => split found rest >>= fun body =>
      .ok { body with steps := t :: body.steps } := by
  obtain ⟨p, a⟩ := t
  cases a with
  | onError block => cases h
  | _ => rfl

/-- A step that is no handler stays where it is. -/
theorem Split.step {t : Step} (ht : t.isHandler = false) {found : Found} {rest : List Step}
    (hflat : ∀ s, t.action.Encloses s → s.isHandler = false) {x : Except RuntimeError Body}
    (h : Split found rest x) :
    Split found (t :: rest) (x >>= fun body => .ok { body with steps := t :: body.steps }) := by
  have hcount : (t :: rest).countP Step.isHandler = rest.countP Step.isHandler :=
    List.countP_cons_of_neg (by simp [ht])
  cases h with
  | @accepted body honce hrest hsteps hhandler =>
    refine .accepted (by rwa [hcount]) (List.forall_mem_cons.2 ⟨hflat, hrest⟩) ?_ fun block => ?_
    · simp [ht, hsteps]
    · have hne (p : Position) : Step.mk p (.onError block) ≠ t := by
        rintro rfl
        cases ht
      simp [hhandler block, hne]
  | nested hmem hs hhandler => exact .nested (List.mem_cons_of_mem _ hmem) hs hhandler
  | second hmem hhandler htwice =>
    exact .second (List.mem_cons_of_mem _ hmem) hhandler (by rwa [hcount])

/-- A first handler is the handler of the steps after it. -/
theorem Split.handler {p : Position} {inner rest : List Step}
    (hflat : ∀ s : Step, s.Inside inner → s.isHandler = false) {x : Except RuntimeError Body}
    (h : Split (some (p, inner)) rest x) : Split none (.mk p (.onError inner) :: rest) x := by
  have hcount : (Step.mk p (.onError inner) :: rest).countP Step.isHandler =
      1 + rest.countP Step.isHandler := by
    rw [List.countP_cons_of_pos rfl, Nat.add_comm]
  cases h with
  | @accepted body honce hrest hsteps hhandler =>
    refine .accepted (by simpa [hcount] using honce) (List.forall_mem_cons.2 ⟨?_, hrest⟩) hsteps
      fun block => ?_
    · rintro s ⟨block, hblock, hs⟩
      rw [List.mem_singleton.1 hblock] at hs
      exact hflat s hs
    · simp [hhandler block, exists_or, eq_comm]
  | nested hmem hs hhandler => exact .nested (List.mem_cons_of_mem _ hmem) hs hhandler
  | second hmem hhandler htwice =>
    exact .second (List.mem_cons_of_mem _ hmem) hhandler (by simpa [hcount] using htwice)

theorem split_spec (steps : List Step) : ∀ found, Split found steps (split found steps) := by
  induction steps with
  | nil =>
    intro found
    refine .accepted ?_ (fun t ht => absurd ht List.not_mem_nil) rfl fun block => ?_
    · cases found <;> simp
    · simp
  | cons t rest ih =>
    intro found
    cases ht : t.isHandler with
    | false =>
      rw [split_of_step ht]
      rcases checkAction_seeks t.action with ⟨hok, hflat⟩ | ⟨s, hs, hhandler, herror⟩
      · rw [hok]
        exact (ih found).step ht hflat
      · rw [herror]
        exact .nested List.mem_cons_self hs hhandler
    | true =>
      obtain ⟨inner, hinner⟩ := Step.isHandler_iff.1 ht
      rw [hinner]
      simp only [split]
      rcases checkBlock_seeks inner with ⟨hok, hflat⟩ | ⟨s, hs, hhandler, herror⟩
      · rw [hok]
        cases found with
        | none => exact (ih _).handler hflat
        | some first =>
          refine .second (s := .mk t.position (.onError inner)) List.mem_cons_self rfl ?_
          rw [List.countP_cons_of_pos rfl]
          simp
      · rw [herror]
        exact .nested List.mem_cons_self ⟨inner, List.mem_singleton_self inner, hs⟩ hhandler

/-- Hoisting accepts exactly the legal bodies. The steps of the body are then the steps that are no
handlers, in order, and its handler is the block of the one that is; there is none without one. A
body that is refused is refused at a handler: at one that stands inside of a step, by its keyword,
or at one of several, as a duplicate. -/
theorem hoists_exactly (steps : List Step) :
    ((∃ body, ofSteps steps = .ok body) ↔ Step.Legal steps) ∧
    (∀ body, ofSteps steps = .ok body →
      body.steps = steps.filter (!·.isHandler) ∧
      ∀ block, body.handler = some block ↔ ∃ p, .mk p (.onError block) ∈ steps) ∧
    ∀ e, ofSteps steps = .error e →
      ∃ s, s.Inside steps ∧ s.isHandler = true ∧ e.position = some s.position ∧
        ((e.code = .unknownKeyword ∧ ∃ t ∈ steps, t.action.Encloses s) ∨
          (e.code = .duplicate ∧ s ∈ steps ∧ 1 < steps.countP Step.isHandler)) := by
  have hspec : Split none steps (ofSteps steps) := split_spec steps none
  generalize ofSteps steps = x at hspec
  cases hspec with
  | @accepted body honce hflat hsteps hhandler =>
    have hlegal : Step.Legal steps := ⟨by simpa using honce, hflat⟩
    refine ⟨⟨fun _ => hlegal, fun _ => ⟨body, rfl⟩⟩, fun b hb => ?_, fun e he => ?_⟩
    · cases hb
      exact ⟨hsteps, fun block => by simpa using hhandler block⟩
    · cases he
  | @nested t s ht hs hhandler =>
    refine ⟨⟨?_, fun hlegal => ?_⟩, fun b hb => ?_, fun e he => ?_⟩
    · rintro ⟨b, hb⟩
      cases hb
    · exact absurd hhandler (Bool.eq_false_iff.1 (hlegal.flat t ht s hs))
    · cases hb
    · cases he
      obtain ⟨inner, hinner, hinside⟩ := hs
      exact ⟨s, .deeper ht hinner hinside, hhandler, rfl, .inl ⟨rfl, t, ht, inner, hinner, hinside⟩⟩
  | @second s first hs hhandler htwice =>
    have htwo : 1 < steps.countP Step.isHandler := by simpa using htwice
    refine ⟨⟨?_, fun hlegal => ?_⟩, fun b hb => ?_, fun e he => ?_⟩
    · rintro ⟨b, hb⟩
      cases hb
    · exact absurd hlegal.once (Nat.not_le.2 htwo)
    · cases hb
    · cases he
      exact ⟨s, .here hs, hhandler, rfl, .inr ⟨rfl, hs, htwo⟩⟩

end Body
end StepScript
