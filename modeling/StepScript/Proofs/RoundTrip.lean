import StepScript.Proofs.Decoding
import StepScript.Proofs.Reading
import StepScript.Script.Source

/-!
# StepScript.Proofs.RoundTrip

Scripts survive their JSON form, as texts.

* `Step.numbersIn`, `Step.positionsIn` — the number literals of a script and the places of its steps.
* `Step.numbers_blockToJson` — there are no other numbers in its JSON form.
* `Grammar.json_compact` — the compact text of a list of steps is read as this list.
-/

namespace StepScript

/-! ## The numbers of a script -/

def Literal.numbers : Literal → List Float
  | .number x => [x]
  | .nil | .string _ | .bool _ => []

namespace Expression

mutual

def numbers : Expression → List Float
  | .literal l => l.numbers
  | .variable _ => []
  | .list items => numbersOfItems items
  | .map entries => numbersOfEntries entries
  | .binary _ left right => numbers left ++ numbers right
  | .unary _ operand => numbers operand
  | .index target key => numbers target ++ numbers key
  | .call _ args => numbersOfItems args

def numbersOfItems : List Expression → List Float
  | [] => []
  | e :: rest => numbers e ++ numbersOfItems rest

def numbersOfEntries : List (String × Expression) → List Float
  | [] => []
  | (_, e) :: rest => numbers e ++ numbersOfEntries rest

end

end Expression

def Target.numbers : Target → List Float
  | .variable _ => []
  | .element _ key => key.numbers

mutual

def Action.numbers : Action → List Float
  | .set targets value => targets.flatMap Target.numbers ++ value.numbers
  | .call e | .emit e | .must e | .expression e | .fail (some e) => e.numbers
  | .ret values => Expression.numbersOfItems values
  | .whisper handle data => handle.numbers ++ data.numbers
  | .branch condition thenBlock none => condition.numbers ++ Step.numbersIn thenBlock
  | .branch condition thenBlock (some elseBlock) =>
    condition.numbers ++ Step.numbersIn thenBlock ++ Step.numbersIn elseBlock
  | .loop condition body => condition.numbers ++ Step.numbersIn body
  | .forEach _ collection body => collection.numbers ++ Step.numbersIn body
  | .mustBe _ args => Expression.numbersOfItems args
  | .onError body => Step.numbersIn body
  | .ask agentModel prompt none => agentModel.numbers ++ prompt.numbers
  | .ask agentModel prompt (some into) => agentModel.numbers ++ prompt.numbers ++ into.numbers
  | .promptUser prompt into => prompt.numbers ++ into.numbers
  | .fail none | .clearError | .breakLoop | .continueLoop => []

def Step.numbersIn : List Step → List Float
  | [] => []
  | .mk _ action :: rest => action.numbers ++ Step.numbersIn rest

end

mutual

def Action.positions : Action → List Position
  | .branch _ thenBlock none => Step.positionsIn thenBlock
  | .branch _ thenBlock (some elseBlock) =>
    Step.positionsIn thenBlock ++ Step.positionsIn elseBlock
  | .loop _ body | .forEach _ _ body | .onError body => Step.positionsIn body
  | _ => []

def Step.positionsIn : List Step → List Position
  | [] => []
  | .mk position action :: rest => position :: (action.positions ++ Step.positionsIn rest)

end

@[simp]
theorem Json.numbers_tagged (tag : String) (content : Json) :
    (Json.tagged tag content).numbers = content.numbers := by
  simp [Json.tagged, Json.numbers, Json.numbersOfMembers]

@[simp]
theorem Json.numbers_string (s : String) : (Json.string s).numbers = [] := by
  simp [Json.numbers]

@[simp]
theorem Json.numbers_array (items : List Json) :
    (Json.array items).numbers = Json.numbersOfItems items := by
  simp [Json.numbers]

theorem Literal.numbers_toJson (l : Literal) : l.toJson.numbers = l.numbers.map .float := by
  cases l <;> rfl

mutual

theorem Expression.numbers_toJson : ∀ e : Expression, e.toJson.numbers = e.numbers.map .float
  | .literal l => by simp [toJson, numbers, l.numbers_toJson]
  | .variable _ => rfl
  | .list items => by simp [toJson, numbers, numbers_itemsToJson items]
  | .map entries => by simp [toJson, numbers, numbers_entriesToJson entries]
  | .binary _ left right => by
    simp [toJson, Json.numbers, Json.numbersOfMembers, numbers, numbers_toJson left,
      numbers_toJson right]
  | .unary _ operand => by
    simp [toJson, Json.numbers, Json.numbersOfMembers, numbers, numbers_toJson operand]
  | .index target key => by
    simp [toJson, Json.numbers, Json.numbersOfMembers, numbers, numbers_toJson target,
      numbers_toJson key]
  | .call _ args => by
    simp [toJson, Json.numbers, Json.numbersOfMembers, numbers, numbers_itemsToJson args]

theorem Expression.numbers_itemsToJson : ∀ items : List Expression,
    Json.numbersOfItems (itemsToJson items) = (numbersOfItems items).map .float
  | [] => rfl
  | e :: rest => by
    simp [itemsToJson, Json.numbersOfItems, numbersOfItems, numbers_toJson e,
      numbers_itemsToJson rest]

theorem Expression.numbers_entriesToJson : ∀ entries : List (String × Expression),
    Json.numbersOfItems (entriesToJson entries) = (numbersOfEntries entries).map .float
  | [] => rfl
  | (_, e) :: rest => by
    simp [entriesToJson, Json.numbersOfItems, numbersOfEntries, numbers_toJson e,
      numbers_entriesToJson rest]

end

theorem Target.numbers_toJson (t : Target) : t.toJson.numbers = t.numbers.map .float := by
  cases t with
  | «variable» name => rfl
  | element name key =>
    simp [toJson, Json.numbers, Json.numbersOfMembers, numbers, key.numbers_toJson]

theorem Target.numbers_targetsToJson (targets : List Target) :
    Json.numbersOfItems (targets.map toJson) = (targets.flatMap numbers).map .float := by
  induction targets with
  | nil => rfl
  | cons t rest ih => simp [Json.numbersOfItems, t.numbers_toJson, ih]

theorem Expression.numbers_map_toJson (items : List Expression) :
    Json.numbersOfItems (items.map toJson) = (numbersOfItems items).map .float := by
  rw [← Json.Decoder.itemsToJson_eq_map, numbers_itemsToJson]

section Steps

variable {Q : Json.Number → Prop}

mutual

/-- The numbers of a script's JSON form are its literals and the places of its steps. -/
theorem Action.numbers_toJson : ∀ a : Action, (∀ x ∈ a.numbers, Q (.float x)) →
    (∀ p ∈ a.positions, Q (.int p.line) ∧ Q (.int p.column)) → ∀ n ∈ a.toJson.numbers, Q n
  | .set targets value, hx, _ => by
    simp only [Action.numbers, List.forall_mem_append] at hx
    have htargets : ∀ n ∈ Json.numbersOfItems (targets.map Target.toJson), Q n := by
      rw [Target.numbers_targetsToJson, List.forall_mem_map]
      exact hx.1
    simpa [Action.toJson, Json.numbers, Json.numbersOfMembers, value.numbers_toJson, or_imp,
      forall_and] using ⟨htargets, hx.2⟩
  | .call e, hx, _ | .emit e, hx, _ | .must e, hx, _ | .expression e, hx, _
  | .fail (some e), hx, _ => by
    simpa [Action.toJson, Json.ofOption, Action.numbers, e.numbers_toJson] using hx
  | .ret values, hx, _ => by
    simpa [Action.toJson, Action.numbers, Expression.numbers_map_toJson] using hx
  | .whisper handle data, hx, _ => by
    simpa [Action.toJson, Json.numbers, Json.numbersOfMembers, Action.numbers,
      handle.numbers_toJson, data.numbers_toJson, or_imp, forall_and] using hx
  | .branch condition thenBlock none, hx, hp => by
    simp only [Action.numbers, List.forall_mem_append] at hx
    simp only [Action.positions] at hp
    have hthen := Step.numbers_blockToJson thenBlock hx.2 hp
    simpa [Action.toJson, Json.numbers, Json.numbersOfMembers, condition.numbers_toJson, or_imp,
      forall_and] using ⟨hx.1, hthen⟩
  | .branch condition thenBlock (some elseBlock), hx, hp => by
    simp only [Action.numbers, List.forall_mem_append] at hx
    simp only [Action.positions, List.forall_mem_append] at hp
    have hthen := Step.numbers_blockToJson thenBlock hx.1.2 hp.1
    have helse := Step.numbers_blockToJson elseBlock hx.2 hp.2
    simpa [Action.toJson, Json.numbers, Json.numbersOfMembers, condition.numbers_toJson, or_imp,
      forall_and] using ⟨hx.1.1, hthen, helse⟩
  | .loop condition body, hx, hp => by
    simp only [Action.numbers, List.forall_mem_append] at hx
    simp only [Action.positions] at hp
    have hbody := Step.numbers_blockToJson body hx.2 hp
    simpa [Action.toJson, Json.numbers, Json.numbersOfMembers, condition.numbers_toJson, or_imp,
      forall_and] using ⟨hx.1, hbody⟩
  | .forEach _ collection body, hx, hp => by
    simp only [Action.numbers, List.forall_mem_append] at hx
    simp only [Action.positions] at hp
    have hbody := Step.numbers_blockToJson body hx.2 hp
    simpa [Action.toJson, Json.numbers, Json.numbersOfMembers, collection.numbers_toJson, or_imp,
      forall_and] using ⟨hx.1, hbody⟩
  | .mustBe _ args, hx, _ => by
    simpa [Action.toJson, Json.numbers, Json.numbersOfMembers, Action.numbers,
      Expression.numbers_map_toJson] using hx
  | .onError body, hx, hp => by
    simp only [Action.numbers] at hx
    simp only [Action.positions] at hp
    simpa [Action.toJson] using Step.numbers_blockToJson body hx hp
  | .ask agentModel prompt none, hx, _ => by
    simpa [Action.toJson, Json.ofOption, Json.numbers, Json.numbersOfMembers, Action.numbers,
      agentModel.numbers_toJson, prompt.numbers_toJson, or_imp, forall_and] using hx
  | .ask agentModel prompt (some into), hx, _ => by
    simpa [Action.toJson, Json.ofOption, Json.numbers, Json.numbersOfMembers, Action.numbers,
      agentModel.numbers_toJson, prompt.numbers_toJson, into.numbers_toJson, or_imp, forall_and]
      using hx
  | .promptUser prompt into, hx, _ => by
    simpa [Action.toJson, Json.numbers, Json.numbersOfMembers, Action.numbers,
      prompt.numbers_toJson, into.numbers_toJson, or_imp, forall_and] using hx
  | .fail none, _, _ | .clearError, _, _ | .breakLoop, _, _ | .continueLoop, _, _ => by
    simp [Action.toJson, Json.ofOption, Json.numbers]

theorem Step.numbers_blockToJson : ∀ steps : List Step, (∀ x ∈ Step.numbersIn steps, Q (.float x)) →
    (∀ p ∈ Step.positionsIn steps, Q (.int p.line) ∧ Q (.int p.column)) →
      ∀ n ∈ Json.numbersOfItems (blockToJson steps), Q n
  | [], _, _ => by simp [blockToJson, Json.numbersOfItems]
  | .mk p a :: rest, hx, hp => by
    simp only [Step.numbersIn, List.forall_mem_append] at hx
    simp only [Step.positionsIn, List.forall_mem_cons, List.forall_mem_append] at hp
    have ha := Action.numbers_toJson a hx.1 hp.2.1
    have hrest := Step.numbers_blockToJson rest hx.2 hp.2.2
    simpa [blockToJson, Step.toJson, Position.toJson, Json.nat, Json.numbers, Json.numbersOfItems,
      Json.numbersOfMembers, or_imp, forall_and] using
      ⟨hp.1.1, hp.1.2, ha, hrest⟩

end

end Steps

/-! ## Texts -/

theorem Text.trim_brackets (text : List Char) :
    Text.trim ('[' :: (text ++ [']'])) = '[' :: (text ++ [']']) := by
  have hopen : Text.isBlank '[' = false := by decide
  have hclose : Text.isBlank ']' = false := by decide
  simp [Text.trim, Text.trimStart, Text.trimEnd, hopen, hclose]

/-- The text of an array begins and ends with brackets. -/
theorem Json.compact_array (items : List Json) :
    ∃ text, (Json.array items).compact.toList = '[' :: (text ++ [']']) := by
  cases items with
  | nil => exact ⟨[], rfl⟩
  | cons j rest =>
    refine ⟨j.compact.toList ++ (Json.compactItems rest).toList, ?_⟩
    simp [Json.compact]

def Binary.isFinite : Binary → Bool
  | .finite .. => true
  | .nan | .infinite _ => false

theorem mixedText?_of_finite {x : Float} (h : (Binary.ofFloat x).isFinite = true) :
    ∃ text, mixedText? x = some text := by
  unfold mixedText?
  cases hx : Binary.ofFloat x with
  | nan => rw [hx] at h; cases h
  | infinite negative => rw [hx] at h; cases h
  | finite negative m q narrow => exact ⟨_, rfl⟩

/-- Scripts survive their JSON form. A list of steps whose number literals are finite and read back,
whose places fit 64 bits and whose JSON form nests no deeper than texts may is what its compact text
is read as. -/
theorem Grammar.json_compact (steps : List Step)
    (hfinite : ∀ x ∈ Step.numbersIn steps, (Binary.ofFloat x).isFinite = true)
    (hread : ∀ x ∈ Step.numbersIn steps, ∀ text, mixedText? x = some text →
      Json.Document.read? text.toList = some (.number (some (.float x))))
    (hpositions : ∀ p ∈ Step.positionsIn steps, p.line < powTwo 64 ∧ p.column < powTwo 64)
    (hdepth : (Json.array (blockToJson steps)).depth ≤ Json.nestingLimit) :
    Grammar.json (Json.array (blockToJson steps)).compact = .ok steps := by
  have hlegible : ∀ n ∈ (Json.array (blockToJson steps)).numbers, n.Legible := by
    rw [Json.numbers_array]
    refine Step.numbers_blockToJson steps (fun x hx => ?_) fun p hp => ?_
    · obtain ⟨text, htext⟩ := mixedText?_of_finite (hfinite x hx)
      exact ⟨text, htext, hread x hx text htext⟩
    · obtain ⟨hline, hcolumn⟩ := hpositions p hp
      simp only [Json.Number.Legible]
      omega
  have htree := (Json.reads_compact _ hlegible).read?
  have hsteps := Json.Decoder.steps_inverts Json.nestingLimit steps hdepth
  obtain ⟨text, htext⟩ := Json.compact_array (blockToJson steps)
  rw [htext] at htree
  unfold Grammar.json
  rw [htext, Text.trim_brackets]
  simp only [if_true, htree, Option.bind_some, hsteps]

/-- A loop with numbers, a string to be escaped and a place. -/
theorem Grammar.json_compact_of_loop :
    let body := [Step.set "x" (.list [.number 1.5, .string "a \"b\"\n"]), Step.clearError]
    let steps := [Step.mk ⟨3, 14⟩ (.loop (.binary .less (.variable "x") (.number (-2))) body)]
    Grammar.json (Json.array (blockToJson steps)).compact = .ok steps := by
  intro body steps
  have hnumbers : Step.numbersIn steps = [-2, 1.5] := rfl
  refine Grammar.json_compact steps ?_ ?_ ?_ ?_
  · rw [hnumbers]
    decide +kernel
  · rw [hnumbers]
    intro x hx text htext
    simp only [List.mem_cons, List.not_mem_nil, or_false] at hx
    rcases hx with rfl | rfl
    · have hprinted : mixedText? (-2) = some "-2.0" := by decide +kernel
      have hvalue : Json.Numeral.value?
          { negative := true, digits := 20, places := 1, whole := false } = some (.float (-2)) := by
        decide +kernel
      rw [hprinted] at htext
      cases htext
      exact congrArg (fun n => some (Json.Document.number n)) hvalue
    · have hprinted : mixedText? 1.5 = some "1.5" := by decide +kernel
      have hvalue : Json.Numeral.value? { digits := 15, places := 1, whole := false } =
          some (.float 1.5) := by
        decide +kernel
      rw [hprinted] at htext
      cases htext
      exact congrArg (fun n => some (Json.Document.number n)) hvalue
  · decide
  · decide

end StepScript
