import StepScript.Script.Decode
import StepScript.Script.Encode

/-!
# StepScript.Proofs.Decoding

Scripts survive their JSON form, as values.

* `Decoder.Inverts` — what was encoded is decoded to what it was, given as many levels as it nests.
* `Decoder.expression_inverts`, `Decoder.step_inverts` — so are expressions and steps, by induction
  on the levels: each decoder opens at least one for a part.
* `Decoder.actionContent_inverts` — the table of actions, apart from the recursion through blocks.
-/

namespace StepScript
namespace Json

open Document

/-! ## Nesting -/

theorem depth_le_depthItems {j : Json} {items : List Json} (h : j ∈ items) :
    j.depth ≤ depthItems items := by
  induction items with
  | nil => cases h
  | cons first rest ih =>
    rw [depthItems]
    rcases List.mem_cons.1 h with rfl | h
    · exact Nat.le_max_left _ _
    · exact Nat.le_trans (ih h) (Nat.le_max_right _ _)

theorem ofItems_eq_map (items : List Json) : ofItems items = items.map ofJson := by
  induction items with
  | nil => rfl
  | cons j rest ih => rw [ofItems, ih, List.map_cons]

namespace Decoder

variable {α : Type}

def Inverts (d : Decoder α) (encode : α → Json) : Prop :=
  ∀ n a, (encode a).depth ≤ n → d n (ofJson (encode a)) = some a

theorem mapM_ofItems {f : Document → Option α} {encode : α → Json} {as : List α}
    (h : ∀ a ∈ as, f (ofJson (encode a)) = some a) :
    (ofItems (as.map encode)).mapM f = some as := by
  rw [ofItems_eq_map]
  induction as with
  | nil => rfl
  | cons a rest ih =>
    rw [List.map_cons, List.map_cons, List.mapM_cons, h a List.mem_cons_self,
      ih fun b hb => h b (List.mem_cons_of_mem a hb)]
    rfl

theorem Inverts.mapM {d : Decoder α} {encode : α → Json} {n : Nat} (as : List α)
    (h : ∀ a, (encode a).depth ≤ n → d n (ofJson (encode a)) = some a)
    (hdepth : depthItems (as.map encode) ≤ n) :
    (ofItems (as.map encode)).mapM (d n) = some as :=
  mapM_ofItems fun a ha =>
    h a (Nat.le_trans (depth_le_depthItems (List.mem_map_of_mem ha)) hdepth)

theorem Inverts.list {d : Decoder α} {encode : α → Json} (h : Inverts d encode) :
    Inverts (list d) fun as => .array (as.map encode) := by
  intro n as hdepth
  rw [depth] at hdepth
  obtain ⟨m, rfl⟩ : ∃ m, n = m + 1 := ⟨n - 1, by omega⟩
  exact mapM as (h m) (by omega)

theorem Inverts.optional {d : Decoder α} {encode : α → Json} (h : Inverts d encode)
    (hnull : ∀ a, ofJson (encode a) ≠ .null) : Inverts (optional d) (ofOption encode) := by
  intro n a hdepth
  cases a with
  | none => rfl
  | some a =>
    have hsome := h n a hdepth
    rw [ofOption]
    unfold Decoder.optional
    split
    · next hdoc => exact absurd hdoc (hnull a)
    · rw [hsome]
      rfl

theorem position_inverts : Inverts position Position.toJson := by
  intro n p hdepth
  simp only [Position.toJson, depth, depthMembers] at hdepth
  obtain ⟨m, rfl⟩ : ∃ m, n = m + 1 := ⟨n - 1, by omega⟩
  rfl

theorem literal_inverts : Inverts literal Literal.toJson := by
  intro n l hdepth
  cases l with
  | nil => rfl
  | number x | string s | bool b =>
    simp only [Literal.toJson, tagged, depth, depthMembers] at hdepth
    obtain ⟨m, rfl⟩ : ∃ m, n = m + 1 := ⟨n - 1, by omega⟩
    rfl

theorem binaryOperator_keyword (n : Nat) (op : BinaryOperator) :
    binaryOperator n (.string (some op.keyword)) = some op := by
  cases op <;> rfl

theorem unaryOperator_keyword (n : Nat) (op : UnaryOperator) :
    unaryOperator n (.string (some op.keyword)) = some op := by
  cases op <;> rfl

theorem itemsToJson_eq_map (items : List Expression) :
    Expression.itemsToJson items = items.map Expression.toJson := by
  induction items with
  | nil => rfl
  | cons e rest ih => rw [Expression.itemsToJson, ih, List.map_cons]

def entryToJson (p : String × Expression) : Json := .array [.string p.1, p.2.toJson]

theorem entriesToJson_eq_map (entries : List (String × Expression)) :
    Expression.entriesToJson entries = entries.map entryToJson := by
  induction entries with
  | nil => rfl
  | cons p rest ih => rw [Expression.entriesToJson, ih, List.map_cons]; rfl

theorem expression_succ (n : Nat) :
    expression (n + 1) = expressionWith n (expression (n - 1)) (expression (n - 2)) := by
  rcases n with _ | _ | n <;> rfl

theorem pair?_inverts {n : Nat} {p : String × Expression}
    (h : expression n (ofJson p.2.toJson) = some p.2) :
    pair? (expression n) (n + 1) (ofJson (entryToJson p)) = some p := by
  show (expression n (ofJson p.2.toJson) >>= fun e => some (p.1, e)) = some p
  rw [h]
  rfl

/-- The induction is on the levels; a part of an expression is at least one level below it. -/
theorem expression_inverts : Inverts expression Expression.toJson := by
  intro n
  induction n using Nat.strongRecOn with
  | _ n ih =>
    intro e hdepth
    obtain ⟨m, rfl⟩ : ∃ m, n = m + 1 := by
      refine ⟨n - 1, ?_⟩
      cases e <;> simp only [Expression.toJson, tagged, depth] at hdepth <;> omega
    rw [expression_succ]
    cases e with
    | literal l =>
      simp only [Expression.toJson, tagged, depth, depthMembers] at hdepth
      have hl := literal_inverts m l (by omega)
      exact congrArg (Option.map Expression.literal) hl
    | «variable» name => rfl
    | list items =>
      simp only [Expression.toJson, tagged, depth, depthMembers, itemsToJson_eq_map] at hdepth
      obtain ⟨m, rfl⟩ : ∃ k, m = k + 1 := ⟨m - 1, by omega⟩
      have hitems := Inverts.mapM items (ih m (by omega)) (by omega)
      show ((ofItems (Expression.itemsToJson items)).mapM (expression m) >>= fun es =>
        some (Expression.list es)) = _
      rw [itemsToJson_eq_map, hitems]
      rfl
    | map entries =>
      simp only [Expression.toJson, tagged, depth, depthMembers, entriesToJson_eq_map] at hdepth
      obtain ⟨m, rfl⟩ : ∃ k, m = k + 1 := ⟨m - 1, by omega⟩
      have hentries : (ofItems (entries.map entryToJson)).mapM (pair? (expression (m - 1)) m) =
          some entries := by
        refine mapM_ofItems fun p hp => ?_
        have hdeep := depth_le_depthItems (List.mem_map_of_mem (f := entryToJson) hp)
        simp only [entryToJson, depth, depthItems] at hdeep
        obtain ⟨m, rfl⟩ : ∃ k, m = k + 1 := ⟨m - 1, by omega⟩
        exact pair?_inverts (ih m (by omega) p.2 (by omega))
      show ((ofItems (Expression.entriesToJson entries)).mapM (pair? (expression (m - 1)) m) >>=
        fun ps => some (Expression.map ps)) = _
      rw [entriesToJson_eq_map, hentries]
      rfl
    | binary op left right =>
      simp only [Expression.toJson, tagged, depth, depthMembers] at hdepth
      obtain ⟨m, rfl⟩ : ∃ k, m = k + 1 := ⟨m - 1, by omega⟩
      have hleft := ih m (by omega) left (by omega)
      have hright := ih m (by omega) right (by omega)
      show (binaryOperator m (.string (some op.keyword)) >>= fun op =>
        expression m (ofJson left.toJson) >>= fun l => expression m (ofJson right.toJson) >>=
          fun r => some (Expression.binary op l r)) = _
      rw [binaryOperator_keyword, hleft, hright]
      rfl
    | unary op operand =>
      simp only [Expression.toJson, tagged, depth, depthMembers] at hdepth
      obtain ⟨m, rfl⟩ : ∃ k, m = k + 1 := ⟨m - 1, by omega⟩
      have hoperand := ih m (by omega) operand (by omega)
      show (unaryOperator m (.string (some op.keyword)) >>= fun op =>
        expression m (ofJson operand.toJson) >>= fun e =>
          some (Expression.unary op e)) = _
      rw [unaryOperator_keyword, hoperand]
      rfl
    | index target key =>
      simp only [Expression.toJson, tagged, depth, depthMembers] at hdepth
      obtain ⟨m, rfl⟩ : ∃ k, m = k + 1 := ⟨m - 1, by omega⟩
      have htarget := ih m (by omega) target (by omega)
      have hkey := ih m (by omega) key (by omega)
      show (expression m (ofJson target.toJson) >>= fun t => expression m (ofJson key.toJson) >>=
        fun k => some (Expression.index t k)) = _
      rw [htarget, hkey]
      rfl
    | call name args =>
      simp only [Expression.toJson, tagged, depth, depthMembers, itemsToJson_eq_map] at hdepth
      obtain ⟨m, rfl⟩ : ∃ k, m = k + 2 := ⟨m - 2, by omega⟩
      have hargs := Inverts.mapM args (ih m (by omega)) (by omega)
      show ((ofItems (Expression.itemsToJson args)).mapM (expression m) >>= fun es =>
        some (Expression.call name es)) = _
      rw [itemsToJson_eq_map, hargs]
      rfl

theorem target_inverts : Inverts target Target.toJson := by
  intro n t hdepth
  cases t with
  | «variable» name =>
    simp only [Target.toJson, tagged, depth, depthMembers] at hdepth
    obtain ⟨m, rfl⟩ : ∃ m, n = m + 1 := ⟨n - 1, by omega⟩
    rfl
  | element name key =>
    simp only [Target.toJson, tagged, depth, depthMembers] at hdepth
    obtain ⟨m, rfl⟩ : ∃ m, n = m + 2 := ⟨n - 2, by omega⟩
    have hkey := expression_inverts m key (by omega)
    show (expression m (ofJson key.toJson) >>= fun k => some (Target.element name k)) = _
    rw [hkey]
    rfl

/-! ## Steps -/

theorem expression_ne_null (e : Expression) : ofJson e.toJson ≠ .null := by
  cases e <;> exact Document.noConfusion

theorem target_ne_null (t : Target) : ofJson t.toJson ≠ .null := by
  cases t <;> exact Document.noConfusion

theorem blockToJson_eq_map (steps : List Step) : blockToJson steps = steps.map Step.toJson := by
  induction steps with
  | nil => rfl
  | cons s rest ih => rw [blockToJson, ih, List.map_cons]

/-- The actions with content. A block is the content itself, or stands in a record. -/
theorem actionContent_inverts {n : Nat} {inTag inRecord : Document → Option (List Step)}
    (htag : ∀ steps, (Json.array (blockToJson steps)).depth ≤ n →
      inTag (ofJson (.array (blockToJson steps))) = some steps)
    (hrecord : ∀ steps, (Json.array (blockToJson steps)).depth + 1 ≤ n →
      inRecord (ofJson (.array (blockToJson steps))) = some steps)
    {a : Action} {tag : String} {content : Json} (ha : a.toJson = tagged tag content)
    (hdepth : content.depth ≤ n) : actionContent n inTag inRecord tag (ofJson content) = some a := by
  cases a with
  | call e | emit e | must e | expression e =>
    cases ha
    have he := expression_inverts n e hdepth
    exact congrArg (Option.map _) he
  | set targets value =>
    cases ha
    simp only [depth, depthMembers] at hdepth
    obtain ⟨m, rfl⟩ : ∃ m, n = m + 1 := ⟨n - 1, by omega⟩
    have htargets := target_inverts.list m targets (by simp only [depth]; omega)
    have hvalue := expression_inverts m value (by omega)
    show (list target m (ofJson (.array (targets.map Target.toJson))) >>= fun ts =>
      expression m (ofJson value.toJson) >>= fun v => some (Action.set ts v)) = _
    rw [htargets, hvalue]
    rfl
  | ret values =>
    cases ha
    have hvalues := expression_inverts.list n values hdepth
    exact congrArg (Option.map Action.ret) hvalues
  | whisper handle data =>
    cases ha
    simp only [depth, depthMembers] at hdepth
    obtain ⟨m, rfl⟩ : ∃ m, n = m + 1 := ⟨n - 1, by omega⟩
    have hhandle := expression_inverts m handle (by omega)
    have hdata := expression_inverts m data (by omega)
    show (expression m (ofJson handle.toJson) >>= fun h => expression m (ofJson data.toJson) >>=
      fun d => some (Action.whisper h d)) = _
    rw [hhandle, hdata]
    rfl
  | branch condition thenBlock elseBlock =>
    cases elseBlock with
    | none =>
      cases ha
      simp only [depth, depthMembers] at hdepth
      obtain ⟨m, rfl⟩ : ∃ m, n = m + 1 := ⟨n - 1, by omega⟩
      have hcondition := expression_inverts m condition (by omega)
      have hthen := hrecord thenBlock (by simp only [depth]; omega)
      show (expression m (ofJson condition.toJson) >>= fun c =>
        inRecord (ofJson (.array (blockToJson thenBlock))) >>= fun b =>
          some (Action.branch c b none)) = _
      rw [hcondition, hthen]
      rfl
    | some elseBlock =>
      cases ha
      simp only [depth, depthMembers] at hdepth
      obtain ⟨m, rfl⟩ : ∃ m, n = m + 1 := ⟨n - 1, by omega⟩
      have hcondition := expression_inverts m condition (by omega)
      have hthen := hrecord thenBlock (by simp only [depth]; omega)
      have helse := hrecord elseBlock (by simp only [depth]; omega)
      show ((inRecord (ofJson (.array (blockToJson elseBlock)))).map some >>= fun e =>
        expression m (ofJson condition.toJson) >>= fun c =>
          inRecord (ofJson (.array (blockToJson thenBlock))) >>= fun b =>
            some (Action.branch c b e)) = _
      rw [helse, hcondition, hthen]
      rfl
  | loop condition body =>
    cases ha
    simp only [depth, depthMembers] at hdepth
    obtain ⟨m, rfl⟩ : ∃ m, n = m + 1 := ⟨n - 1, by omega⟩
    have hcondition := expression_inverts m condition (by omega)
    have hbody := hrecord body (by simp only [depth]; omega)
    show (expression m (ofJson condition.toJson) >>= fun c =>
      inRecord (ofJson (.array (blockToJson body))) >>= fun b => some (Action.loop c b)) = _
    rw [hcondition, hbody]
    rfl
  | forEach item collection body =>
    cases ha
    simp only [depth, depthMembers] at hdepth
    obtain ⟨m, rfl⟩ : ∃ m, n = m + 1 := ⟨n - 1, by omega⟩
    have hcollection := expression_inverts m collection (by omega)
    have hbody := hrecord body (by simp only [depth]; omega)
    show (expression m (ofJson collection.toJson) >>= fun c =>
      inRecord (ofJson (.array (blockToJson body))) >>= fun b => some (Action.forEach item c b)) = _
    rw [hcollection, hbody]
    rfl
  | mustBe check args =>
    cases ha
    simp only [depth, depthMembers] at hdepth
    obtain ⟨m, rfl⟩ : ∃ m, n = m + 1 := ⟨n - 1, by omega⟩
    have hargs := expression_inverts.list m args (by simp only [depth]; omega)
    show (list expression m (ofJson (.array (args.map Expression.toJson))) >>= fun es =>
      some (Action.mustBe check es)) = _
    rw [hargs]
    rfl
  | fail message =>
    cases ha
    have hmessage := expression_inverts.optional expression_ne_null n message hdepth
    exact congrArg (Option.map Action.fail) hmessage
  | onError body =>
    cases ha
    have hbody := htag body hdepth
    exact congrArg (Option.map Action.onError) hbody
  | clearError => cases ha
  | ask agentModel prompt into =>
    cases ha
    simp only [depth, depthMembers] at hdepth
    obtain ⟨m, rfl⟩ : ∃ m, n = m + 1 := ⟨n - 1, by omega⟩
    have hmodel := expression_inverts m agentModel (by omega)
    have hprompt := expression_inverts m prompt (by omega)
    have hinto := target_inverts.optional target_ne_null m into (by omega)
    show (expression m (ofJson agentModel.toJson) >>= fun a => expression m (ofJson prompt.toJson) >>=
      fun p => optional target m (ofJson (ofOption Target.toJson into)) >>= fun t =>
        some (Action.ask a p t)) = _
    rw [hmodel, hprompt, hinto]
    rfl
  | promptUser prompt into =>
    cases ha
    simp only [depth, depthMembers] at hdepth
    obtain ⟨m, rfl⟩ : ∃ m, n = m + 1 := ⟨n - 1, by omega⟩
    have hprompt := expression_inverts m prompt (by omega)
    have hinto := target_inverts m into (by omega)
    show (expression m (ofJson prompt.toJson) >>= fun p => target m (ofJson into.toJson) >>=
      fun t => some (Action.promptUser p t)) = _
    rw [hprompt, hinto]
    rfl
  | breakLoop => cases ha
  | continueLoop => cases ha

/-- An action is a tag alone or a tag with content, and no tag is both. -/
theorem toJson_cases (a : Action) :
    (∃ tag, a.toJson = .string tag ∧ bareActions.lookup tag = some a) ∨
    ∃ tag content, a.toJson = tagged tag content ∧ bareActions.lookup tag = none := by
  cases a with
  | clearError | breakLoop | continueLoop => exact .inl ⟨_, rfl, rfl⟩
  | branch condition thenBlock elseBlock => cases elseBlock <;> exact .inr ⟨_, _, rfl, rfl⟩
  | set _ _ | call _ | ret _ | emit _ | whisper _ _ | loop _ _ | forEach _ _ _ | must _ | mustBe _ _
  | fail _ | onError _ | ask _ _ _ | promptUser _ _ | expression _ => exact .inr ⟨_, _, rfl, rfl⟩

theorem action_tagged {n : Nat} {inTag inRecord : Document → Option (List Step)} {tag : String}
    (htag : bareActions.lookup tag = none) (c : Document) :
    action (n + 1) inTag inRecord (.object [(some tag, c)]) =
      actionContent n inTag inRecord tag c := by
  cases c with
  | null =>
    show (bareActions.lookup tag <|> actionContent n inTag inRecord tag .null) = _
    rw [htag]
    rfl
  | bool _ | number _ | string _ | array _ | object _ => rfl

theorem step_succ (n : Nat) : ∃ inTag inRecord, step (n + 1) = stepWith n inTag inRecord ∧
    (∀ m, n = m + 2 → inTag = block m (step m)) ∧ ∀ m, n = m + 3 → inRecord = block m (step m) := by
  rcases n with _ | _ | _ | n
  · exact ⟨_, _, rfl, fun m h => by omega, fun m h => by omega⟩
  · exact ⟨_, _, rfl, fun m h => by omega, fun m h => by omega⟩
  · refine ⟨_, _, rfl, fun m h => ?_, fun m h => by omega⟩
    obtain rfl : m = 0 := by omega
    rfl
  · refine ⟨_, _, rfl, fun m h => ?_, fun m h => ?_⟩
    · obtain rfl : m = n + 1 := by omega
      rfl
    · obtain rfl : m = n := by omega
      rfl

theorem block_inverts {n : Nat}
    (h : ∀ s : Step, s.toJson.depth ≤ n → step n (ofJson s.toJson) = some s)
    (steps : List Step) (hdepth : (Json.array (blockToJson steps)).depth ≤ n + 1) :
    block n (step n) (ofJson (.array (blockToJson steps))) = some steps := by
  rw [blockToJson_eq_map] at hdepth ⊢
  rw [depth] at hdepth
  exact Inverts.mapM steps h (by omega)

/-- The induction is on the levels, as for expressions. -/
theorem step_inverts : Inverts step Step.toJson := by
  intro n
  induction n using Nat.strongRecOn with
  | _ n ih =>
    intro s hdepth
    obtain ⟨p, a⟩ := s
    simp only [Step.toJson, Position.toJson, depth, depthMembers] at hdepth
    obtain ⟨m, rfl⟩ : ∃ m, n = m + 2 := ⟨n - 2, by omega⟩
    obtain ⟨inTag, inRecord, hstep, htag, hrecord⟩ := step_succ (m + 1)
    have hposition := position_inverts (m + 1) p (by
      simp only [Position.toJson, depth, depthMembers]; omega)
    have haction : action (m + 1) inTag inRecord (ofJson a.toJson) = some a := by
      rcases toJson_cases a with ⟨tag, ha, hlookup⟩ | ⟨tag, content, ha, hlookup⟩
      · rw [ha]
        exact hlookup
      · rw [ha] at hdepth ⊢
        simp only [tagged, depth, depthMembers] at hdepth
        -- a block needs a level of its own, so there is one left for its steps
        refine (action_tagged hlookup _).trans (actionContent_inverts ?_ ?_ ha (by omega))
        · intro steps hsteps
          have hone : 1 ≤ (Json.array (blockToJson steps)).depth := by simp only [depth]; omega
          obtain ⟨k, rfl⟩ : ∃ k, m = k + 1 := ⟨m - 1, by omega⟩
          rw [htag k rfl]
          exact block_inverts (ih k (by omega)) steps hsteps
        · intro steps hsteps
          have hone : 1 ≤ (Json.array (blockToJson steps)).depth := by simp only [depth]; omega
          obtain ⟨k, rfl⟩ : ∃ k, m = k + 2 := ⟨m - 2, by omega⟩
          rw [hrecord k rfl]
          exact block_inverts (ih k (by omega)) steps (by omega)
    rw [hstep]
    show (action (m + 1) inTag inRecord (ofJson a.toJson) >>= fun a =>
      position (m + 1) (ofJson p.toJson) >>= fun p => some (Step.mk p a)) = _
    rw [haction, hposition]
    rfl

theorem steps_inverts : Inverts steps fun ss => .array (blockToJson ss) := by
  intro n ss hdepth
  dsimp only at hdepth ⊢
  rw [blockToJson_eq_map] at hdepth ⊢
  exact step_inverts.list n ss hdepth

end Decoder
end Json

end StepScript
