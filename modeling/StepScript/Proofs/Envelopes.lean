import StepScript.Agent.Envelope
import StepScript.Proofs.RoundTrip

/-!
# StepScript.Proofs.Envelopes

Envelopes survive their written form.

* `Json.Sorted`     — the members of an object stand in the order of their keys, at every depth. Such
  are the values that are read.
* `Json.value?_ofJson` — such a value is what its tree stands for.
* `Json.Decoder.envelope_ofJson` — so the tree of an envelope stands for the envelope.
* `Envelope.parse_request` — so it is with the requests to agents.
* `Envelope.parse_toPrompt` — the indented text of an envelope is read as this envelope, and an
  agent finds in a request what the engine has put into it.
-/

namespace StepScript

/-! ## Entries in order -/

namespace Entries

variable {α : Type}

theorem insert_last {es : Entries α} {name : String} (a : α) (h : ∀ n ∈ es.names, n < name) :
    es.insert name a = es ++ [(name, a)] := by
  induction es with
  | nil => rfl
  | cons p rest ih =>
    obtain ⟨k, b⟩ := p
    have hk : k < name := h k List.mem_cons_self
    have hne : name ≠ k := fun heq => String.lt_irrefl k (heq ▸ hk)
    have hnot : ¬ name < k := fun hlt => String.lt_irrefl k (String.lt_trans hk hlt)
    rw [insert, if_neg hne, if_neg hnot, ih fun n hn => h n (List.mem_cons_of_mem k hn)]
    rfl

theorem foldl_insert_of_ascending (es : Entries α) : ∀ done : Entries α,
    Ascending (done ++ es) → es.foldl (fun es p => es.insert p.1 p.2) done = done ++ es := by
  induction es with
  | nil => intro done _; rw [List.append_nil]; rfl
  | cons p rest ih =>
    intro done h
    have hlast : ∀ n ∈ done.names, n < p.1 := by
      intro n hn
      obtain ⟨q, hq, rfl⟩ := List.mem_map.1 hn
      exact (List.pairwise_append.1 h).2.2 q hq p List.mem_cons_self
    rw [List.append_cons] at h ⊢
    rw [List.foldl_cons, insert_last p.2 hlast]
    exact ih (done ++ [p]) h

/-- Entries in order are listed as they are. -/
theorem ofList_of_ascending {es : Entries α} (h : es.Ascending) : ofList es = es :=
  foldl_insert_of_ascending es [] h

theorem ascending_of_names {es : Entries α} (h : es.names.Pairwise (· < ·)) : es.Ascending :=
  List.pairwise_map.1 h

end Entries

/-! ## Values in order -/

namespace Json

open Document

mutual

/-- Members stand in the order of their keys, at every depth. -/
def Sorted : Json → Prop
  | .array items => SortedItems items
  | .object members => Entries.Ascending members ∧ SortedMembers members
  | .null | .bool _ | .number _ | .string _ => True

def SortedItems : List Json → Prop
  | [] => True
  | j :: rest => Sorted j ∧ SortedItems rest

def SortedMembers : List (String × Json) → Prop
  | [] => True
  | (_, j) :: rest => Sorted j ∧ SortedMembers rest

end

mutual

/-- A value in order is what its tree stands for. -/
theorem value?_ofJson : ∀ (j : Json) (n : Nat), j.Sorted → j.depth ≤ n →
    value? n (ofJson j) = some j
  | .null, _, _, _ | .bool _, _, _, _ | .number _, _, _, _ | .string _, _, _, _ => by
    simp only [ofJson, value?, Option.map_some]
  | .array items, n, hsorted, hdepth => by
    rw [Json.depth] at hdepth
    obtain ⟨m, rfl⟩ : ∃ m, n = m + 1 := ⟨n - 1, by omega⟩
    rw [ofJson, value?, mapM_value?_ofItems items m hsorted (by omega)]
    rfl
  | .object members, n, hsorted, hdepth => by
    rw [Json.depth] at hdepth
    obtain ⟨m, rfl⟩ : ∃ m, n = m + 1 := ⟨n - 1, by omega⟩
    rw [ofJson, value?, mapM_value?_ofMembers members m hsorted.2 (by omega)]
    exact congrArg (fun members => some (Json.object members))
      (Entries.ofList_of_ascending hsorted.1)

theorem mapM_value?_ofItems : ∀ (items : List Json) (n : Nat), SortedItems items →
    Json.depthItems items ≤ n → (ofItems items).mapM (value? n) = some items
  | [], _, _, _ => rfl
  | j :: rest, n, hsorted, hdepth => by
    rw [Json.depthItems, Nat.max_le] at hdepth
    rw [ofItems, List.mapM_cons, value?_ofJson j n hsorted.1 hdepth.1,
      mapM_value?_ofItems rest n hsorted.2 hdepth.2]
    rfl

theorem mapM_value?_ofMembers : ∀ (members : List (String × Json)) (n : Nat),
    SortedMembers members → Json.depthMembers members ≤ n →
    ((ofMembers members).mapM fun (k, d) => do return (← k, ← value? n d)) = some members
  | [], _, _, _ => rfl
  | (k, j) :: rest, n, hsorted, hdepth => by
    rw [Json.depthMembers, Nat.max_le] at hdepth
    rw [ofMembers, List.mapM_cons, mapM_value?_ofMembers rest n hsorted.2 hdepth.2]
    simp only [value?_ofJson j n hsorted.1 hdepth.1]
    rfl

end

namespace Decoder

theorem string_inverts : Inverts string .string := fun _ _ _ => rfl

theorem text_inverts : Inverts (optional string) (ofOption .string) :=
  string_inverts.optional fun _ => nofun

end Decoder
end Json

/-! ## Envelopes -/

theorem Json.depth_text (s : Option String) : (Json.ofOption .string s).depth = 0 := by
  cases s <;> rfl

theorem Json.numbers_text (s : Option String) : (Json.ofOption .string s).numbers = [] := by
  cases s <;> rfl

namespace Json.Decoder

open Document

theorem loopControl_inverts : Inverts loopControl LoopControl.toJson := by
  intro n c hdepth
  obtain ⟨m, rfl⟩ : ∃ m, n = m + 1 := by
    simp only [LoopControl.toJson, Json.depth] at hdepth
    exact ⟨n - 1, by omega⟩
  have htext (s : Option String) : optional string m (ofJson (ofOption .string s)) = some s :=
    text_inverts m s (by rw [depth_text]; exact Nat.zero_le m)
  show (do
    let signal ← optional string m (ofJson (ofOption .string c.signal))
    let notes ← optional string m (ofJson (ofOption .string c.notes))
    let reason ← optional string m (ofJson (ofOption .string c.reason))
    return { signal := signal, notes := notes, reason := reason }) = some c
  simp only [htext]
  rfl

/-- The tree of an envelope stands for the envelope. -/
theorem envelope_ofJson (n : Nat) {e : Envelope} (huser : e.userData.Sorted)
    (hactions : e.actions.Sorted) (hdepth : e.toJson.depth ≤ n) :
    envelope n (ofJson e.toJson) = some e := by
  simp only [Envelope.toJson, Json.depth, Json.depthMembers] at hdepth
  obtain ⟨m, rfl⟩ : ∃ m, n = m + 1 := ⟨n - 1, by omega⟩
  have hcontrol : loopControl m (ofJson e.control.toJson) = some e.control := by
    refine loopControl_inverts m e.control ?_
    omega
  show (do
    let userData ← value? m (ofJson e.userData)
    let actions ← value? m (ofJson e.actions)
    let control ← loopControl m (ofJson e.control.toJson)
    return { userData := userData, actions := actions, control := control }) = some e
  rw [value?_ofJson e.userData m huser (by omega), value?_ofJson e.actions m hactions (by omega),
    hcontrol]
  rfl

end Json.Decoder

namespace Envelope

theorem mem_numbers_toJson {e : Envelope} {n : Json.Number} (h : n ∈ e.toJson.numbers) :
    n ∈ e.userData.numbers ∨ n ∈ e.actions.numbers := by
  simpa [toJson, LoopControl.toJson, Json.numbers, Json.numbersOfMembers, Json.numbers_text] using h

/-- The text of an envelope begins and ends with braces. -/
theorem toPrompt_toList (e : Envelope) :
    ∃ text, e.toPrompt.toList = '\x7b' :: (text ++ ['\x7d']) := by
  rw [toPrompt, Json.pretty, Json.prettyAt_toList, toJson, Json.spelled]
  simp only [← List.append_assoc]
  exact ⟨_, rfl⟩

/-- There is nothing to be taken off such a text before it is read. -/
theorem unfenced_trim_braces (text : List Char) :
    unfenced (Text.trim ('\x7b' :: (text ++ ['\x7d']))) = '\x7b' :: (text ++ ['\x7d']) := by
  have hopen : Text.isBlank '\x7b' = false := by decide
  have hclose : Text.isBlank '\x7d' = false := by decide
  have htrim : Text.trim ('\x7b' :: (text ++ ['\x7d'])) = '\x7b' :: (text ++ ['\x7d']) := by
    simp [Text.trim, Text.trimStart, Text.trimEnd, hopen, hclose]
  rw [htrim]
  rfl

/-- The indented text of an envelope is read as this envelope. -/
theorem parse_of_legible {e : Envelope} (huser : e.userData.Sorted) (hactions : e.actions.Sorted)
    (hread : ∀ n ∈ e.userData.numbers ++ e.actions.numbers, n.Legible)
    (hdepth : e.toJson.depth ≤ Json.nestingLimit) : parse e.toPrompt = .ok e := by
  have hlegible : ∀ n ∈ e.toJson.numbers, n.Legible := fun n hn =>
    hread n (List.mem_append.2 (mem_numbers_toJson hn))
  have htree : Json.Document.read? e.toPrompt.toList = some (.ofJson e.toJson) :=
    (Json.reads_pretty e.toJson hlegible).read?
  have henvelope := Json.Decoder.envelope_ofJson Json.nestingLimit huser hactions hdepth
  obtain ⟨text, htext⟩ := e.toPrompt_toList
  rw [htext] at htree
  unfold parse
  rw [htext, unfenced_trim_braces]
  simp only [htree, Option.bind_some, henvelope]

end Envelope

/-! ## Requests -/

namespace Value

mutual

/-- Entries of maps stand in the order of their names, at every depth. -/
def Sorted : Value → Prop
  | .list items => SortedItems items
  | .map entries => Entries.Ascending entries ∧ SortedEntries entries
  | .nil | .number _ | .string _ | .bool _ | .handle _ _ => True

def SortedItems : List Value → Prop
  | [] => True
  | v :: rest => Sorted v ∧ SortedItems rest

def SortedEntries : List (String × Value) → Prop
  | [] => True
  | (_, v) :: rest => Sorted v ∧ SortedEntries rest

end

theorem entriesToJson_eq_map (entries : Entries Value) :
    entriesToJson entries = entries.map fun p => (p.1, p.2.toJson) := by
  induction entries with
  | nil => rfl
  | cons p rest ih => rw [entriesToJson, ih, List.map_cons]

mutual

theorem sorted_toJson : ∀ v : Value, v.Sorted → v.toJson.Sorted
  | .nil, _ | .string _, _ | .bool _, _ => trivial
  | .number x, _ => by
    rw [toJson]
    split <;> trivial
  | .list items, h => sorted_itemsToJson items h
  | .map entries, h => by
    refine ⟨?_, sorted_entriesToJson entries h.2⟩
    rw [entriesToJson_eq_map]
    exact Entries.ascending_map toJson h.1
  | .handle kind id, _ =>
    ⟨Entries.ascending_of_names (by decide : ["handle", "id"].Pairwise (· < ·)), trivial, trivial,
      trivial⟩

theorem sorted_itemsToJson : ∀ items : List Value, SortedItems items →
    Json.SortedItems (itemsToJson items)
  | [], _ => trivial
  | v :: rest, h => ⟨sorted_toJson v h.1, sorted_itemsToJson rest h.2⟩

theorem sorted_entriesToJson : ∀ entries : List (String × Value), SortedEntries entries →
    Json.SortedMembers (entriesToJson entries)
  | [], _ => trivial
  | (_, v) :: rest, h => ⟨sorted_toJson v h.1, sorted_entriesToJson rest h.2⟩

end

end Value

/-- The value that is found along a path of keys. -/
def Json.find? : List String → Json → Option Json
  | [], j => some j
  | k :: path, .object members => (members.lookup k).bind (find? path)
  | _ :: _, _ => none

namespace Envelope

theorem request_sorted (subject : String) {prompt : Json} (h : prompt.Sorted) (turn : Nat)
    (previous : Option String) : (request subject prompt turn previous).userData.Sorted := by
  refine ⟨Entries.ascending_of_names (by decide : ["fields", "subject"].Pairwise (· < ·)), ?_,
    trivial, trivial⟩
  cases previous with
  | none =>
    exact ⟨Entries.ascending_of_names (by decide : ["prompt", "turn"].Pairwise (· < ·)),
      h, trivial, trivial⟩
  | some output =>
    exact ⟨Entries.ascending_of_names
      (by decide : ["previous_output", "prompt", "turn"].Pairwise (· < ·)), trivial, h, trivial,
      trivial⟩

theorem mem_numbers_request {subject : String} {prompt : Json} {turn : Nat}
    {previous : Option String} {n : Json.Number}
    (h : n ∈ (request subject prompt turn previous).userData.numbers) :
    n ∈ prompt.numbers ∨ n = .int turn := by
  cases previous <;>
    simpa [request, Json.nat, Json.numbers, Json.numbersOfMembers] using h

/-- What an agent finds in a request. -/
theorem request_fields (subject : String) (prompt : Json) (turn : Nat) (previous : Option String) :
    let e := request subject prompt turn previous
    e.userData.find? ["subject"] = some (.string subject) ∧
      e.userData.find? ["fields", "prompt"] = some prompt ∧
      e.userData.find? ["fields", "turn"] = some (.nat turn) ∧
      e.userData.find? ["fields", "previous_output"] = previous.map .string := by
  refine ⟨rfl, ?_, ?_, ?_⟩ <;> cases previous <;> rfl

theorem parse_request (subject : String) {prompt : Json} {turn : Nat} (previous : Option String)
    (hsorted : prompt.Sorted) (hread : ∀ n ∈ prompt.numbers, n.Legible) (hturn : turn < powTwo 64)
    (hdepth : (request subject prompt turn previous).toJson.depth ≤ Json.nestingLimit) :
    parse (request subject prompt turn previous).toPrompt =
      .ok (request subject prompt turn previous) := by
  refine parse_of_legible (request_sorted subject hsorted turn previous) trivial (fun n hn => ?_)
    hdepth
  rcases List.mem_append.1 hn with hn | hn
  · rcases mem_numbers_request hn with hn | rfl
    · exact hread n hn
    · simp only [Json.Number.Legible]
      omega
  · cases hn

/-- A request nests three levels around its prompt. -/
theorem request_depth (subject : String) {prompt : Json} (turn : Nat) (previous : Option String)
    (h : prompt.depth + 3 ≤ Json.nestingLimit) :
    (request subject prompt turn previous).toJson.depth ≤ Json.nestingLimit := by
  cases previous <;>
    simp [request, toJson, LoopControl.toJson, Json.nat, Json.depth, Json.depthMembers,
      Json.depth_text] <;>
    omega

/-- Envelopes survive their written form: an envelope whose values are in order, whose numbers read
back and which nests no deeper than texts may is what its indented text is read as. So an agent
finds in the text of a request the subject, the prompt, the turn and the output before, if there is
one. -/
theorem parse_toPrompt :
    (∀ e : Envelope, e.userData.Sorted → e.actions.Sorted →
      (∀ n ∈ e.userData.numbers ++ e.actions.numbers, n.Legible) →
      e.toJson.depth ≤ Json.nestingLimit → parse e.toPrompt = .ok e) ∧
    ∀ (subject : String) (prompt : Value) (turn : Nat) (previous : Option String),
      prompt.Sorted → (∀ n ∈ prompt.toJson.numbers, n.Legible) → turn < powTwo 64 →
      (request subject prompt.toJson turn previous).toJson.depth ≤ Json.nestingLimit →
      ∃ e, parse (request subject prompt.toJson turn previous).toPrompt = .ok e ∧
        e.userData.find? ["subject"] = some (.string subject) ∧
        e.userData.find? ["fields", "prompt"] = some prompt.toJson ∧
        e.userData.find? ["fields", "turn"] = some (.nat turn) ∧
        e.userData.find? ["fields", "previous_output"] = previous.map .string := by
  refine ⟨fun e => parse_of_legible, ?_⟩
  intro subject prompt turn previous hprompt hread hturn hdepth
  exact ⟨_, parse_request subject previous (Value.sorted_toJson prompt hprompt) hread hturn hdepth,
    request_fields subject prompt.toJson turn previous⟩

/-- Nested values with a number and a string to be escaped, and a request in a second turn. -/
theorem parse_toPrompt_of_nested :
    let e : Envelope :=
      { userData := .object [("a", .array [.float 1.5, .array []]), ("b", .string "c \"d\"\n")]
        control := { signal := some "continue" } }
    let prompt : Value := .map [("k", .list [.number 1.5])]
    parse e.toPrompt = .ok e ∧
      ∃ r, parse (request "calc" prompt.toJson 2 (some "one")).toPrompt = .ok r ∧
        r.userData.find? ["fields", "prompt"] = some prompt.toJson ∧
        r.userData.find? ["fields", "previous_output"] = some (.string "one") := by
  intro e prompt
  have hvalue : Json.Numeral.value? { digits := 15, places := 1, whole := false } =
      some (.float 1.5) := by
    decide +kernel
  have hread : (Json.Number.float 1.5).Legible :=
    ⟨"1.5", by decide +kernel, congrArg (fun n => some (Json.Document.number n)) hvalue⟩
  have hfinite : Float.isFinite 1.5 = true := by decide +kernel
  have hsorted : prompt.Sorted :=
    ⟨Entries.ascending_of_names (List.pairwise_singleton _ _), ⟨trivial, trivial⟩, trivial⟩
  have hnumbers : ∀ n ∈ prompt.toJson.numbers, n.Legible := by
    simp [prompt, Value.toJson, Value.entriesToJson, Value.itemsToJson, hfinite, Json.float,
      Json.numbers, Json.numbersOfMembers, Json.numbersOfItems, hread]
  obtain ⟨hparse, hrequest⟩ := parse_toPrompt
  refine ⟨hparse e ?_ trivial ?_ ?_, ?_⟩
  · exact ⟨Entries.ascending_of_names (by decide : ["a", "b"].Pairwise (· < ·)),
      ⟨trivial, trivial, trivial⟩, trivial, trivial⟩
  · simp [e, Json.float, Json.numbers, Json.numbersOfMembers, Json.numbersOfItems, hread]
  · decide
  · obtain ⟨r, hr, -, hprompt, -, hprevious⟩ :=
      hrequest "calc" prompt 2 (some "one") hsorted hnumbers (by decide) (by decide)
    exact ⟨r, hr, hprompt, hprevious⟩

end Envelope
end StepScript
