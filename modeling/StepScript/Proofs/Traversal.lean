import StepScript.Proofs.Assignment
import StepScript.Proofs.Ceilings
import StepScript.Proofs.Numerals

/-!
# StepScript.Proofs.Traversal

Length, indexing and iteration tell of the same items.

* `Value.length_of_items`, `Value.index_nat`, `Value.items_map` — the three of them on values.
* `Loop.started?`, `Loop.Starts` — the worlds in which a loop starts its bodies, up to its end.
* `Engine.forStep_starts` — a loop over items starts its bodies with the items in its variable, one
  after another, and with all of them unless a body leaves it or the step fails.
* `Engine.iterateAt_emitting` — a loop that emits its variable emits all items.
* `Engine.Traversed` — a length, the indices and the loops fit together.
  `Engine.traversals_agree` — so they do for every value that has a length.
-/

namespace StepScript

/-! ## Values -/

namespace Value

variable {v : Value} {items : List Value}

/-- The values with items. -/
theorem items_of_typeName (h : v.typeName ∈ ["nil", "string", "list", "map"]) :
    ∃ items, v.items = .ok items := by
  cases v with
  | nil => exact ⟨_, rfl⟩
  | string s => exact ⟨_, rfl⟩
  | list items => exact ⟨_, rfl⟩
  | map entries => exact ⟨_, rfl⟩
  | number x => simp [typeName] at h
  | bool b => simp [typeName] at h
  | handle kind id => simp [typeName] at h

theorem length_of_items (h : v.items = .ok items) : v.length = .ok items.length := by
  cases v with
  | nil =>
    cases h
    rfl
  | string s =>
    cases h
    simp [length]
  | list items =>
    cases h
    rfl
  | map entries =>
    cases h
    simp [length, Entries.values]
  | number x => cases h
  | bool b => cases h
  | handle kind id => cases h

/-- Lists and texts have their items at the places that counts address. -/
theorem index_nat (h : v.items = .ok items) (hv : v.typeName = "string" ∨ v.typeName = "list")
    {i : Nat} (hi : i < 2 ^ 53) :
    v.index (.nat i) =
      items[i]?.elim (.error (.indexRange (Value.nat i).display items.length)) .ok := by
  cases v with
  | string s =>
    cases h
    simp only [index, place_nat hi, List.length_map]
    by_cases hlt : i < s.toList.length
    · simp [hlt]
    · simp [hlt]
  | list items =>
    cases h
    simp only [index, place_nat hi]
    by_cases hlt : i < items.length
    · simp [hlt]
    · simp [hlt]
  | nil => simp [typeName] at hv
  | map entries => simp [typeName] at hv
  | number x => simp [typeName] at hv
  | bool b => simp [typeName] at hv
  | handle kind id => simp [typeName] at hv

/-- The items of a map are what its names find. -/
theorem items_map (t : Table Value) :
    (Entries.values t.entries).map .ok =
      t.names.map fun k => (Value.map t.entries).index (.string k) := by
  simp only [Table.names, Entries.names, Entries.values, List.map_map]
  apply List.map_congr_left
  rintro ⟨k, a⟩ hp
  have hfound : Entries.get? k t.entries = some a := (Entries.mem_iff_get? t.ascending).1 hp
  have hindex := index_map (k := .string k) (s := k) rfl t.entries
  rw [hfound] at hindex
  exact hindex.symm

end Value

/-! ## Bodies of loops -/

namespace Exec
namespace Loop

variable {σ : Type}

section

variable (l : Loop σ)

/-- The world in which the body of a round is started, if it is. -/
def started? (p : Point σ) : Option World :=
  match l.more p.state p.world with
  | (.ok true, w) =>
    match l.visit p.state w with
    | (.ok (), w) => some w
    | (.error _, _) => none
  | _ => none

/-- The loop without a ceiling comes to an end, with its result, after bodies were started in these
worlds. `left` says that the last body has ended the loop. -/
inductive Starts : Point σ → List World → Bool → Except Interrupt StepResult × World → Prop where
  | last {p : Point σ} {left : Bool} {r : Except Interrupt StepResult × World} :
      l.round p = .last left r → Starts p (l.started? p).toList left r
  | next {p q : Point σ} {ws : List World} {left : Bool}
      {r : Except Interrupt StepResult × World} :
      l.round p = .next q → Starts q ws left r → Starts p ((l.started? p).toList ++ ws) left r

end

/-- A loop that comes to an end has started its bodies somewhere. -/
theorem Runs.starts {l : Loop σ} {p : Point σ} {k : Nat} {r : Except Interrupt StepResult × World}
    (h : l.Runs p k r) : ∃ ws left, l.Starts p ws left r := by
  induction h with
  | last hlast => exact ⟨_, _, .last hlast⟩
  | next hnext _ ih =>
    obtain ⟨ws, left, hstarts⟩ := ih
    exact ⟨_, _, .next hnext hstarts⟩

end Loop

/-- A loop that ends after a body was left by it. -/
theorem Round.ofBody_eq_last {σ : Type} {state : σ} {cleared left : Bool}
    {r : Except Interrupt Outcome × World} {r' : Except Interrupt StepResult × World}
    (h : ofBody state cleared r = .last left r') : left = true := by
  rcases r with ⟨(e | text) | o, w⟩
  · simp only [ofBody] at h
    split at h
    · cases h
      rfl
    · split at h
      · cases h
      · cases h
        rfl
  · cases h
    rfl
  · simp only [ofBody] at h
    split at h
    · cases h
      rfl
    · cases h

end Exec

/-! ## Loops over items -/

namespace World

variable {engine : Engine} {f : Frame} {n : String} {v : Value} {w w' : World}

/-- Evaluation leaves an instance at work, and the variables of the root as they are. -/
theorem AtWork.evaluated {e : Expression} {r : Except Interrupt Value} (h : w.AtWork f)
    (heval : engine.evaluate f e w = (r, w')) : w'.AtWork f ∧ w'.root = w.root := by
  have hspared := h.evaluate engine e
  rw [heval] at hspared
  exact ⟨h.of_undisturbed hspared not_false, hspared.shared.root⟩

theorem Writable.of_root (h : w.Writable engine.symbols f n) (hroot : w'.root = w.root) :
    w'.Writable engine.symbols f n := by
  simpa only [Writable, isConstant, isGlobal, globalsOf, hroot] using h

/-- A variable that was written can be written again. -/
theorem Writable.written (h : w.Writable engine.symbols f n)
    (hwrite : Exec.write engine f n v w = (.ok (), w')) : w'.Writable engine.symbols f n := by
  rcases (Exec.write_eq_ok_iff.1 hwrite).2 with ⟨-, hroot, rfl⟩ | ⟨-, rfl⟩
  · exact ⟨h.1, fun _ => hroot⟩
  · exact h.of_root rfl

theorem write_trace (hwrite : Exec.write engine f n v w = (.ok (), w')) : w'.trace = w.trace := by
  rcases (Exec.write_eq_ok_iff.1 hwrite).2 with ⟨-, -, rfl⟩ | ⟨-, rfl⟩
  · rfl
  · rfl

end World

namespace Engine

open World Exec

section

variable {engine : Engine} {f : Frame} (mode : Mode) {item : String} (body : List Step)
variable {p : Point (List Value)} {v : Value} {rest : List Value} {w : World}

theorem forStep_of_write (hstate : p.state = v :: rest)
    (hwrite : write engine f item v p.world = (.ok (), w)) :
    (engine.forStep f mode item body).started? p = some w ∧
      (engine.forStep f mode item body).round p =
        .ofBody rest p.cleared (engine.runBlock f mode body w) := by
  constructor
  · simp [Loop.started?, forStep, forLoop, hstate, hwrite]
  · simp [Loop.round, forStep, forLoop, hstate, hwrite]

theorem forStep_of_unwritten (hstate : p.state = v :: rest) {i : Interrupt}
    (hwrite : write engine f item v p.world = (.error i, w)) :
    (engine.forStep f mode item body).started? p = none ∧
      (engine.forStep f mode item body).round p = .last false (.error i, w) := by
  constructor
  · simp [Loop.started?, forStep, forLoop, hstate, hwrite]
  · simp [Loop.round, forStep, forLoop, hstate, hwrite]

theorem forStep_of_nil (hstate : p.state = []) :
    (engine.forStep f mode item body).started? p = none ∧
      (engine.forStep f mode item body).round p =
        .last false (.ok (.ofLoop p.cleared), p.world) := by
  constructor
  · simp [Loop.started?, forStep, forLoop, hstate]
  · simp [Loop.round, forStep, forLoop, hstate]

variable {mode body}

/-- By induction on the rounds. -/
theorem forStep_starts {ws : List World} {left : Bool} {r : Except Interrupt StepResult × World}
    (h : (engine.forStep f mode item body).Starts p ws left r) : p.world.AtWork f →
      ∃ rest, p.state.map some =
          ws.map (fun w => w.lookup? engine.symbols f item) ++ rest.map some ∧
        (rest ≠ [] → left = true ∨ ∃ i w', r = (.error i, w')) := by
  induction h with
  | @last p left r hlast =>
    intro hp
    cases hstate : p.state with
    | nil =>
      rw [(forStep_of_nil mode body hstate).1]
      exact ⟨[], rfl, fun h => absurd rfl h⟩
    | cons v rest =>
      rcases hwrite : write engine f item v p.world with ⟨i | ⟨⟩, w⟩
      · obtain ⟨hstarted, hround⟩ := forStep_of_unwritten mode body hstate hwrite
        rw [hround] at hlast
        cases hlast
        rw [hstarted]
        exact ⟨v :: rest, rfl, fun _ => .inr ⟨i, w, rfl⟩⟩
      · obtain ⟨hstarted, hround⟩ := forStep_of_write mode body hstate hwrite
        rw [hround] at hlast
        refine ⟨rest, ?_, fun _ => .inl (Round.ofBody_eq_last hlast)⟩
        simp [hstarted, hp.written hwrite .refl]
  | @next p q ws left r hnext hstarts ih =>
    intro hp
    cases hstate : p.state with
    | nil =>
      rw [(forStep_of_nil mode body hstate).2] at hnext
      cases hnext
    | cons v rest =>
      rcases hwrite : write engine f item v p.world with ⟨i | ⟨⟩, w⟩
      · rw [(forStep_of_unwritten mode body hstate hwrite).2] at hnext
        cases hnext
      · obtain ⟨hstarted, hround⟩ := forStep_of_write mode body hstate hwrite
        rw [hround] at hnext
        obtain ⟨hrest, hworld⟩ := Round.ofBody_eq_next hnext
        have hw : w.AtWork f := hp.does (.set hwrite)
        have hq : q.world.AtWork f := by
          rw [hworld]
          exact hw.deeds (hw.runBlock_deeds mode body)
        obtain ⟨rest', hvisited, hleft⟩ := ih hq
        refine ⟨rest', ?_, hleft⟩
        simp [hstarted, hp.written hwrite .refl, ← hvisited, hrest]

end

section

variable (engine : Engine) (f : Frame) (mode : Mode) (item : String) (q : Position)

def emitting : List Step := [.mk q (.emit (.variable item))]

variable {engine f item}

theorem runBlock_emitting (hnoted : f.outlet ≠ .host ∨ engine.host.emit = true) {v : Value}
    {w : World} (h : w.lookup? engine.symbols f item = some v) :
    engine.runBlock f mode (emitting item q) w =
      (.ok { value := v }, { w with trace := w.trace.push (.emit f.outlet v) }) := by
  have hemit : engine.step f mode q (.emit (.variable item)) w =
      (.ok ⟨v, .proceed⟩, { w with trace := w.trace.push (.emit f.outlet v) }) := by
    simp only [step, execAction, execSimple, Exec.evaluate]
    rw [bind_ok (read_of_lookup h)]
    simp [emit, hnoted, bind_apply]
  unfold step at hemit
  rw [runBlock_eq, emitting, Exec.runBlock, bind_ok (attempt_ok hemit)]
  rfl

/-- By induction on the items that are left. -/
theorem iterateAt_emitting (hnoted : f.outlet ≠ .host ∨ engine.host.emit = true) (limit : Nat)
    (items : List Value) : ∀ {left : Nat} {w : World} (cleared : Bool), w.AtWork f →
      w.Writable engine.symbols f item → items.length ≤ left →
      ∃ w', (engine.forStep f mode item (emitting item q)).iterateAt limit left
          ⟨items, cleared, w⟩ = (.ok (.ofLoop cleared), w') ∧
        w'.trace = w.trace ++ (items.map (Effect.emit f.outlet)).toArray := by
  induction items with
  | nil =>
    intro left w cleared hw hitem hleft
    refine ⟨w, ?_, by simp⟩
    cases left with
    | zero => rfl
    | succ left =>
      rw [Loop.iterateAt_succ, (forStep_of_nil mode (emitting item q) rfl).2]
      rfl
  | cons v rest ih =>
    intro left w cleared hw hitem hleft
    cases left with
    | zero => cases hleft
    | succ left =>
      obtain ⟨w₁, hwrite⟩ := hitem.write v
      have hw₁ : w₁.AtWork f := hw.does (.set hwrite)
      have hbody := runBlock_emitting mode q hnoted (hw.written hwrite .refl)
      have hdone : (engine.runBlock f mode (emitting item q) w₁).2.AtWork f :=
        hw₁.deeds (hw₁.runBlock_deeds mode (emitting item q))
      rw [hbody] at hdone
      obtain ⟨w', hrest, htrace⟩ := ih cleared hdone ((hitem.written hwrite).of_root rfl)
        (Nat.le_of_succ_le_succ hleft)
      refine ⟨w', ?_, ?_⟩
      · rw [Loop.iterateAt_succ, (forStep_of_write mode (emitting item q) rfl hwrite).2, hbody]
        simpa [Round.ofBody, Round.resume] using hrest
      · rw [htrace, write_trace hwrite]
        simp

end

/-- The step is its loop, from the world on in which the collection has its value. -/
theorem step_forEach_of_items {engine : Engine} {f : Frame} (mode : Mode) (p : Position)
    (item : String) (body : List Step) {collection : Expression} {v : Value} {items : List Value}
    {w w₁ : World} (hv : engine.evaluate f collection w = (.ok v, w₁))
    (hitems : v.items = .ok items) :
    engine.step f mode p (.forEach item collection body) w =
      (engine.forStep f mode item body).iterateAt engine.config.maxLoopIterations
        engine.config.maxLoopIterations ⟨items, false, w₁⟩ := by
  rw [step_forEach, bind_ok hv, hitems]
  rfl

theorem evaluate_index {engine : Engine} {f : Frame} {target key : Expression} {v k : Value}
    {w w₁ w₂ : World} (htarget : engine.evaluate f target w = (.ok v, w₁))
    (hkey : engine.evaluate f key w₁ = (.ok k, w₂)) :
    engine.evaluate f (.index target key) w = (ofFault (v.index k) : Exec Value) w₂ := by
  unfold Engine.evaluate at *
  rw [Exec.evaluate, bind_ok htarget, bind_ok hkey]

/-- The length of a value, its indices and the loops over it tell of these items. -/
structure Traversed (engine : Engine) (f : Frame) (mode : Mode) (v : Value)
    (items : List Value) : Prop where
  /-- The built-in counts the items. -/
  length : ∀ w, runBuiltin engine f .len [v] w = (.ok (.nat items.length), w)
  /-- The number that it gives is exact. -/
  count : items.length < 2 ^ 53 →
    (Binary.ofFloat (Float.ofNat items.length)).toInt? = some (items.length : Int)
  /-- A loop within its ceiling starts its bodies with the items in its variable, one after another,
  and with all of them unless a body leaves the loop or the step fails. -/
  visits : ∀ p item collection body w w₁, w.AtWork f →
    engine.evaluate f collection w = (.ok v, w₁) →
    items.length ≤ engine.config.maxLoopIterations →
    let r := engine.step f mode p (.forEach item collection body) w
    ∃ ws left, (engine.forStep f mode item body).Starts ⟨items, false, w₁⟩ ws left r ∧
      let visited := ws.map fun w => w.lookup? engine.symbols f item
      visited <+: items.map some ∧
        (visited ≠ items.map some → left = true ∨ ∃ i w', r = (.error i, w'))
  /-- A loop that emits its variable succeeds and emits all of them. -/
  emits : ∀ p item collection q w w₁, w.AtWork f →
    engine.evaluate f collection w = (.ok v, w₁) →
    items.length ≤ engine.config.maxLoopIterations →
    w.Writable engine.symbols f item → f.outlet ≠ .host ∨ engine.host.emit = true →
    ∃ w', engine.step f mode p (.forEach item collection (emitting item q)) w =
        (.ok ⟨.nil, .proceed⟩, w') ∧
      w'.trace = w₁.trace ++ (items.map (Effect.emit f.outlet)).toArray
  /-- A text or list has them at their places and nothing behind the last. -/
  places : v.typeName = "string" ∨ v.typeName = "list" → ∀ i < 2 ^ 53, ∀ target key w w₁ w₂,
    engine.evaluate f target w = (.ok v, w₁) → engine.evaluate f key w₁ = (.ok (.nat i), w₂) →
    let r := engine.evaluate f (.index target key) w
    (∀ hi : i < items.length, r = (.ok items[i], w₂)) ∧
      (items.length ≤ i → ∃ e, e.code = .keyNotFound ∧ r = (.error (.failed e), w₂))
  /-- Those of a text are its characters. -/
  chars : ∀ s, v = .string s → items = s.toList.map fun c => .string (String.singleton c)
  /-- Those of a map are found by its names. -/
  names : ∀ t : Table Value, v = .map t.entries →
    items.map .ok = t.names.map fun k => v.index (.string k)

/-- Nil, texts, lists and maps are traversed in one way by the length, by indices and by loops. -/
theorem traversals_agree (engine : Engine) (f : Frame) (mode : Mode) (v : Value)
    (hv : v.typeName ∈ ["nil", "string", "list", "map"]) :
    ∃ items, engine.Traversed f mode v items := by
  obtain ⟨items, hitems⟩ := Value.items_of_typeName hv
  refine ⟨items, ?_⟩
  constructor
  case length =>
    intro w
    simp only [runBuiltin, Builtin.arity, List.headD_cons, Value.length_of_items hitems]
    rfl
  case count => exact Binary.toInt?_ofNat
  case visits =>
    intro p item collection body w w₁ hw heval hlength r
    have hr : r = (engine.forStep f mode item body).iterateAt engine.config.maxLoopIterations
        engine.config.maxLoopIterations ⟨items, false, w₁⟩ :=
      step_forEach_of_items mode p item body heval hitems
    obtain ⟨k, -, hruns⟩ := ((engine.forStep f mode item body).iterate_bounded
        engine.config.maxLoopIterations engine.config.maxLoopIterations ⟨items, false, w₁⟩).ends
      fun ⟨w', hbegins⟩ => absurd (forLoop_begins hbegins) (Nat.not_lt.2 hlength)
    obtain ⟨ws, left, hstarts⟩ := ((hruns k r).2 ⟨rfl, hr⟩).starts
    obtain ⟨rest, hvisited, hrest⟩ := forStep_starts hstarts (hw.evaluated heval).1
    refine ⟨ws, left, hstarts, ⟨rest.map some, hvisited.symm⟩, fun hne => hrest fun hnil => hne ?_⟩
    rw [hvisited, hnil, List.map_nil, List.append_nil]
  case emits =>
    intro p item collection q w w₁ hw heval hlength hitem hnoted
    obtain ⟨hw₁, hroot⟩ := hw.evaluated heval
    rw [step_forEach_of_items mode p item (emitting item q) heval hitems]
    exact iterateAt_emitting mode q hnoted engine.config.maxLoopIterations items false hw₁
      (hitem.of_root hroot) hlength
  case places =>
    intro hkind i hi target key w w₁ w₂ htarget hkey r
    have hr : r = (ofFault (v.index (.nat i)) : Exec Value) w₂ := evaluate_index htarget hkey
    rw [hr, Value.index_nat hitems hkind hi]
    constructor
    · intro hlt
      rw [List.getElem?_eq_getElem hlt]
      rfl
    · intro hge
      rw [List.getElem?_eq_none hge]
      exact ⟨_, rfl, rfl⟩
  case chars =>
    rintro s rfl
    cases hitems
    rfl
  case names =>
    rintro t rfl
    cases hitems
    exact Value.items_map t

/-- A text of two characters, one of them outside of ASCII. -/
theorem traversals_agree_of_text :
    let engine : Engine := {}
    let text : Expression := .literal (.string "né")
    let chars : List Value := [.string "n", .string "é"]
    (Value.string "né").typeName ∈ ["nil", "string", "list", "map"] ∧
      runBuiltin engine .root .len [.string "né"] {} = (.ok (.nat 2), {}) ∧
      (∃ w', engine.step .root {} .unknown (.forEach "c" text (emitting "c" .unknown)) {} =
          (.ok ⟨.nil, .proceed⟩, w') ∧ w'.trace = #[.emit .host chars[0], .emit .host chars[1]]) ∧
      engine.evaluate .root (.index text (.literal (.number (Float.ofNat 1)))) {} =
        (.ok chars[1], {}) ∧
      ∃ e, e.code = .keyNotFound ∧
        engine.evaluate .root (.index text (.literal (.number (Float.ofNat 2)))) {} =
          (.error (.failed e), {}) := by
  intro engine text chars
  have hkind : (Value.string "né").typeName ∈ ["nil", "string", "list", "map"] := by decide
  obtain ⟨items, h⟩ := traversals_agree engine .root {} (.string "né") hkind
  obtain rfl : items = chars := h.chars "né" rfl
  have hstart : engine.Ledger [] {} := .start
  have hroot : ({} : World).AtWork .root := hstart.atWork hstart.accounted.root_live
  have hitem : ({} : World).Writable engine.symbols .root "c" := ⟨rfl, fun _ => rfl⟩
  have htext : engine.evaluate .root text {} = (.ok (.string "né"), {}) := rfl
  refine ⟨hkind, h.length {}, ?_, ?_, ?_⟩
  · exact h.emits .unknown "c" text .unknown {} {} hroot htext (by decide) hitem (.inr rfl)
  · exact (h.places (.inl rfl) 1 (by decide) text _ {} {} {} htext rfl).1 (by decide)
  · exact (h.places (.inl rfl) 2 (by decide) text _ {} {} {} htext rfl).2 (by decide)

end Engine

end StepScript
