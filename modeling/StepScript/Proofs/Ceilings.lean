import StepScript.Proofs.AtWork

/-!
# StepScript.Proofs.Ceilings

The ceilings of loops.

* `Exec.Loop`         — a loop in general: a condition or the items that are left say whether there
  is another round. `repeatWhile_eq`, `repeatFor_eq` — both kinds of loops are such.
* `Loop.round`        — one round, without a ceiling. `Loop.Runs` — a run of such rounds to its end,
  with the number of bodies that were started.
* `Loop.Begins`       — a number of bodies were completed or continued, and another round begins.
* `Loop.Bounded`      — a loop with a ceiling: it fails where a round beyond the ceiling begins, and
  it is the loop without one where none does. `Loop.iterate_bounded` — so it is, by induction on the
  rounds that are left.
* `Engine.loops_exact` — so steps with loops fail for their ceilings exactly when they have to.
-/

namespace StepScript
namespace Exec

/-- A loop, by the states between its rounds: whether there is another round, what is done before
its body, and the state after it. -/
structure Loop (σ : Type) where
  more : σ → Exec Bool
  visit : σ → Exec Unit
  next : σ → σ
  body : Exec Outcome

/-- A loop before one of its rounds. -/
structure Point (σ : Type) where
  state : σ
  cleared : Bool
  world : World

/-- How a round ends: another one comes after it, or the loop ends with it, and its body was started
or was not. -/
inductive Round (σ : Type) where
  | next (p : Point σ)
  | last (started : Bool) (result : Except Interrupt StepResult × World)

namespace Round

variable {σ : Type}

/-- The result of the loop, given that of the rounds to come. -/
def resume (again : Point σ → Except Interrupt StepResult × World) :
    Round σ → Except Interrupt StepResult × World
  | .next p => again p
  | .last _ result => result

/-- After a body. One that is completed or continued makes way for the next round. -/
def ofBody (state : σ) (cleared : Bool) : Except Interrupt Outcome × World → Round σ
  | (.ok o, w) =>
    if o.returned then .last true (.ok ⟨o.value, .returned⟩, w)
    else .next ⟨state, cleared || o.cleared, w⟩
  | (.error (.failed e), w) =>
    if e.code = .break then .last true (.ok (.ofLoop cleared), w)
    else if e.code = .continue then .next ⟨state, cleared, w⟩
    else .last true (.error (.failed e), w)
  | (.error (.crashed text), w) => .last true (.error (.crashed text), w)

theorem ofBody_eq_next {state : σ} {cleared : Bool} {r : Except Interrupt Outcome × World}
    {p : Point σ} (h : ofBody state cleared r = .next p) : p.state = state ∧ p.world = r.2 := by
  rcases r with ⟨(e | text) | o, w⟩
  · simp only [ofBody] at h
    split at h
    · cases h
    · split at h
      · cases h
        exact ⟨rfl, rfl⟩
      · cases h
  · cases h
  · simp only [ofBody] at h
    split at h
    · cases h
    · cases h
      exact ⟨rfl, rfl⟩

end Round

/-- A pass through a body and what comes after it. -/
theorem pass_resume {σ : Type} (body : Exec Outcome) (state : σ) (cleared : Bool)
    (again : Bool → Exec StepResult) (w : World) :
    (pass body >>= afterPass cleared again) w =
      (Round.ofBody state cleared (body w)).resume fun p => again p.cleared p.world := by
  unfold pass
  rw [bind_assoc]
  rcases hbody : body w with ⟨(e | text) | o, w'⟩
  · rw [bind_ok (attempt_failed hbody)]
    cases hcode : e.code <;> simp [Round.ofBody, hcode, Round.resume, afterPass] <;> rfl
  · rw [bind_error (attempt_crashed hbody)]
    rfl
  · rw [bind_ok (attempt_ok hbody)]
    cases hreturned : o.returned <;> simp [Round.ofBody, hreturned, Round.resume, afterPass]

namespace Loop

variable {σ : Type}

section

variable (l : Loop σ)

def round (p : Point σ) : Round σ :=
  match l.more p.state p.world with
  | (.ok true, w) =>
    match l.visit p.state w with
    | (.ok (), w) => .ofBody (l.next p.state) p.cleared (l.body w)
    | (.error i, w) => .last false (.error i, w)
  | (.ok false, w) => .last false (.ok (.ofLoop p.cleared), w)
  | (.error i, w) => .last false (.error i, w)

/-- The loop without a ceiling comes to an end, with its result, after so many bodies were
started. -/
inductive Runs : Point σ → Nat → Except Interrupt StepResult × World → Prop where
  | last {p : Point σ} {started : Bool} {r : Except Interrupt StepResult × World} :
      l.round p = .last started r → Runs p started.toNat r
  | next {p q : Point σ} {k : Nat} {r : Except Interrupt StepResult × World} :
      l.round p = .next q → Runs q k r → Runs p (k + 1) r

/-- So many bodies were completed or continued, and then another round begins. -/
inductive Begins : Nat → Point σ → World → Prop where
  | now {p : Point σ} {w : World} : l.more p.state p.world = (.ok true, w) → Begins 0 p w
  | later {p q : Point σ} {k : Nat} {w : World} :
      l.round p = .next q → Begins k q w → Begins (k + 1) p w

/-- What comes of the loop if at most `left` bodies may be started and `limit` is the ceiling that
failures tell of. -/
structure Bounded (limit left : Nat) (p : Point σ) (r : Except Interrupt StepResult × World) :
    Prop where
  exceeds : ∀ w, l.Begins left p w → r = (.error (.failed (Fault.loopExceeded limit).error), w)
  ends : (¬ ∃ w, l.Begins left p w) → ∃ k ≤ left, ∀ k' r', l.Runs p k' r' ↔ k' = k ∧ r' = r

/-- Runs the loop, with at most `left` bodies more. -/
def iterate (limit : Nat) : Nat → σ → Bool → Exec StepResult
  | 0, s, cleared => do
    if ← l.more s then fault (.loopExceeded limit) else pure (.ofLoop cleared)
  | left + 1, s, cleared => do
    if ← l.more s then
      l.visit s
      pass l.body >>= afterPass cleared (iterate limit left (l.next s))
    else pure (.ofLoop cleared)

def iterateAt (limit left : Nat) (p : Point σ) : Except Interrupt StepResult × World :=
  l.iterate limit left p.state p.cleared p.world

end

variable {l : Loop σ} {limit left k k' : Nat} {p q : Point σ}
variable {r r' : Except Interrupt StepResult × World}

/-- While bodies are left, a round is as it is without a ceiling. -/
theorem iterateAt_succ (l : Loop σ) (limit left : Nat) (p : Point σ) :
    l.iterateAt limit (left + 1) p = (l.round p).resume (l.iterateAt limit left) := by
  unfold iterateAt
  rw [iterate]
  rcases hmore : l.more p.state p.world with ⟨i | more, w₁⟩
  · rw [bind_error hmore]
    simp only [round, hmore]
    rfl
  · rw [bind_ok hmore]
    cases more with
    | false =>
      simp only [round, hmore]
      rfl
    | true =>
      rw [if_pos rfl]
      rcases hvisit : l.visit p.state w₁ with ⟨i | ⟨⟩, w₂⟩
      · rw [bind_error hvisit]
        simp only [round, hmore, hvisit]
        rfl
      · rw [bind_ok hvisit, pass_resume _ (l.next p.state)]
        simp only [round, hmore, hvisit]
        cases hround : Round.ofBody (l.next p.state) p.cleared (l.body w₂) with
        | next q =>
          obtain ⟨hstate, -⟩ := Round.ofBody_eq_next hround
          simp only [Round.resume, hstate]
        | last => rfl

/-- Without bodies left, no round may begin. -/
theorem iterateAt_zero {w : World} (h : l.more p.state p.world = (.ok true, w)) :
    l.iterateAt limit 0 p = (.error (.failed (Fault.loopExceeded limit).error), w) := by
  unfold iterateAt
  rw [iterate, bind_ok h]
  rfl

/-- Where none does, the loop ends as it does without a ceiling. -/
theorem round_of_not_more (h : ∀ w, l.more p.state p.world ≠ (.ok true, w)) :
    l.round p = .last false (l.iterateAt limit 0 p) := by
  unfold iterateAt
  rw [iterate]
  rcases hmore : l.more p.state p.world with ⟨i | more, w⟩
  · rw [bind_error hmore]
    simp only [round, hmore]
  · rw [bind_ok hmore]
    cases more with
    | false =>
      simp only [round, hmore]
      rfl
    | true => exact absurd hmore (h w)

/-- A loop has one end. -/
theorem Runs.unique (h : l.Runs p k r) : ∀ {k' r'}, l.Runs p k' r' → k' = k ∧ r' = r := by
  induction h with
  | last hlast =>
    intro k' r' h'
    cases h' with
    | last hlast' =>
      rw [hlast] at hlast'
      cases hlast'
      exact ⟨rfl, rfl⟩
    | next hnext _ =>
      rw [hlast] at hnext
      cases hnext
  | next hnext _ ih =>
    intro k' r' h'
    cases h' with
    | last hlast =>
      rw [hnext] at hlast
      cases hlast
    | next hnext' hruns =>
      rw [hnext] at hnext'
      cases hnext'
      obtain ⟨rfl, rfl⟩ := ih hruns
      exact ⟨rfl, rfl⟩

theorem Runs.bounded (h : l.Runs p k r) (hk : k ≤ left) (hbegins : ¬ ∃ w, l.Begins left p w) :
    l.Bounded limit left p r where
  exceeds w hw := absurd ⟨w, hw⟩ hbegins
  ends _ := by
    refine ⟨k, hk, fun k' r' => ⟨h.unique, ?_⟩⟩
    rintro ⟨rfl, rfl⟩
    exact h

/-- By induction on the bodies that are left. -/
theorem iterate_bounded (l : Loop σ) (limit left : Nat) : ∀ p,
    l.Bounded limit left p (l.iterateAt limit left p) := by
  induction left with
  | zero =>
    intro p
    by_cases hmore : ∃ w, l.more p.state p.world = (.ok true, w)
    · obtain ⟨w, hw⟩ := hmore
      refine ⟨?_, fun hbegins => absurd ⟨w, .now hw⟩ hbegins⟩
      rintro w' ⟨h⟩
      exact iterateAt_zero h
    · have hround : l.round p = .last false (l.iterateAt limit 0 p) :=
        round_of_not_more fun w hw => hmore ⟨w, hw⟩
      refine (Runs.last hround).bounded (Nat.le_refl 0) ?_
      rintro ⟨w, ⟨h⟩⟩
      exact hmore ⟨w, h⟩
  | succ left ih =>
    intro p
    rw [iterateAt_succ]
    cases hround : l.round p with
    | last started r =>
      refine (Runs.last hround).bounded ?_ ?_
      · have hstarted : started.toNat ≤ 1 := Bool.toNat_le started
        omega
      · rintro ⟨w, hw⟩
        cases hw with
        | later hnext _ =>
          rw [hround] at hnext
          cases hnext
    | next q =>
      have hbegins {w : World} (h : l.Begins (left + 1) p w) : l.Begins left q w := by
        cases h with
        | later hnext h =>
          rw [hround] at hnext
          cases hnext
          exact h
      by_cases hnone : ∃ w, l.Begins left q w
      · obtain ⟨w, hw⟩ := hnone
        exact ⟨fun w' hw' => (ih q).exceeds w' (hbegins hw'),
          fun hno => absurd ⟨w, .later hround hw⟩ hno⟩
      · obtain ⟨k, hk, hruns⟩ := (ih q).ends hnone
        have hrun : l.Runs p (k + 1) (l.iterateAt limit left q) :=
          .next hround ((hruns _ _).2 ⟨rfl, rfl⟩)
        refine hrun.bounded (Nat.succ_le_succ hk) ?_
        -- a round beyond the ceiling would begin after this one too
        rintro ⟨w, hw⟩
        exact hnone ⟨w, hbegins hw⟩

/-- What a round does that makes way for another. -/
theorem round_eq_next (h : l.round p = .next q) : ∃ w₁ w₂,
    l.more p.state p.world = (.ok true, w₁) ∧ l.visit p.state w₁ = (.ok (), w₂) ∧
      q.state = l.next p.state ∧ q.world = (l.body w₂).2 := by
  rcases hmore : l.more p.state p.world with ⟨i | more, w₁⟩
  · simp only [round, hmore] at h
    cases h
  · cases more with
    | false =>
      simp only [round, hmore] at h
      cases h
    | true =>
      rcases hvisit : l.visit p.state w₁ with ⟨i | ⟨⟩, w₂⟩
      · simp only [round, hmore, hvisit] at h
        cases h
      · simp only [round, hmore, hvisit] at h
        obtain ⟨hstate, hworld⟩ := Round.ofBody_eq_next h
        exact ⟨w₁, w₂, rfl, hvisit, hstate, hworld⟩

end Loop

/-! ## The two kinds of loops -/

def whileLoop (condition : Exec Bool) (body : Exec Outcome) : Loop Unit where
  more _ := condition
  visit _ := pure ()
  next := id
  body := body

def forLoop (visit : Value → Exec Unit) (body : Exec Outcome) : Loop (List Value) where
  more items := pure !items.isEmpty
  visit items := items.head?.elim (pure ()) visit
  next := List.tail
  body := body

theorem repeatWhile_eq (limit : Nat) (condition : Exec Bool) (body : Exec Outcome) (left : Nat) :
    ∀ cleared, repeatWhile limit condition body left cleared =
      (whileLoop condition body).iterate limit left () cleared := by
  induction left with
  | zero => exact fun _ => rfl
  | succ left ih =>
    intro cleared
    simp only [repeatWhile, Loop.iterate, whileLoop, ih, pure_bind]
    rfl

theorem repeatFor_eq (limit : Nat) (visit : Value → Exec Unit) (body : Exec Outcome)
    (items : List Value) : ∀ left cleared, repeatFor limit visit body items left cleared =
      (forLoop visit body).iterate limit left items cleared := by
  induction items with
  | nil =>
    intro left cleared
    cases left with
    | zero => rfl
    | succ => rfl
  | cons v rest ih =>
    intro left cleared
    cases left with
    | zero => rfl
    | succ left =>
      simp only [repeatFor, ih]
      rfl

section

variable {visit : Value → Exec Unit} {body : Exec Outcome}

theorem forLoop_more {items : List Value} {w w' : World}
    (h : (forLoop visit body).more items w = (.ok true, w')) :
    ∃ v rest, items = v :: rest ∧ w' = w := by
  cases items with
  | nil => cases h
  | cons v rest =>
    cases h
    exact ⟨v, rest, rfl, rfl⟩

/-- Rounds take items. -/
theorem forLoop_begins {k : Nat} {p : Point (List Value)} {w : World}
    (h : (forLoop visit body).Begins k p w) : k < p.state.length := by
  induction h with
  | now hmore =>
    obtain ⟨v, rest, hstate, -⟩ := forLoop_more hmore
    rw [hstate]
    exact Nat.succ_pos _
  | later hround _ ih =>
    obtain ⟨w₁, w₂, hmore, -, hq, -⟩ := Loop.round_eq_next hround
    obtain ⟨v, rest, hstate, -⟩ := forLoop_more hmore
    rw [hq, hstate] at ih
    rw [hstate]
    exact Nat.succ_lt_succ ih

end

end Exec

/-! ## Steps with loops -/

namespace Engine

open World Exec

variable (engine : Engine) (f : Frame) (mode : Mode)

def whileStep (condition : Expression) (body : List Step) : Loop Unit :=
  whileLoop (do return (← engine.evaluate f condition).truthy) (engine.runBlock f mode body)

def forStep (item : String) (body : List Step) : Loop (List Value) :=
  forLoop (write engine f item) (engine.runBlock f mode body)

/-- A body was started when the variable was `v` and ended in `w'`, where the variable is still `v`
unless the instance has come to write it on the way. -/
def Visited (item : String) (body : List Step) (v : Value) (w' : World) : Prop :=
  ∃ w, w.lookup? engine.symbols f item = some v ∧ (engine.runBlock f mode body w).2 = w' ∧
    (w'.lookup? engine.symbols f item = some v ∨ engine.Reassigns f mode item body w)

variable {engine f mode}

/-- A body that is started after a write. -/
theorem visited_of_write {item : String} {v : Value} {w₁ w₂ : World} (h : w₁.AtWork f)
    (hwrite : write engine f item v w₁ = (.ok (), w₂)) (body : List Step) :
    engine.Visited f mode item body v (engine.runBlock f mode body w₂).2 := by
  have hw₂ : w₂.AtWork f := h.does (.set hwrite)
  refine ⟨w₂, h.written hwrite .refl, rfl, ?_⟩
  by_cases hreassigns : engine.Reassigns f mode item body w₂
  · exact .inr hreassigns
  · have hdeeds := does_of_not_reassigns hreassigns (List.mem_map_of_mem hw₂.live) hw₂.coherent
    refine .inl (h.written hwrite (Relation.ReflTransGen.mono ?_ _ _ hdeeds))
    rintro a b ⟨name, hdoes, hne⟩
    exact .own hdoes hne

/-- By induction on the rounds before the last one. -/
theorem forStep_visited {item : String} {body : List Step} {k : Nat} : ∀ {p : Point (List Value)}
    {w' : World}, p.world.AtWork f → (engine.forStep f mode item body).Begins (k + 1) p w' →
      ∃ v, p.state[k]? = some v ∧ engine.Visited f mode item body v w' := by
  induction k with
  | zero =>
    -- the round that begins after this one finds the world as the body has left it
    intro p w' hp h
    cases h with
    | @later _ q _ _ hround hbegins =>
      obtain ⟨w₁, w₂, hmore, hvisit, hq, hworld⟩ := Loop.round_eq_next hround
      obtain ⟨v, rest, hstate, rfl⟩ := forLoop_more hmore
      cases hbegins with
      | now hmore' =>
        obtain ⟨-, -, -, rfl⟩ := forLoop_more hmore'
        rw [hstate] at hvisit ⊢
        rw [hworld]
        exact ⟨v, rfl, visited_of_write hp hvisit body⟩
  | succ k ih =>
    intro p w' hp h
    cases h with
    | @later _ q _ _ hround hbegins =>
      obtain ⟨w₁, w₂, hmore, hvisit, hq, hworld⟩ := Loop.round_eq_next hround
      obtain ⟨v, rest, hstate, rfl⟩ := forLoop_more hmore
      rw [hstate] at hvisit hq ⊢
      have hw₂ : w₂.AtWork f := hp.does (.set hvisit)
      have hqw : q.world.AtWork f := by
        rw [hworld]
        exact hw₂.deeds (hw₂.runBlock_deeds mode body)
      obtain ⟨v', hv', hvisited⟩ := ih hqw hbegins
      rw [hq] at hv'
      exact ⟨v', hv', hvisited⟩

theorem step_loop (p : Position) (condition : Expression) (body : List Step) :
    engine.step f mode p (.loop condition body) =
      (engine.whileStep f mode condition body).iterate engine.config.maxLoopIterations
        engine.config.maxLoopIterations () false := by
  simp only [step, execAction, ← runBlock_eq, repeatWhile_eq]
  rfl

theorem step_forEach (p : Position) (item : String) (collection : Expression) (body : List Step) :
    engine.step f mode p (.forEach item collection body) = (do
      let items ← ofFault (← engine.evaluate f collection).items
      (engine.forStep f mode item body).iterate engine.config.maxLoopIterations
        engine.config.maxLoopIterations items false) := by
  simp only [step, execAction, ← runBlock_eq, repeatFor_eq]
  rfl

/-- Ceilings of loops are exact. Where as many bodies as the ceiling allows were completed or
continued and another round begins, a step with a loop fails for its ceiling, in the world in which
that round begins. Where none does, it is the step without a ceiling, and no more bodies are started
than the ceiling allows. A loop over so many items never comes to such a round. One that does has
visited as many items, and the variable is the last of them unless the body has come to write it. -/
theorem loops_exact (engine : Engine) (f : Frame) (mode : Mode) (p : Position) (body : List Step)
    (w : World) :
    let L := engine.config.maxLoopIterations
    (Fault.loopExceeded L).error.code = .resourceExhaustion ∧
    (∀ condition, (engine.whileStep f mode condition body).Bounded L L ⟨(), false, w⟩
      (engine.step f mode p (.loop condition body) w)) ∧
    ∀ item collection,
      let r := engine.step f mode p (.forEach item collection body) w
      let l := engine.forStep f mode item body
      (∀ i w₁, engine.evaluate f collection w = (.error i, w₁) → r = (.error i, w₁)) ∧
      ∀ v w₁, engine.evaluate f collection w = (.ok v, w₁) →
        (∀ fault, v.items = .error fault → r = (.error (.failed fault.error), w₁)) ∧
        ∀ items, v.items = .ok items →
          l.Bounded L L ⟨items, false, w₁⟩ r ∧
          (items.length ≤ L → ¬ ∃ w', l.Begins L ⟨items, false, w₁⟩ w') ∧
          (w.AtWork f → 1 ≤ L → ∀ w', l.Begins L ⟨items, false, w₁⟩ w' →
            ∃ v, items[L - 1]? = some v ∧ engine.Visited f mode item body v w') := by
  intro L
  refine ⟨rfl, fun condition => ?_, fun item collection => ?_⟩
  · rw [step_loop]
    exact (engine.whileStep f mode condition body).iterate_bounded L L ⟨(), false, w⟩
  · intro r l
    refine ⟨fun i w₁ h => ?_, fun v w₁ h => ⟨fun fault hfault => ?_, fun items hitems => ?_⟩⟩
    · show engine.step f mode p (.forEach item collection body) w = _
      rw [step_forEach, bind_error h]
    · show engine.step f mode p (.forEach item collection body) w = _
      rw [step_forEach, bind_ok h, hfault]
      rfl
    · have hr : r = l.iterateAt L L ⟨items, false, w₁⟩ := by
        show engine.step f mode p (.forEach item collection body) w = _
        rw [step_forEach, bind_ok h, hitems]
        rfl
      rw [hr]
      refine ⟨l.iterate_bounded L L ⟨items, false, w₁⟩, ?_, fun hw hL w' hbegins => ?_⟩
      · rintro hlength ⟨w', hbegins⟩
        exact absurd (forLoop_begins hbegins) (Nat.not_lt.2 hlength)
      · have hw₁ : w₁.AtWork f := by
          have hkept := hw.of_undisturbed (hw.evaluate engine collection) not_false
          rw [h] at hkept
          exact hkept
        rw [← Nat.sub_add_cancel hL] at hbegins
        exact forStep_visited hw₁ hbegins

/-- Two bodies are continued, and the third item is not visited. The bodies come to no write, so the
variable is the second item. -/
theorem loops_exact_of_continued :
    let engine : Engine := { config := { maxLoopIterations := 2 } }
    let collection : Expression := .list [.bool true, .bool false, .literal .nil]
    let items : List Value := [.bool true, .bool false, .nil]
    let body : List Step := [.mk .unknown .continueLoop]
    let step := engine.step .root {} .unknown (.forEach "x" collection body) {}
    let rounds := engine.forStep .root {} "x" body
    (({} : World).AtWork .root ∧ engine.evaluate .root collection {} = (.ok (.list items), {}) ∧
      rounds.Begins 2 ⟨items, false, {}⟩ step.2 ∧
      ∀ w, ¬ engine.Reassigns .root {} "x" body w) ∧
    step.1 = .error (.failed (Fault.loopExceeded 2).error) ∧
      engine.Visited .root {} "x" body (.bool false) step.2 ∧
      step.2.lookup? engine.symbols .root "x" = some (.bool false) := by
  intro engine collection items body step rounds
  have hstart : engine.Ledger [] {} := .start
  have hwork : ({} : World).AtWork .root := hstart.atWork hstart.accounted.root_live
  have hevaluate : engine.evaluate .root collection {} = (.ok (.list items), {}) := rfl
  have hbegins : rounds.Begins 2 ⟨items, false, {}⟩ step.2 := .later rfl (.later rfl (.now rfl))
  have hsilent (w : World) : ¬ engine.Reassigns .root {} "x" body w := by
    rintro ⟨alarm, hheard⟩
    exact hheard rfl
  obtain ⟨-, -, hfor⟩ := loops_exact engine .root {} .unknown body {}
  obtain ⟨-, hitems⟩ := hfor "x" collection
  obtain ⟨hbounded, -, hvisited⟩ := (hitems _ _ hevaluate).2 items rfl
  obtain ⟨v, hv, hlast⟩ := hvisited hwork (by decide) _ hbegins
  cases hv
  have hfound : step.2.lookup? engine.symbols .root "x" = some (.bool false) := by
    obtain ⟨w, -, -, hfound | hheard⟩ := hlast
    · exact hfound
    · exact absurd hheard (hsilent w)
  exact ⟨⟨hwork, hevaluate, hbegins, hsilent⟩, congrArg Prod.fst (hbounded.exceeds _ hbegins),
    hlast, hfound⟩

end Engine
end StepScript
