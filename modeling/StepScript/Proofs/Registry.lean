import StepScript.Proofs.Clearing
import StepScript.Proofs.Installation
import StepScript.Proofs.Starting

/-!
# StepScript.Proofs.Registry

What the tables of the root hold.

* `Body.Flat`       — no handler stands among the steps of a body or of its handler, at any depth.
  `Body.ofSteps` accepts nothing else.
* `Root.WellFormed` — procedures are stored under their own names, named handlers have names that
  are neither taken nor the host's, and all bodies are flat. What is prepared is so far in order,
  and the checks against the tables see to the rest.
* `World.Managed`   — scripts leave the program alone, and what they start is taken from it.
* `World.Enrolled`  — a history, with the handlers that were registered in the course of it.
* `World.Enrolled.orderly`, `World.Reachable.enrolled` — every world has a history, well-formed
  tables, and the handlers in the order in which they were registered.
-/

namespace StepScript

/-! ## Flat bodies -/

/-- No handler in the steps and none in the handler. -/
structure Body.Flat (b : Body) : Prop where
  steps : Step.handlerIn b.steps = false
  handler (h : List Step) : b.handler = some h → Step.handlerIn h = false

def Yields {ε α : Type} (T : α → Prop) (x : Except ε α) : Prop := ∀ a, x = .ok a → T a

namespace Yields

variable {ε α β : Type} {S : α → Prop} {T : β → Prop}

theorem ok {a : α} (h : S a) : Yields S (.ok a : Except ε α) := by
  intro a' h'
  cases h'
  exact h

theorem error (e : ε) : Yields S (.error e : Except ε α) := by
  intro a h
  cases h

theorem bind {x : Except ε α} {k : α → Except ε β} (hx : Yields S x)
    (hk : ∀ a, S a → Yields T (k a)) : Yields T (x >>= k) := by
  intro b h
  cases x with
  | error _ => cases h
  | ok a => exact hk a (hx a rfl) b h

theorem mapError {ε' : Type} {x : Except ε α} (hx : Yields S x) (g : ε → ε') :
    Yields S (x.mapError g) := by
  cases x with
  | error e => exact error (g e)
  | ok a => exact ok (hx a rfl)

theorem mapM {f : α → Except ε β} (h : ∀ a, Yields T (f a)) (as : List α) :
    Yields (fun bs => ∀ b ∈ bs, T b) (as.mapM f) := by
  induction as with
  | nil =>
    rw [List.mapM_nil]
    exact ok nofun
  | cons a rest ih =>
    rw [List.mapM_cons]
    refine bind (h a) fun b hb => bind ih fun bs hbs => ok ?_
    exact List.forall_mem_cons.2 ⟨hb, hbs⟩

end Yields

namespace Body

mutual

theorem checkAction_flat : ∀ action, (∀ block, action ≠ .onError block) →
    Yields (fun _ => Action.hasHandler action = false) (checkAction action)
  | .branch _ thenBlock none, _ => by
    simp only [checkAction, Action.hasHandler]
    exact .bind (checkBlock_flat thenBlock) fun _ h => .ok h
  | .branch _ thenBlock (some elseBlock), _ => by
    have helse := checkBlock_flat elseBlock
    simp only [checkAction, Action.hasHandler, Bool.or_eq_false_iff]
    exact .bind (checkBlock_flat thenBlock) fun _ h => fun u hu => ⟨h, helse u hu⟩
  | .loop _ body, _ => by
    simp only [checkAction, Action.hasHandler]
    exact checkBlock_flat body
  | .forEach _ _ body, _ => by
    simp only [checkAction, Action.hasHandler]
    exact checkBlock_flat body
  | .onError body, h => absurd rfl (h body)
  | .set .., _ | .call _, _ | .ret _, _ | .emit _, _ | .whisper .., _ | .must _, _ | .mustBe .., _
  | .fail _, _ | .clearError, _ | .ask .., _ | .promptUser .., _ | .breakLoop, _
  | .continueLoop, _ | .expression _, _ => by
    simp only [checkAction, Action.hasHandler]
    exact .ok trivial

theorem checkBlock_flat : ∀ steps,
    Yields (fun _ => Step.handlerIn steps = false) (checkBlock steps)
  | [] => by
    simp only [checkBlock, Step.handlerIn]
    exact .ok trivial
  | .mk p action :: rest => by
    have hrest := checkBlock_flat rest
    have haction := checkAction_flat action
    simp only [checkBlock, Step.handlerIn, Bool.or_eq_false_iff]
    split
    · exact .bind (S := fun _ => False) (.error _) fun _ => False.elim
    · rename_i hnone
      exact .bind (haction hnone) fun _ h => fun u hu => ⟨h, hrest u hu⟩

end

theorem split_flat (steps : List Step) : ∀ found : Found,
    (∀ p block, found = some (p, block) → Step.handlerIn block = false) →
      Yields Flat (split found steps) := by
  induction steps with
  | nil =>
    intro found hfound
    refine .ok ⟨rfl, fun h hh => ?_⟩
    obtain ⟨⟨p, block⟩, hsome, rfl⟩ := Option.map_eq_some_iff.1 hh
    exact hfound p block hsome
  | cons step rest ih =>
    intro found hfound
    unfold split
    split
    · rename_i heq
      cases heq
    · rename_i p block rest' heq
      cases heq
      refine .bind (checkBlock_flat block) fun _ hblock => ?_
      split
      · exact .error _
      · refine ih _ fun p' block' hsome => ?_
        cases hsome
        exact hblock
    · rename_i hnone heq
      cases heq
      obtain ⟨p, action⟩ := step
      have hother : ∀ block, action ≠ .onError block := fun block h => hnone p block (by rw [h])
      refine .bind (checkAction_flat action hother) fun _ haction => ?_
      refine .bind (ih _ hfound) fun body hbody => .ok ⟨?_, hbody.handler⟩
      simp only [Step.handlerIn, Bool.or_eq_false_iff]
      exact ⟨haction, hbody.steps⟩

/-- Bodies that are ready to run are flat. -/
theorem ofSteps_flat (steps : List Step) : Yields Flat (ofSteps steps) :=
  split_flat steps none nofun

end Body

/-! ## Programs -/

/-- A handler whose name, if it has one, is not the host's, and whose body is flat. -/
structure EventHandler.Proper (symbols : Symbols) (h : EventHandler) : Prop where
  name (n : String) : h.handlerName = some n → n ∉ symbols.eventHandlers
  body : h.body.Flat

def handlerNames (handlers : List EventHandler) : List String := handlers.filterMap (·.handlerName)

theorem mem_handlerNames {handlers : List EventHandler} {n : String} :
    n ∈ handlerNames handlers ↔ ∃ h ∈ handlers, h.handlerName = some n :=
  List.mem_filterMap

theorem handlerNames_append (handlers more : List EventHandler) :
    handlerNames (handlers ++ more) = handlerNames handlers ++ handlerNames more :=
  List.filterMap_append

/-- What of a program can be in order before the tables are looked at. -/
structure Prepared.WellFormed (symbols : Symbols) (p : Prepared) : Prop where
  procedures (q : Procedure) : q ∈ p.procedures → q.name ∉ symbols.procedures ∧ q.body.Flat
  commands (c : Commands) : c ∈ p.commands → c.body.Flat
  handlers (h : EventHandler) : h ∈ p.handlers → h.Proper symbols
  names : (handlerNames p.handlers).Nodup

structure Root.WellFormed (symbols : Symbols) (r : Root) : Prop where
  procedures (name : String) (q : Procedure) : r.procedures.get? name = some q →
    q.name = name ∧ name ∉ symbols.procedures ∧ q.body.Flat
  commands (c : Commands) : c ∈ r.commands → c.body.Flat
  handlers (h : EventHandler) : h ∈ r.handlers → h.Proper symbols
  names : (handlerNames r.handlers).Nodup

theorem ProcedureDecl.prepare_yields (d : ProcedureDecl) :
    Yields (fun q => q.name = d.name ∧ q.body.Flat) d.prepare :=
  .bind (Body.ofSteps_flat d.body) fun _ h => .ok ⟨rfl, h⟩

theorem CommandBlock.prepare_yields (c : CommandBlock) : Yields (·.body.Flat) c.prepare :=
  .bind (Body.ofSteps_flat c.body) fun _ h => .ok h

theorem prepareProcedures_yields (reserved : List String) (ds : List ProcedureDecl) : ∀ seen,
    Yields (fun qs => ∀ q ∈ qs, q.name ∉ reserved ∧ q.body.Flat)
      (prepareProcedures reserved seen ds) := by
  induction ds with
  | nil => intro seen; exact .ok nofun
  | cons d rest ih =>
    intro seen
    simp only [prepareProcedures]
    split
    · exact .error _
    · rename_i hfree
      split
      · exact .error _
      · refine .bind d.prepare_yields fun q hq => .bind (ih _) fun qs hqs => .ok ?_
        exact List.forall_mem_cons.2 ⟨⟨hq.1 ▸ hfree, hq.2⟩, hqs⟩

namespace Exec

variable {α : Type} {T : α → Prop}

theorem Returns.ofExcept {x : Except RuntimeError α} (h : Yields T x) :
    Returns T (Exec.ofExcept x) := by
  cases x with
  | error e => exact .fail e
  | ok a => exact .pure (h a rfl)

end Exec

structure EventDecl.Declares (d : EventDecl) (h : EventHandler) : Prop where
  handlerName : h.handlerName = d.handlerName
  payloadVariable : h.payloadVariable = d.payloadVariable
  body : Body.ofSteps d.body = .ok h.body
  position : h.position = d.position

/-- As many handlers as were declared, and in that order. -/
def EventDecl.DeclareAll : List EventDecl → List EventHandler → Prop
  | [], hs => hs = []
  | d :: ds, hs => ∃ h rest, hs = h :: rest ∧ d.Declares h ∧ DeclareAll ds rest

namespace Engine

open Exec

variable (engine : Engine) (f : Frame)

theorem prepareHandler_returns (d : EventDecl) :
    Returns (fun h => h.Proper engine.symbols ∧ d.Declares h) (engine.prepareHandler f d) := by
  unfold prepareHandler
  refine .last fun v => ?_
  cases v with
  | string name =>
    have hbody (hname : ∀ n, d.handlerName = some n → n ∉ engine.symbols.eventHandlers) :
        Returns (fun h => h.Proper engine.symbols ∧ d.Declares h)
          (ofExcept (Body.ofSteps d.body) >>= fun body =>
            Pure.pure (EventHandler.mk name d.handlerName d.payloadVariable body d.position)) := by
      have hsteps : Yields (fun body => Body.ofSteps d.body = .ok body ∧ body.Flat)
          (Body.ofSteps d.body) :=
        fun body h => ⟨h, Body.ofSteps_flat d.body body h⟩
      refine .bind (.ofExcept hsteps) fun body h => .pure ?_
      exact ⟨⟨hname, h.2⟩, ⟨rfl, rfl, h.1, rfl⟩⟩
    cases hname : d.handlerName with
    | none =>
      simp only [hname] at hbody ⊢
      exact hbody nofun
    | some handler =>
      simp only [hname] at hbody ⊢
      split
      · exact .bind (S := fun _ => False) (.fail _) fun _ => False.elim
      · rename_i hfree
        refine hbody fun n hn => ?_
        cases hn
        exact hfree
  | nil | number _ | bool _ | list _ | map _ | handle _ _ => exact .fail _

/-- Handlers are prepared in the order of their declaration, and their names are new. -/
theorem prepareHandlers_returns (ds : List EventDecl) : ∀ seen,
    Returns (fun hs => ((∀ h ∈ hs, h.Proper engine.symbols) ∧ (handlerNames hs).Nodup ∧
      ∀ n ∈ handlerNames hs, n ∉ seen) ∧ EventDecl.DeclareAll ds hs)
      (engine.prepareHandlers f seen ds) := by
  induction ds with
  | nil =>
    intro seen
    exact .pure ⟨⟨nofun, List.nodup_nil, nofun⟩, rfl⟩
  | cons d rest ih =>
    intro seen
    simp only [prepareHandlers]
    refine .bind (engine.prepareHandler_returns f d) fun h hh => ?_
    obtain ⟨hproper, hdeclares⟩ := hh
    cases hname : h.handlerName with
    | none =>
      refine .bind (ih seen) fun hs hhs => .pure ?_
      obtain ⟨⟨hall, hnodup, hnew⟩, hdecls⟩ := hhs
      have hnames : handlerNames (h :: hs) = handlerNames hs := List.filterMap_cons_none hname
      refine ⟨⟨List.forall_mem_cons.2 ⟨hproper, hall⟩, ?_⟩, h, hs, rfl, hdeclares, hdecls⟩
      rw [hnames]
      exact ⟨hnodup, hnew⟩
    | some name =>
      dsimp only
      split
      · exact .fail _
      · rename_i hfree
        refine .bind (ih (name :: seen)) fun hs hhs => .pure ?_
        obtain ⟨⟨hall, hnodup, hnew⟩, hdecls⟩ := hhs
        have hnames : handlerNames (h :: hs) = name :: handlerNames hs :=
          List.filterMap_cons_some hname
        refine ⟨⟨List.forall_mem_cons.2 ⟨hproper, hall⟩, ?_⟩, h, hs, rfl, hdeclares, hdecls⟩
        rw [hnames]
        refine ⟨List.nodup_cons.2 ⟨fun hmem => hnew name hmem List.mem_cons_self, hnodup⟩, ?_⟩
        refine List.forall_mem_cons.2 ⟨hfree, fun n hn hseen => ?_⟩
        exact hnew n hn (List.mem_cons_of_mem _ hseen)

theorem prepare_returns (p : Program) :
    Returns (fun prepared => prepared.WellFormed engine.symbols ∧
      EventDecl.DeclareAll p.events prepared.handlers) (engine.prepare f p) := by
  unfold prepare
  refine .bind (.ofExcept (prepareProcedures_yields _ _ _)) fun qs hqs => ?_
  refine .bind (.ofExcept (.mapM CommandBlock.prepare_yields _)) fun cs hcs => ?_
  refine .bind (engine.prepareHandlers_returns f p.events []) fun hs hhs => .pure ?_
  obtain ⟨⟨hall, hnodup, -⟩, hdecls⟩ := hhs
  exact ⟨⟨hqs, hcs, hall, hnodup⟩, hdecls⟩

end Engine

namespace Root

variable {symbols : Symbols} {r r' : Root} {p : Prepared}

theorem wellFormed_start : ({} : Root).WellFormed symbols where
  procedures _ _ h := by cases h
  commands := nofun
  handlers := nofun
  names := List.nodup_nil

/-- The later of two procedures of one name is stored, and each under its own. -/
theorem get?_insertProcedures {T : String → Procedure → Prop} (qs : List Procedure) :
    ∀ t : Table Procedure, (∀ name q, t.get? name = some q → T name q) →
      (∀ q ∈ qs, T q.name q) →
      ∀ name q, (qs.foldl (fun t q => t.insert q.name q) t).get? name = some q → T name q := by
  induction qs with
  | nil => intro t ht _; exact ht
  | cons q rest ih =>
    intro t ht hqs
    obtain ⟨hq, hrest⟩ := List.forall_mem_cons.1 hqs
    refine ih _ (fun name q' h => ?_) hrest
    rw [Table.get?_insert] at h
    split at h
    · rename_i heq
      cases h
      exact heq ▸ hq
    · exact ht name q' h

theorem addProcedures_yields (redefine : Bool) (qs : List Procedure) :
    Yields (fun r' => r' = r.insertProcedures qs) (r.addProcedures redefine qs) := by
  cases redefine with
  | true => exact .ok rfl
  | false =>
    have hnew : Yields (fun _ => True) (r.checkNew qs) := fun _ _ => trivial
    exact .bind hnew fun _ _ => .ok rfl

theorem checkAvailable_yields (hs : List EventHandler) :
    Yields (fun _ => ∀ n ∈ handlerNames hs, n ∉ handlerNames r.handlers) (r.checkAvailable hs) := by
  induction hs with
  | nil => exact .ok nofun
  | cons h rest ih =>
    cases hname : h.handlerName with
    | none =>
      have hnames : handlerNames (h :: rest) = handlerNames rest := List.filterMap_cons_none hname
      simp only [checkAvailable, hname, hnames]
      exact ih
    | some name =>
      have hnames : handlerNames (h :: rest) = name :: handlerNames rest :=
        List.filterMap_cons_some hname
      simp only [checkAvailable, hname, hnames]
      split
      · exact .error _
      · rename_i htaken
        intro u hu
        refine List.forall_mem_cons.2 ⟨fun hmem => htaken ?_, ih u hu⟩
        obtain ⟨h', hh', hn⟩ := mem_handlerNames.1 hmem
        exact List.any_eq_true.2 ⟨h', hh', decide_eq_true hn⟩

namespace WellFormed

variable (h : r.WellFormed symbols) (hp : p.WellFormed symbols)

include hp

theorem load : (r.load p).WellFormed symbols where
  procedures := by
    refine get?_insertProcedures p.procedures {} (fun _ _ h => by cases h) fun q hq => ?_
    obtain ⟨hname, hflat⟩ := hp.procedures q hq
    exact ⟨rfl, hname, hflat⟩
  commands := hp.commands
  handlers := hp.handlers
  names := hp.names

include h

theorem insertProcedures : (r.insertProcedures p.procedures).WellFormed symbols where
  procedures := by
    refine get?_insertProcedures p.procedures _ h.procedures fun q hq => ?_
    obtain ⟨hname, hflat⟩ := hp.procedures q hq
    exact ⟨rfl, hname, hflat⟩
  commands := h.commands
  handlers := h.handlers
  names := h.names

theorem addCommands : ({ r with commands := r.commands ++ p.commands }).WellFormed symbols where
  procedures := h.procedures
  commands c hc := (List.mem_append.1 hc).elim (h.commands c) (hp.commands c)
  handlers := h.handlers
  names := h.names

/-- Names that are new among themselves and new to the table are new. -/
theorem addHandlers (hnew : ∀ n ∈ handlerNames p.handlers, n ∉ handlerNames r.handlers) :
    (r.addHandlers p.handlers).WellFormed symbols where
  procedures := h.procedures
  commands := h.commands
  handlers h' hh' := (List.mem_append.1 hh').elim (h.handlers h') (hp.handlers h')
  names := by
    show (handlerNames (r.handlers ++ p.handlers)).Nodup
    rw [handlerNames_append]
    refine List.nodup_append.2 ⟨h.names, hp.names, ?_⟩
    rintro n hn n' hn' rfl
    exact hnew n hn' hn

end WellFormed

end Root

namespace Installation

open Exec

variable {engine : Engine} {f : Frame}

def events : Installation → List EventDecl
  | .load p => p.events
  | .append p => p.events
  | .register d => [d]

/-- The handlers after some were registered: a program that is loaded begins anew. -/
def enroll (before new : List EventHandler) : Installation → List EventHandler
  | .load _ => new
  | .append _ => before ++ new
  | .register _ => before ++ new

/-- What an installation has ready is in order, and it is what was declared. -/
theorem prepare_returns (engine : Engine) (f : Frame) (i : Installation) :
    Returns (fun p => p.WellFormed engine.symbols ∧ EventDecl.DeclareAll i.events p.handlers)
      (i.prepare engine f) := by
  cases i with
  | load p => exact .last fun _ => engine.prepare_returns f p
  | append p => exact .last fun _ => engine.prepare_returns f p
  | register d =>
    refine .bind (engine.prepareHandler_returns f d) fun h hh => .pure ?_
    obtain ⟨hproper, hdeclares⟩ := hh
    refine ⟨⟨nofun, nofun, ?_, ?_⟩, h, [], rfl, hdeclares, rfl⟩
    · intro h' hh'
      cases List.mem_singleton.1 hh'
      exact hproper
    · show (handlerNames [h]).Nodup
      cases hname : h.handlerName with
      | none => simp [handlerNames, hname]
      | some name => simp [handlerNames, hname]

/-- The tables take what is in order if they take it at all, and list it after what they have. -/
theorem commit_yields (i : Installation) {r : Root} {p : Prepared}
    (hp : p.WellFormed engine.symbols) :
    Yields (fun r' => (r.WellFormed engine.symbols → r'.WellFormed engine.symbols) ∧
      r'.handlers = i.enroll r.handlers p.handlers) (i.commit engine r p) := by
  cases i with
  | load _ => exact .ok ⟨fun _ => .load hp, rfl⟩
  | append _ =>
    refine .bind (r.checkAvailable_yields p.handlers) fun _ hnew => ?_
    refine .bind (r.addProcedures_yields _ p.procedures) fun r' hr' => .ok ?_
    subst hr'
    exact ⟨fun hr => ((hr.insertProcedures hp).addCommands hp).addHandlers hp hnew, rfl⟩
  | register _ =>
    refine .bind (r.checkAvailable_yields p.handlers) fun _ hnew => .ok ?_
    exact ⟨fun hr => hr.addHandlers hp hnew, rfl⟩

end Installation

/-! ## Scripts leave the program alone -/

/-- A handler that waits has the instance that its body asks for. -/
def Pending.Seats (p : Pending) : Prop := p.frame.handler = p.handler.body.handler

namespace World

/-- The same program; and what waits has waited before or is one of its handlers. -/
structure Managed (w w' : World) : Prop where
  procedures : w'.root.procedures = w.root.procedures
  commands : w'.root.commands = w.root.commands
  handlers : w'.root.handlers = w.root.handlers
  pending (p : Pending) : p ∈ w'.pending → p ∈ w.pending ∨ (p.handler ∈ w.root.handlers ∧ p.Seats)

namespace Managed

variable {w w' w'' : World}

theorem refl (w : World) : Managed w w := ⟨rfl, rfl, rfl, fun _ => .inl⟩

theorem of_same (hprocedures : w'.root.procedures = w.root.procedures)
    (hcommands : w'.root.commands = w.root.commands)
    (hhandlers : w'.root.handlers = w.root.handlers) (hpending : w'.pending = w.pending) :
    Managed w w' :=
  ⟨hprocedures, hcommands, hhandlers, fun _ hp => .inl (hpending ▸ hp)⟩

theorem trans (h : Managed w w') (h' : Managed w' w'') : Managed w w'' where
  procedures := h'.procedures.trans h.procedures
  commands := h'.commands.trans h.commands
  handlers := h'.handlers.trans h.handlers
  pending p hp := by
    rcases h'.pending p hp with hp' | ⟨hhandler, hseats⟩
    · exact h.pending p hp'
    · exact .inr ⟨h.handlers ▸ hhandler, hseats⟩

end Managed

end World

namespace Exec

open World

variable {engine : Engine} {f : Frame} {α : Type}

abbrev Manages : ∀ α : Type, (Unit → Exec α) → Prop := Keeps Managed

theorem Manages.closed : Closed (fun _ => True) Manages :=
  Keeps.closed .trans fun _ => .refl _

theorem Manages.of_root {X : Unit → Exec α} (hroot : ∀ w, (X () w).2.root = w.root)
    (hpending : ∀ w, (X () w).2.pending = w.pending) : Manages α X := by
  intro w _
  refine .of_same ?_ ?_ ?_ (hpending w) <;> rw [hroot w]

theorem note_manages (e : Effect) : Manages Unit fun _ => note e :=
  .of_root (fun _ => rfl) fun _ => rfl

theorem write_manages (name : String) (v : Value) :
    Manages Unit fun _ => write engine f name v := by
  intro w _
  rcases write_world engine f name v w with h | ⟨-, h⟩ | h <;> rw [h] <;>
    exact .of_same rfl rfl rfl rfl

theorem start_managed (name source : String) (event : Value) {h : EventHandler} {w : World}
    (hh : h ∈ w.root.handlers) : Managed w (start engine f name source event h w).2 := by
  rcases start_world engine f name source event h w with ⟨-, hstart⟩ | ⟨trace, hstart⟩
  · rw [hstart]
    refine ⟨rfl, rfl, rfl, fun p hp => ?_⟩
    rcases List.mem_append.1 hp with hp | hp
    · exact .inl hp
    · cases List.mem_singleton.1 hp
      exact .inr ⟨hh, rfl⟩
  · rw [hstart]
    exact .of_same rfl rfl rfl rfl

/-- Only handlers of the program are started. -/
theorem raise_manages (name source : String) (payload : Value) :
    Manages Nat fun _ => raise engine f name source payload := by
  intro w _
  show Managed w (raise engine f name source payload w).2
  cases hwired : wired engine f with
  | true =>
    -- starting a handler does not change which handlers there are
    have hP : Closed (fun _ => True) (Keeps fun v v' =>
        (∀ h ∈ w.root.handlersOf name, h ∈ v.root.handlers) → Managed v v') :=
      Keeps.closed
        (fun h h' hv => (h hv).trans (h' fun x hx => (h hv).handlers ▸ hv x hx))
        fun _ _ => .refl _
    rw [raise_of_wired hwired]
    refine startAll_closed (f := fun _ => f) hP.toSequenced (w.root.handlersOf name)
      (fun h hh v _ hv => start_managed name source _ (hv h hh)) w (fun _ => .refl w) fun h hh => ?_
    exact (List.mem_filter.1 hh).1
  | false =>
    simp only [raise, bind_apply, get_apply, hwired]
    cases w.root.handlersOf name with
    | nil => exact .refl w
    | cons h rest => exact .refl w

theorem managed_habit : Habit (fun _ => True) Managed engine where
  trans := .trans
  target _ := .refl _
  instances _ _ := .of_same rfl rfl rfl rfl
  procedure _ _ _ _ := trivial
  write name v _ := write_manages name v
  invoke name args _ := invoke_closed Manages.closed raise_manages (fun _ _ => note_manages _)
    (fun _ => note_manages _) name args
  emit _ _ := note_manages _
  whisper _ _ := note_manages _
  promptUser := promptUser_closed Manages.closed engine (fun _ => note_manages _)
    (fun _ => Manages.of_root (fun _ => rfl) fun _ => rfl) fun _ _ _ _ _ _ => trivial
  recover _ _ := note_manages _
  clear _ := note_manages _
  chat _ _ _ := Manages.of_root (fun _ => rfl) fun _ => rfl
  act _ henter := act_closed Manages.closed (fun a => henter a fun _ => trivial)
    fun _ => Manages.of_root (fun _ => rfl) fun _ => rfl
  openConversation := Manages.of_root (fun _ => rfl) fun _ => rfl

end Exec

namespace Engine

open World Exec

variable (engine : Engine)

theorem runPending_managed (p : Pending) (w : World) : Managed w (engine.runPending p w) := by
  have hreset : Managed w { w with trace := #[] } := .of_same rfl rfl rfl rfl
  rw [runPending_eq]
  exact (hreset.trans (managed_habit.handlerBody trivial _ (.refl _))).trans
    (.of_same rfl rfl rfl rfl)

theorem settle_managed (w : World) : Managed w (engine.settle w).2 :=
  engine.settle_keeps .refl .trans (fun _ => ⟨rfl, rfl, rfl, nofun⟩) engine.runPending_managed w

theorem Tends.managed {engine : Engine} {inside : InstanceId → Prop} {w w' : World}
    (h : engine.Tends inside w w') : Managed w w' := by
  cases h with
  | @handle p before after hpending =>
    have hrest : Managed w { w with pending := before ++ after } :=
      ⟨rfl, rfl, rfl, fun q hq =>
        .inl ((World.perm_pending hpending).mem_iff.1 (List.mem_cons_of_mem _ hq))⟩
    exact hrest.trans (engine.runPending_managed p _)
  | settle => exact engine.settle_managed w
  | administer => exact .of_same rfl rfl rfl rfl
  | record => exact .of_same rfl rfl rfl rfl

end Engine

def HostRequest.installation? : {α : Type} → HostRequest α → Option Installation
  | _, .load p => some (.load p)
  | _, .append p => some (.append p)
  | _, .registerEvent d => some (.register d)
  | _, _ => none

section Requests

open World Exec

variable {engine : Engine} {f : Frame} {α : Type} {w : World}

theorem HostRequest.exec_installation {r : HostRequest α} {i : Installation}
    (hr : r.installation? = some i) : (r.exec engine f w).2 = (i.exec engine f w).2 := by
  cases r with
  | load p => cases hr; rfl
  | append p => cases hr; rfl
  | registerEvent d => cases hr; rfl
  | operate | block | set | setGlobal | setConstant | fork => cases hr

theorem HostRequest.exec_managed (r : HostRequest α) (hr : r.installation? = none) :
    Manages α fun _ => r.exec engine f := by
  cases r with
  | operate op => exact managed_habit.operation trivial op fun _ => raise_manages
  | block mode steps => exact managed_habit.runBlock trivial mode steps
  | set name v => exact write_manages name v
  | setGlobal name v =>
    intro w _
    show Managed w (change (·.defineGlobal engine.symbols f name v) w).2
    rcases defineGlobal_world engine.symbols f name v w with h | h <;> rw [h]
    · exact .refl w
    · exact .of_same rfl rfl rfl rfl
  | setConstant name v =>
    intro w _
    show Managed w (change (·.defineConstant f name v) w).2
    obtain ⟨constants, h⟩ := defineConstant_world f name v w
    rw [h]
    exact .of_same rfl rfl rfl rfl
  | fork label handler =>
    exact fork_closed Manages.closed engine f (.of_root (fun _ => rfl) fun _ => rfl)
  | load | append | registerEvent => cases hr

theorem Installation.prepare_managed (engine : Engine) (f : Frame) (i : Installation) :
    Manages Prepared fun _ => i.prepare engine f :=
  i.prepare_closed Manages.closed.toSequenced fun e =>
    managed_habit.operation trivial (.evaluate e) fun _ => raise_manages

/-- An installation that fails leaves the program as it was; one that succeeds has prepared what is
in order, and the tables have taken it. -/
theorem Installation.exec_managed (engine : Engine) (f : Frame) (i : Installation) (w : World) :
    ((i.exec engine f w).1 ≠ .ok () ∧ Managed w (i.exec engine f w).2) ∨
    ∃ p w₀ root, i.prepare engine f w = (.ok p, w₀) ∧ p.WellFormed engine.symbols ∧
      Managed w w₀ ∧ i.commit engine w₀.root p = .ok root ∧
      i.exec engine f w = (.ok (), { w₀ with root := root }) := by
  have hprepare : Managed w (i.prepare engine f w).2 := i.prepare_managed engine f w (.refl w)
  rcases exec_cases engine f i w with ⟨e, w₀, hp, hexec⟩ | ⟨p, w₀, e, hp, -, hexec⟩ |
    ⟨p, w₀, root, hp, hc, hexec⟩
  · rw [hp] at hprepare
    rw [hexec]
    exact .inl ⟨nofun, hprepare⟩
  · rw [hp] at hprepare
    rw [hexec]
    exact .inl ⟨nofun, hprepare⟩
  · rw [hp] at hprepare
    exact .inr ⟨p, w₀, root, hp, (prepare_returns engine f i w p w₀ hp).1, hprepare, hc, hexec⟩

end Requests

/-! ## Histories -/

namespace World

/-- What waits fits the program that it was taken from. -/
structure Orderly (engine : Engine) (w : World) : Prop where
  root : w.root.WellFormed engine.symbols
  pending (p : Pending) : p ∈ w.pending → p.handler.body.Flat ∧ p.Seats

theorem Managed.orderly {engine : Engine} {w w' : World} (h : Managed w w')
    (hw : w.Orderly engine) : w'.Orderly engine where
  root :=
    { procedures := h.procedures ▸ hw.root.procedures
      commands := h.commands ▸ hw.root.commands
      handlers := h.handlers ▸ hw.root.handlers
      names := h.handlers ▸ hw.root.names }
  pending p hp := by
    rcases h.pending p hp with hp | ⟨hhandler, hseats⟩
    · exact hw.pending p hp
    · exact ⟨(hw.root.handlers p.handler hhandler).body, hseats⟩

/-- A world with the handlers that were registered since a program was loaded, in the order of their
registration. -/
inductive Enrolled (engine : Engine) : List EventHandler → World → Prop where
  | start : Enrolled engine [] {}
  | install {hs : List EventHandler} {w w₀ w' : World} {f : Frame} {p : Prepared}
      (i : Installation) : Enrolled engine hs w → f ∈ w.frames →
      i.prepare engine f w = (.ok p, w₀) → i.exec engine f w = (.ok (), w') →
      Enrolled engine (i.enroll hs p.handlers) w'
  | refuse {hs : List EventHandler} {w : World} {f : Frame} (i : Installation) :
      Enrolled engine hs w → f ∈ w.frames → (i.exec engine f w).1 ≠ .ok () →
      Enrolled engine hs (i.exec engine f w).2
  | ask {hs : List EventHandler} {w : World} {f : Frame} {α : Type} (r : HostRequest α) :
      Enrolled engine hs w → f ∈ w.frames → r.installation? = none →
      Enrolled engine hs (r.exec engine f w).2
  | tend {hs : List EventHandler} {w w' : World} : Enrolled engine hs w →
      engine.Tends (fun _ => True) w w' → Enrolled engine hs w'
  | drop {hs : List EventHandler} {w : World} {id : InstanceId} : Enrolled engine hs w →
      id ≠ Frame.root.id → (∀ p ∈ w.pending, p.frame.id ≠ id) → Enrolled engine hs (w.release id)

variable {engine : Engine} {w w' : World} {hs : List EventHandler}

/-- The tables are in order, and they list the handlers in the order of their registration. -/
theorem Enrolled.orderly (h : Enrolled engine hs w) : w.Orderly engine ∧ w.root.handlers = hs := by
  induction h with
  | start => exact ⟨⟨Root.wellFormed_start, nofun⟩, rfl⟩
  | install i _ _ hp hexec ih =>
    rcases i.exec_managed engine _ _ with ⟨hfailed, -⟩ | ⟨p, w₀, root, hp', hwf, hw₀, hc, hexec'⟩
    · exact absurd (congrArg Prod.fst hexec) hfailed
    · cases hp.symm.trans hp'
      cases hexec.symm.trans hexec'
      have horderly := hw₀.orderly ih.1
      obtain ⟨hroot, hhandlers⟩ := i.commit_yields hwf root hc
      rw [hw₀.handlers, ih.2] at hhandlers
      exact ⟨⟨hroot horderly.root, horderly.pending⟩, hhandlers⟩
  | refuse i _ _ hfailed ih =>
    rcases i.exec_managed engine _ _ with ⟨-, hw⟩ | ⟨p, w₀, root, -, -, -, -, hexec⟩
    · exact ⟨hw.orderly ih.1, hw.handlers.trans ih.2⟩
    · exact absurd (congrArg Prod.fst hexec) hfailed
  | @ask hs w f α r _ _ hr ih =>
    have hw : Managed w (r.exec engine f w).2 := r.exec_managed hr w (.refl w)
    exact ⟨hw.orderly ih.1, hw.handlers.trans ih.2⟩
  | tend _ htends ih => exact ⟨htends.managed.orderly ih.1, htends.managed.handlers.trans ih.2⟩
  | @drop hs w id _ _ _ ih =>
    have hw : Managed w (w.release id) := .of_same rfl rfl rfl rfl
    exact ⟨hw.orderly ih.1, hw.handlers.trans ih.2⟩

/-- Every world has such a history. -/
theorem Reachable.enrolled (h : w.Reachable engine) : ∃ hs, Enrolled engine hs w := by
  induction h with
  | start => exact ⟨[], .start⟩
  | @ask w f α r _ hf ih =>
    obtain ⟨hs, hw⟩ := ih
    cases hr : r.installation? with
    | none => exact ⟨hs, .ask r hw hf hr⟩
    | some i =>
      rw [r.exec_installation hr]
      rcases i.exec_managed engine f w with ⟨hfailed, -⟩ | ⟨p, w₀, root, hp, -, -, -, hexec⟩
      · exact ⟨hs, .refuse i hw hf hfailed⟩
      · rw [hexec]
        exact ⟨_, .install i hw hf hp hexec⟩
  | tend _ htends ih =>
    obtain ⟨hs, hw⟩ := ih
    exact ⟨hs, hw.tend htends⟩
  | drop _ hid hp ih =>
    obtain ⟨hs, hw⟩ := ih
    exact ⟨hs, hw.drop hid hp⟩

end World

end StepScript
