import StepScript.Proofs.Grants
import StepScript.Proofs.Habit
import StepScript.Proofs.Reachable

/-!
# StepScript.Proofs.Confinement

Tools are entered only with the consent of the policy.

* `Engine.Admits`  — in a trace, every entry of a tool stands right behind the consent to each
  capability that the tool requires.
* `Exec.invoke_cases` — the policy is asked for one capability after the other, up to the first that
  it refuses; a tool is entered, or it is denied and nothing else happens.
* `Exec.confined_habit`, `Engine.runPending_admits` — so it is in whatever an instance or a handler
  does.
* `Exec.samePending_habit` — with nothing but the built-in tools, scripts start handlers only if they
  may raise events.
* `HostCall.perform_confined` — what follows for a call of the host and all handlers that come of it.
-/

namespace StepScript

namespace Gate

theorem grants_check_ne_ok {grants : List Capability} {c : Capability}
    (h : ∀ g ∈ grants, g.covers c = false) : (Gate.grants grants).check c ≠ .ok () := by
  rw [ne_eq, grants_check_eq_ok_iff]
  rintro ⟨g, hg, hcovers⟩
  rw [h g hg] at hcovers
  cases hcovers

end Gate

/-! ## Traces in which tools are entered with consent -/

namespace Engine

/-- Every entry of a tool stands right behind the policy's consent to all that the tool requires. -/
def Admits (engine : Engine) (trace : List Effect) : Prop :=
  ∀ before name after, trace = before ++ .enter name :: after →
    ∃ tool earlier, engine.tools.get? name = some tool ∧
      before = earlier ++ tool.requires.map (.consult · true) ∧
      ∀ c ∈ tool.requires, engine.gate.check c = .ok ()

namespace Admits

variable {engine : Engine} {xs ys : List Effect}

theorem of_no_entry (h : ∀ name, Effect.enter name ∉ xs) : engine.Admits xs := by
  rintro before name after rfl
  exact absurd (by simp) (h name)

theorem append (hx : engine.Admits xs) (hy : engine.Admits ys) : engine.Admits (xs ++ ys) := by
  intro before name after h
  rcases List.append_eq_append_iff.1 h with ⟨as, rfl, hys⟩ | ⟨bs, rfl, hafter⟩
  · obtain ⟨tool, earlier, htool, rfl, hconsent⟩ := hy as name after hys
    exact ⟨tool, xs ++ earlier, htool, (List.append_assoc ..).symm, hconsent⟩
  · cases bs with
    | nil =>
      obtain ⟨tool, earlier, htool, hbefore, hconsent⟩ := hy [] name after hafter.symm
      refine ⟨tool, before ++ earlier, htool, ?_, hconsent⟩
      rw [List.append_assoc, ← hbefore, List.append_nil]
    | cons b bs =>
      obtain ⟨rfl, -⟩ := List.cons_eq_cons.1 hafter
      exact hx before name bs rfl

/-- Asking first and entering then. -/
theorem of_consent {name : String} {tool : Tool} (htool : engine.tools.get? name = some tool)
    (hconsent : ∀ c ∈ tool.requires, engine.gate.check c = .ok ()) :
    engine.Admits (tool.requires.map (.consult · true) ++ [.enter name]) := by
  intro before name' after h
  rcases List.append_eq_append_iff.1 h with ⟨as, rfl, hlast⟩ | ⟨bs, hasked, hlast⟩
  · cases as with
    | nil =>
      obtain ⟨hname, -⟩ := List.cons_eq_cons.1 hlast
      cases hname
      exact ⟨tool, [], htool, by simp, hconsent⟩
    | cons a as => simp at hlast
  · cases bs with
    | nil =>
      obtain ⟨hname, -⟩ := List.cons_eq_cons.1 hlast
      cases hname
      exact ⟨tool, [], htool, by simpa using hasked.symm, hconsent⟩
    | cons b bs =>
      -- no consent is an entry
      obtain ⟨rfl, -⟩ := List.cons_eq_cons.1 hlast
      have hmem : Effect.enter name' ∈ tool.requires.map (Effect.consult · true) := by
        rw [hasked]
        simp
      simp at hmem

theorem covered (h : engine.Admits xs) {name : String} (hname : .enter name ∈ xs) :
    ∃ tool, engine.tools.get? name = some tool ∧
      ∀ c ∈ tool.requires, engine.gate.check c = .ok () := by
  obtain ⟨before, after, rfl⟩ := List.append_of_mem hname
  obtain ⟨tool, -, htool, -, hconsent⟩ := h before name after rfl
  exact ⟨tool, htool, hconsent⟩

/-- With a list of grants, consent comes from one of them. -/
theorem granted {grants : List Capability} (h : engine.Admits xs)
    (hgate : engine.gate = Gate.policy (.grants grants)) {name : String}
    (hname : .enter name ∈ xs) :
    ∃ tool, engine.tools.get? name = some tool ∧
      ∀ c ∈ tool.requires, ∃ g ∈ grants, g.covers c = true := by
  obtain ⟨tool, htool, hconsent⟩ := h.covered hname
  rw [hgate] at hconsent
  exact ⟨tool, htool, fun c hc => Gate.grants_check_eq_ok_iff.1 (hconsent c hc)⟩

end Admits
end Engine

/-- What was done meanwhile was done with consent. -/
def World.Confined (engine : Engine) (w w' : World) : Prop :=
  ∃ new, w'.trace.toList = w.trace.toList ++ new ∧ engine.Admits new

namespace World.Confined

variable {engine : Engine} {w w' w'' : World}

theorem of_trace (h : w'.trace = w.trace) : Confined engine w w' :=
  ⟨[], by simp [h], .of_no_entry (by simp)⟩

theorem trans (h : Confined engine w w') (h' : Confined engine w' w'') :
    Confined engine w w'' := by
  obtain ⟨new, hnew, hadmits⟩ := h
  obtain ⟨new', hnew', hadmits'⟩ := h'
  exact ⟨new ++ new', by rw [hnew', hnew, List.append_assoc], hadmits.append hadmits'⟩

theorem admits (h : Confined engine { w with trace := #[] } w') : engine.Admits w'.trace.toList := by
  obtain ⟨new, hnew, hadmits⟩ := h
  rw [hnew]
  exact hadmits

end World.Confined

namespace Exec

open World

variable {engine : Engine} {enter : Enter} {f : Frame} {α : Type}

/-! ## Asking the policy -/

/-- The policy is asked for everything that is wanted and consents, or it is asked up to the first
capability that it refuses, which is the reason of the failure. Nothing else happens. -/
theorem consultAll_cases (engine : Engine) (tool : String) (wanted : List Capability) :
    ∀ w, ((∀ c ∈ wanted, engine.gate.check c = .ok ()) ∧ consultAll engine tool wanted w =
      (.ok (), { w with trace := w.trace ++ wanted.map (Effect.consult · true) })) ∨
    ∃ granted c rest denied, wanted = granted ++ c :: rest ∧
      engine.gate.check c = .error denied ∧ consultAll engine tool wanted w =
        (.error (.failed ((Fault.toolDenied tool c.text).error.withCause denied.message)),
          { w with trace :=
              w.trace ++ (granted.map (Effect.consult · true) ++ [.consult c false]) }) := by
  induction wanted with
  | nil =>
    intro w
    exact .inl ⟨by simp, by simp [consultAll]⟩
  | cons c rest ih =>
    intro w
    cases hc : engine.gate.check c with
    | error denied =>
      refine .inr ⟨[], c, rest, denied, rfl, hc, ?_⟩
      simp [consultAll, hc, bind_apply]
    | ok _ =>
      have hnext : consultAll engine tool (c :: rest) w =
          consultAll engine tool rest { w with trace := w.trace.push (.consult c true) } := by
        simp only [consultAll, hc]
        exact bind_ok (note_apply _ w)
      rcases ih { w with trace := w.trace.push (.consult c true) } with
        ⟨hrest, hasked⟩ | ⟨granted, c', rest', denied, rfl, hdenied, hasked⟩
      · refine .inl ⟨List.forall_mem_cons.2 ⟨hc, hrest⟩, ?_⟩
        rw [hnext, hasked]
        simp
      · refine .inr ⟨c :: granted, c', rest', denied, rfl, hdenied, ?_⟩
        rw [hnext, hasked]
        simp

def runTool (engine : Engine) (f : Frame) (args : List Value) : ToolAction → Exec Value
  | .builtin b => runBuiltin engine f b args
  | .host run => ofInterrupt (run f.caller args)

theorem invoke_eq {name : String} {tool : Tool} (htool : engine.tools.get? name = some tool)
    (args : List Value) : invoke engine f name args =
      consultAll engine name tool.requires >>= fun _ =>
        note (.enter name) >>= fun _ => runTool engine f args tool.action := by
  simp only [invoke, htool]
  cases tool.action <;> rfl

/-- A tool is entered with the consent to all that it requires, or it is denied. -/
theorem invoke_cases (f : Frame) {name : String} {tool : Tool}
    (htool : engine.tools.get? name = some tool) (args : List Value) (w : World) :
    ((∀ c ∈ tool.requires, engine.gate.check c = .ok ()) ∧ invoke engine f name args w =
      runTool engine f args tool.action { w with trace :=
        w.trace ++ (tool.requires.map (Effect.consult · true) ++ [.enter name]) }) ∨
    ∃ granted c rest denied, tool.requires = granted ++ c :: rest ∧
      engine.gate.check c = .error denied ∧ invoke engine f name args w =
        (.error (.failed ((Fault.toolDenied name c.text).error.withCause denied.message)),
          { w with trace :=
              w.trace ++ (granted.map (Effect.consult · true) ++ [.consult c false]) }) := by
  rw [invoke_eq htool]
  rcases consultAll_cases engine name tool.requires w with
    ⟨hconsent, hasked⟩ | ⟨granted, c, rest, denied, hwanted, hdenied, hasked⟩
  · have htrace : (w.trace ++ tool.requires.map (Effect.consult · true)).push (.enter name) =
        w.trace ++ (tool.requires.map (Effect.consult · true) ++ [.enter name]) := by
      simp [← Array.toList_inj]
    refine .inl ⟨hconsent, ?_⟩
    rw [bind_ok hasked, bind_ok (note_apply _ _), htrace]
  · exact .inr ⟨granted, c, rest, denied, hwanted, hdenied, bind_error hasked⟩

/-- A tool that is denied fails for that reason, and the policy was asked: nothing else happens. -/
theorem invoke_denied (f : Frame) {name : String} {tool : Tool}
    (htool : engine.tools.get? name = some tool) {c : Capability} (hc : c ∈ tool.requires)
    (hrefused : engine.gate.check c ≠ .ok ()) (args : List Value) (w : World) :
    ∃ (e : RuntimeError) (asked : List Effect), invoke engine f name args w =
        (.error (.failed e), { w with trace := w.trace ++ asked }) ∧
      e.code = .policy ∧ ∀ effect ∈ asked, ∃ c allowed, effect = .consult c allowed := by
  rcases invoke_cases f htool args w with
    ⟨hconsent, -⟩ | ⟨granted, refused, _, denied, -, -, hinvoke⟩
  · exact absurd (hconsent c hc) hrefused
  · refine ⟨_, _, hinvoke, ?_, fun effect heffect => ?_⟩
    · rfl
    · rcases List.mem_append.1 heffect with hgranted | hlast
      · obtain ⟨c', -, rfl⟩ := List.mem_map.1 hgranted
        exact ⟨c', true, rfl⟩
      · exact ⟨refused, false, List.mem_singleton.1 hlast⟩

/-! ## Whatever runs is confined -/

abbrev Confines (engine : Engine) : ∀ α : Type, (Unit → Exec α) → Prop := Keeps (Confined engine)

theorem Confines.closed : Closed (fun _ => True) (Confines engine) :=
  Keeps.closed .trans fun _ => .of_trace rfl

theorem Confines.of_trace {X : Unit → Exec α} (h : ∀ w, (X () w).2.trace = w.trace) :
    Confines engine α X :=
  fun w _ => .of_trace (h w)

theorem note_confines {effect : Effect} (h : ∀ name, effect ≠ .enter name) :
    Confines engine Unit fun _ => note effect := by
  intro w _
  refine ⟨[effect], Array.toList_push, .of_no_entry fun name hname => ?_⟩
  exact h name (List.mem_singleton.1 hname).symm

theorem write_confines (name : String) (v : Value) :
    Confines engine Unit fun _ => write engine f name v := by
  refine .of_trace fun w => ?_
  rcases write_world engine f name v w with h | ⟨-, h⟩ | h <;> rw [h] <;> rfl

theorem raise_confines (name source : String) (payload : Value) :
    Confines engine Nat fun _ => raise engine f name source payload := by
  refine raise_closed Confines.closed (fun _ => rfl) ?_ name source payload
  exact start_closed Confines.closed engine f (fun _ _ _ => note_confines nofun)
    (fun _ _ _ => .of_trace fun _ => rfl) fun _ => .of_trace fun _ => rfl

/-- A tool is entered behind the consent to all that it requires; what it does then enters no
other. -/
theorem invoke_confines (name : String) (args : List Value) :
    Confines engine Value fun _ => invoke engine f name args := by
  have hP : Closed (fun _ => True) (Confines engine) := Confines.closed
  intro w _
  cases htool : engine.tools.get? name with
  | none =>
    simp only [invoke, htool]
    exact .of_trace rfl
  | some tool =>
    simp only
    rcases invoke_cases f htool args w with
      ⟨hconsent, hentered⟩ | ⟨granted, c, _, denied, -, -, hdenied⟩
    · have htoolRun : Confines engine Value fun _ => runTool engine f args tool.action := by
        cases tool.action with
        | builtin b =>
          exact runBuiltin_closed hP.toSequenced hP.lookups b (fun _ => raise_confines) args
        | host run => exact hP.ofInterrupt _
      have hasked : Confined engine w { w with trace :=
          w.trace ++ (tool.requires.map (Effect.consult · true) ++ [.enter name]) } :=
        ⟨_, Array.toList_appendList, .of_consent htool hconsent⟩
      rw [hentered]
      exact hasked.trans (htoolRun _ (.of_trace rfl))
    · rw [hdenied]
      exact ⟨_, Array.toList_appendList, .of_no_entry (by simp)⟩

theorem confined_habit : Habit (fun _ => True) (Confined engine) engine where
  trans := .trans
  target _ := .of_trace rfl
  instances _ _ := .of_trace rfl
  procedure _ _ _ _ := trivial
  write name v _ := write_confines name v
  invoke name args _ := invoke_confines name args
  emit _ _ := note_confines nofun
  whisper _ _ := note_confines nofun
  promptUser := promptUser_closed Confines.closed engine (fun _ => note_confines nofun)
    (fun _ => Confines.of_trace fun _ => rfl) fun _ _ _ _ _ _ => trivial
  recover _ _ := note_confines nofun
  clear _ := note_confines nofun
  chat _ _ _ := Confines.of_trace fun _ => rfl
  act _ henter := act_closed Confines.closed (fun a => henter a fun _ => trivial)
    fun _ => Confines.of_trace fun _ => rfl
  openConversation := Confines.of_trace fun _ => rfl

end Exec

theorem HostCall.exec_confines {α : Type} (engine : Engine) (f : Frame) (c : HostCall α) :
    Exec.Confines engine α fun _ => c.exec engine f :=
  c.exec_habit Exec.confined_habit trivial (fun _ _ _ => .of_trace rfl) fun _ =>
    Exec.raise_confines

/-! ## Scripts that may not raise events -/

namespace Engine

/-- The only tools are those that are built in, under whatever names. -/
def BuiltinsOnly (engine : Engine) : Prop :=
  ∀ name tool, engine.tools.get? name = some tool → ∃ b : Builtin, tool = b.tool

theorem BuiltinsOnly.of_tools {engine : Engine} (h : engine.tools = builtinTools) :
    engine.BuiltinsOnly := by
  intro name tool htool
  rw [h] at htool
  obtain ⟨b, -, hb⟩ := List.mem_map.1 (Table.mem_of_get?_ofList htool)
  exact ⟨b, (congrArg Prod.snd hb).symm⟩

/-- The tool that raises events is not entered without consent. -/
theorem Admits.emitEvent_not_entered {engine : Engine} {trace : List Effect}
    (h : engine.Admits trace) (htools : engine.BuiltinsOnly)
    (hdenied : engine.gate.check .eventEmit ≠ .ok ()) {name : String} {tool : Tool}
    (hname : .enter name ∈ trace) (htool : engine.tools.get? name = some tool) :
    tool.action ≠ .builtin .emitEvent := by
  obtain ⟨tool', htool', hconsent⟩ := h.covered hname
  obtain rfl : tool = tool' := Option.some.inj (htool.symm.trans htool')
  obtain ⟨b, rfl⟩ := htools name tool htool
  intro hemit
  cases hemit
  exact hdenied (hconsent .eventEmit List.mem_cons_self)

end Engine

namespace World

def SamePending (w w' : World) : Prop := w'.pending = w.pending

theorem SamePending.trans {w w' w'' : World} (h : SamePending w w') (h' : SamePending w' w'') :
    SamePending w w'' :=
  Eq.trans h' h

end World

namespace Exec

open World

variable {engine : Engine} {f : Frame}

abbrev StartsNone : ∀ α : Type, (Unit → Exec α) → Prop := Keeps SamePending

theorem StartsNone.closed : Closed (fun _ => True) StartsNone :=
  Keeps.closed .trans fun _ => rfl

theorem StartsNone.of_pending {α : Type} {X : Unit → Exec α}
    (h : ∀ w, (X () w).2.pending = w.pending) : StartsNone α X :=
  fun w _ => h w

/-- A built-in tool starts handlers only by raising an event, which needs the consent of the
policy. -/
theorem invoke_startsNone (htools : engine.BuiltinsOnly)
    (hdenied : engine.gate.check .eventEmit ≠ .ok ()) (name : String) (args : List Value) :
    StartsNone Value fun _ => invoke engine f name args := by
  intro w _
  cases htool : engine.tools.get? name with
  | none =>
    simp only [invoke, htool]
    exact Eq.refl w.pending
  | some tool =>
    simp only
    rcases invoke_cases f htool args w with ⟨hconsent, hentered⟩ | ⟨_, _, _, _, -, -, hasked⟩
    · obtain ⟨b, rfl⟩ := htools name tool htool
      have hemit : b ≠ .emitEvent := by
        rintro rfl
        exact hdenied (hconsent .eventEmit List.mem_cons_self)
      have hrun : StartsNone Value fun _ => runBuiltin engine f b args :=
        runBuiltin_closed StartsNone.closed.toSequenced StartsNone.closed.lookups b
          (fun hb => absurd hb hemit) args
      rw [hentered]
      refine SamePending.trans ?_ (hrun _ rfl)
      exact Eq.refl w.pending
    · rw [hasked]
      exact Eq.refl w.pending

theorem samePending_habit (htools : engine.BuiltinsOnly)
    (hdenied : engine.gate.check .eventEmit ≠ .ok ()) :
    Habit (fun _ => True) SamePending engine where
  trans := .trans
  target _ := rfl
  instances _ _ := rfl
  procedure _ _ _ _ := trivial
  write name v _ := StartsNone.of_pending fun w => (write_alike engine _ name v w).pending
  invoke name args _ := invoke_startsNone htools hdenied name args
  emit _ _ := StartsNone.of_pending fun _ => rfl
  whisper _ _ := StartsNone.of_pending fun _ => rfl
  promptUser := promptUser_closed StartsNone.closed engine
    (fun _ => StartsNone.of_pending fun _ => rfl) (fun _ => StartsNone.of_pending fun _ => rfl)
    fun _ _ _ _ _ _ => trivial
  recover _ _ := StartsNone.of_pending fun _ => rfl
  clear _ := StartsNone.of_pending fun _ => rfl
  chat _ _ _ := StartsNone.of_pending fun _ => rfl
  act _ henter := act_closed StartsNone.closed (fun a => henter a fun _ => trivial)
    fun _ => StartsNone.of_pending fun _ => rfl
  openConversation := StartsNone.of_pending fun _ => rfl

end Exec

/-! ## Handlers -/

namespace Engine

open World Exec

variable {engine : Engine}

/-- What holds of the trace of every handler holds of all that runs when a world is settled. -/
theorem settle_traces {A : Array Effect → Prop} (h : ∀ p w, A (engine.runPending p w).trace)
    (w : World) : ∀ trace ∈ (engine.settle w).1, A trace := by
  have hround (queue : List Pending) : ∀ w, ∀ trace ∈ (engine.runRound queue w).1, A trace := by
    induction queue with
    | nil => intro w trace hmem; cases hmem
    | cons p rest ih =>
      intro w trace hmem
      rcases List.mem_cons.1 hmem with rfl | hrest
      · exact h p w
      · exact ih _ trace hrest
  have hrounds (rounds : Nat) : ∀ w, ∀ trace ∈ (engine.settleRounds rounds w).1, A trace := by
    induction rounds with
    | zero => intro w trace hmem; cases hmem
    | succ rounds ih =>
      intro w trace hmem
      simp only [settleRounds] at hmem
      split at hmem
      · cases hmem
      · rcases List.mem_append.1 hmem with hfirst | hlater
        · exact hround _ _ trace hfirst
        · exact ih _ trace hlater
  exact hrounds _ w

theorem runPending_admits (p : Pending) (w : World) :
    engine.Admits (engine.runPending p w).trace.toList := by
  have hbody : Confines engine Outcome fun _ => engine.handlerBody p :=
    confined_habit.handlerBody trivial
  have hnotices (es : List RuntimeError) :
      engine.Admits (engine.notices p.eventName p.source es) := by
    refine .of_no_entry fun name hname => ?_
    obtain ⟨e, he⟩ := mem_notices hname
    cases he
  rw [runPending_eq, Array.toList_appendList]
  exact (hbody { w with trace := #[] } (.of_trace rfl)).admits.append (hnotices _)

theorem runRound_length (queue : List Pending) : ∀ w,
    (engine.runRound queue w).1.length = queue.length := by
  induction queue with
  | nil => intro w; rfl
  | cons p rest ih => intro w; exact congrArg Nat.succ (ih _)

/-- If handlers start no others, no more run than wait. -/
theorem settle_length_le (h : ∀ p w, SamePending w (engine.runPending p w)) (w : World) :
    (engine.settle w).1.length ≤ w.pending.length := by
  have hround (queue : List Pending) : ∀ w, SamePending w (engine.runRound queue w).2 := by
    induction queue with
    | nil => intro w; exact Eq.refl w.pending
    | cons p rest ih => intro w; exact (h p w).trans (ih _)
  unfold settle
  cases engine.config.maxCallDepth with
  | zero => exact Nat.zero_le _
  | succ rounds =>
    have hlater (w : World) (hw : w.pending = []) : (engine.settleRounds rounds w).1 = [] := by
      cases rounds with
      | zero => rfl
      | succ rounds => simp only [settleRounds, hw]
    simp only [settleRounds]
    split
    · exact Nat.zero_le _
    · have hdone : (engine.runRound w.pending { w with pending := [] }).2.pending = [] :=
        hround w.pending { w with pending := [] }
      rw [List.length_append, hlater _ hdone, runRound_length]
      exact Nat.le_of_eq (Nat.add_zero _)

theorem runPending_samePending (htools : engine.BuiltinsOnly)
    (hdenied : engine.gate.check .eventEmit ≠ .ok ()) (p : Pending) (w : World) :
    SamePending w (engine.runPending p w) := by
  have hbody : StartsNone Outcome fun _ => engine.handlerBody p :=
    (samePending_habit htools hdenied).handlerBody trivial
  rw [runPending_eq]
  exact hbody { w with trace := #[] } rfl

end Engine

open World

/-- Tools are confined by the policy, whatever the host calls on an instance and whatever scripts,
handlers and agents do then. A tool is entered only after the consent to all that it requires. If
the policy is a list of grants, some grant covers each of that. If the tools are the built-in ones and
no grant covers the raising of events, no event is raised but by the host. A tool that is denied leaves
everything as it was. -/
theorem HostCall.perform_confined {α : Type} (engine : Engine) (f : Frame) (c : HostCall α)
    (w : World) :
    let s := engine.perform (c.exec engine f) w
    (∀ trace ∈ s.trace :: s.handlers, engine.Admits trace.toList) ∧
    (∀ grants, engine.gate = Gate.policy (.grants grants) →
      (∀ trace ∈ s.trace :: s.handlers, ∀ name, .enter name ∈ trace →
        ∃ tool, engine.tools.get? name = some tool ∧
          ∀ wanted ∈ tool.requires, ∃ g ∈ grants, g.covers wanted = true) ∧
      (engine.BuiltinsOnly → (∀ g ∈ grants, g.covers .eventEmit = false) →
        (∀ trace ∈ s.trace :: s.handlers, ∀ name tool, .enter name ∈ trace →
          engine.tools.get? name = some tool → tool.action ≠ .builtin .emitEvent) ∧
        (c.raises = false → (c.exec engine f { w with trace := #[] }).2.pending = w.pending) ∧
        s.handlers.length ≤ (c.exec engine f { w with trace := #[] }).2.pending.length)) ∧
    ∀ (g : Frame) (name : String) (tool : Tool) (args : List Value) (v : World),
      engine.tools.get? name = some tool →
      (∃ wanted ∈ tool.requires, engine.gate.check wanted ≠ .ok ()) →
      ∃ (e : RuntimeError) (asked : List Effect), Exec.invoke engine g name args v =
          (.error (.failed e), { v with trace := v.trace ++ asked }) ∧
        e.code = .policy ∧ ∀ effect ∈ asked, ∃ wanted allowed, effect = .consult wanted allowed := by
  intro s
  have hadmits : ∀ trace ∈ s.trace :: s.handlers, engine.Admits trace.toList := by
    refine List.forall_mem_cons.2 ⟨?_, Engine.settle_traces Engine.runPending_admits _⟩
    exact (c.exec_confines engine f { w with trace := #[] } (.of_trace rfl)).admits
  refine ⟨hadmits, fun grants hgate => ⟨fun trace htrace name hname => ?_, ?_⟩, ?_⟩
  · exact (hadmits trace htrace).granted hgate (Array.mem_toList_iff.2 hname)
  · intro htools hgrants
    have hdenied : engine.gate.check .eventEmit ≠ .ok () := by
      rw [hgate]
      exact Gate.grants_check_ne_ok hgrants
    refine ⟨fun trace htrace name tool hname htool => ?_, fun hraises => ?_, ?_⟩
    · exact (hadmits trace htrace).emitEvent_not_entered htools hdenied
        (Array.mem_toList_iff.2 hname) htool
    · refine c.exec_habit (Exec.samePending_habit htools hdenied) trivial (fun _ _ _ => rfl)
        (fun hr => ?_) { w with trace := #[] } rfl
      exact absurd (hraises.symm.trans hr) Bool.false_ne_true
    · exact Engine.settle_length_le (Engine.runPending_samePending htools hdenied) _
  · intro g name tool args v htool ⟨wanted, hwanted, hrefused⟩
    exact Exec.invoke_denied g htool hwanted hrefused args v

/-- The handler of one event cannot raise the other: of the two handlers only the one runs that the
host has started. -/
theorem HostCall.perform_confined_of_handler :
    let engine : Engine :=
      { gate := Gate.policy (.grants [.modelRead]), tools := Engine.builtinTools }
    let first : EventDecl :=
      { name := .string "start", body := [Step.call "emit_event" [.string "tick"]] }
    let second : EventDecl := { name := .string "tick", body := [] }
    let w := ((HostRequest.load { events := [first, second] }).exec engine .root {}).2
    let c : HostCall Nat := .request (.operate (.raise "start" "clock" .nil))
    let s := engine.perform (c.exec engine .root) w
    (engine.BuiltinsOnly ∧ ∀ g ∈ [Capability.modelRead], g.covers .eventEmit = false) ∧
      s.handlers.length ≤ 1 ∧
      ∀ trace ∈ s.handlers, ∀ name tool, .enter name ∈ trace →
        engine.tools.get? name = some tool → tool.action ≠ .builtin .emitEvent := by
  intro engine first second w c s
  have htools : engine.BuiltinsOnly := .of_tools rfl
  have hgrants : ∀ g ∈ [Capability.modelRead], g.covers .eventEmit = false := by decide
  obtain ⟨-, hgranted, -⟩ := HostCall.perform_confined engine .root c w
  obtain ⟨-, hevents⟩ := hgranted [.modelRead] rfl
  obtain ⟨hentered, -, hlength⟩ := hevents htools hgrants
  refine ⟨⟨htools, hgrants⟩, ?_, fun trace htrace => hentered trace (List.mem_cons_of_mem _ htrace)⟩
  have hpending : (c.exec engine .root { w with trace := #[] }).2.pending.length = 1 := rfl
  exact hpending ▸ hlength

end StepScript
