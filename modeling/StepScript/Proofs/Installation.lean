import StepScript.Proofs.Reachable

/-!
# StepScript.Proofs.Installation

Changes of the program: loading one, appending to it, registering an event handler.

* `Installation.prepare` — all that is evaluated and checked without a look at the tables of the
  root. Names of events are expressions, so scripts run here.
* `Installation.commit`  — the checks against the tables, and the tables as they are afterwards.
* `Installation.exec_eq` — every installation is the one after the other. The tables are written one
  by one, but after the first of them nothing can fail, so it is as if the root were replaced once.
* `Installation.all_or_nothing` — so nothing is stored of what is rejected.
-/

namespace StepScript

/-! ## Tables -/

namespace Root

def addHandlers (r : Root) (handlers : List EventHandler) : Root :=
  { r with handlers := r.handlers ++ handlers }

def insertProcedures (r : Root) (procedures : List Procedure) : Root :=
  { r with procedures := procedures.foldl (fun t p => t.insert p.name p) r.procedures }

/-- Adds procedures of new names, or of any names if they may be defined again. -/
def addProcedures (r : Root) (redefine : Bool) (procedures : List Procedure) :
    Except RuntimeError Root := do
  if redefine then pure () else r.checkNew procedures
  return r.insertProcedures procedures

def load (r : Root) (p : Prepared) : Root :=
  { ({ r with procedures := {} }).insertProcedures p.procedures with
    commands := p.commands
    handlers := p.handlers }

def append (r : Root) (redefine : Bool) (p : Prepared) : Except RuntimeError Root := do
  r.checkAvailable p.handlers
  let r ← r.addProcedures redefine p.procedures
  return ({ r with commands := r.commands ++ p.commands }).addHandlers p.handlers

theorem foldl_insertHandler (handlers : List EventHandler) : ∀ r : Root,
    handlers.foldl insertHandler r = r.addHandlers handlers := by
  induction handlers with
  | nil => intro r; simp [addHandlers]
  | cons h rest ih => intro r; simp [ih, addHandlers, insertHandler]

theorem foldl_insertProcedure (procedures : List Procedure) : ∀ r : Root,
    procedures.foldl insertProcedure r = r.insertProcedures procedures := by
  induction procedures with
  | nil => intro r; rfl
  | cons p rest ih => intro r; exact ih (r.insertProcedure p)

end Root

namespace Exec

variable {w : World}

theorem checkRoot_ok {check : Root → Except RuntimeError Unit} (h : check w.root = .ok ()) :
    checkRoot check w = (.ok (), w) := by
  simp only [checkRoot, bind_apply, get_apply, h]
  rfl

theorem checkRoot_error {check : Root → Except RuntimeError Unit} {e : RuntimeError}
    (h : check w.root = .error e) : checkRoot check w = (.error (.failed e), w) := by
  simp only [checkRoot, bind_apply, get_apply, h]
  rfl

theorem modifyRoot_apply (change : Root → Root) (w : World) :
    modifyRoot change w = (.ok (), { w with root := change w.root }) := rfl

theorem forM_modifyRoot {β : Type} (g : Root → β → Root) (xs : List β) : ∀ w : World,
    (xs.forM fun x => modifyRoot (g · x)) w = (.ok (), { w with root := xs.foldl g w.root }) := by
  induction xs with
  | nil => intro w; rfl
  | cons x xs ih =>
    intro w
    simp only [List.forM_eq_forM, List.forM_cons] at ih ⊢
    rw [bind_ok (modifyRoot_apply (g · x) w)]
    exact ih _

theorem insertHandlers_apply (handlers : List EventHandler) (w : World) :
    insertHandlers handlers w = (.ok (), { w with root := w.root.addHandlers handlers }) := by
  rw [← Root.foldl_insertHandler]
  exact forM_modifyRoot Root.insertHandler handlers w

/-- Procedures are all refused or all inserted. -/
theorem insertProcedures_cases (redefine : Bool) (procedures : List Procedure) (w : World) :
    (∃ e, w.root.addProcedures redefine procedures = .error e ∧
      insertProcedures redefine procedures w = (.error (.failed e), w)) ∨
    ∃ r, w.root.addProcedures redefine procedures = .ok r ∧
      insertProcedures redefine procedures w = (.ok (), { w with root := r }) := by
  have hinsert := forM_modifyRoot Root.insertProcedure procedures w
  rw [Root.foldl_insertProcedure] at hinsert
  cases redefine with
  | true => exact .inr ⟨_, rfl, hinsert⟩
  | false =>
    cases hnew : w.root.checkNew procedures with
    | error e =>
      refine .inl ⟨e, ?_, bind_error (checkRoot_error hnew)⟩
      simp only [Root.addProcedures, hnew]
      rfl
    | ok _ =>
      refine .inr ⟨_, ?_, (bind_ok (checkRoot_ok hnew)).trans hinsert⟩
      simp only [Root.addProcedures, hnew]
      rfl

end Exec

/-- A change of the program that a host asks for. -/
inductive Installation where
  | load (p : Program)
  | append (p : Program)
  | register (d : EventDecl)

namespace Installation

def exec (engine : Engine) (f : Frame) : Installation → Exec Unit
  | .load p => engine.load f p
  | .append p => engine.append f p
  | .register d => engine.registerEvent f d

/-- What is to be stored. A handler that is registered alone is a program without anything else. -/
def prepare (engine : Engine) (f : Frame) : Installation → Exec Prepared
  | .load p => do
    Engine.requireRoot f "load"
    engine.prepare f p
  | .append p => do
    Engine.requireRoot f "append"
    engine.prepare f p
  | .register d => do
    return { procedures := [], commands := [], handlers := [← engine.prepareHandler f d] }

/-- The root with what was prepared, or why it cannot have it. -/
def commit (engine : Engine) (r : Root) (p : Prepared) : Installation → Except RuntimeError Root
  | .load _ => .ok (r.load p)
  | .append _ => r.append engine.config.allowRedefinition p
  | .register _ => do
    r.checkAvailable p.handlers
    return r.addHandlers p.handlers

/-- Replaces the root, unless there is a reason not to. -/
def store (engine : Engine) (i : Installation) (p : Prepared) : Exec Unit := do
  let root ← Exec.ofExcept (i.commit engine (← get).root p)
  modify fun w => { w with root := root }

open Exec

variable {engine : Engine} {f : Frame} {w : World}

theorem store_ok {i : Installation} {p : Prepared} {root : Root}
    (h : i.commit engine w.root p = .ok root) :
    i.store engine p w = (.ok (), { w with root := root }) := by
  simp only [store, Exec.bind_apply, Exec.get_apply, h]
  rfl

theorem store_error {i : Installation} {p : Prepared} {e : RuntimeError}
    (h : i.commit engine w.root p = .error e) : i.store engine p w = (.error (.failed e), w) := by
  simp only [store, Exec.bind_apply, Exec.get_apply, h]
  rfl

/-- The checks of an installation come before its first write. -/
theorem exec_eq (engine : Engine) (f : Frame) (i : Installation) :
    i.exec engine f = i.prepare engine f >>= i.store engine := by
  cases i with
  | load p =>
    simp only [exec, prepare, Engine.load, bind_assoc]
    refine bind_congr fun _ => bind_congr fun q => funext fun w => ?_
    rw [store_ok rfl, bind_ok (modifyRoot_apply _ w), bind_ok (modifyRoot_apply ..),
      bind_ok (modifyRoot_apply ..), insertHandlers_apply]
    simp only [Root.addHandlers, List.nil_append]
    rfl
  | append p =>
    simp only [exec, prepare, Engine.append, bind_assoc]
    refine bind_congr fun _ => bind_congr fun q => funext fun w => ?_
    cases hhandlers : w.root.checkAvailable q.handlers with
    | error e =>
      rw [bind_error (checkRoot_error hhandlers), store_error]
      simp only [commit, Root.append, hhandlers]
      rfl
    | ok _ =>
      rw [bind_ok (checkRoot_ok hhandlers)]
      rcases insertProcedures_cases engine.config.allowRedefinition q.procedures w with
        ⟨e, hprocedures, hrefused⟩ | ⟨r, hprocedures, hinserted⟩
      · rw [bind_error hrefused, store_error]
        simp only [commit, Root.append, hhandlers, hprocedures]
        rfl
      · -- from here on there are only writes
        rw [bind_ok hinserted, bind_ok (modifyRoot_apply ..), insertHandlers_apply, store_ok]
        simp only [commit, Root.append, hhandlers, hprocedures]
        rfl
  | register d =>
    simp only [exec, prepare, Engine.registerEvent, bind_assoc, pure_bind]
    refine bind_congr fun h => funext fun w => ?_
    cases hhandlers : w.root.checkAvailable [h] with
    | error e =>
      rw [bind_error (checkRoot_error hhandlers), store_error]
      simp only [commit, hhandlers]
      rfl
    | ok _ =>
      rw [bind_ok (checkRoot_ok hhandlers), modifyRoot_apply, store_ok]
      simp only [commit, hhandlers]
      rfl

section Prepare

open World Exec

universe u

/-- Preparing does no more to the world than to evaluate the names of events. -/
theorem prepare_closed {ι : Type u} {P : ∀ α : Type, (ι → Exec α) → Prop}
    (hP : Sequenced (fun _ => True) P) (heval : ∀ e, P Value fun _ => engine.evaluate f e)
    (i : Installation) : P Prepared fun _ => i.prepare engine f := by
  cases i with
  | load p =>
    exact hP.bind (requireRoot_closed hP f "load") fun _ => Exec.prepare_closed hP heval p
  | append p =>
    exact hP.bind (requireRoot_closed hP f "append") fun _ => Exec.prepare_closed hP heval p
  | register d => exact hP.bind (prepareHandler_closed hP heval d) fun _ => hP.pure _

/-- The scripts that name events write into no instance that was live before. -/
theorem prepare_spares (i : Installation) :
    Spares f (fun _ => False) Prepared fun _ => i.prepare engine f :=
  i.prepare_closed Spares.closed.toSequenced fun e => (Operation.evaluate e).exec_spares engine f

theorem prepare_undisturbed (engine : Engine) (i : Installation) (hw : w.Coherent)
    (hf : f ∈ w.frames) : Undisturbed (fun _ => False) w (i.prepare engine f w).2 :=
  (i.prepare_spares w ⟨List.mem_map_of_mem hf, .refl hw⟩).2

end Prepare

/-- An installation stops with its preparation, is refused by the tables, or replaces the root with
what the tables accept. -/
theorem exec_cases (engine : Engine) (f : Frame) (i : Installation) (w : World) :
    (∃ e w₀, i.prepare engine f w = (.error e, w₀) ∧ i.exec engine f w = (.error e, w₀)) ∨
    (∃ p w₀ e, i.prepare engine f w = (.ok p, w₀) ∧ i.commit engine w₀.root p = .error e ∧
      i.exec engine f w = (.error (.failed e), w₀)) ∨
    ∃ p w₀ root, i.prepare engine f w = (.ok p, w₀) ∧ i.commit engine w₀.root p = .ok root ∧
      i.exec engine f w = (.ok (), { w₀ with root := root }) := by
  rw [exec_eq]
  rcases hp : i.prepare engine f w with ⟨e | p, w₀⟩
  · exact .inl ⟨e, w₀, rfl, Exec.bind_error hp⟩
  · rw [Exec.bind_ok hp]
    cases hc : i.commit engine w₀.root p with
    | error e => exact .inr (.inl ⟨p, w₀, e, rfl, hc, store_error hc⟩)
    | ok root => exact .inr (.inr ⟨p, w₀, root, rfl, hc, store_ok hc⟩)

open World

theorem exec_rejected {i : Installation} (hw : w.Coherent) (hf : f ∈ w.frames) {e : Interrupt}
    (h : (i.exec engine f w).1 = .error e) :
    Undisturbed (fun _ => False) w (i.exec engine f w).2 := by
  have hprepare := i.prepare_undisturbed engine hw hf
  rcases exec_cases engine f i w with ⟨e', w₀, hp, hexec⟩ | ⟨p, w₀, e', hp, -, hexec⟩ |
    ⟨p, w₀, root, -, -, hexec⟩
  · rw [hexec]
    rw [hp] at hprepare
    exact hprepare
  · rw [hexec]
    rw [hp] at hprepare
    exact hprepare
  · rw [hexec] at h
    cases h

theorem exec_accepted {i : Installation} (hw : w.Coherent) (hf : f ∈ w.frames)
    (h : (i.exec engine f w).1 = .ok ()) :
    ∃ p w₀, i.prepare engine f w = (.ok p, w₀) ∧
      i.commit engine w.root p = .ok (i.exec engine f w).2.root ∧
      ∀ id ∈ w.ids, (i.exec engine f w).2.locals id = w.locals id := by
  have hprepare := i.prepare_undisturbed engine hw hf
  rcases exec_cases engine f i w with ⟨e', w₀, hp, hexec⟩ | ⟨p, w₀, e', hp, -, hexec⟩ |
    ⟨p, w₀, root, hp, hc, hexec⟩
  · rw [hexec] at h
    cases h
  · rw [hexec] at h
    cases h
  · rw [hp] at hprepare
    rw [hprepare.shared.root] at hc
    rw [hexec]
    exact ⟨p, w₀, hp, hc, fun id hid => hprepare.locals id hid nofun⟩

/-- Only the root has a program of its own to be replaced or extended. -/
theorem exec_of_fork (hf : f.isRoot = false) (p : Program) {i : Installation}
    (hi : i = .load p ∨ i = .append p) :
    ∃ e, i.exec engine f w = (.error (.failed e), w) ∧ e.code = .writeViolation := by
  have hguard (operation : String) : Engine.requireRoot f operation w =
      (.error (.failed (Fault.rootOnly operation).error), w) := by
    simp only [Engine.requireRoot, hf]
    rfl
  rcases hi with rfl | rfl
  · exact ⟨_, Exec.bind_error (hguard "load"), rfl⟩
  · exact ⟨_, Exec.bind_error (hguard "append"), rfl⟩

/-- Installations are all or nothing. When one fails, for whatever reason, all tables of the root
and the locals of all instances are as before, and they still are when the handlers have run that
its scripts started. When it succeeds, the tables hold all that was prepared. A fork cannot load or
append: it is told so, and nothing at all has changed. -/
theorem all_or_nothing (engine : Engine) (f : Frame) (i : Installation) (w : World)
    (hw : w.Reachable engine) (hf : f ∈ w.frames) :
    let run := i.exec engine f w
    let settled := engine.perform (i.exec engine f) w
    (∀ e, run.1 = .error e →
      SameShared w run.2 ∧ ∀ id ∈ w.ids, id ∈ run.2.ids ∧ run.2.locals id = w.locals id) ∧
    (∀ e, settled.result = .error e → SameShared w settled.world ∧
      ∀ id ∈ w.ids, (∀ p ∈ w.pending, p.frame.id ≠ id) →
        id ∈ settled.world.ids ∧ settled.world.locals id = w.locals id) ∧
    (run.1 = .ok () → ∃ p w₀, i.prepare engine f w = (.ok p, w₀) ∧
      i.commit engine w.root p = .ok run.2.root ∧
      ∀ id ∈ w.ids, run.2.locals id = w.locals id) ∧
    (f.isRoot = false → ∀ p, i = .load p ∨ i = .append p →
      ∃ e, run = (.error (.failed e), w) ∧ e.code = .writeViolation) := by
  intro run settled
  have hcoherent := hw.coherent
  refine ⟨fun e he => ?_, fun e he => ?_, exec_accepted hcoherent hf,
    fun hfork p hi => exec_of_fork hfork p hi⟩
  · have hrun := exec_rejected hcoherent hf he
    exact ⟨hrun.shared, fun id hid => ⟨hrun.live hid, hrun.locals id hid nofun⟩⟩
  · have hstart := (Sheltered.start hcoherent).withTrace #[]
    have hrun := exec_rejected (w := { w with trace := #[] })
      (hcoherent.congr rfl (fun _ => rfl) rfl) hf he
    have hend := engine.settle_sheltered (hstart.undisturbed hrun fun _ _ => id)
    refine ⟨hend.shared, fun id hid hp => ?_⟩
    have hmem : id ∈ w.bystanders := mem_bystanders.2 ⟨hid, hp⟩
    exact ⟨hend.live.mem_iff.2 (List.mem_append_right _ hmem), hend.locals id hmem⟩

/-- A program that is rejected at the last check: its command, its handler and the procedure that
names the event are all in order, but one procedure would be defined again. -/
theorem all_or_nothing_of_redefinition :
    let engine : Engine := {}
    let naming : ProcedureDecl := { name := "naming", body := [Step.ret (.string "tick")] }
    let other : ProcedureDecl := { name := "other", body := [] }
    let handler : EventDecl := { name := .call "naming" [], body := [] }
    let w := ((HostRequest.load { procedures := [naming] }).exec engine .root {}).2
    let i : Installation :=
      .append { procedures := [other, naming], events := [handler], commands := [{ body := [] }] }
    let run := i.exec engine .root w
    (w.Reachable engine ∧ Frame.root ∈ w.frames) ∧
      (∃ e, run.1 = .error (.failed e) ∧ e.code = .duplicate) ∧ run.2.root = w.root := by
  intro engine naming other handler w i run
  have hw : w.Reachable engine := .ask _ .start List.mem_cons_self
  have hroot : Frame.root ∈ w.frames := List.mem_cons_self
  obtain ⟨hrejected, -⟩ := i.all_or_nothing engine .root w hw hroot
  have hrun : ∃ e, run.1 = .error (.failed e) ∧ e.code = .duplicate := ⟨_, rfl, rfl⟩
  refine ⟨⟨hw, hroot⟩, hrun, ?_⟩
  obtain ⟨e, he, -⟩ := hrun
  exact (hrejected _ he).1.root

end Installation
end StepScript
