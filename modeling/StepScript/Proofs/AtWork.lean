import StepScript.Proofs.Writing

/-!
# StepScript.Proofs.AtWork

An instance at work, and what it leaves alone.

* `Engine.step`   — one step of an instance. `Engine.runBlock_eq` — its blocks are made of that.
* `World.AtWork`  — the instance can execute a step: it is live and as forks make it, and no name is
  both a local of the root and a global. So it is in every history (`Ledger.atWork`), in the bodies
  that it enters (`AtWork.enter`), and after whatever it does (`AtWork.deeds`).
* `World.KeptBut` — the variables of all live instances are as before, but for some names of one of
  them. An evaluation keeps them all (`AtWork.evaluate`), a write all but one (`AtWork.kept`).
-/

namespace StepScript

open World Exec

namespace Engine

variable (engine : Engine) (f : Frame) (mode : Mode)

/-- How an instance meets the failure of a step. -/
def recovery : RuntimeError → Exec Unit :=
  if mode.inHandler then fail else recover engine engine.enter f

def step (p : Position) (action : Action) : Exec StepResult :=
  execAction engine engine.enter f mode (engine.recovery f mode) p action

theorem runBlock_eq (steps : List Step) : engine.runBlock f mode steps =
    Exec.runBlock engine engine.enter f mode (engine.recovery f mode) steps .nil false := by
  obtain ⟨inHandler, active⟩ := mode
  cases inHandler with
  | false => rfl
  | true => rfl

end Engine

namespace World

/-- The instance can execute a step: it is live and as forks make it, the world is in order, and no
name is both a local of the root and a global. -/
structure AtWork (f : Frame) (w : World) : Prop where
  coherent : w.Coherent
  live : f ∈ w.frames
  root : .root ∈ w.frames
  made : f.Made
  parted : w.Parted

/-- The variables of the live instances, the globals and the constants are as before, except that
`f` may have changed `names`. -/
structure KeptBut (f : Frame) (names : String → Prop) (w w' : World) : Prop where
  live : ∀ g ∈ w.frames, g ∈ w'.frames
  locals : ∀ g ∈ w.frames, ∀ n, (g = f → ¬ names n) →
    (w'.locals g.id).get? n = (w.locals g.id).get? n
  globals : ∀ n, (f = .root → ¬ names n) → w'.root.globals.get? n = w.root.globals.get? n
  constants : w'.root.constants = w.root.constants

namespace KeptBut

variable {f : Frame} {names names' : String → Prop} {w w' w'' : World}

theorem refl (f : Frame) (names : String → Prop) (w : World) : KeptBut f names w w :=
  ⟨fun _ => id, fun _ _ _ _ => rfl, fun _ _ => rfl, rfl⟩

theorem trans (h : KeptBut f names w w') (h' : KeptBut f names w' w'') :
    KeptBut f names w w'' where
  live g hg := h'.live g (h.live g hg)
  locals g hg n hn := (h'.locals g (h.live g hg) n hn).trans (h.locals g hg n hn)
  globals n hn := (h'.globals n hn).trans (h.globals n hn)
  constants := h'.constants.trans h.constants

theorem mono (h : KeptBut f names w w') (hnames : ∀ n, names n → names' n) :
    KeptBut f names' w w' where
  live := h.live
  locals g hg n hn := h.locals g hg n fun e hname => hn e (hnames n hname)
  globals n hn := h.globals n fun e hname => hn e (hnames n hname)
  constants := h.constants

theorem of_undisturbed (h : Undisturbed (fun _ => False) w w') : KeptBut f names w w' where
  live g hg := h.frames_subset hg
  locals g hg n _ := by rw [h.locals g.id (List.mem_map_of_mem hg) not_false]
  globals n _ := by rw [h.shared.root]
  constants := by rw [h.shared.root]

/-- Forks read their snapshots, so a global of the root is a variable of the root alone. -/
theorem lookup (h : KeptBut f names w w') (symbols : Symbols) {g : Frame} (hg : g ∈ w.frames)
    (hmade : g.Made) {n : String} (hn : g = f → ¬ names n) :
    w'.lookup? symbols g n = w.lookup? symbols g n := by
  have hglobals : (w'.globalsOf g).get? n = (w.globalsOf g).get? n := by
    cases hmade with
    | root => exact h.globals n fun e => hn e.symm
    | fork => rfl
  simp only [lookup?, h.locals g hg n hn, hglobals, h.constants]

end KeptBut

namespace AtWork

variable {engine : Engine} {f : Frame} {name : Option String} {n : String} {v : Value}
variable {mine : InstanceId → Prop} {w w' : World}

theorem of_undisturbed (h : w.AtWork f) (hu : Undisturbed mine w w')
    (hroot : ¬ mine Frame.root.id) : w'.AtWork f where
  coherent := hu.coherent
  live := hu.frames_subset h.live
  root := hu.frames_subset h.root
  made := h.made
  parted := by
    intro n
    rw [hu.locals _ (List.mem_map_of_mem h.root) hroot, hu.shared.root]
    exact h.parted n

/-- The fork of a body, when its parameters are bound. -/
theorem enter (h : w.AtWork f) (label : String) (handler : Option (List Step)) (outlet : Outlet)
    (pairs : List (String × Value)) :
    let child := w.nextFrame f label handler outlet
    ((w.enlist f child).bindAll child.id pairs).AtWork child := by
  intro child
  have hne : child.id ≠ Frame.root.id := List.cons_ne_nil _ _
  have hcoherent : (w.enlist f child).Coherent :=
    h.coherent.enlist label handler outlet (List.mem_map_of_mem h.live)
  have hforked : (w.enlist f child).AtWork child := by
    refine ⟨hcoherent, ?_, ?_, .fork w label handler outlet h.made, fun n => ?_⟩
    · rw [enlist_frames]
      exact List.mem_cons_self
    · rw [enlist_frames]
      exact List.mem_cons_of_mem _ h.root
    · rw [enlist_locals_of_ne w f child hne]
      exact h.parted n
  have hbound : Undisturbed (· = child.id) (w.enlist f child)
      ((w.enlist f child).bindAll child.id pairs) := .bindAll hcoherent (by rfl) pairs
  exact hforked.of_undisturbed hbound hne.symm

/-- What an instance does is done to names that it owns. -/
theorem does (h : w.AtWork f) (hdoes : engine.Does f name w w') : w'.AtWork f := by
  obtain ⟨hcoherent, hlive⟩ := hdoes.live h.coherent h.live
  obtain ⟨-, hroot⟩ := hdoes.live h.coherent h.root
  refine ⟨hcoherent, hlive, hroot, h.made, ?_⟩
  cases hfork : f.isRoot with
  | true =>
    obtain rfl := h.made.eq_root hfork
    exact h.parted.does h.coherent h.root hdoes
  | false =>
    have hid : f.id ≠ Frame.root.id := by simpa [Frame.isRoot, Frame.root] using hfork
    intro n
    have hlocal : Holds .root n ((w.locals Frame.root.id).get? n) w' :=
      hdoes.holds (fun e => absurd e hid) ⟨h.root, h.coherent, rfl⟩
    rw [hlocal.found, hdoes.globals_of_fork hfork]
    exact h.parted n

theorem deeds (h : w.AtWork f) (hdeeds : engine.Deeds f w w') : w'.AtWork f := by
  induction hdeeds with
  | refl => exact h
  | tail _ hstep ih =>
    obtain ⟨name, hdoes⟩ := hstep
    exact ih.does hdoes

theorem runBlock_deeds (h : w.AtWork f) (mode : Mode) (steps : List Step) :
    engine.Deeds f w (engine.runBlock f mode steps w).2 :=
  runBlock_does engine f mode steps (List.mem_map_of_mem h.live) h.coherent

/-- Evaluation disturbs nobody. -/
theorem evaluate (h : w.AtWork f) (engine : Engine) (e : Expression) :
    Undisturbed (fun _ => False) w (engine.evaluate f e w).2 :=
  ((Operation.evaluate e).exec_spares engine f w
    ⟨List.mem_map_of_mem h.live, .refl h.coherent⟩).2

/-- What was written is found, until the name is written or bound again. -/
theorem written {w'' : World} (h : w.AtWork f) (hwrite : write engine f n v w = (.ok (), w'))
    (hpasses : Relation.ReflTransGen (engine.Passes f n) w' w'') :
    w''.lookup? engine.symbols f n = some v := by
  rcases h.parted.written h.coherent h.live h.made (.inl hwrite) with ⟨_, howned⟩ | ⟨rfl, howned⟩
  · exact (howned.passes hpasses).lookup_local _
  · exact (howned.passes hpasses).lookup_global _

/-- A write changes the variable that it names. -/
theorem kept (h : w.AtWork f) (hwrite : write engine f n v w = (.ok (), w')) :
    KeptBut f (· = n) w w' := by
  have hdoes : engine.Does f (some n) w w' := .set hwrite
  refine ⟨fun g hg => (hdoes.live h.coherent hg).2, fun g hg m hm => ?_, fun m hm => ?_, ?_⟩
  · by_cases hgf : g = f
    · subst hgf
      have hne : some n ≠ some m := fun e => hm rfl (Option.some.inj e).symm
      exact (hdoes.holds (fun _ => hne) ⟨hg, h.coherent, rfl⟩).found
    · have hid : f.id ≠ g.id := fun e =>
        hgf (List.inj_on_of_nodup_map h.coherent.nodup hg h.live e.symm)
      exact (hdoes.holds (fun e => absurd e hid) ⟨hg, h.coherent, rfl⟩).found
  · by_cases hroot : f = .root
    · exact hdoes.globals fun e => hm hroot (Option.some.inj e).symm
    · have hfork : f.isRoot = false := Bool.eq_false_iff.2 fun e => hroot (h.made.eq_root e)
      rw [hdoes.globals_of_fork hfork]
  · rcases (write_eq_ok_iff.1 hwrite).2 with ⟨-, -, rfl⟩ | ⟨-, rfl⟩
    · rfl
    · rfl

end AtWork

end World

/-- In every history, all live instances can execute steps. -/
theorem Engine.Ledger.atWork {engine : Engine} {kept : List Frame} {w : World}
    (h : engine.Ledger kept w) {f : Frame} (hf : f ∈ w.frames) : w.AtWork f where
  coherent := h.accounted.coherent
  live := hf
  root := h.accounted.root_live
  made := (h.accounted.regular f hf).made
  parted := h.parted

end StepScript
