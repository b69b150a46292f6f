import StepScript.Proofs.Writing

/-!
# StepScript.Proofs.Constants

Constants of the root, and the other things that may have their names.

* `Engine.Does.of_constant` — nobody writes a constant. At most, an instance with a handler is shown
  a failure under the name.
* `World.Fixed`    — a constant, with what an instance has under the same name besides. Both are for
  good: `Engine.Later.fixed`.
* `Engine.constant_read` — so a constant is read where the name was free when it was made one.
* `Engine.constant_hidden` — names need not be free: a global can be made a constant as well, and it
  is still the global that is read.
-/

namespace StepScript

open World Exec

namespace Engine.Does

variable {engine : Engine} {f : Frame} {name : Option String} {n : String} {v : Value}
variable {w w' : World}

theorem constants (h : engine.Does f name w w') (hn : w.root.constants.get? n = some v) :
    w'.root.constants.get? n = some v := by
  cases h with
  | set hwrite =>
    rcases (write_eq_ok_iff.1 hwrite).2 with ⟨-, -, rfl⟩ | ⟨-, rfl⟩
    · exact hn
    · exact hn
  | define hdefine =>
    obtain ⟨-, -, rfl⟩ := defineGlobal_eq_ok_iff.1 hdefine
    exact hn
  | announce e => exact hn
  | aside haside => exact haside.constants n v hn

/-- Nobody writes a constant: only a failure can be bound to its name. -/
theorem of_constant (h : engine.Does f (some n) w w') (hn : w.root.constants.get? n = some v) :
    n = engine.config.errorVariable ∧ ∃ e, w' = (Exec.announce engine f e w).2 := by
  have hconstant : w.isConstant engine.symbols n = true := by
    simp only [isConstant, Table.contains, hn, Option.isSome_some, Bool.true_or]
  cases h with
  | set hwrite =>
    rw [(write_eq_ok_iff.1 hwrite).1] at hconstant
    cases hconstant
  | define hdefine =>
    rw [(defineGlobal_eq_ok_iff.1 hdefine).2.1] at hconstant
    cases hconstant
  | announce e => exact ⟨rfl, e, rfl⟩

end Engine.Does

/-- No call on an instance takes a constant away or changes it. -/
theorem HostCall.exec_constants (engine : Engine) {f : Frame} {α : Type} (c : HostCall α)
    {w : World} (hw : w.Coherent) (hf : f.id ∈ w.ids) {n : String} {v : Value}
    (hn : w.root.constants.get? n = some v) :
    (c.exec engine f w).2.root.constants.get? n = some v := by
  have hdeeds := c.exec_does engine hw hf
  generalize (c.exec engine f w).2 = w' at hdeeds ⊢
  induction hdeeds with
  | refl => exact hn
  | tail _ hstep ih =>
    obtain ⟨name, hdoes⟩ := hstep
    exact hdoes.constants ih

/-- A constant of the root, and what `f` has under its name besides. -/
structure World.Fixed (f : Frame) (n : String) (v : Value) (own shared : Option Value)
    (w : World) : Prop extends Owned f n own shared w where
  constant : w.root.constants.get? n = some v

namespace World.Fixed

variable {engine : Engine} {f : Frame} {name : Option String} {n : String} {v : Value}
variable {own shared : Option Value} {w w' : World} (h : Fixed f n v own shared w)

include h

theorem beside (hbeside : engine.Beside f w w') : Fixed f n v own shared w' := by
  refine ⟨(Engine.Passes.beside hbeside).owned h.toOwned, ?_⟩
  cases hbeside with
  | call c hg => exact c.exec_constants engine h.coherent (List.mem_map_of_mem hg) h.constant
  | drop => exact h.constant
  | tend htends =>
    rw [htends.root h.coherent]
    exact h.constant

theorem does (hdoes : engine.Does f name w w')
    (hcalm : n = engine.config.errorVariable → ∀ e, .recover f.id e ∉ w'.trace) :
    Fixed f n v own shared w' := by
  have hname : name ≠ some n := by
    rintro rfl
    obtain ⟨hn, e, rfl⟩ := hdoes.of_constant h.constant
    exact hcalm hn e Array.mem_push_self
  exact ⟨(Engine.Passes.own hdoes hname).owned h.toOwned, hdoes.constants h.constant⟩

theorem deeds (hdeeds : engine.Deeds f w w')
    (hcalm : n = engine.config.errorVariable → ∀ e, .recover f.id e ∉ w'.trace) :
    Fixed f n v own shared w' := by
  induction hdeeds with
  | refl => exact h
  | tail _ hstep ih =>
    obtain ⟨name, hdoes⟩ := hstep
    exact (ih fun hn e he => hcalm hn e (hdoes.trace_subset he)).does hdoes hcalm

/-- The root reads a local, else a global, else the constant. -/
theorem read_root (hf : f = .root) :
    Exec.read engine .root n w = (.ok ((own.or shared).getD v), w) := by
  subst hf
  have hglobal : (w.globalsOf .root).get? n = shared := h.global rfl
  refine read_of_lookup ?_
  simp only [lookup?, h.found, hglobal, h.constant]
  cases own.or shared <;> rfl

/-- A fork reads a local, else a global of its snapshot, else the constant. -/
theorem read_fork {globals : Table Value} (hsnapshot : f.snapshot = some globals) :
    Exec.read engine f n w = (.ok ((own.or (globals.get? n)).getD v), w) := by
  refine read_of_lookup ?_
  simp only [lookup?, globalsOf, hsnapshot, Option.getD_some, h.found, h.constant]
  cases own.or (globals.get? n) <;> rfl

end World.Fixed

namespace Engine

variable {engine : Engine} {f : Frame} {n : String} {v : Value} {own shared : Option Value}
variable {w₀ w : World}

theorem Later.fixed (h : engine.Later f n w₀ w) (hw₀ : Fixed f n v own shared w₀) :
    Fixed f n v own shared w := by
  induction h with
  | start => exact hw₀
  | beside _ hbeside ih => exact ih.beside hbeside
  | @call w α c _ hf hcalm ih =>
    have hquiet : Fixed f n v own shared { w with trace := #[] } :=
      ⟨⟨ih.of_instances rfl rfl, ih.global⟩, ih.constant⟩
    exact hquiet.deeds (c.exec_does engine hquiet.coherent (List.mem_map_of_mem hf)) hcalm
  | fork label handler outlet _ hg ih =>
    have haside := Aside.enlist ih.coherent (List.mem_map_of_mem hg) label handler outlet
    exact ⟨⟨ih.aside haside, ih.global⟩, ih.constant⟩
  | bind v _ hne ih => exact ⟨⟨ih.bind v hne, ih.global⟩, ih.constant⟩

/-- What a constant stands for. Whatever is done after the root has made a name a constant, its
value does not change, and the root has under the name what it had before, in its locals and in the
globals: if that was nothing, the name never becomes a variable. The root reads the variable that it
had before, and else the constant; a fork that is made later and has not bound the name itself reads
the global that there was before, and else the constant. -/
theorem constant_read (engine : Engine) (kept : List Frame) (w : World) (n : String) (v : Value)
    (w₁ : World) (h : engine.Ledger kept w)
    (hdefine : Exec.change (·.defineConstant .root n v) w = (.ok (), w₁)) :
    let own := (w.locals Frame.root.id).get? n
    let shared := w.root.globals.get? n
    ∀ w₂, engine.Later .root n w₁ w₂ →
      (w₂.root.constants.get? n = some v ∧ (w₂.locals Frame.root.id).get? n = own ∧
        w₂.root.globals.get? n = shared) ∧
      Exec.read engine .root n w₂ = (.ok ((own.or shared).getD v), w₂) ∧
      ∀ parent ∈ w₂.frames, ∀ label handler outlet,
        let f := w₂.nextFrame parent label handler outlet
        ∀ w₃, engine.Later f n (w₂.enlist parent f) w₃ →
          Exec.read engine f n w₃ = (.ok (shared.getD v), w₃) := by
  intro own shared w₂ hw₂
  have hw := h.accounted
  obtain ⟨-, -, rfl⟩ := defineConstant_eq_ok_iff.1 hdefine
  have hroot : Holds .root n own w := ⟨hw.root_live, hw.coherent, rfl⟩
  have hconstant : (w.root.constants.insert n v).get? n = some v :=
    (Table.get?_insert _ n n v).trans (if_pos rfl)
  have hfixed : Fixed .root n v own shared w₂ :=
    hw₂.fixed ⟨⟨hroot.of_instances rfl rfl, fun _ => rfl⟩, hconstant⟩
  refine ⟨⟨hfixed.constant, hfixed.found, hfixed.global rfl⟩, hfixed.read_root rfl, ?_⟩
  intro parent hparent label handler outlet f w₃ hw₃
  have hunbound : Unbound f n (w₂.enlist parent f) :=
    unbound_nextFrame hfixed.coherent hparent label handler outlet
  have hfork : Fixed f n v none none w₃ :=
    hw₃.fixed ⟨⟨hunbound, fun hf => Bool.noConfusion hf⟩, hfixed.constant⟩
  have hshared : w₂.root.globals.get? n = shared := hfixed.global rfl
  rw [hfork.read_fork rfl, Option.none_or, hshared]

/-- A name that was free: the root is refused to make it global, and a fork to write it. Both read
the constant. -/
theorem constant_read_of_free :
    let engine : Engine := {}
    let w := ((HostCall.request (.set "x" .nil)).exec engine .root {}).2
    let w₁ := ((HostCall.request (.setConstant "K" (.bool true))).exec engine .root w).2
    let w₂ := ((HostCall.request (.setGlobal "K" .nil)).exec engine .root
      { w₁ with trace := #[] }).2
    let f := w₂.nextFrame .root "later" none .host
    let w₃ := ((HostCall.request (.block {} [Step.set "K" .nil])).exec engine f
      { w₂.enlist .root f with trace := #[] }).2
    (engine.Ledger [] w ∧
      Exec.change (·.defineConstant .root "K" (.bool true)) w = (.ok (), w₁) ∧
      engine.Later .root "K" w₁ w₂ ∧ engine.Later f "K" (w₂.enlist .root f) w₃) ∧
    Exec.read engine .root "K" w₂ = (.ok (.bool true), w₂) ∧
    Exec.read engine f "K" w₃ = (.ok (.bool true), w₃) := by
  intro engine w w₁ w₂ f w₃
  have hw : engine.Ledger [] w := .call (.request (.set "x" .nil)) .start List.mem_cons_self
  have hdefine : Exec.change (·.defineConstant .root "K" (.bool true)) w = (.ok (), w₁) := rfl
  have hne : "K" ≠ engine.config.errorVariable := by decide
  have hw₂ : engine.Later .root "K" w₁ w₂ :=
    .call (.request (.setGlobal "K" .nil)) .start hw.accounted.root_live fun h => absurd h hne
  have hw₃ : engine.Later f "K" (w₂.enlist .root f) w₃ :=
    .call (.request (.block {} [Step.set "K" .nil])) .start List.mem_cons_self
      fun h => absurd h hne
  obtain ⟨-, hread, hforks⟩ :=
    constant_read engine [] w "K" (.bool true) w₁ hw hdefine w₂ hw₂
  exact ⟨⟨hw, hdefine, hw₂, hw₃⟩, hread,
    hforks .root hw.accounted.root_live "later" none .host w₃ hw₃⟩

/-- A name that was a global: it can be made a constant, with another value, and is both then. It is
the global that the root reads, and so do the forks that are made later. -/
theorem constant_hidden :
    let engine : Engine := {}
    let w := ((HostRequest.setGlobal "K" (.bool true)).exec engine .root {}).2
    let run := (HostRequest.setConstant "K" (.bool false)).exec engine .root w
    let f := run.2.nextFrame .root "later" none .host
    let w' := run.2.enlist .root f
    run.1 = .ok () ∧ run.2.root.constants.get? "K" = some (.bool false) ∧
      run.2.root.globals.get? "K" = some (.bool true) ∧
      Exec.read engine .root "K" run.2 = (.ok (.bool true), run.2) ∧
      Exec.read engine f "K" w' = (.ok (.bool true), w') := by
  intro engine w run f w'
  exact ⟨rfl, rfl, rfl, rfl, rfl⟩

end Engine

end StepScript
