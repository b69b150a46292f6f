import StepScript.Proofs.Forks
import StepScript.Proofs.Snapshot

/-!
# StepScript.Proofs.Writing

An instance reads what it has written.

* `Engine.Passes`  — what may happen while an instance does not write or bind a name: whatever is
  done beside it, and what it does itself to other names.
* `World.Owned`    — what an instance has under a name, in its locals and, on the root, in the
  globals. It has it until it writes or binds the name.
* `World.Parted`   — no name is both a local of the root and a global. `Ledger.parted` — so it is in
  every history: only the root could make it so, and it has no handler to be shown failures.
* `Engine.read_your_writes` — so what was written is read until the next write.
-/

namespace StepScript

open World Exec

/-- What an instance has under a name: in its locals and, if it is the root, in the globals. -/
structure World.Owned (f : Frame) (n : String) (own shared : Option Value) (w : World) : Prop
    extends Holds f n own w where
  global : f.isRoot = true → w.root.globals.get? n = shared

/-- What may happen while `f` does not write or bind `n`: `f` is at work on other names, and other
instances on whatever they like. -/
inductive Engine.Passes (engine : Engine) (f : Frame) (n : String) : World → World → Prop where
  | own {name : Option String} {w w' : World} : engine.Does f name w w' → name ≠ some n →
      Passes engine f n w w'
  | beside {w w' : World} : engine.Beside f w w' → Passes engine f n w w'

namespace Engine.Passes

variable {engine : Engine} {f : Frame} {n : String} {w w' : World} {own shared : Option Value}

theorem holds (h : engine.Passes f n w w') (hw : Holds f n own w) : Holds f n own w' := by
  cases h with
  | own hdoes hne => exact hdoes.holds (fun _ => hne) hw
  | beside hbeside => exact hbeside.holds hw

theorem globals (h : engine.Passes f n w w') (hw : Holds f n own w) (hf : f.isRoot = true) :
    w'.root.globals.get? n = w.root.globals.get? n := by
  cases h with
  | own hdoes hne => exact hdoes.globals hne
  | beside hbeside => rw [hbeside.globals hw hf]

theorem owned (h : engine.Passes f n w w') (hw : Owned f n own shared w) :
    Owned f n own shared w' :=
  ⟨h.holds hw.toHolds, fun hf => (h.globals hw.toHolds hf).trans (hw.global hf)⟩

end Engine.Passes

namespace World.Owned

variable {engine : Engine} {f : Frame} {n : String} {v : Value} {own shared : Option Value}
variable {w w' : World}

theorem passes (h : Owned f n own shared w)
    (hpasses : Relation.ReflTransGen (engine.Passes f n) w w') : Owned f n own shared w' := by
  induction hpasses with
  | refl => exact h
  | tail _ hstep ih => exact hstep.owned ih

/-- A local is found first. -/
theorem lookup_local (h : Owned f n (some v) shared w) (symbols : Symbols) :
    w.lookup? symbols f n = some v := by
  simp only [lookup?, h.found, Option.some_or]

/-- A global of the root is found, unless it is hidden by a local. -/
theorem lookup_global (h : Owned .root n none (some v) w) (symbols : Symbols) :
    w.lookup? symbols .root n = some v := by
  have hglobal : (w.globalsOf .root).get? n = some v := h.global rfl
  simp only [lookup?, h.found, hglobal, Option.none_or, Option.some_or]

theorem read_local (h : Owned f n (some v) shared w) : Exec.read engine f n w = (.ok v, w) :=
  read_of_lookup (h.lookup_local engine.symbols)

theorem read_global (h : Owned .root n none (some v) w) :
    Exec.read engine .root n w = (.ok v, w) :=
  read_of_lookup (h.lookup_global engine.symbols)

end World.Owned

/-! ## Locals of the root and globals -/

/-- No name is both a local of the root and a global. -/
def World.Parted (w : World) : Prop :=
  ∀ n, (w.locals Frame.root.id).get? n = none ∨ w.root.globals.get? n = none

theorem World.Coherent.pending_ne_root {w : World} (h : w.Coherent) {p : Pending}
    (hp : p ∈ w.pending) : p.frame.id ≠ Frame.root.id := by
  simpa [Frame.isRoot, Frame.root] using h.forked p hp

theorem World.isGlobal_root (w : World) (n : String) :
    w.isGlobal .root n = (w.root.globals.get? n).isSome :=
  Bool.or_self _

namespace World.Parted

variable {engine : Engine} {name : Option String} {n : String} {v : Value} {w w' : World}
variable (h : w.Parted) (hw : w.Coherent) (hroot : .root ∈ w.frames)

include h hw hroot

theorem of_passes (hpasses : engine.Passes .root n w w') :
    (w'.locals Frame.root.id).get? n = none ∨ w'.root.globals.get? n = none := by
  have howned : Owned .root n ((w.locals Frame.root.id).get? n) (w.root.globals.get? n) w' :=
    hpasses.owned ⟨⟨hroot, hw, rfl⟩, fun _ => rfl⟩
  rw [howned.found, howned.global rfl]
  exact h n

/-- Where the root writes a name, it is either a global or a local afterwards. -/
theorem does (hdoes : engine.Does .root name w w') : w'.Parted := by
  intro n
  by_cases hname : name = some n
  · subst hname
    cases hdoes with
    | set hwrite =>
      rcases (write_eq_ok_iff.1 hwrite).2 with ⟨hglobal, -, rfl⟩ | ⟨hglobal, rfl⟩
      · rw [isGlobal_root, Option.isSome_iff_ne_none] at hglobal
        exact .inl ((h n).resolve_right hglobal)
      · rw [isGlobal_root, Option.isSome_eq_false_iff, Option.isNone_iff_eq_none] at hglobal
        exact .inr hglobal
    | define hdefine =>
      obtain ⟨-, -, rfl⟩ := defineGlobal_eq_ok_iff.1 hdefine
      have hself := Holds.update_self (n := n) ⟨hroot, hw, rfl⟩ (·.erase n)
      rw [Table.get?_erase, if_pos rfl] at hself
      exact .inl hself.found
    | announce e _ hhandler => exact absurd rfl hhandler
  · exact h.of_passes hw hroot (.own hdoes hname)

theorem deeds (hdeeds : engine.Deeds .root w w') : w'.Parted := by
  have hlive : w'.Parted ∧ w'.Coherent ∧ .root ∈ w'.frames := by
    induction hdeeds with
    | refl => exact ⟨h, hw, hroot⟩
    | tail _ hstep ih =>
      obtain ⟨name, hdoes⟩ := hstep
      obtain ⟨hparted, hcoherent, hframes⟩ := ih
      exact ⟨hparted.does hcoherent hframes hdoes, hdoes.live hcoherent hframes⟩
  exact hlive.1

omit hroot

/-- What was written is a local or, on the root, a global that no local hides. -/
theorem written {f : Frame} (hf : f ∈ w.frames) (hmade : f.Made)
    (hwrite : Exec.write engine f n v w = (.ok (), w') ∨
      Exec.change (·.defineGlobal engine.symbols f n v) w = (.ok (), w')) :
    (∃ shared, Owned f n (some v) shared w') ∨ (f = .root ∧ Owned .root n none (some v) w') := by
  have hglobals : (w.root.globals.insert n v).get? n = some v :=
    (Table.get?_insert _ n n v).trans (if_pos rfl)
  rcases hwrite with hwrite | hdefine
  · rcases (write_eq_ok_iff.1 hwrite).2 with ⟨hglobal, hroot, rfl⟩ | ⟨-, rfl⟩
    · obtain rfl := hmade.eq_root hroot
      rw [isGlobal_root, Option.isSome_iff_ne_none] at hglobal
      have hlocal : Holds .root n none w := ⟨hf, hw, (h n).resolve_right hglobal⟩
      exact .inr ⟨rfl, hlocal.of_instances rfl rfl, fun _ => hglobals⟩
    · have hself := Holds.update_self (n := n) ⟨hf, hw, rfl⟩ (·.insert n v)
      rw [Table.get?_insert, if_pos rfl] at hself
      exact .inl ⟨_, hself, fun _ => rfl⟩
  · obtain ⟨hroot, -, rfl⟩ := defineGlobal_eq_ok_iff.1 hdefine
    obtain rfl := hmade.eq_root hroot
    have hself := Holds.update_self (n := n) ⟨hf, hw, rfl⟩ (·.erase n)
    rw [Table.get?_erase, if_pos rfl] at hself
    exact .inr ⟨rfl, hself.of_instances rfl rfl, fun _ => hglobals⟩

end World.Parted

namespace Engine

variable {engine : Engine} {kept : List Frame} {w : World}

theorem Ledger.parted (h : engine.Ledger kept w) : w.Parted := by
  induction h with
  | start => exact fun n => .inl rfl
  | @call kept w f α c h hf ih =>
    have hw := h.accounted
    by_cases hroot : f = .root
    · subst hroot
      exact ih.deeds hw.coherent hw.root_live
        (c.exec_does engine hw.coherent (List.mem_map_of_mem hf))
    · exact fun n => ih.of_passes hw.coherent hw.root_live (.beside (.call c hf hroot))
  | @tend kept w w' h htends ih =>
    have hw := h.accounted
    have hother : engine.Tends (· ≠ Frame.root.id) w w' :=
      htends.imp fun p hp _ => hw.coherent.pending_ne_root hp
    exact fun n => ih.of_passes hw.coherent hw.root_live (.beside (.tend hother))
  | @drop before after g w h ih =>
    have hw := h.accounted
    obtain ⟨hroot, hp⟩ := hw.kept_apart
    have hbeside : engine.Beside .root w (w.release g.id) := .drop hroot hp
    exact fun n => ih.of_passes hw.coherent hw.root_live (.beside hbeside)

/-- Instances read what they have written. In every history of an engine, no name is both a local of
the root and a global. So after an instance has written a variable, or the root has made it global,
it reads that value, whatever the other instances do and whatever it does itself, until it writes or
binds the name again. All that a host calls on an instance consists of what the instance does, and
unless the call can assign variables in its name, it writes and binds nothing. -/
theorem read_your_writes (engine : Engine) (kept : List Frame) (w : World)
    (h : engine.Ledger kept w) :
    w.Parted ∧
    (∀ f ∈ w.frames, ∀ n v w₁,
      Exec.write engine f n v w = (.ok (), w₁) ∨
        Exec.change (·.defineGlobal engine.symbols f n v) w = (.ok (), w₁) →
      ∀ w₂, Relation.ReflTransGen (engine.Passes f n) w₁ w₂ →
        Exec.read engine f n w₂ = (.ok v, w₂)) ∧
    ∀ f ∈ w.frames, ∀ {α : Type} (c : HostCall α),
      engine.Deeds f w (c.exec engine f w).2 ∧
        (c.assigns = false → engine.Does f none w (c.exec engine f w).2) := by
  have hw := h.accounted
  refine ⟨h.parted, fun f hf n v w₁ hwrite w₂ hpasses => ?_, fun f hf α c => ⟨?_, fun hc => ?_⟩⟩
  · rcases h.parted.written hw.coherent hf (hw.regular f hf).made hwrite with
      ⟨shared, howned⟩ | ⟨rfl, howned⟩
    · exact (howned.passes hpasses).read_local
    · exact (howned.passes hpasses).read_global
  · exact c.exec_does engine hw.coherent (List.mem_map_of_mem hf)
  · exact .aside (c.exec_aside engine hc hw.coherent (List.mem_map_of_mem hf))

/-- The root writes a name that was a local of it and is a global now. Then it writes another name,
a fork is refused to write the first, and the root makes a constant of it. -/
theorem read_your_writes_of_global :
    let engine : Engine := {}
    let call {α : Type} (f : Frame) (r : HostRequest α) (w : World) : World :=
      ((HostCall.request r).exec engine f w).2
    let w₀ := call .root (.set "x" .nil) {}
    let child := w₀.nextFrame .root "kept" none .host
    let w := call .root (.setGlobal "x" (.bool true)) (call .root (.fork "kept" none) w₀)
    let w₁ := call .root (.set "x" (.bool false)) w
    let w₂ := call .root (.set "y" .nil) w₁
    let w₃ := call child (.set "x" .nil) w₂
    let w₄ := call .root (.setConstant "x" .nil) w₃
    (engine.Ledger [child] w ∧ Exec.write engine .root "x" (.bool false) w = (.ok (), w₁) ∧
      Relation.ReflTransGen (engine.Passes .root "x") w₁ w₄) ∧
    w.Parted ∧ Exec.read engine .root "x" w₄ = (.ok (.bool false), w₄) := by
  intro engine call w₀ child w w₁ w₂ w₃ w₄
  have hw₀ : engine.Ledger [] w₀ := .call (.request (.set "x" .nil)) .start List.mem_cons_self
  have hforked : engine.Ledger [child] (call .root (.fork "kept" none) w₀) :=
    .call (.request (.fork "kept" none)) hw₀ hw₀.accounted.root_live
  have hw : engine.Ledger [child] w :=
    .call (.request (.setGlobal "x" (.bool true))) hforked hforked.accounted.root_live
  have hroot : Frame.root ∈ w.frames := hw.accounted.root_live
  have hw₁ : engine.Ledger [child] w₁ := .call (.request (.set "x" (.bool false))) hw hroot
  have hw₂ : engine.Ledger [child] w₂ :=
    .call (.request (.set "y" .nil)) hw₁ hw₁.accounted.root_live
  have hkept : child ∈ w₂.pending.map (·.frame) ++ [.root, child] :=
    List.mem_append_right _ (List.mem_cons_of_mem _ List.mem_cons_self)
  have hchild : child ∈ w₂.frames := hw₂.accounted.live.mem_iff.2 hkept
  have hw₃ : engine.Ledger [child] w₃ := .call (.request (.set "x" .nil)) hw₂ hchild
  have hwrite : Exec.write engine .root "x" (.bool false) w = (.ok (), w₁) := rfl
  have hset : Exec.write engine .root "y" .nil w₁ = (.ok (), w₂) := rfl
  have hother : engine.Passes .root "x" w₁ w₂ := .own (.set hset) (by decide)
  have hrefused : engine.Passes .root "x" w₂ w₃ :=
    .beside (.call (.request (.set "x" .nil)) hchild fun e =>
      absurd (congrArg Frame.id e) (by decide))
  obtain ⟨-, -, hcalls⟩ := read_your_writes engine _ w₃ hw₃
  have hconstant : engine.Passes .root "x" w₃ w₄ :=
    .own ((hcalls .root hw₃.accounted.root_live (.request (.setConstant "x" .nil))).2 rfl)
      (by decide)
  have hpasses : Relation.ReflTransGen (engine.Passes .root "x") w₁ w₄ :=
    ((Relation.ReflTransGen.single hother).tail hrefused).tail hconstant
  obtain ⟨hparted, hread, -⟩ := read_your_writes engine _ w hw
  exact ⟨⟨hw, hwrite, hpasses⟩, hparted,
    hread .root hroot "x" (.bool false) w₁ (.inl hwrite) w₄ hpasses⟩

end Engine

end StepScript
