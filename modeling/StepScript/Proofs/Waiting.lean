import StepScript.Proofs.Habit

/-!
# StepScript.Proofs.Waiting

Handlers that wait are deeper than the instance that started them, and no deeper than forks may be.

* `World.Started engine depth` — only such handlers were added to those that wait.
* `Exec.started_habit`, `Engine.runRound_starts` — so it is with everything that runs at some depth, and
  with a round of handlers that have at least that depth.
* `Engine.settle_pending` — so the rounds come to an end: when an operation is settled, no handler
  waits.
-/

namespace StepScript

/-- The only handlers that have been added to those that wait are deeper than `depth`. -/
def World.Started (engine : Engine) (depth : Nat) (w w' : World) : Prop :=
  ∃ new : List Pending, w'.pending = w.pending ++ new ∧
    ∀ p ∈ new, depth < p.frame.depth ∧ p.frame.depth ≤ engine.config.maxCallDepth

namespace World.Started

variable {engine : Engine} {depth : Nat} {w w' w'' : World}

theorem of_pending (h : w'.pending = w.pending) : Started engine depth w w' :=
  ⟨[], by simp [h], by simp⟩

theorem trans (h : Started engine depth w w') (h' : Started engine depth w' w'') :
    Started engine depth w w'' := by
  obtain ⟨new, hp, hnew⟩ := h
  obtain ⟨new', hp', hnew'⟩ := h'
  refine ⟨new ++ new', by rw [hp', hp, List.append_assoc], ?_⟩
  intro p hm
  rcases List.mem_append.1 hm with hm | hm
  · exact hnew p hm
  · exact hnew' p hm

theorem mono {depth' : Nat} (h : Started engine depth w w') (hd : depth' ≤ depth) :
    Started engine depth' w w' := by
  obtain ⟨new, hp, hnew⟩ := h
  exact ⟨new, hp, fun p hm => ⟨Nat.lt_of_le_of_lt hd (hnew p hm).1, (hnew p hm).2⟩⟩

end World.Started

namespace Exec

open World

variable {engine : Engine} {enter : Enter} {f : Frame} {depth : Nat} {α : Type}

abbrev Starts (engine : Engine) (depth : Nat) : ∀ α : Type, (Unit → Exec α) → Prop :=
  Keeps (Started engine depth)

theorem Starts.closed : Closed (fun _ => True) (Starts engine depth) :=
  Keeps.closed .trans fun _ => .of_pending rfl

theorem Starts.of_pending {X : Unit → Exec α} (h : ∀ w, (X () w).2.pending = w.pending) :
    Starts engine depth α X :=
  fun w _ => .of_pending (h w)

theorem note_starts (e : Effect) : Starts engine depth Unit fun _ => note e :=
  .of_pending fun _ => rfl

theorem write_starts (name : String) (v : Value) :
    Starts engine depth Unit fun _ => write engine f name v := by
  refine .of_pending fun w => ?_
  rcases write_world engine f name v w with h | ⟨-, h⟩ | h <;> rw [h] <;> rfl

/-- A handler waits in a fork of the instance that raised its event. -/
theorem start_starts (hf : depth ≤ f.depth) (name source : String) (event : Value)
    (h : EventHandler) : Starts engine depth Nat fun _ => start engine f name source event h := by
  intro w _
  rcases start_world engine f name source event h w with ⟨hd, hstart⟩ | ⟨trace, hstart⟩
  · rw [hstart]
    refine ⟨[_], rfl, fun p hm => ?_⟩
    rw [List.mem_singleton.1 hm]
    exact ⟨Nat.lt_succ_of_le hf, hd⟩
  · rw [hstart]
    exact .of_pending rfl

theorem raise_starts (hf : depth ≤ f.depth) (name source : String) (payload : Value) :
    Starts engine depth Nat fun _ => raise engine f name source payload :=
  raise_closed Starts.closed (fun _ => rfl) (start_starts hf) name source payload

/-- Forks are deeper than their parents. -/
theorem started_habit : Habit (fun f => depth ≤ f.depth) (Started engine depth) engine where
  trans := .trans
  target _ := .of_pending rfl
  instances _ _ := .of_pending rfl
  procedure _ _ _ hf := Nat.le_succ_of_le hf
  write name v _ := write_starts name v
  invoke name args hf := invoke_closed Starts.closed (raise_starts hf) (fun _ _ => note_starts _)
    (fun _ => note_starts _) name args
  emit _ _ := note_starts _
  whisper _ _ := note_starts _
  promptUser := promptUser_closed Starts.closed engine (fun _ => note_starts _)
    (fun _ => Starts.of_pending fun _ => rfl) fun _ _ _ _ _ _ => trivial
  recover _ _ := note_starts _
  clear _ := note_starts _
  chat _ _ _ := Starts.of_pending fun _ => rfl
  act hf henter := act_closed Starts.closed (fun a => henter a fun _ => Nat.le_succ_of_le hf)
    fun _ => Starts.of_pending fun _ => rfl
  openConversation := Starts.of_pending fun _ => rfl

end Exec

section Operations

open World Exec

theorem Operation.exec_starts {α : Type} (engine : Engine) (f : Frame) (op : Operation α) :
    Starts engine f.depth α fun _ => op.exec engine f :=
  started_habit.operation (Nat.le_refl _) op fun _ => raise_starts (Nat.le_refl _)

end Operations

namespace Engine

open World Exec

variable (engine : Engine)

theorem runPending_starts (p : Pending) (w : World) :
    Started engine p.frame.depth w (engine.runPending p w) := by
  have hbody : Starts engine p.frame.depth Outcome fun _ => engine.handlerBody p :=
    started_habit.handlerBody (Nat.le_refl _)
  have hreset : Started engine p.frame.depth w { w with trace := #[] } := .of_pending rfl
  have hdone := hreset.trans (hbody _ (.of_pending rfl))
  rw [runPending_eq]
  exact hdone.trans (.of_pending rfl)

theorem runRound_starts {depth : Nat} (queue : List Pending) : ∀ w,
    (∀ p ∈ queue, depth ≤ p.frame.depth) →
      Started engine depth w (engine.runRound queue w).2 := by
  induction queue with
  | nil => intro w _; exact .of_pending rfl
  | cons p rest ih =>
    intro w hqueue
    have hp := (engine.runPending_starts p w).mono (hqueue p List.mem_cons_self)
    exact hp.trans (ih _ fun q hq => hqueue q (List.mem_cons_of_mem _ hq))

/-- Each round is a level deeper than the last, and there are no forks below the deepest. -/
theorem settleRounds_pending (rounds : Nat) : ∀ (depth : Nat) (w : World),
    (∀ p ∈ w.pending, depth ≤ p.frame.depth ∧ p.frame.depth ≤ engine.config.maxCallDepth) →
      engine.config.maxCallDepth < depth + rounds →
        (engine.settleRounds rounds w).2.pending = [] := by
  induction rounds with
  | zero =>
    intro depth w hw hdepth
    refine List.eq_nil_iff_forall_not_mem.2 fun p hp => ?_
    have := hw p hp
    omega
  | succ rounds ih =>
    intro depth w hw hdepth
    simp only [settleRounds]
    split
    · assumption
    · obtain ⟨new, hnew, hdeep⟩ := engine.runRound_starts w.pending { w with pending := [] }
        fun p hp => (hw p hp).1
      refine ih (depth + 1) _ (fun p hp => ?_) (by omega)
      rw [hnew] at hp
      have := hdeep p (by simpa using hp)
      omega

end Engine

/-- Handlers that wait have forks, and the forks are not too deep. -/
def World.Seated (engine : Engine) (w : World) : Prop :=
  ∀ p ∈ w.pending, 0 < p.frame.depth ∧ p.frame.depth ≤ engine.config.maxCallDepth

theorem World.Seated.started {engine : Engine} {depth : Nat} {w w' : World} (h : w.Seated engine)
    (hs : Started engine depth w w') : w'.Seated engine := by
  obtain ⟨new, hp, hnew⟩ := hs
  intro p hm
  rw [hp] at hm
  rcases List.mem_append.1 hm with hm | hm
  · exact h p hm
  · exact ⟨Nat.zero_lt_of_lt (hnew p hm).1, (hnew p hm).2⟩

/-- When everything is settled, no handler waits. -/
theorem Engine.settle_pending (engine : Engine) {w : World} (h : w.Seated engine) :
    (engine.settle w).2.pending = [] :=
  engine.settleRounds_pending _ 1 w h (by omega)

end StepScript
