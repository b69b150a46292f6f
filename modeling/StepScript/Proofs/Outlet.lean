import StepScript.Proofs.Reachable

/-!
# StepScript.Proofs.Outlet

The outlets that instances emit to. Captures are numbered, and no number is given away twice.

* `Outlet.Open`      — the outlet is there: it is the host's, or a capture with a number that was
  given away.
* `World.Connected`  — so are the outlets of all instances and of all handlers that wait.
* `World.Continued`  — what happens while an instance runs: captures are opened, never closed, and
  what is emitted goes to outlets that are open.
* `World.Underway`   — an instance in the middle of a run. It is underway when the host calls it,
  it stays so whatever it does, and the forks whose bodies it enters start so.
-/

namespace StepScript

/-- The outlet is there if `n` captures were opened. -/
def Outlet.Open (n : Nat) : Outlet → Prop
  | .host => True
  | .capture serial => serial < n

theorem Outlet.Open.mono {n m : Nat} {o : Outlet} (h : o.Open n) (hnm : n ≤ m) : o.Open m := by
  cases o with
  | host => exact trivial
  | capture serial => exact Nat.lt_of_lt_of_le h hnm

namespace World

/-- Whoever can emit has an outlet. -/
structure Connected (w : World) : Prop where
  frames : ∀ g ∈ w.frames, g.outlet.Open w.captures
  pending : ∀ p ∈ w.pending, p.frame.outlet.Open w.captures

/-- What may have happened while an instance ran. -/
structure Continued (f : Frame) (w w' : World) : Prop where
  outlet : f.outlet.Open w.captures
  captures : w.captures ≤ w'.captures
  connected : w'.Connected
  emitted : ∃ new, w'.trace.toList = w.trace.toList ++ new ∧
    ∀ o v, .emit o v ∈ new → o.Open w'.captures

/-- The instance is in the middle of a run: its outlet is open, and so are all that were emitted
to. -/
structure Underway (f : Frame) (w : World) : Prop where
  connected : w.Connected
  outlet : f.outlet.Open w.captures
  emitted : ∀ o v, .emit o v ∈ w.trace → o.Open w.captures

theorem connected_start : ({} : World).Connected := by
  refine ⟨fun g hg => ?_, fun p hp => ?_⟩
  · obtain rfl : g = Frame.root := List.mem_singleton.1 hg
    exact trivial
  · cases hp

namespace Connected

variable {w w' : World}

theorem congr (h : w.Connected) (hc : w.captures ≤ w'.captures)
    (hf : ∀ g ∈ w'.frames, g ∈ w.frames ∨ g.outlet.Open w'.captures)
    (hp : ∀ p ∈ w'.pending, p ∈ w.pending ∨ p.frame.outlet.Open w'.captures) : w'.Connected := by
  refine ⟨fun g hg => ?_, fun p hp' => ?_⟩
  · rcases hf g hg with hold | hopen
    · exact (h.frames g hold).mono hc
    · exact hopen
  · rcases hp p hp' with hold | hopen
    · exact (h.pending p hold).mono hc
    · exact hopen

theorem of_same (h : w.Connected) (hc : w.captures ≤ w'.captures) (hf : w'.frames = w.frames)
    (hp : w'.pending = w.pending) : w'.Connected :=
  h.congr hc (fun _ hg => .inl (hf ▸ hg)) fun _ hp' => .inl (hp ▸ hp')

/-- A fork with an open outlet. -/
theorem enlist (h : w.Connected) {f child : Frame} (hchild : child.outlet.Open w.captures) :
    (w.enlist f child).Connected := by
  refine h.congr (Nat.le_refl _) (fun g hg => ?_) fun _ hp => .inl hp
  rw [enlist_frames] at hg
  rcases List.mem_cons.1 hg with rfl | hg
  · exact .inr hchild
  · exact .inl hg

theorem release (h : w.Connected) (id : InstanceId) : (w.release id).Connected := by
  refine h.congr (Nat.le_refl _) (fun g hg => ?_) fun _ hp => .inl hp
  rw [release_frames] at hg
  exact .inl (List.mem_of_mem_eraseP hg)

end Connected

theorem bindAll_frames (id : InstanceId) (pairs : List (String × Value)) : ∀ w : World,
    (w.bindAll id pairs).frames = w.frames := by
  induction pairs with
  | nil => intro w; rfl
  | cons p rest ih => intro w; exact (ih (w.bind id p.1 p.2)).trans (bind_frames ..)

theorem Connected.entry {w : World} (h : w.Connected) (f : Frame) {a : Activation}
    (ha : a.outlet.Open w.captures) : (Exec.entryWorld f a w).Connected := by
  have hfork : (w.enlist f (w.nextFrame f a.label a.body.handler a.outlet)).Connected := h.enlist ha
  refine hfork.of_same ?_ (bindAll_frames _ _ _) (Exec.entryWorld_pending f a w)
  exact Nat.le_of_eq (Exec.entryWorld_captures f a w).symm

namespace Continued

variable {f : Frame} {w w' w'' : World}

theorem refl (hf : f.outlet.Open w.captures) (hw : w.Connected) : Continued f w w :=
  ⟨hf, Nat.le_refl _, hw, [], by simp, by simp⟩

theorem trans (h : Continued f w w') (h' : Continued f w' w'') : Continued f w w'' := by
  obtain ⟨new, hnew, hopen⟩ := h.emitted
  obtain ⟨new', hnew', hopen'⟩ := h'.emitted
  refine ⟨h.outlet, Nat.le_trans h.captures h'.captures, h'.connected, new ++ new', ?_, ?_⟩
  · rw [hnew', hnew, List.append_assoc]
  · intro o v hmem
    rcases List.mem_append.1 hmem with hmem | hmem
    · exact (hopen o v hmem).mono h'.captures
    · exact hopen' o v hmem

theorem target (h : Continued f w w') : Continued f w' w' :=
  .refl (h.outlet.mono h.captures) h.connected

/-- Nothing is emitted and no instance is made. -/
theorem of_same (h : Continued f w w) (hc : w.captures ≤ w'.captures) (hf : w'.frames = w.frames)
    (hp : w'.pending = w.pending) (ht : w'.trace = w.trace) : Continued f w w' :=
  ⟨h.outlet, hc, h.connected.of_same hc hf hp, [], by simp [ht], by simp⟩

theorem underway (h : Continued f w w') (hw : Underway f w) : Underway f w' := by
  obtain ⟨new, hnew, hopen⟩ := h.emitted
  refine ⟨h.connected, hw.outlet.mono h.captures, fun o v hmem => ?_⟩
  rw [← Array.mem_toList_iff, hnew, List.mem_append, Array.mem_toList_iff] at hmem
  rcases hmem with hold | hmem
  · exact (hw.emitted o v hold).mono h.captures
  · exact hopen o v hmem

end Continued

theorem Underway.continued {f : Frame} {w : World} (h : Underway f w) : Continued f w w :=
  .refl h.outlet h.connected

end World

/-! ## Whatever runs continues -/

namespace Exec

open World

variable {engine : Engine} {enter : Enter} {f : Frame} {α : Type}

abbrev Continues (f : Frame) : ∀ α : Type, (Unit → Exec α) → Prop := Keeps (Continued f)

theorem Continues.closed : Closed (fun _ => True) (Continues f) := Keeps.closed .trans .target

theorem Continues.of_same {X : Unit → Exec α}
    (h : ∀ w, (X () w).2.captures = w.captures ∧ (X () w).2.frames = w.frames ∧
      (X () w).2.pending = w.pending ∧ (X () w).2.trace = w.trace) : Continues f α X := by
  intro w hw
  obtain ⟨hc, hf, hp, ht⟩ := h w
  exact hw.of_same (Nat.le_of_eq hc.symm) hf hp ht

theorem note_continues {e : Effect} (h : ∀ o v, e = .emit o v → o = f.outlet) :
    Continues f Unit fun _ => note e := by
  intro w hw
  refine ⟨hw.outlet, Nat.le_refl _, hw.connected.of_same (Nat.le_refl _) rfl rfl, [e],
    Array.toList_push, fun o v hmem => ?_⟩
  rw [h o v (List.mem_singleton.1 hmem).symm]
  exact hw.outlet

theorem bindLocal_continues (name : String) (v : Value) :
    Continues f Unit fun _ => bindLocal f name v :=
  .of_same fun w => ⟨rfl, bind_frames w f.id name v, rfl, rfl⟩

theorem write_continues (name : String) (v : Value) :
    Continues f Unit fun _ => write engine f name v := by
  refine .of_same fun w => ?_
  rcases write_world engine f name v w with h | ⟨-, h⟩ | h <;> rw [h]
  · exact ⟨rfl, rfl, rfl, rfl⟩
  · exact ⟨rfl, rfl, rfl, rfl⟩
  · exact ⟨rfl, bind_frames w f.id name v, rfl, rfl⟩

theorem branch_continues (label : String) (handler : Option (List Step)) :
    Continues f Frame fun _ => branch f label handler f.outlet := by
  intro w hw
  exact ⟨hw.outlet, Nat.le_refl _, hw.connected.enlist hw.outlet, [], (List.append_nil _).symm,
    by simp⟩

/-- A handler waits in a fork with the outlet of the instance that raised its event. -/
theorem start_continues (name source : String) (event : Value) (h : EventHandler) :
    Continues f Nat fun _ => start engine f name source event h := by
  intro w hw
  dsimp only
  by_cases hd : f.depth + 1 ≤ engine.config.maxCallDepth
  · have hfork := branch_continues ("event:" ++ name) h.body.handler w hw
    rw [start_of_depth hd]
    refine hfork.trans ⟨hw.outlet, Nat.le_refl _, ?_, [], (List.append_nil _).symm, by simp⟩
    refine hfork.connected.congr (Nat.le_refl _) (fun _ hg => .inl hg) fun p hp => ?_
    rcases List.mem_append.1 hp with hold | hnew
    · exact .inl hold
    · rw [List.mem_singleton.1 hnew]
      exact .inr hw.outlet
  · rw [start_of_refusal hd]
    refine ⟨hw.outlet, Nat.le_refl _, hw.connected.of_same (Nat.le_refl _) rfl rfl, _,
      Array.toList_appendList, fun o v hmem => ?_⟩
    obtain ⟨e, he⟩ := Engine.mem_notices hmem
    cases he

theorem raise_continues (name source : String) (payload : Value) :
    Continues f Nat fun _ => raise engine f name source payload :=
  raise_closed Continues.closed (fun _ => rfl) start_continues name source payload

theorem invoke_continues (name : String) (args : List Value) :
    Continues f Value fun _ => invoke engine f name args :=
  invoke_closed Continues.closed raise_continues (fun _ _ => note_continues nofun)
    (fun _ => note_continues nofun) name args

section Instance

variable (henter : ∀ (a : Activation) (w : World), Continued f w w → a.outlet.Open w.captures →
  Continued f w (enter f a w).2)

include henter

theorem callees_continue :
    Callees (Continues f) engine (fun _ => enter) (fun _ => f) f.outlet where
  enter a ha w hw := by
    refine henter a w hw ?_
    rw [ha]
    exact hw.outlet
  invoke := invoke_continues
  outlet _ := rfl

/-- The actions of an agent emit into a capture that is opened for them. -/
theorem act_continues (t : Talk) (turn : Nat) (reply : Envelope) :
    Continues f String fun _ => act engine enter f t turn reply := by
  intro w hw
  dsimp only
  rcases act_cases engine enter f t turn reply w with ⟨e, hact, -⟩ | ⟨_, body, -, -, hact⟩
  · rw [hact]
    exact hw
  · have hopened : Continued f w { w with captures := w.captures + 1 } :=
      hw.of_same (Nat.le_succ _) rfl rfl rfl
    rw [hact]
    exact hopened.trans (henter _ _ hopened.target (Nat.lt_succ_self _))

theorem talks_continue : Talks (Continues f) engine (fun _ => enter) (fun _ => f) where
  chat _ _ _ := .of_same fun _ => ⟨rfl, rfl, rfl, rfl⟩
  act := act_continues henter
  openConversation := .of_same fun _ => ⟨rfl, rfl, rfl, rfl⟩

theorem run_continues (mode : Mode) (steps : List Step) :
    Continues f Outcome fun _ => run engine enter f mode steps := by
  have hP : Closed (fun _ => True) (Continues f) := Continues.closed
  have hprimitives : Primitives (Continues f) engine (fun _ => enter) (fun _ => f) :=
    { read := read_closed hP engine f
      call := (callees_continue henter).call hP.toSequenced hP.lookups
      write := write_continues
      ask := (talks_continue henter).ask hP
      emit := emit_closed hP engine f fun _ => note_continues (by rintro _ _ ⟨⟩; rfl)
      whisper := whisper_closed hP engine fun _ _ => note_continues nofun
      promptUser := promptUser_closed hP engine (fun _ => note_continues nofun)
        (fun _ => .of_same fun _ => ⟨rfl, rfl, rfl, rfl⟩) fun _ _ _ _ _ _ => trivial
      clear := note_continues nofun }
  exact run_closed hP.toSequenced hprimitives (fun _ => rfl) (fun _ => note_continues nofun)
    bindLocal_continues ⟨trivial, trivial⟩ (fun _ _ => trivial) (fun _ _ => trivial) steps

end Instance

/-- A body that is entered with an open outlet. The induction is on the levels below the
instance. -/
theorem enter_continues (levels : Nat) : ∀ (f : Frame) (a : Activation) (w : World),
    Continued f w w → a.outlet.Open w.captures →
      Continued f w (Exec.enter engine levels f a w).2 := by
  induction levels with
  | zero => intro f a w hw _; exact hw
  | succ levels ih =>
    intro f a w hw ha
    have hchild : Continued (w.nextFrame f a.label a.body.handler a.outlet) (entryWorld f a w)
        (entryWorld f a w) := by
      refine .refl ?_ (hw.connected.entry f ha)
      rw [entryWorld_captures]
      exact ha
    have hrun : Continues (w.nextFrame f a.label a.body.handler a.outlet) Outcome fun _ =>
        run engine (Exec.enter engine levels) (w.nextFrame f a.label a.body.handler a.outlet) {}
          a.body.steps :=
      run_continues (ih _) {} a.body.steps
    obtain ⟨-, hcaptures, hconnected, new, hnew, hopen⟩ := hrun (entryWorld f a w) hchild
    rw [entryWorld_captures] at hcaptures
    rw [entryWorld_trace] at hnew
    rw [enter_world]
    exact ⟨hw.outlet, hcaptures, hconnected.release _, new, hnew, hopen⟩

theorem engine_enter_continues (f : Frame) (a : Activation) (w : World) (hw : Continued f w w)
    (ha : a.outlet.Open w.captures) : Continued f w (engine.enter f a w).2 :=
  enter_continues (engine.levels f) f a w hw ha

end Exec

/-! ## Calls of the host and handlers -/

open World Exec

variable {engine : Engine}

theorem HostRequest.exec_continues {α : Type} (engine : Engine) (f : Frame) (r : HostRequest α) :
    Continues f α fun _ => r.exec engine f := by
  have hP : Closed (fun _ => True) (Continues f) := Continues.closed
  refine r.exec_of_operations hP.toSequenced hP.rooted
    (fun op _ => op.exec_of_callees hP.toSequenced hP.lookups hP.rooted
      (callees_continue (engine_enter_continues f)) (read_closed hP engine f)
      fun _ => raise_continues)
    (run_continues (engine_enter_continues f)) write_continues (fun name v => ?_) (fun name v => ?_)
    (fun _ => .of_same fun _ => ⟨rfl, rfl, rfl, rfl⟩)
    fun _ label handler => fork_closed hP engine f (branch_continues label handler)
  · refine .of_same fun w => ?_
    rcases defineGlobal_world engine.symbols f name v w with h | h <;> rw [h]
    · exact ⟨rfl, rfl, rfl, rfl⟩
    · have hframes : (w.update f.id fun i => { i with locals := i.locals.erase name }).frames =
          w.frames := by
        apply update_frames
        intro i
        rfl
      exact ⟨rfl, hframes, rfl, rfl⟩
  · refine .of_same fun w => ?_
    obtain ⟨constants, h⟩ := defineConstant_world f name v w
    rw [h]
    exact ⟨rfl, rfl, rfl, rfl⟩

theorem HostCall.exec_continues {α : Type} (engine : Engine) (f : Frame) (c : HostCall α) :
    Continues f α fun _ => c.exec engine f := by
  cases c with
  | request r => exact r.exec_continues engine f
  | ask agentModel prompt p =>
    exact (talks_continue (engine_enter_continues f)).ask Continues.closed agentModel prompt p

namespace Engine

/-- A handler leaves the world connected. -/
theorem runPending_connected (p : Pending) {w : World} (hw : w.Connected)
    (hp : p.frame.outlet.Open w.captures) :
    (engine.runPending p w).Connected ∧ w.captures ≤ (engine.runPending p w).captures := by
  have hbody : Continues p.frame Outcome fun _ => engine.handlerBody p :=
    handlerBody_closed Continues.closed.toSequenced (fun _ => rfl) (fun _ => rfl)
      bindLocal_continues (run_continues (engine_enter_continues p.frame) {} _)
  have hstart : Continued p.frame { w with trace := #[] } { w with trace := #[] } :=
    .refl hp (hw.of_same (Nat.le_refl _) rfl rfl)
  obtain ⟨-, hcaptures, hconnected, -⟩ := hbody _ hstart
  rw [runPending_eq]
  exact ⟨(hconnected.release p.frame.id).of_same (Nat.le_refl _) rfl rfl, hcaptures⟩

theorem runRound_connected (queue : List Pending) : ∀ {w : World}, w.Connected →
    (∀ p ∈ queue, p.frame.outlet.Open w.captures) → (engine.runRound queue w).2.Connected := by
  induction queue with
  | nil => intro w hw _; exact hw
  | cons p rest ih =>
    intro w hw hqueue
    obtain ⟨hconnected, hcaptures⟩ := runPending_connected p hw (hqueue p List.mem_cons_self)
    exact ih hconnected fun q hq => (hqueue q (List.mem_cons_of_mem _ hq)).mono hcaptures

theorem settle_connected {w : World} (hw : w.Connected) : (engine.settle w).2.Connected := by
  have hrounds (rounds : Nat) : ∀ {w : World}, w.Connected →
      (engine.settleRounds rounds w).2.Connected := by
    induction rounds with
    | zero => intro w hw; exact hw
    | succ rounds ih =>
      intro w hw
      simp only [settleRounds]
      split
      · exact hw
      · refine ih (runRound_connected w.pending ?_ hw.pending)
        exact hw.congr (Nat.le_refl _) (fun _ hg => .inl hg) fun _ hp => by cases hp
  exact hrounds _ hw

theorem Tends.connected {inside : InstanceId → Prop} {w w' : World}
    (h : engine.Tends inside w w') (hw : w.Connected) : w'.Connected := by
  cases h with
  | @handle p before after hpending =>
    have hmem {q : Pending} (hq : q ∈ p :: (before ++ after)) : q ∈ w.pending :=
      (World.perm_pending hpending).mem_iff.1 hq
    have hrest : { w with pending := before ++ after }.Connected :=
      hw.congr (Nat.le_refl _) (fun _ hg => .inl hg) fun q hq =>
        .inl (hmem (List.mem_cons_of_mem _ hq))
    exact (runPending_connected p hrest (hw.pending p (hmem List.mem_cons_self))).1
  | settle => exact settle_connected hw
  | administer => exact hw.of_same (Nat.le_refl _) rfl rfl
  | record => exact hw.of_same (Nat.le_refl _) rfl rfl

end Engine

theorem World.Reachable.connected {w : World} (h : w.Reachable engine) : w.Connected := by
  induction h with
  | start => exact connected_start
  | ask r _ hf ih => exact (r.exec_continues engine _ _ (.refl (ih.frames _ hf) ih)).connected
  | tend _ htends ih => exact htends.connected ih
  | drop _ _ _ ih => exact ih.release _

/-! ## Instances are underway -/

namespace World.Underway

variable {f : Frame} {w : World}

/-- The host calls an instance: nothing has been emitted yet. -/
theorem of_reachable (hw : w.Reachable engine) (hf : f ∈ w.frames) :
    Underway f { w with trace := #[] } :=
  ⟨hw.connected.of_same (Nat.le_refl _) rfl rfl, hw.connected.frames f hf, by simp⟩

/-- A handler that waits is run. -/
theorem of_pending {p : Pending} (hw : w.Connected) (hp : p ∈ w.pending) :
    Underway p.frame { w with trace := #[] } :=
  ⟨hw.of_same (Nat.le_refl _) rfl rfl, hw.pending p hp, by simp⟩

/-- The instance has done something. -/
theorem exec {α : Type} (h : Underway f w) (c : HostCall α) :
    Underway f (c.exec engine f w).2 :=
  (c.exec_continues engine f w h.continued).underway h

/-- The instance enters a body, with its own outlet or with that of a capture. -/
theorem entry (h : Underway f w) {a : Activation} (ha : a.outlet.Open w.captures) :
    Underway (w.nextFrame f a.label a.body.handler a.outlet) (entryWorld f a w) := by
  refine ⟨h.connected.entry f ha, ?_, ?_⟩
  · rw [entryWorld_captures]
    exact ha
  · rw [entryWorld_trace, entryWorld_captures]
    exact h.emitted

end World.Underway

end StepScript
