import StepScript.Proofs.Closure
import StepScript.Proofs.Instances
import StepScript.Proofs.Operation

/-!
# StepScript.Proofs.Isolation

Scripts write only into the locals of forks made for them.

* `World.Extended` — the only new live instances are the forks of handlers that were started
  meanwhile.
* `World.Undisturbed mine` — besides, the root, the stores and the locals of all instances but `mine`
  are as before.
* `Exec.enter_spares` — a body that runs in a fork disturbs nothing, however deep it goes: what its
  steps write is gone with the fork. By induction on the levels below the instance.
* `Engine.settle_queue` — what each handler keeps, in its turn, is kept by all rounds of handlers.
* `Engine.settle_sheltered` — the handlers that were started write only into their own forks.
* `World.Sheltered.start` — the instances that no waiting handler has are out of their reach.
-/

namespace StepScript

namespace World

/-- What every instance reads and only the host administers. -/
structure SameShared (w w' : World) : Prop where
  root : w'.root = w.root
  models : w'.models = w.models
  accounts : w'.accounts = w.accounts
  providers : w'.providers = w.providers

theorem SameShared.refl (w : World) : SameShared w w := ⟨rfl, rfl, rfl, rfl⟩

theorem SameShared.trans {a b c : World} (h : SameShared a b) (h' : SameShared b c) :
    SameShared a c :=
  ⟨h'.root.trans h.root, h'.models.trans h.models, h'.accounts.trans h.accounts,
    h'.providers.trans h.providers⟩

/-- Instances are added, in front, only for handlers that wait. -/
structure Extended (w w' : World) : Prop where
  started : ∃ new : List Pending,
    w'.pending = w.pending ++ new ∧ w'.frames = (new.map (·.frame)).reverse ++ w.frames
  coherent : w'.Coherent

namespace Extended

variable {w w' w'' : World}

theorem of_frames (h : w'.Coherent) (hf : w'.frames = w.frames) (hp : w'.pending = w.pending) :
    Extended w w' :=
  ⟨⟨[], by simp [hp], by simp [hf]⟩, h⟩

theorem trans (h : Extended w w') (h' : Extended w' w'') : Extended w w'' := by
  obtain ⟨new, hp, hf⟩ := h.started
  obtain ⟨new', hp', hf'⟩ := h'.started
  refine ⟨⟨new ++ new', ?_, ?_⟩, h'.coherent⟩
  · rw [hp', hp, List.append_assoc]
  · rw [hf', hf]
    simp

theorem live (h : Extended w w') {id : InstanceId} (hid : id ∈ w.ids) : id ∈ w'.ids := by
  obtain ⟨new, -, hf⟩ := h.started
  simp only [ids, hf, List.map_append, List.mem_append]
  exact .inr hid

/-- Handlers that were started since have forks that are new. -/
theorem started_fresh (h : Extended w w') : ∃ new : List Pending,
    w'.pending = w.pending ++ new ∧ w'.frames = (new.map (·.frame)).reverse ++ w.frames ∧
      ∀ p ∈ new, p.frame.id ∉ w.ids := by
  obtain ⟨new, hpending, hframes⟩ := h.started
  refine ⟨new, hpending, hframes, fun p hp hmem => ?_⟩
  have hnodup := h.coherent.nodup
  simp only [ids, hframes, List.map_append, List.nodup_append] at hnodup
  refine hnodup.2.2 p.frame.id ?_ p.frame.id hmem rfl
  simp only [List.mem_map, List.mem_reverse]
  exact ⟨p.frame, ⟨p, hp, rfl⟩, rfl⟩

/-- What is live besides the forks of handlers stays so. -/
theorem perm {β : Type} (g : Frame → β) {queue : List Pending} {others : List β}
    (h : Extended w w')
    (hlive : (w.frames.map g).Perm ((queue ++ w.pending).map (fun p => g p.frame) ++ others)) :
    (w'.frames.map g).Perm ((queue ++ w'.pending).map (fun p => g p.frame) ++ others) := by
  obtain ⟨new, hpending, hframes⟩ := h.started
  have hnew : (w'.frames.map g).Perm (new.map (fun p => g p.frame) ++ w.frames.map g) := by
    rw [hframes, List.map_append, List.map_reverse, List.map_map]
    exact (List.reverse_perm _).append_right _
  have hswap : (new.map (fun p => g p.frame) ++ (queue ++ w.pending).map fun p => g p.frame).Perm
      ((queue ++ w'.pending).map fun p => g p.frame) :=
    List.perm_append_comm.trans (.of_eq (by simp [hpending]))
  refine hnew.trans ((hlive.append_left _).trans ?_)
  rw [← List.append_assoc]
  exact hswap.append_right others

/-- Handlers that wait elsewhere keep their forks while others run. -/
theorem queue {queue : List Pending} (he : Extended w w')
    (h : { w with pending := queue ++ w.pending }.Coherent) :
    { w' with pending := queue ++ w'.pending }.Coherent := by
  obtain ⟨new, hp, -, hfresh⟩ := he.started_fresh
  have hids : ∀ p ∈ queue ++ w.pending, p.frame.id ∈ w.ids := h.waiting
  refine ⟨he.coherent.nodup, he.coherent.counted, ?_, ?_, ?_⟩
  · intro p hm
    rcases List.mem_append.1 hm with hm | hm
    · exact he.live (hids p (List.mem_append_left _ hm))
    · exact he.coherent.waiting p hm
  · intro p hm
    rcases List.mem_append.1 hm with hm | hm
    · exact h.forked p (List.mem_append_left _ hm)
    · exact he.coherent.forked p hm
  · have hold := h.alone
    have hnew := he.coherent.alone
    show ((queue ++ w'.pending).map _).Nodup
    rw [hp] at hnew ⊢
    rw [List.map_append, List.nodup_append] at hnew
    rw [← List.append_assoc, List.map_append, List.nodup_append]
    refine ⟨hold, hnew.2.1, ?_⟩
    intro a ha b hb e
    obtain ⟨p, hm, rfl⟩ := List.mem_map.1 ha
    obtain ⟨q, hq, rfl⟩ := List.mem_map.1 hb
    exact hfresh q hq (e ▸ hids p hm)

end Extended

/-- Nothing has changed but the locals of `mine`, and instances are added only for handlers that
wait. -/
structure Undisturbed (mine : InstanceId → Prop) (w w' : World) : Prop extends Extended w w' where
  shared : SameShared w w'
  locals : ∀ id ∈ w.ids, ¬ mine id → w'.locals id = w.locals id

namespace Undisturbed

variable {mine : InstanceId → Prop} {w w' : World}

theorem refl (h : w.Coherent) : Undisturbed mine w w :=
  ⟨.of_frames h rfl rfl, .refl w, fun _ _ _ => rfl⟩

/-- Effects, counters and records of calls are nobody's locals. -/
theorem of_instances (h : w.Coherent) (hs : SameShared w w') (hi : w'.instances = w.instances)
    (hp : w'.pending = w.pending) : Undisturbed mine w w' := by
  have hinst : ∀ id, w'.instance? id = w.instance? id := fun id => by simp only [instance?, hi]
  refine ⟨.of_frames ?_ (by simp only [frames, hi]) hp, hs, fun id _ _ => ?_⟩
  · exact h.congr (by simp only [ids, frames, hi]) (fun id => by simp only [forkCount, hinst]) hp
  · simp only [World.locals, hinst]

theorem frames_subset (h : Undisturbed mine w w') {g : Frame} (hg : g ∈ w.frames) :
    g ∈ w'.frames := by
  obtain ⟨new, -, hframes⟩ := h.started
  rw [hframes]
  exact List.mem_append_right _ hg

theorem trans {w'' : World} (h : Undisturbed mine w w') (h' : Undisturbed mine w' w'') :
    Undisturbed mine w w'' := by
  refine ⟨h.toExtended.trans h'.toExtended, h.shared.trans h'.shared, fun id hid hm => ?_⟩
  rw [h'.locals id (h.live hid) hm, h.locals id hid hm]

theorem mono {mine' : InstanceId → Prop} (hm : ∀ id, mine id → mine' id)
    (h : Undisturbed mine w w') : Undisturbed mine' w w' :=
  ⟨h.toExtended, h.shared, fun id hid hn => h.locals id hid fun hi => hn (hm id hi)⟩

theorem bind (h : w.Coherent) {id : InstanceId} (hm : mine id) (name : String) (v : Value) :
    Undisturbed mine w (w.bind id name v) := by
  refine ⟨.of_frames (h.bind id name v) (by simp) rfl, ⟨rfl, rfl, rfl, rfl⟩, fun id' _ hn => ?_⟩
  exact bind_locals_of_ne w id name v fun e => hn (e ▸ hm)

theorem bindAll (h : w.Coherent) {id : InstanceId} (hm : mine id) (pairs : List (String × Value)) :
    Undisturbed mine w (w.bindAll id pairs) := by
  induction pairs generalizing w with
  | nil => exact refl h
  | cons p rest ih =>
    have h1 : Undisturbed mine w _ := bind h hm p.1 p.2
    exact h1.trans (ih h1.coherent)

variable {parent : Frame}

/-- A handler that starts to wait gets an instance of its own. -/
theorem wait (h : w.Coherent) (hp : parent.id ∈ w.ids) (label : String)
    (handler : Option (List Step)) (outlet : Outlet) {p : Pending}
    (hf : p.frame = w.nextFrame parent label handler outlet) :
    Undisturbed mine w
      { w.enlist parent p.frame with pending := (w.enlist parent p.frame).pending ++ [p] } := by
  have hfresh := h.fresh label handler outlet hp
  have henlist := h.enlist label handler outlet hp
  rw [← hf] at hfresh henlist
  refine ⟨⟨⟨[p], rfl, enlist_frames w parent p.frame⟩, ?_⟩, ⟨rfl, rfl, rfl, rfl⟩, ?_⟩
  · refine henlist.wait (by simp) ?_ ?_
    · rw [hf]
      rfl
    · intro q hq e
      exact hfresh (e ▸ h.waiting q hq)
  · intro id hid _
    exact enlist_locals_of_ne w parent p.frame fun e => hfresh (e ▸ hid)

/-- A fork that is released after it has been used leaves nothing behind. -/
theorem released (h : w.Coherent) (hp : parent.id ∈ w.ids) (label : String)
    (handler : Option (List Step)) (outlet : Outlet) {child : Frame}
    (hc : child = w.nextFrame parent label handler outlet) (pairs : List (String × Value))
    (hu : Undisturbed (· = child.id) ((w.enlist parent child).bindAll child.id pairs) w') :
    Undisturbed mine w (w'.release child.id) := by
  have hfresh := h.fresh label handler outlet hp
  have henlist := h.enlist label handler outlet hp
  rw [← hc] at hfresh henlist
  -- from the new fork on, only the fork itself is written
  replace hu : Undisturbed (· = child.id) (w.enlist parent child) w' :=
    (bindAll henlist (by rfl) pairs).trans hu
  obtain ⟨new, hpend, hframes, hstarted⟩ := hu.started_fresh
  rw [enlist_frames] at hframes
  have hnew : ∀ p ∈ new, p.frame.id ≠ child.id := fun p hp e => hstarted p hp (by simp [e])
  refine ⟨⟨⟨new, hpend, ?_⟩, ?_⟩,
    ⟨hu.shared.root, hu.shared.models, hu.shared.accounts, hu.shared.providers⟩, ?_⟩
  · rw [release_frames, hframes, List.eraseP_append_right]
    · simp
    · intro g hg
      obtain ⟨p, hp, rfl⟩ := List.mem_map.1 (List.mem_reverse.1 hg)
      simpa using hnew p hp
  · refine hu.coherent.release fun p hp => ?_
    rw [hpend] at hp
    rcases List.mem_append.1 hp with hp | hp
    · exact fun e => hfresh (e ▸ h.waiting p hp)
    · exact hnew p hp
  · intro id hid _
    have hne : child.id ≠ id := fun e => hfresh (e ▸ hid)
    rw [release_locals_of_ne w' child.id hne, hu.locals id (by simp [hid]) (Ne.symm hne),
      enlist_locals_of_ne w parent child hne]

end Undisturbed
end World

/-- From a coherent world in which the instance `f` is live, only `mine` is written. -/
def World.Within (f : Frame) (mine : InstanceId → Prop) (w w' : World) : Prop :=
  f.id ∈ w.ids ∧ World.Undisturbed mine w w'

namespace Exec

open World

variable {engine : Engine} {enter : Enter} {f : Frame} {mine : InstanceId → Prop} {α : Type}

/-- Run in a world where `f` is live, a computation writes only what is `mine`. -/
abbrev Spares (f : Frame) (mine : InstanceId → Prop) : ∀ α : Type, (Unit → Exec α) → Prop :=
  Keeps (Within f mine)

theorem Spares.closed : Closed (fun _ => True) (Spares f mine) :=
  Keeps.closed (fun h h' => ⟨h.1, h.2.trans h'.2⟩)
    (fun h => ⟨h.2.live h.1, .refl h.2.coherent⟩)

theorem Spares.mono {mine' : InstanceId → Prop} (hm : ∀ id, mine id → mine' id)
    {X : Unit → Exec α} (h : Spares f mine α X) : Spares f mine' α X :=
  fun w hw => ⟨hw.1, (h w ⟨hw.1, .refl hw.2.coherent⟩).2.mono hm⟩

theorem Spares.of_instances {X : Unit → Exec α} (hs : ∀ w, SameShared w (X () w).2)
    (hi : ∀ w, (X () w).2.instances = w.instances) (hp : ∀ w, (X () w).2.pending = w.pending) :
    Spares f mine α X :=
  fun w hw => ⟨hw.1, .of_instances hw.2.coherent (hs w) (hi w) (hp w)⟩

theorem note_spares (e : Effect) : Spares f mine Unit fun _ => note e :=
  .of_instances (fun _ => ⟨rfl, rfl, rfl, rfl⟩) (fun _ => rfl) fun _ => rfl

/-- A fork never writes a global: its assignments bind locals of its own or fail. -/
theorem write_spares (hroot : f.isRoot = false) (hm : mine f.id) (name : String) (v : Value) :
    Spares f mine Unit fun _ => write engine f name v := by
  intro w hw
  refine ⟨hw.1, ?_⟩
  rcases write_world engine f name v w with h | ⟨h, -⟩ | h
  · rw [h]
    exact hw.2
  · rw [hroot] at h
    cases h
  · rw [h]
    exact .bind hw.2.coherent hm name v

theorem start_spares (name source : String) (event : Value) (h : EventHandler) :
    Spares f mine Nat fun _ => start engine f name source event h := by
  intro w hw
  refine ⟨hw.1, ?_⟩
  rcases start_world engine f name source event h w with ⟨-, hstart⟩ | ⟨trace, hstart⟩
  · let p : Pending :=
      { frame := w.nextFrame f ("event:" ++ name) h.body.handler f.outlet, handler := h
        eventName := name, source := source, event := event }
    rw [hstart]
    exact .wait (p := p) hw.2.coherent hw.1 ("event:" ++ name) h.body.handler f.outlet rfl
  · rw [hstart]
    exact .of_instances hw.2.coherent ⟨rfl, rfl, rfl, rfl⟩ rfl rfl

theorem chat_spares (r : Registration) (c : ChatContext) (q : ChatRequest) :
    Spares f mine (Except ProviderError ChatReply) fun _ => chat r c q :=
  .of_instances (fun _ => ⟨rfl, rfl, rfl, rfl⟩) (fun _ => rfl) fun _ => rfl

section Instance

variable (henter : ∀ a, Spares f (fun _ => False) Outcome fun _ => enter f a)

include henter

theorem services_spare :
    Services (Spares f mine) engine (fun _ => enter) (fun _ => f) f.outlet where
  outlet _ := rfl
  enter a := (henter a).mono fun _ => False.elim
  start := start_spares
  consult c allowed := note_spares (.consult c allowed)
  enterTool name := note_spares (.enter name)
  host _ _ _ := Spares.closed.ofInterrupt _
  chat := chat_spares
  capture _ := .of_instances (fun _ => ⟨rfl, rfl, rfl, rfl⟩) (fun _ => rfl) fun _ => rfl
  openConversation := .of_instances (fun _ => ⟨rfl, rfl, rfl, rfl⟩) (fun _ => rfl) fun _ => rfl

theorem expressions_spare :
    Expressions (Spares f mine) engine (fun _ => enter) (fun _ => f) where
  read := read_closed Spares.closed engine f
  call := call_closed Spares.closed (services_spare henter)

theorem primitives_spare (hroot : f.isRoot = false) (hm : mine f.id) :
    Primitives (Spares f mine) engine (fun _ => enter) (fun _ => f) where
  toExpressions := expressions_spare henter
  write := write_spares hroot hm
  ask := ask_closed Spares.closed (services_spare henter)
  emit := emit_closed Spares.closed engine f fun _ => note_spares _
  whisper := whisper_closed Spares.closed engine fun _ _ => note_spares _
  promptUser := promptUser_closed Spares.closed engine (fun _ => note_spares _)
    (fun _ => .of_instances (fun _ => ⟨rfl, rfl, rfl, rfl⟩) (fun _ => rfl) fun _ => rfl)
    fun _ _ _ _ _ _ => trivial
  clear := note_spares _

/-- Steps of a fork, and its handler, write only into the fork. -/
theorem run_spares (hroot : f.isRoot = false) (hm : mine f.id) (mode : Mode) (steps : List Step) :
    Spares f mine Outcome fun _ => run engine enter f mode steps :=
  run_closed Spares.closed.toSequenced (primitives_spare henter hroot hm) (fun _ => rfl)
    (fun _ => note_spares _) (fun name v _ hw => ⟨hw.1, .bind hw.2.coherent hm name v⟩)
    ⟨trivial, trivial⟩ (fun _ _ => trivial) (fun _ _ => trivial) steps

end Instance

/-- A body that runs in a fork leaves every live instance as it was. The induction is on the levels
below the parent: the fork has one less, so that what it enters is covered. -/
theorem enter_spares (levels : Nat) : ∀ (f : Frame) (a : Activation),
    Spares f (fun _ => False) Outcome fun _ => Exec.enter engine levels f a := by
  induction levels with
  | zero => intro f a; exact Spares.closed.fail trivial
  | succ levels ih =>
    intro f a w hw
    let child := w.nextFrame f a.label a.body.handler a.outlet
    have hbody : Spares child (· = child.id) Outcome fun _ =>
        run engine (Exec.enter engine levels) child {} a.body.steps :=
      run_spares (ih child) rfl (by rfl) {} a.body.steps
    have henlist : (w.enlist f child).Coherent :=
      hw.2.coherent.enlist a.label a.body.handler a.outlet hw.1
    have hbound : Undisturbed (· = child.id) (w.enlist f child)
        ((w.enlist f child).bindAll child.id a.bindings) := .bindAll henlist (by rfl) a.bindings
    have hrun := hbody _ ⟨hbound.live (by simp), .refl hbound.coherent⟩
    refine ⟨hw.1, ?_⟩
    rw [enter_world]
    exact .released hw.2.coherent hw.1 a.label a.body.handler a.outlet rfl a.bindings hrun.2

/-- So what an engine has for the scripts of an instance disturbs nothing. -/
theorem services_undisturbing (engine : Engine) (f : Frame) :
    Services (Spares f fun _ => False) engine (fun _ => engine.enter) (fun _ => f) f.outlet :=
  services_spare fun a => enter_spares _ f a

end Exec

/-! ## Operations of the host -/

section Operations

open World Exec

/-- An operation writes into no instance that was live before it. -/
theorem Operation.exec_spares {α : Type} (engine : Engine) (f : Frame) (op : Operation α) :
    Spares f (fun _ => False) α fun _ => op.exec engine f :=
  op.exec_closed Spares.closed (services_undisturbing engine f) (read_closed Spares.closed engine f)

end Operations

/-! ## Handlers that were started -/

namespace World

/-- Since `w₀`, nothing has happened to the stores and to the instances `others`. The remaining
live instances are the forks of handlers, of those in `queue` and of those that wait. -/
structure Sheltered (others : List InstanceId) (w₀ : World) (queue : List Pending) (w : World) :
    Prop where
  shared : SameShared w₀ w
  live : w.ids.Perm ((queue ++ w.pending).map (·.frame.id) ++ others)
  locals : ∀ id ∈ others, w.locals id = w₀.locals id
  coherent : { w with pending := queue ++ w.pending }.Coherent

/-- Handlers that wait elsewhere are no part of the coherence of a world. -/
theorem Coherent.of_queue {w : World} {queue : List Pending}
    (h : { w with pending := queue ++ w.pending }.Coherent) : w.Coherent where
  nodup := h.nodup
  counted := h.counted
  waiting p hp := h.waiting p (List.mem_append_right queue hp)
  forked p hp := h.forked p (List.mem_append_right queue hp)
  alone := by
    have := h.alone
    simp only [List.map_append, List.nodup_append] at this
    exact this.2.1

/-- The order of the handlers that wait, and whether all of them do, is no part of it either. -/
theorem Coherent.of_pending {w : World} (h : w.Coherent) {queue : List Pending}
    (hmem : ∀ p ∈ queue, p ∈ w.pending) (halone : (queue.map (·.frame.id)).Nodup) :
    { w with pending := queue }.Coherent :=
  ⟨h.nodup, h.counted, fun p hp => h.waiting p (hmem p hp), fun p hp => h.forked p (hmem p hp),
    halone⟩

theorem Coherent.perm {w : World} (h : w.Coherent) {queue : List Pending}
    (hperm : queue.Perm w.pending) : { w with pending := queue }.Coherent :=
  h.of_pending (fun _ hp => hperm.mem_iff.1 hp) ((hperm.map _).nodup_iff.2 h.alone)

/-- The fork of a handler that does not wait any more may go. -/
theorem Coherent.release_first {w : World} {p : Pending} {queue : List Pending}
    (h : { w with pending := p :: queue ++ w.pending }.Coherent) :
    { w.release p.frame.id with pending := queue ++ w.pending }.Coherent := by
  obtain ⟨hfirst, hrest⟩ := List.nodup_cons.1 h.alone
  have hqueue : { w with pending := queue ++ w.pending }.Coherent :=
    h.of_pending (fun q hq => List.mem_cons_of_mem _ hq) hrest
  exact hqueue.release fun q hq e => hfirst (List.mem_map.2 ⟨q, hq, e⟩)

namespace Sheltered

variable {others : List InstanceId} {w₀ w : World} {queue : List Pending} {p : Pending}

/-- Effects are nobody's locals. -/
theorem withTrace (h : Sheltered others w₀ queue w) (trace : Array Effect) :
    Sheltered others w₀ queue { w with trace := trace } :=
  ⟨h.shared.trans ⟨rfl, rfl, rfl, rfl⟩, h.live, h.locals, h.coherent.congr rfl (fun _ => rfl) rfl⟩

theorem undisturbed {mine : InstanceId → Prop} {w' : World} (h : Sheltered others w₀ queue w)
    (hu : Undisturbed mine w w') (hm : ∀ id ∈ others, ¬ mine id) :
    Sheltered others w₀ queue w' := by
  refine ⟨h.shared.trans hu.shared, hu.perm (·.id) h.live, ?_, hu.queue h.coherent⟩
  intro id hid
  rw [hu.locals id (h.live.mem_iff.2 (List.mem_append_right _ hid)) (hm id hid)]
  exact h.locals id hid

theorem ne_of_mem (h : Sheltered others w₀ (p :: queue) w) {id : InstanceId} (hid : id ∈ others) :
    p.frame.id ≠ id := by
  have hnodup := h.live.nodup_iff.1 h.coherent.nodup
  rintro rfl
  exact (List.nodup_cons.1 hnodup).1 (List.mem_append_right _ hid)

/-- The fork of a handler that has run goes, and nothing else. -/
theorem release (h : Sheltered others w₀ (p :: queue) w) :
    Sheltered others w₀ queue (w.release p.frame.id) := by
  refine ⟨h.shared.trans ⟨rfl, rfl, rfl, rfl⟩, ?_, ?_, h.coherent.release_first⟩
  · have herase := h.live.erase p.frame.id
    rw [release_ids]
    simpa [World.release] using herase
  · intro id hid
    rw [release_locals_of_ne w p.frame.id (h.ne_of_mem hid)]
    exact h.locals id hid

end Sheltered

theorem perm_pending {w : World} {p : Pending} {before after : List Pending}
    (hpending : w.pending = before ++ p :: after) : (p :: (before ++ after)).Perm w.pending := by
  rw [hpending]
  exact List.perm_middle.symm

end World

namespace Engine

open World Exec

variable (engine : Engine) {others : List InstanceId} {w₀ : World}

/-- The body of a handler writes only into the handler's fork. -/
theorem handlerBody_spares {p : Pending} (hroot : p.frame.isRoot = false) :
    Spares p.frame (· = p.frame.id) Outcome fun _ => engine.handlerBody p := by
  have henter : ∀ a, Spares p.frame (fun _ => False) Outcome fun _ => engine.enter p.frame a :=
    fun a => enter_spares _ p.frame a
  refine handlerBody_closed Spares.closed.toSequenced (fun _ => rfl) (fun _ => rfl)
    (fun name v w hw => ⟨hw.1, ?_⟩) (run_spares henter hroot (by rfl) {} _)
  exact .bind hw.2.coherent (by rfl) name v

theorem handlerBody_undisturbed {p : Pending} {queue : List Pending} {w : World}
    (h : { w with pending := p :: queue ++ w.pending }.Coherent) :
    Undisturbed (· = p.frame.id) { w with trace := #[] }
      (engine.handlerBody p { w with trace := #[] }).2 := by
  have hmem : p ∈ p :: queue ++ w.pending := List.mem_cons_self
  have hquiet : { w with trace := #[], pending := p :: queue ++ w.pending }.Coherent :=
    h.congr rfl (fun _ => rfl) rfl
  exact (engine.handlerBody_spares (h.forked p hmem) { w with trace := #[] }
    ⟨h.waiting p hmem, .refl hquiet.of_queue⟩).2

/-- A handler that is run does nothing to those that wait elsewhere. -/
theorem runPending_apart {p : Pending} {queue : List Pending} {w : World}
    (h : { w with pending := p :: queue ++ w.pending }.Coherent) :
    SameShared w (engine.runPending p w) ∧
    { engine.runPending p w with pending := queue ++ (engine.runPending p w).pending }.Coherent ∧
    ∀ q ∈ queue, (engine.runPending p w).locals q.frame.id = w.locals q.frame.id := by
  have hu := engine.handlerBody_undisturbed h
  have hquiet : { w with trace := #[], pending := p :: queue ++ w.pending }.Coherent :=
    h.congr rfl (fun _ => rfl) rfl
  have hqueue := (hu.queue hquiet).release_first
  rw [runPending_eq]
  refine ⟨⟨hu.shared.root, hu.shared.models, hu.shared.accounts, hu.shared.providers⟩,
    hqueue.congr rfl (fun _ => rfl) rfl, fun q hq => ?_⟩
  have hq' : q ∈ queue ++ w.pending := List.mem_append_left _ hq
  have hne : p.frame.id ≠ q.frame.id := fun e =>
    (List.nodup_cons.1 h.alone).1 (List.mem_map.2 ⟨q, hq', e.symm⟩)
  refine (release_locals_of_ne _ p.frame.id hne).trans ?_
  exact hu.locals _ (h.waiting q (List.mem_cons_of_mem _ hq')) (Ne.symm hne)

/-- Running the first handler of a queue does nothing to the others' instances, and its own is
gone afterwards. -/
theorem runPending_sheltered {p : Pending} {queue : List Pending} {w : World}
    (h : Sheltered others w₀ (p :: queue) w) :
    Sheltered others w₀ queue (engine.runPending p w) := by
  have hrun := engine.handlerBody_undisturbed h.coherent
  have hdone :=
    ((h.withTrace #[]).undisturbed hrun fun id hid => Ne.symm (h.ne_of_mem hid)).release
  rw [runPending_eq]
  exact hdone.withTrace _

/-- What holds of the handlers that are to run and the world in which they are to run, as each of
them takes its turn, holds when all rounds are over. -/
theorem settle_queue {I : List Pending → World → Prop}
    (hrun : ∀ {p queue w}, I (p :: queue) w → I queue (engine.runPending p w))
    (hround : ∀ {w : World}, I [] w → I w.pending { w with pending := [] }) {w : World}
    (h : I [] w) : I [] (engine.settle w).2 := by
  have hqueue (queue : List Pending) : ∀ w, I queue w → I [] (engine.runRound queue w).2 := by
    induction queue with
    | nil => intro w h; exact h
    | cons p rest ih => intro w h; exact ih _ (hrun h)
  have hrounds (rounds : Nat) : ∀ w, I [] w → I [] (engine.settleRounds rounds w).2 := by
    induction rounds with
    | zero => intro w h; exact h
    | succ rounds ih =>
      intro w h
      simp only [settleRounds]
      split
      · exact h
      · exact ih _ (hqueue _ _ (hround h))
  exact hrounds _ w h

/-- Settling touches nothing but the forks of the handlers it runs. -/
theorem settle_sheltered {w : World} (h : Sheltered others w₀ [] w) :
    Sheltered others w₀ [] (engine.settle w).2 := by
  refine engine.settle_queue engine.runPending_sheltered (fun h => ?_) h
  -- what waited before the round is the queue of the round
  exact ⟨h.shared.trans ⟨rfl, rfl, rfl, rfl⟩, by simpa [ids, frames] using h.live, h.locals,
    h.coherent.congr rfl (fun _ => rfl) (by simp)⟩

end Engine

open World

/-- The instances of a world that no waiting handler has. -/
def World.bystanders (w : World) : List InstanceId :=
  w.ids.filter fun id => decide (∀ p ∈ w.pending, p.frame.id ≠ id)

theorem World.mem_bystanders {w : World} {id : InstanceId} :
    id ∈ w.bystanders ↔ id ∈ w.ids ∧ ∀ p ∈ w.pending, p.frame.id ≠ id := by
  simp [bystanders]

theorem World.Sheltered.start {w : World} (h : w.Coherent) : Sheltered w.bystanders w [] w := by
  refine ⟨.refl w, ?_, fun _ _ => rfl, h⟩
  have hdisjoint : ∀ a ∈ w.pending.map (·.frame.id), ∀ b ∈ w.bystanders, a ≠ b := by
    intro a ha b hb
    obtain ⟨p, hp, rfl⟩ := List.mem_map.1 ha
    exact (mem_bystanders.1 hb).2 p hp
  have hnodup : (w.pending.map (·.frame.id) ++ w.bystanders).Nodup :=
    List.nodup_append.2 ⟨h.alone, h.nodup.filter _, hdisjoint⟩
  refine (List.perm_ext_iff_of_nodup h.nodup hnodup).2 fun id => ?_
  rw [List.mem_append, mem_bystanders, List.mem_map]
  constructor
  · intro hid
    by_cases hp : ∃ p ∈ w.pending, p.frame.id = id
    · exact .inl hp
    · exact .inr ⟨hid, fun p hm e => hp ⟨p, hm, e⟩⟩
  · rintro (⟨p, hp, rfl⟩ | hid)
    · exact h.waiting p hp
    · exact hid.1

end StepScript
