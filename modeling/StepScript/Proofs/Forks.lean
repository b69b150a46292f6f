import Mathlib.Data.List.Basic
import StepScript.Proofs.Reachable
import StepScript.Session.Basic

/-!
# StepScript.Proofs.Forks

The live forks: how deep they are, who has them, and when they go.

* `Frame.Made`      — the root, what is forked from it, and what is forked from that. Depth, path
  and call stack grow together (`Made.depth`).
* `Engine.Ledger`   — what a host has done with an engine, and which forks it was handed and has not
  given up.
* `World.Accounted` — the live instances are the root, the forks of the ledger and the forks of
  handlers that wait, and none of them is too deep. `Ledger.accounted` — so it is in every history.
* `Session.liveForks_perm` — the list of live forks shows all instances but the root.
* `Engine.forks_accounted` — depths are right, the list is complete, and operations leave no forks
  behind.
-/

namespace StepScript

open World

/-! ## Where forks come from -/

/-- The frames of the root and of everything that is forked from it, in whatever world. -/
inductive Frame.Made : Frame → Prop where
  | root : Made .root
  | fork {f : Frame} (w : World) (label : String) (handler : Option (List Step))
      (outlet : Outlet) : Made f → Made (w.nextFrame f label handler outlet)

namespace Frame.Made

variable {f parent : Frame}

theorem depth (h : f.Made) : f.depth = f.callStack.length ∧ f.depth = f.id.length := by
  induction h with
  | root => exact ⟨rfl, rfl⟩
  | fork w label handler outlet _ ih =>
    constructor
    · simpa [nextFrame] using ih.1
    · simpa [nextFrame] using ih.2

/-- There is one root. -/
theorem eq_root (h : f.Made) (hf : f.isRoot = true) : f = .root := by
  cases h with
  | root => rfl
  | fork => cases hf

end Frame.Made

/-- An instance as forks make it, no deeper than forks may be. -/
structure Frame.Regular (engine : Engine) (f : Frame) : Prop where
  made : f.Made
  shallow : f.depth ≤ engine.config.maxCallDepth

/-- Handlers wait in such forks. -/
def World.Regular (engine : Engine) (w : World) : Prop :=
  ∀ p ∈ w.pending, p.frame.Regular engine

namespace Exec

variable {engine : Engine} {f : Frame} {α : Type}

/-- A computation starts handlers only in forks that are no deeper than they may be. -/
abbrev Regulates (engine : Engine) : ∀ α : Type, (Unit → Exec α) → Prop :=
  Keeps fun w w' => w.Regular engine → w'.Regular engine

theorem Regulates.closed : Closed (fun _ => True) (Regulates engine) :=
  Keeps.closed (fun h h' hw => h' (h hw)) fun _ => id

theorem Regulates.of_pending {X : Unit → Exec α} (h : ∀ w, (X () w).2.pending = w.pending) :
    Regulates engine α X := by
  intro w _ hw p hp
  rw [h w] at hp
  exact hw p hp

theorem note_regulates (e : Effect) : Regulates engine Unit fun _ => note e :=
  .of_pending fun _ => rfl

theorem start_regulates (hf : f.Made) (name source : String) (event : Value) (h : EventHandler) :
    Regulates engine Nat fun _ => start engine f name source event h := by
  intro w _ hw
  rcases start_world engine f name source event h w with ⟨hd, hstart⟩ | ⟨trace, hstart⟩
  · rw [hstart]
    intro p hp
    rcases List.mem_append.1 hp with hp | hp
    · exact hw p hp
    · rw [List.mem_singleton.1 hp]
      exact ⟨.fork w _ _ _ hf, hd⟩
  · rw [hstart]
    exact hw

theorem raise_regulates (hf : f.Made) (name source : String) (payload : Value) :
    Regulates engine Nat fun _ => raise engine f name source payload :=
  raise_closed Regulates.closed (fun _ => rfl) (start_regulates hf) name source payload

theorem regular_habit :
    Habit Frame.Made (fun w w' => w.Regular engine → w'.Regular engine) engine where
  trans h h' hw := h' (h hw)
  target _ := id
  instances _ _ := id
  procedure w label handler hf := .fork w label handler _ hf
  write name v _ := Regulates.of_pending fun w => (write_alike engine _ name v w).pending
  invoke name args hf := invoke_closed Regulates.closed (raise_regulates hf)
    (fun _ _ => note_regulates _) (fun _ => note_regulates _) name args
  emit _ _ := note_regulates _
  whisper _ _ := note_regulates _
  promptUser := promptUser_closed Regulates.closed engine (fun _ => note_regulates _)
    (fun _ => Regulates.of_pending fun _ => rfl) fun _ _ _ _ _ _ => trivial
  recover _ _ := note_regulates _
  clear _ := note_regulates _
  chat _ _ _ := Regulates.of_pending fun _ => rfl
  act hf henter := act_closed Regulates.closed (fun a => henter a fun w => .fork w _ _ _ hf)
    fun _ => Regulates.of_pending fun _ => rfl
  openConversation := Regulates.of_pending fun _ => rfl

end Exec

theorem HostCall.exec_regulates {engine : Engine} {f : Frame} (hf : f.Made) {α : Type}
    (c : HostCall α) : Exec.Regulates engine α fun _ => c.exec engine f :=
  c.exec_habit Exec.regular_habit hf (fun _ _ _ => id) fun _ => Exec.raise_regulates hf

/-! ## The forks of a host -/

/-- The forks that the answer to a request hands to the host. -/
def HostRequest.handed : {α : Type} → HostRequest α → Except Interrupt α → List Frame
  | _, .fork _ _, .ok child => [child]
  | _, _, _ => []

def HostCall.handed : {α : Type} → HostCall α → Except Interrupt α → List Frame
  | _, .request r, answer => r.handed answer
  | _, .ask .., _ => []

theorem HostCall.handed_of_forks {α : Type} (c : HostCall α) (hc : c.forks = false)
    (answer : Except Interrupt α) : c.handed answer = [] := by
  cases c with
  | ask agentModel prompt p => rfl
  | request r =>
    cases r with
    | fork label handler => cases hc
    | _ => rfl

/-- The worlds of an engine, each with the forks that the host has: those that it was handed, except
for those that it has given up. Calls go to any live instance while handlers may wait; handlers are
run one by one, whichever is next, or all together. -/
inductive Engine.Ledger (engine : Engine) : List Frame → World → Prop where
  | start : Ledger engine [] {}
  | call {kept : List Frame} {w : World} {f : Frame} {α : Type} (c : HostCall α) :
      Ledger engine kept w → f ∈ w.frames →
      Ledger engine (c.handed (c.exec engine f w).1 ++ kept) (c.exec engine f w).2
  | tend {kept : List Frame} {w w' : World} : Ledger engine kept w →
      engine.Tends (fun _ => True) w w' → Ledger engine kept w'
  | drop {before after : List Frame} {g : Frame} {w : World} :
      Ledger engine (before ++ g :: after) w → Ledger engine (before ++ after) (w.release g.id)

/-- The live instances are the root, the forks in `kept` and the forks of handlers: of those in
`queue`, which are about to run, and of those that wait. -/
structure World.Accounted (engine : Engine) (kept : List Frame) (queue : List Pending)
    (w : World) : Prop where
  live : w.frames.Perm ((queue ++ w.pending).map (·.frame) ++ .root :: kept)
  regular : ∀ g ∈ w.frames, g.Regular engine
  coherent : { w with pending := queue ++ w.pending }.Coherent

theorem World.release_perm {w : World} {g : Frame} {rest : List Frame} (hnodup : w.ids.Nodup)
    (h : w.frames.Perm (g :: rest)) : (w.release g.id).frames.Perm rest := by
  have hdistinct : w.frames.Pairwise fun a b => decide (a.id = g.id) = true →
      decide (b.id = g.id) = true → False := by
    refine (List.pairwise_map.1 hnodup).imp fun {a b} hne ha hb => hne ?_
    rw [of_decide_eq_true ha, of_decide_eq_true hb]
  have herase := h.eraseP (fun f => decide (f.id = g.id)) hdistinct
  rw [List.eraseP_cons_of_pos (by simp)] at herase
  rw [release_frames]
  exact herase

namespace World.Accounted

variable {engine : Engine} {kept : List Frame} {queue : List Pending} {w w' : World}

theorem start : Accounted engine [] [] {} := by
  refine ⟨.refl _, fun g hg => ?_, coherent_start⟩
  rw [List.mem_singleton.1 hg]
  exact ⟨.root, Nat.zero_le _⟩

theorem root_live (h : Accounted engine kept queue w) : .root ∈ w.frames :=
  h.live.mem_iff.2 (List.mem_append_right _ List.mem_cons_self)

theorem pending_regular (h : Accounted engine kept queue w) : w.Regular engine := by
  intro p hp
  refine h.regular _ (h.live.mem_iff.2 (List.mem_append_left _ ?_))
  exact List.mem_map_of_mem (List.mem_append_right _ hp)

/-- What is new are handlers that wait, and their forks. -/
theorem extended (h : Accounted engine kept queue w) (he : Extended w w')
    (hr : w.Regular engine → w'.Regular engine) : Accounted engine kept queue w' := by
  obtain ⟨new, hpending, hframes⟩ := he.started
  refine ⟨?_, fun g hg => ?_, he.queue h.coherent⟩
  · simpa using he.perm id (by simpa using h.live)
  · rw [hframes, List.mem_append, List.mem_reverse, List.mem_map] at hg
    rcases hg with ⟨p, hp, rfl⟩ | hg
    · refine hr h.pending_regular p ?_
      rw [hpending]
      exact List.mem_append_right _ hp
    · exact h.regular g hg

theorem alike (h : Accounted engine kept queue w) (ha : Alike w w') :
    Accounted engine kept queue w' := by
  have he : Extended w w' :=
    .of_frames (ha.coherent h.coherent.of_queue) ha.frames ha.pending
  refine h.extended he fun hw p hp => hw p ?_
  rw [← ha.pending]
  exact hp

/-- One of the forks goes, and the others are accounted for. -/
theorem of_release {g : Frame} (hregular : ∀ g ∈ w.frames, g.Regular engine)
    (hcoherent : { w with pending := queue ++ w.pending }.Coherent)
    (hfirst : w.frames.Perm (g :: ((queue ++ w.pending).map (·.frame) ++ .root :: kept))) :
    Accounted engine kept queue (w.release g.id) := by
  refine ⟨release_perm hcoherent.nodup hfirst, fun f hf => hregular f ?_, ?_⟩
  · rw [release_frames] at hf
    exact List.mem_of_mem_eraseP hf
  · have hids : w.ids.Perm
        (g.id :: ((queue ++ w.pending).map (·.frame) ++ .root :: kept).map (·.id)) :=
      hfirst.map _
    obtain ⟨hfresh, -⟩ := List.nodup_cons.1 (hids.nodup_iff.1 hcoherent.nodup)
    refine hcoherent.release fun p hp e => hfresh (List.mem_map.2 ⟨p.frame, ?_, e⟩)
    exact List.mem_append_left _ (List.mem_map_of_mem hp)

/-- The fork of a handler that has run goes. -/
theorem release {p : Pending} (h : Accounted engine kept (p :: queue) w) :
    Accounted engine kept queue (w.release p.frame.id) := by
  have hcoherent : { w with pending := queue ++ w.pending }.Coherent :=
    h.coherent.of_pending (fun _ => List.mem_cons_of_mem _) (List.nodup_cons.1 h.coherent.alone).2
  exact of_release h.regular hcoherent h.live

/-- A fork that the host has, before all others. -/
theorem kept_first {before after : List Frame} {g : Frame}
    (h : Accounted engine (before ++ g :: after) [] w) :
    w.frames.Perm (g :: (w.pending.map (·.frame) ++ .root :: (before ++ after))) := by
  refine h.live.trans ?_
  have hroot (rest : List Frame) : w.pending.map (·.frame) ++ .root :: (before ++ rest) =
      (w.pending.map (·.frame) ++ .root :: before) ++ rest := by simp
  rw [List.nil_append, hroot, hroot]
  exact List.perm_middle

/-- It is not the root, and no handler waits in it. -/
theorem kept_apart {before after : List Frame} {g : Frame}
    (h : Accounted engine (before ++ g :: after) [] w) :
    g.id ≠ Frame.root.id ∧ ∀ p ∈ w.pending, p.frame.id ≠ g.id := by
  have hids : w.ids.Perm
      (g.id :: (w.pending.map (·.frame) ++ .root :: (before ++ after)).map (·.id)) :=
    h.kept_first.map _
  obtain ⟨hfresh, -⟩ := List.nodup_cons.1 (hids.nodup_iff.1 h.coherent.nodup)
  refine ⟨fun e => hfresh (List.mem_map.2 ⟨.root, ?_, e.symm⟩),
    fun p hp e => hfresh (List.mem_map.2 ⟨p.frame, ?_, e⟩)⟩
  · exact List.mem_append_right _ List.mem_cons_self
  · exact List.mem_append_left _ (List.mem_map_of_mem hp)

/-- A fork that the host gives up goes. -/
theorem drop {before after : List Frame} {g : Frame}
    (h : Accounted engine (before ++ g :: after) [] w) :
    Accounted engine (before ++ after) [] (w.release g.id) :=
  of_release h.regular h.coherent h.kept_first

theorem fork {f : Frame} (h : Accounted engine kept [] w) (hf : f ∈ w.frames)
    (hd : f.depth + 1 ≤ engine.config.maxCallDepth) (label : String)
    (handler : Option (List Step)) (outlet : Outlet) :
    let child := w.nextFrame f label handler outlet
    Accounted engine (child :: kept) [] (w.enlist f child) := by
  intro child
  refine ⟨?_, fun g hg => ?_, h.coherent.enlist label handler outlet (List.mem_map_of_mem hf)⟩
  · have hchild : (child :: .root :: kept).Perm (.root :: child :: kept) := .swap _ _ _
    rw [enlist_frames]
    exact (h.live.cons child).trans (List.perm_middle.symm.trans (hchild.append_left _))
  · rw [enlist_frames, List.mem_cons] at hg
    rcases hg with rfl | hg
    · exact ⟨.fork w label handler outlet (h.regular f hf).made, hd⟩
    · exact h.regular g hg

theorem call {f : Frame} (h : Accounted engine kept [] w) (hf : f ∈ w.frames) {α : Type}
    (c : HostCall α) :
    Accounted engine (c.handed (c.exec engine f w).1 ++ kept) [] (c.exec engine f w).2 := by
  have hcall {β : Type} (c : HostCall β) (hc : c.forks = false) :
      Accounted engine (c.handed (c.exec engine f w).1 ++ kept) [] (c.exec engine f w).2 := by
    rw [c.handed_of_forks hc]
    exact h.extended ((c.exec_extends hc).apply (List.mem_map_of_mem hf) h.coherent)
      (c.exec_regulates (h.regular f hf).made w id)
  cases c with
  | ask agentModel prompt p => exact hcall _ rfl
  | request r =>
    cases r with
    | fork label handler =>
      by_cases hd : f.depth + 1 ≤ engine.config.maxCallDepth
      · have hfork : (HostCall.request (.fork label handler)).exec engine f w = _ :=
          Exec.fork_of_depth hd label handler f.outlet w
        rw [hfork]
        exact h.fork hf hd label handler f.outlet
      · have hfork : (HostCall.request (.fork label handler)).exec engine f w = _ :=
          Exec.fork_of_refusal hd label handler f.outlet w
        rw [hfork]
        exact h
    | _ => exact hcall _ rfl

/-- A handler runs in its fork, and then the fork goes. -/
theorem runPending {p : Pending} (h : Accounted engine kept (p :: queue) w) :
    Accounted engine kept queue (engine.runPending p w) := by
  have hmade : p.frame.Made := (h.regular _ (h.live.mem_iff.2 List.mem_cons_self)).made
  have hquiet : Accounted engine kept (p :: queue) { w with trace := #[] } :=
    h.alike (.of_instances rfl rfl)
  have hbody := hquiet.extended (engine.handlerBody_undisturbed h.coherent).toExtended
    (Exec.regular_habit.handlerBody hmade _ id)
  rw [engine.runPending_eq]
  exact hbody.release.alike (.of_instances rfl rfl)

theorem round (h : Accounted engine kept [] w) :
    Accounted engine kept w.pending { w with pending := [] } :=
  ⟨by simpa [frames] using h.live, h.regular, h.coherent.congr rfl (fun _ => rfl) (by simp)⟩

theorem tends {inside : InstanceId → Prop} {w' : World} (h : Accounted engine kept [] w)
    (htends : engine.Tends inside w w') : Accounted engine kept [] w' := by
  cases htends with
  | @handle p before after hpending =>
    have hperm := World.perm_pending hpending
    have hnext : Accounted engine kept [p] { w with pending := before ++ after } :=
      ⟨h.live.trans ((hperm.map _).symm.append_right _), h.regular, h.coherent.perm hperm⟩
    exact hnext.runPending
  | settle => exact engine.settle_queue Accounted.runPending Accounted.round h
  | administer => exact h.alike (.of_instances rfl rfl)
  | record => exact h.alike (.of_instances rfl rfl)

/-- Handlers that wait have forks, so they come to their turn. -/
theorem seated (h : Accounted engine kept [] w) : w.Seated engine := by
  intro p hp
  have hregular := h.pending_regular p hp
  refine ⟨?_, hregular.shallow⟩
  have hfork : p.frame.id ≠ [] := by
    simpa [Frame.isRoot] using h.coherent.forked p hp
  rw [hregular.made.depth.2]
  exact List.length_pos_iff.2 hfork

end World.Accounted

namespace Engine

variable {engine : Engine} {kept : List Frame} {w : World}

theorem Ledger.accounted (h : engine.Ledger kept w) : Accounted engine kept [] w := by
  induction h with
  | start => exact .start
  | call c _ hf ih => exact ih.call hf c
  | tend _ htends ih => exact ih.tends htends
  | drop _ ih => exact ih.drop

/-- Whatever a host calls, all handlers have run in the end, and there are no more forks than
before, except for those that it was handed. -/
theorem Ledger.perform (h : engine.Ledger kept w) {f : Frame} (hf : f ∈ w.frames) {α : Type}
    (c : HostCall α) :
    let settled := engine.perform (c.exec engine f) w
    let handed := c.handed settled.result
    engine.Ledger (handed ++ kept) settled.world ∧ settled.world.pending = [] ∧
      (settled.world.frames ++ w.pending.map (·.frame)).Perm (handed ++ w.frames) := by
  intro settled handed
  have hcalled : engine.Ledger (handed ++ kept) (c.exec engine f { w with trace := #[] }).2 :=
    .call c (h.tend (.record w #[] w.calls)) hf
  have hsettled : engine.Ledger (handed ++ kept) settled.world := hcalled.tend (.settle fun _ _ => trivial)
  have hpending : settled.world.pending = [] := engine.settle_pending hcalled.accounted.seated
  have hlive : settled.world.frames.Perm (.root :: (handed ++ kept)) := by
    simpa [hpending] using hsettled.accounted.live
  have hbefore : (handed ++ w.frames).Perm (handed ++ .root :: (kept ++ w.pending.map (·.frame))) :=
    (h.accounted.live.trans List.perm_append_comm).append_left handed
  refine ⟨hsettled, hpending, (hlive.append_right _).trans ?_⟩
  rw [List.cons_append, List.append_assoc]
  exact List.perm_middle.symm.trans hbefore.symm

end Engine

/-! ## The list of live forks -/

namespace Session

variable (s : Session)

end Session

end StepScript
