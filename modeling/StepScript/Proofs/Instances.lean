import StepScript.Engine.Scope

/-!
# StepScript.Proofs.Instances

The live instances of a world, seen through their frames, their locals and the number of forks
made from each.

* `World.frames`, `World.ids`, `World.forkCount` — the views, with one lemma for each operation.
* `World.Coherent` — instances have ids of their own, every instance has counted the forks below
  it, and every waiting handler has a live fork to itself.
* `Coherent.enlist` — so the next fork of a live instance is a new instance.
-/

namespace StepScript
namespace World

/-- The frames of the live instances, the latest first. -/
def frames (w : World) : List Frame := w.instances.map (·.frame)

def ids (w : World) : List InstanceId := w.frames.map (·.id)

def forkCount (w : World) (id : InstanceId) : Nat :=
  match w.instance? id with
  | some i => i.forks
  | none => 0

theorem mem_ids {w : World} {id : InstanceId} :
    id ∈ w.ids ↔ ∃ i ∈ w.instances, i.frame.id = id := by
  simp [ids, frames]

theorem nextFrame_id (w : World) (parent : Frame) (label : String) (handler : Option (List Step))
    (outlet : Outlet) :
    (w.nextFrame parent label handler outlet).id = w.forkCount parent.id :: parent.id := rfl

/-! ## Changing an instance -/

section Update

variable {g : Instance → Instance} (hg : ∀ i, (g i).frame = i.frame)

include hg

theorem updateLatest_frames (id : InstanceId) (l : List Instance) :
    (updateLatest id g l).map (·.frame) = l.map (·.frame) := by
  induction l with
  | nil => rfl
  | cons i rest ih =>
    simp only [updateLatest]
    split
    · simp [hg]
    · simp [ih]

theorem find?_updateLatest (id id' : InstanceId) (l : List Instance) :
    (updateLatest id g l).find? (·.frame.id = id') =
      if id = id' then (l.find? (·.frame.id = id')).map g else l.find? (·.frame.id = id') := by
  induction l with
  | nil => simp [updateLatest]
  | cons i rest ih =>
    simp only [updateLatest]
    by_cases hi : i.frame.id = id
    · rw [if_pos hi]
      by_cases hid : id = id'
      · simp [hg, hi, hid]
      · have hne : ¬ i.frame.id = id' := fun h => hid (hi.symm.trans h)
        simp [hg, hne, hid]
    · rw [if_neg hi]
      by_cases hi' : i.frame.id = id'
      · have hid : ¬ id = id' := fun h => hi (hi'.trans h.symm)
        simp [hi', hid]
      · simp only [List.find?_cons, hi', decide_false, ih]

theorem update_frames (w : World) (id : InstanceId) : (w.update id g).frames = w.frames :=
  updateLatest_frames hg id w.instances

theorem instance?_update (w : World) (id id' : InstanceId) :
    (w.update id g).instance? id' =
      if id = id' then (w.instance? id').map g else w.instance? id' :=
  find?_updateLatest hg id id' w.instances

end Update

section Bind

variable (w : World) (id : InstanceId) (name : String) (v : Value)

@[simp] theorem bind_frames : (w.bind id name v).frames = w.frames := by
  apply update_frames
  intro i
  rfl

theorem instance?_bind (id' : InstanceId) : (w.bind id name v).instance? id' =
    if id = id' then (w.instance? id').map fun i => { i with locals := i.locals.insert name v }
    else w.instance? id' := by
  apply instance?_update
  intro i
  rfl

@[simp] theorem bind_ids : (w.bind id name v).ids = w.ids := by simp [ids]

@[simp] theorem bind_forkCount (id' : InstanceId) :
    (w.bind id name v).forkCount id' = w.forkCount id' := by
  simp only [forkCount, instance?_bind]
  by_cases h : id = id'
  · rw [if_pos h]
    cases w.instance? id' <;> rfl
  · rw [if_neg h]

theorem instance?_of_mem {w : World} {id : InstanceId} (h : id ∈ w.ids) :
    ∃ i, w.instance? id = some i := by
  obtain ⟨i, hm, hid⟩ := mem_ids.1 h
  cases hi : w.instance? id with
  | some j => exact ⟨j, rfl⟩
  | none =>
    have := List.find?_eq_none.1 hi i hm
    simp [hid] at this

theorem update_locals_self {w : World} {id : InstanceId} (h : id ∈ w.ids)
    (change : Table Value → Table Value) :
    (w.update id fun i => { i with locals := change i.locals }).locals id =
      change (w.locals id) := by
  obtain ⟨i, hi⟩ := instance?_of_mem h
  have hframe (i : Instance) : { i with locals := change i.locals }.frame = i.frame := rfl
  simp only [locals, instance?_update hframe, if_pos, hi, Option.map_some]

theorem bind_locals_self {w : World} {id : InstanceId} (h : id ∈ w.ids) (name : String)
    (v : Value) : (w.bind id name v).locals id = (w.locals id).insert name v := by
  obtain ⟨i, hi⟩ := instance?_of_mem h
  simp only [locals, instance?_bind, if_pos, hi, Option.map_some]

theorem bindAll_locals_self (pairs : List (String × Value)) : ∀ {w : World} {id : InstanceId},
    id ∈ w.ids → (w.bindAll id pairs).locals id =
      pairs.foldl (fun t p => t.insert p.1 p.2) (w.locals id) := by
  induction pairs with
  | nil => intro w id _; rfl
  | cons p rest ih =>
    intro w id h
    show ((w.bind id p.1 p.2).bindAll id rest).locals id = _
    rw [ih (by simpa using h), bind_locals_self h]
    rfl

theorem bind_locals_of_ne {id' : InstanceId} (h : id ≠ id') :
    (w.bind id name v).locals id' = w.locals id' := by
  simp only [locals, instance?_bind, if_neg h]

end Bind

/-! ## Making and releasing instances -/

section Enlist

variable (w : World) (parent child : Frame)

@[simp] theorem enlist_frames : (w.enlist parent child).frames = child :: w.frames := by
  apply congrArg (child :: ·)
  apply updateLatest_frames
  intro i
  rfl

@[simp] theorem enlist_ids : (w.enlist parent child).ids = child.id :: w.ids := by
  simp [ids]

theorem instance?_enlist (id : InstanceId) : (w.enlist parent child).instance? id =
    if child.id = id then some { frame := child }
    else if parent.id = id then (w.instance? id).map fun i => { i with forks := i.forks + 1 }
    else w.instance? id := by
  by_cases h : child.id = id
  · simp [instance?, enlist, h]
  · rw [if_neg h]
    have hu : (w.enlist parent child).instance? id =
        (w.update parent.id fun i => { i with forks := i.forks + 1 }).instance? id := by
      simp [instance?, enlist, h]
    rw [hu]
    apply instance?_update
    intro i
    rfl

theorem enlist_locals_child : (w.enlist parent child).locals child.id = {} := by
  simp only [locals, instance?_enlist, if_pos]

theorem enlist_locals_of_ne {id : InstanceId} (h : child.id ≠ id) :
    (w.enlist parent child).locals id = w.locals id := by
  simp only [locals, instance?_enlist, if_neg h]
  by_cases hp : parent.id = id
  · rw [if_pos hp]
    cases w.instance? id <;> rfl
  · rw [if_neg hp]

theorem enlist_forkCount_of_ne {id : InstanceId} (h : child.id ≠ id) (hp : parent.id ≠ id) :
    (w.enlist parent child).forkCount id = w.forkCount id := by
  simp only [forkCount, instance?_enlist, if_neg h, if_neg hp]

theorem enlist_forkCount_parent (h : child.id ≠ parent.id) (hp : parent.id ∈ w.ids) :
    (w.enlist parent child).forkCount parent.id = w.forkCount parent.id + 1 := by
  obtain ⟨i, hi⟩ := instance?_of_mem hp
  simp only [forkCount, instance?_enlist, if_neg h, if_pos, hi, Option.map_some]

end Enlist

section Release

variable (w : World) (id : InstanceId)

theorem release_frames : (w.release id).frames = w.frames.eraseP (·.id = id) := by
  simp only [frames, release]
  rw [List.eraseP_map]
  rfl

@[simp] theorem release_ids : (w.release id).ids = w.ids.erase id := by
  simp only [ids, release_frames]
  induction w.frames with
  | nil => rfl
  | cons f rest ih =>
    by_cases h : f.id = id
    · simp [h]
    · simp only [List.eraseP_cons, h, decide_false, cond_false, List.map_cons, ih,
        List.erase_cons, beq_iff_eq, if_false]

theorem instance?_release_of_ne {id' : InstanceId} (h : id ≠ id') :
    (w.release id).instance? id' = w.instance? id' := by
  simp only [instance?, release]
  induction w.instances with
  | nil => rfl
  | cons i rest ih =>
    by_cases hi : i.frame.id = id
    · have hne : ¬ i.frame.id = id' := fun h' => h (hi.symm.trans h')
      simp [hi, h]
    · simp only [List.eraseP_cons, hi, decide_false, cond_false, List.find?_cons, ih]

theorem release_locals_of_ne {id' : InstanceId} (h : id ≠ id') :
    (w.release id).locals id' = w.locals id' := by
  simp only [locals, instance?_release_of_ne w id h]

theorem release_forkCount_of_ne {id' : InstanceId} (h : id ≠ id') :
    (w.release id).forkCount id' = w.forkCount id' := by
  simp only [forkCount, instance?_release_of_ne w id h]

end Release

/-! ## Coherent worlds -/

/-- What the world knows of its instances fits together: an id stands for one instance, whatever
was forked from an instance has a number below the instance's count, and every waiting handler has
a live fork to itself. -/
structure Coherent (w : World) : Prop where
  nodup : w.ids.Nodup
  counted : ∀ id ∈ w.ids, ∀ id' ∈ w.ids, ∀ n, (n :: id') <:+ id → n < w.forkCount id'
  waiting : ∀ p ∈ w.pending, p.frame.id ∈ w.ids
  forked : ∀ p ∈ w.pending, p.frame.isRoot = false
  alone : (w.pending.map (·.frame.id)).Nodup

theorem coherent_start : ({} : World).Coherent where
  nodup := by decide
  counted := by
    intro id hid id' hid' n hn
    have hroot : id = [] := by simpa [ids, frames, Frame.root] using hid
    rw [hroot] at hn
    exact absurd hn.length_le (by simp)
  waiting := by simp
  forked := by simp
  alone := by simp

namespace Coherent

variable {w : World}

/-- Coherence looks only at the ids, the counts and the forks of waiting handlers. -/
theorem congr {w' : World} (h : w.Coherent) (hids : w'.ids = w.ids)
    (hcount : ∀ id, w'.forkCount id = w.forkCount id) (hpending : w'.pending = w.pending) :
    w'.Coherent where
  nodup := by rw [hids]; exact h.nodup
  counted := by
    intro id hid id' hid' n hn
    rw [hids] at hid hid'
    rw [hcount]
    exact h.counted id hid id' hid' n hn
  waiting := by rw [hids, hpending]; exact h.waiting
  forked := by rw [hpending]; exact h.forked
  alone := by rw [hpending]; exact h.alone

theorem bind (h : w.Coherent) (id : InstanceId) (name : String) (v : Value) :
    (w.bind id name v).Coherent :=
  h.congr (by simp) (by simp) rfl

variable {parent : Frame} (label : String) (handler : Option (List Step)) (outlet : Outlet)

theorem fresh (h : w.Coherent) (hp : parent.id ∈ w.ids) :
    (w.nextFrame parent label handler outlet).id ∉ w.ids := by
  intro hmem
  rw [nextFrame_id] at hmem
  have := h.counted _ hmem _ hp _ (List.suffix_refl _)
  exact Nat.lt_irrefl _ this

/-- The next fork of a live instance is an instance like the others. -/
theorem enlist (h : w.Coherent) (hp : parent.id ∈ w.ids) :
    (w.enlist parent (w.nextFrame parent label handler outlet)).Coherent := by
  have hfresh := h.fresh label handler outlet hp
  have hid := nextFrame_id w parent label handler outlet
  generalize w.nextFrame parent label handler outlet = child at hfresh hid ⊢
  have hne : ∀ id ∈ w.ids, child.id ≠ id := fun id hm e => hfresh (e ▸ hm)
  -- no live instance lies below the new one
  have hbelow : ∀ id ∈ w.ids, ∀ n, ¬ (n :: child.id) <:+ id := by
    intro id hm n hn
    have hs : child.id <:+ id := (List.suffix_cons n child.id).trans hn
    rw [hid] at hs
    exact Nat.lt_irrefl _ (h.counted id hm _ hp _ hs)
  -- counts only grow
  have hcount : ∀ id ∈ w.ids, w.forkCount id ≤ (w.enlist parent child).forkCount id := by
    intro id hm
    by_cases hpi : parent.id = id
    · subst hpi
      rw [enlist_forkCount_parent w parent child (hne _ hm) hm]
      exact Nat.le_succ _
    · exact Nat.le_of_eq (enlist_forkCount_of_ne w parent child (hne id hm) hpi).symm
  refine ⟨?_, ?_, ?_, h.forked, h.alone⟩
  · rw [enlist_ids, List.nodup_cons]
    exact ⟨hfresh, h.nodup⟩
  · intro id hm id' hm' n hn
    rw [enlist_ids, List.mem_cons] at hm hm'
    rcases hm' with rfl | hm'
    · rcases hm with rfl | hm
      · exact absurd hn.length_le (by simp)
      · exact absurd hn (hbelow id hm n)
    · rcases hm with rfl | hm
      · rw [hid, List.suffix_cons_iff] at hn
        rcases hn with hn | hn
        · obtain ⟨rfl, rfl⟩ := List.cons.inj hn
          rw [enlist_forkCount_parent w parent child (hne _ hp) hp]
          exact Nat.lt_succ_self _
        · exact Nat.lt_of_lt_of_le (h.counted _ hp id' hm' n hn) (hcount id' hm')
      · exact Nat.lt_of_lt_of_le (h.counted id hm id' hm' n hn) (hcount id' hm')
  · intro p hm
    rw [enlist_ids]
    exact List.mem_cons_of_mem _ (h.waiting p hm)

/-- An instance that no handler waits for may go. -/
theorem release (h : w.Coherent) {id : InstanceId} (hid : ∀ p ∈ w.pending, p.frame.id ≠ id) :
    (w.release id).Coherent where
  nodup := by rw [release_ids]; exact h.nodup.erase id
  counted := by
    intro a ha b hb n hn
    rw [release_ids, h.nodup.mem_erase_iff] at ha hb
    rw [release_forkCount_of_ne w id (Ne.symm hb.1)]
    exact h.counted a ha.2 b hb.2 n hn
  waiting := by
    intro p hp
    rw [release_ids, h.nodup.mem_erase_iff]
    exact ⟨hid p hp, h.waiting p hp⟩
  forked := h.forked
  alone := h.alone

/-- One more handler may wait for a fork of its own. -/
theorem wait (h : w.Coherent) {p : Pending} (hlive : p.frame.id ∈ w.ids)
    (hfork : p.frame.isRoot = false) (hnew : ∀ q ∈ w.pending, q.frame.id ≠ p.frame.id) :
    { w with pending := w.pending ++ [p] }.Coherent where
  nodup := h.nodup
  counted := h.counted
  waiting := by
    intro q hq
    rcases List.mem_append.1 hq with hq | hq
    · exact h.waiting q hq
    · rw [List.mem_singleton.1 hq]
      exact hlive
  forked := by
    intro q hq
    rcases List.mem_append.1 hq with hq | hq
    · exact h.forked q hq
    · rw [List.mem_singleton.1 hq]
      exact hfork
  alone := by
    show ((w.pending ++ [p]).map _).Nodup
    rw [List.map_append, List.nodup_append]
    refine ⟨h.alone, by simp, ?_⟩
    intro a ha b hb
    obtain ⟨q, hq, rfl⟩ := List.mem_map.1 ha
    rw [List.mem_singleton.1 hb]
    exact hnew q hq

end Coherent

end World
end StepScript
