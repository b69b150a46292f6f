import StepScript.Proofs.Computation
import StepScript.Proofs.Instances

/-!
# StepScript.Proofs.Noninterference

What is done with the variables of a fork concerns nobody else.

* `Access`        — forking an instance, reading and writing its variables, defining globals.
* `Access.runAll` — such requests in any order, each to an instance of its own choice.
* `World.Beside`  — two worlds that differ at most in one instance and its descendants.
* `Access.step_outside` — a request to any other instance is answered alike in both and keeps them
  so; `Access.step_under` — a request to that instance or a descendant leads from a world to such
  another one. The run of a sequence with and without the latter requests is put together from
  these two.
-/

namespace StepScript

/-- Is the instance `b` itself or one of its descendants? -/
def InstanceId.under (b id : InstanceId) : Bool := b.isSuffixOf id

theorem InstanceId.under_cons {b id : InstanceId} (n : Nat) (h : under b id = true) :
    under b (n :: id) = true := by
  simp only [under, List.isSuffixOf_iff_suffix] at h ⊢
  exact h.trans (List.suffix_cons n id)

/-- What lies below a fork is a fork. -/
theorem InstanceId.ne_root_of_under {b id : InstanceId} (hb : b ≠ Frame.root.id)
    (h : under b id = true) : id ≠ [] := by
  rintro rfl
  simp only [under, List.isSuffixOf_iff_suffix, List.suffix_nil] at h
  exact hb h

/-! ## Requests -/

/-- A request to an instance about forks and variables. -/
inductive Access where
  | fork (label : String) (handler : Option (List Step))
  | set (name : String) (v : Value)
  | get (name : String)
  | setGlobal (name : String) (v : Value)
  | setConstant (name : String) (v : Value)

inductive Answer where
  | done
  | value (v : Value)
  | forked (child : Frame)

namespace Access

def exec (engine : Engine) (f : Frame) : Access → Exec Answer
  | .fork label handler => do return .forked (← Exec.fork engine f label handler f.outlet)
  | .set name v => do
    Exec.write engine f name v
    return .done
  | .get name => do return .value (← Exec.read engine f name)
  | .setGlobal name v => do
    Exec.change (·.defineGlobal engine.symbols f name v)
    return .done
  | .setConstant name v => do
    Exec.change (·.defineConstant f name v)
    return .done

structure Addressed where
  target : InstanceId
  access : Access

/-- One request to a live instance. There is no answer from others. -/
def step (engine : Engine) (r : Addressed) (w : World) :
    Option (Except Interrupt Answer) × World :=
  match w.instance? r.target with
  | none => (none, w)
  | some i =>
    let (answer, w) := r.access.exec engine i.frame w
    (some answer, w)

def runAll (engine : Engine) : List Addressed → World →
    List (Addressed × Option (Except Interrupt Answer)) × World
  | [], w => ([], w)
  | r :: rest, w =>
    let (answer, w) := step engine r w
    let (answers, w) := runAll engine rest w
    ((r, answer) :: answers, w)

end Access

/-! ## Worlds beside each other -/

namespace World

/-- The instances that are not at or below `b`. -/
def apartFrom (b : InstanceId) (l : List Instance) : List Instance :=
  l.filter fun i => !InstanceId.under b i.frame.id

/-- The worlds differ at most in the instance `b` and its descendants. -/
structure Beside (b : InstanceId) (w w' : World) : Prop where
  root : w'.root = w.root
  instances : apartFrom b w'.instances = apartFrom b w.instances

section Apart

variable {b id : InstanceId} {g : Instance → Instance} (hg : ∀ i, (g i).frame = i.frame)

include hg

theorem apartFrom_updateLatest_under (hid : InstanceId.under b id = true) (l : List Instance) :
    apartFrom b (updateLatest id g l) = apartFrom b l := by
  induction l with
  | nil => rfl
  | cons i rest ih =>
    simp only [updateLatest]
    split
    · rename_i hi
      simp [apartFrom, hg, hi, hid]
    · simp only [apartFrom, List.filter_cons] at ih ⊢
      rw [ih]

theorem apartFrom_updateLatest (hid : InstanceId.under b id = false) (l : List Instance) :
    apartFrom b (updateLatest id g l) = updateLatest id g (apartFrom b l) := by
  induction l with
  | nil => rfl
  | cons i rest ih =>
    simp only [updateLatest]
    by_cases hi : i.frame.id = id
    · simp [apartFrom, hg, hi, hid, updateLatest]
    · simp only [apartFrom, List.filter_cons, if_neg hi] at ih ⊢
      cases InstanceId.under b i.frame.id with
      | true => simpa using ih
      | false => simpa [updateLatest, hi] using ih

end Apart

namespace Beside

variable {b : InstanceId} {w w' w'' : World}

theorem refl (b : InstanceId) (w : World) : Beside b w w := ⟨rfl, rfl⟩

theorem symm (h : Beside b w w') : Beside b w' w := ⟨h.root.symm, h.instances.symm⟩

theorem trans (h : Beside b w w') (h' : Beside b w' w'') : Beside b w w'' :=
  ⟨h'.root.trans h.root, h'.instances.trans h.instances⟩

theorem instance? (h : Beside b w w') {id : InstanceId} (hid : InstanceId.under b id = false) :
    w'.instance? id = w.instance? id := by
  have hfind (l : List Instance) :
      l.find? (·.frame.id = id) = (apartFrom b l).find? (·.frame.id = id) := by
    rw [apartFrom, List.find?_filter]
    congr 1
    funext i
    by_cases hi : i.frame.id = id
    · simp [hi, hid]
    · simp [hi]
  simp only [World.instance?]
  rw [hfind, hfind w.instances, h.instances]

theorem locals (h : Beside b w w') {id : InstanceId} (hid : InstanceId.under b id = false) :
    w'.locals id = w.locals id := by
  simp only [World.locals, h.instance? hid]

theorem update (h : Beside b w w') {id : InstanceId} (hid : InstanceId.under b id = false)
    {g : Instance → Instance} (hg : ∀ i, (g i).frame = i.frame) :
    Beside b (w.update id g) (w'.update id g) := by
  refine ⟨h.root, ?_⟩
  simp only [World.update]
  rw [apartFrom_updateLatest hg hid, apartFrom_updateLatest hg hid, h.instances]

theorem update_under (w : World) {id : InstanceId} (hid : InstanceId.under b id = true)
    {g : Instance → Instance} (hg : ∀ i, (g i).frame = i.frame) : Beside b w (w.update id g) :=
  ⟨rfl, apartFrom_updateLatest_under hg hid w.instances⟩

/-- A change of the root alone. -/
theorem withRoot (h : Beside b w w') (root : Root) :
    Beside b { w with root := root } { w' with root := root } :=
  ⟨rfl, h.instances⟩

theorem nextFrame (h : Beside b w w') {f : Frame} (hf : InstanceId.under b f.id = false)
    (label : String) (handler : Option (List Step)) (outlet : Outlet) :
    w'.nextFrame f label handler outlet = w.nextFrame f label handler outlet := by
  simp only [World.nextFrame, h.instance? hf, h.root]

theorem enlist (h : Beside b w w') {f : Frame} (hf : InstanceId.under b f.id = false)
    (child : Frame) : Beside b (w.enlist f child) (w'.enlist f child) := by
  have hupdate := h.update hf (g := fun i => { i with forks := i.forks + 1 }) fun _ => rfl
  have hinstances := hupdate.instances
  refine ⟨h.root, ?_⟩
  simp only [apartFrom] at hinstances
  simp only [World.enlist, apartFrom, List.filter_cons, hinstances]

/-- A fork below `b` is nothing to the others. -/
theorem enlist_under (w : World) {f child : Frame} (hf : InstanceId.under b f.id = true)
    (hchild : InstanceId.under b child.id = true) : Beside b w (w.enlist f child) := by
  have hupdate := update_under (b := b) w hf (g := fun i => { i with forks := i.forks + 1 })
    fun _ => rfl
  have hinstances := hupdate.instances
  refine ⟨rfl, ?_⟩
  simp only [apartFrom] at hinstances ⊢
  simp only [World.enlist, List.filter_cons, hchild, Bool.not_true, Bool.false_eq_true, if_false,
    hinstances]

end Beside
end World

/-! ## Single requests -/

namespace Access

open World

variable (engine : Engine) {b : InstanceId} {f : Frame} {w w' : World}

/-- Two results are the same and leave worlds beside each other. -/
def Alike (b : InstanceId) {α : Type} (x y : Except Interrupt α × World) : Prop :=
  y.1 = x.1 ∧ Beside b x.2 y.2

theorem Alike.bind {α β : Type} {X : Exec α} (hX : Alike b (X w) (X w')) {K : α → Exec β}
    (hK : ∀ a v v', Beside b v v' → Alike b (K a v) (K a v')) :
    Alike b ((X >>= K) w) ((X >>= K) w') := by
  rcases hw : X w with ⟨r, v⟩
  rcases hw' : X w' with ⟨r', v'⟩
  rw [hw, hw'] at hX
  obtain ⟨rfl, hbeside⟩ := hX
  cases r' with
  | ok a =>
    rw [Exec.bind_ok hw, Exec.bind_ok hw']
    exact hK a v v' hbeside
  | error i =>
    rw [Exec.bind_error hw, Exec.bind_error hw']
    exact ⟨rfl, hbeside⟩

theorem Alike.pure {α : Type} (a : α) (h : Beside b w w') :
    Alike b ((Pure.pure a : Exec α) w) ((Pure.pure a : Exec α) w') := ⟨rfl, h⟩

/-- Two worlds are changed alike if the reasons not to change them are the same. -/
inductive Tandem (b : InstanceId) : Except Fault World → Except Fault World → Prop where
  | ok {v v' : World} : Beside b v v' → Tandem b (.ok v) (.ok v')
  | error (e : Fault) : Tandem b (.error e) (.error e)

theorem change_alike {x : World → Except Fault World} (h : Beside b w w')
    (hx : Tandem b (x w) (x w')) : Alike b (Exec.change x w) (Exec.change x w') := by
  simp only [Exec.change, Exec.bind_apply, Exec.get_apply]
  generalize x w = r at hx ⊢
  generalize x w' = r' at hx ⊢
  cases hx with
  | ok hv => exact ⟨rfl, hv⟩
  | error e => exact ⟨rfl, h⟩

section Outside

variable (h : Beside b w w') (hf : InstanceId.under b f.id = false)

include h

theorem isConstant_outside (symbols : Symbols) (name : String) :
    w'.isConstant symbols name = w.isConstant symbols name := by
  simp only [isConstant, h.root]

include hf

theorem assign_outside (symbols : Symbols) (name : String) (v : Value) :
    Tandem b (w.assign symbols f name v) (w'.assign symbols f name v) := by
  have hglobal : w'.isGlobal f name = w.isGlobal f name := by
    simp only [isGlobal, globalsOf, h.root]
  simp only [assign, isConstant_outside h, hglobal]
  split
  · exact .error _
  · split
    · split
      · refine .ok ?_
        simp only [World.setGlobal, h.root]
        exact h.withRoot _
      · exact .error _
    · exact .ok (h.update hf fun _ => rfl)

theorem defineGlobal_outside (symbols : Symbols) (name : String) (v : Value) :
    Tandem b (w.defineGlobal symbols f name v) (w'.defineGlobal symbols f name v) := by
  simp only [defineGlobal, isConstant_outside h]
  split
  · exact .error _
  · split
    · exact .error _
    · have herased := h.update hf (g := fun i => { i with locals := i.locals.erase name })
        fun _ => rfl
      refine .ok ?_
      simp only [World.setGlobal, herased.root]
      exact herased.withRoot _

omit hf in
theorem defineConstant_outside (name : String) (v : Value) :
    Tandem b (w.defineConstant f name v) (w'.defineConstant f name v) := by
  simp only [defineConstant, h.root]
  split
  · exact .error _
  · split
    · exact .error _
    · exact .ok (h.withRoot _)

theorem read_outside (name : String) :
    Alike b (Exec.read engine f name w) (Exec.read engine f name w') := by
  have hlookup : w'.lookup? engine.symbols f name = w.lookup? engine.symbols f name := by
    simp only [lookup?, globalsOf, h.locals hf, h.root]
  simp only [Exec.read, Exec.bind_apply, Exec.get_apply, hlookup]
  cases w.lookup? engine.symbols f name with
  | some v => exact ⟨rfl, h⟩
  | none => exact ⟨rfl, h⟩

theorem fork_outside (label : String) (handler : Option (List Step)) (outlet : Outlet) :
    Alike b (Exec.fork engine f label handler outlet w)
      (Exec.fork engine f label handler outlet w') := by
  unfold Exec.fork
  split
  · have hnext := h.nextFrame hf label handler outlet
    refine ⟨congrArg Except.ok hnext, ?_⟩
    show Beside b (w.enlist f _) (w'.enlist f (w'.nextFrame f label handler outlet))
    rw [hnext]
    exact h.enlist hf _
  · exact ⟨rfl, h⟩

theorem exec_outside (a : Access) : Alike b (a.exec engine f w) (a.exec engine f w') := by
  cases a with
  | fork label handler =>
    exact (fork_outside engine h hf label handler f.outlet).bind fun _ _ _ h' => .pure _ h'
  | set name v =>
    exact (change_alike h (assign_outside h hf _ name v)).bind fun _ _ _ h' => .pure _ h'
  | get name => exact (read_outside engine h hf name).bind fun _ _ _ h' => .pure _ h'
  | setGlobal name v =>
    exact (change_alike h (defineGlobal_outside h hf _ name v)).bind fun _ _ _ h' => .pure _ h'
  | setConstant name v =>
    exact (change_alike h (defineConstant_outside h name v)).bind fun _ _ _ h' => .pure _ h'

end Outside

/-- The answer to a request to another instance does not depend on `b` and its descendants, and
neither does what becomes of the rest of the world. -/
theorem step_outside (h : Beside b w w') {r : Addressed}
    (hr : InstanceId.under b r.target = false) :
    (step engine r w').1 = (step engine r w).1 ∧
      Beside b (step engine r w).2 (step engine r w').2 := by
  simp only [step, h.instance? hr]
  cases hi : w.instance? r.target with
  | none => exact ⟨rfl, h⟩
  | some i =>
    have hid : i.frame.id = r.target := by simpa using List.find?_some hi
    have halike := exec_outside engine h (hid ▸ hr) r.access
    exact ⟨congrArg some halike.1, halike.2⟩

theorem step_bind_under {α : Type} {X : Exec α} (hX : Beside b w (X w).2) (g : α → Answer) :
    Beside b w ((do return g (← X)) w : Except Interrupt Answer × World).2 := by
  rcases hw : X w with ⟨r, v⟩
  rw [hw] at hX
  cases r with
  | ok a =>
    rw [Exec.bind_ok hw]
    exact hX
  | error i =>
    rw [Exec.bind_error hw]
    exact hX

/-- None of the requests gets through a fork to what all instances share. -/
theorem exec_under (hroot : f.isRoot = false) (hf : InstanceId.under b f.id = true) (a : Access) :
    Beside b w (a.exec engine f w).2 := by
  cases a with
  | fork label handler =>
    refine step_bind_under ?_ _
    unfold Exec.fork
    split
    · exact .enlist_under w hf (InstanceId.under_cons _ hf)
    · exact .refl b w
  | set name v =>
    refine step_bind_under ?_ fun _ => .done
    rcases Exec.write_world engine f name v w with h | ⟨h, -⟩ | h
    · rw [h]
      exact .refl b w
    · rw [hroot] at h
      cases h
    · rw [h]
      exact .update_under w hf fun _ => rfl
  | get name =>
    refine step_bind_under ?_ _
    simp only [Exec.read, Exec.bind_apply, Exec.get_apply]
    cases w.lookup? engine.symbols f name with
    | some v => exact .refl b w
    | none => exact .refl b w
  | setGlobal name v =>
    refine step_bind_under ?_ fun _ => .done
    rw [Exec.change_world]
    simp only [defineGlobal, hroot]
    exact .refl b w
  | setConstant name v =>
    refine step_bind_under ?_ fun _ => .done
    rw [Exec.change_world]
    simp only [defineConstant, hroot]
    exact .refl b w

theorem step_under (hb : b ≠ Frame.root.id) {r : Addressed}
    (hr : InstanceId.under b r.target = true) (w : World) : Beside b w (step engine r w).2 := by
  simp only [step]
  cases hi : w.instance? r.target with
  | none => exact .refl b w
  | some i =>
    have hid : i.frame.id = r.target := by simpa using List.find?_some hi
    have hroot : i.frame.isRoot = false := by
      have hne := InstanceId.ne_root_of_under hb (hid ▸ hr)
      simpa [Frame.isRoot] using hne
    exact exec_under engine hroot (hid ▸ hr) r.access

/-! ## Sequences of requests -/

/-- With and without the requests to `b` and its descendants, from worlds beside each other. The
induction is on the requests: those that are left out move one of the two worlds only. -/
theorem runAll_beside (hb : b ≠ Frame.root.id) (requests : List Addressed) :
    ∀ {w w' : World}, Beside b w w' →
      let all := runAll engine requests w
      let rest := runAll engine (requests.filter fun r => !InstanceId.under b r.target) w'
      (all.1.filter fun a => !InstanceId.under b a.1.target) = rest.1 ∧ Beside b all.2 rest.2 := by
  induction requests with
  | nil => intro w w' h; exact ⟨rfl, h⟩
  | cons r requests ih =>
    intro w w' h
    cases hr : InstanceId.under b r.target with
    | true =>
      have hstep := step_under engine hb hr w
      obtain ⟨hanswers, hworlds⟩ := ih (hstep.symm.trans h)
      simp only [List.filter_cons, hr, Bool.not_true, Bool.false_eq_true, if_false, runAll]
      exact ⟨hanswers, hworlds⟩
    | false =>
      obtain ⟨hanswer, hstep⟩ := step_outside engine h hr
      obtain ⟨hanswers, hworlds⟩ := ih hstep
      simp only [List.filter_cons, hr, Bool.not_false, if_true, runAll]
      exact ⟨by rw [hanswer, hanswers], hworlds⟩

/-- Forks do not interfere: take all requests to a fork and its descendants out of a sequence, and
the others are answered as before, failures included; and in the end the globals, the constants and
all instances but that fork and its descendants, with their locals, are the same. -/
theorem fork_noninterference (engine : Engine) (w : World) (b : InstanceId)
    (hb : b ≠ Frame.root.id) (requests : List Addressed) :
    let all := runAll engine requests w
    let rest := runAll engine (requests.filter fun r => !InstanceId.under b r.target) w
    (all.1.filter fun a => !InstanceId.under b a.1.target) = rest.1 ∧
      rest.2.root.globals = all.2.root.globals ∧ rest.2.root.constants = all.2.root.constants ∧
      ∀ id, InstanceId.under b id = false →
        rest.2.instance? id = all.2.instance? id ∧ rest.2.locals id = all.2.locals id := by
  intro all rest
  obtain ⟨hanswers, hworlds⟩ := runAll_beside engine hb requests (.refl b w)
  refine ⟨hanswers, congrArg Root.globals hworlds.root, congrArg Root.constants hworlds.root, ?_⟩
  intro id hid
  exact ⟨hworlds.instance? hid, hworlds.locals hid⟩

/-- Two forks of the root, and a fork of the first one that tries to write what is not its own. -/
theorem fork_noninterference_of_siblings :
    let first : InstanceId := [0]
    let requests : List Addressed :=
      [⟨[], .fork "first" none⟩, ⟨[], .fork "second" none⟩, ⟨[0], .fork "below" none⟩,
        ⟨[0, 0], .setGlobal "x" .nil⟩, ⟨[0], .set "x" (.bool true)⟩, ⟨[1], .set "x" (.bool false)⟩,
        ⟨[], .setGlobal "y" .nil⟩, ⟨[0], .set "y" .nil⟩, ⟨[1], .get "x"⟩]
    let all := runAll {} requests {}
    let rest := runAll {} (requests.filter fun r => !InstanceId.under first r.target) {}
    first ≠ Frame.root.id ∧ (all.1.length = 9 ∧ rest.1.length = 5) ∧
      (all.1.filter fun a => !InstanceId.under first a.1.target) = rest.1 ∧
      rest.2.locals [1] = all.2.locals [1] := by
  intro first requests all rest
  have hfirst : first ≠ Frame.root.id := by decide
  obtain ⟨hanswers, -, -, hothers⟩ := fork_noninterference {} {} first hfirst requests
  exact ⟨hfirst, ⟨rfl, rfl⟩, hanswers, (hothers [1] rfl).2⟩

end Access
end StepScript
