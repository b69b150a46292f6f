import StepScript.Proofs.AtWork

/-!
# StepScript.Proofs.Assignment

Assignments to elements, and assignments that fail.

* `Value.slot?`        — the place of a list or the name of a map that a key addresses.
* `Value.Replaced`     — a container with another element: its slot has the new value, and all other
  keys find what they found before. `setElement_replaced` — so it is after `setElement`.
* `AtWork.assign`, `AtWork.unassigned` — an assignment changes the variable of its target if it
  succeeds, and nothing if it fails.
* `Engine.element_lens` — assigning an element and indexing fit together.
* `Target.Has`         — a variable or an element has a value.
* `Engine.SetFails`    — which part of a step with several targets has failed, and which targets
  were assigned before it. `Engine.failed_set` — these have their values, and no other variables
  have changed.
-/

namespace StepScript

/-! ## Elements of containers -/

inductive Slot where
  | position (n : Nat)
  | name (s : String)
  deriving DecidableEq, Repr

namespace Value

variable {c c' k v : Value} {items : List Value}

/-- The slot that a key addresses, if it addresses one: in a list, a whole number below its length;
in a map, a text. -/
def slot? (container k : Value) : Option Slot :=
  match container, k with
  | .list items, .number x =>
    match (Binary.ofFloat x).toInt? with
    | some (.ofNat n) => if n < items.length then some (.position n) else none
    | _ => none
  | .map _, .string s => some (.name s)
  | _, _ => none

/-- `c'` is `c` with `v` in the slot of `k`. -/
structure Replaced (c k v c' : Value) : Prop where
  here : c'.index k = .ok v
  elsewhere : ∀ k', c.slot? k' ≠ c.slot? k → c'.index k' = c.index k'
  length : ∀ items, c = .list items → ∃ items', c' = .list items' ∧ items'.length = items.length

theorem slot?_list (items : List Value) (k : Value) :
    (Value.list items).slot? k = (place items.length k).toOption.map .position := by
  cases k with
  | number x =>
    simp only [slot?, place]
    rcases (Binary.ofFloat x).toInt? with _ | n | n
    · rfl
    · by_cases hn : n < items.length
      · simp only [if_pos hn]
        rfl
      · simp only [if_neg hn]
        rfl
    · rfl
  | _ => rfl

theorem slot?_map (entries : List (String × Value)) (k : Value) :
    (Value.map entries).slot? k = k.key.toOption.map .name := by
  cases k with
  | _ => rfl

theorem place_lt {length n : Nat} (h : place length k = .ok n) : n < length := by
  unfold place at h
  split at h
  · split at h
    · split at h
      · next hlt =>
        cases h
        exact hlt
      · cases h
    · cases h
  · cases h

theorem setElement_list {n : Nat} (h : place items.length k = .ok n) (v : Value) :
    (Value.list items).setElement k v = .ok (.list (items.set n v)) := by
  simp only [setElement, h]
  rfl

theorem setElement_map {s : String} (h : k.key = .ok s) (entries : List (String × Value))
    (v : Value) : (Value.map entries).setElement k v = .ok (.map (Entries.insert s v entries)) := by
  simp only [setElement, h]
  rfl

theorem index_list {n : Nat} (h : place items.length k = .ok n) :
    (Value.list items).index k = .ok (items.getD n .nil) := by
  simp only [index, h]
  rfl

theorem index_map {s : String} (h : k.key = .ok s) (entries : List (String × Value)) :
    (Value.map entries).index k =
      (Entries.get? s entries).elim (.error (.keyMissing s)) .ok := by
  cases hs : Entries.get? s entries with
  | none => simp only [index, h, bind, Except.bind, hs, Option.elim_none]
  | some v => simp only [index, h, bind, Except.bind, hs, Option.elim_some]

/-- Lists and maps are what has elements that can be replaced. -/
theorem setElement_cases (h : c.setElement k v = .ok c') :
    (∃ items n, c = .list items ∧ place items.length k = .ok n ∧ c' = .list (items.set n v)) ∨
      ∃ entries s, c = .map entries ∧ k.key = .ok s ∧ c' = .map (Entries.insert s v entries) := by
  cases c with
  | list items =>
    cases hk : place items.length k with
    | error fault =>
      simp only [setElement, hk] at h
      cases h
    | ok n =>
      rw [setElement_list hk] at h
      cases h
      exact .inl ⟨items, n, rfl, hk, rfl⟩
  | map entries =>
    cases hk : k.key with
    | error fault =>
      simp only [setElement, hk] at h
      cases h
    | ok s =>
      rw [setElement_map hk] at h
      cases h
      exact .inr ⟨entries, s, rfl, rfl, rfl⟩
  | _ => cases h

theorem setElement_of_slot (h : c.slot? k ≠ none) (v : Value) :
    ∃ c', c.setElement k v = .ok c' := by
  cases c with
  | list items =>
    rw [slot?_list] at h
    cases hk : place items.length k with
    | error fault =>
      rw [hk] at h
      exact absurd rfl h
    | ok n => exact ⟨_, setElement_list hk v⟩
  | map entries =>
    rw [slot?_map] at h
    cases hk : k.key with
    | error fault =>
      rw [hk] at h
      exact absurd rfl h
    | ok s => exact ⟨_, setElement_map hk entries v⟩
  | _ => exact absurd rfl h

theorem list_replaced {n : Nat} (hk : place items.length k = .ok n) (v : Value) :
    (Value.list items).Replaced k v (.list (items.set n v)) := by
  have hlength : (items.set n v).length = items.length := List.length_set
  have hn : n < items.length := place_lt hk
  refine ⟨?_, fun k' hne => ?_, ?_⟩
  · rw [index_list (hlength ▸ hk), List.getD_eq_getElem?_getD, List.getElem?_set_self hn]
    rfl
  · cases hk' : place items.length k' with
    | error fault =>
      simp only [index, hlength, hk']
      rfl
    | ok m =>
      have hm : n ≠ m := by
        rintro rfl
        exact hne (by rw [slot?_list, slot?_list, hk, hk'])
      rw [index_list hk', index_list (hlength ▸ hk'), List.getD_eq_getElem?_getD,
        List.getElem?_set_ne hm, List.getD_eq_getElem?_getD]
  · rintro items' ⟨⟩
    exact ⟨_, rfl, hlength⟩

theorem map_replaced {s : String} (hk : k.key = .ok s) (entries : List (String × Value))
    (v : Value) : (Value.map entries).Replaced k v (.map (Entries.insert s v entries)) := by
  refine ⟨?_, fun k' hne => ?_, ?_⟩
  · rw [index_map hk, Entries.get?_insert, if_pos rfl]
    rfl
  · cases hk' : k'.key with
    | error fault =>
      simp only [index, hk']
      rfl
    | ok s' =>
      have hs : s ≠ s' := by
        rintro rfl
        exact hne (by rw [slot?_map, slot?_map, hk, hk'])
      rw [index_map hk', index_map hk', Entries.get?_insert, if_neg hs]
  · rintro items' ⟨⟩

theorem setElement_replaced (h : c.setElement k v = .ok c') : c.Replaced k v c' := by
  rcases setElement_cases h with ⟨items, n, rfl, hk, rfl⟩ | ⟨entries, s, rfl, hk, rfl⟩
  · exact list_replaced hk v
  · exact map_replaced hk entries v

end Value

/-! ## Targets -/

/-- The variable that an assignment changes. -/
def Target.name : Target → String
  | .variable n => n
  | .element n _ => n

/-- The target has the value, where `w₀` is the world in which it was assigned and its key, if it has
one, was evaluated. -/
def Target.Has (engine : Engine) (f : Frame) (w₀ : World) (v : Value) (w : World) : Target → Prop
  | .variable x => w.lookup? engine.symbols f x = some v
  | .element x k => ∃ kv w₁ c, engine.evaluate f k w₀ = (.ok kv, w₁) ∧
      w.lookup? engine.symbols f x = some c ∧ c.index kv = .ok v

namespace Exec

variable {engine : Engine} {f : Frame} {x : String} {k : Expression} {v : Value} {w w' : World}

@[simp] theorem read_world (engine : Engine) (f : Frame) (x : String) (w : World) :
    (read engine f x w).2 = w := by
  cases hx : w.lookup? engine.symbols f x with
  | none =>
    simp only [read, bind_apply, get_apply, hx]
    rfl
  | some c => rw [read_of_lookup hx]

@[simp] theorem ofFault_world {α : Type} (r : Except Fault α) (w : World) :
    (ofFault r w).2 = w := by
  cases r with
  | error => rfl
  | ok => rfl

theorem read_eq_ok_iff {c : Value} : read engine f x w = (.ok c, w') ↔
    w.lookup? engine.symbols f x = some c ∧ w' = w := by
  constructor
  · intro h
    cases hx : w.lookup? engine.symbols f x with
    | none =>
      simp only [read, bind_apply, get_apply, hx] at h
      cases h
    | some c' =>
      rw [read_of_lookup hx] at h
      cases h
      exact ⟨rfl, rfl⟩
  · rintro ⟨hx, rfl⟩
    exact read_of_lookup hx

theorem ofFault_eq_ok_iff {α : Type} {r : Except Fault α} {a : α} :
    ofFault r w = (.ok a, w') ↔ r = .ok a ∧ w' = w := by
  cases r with
  | error fault =>
    constructor
    · intro h
      cases h
    · rintro ⟨⟨⟩, -⟩
  | ok b =>
    constructor
    · intro h
      cases h
      exact ⟨rfl, rfl⟩
    · rintro ⟨⟨⟩, rfl⟩
      rfl

/-- What a failing assignment to a variable has done. -/
theorem write_error {i : Interrupt} (h : write engine f x v w = (.error i, w')) : w' = w := by
  rcases change_cases (·.assign engine.symbols f x v) w with hsame | hok
  · rw [← hsame]
    exact (congrArg Prod.snd h).symm
  · rw [show change (·.assign engine.symbols f x v) w = (.error i, w') from h] at hok
    cases hok

theorem assign_element_eq_ok_iff :
    assign engine engine.enter f (.element x k) v w = (.ok (), w') ↔
      ∃ kv w₁ c c', engine.evaluate f k w = (.ok kv, w₁) ∧
        w₁.lookup? engine.symbols f x = some c ∧ c.setElement kv v = .ok c' ∧
        write engine f x c' w₁ = (.ok (), w') := by
  constructor
  · intro h
    obtain ⟨kv, w₁, hk, hread⟩ := bind_eq_ok_iff.1 h
    obtain ⟨c, w₂, hx, helement⟩ := bind_eq_ok_iff.1 hread
    obtain ⟨hc, rfl⟩ := read_eq_ok_iff.1 hx
    obtain ⟨c', w₃, hset, hwrite⟩ := bind_eq_ok_iff.1 helement
    obtain ⟨hc', rfl⟩ := ofFault_eq_ok_iff.1 hset
    exact ⟨kv, _, c, c', hk, hc, hc', hwrite⟩
  · rintro ⟨kv, w₁, c, c', hk, hc, hc', hwrite⟩
    refine bind_eq_ok_iff.2 ⟨kv, w₁, hk, bind_eq_ok_iff.2 ⟨c, w₁, read_of_lookup hc, ?_⟩⟩
    exact bind_eq_ok_iff.2 ⟨c', w₁, ofFault_eq_ok_iff.2 ⟨hc', rfl⟩, hwrite⟩

/-- An assignment to an element has done nothing but evaluate the key if it fails. -/
theorem assign_element_error {i : Interrupt}
    (h : assign engine engine.enter f (.element x k) v w = (.error i, w')) :
    w' = (engine.evaluate f k w).2 := by
  rcases hk : engine.evaluate f k w with ⟨j | kv, w₁⟩
  · have hassign : assign engine engine.enter f (.element x k) v w = (.error j, w₁) :=
      bind_error hk
    exact (congrArg Prod.snd (hassign.symm.trans h)).symm
  · rcases bind_eq_error_iff.1 ((bind_ok hk).symm.trans h) with hx | ⟨c, w₂, hx, helement⟩
    · rw [← read_world engine f x w₁, hx]
    · obtain ⟨-, rfl⟩ := read_eq_ok_iff.1 hx
      rcases bind_eq_error_iff.1 helement with hset | ⟨c', w₃, hset, hwrite⟩
      · rw [← ofFault_world (c.setElement kv v) w₂, hset]
      · obtain ⟨-, rfl⟩ := ofFault_eq_ok_iff.1 hset
        exact write_error hwrite

end Exec

namespace World.AtWork

open Exec

variable {engine : Engine} {f : Frame} {t : Target} {v : Value} {w w' : World} {i : Interrupt}

/-- An assignment that fails has changed nothing. -/
theorem unassigned (h : w.AtWork f)
    (hfail : Exec.assign engine engine.enter f t v w = (.error i, w')) :
    KeptBut f (fun _ => False) w w' := by
  rcases t with n | ⟨x, k⟩
  · obtain rfl := write_error hfail
    exact .refl f _ _
  · rw [assign_element_error hfail]
    exact .of_undisturbed (h.evaluate engine k)

/-- An assignment that succeeds has changed its variable. -/
theorem assign (h : w.AtWork f) (hok : Exec.assign engine engine.enter f t v w = (.ok (), w')) :
    w'.AtWork f ∧ KeptBut f (· = t.name) w w' := by
  rcases t with n | ⟨x, k⟩
  · exact ⟨h.does (.set hok), h.kept hok⟩
  · obtain ⟨kv, w₁, c, c', hk, -, -, hwrite⟩ := assign_element_eq_ok_iff.1 hok
    have hspared := h.evaluate engine k
    rw [hk] at hspared
    have hw₁ : w₁.AtWork f := h.of_undisturbed hspared not_false
    exact ⟨hw₁.does (.set hwrite), (KeptBut.of_undisturbed hspared).trans (hw₁.kept hwrite)⟩

/-- And its target has the value. -/
theorem assigned (h : w.AtWork f)
    (hok : Exec.assign engine engine.enter f t v w = (.ok (), w')) : t.Has engine f w v w' := by
  rcases t with n | ⟨x, k⟩
  · exact h.written hok .refl
  · obtain ⟨kv, w₁, c, c', hk, -, hset, hwrite⟩ := assign_element_eq_ok_iff.1 hok
    have hspared := h.evaluate engine k
    rw [hk] at hspared
    have hw₁ : w₁.AtWork f := h.of_undisturbed hspared not_false
    exact ⟨kv, w₁, c', hk, hw₁.written hwrite .refl, (Value.setElement_replaced hset).here⟩

/-- Assignments in a row have changed their variables. -/
theorem assignEach {targets : List Target} : ∀ {vs : List Value} {w : World}, w.AtWork f →
    Exec.assignEach engine engine.enter f targets vs w = (.ok (), w') →
      w'.AtWork f ∧ KeptBut f (fun n => ∃ t ∈ targets, t.name = n) w w' := by
  induction targets with
  | nil =>
    rintro vs w h ⟨⟩
    exact ⟨h, .refl f _ _⟩
  | cons t ts ih =>
    intro vs w h hok
    cases vs with
    | nil =>
      cases hok
      exact ⟨h, .refl f _ _⟩
    | cons v vs =>
      obtain ⟨⟨⟩, w₁, hassign, hrest⟩ := Exec.bind_eq_ok_iff.1 hok
      obtain ⟨hw₁, hkept⟩ := h.assign hassign
      obtain ⟨hw', hkept'⟩ := ih hw₁ hrest
      refine ⟨hw', (hkept.mono ?_).trans (hkept'.mono ?_)⟩
      · rintro n rfl
        exact ⟨t, List.mem_cons_self, rfl⟩
      · rintro n ⟨t', ht', rfl⟩
        exact ⟨t', List.mem_cons_of_mem _ ht', rfl⟩

theorem has_of_kept {w₀ : World} {names : String → Prop} (h : w.AtWork f)
    (hkept : KeptBut f names w w') (ht : ¬ names t.name) (hhas : t.Has engine f w₀ v w) :
    t.Has engine f w₀ v w' := by
  have hlookup := hkept.lookup engine.symbols h.live h.made fun _ => ht
  rcases t with n | ⟨x, k⟩
  · exact hlookup.trans hhas
  · obtain ⟨kv, w₁, c, hk, hc, hindex⟩ := hhas
    exact ⟨kv, w₁, c, hk, hlookup.trans hc, hindex⟩

/-- After assignments in a row, a target has its value unless one after it has the same name. -/
theorem assignEach_has {before after : List Target} : ∀ {vs : List Value} {w : World}, w.AtWork f →
    Exec.assignEach engine engine.enter f (before ++ t :: after) vs w = (.ok (), w') →
    before.length < vs.length → (∀ t' ∈ after, t'.name ≠ t.name) →
      ∃ u w₀, vs[before.length]? = some u ∧
        Exec.assignEach engine engine.enter f before (vs.take before.length) w = (.ok (), w₀) ∧
        t.Has engine f w₀ u w' := by
  induction before with
  | nil =>
    intro vs w h hok hlength hlast
    cases vs with
    | nil => cases hlength
    | cons v vs =>
      obtain ⟨⟨⟩, w₁, hassign, hrest⟩ := Exec.bind_eq_ok_iff.1 hok
      obtain ⟨hw₁, -⟩ := h.assign hassign
      have hkept := (hw₁.assignEach hrest).2
      refine ⟨v, w, rfl, rfl, hw₁.has_of_kept hkept ?_ (h.assigned hassign)⟩
      rintro ⟨t', ht', hname⟩
      exact hlast t' ht' hname
  | cons t' before ih =>
    intro vs w h hok hlength hlast
    cases vs with
    | nil => cases hlength
    | cons v vs =>
      obtain ⟨⟨⟩, w₁, hassign, hrest⟩ := Exec.bind_eq_ok_iff.1 hok
      obtain ⟨u, w₀, hu, hbefore, hhas⟩ :=
        ih (h.assign hassign).1 hrest (Nat.lt_of_succ_lt_succ hlength) hlast
      exact ⟨u, w₀, hu, Exec.bind_eq_ok_iff.2 ⟨(), w₁, hassign, hbefore⟩, hhas⟩

end World.AtWork

def World.Writable (w : World) (symbols : Symbols) (f : Frame) (n : String) : Prop :=
  w.isConstant symbols n = false ∧ (w.isGlobal f n = true → f.isRoot = true)

theorem World.Writable.write {engine : Engine} {f : Frame} {n : String} {w : World}
    (h : w.Writable engine.symbols f n) (v : Value) :
    ∃ w', Exec.write engine f n v w = (.ok (), w') := by
  cases hglobal : w.isGlobal f n with
  | true => exact ⟨_, Exec.write_eq_ok_iff.2 ⟨h.1, .inl ⟨hglobal, h.2 hglobal, rfl⟩⟩⟩
  | false => exact ⟨_, Exec.write_eq_ok_iff.2 ⟨h.1, .inr ⟨hglobal, rfl⟩⟩⟩

namespace Engine

open World Exec

/-- Assigning an element and indexing fit together. After `v` was assigned to the element of `x` at
a key, `x` has `v` in the slot of the key and finds what it found before at all keys that address
another slot or none; a list keeps its length; and no other variable has changed. An assignment that
fails has changed nothing. It succeeds if the key has a value that addresses a slot of `x`, and the
instance may assign `x`. -/
theorem element_lens (engine : Engine) (f : Frame) (x : String) (k : Expression) (v : Value)
    (w : World) (h : w.AtWork f) :
    (∀ w', Exec.assign engine engine.enter f (.element x k) v w = (.ok (), w') →
      ∃ kv w₁ c c', engine.evaluate f k w = (.ok kv, w₁) ∧
        w.lookup? engine.symbols f x = some c ∧ w'.lookup? engine.symbols f x = some c' ∧
        c.Replaced kv v c' ∧ KeptBut f (· = x) w w') ∧
    (∀ i w', Exec.assign engine engine.enter f (.element x k) v w = (.error i, w') →
      KeptBut f (fun _ => False) w w') ∧
    ∀ kv w₁ c, engine.evaluate f k w = (.ok kv, w₁) → w.lookup? engine.symbols f x = some c →
      c.slot? kv ≠ none → w.Writable engine.symbols f x →
      ∃ w', Exec.assign engine engine.enter f (.element x k) v w = (.ok (), w') := by
  -- the key is evaluated before the container is read, and leaves it alone
  have hspared := h.evaluate engine k
  have hkept : KeptBut f (fun _ => False) w (engine.evaluate f k w).2 := .of_undisturbed hspared
  have hlookup : (engine.evaluate f k w).2.lookup? engine.symbols f x =
      w.lookup? engine.symbols f x := hkept.lookup engine.symbols h.live h.made fun _ => not_false
  refine ⟨fun w' hok => ?_, fun i w' hfail => h.unassigned hfail, fun kv w₁ c hk hc hslot hx => ?_⟩
  · obtain ⟨kv, w₁, c, c', hk, hc, hset, hwrite⟩ := assign_element_eq_ok_iff.1 hok
    rw [hk] at hspared hlookup
    have hw₁ : w₁.AtWork f := h.of_undisturbed hspared not_false
    exact ⟨kv, w₁, c, c', hk, hlookup ▸ hc, hw₁.written hwrite .refl,
      Value.setElement_replaced hset, (h.assign hok).2⟩
  · rw [hk] at hspared hlookup
    have hroot : w₁.root = w.root := hspared.shared.root
    have hx₁ : w₁.Writable engine.symbols f x := by
      simpa only [Writable, isConstant, isGlobal, globalsOf, hroot] using hx
    obtain ⟨c', hset⟩ := Value.setElement_of_slot hslot v
    obtain ⟨w', hwrite⟩ := hx₁.write c'
    exact ⟨w', assign_element_eq_ok_iff.2 ⟨kv, w₁, c, c', hk, hlookup.trans hc, hset, hwrite⟩⟩

/-- A body adds an entry to the map that it was given. -/
theorem element_lens_of_given :
    let engine : Engine := {}
    let f := ({} : World).nextFrame .root "fill" none .host
    let w := (({} : World).enlist .root f).bindAll f.id [("m", .map [("a", .nil)])]
    let r := Exec.assign engine engine.enter f (.element "m" (.string "b")) (.bool true) w
    (w.AtWork f ∧ r.1 = .ok ()) ∧
      ∃ c, r.2.lookup? {} f "m" = some c ∧ c.index (.string "b") = .ok (.bool true) ∧
        c.index (.string "a") = .ok .nil := by
  intro engine f w r
  have hstart : engine.Ledger [] {} := .start
  have hroot : ({} : World).AtWork .root := hstart.atWork hstart.accounted.root_live
  have hwork : w.AtWork f := hroot.enter "fill" none .host [("m", .map [("a", .nil)])]
  obtain ⟨hassigned, -, hsuccess⟩ := element_lens engine f "m" (.string "b") (.bool true) w hwork
  have hwritable : w.Writable engine.symbols f "m" := ⟨rfl, by rintro ⟨⟩⟩
  obtain ⟨w', hok⟩ :=
    hsuccess (.string "b") w (.map [("a", .nil)]) rfl rfl (by decide) hwritable
  obtain ⟨kv, w₁, c, c', hk, hc, hc', hreplaced, -⟩ := hassigned w' hok
  cases hk
  cases hc
  have hr : r = (.ok (), w') := hok
  rw [hr]
  exact ⟨⟨hwork, rfl⟩, c', hc', hreplaced.here, hreplaced.elsewhere (.string "a") (by decide)⟩

end Engine

/-! ## Several targets -/

/-- What each target takes of a value: one target takes it as it is, several take the items of a
list of their number. -/
def Value.shares (count : Nat) (v : Value) : Option (List Value) :=
  if count = 1 then some [v]
  else match v with
    | .list vs => if vs.length = count then some vs else none
    | _ => none

namespace Exec

variable {engine : Engine} {enter : Enter} {f : Frame} {targets : List Target} {v : Value}
variable {vs : List Value}

theorem assignAll_list (h : targets.length ≠ 1) (vs : List Value) :
    assignAll engine enter f targets (.list vs) =
      if vs.length = targets.length then assignEach engine enter f targets vs
      else fault (.assignCount (Value.list vs).describeCount targets.length) := by
  rcases targets with _ | ⟨t, _ | ⟨t', ts⟩⟩
  · rfl
  · exact absurd rfl h
  · rfl

theorem assignAll_of_shares (h : v.shares targets.length = some vs) :
    assignAll engine enter f targets v = assignEach engine enter f targets vs := by
  by_cases hone : targets.length = 1
  · obtain ⟨t, rfl⟩ := List.length_eq_one_iff.1 hone
    cases h
    exact (bind_pure _).symm
  · simp only [Value.shares, if_neg hone] at h
    split at h
    · next vs' =>
      split at h
      · next hlength =>
        cases h
        rw [assignAll_list hone, if_pos hlength]
      · cases h
    · cases h

theorem assignAll_of_not_shares (h : v.shares targets.length = none) :
    assignAll engine enter f targets v = fault (.assignCount v.describeCount targets.length) := by
  by_cases hone : targets.length = 1
  · simp only [Value.shares, if_pos hone] at h
    cases h
  · cases v with
    | list vs =>
      have hlength : vs.length ≠ targets.length := by
        intro hlength
        simp only [Value.shares, if_neg hone, if_pos hlength] at h
        cases h
      rw [assignAll_list hone, if_neg hlength]
    | _ =>
      rcases targets with _ | ⟨t, _ | ⟨t', ts⟩⟩
      · rfl
      · exact absurd rfl hone
      · rfl

/-- Assignments in a row fail with the first that fails. -/
theorem assignEach_error {i : Interrupt} {w' : World} : ∀ {vs : List Value} {w : World},
    assignEach engine enter f targets vs w = (.error i, w') →
      ∃ done t rest given u others w₂, targets = done ++ t :: rest ∧ vs = given ++ u :: others ∧
        done.length = given.length ∧ assignEach engine enter f done given w = (.ok (), w₂) ∧
        assign engine enter f t u w₂ = (.error i, w') := by
  induction targets with
  | nil =>
    rintro vs w ⟨⟩
  | cons t ts ih =>
    intro vs w h
    cases vs with
    | nil => cases h
    | cons v vs =>
      rcases bind_eq_error_iff.1 h with hfail | ⟨⟨⟩, w₁, hassign, hrest⟩
      · exact ⟨[], t, ts, [], v, vs, w, rfl, rfl, rfl, rfl, hfail⟩
      · obtain ⟨done, t', rest, given, u, others, w₂, rfl, rfl, hlength, hdone, hfail⟩ := ih hrest
        exact ⟨t :: done, t', rest, v :: given, u, others, w₂, rfl, rfl,
          congrArg Nat.succ hlength, bind_eq_ok_iff.2 ⟨(), w₁, hassign, hdone⟩, hfail⟩

end Exec

namespace Engine

open World Exec

/-- How a step with targets fails: which targets were assigned, in which world it was then, and in
which world it ends. Its value fails, or there is not a share for each target, and nothing was
assigned; or the assignment of one target fails after those before it. -/
inductive SetFails (engine : Engine) (f : Frame) (targets : List Target) (value : Expression)
    (w : World) (i : Interrupt) : List Target → World → World → Prop where
  | value {w' : World} : engine.evaluate f value w = (.error i, w') →
      SetFails engine f targets value w i [] w w'
  | count {v : Value} {w' : World} : engine.evaluate f value w = (.ok v, w') →
      v.shares targets.length = none →
      i = .failed (Fault.assignCount v.describeCount targets.length).error →
      SetFails engine f targets value w i [] w w'
  | target {v u : Value} {w₁ w₂ w' : World} {done rest : List Target} {t : Target}
      {given others : List Value} : engine.evaluate f value w = (.ok v, w₁) →
      v.shares targets.length = some (given ++ u :: others) → targets = done ++ t :: rest →
      done.length = given.length → assignEach engine engine.enter f done given w₁ = (.ok (), w₂) →
      Exec.assign engine engine.enter f t u w₂ = (.error i, w') →
      SetFails engine f targets value w i done w₂ w'

variable {engine : Engine} {f : Frame} {mode : Mode} {targets done : List Target}
variable {value : Expression} {w w₂ w' : World} {i : Interrupt}

theorem step_set (p : Position) (targets : List Target) (value : Expression) :
    engine.step f mode p (.set targets value) = (do
      let v ← engine.evaluate f value
      assignAll engine engine.enter f targets v
      return ⟨v, .proceed⟩) := by
  simp only [step, execAction, execSimple]
  rfl

theorem step_set_error {p : Position}
    (h : engine.step f mode p (.set targets value) w = (.error i, w')) :
    ∃ done w₂, engine.SetFails f targets value w i done w₂ w' := by
  rw [step_set] at h
  rcases Exec.bind_eq_error_iff.1 h with hvalue | ⟨v, w₁, hvalue, hassign⟩
  · exact ⟨_, _, .value hvalue⟩
  · rcases Exec.bind_eq_error_iff.1 hassign with hfail | ⟨_, _, _, hpure⟩
    · cases hshares : v.shares targets.length with
      | none =>
        rw [assignAll_of_not_shares hshares] at hfail
        cases hfail
        exact ⟨_, _, .count hvalue hshares rfl⟩
      | some vs =>
        rw [assignAll_of_shares hshares] at hfail
        obtain ⟨done, t, rest, given, u, others, w₂, htargets, rfl, hlength, hdone, hfail⟩ :=
          assignEach_error hfail
        exact ⟨_, _, .target hvalue hshares htargets hlength hdone hfail⟩
    · cases hpure

namespace SetFails

/-- The part that fails has changed nothing. -/
theorem kept (h : engine.SetFails f targets value w i done w₂ w') (hw : w.AtWork f) :
    KeptBut f (fun _ => False) w₂ w' ∧ KeptBut f (fun n => ∃ t ∈ done, t.name = n) w w₂ := by
  have hspared := hw.evaluate engine value
  cases h with
  | value hvalue =>
    rw [hvalue] at hspared
    exact ⟨.of_undisturbed hspared, .refl f _ _⟩
  | count hvalue _ _ =>
    rw [hvalue] at hspared
    exact ⟨.of_undisturbed hspared, .refl f _ _⟩
  | target hvalue _ _ _ hdone hfail =>
    rw [hvalue] at hspared
    obtain ⟨hw₂, hkept⟩ := (hw.of_undisturbed hspared not_false).assignEach hdone
    exact ⟨hw₂.unassigned hfail, (KeptBut.of_undisturbed hspared).trans hkept⟩

theorem length_lt (h : engine.SetFails f targets value w i done w₂ w') (hdone : done ≠ []) :
    done.length < targets.length := by
  cases h with
  | value => exact absurd rfl hdone
  | count => exact absurd rfl hdone
  | target _ _ htargets => simp [htargets]

/-- The targets before the one that failed have their shares. -/
theorem has (h : engine.SetFails f targets value w i done w₂ w') (hw : w.AtWork f) {v : Value}
    {w₁ : World} {vs : List Value} (hvalue : engine.evaluate f value w = (.ok v, w₁))
    (hshares : v.shares targets.length = some vs) {before after : List Target} {t : Target}
    (hdone : done = before ++ t :: after) (hlast : ∀ t' ∈ after, t'.name ≠ t.name) :
    ∃ u w₀, vs[before.length]? = some u ∧
      assignEach engine engine.enter f before (vs.take before.length) w₁ = (.ok (), w₀) ∧
      t.Has engine f w₀ u w' := by
  have hspared := hw.evaluate engine value
  rw [hvalue] at hspared
  have hw₁ : w₁.AtWork f := hw.of_undisturbed hspared not_false
  cases h with
  | value => simp at hdone
  | count => simp at hdone
  | target hvalue' hshares' _ hlength hassigned hfail =>
    cases hvalue.symm.trans hvalue'
    cases hshares.symm.trans hshares'
    subst hdone
    have hlt : before.length < (before ++ t :: after).length := by simp
    rw [hlength] at hlt
    obtain ⟨u, w₀, hu, hbefore, hhas⟩ := hw₁.assignEach_has hassigned hlt hlast
    obtain ⟨hw₂, -⟩ := hw₁.assignEach hassigned
    refine ⟨u, w₀, ?_, ?_, hw₂.has_of_kept (hw₂.unassigned hfail) not_false hhas⟩
    · rw [List.getElem?_append_left hlt, hu]
    · rw [List.take_append_of_le_length (Nat.le_of_lt hlt), hbefore]

end SetFails

/-- A step with targets that fails has assigned the targets before the one that failed, in order,
and the assignment that failed has changed nothing. So each of these targets has its share of the
value, unless one after it has the same name, and no variable has changed that is not named by one
of them, and none of another instance. If its value fails, if there is not a share for each target,
or if there is but one target, then nothing has changed. -/
theorem failed_set (engine : Engine) (f : Frame) (mode : Mode) (p : Position)
    (targets : List Target) (value : Expression) (w : World) (h : w.AtWork f) (i : Interrupt)
    (w' : World) (hfail : engine.step f mode p (.set targets value) w = (.error i, w')) :
    ∃ done w₂, engine.SetFails f targets value w i done w₂ w' ∧
      KeptBut f (fun _ => False) w₂ w' ∧
      KeptBut f (fun n => ∃ t ∈ done, t.name = n) w w' ∧
      (∀ v w₁ vs, engine.evaluate f value w = (.ok v, w₁) → v.shares targets.length = some vs →
        ∀ before t after, done = before ++ t :: after → (∀ t' ∈ after, t'.name ≠ t.name) →
          ∃ u w₀, vs[before.length]? = some u ∧
            assignEach engine engine.enter f before (vs.take before.length) w₁ = (.ok (), w₀) ∧
            t.Has engine f w₀ u w') ∧
      (targets.length ≤ 1 → KeptBut f (fun _ => False) w w') := by
  obtain ⟨done, w₂, hfails⟩ := step_set_error hfail
  obtain ⟨hkept, hassigned⟩ := hfails.kept h
  have hall : KeptBut f (fun n => ∃ t ∈ done, t.name = n) w w' :=
    hassigned.trans (hkept.mono fun _ => False.elim)
  refine ⟨done, w₂, hfails, hkept, hall, fun v w₁ vs hvalue hshares before t after hdone hlast =>
    hfails.has h hvalue hshares hdone hlast, fun hone => hall.mono ?_⟩
  rintro n ⟨t, ht, -⟩
  have hlt := hfails.length_lt (List.ne_nil_of_mem ht)
  have hpos : 0 < done.length := List.length_pos_of_mem ht
  omega

/-- The second of three targets is a constant: the first one was assigned, the third was not. -/
theorem failed_set_of_constant :
    let engine : Engine := {}
    let w := ((HostCall.request (.setConstant "K" .nil)).exec engine .root {}).2
    let targets : List Target := [.variable "a", .variable "K", .variable "b"]
    let value : Expression := .list [.bool true, .bool false, .bool true]
    let r := engine.step .root {} .unknown (.set targets value) w
    (w.AtWork .root ∧ r.1 = .error (.failed (Fault.constantWrite "K").error)) ∧
      ∃ done w₂, engine.SetFails .root targets value w
          (.failed (Fault.constantWrite "K").error) done w₂ r.2 ∧
        KeptBut .root (fun n => ∃ t ∈ done, t.name = n) w r.2 ∧
        r.2.lookup? {} .root "a" = some (.bool true) ∧ r.2.lookup? {} .root "b" = none := by
  intro engine w targets value r
  have hstart : engine.Ledger [] {} := .start
  have hledger : engine.Ledger [] w :=
    .call (.request (.setConstant "K" .nil)) hstart hstart.accounted.root_live
  have hwork : w.AtWork .root := hledger.atWork hledger.accounted.root_live
  have hfail : r = (.error (.failed (Fault.constantWrite "K").error), r.2) := rfl
  obtain ⟨done, w₂, hfails, -, hkept, -⟩ :=
    failed_set engine .root {} .unknown targets value w hwork _ _ hfail
  exact ⟨⟨hwork, rfl⟩, done, w₂, hfails, hkept, rfl, rfl⟩

/-- So a step that fails can leave a variable changed: here `a` was not defined before. -/
theorem set_half_applied :
    let engine : Engine := {}
    let w := ((HostCall.request (.setConstant "K" .nil)).exec engine .root {}).2
    let r := engine.step .root {} .unknown
      (.set [.variable "a", .variable "K"] (.list [.bool true, .bool false])) w
    (engine.Ledger [] w ∧ r.1 = .error (.failed (Fault.constantWrite "K").error)) ∧
      w.lookup? engine.symbols .root "a" = none ∧
      r.2.lookup? engine.symbols .root "a" = some (.bool true) := by
  intro engine w r
  have hstart : engine.Ledger [] {} := .start
  have hledger : engine.Ledger [] w :=
    .call (.request (.setConstant "K" .nil)) hstart hstart.accounted.root_live
  exact ⟨⟨hledger, rfl⟩, rfl, rfl⟩

end Engine

end StepScript
