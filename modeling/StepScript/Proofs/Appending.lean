import StepScript.Proofs.Registry

/-!
# StepScript.Proofs.Appending

Programs that are put together, and what the tables of the root hold of them.

* `Program.Prepares`  — exactly when a program can be prepared, and what it becomes: declarations in
  order, names that are new among themselves and not the host's. `prepares_append_iff` takes a
  program apart into two.
* `Root.extend`       — the tables with more of a program. Loading extends empty tables, and
  extending twice is extending once by both.
* `Exec.Inert`        — a computation that reads variables and does nothing else. An expression
  without calls is one, so it does not matter to it which program is loaded.
* `Engine.append_after_load` — so appending is loading the concatenation.
-/

namespace StepScript

/-- One program after another. -/
instance : Append Program :=
  ⟨fun p q => ⟨p.procedures ++ q.procedures, p.events ++ q.events, p.commands ++ q.commands⟩⟩

instance : Append Prepared :=
  ⟨fun a b => ⟨a.procedures ++ b.procedures, a.commands ++ b.commands, a.handlers ++ b.handlers⟩⟩

/-! ## What a program becomes -/

section Prepare

variable (engine : Engine) (f : Frame)

/-- The handler that a declaration becomes. The name of its event is computed, so the world may
change. -/
structure EventDecl.Becomes (d : EventDecl) (w : World) (h : EventHandler) (w' : World) : Prop
    extends d.Declares h where
  named : engine.evaluate f d.name w = (.ok (.string h.eventName), w')
  free (n : String) : d.handlerName = some n → n ∉ engine.symbols.eventHandlers

inductive EventDecl.BecomeAll : List EventDecl → World → List EventHandler → World → Prop where
  | nil (w : World) : BecomeAll [] w [] w
  | cons {d : EventDecl} {ds : List EventDecl} {h : EventHandler} {hs : List EventHandler}
      {w w₁ w' : World} : d.Becomes engine f w h w₁ → BecomeAll ds w₁ hs w' →
      BecomeAll (d :: ds) w (h :: hs) w'

/-- What a program becomes, if names are as they should be. -/
structure Program.Prepares (p : Program) (w : World) (ready : Prepared) (w' : World) : Prop where
  procedures : p.procedures.mapM ProcedureDecl.prepare = .ok ready.procedures
  commands : p.commands.mapM CommandBlock.prepare = .ok ready.commands
  handlers : EventDecl.BecomeAll engine f p.events w ready.handlers w'
  unreserved (q : Procedure) : q ∈ ready.procedures → q.name ∉ engine.symbols.procedures
  procedureNames : (ready.procedures.map (·.name)).Nodup
  handlerNames : (handlerNames ready.handlers).Nodup

end Prepare

theorem bind_eq_ok_iff {ε α β : Type} {x : Except ε α} {k : α → Except ε β} {b : β} :
    x >>= k = .ok b ↔ ∃ a, x = .ok a ∧ k a = .ok b := by
  cases x with
  | error e => exact ⟨nofun, fun ⟨a, h, _⟩ => nomatch h⟩
  | ok a => exact ⟨fun h => ⟨a, rfl, h⟩, fun ⟨a', h, hk⟩ => by cases h; exact hk⟩

theorem mapM_cons_eq_ok_iff {ε α β : Type} {g : α → Except ε β} {a : α} {as : List α}
    {bs : List β} : (a :: as).mapM g = .ok bs ↔
      ∃ b rest, bs = b :: rest ∧ g a = .ok b ∧ as.mapM g = .ok rest := by
  rw [List.mapM_cons, bind_eq_ok_iff]
  constructor
  · rintro ⟨b, hb, h⟩
    obtain ⟨rest, hrest, hbs⟩ := bind_eq_ok_iff.1 h
    cases hbs
    exact ⟨b, rest, rfl, hb, hrest⟩
  · rintro ⟨b, rest, rfl, hb, hrest⟩
    exact ⟨b, hb, bind_eq_ok_iff.2 ⟨rest, hrest, rfl⟩⟩

theorem mapM_append_eq_ok_iff {ε α β : Type} {g : α → Except ε β} {as as' : List α}
    {bs : List β} : (as ++ as').mapM g = .ok bs ↔
      ∃ l l', bs = l ++ l' ∧ as.mapM g = .ok l ∧ as'.mapM g = .ok l' := by
  rw [List.mapM_append, bind_eq_ok_iff]
  constructor
  · rintro ⟨l, hl, h⟩
    obtain ⟨l', hl', hbs⟩ := bind_eq_ok_iff.1 h
    cases hbs
    exact ⟨l, l', rfl, hl, hl'⟩
  · rintro ⟨l, l', rfl, hl, hl'⟩
    exact ⟨l, hl, bind_eq_ok_iff.2 ⟨l', hl', rfl⟩⟩

theorem prepareProcedures_eq_ok_iff (reserved : List String) (ds : List ProcedureDecl) :
    ∀ (seen : List String) (qs : List Procedure), prepareProcedures reserved seen ds = .ok qs ↔
      ds.mapM ProcedureDecl.prepare = .ok qs ∧ (∀ q ∈ qs, q.name ∉ reserved) ∧
        (qs.map (·.name)).Nodup ∧ ∀ q ∈ qs, q.name ∉ seen := by
  induction ds with
  | nil =>
    intro seen qs
    rw [List.mapM_nil]
    constructor
    · intro h
      cases h
      exact ⟨rfl, nofun, List.nodup_nil, nofun⟩
    · rintro ⟨h, -⟩
      exact h
  | cons d ds ih =>
    intro seen qs
    rw [mapM_cons_eq_ok_iff]
    constructor
    · intro h
      simp only [prepareProcedures] at h
      split at h
      · cases h
      · rename_i hreserved
        split at h
        · cases h
        · rename_i hseen
          obtain ⟨q, hq, h⟩ := bind_eq_ok_iff.1 h
          obtain ⟨rest, hrest, hqs⟩ := bind_eq_ok_iff.1 h
          cases hqs
          obtain ⟨hmap, hfree, hnodup, hnew⟩ := (ih _ rest).1 hrest
          have hname : q.name = d.name := (d.prepare_yields q hq).1
          refine ⟨⟨q, rest, rfl, hq, hmap⟩, ?_, ?_, ?_⟩
          · exact List.forall_mem_cons.2 ⟨hname ▸ hreserved, hfree⟩
          · refine List.nodup_cons.2 ⟨fun hmem => ?_, hnodup⟩
            obtain ⟨q', hq', heq⟩ := List.mem_map.1 hmem
            exact hnew q' hq' (heq.trans hname ▸ List.mem_cons_self)
          · refine List.forall_mem_cons.2 ⟨hname ▸ hseen, fun q' hq' hmem => ?_⟩
            exact hnew q' hq' (List.mem_cons_of_mem _ hmem)
    · rintro ⟨⟨q, rest, rfl, hq, hmap⟩, hfree, hnodup, hnew⟩
      have hname : q.name = d.name := (d.prepare_yields q hq).1
      obtain ⟨hqfree, hrestfree⟩ := List.forall_mem_cons.1 hfree
      obtain ⟨hqnew, hrestnew⟩ := List.forall_mem_cons.1 hnew
      obtain ⟨hother, hrestnodup⟩ := List.nodup_cons.1 hnodup
      have hrest : prepareProcedures reserved (d.name :: seen) ds = .ok rest := by
        refine (ih _ rest).2 ⟨hmap, hrestfree, hrestnodup, fun q' hq' hmem => ?_⟩
        rcases List.mem_cons.1 hmem with heq | hmem
        · exact hother (List.mem_map.2 ⟨q', hq', heq.trans hname.symm⟩)
        · exact hrestnew q' hq' hmem
      rw [hname] at hqfree hqnew
      simp only [prepareProcedures, if_neg hqfree, if_neg hqnew]
      exact bind_eq_ok_iff.2 ⟨q, hq, bind_eq_ok_iff.2 ⟨rest, hrest, rfl⟩⟩

namespace Exec

variable {α : Type} {w w' : World}

theorem ofExcept_eq_ok_iff {x : Except RuntimeError α} {a : α} :
    ofExcept x w = (.ok a, w') ↔ x = .ok a ∧ w' = w := by
  cases x with
  | error e => exact ⟨nofun, fun h => nomatch h.1⟩
  | ok a' => exact ⟨fun h => by cases h; exact ⟨rfl, rfl⟩, fun ⟨h, h'⟩ => by cases h; cases h'; rfl⟩

theorem mapError_eq_ok_iff {g : RuntimeError → RuntimeError} {x : Exec α} {a : α} :
    mapError g x w = (.ok a, w') ↔ x w = (.ok a, w') := by
  rw [mapError_eq]
  rcases hx : x w with ⟨(e | text) | a', w₁⟩
  · rw [bind_ok (attempt_failed hx)]
    constructor <;> intro h <;> cases h
  · rw [bind_error (attempt_crashed hx)]
  · rw [bind_ok (attempt_ok hx)]
    exact Iff.rfl

end Exec

namespace Engine

open Exec

variable (engine : Engine) (f : Frame)

theorem prepareHandler_eq_ok_iff (d : EventDecl) (w : World) (h : EventHandler) (w' : World) :
    engine.prepareHandler f d w = (.ok h, w') ↔ d.Becomes engine f w h w' := by
  unfold prepareHandler
  rw [Exec.bind_eq_ok_iff]
  constructor
  · rintro ⟨v, w₁, hv, hrest⟩
    rw [mapError_eq_ok_iff] at hv
    cases v with
    | string name =>
      have hbody (hfree : ∀ n, d.handlerName = some n → n ∉ engine.symbols.eventHandlers)
          (hready : (ofExcept (Body.ofSteps d.body) >>= fun body => Pure.pure
            (EventHandler.mk name d.handlerName d.payloadVariable body d.position)) w₁ =
              (.ok h, w')) : d.Becomes engine f w h w' := by
        obtain ⟨body, w₂, hstored, hdone⟩ := Exec.bind_eq_ok_iff.1 hready
        obtain ⟨hsteps, rfl⟩ := ofExcept_eq_ok_iff.1 hstored
        cases hdone
        exact ⟨⟨rfl, rfl, hsteps, rfl⟩, hv, hfree⟩
      cases hname : d.handlerName with
      | none =>
        simp only [hname] at hbody hrest
        exact hbody nofun hrest
      | some n =>
        simp only [hname] at hbody hrest
        split at hrest
        · cases hrest
        · rename_i hfree
          refine hbody (fun n' hn' => ?_) hrest
          cases hn'
          exact hfree
    | nil | number _ | bool _ | list _ | map _ | handle _ _ => cases hrest
  · rintro ⟨⟨hname, hpayload, hsteps, hposition⟩, hnamed, hfree⟩
    obtain ⟨eventName, handlerName, payloadVariable, body, position⟩ := h
    cases hname
    cases hpayload
    cases hposition
    refine ⟨.string eventName, w', mapError_eq_ok_iff.2 hnamed, ?_⟩
    have hready : (Exec.ofExcept (Body.ofSteps d.body) >>= fun body => Pure.pure
        (EventHandler.mk eventName d.handlerName d.payloadVariable body d.position)) w' =
          (.ok (EventHandler.mk eventName d.handlerName d.payloadVariable body d.position), w') :=
      Exec.bind_eq_ok_iff.2 ⟨body, w', ofExcept_eq_ok_iff.2 ⟨hsteps, rfl⟩, rfl⟩
    cases hname : d.handlerName with
    | none =>
      simp only [hname] at hready ⊢
      exact hready
    | some n =>
      simp only [hname] at hready ⊢
      rw [if_neg (hfree n hname)]
      exact hready

theorem prepareHandlers_eq_ok_iff (ds : List EventDecl) :
    ∀ (seen : List String) (w : World) (hs : List EventHandler) (w' : World),
      engine.prepareHandlers f seen ds w = (.ok hs, w') ↔
        EventDecl.BecomeAll engine f ds w hs w' ∧ (handlerNames hs).Nodup ∧
          ∀ n ∈ handlerNames hs, n ∉ seen := by
  induction ds with
  | nil =>
    intro seen w hs w'
    constructor
    · intro h
      cases h
      exact ⟨.nil w, List.nodup_nil, nofun⟩
    · rintro ⟨h, -⟩
      cases h
      rfl
  | cons d ds ih =>
    intro seen w hs w'
    simp only [prepareHandlers]
    rw [Exec.bind_eq_ok_iff]
    constructor
    · rintro ⟨h, w₁, hh, hrest⟩
      rw [prepareHandler_eq_ok_iff] at hh
      cases hname : h.handlerName with
      | none =>
        simp only [hname] at hrest
        obtain ⟨rest, w₂, hall, hdone⟩ := Exec.bind_eq_ok_iff.1 hrest
        cases hdone
        obtain ⟨hbecome, hnodup, hnew⟩ := (ih _ _ _ _).1 hall
        have hnames : handlerNames (h :: rest) = handlerNames rest :=
          List.filterMap_cons_none hname
        rw [hnames]
        exact ⟨.cons hh hbecome, hnodup, hnew⟩
      | some n =>
        simp only [hname] at hrest
        split at hrest
        · cases hrest
        · rename_i hfree
          obtain ⟨rest, w₂, hall, hdone⟩ := Exec.bind_eq_ok_iff.1 hrest
          cases hdone
          obtain ⟨hbecome, hnodup, hnew⟩ := (ih _ _ _ _).1 hall
          have hnames : handlerNames (h :: rest) = n :: handlerNames rest :=
            List.filterMap_cons_some hname
          rw [hnames]
          refine ⟨.cons hh hbecome, List.nodup_cons.2 ⟨fun hmem => ?_, hnodup⟩,
            List.forall_mem_cons.2 ⟨hfree, fun n' hn' hmem => ?_⟩⟩
          · exact hnew n hmem List.mem_cons_self
          · exact hnew n' hn' (List.mem_cons_of_mem _ hmem)
    · rintro ⟨hbecome, hnodup, hnew⟩
      cases hbecome with
      | @cons _ _ h rest _ w₁ _ hh hall =>
        refine ⟨h, w₁, (prepareHandler_eq_ok_iff engine f _ _ _ _).2 hh, ?_⟩
        cases hname : h.handlerName with
        | none =>
          have hnames : handlerNames (h :: rest) = handlerNames rest :=
            List.filterMap_cons_none hname
          rw [hnames] at hnodup hnew
          exact Exec.bind_eq_ok_iff.2 ⟨rest, w', (ih _ _ _ _).2 ⟨hall, hnodup, hnew⟩, rfl⟩
        | some n =>
          have hnames : handlerNames (h :: rest) = n :: handlerNames rest :=
            List.filterMap_cons_some hname
          rw [hnames] at hnodup hnew
          obtain ⟨hother, hnodup⟩ := List.nodup_cons.1 hnodup
          obtain ⟨hfree, hnew⟩ := List.forall_mem_cons.1 hnew
          have hrest : engine.prepareHandlers f (n :: seen) ds w₁ = (.ok rest, w') := by
            refine (ih _ _ _ _).2 ⟨hall, hnodup, fun n' hn' hmem => ?_⟩
            rcases List.mem_cons.1 hmem with rfl | hmem
            · exact hother hn'
            · exact hnew n' hn' hmem
          simp only [if_neg hfree]
          exact Exec.bind_eq_ok_iff.2 ⟨rest, w', hrest, rfl⟩

theorem prepare_eq_ok_iff (p : Program) (w : World) (ready : Prepared) (w' : World) :
    engine.prepare f p w = (.ok ready, w') ↔ p.Prepares engine f w ready w' := by
  unfold prepare
  constructor
  · intro h
    obtain ⟨procedures, w₁, hfirst, hrest⟩ := Exec.bind_eq_ok_iff.1 h
    obtain ⟨hprocedures, rfl⟩ := ofExcept_eq_ok_iff.1 hfirst
    obtain ⟨commands, w₂, hsecond, hlast⟩ := Exec.bind_eq_ok_iff.1 hrest
    obtain ⟨hcommands, rfl⟩ := ofExcept_eq_ok_iff.1 hsecond
    obtain ⟨handlers, w₃, hhandlers, hdone⟩ := Exec.bind_eq_ok_iff.1 hlast
    cases hdone
    obtain ⟨hmap, hfree, hnodup, -⟩ := (prepareProcedures_eq_ok_iff _ _ _ _).1 hprocedures
    obtain ⟨hbecome, hnames, -⟩ := (engine.prepareHandlers_eq_ok_iff f _ _ _ _ _).1 hhandlers
    exact ⟨hmap, hcommands, hbecome, hfree, hnodup, hnames⟩
  · intro h
    have hprocedures := (prepareProcedures_eq_ok_iff engine.symbols.procedures p.procedures []
      ready.procedures).2 ⟨h.procedures, h.unreserved, h.procedureNames, nofun⟩
    have hhandlers := (engine.prepareHandlers_eq_ok_iff f p.events [] w ready.handlers w').2
      ⟨h.handlers, h.handlerNames, nofun⟩
    refine Exec.bind_eq_ok_iff.2 ⟨_, w, ofExcept_eq_ok_iff.2 ⟨hprocedures, rfl⟩, ?_⟩
    refine Exec.bind_eq_ok_iff.2 ⟨_, w, ofExcept_eq_ok_iff.2 ⟨h.commands, rfl⟩, ?_⟩
    exact Exec.bind_eq_ok_iff.2 ⟨_, w', hhandlers, rfl⟩

end Engine

/-! ## Two programs in one -/

section Concatenation

variable {engine : Engine} {f : Frame} {w w' : World}

theorem EventDecl.becomeAll_append_iff {ds ds' : List EventDecl} {hs : List EventHandler} :
    BecomeAll engine f (ds ++ ds') w hs w' ↔ ∃ l l' w₁, hs = l ++ l' ∧
      BecomeAll engine f ds w l w₁ ∧ BecomeAll engine f ds' w₁ l' w' := by
  induction ds generalizing w hs with
  | nil =>
    constructor
    · intro h
      exact ⟨[], hs, w, rfl, .nil w, h⟩
    · rintro ⟨l, l', w₁, rfl, hnil, h⟩
      cases hnil
      exact h
  | cons d ds ih =>
    constructor
    · intro h
      cases h with
      | cons hd hrest =>
        obtain ⟨l, l', w₁, rfl, hl, hl'⟩ := ih.1 hrest
        exact ⟨_, l', w₁, rfl, .cons hd hl, hl'⟩
    · rintro ⟨l, l', w₁, rfl, hl, hl'⟩
      cases hl with
      | cons hd hrest => exact .cons hd (ih.2 ⟨_, l', w₁, rfl, hrest, hl'⟩)

/-- A program in two parts can be prepared if the one part can be prepared after the other and they
have no names in common. -/
theorem Program.prepares_append_iff {p q : Program} {ready : Prepared} :
    (p ++ q).Prepares engine f w ready w' ↔ ∃ a b w₁, ready = a ++ b ∧
      p.Prepares engine f w a w₁ ∧ q.Prepares engine f w₁ b w' ∧
      (∀ x ∈ b.procedures, ∀ y ∈ a.procedures, y.name ≠ x.name) ∧
      ∀ n ∈ StepScript.handlerNames b.handlers, n ∉ StepScript.handlerNames a.handlers := by
  constructor
  · rintro ⟨hprocedures, hcommands, hhandlers, hfree, hnodup, hnames⟩
    obtain ⟨procedures, commands, handlers⟩ := ready
    obtain ⟨ps, qs, rfl, hps, hqs⟩ := mapM_append_eq_ok_iff.1 hprocedures
    obtain ⟨cs, cs', rfl, hcs, hcs'⟩ := mapM_append_eq_ok_iff.1 hcommands
    obtain ⟨hs, hs', w₁, rfl, hhs, hhs'⟩ := EventDecl.becomeAll_append_iff.1 hhandlers
    rw [List.map_append, List.nodup_append] at hnodup
    rw [handlerNames_append, List.nodup_append] at hnames
    refine ⟨⟨ps, cs, hs⟩, ⟨qs, cs', hs'⟩, w₁, rfl, ?_, ?_, ?_, ?_⟩
    · exact ⟨hps, hcs, hhs, fun x hx => hfree x (List.mem_append_left _ hx), hnodup.1, hnames.1⟩
    · exact ⟨hqs, hcs', hhs', fun x hx => hfree x (List.mem_append_right _ hx), hnodup.2.1,
        hnames.2.1⟩
    · intro x hx y hy
      exact hnodup.2.2 _ (List.mem_map_of_mem hy) _ (List.mem_map_of_mem hx)
    · intro n hn hmem
      exact hnames.2.2 n hmem n hn rfl
  · rintro ⟨a, b, w₁, rfl, ha, hb, hprocedures, hhandlers⟩
    refine ⟨mapM_append_eq_ok_iff.2 ⟨_, _, rfl, ha.procedures, hb.procedures⟩,
      mapM_append_eq_ok_iff.2 ⟨_, _, rfl, ha.commands, hb.commands⟩,
      EventDecl.becomeAll_append_iff.2 ⟨_, _, w₁, rfl, ha.handlers, hb.handlers⟩, ?_, ?_, ?_⟩
    · intro x hx
      exact (List.mem_append.1 hx).elim (ha.unreserved x) (hb.unreserved x)
    · show ((a.procedures ++ b.procedures).map _).Nodup
      rw [List.map_append, List.nodup_append]
      refine ⟨ha.procedureNames, hb.procedureNames, fun n hn n' hn' => ?_⟩
      obtain ⟨y, hy, rfl⟩ := List.mem_map.1 hn
      obtain ⟨x, hx, rfl⟩ := List.mem_map.1 hn'
      exact hprocedures x hx y hy
    · show (StepScript.handlerNames (a.handlers ++ b.handlers)).Nodup
      rw [handlerNames_append, List.nodup_append]
      refine ⟨ha.handlerNames, hb.handlerNames, ?_⟩
      rintro n hn n' hn' rfl
      exact hhandlers n hn' hn

end Concatenation

/-! ## The tables -/

/-- The tables with more of a program: its procedures stand for those of the same names, its
commands and its handlers come after the others. -/
structure Root.Enlarged (r : Root) (ready : Prepared) (r' : Root) : Prop where
  procedures (name : String) : r'.procedures.get? name =
    (ready.procedures.find? (·.name = name)).or (r.procedures.get? name)
  commands : r'.commands = r.commands ++ ready.commands
  handlersOf (event : String) : r'.handlersOf event =
    r.handlersOf event ++ ready.handlers.filter (·.eventName = event)

namespace Root

variable {r : Root} {a : Prepared}

def cleared (r : Root) : Root := { r with procedures := {}, commands := [], handlers := [] }

/-- The root with more of a program, whatever names there are. -/
def extend (r : Root) (ready : Prepared) : Root :=
  { r with
    procedures := ready.procedures.foldl (fun t q => t.insert q.name q) r.procedures
    commands := r.commands ++ ready.commands
    handlers := r.handlers ++ ready.handlers }

theorem load_eq (r : Root) (ready : Prepared) : r.load ready = r.cleared.extend ready := rfl

theorem extend_append (r : Root) (a b : Prepared) : r.extend (a ++ b) = (r.extend a).extend b := by
  show Root.mk r.globals r.constants
      ((a.procedures ++ b.procedures).foldl (fun t q => t.insert q.name q) r.procedures)
      (r.commands ++ (a.commands ++ b.commands)) (r.handlers ++ (a.handlers ++ b.handlers)) = _
  rw [List.foldl_append, ← List.append_assoc, ← List.append_assoc]
  rfl

theorem load_append (r : Root) (a b : Prepared) : r.load (a ++ b) = (r.load a).extend b :=
  r.cleared.extend_append a b

/-- Of procedures that have names of their own, the one of the name is found. -/
theorem get?_extend (hnodup : (a.procedures.map (·.name)).Nodup) (name : String) :
    (r.extend a).procedures.get? name =
      (a.procedures.find? (·.name = name)).or (r.procedures.get? name) := by
  show (a.procedures.foldl (fun t q => t.insert q.name q) r.procedures).get? name = _
  generalize r.procedures = t
  generalize a.procedures = qs at hnodup ⊢
  induction qs generalizing t with
  | nil => rfl
  | cons q qs ih =>
    obtain ⟨hother, hrest⟩ := List.nodup_cons.1 hnodup
    rw [List.foldl_cons, ih _ hrest, Table.get?_insert]
    by_cases hname : q.name = name
    · have hnone : qs.find? (·.name = name) = none := by
        rw [List.find?_eq_none]
        intro q' hq' heq
        exact hother (List.mem_map.2 ⟨q', hq', (of_decide_eq_true heq).trans hname.symm⟩)
      simp only [hnone, hname, if_true, List.find?_cons, decide_true, Option.none_or,
        Option.some_or]
    · simp only [hname, if_false, List.find?_cons, decide_false]

theorem enlarged_extend (r : Root) (hnodup : (a.procedures.map (·.name)).Nodup) :
    r.Enlarged a (r.extend a) where
  procedures := get?_extend hnodup
  commands := rfl
  handlersOf _ := List.filter_append _ _

theorem mem_handlerNames_iff (r : Root) (name : String) :
    name ∈ handlerNames r.handlers ↔ r.hasHandler name = true := by
  rw [mem_handlerNames, hasHandler, List.any_eq_true]
  exact ⟨fun ⟨h, hh, hn⟩ => ⟨h, hh, decide_eq_true hn⟩,
    fun ⟨h, hh, hn⟩ => ⟨h, hh, of_decide_eq_true hn⟩⟩

theorem checkAvailable_eq_ok_iff (r : Root) (hs : List EventHandler) :
    r.checkAvailable hs = .ok () ↔ ∀ n ∈ handlerNames hs, n ∉ handlerNames r.handlers := by
  refine ⟨r.checkAvailable_yields hs (), fun h => ?_⟩
  induction hs with
  | nil => rfl
  | cons x hs ih =>
    cases hname : x.handlerName with
    | none =>
      rw [handlerNames, List.filterMap_cons_none hname] at h
      simp only [checkAvailable, hname]
      exact ih h
    | some n =>
      rw [handlerNames, List.filterMap_cons_some hname] at h
      obtain ⟨hn, hrest⟩ := List.forall_mem_cons.1 h
      rw [mem_handlerNames_iff] at hn
      simp only [checkAvailable, hname, if_neg hn]
      exact ih hrest

theorem addProcedures_eq_ok_iff (r : Root) (redefine : Bool) (qs : List Procedure) (r' : Root) :
    r.addProcedures redefine qs = .ok r' ↔
      (redefine = false → ∀ q ∈ qs, r.procedures.contains q.name = false) ∧
        r' = r.insertProcedures qs := by
  cases redefine with
  | true => exact ⟨fun h => by cases h; exact ⟨nofun, rfl⟩, fun h => by rw [h.2]; rfl⟩
  | false =>
    unfold addProcedures checkNew
    cases hfind : qs.find? (r.procedures.contains ·.name) with
    | none =>
      rw [List.find?_eq_none] at hfind
      have hnew : ∀ q ∈ qs, r.procedures.contains q.name = false := fun q hq => by
        simpa using hfind q hq
      exact ⟨fun h => by cases h; exact ⟨fun _ => hnew, rfl⟩, fun h => by rw [h.2]; rfl⟩
    | some q =>
      have htaken := List.find?_some hfind
      have hmem := List.mem_of_find?_eq_some hfind
      refine ⟨nofun, fun h => ?_⟩
      rw [h.1 rfl q hmem] at htaken
      cases htaken

/-- Tables take more of a program if its handlers have new names and, unless they may be defined
again, its procedures have. -/
theorem append_eq_ok_iff (r : Root) (redefine : Bool) (ready : Prepared) (r' : Root) :
    r.append redefine ready = .ok r' ↔
      (∀ n ∈ handlerNames ready.handlers, n ∉ handlerNames r.handlers) ∧
      (redefine = false → ∀ q ∈ ready.procedures, r.procedures.contains q.name = false) ∧
        r' = r.extend ready := by
  unfold append
  constructor
  · intro h
    obtain ⟨⟨⟩, hcheck, hrest⟩ := bind_eq_ok_iff.1 h
    obtain ⟨r₁, hadd, hdone⟩ := bind_eq_ok_iff.1 hrest
    obtain ⟨hnew, rfl⟩ := (r.addProcedures_eq_ok_iff redefine _ _).1 hadd
    cases hdone
    exact ⟨(r.checkAvailable_eq_ok_iff _).1 hcheck, hnew, rfl⟩
  · rintro ⟨hhandlers, hprocedures, rfl⟩
    refine bind_eq_ok_iff.2 ⟨(), (r.checkAvailable_eq_ok_iff _).2 hhandlers, ?_⟩
    exact bind_eq_ok_iff.2 ⟨_, (r.addProcedures_eq_ok_iff redefine _ _).2 ⟨hprocedures, rfl⟩, rfl⟩

/-- A program that was just loaded has the names of its own parts. -/
theorem contains_load (hnodup : (a.procedures.map (·.name)).Nodup) (name : String) :
    (r.load a).procedures.contains name = false ↔ ∀ q ∈ a.procedures, q.name ≠ name := by
  rw [load_eq, Table.contains, get?_extend hnodup]
  show ((a.procedures.find? (·.name = name)).or none).isSome = false ↔ _
  rw [Option.or_none, Option.isSome_eq_false_iff, Option.isNone_iff_eq_none, List.find?_eq_none]
  simp only [decide_eq_true_eq, ne_eq]

end Root

/-! ## Expressions without calls -/

mutual

def Expression.calls : Expression → Bool
  | .literal _ => false
  | .variable _ => false
  | .list items => callsIn items
  | .map entries => callsInEntries entries
  | .binary _ left right => left.calls || right.calls
  | .unary _ operand => operand.calls
  | .index target key => target.calls || key.calls
  | .call _ _ => true

def Expression.callsIn : List Expression → Bool
  | [] => false
  | e :: rest => e.calls || callsIn rest

def Expression.callsInEntries : List (String × Expression) → Bool
  | [] => false
  | (_, e) :: rest => e.calls || callsInEntries rest

end

/-- The names of events are computed without calls. -/
def Program.CallFree (p : Program) : Prop := ∀ d ∈ p.events, d.name.calls = false

theorem Program.CallFree.append {p q : Program} (hp : p.CallFree) (hq : q.CallFree) :
    (p ++ q).CallFree :=
  fun d hd => (List.mem_append.1 hd).elim (hp d) (hq d)

namespace Exec

variable {α β : Type}

/-- The computation reads variables and does nothing else: it leaves the world as it is, and ends in
the same way whatever program the root has. -/
def Inert (x : Exec α) : Prop :=
  ∀ w : World, ∃ result, ∀ root : Root, root.globals = w.root.globals →
    root.constants = w.root.constants →
      x { w with root := root } = (result, { w with root := root })

namespace Inert

theorem pure (a : α) : Inert (Pure.pure a) := fun _ => ⟨.ok a, fun _ _ _ => rfl⟩

theorem fault (e : Fault) : Inert (Exec.fault e : Exec α) :=
  fun _ => ⟨.error (.failed e.error), fun _ _ _ => rfl⟩

theorem ofFault (x : Except Fault α) : Inert (Exec.ofFault x) := by
  cases x with
  | ok a => exact pure a
  | error e => exact fault e

theorem bind {x : Exec α} {k : α → Exec β} (hx : Inert x) (hk : ∀ a, Inert (k a)) :
    Inert (x >>= k) := by
  intro w
  obtain ⟨result, hresult⟩ := hx w
  cases result with
  | error i => exact ⟨.error i, fun root hg hc => bind_error (hresult root hg hc)⟩
  | ok a =>
    obtain ⟨result', hresult'⟩ := hk a w
    refine ⟨result', fun root hg hc => ?_⟩
    rw [bind_ok (hresult root hg hc)]
    exact hresult' root hg hc

theorem read (engine : Engine) (f : Frame) (name : String) : Inert (Exec.read engine f name) := by
  intro w
  have hlookup (root : Root) (hg : root.globals = w.root.globals)
      (hc : root.constants = w.root.constants) :
      { w with root := root }.lookup? engine.symbols f name = w.lookup? engine.symbols f name := by
    simp only [World.lookup?, World.globalsOf, hg, hc]
    rfl
  cases hv : w.lookup? engine.symbols f name with
  | some v =>
    refine ⟨.ok v, fun root hg hc => ?_⟩
    simp only [Exec.read, bind_apply, get_apply, hlookup root hg hc, hv, pure_apply]
  | none =>
    refine ⟨.error (.failed (Fault.undefined name).error), fun root hg hc => ?_⟩
    simp only [Exec.read, bind_apply, get_apply, hlookup root hg hc, hv]
    rfl

/-- If it ends with a value, it does so in the world that it started from. -/
theorem eq_world {x : Exec α} (h : Inert x) {w w' : World} {a : α} (hx : x w = (.ok a, w')) :
    w' = w := by
  obtain ⟨result, hresult⟩ := h w
  have hw := hresult w.root rfl rfl
  rw [hx] at hw
  exact (Prod.ext_iff.1 hw).2

theorem withRoot {x : Exec α} (h : Inert x) {w : World} {a : α} (hx : x w = (.ok a, w))
    {root : Root} (hg : root.globals = w.root.globals) (hc : root.constants = w.root.constants) :
    x { w with root := root } = (.ok a, { w with root := root }) := by
  obtain ⟨result, hresult⟩ := h w
  have hw := hresult w.root rfl rfl
  rw [hx] at hw
  obtain rfl := (Prod.ext_iff.1 hw).1
  exact hresult root hg hc

end Inert

variable (engine : Engine) (enter : Enter) (f : Frame)

mutual

theorem evaluate_inert : ∀ e : Expression, e.calls = false → Inert (evaluate engine enter f e)
  | .literal l, _ => by simp only [evaluate]; exact .pure _
  | .variable name, _ => by simp only [evaluate]; exact .read engine f name
  | .list items, h => by
    simp only [Expression.calls] at h
    simp only [evaluate]
    exact .bind (evaluateAll_inert items h) fun _ => .pure _
  | .map entries, h => by
    simp only [Expression.calls] at h
    simp only [evaluate]
    exact .bind (evaluateEntries_inert entries h []) fun _ => .pure _
  | .binary op left right, h => by
    simp only [Expression.calls, Bool.or_eq_false_iff] at h
    have hright := evaluate_inert right h.2
    simp only [evaluate]
    refine .bind (evaluate_inert left h.1) fun l => ?_
    cases Value.shortCircuit op l with
    | some v => exact .pure v
    | none => exact .bind hright fun r => .ofFault _
  | .unary op operand, h => by
    simp only [Expression.calls] at h
    simp only [evaluate]
    exact .bind (evaluate_inert operand h) fun v => .ofFault _
  | .index target key, h => by
    simp only [Expression.calls, Bool.or_eq_false_iff] at h
    have hkey := evaluate_inert key h.2
    simp only [evaluate]
    exact .bind (evaluate_inert target h.1) fun t => .bind hkey fun k => .ofFault _
  | .call name args, h => by simp only [Expression.calls, Bool.true_eq_false] at h

theorem evaluateAll_inert : ∀ es : List Expression, Expression.callsIn es = false →
    Inert (evaluateAll engine enter f es)
  | [], _ => by simp only [evaluateAll]; exact .pure _
  | e :: rest, h => by
    simp only [Expression.callsIn, Bool.or_eq_false_iff] at h
    have hrest := evaluateAll_inert rest h.2
    simp only [evaluateAll]
    exact .bind (evaluate_inert e h.1) fun _ => .bind hrest fun _ => .pure _

theorem evaluateEntries_inert : ∀ es : List (String × Expression),
    Expression.callsInEntries es = false → ∀ done, Inert (evaluateEntries engine enter f es done)
  | [], _, done => by simp only [evaluateEntries]; exact .pure _
  | (k, e) :: rest, h, done => by
    simp only [Expression.callsInEntries, Bool.or_eq_false_iff] at h
    simp only [evaluateEntries]
    exact .bind (evaluate_inert e h.1) fun v =>
      evaluateEntries_inert rest h.2 (Entries.insert k v done)

end

end Exec

section CallFree

variable {engine : Engine} {f : Frame} {w w' : World}

theorem EventDecl.BecomeAll.eq_world {ds : List EventDecl} {hs : List EventHandler}
    (h : BecomeAll engine f ds w hs w') (hfree : ∀ d ∈ ds, d.name.calls = false) : w' = w := by
  induction h with
  | nil => rfl
  | @cons d ds h hs w w₁ w' hd _ ih =>
    obtain ⟨hname, hrest⟩ := List.forall_mem_cons.1 hfree
    have hinert := Exec.evaluate_inert engine engine.enter f d.name hname
    exact (ih hrest).trans (hinert.eq_world hd.named)

theorem EventDecl.BecomeAll.withRoot {ds : List EventDecl} {hs : List EventHandler}
    (h : BecomeAll engine f ds w hs w') (hfree : ∀ d ∈ ds, d.name.calls = false) {root : Root}
    (hg : root.globals = w.root.globals) (hc : root.constants = w.root.constants) :
    BecomeAll engine f ds { w with root := root } hs { w with root := root } := by
  induction h with
  | nil => exact .nil _
  | @cons d ds h hs w w₁ w' hd hall ih =>
    obtain ⟨hname, hrest⟩ := List.forall_mem_cons.1 hfree
    have hinert := Exec.evaluate_inert engine engine.enter f d.name hname
    obtain rfl : w₁ = w := hinert.eq_world hd.named
    exact .cons ⟨hd.toDeclares, hinert.withRoot hd.named hg hc, hd.free⟩ (ih hrest hg hc)

namespace Program.Prepares

variable {p : Program} {ready : Prepared}

/-- Without calls, nothing has changed when a program is prepared. -/
theorem eq_world (h : p.Prepares engine f w ready w') (hfree : p.CallFree) : w' = w :=
  h.handlers.eq_world hfree

/-- Nor does it matter which program is loaded. -/
theorem withRoot (h : p.Prepares engine f w ready w') (hfree : p.CallFree) (root : Root)
    (hg : root.globals = w.root.globals) (hc : root.constants = w.root.constants) :
    p.Prepares engine f { w with root := root } ready { w with root := root } :=
  { h with handlers := h.handlers.withRoot hfree hg hc }

end Program.Prepares

end CallFree

/-! ## Loading and appending -/

/-- The root stores a program that can be prepared and that its tables accept. -/
theorem Installation.exec_eq_ok_iff (engine : Engine) {i : Installation} {p : Program}
    (hi : i = .load p ∨ i = .append p) (w w' : World) : i.exec engine .root w = (.ok (), w') ↔
      ∃ ready w₁ root, p.Prepares engine .root w ready w₁ ∧
        i.commit engine w₁.root ready = .ok root ∧ w' = { w₁ with root := root } := by
  have hprepare : i.prepare engine .root w = engine.prepare .root p w := by
    rcases hi with rfl | rfl <;> rfl
  rw [exec_eq, Exec.bind_eq_ok_iff, hprepare]
  constructor
  · rintro ⟨ready, w₁, hready, hstore⟩
    rw [engine.prepare_eq_ok_iff] at hready
    cases hcommit : i.commit engine w₁.root ready with
    | error e =>
      rw [store_error hcommit] at hstore
      cases hstore
    | ok root =>
      rw [store_ok hcommit] at hstore
      cases hstore
      exact ⟨ready, w₁, root, hready, hcommit, rfl⟩
  · rintro ⟨ready, w₁, root, hready, hcommit, rfl⟩
    exact ⟨ready, w₁, (engine.prepare_eq_ok_iff .root p w ready w₁).2 hready, store_ok hcommit⟩

namespace Engine

variable (engine : Engine) (p q : Program) (w w' : World)

theorem load_eq_ok_iff : engine.load .root p w = (.ok (), w') ↔
    ∃ ready w₁, p.Prepares engine .root w ready w₁ ∧
      w' = { w₁ with root := w₁.root.load ready } := by
  refine (Installation.exec_eq_ok_iff engine (.inl rfl) w w').trans ?_
  constructor
  · rintro ⟨ready, w₁, root, hready, hcommit, rfl⟩
    cases hcommit
    exact ⟨ready, w₁, hready, rfl⟩
  · rintro ⟨ready, w₁, hready, rfl⟩
    exact ⟨ready, w₁, _, hready, rfl, rfl⟩

theorem append_eq_ok_iff : engine.append .root q w = (.ok (), w') ↔
    ∃ ready w₁, q.Prepares engine .root w ready w₁ ∧
      (∀ n ∈ handlerNames ready.handlers, n ∉ handlerNames w₁.root.handlers) ∧
      (engine.config.allowRedefinition = false →
        ∀ x ∈ ready.procedures, w₁.root.procedures.contains x.name = false) ∧
      w' = { w₁ with root := w₁.root.extend ready } := by
  refine (Installation.exec_eq_ok_iff engine (.inr rfl) w w').trans ?_
  constructor
  · rintro ⟨ready, w₁, root, hready, hcommit, rfl⟩
    obtain ⟨hhandlers, hprocedures, rfl⟩ := (Root.append_eq_ok_iff _ _ _ _).1 hcommit
    exact ⟨ready, w₁, hready, hhandlers, hprocedures, rfl⟩
  · rintro ⟨ready, w₁, hready, hhandlers, hprocedures, rfl⟩
    exact ⟨ready, w₁, _, hready,
      (Root.append_eq_ok_iff _ _ _ _).2 ⟨hhandlers, hprocedures, rfl⟩, rfl⟩

variable {engine p q}

/-- Loading two programs as one is loading the one and appending the other. -/
theorem load_append_iff (hredefine : engine.config.allowRedefinition = false) (hp : p.CallFree)
    (hq : q.CallFree) : engine.load .root (p ++ q) w = (.ok (), w') ↔
      ∃ w₁, engine.load .root p w = (.ok (), w₁) ∧ engine.append .root q w₁ = (.ok (), w') := by
  rw [load_eq_ok_iff]
  constructor
  · rintro ⟨ready, w₂, hready, rfl⟩
    obtain ⟨a, b, w₁, rfl, ha, hb, hprocedures, hhandlers⟩ := Program.prepares_append_iff.1 hready
    obtain rfl := ha.eq_world hp
    obtain rfl := hb.eq_world hq
    refine ⟨_, (engine.load_eq_ok_iff p _ _).2 ⟨a, w₂, ha, rfl⟩, ?_⟩
    refine (engine.append_eq_ok_iff q _ _).2 ⟨b, _, hb.withRoot hq _ rfl rfl, hhandlers,
      fun _ x hx => (Root.contains_load ha.procedureNames _).2 (hprocedures x hx), ?_⟩
    rw [Root.load_append]
  · rintro ⟨w₁, hload, happend⟩
    obtain ⟨a, w₂, ha, rfl⟩ := (engine.load_eq_ok_iff p _ _).1 hload
    obtain rfl := ha.eq_world hp
    obtain ⟨b, w₃, hb, hhandlers, hprocedures, rfl⟩ := (engine.append_eq_ok_iff q _ _).1 happend
    obtain rfl := hb.eq_world hq
    -- names of events are computed from variables, which loading leaves alone
    have hb' : q.Prepares engine .root w₂ b w₂ := hb.withRoot hq w₂.root rfl rfl
    refine ⟨a ++ b, w₂, Program.prepares_append_iff.2 ⟨a, b, w₂, rfl, ha, hb', ?_, hhandlers⟩, ?_⟩
    · exact fun x hx => (Root.contains_load ha.procedureNames _).1 (hprocedures hredefine x hx)
    · rw [Root.load_append]

/-- Whatever names its events are given by scripts, an appended program enlarges the tables that
there were. -/
theorem append_enlarges (h : engine.append .root q w = (.ok (), w')) :
    ∃ ready w₁, q.Prepares engine .root w ready w₁ ∧ w.root.Enlarged ready w'.root := by
  obtain ⟨ready, w₁, hready, -, -, rfl⟩ := (engine.append_eq_ok_iff q _ _).1 h
  have hprepare : (Installation.append q).prepare engine .root w = (.ok ready, w₁) :=
    (engine.prepare_eq_ok_iff .root q w ready w₁).2 hready
  have hmanaged : World.Managed w ((Installation.append q).prepare engine .root w).2 :=
    Installation.prepare_managed engine .root (.append q) w (.refl w)
  rw [hprepare] at hmanaged
  have henlarged := w₁.root.enlarged_extend hready.procedureNames
  refine ⟨ready, w₁, hready, fun name => ?_, ?_, fun event => ?_⟩
  · rw [henlarged.procedures, hmanaged.procedures]
  · rw [henlarged.commands, hmanaged.commands]
  · rw [henlarged.handlersOf, Root.handlersOf, hmanaged.handlers, Root.handlersOf]

/-- Appending is loading the concatenation. If procedures may not be defined again, and the names of
events are computed without calls, loading one program and appending another both succeed exactly
if the two can be loaded as one; and then the procedures, the commands and the handlers of each
event are the same, and they are those of both programs and no others. Whether or not procedures
may be defined again, and with calls as well, a program that is appended with success has its
procedures before those that there were, and its commands and handlers after them. -/
theorem append_after_load (engine : Engine) (w : World) :
    (engine.config.allowRedefinition = false → ∀ p q : Program, p.CallFree → q.CallFree →
      let loaded := engine.load .root p w
      let appended := engine.append .root q loaded.2
      let whole := engine.load .root (p ++ q) w
      (loaded.1 = .ok () ∧ appended.1 = .ok () ↔ whole.1 = .ok ()) ∧
      (whole.1 = .ok () →
        appended.2.root.procedures = whole.2.root.procedures ∧
        appended.2.root.commands = whole.2.root.commands ∧
        (∀ event, appended.2.root.handlersOf event = whole.2.root.handlersOf event) ∧
        ∃ ready, (p ++ q).Prepares engine .root w ready w ∧
          w.root.cleared.Enlarged ready whole.2.root)) ∧
    ∀ q : Program, (engine.append .root q w).1 = .ok () →
      ∃ ready w₁, q.Prepares engine .root w ready w₁ ∧
        w.root.Enlarged ready (engine.append .root q w).2.root := by
  refine ⟨fun hredefine p q hp hq => ?_, fun q hq => append_enlarges w _ (Prod.ext hq rfl)⟩
  intro loaded appended whole
  have hiff (w' : World) : whole = (.ok (), w') ↔
      ∃ w₁, loaded = (.ok (), w₁) ∧ engine.append .root q w₁ = (.ok (), w') :=
    load_append_iff w w' hredefine hp hq
  have hforth (hwhole : whole.1 = .ok ()) :
      loaded.1 = .ok () ∧ appended = (.ok (), whole.2) := by
    obtain ⟨w₁, hloaded, happended⟩ := (hiff whole.2).1 (Prod.ext hwhole rfl)
    refine ⟨congrArg Prod.fst hloaded, ?_⟩
    rw [← happended]
    exact congrArg (engine.append .root q) (congrArg Prod.snd hloaded)
  refine ⟨⟨fun ⟨hloaded, happended⟩ => ?_, fun hwhole => ?_⟩, fun hwhole => ?_⟩
  · have hwhole := (hiff appended.2).2 ⟨loaded.2, Prod.ext hloaded rfl, Prod.ext happended rfl⟩
    exact congrArg Prod.fst hwhole
  · exact ⟨(hforth hwhole).1, congrArg Prod.fst (hforth hwhole).2⟩
  · obtain ⟨ready, w₁, hready, hstored⟩ :=
      (engine.load_eq_ok_iff (p ++ q) w whole.2).1 (Prod.ext hwhole rfl)
    have hsame : w₁ = w := hready.eq_world (hp.append hq)
    rw [hsame] at hready hstored
    rw [(hforth hwhole).2]
    refine ⟨rfl, rfl, fun _ => rfl, ready, hready, ?_⟩
    rw [hstored]
    exact w.root.cleared.enlarged_extend hready.procedureNames

/-- Two handlers of one event, whose name is a variable in the one program and is put together in
the other; and a procedure that is defined again where that is allowed. -/
theorem append_after_load_of_topic :
    let engine : Engine := {}
    let lenient : Engine := { config := { allowRedefinition := true } }
    let w := ((HostRequest.setGlobal "topic" (.string "tick")).exec engine .root {}).2
    let p : Program :=
      { procedures := [{ name := "greet", body := [] }], commands := [{ body := [] }]
        events := [{ name := .variable "topic", handlerName := some "first", body := [] }] }
    let q : Program :=
      { procedures := [{ name := "part", body := [] }], commands := [{ body := [] }]
        events := [{ name := .binary .add (.string "ti") (.string "ck"),
                     handlerName := some "second", body := [] }] }
    let again : Program := { procedures := [{ name := "greet", body := [Step.clearError] }] }
    let loaded := engine.load .root p w
    let appended := engine.append .root q loaded.2
    let whole := engine.load .root (p ++ q) w
    let redefined := lenient.append .root again loaded.2
    (engine.config.allowRedefinition = false ∧ p.CallFree ∧ q.CallFree ∧ whole.1 = .ok () ∧
      redefined.1 = .ok ()) ∧
    (loaded.1 = .ok () ∧ appended.1 = .ok ()) ∧
    appended.2.root.handlersOf "tick" = whole.2.root.handlersOf "tick" ∧
    (whole.2.root.handlersOf "tick").map (·.handlerName) = [some "first", some "second"] ∧
    ∃ ready w₁, again.Prepares lenient .root loaded.2 ready w₁ ∧
      loaded.2.root.Enlarged ready redefined.2.root := by
  intro engine lenient w p q again loaded appended whole redefined
  have hp : p.CallFree := by
    intro d hd
    rw [List.mem_singleton.1 hd]
    rfl
  have hq : q.CallFree := by
    intro d hd
    rw [List.mem_singleton.1 hd]
    rfl
  have hwhole : whole.1 = .ok () := rfl
  have hredefined : redefined.1 = .ok () := rfl
  obtain ⟨hboth, hsame⟩ := (append_after_load engine w).1 rfl p q hp hq
  obtain ⟨-, -, hhandlers, -⟩ := hsame hwhole
  exact ⟨⟨rfl, hp, hq, hwhole, hredefined⟩, hboth.2 hwhole, hhandlers "tick", rfl,
    (append_after_load lenient loaded.2).2 again hredefined⟩

end Engine

end StepScript
