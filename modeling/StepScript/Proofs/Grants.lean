import StepScript.Policy

/-!
# StepScript.Proofs.Grants

Grants, ordered by what they satisfy.

* `Capability.covers_refl`, `covers_trans` — covering is a preorder, because it is one in each of
  its three components.
* `Gate.Dominates` — each grant of one list is covered by some grant of another. `dominates_iff` —
  so the other one allows whatever the first one does, and nothing less will do.
* `Gate.check_respects_covers` — what that says of requests, and of lists that grow.
-/

namespace StepScript

namespace Capability

variable {a b c : Capability}

/-! ## Components -/

theorem matches?_iff {granted wanted : String} :
    matches? granted wanted = true ↔ granted = wildcard ∨ granted = wanted := by
  simp [matches?]

theorem matches?_refl (s : String) : matches? s s = true := matches?_iff.2 (.inr rfl)

theorem matches?_trans {s t u : String} (hst : matches? s t = true) (htu : matches? t u = true) :
    matches? s u = true := by
  rw [matches?_iff] at hst htu ⊢
  rcases hst with hs | rfl
  · exact .inl hs
  · exact htu

/-- A grant without a scope covers every scope, and a grant with one needs a scope to cover. -/
theorem scopeCovers_iff {granted wanted : Option String} : scopeCovers granted wanted = true ↔
    ∀ s, granted = some s → ∃ t, wanted = some t ∧ matches? s t = true := by
  cases granted with
  | none => simp [scopeCovers]
  | some s =>
    cases wanted with
    | none => simp [scopeCovers]
    | some t => simp [scopeCovers]

theorem scopeCovers_refl (s : Option String) : scopeCovers s s = true :=
  scopeCovers_iff.2 fun t ht => ⟨t, ht, matches?_refl t⟩

theorem scopeCovers_trans {s t u : Option String} (hst : scopeCovers s t = true)
    (htu : scopeCovers t u = true) : scopeCovers s u = true := by
  rw [scopeCovers_iff] at hst htu ⊢
  intro s' hs
  obtain ⟨t', ht, hmatch⟩ := hst s' hs
  obtain ⟨u', hu, hmatch'⟩ := htu t' ht
  exact ⟨u', hu, matches?_trans hmatch hmatch'⟩

/-! ## Covering -/

theorem covers_iff : a.covers b = true ↔ matches? a.resource b.resource = true ∧
    matches? a.verb b.verb = true ∧ scopeCovers a.scope b.scope = true := by
  simp [covers, and_assoc]

theorem covers_refl (a : Capability) : a.covers a = true :=
  covers_iff.2 ⟨matches?_refl _, matches?_refl _, scopeCovers_refl _⟩

theorem covers_trans (hab : a.covers b = true) (hbc : b.covers c = true) : a.covers c = true := by
  obtain ⟨hresource, hverb, hscope⟩ := covers_iff.1 hab
  obtain ⟨hresource', hverb', hscope'⟩ := covers_iff.1 hbc
  exact covers_iff.2 ⟨matches?_trans hresource hresource', matches?_trans hverb hverb',
    scopeCovers_trans hscope hscope'⟩

end Capability

namespace Gate

variable {gs hs : List Capability} {g c : Capability}

theorem check_eq_ok_iff {gate : Gate} : gate.check c = .ok () ↔ gate.allows c = true := by
  unfold check
  split <;> simp_all

theorem grants_check_eq_ok_iff :
    (grants gs).check c = .ok () ↔ ∃ g ∈ gs, g.covers c = true := by
  rw [check_eq_ok_iff]
  exact List.any_eq_true

/-- Each of `gs` is covered by one of `hs`. -/
def Dominates (hs gs : List Capability) : Prop := ∀ g ∈ gs, ∃ h ∈ hs, h.covers g = true

theorem dominates_of_subset (h : ∀ g ∈ gs, g ∈ hs) : Dominates hs gs :=
  fun g hg => ⟨g, h g hg, g.covers_refl⟩

/-- Among lists of grants, this is the order by what they allow. -/
theorem dominates_iff : Dominates hs gs ↔
    ∀ c, (grants gs).check c = .ok () → (grants hs).check c = .ok () := by
  constructor
  · intro h c hc
    rw [grants_check_eq_ok_iff] at hc ⊢
    obtain ⟨g, hg, hgc⟩ := hc
    obtain ⟨h, hh, hhg⟩ := h g hg
    exact ⟨h, hh, Capability.covers_trans hhg hgc⟩
  · intro h g hg
    -- a grant satisfies the request for itself
    have hself : (grants gs).check g = .ok () := grants_check_eq_ok_iff.2 ⟨g, hg, g.covers_refl⟩
    exact grants_check_eq_ok_iff.1 (h g hself)

/-- Lists that dominate each other are one gate, refusals and all. -/
theorem check_eq_of_dominates (h : Dominates hs gs) (h' : Dominates gs hs) (c : Capability) :
    (grants gs).check c = (grants hs).check c := by
  have hallows : (grants gs).allows c = (grants hs).allows c := by
    rw [Bool.eq_iff_iff, ← check_eq_ok_iff, ← check_eq_ok_iff]
    exact ⟨dominates_iff.1 h c, dominates_iff.1 h' c⟩
  simp only [check, hallows]

/-- Grants form a preorder, and checks respect it. A grant covers what agrees with it in all that it
does not leave open, and a request is allowed if some grant covers it. So what is granted is granted
with all that it covers; order and repetition of grants do not matter; another grant never leads to
a refusal, and one that is covered already changes no answer. -/
theorem check_respects_covers :
    (∀ a b : Capability, a.covers b = true ↔
      (a.resource = Capability.wildcard ∨ a.resource = b.resource) ∧
      (a.verb = Capability.wildcard ∨ a.verb = b.verb) ∧
      ∀ s, a.scope = some s → ∃ t, b.scope = some t ∧ (s = Capability.wildcard ∨ s = t)) ∧
    (∀ a : Capability, a.covers a = true) ∧
    (∀ a b c : Capability, a.covers b = true → b.covers c = true → a.covers c = true) ∧
    (∀ gs c, (grants gs).check c = .ok () ↔ ∃ g ∈ gs, g.covers c = true) ∧
    (∀ gs b c, (grants gs).check b = .ok () → b.covers c = true → (grants gs).check c = .ok ()) ∧
    (∀ gs hs : List Capability, (∀ g, g ∈ gs ↔ g ∈ hs) →
      ∀ c, (grants gs).check c = (grants hs).check c) ∧
    (∀ gs g c, (grants gs).check c = .ok () → (grants (gs ++ [g])).check c = .ok ()) ∧
    ∀ gs g, (∃ h ∈ gs, h.covers g = true) →
      ∀ c, (grants (gs ++ [g])).check c = (grants gs).check c := by
  have hgrown (gs : List Capability) (g : Capability) : Dominates (gs ++ [g]) gs :=
    dominates_of_subset fun h hh => List.mem_append_left [g] hh
  refine ⟨fun a b => ?_, Capability.covers_refl, fun a b c => Capability.covers_trans,
    fun gs c => grants_check_eq_ok_iff, fun gs b c hb hbc => ?_, fun gs hs h c => ?_,
    fun gs g => dominates_iff.1 (hgrown gs g), fun gs g hg c => ?_⟩
  · simp only [Capability.covers_iff, Capability.scopeCovers_iff, Capability.matches?_iff]
  · obtain ⟨g, hg, hgb⟩ := grants_check_eq_ok_iff.1 hb
    exact grants_check_eq_ok_iff.2 ⟨g, hg, Capability.covers_trans hgb hbc⟩
  · exact check_eq_of_dominates (dominates_of_subset fun g => (h g).1)
      (dominates_of_subset fun g => (h g).2) c
  · have hcovered : Dominates gs (gs ++ [g]) := by
      intro h hh
      rcases List.mem_append.1 hh with hh | hh
      · exact ⟨h, hh, h.covers_refl⟩
      · rw [List.mem_singleton.1 hh]
        exact hg
    exact check_eq_of_dominates hcovered (hgrown gs g) c

/-- Every verb in one scope is granted, so a verb in that scope is, once and for all; and the same
verb without a scope is not. -/
theorem check_respects_covers_of_scoped :
    let files : Capability := { resource := "tool", verb := "*", scope := some "fs" }
    let exec : Capability := { resource := "tool", verb := "exec", scope := some "fs" }
    let anywhere : Capability := { resource := "tool", verb := "exec" }
    let gate := grants [.modelRead, files]
    (gate.check files = .ok () ∧ files.covers exec = true) ∧
      gate.check exec = .ok () ∧
      (∀ c, (grants [.modelRead, files, exec]).check c = gate.check c) ∧
      gate.check anywhere = .error { capability := anywhere } := by
  intro files exec anywhere gate
  have hfiles : gate.check files = .ok () := rfl
  have hcovers : files.covers exec = true := by decide
  obtain ⟨-, -, -, -, hcheck, -, -, hredundant⟩ := check_respects_covers
  exact ⟨⟨hfiles, hcovers⟩, hcheck _ files exec hfiles hcovers,
    hredundant [.modelRead, files] exec ⟨files, by decide, hcovers⟩, rfl⟩

end Gate
end StepScript
