import StepScript.Agent.Provider
import StepScript.Proofs.Transcript

/-!
# StepScript.Proofs.Providers

Registries of providers, over all that can be asked of them.

* `Call`, `perform` — the calls that may change a registry, each with its answer and the registry
  after it. `Performs` — what each of them does, rule by rule; `performs` — and nothing else.
* `record`   — the calls on a new registry with their answers.
* `Standing` — by these answers, the provider that was registered last under a name and was not
  unregistered since.
* `Traced`   — the registry holds what stands by the record, and its primary name is one of them. A
  call keeps it (`Traced.perform`), so it holds of every record (`traced`).
* `never_dangling` — hence no name that resolves is without its provider.
-/

namespace StepScript
namespace ProviderRegistry

/-! ## Calls -/

inductive Call where
  | register (name : String) (p : Provider)
  | unregister (name : String)
  | setPrimary (name : String)

def Call.apply (r : ProviderRegistry) : Call → Except ProviderError ProviderRegistry
  | .register name p => r.register name p
  | .unregister name => r.unregister name
  | .setPrimary name => r.setPrimary name

/-- The answer to a call, and the registry after it. -/
def perform (r : ProviderRegistry) (c : Call) : Except ProviderError Unit × ProviderRegistry :=
  attempted r () (c.apply r)

inductive Performs (r : ProviderRegistry) :
    Call → Except ProviderError Unit → ProviderRegistry → Prop where
  | registered {n : String} (p : Provider) : r.providers.get? n = none →
      Performs r (.register n p) (.ok ())
        { providers := r.providers.insert n ⟨r.registered, p⟩
          primary := r.primary.or (some n)
          registered := r.registered + 1 }
  | taken {n : String} {g : Registration} (p : Provider) : r.providers.get? n = some g →
      Performs r (.register n p) (.error (.alreadyRegistered n)) r
  | unregistered {n : String} {g : Registration} : r.providers.get? n = some g →
      Performs r (.unregister n) (.ok ())
        { r with
          providers := r.providers.erase n
          primary := if r.primary = some n then none else r.primary }
  | notThere {n : String} : r.providers.get? n = none →
      Performs r (.unregister n) (.error (.notFound n)) r
  | preferred {n : String} {g : Registration} : r.providers.get? n = some g →
      Performs r (.setPrimary n) (.ok ()) { r with primary := some n }
  | notPreferred {n : String} : r.providers.get? n = none →
      Performs r (.setPrimary n) (.error (.notFound n)) r

theorem performs (r : ProviderRegistry) (c : Call) :
    Performs r c (r.perform c).1 (r.perform c).2 := by
  cases c with
  | register n p =>
    cases h : r.providers.get? n with
    | none =>
      simp only [perform, attempted, Call.apply, register, Table.contains, h]
      exact .registered p h
    | some g =>
      simp only [perform, attempted, Call.apply, register, Table.contains, h]
      exact .taken p h
  | unregister n =>
    cases h : r.providers.get? n with
    | none =>
      simp only [perform, attempted, Call.apply, unregister, Table.contains, h]
      exact .notThere h
    | some g =>
      simp only [perform, attempted, Call.apply, unregister, Table.contains, h]
      exact .unregistered h
  | setPrimary n =>
    cases h : r.providers.get? n with
    | none =>
      simp only [perform, attempted, Call.apply, setPrimary, Table.contains, h]
      exact .notPreferred h
    | some g =>
      simp only [perform, attempted, Call.apply, setPrimary, Table.contains, h]
      exact .preferred h

namespace Performs

variable {r r' : ProviderRegistry} {c : Call} {n : String} {p : Provider}

theorem primary_of_register (h : Performs r (.register n p) (.ok ()) r') : r'.primary ≠ none := by
  cases h with
  | registered => simp

theorem primary_of_setPrimary (h : Performs r (.setPrimary n) (.ok ()) r') :
    r'.primary = some n := by
  cases h with
  | preferred => rfl

end Performs

/-! ## Records -/

/-- The calls on a new registry in order, with their answers, and the registry after them. -/
def record : List Call → List (Call × Except ProviderError Unit) × ProviderRegistry :=
  transcript perform {}

/-- The last successful registration of the name was that of `p`, and no call to unregister the name
has come after it. -/
def Standing (log : List (Call × Except ProviderError Unit)) (n : String) (p : Provider) : Prop :=
  ∃ before after, log = before ++ (.register n p, .ok ()) :: after ∧
    (∀ e ∈ after, e.1 ≠ .unregister n) ∧ ∀ q, (.register n q, .ok ()) ∉ after

variable {log : List (Call × Except ProviderError Unit)} {e : Call × Except ProviderError Unit}
variable {r : ProviderRegistry} {n : String} {p : Provider}

theorem not_standing_nil : ¬ Standing [] n p := by
  rintro ⟨before, after, h, -⟩
  simp at h

/-- One entry more is another registration of the name, or it leaves the name alone. -/
theorem standing_concat : Standing (log ++ [e]) n p ↔
    e = (.register n p, .ok ()) ∨
      Standing log n p ∧ e.1 ≠ .unregister n ∧ ∀ q, e ≠ (.register n q, .ok ()) := by
  constructor
  · rintro ⟨before, after, hlog, hunregister, hregister⟩
    rcases List.eq_nil_or_concat after with rfl | ⟨after, e', rfl⟩
    · exact .inl (List.singleton_inj.1 (List.append_inj' hlog rfl).2)
    · have hlog' : log ++ [e] = (before ++ (.register n p, .ok ()) :: after) ++ [e'] := by
        simpa using hlog
      obtain ⟨rfl, he⟩ := List.append_inj' hlog' rfl
      rw [List.singleton_inj.1 he]
      have hlast : e' ∈ after.concat e' := by simp
      refine .inr ⟨⟨before, after, rfl, fun e he => hunregister e (by simp [he]),
        fun q hq => hregister q (by simp [hq])⟩, hunregister e' hlast, fun q hq => ?_⟩
      exact hregister q (hq ▸ hlast)
  · rintro (rfl | ⟨⟨before, after, rfl, hunregister, hregister⟩, hne, hnew⟩)
    · exact ⟨log, [], rfl, by simp, by simp⟩
    · refine ⟨before, after ++ [e], by simp, fun e' he' => ?_, fun q hq => ?_⟩
      · rcases List.mem_append.1 he' with he' | he'
        · exact hunregister e' he'
        · rw [List.mem_singleton.1 he']
          exact hne
      · rcases List.mem_append.1 hq with hq | hq
        · exact hregister q hq
        · exact hnew q (List.mem_singleton.1 hq).symm

/-! ## What a registry holds -/

/-- The registry holds what stands by the record, and the primary name is that of a provider. -/
structure Traced (log : List (Call × Except ProviderError Unit)) (r : ProviderRegistry) : Prop where
  standing : ∀ n p, (r.providers.get? n).map (·.provider) = some p ↔ Standing log n p
  primary : ∀ n, r.primary = some n → ∃ g, r.providers.get? n = some g

namespace Traced

theorem new : Traced [] {} where
  standing n p := by
    constructor
    · intro h
      cases h
    · exact fun h => absurd h not_standing_nil
  primary n h := by cases h

/-- An entry that is about no provider under its name. -/
theorem concat_of_same (h : Traced log r) {primary : Option String}
    (hprimary : ∀ n, primary = some n → ∃ g, r.providers.get? n = some g)
    (hunregister : ∀ n, e.1 = .unregister n → r.providers.get? n = none)
    (hregister : ∀ n q, e ≠ (.register n q, .ok ())) :
    Traced (log ++ [e]) { r with primary := primary } where
  standing n p := by
    rw [standing_concat]
    constructor
    · intro hp
      refine .inr ⟨(h.standing n p).1 hp, fun he => ?_, hregister n⟩
      rw [show ({ r with primary := primary } : ProviderRegistry).providers.get? n = none from
        hunregister n he] at hp
      cases hp
    · rintro (he | ⟨hp, -⟩)
      · exact absurd he (hregister n p)
      · exact (h.standing n p).2 hp
  primary := hprimary

theorem registered (h : Traced log r) (n : String) (p : Provider) :
    Traced (log ++ [(.register n p, .ok ())])
      { providers := r.providers.insert n ⟨r.registered, p⟩
        primary := r.primary.or (some n)
        registered := r.registered + 1 } where
  standing m q := by
    rw [standing_concat, Table.get?_insert]
    by_cases hm : n = m
    · subst hm
      rw [if_pos rfl]
      constructor
      · rintro ⟨⟩
        exact .inl rfl
      · rintro (⟨⟨⟩⟩ | ⟨-, -, hnew⟩)
        · rfl
        · exact absurd rfl (hnew p)
    · rw [if_neg hm, h.standing m q]
      simp [hm]
  primary m hm := by
    rw [Table.get?_insert]
    by_cases hn : n = m
    · exact ⟨_, if_pos hn⟩
    · rw [if_neg hn]
      cases hprimary : r.primary with
      | none =>
        rw [hprimary] at hm
        exact absurd (Option.some.inj hm) hn
      | some k =>
        rw [hprimary] at hm
        exact h.primary m (hprimary.trans hm)

theorem unregistered (h : Traced log r) (n : String) :
    Traced (log ++ [(.unregister n, .ok ())])
      { r with
        providers := r.providers.erase n
        primary := if r.primary = some n then none else r.primary } where
  standing m q := by
    rw [standing_concat, Table.get?_erase]
    by_cases hm : n = m
    · rw [if_pos hm]
      simp [hm]
    · rw [if_neg hm, h.standing m q]
      simp [hm]
  primary m hm := by
    split at hm
    · cases hm
    · next hn =>
      have hne : n ≠ m := fun e => hn (e ▸ hm)
      obtain ⟨g, hg⟩ := h.primary m hm
      exact ⟨g, (Table.get?_erase ..).trans ((if_neg hne).trans hg)⟩

theorem perform (h : Traced log r) (c : Call) :
    Traced (log ++ [(c, (r.perform c).1)]) (r.perform c).2 := by
  have hperforms := r.performs c
  generalize (r.perform c).1 = answer at hperforms ⊢
  generalize (r.perform c).2 = r' at hperforms ⊢
  cases hperforms with
  | registered p hn => exact h.registered _ p
  | taken p hn => exact h.concat_of_same h.primary (by simp) (by simp)
  | unregistered hn => exact h.unregistered _
  | notThere hn =>
    refine h.concat_of_same h.primary ?_ (by simp)
    rintro n ⟨⟩
    exact hn
  | preferred hn =>
    refine h.concat_of_same ?_ (by simp) (by simp)
    rintro n ⟨⟩
    exact ⟨_, hn⟩
  | notPreferred hn => exact h.concat_of_same h.primary (by simp) (by simp)

theorem get?_eq_none_iff (h : Traced log r) :
    r.providers.get? n = none ↔ ¬ ∃ p, Standing log n p := by
  simp only [← h.standing]
  cases r.providers.get? n <;> simp

end Traced

theorem traced (calls : List Call) : Traced (record calls).1 (record calls).2 :=
  transcript_keeps .new (fun _ _ c h => h.perform c) calls

/-! ## Resolution -/

def held (r : ProviderRegistry) (n : String) : Except ProviderError Registration :=
  (r.providers.get? n).elim (.error (.notFound n)) .ok

theorem held_eq_ok_iff {g : Registration} : r.held n = .ok g ↔ r.providers.get? n = some g := by
  cases h : r.providers.get? n <;> simp [held, h]

theorem get_empty (r : ProviderRegistry) :
    r.get "" = r.primary.elim (.error (.notFound "<primary>")) r.held := by
  unfold get
  cases r.primary with
  | none => rfl
  | some n => cases h : r.providers.get? n <;> simp [bind, Except.bind, held, h]

theorem get_of_ne (r : ProviderRegistry) (h : n ≠ "") : r.get n = r.held n := by
  unfold get
  cases hn : r.providers.get? n <;> simp [bind, Except.bind, held, h, hn]

/-- The empty name stands for the primary one. -/
theorem get_empty_eq_ok_iff {g : Registration} :
    r.get "" = .ok g ↔ ∃ n, r.primary = some n ∧ r.providers.get? n = some g := by
  rw [get_empty]
  cases r.primary with
  | none => simp
  | some n => simp [held_eq_ok_iff]

/-- What calls answer, by the names that are taken. -/
theorem perform_eq_ok_iff (r : ProviderRegistry) (n : String) :
    (∀ p, (r.perform (.register n p)).1 = .ok () ↔ r.providers.get? n = none) ∧
    ((r.perform (.unregister n)).1 = .ok () ↔ r.providers.get? n ≠ none) ∧
    ((r.perform (.setPrimary n)).1 = .ok () ↔ r.providers.get? n ≠ none) := by
  cases h : r.providers.get? n <;>
    simp [perform, attempted, Call.apply, register, unregister, setPrimary, Table.contains, h]

/-- Resolution of providers never dangles. Whatever was asked of a new registry: its primary name,
if there is one, is that of a provider; the empty name resolves exactly if there is a primary one,
to the provider of that name; any other name resolves to the provider that stands under it by the
record, and is not found if there is none; and a call that fails changes nothing. Calls fail only if
a provider stands where there should be none, or the other way round, and there is a primary one
after each that registers or names one. -/
theorem never_dangling (calls : List Call) :
    let log := (record calls).1
    let r := (record calls).2
    (∀ n, r.primary = some n → ∃ g, r.providers.get? n = some g) ∧
    (∀ g, r.get "" = .ok g ↔ ∃ n, r.primary = some n ∧ r.providers.get? n = some g) ∧
    ((∃ g, r.get "" = .ok g) ↔ r.primary ≠ none) ∧
    (∀ n, n ≠ "" →
      (∀ p, Standing log n p → ∃ g, r.get n = .ok g ∧ g.provider = p) ∧
      ((¬ ∃ p, Standing log n p) → r.get n = .error (.notFound n))) ∧
    (∀ c e, (r.perform c).1 = .error e → (r.perform c).2 = r) ∧
    (∀ n p, ((r.perform (.register n p)).1 = .ok () ↔ ¬ ∃ q, Standing log n q) ∧
      ((r.perform (.register n p)).1 = .ok () → (r.perform (.register n p)).2.primary ≠ none)) ∧
    (∀ n, (r.perform (.unregister n)).1 = .ok () ↔ ∃ q, Standing log n q) ∧
    ∀ n, ((r.perform (.setPrimary n)).1 = .ok () ↔ ∃ q, Standing log n q) ∧
      ((r.perform (.setPrimary n)).1 = .ok () →
        (r.perform (.setPrimary n)).2.primary = some n) := by
  intro log r
  have h : Traced log r := traced calls
  have hperforms {c : Call} {answer : Except ProviderError Unit} (hc : (r.perform c).1 = answer) :
      Performs r c answer (r.perform c).2 := hc ▸ r.performs c
  refine ⟨h.primary, fun g => get_empty_eq_ok_iff, ?_,
    fun n hn => ⟨fun p hp => ?_, fun hnone => ?_⟩, fun c e he => attempted_unchanged he,
    fun n p => ⟨?_, fun hc => (hperforms hc).primary_of_register⟩, fun n => ?_,
    fun n => ⟨?_, fun hc => (hperforms hc).primary_of_setPrimary⟩⟩
  · constructor
    · rintro ⟨g, hg⟩ hprimary
      obtain ⟨n, hn, -⟩ := get_empty_eq_ok_iff.1 hg
      rw [hprimary] at hn
      cases hn
    · intro hprimary
      obtain ⟨n, hn⟩ := Option.ne_none_iff_exists'.1 hprimary
      obtain ⟨g, hg⟩ := h.primary n hn
      exact ⟨g, get_empty_eq_ok_iff.2 ⟨n, hn, hg⟩⟩
  · obtain ⟨g, hg, rfl⟩ := Option.map_eq_some_iff.1 ((h.standing n p).2 hp)
    exact ⟨g, (r.get_of_ne hn).trans (held_eq_ok_iff.2 hg), rfl⟩
  · rw [get_of_ne r hn, held, h.get?_eq_none_iff.2 hnone]
    rfl
  · rw [(r.perform_eq_ok_iff n).1 p, h.get?_eq_none_iff]
  · rw [(r.perform_eq_ok_iff n).2.1, ne_eq, h.get?_eq_none_iff, not_not]
  · rw [(r.perform_eq_ok_iff n).2.2, ne_eq, h.get?_eq_none_iff, not_not]

/-- A name that was given up and taken again stands for its second provider, which is primary
because the first one was. -/
theorem never_dangling_of_replaced :
    let first : Provider := .scripted "first" []
    let second : Provider := .scripted "second" []
    let calls : List Call := [.register "a" first, .register "b" first, .register "a" second,
      .unregister "a", .register "a" second]
    let r := (record calls).2
    (Standing (record calls).1 "a" second ∧ ¬ ∃ p, Standing (record calls).1 "c" p) ∧
      (∃ g, r.get "a" = .ok g ∧ g.provider = second) ∧ r.get "c" = .error (.notFound "c") ∧
      ∃ g, r.get "" = .ok g ∧ g.provider = second := by
  intro first second calls r
  have hstanding : Standing (record calls).1 "a" second := ⟨_, [], rfl, by simp, by simp⟩
  have hnone : ¬ ∃ p, Standing (record calls).1 "c" p :=
    (traced calls).get?_eq_none_iff.1 (by decide)
  obtain ⟨-, -, -, hget, -⟩ := never_dangling calls
  exact ⟨⟨hstanding, hnone⟩, (hget "a" (by decide)).1 second hstanding,
    (hget "c" (by decide)).2 hnone, _, rfl, rfl⟩

end ProviderRegistry
end StepScript
