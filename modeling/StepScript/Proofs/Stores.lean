import StepScript.Proofs.Transcript
import StepScript.Session.Basic

/-!
# StepScript.Proofs.Stores

Stores of records, as maps from names.

* `Filled` — the stores that come about by their operations. What they hold is valid.
* `Change`, `Request`, `Request.perform` — what can be asked of a store, directly or under a policy,
  with the answer and the store after it.
* `Answers` — the same said of a map: which answers are right, and which map comes after them.
* `Keyed`   — all records stand under their own names. Requests answer as `Answers` says of such a
  store (`perform_answers`), and keep it so (`Answers.keyed`); one that fails changes nothing
  (`perform_unchanged`).
* `record`, `Behaves` — requests in a row. `refines` — from the empty store on they behave as
  requests to a map.
* `stores_refine_maps` — so do the stores of agent models and of accounts.
-/

namespace StepScript
namespace RecordKind

section

variable {α : Type}

/-- The stores that come about by their operations. -/
inductive Filled (k : RecordKind α) : Table α → Prop where
  | empty : Filled k {}
  | register {store store' : Table α} {a : α} : Filled k store →
      k.register store a = .ok store' → Filled k store'
  | update {store store' : Table α} {a : α} : Filled k store →
      k.update store a = .ok store' → Filled k store'
  | delete {store store' : Table α} {name : String} : Filled k store →
      k.delete store name = .ok store' → Filled k store'

variable {k : RecordKind α}

theorem valid_of_bind {β : Type} {a : α} {x : Except StoreError β} {b : β}
    (h : (k.validate a >>= fun _ => x) = .ok b) : k.defect? a = none ∧ x = .ok b := by
  cases hd : k.defect? a with
  | some reason => simp only [validate, hd] at h; cases h
  | none => simp only [validate, hd] at h; exact ⟨rfl, h⟩

/-- All records of a store have passed the check of their kind. -/
theorem Filled.valid {store : Table α} (h : k.Filled store) :
    ∀ {name : String} {a : α}, store.get? name = some a → k.defect? a = none := by
  have hinsert {store : Table α} {b : α} (hb : k.defect? b = none)
      (ih : ∀ {name : String} {a : α}, store.get? name = some a → k.defect? a = none)
      {name : String} {a : α} (ha : (store.insert (k.name b) b).get? name = some a) :
      k.defect? a = none := by
    rw [Table.get?_insert] at ha
    split at ha
    · cases ha; exact hb
    · exact ih ha
  induction h with
  | empty => intro name a ha; cases ha
  | register _ hr ih =>
    intro name a ha
    obtain ⟨hb, hr⟩ := valid_of_bind hr
    split at hr
    · cases hr
    · cases hr; exact hinsert hb ih ha
  | update _ hu ih =>
    intro name a ha
    obtain ⟨hb, hu⟩ := valid_of_bind hu
    split at hu
    · cases hu; exact hinsert hb ih ha
    · cases hu
  | delete _ hd ih =>
    intro name a ha
    unfold RecordKind.delete at hd
    split at hd
    · cases hd
      rw [Table.get?_erase] at ha
      split at ha
      · cases ha
      · exact ih ha
    · cases hd

end

/-! ## Requests -/

inductive Change (α : Type) where
  | register (a : α)
  | update (a : α)
  | delete (name : String)

/-- What may be asked of a store. A change is made directly, or it needs the consent of a policy. -/
inductive Request (α : Type) where
  | change (policy : Option Policy) (c : Change α)
  | get (name : String)
  | list
  | listNames

inductive Reply (α : Type) where
  | done
  | found (a : α)
  | records (as : List α)
  | names (ns : List String)

section

variable {α : Type} (k : RecordKind α) (admin : Capability)

def Change.apply (store : Table α) : Change α → Except StoreError (Table α)
  | .register a => k.register store a
  | .update a => k.update store a
  | .delete name => k.delete store name

/-- The store after a change under a policy. -/
def Change.applyUnder (policy : Option Policy) (store : Table α) (c : Change α) :
    Except StoreError (Table α) :=
  policy.elim (c.apply k store) fun policy => authorized policy admin (c.apply k store)

/-- The answer to a request, and the store after it. -/
def Request.perform (store : Table α) : Request α → Except StoreError (Reply α) × Table α
  | .change policy c => attempted store .done (c.applyUnder k admin policy store)
  | .get name => ((k.get store name).map .found, store)
  | .list => (.ok (.records (k.list store)), store)
  | .listNames => (.ok (.names (RecordKind.listNames store)), store)

/-- Requests to an empty store in order, with their answers, and the store after them. -/
def record : List (Request α) → List (Request α × Except StoreError (Reply α)) × Table α :=
  transcript (fun store r => r.perform k admin store) {}

end

/-! ## Maps -/

section

variable {α : Type} (k : RecordKind α) (admin : Capability)

/-- A change is direct, or the policy consents to it. -/
def Consent (policy : Option Policy) : Prop := ∀ p, policy = some p → p.check admin = .ok ()

def Change.record? : Change α → Option α
  | .register a | .update a => some a
  | .delete _ => none

/-- The right answers to requests if `m` is what is stored, and what is stored after them. -/
inductive Answers (m : String → Option α) :
    Request α → Except StoreError (Reply α) → (String → Option α) → Prop where
  | denied {p : Policy} {d : Denied} (c : Change α) : p.check admin = .error d →
      Answers m (.change (some p) c) (.error (.policy d)) m
  | invalid {policy : Option Policy} {c : Change α} {a : α} {reason : String} :
      Consent admin policy → c.record? = some a → k.defect? a = some reason →
      Answers m (.change policy c) (.error (.invalid k.label reason)) m
  | registered {policy : Option Policy} {a : α} :
      Consent admin policy → k.defect? a = none → m (k.name a) = none →
      Answers m (.change policy (.register a)) (.ok .done) (Function.update m (k.name a) (some a))
  | taken {policy : Option Policy} {a b : α} :
      Consent admin policy → k.defect? a = none → m (k.name a) = some b →
      Answers m (.change policy (.register a)) (.error (.duplicate k.label (k.name a))) m
  | updated {policy : Option Policy} {a b : α} :
      Consent admin policy → k.defect? a = none → m (k.name a) = some b →
      Answers m (.change policy (.update a)) (.ok .done) (Function.update m (k.name a) (some a))
  | notUpdated {policy : Option Policy} {a : α} :
      Consent admin policy → k.defect? a = none → m (k.name a) = none →
      Answers m (.change policy (.update a)) (.error (.notFound k.label (k.name a))) m
  | deleted {policy : Option Policy} {name : String} {b : α} :
      Consent admin policy → m name = some b →
      Answers m (.change policy (.delete name)) (.ok .done) (Function.update m name none)
  | notDeleted {policy : Option Policy} {name : String} :
      Consent admin policy → m name = none →
      Answers m (.change policy (.delete name)) (.error (.notFound k.label name)) m
  | found {name : String} {a : α} : m name = some a → Answers m (.get name) (.ok (.found a)) m
  | notFound {name : String} : m name = none →
      Answers m (.get name) (.error (.notFound k.label name)) m
  | list {as : List α} : as.Pairwise (fun a b => k.name a < k.name b) →
      (∀ a, a ∈ as ↔ ∃ name, m name = some a) → Answers m .list (.ok (.records as)) m
  | listNames {ns : List String} : ns.Pairwise (· < ·) →
      (∀ n, n ∈ ns ↔ ∃ a, m n = some a) → Answers m .listNames (.ok (.names ns)) m

inductive Behaves : (String → Option α) → List (Request α × Except StoreError (Reply α)) →
    (String → Option α) → Prop where
  | nil {m : String → Option α} : Behaves m [] m
  | concat {m m' m'' : String → Option α} {log : List (Request α × Except StoreError (Reply α))}
      {r : Request α} {reply : Except StoreError (Reply α)} : Behaves m log m' →
      Answers k admin m' r reply m'' → Behaves m (log ++ [(r, reply)]) m''

end

variable {α : Type} {k : RecordKind α} {admin : Capability} {m m' : String → Option α}
variable {r : Request α} {reply : Except StoreError (Reply α)} {store : Table α}

def Keyed (k : RecordKind α) (m : String → Option α) : Prop := ∀ n a, m n = some a → k.name a = n

theorem Keyed.update (h : k.Keyed m) (a : α) :
    k.Keyed (Function.update m (k.name a) (some a)) := by
  intro n b hb
  rw [Function.update_apply] at hb
  split at hb
  · next hn =>
    cases hb
    exact hn.symm
  · exact h n b hb

theorem Keyed.erase (h : k.Keyed m) (name : String) : k.Keyed (Function.update m name none) := by
  intro n b hb
  rw [Function.update_apply] at hb
  split at hb
  · cases hb
  · exact h n b hb

theorem Answers.keyed (h : Answers k admin m r reply m') (hm : k.Keyed m) : k.Keyed m' := by
  cases h with
  | registered => exact hm.update _
  | updated => exact hm.update _
  | deleted => exact hm.erase _
  | _ => exact hm

/-! ## Stores as maps -/

theorem get?_insert_eq_update (store : Table α) (name : String) (a : α) :
    (store.insert name a).get? = Function.update store.get? name (some a) := by
  funext n
  rw [Table.get?_insert, Function.update_apply]
  simp only [eq_comm]

theorem get?_erase_eq_update (store : Table α) (name : String) :
    (store.erase name).get? = Function.update store.get? name none := by
  funext n
  rw [Table.get?_erase, Function.update_apply]
  simp only [eq_comm]

/-- The records of a store stand in the order of their names. -/
theorem values_pairwise (h : k.Keyed store.get?) :
    store.values.Pairwise fun a b => k.name a < k.name b := by
  refine List.pairwise_map.2 (store.ascending.imp_of_mem ?_)
  intro p q hp hq hlt
  have hname {p : String × α} (hp : p ∈ store.entries) : k.name p.2 = p.1 :=
    h p.1 p.2 ((Entries.mem_iff_get? store.ascending).1 hp)
  rw [hname hp, hname hq]
  exact hlt

/-- So there is nothing to sort. -/
theorem list_eq_values (h : k.Keyed store.get?) : k.list store = store.values := by
  refine List.mergeSort_of_pairwise ((values_pairwise h).imp fun hlt => ?_)
  exact decide_eq_true (Std.le_of_lt hlt)

theorem listNames_eq_names : listNames store = store.names := by
  refine List.mergeSort_of_pairwise (store.names_pairwise.imp fun hlt => ?_)
  exact decide_eq_true (Std.le_of_lt hlt)

/-- A change is denied, or it is as if made directly. -/
theorem applyUnder_cases (k : RecordKind α) (admin : Capability) (policy : Option Policy)
    (store : Table α) (c : Change α) :
    (∃ p d, policy = some p ∧ p.check admin = .error d ∧
      c.applyUnder k admin policy store = .error (.policy d)) ∨
    Consent admin policy ∧ c.applyUnder k admin policy store = c.apply k store := by
  cases policy with
  | none => exact .inr ⟨by rintro p ⟨⟩, rfl⟩
  | some p =>
    cases h : p.check admin with
    | error d => exact .inl ⟨p, d, rfl, h, by simp [Change.applyUnder, authorized, h]⟩
    | ok u =>
      refine .inr ⟨?_, by simp [Change.applyUnder, authorized, h]⟩
      rintro p' ⟨⟩
      exact h

/-- Of an invalid record nothing but its defect is told. -/
theorem validate_bind {β : Type} (k : RecordKind α) (a : α) (x : Except StoreError β) :
    (k.validate a >>= fun _ => x) =
      (k.defect? a).elim x fun reason => .error (.invalid k.label reason) := by
  cases h : k.defect? a with
  | none => simp only [validate, h, Option.elim_none, bind, Except.bind]
  | some reason => simp only [validate, h, Option.elim_some, bind, Except.bind]

/-- Changes answer as they should. -/
theorem change_answers {policy : Option Policy} (hpolicy : Consent admin policy)
    (store : Table α) (c : Change α) :
    Answers k admin store.get? (.change policy c)
      (attempted store .done (c.apply k store)).1
      (attempted store (Reply.done : Reply α) (c.apply k store)).2.get? := by
  have hinsert (a : α) : (store.insert (k.name a) a).get? =
      Function.update store.get? (k.name a) (some a) := get?_insert_eq_update store _ a
  cases c with
  | register a =>
    rw [Change.apply, RecordKind.register, validate_bind]
    cases hd : k.defect? a with
    | some reason => exact .invalid hpolicy rfl hd
    | none =>
      cases hm : store.get? (k.name a) with
      | none =>
        rw [Option.elim_none, if_neg (by simp [Table.contains, hm])]
        exact hinsert a ▸ Answers.registered hpolicy hd hm
      | some b =>
        rw [Option.elim_none, if_pos (by simp [Table.contains, hm])]
        exact .taken hpolicy hd hm
  | update a =>
    rw [Change.apply, RecordKind.update, validate_bind]
    cases hd : k.defect? a with
    | some reason => exact .invalid hpolicy rfl hd
    | none =>
      cases hm : store.get? (k.name a) with
      | none =>
        rw [Option.elim_none, if_neg (by simp [Table.contains, hm])]
        exact .notUpdated hpolicy hd hm
      | some b =>
        rw [Option.elim_none, if_pos (by simp [Table.contains, hm])]
        exact hinsert a ▸ Answers.updated hpolicy hd hm
  | delete name =>
    rw [Change.apply, RecordKind.delete]
    cases hm : store.get? name with
    | none =>
      rw [if_neg (by simp [Table.contains, hm])]
      exact .notDeleted hpolicy hm
    | some b =>
      rw [if_pos (by simp [Table.contains, hm])]
      exact get?_erase_eq_update store name ▸ Answers.deleted hpolicy hm

theorem perform_answers (h : k.Keyed store.get?) (r : Request α) :
    Answers k admin store.get? r (r.perform k admin store).1
      (r.perform k admin store).2.get? := by
  cases r with
  | change policy c =>
    rcases applyUnder_cases k admin policy store c with ⟨p, d, rfl, hp, hc⟩ | ⟨hpolicy, hc⟩
    · simp only [Request.perform, hc]
      exact .denied c hp
    · simp only [Request.perform, hc]
      exact change_answers hpolicy store c
  | get name =>
    cases hname : store.get? name with
    | none =>
      simp only [Request.perform, RecordKind.get, hname]
      exact .notFound hname
    | some a =>
      simp only [Request.perform, RecordKind.get, hname]
      exact .found hname
  | list =>
    rw [Request.perform, list_eq_values h]
    exact .list (values_pairwise h) fun a => Table.mem_values_iff
  | listNames =>
    rw [Request.perform, listNames_eq_names]
    exact .listNames store.names_pairwise fun n => Table.mem_names_iff

/-- The stores that requests lead to come about by the operations on stores. -/
theorem Filled.perform (h : k.Filled store) (r : Request α) :
    k.Filled (r.perform k admin store).2 := by
  cases r with
  | change policy c =>
    rcases applyUnder_cases k admin policy store c with ⟨p, d, rfl, hp, hc⟩ | ⟨hpolicy, hc⟩
    · rw [Request.perform, hc]
      exact h
    · rw [Request.perform, hc]
      cases happly : c.apply k store with
      | error e => exact h
      | ok store' =>
        cases c with
        | register a => exact .register h happly
        | update a => exact .update h happly
        | delete name => exact .delete h happly
  | _ => exact h

/-- The store after requests is what these requests make of a map, and what is stored is valid and
stands under its own name. -/
structure Refines (k : RecordKind α) (admin : Capability)
    (log : List (Request α × Except StoreError (Reply α))) (store : Table α) : Prop where
  behaves : Behaves k admin (fun _ => none) log store.get?
  keyed : k.Keyed store.get?
  filled : k.Filled store

theorem Refines.perform {log : List (Request α × Except StoreError (Reply α))}
    (h : Refines k admin log store) (r : Request α) :
    Refines k admin (log ++ [(r, (r.perform k admin store).1)]) (r.perform k admin store).2 where
  behaves := h.behaves.concat (perform_answers h.keyed r)
  keyed := (perform_answers h.keyed r).keyed h.keyed
  filled := h.filled.perform r

theorem refines (k : RecordKind α) (admin : Capability) (requests : List (Request α)) :
    Refines k admin (record k admin requests).1 (record k admin requests).2 :=
  transcript_keeps ⟨.nil, by rintro n a ⟨⟩, .empty⟩ (fun _ _ r h => h.perform r) requests

/-- Requests that fail change nothing. -/
theorem perform_unchanged {e : StoreError} (h : (r.perform k admin store).1 = .error e) :
    (r.perform k admin store).2 = store := by
  cases r with
  | change => exact attempted_unchanged h
  | _ => rfl

end RecordKind

/-! ## The stores of a session -/

theorem authorized_map {α β : Type} (policy : Policy) (c : Capability) (x : Except StoreError α)
    (f : α → β) : authorized policy c (x.map f) = (authorized policy c x).map f := by
  unfold authorized
  cases policy.check c with
  | error d => rfl
  | ok u => rfl

namespace Session

open RecordKind

def changeModels : Change AgentModel → World → Except StoreError World
  | .register m => registerModel m
  | .update m => updateModel m
  | .delete name => deleteModel name

def changeAccounts : Change Account → World → Except StoreError World
  | .register a => registerAccount a
  | .update a => updateAccount a
  | .delete name => deleteAccount name

def withModels (s : Session) (models : Table AgentModel) : Session :=
  { s with world := { s.world with models := models } }

def withAccounts (s : Session) (accounts : Table Account) : Session :=
  { s with world := { s.world with accounts := accounts } }

theorem change_models (s : Session) (c : Change AgentModel) :
    s.change (changeModels c) = (c.apply AgentModel.kind s.world.models).map s.withModels := by
  have hworld : changeModels c s.world = (c.apply AgentModel.kind s.world.models).map
      fun models => { s.world with models := models } := by
    cases c <;> rfl
  rw [change, hworld]
  cases c.apply AgentModel.kind s.world.models <;> rfl

theorem change_accounts (s : Session) (c : Change Account) :
    s.change (changeAccounts c) = (c.apply Account.kind s.world.accounts).map s.withAccounts := by
  have hworld : changeAccounts c s.world = (c.apply Account.kind s.world.accounts).map
      fun accounts => { s.world with accounts := accounts } := by
    cases c <;> rfl
  rw [change, hworld]
  cases c.apply Account.kind s.world.accounts <;> rfl

end Session

theorem AgentModel.valid_of_defect {m : AgentModel} (h : kind.defect? m = none) :
    Text.trim m.name.toList ≠ [] ∧ 1 ≤ m.maxTurns := by
  simp only [kind] at h
  split at h
  · cases h
  · next hname =>
    split at h
    · cases h
    · next hturns => exact ⟨by simpa using hname, Nat.one_le_iff_ne_zero.2 hturns⟩

namespace RecordKind

/-- Stores refine validated maps. Whatever is asked of an empty store, directly or under policies,
it answers as a map from names to records would: it registers what is valid and new, updates what is
there to what is valid, deletes what is there, refuses anything else with the reason for it, and
lists what it holds in the order of the names. What it holds is valid and stands under its own name,
and requests that fail leave it as it is. The stores of a session are such stores, and the policy of
the session is asked for every change that an administrator makes. -/
theorem stores_refine_maps :
    (∀ requests : List (Request AgentModel),
      let log := (record AgentModel.kind .modelAdmin requests).1
      let models := (record AgentModel.kind .modelAdmin requests).2
      log.map Prod.fst = requests ∧
      Behaves AgentModel.kind .modelAdmin (fun _ => none) log models.get? ∧
      (∀ n m, models.get? n = some m →
        m.name = n ∧ Text.trim m.name.toList ≠ [] ∧ 1 ≤ m.maxTurns) ∧
      ∀ r e, (Request.perform AgentModel.kind .modelAdmin models r).1 = .error e →
        (Request.perform AgentModel.kind .modelAdmin models r).2 = models) ∧
    (∀ requests : List (Request Account),
      let log := (record Account.kind .accountAdmin requests).1
      let accounts := (record Account.kind .accountAdmin requests).2
      log.map Prod.fst = requests ∧
      Behaves Account.kind .accountAdmin (fun _ => none) log accounts.get? ∧
      (∀ n a, accounts.get? n = some a → a.name = n) ∧
      ∀ r e, (Request.perform Account.kind .accountAdmin accounts r).1 = .error e →
        (Request.perform Account.kind .accountAdmin accounts r).2 = accounts) ∧
    ∀ s : Session,
      (∀ c, s.administerModels (Session.changeModels c) =
        (c.applyUnder AgentModel.kind .modelAdmin (some s.engine.gate) s.world.models).map
          s.withModels) ∧
      ∀ c, s.administerAccounts (Session.changeAccounts c) =
        (c.applyUnder Account.kind .accountAdmin (some s.engine.gate) s.world.accounts).map
          s.withAccounts := by
  refine ⟨fun requests => ?_, fun requests => ?_, fun s => ⟨fun c => ?_, fun c => ?_⟩⟩
  · have h := refines AgentModel.kind .modelAdmin requests
    refine ⟨transcript_requests _ _ requests, h.behaves, fun n m hm => ?_,
      fun r e => perform_unchanged⟩
    exact ⟨h.keyed n m hm, AgentModel.valid_of_defect (h.filled.valid hm)⟩
  · have h := refines Account.kind .accountAdmin requests
    exact ⟨transcript_requests _ _ requests, h.behaves, h.keyed, fun r e => perform_unchanged⟩
  · rw [Session.administerModels, s.change_models]
    exact authorized_map ..
  · rw [Session.administerAccounts, s.change_accounts]
    exact authorized_map ..

/-- A model is registered; it is not deleted without consent, nor updated to one without turns. -/
theorem stores_refine_maps_of_refused :
    let m : AgentModel := { name := "helper", model := "m" }
    let requests : List (Request AgentModel) :=
      [.change none (.register m), .change (some (Gate.policy (.grants []))) (.delete "helper"),
        .change none (.update { m with maxTurns := 0 }), .list]
    let log := (record AgentModel.kind .modelAdmin requests).1
    let models := (record AgentModel.kind .modelAdmin requests).2
    (models.get? "helper" = some m ∧
      log.map Prod.snd = [.ok .done, .error (.policy { capability := .modelAdmin }),
        .error (.invalid "agent model" "max_turns must be positive"), .ok (.records [m])]) ∧
      Behaves AgentModel.kind .modelAdmin (fun _ => none) log models.get? ∧
      m.name = "helper" ∧ Text.trim m.name.toList ≠ [] ∧ 1 ≤ m.maxTurns := by
  intro m requests log models
  have hm : models.get? "helper" = some m := by
    dsimp only [models, requests, m]
    rfl
  have hlog : log.map Prod.snd = [.ok .done, .error (.policy { capability := .modelAdmin }),
      .error (.invalid "agent model" "max_turns must be positive"), .ok (.records [m])] := by
    have hlist : AgentModel.kind.list models = models.values :=
      list_eq_values (refines AgentModel.kind .modelAdmin requests).keyed
    have hvalues : models.values = [m] := by
      dsimp only [models, requests, m]
      rfl
    rw [← hvalues, ← hlist]
    dsimp only [log, models, requests, m]
    rfl
  obtain ⟨-, hbehaves, hvalid, -⟩ := stores_refine_maps.1 requests
  exact ⟨⟨hm, hlog⟩, hbehaves, hvalid "helper" m hm⟩

end RecordKind
end StepScript
