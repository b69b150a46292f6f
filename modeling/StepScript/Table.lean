/-!
# StepScript.Table

Finite maps from names to data, listed in strictly ascending order of the names.

* `Entries` — the bare list, with `get?`, `insert`, `erase`; also the content of map values.
* `Table`   — entries together with the proof that their names ascend.

Two tables that answer `get?` alike hold the same list, so equality of tables is equality of
finite maps, and listing a table needs no sorting.
-/

namespace StepScript

universe u v

/-- Named data in the order of listing. -/
abbrev Entries (α : Type u) := List (String × α)

namespace Entries

variable {α : Type u} {β : Type v}

def get? (name : String) : Entries α → Option α
  | [] => none
  | (k, a) :: rest => if k = name then some a else get? name rest

def contains (name : String) (es : Entries α) : Bool := (get? name es).isSome

/-- Binds `name` at its place in the order, replacing an earlier binding. -/
def insert (name : String) (a : α) : Entries α → Entries α
  | [] => [(name, a)]
  | (k, b) :: rest =>
    if name = k then (k, a) :: rest
    else if name < k then (name, a) :: (k, b) :: rest
    else (k, b) :: insert name a rest

def erase (name : String) : Entries α → Entries α
  | [] => []
  | (k, b) :: rest => if k = name then rest else (k, b) :: erase name rest

/-- Of two bindings of one name the later wins. -/
def ofList (pairs : List (String × α)) : Entries α :=
  pairs.foldl (fun es p => es.insert p.1 p.2) []

def names (es : Entries α) : List String := es.map (·.1)

def values (es : Entries α) : List α := es.map (·.2)

/-- Names ascend strictly, so no name occurs twice. -/
def Ascending (es : Entries α) : Prop := es.Pairwise fun p q => p.1 < q.1

@[simp] theorem get?_nil (name : String) : get? name ([] : Entries α) = none := rfl

theorem get?_insert (n name : String) (a : α) (es : Entries α) :
    (es.insert name a).get? n = if name = n then some a else es.get? n := by
  induction es with
  | nil => simp [insert, get?]
  | cons p rest ih =>
    obtain ⟨k, b⟩ := p
    simp only [insert]
    split
    · next h => subst h; simp only [get?]; split <;> simp_all
    · split
      · simp only [get?]
      · simp only [get?, ih]; split <;> simp_all

theorem mem_names_insert {n name : String} {a : α} {es : Entries α}
    (h : n ∈ (es.insert name a).names) : n = name ∨ n ∈ es.names := by
  induction es with
  | nil => simpa [insert, names] using h
  | cons p rest ih =>
    obtain ⟨k, b⟩ := p
    simp only [insert] at h
    split at h
    · next e => right; simpa [names] using h
    · split at h
      · simpa [names] using h
      · simp only [names, List.map_cons, List.mem_cons] at h ⊢
        rcases h with h | h
        · exact .inr (.inl h)
        · rcases ih h with h | h
          · exact .inl h
          · exact .inr (.inr h)

theorem ascending_cons {p : String × α} {es : Entries α} :
    Ascending (p :: es) ↔ (∀ n ∈ es.names, p.1 < n) ∧ Ascending es := by
  simp only [Ascending, List.pairwise_cons, names, List.mem_map]
  constructor
  · rintro ⟨h, ho⟩
    exact ⟨by rintro n ⟨q, hq, rfl⟩; exact h q hq, ho⟩
  · rintro ⟨h, ho⟩
    exact ⟨fun q hq => h q.1 ⟨q, hq, rfl⟩, ho⟩

theorem ascending_insert {es : Entries α} (name : String) (a : α) (h : es.Ascending) :
    (es.insert name a).Ascending := by
  induction es with
  | nil => exact List.pairwise_singleton _ _
  | cons p rest ih =>
    obtain ⟨k, b⟩ := p
    have ⟨hk, hr⟩ := ascending_cons.1 h
    simp only [insert]
    split
    · exact ascending_cons.2 ⟨hk, hr⟩
    · next hne =>
      split
      · next hlt =>
        refine ascending_cons.2 ⟨fun n hn => ?_, h⟩
        rcases List.mem_cons.1 hn with rfl | hn
        · exact hlt
        · exact String.lt_trans hlt (hk n hn)
      · next hnl =>
        refine ascending_cons.2 ⟨fun n hn => ?_, ih hr⟩
        rcases mem_names_insert hn with rfl | hn
        · rcases Std.lt_trichotomy k n with h | h | h
          · exact h
          · exact absurd h.symm hne
          · exact absurd h hnl
        · exact hk n hn

theorem names_erase_subset {n name : String} {es : Entries α} (h : n ∈ (es.erase name).names) :
    n ∈ es.names := by
  induction es with
  | nil => exact h
  | cons p rest ih =>
    obtain ⟨k, b⟩ := p
    simp only [erase] at h
    split at h
    · exact List.mem_cons_of_mem _ h
    · rcases List.mem_cons.1 h with rfl | h
      · exact List.mem_cons_self
      · exact List.mem_cons_of_mem _ (ih h)

theorem ascending_erase {es : Entries α} (name : String) (h : es.Ascending) :
    (es.erase name).Ascending := by
  induction es with
  | nil => exact h
  | cons p rest ih =>
    obtain ⟨k, b⟩ := p
    have ⟨hk, hr⟩ := ascending_cons.1 h
    simp only [erase]
    split
    · exact hr
    · exact ascending_cons.2 ⟨fun n hn => hk n (names_erase_subset hn), ih hr⟩

theorem ascending_map {es : Entries α} (g : α → β) (h : es.Ascending) :
    Ascending (es.map fun p => (p.1, g p.2)) := by
  unfold Ascending
  rw [List.pairwise_map]
  exact h

theorem get?_eq_none {n : String} {es : Entries α} (h : ∀ m ∈ es.names, n < m) :
    es.get? n = none := by
  induction es with
  | nil => rfl
  | cons p rest ih =>
    obtain ⟨k, b⟩ := p
    have hk : k ≠ n := fun e => String.lt_irrefl n (e ▸ h k List.mem_cons_self)
    simp only [get?, if_neg hk]
    exact ih fun m hm => h m (List.mem_cons_of_mem _ hm)

theorem get?_erase (n name : String) {es : Entries α} (h : es.Ascending) :
    (es.erase name).get? n = if name = n then none else es.get? n := by
  induction es with
  | nil => simp [erase]
  | cons p rest ih =>
    obtain ⟨k, b⟩ := p
    have ⟨hk, hr⟩ := ascending_cons.1 h
    simp only [erase]
    split
    · next hkn =>
      subst hkn
      split
      · next hn => exact get?_eq_none (hn ▸ hk)
      · next hn => simp only [get?, if_neg hn]
    · next hkn =>
      simp only [get?, ih hr]
      split
      · next hn =>
        subst hn
        rw [if_neg (Ne.symm hkn)]
      · rfl

/-- What is found under a name is what stands there. -/
theorem mem_iff_get? {n : String} {a : α} {es : Entries α} (h : es.Ascending) :
    (n, a) ∈ es ↔ es.get? n = some a := by
  induction es with
  | nil => simp
  | cons p rest ih =>
    obtain ⟨k, b⟩ := p
    have ⟨hk, hr⟩ := ascending_cons.1 h
    simp only [get?, List.mem_cons, Prod.mk.injEq]
    split
    · next hkn =>
      subst hkn
      -- no later entry has the name of the first one
      have hrest : (k, a) ∉ rest := fun hmem =>
        String.lt_irrefl k (hk k (List.mem_map.2 ⟨_, hmem, rfl⟩))
      simp [hrest, eq_comm]
    · next hkn => simp [Ne.symm hkn, ih hr]

end Entries

/-- A finite map from names. -/
structure Table (α : Type u) where
  entries : Entries α
  ascending : entries.Ascending

namespace Table

variable {α : Type u}

def empty : Table α := ⟨[], List.Pairwise.nil⟩

instance : EmptyCollection (Table α) := ⟨empty⟩

instance : Inhabited (Table α) := ⟨empty⟩

def get? (t : Table α) (name : String) : Option α := t.entries.get? name

def contains (t : Table α) (name : String) : Bool := (t.get? name).isSome

def insert (t : Table α) (name : String) (a : α) : Table α :=
  ⟨t.entries.insert name a, Entries.ascending_insert name a t.ascending⟩

def erase (t : Table α) (name : String) : Table α :=
  ⟨t.entries.erase name, Entries.ascending_erase name t.ascending⟩

/-- Of two bindings of one name the later wins. -/
def ofList (pairs : List (String × α)) : Table α :=
  pairs.foldl (fun t p => t.insert p.1 p.2) empty

def names (t : Table α) : List String := t.entries.names

def values (t : Table α) : List α := t.entries.values

/-- Other data under the same names. -/
def map {β : Type v} (g : α → β) (t : Table α) : Table β :=
  ⟨t.entries.map fun p => (p.1, g p.2), Entries.ascending_map g t.ascending⟩

@[simp] theorem get?_empty (name : String) : (empty : Table α).get? name = none := rfl

theorem get?_insert (t : Table α) (n name : String) (a : α) :
    (t.insert name a).get? n = if name = n then some a else t.get? n :=
  Entries.get?_insert n name a t.entries

theorem get?_erase (t : Table α) (n name : String) :
    (t.erase name).get? n = if name = n then none else t.get? n :=
  Entries.get?_erase n name t.ascending

theorem get?_map {β : Type v} (g : α → β) (t : Table α) (name : String) :
    (t.map g).get? name = (t.get? name).map g := by
  obtain ⟨entries, hentries⟩ := t
  show Entries.get? name (entries.map fun p => (p.1, g p.2)) = (Entries.get? name entries).map g
  clear hentries
  induction entries with
  | nil => rfl
  | cons p rest ih =>
    obtain ⟨k, a⟩ := p
    simp only [List.map_cons, Entries.get?, ih]
    split <;> rfl

theorem mem_names_iff {t : Table α} {name : String} :
    name ∈ t.names ↔ ∃ a, t.get? name = some a := by
  simp [names, Entries.names, Entries.mem_iff_get? t.ascending, get?]

theorem mem_values_iff {t : Table α} {a : α} : a ∈ t.values ↔ ∃ name, t.get? name = some a := by
  simp [values, Entries.values, Entries.mem_iff_get? t.ascending, get?]

theorem names_pairwise (t : Table α) : t.names.Pairwise (· < ·) := List.pairwise_map.2 t.ascending

theorem mem_of_get?_ofList {pairs : List (String × α)} {name : String} {a : α}
    (h : (ofList pairs).get? name = some a) : (name, a) ∈ pairs := by
  have hfold (t : Table α) : (pairs.foldl (fun t p => t.insert p.1 p.2) t).get? name = some a →
      (name, a) ∈ pairs ∨ t.get? name = some a := by
    clear h
    induction pairs generalizing t with
    | nil => exact .inr
    | cons p rest ih =>
      intro h
      rcases ih _ h with hrest | hinsert
      · exact .inl (List.mem_cons_of_mem _ hrest)
      · rw [get?_insert] at hinsert
        split at hinsert
        · next hname =>
          cases hinsert
          exact .inl (hname ▸ List.mem_cons_self)
        · exact .inr hinsert
  rcases hfold empty h with hmem | hempty
  · exact hmem
  · cases hempty

end Table

end StepScript
