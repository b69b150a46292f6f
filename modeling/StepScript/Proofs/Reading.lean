import StepScript.Json.Document
import StepScript.Json.Printer

/-!
# StepScript.Proofs.Reading

JSON texts read back.

* `Reader.Ended` — a value has just been read. Of a numeral only the next character shows that.
* `Reader.Reads` — a text is read as a tree wherever a value may stand.
* `Reader.reads_of_read?` — that is so if the text is read as this tree when it stands alone.
* `Number.Legible` — the text of a number reads back.
* `Json.reads_spelled` — the text of a value does in every layout, if those of its numbers do: all
  strings are escaped, all that is opened is closed, and blanks stand only between.
* `Json.reads_compact`, `Json.reads_pretty` — the two layouts that are written.
-/

namespace StepScript
namespace Json

namespace Reader

variable {r r' : Reader}

theorem foldlM_cons_of {c : Char} (h : r.step c = some r') (text : List Char) :
    (c :: text).foldlM step r = text.foldlM step r' := by
  rw [List.foldlM_cons, h]
  rfl

theorem foldlM_append_of {text : List Char} (h : text.foldlM step r = some r') (rest : List Char) :
    (text ++ rest).foldlM step r = rest.foldlM step r' := by
  rw [List.foldlM_append, h]
  rfl

/-! ## Where a value ends -/

/-- A value may stand here. -/
def Hungry : List Level → Prop
  | .object _ :: _ => False
  | _ => True

theorem deliver_of_hungry {base : List Level} (h : Hungry base) (d : Document) :
    ∃ r, deliver d base = some r := by
  rcases base with _ | ⟨level, up⟩
  · exact ⟨_, rfl⟩
  · cases level with
    | array items => exact ⟨_, rfl⟩
    | object members => exact h.elim
    | entry members key => exact ⟨_, rfl⟩

/-- A value that was delivered waits for what comes after it, blanks aside. -/
theorem step_of_delivered {base : List Level} {d : Document} {r : Reader}
    (h : deliver d base = some r) (c : Char) :
    r.step c = r.afterAny c ∧ (isSpace c = true → r.afterAny c = some r) := by
  rcases base with _ | ⟨level, up⟩
  · cases h
    exact ⟨rfl, fun hspace => by simp [afterAny, hspace]⟩
  · cases level with
    | array items => cases h; exact ⟨rfl, fun hspace => by simp [afterAny, afterValue, hspace]⟩
    | object members => cases h
    | entry members key => cases h; exact ⟨rfl, fun hspace => by simp [afterAny, afterValue, hspace]⟩

/-- The value `d` has just been read, and is to be handed to `base`. -/
inductive Ended (d : Document) (base : List Level) : Reader → Prop where
  | delivered {r : Reader} : deliver d base = some r → Ended d base r
  | numeral {n : Numeral} {part : NumeralPart} : part.complete = true → d = .number n.value? →
      Ended d base ⟨base, .numeral n part⟩

/-- Wherever a value may stand, the text is read as `d`. -/
def Reads (text : List Char) (d : Document) : Prop :=
  ∀ base, Hungry base → ∃ r, text.foldlM step ⟨base, .value⟩ = some r ∧ Ended d base r

theorem extend?_closing (n : Numeral) (part : NumeralPart) {c : Char}
    (hc : c = ',' ∨ c = ']' ∨ c = '\x7d') : n.extend? part c = none := by
  rcases hc with rfl | rfl | rfl <;> cases part <;> rfl

theorem extend?_space (n : Numeral) (part : NumeralPart) {c : Char} (hc : isSpace c = true) :
    n.extend? part c = none := by
  simp only [isSpace, Bool.or_eq_true, decide_eq_true_eq] at hc
  rcases hc with ((rfl | rfl) | rfl) | rfl <;> cases part <;> rfl

/-- Commas and closing brackets end a value. -/
theorem Ended.step {d : Document} {base : List Level} {r : Reader} (h : Ended d base r) {c : Char}
    (hc : c = ',' ∨ c = ']' ∨ c = '\x7d') :
    r.step c = (deliver d base).bind (·.afterAny c) := by
  cases h with
  | delivered hr =>
    rw [hr]
    exact (step_of_delivered hr c).1
  | numeral hpart hd =>
    subst hd
    simp only [Reader.step, extend?_closing _ _ hc, hpart, if_true]

/-- Blanks may follow a value. -/
theorem Ended.foldlM_blank {d : Document} {base : List Level} {r : Reader} (h : Ended d base r)
    (hbase : Hungry base) {blank : List Char} (hblank : ∀ c ∈ blank, isSpace c = true) :
    ∃ r', blank.foldlM Reader.step r = some r' ∧ Ended d base r' := by
  induction blank generalizing r with
  | nil => exact ⟨r, rfl, h⟩
  | cons c rest ih =>
    have hc : isSpace c = true := hblank c List.mem_cons_self
    have hstep : ∃ r₁, r.step c = some r₁ ∧ deliver d base = some r₁ := by
      cases h with
      | delivered hr =>
        obtain ⟨hstep, hafter⟩ := step_of_delivered hr c
        exact ⟨r, hstep.trans (hafter hc), hr⟩
      | numeral hpart hd =>
        subst hd
        obtain ⟨r₁, hr₁⟩ := deliver_of_hungry hbase (.number _)
        refine ⟨r₁, ?_, hr₁⟩
        simp only [Reader.step, extend?_space _ _ hc, hpart, if_true, hr₁, Option.bind_some]
        exact (step_of_delivered hr₁ c).2 hc
    obtain ⟨r₁, hstep, hr₁⟩ := hstep
    rw [foldlM_cons_of hstep]
    exact ih (.delivered hr₁) fun c' hc' => hblank c' (List.mem_cons_of_mem c hc')

theorem Ended.phase_ne {d : Document} {base : List Level} {r : Reader} (h : Ended d base r) :
    r.phase ≠ .value := by
  cases h with
  | delivered hr =>
    rcases base with _ | ⟨level, up⟩
    · cases hr; exact Phase.noConfusion
    · cases level with
      | array items => cases hr; exact Phase.noConfusion
      | object members => cases hr
      | entry members key => cases hr; exact Phase.noConfusion
  | numeral hpart hd => exact Phase.noConfusion

theorem Ended.finish {d : Document} {r : Reader} (h : Ended d [] r) : r.finish = some d := by
  cases h with
  | delivered hr => cases hr; rfl
  | numeral hpart hd => simp [Reader.finish, hpart, hd]

theorem Reads.read? {text : List Char} {d : Document} (h : Reads text d) :
    Document.read? text = some d := by
  obtain ⟨r, hfold, hended⟩ := h [] trivial
  rw [Document.read?, start, hfold]
  exact hended.finish

/-! ## A text that is read alone is read anywhere -/

def above (base : List Level) (r : Reader) : Reader := ⟨r.stack ++ base, r.phase⟩

/-- There is something to be read yet, and what begins has been opened. -/
def Working (r : Reader) : Prop :=
  match r.phase with
  | .done _ => False
  | .firstItem | .firstKey => r.stack ≠ []
  | _ => True

/-- The reader that started above `base` does what the reader did that started alone. -/
inductive Follows (base : List Level) : Reader → Reader → Prop where
  | working {r : Reader} : r.Working → Follows base r (r.above base)
  | done {d : Document} {r : Reader} : deliver d base = some r → Follows base ⟨[], .done d⟩ r

/-- What happens alone happens above `base`. -/
def Tracks (base : List Level) (x x' : Option Reader) : Prop :=
  ∀ r, x = some r → ∃ r', x' = some r' ∧ Follows base r r'

section Embedding

variable {base : List Level} {stack : List Level} {c : Char}

theorem Tracks.none {x' : Option Reader} : Tracks base .none x' := by
  intro r h
  cases h

theorem Tracks.working {r : Reader} (h : r.Working) : Tracks base (some r) (some (r.above base)) := by
  rintro r ⟨⟩
  exact ⟨_, rfl, .working h⟩

theorem Tracks.ite {p : Prop} [Decidable p] {x x' y y' : Option Reader}
    (hx : Tracks base x x') (hy : Tracks base y y') :
    Tracks base (if p then x else y) (if p then x' else y') := by
  by_cases hp : p
  · rw [if_pos hp, if_pos hp]
    exact hx
  · rw [if_neg hp, if_neg hp]
    exact hy

theorem deliver_tracks (hbase : Hungry base) (d : Document) (stack : List Level) :
    Tracks base (deliver d stack) (deliver d (stack ++ base)) := by
  rcases stack with _ | ⟨level, up⟩
  · rintro r ⟨⟩
    obtain ⟨r', hr'⟩ := deliver_of_hungry hbase d
    exact ⟨r', hr', .done hr'⟩
  · cases level with
    | array items => exact .working trivial
    | object members => exact .none
    | entry members key => exact .working trivial

theorem beginValue_tracks : Tracks base (beginValue stack c) (beginValue (stack ++ base) c) := by
  have hopened {level : Level} {phase : Phase} (h : (Reader.mk (level :: stack) phase).Working) :
      Tracks base (some ⟨level :: stack, phase⟩) (some ⟨level :: (stack ++ base), phase⟩) :=
    .working h
  unfold beginValue
  refine .ite (.working trivial) (.ite (hopened (List.cons_ne_nil _ _))
    (.ite (hopened (List.cons_ne_nil _ _)) (.ite (.working trivial) (.ite (.working trivial)
      (.ite (.working trivial) (.ite (.working trivial) ?_))))))
  cases Numeral.extend? {} .sign c with
  | none => exact .none
  | some begun => exact .working trivial

theorem afterValue_tracks (hbase : Hungry base) (level : Level) (up : List Level) :
    Tracks base (afterValue (level :: up) c) (afterValue (level :: up ++ base) c) := by
  refine .ite (.working trivial) ?_
  cases level with
  | array items => exact .ite (.working trivial) (.ite (deliver_tracks hbase _ up) .none)
  | object members => exact .ite (.working trivial) (.ite (deliver_tracks hbase _ up) .none)
  | entry members key => exact .none

/-- A numeral ends with the character after it. -/
theorem deliver_afterAny_tracks (hbase : Hungry base) (d : Document) (stack : List Level) :
    Tracks base ((deliver d stack).bind (·.afterAny c))
      ((deliver d (stack ++ base)).bind (·.afterAny c)) := by
  rcases stack with _ | ⟨level, up⟩
  · intro r h
    obtain ⟨r', hr'⟩ := deliver_of_hungry hbase d
    simp only [deliver, Option.bind_some, afterAny] at h
    split at h
    · next hspace =>
      cases h
      rw [List.nil_append, hr']
      exact ⟨r', (step_of_delivered hr' c).2 hspace, .done hr'⟩
    · cases h
  · cases level with
    | array items => exact afterValue_tracks hbase (.array (d :: items)) up
    | object members => exact .none
    | entry members key => exact afterValue_tracks hbase (.object ((key, d) :: members)) up

theorem step_tracks (hbase : Hungry base) {r s : Reader} (h : Follows base r s) :
    Tracks base (r.step c) (s.step c) := by
  cases h with
  | @done d s hd =>
    intro r hr
    simp only [step, afterAny] at hr
    split at hr
    · next hspace =>
      cases hr
      obtain ⟨hstep, hafter⟩ := step_of_delivered hd c
      exact ⟨s, hstep.trans (hafter hspace), .done hd⟩
    · cases hr
  | working hworking =>
    obtain ⟨stack, phase⟩ := r
    cases phase with
    | done d => exact hworking.elim
    | value => exact .ite (.working trivial) beginValue_tracks
    | firstItem =>
      -- the array that `]` closes is on the stack, and not part of `base`
      have htail : (stack ++ base).tail = stack.tail ++ base := List.tail_append_of_ne_nil hworking
      refine .ite (.working hworking) (.ite ?_ beginValue_tracks)
      dsimp only [above]
      rw [htail]
      exact deliver_tracks hbase _ _
    | firstKey =>
      have htail : (stack ++ base).tail = stack.tail ++ base := List.tail_append_of_ne_nil hworking
      refine .ite (.working hworking) (.ite ?_ (.ite (.working trivial) .none))
      dsimp only [above]
      rw [htail]
      exact deliver_tracks hbase _ _
    | key => exact .ite (.working trivial) (.ite (.working trivial) .none)
    | colon => exact .ite (.working trivial) (.ite (.working trivial) .none)
    | after =>
      rcases stack with _ | ⟨level, up⟩
      · intro r hr
        simp only [step, afterAny, afterValue] at hr
        split at hr
        · next hspace =>
          cases hr
          refine ⟨_, ?_, .working trivial⟩
          exact if_pos hspace
        · cases hr
      · exact afterValue_tracks hbase level up
    | word rest d =>
      rcases rest with _ | ⟨first, _ | ⟨second, rest⟩⟩
      · exact .none
      · exact .ite (deliver_tracks hbase d stack) .none
      · exact .ite (.working trivial) .none
    | numeral n part =>
      simp only [step, above]
      cases n.extend? part c with
      | some extended => exact .working trivial
      | none => exact .ite (deliver_afterAny_tracks hbase _ stack) .none
    | string isKey l =>
      have hextend : Tracks base ((l.extend? c).map fun l => ⟨stack, .string isKey l⟩)
          ((l.extend? c).map fun l => ⟨stack ++ base, .string isKey l⟩) := by
        cases l.extend? c with
        | none => exact .none
        | some extended => exact .working trivial
      simp only [step, above]
      cases l.escape with
      | none =>
        refine .ite (.ite ?_ (deliver_tracks hbase _ stack)) hextend
        rcases stack with _ | ⟨level, up⟩
        · exact .none
        · cases level with
          | array items => exact .none
          | object members => exact .working trivial
          | entry members key => exact .none
      | start => exact hextend
      | hex left unit => exact hextend

/-- The text may be followed by anything that may follow a value. -/
theorem foldlM_tracks (hbase : Hungry base) (text : List Char) : ∀ {r s : Reader},
    Follows base r s → Tracks base (text.foldlM step r) (text.foldlM step s) := by
  induction text with
  | nil =>
    rintro r s h r ⟨⟩
    exact ⟨s, rfl, h⟩
  | cons c rest ih =>
    intro r s h r' hr'
    obtain ⟨next, hnext, hrest⟩ := Option.bind_eq_some_iff.1 hr'
    obtain ⟨next', hnext', hfollows⟩ := step_tracks hbase h next hnext
    rw [List.foldlM_cons, hnext']
    exact ih hfollows r' hrest

end Embedding

theorem reads_of_read? {text : List Char} {d : Document} (h : Document.read? text = some d) :
    Reads text d := by
  intro base hbase
  obtain ⟨r, hr, hfinish⟩ := Option.bind_eq_some_iff.1 h
  have hstart : Follows base start ⟨base, .value⟩ := .working trivial
  obtain ⟨r', hr', hfollows⟩ := foldlM_tracks hbase text hstart r hr
  refine ⟨r', hr', ?_⟩
  cases hfollows with
  | done hd => cases hfinish; exact .delivered hd
  | working hworking =>
    obtain ⟨stack, phase⟩ := r
    cases phase with
    | done d => exact hworking.elim
    | numeral n part =>
      simp only [finish] at hfinish
      split at hfinish
      · next hend =>
        cases hfinish
        obtain rfl : stack = [] := List.isEmpty_iff.1 hend.2
        exact .numeral hend.1 rfl
      · cases hfinish
    | value | firstItem | firstKey | key | colon | after | word _ _ | string _ _ => cases hfinish

/-- The first item of an array is read as any other. -/
theorem foldlM_firstItem {base : List Level} {r : Reader} (hr : r.phase ≠ .value)
    (text : List Char) (h : text.foldlM step ⟨base, .value⟩ = some r) :
    text.foldlM step ⟨base, .firstItem⟩ = some r := by
  induction text with
  | nil =>
    cases h
    exact absurd rfl hr
  | cons c rest ih =>
    rw [List.foldlM_cons] at h ⊢
    simp only [step] at h ⊢
    by_cases hspace : isSpace c = true
    · rw [if_pos hspace] at h ⊢
      exact ih h
    · rw [if_neg hspace] at h ⊢
      by_cases hclose : c = ']'
      · subst hclose
        cases h
      · rw [if_neg hclose]
        exact h

/-- Something is to be read, and blanks may stand before it. -/
def Waits : Phase → Prop
  | .value | .firstItem | .firstKey | .key => True
  | _ => False

theorem foldlM_blank {stack : List Level} (phase : Phase) (hphase : Waits phase)
    {blank : List Char} (h : ∀ c ∈ blank, isSpace c = true) :
    blank.foldlM step ⟨stack, phase⟩ = some ⟨stack, phase⟩ := by
  induction blank with
  | nil => rfl
  | cons c rest ih =>
    have hstep : step ⟨stack, phase⟩ c = some ⟨stack, phase⟩ := by
      have hc : isSpace c = true := h c List.mem_cons_self
      cases phase with
      | value | firstItem | firstKey | key => exact if_pos hc
      | _ => exact hphase.elim
    rw [foldlM_cons_of hstep]
    exact ih fun c' hc' => h c' (List.mem_cons_of_mem c hc')

theorem step_bracket (base : List Level) :
    step ⟨base, .value⟩ '[' = some ⟨.array [] :: base, .firstItem⟩ := rfl

theorem step_brace (base : List Level) :
    step ⟨base, .value⟩ '\x7b' = some ⟨.object [] :: base, .firstKey⟩ := rfl

/-! ## Strings -/

theorem hexValue?_hexDigit (n : Nat) : hexValue? (hexDigit n) = some (n % 16) := by
  have hdigits : ∀ m < 16, hexValue? (Nat.digitChar m) = some m := by decide
  exact hdigits (n % 16) (Nat.mod_lt n (by decide))

theorem step_backslash (stack : List Level) (isKey : Bool) (cs : List Char) :
    step ⟨stack, .string isKey { chars := cs }⟩ '\\' =
      some ⟨stack, .string isKey { chars := cs, escape := .start }⟩ := rfl

/-- A control character that has no letter. -/
theorem foldlM_unit (stack : List Level) (isKey : Bool) (cs : List Char) {c : Char}
    (hc : c.toNat < 32) :
    ['\\', 'u', '0', '0', hexDigit (c.toNat / 16), hexDigit c.toNat].foldlM step
      ⟨stack, .string isKey { chars := cs }⟩ = some ⟨stack, .string isKey { chars := c :: cs }⟩ := by
  have hunit : 16 * (c.toNat / 16 % 16) + c.toNat % 16 = c.toNat := by omega
  have hplain : OpenString.pushUnit { chars := cs, escape := .hex 0 (c.toNat / 16 % 16) } c.toNat =
      { chars := c :: cs } := by
    have hhigh : ¬ 0xD800 ≤ c.toNat := by omega
    have hlow : ¬ 0xDC00 ≤ c.toNat := by omega
    simp [OpenString.pushUnit, hhigh, hlow, Char.ofNat_toNat]
  have hfirst : step ⟨stack, .string isKey { chars := cs, escape := .hex 1 0 }⟩
      (hexDigit (c.toNat / 16)) =
        some ⟨stack, .string isKey { chars := cs, escape := .hex 0 (c.toNat / 16 % 16) }⟩ := by
    simp [step, OpenString.extend?, hexValue?_hexDigit]
  have hsecond : step ⟨stack, .string isKey { chars := cs, escape := .hex 0 (c.toNat / 16 % 16) }⟩
      (hexDigit c.toNat) = some ⟨stack, .string isKey { chars := c :: cs }⟩ := by
    simp [step, OpenString.extend?, hexValue?_hexDigit, hunit, hplain]
  have hzeros : ['\\', 'u', '0', '0'].foldlM step ⟨stack, .string isKey { chars := cs }⟩ =
      some ⟨stack, .string isKey { chars := cs, escape := .hex 1 0 }⟩ := rfl
  show (['\\', 'u', '0', '0'] ++ [hexDigit (c.toNat / 16), hexDigit c.toNat]).foldlM step _ = _
  rw [List.foldlM_append, hzeros]
  simp [hfirst, hsecond]

/-- A character is escaped by a letter, by its code unit or not at all. -/
theorem escape_cases (c : Char) :
    (∃ letter, escape c = ['\\', letter] ∧ letter ≠ 'u' ∧ OpenString.escaped? letter = some c) ∨
    (escape c = ['\\', 'u', '0', '0', hexDigit (c.toNat / 16), hexDigit c.toNat] ∧
      c.toNat < 32) ∨
    (escape c = [c] ∧ c ≠ '"' ∧ c ≠ '\\' ∧ ¬ c.toNat < 32) := by
  by_cases hquote : c = '"'
  · subst hquote; exact .inl ⟨'"', rfl, by decide, rfl⟩
  by_cases hbackslash : c = '\\'
  · subst hbackslash; exact .inl ⟨'\\', rfl, by decide, rfl⟩
  by_cases hfeed : c = '\n'
  · subst hfeed; exact .inl ⟨'n', rfl, by decide, rfl⟩
  by_cases hreturn : c = '\r'
  · subst hreturn; exact .inl ⟨'r', rfl, by decide, rfl⟩
  by_cases htab : c = '\t'
  · subst htab; exact .inl ⟨'t', rfl, by decide, rfl⟩
  by_cases hback : c.toNat = 8
  · obtain rfl : c = Char.ofNat 8 := by rw [← hback, Char.ofNat_toNat]
    exact .inl ⟨'b', rfl, by decide, rfl⟩
  by_cases hpage : c.toNat = 12
  · obtain rfl : c = Char.ofNat 12 := by rw [← hpage, Char.ofNat_toNat]
    exact .inl ⟨'f', rfl, by decide, rfl⟩
  by_cases hcontrol : c.toNat < 32
  · refine .inr (.inl ⟨?_, hcontrol⟩)
    simp only [escape, if_neg hquote, if_neg hbackslash, if_neg hfeed, if_neg hreturn, if_neg htab,
      if_neg hback, if_neg hpage, if_pos hcontrol]
  · refine .inr (.inr ⟨?_, hquote, hbackslash, hcontrol⟩)
    simp only [escape, if_neg hquote, if_neg hbackslash, if_neg hfeed, if_neg hreturn, if_neg htab,
      if_neg hback, if_neg hpage, if_neg hcontrol]

theorem foldlM_escape (stack : List Level) (isKey : Bool) (cs : List Char) (c : Char) :
    (escape c).foldlM step ⟨stack, .string isKey { chars := cs }⟩ =
      some ⟨stack, .string isKey { chars := c :: cs }⟩ := by
  rcases escape_cases c with ⟨letter, hescape, hletter, hc⟩ | ⟨hescape, hc⟩ | ⟨hescape, hplain⟩
  · rw [hescape, foldlM_cons_of (step_backslash stack isKey cs)]
    simp [step, OpenString.extend?, OpenString.push, hletter, hc]
  · rw [hescape]
    exact foldlM_unit stack isKey cs hc
  · obtain ⟨hquote, hbackslash, hcontrol⟩ := hplain
    rw [hescape]
    simp [step, OpenString.extend?, OpenString.push, hquote, hbackslash, hcontrol]

theorem foldlM_escapes (stack : List Level) (isKey : Bool) (text : List Char) : ∀ cs : List Char,
    (text.flatMap escape).foldlM step ⟨stack, .string isKey { chars := cs }⟩ =
      some ⟨stack, .string isKey { chars := text.reverse ++ cs }⟩ := by
  induction text with
  | nil => intro cs; rfl
  | cons c rest ih =>
    intro cs
    rw [List.flatMap_cons, List.foldlM_append, foldlM_escape]
    show (rest.flatMap escape).foldlM step _ = _
    rw [ih, List.reverse_cons, List.append_assoc, List.singleton_append]

theorem quoted_toList (s : String) : (quoted s).toList = '"' :: (s.toList.flatMap escape ++ ['"']) := by
  simp [quoted]

/-- A key and the colon after it. -/
theorem foldlM_key {members : List (Option String × Document)} {up : List Level} {phase : Phase}
    (h : phase = .key ∨ phase = .firstKey) (k : String) :
    ((quoted k).toList ++ [':']).foldlM step ⟨.object members :: up, phase⟩ =
      some ⟨.entry members (some k) :: up, .value⟩ := by
  have hopen : step ⟨.object members :: up, phase⟩ '"' =
      some ⟨.object members :: up, .string true { chars := [] }⟩ := by
    rcases h with rfl | rfl <;> rfl
  have htext : OpenString.text { chars := k.toList.reverse ++ [] } = some k := by
    simp [OpenString.text]
  rw [quoted_toList, List.cons_append, List.foldlM_cons, hopen]
  show ((k.toList.flatMap escape ++ ['"']) ++ [':']).foldlM step _ = _
  rw [List.foldlM_append, List.foldlM_append, foldlM_escapes]
  show step ⟨.entry members (OpenString.text { chars := k.toList.reverse ++ [] }) :: up, .colon⟩ ':'
    >>= pure = _
  rw [htext]
  rfl

theorem reads_quoted (s : String) : Reads (quoted s).toList (.string (some s)) := by
  intro base hbase
  obtain ⟨r, hr⟩ := deliver_of_hungry hbase (.string (some s))
  refine ⟨r, ?_, .delivered hr⟩
  have htext : OpenString.text { chars := s.toList.reverse ++ [] } = some s := by
    simp [OpenString.text]
  rw [quoted_toList, List.foldlM_cons]
  show (s.toList.flatMap escape ++ ['"']).foldlM step ⟨base, .string false { chars := [] }⟩ = _
  rw [List.foldlM_append, foldlM_escapes]
  show deliver (.string (OpenString.text { chars := s.toList.reverse ++ [] })) base >>= pure = _
  rw [htext, hr]
  rfl

/-! ## Numerals -/

theorem digitValue?_digitChar {k : Nat} (h : k < 10) : digitValue? (Nat.digitChar k) = some k := by
  have hdigits : ∀ k < 10, digitValue? (Nat.digitChar k) = some k := by decide
  exact hdigits k h

/-- Which part of a whole numeral ends with its last digit. -/
def wholePart (m : Nat) : NumeralPart := if m = 0 then .zero else .whole

theorem foldlM_digits (base : List Level) (negative : Bool) (m : Nat) :
    (Nat.toDigits 10 m).foldlM step ⟨base, .numeral { negative := negative } .sign⟩ =
      some ⟨base, .numeral { negative := negative, digits := m } (wholePart m)⟩ := by
  induction m using Nat.strongRecOn with
  | _ m ih =>
    by_cases hm : m < 10
    · rw [Nat.toDigits_of_lt_base hm]
      by_cases hzero : m = 0
      · subst hzero; rfl
      · simp [step, Numeral.extend?, digitValue?_digitChar hm, wholePart, hzero]
    · have htens : m / 10 ≠ 0 := by omega
      have hdigit : m % 10 < 10 := Nat.mod_lt m (by decide)
      have hm' : 10 * (m / 10) + m % 10 = m := by omega
      have hne : m ≠ 0 := by omega
      rw [Nat.toDigits_of_base_le (by decide) (by omega), List.foldlM_append,
        ih (m / 10) (by omega)]
      simp [step, Numeral.extend?, digitValue?_digitChar hdigit, wholePart, htens, hm', hne]

/-- A numeral without a sign begins where a value may. -/
theorem foldlM_digits_value (base : List Level) (m : Nat) :
    (Nat.toDigits 10 m).foldlM step ⟨base, .value⟩ =
      (Nat.toDigits 10 m).foldlM step ⟨base, .numeral {} .sign⟩ := by
  induction m using Nat.strongRecOn with
  | _ m ih =>
    by_cases hm : m < 10
    · rw [Nat.toDigits_of_lt_base hm]
      have hcases : m = 0 ∨ m = 1 ∨ m = 2 ∨ m = 3 ∨ m = 4 ∨ m = 5 ∨ m = 6 ∨ m = 7 ∨ m = 8 ∨ m = 9 := by
        omega
      rcases hcases with rfl | rfl | rfl | rfl | rfl | rfl | rfl | rfl | rfl | rfl <;> rfl
    · rw [Nat.toDigits_of_base_le (by decide) (by omega), List.foldlM_append, List.foldlM_append,
        ih (m / 10) (by omega)]

theorem wholePart_complete (m : Nat) : (wholePart m).complete = true := by
  unfold wholePart
  split <;> rfl

theorem reads_nat {m : Nat} (h : m < powTwo 64) :
    Reads (toString (m : Int)).toList (.number (some (.int m))) := by
  intro base _
  have htext : (toString (m : Int)).toList = Nat.toDigits 10 m := String.toList_ofList
  refine ⟨⟨base, .numeral { digits := m } (wholePart m)⟩, ?_, ?_⟩
  · rw [htext, foldlM_digits_value, foldlM_digits]
  · refine .numeral (wholePart_complete m) ?_
    simp [Numeral.value?, h]

theorem reads_negative {m : Nat} (h : m + 1 ≤ powTwo 63) :
    Reads (toString (Int.negSucc m)).toList (.number (some (.int (Int.negSucc m)))) := by
  intro base _
  have htext : (toString (Int.negSucc m)).toList = '-' :: Nat.toDigits 10 (m + 1) := by
    show ("-" ++ Nat.repr (m + 1)).toList = _
    rw [String.toList_append]
    simp [Nat.repr]
  refine ⟨⟨base, .numeral { negative := true, digits := m + 1 } (wholePart (m + 1))⟩, ?_, ?_⟩
  · rw [htext, List.foldlM_cons]
    exact foldlM_digits base true (m + 1)
  · refine .numeral (wholePart_complete (m + 1)) ?_
    simp [Numeral.value?, h, Int.negSucc_eq]

end Reader

/-- The text of the number reads back. An integer must fit 64 bits; of a double it is assumed. -/
def Number.Legible : Number → Prop
  | .int n => -powTwo 63 ≤ n ∧ n < powTwo 64
  | .float x => ∃ text, mixedText? x = some text ∧
      Document.read? text.toList = some (.number (some (.float x)))

theorem Number.Legible.reads {n : Number} (h : n.Legible) :
    Reader.Reads n.text.toList (.number (some n)) := by
  cases n with
  | int n =>
    obtain ⟨hlow, hhigh⟩ := h
    cases n with
    | ofNat m => exact Reader.reads_nat (Int.ofNat_lt.1 hhigh)
    | negSucc m =>
      refine Reader.reads_negative ?_
      rw [Int.negSucc_eq] at hlow
      omega
  | float x =>
    obtain ⟨text, htext, hread⟩ := h
    rw [Number.text, htext]
    exact Reader.reads_of_read? hread

/-! ## Values -/

mutual

def numbers : Json → List Number
  | .number n => [n]
  | .array items => numbersOfItems items
  | .object members => numbersOfMembers members
  | .null | .bool _ | .string _ => []

def numbersOfItems : List Json → List Number
  | [] => []
  | j :: rest => numbers j ++ numbersOfItems rest

def numbersOfMembers : List (String × Json) → List Number
  | [] => []
  | (_, j) :: rest => numbers j ++ numbersOfMembers rest

end

open Reader Document

/-! ## Texts of values -/

/-- How the text of a value is spread out: what stands before items and closing brackets at a
nesting level, and what stands after a colon. -/
structure Layout where
  line : Nat → List Char
  gap : List Char
  line_blank (n : Nat) : ∀ c ∈ line n, isSpace c = true
  gap_blank : ∀ c ∈ gap, isSpace c = true

mutual

/-- The text of a value whose first line stands at nesting level `n`. -/
def spelled (l : Layout) (n : Nat) : Json → List Char
  | .null => "null".toList
  | .bool b => (if b then "true" else "false").toList
  | .number x => x.text.toList
  | .string s => (quoted s).toList
  | .array [] => "[]".toList
  | .array (j :: rest) =>
    '[' :: (l.line (n + 1) ++ (spelled l (n + 1) j ++
      (spelledItems l (n + 1) rest ++ (l.line n ++ [']']))))
  | .object [] => "\x7b\x7d".toList
  | .object ((k, j) :: rest) =>
    '\x7b' :: (l.line (n + 1) ++ (((quoted k).toList ++ [':']) ++ (l.gap ++ (spelled l (n + 1) j ++
      (spelledMembers l (n + 1) rest ++ (l.line n ++ ['\x7d']))))))

/-- The items after the first, each after a comma. -/
def spelledItems (l : Layout) (n : Nat) : List Json → List Char
  | [] => []
  | j :: rest => ',' :: (l.line n ++ (spelled l n j ++ spelledItems l n rest))

def spelledMembers (l : Layout) (n : Nat) : List (String × Json) → List Char
  | [] => []
  | (k, j) :: rest =>
    ',' :: (l.line n ++ (((quoted k).toList ++ [':']) ++ (l.gap ++ (spelled l n j ++
      spelledMembers l n rest))))

end

mutual

/-- However it is spread out, the text of a value is read as its tree, if the texts of its numbers
are. -/
theorem reads_spelled (l : Layout) : ∀ (n : Nat) (j : Json), (∀ x ∈ j.numbers, x.Legible) →
    Reads (spelled l n j) (ofJson j)
  | _, .null, _ => reads_of_read? rfl
  | _, .bool true, _ => reads_of_read? rfl
  | _, .bool false, _ => reads_of_read? rfl
  | _, .number x, h => by
    rw [spelled]
    exact (h x (List.mem_singleton.2 rfl)).reads
  | _, .string s, _ => by
    rw [spelled]
    exact reads_quoted s
  | _, .array [], _ => reads_of_read? rfl
  | n, .array (j :: rest), h => by
    intro base hbase
    obtain ⟨r, hr⟩ := deliver_of_hungry hbase (ofJson (.array (j :: rest)))
    obtain ⟨r', hread, hended⟩ := reads_spelled l (n + 1) j
      (fun x hx => h x (List.mem_append_left _ hx)) (.array [] :: base) trivial
    have hitems := foldlM_items l (n + 1) rest (fun x hx => h x (List.mem_append_right _ hx))
      (l.line n) (l.line_blank n) _ _ _ _ hended
    refine ⟨r, ?_, .delivered hr⟩
    rw [spelled, foldlM_cons_of (step_bracket base),
      foldlM_append_of (foldlM_blank .firstItem trivial (l.line_blank (n + 1))),
      foldlM_append_of (foldlM_firstItem hended.phase_ne _ hread)]
    exact hitems.trans hr
  | _, .object [], _ => reads_of_read? rfl
  | n, .object ((k, j) :: rest), h => by
    intro base hbase
    obtain ⟨r, hr⟩ := deliver_of_hungry hbase (ofJson (.object ((k, j) :: rest)))
    obtain ⟨r', hread, hended⟩ := reads_spelled l (n + 1) j
      (fun x hx => h x (List.mem_append_left _ hx)) (.entry [] (some k) :: base) trivial
    have hmembers := foldlM_members l (n + 1) rest (fun x hx => h x (List.mem_append_right _ hx))
      (l.line n) (l.line_blank n) _ _ _ _ _ hended
    refine ⟨r, ?_, .delivered hr⟩
    rw [spelled, foldlM_cons_of (step_brace base),
      foldlM_append_of (foldlM_blank .firstKey trivial (l.line_blank (n + 1))),
      foldlM_append_of (foldlM_key (.inr rfl) k),
      foldlM_append_of (foldlM_blank .value trivial l.gap_blank),
      foldlM_append_of hread]
    exact hmembers.trans hr

/-- The items after `d`, up to the end of the array. -/
theorem foldlM_items (l : Layout) : ∀ (n : Nat) (rest : List Json),
    (∀ x ∈ numbersOfItems rest, x.Legible) →
    ∀ (last : List Char), (∀ c ∈ last, isSpace c = true) →
    ∀ (d : Document) (items : List Document) (base : List Level) (r : Reader),
      Ended d (.array items :: base) r →
      (spelledItems l n rest ++ (last ++ [']'])).foldlM step r =
        deliver (.array (items.reverse ++ d :: ofItems rest)) base
  | _, [], _ => by
    intro last hlast d items base r hended
    obtain ⟨r', hblank, hended'⟩ := hended.foldlM_blank trivial hlast
    rw [spelledItems, List.nil_append, foldlM_append_of hblank]
    show step r' ']' >>= pure = _
    rw [hended'.step (.inr (.inl rfl)), bind_pure, ofItems, List.append_cons, List.append_nil,
      ← List.reverse_cons]
    rfl
  | n, j :: rest, h => by
    intro last hlast d items base r hended
    obtain ⟨r', hread, hended'⟩ := reads_spelled l n j
      (fun x hx => h x (List.mem_append_left _ hx)) (.array (d :: items) :: base) trivial
    have hitems := foldlM_items l n rest (fun x hx => h x (List.mem_append_right _ hx)) last hlast
      _ _ _ _ hended'
    have hcomma : step r ',' = some ⟨.array (d :: items) :: base, .value⟩ := hended.step (.inl rfl)
    rw [spelledItems, List.cons_append, foldlM_cons_of hcomma, List.append_assoc, List.append_assoc,
      foldlM_append_of (foldlM_blank .value trivial (l.line_blank n)), foldlM_append_of hread, hitems,
      ofItems, List.append_cons _ d, ← List.reverse_cons]

/-- The members after `key` and `d`, up to the end of the object. -/
theorem foldlM_members (l : Layout) : ∀ (n : Nat) (rest : List (String × Json)),
    (∀ x ∈ numbersOfMembers rest, x.Legible) →
    ∀ (last : List Char), (∀ c ∈ last, isSpace c = true) →
    ∀ (d : Document) (members : List (Option String × Document)) (key : Option String)
      (base : List Level) (r : Reader), Ended d (.entry members key :: base) r →
      (spelledMembers l n rest ++ (last ++ ['\x7d'])).foldlM step r =
        deliver (.object (members.reverse ++ (key, d) :: ofMembers rest)) base
  | _, [], _ => by
    intro last hlast d members key base r hended
    obtain ⟨r', hblank, hended'⟩ := hended.foldlM_blank trivial hlast
    rw [spelledMembers, List.nil_append, foldlM_append_of hblank]
    show step r' '\x7d' >>= pure = _
    rw [hended'.step (.inr (.inr rfl)), bind_pure, ofMembers, List.append_cons, List.append_nil,
      ← List.reverse_cons]
    rfl
  | n, (k, j) :: rest, h => by
    intro last hlast d members key base r hended
    obtain ⟨r', hread, hended'⟩ := reads_spelled l n j
      (fun x hx => h x (List.mem_append_left _ hx)) (.entry ((key, d) :: members) (some k) :: base)
      trivial
    have hmembers := foldlM_members l n rest (fun x hx => h x (List.mem_append_right _ hx)) last
      hlast _ _ _ _ _ hended'
    have hcomma : step r ',' = some ⟨.object ((key, d) :: members) :: base, .key⟩ :=
      hended.step (.inl rfl)
    rw [spelledMembers, List.cons_append, foldlM_cons_of hcomma, List.append_assoc,
      foldlM_append_of (foldlM_blank .key trivial (l.line_blank n)), List.append_assoc,
      foldlM_append_of (foldlM_key (.inl rfl) k), List.append_assoc,
      foldlM_append_of (foldlM_blank .value trivial l.gap_blank), List.append_assoc,
      foldlM_append_of hread, hmembers, ofMembers, List.append_cons _ (key, d), ← List.reverse_cons]

end

/-! ## The two layouts -/

def Layout.compact : Layout where
  line _ := []
  gap := []
  line_blank _ := List.forall_mem_nil _
  gap_blank := List.forall_mem_nil _

mutual

theorem compact_toList : ∀ (n : Nat) (j : Json), j.compact.toList = spelled .compact n j
  | _, .null | _, .bool _ | _, .number _ | _, .string _ | _, .array [] | _, .object [] => by
    simp only [Json.compact, spelled]
  | n, .array (j :: rest) => by
    simp only [Json.compact, spelled, Layout.compact, String.toList_append,
      compact_toList (n + 1) j, compactItems_toList (n + 1) rest]
    simp
  | n, .object ((k, j) :: rest) => by
    simp only [Json.compact, spelled, Layout.compact, String.toList_append,
      compact_toList (n + 1) j, compactMembers_toList (n + 1) rest]
    simp

theorem compactItems_toList : ∀ (n : Nat) (items : List Json),
    (compactItems items).toList = spelledItems .compact n items
  | _, [] => rfl
  | n, j :: rest => by
    simp only [compactItems, spelledItems, Layout.compact, String.toList_append,
      compact_toList n j, compactItems_toList n rest]
    simp

theorem compactMembers_toList : ∀ (n : Nat) (members : List (String × Json)),
    (compactMembers members).toList = spelledMembers .compact n members
  | _, [] => rfl
  | n, (k, j) :: rest => by
    simp only [compactMembers, spelledMembers, Layout.compact, String.toList_append,
      compact_toList n j, compactMembers_toList n rest]
    simp

end

theorem reads_compact (j : Json) (h : ∀ n ∈ j.numbers, n.Legible) :
    Reads j.compact.toList (ofJson j) := by
  rw [compact_toList 0 j]
  exact reads_spelled .compact 0 j h

def Layout.pretty : Layout where
  line n := (newline n).toList
  gap := [' ']
  line_blank n := by
    intro c hc
    simp only [newline, String.toList_append, String.toList_ofList, List.mem_append] at hc
    rcases hc with hc | hc
    · rw [List.mem_singleton.1 hc]
      rfl
    · rw [List.eq_of_mem_replicate hc]
      rfl
  gap_blank := by
    intro c hc
    rw [List.mem_singleton.1 hc]
    rfl

mutual

theorem prettyAt_toList : ∀ (n : Nat) (j : Json), (prettyAt n j).toList = spelled .pretty n j
  | _, .null | _, .bool _ | _, .number _ | _, .string _ | _, .array [] | _, .object [] => by
    simp only [prettyAt, spelled]
  | n, .array (j :: rest) => by
    simp only [prettyAt, spelled, Layout.pretty, String.toList_append,
      prettyAt_toList (n + 1) j, prettyItems_toList (n + 1) rest]
    simp
  | n, .object ((k, j) :: rest) => by
    simp only [prettyAt, spelled, Layout.pretty, String.toList_append,
      prettyAt_toList (n + 1) j, prettyMembers_toList (n + 1) rest]
    simp

theorem prettyItems_toList : ∀ (n : Nat) (items : List Json),
    (prettyItems n items).toList = spelledItems .pretty n items
  | _, [] => rfl
  | n, j :: rest => by
    simp only [prettyItems, spelledItems, Layout.pretty, String.toList_append,
      prettyAt_toList n j, prettyItems_toList n rest]
    simp

theorem prettyMembers_toList : ∀ (n : Nat) (members : List (String × Json)),
    (prettyMembers n members).toList = spelledMembers .pretty n members
  | _, [] => rfl
  | n, (k, j) :: rest => by
    simp only [prettyMembers, spelledMembers, Layout.pretty, String.toList_append,
      prettyAt_toList n j, prettyMembers_toList n rest]
    simp

end

theorem reads_pretty (j : Json) (h : ∀ n ∈ j.numbers, n.Legible) :
    Reads j.pretty.toList (ofJson j) := by
  rw [pretty, prettyAt_toList 0 j]
  exact reads_spelled .pretty 0 j h

end Json
end StepScript
