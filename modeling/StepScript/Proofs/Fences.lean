import Mathlib.Data.List.DropRight
import StepScript.Proofs.Envelopes

/-!
# StepScript.Proofs.Fences

Replies in code fences.

* `Text.Blank`       — nothing but blanks. Before and after a text they do not change what is left
  of it when it is trimmed.
* `Envelope.fenced`  — a text in a code fence: a language tag on the first line, the closing fence
  on a line of its own, blanks around it all.
* `Envelope.unfenced_fenced` — taking the fence off leaves the text itself, trimmed.
* `Envelope.parse_fenced` — so a fence makes no difference to what is read.
-/

namespace StepScript

namespace Text

def Blank (cs : List Char) : Prop := ∀ c ∈ cs, isBlank c = true

variable {blanks : List Char}

theorem trimStart_blank (h : Blank blanks) (cs : List Char) :
    trimStart (blanks ++ cs) = trimStart cs :=
  List.dropWhile_append_of_pos h

theorem trimEnd_blank (h : Blank blanks) (cs : List Char) :
    trimEnd (cs ++ blanks) = trimEnd cs := by
  have hreverse : ∀ c ∈ blanks.reverse, isBlank c = true := fun c hc =>
    h c (List.mem_reverse.1 hc)
  simp only [trimEnd, List.reverse_append, List.dropWhile_append_of_pos hreverse]

theorem trimStart_of_first {c : Char} (hc : isBlank c = false) (cs : List Char) :
    trimStart (c :: cs) = c :: cs :=
  List.dropWhile_cons_of_neg (by simp [hc])

theorem trimEnd_of_last {c : Char} (hc : isBlank c = false) (cs : List Char) :
    trimEnd (cs ++ [c]) = cs ++ [c] :=
  List.rdropWhile_concat_neg isBlank cs c (by simp [hc])

theorem trim_eq_nil_iff (cs : List Char) : trim cs = [] ↔ Blank cs := by
  constructor
  · intro h
    have hend : Blank (trimStart cs) := List.rdropWhile_eq_nil_iff.1 h
    -- what is left at the start begins with a character that is no blank, if it begins at all
    have hstart : trimStart (trimStart cs) = [] := List.dropWhile_eq_nil_iff.2 hend
    have hidem : trimStart (trimStart cs) = trimStart cs := List.dropWhile_idempotent isBlank cs
    rw [hidem] at hstart
    exact List.dropWhile_eq_nil_iff.1 hstart
  · intro h
    have hstart : trimStart cs = [] := List.dropWhile_eq_nil_iff.2 h
    rw [trim, hstart]
    rfl

/-- Blanks after a text are trimmed, even if there is nothing else in the text. -/
theorem trim_blank_end (h : Blank blanks) (cs : List Char) : trim (cs ++ blanks) = trim cs := by
  by_cases hempty : trimStart cs = []
  · have hcs : Blank cs := List.dropWhile_eq_nil_iff.1 hempty
    have hall : Blank (cs ++ blanks) := fun c hc => (List.mem_append.1 hc).elim (hcs c) (h c)
    rw [(trim_eq_nil_iff _).2 hall, (trim_eq_nil_iff _).2 hcs]
  · have hsplit : trimStart (cs ++ blanks) = trimStart cs ++ blanks := by
      have hne : ¬ (cs.dropWhile isBlank).isEmpty = true := fun he =>
        hempty (List.isEmpty_iff.1 he)
      simp only [trimStart, List.dropWhile_append, if_neg hne]
    rw [trim, hsplit, trimEnd_blank h, trim]

end Text

namespace Envelope

open Text

/-- A text in a code fence, with blanks before and after it. -/
def fenced (before tag text after : String) : String :=
  before ++ "```" ++ tag ++ "\n" ++ text ++ "\n```" ++ after

/-- What stands between the blanks. -/
theorem fenced_toList (before tag text after : String) :
    (fenced before tag text after).toList = before.toList ++
      ((fence ++ (tag.toList ++ '\n' :: (text.toList ++ '\n' :: fence))) ++ after.toList) := by
  have hopens : "```".toList = fence := by decide
  have hcloses : "\n```".toList = '\n' :: fence := by decide
  have hbreak : "\n".toList = ['\n'] := by decide
  simp only [fenced, String.toList_append, List.append_assoc, hopens, hcloses, hbreak,
    List.cons_append, List.nil_append]

theorem trim_fenced {before after : List Char} (hbefore : Blank before) (hafter : Blank after)
    (inner : List Char) :
    trim (before ++ ((fence ++ (inner ++ fence)) ++ after)) = fence ++ (inner ++ fence) := by
  have hmark : isBlank '\x60' = false := by decide
  have hend : fence ++ (inner ++ fence) = (fence ++ inner ++ ['\x60', '\x60']) ++ ['\x60'] := by
    simp [fence]
  have hstart : trimStart ((fence ++ (inner ++ fence)) ++ after) =
      (fence ++ (inner ++ fence)) ++ after :=
    trimStart_of_first hmark _
  rw [trim, trimStart_blank hbefore, hstart, trimEnd_blank hafter, hend, trimEnd_of_last hmark]

/-- A tag has no line break, so the fence's line ends after the tag. -/
theorem afterLine_tag {tag : List Char} (htag : '\n' ∉ tag) (rest : List Char) :
    afterLine (tag ++ '\n' :: rest) = some rest := by
  induction tag with
  | nil => rfl
  | cons c tag ih =>
    simp only [List.mem_cons, not_or] at htag
    simp only [List.cons_append, afterLine, if_neg (Ne.symm htag.1), ih htag.2]

/-- Backticks in the tag or at the end of the text stay where they are: one fence is taken off on
either side. -/
theorem unfenced_fenced {tag : List Char} (htag : '\n' ∉ tag) (text : List Char) :
    unfenced (fence ++ (tag ++ '\n' :: (text ++ '\n' :: fence))) = trim text := by
  have hbreak : Blank ['\n'] := fun c hc => by
    rw [List.mem_singleton.1 hc]
    decide
  have hmark : isBlank '\x60' = false := by decide
  have hopens : fence.isPrefixOf (fence ++ (tag ++ '\n' :: (text ++ '\n' :: fence))) = true :=
    List.isPrefixOf_iff_prefix.2 (List.prefix_append _ _)
  have hbody : text ++ '\n' :: fence = (text ++ ['\n']) ++ fence := by simp
  have hend : trimEnd ((text ++ ['\n']) ++ fence) = (text ++ ['\n']) ++ fence := by
    have hlast : (text ++ ['\n']) ++ fence =
        (text ++ ['\n'] ++ ['\x60', '\x60']) ++ ['\x60'] := by
      simp [fence]
    rw [hlast, trimEnd_of_last hmark]
  have hcloses : fence.isSuffixOf ((text ++ ['\n']) ++ fence) = true :=
    List.isSuffixOf_iff_suffix.2 (List.suffix_append _ _)
  have htake : ((text ++ ['\n']) ++ fence).take
      (((text ++ ['\n']) ++ fence).length - fence.length) = text ++ ['\n'] := by
    rw [List.length_append, Nat.add_sub_cancel]
    exact List.take_left
  rw [unfenced, if_pos hopens]
  simp only [List.drop_left, afterLine_tag htag, Option.getD_some, hbody, hend, hcloses, if_true,
    htake]
  exact trim_blank_end hbreak text

theorem unfenced_of_open {text : List Char} (h : ¬ fence <+: text) : unfenced text = text := by
  have hopens : ¬ fence.isPrefixOf text = true := fun hp => h (List.isPrefixOf_iff_prefix.1 hp)
  simp only [unfenced, if_neg hopens]

/-- What is read is what is left when blanks and a fence are taken off. -/
theorem parse_congr {reply reply' : String}
    (h : unfenced (trim reply.toList) = unfenced (trim reply'.toList)) :
    parse reply = parse reply' := by
  unfold parse
  rw [h]

theorem parse_eq_empty_iff (reply : String) :
    parse reply = .error .empty ↔ unfenced (trim reply.toList) = [] := by
  unfold parse
  split
  · rename_i hnil
    exact ⟨fun _ => hnil, fun _ => rfl⟩
  · rename_i hne
    refine ⟨fun h => ?_, fun h => absurd h hne⟩
    split at h <;> cases h

/-- Code fences are transparent. Whatever the language tag is, and whatever blanks stand around the
fence, a reply that is not fenced itself is read in a fence as it is read without: as the same
envelope, or with the same kind of failure. It is empty exactly if there is nothing but blanks in
the fence. -/
theorem parse_fenced (before tag s after : String) (hbefore : Blank before.toList)
    (hafter : Blank after.toList) (htag : '\n' ∉ tag.toList) (hs : ¬ fence <+: trim s.toList) :
    parse (fenced before tag s after) = parse s ∧
      (parse (fenced before tag s after) = .error .empty ↔ Blank s.toList) := by
  have hinside : unfenced (trim (fenced before tag s after).toList) = trim s.toList := by
    have hinner : tag.toList ++ '\n' :: (s.toList ++ '\n' :: fence) =
        (tag.toList ++ '\n' :: (s.toList ++ ['\n'])) ++ fence := by
      simp
    rw [fenced_toList, hinner, trim_fenced hbefore hafter, ← hinner]
    exact unfenced_fenced htag s.toList
  refine ⟨parse_congr ?_, ?_⟩
  · rw [hinside, unfenced_of_open hs]
  · rw [parse_eq_empty_iff, hinside, trim_eq_nil_iff]

/-- A tag with a backtick and a carriage return in it, blanks that are no spaces, and a blank after
the envelope; and a fence around nothing but blanks. -/
theorem parse_fenced_of_reply :
    let s := "\x7b\"actions\": \"run\", \"loop\": \x7b\"signal\": \"done\"\x7d\x7d\t"
    let before := "\u3000"
    let tag := "json```\r"
    let after := "\u0085\n"
    (Blank before.toList ∧ Blank after.toList ∧ '\n' ∉ tag.toList ∧ ¬ fence <+: trim s.toList) ∧
      parse (fenced before tag s after) =
        .ok { actions := .string "run", control := { signal := some "done" } } ∧
      parse (fenced "" "" "\t" "") = .error .empty := by
  intro s before tag after
  have hbefore : Blank before.toList :=
    List.all_eq_true.1 (by decide : before.toList.all isBlank = true)
  have hafter : Blank after.toList :=
    List.all_eq_true.1 (by decide : after.toList.all isBlank = true)
  have htag : '\n' ∉ tag.toList := by decide
  have hs : ¬ fence <+: trim s.toList := by decide
  have hempty : Blank "".toList := fun c hc => absurd hc List.not_mem_nil
  obtain ⟨hread, -⟩ := parse_fenced before tag s after hbefore hafter htag hs
  obtain ⟨-, hblank⟩ := parse_fenced "" "" "\t" "" hempty hempty (by decide) (by decide)
  refine ⟨⟨hbefore, hafter, htag, hs⟩, ?_, hblank.2 ?_⟩
  · rw [hread]
    dsimp only [s]
    rfl
  · exact List.all_eq_true.1 (by decide : "\t".toList.all isBlank = true)

end Envelope
end StepScript
