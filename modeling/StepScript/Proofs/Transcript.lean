import Mathlib.Data.List.Induction

/-!
# StepScript.Proofs.Transcript

Requests in a row to something that has a state.

* `attempted`  — a change that may fail, with its answer and the state after it.
* `transcript` — requests with their answers, and the state after them. `transcript_keeps` — what
  each request keeps, all of them do.
-/

namespace StepScript

variable {σ ρ ε α : Type}

/-- The answer to a change that may fail, and the state after it, which is `s` if it fails. -/
def attempted (s : σ) (done : α) : Except ε σ → Except ε α × σ
  | .ok s' => (.ok done, s')
  | .error e => (.error e, s)

theorem attempted_unchanged {s : σ} {done : α} {change : Except ε σ} {e : ε}
    (h : (attempted s done change).1 = .error e) : (attempted s done change).2 = s := by
  cases change with
  | error => rfl
  | ok => cases h

/-- Requests in order, each with its answer, and the state after them. -/
def transcript (perform : σ → ρ → α × σ) (s : σ) (requests : List ρ) : List (ρ × α) × σ :=
  requests.foldl (fun t r => (t.1 ++ [(r, (perform t.2 r).1)], (perform t.2 r).2)) ([], s)

theorem transcript_concat (perform : σ → ρ → α × σ) (s : σ) (requests : List ρ) (r : ρ) :
    let t := transcript perform s requests
    transcript perform s (requests ++ [r]) =
      (t.1 ++ [(r, (perform t.2 r).1)], (perform t.2 r).2) := by
  simp [transcript]

theorem transcript_requests (perform : σ → ρ → α × σ) (s : σ) (requests : List ρ) :
    (transcript perform s requests).1.map Prod.fst = requests := by
  induction requests using List.reverseRecOn with
  | nil => rfl
  | append_singleton requests r ih => simp [transcript_concat, ih]

theorem transcript_keeps {perform : σ → ρ → α × σ} {s : σ} {P : List (ρ × α) → σ → Prop}
    (hstart : P [] s)
    (hstep : ∀ log s r, P log s → P (log ++ [(r, (perform s r).1)]) (perform s r).2)
    (requests : List ρ) :
    P (transcript perform s requests).1 (transcript perform s requests).2 := by
  induction requests using List.reverseRecOn with
  | nil => exact hstart
  | append_singleton requests r ih =>
    rw [transcript_concat]
    exact hstep _ _ r ih

end StepScript
