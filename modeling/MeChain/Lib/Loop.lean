import Mathlib.Logic.Basic

/-!
# Loops that run until they return

A pass of a loop goes round again with a new state, returns a value, or fails.  The program of such
a loop is `loop`, which is given the number of passes it may make; what the loop means is `Runs`,
which has no bound.

* `loop_runs`      a measure that every pass decreases bounds the passes: `loop` does what `Runs` says;
* `Runs.unique`    a loop has one outcome, so `loop_eq_iff` settles an outcome from either side;
* `Runs.done_of`   the run rule: what every pass keeps holds where the loop returns;
* `Runs.fails_of`  the same for the errors it may end with.
-/

namespace Loop

/-- what a pass leaves to do -/
inductive Turn (σ β : Type) where
  | again (s : σ)
  | done (b : β)
deriving DecidableEq, Repr

section
variable {ε σ β : Type}

def loop (step : σ → Except ε (Turn σ β)) (stuck : ε) : Nat → σ → Except ε β
  | 0, _ => .error stuck
  | passes + 1, s =>
    match step s with
    | .error e => .error e
    | .ok (.done b) => .ok b
    | .ok (.again s') => loop step stuck passes s'

/-- the outcome of a loop started at a state -/
inductive Runs (step : σ → Except ε (Turn σ β)) : σ → Except ε β → Prop
  | fails {s : σ} {e : ε} : step s = .error e → Runs step s (.error e)
  | done {s : σ} {b : β} : step s = .ok (.done b) → Runs step s (.ok b)
  | again {s s' : σ} {r : Except ε β} : step s = .ok (.again s') → Runs step s' r → Runs step s r

variable {step : σ → Except ε (Turn σ β)} {stuck : ε}

theorem loop_again {passes : Nat} {s s' : σ} (h : step s = .ok (.again s')) :
    loop step stuck (passes + 1) s = loop step stuck passes s' := by
  rw [loop, h]

theorem loop_done {passes : Nat} {s : σ} {b : β} (h : step s = .ok (.done b)) :
    loop step stuck (passes + 1) s = .ok b := by
  rw [loop, h]

theorem loop_fails {passes : Nat} {s : σ} {e : ε} (h : step s = .error e) :
    loop step stuck (passes + 1) s = .error e := by
  rw [loop, h]

theorem Runs.unique {s : σ} {r r' : Except ε β} (h : Runs step s r) (h' : Runs step s r') :
    r = r' := by
  induction h with
  | fails hs =>
    cases h' with
    | fails hs' => rw [hs] at hs'; cases hs'; rfl
    | done hs' => rw [hs] at hs'; cases hs'
    | again hs' _ => rw [hs] at hs'; cases hs'
  | done hs =>
    cases h' with
    | fails hs' => rw [hs] at hs'; cases hs'
    | done hs' => rw [hs] at hs'; cases hs'; rfl
    | again hs' _ => rw [hs] at hs'; cases hs'
  | again hs _ ih =>
    cases h' with
    | fails hs' => rw [hs] at hs'; cases hs'
    | done hs' => rw [hs] at hs'; cases hs'
    | again hs' hr => rw [hs] at hs'; cases hs'; exact ih hr

/-- A pass that goes round again keeps the invariant and decreases the measure, so a loop with more
passes than the measure at its start never runs out of them. -/
theorem loop_runs {I : σ → Prop} (μ : σ → Nat)
    (hstep : ∀ s s', I s → step s = .ok (.again s') → I s' ∧ μ s' < μ s) {passes : Nat} {s : σ}
    (hI : I s) (h : μ s < passes) : Runs step s (loop step stuck passes s) := by
  induction passes generalizing s with
  | zero => exact absurd h (Nat.not_lt_zero _)
  | succ passes ih =>
    unfold loop
    cases hs : step s with
    | error e => exact .fails hs
    | ok t =>
      cases t with
      | done b => exact .done hs
      | again s' =>
        obtain ⟨hI', hμ⟩ := hstep s s' hI hs
        exact .again hs (ih hI' (by omega))

theorem loop_eq_iff {I : σ → Prop} (μ : σ → Nat)
    (hstep : ∀ s s', I s → step s = .ok (.again s') → I s' ∧ μ s' < μ s) {passes : Nat} {s : σ}
    (hI : I s) (h : μ s < passes) {r : Except ε β} :
    loop step stuck passes s = r ↔ Runs step s r := by
  have hr : Runs step s (loop step stuck passes s) := loop_runs μ hstep hI h
  constructor
  · rintro rfl
    exact hr
  · exact hr.unique

theorem Runs.done_of {I : σ → Prop} {Q : β → Prop}
    (hagain : ∀ s s', I s → step s = .ok (.again s') → I s')
    (hdone : ∀ s b, I s → step s = .ok (.done b) → Q b) {s : σ} {b : β}
    (h : Runs step s (.ok b)) (hI : I s) : Q b := by
  generalize hr : (Except.ok b : Except ε β) = r at h
  induction h with
  | fails _ => cases hr
  | done hs => cases hr; exact hdone _ _ hI hs
  | again hs _ ih => exact ih (hagain _ _ hI hs) hr

theorem Runs.fails_of {I : σ → Prop} {Q : ε → Prop}
    (hagain : ∀ s s', I s → step s = .ok (.again s') → I s')
    (hfails : ∀ s e, I s → step s = .error e → Q e) {s : σ} {e : ε}
    (h : Runs step s (.error e)) (hI : I s) : Q e := by
  generalize hr : (Except.error e : Except ε β) = r at h
  induction h with
  | fails hs => cases hr; exact hfails _ _ hI hs
  | done _ => cases hr
  | again hs _ ih => exact ih (hagain _ _ hI hs) hr

end

end Loop
