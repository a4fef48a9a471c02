import Mathlib.Logic.Basic

namespace Apus.Lib

/-!
# Runs of a labelled transition system

A system is given by its initial states and a step relation `step s l s'`.  A run may be
restricted to steps that meet a condition `ok s l` on the state before the step and its label:

* `Reach init step ok s` — some run whose steps all meet `ok` ends in `s`;
* `Reach.invariant` — what holds at the start and is kept by every such step holds throughout;
* `Reach.of_invariant` — such a run meets every condition that follows from an invariant;
* `Steps step ok s s'` — the run goes on from `s` to `s'`, with `Steps.invariant`;
* `exec f s ls` — a deterministic system run over a list of labels, which is how concrete
  schedules are given; `execIf` checks the condition at every step.
-/

variable {σ ℓ : Type}

/-- The states reached by the runs whose steps all meet `ok`. -/
inductive Reach (init : σ → Prop) (step : σ → ℓ → σ → Prop) (ok : σ → ℓ → Prop) : σ → Prop
  | start {s : σ} : init s → Reach init step ok s
  | step {s s' : σ} {l : ℓ} : Reach init step ok s → ok s l → step s l s' → Reach init step ok s'

/-- Every run. -/
abbrev Always (_ : σ) (_ : ℓ) : Prop := True

section Reach

variable {init : σ → Prop} {step : σ → ℓ → σ → Prop} {ok ok' : σ → ℓ → Prop} {inv : σ → Prop}
  {s s' : σ}

/-- The invariant rule. -/
theorem Reach.invariant (hinit : ∀ s, init s → inv s)
    (hstep : ∀ s l s', inv s → ok s l → step s l s' → inv s') (h : Reach init step ok s) :
    inv s := by
  induction h with
  | start h => exact hinit _ h
  | step _ hok hs ih => exact hstep _ _ _ ih hok hs

/-- A run under a condition is a run under a weaker one. -/
theorem Reach.mono (hok : ∀ s l, ok s l → ok' s l) (h : Reach init step ok s) :
    Reach init step ok' s := by
  induction h with
  | start h => exact .start h
  | step _ hl hs ih => exact .step ih (hok _ _ hl) hs

/-- If an invariant makes every step meet another condition, the run meets that condition, too. -/
theorem Reach.of_invariant (hinit : ∀ s, init s → inv s)
    (hstep : ∀ s l s', inv s → ok s l → step s l s' → inv s')
    (hok : ∀ s l s', inv s → ok s l → step s l s' → ok' s l) (h : Reach init step ok s) :
    Reach init step ok' s := by
  induction h with
  | start h => exact .start h
  | step h hl hs ih => exact .step ih (hok _ _ _ (h.invariant hinit hstep) hl hs) hs

/-- The states reached from `s` by steps that meet `ok`. -/
inductive Steps (step : σ → ℓ → σ → Prop) (ok : σ → ℓ → Prop) (s : σ) : σ → Prop
  | refl : Steps step ok s s
  | step {s' s'' : σ} {l : ℓ} : Steps step ok s s' → ok s' l → step s' l s'' → Steps step ok s s''

/-- The invariant rule for a part of a run. -/
theorem Steps.invariant (h : inv s) (hstep : ∀ s l s', inv s → ok s l → step s l s' → inv s')
    (hs : Steps step ok s s') : inv s' := by
  induction hs with
  | refl => exact h
  | step _ hok hl ih => exact hstep _ _ _ ih hok hl

/-- A run that goes on is a run. -/
theorem Reach.steps (h : Reach init step ok s) (hok : ∀ s l, ok' s l → ok s l)
    (hs : Steps step ok' s s') : Reach init step ok s' := by
  induction hs with
  | refl => exact h
  | step _ hl hstep ih => exact ih.step (hok _ _ hl) hstep

end Reach

/-- A deterministic system run over a list of labels; `none` if some step is not enabled. -/
def exec (f : σ → ℓ → Option σ) : σ → List ℓ → Option σ
  | s, [] => some s
  | s, l :: ls => (f s l).bind fun s' => exec f s' ls

/-- A schedule of a deterministic system is one of its runs. -/
theorem Reach.exec {init : σ → Prop} {f : σ → ℓ → Option σ} {s s' : σ} {ls : List ℓ}
    (h : Reach init (fun s l s' => f s l = some s') Always s) (he : exec f s ls = some s') :
    Reach init (fun s l s' => f s l = some s') Always s' := by
  induction ls generalizing s with
  | nil => cases he; exact h
  | cons l ls ih =>
    obtain ⟨t, hstep, hrest⟩ := Option.bind_eq_some_iff.mp he
    exact ih (h.step trivial hstep) hrest

/-- A function that computes steps goes on with a run. -/
theorem Reach.next {init : σ → Prop} {step : σ → ℓ → σ → Prop} {ok : σ → ℓ → Prop}
    {f : σ → ℓ → Option σ} {s s' : σ} {ls : List ℓ} (h : Reach init step ok s)
    (hf : ∀ s l s', f s l = some s' → ok s l ∧ step s l s') (he : Lib.exec f s ls = some s') :
    Reach init step ok s' := by
  induction ls generalizing s with
  | nil => cases he; exact h
  | cons l ls ih =>
    obtain ⟨t, hl, hrest⟩ := Option.bind_eq_some_iff.mp he
    obtain ⟨hok, hstep⟩ := hf s l t hl
    exact ih (h.step hok hstep) hrest

/-- A run over a list of labels that stops at a step that does not meet `ok`. -/
def execIf (f : σ → ℓ → Option σ) (ok : σ → ℓ → Prop) [∀ s l, Decidable (ok s l)] :
    σ → List ℓ → Option σ
  | s, [] => some s
  | s, l :: ls => if ok s l then (f s l).bind fun s' => execIf f ok s' ls else none

/-- Such a run goes on from where another one ends. -/
theorem Steps.execIf {f : σ → ℓ → Option σ} {ok : σ → ℓ → Prop} [∀ s l, Decidable (ok s l)]
    {s t s' : σ} {ls : List ℓ} (h : Steps (fun s l s' => f s l = some s') ok s t)
    (he : execIf f ok t ls = some s') : Steps (fun s l s' => f s l = some s') ok s s' := by
  induction ls generalizing t with
  | nil =>
    cases he
    exact h
  | cons l ls ih =>
    rw [Lib.execIf] at he
    split at he
    · rename_i hok
      obtain ⟨t', hstep, hrest⟩ := Option.bind_eq_some_iff.mp he
      exact ih (h.step hok hstep) hrest
    · cases he

end Apus.Lib
