import Mathlib.Data.Set.Basic

/-!
# Runs of a machine

A machine is told what to do by commands, each of which it may carry out in one way, in several, or not at all.
`Reach M fine` are the states of the runs in which every command was fine in the state in which it was given, and
`Leads M fine s s'` says the same of the runs that start in `s`.

**What holds in the first states and is kept by every fine step holds in every state that is reached**
(`Reach.invariant`, and `Leads.invariant` for the runs from a state). If each fine step of one machine is matched by a
step of another, so is each run (`Leads.simulate`).
-/

namespace CSSC.Library.Run

/-- A machine with states `σ` and commands `κ`. -/
structure Machine (σ κ : Type*) where
  /-- The states in which a run may start. -/
  init : σ → Prop
  /-- The states that a command may lead to. -/
  step : σ → κ → σ → Prop

variable {σ κ : Type*} {M : Machine σ κ} {fine fine' : σ → κ → Prop} {s : σ}

/-- The states of the runs whose commands are all fine. -/
inductive Reach (M : Machine σ κ) (fine : σ → κ → Prop) : σ → Prop where
  /-- A run starts. -/
  | start {s : σ} : M.init s → Reach M fine s
  /-- A command is carried out. -/
  | step {s s' : σ} {c : κ} : Reach M fine s → fine s c → M.step s c s' → Reach M fine s'

namespace Reach

/-- **What every fine step keeps holds in every state that is reached.** -/
theorem invariant {P : σ → Prop} (hinit : ∀ s, M.init s → P s)
    (hstep : ∀ s c s', P s → fine s c → M.step s c s' → P s') (h : Reach M fine s) : P s := by
  induction h with
  | start hs => exact hinit _ hs
  | step _ hf hs ih => exact hstep _ _ _ ih hf hs

/-- Fewer commands reach fewer states. -/
theorem mono (hle : ∀ s c, fine s c → fine' s c) (h : Reach M fine s) : Reach M fine' s := by
  induction h with
  | start hs => exact .start hs
  | step _ hf hs ih => exact .step ih (hle _ _ hf) hs

end Reach

/-! ### Runs that start anywhere -/

/-- The states that the runs from `s` lead to, if their commands are all fine. -/
inductive Leads (M : Machine σ κ) (fine : σ → κ → Prop) (s : σ) : σ → Prop where
  /-- Nothing is done. -/
  | refl : Leads M fine s s
  /-- One more command is carried out. -/
  | step {t t' : σ} {c : κ} : Leads M fine s t → fine t c → M.step t c t' → Leads M fine s t'

namespace Leads

variable {σ' κ' : Type*} {M' : Machine σ' κ'} {gine : σ' → κ' → Prop} {t : σ}

/-- Two runs, one after the other. -/
theorem trans {u : σ} (h : Leads M fine s t) (h' : Leads M fine t u) : Leads M fine s u := by
  induction h' with
  | refl => exact h
  | step _ hf ht ih => exact .step ih hf ht

/-- What every fine step keeps holds after each run that starts with it. -/
theorem invariant {P : σ → Prop} (hstep : ∀ s c s', P s → fine s c → M.step s c s' → P s') (h : Leads M fine s t)
    (hs : P s) : P t := by
  induction h with
  | refl => exact hs
  | step _ hf ht ih => exact hstep _ _ _ ih hf ht

/-- **If each fine step is matched by a step of another machine, so is each run.** -/
theorem simulate {R : σ → σ' → Prop}
    (hsim : ∀ s c s' a, R s a → fine s c → M.step s c s' → ∃ c' a', gine a c' ∧ M'.step a c' a' ∧ R s' a')
    (h : Leads M fine s t) {a : σ'} (hR : R s a) : ∃ b, Leads M' gine a b ∧ R t b := by
  induction h with
  | refl => exact ⟨a, .refl, hR⟩
  | step _ hf ht ih =>
    obtain ⟨b, hb, hRb⟩ := ih
    obtain ⟨c', b', hg, hstep, hR'⟩ := hsim _ _ _ b hRb hf ht
    exact ⟨b', .step hb hg hstep, hR'⟩

end Leads

end CSSC.Library.Run
