import CSSC.Library.Annotate
import CSSC.Library.Run

/-!
# An archive of versions

What a version control system is for: whatever was checked in is kept under its name, with the author of each record,
until it is removed.

An archive has for each name the version that is kept under it, if there is one. A version is stored (`record`),
copied to other names (`copy`), and removed (`forget`). A check-in edits some records into others, which are stored
under an unused name; before it, copies of the version it is based on may be made. **A version is kept, with the same
authors, in every run in which it is not removed** (`kept_of_leads`).
-/

namespace CSSC.Library

open Weave Run

/-- For each name the records that are kept under it, each with its author. -/
abbrev Archive (V K α : Type*) := V → Option (List (K × α))

namespace Archive

variable {V K α : Type*} [DecidableEq V] {A A' : Archive V K α} {v w base : V} {vs : List V} {r : List (K × α)}

/-- A version is stored. -/
def record (A : Archive V K α) (v : V) (r : List (K × α)) : Archive V K α := Function.update A v (some r)

/-- A version is removed. -/
def forget (A : Archive V K α) (v : V) : Archive V K α := Function.update A v none

/-- A version is stored under other names too. -/
def copy (A : Archive V K α) (base : V) (vs : List V) : Archive V K α := fun v => if v ∈ vs then A base else A v

@[simp] theorem record_self : A.record v r v = some r := Function.update_self ..

theorem record_of_ne (h : w ≠ v) : A.record v r w = A w := Function.update_of_ne h ..

@[simp] theorem forget_self : A.forget v v = none := Function.update_self ..

theorem forget_of_ne (h : w ≠ v) : A.forget v w = A w := Function.update_of_ne h ..

theorem copy_of_mem (h : v ∈ vs) : A.copy base vs v = A base := if_pos h

theorem copy_of_notMem (h : v ∉ vs) : A.copy base vs v = A v := if_neg h

@[simp] theorem copy_nil : A.copy base [] = A := funext fun _ => copy_of_notMem (by simp)

/-! ### The machine -/

/-- What is done to an archive. -/
inductive Command (V K α : Type*) where
  /-- The records `edited` are edited into `file` by the author `n`; this is stored as `v`. Before, the version `base`
  is copied to the names `copies`. -/
  | checkIn (base : V) (copies : List V) (v : V) (n : K) (edited : List (K × α)) (file : List α)
  /-- A version is removed. -/
  | remove (v : V)
  /-- Nothing changes. -/
  | look

/-- What a command does. -/
inductive Step : Archive V K α → Command V K α → Archive V K α → Prop where
  /-- The names are unused, and so is the author. What the edit keeps keeps its author. -/
  | checkIn {A : Archive V K α} {base v : V} {copies : List V} {n : K} {edited : List (K × α)} {file : List α}
      (as : List (Act α)) : (A base).isSome → (∀ w ∈ v :: copies, A w = none) →
      (∀ w r, A w = some r → ∀ p ∈ r, p.1 ≠ n) → as.flatMap Act.old = edited.map Prod.snd → as.flatMap Act.new = file →
      Step A (.checkIn base copies v n edited file) ((A.copy base copies).record v (Act.blame n as edited))
  /-- The version is there. -/
  | remove {A : Archive V K α} {v : V} : (A v).isSome → Step A (.remove v) (A.forget v)
  /-- Nothing changes. -/
  | look {A : Archive V K α} : Step A .look A

/-- The machine of an archive. It starts with any versions. -/
def archiveMachine (V K α : Type*) [DecidableEq V] : Machine (Archive V K α) (Command V K α) where
  init _ := True
  step := Step

/-- A step keeps each version that it does not remove. -/
theorem Step.keeps {c : Command V K α} (h : Step A c A') (hc : c ≠ .remove v) (hv : A v = some r) :
    A' v = some r := by
  cases h with
  | @checkIn base w copies n edited file as _ hfree _ _ _ =>
    have hne : ∀ u ∈ w :: copies, v ≠ u := by
      rintro u hu rfl
      rw [hfree v hu] at hv
      cases hv
    rw [record_of_ne (hne w List.mem_cons_self),
      copy_of_notMem fun hmem => hne v (List.mem_cons_of_mem w hmem) rfl, hv]
  | @remove w _ =>
    have hne : v ≠ w := fun e => hc (by rw [e])
    rw [forget_of_ne hne, hv]
  | look => exact hv

/-- **A version is kept in every run in which it is not removed.** -/
theorem kept_of_leads (h : Leads (archiveMachine V K α) (fun _ c => c ≠ .remove v) A A') (hv : A v = some r) :
    A' v = some r := by
  refine h.invariant (P := fun A => A v = some r) ?_ hv
  intro A c A' hA hc hstep
  exact Step.keeps hstep hc hA

end Archive

end CSSC.Library
