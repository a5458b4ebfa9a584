import Mathlib.Logic.Relation
import Mathlib.Data.Set.Insert

/-!
# Following a partial function

Every key has at most one successor, so from a key there is one way to go. It ends at a key without a successor, or it
never ends. `chain next a` are the keys met on the way from `a`, which is one of them. Of two keys met on the way, one
is met after the other (`mem_chain_or_mem_chain`), and **a way that ends meets no key twice** (`not_cyclic_of_end`).
-/

namespace CSSC.Library.Chain

open Relation

variable {K : Type*} {next : K → Option K} {a b c : K}

/-- One step. -/
def Follows (next : K → Option K) (a b : K) : Prop := next a = some b

/-- The keys met on the way from `a`. -/
def chain (next : K → Option K) (a : K) : Set K := {b | ReflTransGen (Follows next) a b}

/-- The way from `a` comes back to `a`. -/
def Cyclic (next : K → Option K) (a : K) : Prop := TransGen (Follows next) a a

theorem follows_rightUnique : Relator.RightUnique (Follows next) := by
  intro a b c hb hc
  exact Option.some.inj (hb.symm.trans hc)

theorem mem_chain_self (next : K → Option K) (a : K) : a ∈ chain next a := .refl

theorem mem_chain_trans (hb : b ∈ chain next a) (hc : c ∈ chain next b) : c ∈ chain next a := hb.trans hc

theorem mem_chain_iff (h : next a = some b) : c ∈ chain next a ↔ c = a ∨ c ∈ chain next b := by
  constructor
  · intro hc
    rcases ReflTransGen.cases_head hc with rfl | ⟨b', hb', hc⟩
    · exact .inl rfl
    · obtain rfl := Option.some.inj (h.symm.trans hb')
      exact .inr hc
  · rintro (rfl | hc)
    · exact .refl
    · exact .head h hc

theorem chain_of_none (h : next a = none) : chain next a = {a} := by
  ext c
  constructor
  · intro hc
    rcases ReflTransGen.cases_head hc with rfl | ⟨b, hb, -⟩
    · rfl
    · exact absurd (h.symm.trans hb) (by simp)
  · rintro rfl
    exact .refl

/-- Of two keys met on the way, one is met after the other. -/
theorem mem_chain_or_mem_chain (hb : b ∈ chain next a) (hc : c ∈ chain next a) :
    c ∈ chain next b ∨ b ∈ chain next c :=
  ReflTransGen.total_of_right_unique follows_rightUnique hb hc

/-- What a cycle leads to is on the cycle. -/
theorem Cyclic.of_mem (h : Cyclic next a) (hb : b ∈ chain next a) : Cyclic next b := by
  induction hb with
  | refl => exact h
  | @tail x y _ hxy ih =>
    obtain ⟨y', hy', hx⟩ := TransGen.head'_iff.mp ih
    obtain rfl := follows_rightUnique hxy hy'
    exact TransGen.tail' hx hxy

theorem Cyclic.next_ne_none (h : Cyclic next a) : next a ≠ none := by
  obtain ⟨b, hb, -⟩ := TransGen.head'_iff.mp h
  rw [show next a = some b from hb]
  simp

/-- **A way that ends meets no key twice.** -/
theorem not_cyclic_of_end (hb : b ∈ chain next a) (hend : next b = none) (hc : c ∈ chain next a) :
    ¬ Cyclic next c := by
  intro h
  rcases mem_chain_or_mem_chain hb hc with hcb | hbc
  · rw [chain_of_none hend] at hcb
    exact (hcb ▸ h).next_ne_none hend
  · exact (h.of_mem hbc).next_ne_none hend

/-- A way ends at one key only. -/
theorem end_unique (hb : b ∈ chain next a) (hb' : next b = none) (hc : c ∈ chain next a) (hc' : next c = none) :
    b = c := by
  rcases mem_chain_or_mem_chain hb hc with h | h
  · rw [chain_of_none hb'] at h
    exact h.symm
  · rw [chain_of_none hc'] at h
    exact h

end CSSC.Library.Chain
