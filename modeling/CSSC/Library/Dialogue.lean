import Mathlib.Data.Int.Basic
import Mathlib.Data.List.Forall2
import Mathlib.Tactic.IntervalCases

/-!
# Programs that ask the world

A program has variables, and asks the world for one thing after the other. Its log holds what it has asked, with the
answers. The world may answer as it likes, and a program may look at the log. A run goes on with a value, or the
process exits with a status, or the program does something that is undefined.

Programs are made of a few simple ones (`ask`, `exit`, `crash`, `vars`, `modify`, `logged`), put together by `>>=`.
What holds after a run is said by `Yields Q X`: `Q` of the value, or `X` of the status, with the variables and what is
added to the log; the run is not undefined then. There is **one rule for each way to put programs together**
(`yields_pure`, `yields_bind`, `yields_ask`, …), and postconditions may be weakened (`Yields.mono`).

A `Discipline` is a relation that all runs are to keep, such as that nothing but certain things is asked. Programs
that keep one keep it one after the other (`Keeps.bind`). Calls in turn, of which the first one that fails ends them,
are `InTurn`; they are put together from single calls.
-/

namespace CSSC.Library

/-- How a run ends. -/
inductive Ending (α : Type) where
  /-- It goes on with a value. -/
  | value (a : α)
  /-- The process exits. -/
  | exit (status : ℕ)
  /-- Anything may happen. -/
  | undefined
  deriving DecidableEq, Repr

/-- `Q` of the value, or `X` of the status. -/
def Ending.Meets {α : Type} (Q : α → Prop) (X : ℕ → Prop) : Ending α → Prop
  | .value a => Q a
  | .exit n => X n
  | .undefined => False

theorem Ending.Meets.mono {α : Type} {Q Q' : α → Prop} {X X' : ℕ → Prop} {e : Ending α} (h : e.Meets Q X)
    (hQ : ∀ a, Q a → Q' a) (hX : ∀ n, X n → X' n) : e.Meets Q' X' := by
  cases e with
  | value a => exact hQ a h
  | exit n => exact hX n h
  | undefined => exact h

/-- What holds whether the run goes on or the process exits. -/
theorem Ending.Meets.always {α : Type} {p : Prop} {e : Ending α} (h : e.Meets (fun _ => p) fun _ => p) : p := by
  cases e with
  | value a => exact h
  | exit n => exact h
  | undefined => exact False.elim h

/-- What comes of a run. -/
structure Outcome (L S α : Type) where
  ending : Ending α
  vars : S
  /-- What is added to the log. -/
  added : List L
  deriving DecidableEq, Repr

/-- A program with variables `S` and a log of `L`. -/
def Dialogue (L S α : Type) : Type := S → List L → Outcome L S α

namespace Dialogue

variable {L S α β E A P : Type}

/-- What a program does with the outcome of the one before. -/
def resume (f : α → Dialogue L S β) (log : List L) : Outcome L S α → Outcome L S β
  | ⟨.value a, s, added⟩ =>
    let o := f a s (log ++ added)
    ⟨o.ending, o.vars, added ++ o.added⟩
  | ⟨.exit n, s, added⟩ => ⟨.exit n, s, added⟩
  | ⟨.undefined, s, added⟩ => ⟨.undefined, s, added⟩

instance : Monad (Dialogue L S) where
  pure a := fun s _ => ⟨.value a, s, []⟩
  bind m f := fun s log => resume f log (m s log)

/-- The world is asked. -/
def ask (answer : List (E × A) → E → A) (e : E) : Dialogue (E × A) S A := fun s log =>
  ⟨.value (answer log e), s, [(e, answer log e)]⟩

/-- The process exits. -/
def exit (status : ℕ) : Dialogue L S α := fun s _ => ⟨.exit status, s, []⟩

/-- Something undefined. -/
def crash : Dialogue L S α := fun s _ => ⟨.undefined, s, []⟩

/-- The variables. -/
def vars : Dialogue L S S := fun s _ => ⟨.value s, s, []⟩

/-- The variables are changed. -/
def modify (f : S → S) : Dialogue L S Unit := fun s _ => ⟨.value (), f s, []⟩

/-- The log so far. -/
def logged : Dialogue L S (List L) := fun s log => ⟨.value log, s, []⟩

/-- `k` is run if `m` returns zero; otherwise its value is what is returned. -/
def ifZero (m k : Dialogue L S ℤ) : Dialogue L S ℤ := m >>= fun r => if r = 0 then k else pure r

/-- What holds after a run. -/
def Yields (m : Dialogue L S α) (Q : α → S → List L → Prop) (X : ℕ → S → List L → Prop) (s : S) (log : List L) :
    Prop :=
  (m s log).ending.Meets (fun a => Q a (m s log).vars (m s log).added) fun n => X n (m s log).vars (m s log).added

section Rules

variable {m : Dialogue L S α} {f : α → Dialogue L S β} {k k' : Dialogue L S ℤ} {Q Q' : α → S → List L → Prop}
  {R : β → S → List L → Prop} {X X' : ℕ → S → List L → Prop} {s : S} {log : List L}

@[simp] theorem yields_pure {a : α} : (pure a : Dialogue L S α).Yields Q X s log ↔ Q a s [] := Iff.rfl

@[simp] theorem yields_exit {n : ℕ} : (exit n : Dialogue L S α).Yields Q X s log ↔ X n s [] := Iff.rfl

@[simp] theorem yields_crash : (crash : Dialogue L S α).Yields Q X s log ↔ False := Iff.rfl

@[simp] theorem yields_vars {Q : S → S → List L → Prop} : (vars : Dialogue L S S).Yields Q X s log ↔ Q s s [] := Iff.rfl

@[simp] theorem yields_logged {Q : List L → S → List L → Prop} :
    (logged : Dialogue L S (List L)).Yields Q X s log ↔ Q log s [] := Iff.rfl

@[simp] theorem yields_ask {answer : List (E × A) → E → A} {e : E} {Q : A → S → List (E × A) → Prop}
    {X : ℕ → S → List (E × A) → Prop} {log : List (E × A)} :
    (ask answer e : Dialogue (E × A) S A).Yields Q X s log ↔ Q (answer log e) s [(e, answer log e)] := Iff.rfl

/-- **One program after the other**: what the second one adds comes behind what the first one has added. -/
@[simp] theorem yields_bind :
    (m >>= f).Yields R X s log ↔
      m.Yields (fun a s' new => (f a).Yields (fun b t new' => R b t (new ++ new')) (fun n t new' => X n t (new ++ new'))
        s' (log ++ new)) X s log := by
  change (resume f log (m s log)).ending.Meets (fun b => R b (resume f log (m s log)).vars
      (resume f log (m s log)).added) (fun n => X n (resume f log (m s log)).vars (resume f log (m s log)).added) ↔ _
  rw [Yields]
  rcases m s log with ⟨a | n | -, s', new⟩
  · exact Iff.rfl
  · exact Iff.rfl
  · exact Iff.rfl

theorem yields_ite {p : Prop} [Decidable p] {m' : Dialogue L S α} :
    (if p then m else m').Yields Q X s log ↔ (p → m.Yields Q X s log) ∧ (¬ p → m'.Yields Q X s log) := by
  split_ifs with h
  · simp [h]
  · simp [h]

@[simp] theorem yields_ifZero {Q : ℤ → S → List L → Prop} :
    (ifZero k k').Yields Q X s log ↔
      k.Yields (fun r s' new => (r = 0 → k'.Yields (fun b t new' => Q b t (new ++ new'))
        (fun n t new' => X n t (new ++ new')) s' (log ++ new)) ∧ (r ≠ 0 → Q r s' new)) X s log := by
  rw [ifZero, yields_bind]
  simp only [yields_ite, yields_pure, List.append_nil]

/-- Postconditions may be weakened. -/
theorem Yields.mono (h : m.Yields Q X s log) (hQ : ∀ a s' new, Q a s' new → Q' a s' new)
    (hX : ∀ n s' new, X n s' new → X' n s' new) : m.Yields Q' X' s log :=
  Ending.Meets.mono h (fun a hq => hQ a _ _ hq) fun n hx => hX n _ _ hx

theorem Yields.defined (h : m.Yields Q X s log) : (m s log).ending ≠ .undefined := by
  intro hu
  rw [Yields, hu] at h
  exact h

/-- If the first program is undefined, so are both. -/
theorem undefined_bind (h : (m s log).ending = .undefined) : ((m >>= f) s log).ending = .undefined := by
  change (resume f log (m s log)).ending = .undefined
  rcases hm : m s log with ⟨e, s', new⟩
  rw [hm] at h
  obtain rfl : e = .undefined := h
  rfl

/-- If the first program comes to its end and the second one is undefined, so are both. -/
theorem bind_undefined (h : m.Yields (fun a s' new => (f a s' (log ++ new)).ending = .undefined)
    (fun _ _ _ => False) s log) : ((m >>= f) s log).ending = .undefined := by
  change (resume f log (m s log)).ending = .undefined
  rw [Yields] at h
  generalize m s log = o at h ⊢
  rcases o with ⟨a | n | -, s', new⟩
  · exact h
  · exact False.elim h
  · rfl

end Rules

/-! ### Disciplines -/

/-- What all runs are to keep: a relation between the variables before and after, and what is added to the log. -/
structure Discipline (S L : Type) where
  holds : S → S → List L → Prop
  refl : ∀ s, holds s s []
  trans : ∀ {s s' s'' new new'}, holds s s' new → holds s' s'' new' → holds s s'' (new ++ new')

namespace Discipline

variable {D : Discipline S L} {m : Dialogue L S α} {f : α → Dialogue L S β} {Q Q' : α → S → Prop} {R : β → S → Prop}
  {s : S} {log : List L} {a : α}

/-- A program keeps the discipline, and then `Q` holds. -/
def Keeps (D : Discipline S L) (m : Dialogue L S α) (Q : α → S → Prop) (s : S) (log : List L) : Prop :=
  m.Yields (fun a s' new => D.holds s s' new ∧ Q a s') (fun _ s' new => D.holds s s' new) s log

theorem keeps_pure (h : Q a s) : D.Keeps (pure a) Q s log := ⟨D.refl s, h⟩

theorem keeps_exit {n : ℕ} : D.Keeps (exit n) Q s log := D.refl s

theorem keeps_modify {g : S → S} {Q : Unit → S → Prop} (hg : D.holds s (g s) []) (h : Q () (g s)) :
    D.Keeps (modify g) Q s log := ⟨hg, h⟩

theorem keeps_ask {D : Discipline S (E × A)} {answer : List (E × A) → E → A} {e : E} {Q : A → S → Prop}
    {log : List (E × A)} (he : ∀ a, D.holds s s [(e, a)]) (h : ∀ a, Q a s) : D.Keeps (ask answer e) Q s log :=
  ⟨he _, h _⟩

theorem Keeps.mono (h : D.Keeps m Q s log) (hQ : ∀ a s', Q a s' → Q' a s') : D.Keeps m Q' s log := by
  refine Yields.mono h ?_ fun n s' new hx => hx
  rintro a s' new ⟨hs, hq⟩
  exact ⟨hs, hQ a s' hq⟩

/-- **Programs that keep a discipline keep it one after the other.** -/
theorem Keeps.bind (hm : D.Keeps m Q s log) (hf : ∀ a s' log', Q a s' → D.Keeps (f a) R s' log') :
    D.Keeps (m >>= f) R s log := by
  rw [Keeps, yields_bind]
  refine Yields.mono hm ?_ fun n s' new hx => hx
  rintro a s' new ⟨hs, hq⟩
  refine Yields.mono (hf a s' _ hq) ?_ ?_
  · rintro b t new' ⟨ht, hr⟩
    exact ⟨D.trans hs ht, hr⟩
  · intro n t new' ht
    exact D.trans hs ht

theorem Keeps.ifZero {k k' : Dialogue L S ℤ} {Q R : ℤ → S → Prop} (hk : D.Keeps k Q s log)
    (hk' : ∀ s' log', Q 0 s' → D.Keeps k' R s' log') (hQ : ∀ r s', r ≠ 0 → Q r s' → R r s') :
    D.Keeps (ifZero k k') R s log := by
  refine hk.bind fun r s' log' hq => ?_
  split_ifs with hr
  · subst hr
    exact hk' s' log' hq
  · exact keeps_pure (hQ r s' hr hq)

/-- A program that keeps a discipline is not undefined, and the discipline holds. -/
theorem Keeps.holds (h : D.Keeps m Q s log) :
    (m s log).ending ≠ .undefined ∧ D.holds s (m s log).vars (m s log).added := by
  refine ⟨h.defined, ?_⟩
  have hmeets : (m s log).ending.Meets (fun _ => D.holds s (m s log).vars (m s log).added)
      fun _ => D.holds s (m s log).vars (m s log).added :=
    Ending.Meets.mono h (fun a hd => hd.1) fun n hd => hd
  exact hmeets.always

end Discipline

/-! ### Calls in turn -/

/-- Each part calls once, and the first call that fails ends them: the calls are those of the first parts, all but the
last of them are good, and the status is zero if all the parts have called with success. -/
structure InTurn (Calls : P → L → Prop) (good : L → Prop) (parts : List P) (status : ℤ) (new : List L) : Prop where
  calls : List.Forall₂ Calls (parts.take new.length) new
  before : ∀ e ∈ new.dropLast, good e
  success : status = 0 ↔ new.length = parts.length ∧ ∀ e ∈ new, good e

section Turns

variable {Calls : P → L → Prop} {good : L → Prop} {p : P} {parts : List P} {status : ℤ} {new new' : List L} {e : L}

theorem InTurn.nil : InTurn Calls good [] 0 [] := ⟨.nil, by simp, by simp⟩

/-- A call. -/
theorem InTurn.one (h : Calls p e) (hs : status = 0 ↔ good e) : InTurn Calls good [p] status [e] where
  calls := .cons h .nil
  before := by simp
  success := by simp [hs]

/-- It does not come to the call. -/
theorem InTurn.none (hs : status ≠ 0) (hp : parts ≠ []) : InTurn Calls good parts status ([] : List L) where
  calls := by simp
  before := by simp
  success := by simpa [hs, eq_comm] using hp

/-- One part calls at most once. -/
theorem InTurn.length_le (h : InTurn Calls good [p] status new) : new.length ≤ 1 := by
  have hl := h.calls.length_eq
  rw [List.length_take, List.length_singleton] at hl
  omega

/-- The first part fails. -/
theorem InTurn.stop (h : InTurn Calls good [p] status new) (hs : status ≠ 0) :
    InTurn Calls good (p :: parts) status new where
  calls := by
    have htake : (p :: parts).take new.length = [p].take new.length := by
      have hl := h.length_le
      interval_cases new.length
      · rfl
      · simp
    rw [htake]
    exact h.calls
  before := h.before
  success := by
    refine iff_of_false hs ?_
    rintro ⟨hl, hgood⟩
    refine hs (h.success.mpr ⟨?_, hgood⟩)
    have := h.length_le
    rw [List.length_cons] at hl
    rw [List.length_singleton]
    omega

/-- The first part succeeds, and the others go on. -/
theorem InTurn.then (h : InTurn Calls good [p] 0 new) (ht : InTurn Calls good parts status new') :
    InTurn Calls good (p :: parts) status (new ++ new') := by
  obtain ⟨hl, hgood⟩ := h.success.mp rfl
  obtain ⟨e, rfl⟩ := List.length_eq_one_iff.mp hl
  have he := hgood e List.mem_cons_self
  refine ⟨.cons ?_ ht.calls, ?_, ?_⟩
  · simpa using h.calls
  · intro x hx
    rcases new' with _ | ⟨a, new'⟩
    · simp at hx
    · rw [List.singleton_append, List.dropLast_cons_cons, List.mem_cons] at hx
      rcases hx with rfl | hx
      · exact he
      · exact ht.before x hx
  · rw [ht.success]
    simp [he]

end Turns

end Dialogue

end CSSC.Library
