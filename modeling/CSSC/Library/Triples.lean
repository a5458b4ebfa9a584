import Mathlib.Data.List.Basic

/-!
# Letters between marks

A scanner goes over a text from left to right and looks for a mark, one letter and another mark. What it does there
depends on the letter: it takes the triple, copies it, or passes over it (`Kind`), and only in the last case may its
closing mark open the next triple. What the scanner makes of a text are its `tokens`.

The tokens are the text (`flatMap_chars`), and **a scanner that copies no triple takes one exactly when the text
contains one** (`taken_ne_nil_iff`). Copying a triple makes no difference when what comes after it does not make a
triple with its closing mark (`spread_tokens`).
-/

namespace CSSC.Library.Triples

variable {α : Type*}

/-- What is done with a letter between two marks. -/
inductive Kind where
  /-- The triple is replaced. -/
  | take
  /-- The triple is copied. -/
  | skip
  /-- The opening mark and the letter are copied. -/
  | pass
  deriving DecidableEq, Repr

/-- A piece of the text. -/
inductive Token (α : Type*) where
  /-- An item that is copied. -/
  | item (a : α)
  /-- A triple with this letter is replaced. -/
  | taken (c : α)
  /-- A triple with this letter is copied. -/
  | skipped (c : α)
  deriving DecidableEq, Repr

variable [DecidableEq α] (mark : α) (kind : α → Kind)

/-- The pieces of a text. -/
def tokens : List α → List (Token α)
  | a :: c :: b :: l =>
    if a = mark ∧ b = mark then
      match kind c with
      | .take => .taken c :: tokens l
      | .skip => .skipped c :: tokens l
      | .pass => .item a :: .item c :: tokens (b :: l)
    else .item a :: tokens (c :: b :: l)
  | [a, c] => [.item a, .item c]
  | [a] => [.item a]
  | [] => []

/-- The text of a piece. -/
def Token.chars : Token α → List α
  | .item a => [a]
  | .taken c => [mark, c, mark]
  | .skipped c => [mark, c, mark]

/-- The letters of the triples that are replaced. -/
def taken (l : List α) : List α :=
  (tokens mark kind l).filterMap fun
    | .taken c => some c
    | _ => none

/-! ### One step -/

variable {mark kind}

theorem tokens_take {c : α} (h : kind c = .take) (l : List α) :
    tokens mark kind (mark :: c :: mark :: l) = .taken c :: tokens mark kind l := by
  rw [tokens, if_pos ⟨rfl, rfl⟩, h]

theorem tokens_skip {c : α} (h : kind c = .skip) (l : List α) :
    tokens mark kind (mark :: c :: mark :: l) = .skipped c :: tokens mark kind l := by
  rw [tokens, if_pos ⟨rfl, rfl⟩, h]

theorem tokens_pass {c : α} (h : kind c = .pass) (l : List α) :
    tokens mark kind (mark :: c :: mark :: l) = .item mark :: .item c :: tokens mark kind (mark :: l) := by
  rw [tokens, if_pos ⟨rfl, rfl⟩, h]

/-- Anything that does not open a triple is copied. -/
theorem tokens_item {a : α} {l : List α} (h : ∀ c r, l = c :: mark :: r → a ≠ mark) :
    tokens mark kind (a :: l) = .item a :: tokens mark kind l := by
  match l with
  | [] => rfl
  | [c] => rfl
  | c :: b :: r =>
    rw [tokens, if_neg]
    rintro ⟨ha, rfl⟩
    exact h c r rfl ha

/-- The tokens are the text. -/
theorem flatMap_chars (l : List α) : (tokens mark kind l).flatMap (Token.chars mark) = l := by
  fun_induction tokens mark kind l with
  | case1 a c b l h hk ih => simp [Token.chars, ih, h]
  | case2 a c b l h hk ih => simp [Token.chars, ih, h]
  | case3 a c b l h hk ih => simp [Token.chars, ih]
  | case4 a c b l h ih => simp [Token.chars, ih]
  | case5 a c => rfl
  | case6 a => rfl
  | case7 => rfl

/-- A triple is taken or copied because of its letter. -/
theorem kind_of_mem (l : List α) :
    ∀ x ∈ tokens mark kind l, (∀ c, x = .taken c → kind c = .take) ∧ ∀ c, x = .skipped c → kind c = .skip := by
  fun_induction tokens mark kind l with
  | case1 a c b l h hk ih => simpa [hk] using ih
  | case2 a c b l h hk ih => simpa [hk] using ih
  | case3 a c b l h hk ih => simpa using ih
  | case4 a c b l h ih => simpa using ih
  | case5 a c => simp
  | case6 a => simp
  | case7 => simp

section

variable (hm : kind mark = .pass)

include hm

/-- When a mark is not a letter, passing over a triple is the same as copying its opening mark. -/
theorem tokens_mark {n : ℕ} {l : List α} (hn : l.length ≤ n) (h : ∀ c r, l = c :: mark :: r → kind c = .pass) :
    tokens mark kind (mark :: l) = .item mark :: tokens mark kind l := by
  induction n generalizing l with
  | zero =>
    rw [List.length_eq_zero_iff.mp (Nat.le_zero.mp hn)]
    rfl
  | succ n ih =>
    match l with
    | [] => rfl
    | [c] => rfl
    | c :: b :: r =>
      by_cases hb : b = mark
      · subst hb
        rw [tokens_pass (h c r rfl)]
        by_cases hc : c = b
        · subst hc
          rw [ih (l := c :: r) (by simpa using hn)]
          intro c' r' he
          rw [List.cons.injEq] at he
          exact he.1 ▸ hm
        · rw [tokens_item (a := c) fun _ _ _ => hc]
      · refine tokens_item fun c' r' he => ?_
        simp only [List.cons.injEq] at he
        exact absurd he.2.1 hb

/-- What opens no triple that is taken or copied is copied. -/
theorem tokens_cons {a : α} {l : List α} (h : ∀ c r, a = mark → l = c :: mark :: r → kind c = .pass) :
    tokens mark kind (a :: l) = .item a :: tokens mark kind l := by
  by_cases ha : a = mark
  · subst ha
    exact tokens_mark hm (Nat.le_refl _) fun c r => h c r rfl
  · exact tokens_item fun _ _ _ => ha

end

/-! ### Whether there is a triple -/

variable (mark kind)

/-- The text contains a triple that is to be taken. -/
def Contains (l : List α) : Prop := ∃ p c s, l = p ++ mark :: c :: mark :: s ∧ kind c = .take

variable {mark kind}

omit [DecidableEq α] in
@[simp] theorem not_contains_nil : ¬ Contains mark kind [] := by
  rintro ⟨p, c, s, h, -⟩
  simp at h

omit [DecidableEq α] in
theorem contains_cons {a : α} {l : List α} :
    Contains mark kind (a :: l) ↔ (∃ c s, a = mark ∧ l = c :: mark :: s ∧ kind c = .take) ∨ Contains mark kind l := by
  constructor
  · rintro ⟨p, c, s, h, hc⟩
    cases p with
    | nil =>
      simp only [List.nil_append, List.cons.injEq] at h
      exact .inl ⟨c, s, h.1, h.2, hc⟩
    | cons b p =>
      simp only [List.cons_append, List.cons.injEq] at h
      exact .inr ⟨p, c, s, h.2, hc⟩
  · rintro (⟨c, s, rfl, rfl, hc⟩ | ⟨p, c, s, rfl, hc⟩)
    · exact ⟨[], c, s, rfl, hc⟩
    · exact ⟨a :: p, c, s, rfl, hc⟩

theorem taken_cons_item {a : α} {l l' : List α} (h : tokens mark kind l = .item a :: tokens mark kind l') :
    taken mark kind l = taken mark kind l' := by
  rw [taken, h, List.filterMap_cons_none rfl, taken]

/-- A scanner that copies no triple takes one exactly when the text contains one. -/
theorem taken_ne_nil_iff (hm : kind mark = .pass) (hs : ∀ c, kind c ≠ .skip) (l : List α) :
    taken mark kind l ≠ [] ↔ Contains mark kind l := by
  induction l with
  | nil => simp [taken, tokens]
  | cons a l ih =>
    by_cases h : ∃ c s, a = mark ∧ l = c :: mark :: s ∧ kind c = .take
    · rw [contains_cons]
      obtain ⟨c, s, rfl, rfl, hc⟩ := h
      simp [taken, tokens_take hc, hc]
    · rw [contains_cons, taken_cons_item, ih]
      · exact ⟨.inr, fun h' => h'.resolve_left h⟩
      · refine tokens_cons hm fun c r ha hl => ?_
        cases hk : kind c with
        | take => exact absurd ⟨c, r, ha, hl, hk⟩ h
        | skip => exact absurd hk (hs c)
        | pass => rfl

omit [DecidableEq α] in
/-- No triple reaches over an item that is neither a letter nor a mark. -/
theorem contains_append_cons {a : α} (ha : a ≠ mark) (hk : kind a ≠ .take) (l r : List α) :
    Contains mark kind (l ++ a :: r) ↔ Contains mark kind l ∨ Contains mark kind r := by
  induction l with
  | nil =>
    rw [List.nil_append, contains_cons]
    simp [ha]
  | cons b l ih =>
    rw [List.cons_append, contains_cons, contains_cons, ih, or_assoc]
    refine or_congr_left ⟨?_, ?_⟩
    · rintro ⟨c, s, rfl, hl, hc⟩
      match l with
      | [] =>
        simp only [List.nil_append, List.cons.injEq] at hl
        exact absurd hc (hl.1 ▸ hk)
      | [x] =>
        simp only [List.cons_append, List.nil_append, List.cons.injEq] at hl
        exact absurd hl.2.1 ha
      | x :: y :: l =>
        simp only [List.cons_append, List.cons.injEq] at hl
        obtain ⟨rfl, rfl, -⟩ := hl
        exact ⟨x, l, rfl, rfl, hc⟩
    · rintro ⟨c, s, rfl, rfl, hc⟩
      exact ⟨c, s ++ a :: r, rfl, rfl, hc⟩

/-! ### Copying a triple and passing over it -/

/-- A copied triple as the items it consists of. -/
def Token.spread (mark : α) : Token α → List (Token α)
  | .item a => [.item a]
  | .taken c => [.taken c]
  | .skipped c => [.item mark, .item c, .item mark]

/-- After a copied triple there is a letter and a mark, which make a triple with its closing mark. -/
def Clash (mark : α) (kind : α → Kind) (ts : List (Token α)) : Prop :=
  ∃ ts₁ c ts₂ y r, ts = ts₁ ++ .skipped c :: ts₂ ∧ ts₂.flatMap (Token.chars mark) = y :: mark :: r ∧ kind y = .take

omit [DecidableEq α] in
@[simp] theorem not_clash_nil : ¬ Clash mark kind [] := by
  rintro ⟨ts₁, c, ts₂, y, r, h, -⟩
  simp at h

omit [DecidableEq α] in
/-- A clash is right at the first piece or further on. -/
theorem clash_cons {x : Token α} {ts : List (Token α)} : Clash mark kind (x :: ts) ↔
    (∃ c y r, x = .skipped c ∧ ts.flatMap (Token.chars mark) = y :: mark :: r ∧ kind y = .take) ∨
      Clash mark kind ts := by
  constructor
  · rintro ⟨ts₁, c, ts₂, y, r, ht, hy, hk⟩
    cases ts₁ with
    | nil =>
      simp only [List.nil_append, List.cons.injEq] at ht
      exact .inl ⟨c, y, r, ht.1, ht.2 ▸ hy, hk⟩
    | cons z ts₁ =>
      simp only [List.cons_append, List.cons.injEq] at ht
      exact .inr ⟨ts₁, c, ts₂, y, r, ht.2, hy, hk⟩
  · rintro (⟨c, y, r, rfl, hy, hk⟩ | ⟨ts₁, c, ts₂, y, r, rfl, hy, hk⟩)
    · exact ⟨[], c, _, y, r, rfl, hy, hk⟩
    · exact ⟨x :: ts₁, c, ts₂, y, r, rfl, hy, hk⟩

omit [DecidableEq α] in
@[simp] theorem clash_item {a : α} {ts : List (Token α)} : Clash mark kind (.item a :: ts) ↔ Clash mark kind ts := by
  simp [clash_cons]

omit [DecidableEq α] in
@[simp] theorem clash_taken {a : α} {ts : List (Token α)} : Clash mark kind (.taken a :: ts) ↔ Clash mark kind ts := by
  simp [clash_cons]

variable {kind' : α → Kind} (hm : kind' mark = .pass) (hk : ∀ c, kind' c = if kind c = .take then .take else .pass)

include hm hk

/-- Copying makes no difference without a clash; with one, the scanner that copies no triple takes one where the other
copies its letter. -/
theorem spread_tokens (l : List α) :
    (¬ Clash mark kind (tokens mark kind l) ∧
      tokens mark kind' l = (tokens mark kind l).flatMap (Token.spread mark)) ∨
    ∃ ts₁ c y r ts₂', tokens mark kind l = ts₁ ++ .skipped c :: tokens mark kind (y :: mark :: r) ∧ kind y = .take ∧
      tokens mark kind' l = ts₁.flatMap (Token.spread mark) ++ .item mark :: .item c :: .taken y :: ts₂' := by
  fun_induction tokens mark kind l with
  | case1 a c b l h hkc ih =>
    obtain ⟨rfl, rfl⟩ := h
    rw [tokens_take (by rw [hk, if_pos hkc])]
    rcases ih with ⟨hc, h⟩ | ⟨ts₁, x, y, r, ts₂, h₁, hy, h₂⟩
    · exact .inl ⟨by simpa using hc, by rw [h]; rfl⟩
    · exact .inr ⟨.taken c :: ts₁, x, y, r, ts₂, by rw [h₁]; rfl, hy, by rw [h₂]; rfl⟩
  | case2 a c b l h hkc ih =>
    obtain ⟨rfl, rfl⟩ := h
    rw [tokens_pass (by rw [hk, hkc]; rfl)]
    by_cases hl : ∃ y r, l = y :: b :: r ∧ kind y = .take
    · obtain ⟨y, r, rfl, hy⟩ := hl
      exact .inr ⟨[], c, y, r, _, rfl, hy, by rw [tokens_take (by rw [hk, if_pos hy])]; rfl⟩
    · have hmark : tokens b kind' (b :: l) = .item b :: tokens b kind' l := by
        refine tokens_cons hm fun y r _ he => ?_
        rw [hk, if_neg fun hy => hl ⟨y, r, he, hy⟩]
      rw [hmark]
      rcases ih with ⟨hc, h⟩ | ⟨ts₁, x, y, r, ts₂, h₁, hy, h₂⟩
      · refine .inl ⟨?_, by rw [h]; rfl⟩
        rw [clash_cons, flatMap_chars]
        rintro (⟨_, y, r, -, he, hy⟩ | hc')
        · exact hl ⟨y, r, he, hy⟩
        · exact hc hc'
      · exact .inr ⟨.skipped c :: ts₁, x, y, r, ts₂, by rw [h₁]; rfl, hy, by rw [h₂]; rfl⟩
  | case3 a c b l h hkc ih =>
    obtain ⟨rfl, rfl⟩ := h
    rw [tokens_pass (by rw [hk, hkc]; rfl)]
    rcases ih with ⟨hc, h⟩ | ⟨ts₁, x, y, r, ts₂, h₁, hy, h₂⟩
    · exact .inl ⟨by simpa using hc, by rw [h]; rfl⟩
    · exact .inr ⟨_ :: _ :: ts₁, x, y, r, ts₂, by rw [h₁]; rfl, hy, by rw [h₂]; rfl⟩
  | case4 a c b l h ih =>
    rw [tokens, if_neg h]
    rcases ih with ⟨hc, h⟩ | ⟨ts₁, x, y, r, ts₂, h₁, hy, h₂⟩
    · exact .inl ⟨by simpa using hc, by rw [h]; rfl⟩
    · exact .inr ⟨_ :: ts₁, x, y, r, ts₂, by rw [h₁]; rfl, hy, by rw [h₂]; rfl⟩
  | case5 a c => exact .inl ⟨by simp, rfl⟩
  | case6 a => exact .inl ⟨by simp, rfl⟩
  | case7 => exact .inl ⟨by simp, rfl⟩

end CSSC.Library.Triples
