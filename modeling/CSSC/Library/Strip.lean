import CSSC.Library.Splice

/-!
# Taking a version out of a weave

The opposite of splicing: a machine with three states (`Mode`) reads a weave once, leaves out the regions of one version
`n` and copies everything else. A strict machine does not end inside a region of `n`; a lax one does not look where it
ends.

`strip` undoes a splice exactly if every block was closed, or, when it is lax, every block but one that is the last
action (`Splice.strip_eq_iff`). Stripping `n` from any legal weave leaves every version without `n` alone, when its
insertions are unnested (`strip_select`, `strip_legal`).
-/

namespace CSSC.Library.Weave

variable {K α : Type*} [LinearOrder K]

open Act

/-! ### The machine -/

/-- The states of the machine that takes a version out. -/
inductive Mode where
  /-- Outside the regions of the version: everything is copied. -/
  | copy
  /-- Inside a deletion of the version: everything is copied. -/
  | delete
  /-- Inside an insertion of the version: text is left out, and no bracket may stand here. -/
  | insert
  deriving DecidableEq, Repr

/-- The state after a bracket of the version that is taken out. -/
def Mode.next : Mode → Item K α → Option Mode
  | .copy, .start .ins _ _ => some .insert
  | .copy, .start .del _ _ => some .delete
  | .insert, .fin _ _ => some .copy
  | .delete, .fin _ _ => some .copy
  | _, _ => none

/-- Take the regions of `n` out: its brackets go, and with its insertions their text. -/
def strip (lax : Bool) (n : K) : Mode → List (Item K α) → Option (List (Item K α))
  | m, [] => if m = .copy ∨ lax then some [] else none
  | m, .text a :: r => if m = .insert then strip lax n m r else (strip lax n m r).map (.text a :: ·)
  | m, x :: r =>
    if x.key? = some n then (m.next x).bind fun m' => strip lax n m' r
    else if m = .insert then none
    else (strip lax n m r).map (x :: ·)

section

variable {lax : Bool} {n : K} {m : Mode} {x : Item K α} {r : List (Item K α)}

@[simp] theorem strip_nil : strip lax n m ([] : List (Item K α)) = if m = .copy ∨ lax then some [] else none := by
  rw [strip]

theorem strip_text (a : α) : strip lax n m (.text a :: r) =
    if m = .insert then strip lax n m r else (strip lax n m r).map (.text a :: ·) := by
  rw [strip]

theorem strip_other (hx : x.key? ≠ none) (hn : x.key? ≠ some n) : strip lax n m (x :: r) =
    if m = .insert then none else (strip lax n m r).map (x :: ·) := by
  cases x with
  | text a => exact absurd rfl hx
  | start c k a => rw [strip, if_neg hn]; simp
  | fin k a => rw [strip, if_neg hn]; simp

theorem strip_own (hn : x.key? = some n) :
    strip lax n m (x :: r) = (m.next x).bind fun m' => strip lax n m' r := by
  cases x with
  | text a => exact absurd hn (by simp)
  | start c k a => rw [strip, if_pos hn]; simp
  | fin k a => rw [strip, if_pos hn]; simp

theorem strip_texts (gs : List α) : strip lax n .insert (gs.map Item.text ++ r) = strip lax n .insert r := by
  induction gs with
  | nil => rfl
  | cons g gs ih => rw [List.map_cons, List.cons_append, strip_text, if_pos rfl, ih]

end

/-! ### Undoing a splice -/

namespace Splice

variable {lax : Bool} {n : K} {S : Set K} {o : Open K} {d : Bool} {as : List (Act α)} {old new : List (Item K α)}

/-- The state in which the copied items are read. -/
def modeOf (d : Bool) : Mode := if d then .delete else .copy

theorem modeOf_ne_insert (d : Bool) : modeOf d ≠ .insert := by cases d <;> decide

/-- Inside a block left open the machine gets nowhere, or leaves the rest out. -/
theorem strip_jam (h : Splice n S o d as old new) (hd : d = false) (hF : Free n old) :
    strip lax n .insert new = none ∨ (lax = true ∧ strip lax n .insert new = some [] ∧ (old = [] → as = [])) := by
  have htext : ∀ {a : α} {r r' : List (Item K α)} {as as' : List (Act α)}, (strip lax n .insert r' = none ∨
      (lax = true ∧ strip lax n .insert r' = some [] ∧ (r = [] → as = []))) → strip lax n .insert (.text a :: r') = none ∨
        (lax = true ∧ strip lax n .insert (.text a :: r') = some [] ∧ (.text a :: r = [] → as' = [])) := by
    intro a r r' as as' h
    rw [strip_text, if_pos rfl]
    exact h.imp_right fun ⟨hl, hr, _⟩ => ⟨hl, hr, fun h => absurd h (List.cons_ne_nil _ _)⟩
  induction h with
  | nil =>
    rw [strip_nil]
    by_cases hl : lax = true
    · exact .inr ⟨hl, if_pos (.inr hl), fun _ => rfl⟩
    · exact .inl (if_neg (by simp [hl]))
  | bracket hx _ _ => exact .inl (by rw [strip_other hx hF.head, if_pos rfl])
  | hidden _ _ ih => exact htext (ih hd hF.tail)
  | kept _ _ ih => exact htext (ih hd hF.tail)
  | dropped _ _ _ => exact absurd hd (by simp)
  | openDel w _ _ _ =>
    refine .inl ?_
    rw [strip_own (by simp)]
    rfl
  | closeDel w _ _ => exact absurd hd (by simp)
  | block w w' gs c _ _ _ =>
    refine .inl ?_
    rw [blockItems, List.cons_append, strip_own (by simp)]
    rfl

/-- What stripping a block comes to. -/
theorem strip_block (w w' : α) (gs : List α) (c : Bool) (r : List (Item K α)) :
    strip lax n .copy (blockItems n w w' gs c ++ r) = strip lax n (if c then .copy else .insert) r := by
  rw [blockItems, List.cons_append, strip_own (by simp), List.append_assoc]
  simp only [Mode.next, Option.bind_some, strip_texts]
  cases c with
  | true =>
    rw [if_pos rfl, List.cons_append, strip_own (by simp)]
    rfl
  | false => rfl

/-- The conditions under which `strip` undoes a splice: a lax machine may end in the last block. -/
def Undone (lax : Bool) (as : List (Act α)) : Prop := if lax then Settled as else Closed as

theorem undone_keep {a : α} : Undone lax (.keep a :: as) ↔ Undone lax as := by cases lax <;> simp [Undone]
theorem undone_drop {a : α} : Undone lax (.drop a :: as) ↔ Undone lax as := by cases lax <;> simp [Undone]

theorem undone_block {gs : List α} {c : Bool} :
    Undone lax (.block gs c :: as) ↔ (c = true ∨ (lax = true ∧ as = [])) ∧ Undone lax as := by
  cases lax <;> simp [Undone]

theorem undone_of_closed {as : List (Act α)} (h : Closed as) : Undone lax as := by
  rw [Undone]
  split
  · exact h.settled
  · exact h

/-- **`strip` undoes a splice exactly if its blocks are closed**, all of them or all but the last action. -/
theorem strip_eq_iff (h : Splice n S o d as old new) (hF : Free n old) :
    strip lax n (modeOf d) new = some old ↔ Undone lax as := by
  have hcons : ∀ {x : Item K α} {s : Option (List (Item K α))} {r : List (Item K α)},
      s.map (x :: ·) = some (x :: r) ↔ s = some r := by
    intro x s r
    cases s <;> simp
  induction h with
  | nil => cases lax <;> simp [modeOf, Undone, Closed, Settled]
  | bracket hx _ ih =>
    rw [strip_other hx hF.head, if_neg (modeOf_ne_insert _), hcons]
    exact ih hF.tail
  | hidden _ _ ih =>
    rw [strip_text, if_neg (modeOf_ne_insert _), hcons]
    exact ih hF.tail
  | kept _ _ ih =>
    rw [strip_text, if_neg (modeOf_ne_insert _), hcons, undone_keep]
    exact ih hF.tail
  | dropped _ _ ih =>
    rw [strip_text, if_neg (modeOf_ne_insert _), hcons, undone_drop]
    exact ih hF.tail
  | openDel w _ _ ih => rw [strip_own (by simp)]; exact ih hF
  | closeDel w _ ih => rw [strip_own (by simp)]; exact ih hF
  | @block o as r r' w w' gs c hd hr ih =>
    rw [undone_block]
    refine Iff.trans (by rw [show modeOf false = Mode.copy from rfl, strip_block]) ?_
    cases c with
    | true => exact (ih hF).trans (by simp)
    | false =>
      rw [if_neg Bool.false_ne_true]
      have hjam : strip lax n .insert r' = none ∨ (lax = true ∧ strip lax n .insert r' = some [] ∧ (r = [] → as = [])) :=
        strip_jam hr rfl hF
      rcases hjam with hj | ⟨hl, hj, has⟩
      · rw [hj]
        refine iff_of_false (by simp) ?_
        rintro ⟨h | ⟨hl, rfl⟩, -⟩
        · cases h
        · obtain ⟨rfl, rfl⟩ := at_end hd hr
          rw [strip_nil, if_pos (.inr hl)] at hj
          cases hj
      · rw [hj, Option.some.injEq]
        constructor
        · rintro rfl
          obtain rfl := has rfl
          exact ⟨.inr ⟨hl, rfl⟩, by rw [hl]; trivial⟩
        · rintro ⟨h | ⟨-, rfl⟩, -⟩
          · cases h
          · exact (at_end hd hr).1.symm

end Splice

/-! ### Stripping any weave -/

/-- No insertion of `n` is opened inside an insertion of a later key. -/
def Unnested (n : K) : Open K → List (Item K α) → Prop
  | _, [] => True
  | o, x :: r => (∀ a, x = .start .ins n a → ∀ k, n < k → o k ≠ some .ins) ∧ Unnested n (act o x) r

section

variable {lax : Bool} {n : K} {T : Set K} {o : Open K} {m : Mode} {items out : List (Item K α)}

/-- The region of `n` that each state stands for. -/
def Mode.region : Mode → Option Cmd
  | .copy => none
  | .delete => some .del
  | .insert => some .ins

/-- Outside the insertions of `n` its region does not matter to the versions without it. -/
theorem owner_erase (hn : n ∉ T) (ho : o n ≠ some .ins) :
    owner T (Function.update o n none) = owner T o := by
  rcases h : o n with _ | c
  · rw [← h, Function.update_eq_self]
  · obtain rfl : c = .del := by
      cases c
      · exact absurd h ho
      · rfl
    have := owner_begin_del (o := Function.update o n none) (by simp) hn
    rwa [Function.update_idem, ← h, Function.update_eq_self, eq_comm] at this

/-- An unnested insertion of `n` shows nothing to the versions without it. -/
theorem owner_inside (hn : n ∉ T) (ho : o n = some .ins) (hk : ∀ k, n < k → o k ≠ some .ins) :
    owner T o = none := by
  refine owner_eq_none_iff.mpr fun k hs => ?_
  rcases lt_trichotomy k n with hlt | rfl | hgt
  · rcases hs.2.2 n hlt with h | ⟨h, -⟩ <;> simp [ho] at h
  · exact hn hs.2.1
  · exact hk k hgt hs.1

/-- What a bracket of `n` does to the state, it does to what is open. -/
theorem Mode.next_spec {m' : Mode} {x : Item K α} (hx : x.key? = some n) (h : m.next x = some m') :
    act o x n = m'.region ∧ (m' = .insert → ∃ a, x = .start .ins n a) := by
  cases x with
  | text a => simp at hx
  | start c k a =>
    obtain rfl : k = n := by simpa using hx
    cases m <;> cases c <;> simp_all [Mode.next, Mode.region, eq_comm]
  | fin k a =>
    obtain rfl : k = n := by simpa using hx
    cases m <;> simp_all [Mode.next, Mode.region, eq_comm]

theorem act_own (x : Item K α) (hx : x.key? = some n) :
    Function.update (act o x) n none = Function.update o n none := by
  cases x with
  | text a => simp at hx
  | start c k a =>
    obtain rfl : k = n := by simpa using hx
    simp
  | fin k a =>
    obtain rfl : k = n := by simpa using hx
    simp

/-- What is stripped off is left out, nothing is added. -/
theorem strip_sublist (h : strip lax n m items = some out) : out.Sublist items := by
  induction items generalizing m out with
  | nil =>
    rw [strip_nil] at h
    split at h
    · obtain rfl := Option.some.inj h
      exact .slnil
    · cases h
  | cons x r ih =>
    have hcopy : ∀ m', (strip lax n m' r).map (x :: ·) = some out → out.Sublist (x :: r) := by
      intro m' h'
      obtain ⟨kept, hk, rfl⟩ := Option.map_eq_some_iff.mp h'
      exact (ih hk).cons_cons x
    have hskip : ∀ m', strip lax n m' r = some out → out.Sublist (x :: r) := fun m' h' => (ih h').cons x
    rcases hk : x.key? with _ | k
    · obtain ⟨a, rfl⟩ : ∃ a, x = .text a := by cases x <;> simp_all
      rw [strip_text] at h
      split at h
      · exact hskip _ h
      · exact hcopy _ h
    · by_cases hn : x.key? = some n
      · rw [strip_own hn] at h
        obtain ⟨m', -, h'⟩ := Option.bind_eq_some_iff.mp h
        exact hskip _ h'
      · rw [strip_other (by simp [hk]) hn] at h
        split at h
        · cases h
        · exact hcopy _ h

/-- **Every version without `n` is left alone** by stripping an unnested `n`. -/
theorem strip_select (hn : n ∉ T) (hm : o n = m.region) (hu : Unnested n o items)
    (hi : m = .insert → ∀ k, n < k → o k ≠ some .ins) (h : strip lax n m items = some out) :
    select T (Function.update o n none) out = select T o items := by
  induction items generalizing m o out with
  | nil =>
    obtain rfl : out = [] := by
      by_cases hc : m = .copy <;> simp_all
    rfl
  | cons x r ih =>
    rcases hk : x.key? with _ | k
    · -- text: copied, unless inside an insertion of `n`, where nothing is shown
      obtain ⟨a, rfl⟩ : ∃ a, x = .text a := by cases x <;> simp_all
      rw [strip_text] at h
      by_cases hmi : m = .insert
      · rw [if_pos hmi] at h
        have hno := owner_inside hn (hm.trans (by rw [hmi]; rfl)) (hi hmi)
        rw [select_cons, emit_text_none hno, act_text, List.nil_append]
        exact ih hm hu.2 hi h
      · rw [if_neg hmi] at h
        obtain ⟨out', h', rfl⟩ := Option.map_eq_some_iff.mp h
        have ho : o n ≠ some .ins := by rw [hm]; cases m <;> simp_all [Mode.region]
        rw [select_cons, select_cons, emit_congr (owner_erase hn ho), act_text, act_text, ih hm hu.2 hi h']
    · by_cases hkn : x.key? = some n
      · -- a bracket of `n`: left out, and it changes only the region of `n`
        rw [strip_own hkn] at h
        obtain ⟨m', hm', h'⟩ := Option.bind_eq_some_iff.mp h
        obtain ⟨hreg, hins⟩ := Mode.next_spec (o := o) hkn hm'
        have hnest : m' = .insert → ∀ k, n < k → act o x k ≠ some .ins := by
          intro e k hlt
          obtain ⟨a, rfl⟩ := hins e
          rw [act_start, Function.update_of_ne hlt.ne']
          exact hu.1 a rfl k hlt
        have hrest := ih hreg hu.2 hnest h'
        have hx : emit T o x = [] := by cases x <;> simp_all
        rw [act_own x hkn] at hrest
        rw [select_cons, hx, List.nil_append, hrest]
      · -- another bracket: copied, never inside an insertion of `n`
        rw [strip_other (by simp [hk]) hkn] at h
        by_cases hmi : m = .insert
        · simp [hmi] at h
        rw [if_neg hmi] at h
        obtain ⟨out', h', rfl⟩ := Option.map_eq_some_iff.mp h
        have ho : o n ≠ some .ins := by rw [hm]; cases m <;> simp_all [Mode.region]
        rw [select_cons, select_cons, emit_congr (owner_erase hn ho), act_update_comm o hkn,
          ih ((act_of_key_ne o hkn).trans hm) hu.2 (fun e => absurd e hmi) h']

/-- Stripping keeps a weave legal, and closes nothing but the region of `n`. A lax machine needs to be told that this
region is closed in the end. -/
theorem strip_legal (hm : o n = m.region) (hl : Legal o items) (hn : lax = true → finish o items n = none) (h : strip lax n m items = some out) :
    Legal (Function.update o n none) out ∧
      finish (Function.update o n none) out = finish o items := by
  induction items generalizing m o out with
  | nil =>
    obtain ⟨hc, rfl⟩ : (m = .copy ∨ lax = true) ∧ out = [] := by
      rw [strip_nil] at h
      split at h
      · exact ⟨‹_›, (Option.some.inj h).symm⟩
      · cases h
    have hno : o n = none := hc.elim (fun hc => by rw [hm, hc]; rfl) hn
    refine ⟨trivial, ?_⟩
    rw [finish_nil, finish_nil, ← hno, Function.update_eq_self]
  | cons x r ih =>
    rcases hk : x.key? with _ | k
    · obtain ⟨a, rfl⟩ : ∃ a, x = .text a := by cases x <;> simp_all
      rw [strip_text] at h
      by_cases hmi : m = .insert
      · rw [if_pos hmi] at h
        exact ih hm hl.2 hn h
      · rw [if_neg hmi] at h
        obtain ⟨out', h', rfl⟩ := Option.map_eq_some_iff.mp h
        exact ⟨⟨trivial, (ih hm hl.2 hn h').1⟩, (ih hm hl.2 hn h').2⟩
    · by_cases hkn : x.key? = some n
      · rw [strip_own hkn] at h
        obtain ⟨m', hm', h'⟩ := Option.bind_eq_some_iff.mp h
        have hrest := ih (Mode.next_spec hkn hm').1 hl.2 hn h'
        rwa [act_own x hkn] at hrest
      · rw [strip_other (by simp [hk]) hkn] at h
        by_cases hmi : m = .insert
        · simp [hmi] at h
        rw [if_neg hmi] at h
        obtain ⟨out', h', rfl⟩ := Option.map_eq_some_iff.mp h
        have hrest := ih ((act_of_key_ne o hkn).trans hm) hl.2 hn h'
        rw [← act_update_comm o hkn] at hrest
        exact ⟨⟨(admits_update o hkn _).mpr hl.1, hrest.1⟩, hrest.2⟩

end

end CSSC.Library.Weave
