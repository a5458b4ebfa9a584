import CSSC.Library.Weave
import Mathlib.Data.List.Basic

/-!
# Splicing one more version into a weave

A new version `n` is added to a weave by copying it and inserting regions of `n`: a deletion around text that the new
version drops, an insertion holding text that it adds. The copy never reorders or changes an old item.

What the edit does next to the text shown by the base version is an `Act`: keep a record, drop it, or insert a block.
A block that was never closed (`closed` false) is one whose closing bracket was lost. `Splice n S o d as old new` says
that `new` is `old` with the regions of `n` spliced in by the actions `as`, for the base set `S`; `o` is what is open
in `old`, and `d` says whether a deletion of `n` is open in `new`.

**The base version is what the edit was made from, and the new version what it leads to** (`Splice.before`,
`Splice.after`). **No version without `n` is changed**, as long as no block but the last thing of all is left open
(`Splice.transparent`, `Splice.legal`), and that condition is needed (`Splice.jammed`).
-/

namespace CSSC.Library.Weave

variable {K α : Type*}

/-! ### Edit actions -/

/-- What an edit does next. -/
inductive Act (α : Type*) where
  /-- Keep the next record of the base version. -/
  | keep (a : α)
  /-- Drop the next record of the base version. -/
  | drop (a : α)
  /-- Insert records; `closed` when the block's closing bracket can be read back. -/
  | block (gs : List α) (closed : Bool)

namespace Act

/-- The records of the base version that an action goes over. -/
def old : Act α → List α
  | keep a => [a]
  | drop a => [a]
  | block _ _ => []

/-- The records of the new version that an action leads to. -/
def new : Act α → List α
  | keep a => [a]
  | drop _ => []
  | block gs _ => gs

/-- Every block is closed. -/
def Closed (as : List (Act α)) : Prop := ∀ gs, block gs false ∉ as

/-- Every block is closed, save one that is the last action of all. -/
def Settled : List (Act α) → Prop
  | [] => True
  | block _ c :: as => (c = true ∨ as = []) ∧ Settled as
  | _ :: as => Settled as

@[simp] theorem settled_keep (a : α) (as : List (Act α)) : Settled (keep a :: as) ↔ Settled as := Iff.rfl
@[simp] theorem settled_drop (a : α) (as : List (Act α)) : Settled (drop a :: as) ↔ Settled as := Iff.rfl
@[simp] theorem settled_block (gs : List α) (c : Bool) (as : List (Act α)) :
    Settled (block gs c :: as) ↔ (c = true ∨ as = []) ∧ Settled as := Iff.rfl

theorem closed_cons {x : Act α} {as : List (Act α)} :
    Closed (x :: as) ↔ (∀ gs, x ≠ block gs false) ∧ Closed as := by
  simp only [Closed, List.mem_cons, not_or, forall_and]
  exact and_congr_left fun _ => forall_congr' fun gs => ⟨Ne.symm, Ne.symm⟩

@[simp] theorem closed_keep (a : α) (as : List (Act α)) : Closed (keep a :: as) ↔ Closed as := by
  simp [closed_cons]
@[simp] theorem closed_drop (a : α) (as : List (Act α)) : Closed (drop a :: as) ↔ Closed as := by
  simp [closed_cons]
@[simp] theorem closed_block (gs : List α) (c : Bool) (as : List (Act α)) :
    Closed (block gs c :: as) ↔ c = true ∧ Closed as := by
  cases c <;> simp [closed_cons]

theorem Closed.settled {as : List (Act α)} (h : Closed as) : Settled as := by
  induction as with
  | nil => trivial
  | cons x as ih =>
    cases x with
    | keep a => exact ih ((closed_keep a as).mp h)
    | drop a => exact ih ((closed_drop a as).mp h)
    | block gs c => exact ⟨.inl ((closed_block gs c as).mp h).1, ih ((closed_block gs c as).mp h).2⟩

end Act

open Act

/-- No item of the sequence is about `n`. -/
def Free (n : K) (items : List (Item K α)) : Prop := ∀ x ∈ items, x.key? ≠ some n

theorem Free.tail {n : K} {x : Item K α} {r : List (Item K α)} (h : Free n (x :: r)) : Free n r :=
  fun y hy => h y (List.mem_cons_of_mem x hy)

theorem Free.head {n : K} {x : Item K α} {r : List (Item K α)} (h : Free n (x :: r)) : x.key? ≠ some n :=
  h x List.mem_cons_self

variable [LinearOrder K]

/-! ### The splice relation -/

/-- A change may be spliced in at the end, or right before a record that is shown. -/
def Due (S : Set K) (o : Open K) : List (Item K α) → Prop
  | [] => True
  | .text _ :: _ => owner S o ≠ none
  | _ :: _ => False

/-- The items of an inserted block; the closing bracket is there when it can be read back. -/
def blockItems (n : K) (w w' : α) (gs : List α) (closed : Bool) : List (Item K α) :=
  .start .ins n w :: (gs.map .text ++ if closed then [.fin n w'] else [])

/-- `new` is `old` with the regions of `n` spliced in by the actions. -/
inductive Splice (n : K) (S : Set K) :
    Open K → Bool → List (Act α) → List (Item K α) → List (Item K α) → Prop
  /-- Nothing is left to copy and no deletion is open. -/
  | nil {o} : Splice n S o false [] [] []
  /-- An old bracket is copied. -/
  | bracket {o d as x r r'} : x.key? ≠ none → Splice n S (act o x) d as r r' →
      Splice n S o d as (x :: r) (x :: r')
  /-- Text that the base version does not show is copied. -/
  | hidden {o d as a r r'} : owner S o = none → Splice n S o d as r r' →
      Splice n S o d as (.text a :: r) (.text a :: r')
  /-- Text that the base version shows is kept. -/
  | kept {o as a r r'} : owner S o ≠ none → Splice n S o false as r r' →
      Splice n S o false (keep a :: as) (.text a :: r) (.text a :: r')
  /-- Text that the base version shows is dropped, inside a deletion. -/
  | dropped {o as a r r'} : owner S o ≠ none → Splice n S o true as r r' →
      Splice n S o true (drop a :: as) (.text a :: r) (.text a :: r')
  /-- A deletion is opened for the record dropped next. -/
  | openDel {o a as r r'} (w : α) : Due S o r → Splice n S o true (drop a :: as) r r' →
      Splice n S o false (drop a :: as) r (.start .del n w :: r')
  /-- The deletion is closed. -/
  | closeDel {o as r r'} (w : α) : Splice n S o false as r r' →
      Splice n S o true as r (.fin n w :: r')
  /-- A block is inserted. -/
  | block {o as r r'} (w w' : α) (gs : List α) (c : Bool) : Due S o r → Splice n S o false as r r' →
      Splice n S o false (block gs c :: as) r (blockItems n w w' gs c ++ r')

/-- What is open in the copy: what is open in the old weave, and perhaps a deletion of `n`. -/
def mark (n : K) (d : Bool) (o : Open K) : Open K := if d then Function.update o n (some .del) else o

/-- Every item of the sequence that is about a key is about one below `n`. -/
def Under (n : K) (items : List (Item K α)) : Prop := ∀ x ∈ items, ∀ k, x.key? = some k → k < n

theorem Under.free {n : K} {items : List (Item K α)} (h : Under n items) : Free n items :=
  fun x hx e => lt_irrefl n (h x hx n e)

theorem Under.tail {n : K} {x : Item K α} {r : List (Item K α)} (h : Under n (x :: r)) : Under n r :=
  fun y hy => h y (List.mem_cons_of_mem x hy)

theorem Under.head {n : K} {x : Item K α} {r : List (Item K α)} (h : Under n (x :: r)) :
    ∀ k, x.key? = some k → k < n := h x List.mem_cons_self

section

variable {n : K} {o : Open K} {x : Item K α}

theorem act_mark (hx : x.key? ≠ some n) (d : Bool) : act (mark n d o) x = mark n d (act o x) := by
  cases d
  · rfl
  · exact act_update_comm o hx _

theorem admits_mark (hx : x.key? ≠ some n) (d : Bool) : Admits (mark n d o) x ↔ Admits o x := by
  cases d
  · rfl
  · exact admits_update o hx _

@[simp] theorem mark_false : mark n false o = o := rfl

theorem mark_close (ho : o n = none) : Function.update (mark n true o) n none = o := by
  simp only [mark, if_true, Function.update_idem]
  rw [← ho, Function.update_eq_self]

theorem update_close (ho : o n = none) (c : Option Cmd) :
    Function.update (Function.update o n c) n none = o := by
  rw [Function.update_idem, ← ho, Function.update_eq_self]

theorem act_none_of_free (hx : x.key? ≠ some n) (ho : o n = none) : act o x n = none := by
  rw [act_of_key_ne o hx, ho]

/-- A marked weave shows to the versions without `n` what it shows unmarked. -/
theorem owner_mark {T : Set K} (hT : n ∉ T) (ho : o n = none) (d : Bool) :
    owner T (mark n d o) = owner T o := by
  cases d
  · rfl
  · exact owner_begin_del ho hT

end

namespace Splice

variable {n : K} {S T : Set K} {o : Open K} {d : Bool} {as : List (Act α)} {old new : List (Item K α)}

/-- After the last action a block that was due stands at the end. -/
theorem at_end (hd : Due S o old) (h : Splice n S o false ([] : List (Act α)) old new) :
    old = [] ∧ new = [] := by
  cases h with
  | nil => exact ⟨rfl, rfl⟩
  | @bracket _ _ _ x _ _ hx _ =>
    cases x with
    | text a => exact absurd rfl hx
    | start c k a => exact hd.elim
    | fin k a => exact hd.elim
  | hidden ho _ => exact absurd ho hd

/-- The new weave is about the keys of the old one and `n`. -/
theorem keys (h : Splice n S o d as old new) : ∀ x ∈ new, ∀ k, x.key? = some k →
    k = n ∨ ∃ y ∈ old, y.key? = some k := by
  induction h with
  | nil => simp
  | bracket hx _ ih =>
    intro y hy k hk
    rcases List.mem_cons.mp hy with rfl | hy
    · exact .inr ⟨_, List.mem_cons_self, hk⟩
    · exact (ih y hy k hk).imp_right fun ⟨z, hz, hkz⟩ => ⟨z, List.mem_cons_of_mem _ hz, hkz⟩
  | hidden _ _ ih =>
    intro y hy k hk
    rcases List.mem_cons.mp hy with rfl | hy
    · simp at hk
    · exact (ih y hy k hk).imp_right fun ⟨z, hz, hkz⟩ => ⟨z, List.mem_cons_of_mem _ hz, hkz⟩
  | kept _ _ ih =>
    intro y hy k hk
    rcases List.mem_cons.mp hy with rfl | hy
    · simp at hk
    · exact (ih y hy k hk).imp_right fun ⟨z, hz, hkz⟩ => ⟨z, List.mem_cons_of_mem _ hz, hkz⟩
  | dropped _ _ ih =>
    intro y hy k hk
    rcases List.mem_cons.mp hy with rfl | hy
    · simp at hk
    · exact (ih y hy k hk).imp_right fun ⟨z, hz, hkz⟩ => ⟨z, List.mem_cons_of_mem _ hz, hkz⟩
  | openDel w _ _ ih =>
    intro y hy k hk
    rcases List.mem_cons.mp hy with rfl | hy
    · exact .inl (by simpa [eq_comm] using hk)
    · exact ih y hy k hk
  | closeDel w _ ih =>
    intro y hy k hk
    rcases List.mem_cons.mp hy with rfl | hy
    · exact .inl (by simpa [eq_comm] using hk)
    · exact ih y hy k hk
  | block w w' gs c _ _ ih =>
    intro y hy k hk
    rcases List.mem_append.mp hy with hy | hy
    · left
      rcases List.mem_cons.mp hy with rfl | hy
      · simpa [eq_comm] using hk
      · rcases List.mem_append.mp hy with hy | hy
        · obtain ⟨g, -, rfl⟩ := List.mem_map.mp hy
          simp at hk
        · cases c with
          | true =>
            rw [if_pos rfl, List.mem_singleton] at hy
            subst hy
            simpa [eq_comm] using hk
          | false => simp at hy
    · exact ih y hy k hk

/-- A bracket that the old weave begins with, the new one begins with too. -/
theorem first {x : Item K α} {r : List (Item K α)} (h : Splice n S o false as (x :: r) new)
    (hx : x.key? ≠ none) : ∃ r', new = x :: r' := by
  have hdue : ¬ Due S o (x :: r) := by
    cases x with
    | text a => exact absurd rfl hx
    | start c k a => exact id
    | fin k a => exact id
  cases h with
  | bracket _ _ => exact ⟨_, rfl⟩
  | hidden _ _ => exact absurd rfl hx
  | kept _ _ => exact absurd rfl hx
  | openDel w hd _ => exact absurd hd hdue
  | block w w' gs c hd _ => exact absurd hd hdue

/-! ### The base version and the new one -/

/-- **The base version shows what the edit was made from.** -/
theorem before (h : Splice n S o d as old new) : (select S o old).map Prod.snd = as.flatMap Act.old := by
  induction h with
  | nil => rfl
  | @bracket o d as x r r' hx _ ih =>
    cases x with
    | text a => exact absurd rfl hx
    | start c k a => simpa using ih
    | fin k a => simpa using ih
  | hidden ho _ ih => simpa [emit_text_none ho] using ih
  | kept ho _ ih =>
    obtain ⟨k, hk⟩ := Option.ne_none_iff_exists'.mp ho
    simpa [emit_text_some hk, Act.old] using ih
  | dropped ho _ ih =>
    obtain ⟨k, hk⟩ := Option.ne_none_iff_exists'.mp ho
    simpa [emit_text_some hk, Act.old] using ih
  | openDel w _ _ ih => exact ih
  | closeDel w _ ih => exact ih
  | block w w' gs c _ _ ih => simpa [Act.old] using ih

/-- A closed block shows its records as its region does, and nothing after it is affected. -/
theorem select_block (T : Set K) (w w' : α) (gs : List α) (ho : o n = none) (rest : List (Item K α)) :
    select T o (blockItems n w w' gs true ++ rest) =
      select T (Function.update o n (some .ins)) (gs.map .text) ++ select T o rest := by
  simp only [blockItems, if_true, List.cons_append, List.append_assoc, select_cons, emit_start,
    act_start, List.nil_append, select_append, finish_texts, emit_fin, act_fin, update_close ho]

/-- **The new version shows what the edit leads to.** -/
theorem after (h : Splice n S o d as old new) (hU : Under n old) (ht : Top n o) (hc : Closed as) :
    (select (insert n S) (mark n d o) new).map Prod.snd = as.flatMap Act.new := by
  induction h with
  | nil => rfl
  | @bracket o d as x r r' hx _ ih =>
    have hxn : x.key? ≠ some n := hU.free.head
    have := ih hU.tail (ht.act hU.head) hc
    rw [select_cons, act_mark hxn]
    cases x with
    | text a => exact absurd rfl hx
    | start c k a => simpa using this
    | fin k a => simpa using this
  | @hidden o d as a r r' ho _ ih =>
    have := ih hU.tail ht hc
    have hno : owner (insert n S) (mark n d o) = none := by
      cases d
      · rw [mark_false, owner_insert_of_none ht.self, ho]
      · exact owner_insert_del ht
    simpa [emit_text_none hno] using this
  | kept ho _ ih =>
    obtain ⟨k, hk⟩ := Option.ne_none_iff_exists'.mp ho
    have hko := (owner_insert_of_none ht.self).trans hk
    have := ih hU.tail ht ((closed_keep _ _).mp hc)
    simpa [emit_text_some hko, Act.new] using this
  | @dropped o as a r r' ho _ ih =>
    have hno : owner (insert n S) (mark n true o) = none := owner_insert_del ht
    have := ih hU.tail ht ((closed_drop _ _).mp hc)
    simpa [emit_text_none hno, Act.new] using this
  | @openDel o a as r r' w _ _ ih => simpa [mark] using ih hU ht hc
  | @closeDel o as r r' w _ ih =>
    rw [select_cons, act_fin, mark_close ht.self]
    exact ih hU ht hc
  | @block o as r r' w w' gs c _ _ ih =>
    obtain ⟨rfl, hc'⟩ := (closed_block gs c as).mp hc
    rw [mark_false, select_block _ w w' gs ht.self, select_texts_some (owner_insert_ins ht)]
    simpa [Act.new, Function.comp_def] using ih hU ht hc'

/-! ### The other versions -/

/-- **No version without `n` is changed** by a settled splice. -/
theorem transparent (h : Splice n S o d as old new) (hU : Under n old) (ht : Top n o) (hT : n ∉ T)
    (hs : Settled as) : select T (mark n d o) new = select T o old := by
  induction h with
  | nil => rfl
  | bracket hx _ ih =>
    rw [select_cons, select_cons, act_mark hU.free.head,
      emit_congr (owner_mark hT ht.self _), ih hU.tail (ht.act hU.head) hs]
  | hidden _ _ ih =>
    rw [select_cons, select_cons, emit_congr (owner_mark hT ht.self _), act_text, act_text,
      ih hU.tail ht hs]
  | kept _ _ ih =>
    rw [select_cons, select_cons, mark_false, act_text]
    exact congrArg _ (ih hU.tail ht hs)
  | dropped _ _ ih =>
    rw [select_cons, select_cons, emit_congr (owner_mark hT ht.self _), act_text, act_text,
      ih hU.tail ht hs]
  | openDel w _ _ ih => exact ih hU ht hs
  | closeDel w _ ih =>
    rw [select_cons, emit_fin, List.nil_append, act_fin, mark_close ht.self]
    exact ih hU ht hs
  | @block o as r r' w w' gs c hd hr ih =>
    have hno := owner_begin_hidden ht hT
    cases c with
    | true =>
      rw [mark_false, select_block _ w w' gs ht.self, select_texts_none hno]
      exact ih hU ht hs.2
    | false =>
      -- the lost bracket hides what follows, and nothing does
      obtain rfl : as = [] := by simpa using hs.1
      obtain ⟨rfl, rfl⟩ := at_end hd hr
      simp [blockItems, select_texts_none hno]

/-- A settled splice of a legal weave is legal. -/
theorem legal (h : Splice n S o d as old new) (hF : Free n old) (ho : o n = none)
    (hs : Settled as) (hl : Legal o old) : Legal (mark n d o) new := by
  induction h with
  | nil => trivial
  | @bracket o d as x r r' hx _ ih =>
    rw [legal_cons, admits_mark hF.head, act_mark hF.head]
    exact ⟨hl.1, ih hF.tail (act_none_of_free hF.head ho) hs hl.2⟩
  | hidden _ _ ih => exact ⟨trivial, ih hF.tail ho hs hl.2⟩
  | kept _ _ ih => exact ⟨trivial, ih hF.tail ho hs hl.2⟩
  | dropped _ _ ih => exact ⟨trivial, ih hF.tail ho hs hl.2⟩
  | openDel w _ _ ih => exact ⟨ho, ih hF ho hs hl⟩
  | closeDel w _ ih =>
    refine ⟨by simp [mark], ?_⟩
    rw [act_fin, mark_close ho]
    exact ih hF ho hs hl
  | @block o as r r' w w' gs c hd hr ih =>
    cases c with
    | true =>
      have := ih hF ho hs.2 hl
      simp only [blockItems, mark_false, if_true, List.cons_append, List.append_assoc, legal_cons,
        admits_start, act_start, legal_append, legal_texts, finish_texts, admits_fin, act_fin, legal_nil,
        update_close ho, Function.update_self]
      exact ⟨ho, trivial, by simp, trivial, this⟩
    | false =>
      obtain rfl : as = [] := by simpa using hs.1
      obtain ⟨rfl, rfl⟩ := at_end hd hr
      simp [blockItems, ho]

/-- A splice with every block closed leaves open what the old weave leaves open. -/
theorem finish_eq (h : Splice n S o d as old new) (hF : Free n old) (ho : o n = none)
    (hc : Closed as) : finish (mark n d o) new = finish o old := by
  induction h with
  | nil => rfl
  | bracket hx _ ih =>
    rw [finish_cons, finish_cons, act_mark hF.head]
    exact ih hF.tail (act_none_of_free hF.head ho) hc
  | hidden _ _ ih => exact ih hF.tail ho hc
  | kept _ _ ih => exact ih hF.tail ho ((closed_keep _ _).mp hc)
  | dropped _ _ ih => exact ih hF.tail ho ((closed_drop _ _).mp hc)
  | openDel w _ _ ih => exact ih hF ho hc
  | closeDel w _ ih =>
    rw [finish_cons, act_fin, mark_close ho]
    exact ih hF ho hc
  | block w w' gs c _ _ ih =>
    obtain ⟨rfl, hc'⟩ := (closed_block gs c _).mp hc
    simpa [blockItems, finish_append, update_close ho] using ih hF ho hc'

/-! ### A block left open -/

/-- Behind a block left open nothing more is shown to the versions without `n`, or the brackets of
`n` are out of order. -/
theorem jam_select (h : Splice n S o d as old new) (hd : d = false) (hF : Under n old) (ht : Top n o)
    (hT : n ∉ T) (hl : Legal (Function.update o n (some .ins)) new) :
    select T (Function.update o n (some .ins)) new = [] := by
  have hno := owner_begin_hidden ht hT
  induction h with
  | nil => rfl
  | @bracket o d as x r r' hx _ ih =>
    have ht' := ht.act hF.head
    rw [legal_cons, act_update_comm o hF.free.head] at hl
    rw [select_cons, act_update_comm o hF.free.head, ih hd hF.tail ht' hl.2 (owner_begin_hidden ht' hT)]
    cases x with
    | text a => exact absurd rfl hx
    | start c k a => rfl
    | fin k a => rfl
  | hidden _ _ ih => rw [select_cons, emit_text_none hno, act_text, ih hd hF.tail ht hl.2 hno]; rfl
  | kept _ _ ih => rw [select_cons, emit_text_none hno, act_text, ih hd hF.tail ht hl.2 hno]; rfl
  | dropped _ _ _ => exact absurd hd (by simp)
  | openDel w _ _ _ => exact absurd hl.1 (by simp)
  | closeDel w _ _ => exact absurd hd (by simp)
  | block w w' gs c _ _ _ => exact absurd hl.1 (by simp)

/-- Behind a block left open the next drop or block puts the brackets of `n` out of order; without
one, the text that is kept is there to be shown. -/
theorem jam_before (h : Splice n S o d as old new) (hd : d = false) (hF : Free n old)
    (hl : Legal (Function.update o n (some .ins)) new) (has : as ≠ []) : select S o old ≠ [] := by
  induction h with
  | nil => exact absurd rfl has
  | bracket hx _ ih =>
    rw [legal_cons, act_update_comm _ hF.head] at hl
    simpa using fun _ => ih hd hF.tail hl.2 has
  | hidden ho _ ih => simpa [emit_text_none ho] using ih hd hF.tail hl.2 has
  | kept ho _ _ =>
    obtain ⟨k, hk⟩ := Option.ne_none_iff_exists'.mp ho
    simp [emit_text_some hk]
  | dropped _ _ _ => exact absurd hd (by simp)
  | openDel w _ _ _ => exact absurd hl.1 (by simp)
  | closeDel w _ _ => exact absurd hd (by simp)
  | block w w' gs c _ _ _ => exact absurd hl.1 (by simp)

/-- **The condition on blocks is needed**: an unsettled splice changes the base version itself, when
it is legal at all. -/
theorem jammed (h : Splice n S o d as old new) (hU : Under n old) (ht : Top n o) (hn : n ∉ S)
    (hs : ¬ Settled as) (hl : Legal (mark n d o) new) : select S (mark n d o) new ≠ select S o old := by
  induction h with
  | nil => exact absurd trivial hs
  | bracket hx _ ih =>
    rw [legal_cons, act_mark hU.free.head] at hl
    rw [select_cons, select_cons, act_mark hU.free.head, emit_congr (owner_mark hn ht.self _)]
    exact fun e => ih hU.tail (ht.act hU.head) hs hl.2 (List.append_cancel_left e)
  | hidden ho _ ih =>
    rw [select_cons, select_cons, emit_congr (owner_mark hn ht.self _)]
    exact fun e => ih hU.tail ht hs hl.2 (List.append_cancel_left e)
  | kept ho _ ih =>
    rw [select_cons, select_cons, mark_false]
    exact fun e => ih hU.tail ht hs hl.2 (List.append_cancel_left e)
  | dropped ho _ ih =>
    rw [select_cons, select_cons, emit_congr (owner_mark hn ht.self _)]
    exact fun e => ih hU.tail ht hs hl.2 (List.append_cancel_left e)
  | openDel w _ _ ih => exact ih hU ht hs hl.2
  | closeDel w _ ih =>
    rw [legal_cons, act_fin, mark_close ht.self] at hl
    rw [select_cons, act_fin, mark_close ht.self]
    exact ih hU ht hs hl.2
  | @block o as r r' w w' gs c hd hr ih =>
    have hno := owner_begin_hidden ht hn
    cases c with
    | true =>
      rw [mark_false, select_block _ w w' gs ht.self, select_texts_none hno]
      refine ih hU ht (fun h => hs ⟨.inl rfl, h⟩) ?_
      simp only [blockItems, mark_false, if_true, List.cons_append, List.append_assoc, legal_cons,
        act_start, legal_append, finish_texts, act_fin, update_close ht.self] at hl
      exact hl.2.2.2.2
    | false =>
      simp only [blockItems, mark_false, Bool.false_eq_true, if_false, List.append_nil, List.cons_append,
        legal_cons, act_start, legal_append, finish_texts] at hl
      simp only [blockItems, mark_false, Bool.false_eq_true, if_false, List.append_nil, List.cons_append,
        select_cons, emit_start, act_start, select_append, finish_texts, select_texts_none hno,
        jam_select hr rfl hU ht hn hl.2.2]
      by_cases has : as = []
      · exact absurd ⟨.inr has, by rw [has]; trivial⟩ hs
      · exact (jam_before hr rfl hU.free hl.2.2 has).symm

end Splice

end CSSC.Library.Weave
