import CSSC.Library.Strip

/-!
# Who wrote which record

A weave shows each record for the version that inserted it. An edit of a version keeps the attribution of what it
keeps, and what it inserts is attributed to the new version: `Act.blame n as old` are the attributed records that the
edit actions `as` lead to, from the attributed records `old` of the base version.

**The new version shows what the edit makes of the base version, attributed** (`Splice.annotated`). A version only
depends on the numbers that the weave is about (`select_congr`). Whom records are attributed to is said by
`mem_of_mem_select` and `key_of_mem_select`. In the weaves that a history is made of no insertion is opened inside one
of a later version (`AllUnnested`); splicing and stripping keep this.
-/

namespace CSSC.Library.Weave

variable {K α : Type*}

namespace Act

/-- The attributed records that edit actions lead to. -/
def blame (n : K) : List (Act α) → List (K × α) → List (K × α)
  | [], _ => []
  | keep _ :: as, [] => blame n as []
  | keep _ :: as, p :: old => p :: blame n as old
  | drop _ :: as, old => blame n as old.tail
  | block gs _ :: as, old => gs.map (n, ·) ++ blame n as old

@[simp] theorem blame_nil (n : K) (old : List (K × α)) : blame n [] old = [] := rfl
@[simp] theorem blame_keep (n : K) (a : α) (as : List (Act α)) (p : K × α) (old : List (K × α)) :
    blame n (keep a :: as) (p :: old) = p :: blame n as old := rfl
@[simp] theorem blame_drop (n : K) (a : α) (as : List (Act α)) (p : K × α) (old : List (K × α)) :
    blame n (drop a :: as) (p :: old) = blame n as old := rfl
@[simp] theorem blame_block (n : K) (gs : List α) (c : Bool) (as : List (Act α)) (old : List (K × α)) :
    blame n (block gs c :: as) old = gs.map (n, ·) ++ blame n as old := rfl

/-- The records themselves are those that the edit leads to. -/
theorem blame_records {n : K} {as : List (Act α)} {old : List (K × α)}
    (h : as.flatMap Act.old = old.map Prod.snd) : (blame n as old).map Prod.snd = as.flatMap Act.new := by
  induction as generalizing old with
  | nil => rfl
  | cons x as ih =>
    cases x with
    | keep a =>
      cases old with
      | nil => simp [Act.old] at h
      | cons p old =>
        obtain ⟨rfl, hrest⟩ := by simpa [Act.old] using h
        simp [ih hrest, Act.new]
    | drop a =>
      cases old with
      | nil => simp [Act.old] at h
      | cons p old =>
        obtain ⟨rfl, hrest⟩ := by simpa [Act.old] using h
        simp [ih hrest, Act.new]
    | block gs c => simp [ih (by simpa [Act.old] using h), Act.new, Function.comp_def]

end Act

variable [LinearOrder K]

open Act

/-! ### What a version depends on -/

/-- Who shows a record only depends on the keys that have a region open. -/
theorem owner_congr_open {S T : Set K} {o : Open K} (h : ∀ k, o k ≠ none → (k ∈ S ↔ k ∈ T)) :
    owner S o = owner T o := by
  refine owner_congr fun k => and_congr_right fun hk => ?_
  refine and_congr (h k (by simp [hk])) (forall_congr' fun j => imp_congr_right fun _ => or_congr_right ?_)
  exact and_congr_right fun hj => not_congr (h j (by simp [hj]))

/-- **A version only depends on the keys that the weave is about.** -/
theorem select_congr {S T : Set K} {o : Open K} {items : List (Item K α)} (ho : ∀ k, o k ≠ none → (k ∈ S ↔ k ∈ T))
    (h : ∀ x ∈ items, ∀ k, x.key? = some k → (k ∈ S ↔ k ∈ T)) : select S o items = select T o items := by
  induction items generalizing o with
  | nil => rfl
  | cons x r ih =>
    rw [select_cons, select_cons, emit_congr (owner_congr_open ho) x]
    refine congrArg _ (ih (fun k hk => ?_) fun y hy => h y (List.mem_cons_of_mem x hy))
    by_cases hx : x.key? = some k
    · exact h x List.mem_cons_self k hx
    · rw [act_of_key_ne o hx] at hk
      exact ho k hk

/-- The keys that show records are in the version. -/
theorem mem_of_mem_select {S : Set K} {o : Open K} {items : List (Item K α)} {p : K × α}
    (h : p ∈ select S o items) : p.1 ∈ S := by
  induction items generalizing o with
  | nil => simp at h
  | cons x r ih =>
    rcases List.mem_append.mp h with h | h
    · cases x with
      | text a =>
        rcases ho : owner S o with _ | k
        · simp [emit_text_none ho] at h
        · obtain rfl : p = (k, a) := by simpa [emit_text_some ho] using h
          exact (owner_eq_some_iff.mp ho).2.1
      | start c k a => simp at h
      | fin k a => simp at h
    · exact ih h

/-- The keys that show records are those of regions. -/
theorem key_of_mem_select {S : Set K} {o : Open K} {items : List (Item K α)} {p : K × α} (h : p ∈ select S o items) :
    o p.1 ≠ none ∨ ∃ x ∈ items, x.key? = some p.1 := by
  induction items generalizing o with
  | nil => simp at h
  | cons x r ih =>
    rcases List.mem_append.mp h with h | h
    · left
      cases x with
      | text a =>
        rcases ho : owner S o with _ | k
        · simp [emit_text_none ho] at h
        · obtain rfl : p = (k, a) := by simpa [emit_text_some ho] using h
          simp [(owner_eq_some_iff.mp ho).1]
      | start c k a => simp at h
      | fin k a => simp at h
    · rcases ih h with h | ⟨y, hy, hk⟩
      · by_cases hx : x.key? = some p.1
        · exact .inr ⟨x, List.mem_cons_self, hx⟩
        · rw [act_of_key_ne o hx] at h
          exact .inl h
      · exact .inr ⟨y, List.mem_cons_of_mem x hy, hk⟩

/-! ### The new version, attributed -/

namespace Splice

variable {n : K} {S T : Set K} {o : Open K} {d : Bool} {as : List (Act α)} {old new : List (Item K α)}

/-- **The new version shows what the edit makes of the base version.** -/
theorem annotated (h : Splice n S o d as old new) (hU : Under n old) (ht : Top n o) (hc : Closed as) :
    select (insert n S) (mark n d o) new = blame n as (select S o old) := by
  induction h with
  | nil => rfl
  | @bracket o d as x r r' hx _ ih =>
    have := ih hU.tail (ht.act hU.head) hc
    rw [select_cons, act_mark hU.free.head]
    cases x with
    | text a => exact absurd rfl hx
    | start c k a => simpa using this
    | fin k a => simpa using this
  | @hidden o d as a r r' ho _ ih =>
    have := ih hU.tail ht hc
    have hno : owner (insert n S) (mark n d o) = none := by
      cases d
      · rw [mark_false, owner_insert_of_none ht.self, ho]
      · exact owner_insert_del ht
    simpa [emit_text_none hno, emit_text_none ho] using this
  | kept ho _ ih =>
    obtain ⟨k, hk⟩ := Option.ne_none_iff_exists'.mp ho
    have hko := (owner_insert_of_none ht.self).trans hk
    have := ih hU.tail ht ((closed_keep _ _).mp hc)
    simpa [emit_text_some hko, emit_text_some hk] using this
  | @dropped o as a r r' ho _ ih =>
    obtain ⟨k, hk⟩ := Option.ne_none_iff_exists'.mp ho
    have hno : owner (insert n S) (mark n true o) = none := owner_insert_del ht
    have := ih hU.tail ht ((closed_drop _ _).mp hc)
    simpa [emit_text_none hno, emit_text_some hk] using this
  | @openDel o a as r r' w _ _ ih => simpa [mark] using ih hU ht hc
  | @closeDel o as r r' w _ ih =>
    rw [select_cons, act_fin, mark_close ht.self]
    exact ih hU ht hc
  | @block o as r r' w w' gs c _ _ ih =>
    obtain ⟨rfl, hc'⟩ := (closed_block gs c as).mp hc
    rw [mark_false, select_block _ w w' gs ht.self, select_texts_some (owner_insert_ins ht), blame_block]
    exact congrArg _ (ih hU ht hc')

end Splice

/-! ### Unnested insertions -/

/-- No insertion is opened inside an insertion of a later version. -/
def AllUnnested : Open K → List (Item K α) → Prop
  | _, [] => True
  | o, x :: r => (∀ n a, x = .start .ins n a → ∀ k, n < k → o k ≠ some .ins) ∧ AllUnnested (act o x) r

@[simp] theorem allUnnested_nil (o : Open K) : AllUnnested o ([] : List (Item K α)) := trivial
@[simp] theorem allUnnested_cons (o : Open K) (x : Item K α) (r : List (Item K α)) : AllUnnested o (x :: r) ↔
    (∀ n a, x = .start .ins n a → ∀ k, n < k → o k ≠ some .ins) ∧ AllUnnested (act o x) r := Iff.rfl

/-- The insertions of each version are unnested. -/
theorem AllUnnested.unnested {o : Open K} {items : List (Item K α)} (h : AllUnnested o items) (n : K) :
    Unnested n o items := by
  induction items generalizing o with
  | nil => trivial
  | cons x r ih => exact ⟨h.1 n, ih h.2⟩

theorem allUnnested_texts (o : Open K) (gs : List α) (r : List (Item K α)) :
    AllUnnested o (gs.map .text ++ r) ↔ AllUnnested o r := by
  induction gs with
  | nil => rfl
  | cons g gs ih => simp [ih]

/-- Whether an item opens an insertion inside a later one does not depend on a deletion that is open. -/
theorem mark_ne_ins {n : K} {o : Open K} (ho : o n = none) (d : Bool) (k : K) :
    mark n d o k ≠ some .ins ↔ o k ≠ some .ins := by
  cases d with
  | false => rfl
  | true =>
    by_cases hk : k = n
    · subst hk
      simp [mark, ho]
    · simp [mark, Function.update_of_ne hk]

/-- **Splicing keeps the insertions unnested**, if every block is closed. -/
theorem Splice.allUnnested {n : K} {S : Set K} {o : Open K} {d : Bool} {as : List (Act α)} {old new : List (Item K α)}
    (h : Splice n S o d as old new) (hU : Under n old) (ht : Top n o) (hc : Closed as) (hu : AllUnnested o old) :
    AllUnnested (mark n d o) new := by
  induction h with
  | nil => trivial
  | @bracket o d as x r r' hx _ ih =>
    rw [allUnnested_cons, act_mark hU.free.head]
    refine ⟨fun m a hm k hk => ?_, ih hU.tail (ht.act hU.head) hc hu.2⟩
    exact (mark_ne_ins ht.self d k).mpr (hu.1 m a hm k hk)
  | hidden _ _ ih => exact ⟨by simp, ih hU.tail ht hc hu.2⟩
  | kept _ _ ih => exact ⟨by simp, ih hU.tail ht ((closed_keep _ _).mp hc) hu.2⟩
  | dropped _ _ ih => exact ⟨by simp, ih hU.tail ht ((closed_drop _ _).mp hc) hu.2⟩
  | openDel w _ _ ih => exact ⟨by simp, ih hU ht hc hu⟩
  | closeDel w _ ih =>
    refine ⟨by simp, ?_⟩
    rw [act_fin, mark_close ht.self]
    exact ih hU ht hc hu
  | @block o as r r' w w' gs c _ _ ih =>
    obtain ⟨rfl, hc'⟩ := (closed_block gs c as).mp hc
    simp only [blockItems, if_true, List.cons_append, List.append_assoc, allUnnested_cons, allUnnested_texts]
    refine ⟨fun m a hm k hk => ?_, by simp, ?_⟩
    · -- the new version is above everything that is open
      obtain rfl : n = m := (Item.start.inj hm).2.1
      simp [ht k hk.le]
    · rw [mark_false, act_start, List.nil_append, act_fin, update_close ht.self]
      exact ih hU ht hc' hu

/-- **Stripping keeps the insertions unnested.** -/
theorem strip_allUnnested {lax : Bool} {n : K} {m : Mode} {o : Open K} {items out : List (Item K α)}
    (hu : AllUnnested o items) (h : strip lax n m items = some out) : AllUnnested (Function.update o n none) out := by
  have hclosed : ∀ (o : Open K) k, o k ≠ some .ins → Function.update o n none k ≠ some .ins := by
    intro o k hk
    by_cases hkn : k = n
    · subst hkn
      simp
    · rwa [Function.update_of_ne hkn]
  induction items generalizing m o out with
  | nil =>
    rw [strip_nil] at h
    split at h
    · obtain rfl := Option.some.inj h
      trivial
    · cases h
  | cons x r ih =>
    rcases hk : x.key? with _ | k
    · obtain ⟨a, rfl⟩ : ∃ a, x = .text a := by cases x <;> simp_all
      rw [strip_text] at h
      split at h
      · exact ih hu.2 h
      · obtain ⟨out', h', rfl⟩ := Option.map_eq_some_iff.mp h
        exact ⟨by simp, ih hu.2 h'⟩
    · by_cases hkn : x.key? = some n
      · rw [strip_own hkn] at h
        obtain ⟨m', -, h'⟩ := Option.bind_eq_some_iff.mp h
        rw [← act_own x hkn]
        exact ih hu.2 h'
      · rw [strip_other (by simp [hk]) hkn] at h
        split at h
        · cases h
        · obtain ⟨out', h', rfl⟩ := Option.map_eq_some_iff.mp h
          rw [allUnnested_cons, act_update_comm o hkn]
          exact ⟨fun j a hj k hlt => hclosed o k (hu.1 j a hj k hlt), ih hu.2 h'⟩

end CSSC.Library.Weave
