import CSSC.Runs.Diff

/-!
# Where the lines of the body come from

The program prints the brackets of the body itself, and copies the other lines from files of the users. The `Origin`
of a line says which; nothing in the program depends on it. A line of the old body keeps its own (`originsOf`).

**When whole lines of text are inserted, the lines that are read back are still control lines exactly when they come
from the program** (`marks_originsOf`).
-/

namespace CSSC.Runs

open CSSC.Lines CSSC.Body CSSC.Library.Weave

/-- Where a line of the body comes from. -/
inductive Origin where
  /-- The program printed it, with `fprintf(out, "\001%c %u\n", …)`. -/
  | program
  /-- It was copied from a file of a user. -/
  | user
  deriving DecidableEq, Repr

/-- The origins of what is written, when the lines of the old body have the origins `os`. -/
def originsOf : List Origin → List Out → List Origin
  | _, [] => []
  | os, .control _ _ :: out => .program :: originsOf os out
  | os, .inserted _ :: out => .user :: originsOf os out
  | os, .copied _ :: out => os.headD .user :: originsOf os.tail out

/-- A line is a control line exactly when it comes from the program. -/
def Marks (l : Line) (o : Origin) : Prop := l.kind ≠ 0 ↔ o = .program

/-- The line of the old body that is copied. -/
def copied? : Out → Option Line
  | .copied l => some l
  | _ => none

section

variable {n : ℕ} {S : Set ℕ} {o : Open ℕ} {b : Bool} {es : List Edit} {items : List (Item ℕ Line)} {out : List Out}

theorem filterMap_copied?_inserted (ss : List CLine) : (ss.map Out.inserted).filterMap copied? = [] := by
  induction ss with
  | nil => rfl
  | cons s ss ih => exact ih

/-- The old body is copied line by line. -/
theorem Written.copies (h : Written n S o b es items out) : out.filterMap copied? = items.map Item.raw := by
  induction h with
  | nil => rfl
  | bracket hx _ ih => simp [copied?, ih]
  | hidden ho _ ih => simp [copied?, ih]
  | kept ho _ ih => simp [copied?, ih]
  | dropped ho _ ih => simp [copied?, ih]
  | openDel hd _ ih => exact ih
  | closeDel _ ih => exact ih
  | @insert o es ss items out hd _ ih =>
    show (ss.map Out.inserted ++ .control letterE n :: out).filterMap copied? = _
    rw [List.filterMap_append, filterMap_copied?_inserted, List.nil_append]
    exact ih

/-- What is printed besides is a bracket. -/
theorem Written.controls (h : Written n S o b es items out) {c : UInt8} {k : ℕ} (hc : Out.control c k ∈ out) :
    c = letterI ∨ c = letterD ∨ c = letterE := by
  induction h with
  | nil => simp at hc
  | bracket hx _ ih => exact ih (by simpa using hc)
  | hidden ho _ ih => exact ih (by simpa using hc)
  | kept ho _ ih => exact ih (by simpa using hc)
  | dropped ho _ ih => exact ih (by simpa using hc)
  | openDel hd _ ih =>
    rcases List.mem_cons.mp hc with hc | hc
    · exact .inr (.inl (Out.control.inj hc).1)
    · exact ih hc
  | closeDel _ ih =>
    rcases List.mem_cons.mp hc with hc | hc
    · exact .inr (.inr (Out.control.inj hc).1)
    · exact ih hc
  | insert ss hd _ ih =>
    rcases List.mem_cons.mp hc with hc | hc
    · exact .inl (Out.control.inj hc).1
    · rcases List.mem_append.mp hc with hc | hc
      · simp at hc
      · rcases List.mem_cons.mp hc with hc | hc
        · exact .inr (.inr (Out.control.inj hc).1)
        · exact ih hc

/-- What is inserted is a string of the edits. -/
theorem Written.inserts (h : Written n S o b es items out) {s : CLine} (hs : Out.inserted s ∈ out) :
    ∃ ss, Edit.insert ss ∈ es ∧ s ∈ ss := by
  have htail : ∀ {e : Edit} {es' : List Edit}, (∃ ss, Edit.insert ss ∈ es' ∧ s ∈ ss) →
      ∃ ss, Edit.insert ss ∈ e :: es' ∧ s ∈ ss :=
    fun ⟨ss, hss, hmem⟩ => ⟨ss, List.mem_cons_of_mem _ hss, hmem⟩
  induction h with
  | nil => simp at hs
  | bracket hx _ ih => exact ih (by simpa using hs)
  | hidden ho _ ih => exact ih (by simpa using hs)
  | kept ho _ ih => exact htail (ih (by simpa using hs))
  | dropped ho _ ih => exact htail (ih (by simpa using hs))
  | openDel hd _ ih => exact ih (by simpa using hs)
  | closeDel _ ih => exact ih (by simpa using hs)
  | insert ss hd _ ih =>
    simp only [List.mem_cons, List.mem_append, List.mem_map, reduceCtorEq, false_or] at hs
    rcases hs with ⟨t, ht, he⟩ | hs
    · exact ⟨ss, List.mem_cons_self, Out.inserted.inj he ▸ ht⟩
    · exact htail (ih hs)

end

/-- **Whole lines of text keep the body marked**: what is written is lines, and each is a control line exactly when it
comes from the program. -/
theorem marks_originsOf {out : List Out} {os : List Origin} (hm : List.Forall₂ Marks (out.filterMap copied?) os)
    (hctl : ∀ c k, Out.control c k ∈ out → 32 < c.toNat)
    (hins : ∀ s, Out.inserted s ∈ out → ∃ g : Line, s = g.delivered ∧ g.kind = 0) :
    ∃ ls, outBytes out = storedLines ls ∧ List.Forall₂ Marks ls (originsOf os out) := by
  induction out generalizing os with
  | nil => exact ⟨[], rfl, .nil⟩
  | cons x out ih =>
    have hctl' : ∀ c k, Out.control c k ∈ out → 32 < c.toNat := fun c k h => hctl c k (List.mem_cons_of_mem x h)
    have hins' := fun s h => hins s (List.mem_cons_of_mem x h)
    cases x with
    | control c k =>
      obtain ⟨ls, hb, hls⟩ := ih hm hctl' hins'
      have hc := hctl c k List.mem_cons_self
      refine ⟨controlLine c hc k :: ls, by rw [outBytes_cons, hb]; rfl, .cons ?_ hls⟩
      rw [Marks, controlLine_kind]
      refine iff_of_true (fun e => ?_) rfl
      subst e
      exact absurd hc (by decide)
    | inserted s =>
      obtain ⟨ls, hb, hls⟩ := ih hm hctl' hins'
      obtain ⟨g, rfl, hg⟩ := hins s List.mem_cons_self
      refine ⟨g :: ls, by rw [outBytes_cons, hb]; rfl, .cons ?_ hls⟩
      simp [Marks, hg]
    | copied l =>
      rw [List.filterMap_cons_some (show copied? (.copied l) = some l from rfl)] at hm
      cases hm with
      | cons h hm =>
        obtain ⟨ls, hb, hls⟩ := ih hm hctl' hins'
        exact ⟨l :: ls, by rw [outBytes_cons, hb]; rfl, .cons h hls⟩

/-- Lines that are kept keep their origins. -/
theorem marks_sublist {ls ls' : List Line} {os os' : List Origin} (hm : List.Forall₂ Marks ls os)
    (hlen : ls'.length = os'.length) (hsub : (ls'.zip os').Sublist (ls.zip os)) : List.Forall₂ Marks ls' os' := by
  rw [List.forall₂_iff_zip]
  refine ⟨hlen, fun {l o} h => ?_⟩
  exact (List.forall₂_iff_zip.mp hm).2 (hsub.subset h)

end CSSC.Runs
