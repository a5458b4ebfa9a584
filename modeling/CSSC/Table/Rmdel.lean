import CSSC.Body.ReadBack
import CSSC.Body.Accepted
import CSSC.Table.SeqPrep

/-!
# Removing a delta

`sccs_file::rmdel` marks a delta as removed and takes its brackets and its lines out of the body, if no other current
delta refers to it. Whether the file may be edited at all is checked by the callers and left out, and so is the
writing of the file.

**Every other version stays the same**, when the numbers of the deltas are distinct, the removed insertions are not
nested in later ones, and what is left of the body begins with an `^AI` (`rmdel_keeps_others`). Without any one of
these conditions it may not (`rmdel_changes_others`).
-/

namespace CSSC.Table

open CSSC.Lines CSSC.Body CSSC.Library.Weave DeltaTable

/-! ### `rmdel` -/

/-- A current delta refers to the number `seq`. -/
def Delta.refersTo (d : Delta) (seq : ℕ) : Bool :=
  d.prevSeq = seq || d.included.contains seq || d.excluded.contains seq || d.ignored.contains seq

/-- `set_type('R')` for the delta that `find` finds. -/
def markRemoved (id : Sid) : DeltaTable → DeltaTable
  | [] => []
  | d :: T => if !d.removed && d.id = id then { d with type := .R } :: T else d :: markRemoved id T

/-- `sccs_file::rmdel`. `errno` is the error number that is found at the end of the body. -/
def rmdel (errno : ℕ) (T : DeltaTable) (body : Reading) (id : Sid) : Except Quit (DeltaTable × List Line) :=
  match T.find id with
  | none => .error (.failure "Revision is not present in ")
  | some d =>
    if T.current.any (·.refersTo d.seq) then .error (.failure "Revision has a successor or is used")
    else do
      let lines ← remove errno d.seq body
      return (markRemoved id T, lines)

/-- No current delta refers to a removed one. -/
def Settled (T : DeltaTable) : Prop := ∀ d ∈ T.current, ∀ e ∈ T, e.removed = true → d.refersTo e.seq = false

instance (T : DeltaTable) : Decidable (Settled T) := inferInstanceAs (Decidable (∀ d ∈ T.current, ∀ e ∈ T, _))

/-- No insertion of `n` is opened inside an insertion of a later delta. -/
def UnnestedIn (n : ℕ) (ls : List Line) : Prop := ∃ items, Parses ls items ∧ Unnested n shut items

/-! ### The type does not matter -/

/-- A delta without its type. -/
def Delta.untyped (d : Delta) : Delta := { d with type := .D }

theorem markRemoved_untyped (id : Sid) (T : DeltaTable) :
    (markRemoved id T).map Delta.untyped = T.map Delta.untyped := by
  induction T with
  | nil => rfl
  | cons d T ih =>
    unfold markRemoved
    split
    · rfl
    · rw [List.map_cons, List.map_cons, ih]

theorem highestSeqno_untyped (T : DeltaTable) : highestSeqno (T.map Delta.untyped) = T.highestSeqno := by
  unfold highestSeqno
  rw [List.foldr_map]
  rfl

theorem at?_untyped (T : DeltaTable) (y : ℕ) : at? (T.map Delta.untyped) y = (T.at? y).map Delta.untyped := by
  unfold at?
  rw [← List.map_reverse, List.find?_map]
  rfl

theorem deltaAtSeqExists_untyped (T : DeltaTable) (y : ℕ) :
    deltaAtSeqExists (T.map Delta.untyped) y = T.deltaAtSeqExists y := by
  unfold deltaAtSeqExists
  rw [highestSeqno_untyped, at?_untyped, Option.isSome_map]

theorem deltaAtSeq_untyped (T : DeltaTable) (y : ℕ) :
    deltaAtSeq (T.map Delta.untyped) y = (T.deltaAtSeq y).map Delta.untyped := by
  unfold deltaAtSeq
  rw [highestSeqno_untyped, at?_untyped]
  split
  · rcases T.at? y with _ | d <;> rfl
  · rfl

theorem predecessors_untyped (T : DeltaTable) (seq fuel y : ℕ) (st : SeqState) :
    predecessors (T.map Delta.untyped) seq fuel y st = predecessors T seq fuel y st := by
  induction fuel generalizing y st with
  | zero => rfl
  | succ fuel ih =>
    unfold predecessors
    rw [deltaAtSeqExists_untyped, deltaAtSeq_untyped]
    rcases T.deltaAtSeq y with q | d
    · rfl
    · simp only [Except.map, ok_bind, ih]
      rfl

theorem applyLists_untyped {list : Delta → List ℕ} (hl : ∀ d, list d.untyped = list d) (T : DeltaTable)
    (set : SeqState → ℕ → SeqState) (ys : List ℕ) (st : SeqState) :
    applyLists (T.map Delta.untyped) list set ys st = applyLists T list set ys st := by
  induction ys generalizing st with
  | nil => rfl
  | cons y ys ih =>
    unfold applyLists
    rw [deltaAtSeq_untyped]
    rcases T.deltaAtSeq y with q | d
    · simp only [Except.map, ih]
    · simp only [Except.map, ok_bind, ih, hl]

/-- **`prepare_seqstate_1` does not look at the types.** -/
theorem prepareSeqstate1_untyped (T : DeltaTable) (st : SeqState) (seq : ℕ) :
    prepareSeqstate1 (T.map Delta.untyped) st seq = prepareSeqstate1 T st seq := by
  unfold prepareSeqstate1
  simp only [predecessors_untyped, applyLists_untyped fun d : Delta => (rfl : d.untyped.included = d.included),
    applyLists_untyped fun d : Delta => (rfl : d.untyped.excluded = d.excluded),
    applyLists_untyped fun d : Delta => (rfl : d.untyped.ignored = d.ignored)]

/-! ### No version contains what no current delta refers to -/

theorem mem_current {T : DeltaTable} {d : Delta} : d ∈ T.current ↔ d ∈ T ∧ d.removed = false := by
  simp [current]

/-- **A version does not contain a number that no current delta refers to**, other than its own. -/
theorem notMem_version {T : DeltaTable} (hset : Settled T) (hn : (T.map Delta.seq).Nodup) {n : ℕ}
    (href : ∀ d ∈ T.current, d.refersTo n = false) {E : Delta} (hE : E ∈ T.current) (hne : E.seq ≠ n)
    {st st' : SeqState} (hst : st.includedSet = ∅) (h : prepareSeqstate1 T st E.seq = .ok st') : n ∉ st'.includedSet := by
  -- every number of the version is that of a current delta, or of none, and is not `n`
  let Q : ℕ → Prop := fun y => y ≠ n ∧ ∀ e, T.at? y = some e → e ∈ T.current
  have hstep : ∀ d ∈ T.current, ∀ s, d.refersTo s = true → Q s := by
    intro d hd s hs
    refine ⟨fun e => ?_, fun e he => ?_⟩
    · rw [e, href d hd] at hs
      cases hs
    · obtain ⟨hm, rfl⟩ := mem_of_at? he
      rcases hr : e.removed with _ | _
      · exact mem_current.mpr ⟨hm, hr⟩
      · rw [hset d hd e hm hr] at hs
        cases hs
  have hQ := prepareSeqstate1_inherit (Q := Q)
    (fun y d hy hd => hstep d (hy.2 d hd) _ (by simp [Delta.refersTo]))
    (fun y d hy hd s hs => hstep d (hy.2 d hd) _ (by simp [Delta.refersTo, hs]))
    (by simp [hst]) ⟨hne, fun e he => by
      rw [at?_of_nodup hn (mem_current.mp hE).1] at he
      exact Option.some.inj he ▸ hE⟩ h
  exact fun hmem => (hQ n hmem).1 rfl

/-! ### The rewritten body -/

/-- **A version without `n` reads the same from the body that `remove` writes.** -/
theorem get_after_remove {errno n hi : ℕ} {ss fin : SeqState} {R : Reading} {vis : Visible} {out : List Line}
    (hf : ss.Fresh) (hget : get hi ss R = .ok (vis, fin)) (hcl : Closed R.lines) (hn : n ∉ ss.includedSet)
    (hu : UnnestedIn n R.lines) (hfirst : ∃ l, out.head? = some l ∧ l.kind = letterI)
    (hrm : remove errno n R = .ok out) (b : Linebuf) :
    ∃ fin', get hi ss (readBody b (storedLines out)) = .ok (vis, fin') := by
  obtain ⟨he, items, hs, hfin⟩ := sound_of_get hf hget hcl
  obtain ⟨items', hp', hun⟩ := hu
  obtain rfl := hp'.unique hs.parses
  have hvis := visible_of_get hf hget hs.parses hs.inStates hs.legal
  unfold remove at hrm
  rw [he] at hrm
  obtain ⟨kept, hk, rfl⟩ := (removeLoop_eq_ok hs.parses .copy out).mp hrm
  have hsub := (strip_sublist hk).subset
  have hupd : Function.update shut n none = shut := Function.update_eq_self n shut
  have hleg := (strip_legal (o := shut) (n := n) rfl hs.legal (fun _ => by rw [hfin]; rfl) hk).1
  have hsel := strip_select (o := shut) (T := ss.includedSet) hn rfl hun (fun e => by cases e) hk
  rw [hupd] at hleg hsel
  have hgen : Genuine kept := fun x hx => hs.parses.genuine x (hsub hx)
  have hstart : ∃ k l r, kept = .start .ins k l :: r := by
    obtain ⟨l, hl, hkind⟩ := hfirst
    rcases kept with _ | ⟨x, r⟩
    · cases hl
    · obtain rfl : x.raw = l := by simpa using hl
      have hx := hgen x List.mem_cons_self
      rcases hxk : x.key? with _ | k
      · rw [(kind_of_text hx).mp hxk] at hkind
        exact absurd hkind (by decide)
      · rcases (item?_key hx hxk).2.2.2 with ⟨c, hc, hxe⟩ | ⟨hE, -⟩
        · obtain rfl : c = .ins := (SeqState.letterOf_eq_iff c).mp (hc.symm.trans hkind)
          exact ⟨k, x.raw, r, by rw [← hxe]⟩
        · rw [hE] at hkind
          exact absurd hkind (by decide)
  have hsound : Sound hi ss.last (kept.map Item.raw) kept :=
    ⟨hgen.parses, hstart, fun x hx => hs.inRange x (hsub hx), fun x hx => hs.inStates x (hsub hx), hleg⟩
  obtain ⟨fin', hg, -⟩ := get_of_sound hf.tracks hsound
  refine ⟨fin', ?_⟩
  rw [readBody_storedLines, hg, hsel, hvis]

/-! ### The other versions -/

/-- What a successful `rmdel` did. -/
theorem rmdel_eq_ok {errno : ℕ} {T T' : DeltaTable} {R : Reading} {id : Sid} {out : List Line}
    (h : rmdel errno T R id = .ok (T', out)) :
    ∃ d ∈ T.current, d.id = id ∧ T.find id = some d ∧ (∀ e ∈ T.current, e.refersTo d.seq = false) ∧
      T' = markRemoved id T ∧ remove errno d.seq R = .ok out := by
  unfold rmdel at h
  rcases hd : T.find id with _ | d
  · rw [hd] at h
    cases h
  · rw [hd] at h
    simp only at h
    split at h
    · cases h
    · rename_i href
      obtain ⟨lines, hl, h⟩ := bind_eq_ok.mp h
      obtain ⟨rfl, rfl⟩ := Prod.mk.inj (Except.ok.inj h)
      refine ⟨d, List.mem_of_find?_eq_some hd, by simpa using List.find?_some hd, rfl, ?_, rfl, hl⟩
      simpa using href

/-- **Removing a delta keeps every other version**: each other current delta has the same included set as before,
without the removed delta, and shows the same lines, attributed to the same deltas. -/
theorem rmdel_keeps_others {errno : ℕ} {T T' : DeltaTable} {b b' : Linebuf} {body : List UInt8} {id : Sid}
    {out : List Line} (hset : Settled T) (hn : (T.map Delta.seq).Nodup)
    (hrm : rmdel errno T (readBody b body) id = .ok (T', out))
    (hcl : Closed (readBody b body).lines) (hfirst : ∃ l, out.head? = some l ∧ l.kind = letterI) :
    ∃ d ∈ T.current, d.id = id ∧ ∀ E ∈ T.current, E ≠ d → ∀ st : SeqState, st.Fresh → st.includedSet = ∅ →
      prepareSeqstate1 T' st E.seq = prepareSeqstate1 T st E.seq ∧
      ∀ st', prepareSeqstate1 T st E.seq = .ok st' → d.seq ∉ st'.includedSet ∧
        (UnnestedIn d.seq (readBody b body).lines → ∀ hi vis fin, get hi st' (readBody b body) = .ok (vis, fin) →
          ∃ fin', get hi st' (readBody b' (storedLines out)) = .ok (vis, fin')) := by
  obtain ⟨d, hd, hid, -, href, rfl, hlines⟩ := rmdel_eq_ok hrm
  refine ⟨d, hd, hid, fun E hE hEd st hf hst => ⟨?_, fun st' h => ?_⟩⟩
  · rw [← prepareSeqstate1_untyped, markRemoved_untyped, prepareSeqstate1_untyped]
  · have hne : E.seq ≠ d.seq := fun e =>
      hEd (List.inj_on_of_nodup_map hn (mem_current.mp hE).1 (mem_current.mp hd).1 e)
    have hnot := notMem_version hset hn href hE hne hst h
    refine ⟨hnot, fun hu hi vis fin hget => ?_⟩
    exact get_after_remove (prepareSeqstate1_fresh hf h).1 hget hcl hnot hu hfirst hlines b'

/-- 1.1, the branch 1.1.1.1 and 1.2. -/
def threeDeltas : DeltaTable :=
  [⟨.D, ⟨1, 2, 0, 0⟩, 3, 1, [], [], []⟩, ⟨.D, ⟨1, 1, 1, 1⟩, 2, 1, [], [], []⟩, ⟨.D, ⟨1, 1, 0, 0⟩, 1, 0, [], [], []⟩]

theorem textA_plain : ∀ c ∈ ([97] : List UInt8), 32 ≤ c.toNat := by simp

/-- The line `a`. -/
def textA : Line := plainLine [97] textA_plain

/-- The line `x`. -/
def textX : Line := plainLine [120] (by simp)

/-- A body in which the branch adds `x` after `a`. -/
def branchBody : List Line := [insLine 1, textA, endLine 1, insLine 2, textX, endLine 2]

/-- A body in which the branch adds `x` inside what 1.2 adds. -/
def nestedBody : List Line := [insLine 1, textA, endLine 1, insLine 3, insLine 2, textX, endLine 2, endLine 3]

/-- A body that begins with the branch, and with a line that belongs to no delta. -/
def looseBody : List Line := [insLine 2, textX, endLine 2, textX, insLine 1, textA, endLine 1]

/-- The lines stand for items that leave nothing open. -/
theorem closed_of_genuine (items : List (Item ℕ Line)) {ls : List Line} (hl : items.map Item.raw = ls)
    (hg : Genuine items) (hf : finish shut items = shut) : Closed ls := ⟨items, hl ▸ hg.parses, hf⟩

/-- The branch is removed and the others stay. -/
theorem rmdel_keeps_others_sample : ∃ d ∈ threeDeltas.current, d.id = ⟨1, 1, 1, 1⟩ ∧
    ∀ E ∈ threeDeltas.current, E ≠ d → ∀ st : SeqState, st.Fresh → st.includedSet = ∅ →
      prepareSeqstate1 (markRemoved ⟨1, 1, 1, 1⟩ threeDeltas) st E.seq = prepareSeqstate1 threeDeltas st E.seq ∧
      ∀ st', prepareSeqstate1 threeDeltas st E.seq = .ok st' → d.seq ∉ st'.includedSet ∧
        (UnnestedIn d.seq (readBody .initial (storedLines branchBody)).lines →
          ∀ hi vis fin, get hi st' (readBody .initial (storedLines branchBody)) = .ok (vis, fin) →
            ∃ fin', get hi st' (readBody .initial (storedLines [insLine 1, textA, endLine 1])) = .ok (vis, fin')) := by
  refine rmdel_keeps_others (by decide) (by decide) (show rmdel 0 threeDeltas _ _ = _ from rfl) ?_ ⟨insLine 1, rfl, rfl⟩
  rw [readBody_storedLines]
  refine closed_of_genuine [.start .ins 1 (insLine 1), .text textA, .fin 1 (endLine 1),
    .start .ins 2 (insLine 2), .text textX, .fin 2 (endLine 2)] rfl (by decide) ?_
  funext k
  by_cases h1 : k = 1 <;> by_cases h2 : k = 2 <;> simp [shut, h1, h2]

/-- **Without these conditions other versions may change**: an insertion of the branch inside one of 1.2 is shown by
1.2; of two deltas with the same number the one that stays contains the one that is removed; and a body that does not
begin with an `^AI` any more cannot be read. -/
theorem rmdel_changes_others :
    (Settled threeDeltas ∧ Closed nestedBody ∧ ∃ T' out st,
      rmdel 0 threeDeltas (readBody .initial (storedLines nestedBody)) ⟨1, 1, 1, 1⟩ = .ok (T', out) ∧
      prepareSeqstate1 threeDeltas (.new 3 (by decide)) 3 = .ok st ∧
      (get 3 st (readBody .initial (storedLines nestedBody))).map Prod.fst = .ok [(1, textA), (3, textX)] ∧
      (get 3 st (readBody .initial (storedLines out))).map Prod.fst = .ok [(1, textA)]) ∧
    (∃ T : DeltaTable, Settled T ∧ ∃ d ∈ T.current, ∃ E ∈ T.current, ∃ T' out st, E ≠ d ∧
      rmdel 0 T (readBody .initial (storedLines [insLine 1, textA, endLine 1])) d.id = .ok (T', out) ∧
      prepareSeqstate1 T (.new 1 (by decide)) E.seq = .ok st ∧ d.seq ∈ st.includedSet) ∧
    (Closed looseBody ∧ ∃ T' out st,
      rmdel 0 threeDeltas (readBody .initial (storedLines looseBody)) ⟨1, 1, 1, 1⟩ = .ok (T', out) ∧
      prepareSeqstate1 threeDeltas (.new 3 (by decide)) 1 = .ok st ∧
      (get 3 st (readBody .initial (storedLines looseBody))).map Prod.fst = .ok [(1, textA)] ∧
      (get 3 st (readBody .initial (storedLines out))).map Prod.fst = .error (.corrupt "Expected '@I'")) := by
  refine ⟨⟨by decide, ?_, _, _, _, rfl, rfl, rfl, rfl⟩, ?_, ?_, _, _, _, rfl, rfl, rfl, rfl⟩
  · refine closed_of_genuine [.start .ins 1 (insLine 1), .text textA, .fin 1 (endLine 1),
      .start .ins 3 (insLine 3), .start .ins 2 (insLine 2), .text textX, .fin 2 (endLine 2), .fin 3 (endLine 3)]
      rfl (by decide) ?_
    funext k
    by_cases h1 : k = 1 <;> by_cases h2 : k = 2 <;> by_cases h3 : k = 3 <;> simp [shut, h1, h2, h3]
  · refine ⟨[⟨.D, ⟨1, 2, 0, 0⟩, 1, 0, [], [], []⟩, ⟨.D, ⟨1, 1, 0, 0⟩, 1, 0, [], [], []⟩], by decide,
      ⟨.D, ⟨1, 1, 0, 0⟩, 1, 0, [], [], []⟩, by decide, ⟨.D, ⟨1, 2, 0, 0⟩, 1, 0, [], [], []⟩, by decide, _, _, _,
      by decide, rfl, rfl, rfl⟩
  · refine closed_of_genuine [.start .ins 2 (insLine 2), .text textX, .fin 2 (endLine 2), .text textX,
      .start .ins 1 (insLine 1), .text textA, .fin 1 (endLine 1)] rfl (by decide) ?_
    funext k
    by_cases h1 : k = 1 <;> by_cases h2 : k = 2 <;> simp [shut, h1, h2]

end CSSC.Table
