import CSSC.Header.Alike
import CSSC.Header.Reread

/-!
# The checksum of a written file

A history file is written with a line in place of its checksum. When the update ends, the counts of the new delta, the
value of the flag `e` and the checksum are put over what was written at first.

`startUpdate` is what is written to begin with, the line for the checksum, the new delta if there is one, and the
header; the body follows. `rehackEncodedFlag` looks for the first line `^Af e`, and finds it in spite of partial
matches (`findFlag_eq_some`). `endUpdate` goes up to where the x-file is closed. **A file that is written differs from
what was flushed in the places meant only, and its checksum is right** (`finish_finished`).
-/

namespace CSSC.Header

open CSSC.Lines CSSC.Body CSSC.Table CSSC.Library.Decimal

/-! ### Writing in place -/

/-- The line in place of the checksum. -/
def dummyLine : List UInt8 := [1, 104, 45, 45, 45, 45, 45]

/-- Characters are written over the first ones of a file. -/
def overwrite (f s : List UInt8) : List UInt8 := s ++ f.drop s.length

/-- The new delta, if there is one. -/
def newDelta : Option FullDelta → Except Quit Texts
  | none => .ok []
  | some d => writeDelta d

/-- `start_update` and `write`. -/
def startUpdate (new : Option FullDelta) (file : SccsFile) : Except Quit (List UInt8) := do
  let delta ← newDelta new
  let header ← write file
  return printed (dummyLine :: delta ++ header)

/-- The loops of `rehack_encoded_flag`: how many characters are read when the flag is found. What is left of `match`
comes first; it is empty within another line. A character that does not match may end a line itself. -/
def findFlag : List UInt8 → List UInt8 → Option ℕ
  | _, [] => none
  | pat, ch :: f =>
    (if pat.head? = some ch then if pat.tail = [] then some 0 else findFlag pat.tail f
    else findFlag (if ch = 10 then encodedMatch else []) f).map (· + 1)

/-- `rehack_encoded_flag`. -/
def rehackEncodedFlag (f : List UInt8) (sum : ℤ) : Except Quit (List UInt8 × ℤ) :=
  match findFlag encodedMatch f with
  | none => .error (.failure "internal error: failed to find encoded flag to adjust it in the output file")
  | some n => if f[n]? = some 48 then .ok (f.set n 49, (sum + 1) % 65536) else .ok (f, sum)

/-- `end_update`, where `encoded` is the flag. -/
def endUpdate (encoded : Bool) (x : List UInt8) : Except Quit (List UInt8) := do
  let r ← parseHeader true x
  let (x, sum) ← if encoded then rehackEncodedFlag x r.computedSum else .ok (x, r.computedSum)
  return overwrite x (1 :: 104 :: padded 5 sum.toNat)

/-- The counts of a delta are put over those that were written. -/
def setCounts (d : FullDelta) (x : List UInt8) : List UInt8 :=
  overwrite x (dummyLine ++ 10 :: 1 :: 115 :: 32 :: iduText d)

/-- The file when the counts of the new delta are set, if there is one. -/
def counted (new : Option FullDelta) (x : List UInt8) : List UInt8 :=
  match new with
  | none => x
  | some d => setCounts d x

/-- `end_update`, with the new delta if there is one. -/
def finish (new : Option FullDelta) (encoded : Bool) (x : List UInt8) : Except Quit (List UInt8) :=
  endUpdate encoded (counted new x)

/-! ### The search for the flag -/

/-- A line that begins with `^Af e` has its value at this place. -/
def ValueAt (f : List UInt8) (i : ℕ) : Prop :=
  ∃ pre post, f = pre ++ encodedMatch ++ post ∧ EndsLine pre ∧ i = pre.length + encodedMatch.length

/-- The first line that begins with `^Af e` has its value at this place. -/
def EncodedAt (f : List UInt8) (i : ℕ) : Prop := ValueAt f i ∧ ∀ j, ValueAt f j → i ≤ j

/-- The same within a line. -/
def LaterAt (f : List UInt8) (i : ℕ) : Prop :=
  ∃ pre post, f = pre ++ encodedMatch ++ post ∧ pre.getLast? = some 10 ∧ i = pre.length + encodedMatch.length

theorem endsLine_iff_getLast? {pre : List UInt8} : EndsLine pre ↔ pre = [] ∨ pre.getLast? = some 10 := by
  rcases List.eq_nil_or_concat pre with rfl | ⟨p, c, rfl⟩
  · simp [EndsLine]
  · simp [EndsLine]

theorem valueAt_iff {f : List UInt8} {i : ℕ} :
    ValueAt f i ↔ (encodedMatch <+: f ∧ i = encodedMatch.length) ∨ LaterAt f i := by
  constructor
  · rintro ⟨pre, post, rfl, he, rfl⟩
    rcases endsLine_iff_getLast?.mp he with rfl | hl
    · exact .inl ⟨⟨post, rfl⟩, Nat.zero_add _⟩
    · exact .inr ⟨pre, post, rfl, hl, rfl⟩
  · rintro (⟨⟨post, rfl⟩, rfl⟩ | ⟨pre, post, rfl, hl, rfl⟩)
    · exact ⟨[], post, rfl, rfl, (Nat.zero_add _).symm⟩
    · exact ⟨pre, post, rfl, endsLine_iff_getLast?.mpr (.inr hl), rfl⟩

/-- One character further. -/
theorem laterAt_cons {c : UInt8} {f : List UInt8} {i : ℕ} :
    LaterAt (c :: f) i ↔ ∃ j, i = j + 1 ∧ if c = 10 then ValueAt f j else LaterAt f j := by
  have hpre : ∀ pre : List UInt8,
      (c :: pre).getLast? = some 10 ↔ if c = 10 then EndsLine pre else pre.getLast? = some 10 := by
    intro pre
    rw [endsLine_iff_getLast?, List.getLast?_cons]
    rcases List.eq_nil_or_concat pre with rfl | ⟨p, d, rfl⟩
    · simp
    · simp
  constructor
  · rintro ⟨pre, post, hf, hl, rfl⟩
    obtain ⟨d, pre, rfl⟩ : ∃ d p, pre = d :: p := List.exists_cons_of_ne_nil (by rintro rfl; simp at hl)
    obtain ⟨rfl, rfl⟩ := List.cons.inj hf
    refine ⟨pre.length + encodedMatch.length, by rw [List.length_cons, Nat.add_right_comm], ?_⟩
    have hl := (hpre pre).mp hl
    split_ifs with hc
    · exact ⟨pre, post, rfl, (if_pos hc).mp hl, rfl⟩
    · exact ⟨pre, post, rfl, (if_neg hc).mp hl, rfl⟩
  · rintro ⟨j, rfl, h⟩
    split_ifs at h with hc
    · obtain ⟨pre, post, rfl, hl, rfl⟩ := h
      exact ⟨c :: pre, post, rfl, (hpre pre).mpr ((if_pos hc).mpr hl), by rw [List.length_cons, Nat.add_right_comm]⟩
    · obtain ⟨pre, post, rfl, hl, rfl⟩ := h
      exact ⟨c :: pre, post, rfl, (hpre pre).mpr ((if_neg hc).mpr hl), by rw [List.length_cons, Nat.add_right_comm]⟩

/-- Characters that end no line are passed. -/
theorem laterAt_append {q f : List UInt8} (hq : (10 : UInt8) ∉ q) {i : ℕ} :
    LaterAt (q ++ f) (q.length + i) ↔ LaterAt f i := by
  induction q with
  | nil => rw [List.nil_append, List.length_nil, Nat.zero_add]
  | cons c q ih =>
    rw [List.mem_cons, not_or] at hq
    rw [← ih hq.2, List.cons_append, laterAt_cons, List.length_cons]
    simp only [if_neg (Ne.symm hq.1)]
    exact ⟨fun ⟨j, hj, h⟩ => (show q.length + i = j by omega) ▸ h, fun h => ⟨_, by omega, h⟩⟩

/-- The least number with a property, if there is one. -/
def Least (P : ℕ → Prop) : Option ℕ → Prop
  | none => ∀ j, ¬ P j
  | some n => P n ∧ ∀ j, P j → n ≤ j

/-- A property of the numbers above zero. -/
theorem Least.succ {P Q : ℕ → Prop} {r : Option ℕ} (h : Least Q r) (hP : ∀ i, P i ↔ ∃ j, i = j + 1 ∧ Q j) :
    Least P (r.map (· + 1)) := by
  cases r with
  | none =>
    rintro i hi
    obtain ⟨j, -, hj⟩ := (hP i).mp hi
    exact h j hj
  | some n =>
    refine ⟨(hP _).mpr ⟨n, rfl, h.1⟩, fun i hi => ?_⟩
    obtain ⟨j, rfl, hj⟩ := (hP i).mp hi
    exact Nat.succ_le_succ (h.2 j hj)

theorem le_of_valueAt {f : List UInt8} {i : ℕ} (h : ValueAt f i) : encodedMatch.length ≤ i := by
  obtain ⟨pre, post, -, -, rfl⟩ := h
  exact Nat.le_add_left _ _

/-- **The search finds the first line**, from the middle of a line, and after characters `q` that match. -/
theorem findFlag_least (f : List UInt8) :
    Least (LaterAt f) (findFlag [] f) ∧
      ∀ q pat, q ++ pat = encodedMatch → pat ≠ [] →
        Least (fun i => ValueAt (q ++ f) (q.length + i)) (findFlag pat f) := by
  induction f with
  | nil =>
    have hlater : ∀ q : List UInt8, (10 : UInt8) ∉ q → ∀ i, ¬ LaterAt q i := by
      rintro q hq i ⟨pre, post, rfl, hl, -⟩
      exact hq (by simp [List.mem_of_getLast? hl])
    refine ⟨hlater [] (by simp), fun q pat hq hpat i h => ?_⟩
    rw [List.append_nil] at h
    have h10 : (10 : UInt8) ∉ q := fun hm => absurd (hq ▸ List.mem_append_left pat hm) (by decide)
    rcases valueAt_iff.mp h with ⟨hp, -⟩ | h
    · -- what was read is shorter than `match`
      have h1 := hp.length_le
      have h2 := congrArg List.length hq
      have h3 := List.length_pos_of_ne_nil hpat
      rw [List.length_append] at h2
      omega
    · exact hlater q h10 _ h
  | cons ch f ih =>
    -- what the search goes on with after a character that does not match
    have hnext : Least (fun i => if ch = 10 then ValueAt f i else LaterAt f i)
        (findFlag (if ch = 10 then encodedMatch else []) f) := by
      split_ifs with hch
      · simpa only [List.nil_append, List.length_nil, Nat.zero_add] using ih.2 [] encodedMatch rfl (by decide)
      · exact ih.1
    refine ⟨?_, fun q pat hq hpat => ?_⟩
    · rw [findFlag, if_neg (by simp)]
      exact hnext.succ fun i => laterAt_cons
    · obtain ⟨p, pat, rfl⟩ := List.exists_cons_of_ne_nil hpat
      have h10 : (10 : UInt8) ∉ q := fun hm => absurd (hq ▸ List.mem_append_left (p :: pat) hm) (by decide)
      have hlen := congrArg List.length hq
      rw [List.length_append, List.length_cons] at hlen
      rw [findFlag, List.head?_cons, List.tail_cons]
      by_cases hp : p = ch
      · subst hp
        rw [if_pos rfl]
        have happ : q ++ p :: f = (q ++ [p]) ++ f := by simp
        by_cases hpat' : pat = []
        · subst hpat'
          rw [if_pos rfl]
          refine ⟨valueAt_iff.mpr (.inl ⟨hq ▸ ⟨f, happ.symm⟩, hlen⟩), fun j hj => ?_⟩
          have : encodedMatch.length ≤ q.length + j := le_of_valueAt hj
          rw [List.length_nil] at hlen
          show 0 + 1 ≤ j
          omega
        · rw [if_neg hpat']
          refine (ih.2 (q ++ [p]) pat (by simpa using hq) hpat').succ fun i => ?_
          rw [happ, List.length_append, List.length_singleton]
          have hpos := List.length_pos_of_ne_nil hpat'
          constructor
          · intro h
            have := le_of_valueAt h
            exact ⟨i - 1, by omega, (show q.length + i = q.length + 1 + (i - 1) by omega) ▸ h⟩
          · rintro ⟨j, rfl, h⟩
            rwa [Nat.add_comm j, ← Nat.add_assoc]
      · rw [if_neg (by simpa using hp)]
        refine hnext.succ fun i => ?_
        rw [valueAt_iff, laterAt_append h10, laterAt_cons]
        refine or_iff_right fun ⟨hpre, _⟩ => hp ?_
        rw [← hq, List.prefix_append_right_inj, List.cons_prefix_cons] at hpre
        exact hpre.1

/-- The search finds the value of the flag. -/
theorem findFlag_eq_some {f : List UInt8} {n : ℕ} : findFlag encodedMatch f = some n ↔ EncodedAt f n := by
  have h := (findFlag_least f).2 [] encodedMatch rfl (by decide)
  simp only [List.nil_append, List.length_nil, Nat.zero_add] at h
  cases hf : findFlag encodedMatch f with
  | none =>
    rw [hf] at h
    exact iff_of_false (by simp) fun he => h n he.1
  | some m =>
    rw [hf] at h
    rw [Option.some.injEq]
    constructor
    · rintro rfl
      exact h
    · rintro ⟨hn, hmin⟩
      exact le_antisymm (h.2 n hn) (hmin m h.1)

/-- It fails only if there is no such line. -/
theorem exists_findFlag {f : List UInt8} {i : ℕ} (h : ValueAt f i) : ∃ n, findFlag encodedMatch f = some n ∧ n ≤ i := by
  have hl := (findFlag_least f).2 [] encodedMatch rfl (by decide)
  simp only [List.nil_append, List.length_nil, Nat.zero_add] at hl
  cases hf : findFlag encodedMatch f with
  | none =>
    rw [hf] at hl
    exact absurd h (hl i)
  | some n =>
    rw [hf] at hl
    exact ⟨n, rfl, hl.2 i h⟩

/-! ### Files with another first line, or another value -/

/-- A first line of seven characters, and the rest of the file. -/
theorem readBody_firstLine : ∃ b, ∀ (l : Line) (rest : List UInt8), l.bytes.length = 7 →
    readBody Linebuf.initial (l.bytes ++ 10 :: rest) =
      ⟨l :: (readBody b rest).lines, (readBody b rest).ending⟩ := by
  obtain ⟨e, b, f', he, happ, h⟩ := Linebuf.readData_some (b := Linebuf.initial) (n := 7) (f := [10]) (by decide)
    List.mem_cons_self
  obtain ⟨rfl, rfl⟩ : e = [10] ∧ f' = [] := by
    obtain ⟨c, e, rfl⟩ := List.exists_cons_of_ne_nil he
    obtain ⟨rfl, hnil⟩ := List.cons.inj happ
    obtain ⟨rfl, rfl⟩ := List.append_eq_nil_iff.mp hnil
    exact ⟨rfl, rfl⟩
  refine ⟨b, fun l rest hl => ?_⟩
  have hread := h l.bytes rest hl l.no_newline
  have hs : CLine.ofData _ (Linebuf.readData_newline hread) = l.delivered :=
    CLine.ext (cstr_eq_self l.zero_not_mem_stored)
  rw [List.singleton_append, List.nil_append] at hread
  rw [readBody, deliveries_cons hread, hs, chompAll, Line.chomp_delivered]
  rfl

theorem chompAll_alike {tt tt' : List CLine} (h : List.Forall₂ Alike (chompAll tt).lines (chompAll tt').lines)
    (ss : List CLine) : List.Forall₂ Alike (chompAll (ss ++ tt)).lines (chompAll (ss ++ tt')).lines := by
  induction ss with
  | nil => exact h
  | cons s ss ih =>
    rw [List.cons_append, List.cons_append, chompAll, chompAll]
    cases s.chomp with
    | none => exact .nil
    | some l => exact .cons (.inl rfl) ih

/-- Another value changes no other line. -/
theorem readBody_value (b : Linebuf) {pre post : List UInt8} {v v' : UInt8} (hpre : EndsLine pre)
    (h10 : (10 : UInt8) ∈ post) (hv : v ≠ 0 ∧ v ≠ 10) (hv' : v' ≠ 0 ∧ v' ≠ 10) :
    List.Forall₂ Alike (readBody b (pre ++ (encodedMatch ++ v :: post))).lines
      (readBody b (pre ++ (encodedMatch ++ v' :: post))).lines := by
  obtain ⟨ss, b', hss⟩ := deliveries_append b hpre
  have hb := b'.chunk_le
  rw [chunkSize] at hb
  obtain ⟨e, b'', f', -, -, h⟩ := Linebuf.readData_some (b := b') (n := 6) (by omega) h10
  -- the string with the value, whatever it is
  have hread : ∀ v : UInt8, v ≠ 0 ∧ v ≠ 10 → ∃ s : CLine,
      deliveries b' (encodedMatch ++ v :: post) = s :: deliveries b'' f' ∧ ∃ l, s.chomp = some l ∧ SaysEncoded l := by
    intro v hv
    have hd := h (encodedMatch ++ [v]) [] rfl (by simp [encodedMatch, hv.2.symm])
    rw [List.append_nil, List.append_nil, List.append_assoc, List.singleton_append] at hd
    refine ⟨_, deliveries_cons hd, ?_⟩
    have hbytes : (CLine.ofData _ (Linebuf.readData_newline hd)).bytes = encodedMatch ++ v :: cstr e := by
      show cstr (encodedMatch ++ [v] ++ e) = _
      rw [List.append_assoc, cstr, List.takeWhile_append_of_pos (by simp [encodedMatch]), List.singleton_append,
        List.takeWhile_cons_of_pos (by simpa using hv.1)]
      rfl
    rw [CLine.chomp, if_neg (by rw [hbytes]; simp)]
    refine ⟨_, rfl, ?_⟩
    show encodedMatch <+: (CLine.ofData _ _).bytes.dropLast
    rw [hbytes, List.dropLast_append_of_ne_nil (by simp)]
    exact List.prefix_append _ _
  obtain ⟨s, hs, l, hl, hsaid⟩ := hread v hv
  obtain ⟨s', hs', l', hl', hsaid'⟩ := hread v' hv'
  rw [readBody, readBody, hss, hss, hs, hs']
  refine chompAll_alike ?_ ss
  rw [chompAll, chompAll, hl, hl']
  exact .cons (.inr ⟨hsaid, hsaid'⟩) (alike_refl _)

/-! ### The checksum is right -/

theorem computedSum_bounds (f : List UInt8) : 0 ≤ computedSum f ∧ computedSum f < 65536 :=
  ⟨Int.emod_nonneg _ (by decide), Int.emod_lt_of_pos _ (by decide)⟩

/-- A sum that was written is compared with the sum of the file. -/
theorem checkSum_padded (silent : Bool) {sum : ℤ} (h : 0 ≤ sum ∧ sum < 65536) (computed : ℤ) :
    checkSum silent computed (padded 5 sum.toNat) = .ok (sum, sum = computed) := by
  have hs : strtol (padded 5 sum.toNat) = (sum, []) := by rw [strtol_padded, Int.toNat_of_nonneg h.1]
  have hmax : max (-2 ^ 31) (min (2 ^ 31 - 1) sum) = sum := by omega
  simp only [checkSum, hs, hmax]
  rw [if_neg (by omega), if_neg (by omega), if_neg (by simp)]

/-- The parser, at a file with such a first line. -/
theorem parseHeader_firstLine : ∃ b, ∀ (silent : Bool) (l : Line) (s rest : List UInt8), l.bytes = 1 :: 104 :: s →
    s.length = 5 → ∃ stop, parseHeader silent (l.bytes ++ 10 :: rest) = (do
      let sum ← checkSum silent (computedSum rest) s
      let table ← parseTable stop (readBody b rest).lines
      return ⟨computedSum rest, sum.1, sum.2, false, table⟩) := by
  obtain ⟨b, hb⟩ := readBody_firstLine
  refine ⟨b, fun silent l s rest hl hs => ?_⟩
  have hread := hb l rest (by rw [hl]; simp [hs])
  refine ⟨stopOf (readBody Linebuf.initial (l.bytes ++ 10 :: rest)), ?_⟩
  have hm : magic (l.bytes ++ 10 :: rest) = .ok false := by rw [hl]; rfl
  have he : eatFirstLine (l.bytes ++ 10 :: rest) = .ok rest := by
    rw [eatFirstLine, if_pos (by simp), Linebuf.dropWhile_ne_append l.no_newline]
    rfl
  have hk : l.kind = 104 := by
    rw [Line.kind, Line.bufchar, Line.bufchar, hl]
    rfl
  rw [parseHeader, hm, ok_bind, he, ok_bind, intResult_wrapping, ok_bind]
  simp only [countedLines_wrapping, hread, readLine, ok_bind]
  rw [if_neg (by simp [hk]), hl]
  rfl

/-- The first line of a file that is written. -/
def sumLine (sum : ℤ) : List UInt8 := 1 :: 104 :: padded 5 sum.toNat

theorem sumLine_length {sum : ℤ} (h : 0 ≤ sum ∧ sum < 65536) : (sumLine sum).length = 7 := by
  rw [sumLine, List.length_cons, List.length_cons,
    padded_length (decimal_length_le (k := 4) (by omega))]

/-- **A file with its sum in front of it is accepted**, if it was with the dummy line and another value. -/
theorem parseHeader_sumLine {rest rest' : List UInt8} {r : OpenResult}
    (hl : ∀ b, List.Forall₂ Alike (readBody b rest).lines (readBody b rest').lines)
    (h : parseHeader true (dummyLine ++ 10 :: rest) = .ok r) :
    ∃ r', parseHeader false (sumLine (computedSum rest') ++ 10 :: rest') = .ok r' ∧
      r'.storedSum = r'.computedSum ∧ r'.checksumValid = true := by
  obtain ⟨b, hb⟩ := parseHeader_firstLine
  have hsum := computedSum_bounds rest'
  have hchars : ∀ c ∈ sumLine (computedSum rest'), c ≠ 0 ∧ c ≠ 10 := by
    have hdigit : ∀ c : UInt8, isDigit c = true → c ≠ 0 ∧ c ≠ 10 := by
      rintro c hc
      constructor <;> (rintro rfl; exact absurd hc (by decide))
    intro c hc
    rcases List.mem_cons.mp hc with rfl | hc
    · decide
    rcases List.mem_cons.mp hc with rfl | hc
    · decide
    exact hdigit c (padded_isDigit _ _ c hc)
  obtain ⟨stop, hp⟩ := hb true ⟨dummyLine, by decide, by decide⟩ [45, 45, 45, 45, 45] rest rfl rfl
  obtain ⟨stop', hp'⟩ := hb false
    ⟨sumLine (computedSum rest'), fun hm => (hchars 0 hm).1 rfl, fun hm => (hchars 10 hm).2 rfl⟩ _ rest' rfl
    (by simpa [sumLine] using sumLine_length hsum)
  obtain ⟨sum, -, h⟩ := bind_eq_ok.mp (hp.symm.trans h)
  obtain ⟨t, ht, -⟩ := bind_eq_ok.mp h
  have hfollow : Follows _ (parseTable stop _) (parseTable stop' _) := parseTable_follows (hl b)
  obtain ⟨t', ht', -⟩ := hfollow t ht
  refine ⟨⟨computedSum rest', computedSum rest', true, false, t'⟩, hp'.trans ?_, rfl, rfl⟩
  rw [checkSum_padded false hsum, decide_eq_true rfl, ok_bind, ht']
  rfl

/-! ### The end of an update -/

/-- Characters are put over as many others. -/
theorem overwrite_append {s s' f : List UInt8} (h : s.length = s'.length) : overwrite (s ++ f) s' = s' ++ f := by
  rw [overwrite, ← h, List.drop_left]

/-- Only the places that are written over change. -/
theorem place_of_ne {p s s' f : List UInt8} (h : s.length = s'.length) {i : ℕ}
    (hne : (p ++ (s' ++ f))[i]? ≠ (p ++ (s ++ f))[i]?) : p.length ≤ i ∧ i < p.length + s.length := by
  by_contra hi
  refine hne ?_
  rcases Nat.lt_or_ge i p.length with hlt | hge
  · rw [List.getElem?_append_left hlt, List.getElem?_append_left hlt]
  · have hge' : s.length ≤ i - p.length := by omega
    rw [List.getElem?_append_right hge, List.getElem?_append_right hge, List.getElem?_append_right hge',
      List.getElem?_append_right (h ▸ hge'), h]

/-- The value of the flag, in a file with a dummy line. -/
theorem valueAt_dummyLine {rest : List UInt8} {n : ℕ} (h : ValueAt (dummyLine ++ 10 :: rest) n) :
    ∃ pre post, rest = pre ++ (encodedMatch ++ post) ∧ EndsLine pre ∧ n = 8 + (pre.length + encodedMatch.length) := by
  rcases valueAt_iff.mp h with ⟨⟨post, hp⟩, -⟩ | ⟨p, post, hf, hl, rfl⟩
  · simp [dummyLine, encodedMatch] at hp
  rw [List.append_assoc] at hf
  rcases List.append_eq_append_iff.mp hf with ⟨a, rfl, ha⟩ | ⟨a, ha, -⟩
  · cases a with
    | nil => simp [dummyLine] at hl
    | cons c pre =>
      obtain ⟨rfl, rfl⟩ := List.cons.inj ha
      refine ⟨pre, post, rfl, endsLine_iff_getLast?.mpr ?_, ?_⟩
      · rcases List.eq_nil_or_concat pre with rfl | ⟨q, d, rfl⟩
        · exact .inl rfl
        · exact .inr (by simpa [List.getLast?_cons] using hl)
      · simp only [List.length_append, List.length_cons]
        show 7 + _ + _ = _
        omega
  · exact absurd (ha ▸ List.mem_append_left a (List.mem_of_getLast? hl)) (by decide)

/-- What is written in place of the value. -/
def newValue (c : UInt8) : UInt8 := if c = 48 then 49 else c

/-- What is done to the flag. -/
structure Turned (x x' : List UInt8) : Prop where
  /-- The length is the same. -/
  length : x'.length = x.length
  /-- The value of the first line `^Af e` is set, if it is not set. -/
  value : ∃ n, EncodedAt x n ∧ x'[n]? = x[n]?.map newValue
  /-- Nothing else is changed. -/
  only : ∀ i, x'[i]? ≠ x[i]? → EncodedAt x i

theorem charSum_append (f g : List UInt8) : charSum (f ++ g) = charSum f + charSum g := by
  simp [charSum]

/-- The sum is adjusted rather than computed again. -/
theorem computedSum_turned (pre post : List UInt8) :
    (computedSum (pre ++ 48 :: post) + 1) % 65536 = computedSum (pre ++ 49 :: post) := by
  have h : charSum (pre ++ 49 :: post) = charSum (pre ++ 48 :: post) + 1 := by
    have h48 : charSum (48 :: post) = 48 + charSum post := by simp [charSum]
    have h49 : charSum (49 :: post) = 49 + charSum post := by simp [charSum]
    rw [charSum_append, charSum_append, h48, h49]
    omega
  rw [computedSum, computedSum, h, Int.emod_add_emod]

/-- The first value after a dummy line is in a line of the header or of what comes after it that has an end. -/
theorem exists_firstValue {ls : Texts} {v : UInt8} (hv : encodedMatch ++ [v] ∈ ls) (body : List UInt8) :
    ∃ pre post, printed ls ++ body = pre ++ (encodedMatch ++ post) ∧ EndsLine pre ∧ (10 : UInt8) ∈ post ∧
      EncodedAt (dummyLine ++ 10 :: (printed ls ++ body)) (8 + (pre.length + encodedMatch.length)) := by
  generalize hrest : printed ls ++ body = rest
  obtain ⟨ls₁, ls₂, rfl⟩ := List.append_of_mem hv
  -- the line that was written
  have hsplit : rest = printed ls₁ ++ (encodedMatch ++ v :: 10 :: (printed ls₂ ++ body)) := by
    rw [← hrest, printed_append, printed_cons]
    simp
  have hat : ValueAt (dummyLine ++ 10 :: rest) (8 + ((printed ls₁).length + encodedMatch.length)) := by
    refine ⟨dummyLine ++ 10 :: printed ls₁, v :: 10 :: (printed ls₂ ++ body), by rw [hsplit]; simp, ?_, ?_⟩
    · exact endsLine_printed (dummyLine :: ls₁) |> fun h => by rwa [printed_cons] at h
    · simp only [List.length_append, List.length_cons]
      show _ = 7 + _ + _
      omega
  -- the first line, which is not after it
  obtain ⟨n, hfind, hle⟩ := exists_findFlag hat
  have hfirst := findFlag_eq_some.mp hfind
  obtain ⟨pre, post, hpre, hends, rfl⟩ := valueAt_dummyLine hfirst.1
  refine ⟨pre, post, hpre, hends, ?_, hfirst⟩
  have hdrop : post = rest.drop (pre.length + encodedMatch.length) := by
    rw [hpre, ← List.append_assoc, ← List.length_append, List.drop_left]
  have hlater : rest.drop ((printed ls₁).length + encodedMatch.length) = v :: 10 :: (printed ls₂ ++ body) := by
    rw [hsplit, ← List.append_assoc, ← List.length_append, List.drop_left]
  have hmem : (10 : UInt8) ∈ rest.drop ((printed ls₁).length + encodedMatch.length) := by
    rw [hlater]
    simp
  rw [hdrop]
  refine List.mem_of_mem_drop (i := (printed ls₁).length - pre.length) ?_
  rw [List.drop_drop]
  convert hmem using 2
  omega

/-- The flag is found in the header that was written, and the sum is that of the file it leaves. -/
theorem rehackEncodedFlag_turned {ls : Texts} {v : UInt8} (hv : encodedMatch ++ [v] ∈ ls) (body : List UInt8) :
    ∃ rest', rehackEncodedFlag (dummyLine ++ 10 :: (printed ls ++ body)) (computedSum (printed ls ++ body)) =
        .ok (dummyLine ++ 10 :: rest', computedSum rest') ∧
      (∀ b, List.Forall₂ Alike (readBody b (printed ls ++ body)).lines (readBody b rest').lines) ∧
      Turned (dummyLine ++ 10 :: (printed ls ++ body)) (dummyLine ++ 10 :: rest') := by
  obtain ⟨pre, post, hpre, hends, h10, hfirst⟩ := exists_firstValue hv body
  have hfind := findFlag_eq_some.mpr hfirst
  generalize printed ls ++ body = rest at *
  have hx : dummyLine ++ 10 :: rest = (dummyLine ++ 10 :: (pre ++ encodedMatch)) ++ post := by rw [hpre]; simp
  have hlen : (dummyLine ++ 10 :: (pre ++ encodedMatch)).length = 8 + (pre.length + encodedMatch.length) := by
    simp only [List.length_append, List.length_cons]
    show 7 + _ = _
    omega
  have hget : (dummyLine ++ 10 :: rest)[8 + (pre.length + encodedMatch.length)]? = post[0]? := by
    rw [hx, ← hlen, List.getElem?_append_right le_rfl, Nat.sub_self]
  by_cases h48 : post[0]? = some 48
  · -- the value is turned
    obtain ⟨post, rfl⟩ : ∃ p, post = 48 :: p := by
      cases post with
      | nil => simp at h48
      | cons c p => exact ⟨p, by simpa using h48⟩
    have hset : (dummyLine ++ 10 :: rest).set (8 + (pre.length + encodedMatch.length)) 49 =
        dummyLine ++ 10 :: (pre ++ (encodedMatch ++ 49 :: post)) := by
      rw [hx, ← hlen, List.set_append_right _ _ le_rfl, Nat.sub_self]
      simp
    refine ⟨pre ++ (encodedMatch ++ 49 :: post), ?_, fun b => ?_, by rw [← hset, List.length_set], ⟨_, hfirst, ?_⟩,
      fun i hi => ?_⟩
    · simp only [rehackEncodedFlag, hfind, hget, h48, if_true, hset]
      have hsum := computedSum_turned (pre ++ encodedMatch) post
      rw [List.append_assoc, List.append_assoc] at hsum
      rw [hpre, hsum]
    · rw [hpre]
      exact readBody_value b hends ((List.mem_cons.mp h10).resolve_left (by decide)) (by decide) (by decide)
    · rw [hget, h48, ← hset, List.getElem?_set_self]
      · rfl
      · rw [hx, List.length_append, hlen]
        simp
    · rw [← hset, List.getElem?_set] at hi
      split_ifs at hi with h1
      · exact h1 ▸ hfirst
      · exact h1 ▸ hfirst
      · exact absurd rfl hi
  · refine ⟨rest, ?_, fun b => alike_refl _, rfl, ⟨_, hfirst, ?_⟩, fun i hi => absurd rfl hi⟩
    · simp only [rehackEncodedFlag, hfind, hget]
      rw [if_neg h48]
    · rw [hget]
      cases hp : post[0]? with
      | none => rfl
      | some c => rw [Option.map_some, newValue, if_neg (by rintro rfl; exact h48 hp)]

/-- What a file has become when its update ends. -/
structure Ended (encoded : Bool) (x y : List UInt8) : Prop where
  /-- The length is the same. -/
  length : y.length = x.length
  /-- Only the checksum and the value of the flag change. -/
  only : ∀ i, y[i]? ≠ x[i]? → (2 ≤ i ∧ i < 7) ∨ (encoded = true ∧ EncodedAt x i)
  /-- The value of the flag is set. -/
  value : encoded = true → ∃ n, EncodedAt x n ∧ y[n]? = x[n]?.map newValue
  /-- The checksum is found to be right. -/
  checksum : ∃ r, parseHeader false y = .ok r ∧ r.storedSum = r.computedSum ∧ r.checksumValid = true

/-- **The end of an update**: it fails if the file that was written cannot be parsed, and only then. -/
theorem endUpdate_ended {ls : Texts} {v : UInt8} (hv : encodedMatch ++ [v] ∈ ls) (body : List UInt8) (encoded : Bool) :
    (∃ q, parseHeader true (dummyLine ++ 10 :: (printed ls ++ body)) = .error q ∧
      endUpdate encoded (dummyLine ++ 10 :: (printed ls ++ body)) = .error q) ∨
    ∃ y, endUpdate encoded (dummyLine ++ 10 :: (printed ls ++ body)) = .ok y ∧
      Ended encoded (dummyLine ++ 10 :: (printed ls ++ body)) y := by
  obtain ⟨rest', hhack, hlines, hturned⟩ := rehackEncodedFlag_turned hv body
  generalize hrest : printed ls ++ body = rest at *
  cases hr : parseHeader true (dummyLine ++ 10 :: rest) with
  | error q => exact .inl ⟨q, rfl, by rw [endUpdate, hr]; rfl⟩
  | ok r =>
    right
    have hsum : r.computedSum = computedSum rest := by
      obtain ⟨b, hb⟩ := parseHeader_firstLine
      obtain ⟨stop, hp⟩ := hb true ⟨dummyLine, by decide, by decide⟩ [45, 45, 45, 45, 45] rest rfl rfl
      obtain ⟨sum, -, h⟩ := bind_eq_ok.mp (hp.symm.trans hr)
      obtain ⟨t, -, h⟩ := bind_eq_ok.mp h
      rw [← Except.ok.inj h]
    -- the sum is put over the dummy line
    have hwrite : ∀ rest', overwrite (dummyLine ++ 10 :: rest') (sumLine (computedSum rest')) =
        sumLine (computedSum rest') ++ 10 :: rest' :=
      fun rest' => overwrite_append (sumLine_length (computedSum_bounds rest')).symm
    have hplace : ∀ rest' i, (sumLine (computedSum rest') ++ 10 :: rest')[i]? ≠ (dummyLine ++ 10 :: rest')[i]? →
        2 ≤ i ∧ i < 7 := by
      intro rest' i
      have hfive : ([45, 45, 45, 45, 45] : List UInt8).length = (padded 5 (computedSum rest').toNat).length := by
        simpa [sumLine, eq_comm] using sumLine_length (computedSum_bounds rest')
      exact place_of_ne (p := [1, 104]) hfive
    have hlen : ∀ rest', (sumLine (computedSum rest') ++ 10 :: rest').length = (dummyLine ++ 10 :: rest').length := by
      intro rest'
      rw [List.length_append, List.length_append, sumLine_length (computedSum_bounds rest')]
      rfl
    cases encoded with
    | false =>
      refine ⟨sumLine (computedSum rest) ++ 10 :: rest, ?_, hlen rest, fun i hi => .inl (hplace rest i hi), by simp,
        parseHeader_sumLine (fun b => alike_refl _) hr⟩
      rw [endUpdate, hr, ok_bind, hsum, ← hwrite rest]
      rfl
    | true =>
      refine ⟨sumLine (computedSum rest') ++ 10 :: rest', ?_, ?_, fun i hi => ?_, fun _ => ?_,
        parseHeader_sumLine hlines hr⟩
      · rw [endUpdate, hr, ok_bind, hsum, if_pos rfl, hhack, ok_bind, ← hwrite rest']
        rfl
      · rw [hlen, hturned.length]
      · by_cases hi' : (dummyLine ++ 10 :: rest')[i]? = (dummyLine ++ 10 :: rest)[i]?
        · exact .inl (hplace rest' i (hi' ▸ hi))
        · exact .inr ⟨rfl, hturned.only i hi'⟩
      · obtain ⟨n, hn, hval⟩ := hturned.value
        refine ⟨n, hn, hval ▸ ?_⟩
        by_contra hne
        have h1 := hplace rest' n hne
        have h2 := valueAt_dummyLine hn.1
        obtain ⟨pre, post, -, -, rfl⟩ := h2
        omega

/-! ### The counts of the new delta -/

theorem encodedMatch_isDigit : ∀ p ∈ encodedMatch, isDigit p = false := by
  simp [encodedMatch, isDigit]

/-- The search does not look at digits. -/
theorem findFlag_digits {f g : List UInt8}
    (h : List.Forall₂ (fun a b => a = b ∨ (isDigit a = true ∧ isDigit b = true)) f g) {pat : List UInt8}
    (hpat : ∀ p ∈ pat, isDigit p = false) : findFlag pat f = findFlag pat g := by
  induction h generalizing pat with
  | nil => rfl
  | @cons a b f g hab _ ih =>
    have hnext : ∀ c : UInt8, ∀ p ∈ (if c = 10 then encodedMatch else []), isDigit p = false := by
      intro c p hp
      split_ifs at hp
      · exact encodedMatch_isDigit p hp
      · cases hp
    rw [findFlag, findFlag]
    rcases hab with rfl | ⟨ha, hb⟩
    · rw [ih (fun p hp => hpat p (List.mem_of_mem_tail hp)), ih (hnext a)]
    · have hne : ∀ c, isDigit c = true → pat.head? ≠ some c ∧ c ≠ 10 := by
        refine fun c hc => ⟨fun hh => ?_, by rintro rfl; exact absurd hc (by decide)⟩
        exact absurd (hpat c (List.mem_of_head? hh)) (by simp [hc])
      rw [if_neg (hne a ha).1, if_neg (hne b hb).1, if_neg (hne a ha).2, if_neg (hne b hb).2, ih (by simp)]

/-- The places of the counts. -/
def CountAt (i : ℕ) : Prop := (11 ≤ i ∧ i < 16) ∨ (17 ≤ i ∧ i < 22) ∨ (23 ≤ i ∧ i < 28)

/-- A file with these counts. -/
def withCounts (a b c tail : List UInt8) : List UInt8 :=
  dummyLine ++ 10 :: 1 :: 115 :: 32 :: (a ++ 47 :: (b ++ 47 :: (c ++ tail)))

section

variable {a b c a' b' c' tail : List UInt8}

/-- Only the counts change. -/
theorem withCounts_only (ha : a.length = 5) (ha' : a'.length = 5) (hb : b.length = 5) (hb' : b'.length = 5)
    (hc : c.length = 5) (hc' : c'.length = 5) {i : ℕ}
    (h : (withCounts a' b' c' tail)[i]? ≠ (withCounts a b c tail)[i]?) : CountAt i := by
  -- one count after the other
  by_cases h1 : (withCounts a' b' c' tail)[i]? = (withCounts a b' c' tail)[i]?
  · by_cases h2 : (withCounts a b' c' tail)[i]? = (withCounts a b c' tail)[i]?
    · refine .inr (.inr ?_)
      have hp : ∀ c, withCounts a b c tail =
          (dummyLine ++ 10 :: 1 :: 115 :: 32 :: (a ++ 47 :: (b ++ [47]))) ++ (c ++ tail) := by simp [withCounts]
      rw [h1, h2, hp, hp] at h
      simpa [dummyLine, ha, hb, hc] using place_of_ne (hc.trans hc'.symm) h
    · refine .inr (.inl ?_)
      have hp : ∀ b, withCounts a b c' tail =
          (dummyLine ++ 10 :: 1 :: 115 :: 32 :: (a ++ [47])) ++ (b ++ 47 :: (c' ++ tail)) := by simp [withCounts]
      rw [hp, hp] at h2
      simpa [dummyLine, ha, hb] using place_of_ne (hb.trans hb'.symm) h2
  · refine .inl ?_
    have hp : ∀ a, withCounts a b' c' tail =
        (dummyLine ++ [10, 1, 115, 32]) ++ (a ++ 47 :: (b' ++ 47 :: (c' ++ tail))) := by simp [withCounts]
    rw [hp, hp] at h1
    simpa [dummyLine, ha] using place_of_ne (ha.trans ha'.symm) h1

end

/-- The flag is found at the same place with other counts. -/
theorem findFlag_withCounts (a b c a' b' c' : ℕ) (tail : List UInt8) :
    findFlag encodedMatch (withCounts (padded 5 (cap5 a)) (padded 5 (cap5 b)) (padded 5 (cap5 c)) tail) =
      findFlag encodedMatch (withCounts (padded 5 (cap5 a')) (padded 5 (cap5 b')) (padded 5 (cap5 c')) tail) := by
  have hsame : ∀ s : List UInt8, List.Forall₂ (fun a b => a = b ∨ (isDigit a = true ∧ isDigit b = true)) s s :=
    fun s => List.forall₂_same.mpr fun _ _ => .inl rfl
  have hnum : ∀ m n : ℕ, List.Forall₂ (fun a b => a = b ∨ (isDigit a = true ∧ isDigit b = true))
      (padded 5 (cap5 m)) (padded 5 (cap5 n)) := by
    intro m n
    refine List.forall₂_iff_zip.mpr ⟨by rw [padded_cap5_length, padded_cap5_length], fun hab => .inr ?_⟩
    obtain ⟨h1, h2⟩ := List.of_mem_zip hab
    exact ⟨padded_isDigit _ _ _ h1, padded_isDigit _ _ _ h2⟩
  refine findFlag_digits (List.rel_append (hsame _) ?_) encodedMatch_isDigit
  refine .cons (.inl rfl) (.cons (.inl rfl) (.cons (.inl rfl) (.cons (.inl rfl) ?_)))
  refine List.rel_append (hnum a a') (.cons (.inl rfl) ?_)
  exact List.rel_append (hnum b b') (.cons (.inl rfl) (List.rel_append (hnum c c') (hsame tail)))

/-! ### The file that is left -/

/-- What `finish` has done. -/
structure Finished (new : Option FullDelta) (encoded : Bool) (x y : List UInt8) : Prop where
  /-- The length is the same. -/
  length : y.length = x.length
  /-- Only the checksum changes, the counts of the new delta, and the value of the flag. -/
  only : ∀ i, y[i]? ≠ x[i]? →
    (2 ≤ i ∧ i < 7) ∨ (new.isSome = true ∧ CountAt i) ∨ (encoded = true ∧ EncodedAt x i)
  /-- The counts are set. -/
  counts : ∀ d, new = some d → (y.drop 11).take 17 = iduText d
  /-- The value of the flag is set. -/
  value : encoded = true → ∃ n, EncodedAt x n ∧ y[n]? = x[n]?.map newValue
  /-- The checksum is found to be right. -/
  checksum : ∃ r, parseHeader false y = .ok r ∧ r.storedSum = r.computedSum ∧ r.checksumValid = true

/-- The flag is always written. -/
theorem mem_headerLines (T : FullTable) (file : SccsFile) : ∃ v, encodedMatch ++ [v] ∈ headerLines T file := by
  refine ⟨if file.flags.encoded then 49 else 48, ?_⟩
  have h : encodedMatch ++ [if file.flags.encoded then 49 else 48] ∈ flagLines file.flags :=
    List.mem_filterMap.mpr ⟨.e, by decide, rfl⟩
  simp [headerLines, h]

/-- A file with the counts of a delta. -/
def withDelta (d : FullDelta) (tail : List UInt8) : List UInt8 :=
  withCounts (padded 5 (cap5 d.inserted)) (padded 5 (cap5 d.deleted)) (padded 5 (cap5 d.unchanged)) tail

theorem withDelta_eq (d : FullDelta) (tail : List UInt8) :
    withDelta d tail = (dummyLine ++ 10 :: 1 :: 115 :: 32 :: iduText d) ++ tail := by
  simp [withDelta, withCounts, iduText]

theorem iduText_length (d : FullDelta) : (iduText d).length = 17 := by
  simp only [iduText, List.length_append, List.length_cons, padded_cap5_length]

theorem setCounts_withDelta (d₀ d : FullDelta) (tail : List UInt8) :
    setCounts d (withDelta d₀ tail) = withDelta d tail := by
  rw [withDelta_eq, withDelta_eq, setCounts, overwrite_append]
  simp [iduText_length]

/-- The flag comes after the counts. -/
theorem le_of_valueAt_withDelta {d : FullDelta} {tail : List UInt8} {n : ℕ} (h : ValueAt (withDelta d tail) n) :
    28 ≤ n := by
  have hq : (10 : UInt8) ∉ 1 :: 115 :: 32 :: iduText d := by
    have hnum : ∀ w m : ℕ, (10 : UInt8) ∉ padded w m := fun w m hm => absurd (padded_isDigit w m 10 hm) (by decide)
    simp [iduText, hnum]
  rw [withDelta_eq, List.append_assoc, List.cons_append] at h
  obtain ⟨pre, post, hrest, hends, rfl⟩ := valueAt_dummyLine h
  rcases List.append_eq_append_iff.mp hrest with ⟨a, rfl, -⟩ | ⟨a, ha, hpost⟩
  · simp only [List.length_append, List.length_cons, iduText_length]
    omega
  · rcases endsLine_iff_getLast?.mp hends with rfl | hl
    · rw [List.nil_append] at ha
      rw [← ha] at hpost
      simp [encodedMatch] at hpost
    · exact absurd (ha ▸ List.mem_append_left a (List.mem_of_getLast? hl)) hq

/-- The new delta and what follows it, with the counts of another delta. -/
theorem counted_startUpdate (d₀ d : FullDelta) (ls : Texts) (body : List UInt8) : ∃ tail,
    printed (dummyLine :: deltaLines d₀ ++ ls) ++ body = withDelta d₀ tail ∧
      withDelta d tail =
        dummyLine ++ 10 :: (printed ((1 :: 115 :: 32 :: iduText d) :: (deltaLines d₀).tail ++ ls) ++ body) := by
  refine ⟨10 :: (printed ((deltaLines d₀).tail ++ ls) ++ body), ?_, ?_⟩
  · simp [deltaLines, withDelta_eq]
  · simp [withDelta_eq]

/-- **A file that is written carries its own checksum, and nothing else is changed in it but what is meant to be.** The
update fails if the file cannot be parsed, and only then. -/
theorem finish_finished {new : Option (FullDelta × FullDelta)} {file : SccsFile} {head : List UInt8}
    (h : startUpdate (new.map (·.1)) file = .ok head) (body : List UInt8) (encoded : Bool) :
    (∃ q, parseHeader true (counted (new.map (·.2)) (head ++ body)) = .error q ∧
      finish (new.map (·.2)) encoded (head ++ body) = .error q) ∨
    ∃ y, finish (new.map (·.2)) encoded (head ++ body) = .ok y ∧
      Finished (new.map (·.2)) encoded (head ++ body) y := by
  unfold startUpdate at h
  obtain ⟨delta, hdelta, h⟩ := bind_eq_ok.mp h
  obtain ⟨header, hheader, h⟩ := bind_eq_ok.mp h
  obtain rfl := Except.ok.inj h
  obtain ⟨T, -, -, -, -, rfl⟩ := write_eq_ok.mp hheader
  obtain ⟨v, hv⟩ := mem_headerLines T file
  cases new with
  | none =>
    obtain rfl := Except.ok.inj hdelta
    have hx : printed ([dummyLine] ++ headerLines T file) ++ body =
        dummyLine ++ 10 :: (printed (headerLines T file) ++ body) := by simp
    rw [hx]
    refine (endUpdate_ended hv body encoded).imp_right ?_
    rintro ⟨y, hy, hended⟩
    exact ⟨y, hy, hended.length, fun i hi => (hended.only i hi).imp_right .inr, by simp, hended.value, hended.checksum⟩
  | some new =>
    obtain ⟨d₀, d⟩ := new
    obtain rfl : delta = deltaLines d₀ := by
      simp only [Option.map_some, newDelta, writeDelta] at hdelta
      split_ifs at hdelta
      exact (Except.ok.inj hdelta).symm
    obtain ⟨tail, hx, hlines⟩ := counted_startUpdate d₀ d (headerLines T file) body
    have hcounted : counted (some d) (withDelta d₀ tail) = withDelta d tail := setCounts_withDelta d₀ d tail
    have honly : ∀ i, (withDelta d tail)[i]? ≠ (withDelta d₀ tail)[i]? → CountAt i := fun i =>
      withCounts_only (padded_cap5_length _) (padded_cap5_length _) (padded_cap5_length _) (padded_cap5_length _)
        (padded_cap5_length _) (padded_cap5_length _)
    have hlen : (withDelta d tail).length = (withDelta d₀ tail).length := by
      rw [withDelta_eq, withDelta_eq]
      simp [iduText_length]
    have hplace : ∀ n, EncodedAt (withDelta d tail) n ↔ EncodedAt (withDelta d₀ tail) n := by
      intro n
      rw [← findFlag_eq_some, ← findFlag_eq_some, withDelta, withDelta, findFlag_withCounts]
    rw [hx]
    show (∃ q, parseHeader true (counted (some d) (withDelta d₀ tail)) = .error q ∧
      endUpdate encoded (counted (some d) (withDelta d₀ tail)) = .error q) ∨
      ∃ y, endUpdate encoded (counted (some d) (withDelta d₀ tail)) = .ok y ∧ Finished (some d) encoded _ y
    rw [hcounted]
    have hended := endUpdate_ended
      (List.mem_append_right ((1 :: 115 :: 32 :: iduText d) :: (deltaLines d₀).tail) hv) body encoded
    rw [← hlines] at hended
    refine hended.imp_right ?_
    rintro ⟨y, hy, hended⟩
    refine ⟨y, hy, hended.length.trans hlen, fun i hi => ?_, ?_, fun he => ?_, hended.checksum⟩
    · by_cases hi' : (withDelta d tail)[i]? = (withDelta d₀ tail)[i]?
      · exact (hended.only i (hi' ▸ hi)).imp_right fun h => .inr ⟨h.1, (hplace i).mp h.2⟩
      · exact .inr (.inl ⟨rfl, honly i hi'⟩)
    · rintro _ ⟨⟩
      have hidu : ((withDelta d tail).drop 11).take 17 = iduText d := by
        rw [withDelta_eq, ← iduText_length d]
        simp [dummyLine]
      rw [← hidu]
      refine List.ext_getElem? fun i => ?_
      rw [List.getElem?_take, List.getElem?_take, List.getElem?_drop, List.getElem?_drop]
      split_ifs with hi
      · by_contra hne
        rcases hended.only _ hne with h | ⟨-, h⟩
        · omega
        · have := le_of_valueAt_withDelta h.1
          omega
      · rfl
    · obtain ⟨n, hn, hval⟩ := hended.value he
      refine ⟨n, (hplace n).mp hn, hval ▸ ?_⟩
      have hle := le_of_valueAt_withDelta hn.1
      have hsame : (withDelta d tail)[n]? = (withDelta d₀ tail)[n]? := by
        by_contra hne
        have := honly n hne
        rw [CountAt] at this
        omega
      rw [hsame]

/-- A file with one delta. -/
def smallFile : SccsFile where
  deltaTable := some [trunkDelta 1 0 [] []]
  users := []
  flags := .initial
  comments := []

/-- A delta that inserts more lines than can be written is added, and its body turns out to be encoded. -/
theorem encoded_delta_finished : ∃ head, startUpdate (some (trunkDelta 2 1 [] [])) smallFile = .ok head ∧
    ∃ y, finish (some { trunkDelta 2 1 [] [] with inserted := 123456 }) true (head ++ [1, 73, 32, 49, 10]) = .ok y ∧
      Finished (some { trunkDelta 2 1 [] [] with inserted := 123456 }) true (head ++ [1, 73, 32, 49, 10]) y := by
  refine ⟨_, rfl, ?_⟩
  have hstart : startUpdate (Option.map (·.1) (some (trunkDelta 2 1 [] [],
      { trunkDelta 2 1 [] [] with inserted := 123456 }))) smallFile = .ok _ := rfl
  refine (finish_finished hstart [1, 73, 32, 49, 10] true).resolve_left ?_
  rintro ⟨q, hq, -⟩
  have hok : (parseHeader true (counted (some { trunkDelta 2 1 [] [] with inserted := 123456 })
      (printed (dummyLine :: deltaLines (trunkDelta 2 1 [] []) ++ headerLines [trunkDelta 1 0 [] []] smallFile) ++
        [1, 73, 32, 49, 10]))).isOk = true := by
    decide +kernel
  have herr : _ = false := congrArg Except.isOk hq
  exact absurd (hok.symm.trans herr) (by decide)

end CSSC.Header
