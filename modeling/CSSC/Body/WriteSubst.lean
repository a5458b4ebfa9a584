import CSSC.Header.Flags
import CSSC.Library.Triples
import CSSC.Table.DateText
import CSSC.Table.FullDelta

/-!
# Keyword expansion

`write_subst` writes a line and replaces its keywords, a letter between two percent signs. Two of them stand for a
string that itself contains keywords, and for these `write_subst` is called again; the `-w` string is taken out of the
parameters while it is being expanded.

`KeywordFile` is what the keywords say about the file, and `SubstParms` the parameters that are handed on from call to
call. What is written is a list of `Emission`s: bytes of the line, and expansions with the number of the line and the
letter. Writing does not fail. The number in `writeSubst n` bounds the depth of the calls, and three levels are enough
(`writeLines_ne_diverges`).

The loop goes over the pieces of the line as they are given by `Library.Triples.tokens` (`substLoop_eq`). What a
keyword stands for is fixed as long as no `-w` string of the user is in the parameters (`emit_quiet`); `emit_w` says
what `%W%` stands for in general, and which `-w` string is there afterwards.
-/

namespace CSSC.Body

open CSSC.Lines CSSC.Table CSSC.Header CSSC.Library.Decimal CSSC.Library.Triples

/-! ### The model -/

/-- What the keywords say about an `sccs_file`. -/
structure KeywordFile where
  /-- `flags`. -/
  flags : Flags
  /-- `name_.sfile()`. -/
  sfile : CString
  /-- What `canonify_filename` makes of it; the directories of the system decide. -/
  canon : Except String (List UInt8)

/-- `base_part`: what follows the last slash. -/
def basePart (name : List UInt8) : List UInt8 := (name.reverse.takeWhile (· ≠ 47)).reverse

namespace KeywordFile

/-- `name_.gfile()`. -/
def gfile (f : KeywordFile) : List UInt8 := (basePart f.sfile.bytes).drop 2

/-- `get_module_name`. -/
def getModuleName (f : KeywordFile) : List UInt8 := f.flags.module_.getD f.gfile

end KeywordFile

/-- `subst_parms`, the fields that keyword expansion uses. -/
structure SubstParms where
  /-- `wstring`. -/
  wstring : Option CString
  /-- `out_lineno`. -/
  outLineno : UInt32
  /-- `now`. -/
  now : SccsDate
  /-- `found_id`. -/
  foundId : Bool

/-- A piece of what is written. -/
inductive Emission where
  /-- A byte of the line. -/
  | plain (b : UInt8)
  /-- The expansion of a keyword in the line with this number. -/
  | expansion (lineno : UInt32) (c : UInt8) (text : List UInt8)
  deriving DecidableEq, Repr

/-- The bytes written. -/
def Emission.bytes : Emission → List UInt8
  | .plain b => [b]
  | .expansion _ _ text => text

/-- The bytes of an output. -/
def bytesOf (out : List Emission) : List UInt8 := out.flatMap Emission.bytes

/-- `sccs_file::is_known_keyword_char`, of a character that is not NUL. -/
def isKnownKeywordChar (c : UInt8) : Bool :=
  c ∈ "MIRLBSDHTEGUYFPQCZWA".toList.map fun c => UInt8.ofNat c.toNat

/-- The cases of `emit_keyletter_expansion` that call no other; `none` for other letters. -/
def keyText (f : KeywordFile) (d : FullDelta) (now : SccsDate) (lineno : UInt32) (c : UInt8) :
    Option (Except Quit (List UInt8)) :=
  match c with
  | 77 => some (.ok (cstr f.getModuleName)) -- 'M'
  | 73 => some d.id.print -- 'I'
  | 82 => some (d.id.printf 82 true) -- 'R'
  | 76 => some (d.id.printf 76 true) -- 'L'
  | 66 => some (d.id.printf 66 true) -- 'B'
  | 83 => some (d.id.printf 83 true) -- 'S'
  | 68 => some (now.printf 68) -- 'D'
  | 72 => some (now.printf 72) -- 'H'
  | 84 => some (now.printf 84) -- 'T'
  | 69 => some (d.date.printf 68) -- 'E'
  | 71 => some (d.date.printf 72) -- 'G'
  | 85 => some (d.date.printf 84) -- 'U'
  | 89 => some (.ok (cstr (f.flags.type.getD []))) -- 'Y'
  | 70 => some (.ok (basePart f.sfile.bytes)) -- 'F'
  | 80 => some ((f.canon.mapError .failure).map cstr) -- 'P'
  | 81 => some (.ok (cstr (f.flags.userDef.getD []))) -- 'Q'
  | 67 => some (.ok (decimal lineno.toNat)) -- 'C'
  | 90 => some (.ok [64, 40, 35, 41]) -- 'Z'
  | _ => none

/-- The string that `%W%` stands for without a `-w` string: `%Z%%M%`, a tab and `%I%`. -/
def defaultWstring : CString := ⟨[37, 90, 37, 37, 77, 37, 9, 37, 73, 37], by decide⟩

/-- The string that `%A%` stands for: `%Z%%Y% %M% %I%%Z%`. -/
def aString : CString :=
  ⟨[37, 90, 37, 37, 89, 37, 32, 37, 77, 37, 32, 37, 73, 37, 37, 90, 37], by decide⟩

/-- What the case of a letter returns: `none` for `true`, which means that it is not a keyword, and the text written for
`false`; with it the parameters afterwards. -/
abbrev Emitted := Except Quit (Option (List UInt8) × SubstParms)

/-- The loop of `write_subst`. The `pending` bytes are those from `start` on; `raw` tells the letters that are not to be
expanded, `emit` expands the others. -/
def substLoop (raw : UInt8 → Bool) (emit : UInt8 → SubstParms → Emitted) :
    List UInt8 → SubstParms → List UInt8 → Except Quit (List Emission × SubstParms)
  | pending, p, a :: c :: b :: l =>
    if a = 37 ∧ b = 37 then
      if raw c then
        (substLoop raw emit [] p l).map fun (out, p') => (pending.map .plain ++ [.plain a, .plain c, .plain b] ++ out, p')
      else
        match emit c p with
        | .error q => .error q
        -- the closing percent sign may open the next keyword
        | .ok (none, p') =>
          (substLoop raw emit [a, c] p' (b :: l)).map fun (out, p'') => (pending.map .plain ++ out, p'')
        | .ok (some text, p') =>
          (substLoop raw emit [] { p' with foundId := true } l).map fun (out, p'') =>
            (pending.map .plain ++ .expansion p.outLineno c text :: out, p'')
    else substLoop raw emit (pending ++ [a]) p (c :: b :: l)
  | pending, p, [a, c] => .ok ((pending ++ [a, c]).map .plain, p)
  | pending, p, [a] => .ok ((pending ++ [a]).map .plain, p)
  | pending, p, [] => .ok (pending.map .plain, p)

/-- `emit_keyletter_expansion`. Its calls of `write_subst` expand every keyword. -/
def emitKeyletterExpansion (f : KeywordFile) (d : FullDelta) : ℕ → UInt8 → SubstParms → Emitted
  | 0, _, _ => .error .diverges
  | n + 1, c, p =>
    if c = 87 then -- 'W'
      let saved := p.wstring.getD defaultWstring
      match substLoop (fun _ => false) (emitKeyletterExpansion f d n) [] { p with wstring := none } saved.bytes with
      | .error q => .error q
      | .ok (out, p') =>
        .ok (some (bytesOf out), if p'.wstring.isSome then p' else { p' with wstring := some saved })
    else if c = 65 then -- 'A'
      match substLoop (fun _ => false) (emitKeyletterExpansion f d n) [] p aString.bytes with
      | .error q => .error q
      | .ok (out, p') => .ok (some (bytesOf out), p')
    else
      match keyText f d p.now p.outLineno c with
      | none => .ok (none, p)
      | some (.error q) => .error q
      | some (.ok text) => .ok (some text, p)

/-- `expand_keyletter`. -/
def expandKeyletter (which : UInt8) (expanded : List UInt8) : Bool := expanded.isEmpty || which ∈ expanded

/-- `write_subst` for a line, with `force_expansion` false. -/
def writeSubst (f : KeywordFile) (d : FullDelta) (n : ℕ) (p : SubstParms) (line : CString) :
    Except Quit (List Emission × SubstParms) :=
  substLoop (fun c => !expandKeyletter c f.flags.letters) (emitKeyletterExpansion f d n) [] p line.bytes

/-- The lines that `get` writes: each has the next number. -/
def writeLines (f : KeywordFile) (d : FullDelta) (n : ℕ) : SubstParms → List CString →
    Except Quit (List Emission × SubstParms)
  | p, [] => .ok ([], p)
  | p, line :: lines =>
    match writeSubst f d n { p with outLineno := p.outLineno + 1 } line with
    | .error q => .error q
    | .ok (out, p') => (writeLines f d n p' lines).map fun (out', p'') => (out ++ .plain 10 :: out', p'')

/-! ### The loop, piece by piece -/

/-- What the loop does at a letter between two percent signs. -/
def letterKind (raw : UInt8 → Bool) (c : UInt8) : Kind :=
  if raw c then .skip else if isKnownKeywordChar c then .take else .pass

/-- The pieces of a line are written one after the other. -/
def expandTokens (emit : UInt8 → SubstParms → Emitted) :
    List (Token UInt8) → SubstParms → Except Quit (List Emission × SubstParms)
  | [], p => .ok ([], p)
  | .item a :: ts, p => (expandTokens emit ts p).map fun (out, p') => (.plain a :: out, p')
  | .skipped c :: ts, p =>
    (expandTokens emit ts p).map fun (out, p') => (.plain 37 :: .plain c :: .plain 37 :: out, p')
  | .taken c :: ts, p =>
    match emit c p with
    | .error q => .error q
    | .ok (text, p') =>
      (expandTokens emit ts { p' with foundId := true }).map fun (out, p'') =>
        (.expansion p.outLineno c (text.getD []) :: out, p'')

/-- Letters that are not keywords are told apart before anything is written. -/
def Recognizes (emit : UInt8 → SubstParms → Emitted) : Prop :=
  ∀ c p, (isKnownKeywordChar c = false → emit c p = .ok (none, p)) ∧
    (isKnownKeywordChar c = true → ∀ p', emit c p ≠ .ok (none, p'))

/-- What is not told to be no keyword is one. -/
theorem Recognizes.known {emit : UInt8 → SubstParms → Emitted} (he : Recognizes emit) {c : UInt8} {p : SubstParms}
    (h : emit c p ≠ .ok (none, p)) : isKnownKeywordChar c = true := by
  by_contra hc
  exact h ((he c p).1 (by simpa using hc))

theorem map_map {α β γ : Type} (x : Except Quit α) (f : α → β) (g : β → γ) : (x.map f).map g = x.map (g ∘ f) := by
  cases x <;> rfl

theorem map_eq_ok {α β : Type} {x : Except Quit α} {g : α → β} {b : β} : x.map g = .ok b ↔ ∃ a, x = .ok a ∧ g a = b := by
  cases x with
  | error q => simp [Except.map]
  | ok a => simp [Except.map]

/-- The loop goes over the pieces of the line. -/
theorem substLoop_eq {raw : UInt8 → Bool} {emit : UInt8 → SubstParms → Emitted} (he : Recognizes emit)
    (pending : List UInt8) (p : SubstParms) (l : List UInt8) :
    substLoop raw emit pending p l =
      (expandTokens emit (tokens 37 (letterKind raw) l) p).map fun (out, p') => (pending.map .plain ++ out, p') := by
  fun_induction substLoop raw emit pending p l with
  | case1 pending p a c b l h hraw ih =>
    obtain ⟨rfl, rfl⟩ := h
    rw [ih, tokens_skip (by simp [letterKind, hraw]), expandTokens, map_map, map_map]
    congr 1
    funext ⟨out, p'⟩
    simp
  | case2 pending p a c b l h hraw q hq =>
    obtain ⟨rfl, rfl⟩ := h
    have hc : isKnownKeywordChar c = true := he.known (by rw [hq]; nofun)
    rw [tokens_take (by simp [letterKind, hraw, hc]), expandTokens, hq]
    rfl
  | case3 pending p a c b l h hraw p' hp ih =>
    obtain ⟨rfl, rfl⟩ := h
    have hc : isKnownKeywordChar c = false := by
      by_contra hc
      exact (he c p).2 (by simpa using hc) p' hp
    rw [(he c p).1 hc] at hp
    cases hp
    rw [ih, tokens_pass (by simp [letterKind, hraw, hc]), expandTokens, expandTokens, map_map, map_map, map_map]
    congr 1
  | case4 pending p a c b l h hraw text p' hp ih =>
    obtain ⟨rfl, rfl⟩ := h
    have hc : isKnownKeywordChar c = true := he.known (by rw [hp]; nofun)
    rw [ih, tokens_take (by simp [letterKind, hraw, hc]), expandTokens, hp, map_map]
    simp only [map_map]
    congr 1
  | case5 pending p a c b l h ih =>
    rw [ih, tokens, if_neg h, expandTokens, map_map]
    congr 1
    funext ⟨out, p'⟩
    simp
  | case6 pending p a c => simp [tokens, expandTokens, Except.map]
  | case7 pending p a => simp [tokens, expandTokens, Except.map]
  | case8 pending p => simp [tokens, expandTokens, Except.map]

/-! ### Which letters are keywords -/

theorem isKnownKeywordChar_iff (c : UInt8) : isKnownKeywordChar c = true ↔
    c ∈ [77, 73, 82, 76, 66, 83, 68, 72, 84, 69, 71, 85, 89, 70, 80, 81, 67, 90, 87, 65] := by
  rw [isKnownKeywordChar, decide_eq_true_iff]
  rfl

theorem keyText_eq_none_iff (f : KeywordFile) (d : FullDelta) (now : SccsDate) (lineno : UInt32) {c : UInt8}
    (hW : c ≠ 87) (hA : c ≠ 65) : keyText f d now lineno c = none ↔ isKnownKeywordChar c = false := by
  rw [← Bool.not_eq_true, isKnownKeywordChar_iff]
  unfold keyText
  split <;> simp_all

theorem recognizes_emit (f : KeywordFile) (d : FullDelta) (n : ℕ) : Recognizes (emitKeyletterExpansion f d (n + 1)) := by
  intro c p
  rw [emitKeyletterExpansion]
  by_cases hW : c = 87
  · subst hW
    refine ⟨by simp [isKnownKeywordChar_iff], fun _ p' => ?_⟩
    rw [if_pos rfl]
    dsimp only
    split <;> simp
  · rw [if_neg hW]
    by_cases hA : c = 65
    · subst hA
      refine ⟨by simp [isKnownKeywordChar_iff], fun _ p' => ?_⟩
      rw [if_pos rfl]
      split <;> simp
    · rw [if_neg hA]
      have hnone := keyText_eq_none_iff f d p.now p.outLineno hW hA
      constructor
      · intro hc
        rw [hnone.mpr hc]
      · intro hc p'
        cases hk : keyText f d p.now p.outLineno c with
        | none => exact absurd (hnone.mp hk) (by simp [hc])
        | some r => cases r <;> simp

/-! ### What a letter stands for -/

section

variable (f : KeywordFile) (d : FullDelta)

/-- What `%W%` stands for without a `-w` string. -/
def defaultText : Except Quit (List UInt8) := d.id.print.map fun t => [64, 40, 35, 41] ++ (cstr f.getModuleName ++ 9 :: t)

/-- What `%A%` stands for. -/
def aText : Except Quit (List UInt8) :=
  d.id.print.map fun t => [64, 40, 35, 41] ++ (cstr (f.flags.type.getD []) ++ 32 :: (cstr f.getModuleName ++ 32 :: (t ++
    [64, 40, 35, 41])))

/-- What a letter stands for when `%W%` has its default meaning. -/
def quietText (now : SccsDate) (lineno : UInt32) (c : UInt8) : Except Quit (List UInt8) :=
  if c = 87 then defaultText f d
  else if c = 65 then aText f d
  else (keyText f d now lineno c).getD (.ok [])

/-- The text of some pieces, given what the letters stand for. -/
def tokensText (value : UInt8 → Except Quit (List UInt8)) : List (Token UInt8) → Except Quit (List UInt8)
  | [] => .ok []
  | .item a :: ts => (tokensText value ts).map (a :: ·)
  | .skipped c :: ts => (tokensText value ts).map (37 :: c :: 37 :: ·)
  | .taken c :: ts =>
    match value c with
    | .error q => .error q
    | .ok t => (tokensText value ts).map (t ++ ·)

theorem tokensText_append {value : UInt8 → Except Quit (List UInt8)} {a b : List (Token UInt8)} {t : List UInt8} :
    tokensText value (a ++ b) = .ok t ↔
      ∃ ta tb, tokensText value a = .ok ta ∧ tokensText value b = .ok tb ∧ t = ta ++ tb := by
  induction a generalizing t with
  | nil => simp [tokensText, eq_comm]
  | cons x a ih =>
    -- each piece puts something in front of the text of the rest
    have step : ∀ s : List UInt8, (tokensText value (a ++ b)).map (s ++ ·) = .ok t ↔
        ∃ ta tb, (tokensText value a).map (s ++ ·) = .ok ta ∧ tokensText value b = .ok tb ∧ t = ta ++ tb := by
      intro s
      simp only [map_eq_ok, ih]
      constructor
      · rintro ⟨_, ⟨ta, tb, ha, hb, rfl⟩, rfl⟩
        exact ⟨s ++ ta, tb, ⟨ta, ha, rfl⟩, hb, (List.append_assoc ..).symm⟩
      · rintro ⟨_, tb, ⟨ta, ha, rfl⟩, hb, rfl⟩
        exact ⟨ta ++ tb, ⟨ta, tb, ha, hb, rfl⟩, (List.append_assoc ..).symm⟩
    cases x with
    | item y => exact step [y]
    | skipped c => exact step [37, c, 37]
    | taken c =>
      rw [List.cons_append, tokensText, tokensText]
      cases value c with
      | error q => simp
      | ok s => exact step s

/-- What is done at a letter in a string that is expanded because a keyword stands for it. -/
abbrev forced : UInt8 → Kind := letterKind fun _ => false

/-- What `%W%` stands for with this `-w` string. -/
def wText (now : SccsDate) (lineno : UInt32) : Option CString → Except Quit (List UInt8)
  | none => defaultText f d
  | some w => tokensText (quietText f d now lineno) (tokens 37 forced w.bytes)

/-- The `-w` string that is in the parameters after `%W%` was expanded. -/
def wAfter : Option CString → CString
  | none => defaultWstring
  | some w => if 87 ∈ taken 37 forced w.bytes then defaultWstring else w

variable {f d}

/-- A letter stands for a text, and leaves this `-w` string behind. -/
def Emits (r : Emitted) (p : SubstParms) (text : Except Quit (List UInt8)) (w : Option CString) : Prop :=
  ∃ p', r = text.map (fun t => (some t, p')) ∧ p'.now = p.now ∧ p'.outLineno = p.outLineno ∧ p'.wstring = w

theorem tokens_default : tokens 37 forced defaultWstring.bytes = [.taken 90, .taken 77, .item 9, .taken 73] := by decide

theorem tokens_aString : tokens 37 forced aString.bytes =
    [.taken 90, .taken 89, .item 32, .taken 77, .item 32, .taken 73, .taken 90] := by decide

/-- The `-w` string afterwards, when it was a quiet one. -/
def quietAfter (w : Option CString) (c : UInt8) : Option CString := if c = 87 then some defaultWstring else w

theorem quietAfter_quiet (w : Option CString) (c : UInt8) (hw : w = none ∨ w = some defaultWstring) :
    quietAfter w c = none ∨ quietAfter w c = some defaultWstring := by
  rw [quietAfter]
  split
  · exact .inr rfl
  · exact hw

/-- Pieces whose letters have their default meaning are written so. -/
theorem expandTokens_quiet {emit : UInt8 → SubstParms → Emitted} {I : Option CString → Prop}
    (hI : ∀ w c, I w → I (quietAfter w c)) {ts : List (Token UInt8)} {now : SccsDate} {lineno : UInt32}
    (he : ∀ c, .taken c ∈ ts → ∀ p, p.now = now → p.outLineno = lineno → I p.wstring →
      Emits (emit c p) p (quietText f d now lineno c) (quietAfter p.wstring c))
    {p : SubstParms} (hn : p.now = now) (hl : p.outLineno = lineno) (hw : I p.wstring) :
    ∃ p', (expandTokens emit ts p).map (fun r => (bytesOf r.1, r.2)) =
        (tokensText (quietText f d now lineno) ts).map (fun t => (t, p')) ∧
      p'.now = now ∧ p'.outLineno = lineno ∧
      p'.wstring = if .taken 87 ∈ ts then some defaultWstring else p.wstring := by
  induction ts generalizing p with
  | nil => exact ⟨p, rfl, hn, hl, rfl⟩
  | cons x ts ih =>
    have hrest : ∀ c, .taken c ∈ ts → ∀ p, p.now = now → p.outLineno = lineno → I p.wstring →
        Emits (emit c p) p (quietText f d now lineno c) (quietAfter p.wstring c) :=
      fun c hc => he c (List.mem_cons_of_mem _ hc)
    cases x with
    | item a =>
      obtain ⟨p', h, hp'⟩ := ih hrest hn hl hw
      refine ⟨p', ?_, by simpa using hp'⟩
      have h' := congrArg (Except.map fun r => (a :: r.1, r.2)) h
      rw [expandTokens, tokensText]
      rw [map_map, map_map] at h' ⊢
      exact h'
    | skipped c =>
      obtain ⟨p', h, hp'⟩ := ih hrest hn hl hw
      refine ⟨p', ?_, by simpa using hp'⟩
      have h' := congrArg (Except.map fun r => (37 :: c :: 37 :: r.1, r.2)) h
      rw [expandTokens, tokensText]
      rw [map_map, map_map] at h' ⊢
      exact h'
    | taken c =>
      obtain ⟨p₁, h₁, hn₁, hl₁, hw₁⟩ := he c List.mem_cons_self p hn hl hw
      obtain ⟨p', h, hn', hl', hw'⟩ := ih (p := { p₁ with foundId := true }) hrest (hn₁.trans hn) (hl₁.trans hl)
        (hw₁ ▸ hI _ c hw)
      refine ⟨p', ?_, hn', hl', ?_⟩
      · rw [expandTokens, tokensText, h₁]
        cases quietText f d now lineno c with
        | error q => rfl
        | ok t =>
          have h' := congrArg (Except.map fun r => (t ++ r.1, r.2)) h
          change Except.map _ (Except.map _ _) = Except.map _ (Except.map _ _)
          rw [map_map, map_map] at h' ⊢
          exact h'
      · rw [hw', hw₁, quietAfter]
        by_cases hc : c = 87
        · simp [hc]
        · simp [hc, Ne.symm hc]

/-! ### The two letters that stand for a string -/

/-- What is put back after the `-w` string was expanded. -/
def restore (saved : CString) (p : SubstParms) : SubstParms :=
  if p.wstring.isSome then p else { p with wstring := some saved }

theorem emit_W (n : ℕ) (p : SubstParms) : emitKeyletterExpansion f d (n + 1) 87 p =
    ((substLoop (fun _ => false) (emitKeyletterExpansion f d n) [] { p with wstring := none }
      (p.wstring.getD defaultWstring).bytes).map fun r => (bytesOf r.1, r.2)).map
        fun r => (some r.1, restore (p.wstring.getD defaultWstring) r.2) := by
  rw [emitKeyletterExpansion, if_pos rfl, map_map]
  dsimp only
  cases substLoop (fun _ => false) (emitKeyletterExpansion f d n) [] { p with wstring := none }
    (p.wstring.getD defaultWstring).bytes <;> rfl

theorem emit_A (n : ℕ) (p : SubstParms) : emitKeyletterExpansion f d (n + 1) 65 p =
    ((substLoop (fun _ => false) (emitKeyletterExpansion f d n) [] p aString.bytes).map
      fun r => (bytesOf r.1, r.2)).map fun r => (some r.1, r.2) := by
  rw [emitKeyletterExpansion, if_neg (by decide), if_pos rfl, map_map]
  cases substLoop (fun _ => false) (emitKeyletterExpansion f d n) [] p aString.bytes <;> rfl

theorem mem_taken {c : UInt8} {l : List UInt8} : c ∈ taken 37 forced l ↔ .taken c ∈ tokens 37 forced l := by
  rw [taken, List.mem_filterMap]
  constructor
  · rintro ⟨x, hx, he⟩
    cases x with
    | taken c' =>
      cases he
      exact hx
    | item a => cases he
    | skipped c' => cases he
  · exact fun h => ⟨_, h, rfl⟩

/-- The letters that stand for a text keep the `-w` string. -/
theorem emit_text (n : ℕ) {c : UInt8} (hc : isKnownKeywordChar c = true) (hW : c ≠ 87) (hA : c ≠ 65) (p : SubstParms) :
    Emits (emitKeyletterExpansion f d (n + 1) c p) p (quietText f d p.now p.outLineno c) (quietAfter p.wstring c) := by
  refine ⟨p, ?_, rfl, rfl, by rw [quietAfter, if_neg hW]⟩
  rw [emitKeyletterExpansion, if_neg hW, if_neg hA, quietText, if_neg hW, if_neg hA]
  cases hk : keyText f d p.now p.outLineno c with
  | none => simp [(keyText_eq_none_iff f d _ _ hW hA).mp hk] at hc
  | some r => cases r <;> rfl

theorem letterKind_eq_take {raw : UInt8 → Bool} {c : UInt8} (h : letterKind raw c = .take) :
    isKnownKeywordChar c = true := by
  rw [letterKind] at h
  split at h
  · cases h
  · split at h
    · assumption
    · cases h

/-- A string that is expanded because a keyword stands for it, when its letters have their default meaning. -/
theorem subst_quiet {n : ℕ} {I : Option CString → Prop} (hI : ∀ w c, I w → I (quietAfter w c)) {s : List UInt8}
    {p : SubstParms} (hw : I p.wstring) (he : ∀ c ∈ taken 37 forced s, ∀ q, q.now = p.now → q.outLineno = p.outLineno →
      I q.wstring → Emits (emitKeyletterExpansion f d (n + 1) c q) q (quietText f d p.now p.outLineno c)
        (quietAfter q.wstring c)) :
    ∃ p', (substLoop (fun _ => false) (emitKeyletterExpansion f d (n + 1)) [] p s).map (fun r => (bytesOf r.1, r.2)) =
        (tokensText (quietText f d p.now p.outLineno) (tokens 37 forced s)).map (fun t => (t, p')) ∧
      p'.now = p.now ∧ p'.outLineno = p.outLineno ∧
      p'.wstring = if 87 ∈ taken 37 forced s then some defaultWstring else p.wstring := by
  obtain ⟨p', h, hn, hl, hw'⟩ := expandTokens_quiet hI (fun c hc => he c (mem_taken.mpr hc)) rfl rfl hw
  refine ⟨p', ?_, hn, hl, ?_⟩
  · rw [substLoop_eq (recognizes_emit f d n), map_map]
    exact h
  · simpa only [mem_taken] using hw'

/-- The default string, and the one of `%A%`, only have letters that stand for a text. -/
theorem subst_texts (n : ℕ) {s : List UInt8} (hs : ∀ c ∈ taken 37 forced s, isKnownKeywordChar c = true ∧ c ≠ 87 ∧ c ≠ 65)
    (p : SubstParms) :
    ∃ p', (substLoop (fun _ => false) (emitKeyletterExpansion f d (n + 1)) [] p s).map (fun r => (bytesOf r.1, r.2)) =
        (tokensText (quietText f d p.now p.outLineno) (tokens 37 forced s)).map (fun t => (t, p')) ∧
      p'.now = p.now ∧ p'.outLineno = p.outLineno ∧ p'.wstring = p.wstring := by
  obtain ⟨p', h, hn, hl, hw⟩ := subst_quiet (f := f) (d := d) (n := n) (I := fun _ => True) (fun _ _ h => h)
    (s := s) (p := p) trivial fun c hc q hqn hql _ => by
      obtain ⟨hk, hW, hA⟩ := hs c hc
      rw [← hqn, ← hql]
      exact emit_text (f := f) (d := d) n hk hW hA q
  refine ⟨p', h, hn, hl, ?_⟩
  rw [hw, if_neg fun h => (hs 87 h).2.1 rfl]

theorem tokensText_default (now : SccsDate) (lineno : UInt32) :
    tokensText (quietText f d now lineno) (tokens 37 forced defaultWstring.bytes) = defaultText f d := by
  rw [tokens_default, defaultText]
  cases h : d.id.print <;> simp [tokensText, quietText, keyText, h, Except.map]

theorem tokensText_aString (now : SccsDate) (lineno : UInt32) :
    tokensText (quietText f d now lineno) (tokens 37 forced aString.bytes) = aText f d := by
  rw [tokens_aString, aText]
  cases h : d.id.print <;> simp [tokensText, quietText, keyText, h, Except.map]

/-- `%W%` without a `-w` string of the user. -/
theorem emit_default (n : ℕ) {p : SubstParms} (hp : p.wstring = none ∨ p.wstring = some defaultWstring) :
    Emits (emitKeyletterExpansion f d (n + 2) 87 p) p (defaultText f d) (some defaultWstring) := by
  have hget : p.wstring.getD defaultWstring = defaultWstring := by rcases hp with h | h <;> rw [h] <;> rfl
  obtain ⟨p', h, hn, hl, hw⟩ := subst_texts (f := f) (d := d) n (s := defaultWstring.bytes)
    (by rw [taken, tokens_default]; simp [isKnownKeywordChar_iff]) { p with wstring := none }
  rw [emit_W, hget, h, tokensText_default, map_map]
  refine ⟨restore defaultWstring p', rfl, ?_⟩
  rw [restore, hw]
  exact ⟨hn, hl, rfl⟩

/-- `%A%`. -/
theorem emit_a (n : ℕ) (p : SubstParms) : Emits (emitKeyletterExpansion f d (n + 2) 65 p) p (aText f d) p.wstring := by
  obtain ⟨p', h, hn, hl, hw⟩ := subst_texts (f := f) (d := d) n (s := aString.bytes)
    (by rw [taken, tokens_aString]; simp [isKnownKeywordChar_iff]) p
  rw [emit_A, h, tokensText_aString, map_map]
  exact ⟨p', rfl, hn, hl, hw⟩

theorem wAfter_default : wAfter (some defaultWstring) = defaultWstring := by
  rw [wAfter, if_neg (by rw [taken, tokens_default]; decide)]

/-- While the `-w` string is a quiet one, each letter has its default meaning. -/
theorem emit_quiet (n : ℕ) {c : UInt8} (hc : isKnownKeywordChar c = true) {p : SubstParms}
    (hp : p.wstring = none ∨ p.wstring = some defaultWstring) :
    Emits (emitKeyletterExpansion f d (n + 2) c p) p (quietText f d p.now p.outLineno c) (quietAfter p.wstring c) := by
  by_cases hW : c = 87
  · subst hW
    exact emit_default n hp
  · by_cases hA : c = 65
    · subst hA
      exact emit_a n p
    · exact emit_text (n + 1) hc hW hA p

/-- What `%W%` stands for in general. The inner `%W%` puts the default string into the parameters, where the outer one
then finds it. -/
theorem emit_w (n : ℕ) (p : SubstParms) :
    Emits (emitKeyletterExpansion f d (n + 3) 87 p) p (wText f d p.now p.outLineno p.wstring)
      (some (wAfter p.wstring)) := by
  cases hw : p.wstring with
  | none => exact emit_default (n + 1) (.inl hw)
  | some w =>
    obtain ⟨p', h, hn, hl, hw'⟩ := subst_quiet (f := f) (d := d) (n := n + 1)
      (I := fun w => w = none ∨ w = some defaultWstring) (s := w.bytes) (p := { p with wstring := none })
      quietAfter_quiet (.inl rfl) fun c hc q hqn hql hq => by
        rw [← hqn, ← hql]
        exact emit_quiet (f := f) (d := d) n (letterKind_eq_take ((kind_of_mem _ _ (mem_taken.mp hc)).1 c rfl)) hq
    rw [emit_W, hw, Option.getD_some, h, map_map]
    refine ⟨restore w p', rfl, ?_⟩
    by_cases h87 : 87 ∈ taken 37 forced w.bytes
    · rw [if_pos h87] at hw'
      rw [restore, wAfter, if_pos h87, hw']
      exact ⟨hn, hl, hw'⟩
    · rw [if_neg h87] at hw'
      rw [restore, wAfter, if_neg h87, hw']
      exact ⟨hn, hl, rfl⟩

/-! ### Lines -/

variable (f d) in
/-- What a letter stands for in a line. -/
def lineText (p : SubstParms) (c : UInt8) : Except Quit (List UInt8) :=
  if c = 87 then wText f d p.now p.outLineno p.wstring else quietText f d p.now p.outLineno c

/-- The `-w` string afterwards. -/
def lineAfter (w : Option CString) (c : UInt8) : Option CString := if c = 87 then some (wAfter w) else w

/-- What one letter of a line does. -/
theorem emit_line (n : ℕ) {c : UInt8} (hc : isKnownKeywordChar c = true) (p : SubstParms) :
    Emits (emitKeyletterExpansion f d (n + 3) c p) p (lineText f d p c) (lineAfter p.wstring c) := by
  rw [lineText, lineAfter]
  by_cases hW : c = 87
  · subst hW
    exact emit_w n p
  · rw [if_neg hW, if_neg hW]
    by_cases hA : c = 65
    · subst hA
      exact emit_a (n + 1) p
    · simpa only [quietAfter, if_neg hW] using emit_text (f := f) (d := d) (n + 2) hc hW hA p

theorem printf_ne_diverges (s : Sid) (c : UInt8) (b : Bool) : s.printf c b ≠ .error .diverges := by
  unfold Sid.printf
  split
  · split
    · simp
    · simp
    · split <;> simp
    · split <;> simp
    · simp
  · simp

theorem date_printf_ne_diverges (s : SccsDate) (c : UInt8) : s.printf c ≠ .error .diverges := by
  unfold SccsDate.printf
  split <;> simp

theorem print_ne_diverges (s : Sid) : s.print ≠ .error .diverges := fun h => by cases Sid.print_error h

theorem map_ne_diverges {α β : Type} {x : Except Quit α} (h : x ≠ .error .diverges) (g : α → β) :
    x.map g ≠ .error .diverges := by
  cases x with
  | error q => simpa [Except.map] using h
  | ok a => simp [Except.map]

theorem quietText_ne_diverges (now : SccsDate) (lineno : UInt32) (c : UInt8) :
    quietText f d now lineno c ≠ .error .diverges := by
  rw [quietText]
  split
  · exact map_ne_diverges (print_ne_diverges _) _
  · split
    · exact map_ne_diverges (print_ne_diverges _) _
    · unfold keyText
      split
      all_goals simp [print_ne_diverges, printf_ne_diverges, date_printf_ne_diverges]
      cases f.canon <;> simp [Except.mapError, Except.map]

theorem tokensText_ne_diverges {value : UInt8 → Except Quit (List UInt8)} (h : ∀ c, value c ≠ .error .diverges)
    (ts : List (Token UInt8)) : tokensText value ts ≠ .error .diverges := by
  induction ts with
  | nil => nofun
  | cons x ts ih =>
    cases x with
    | item a => exact map_ne_diverges ih _
    | skipped c => exact map_ne_diverges ih _
    | taken c =>
      rw [tokensText]
      split
      · next q hq => exact fun he => h c (hq.trans he)
      · exact map_ne_diverges ih _

theorem lineText_ne_diverges (p : SubstParms) (c : UInt8) : lineText f d p c ≠ .error .diverges := by
  rw [lineText]
  split
  · cases p.wstring with
    | none => exact map_ne_diverges (print_ne_diverges _) _
    | some w => exact tokensText_ne_diverges (quietText_ne_diverges _ _) _
  · exact quietText_ne_diverges _ _ _

/-- Writing a line returns. -/
theorem expandTokens_ne_diverges (n : ℕ) {ts : List (Token UInt8)}
    (ht : ∀ c, .taken c ∈ ts → isKnownKeywordChar c = true) (p : SubstParms) :
    expandTokens (emitKeyletterExpansion f d (n + 3)) ts p ≠ .error .diverges := by
  induction ts generalizing p with
  | nil => nofun
  | cons x ts ih =>
    have ih := ih fun c hc => ht c (List.mem_cons_of_mem _ hc)
    cases x with
    | item a => exact map_ne_diverges (ih p) _
    | skipped c => exact map_ne_diverges (ih p) _
    | taken c =>
      obtain ⟨p', h, -⟩ := emit_line (f := f) (d := d) n (ht c List.mem_cons_self) p
      rw [expandTokens, h]
      cases hl : lineText f d p c with
      | error q => exact fun he => lineText_ne_diverges p c (hl.trans (by simpa [Except.map] using he))
      | ok t => exact map_ne_diverges (ih _) _

variable (f) in
/-- What is done at a letter in a line. -/
abbrev lineKind : UInt8 → Kind := letterKind fun c => !expandKeyletter c f.flags.letters

theorem known_of_mem {raw : UInt8 → Bool} {l : List UInt8} :
    ∀ c, .taken c ∈ tokens 37 (letterKind raw) l → isKnownKeywordChar c = true :=
  fun c hc => letterKind_eq_take ((kind_of_mem _ _ hc).1 c rfl)

/-- `write_subst` goes over the pieces of the line. -/
theorem writeSubst_eq (n : ℕ) (p : SubstParms) (line : CString) : writeSubst f d (n + 1) p line =
    expandTokens (emitKeyletterExpansion f d (n + 1)) (tokens 37 (lineKind f) line.bytes) p := by
  rw [writeSubst, substLoop_eq (recognizes_emit f d n)]
  cases expandTokens (emitKeyletterExpansion f d (n + 1)) (tokens 37 (lineKind f) line.bytes) p <;> rfl

/-- Three levels are enough. -/
theorem writeLines_ne_diverges (n : ℕ) (p : SubstParms) (lines : List CString) :
    writeLines f d (n + 3) p lines ≠ .error .diverges := by
  induction lines generalizing p with
  | nil => nofun
  | cons line lines ih =>
    rw [writeLines, writeSubst_eq]
    split
    · next q hq =>
      exact fun he => expandTokens_ne_diverges n known_of_mem _ (hq.trans he)
    · exact map_ne_diverges (ih _) _

end

end CSSC.Body
