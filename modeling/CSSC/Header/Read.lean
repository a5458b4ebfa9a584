import CSSC.Header.Admin
import CSSC.Header.Reread

/-!
# What the parser guarantees

Whatever a history file looks like, what the parser finds in it can be written again, but for the date and the counts
of a delta: **a header that is accepted is `Read`** (`read_of_parseTable`).
-/

namespace CSSC.Header

open CSSC.Lines CSSC.Body CSSC.Table CSSC.Library.Decimal

/-- What holds of a delta that was read. -/
structure Read (d : FullDelta) : Prop where
  /-- The SID is valid. -/
  id : d.id.valid = true
  /-- The date is valid. -/
  date : d.date.valid = true
  /-- A user has no blank in the name. -/
  user : Clean d.user ∧ (32 : UInt8) ∉ d.user
  /-- Numbers have 16 bits. -/
  seq : d.seq ≤ 65535 ∧ d.prevSeq ≤ 65535
  /-- So have the entries of the lists. -/
  lists : ∀ s ∈ d.included ++ d.excluded ++ d.ignored, s ≤ 65535
  /-- A list that is not there has no entries. -/
  present : (d.haveIncludes = false → d.included = []) ∧ (d.haveExcludes = false → d.excluded = []) ∧
    (d.haveIgnores = false → d.ignored = [])
  /-- MRs are lines. -/
  mrs : ∀ s ∈ d.mrs, Clean s
  /-- So are comments. -/
  comments : ∀ s ∈ d.comments, Clean s

/-- A delta that was read can be written, if its date and its counts can. -/
theorem Read.writable {d : FullDelta} (h : Read d) (hy : 1969 ≤ d.date.year ∧ d.date.year < 2069)
    (hc : d.inserted ≤ 99999 ∧ d.deleted ≤ 99999 ∧ d.unchanged ≤ 99999) : Writable d :=
  ⟨h.date, hy, h.user, h.seq, h.lists, h.mrs, h.comments, hc⟩

/-- What holds of a header that was read. -/
structure HeaderTable.Read (t : HeaderTable) : Prop where
  /-- There is a delta in a table. -/
  nonempty : t.deltaTable ≠ some []
  /-- Deltas. -/
  deltas : ∀ T, t.deltaTable = some T → ∀ d ∈ T, Header.Read d
  /-- Users are lines. -/
  users : ∀ s ∈ t.users, Clean s
  /-- So are the arguments of flags. -/
  flags : ∀ p ∈ t.flags, ∀ s, p.value = some s → Clean s
  /-- So are the lines of the description. -/
  comments : ∀ s ∈ t.comments, Clean s

/-! ### Fields -/

theorem clean_bytes (l : Line) : Clean l.bytes :=
  fun _ hc => ⟨fun h => l.no_nul (h ▸ hc), fun h => l.no_newline (h ▸ hc)⟩

theorem Clean.subset {s t : List UInt8} (h : Clean t) (hs : ∀ c ∈ s, c ∈ t) : Clean s := fun c hc => h c (hs c hc)

theorem Clean.drop {s : List UInt8} (h : Clean s) (n : ℕ) : Clean (s.drop n) :=
  h.subset fun _ => List.mem_of_mem_drop

theorem strictAtousLoop_le {n m : ℕ} {empty : Bool} {s : List UInt8} (hn : n ≤ 65535)
    (h : strictAtousLoop n empty s = .ok m) : m ≤ 65535 := by
  induction s generalizing n empty with
  | nil =>
    rw [strictAtousLoop] at h
    split_ifs at h
    exact Except.ok.inj h ▸ hn
  | cons c s ih =>
    rw [strictAtousLoop] at h
    split_ifs at h with h1 h2
    exact ih (by omega) h

theorem strictAtous_le {s : List UInt8} {m : ℕ} (h : strictAtous s = .ok m) : m ≤ 65535 :=
  strictAtousLoop_le (Nat.zero_le _) h

/-- Fields are parts of the string. -/
theorem mem_of_mem_split {len : ℕ} {c : UInt8} {s x : List UInt8} (h : x ∈ (Linebuf.split len c s).args) :
    ∀ a ∈ x, a ∈ s := by
  induction len generalizing s with
  | zero => cases h
  | succ len ih =>
    by_cases hc : c ∈ s
    · rw [Linebuf.split, if_pos hc] at h
      rcases List.mem_cons.mp h with rfl | h
      · exact fun a ha => ( List.takeWhile_prefix _).subset ha
      · exact fun a ha => (List.dropWhile_suffix _).subset (List.mem_of_mem_drop (ih h a ha))
    · rw [Linebuf.split, if_neg hc] at h
      rw [List.mem_singleton.mp h]
      exact fun a ha => ha

/-- A field in front of another one ends at the delimiter. -/
theorem not_mem_split {len i : ℕ} {c : UInt8} {s x y : List UInt8} (hx : (Linebuf.split len c s).args[i]? = some x)
    (hy : (Linebuf.split len c s).args[i + 1]? = some y) : c ∉ x := by
  induction len generalizing s i with
  | zero => cases hx
  | succ len ih =>
    by_cases hc : c ∈ s
    · rw [Linebuf.split, if_pos hc] at hx hy
      cases i with
      | zero =>
        rw [List.getElem?_cons_zero, Option.some.injEq] at hx
        rw [← hx]
        intro hm
        simpa using List.mem_takeWhile_imp hm
      | succ i =>
        rw [List.getElem?_cons_succ] at hx hy
        exact ih hx hy
    · rw [Linebuf.split, if_neg hc] at hy
      simp at hy

theorem field_eq_ok {a : Args} {i : ℕ} {s : List UInt8} : field a i = .ok s ↔ a.args[i]? = some s := by
  rw [field]
  cases a.args[i]? <;> simp

theorem deltaDate_valid {date time : List UInt8} {d : SccsDate} (h : deltaDate date time = .ok d) : d.valid = true := by
  rw [deltaDate] at h
  obtain ⟨e, -, h⟩ := bind_eq_ok.mp h
  split_ifs at h with hv
  exact Except.ok.inj h ▸ hv

theorem deltaSid_eq_ok {s : List UInt8} {id : Sid} : deltaSid s = .ok id ↔ (Sid.ofText s).valid = true ∧ Sid.ofText s = id := by
  rw [deltaSid, intResult_wrapping]
  split_ifs with h <;> simp [h]

/-- A delta as it is after the line `^Ad`. -/
theorem read_of_readFields {s : List UInt8} {idu : ℕ × ℕ × ℕ} {d : FullDelta} (hs : Clean s)
    (h : readFields (Linebuf.split 7 32 s) idu = .ok d) : Read d := by
  simp only [readFields, bind_eq_ok, field_eq_ok] at h
  obtain ⟨s₀, -, type, -, s₁, -, id, hid, s₂, -, s₃, -, date, hdate, user, huser, s₅, hnext, seq, hseq, s₆, -, prev,
    hprev, h⟩ := h
  obtain rfl := Except.ok.inj h
  refine ⟨?_, deltaDate_valid hdate, ⟨hs.subset (mem_of_mem_split (List.mem_of_getElem? huser)),
    not_mem_split huser hnext⟩, ⟨strictAtous_le hseq, strictAtous_le hprev⟩, by simp, by simp, by simp, by simp⟩
  obtain ⟨hv, rfl⟩ := deltaSid_eq_ok.mp hid
  exact hv

/-! ### Deltas -/

theorem readSeqs_le {l : Line} {seqs : List ℕ} (h : ListKind.readSeqs l = .ok seqs) : ∀ s ∈ seqs, s ≤ 65535 := by
  have hmap : ∀ (xs : List (List UInt8)) (seqs : List ℕ), xs.mapM strictAtous = .ok seqs → ∀ s ∈ seqs, s ≤ 65535 := by
    intro xs
    induction xs with
    | nil =>
      intro seqs h
      obtain rfl := Except.ok.inj h
      simp
    | cons x xs ih =>
      intro seqs h
      rw [List.mapM_cons] at h
      obtain ⟨n, hn, h⟩ := bind_eq_ok.mp h
      obtain ⟨ns, hns, h⟩ := bind_eq_ok.mp h
      obtain rfl := Except.ok.inj h
      exact List.forall_mem_cons.mpr ⟨strictAtous_le hn, ih ns hns⟩
  rw [ListKind.readSeqs] at h
  split_ifs at h
  · obtain rfl := Except.ok.inj h
    simp
  · exact hmap _ _ h

theorem Read.add {d : FullDelta} (h : Read d) (k : ListKind) {seqs : List ℕ} (hs : ∀ s ∈ seqs, s ≤ 65535) :
    Read (k.add d seqs) := by
  have hl := h.lists
  obtain ⟨h1, h2, h3⟩ := h.present
  simp only [List.mem_append] at hl
  cases k <;> refine { h with lists := ?_, present := ?_ } <;> simp only [ListKind.add, List.mem_append] <;> grind

theorem read_of_readLists {stop : Quit} {ks : List ListKind} {d d' : FullDelta} {l l' : Line} {ls ls' : List Line}
    (hd : Read d) (h : readLists stop ks d l ls = .ok (d', l', ls')) : Read d' := by
  induction ks generalizing d l ls with
  | nil =>
    simp only [readLists, Except.ok.injEq, Prod.mk.injEq] at h
    exact h.1 ▸ hd
  | cons k ks ih =>
    rw [readLists] at h
    split_ifs at h
    · obtain ⟨seqs, hseqs, h⟩ := bind_eq_ok.mp h
      obtain ⟨⟨l₁, ls₁⟩, -, h⟩ := bind_eq_ok.mp h
      exact ih (hd.add k (readSeqs_le hseqs)) h
    · exact ih hd h

/-- A loop keeps what one turn keeps. -/
theorem readLoop_keeps {σ : Type} {P : σ → Prop} {stop : Quit} {again : Line → Bool} {step : σ → Line → Except Quit σ}
    (hstep : ∀ s l t, P s → step s l = .ok t → P t) {s t : σ} {l l' : Line} {ls ls' : List Line} (hs : P s)
    (h : readLoop stop again step s l ls = .ok (t, l', ls')) : P t := by
  induction ls generalizing s l with
  | nil =>
    rw [readLoop] at h
    split_ifs at h
    · obtain ⟨_, _, h⟩ := bind_eq_ok.mp h
      cases h
    · simp only [Except.ok.injEq, Prod.mk.injEq] at h
      exact h.1 ▸ hs
  | cons l₁ ls ih =>
    rw [readLoop] at h
    split_ifs at h
    · obtain ⟨s₁, hs₁, h⟩ := bind_eq_ok.mp h
      exact ih (hstep s l s₁ hs hs₁) h
    · simp only [Except.ok.injEq, Prod.mk.injEq] at h
      exact h.1 ▸ hs

theorem Read.addNote {d d' : FullDelta} {l : Line} (h : Read d) (ha : addNote d l = .ok d') : Read d' := by
  have hl := (clean_bytes l).drop 3
  rw [Header.addNote] at ha
  split_ifs at ha
  · obtain rfl := Except.ok.inj ha
    refine { h with mrs := fun s hs => ?_ }
    rcases List.mem_append.mp hs with hs | hs
    · exact h.mrs s hs
    · exact List.mem_singleton.mp hs ▸ hl
  · exact Except.ok.inj ha ▸ h
  · obtain rfl := Except.ok.inj ha
    refine { h with comments := fun s hs => ?_ }
    rcases List.mem_append.mp hs with hs | hs
    · exact h.comments s hs
    · exact List.mem_singleton.mp hs ▸ hl

theorem read_of_readDelta {stop : Quit} {l : Line} {ls ls' : List Line} {d : FullDelta}
    (h : readDelta stop l ls = .ok (d, ls')) : Read d := by
  simp only [readDelta, bind_eq_ok] at h
  obtain ⟨idu, -, ⟨l₁, ls₁⟩, -, -, -, -, -, d₁, hd₁, ⟨l₂, ls₂⟩, -, ⟨d₂, l₃, ls₃⟩, hd₂, ⟨d₃, l₄, ls₄⟩, hd₃, -, -, -, -,
    h⟩ := h
  obtain ⟨rfl, -⟩ := Prod.mk.inj (Except.ok.inj h)
  have h1 : Read d₁ := read_of_readFields ((clean_bytes l₁).drop 3) hd₁
  exact readLoop_keeps (fun d l d' hd => hd.addNote) (read_of_readLists h1 hd₂) hd₃

theorem read_of_readDeltas {stop : Quit} {fuel : ℕ} {T T' : FullTable} {l l' : Line} {ls ls' : List Line}
    (hT : ∀ d ∈ T, Read d) (h : readDeltas stop fuel T l ls = .ok (T', l', ls')) : ∀ d ∈ T', Read d := by
  induction fuel generalizing T l ls with
  | zero => cases h
  | succ fuel ih =>
    rw [readDeltas] at h
    split_ifs at h
    · obtain ⟨⟨d, ls₁⟩, hd, h⟩ := bind_eq_ok.mp h
      obtain ⟨⟨l₁, ls₂⟩, -, h⟩ := bind_eq_ok.mp h
      refine ih (fun e he => ?_) h
      rcases List.mem_append.mp he with he | he
      · exact hT e he
      · exact List.mem_singleton.mp he ▸ read_of_readDelta hd
    · simp only [Except.ok.injEq, Prod.mk.injEq] at h
      exact h.1 ▸ hT

/-! ### The header -/

/-- **A header that is accepted can be written again**, as far as it is guaranteed. -/
theorem read_of_parseTable {stop : Quit} {ls : List Line} {t : HeaderTable} (h : parseTable stop ls = .ok t) :
    t.Read := by
  simp only [parseTable, bind_eq_ok] at h
  obtain ⟨⟨l₁, ls₁⟩, -, ⟨T, l₂, ls₂⟩, hT, -, -, -, -, ⟨l₃, ls₃⟩, -, ⟨users, l₄, ls₄⟩, hu, ⟨l₅, ls₅⟩, -, ⟨fs, l₆, ls₆⟩,
    hf, -, -, ⟨l₇, ls₇⟩, -, ⟨cs, l₈, ls₈⟩, hc, -, -, h⟩ := h
  obtain rfl := Except.ok.inj h
  have happ : ∀ {ss : List (List UInt8)} {s : List UInt8}, (∀ s ∈ ss, Clean s) → Clean s → ∀ u ∈ ss ++ [s], Clean u := by
    intro ss s hss hs u hu
    rcases List.mem_append.mp hu with hu | hu
    · exact hss u hu
    · exact List.mem_singleton.mp hu ▸ hs
  refine ⟨?_, ?_, ?_, ?_, ?_⟩
  · show (if T = [] then none else some T) ≠ some []
    split_ifs with hne
    · simp
    · simpa using hne
  · intro T' hT'
    have hT' : (if T = [] then none else some T) = some T' := hT'
    split_ifs at hT'
    exact Option.some.inj hT' ▸ read_of_readDeltas (by simp) hT
  · refine readLoop_keeps (P := fun us => ∀ s ∈ us, Clean s) (fun us l us' hus ha => ?_) (by simp) hu
    obtain ⟨_, -, ha⟩ := bind_eq_ok.mp ha
    exact Except.ok.inj ha ▸ happ hus (clean_bytes l)
  · refine readLoop_keeps (P := fun fs => ∀ p ∈ fs, ∀ s, p.value = some s → Clean s) (fun fs l fs' hfs ha => ?_)
      (by simp) hf
    obtain ⟨_, -, ha⟩ := bind_eq_ok.mp ha
    split_ifs at ha
    · obtain rfl := Except.ok.inj ha
      intro p hp s hs
      rcases List.mem_append.mp hp with hp | hp
      · exact hfs p hp s hs
      · rw [List.mem_singleton.mp hp] at hs
        exact Option.some.inj hs ▸ (clean_bytes l).drop 5
    · obtain rfl := Except.ok.inj ha
      intro p hp s hs
      rcases List.mem_append.mp hp with hp | hp
      · exact hfs p hp s hs
      · rw [List.mem_singleton.mp hp] at hs
        cases hs
  · refine readLoop_keeps (P := fun cs => ∀ s ∈ cs, Clean s) (fun cs l cs' hcs ha => ?_) (by simp) hc
    exact Except.ok.inj ha ▸ happ hcs (clean_bytes l)

end CSSC.Header
