import CSSC.Table.SidText

/-!
# What a SID that is read was written as

The constructor of `sid` reads up to four numbers into an `int` and keeps 16 bits of each. It finds out that a string
is not made of numbers, but not that a number is too large.

`Numbers k s ns` says that the string `s` consists of the numbers `ns`: at most `k`, in decimal, with dots in between
and perhaps a dot at the end, none of them 0 before a dot. A string is read to its end exactly if it is made of
numbers and none of those before a dot loses all its bits (`readComps_numbers`, `readComps_cut`,
`numbers_of_readComps`), and the components are these numbers, cut to 16 bits.

`Faithful`, `Distinguishes` and `Reread` are what reading and printing should be. They hold exactly if the strings are
`Readable` and the SID is plain (`text_faithful_iff`), whether or not the overflow of an `int` is held to be defined.
-/

namespace CSSC.Table

open CSSC.Lines CSSC.Library.Decimal

namespace Sid

/-- The numbers that a string is made of, at most `k`. -/
inductive Numbers : ℕ → List UInt8 → List ℕ → Prop where
  /-- A number is the last one, which may be 0. -/
  | last {k : ℕ} {ds : List UInt8} (hd : ∀ c ∈ ds, isDigit c = true) (hne : ds ≠ []) :
    Numbers (k + 1) ds [valueFrom 0 ds]
  /-- A dot at the end is left out. -/
  | trailing {k : ℕ} {ds : List UInt8} (hd : ∀ c ∈ ds, isDigit c = true) (h0 : valueFrom 0 ds ≠ 0) :
    Numbers (k + 1) (ds ++ [46]) [valueFrom 0 ds]
  /-- A number, a dot, and more numbers. -/
  | dot {k : ℕ} {ds s : List UInt8} {ns : List ℕ} (hd : ∀ c ∈ ds, isDigit c = true) (h0 : valueFrom 0 ds ≠ 0)
    (h : Numbers k s ns) : Numbers (k + 1) (ds ++ 46 :: s) (valueFrom 0 ds :: ns)

/-- The numbers with zeros for those that are missing. -/
def padTo (k : ℕ) (ns : List ℕ) : List ℕ := ns ++ List.replicate (k - ns.length) 0

/-- The components. -/
def comps (v : Sid) : List Int16 := [v.rel, v.level, v.branch, v.sequence]

/-- `sid(const char*)`, where the overflow of an `int` may be undefined. -/
def read [IntOverflow] (s : List UInt8) : Except Quit Sid := intResult (overflows s) (.ok (ofText s))

/-- A string is read. If the SID is valid, the string consists of one to four numbers, and these are its components. -/
def Faithful [IntOverflow] (s : List UInt8) : Prop :=
  ∃ v, read s = .ok v ∧
    (v.valid = true → ∃ ns, Numbers 4 s ns ∧ v.comps.map Int16.toInt = (padTo 4 ns).map Nat.cast)

/-- Strings of different numbers are not read as the same SID. -/
def Distinguishes [IntOverflow] (s t : List UInt8) : Prop :=
  ∀ v, read s = .ok v → read t = .ok v → v.valid = true →
    ∀ ns ms, Numbers 4 s ns → Numbers 4 t ms → padTo 4 ns = padTo 4 ms

/-- A valid SID is printed with digits and dots and read back. -/
def Reread [IntOverflow] (v : Sid) : Prop :=
  v.valid = true → read v.text = .ok v ∧ ∀ c ∈ v.text, c = 46 ∨ isDigit c = true

/-- A number in front of a dot is a multiple of 2³², and taken for 0. -/
def Cut (s : List UInt8) : Prop := ∃ ds ∈ (s.splitOn 46).dropLast, valueFrom 0 ds % 2 ^ 32 = 0

instance (s : List UInt8) : Decidable (Cut s) := inferInstanceAs (Decidable (∃ _ ∈ _, _))

/-- The string is not read as a valid SID because of the upper bits that its numbers lose: the release is not positive,
or the sequence is -1, or a number in front of a dot is taken for 0. -/
def Refused (s : List UInt8) (ns : List ℕ) : Prop :=
  ns.headD 0 % 65536 = 0 ∨ 32768 ≤ ns.headD 0 % 65536 ∨ ns.getD 3 0 % 65536 = 65535 ∨ Cut s

instance (s : List UInt8) (ns : List ℕ) : Decidable (Refused s ns) := inferInstanceAs (Decidable (_ ∨ _))

/-- Nothing overflows. If the string is made of numbers, they have 15 bits, or the string is refused. -/
def Readable [IntOverflow] (s : List UInt8) : Prop :=
  ¬ Overflow (overflows s) ∧ ∀ ns, Numbers 4 s ns → (∀ n ∈ ns, n ≤ 32767) ∨ Refused s ns

/-- The loop of the constructor, over `k` components: these, and the rest of the string. -/
def readComps : ℕ → List UInt8 → List Int16 × List UInt8
  | 0, s => ([], s)
  | k + 1, s => ((getIdComp s).1 :: (readComps k (getIdComp s).2).1, (readComps k (getIdComp s).2).2)

/-! ### Numbers -/

theorem digits_split {ds s : List UInt8} (hd : ∀ c ∈ ds, isDigit c = true) :
    (ds ++ 46 :: s).takeWhile isDigit = ds ∧ (ds ++ 46 :: s).dropWhile isDigit = 46 :: s := by
  rw [List.takeWhile_append_of_pos hd, List.dropWhile_append_of_pos hd, List.takeWhile_cons_of_neg (by decide),
    List.dropWhile_cons_of_neg (by decide), List.append_nil]
  exact ⟨rfl, rfl⟩

theorem Numbers.ne_nil {k : ℕ} {s : List UInt8} {ns : List ℕ} (h : Numbers k s ns) : s ≠ [] := by
  cases h with
  | last _ hne => exact hne
  | trailing => simp
  | dot => simp

/-- **A string is made of its numbers in one way.** -/
theorem Numbers.unique {k : ℕ} {s : List UInt8} {ns ms : List ℕ} (h : Numbers k s ns) (h' : Numbers k s ms) :
    ns = ms := by
  have hdigits : ∀ {ds : List UInt8}, (∀ c ∈ ds, isDigit c = true) → ds.dropWhile isDigit = [] := fun h =>
    List.dropWhile_eq_nil_iff.mpr h
  have hcut : ∀ {ds es s t : List UInt8}, (∀ c ∈ ds, isDigit c = true) → (∀ c ∈ es, isDigit c = true) →
      ds ++ 46 :: s = es ++ 46 :: t → ds = es ∧ s = t := by
    intro ds es s t hd he h
    obtain ⟨h1, h2⟩ := digits_split (s := s) hd
    obtain ⟨h3, h4⟩ := digits_split (s := t) he
    rw [h] at h1 h2
    exact ⟨h1.symm.trans h3, (List.cons.inj (h2.symm.trans h4)).2⟩
  induction h generalizing ms with
  | @last k ds hd hne =>
    generalize hs : ds = s at h'
    cases h' with
    | last => rfl
    | @trailing _ es he =>
      have := hdigits hd
      rw [hs, (digits_split he).2] at this
      cases this
    | @dot _ es t _ he =>
      have := hdigits hd
      rw [hs, (digits_split he).2] at this
      cases this
  | @trailing k ds hd h0 =>
    generalize hs : ds ++ [46] = s at h'
    cases h' with
    | last he =>
      have := hdigits he
      rw [← hs, (digits_split hd).2] at this
      cases this
    | trailing he => rw [(hcut hd he hs).1]
    | dot he _ hn =>
      obtain ⟨-, rfl⟩ := hcut hd he hs
      exact absurd rfl hn.ne_nil
  | @dot k ds t ns hd h0 hn ih =>
    generalize hs : ds ++ 46 :: t = s at h'
    cases h' with
    | last he =>
      have := hdigits he
      rw [← hs, (digits_split hd).2] at this
      cases this
    | trailing he =>
      obtain ⟨-, rfl⟩ := hcut hd he hs
      exact absurd rfl hn.ne_nil
    | dot he _ hn' =>
      obtain ⟨rfl, rfl⟩ := hcut hd he hs
      rw [ih hn']

/-! ### Reading -/

/-- A component is the last one, or comes before a dot, or the reader is stuck at a character. -/
theorem getIdComp_cases (s : List UInt8) :
    ((∀ c ∈ s, isDigit c = true) ∧ getIdComp s = (Int16.ofNat (valueFrom 0 s), [])) ∨
      (∃ ds t, (∀ c ∈ ds, isDigit c = true) ∧ valueFrom 0 ds ≠ 0 ∧ s = ds ++ 46 :: t ∧
        getIdComp s = (Int16.ofNat (valueFrom 0 ds), t)) ∨
      ∃ c t, (getIdComp s).2 = c :: t ∧ getIdComp (c :: t) = (-1, c :: t) := by
  have hall : ∀ c ∈ s.takeWhile isDigit, isDigit c = true := fun c hc => List.mem_takeWhile_imp hc
  have hs : s.takeWhile isDigit ++ s.dropWhile isDigit = s := List.takeWhile_append_dropWhile
  rcases hd : s.dropWhile isDigit with _ | ⟨c, t⟩
  · rw [hd, List.append_nil] at hs
    rw [hs] at hall
    exact .inl ⟨hall, getIdComp_digits hall⟩
  · have hc : isDigit c = false := by
      have := List.dropWhile_get_zero_not isDigit s (by rw [hd]; exact Nat.succ_pos _)
      simpa [hd] using this
    rw [hd] at hs
    by_cases h46 : c = 46
    · subst h46
      have hdot := getIdComp_digits_dot hall t
      rw [hs] at hdot
      by_cases h0 : valueFrom 0 (s.takeWhile isDigit) % 2 ^ 32 = 0
      · rw [if_pos h0] at hdot
        exact .inr (.inr ⟨46, t, by rw [hdot], getIdComp_stuck (.inl rfl) t⟩)
      · rw [if_neg h0] at hdot
        exact .inr (.inl ⟨_, t, hall, fun he => h0 (by simp [he]), hs.symm, hdot⟩)
    · have hloop := idCompLoop_digits (n := 0) hall (c :: t)
      rw [hs, idCompLoop, if_neg h46, if_neg (by simp [hc])] at hloop
      refine .inr (.inr ⟨c, t, ?_, getIdComp_stuck (.inr ⟨h46, hc⟩) t⟩)
      rw [getIdComp, show (0 : Int32) = Int32.ofNat 0 from rfl, hloop]

theorem readComps_stuck {c : UInt8} {t : List UInt8} (h : getIdComp (c :: t) = (-1, c :: t)) (k : ℕ) :
    (readComps k (c :: t)).2 = c :: t := by
  induction k with
  | zero => rfl
  | succ k ih => rw [readComps, h, ih]

theorem readComps_nil (k : ℕ) : readComps k [] = ((padTo k []).map Int16.ofNat, []) := by
  induction k with
  | zero => rfl
  | succ k ih =>
    rw [readComps, getIdComp_nil, ih]
    rfl

theorem padTo_cons (k n : ℕ) (ns : List ℕ) : padTo (k + 1) (n :: ns) = n :: padTo k ns := by
  simp [padTo]

/-! ### Numbers in front of a dot -/

theorem dot_notMem {ds : List UInt8} (hd : ∀ c ∈ ds, isDigit c = true) : (46 : UInt8) ∉ ds :=
  fun hm => absurd (hd 46 hm) (by decide)

theorem not_cut_digits {ds : List UInt8} (hd : ∀ c ∈ ds, isDigit c = true) : ¬ Cut ds := by
  rw [Cut, List.splitOn_eq_singleton (dot_notMem hd)]
  simp

theorem cut_dot {ds : List UInt8} (hd : ∀ c ∈ ds, isDigit c = true) (s : List UInt8) :
    Cut (ds ++ 46 :: s) ↔ valueFrom 0 ds % 2 ^ 32 = 0 ∨ Cut s := by
  rw [Cut, List.splitOn_append_cons_self_of_not_mem (dot_notMem hd),
    List.dropLast_cons_of_ne_nil (List.splitOn_ne_nil _ _), List.exists_mem_cons_iff]
  rfl

/-- **A string made of numbers is read to its end**, if no number in front of a dot is taken for 0. -/
theorem readComps_numbers {k : ℕ} {s : List UInt8} {ns : List ℕ} (h : Numbers k s ns) (hc : ¬ Cut s) :
    readComps k s = ((padTo k ns).map Int16.ofNat, []) := by
  induction h with
  | @last k ds hd hne =>
    rw [readComps, getIdComp_digits hd, readComps_nil, padTo_cons]
    rfl
  | @trailing k ds hd h0 =>
    have h32 : ¬ valueFrom 0 ds % 2 ^ 32 = 0 := fun h => hc ((cut_dot hd []).mpr (.inl h))
    rw [readComps, getIdComp_digits_dot hd, if_neg h32, readComps_nil, padTo_cons]
    rfl
  | @dot k ds s ns hd h0 _ ih =>
    rw [cut_dot hd, not_or] at hc
    rw [readComps, getIdComp_digits_dot hd, if_neg hc.1, ih hc.2, padTo_cons]
    rfl

/-- The reader is stuck where a number is taken for 0. -/
theorem readComps_cut {k : ℕ} {s : List UInt8} {ns : List ℕ} (h : Numbers k s ns) (hc : Cut s) :
    (readComps k s).2 ≠ [] := by
  induction h with
  | @last k ds hd hne => exact absurd hc (not_cut_digits hd)
  | @trailing k ds hd h0 =>
    have h32 := ((cut_dot hd []).mp hc).resolve_right (not_cut_digits (by simp))
    rw [readComps, getIdComp_digits_dot hd, if_pos h32, readComps_stuck (getIdComp_stuck (.inl rfl) [])]
    simp
  | @dot k ds s ns hd h0 _ ih =>
    rw [readComps, getIdComp_digits_dot hd]
    by_cases h32 : valueFrom 0 ds % 2 ^ 32 = 0
    · rw [if_pos h32, readComps_stuck (getIdComp_stuck (.inl rfl) s)]
      simp
    · rw [if_neg h32]
      exact ih (((cut_dot hd s).mp hc).resolve_left h32)

/-- **A string that is read to its end is made of numbers**, if it is not empty. -/
theorem numbers_of_readComps {k : ℕ} {s : List UInt8} (h : (readComps k s).2 = []) : s = [] ∨ ∃ ns, Numbers k s ns := by
  induction k generalizing s with
  | zero => exact .inl h
  | succ k ih =>
    rw [readComps] at h
    rcases getIdComp_cases s with ⟨hd, -⟩ | ⟨ds, t, hd, h0, rfl, hg⟩ | ⟨c, t, hg, hstuck⟩
    · by_cases hne : s = []
      · exact .inl hne
      · exact .inr ⟨_, .last hd hne⟩
    · rw [hg] at h
      rcases ih h with rfl | ⟨ns, hns⟩
      · exact .inr ⟨_, .trailing hd h0⟩
      · exact .inr ⟨_, .dot hd h0 hns⟩
    · rw [hg, readComps_stuck hstuck] at h
      cases h

/-! ### The SID that is read -/

theorem Numbers.length {k : ℕ} {s : List UInt8} {ns : List ℕ} (h : Numbers k s ns) : 1 ≤ ns.length ∧ ns.length ≤ k := by
  induction h with
  | last => simp
  | trailing => simp
  | dot _ _ _ ih =>
    rw [List.length_cons]
    omega

theorem toInt_ofNat (n : ℕ) : (Int16.ofNat n).toInt = (n : ℤ).bmod 65536 := Int16.toInt_ofNat

/-- A number comes through exactly if it has 15 bits. -/
theorem toInt_ofNat_eq_iff (n : ℕ) : (Int16.ofNat n).toInt = n ↔ n ≤ 32767 := by
  rw [toInt_ofNat, Int.bmod]
  split <;> omega

theorem ofNat_pos_iff (n : ℕ) : 0 < Int16.ofNat n ↔ ¬ (n % 65536 = 0 ∨ 32768 ≤ n % 65536) := by
  rw [Int16.lt_iff_toInt_lt, toInt_ofNat, Int.bmod, show (0 : Int16).toInt = 0 from rfl]
  split <;> omega

theorem ofNat_eq_neg_one_iff (n : ℕ) : Int16.ofNat n = -1 ↔ n % 65536 = 65535 := by
  rw [← Int16.toInt_inj, toInt_ofNat, Int.bmod, show (-1 : Int16).toInt = -1 from rfl]
  split <;> omega

/-- A SID is what the four numbers become, and valid if the string is not refused. -/
theorem ofText_numbers {s : List UInt8} {ns : List ℕ} (h : Numbers 4 s ns) :
    ((ofText s).valid = true ↔ ¬ Refused s ns) ∧
      ((ofText s).valid = true → (ofText s).comps = (padTo 4 ns).map Int16.ofNat) := by
  have hnot : ¬ ((-1 : Int16) > 0) := by decide
  by_cases hcut : Cut s
  · have hrel : (ofText s).rel = -1 := if_pos (.inl (readComps_cut h hcut))
    have hv : ¬ (ofText s).valid = true := by
      rw [valid, hrel, decide_eq_true_eq]
      exact hnot
    exact ⟨iff_of_false hv fun hr => hr (.inr (.inr (.inr hcut))), fun hv' => absurd hv' hv⟩
  have hread := readComps_numbers h hcut
  obtain ⟨a, b, c, d, hpad, ha, hd⟩ : ∃ a b c d, padTo 4 ns = [a, b, c, d] ∧ ns.headD 0 = a ∧ ns.getD 3 0 = d := by
    obtain ⟨h1, h4⟩ := h.length
    rcases ns with _ | ⟨a, _ | ⟨b, _ | ⟨c, _ | ⟨d, _ | ⟨e, ns⟩⟩⟩⟩⟩
    · simp at h1
    · exact ⟨a, 0, 0, 0, rfl, rfl, rfl⟩
    · exact ⟨a, b, 0, 0, rfl, rfl, rfl⟩
    · exact ⟨a, b, c, 0, rfl, rfl, rfl⟩
    · exact ⟨a, b, c, d, rfl, rfl, rfl⟩
    · simp only [List.length_cons] at h4
      omega
  rw [hpad] at hread ⊢
  simp only [readComps, List.map_cons, List.map_nil, Prod.mk.injEq, List.cons.injEq, and_true] at hread ⊢
  obtain ⟨⟨h1, h2, h3, h4⟩, hrest⟩ := hread
  have hof : ofText s = ⟨if Int16.ofNat a = 0 ∨ Int16.ofNat d = -1 then -1 else Int16.ofNat a, Int16.ofNat b,
      Int16.ofNat c, Int16.ofNat d⟩ := by
    simp only [ofText, h1, h2, h3, h4, hrest, ne_eq, not_true, false_or]
  have hpos := ofNat_pos_iff a
  have hneg := ofNat_eq_neg_one_iff d
  rw [Refused, ha, hd, hof]
  simp only [hcut, or_false]
  by_cases hbad : Int16.ofNat a = 0 ∨ Int16.ofNat d = -1
  · simp only [valid, if_pos hbad, decide_eq_true_eq]
    refine ⟨iff_of_false hnot fun hg => ?_, fun hv => absurd hv hnot⟩
    rcases hbad with h0 | h0
    · have : ¬ 0 < Int16.ofNat a := by rw [h0]; decide
      exact this (hpos.mpr fun h => hg (h.imp_right .inl))
    · exact hg (.inr (.inr (hneg.mp h0)))
  · simp only [valid, if_neg hbad, decide_eq_true_eq, comps]
    refine ⟨?_, fun _ => trivial⟩
    rw [hpos, ← hneg]
    tauto

/-- **A SID that is valid was written with numbers.** -/
theorem numbers_of_valid {s : List UInt8} (h : (ofText s).valid = true) : ∃ ns, Numbers 4 s ns := by
  have hrest : (readComps 4 s).2 = [] := by
    by_contra hne
    have hneg : (ofText s).rel = -1 := if_pos (.inl hne)
    rw [valid, hneg] at h
    exact absurd h (by decide)
  rcases numbers_of_readComps hrest with rfl | hns
  · exact absurd h (by decide)
  · exact hns

theorem read_eq_ok [IntOverflow] {s : List UInt8} {v : Sid} :
    read s = .ok v ↔ ¬ Overflow (overflows s) ∧ ofText s = v := by
  rw [read]
  by_cases h : Overflow (overflows s)
  · rw [intResult_of_overflow h]
    exact iff_of_false (by simp) fun hn => hn.1 h
  · rw [intResult_of_not h, Except.ok.injEq, and_iff_right h]

/-- **A string is read faithfully exactly if it is readable.** -/
theorem faithful_iff [IntOverflow] (s : List UInt8) : Faithful s ↔ Readable s := by
  have hexact : ∀ {k : ℕ} {ns : List ℕ}, (((padTo k ns).map Int16.ofNat).map Int16.toInt = (padTo k ns).map Nat.cast ↔
      ∀ n ∈ ns, n ≤ 32767) := by
    intro k ns
    rw [List.map_map, List.map_inj_left]
    simp only [Function.comp_apply, toInt_ofNat_eq_iff, padTo, List.mem_append, List.mem_replicate]
    exact ⟨fun h n hn => h n (.inl hn), fun h n hn => hn.elim (h n) fun e => by omega⟩
  simp only [Faithful, Readable, read_eq_ok, and_assoc, exists_and_left, exists_eq_left']
  refine and_congr_right fun _ => ?_
  constructor
  · intro h ns hns
    obtain ⟨hv, hc⟩ := ofText_numbers hns
    by_cases hvalid : (ofText s).valid = true
    · obtain ⟨ms, hms, he⟩ := h hvalid
      obtain rfl := hns.unique hms
      rw [hc hvalid] at he
      exact .inl (hexact.mp he)
    · exact .inr (by_contra fun hn => hvalid (hv.mpr hn))
  · intro h hvalid
    obtain ⟨ns, hns⟩ := numbers_of_valid hvalid
    obtain ⟨hv, hc⟩ := ofText_numbers hns
    refine ⟨ns, hns, ?_⟩
    rw [hc hvalid]
    exact hexact.mpr ((h ns hns).resolve_right (hv.mp hvalid))

/-- Strings that are read faithfully are told apart. -/
theorem Faithful.distinguishes [IntOverflow] {s t : List UInt8} (hs : Faithful s) (ht : Faithful t) :
    Distinguishes s t := by
  intro v hvs hvt hv ns ms hns hms
  obtain ⟨v', hv', hs⟩ := hs
  obtain rfl := Except.ok.inj (hvs.symm.trans hv')
  obtain ⟨v', hv', ht⟩ := ht
  obtain rfl := Except.ok.inj (hvt.symm.trans hv')
  obtain ⟨ns', hns', hn⟩ := hs hv
  obtain ⟨ms', hms', hm⟩ := ht hv
  obtain rfl := hns.unique hns'
  obtain rfl := hms.unique hms'
  rw [hm] at hn
  exact (List.map_injective_iff.mpr Nat.cast_injective hn).symm

/-- A SID is reread exactly if it is plain. -/
theorem reread_iff [IntOverflow] (v : Sid) : Reread v ↔ (v.valid = true → v.Plain) := by
  simp only [Reread, read_eq_ok]
  constructor
  · exact fun h hv => (ofText_text_iff hv).mp (h hv).1.2
  · intro h hv
    refine ⟨⟨fun ho => ?_, (h hv).ofText_text⟩, (h hv).text_chars⟩
    rw [(h hv).overflows_text] at ho
    exact Bool.false_ne_true ho.2

/-- **Strings are read as they are written, and SIDs as they are printed, exactly if the strings are readable and
the SID is plain.** -/
theorem text_faithful_iff [IntOverflow] (s t : List UInt8) (v : Sid) :
    (Faithful s ∧ Faithful t ∧ Distinguishes s t ∧ Reread v) ↔
      Readable s ∧ Readable t ∧ (v.valid = true → v.Plain) := by
  rw [← faithful_iff, ← faithful_iff, ← reread_iff]
  exact ⟨fun ⟨hs, ht, _, hv⟩ => ⟨hs, ht, hv⟩, fun ⟨hs, ht, hv⟩ => ⟨hs, ht, hs.distinguishes ht, hv⟩⟩

/-- **`65537.1` is read as 1.1.** -/
theorem large_number_not_faithful : ofText [54, 53, 53, 51, 55, 46, 49] = ⟨1, 1, 0, 0⟩ ∧
    ofText [49, 46, 49] = ⟨1, 1, 0, 0⟩ ∧ ¬ Faithful [54, 53, 53, 51, 55, 46, 49] := by
  refine ⟨by decide, by decide, fun h => ?_⟩
  have hns : Numbers 4 ([54, 53, 53, 51, 55] ++ 46 :: [49]) [65537, 1] :=
    .dot (by simp [isDigit]) (by decide) (.last (by simp [isDigit]) (by decide))
  exact absurd (((faithful_iff _).mp h).2 _ hns) (by decide)

end Sid

end CSSC.Table
