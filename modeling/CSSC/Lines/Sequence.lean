import CSSC.Lines.Linebuf

/-!
# Reading a file to its end

A file need not end with a newline. What a line buffer then makes of the last line depends on the length that the
buffer has by then, since a buffer that is full to the last byte is taken for one that did not hold the whole line.
`deliveries_eq_linesOf_iff` says **exactly which files are read line by line to their end**.
-/

namespace CSSC.Lines

/-- The lines of a file, each with its newline; the last one may have none. -/
def linesOf : List UInt8 → List (List UInt8)
  | [] => []
  | c :: f =>
    if c = 10 then [10] :: linesOf f
    else
      match linesOf f with
      | [] => [[c]]
      | l :: ls => (c :: l) :: ls

theorem linesOf_append {l : List UInt8} (hl : (10 : UInt8) ∉ l) (f : List UInt8) :
    linesOf (l ++ 10 :: f) = (l ++ [10]) :: linesOf f := by
  induction l with
  | nil => simp [linesOf]
  | cons c l ih =>
    have hc : c ≠ 10 := fun e => hl (by simp [e])
    rw [List.cons_append, linesOf, if_neg hc, ih fun h => hl (List.mem_cons_of_mem c h)]
    rfl

theorem linesOf_last {l : List UInt8} (hl : (10 : UInt8) ∉ l) (hne : l ≠ []) : linesOf l = [l] := by
  induction l with
  | nil => exact absurd rfl hne
  | cons c l ih =>
    have hc : c ≠ 10 := fun e => hl (by simp [e])
    rw [linesOf, if_neg hc]
    by_cases h : l = []
    · rw [h]
      rfl
    · rw [ih (fun h' => hl (List.mem_cons_of_mem c h')) h]

/-- A file without NULs is made of whole lines and the beginning of another one, which may be empty. -/
theorem exists_storedLines {f : List UInt8} (h : (0 : UInt8) ∉ f) :
    ∃ (ls : List Line) (l : Line), f = storedLines ls ++ l.bytes := by
  induction f with
  | nil => exact ⟨[], ⟨[], by simp, by simp⟩, rfl⟩
  | cons c f ih =>
    obtain ⟨ls, l, rfl⟩ := ih fun hm => h (List.mem_cons_of_mem c hm)
    have hc0 : (0 : UInt8) ≠ c := fun e => h (by simp [e])
    by_cases hc : c = 10
    · exact ⟨⟨[], by simp, by simp⟩ :: ls, l, by rw [hc]; rfl⟩
    · cases ls with
      | nil => exact ⟨[], ⟨c :: l.bytes, by simp [hc0, l.no_nul], by simp [Ne.symm hc, l.no_newline]⟩, rfl⟩
      | cons m ls =>
        exact ⟨⟨c :: m.bytes, by simp [hc0, m.no_nul], by simp [Ne.symm hc, m.no_newline]⟩ :: ls, l, rfl⟩

theorem linesOf_storedLines (ls : List Line) (f : List UInt8) :
    linesOf (storedLines ls ++ f) = ls.map Line.stored ++ linesOf f := by
  induction ls with
  | nil => rfl
  | cons l ls ih =>
    rw [storedLines_cons, Line.stored, List.append_assoc, List.append_assoc, List.singleton_append,
      linesOf_append l.no_newline, ih]
    rfl

namespace Linebuf

/-- A buffer that has grown `n` times. -/
def chunks (n : ℕ) : Linebuf := ⟨chunkSize * (n + 1), Nat.le_mul_of_pos_right _ n.succ_pos⟩

/-! ### The last line -/

theorem fgetsLoop_last (k : ℕ) {l : List UInt8} (hl : (10 : UInt8) ∉ l) : fgetsLoop k l = (l.take k, l.drop k) := by
  induction l generalizing k with
  | nil => cases k <;> rfl
  | cons c l ih =>
    cases k with
    | zero => rfl
    | succ k =>
      rw [fgetsLoop, if_neg fun e => hl (by simp [e]), ih k fun h => hl (List.mem_cons_of_mem c h)]
      rfl

/-- What is shorter than the buffer is complete. -/
theorem stop_of_lt {b : Linebuf} {data : List UInt8} (h : data.length < b.buflen - 1) :
    data.getD (b.buflen - 2) 0 = 0 ∨ data.getD (b.buflen - 2) 0 = 10 := by
  rw [List.getD_eq_default _ _ (by omega)]
  exact .inl rfl

/-- The end of a file comes after a full buffer. The read fails when there is a whole number of chunks left. -/
theorem readLoop_last {fuel : ℕ} {b : Linebuf} {data l : List UInt8} (hd : data.length = b.buflen - 1)
    (hfuel : l.length ≤ fuel) (h0 : ∀ c ∈ data, c ≠ 0 ∧ c ≠ 10) (hl0 : ∀ c ∈ l, c ≠ 0 ∧ c ≠ 10) :
    readLoop fuel b data l =
      if chunkSize ∣ l.length then none else some (data ++ l, b.after (data ++ l).length, []) := by
  induction fuel generalizing b data l with
  | zero =>
    obtain rfl := List.length_eq_zero_iff.mp (Nat.le_zero.mp hfuel)
    rw [readLoop, if_neg (not_stop_of_full hd h0)]
    simp
  | succ fuel ih =>
    have hb : 1024 ≤ b.buflen := b.chunk_le
    rw [readLoop, if_neg (not_stop_of_full hd h0), fgets]
    by_cases hne : l = []
    · rw [hne]
      simp
    have hpos := List.length_pos_of_ne_nil hne
    have hfull : b.buflen ≤ (data ++ l).length := by
      rw [List.length_append]
      omega
    rw [if_neg hne, Option.bind_some, fgetsLoop_last _ fun h => (hl0 _ h).2 rfl, Nat.add_sub_cancel]
    by_cases hk : l.length < chunkSize
    · -- the new chunk is not filled
      have hfit : (data ++ l).length < b.grow.buflen - 1 := by
        simp only [List.length_append, grow, chunkSize] at hk ⊢
        omega
      rw [List.take_of_length_le hk.le, List.drop_of_length_le hk.le, readLoop_stop (stop_of_lt hfit),
        if_neg fun h => absurd (Nat.le_of_dvd hpos h) (not_le.mpr hk), ← after_grow hfull,
        after_of_lt (Nat.lt_of_lt_pred hfit)]
    · have hdvd : chunkSize ∣ (l.drop chunkSize).length ↔ chunkSize ∣ l.length := by
        rw [List.length_drop]
        exact Nat.dvd_sub_self_right.trans
          (or_iff_left_of_imp fun h => (h.antisymm (not_lt.mp hk)) ▸ dvd_rfl)
      rw [ih (by simp only [List.length_append, List.length_take, grow, chunkSize] at hk ⊢; omega)
        (by rw [List.length_drop, chunkSize]; omega)
        (fun c hc => (List.mem_append.mp hc).elim (h0 c) fun h => hl0 c (List.mem_of_mem_take h))
        (fun c hc => hl0 c (List.mem_of_mem_drop hc)), List.append_assoc, List.take_append_drop, after_grow hfull]
      simp only [hdvd]

/-- **A last line without newline is not seen when it fills the buffer**, as it is or after it has grown. -/
theorem readData_last (b : Linebuf) {l : Line} (hne : l.bytes ≠ []) :
    readData b l.bytes =
      if b.buflen ≤ l.bytes.length + 1 ∧ chunkSize ∣ l.bytes.length + 1 - b.buflen then none
      else some (l.bytes, b.after l.bytes.length, []) := by
  have hb : 1024 ≤ b.buflen := b.chunk_le
  rw [readData, fgets, if_neg hne, Option.bind_some, fgetsLoop_last _ l.no_newline]
  by_cases hk : l.bytes.length < b.buflen - 1
  · rw [List.take_of_length_le hk.le, List.drop_of_length_le hk.le, readLoop_stop (stop_of_lt hk),
      if_neg (by omega), after_of_lt (Nat.lt_of_lt_pred hk)]
  · have hlen : (l.bytes.drop (b.buflen - 1)).length = l.bytes.length + 1 - b.buflen := by
      rw [List.length_drop]
      omega
    rw [readLoop_last (by rw [List.length_take]; omega) (by rw [List.length_drop]; omega)
      (fun c hc => l.byte_ne c (List.mem_of_mem_take hc)) (fun c hc => l.byte_ne c (List.mem_of_mem_drop hc)),
      hlen, List.take_append_drop]
    simp only [show b.buflen ≤ l.bytes.length + 1 by omega, true_and]

/-- The buffer after whole lines. -/
def afterLines (b : Linebuf) (ls : List Line) : Linebuf := ls.foldl (fun b l => b.after l.stored.length) b

theorem after_chunks (n k : ℕ) : (chunks n).after k = chunks (max n (k / chunkSize)) := by
  refine ext ?_
  simp only [after, chunks, chunkSize]
  omega

/-- The buffer is as long as its longest line has made it. -/
theorem afterLines_chunks (n : ℕ) (ls : List Line) :
    ∃ m, (chunks n).afterLines ls = chunks m ∧
      ∀ k, m ≤ k ↔ n ≤ k ∧ ∀ l ∈ ls, l.stored.length < chunkSize * (k + 1) := by
  induction ls generalizing n with
  | nil => exact ⟨n, rfl, by simp⟩
  | cons l ls ih =>
    obtain ⟨m, hm, hk⟩ := ih (max n (l.stored.length / chunkSize))
    refine ⟨m, by rw [afterLines, List.foldl_cons, after_chunks]; exact hm, fun k => (hk k).trans ?_⟩
    rw [max_le_iff, List.forall_mem_cons, and_assoc]
    refine and_congr_right fun _ => and_congr_left fun _ => ?_
    rw [Nat.div_le_iff_le_mul_add_pred (by decide), mul_add, mul_one]
    simp only [chunkSize]
    omega

/-- Whole lines are delivered, and then the rest. -/
theorem deliveries_storedLines_append (b : Linebuf) (ls : List Line) (f : List UInt8) :
    deliveries b (storedLines ls ++ f) = ls.map Line.delivered ++ deliveries (b.afterLines ls) f := by
  induction ls generalizing b with
  | nil => rfl
  | cons l ls ih =>
    have h := readData_stored b l (storedLines ls ++ f)
    have hs : CLine.ofData l.stored (readData_newline h) = l.delivered :=
      CLine.ext (cstr_eq_self l.zero_not_mem_stored)
    rw [storedLines_cons, List.append_assoc, deliveries_cons h, hs, ih]
    rfl

theorem readLine_eq_none {b : Linebuf} {f : List UInt8} (h : readData b f = none) : b.readLine f = none := by
  rw [readLine]
  split
  · rfl
  · rename_i hs
    exact absurd (h.symm.trans hs) (by simp)

theorem deliveries_eq_nil {b : Linebuf} {f : List UInt8} (h : readData b f = none) : deliveries b f = [] := by
  rw [deliveries, deliveriesLoop, readLine_eq_none h]

theorem deliveries_nil (b : Linebuf) : deliveries b [] = [] := deliveries_eq_nil rfl

/-- The bytes that are delivered of a last line. -/
theorem deliveries_last (b : Linebuf) {l : Line} (hne : l.bytes ≠ []) :
    (deliveries b l.bytes).map CLine.bytes =
      if b.buflen ≤ l.bytes.length + 1 ∧ chunkSize ∣ l.bytes.length + 1 - b.buflen then [] else [l.bytes] := by
  have h := readData_last b hne
  split_ifs at h ⊢ with hlost
  · rw [deliveries_eq_nil h]
    rfl
  · rw [deliveries_cons h, deliveries_nil]
    simp [CLine.ofData, cstr_eq_self l.no_nul]

end Linebuf

/-- The last line has no newline, it would fill a whole number of chunks with a terminator, and neither the buffer
nor a line before it is longer. -/
def LastLineLost (n : ℕ) (f : List UInt8) : Prop :=
  ∃ ls l, linesOf f = ls ++ [l] ∧ (10 : UInt8) ∉ l ∧ chunkSize ∣ l.length + 1 ∧
    (Linebuf.chunks n).buflen ≤ l.length + 1 ∧ ∀ m ∈ ls, m.length ≤ l.length

/-- **Reading to the end gives exactly the lines of the file, unless the last one is lost.** -/
theorem deliveries_eq_linesOf_iff (n : ℕ) {f : List UInt8} (h : (0 : UInt8) ∉ f) :
    (deliveries (.chunks n) f).map CLine.bytes = linesOf f ↔ ¬ LastLineLost n f := by
  obtain ⟨ls, l, rfl⟩ := exists_storedLines h
  have hmap : (ls.map Line.delivered).map CLine.bytes = ls.map Line.stored := by
    rw [List.map_map]
    rfl
  rw [Linebuf.deliveries_storedLines_append, linesOf_storedLines, List.map_append, hmap, List.append_cancel_left_eq,
    LastLineLost, linesOf_storedLines]
  by_cases hne : l.bytes = []
  · -- the file ends with a newline
    rw [hne, Linebuf.deliveries_nil]
    refine iff_of_true rfl ?_
    rintro ⟨ms, m, he, hm, -⟩
    rw [linesOf, List.append_nil] at he
    obtain ⟨k, -, rfl⟩ := List.mem_map.mp (show m ∈ ls.map Line.stored by rw [he]; simp)
    exact hm (by simp [Line.stored])
  obtain ⟨m, hb, hm⟩ := Linebuf.afterLines_chunks n ls
  rw [Linebuf.deliveries_last _ hne, linesOf_last l.no_newline hne, hb]
  have hlost : (∃ ms m, ls.map Line.stored ++ [l.bytes] = ms ++ [m] ∧ (10 : UInt8) ∉ m ∧ chunkSize ∣ m.length + 1 ∧
      (Linebuf.chunks n).buflen ≤ m.length + 1 ∧ ∀ k ∈ ms, k.length ≤ m.length) ↔
      (Linebuf.chunks m).buflen ≤ l.bytes.length + 1 ∧
        chunkSize ∣ l.bytes.length + 1 - (Linebuf.chunks m).buflen := by
    constructor
    · rintro ⟨ms, k, he, -, hdvd, hn, hle⟩
      obtain ⟨rfl, hk⟩ := List.append_inj' he rfl
      obtain rfl := (List.cons.inj hk).1
      obtain ⟨c, hc⟩ := hdvd
      obtain ⟨j, rfl⟩ : ∃ j, c = j + 1 := ⟨c - 1, by simp only [Linebuf.chunks, chunkSize] at hn hc; omega⟩
      have hmj : m ≤ j := (hm j).mpr ⟨by simp only [Linebuf.chunks, chunkSize] at hn hc; omega, fun x hx => by
        rw [← hc]
        exact Nat.lt_succ_of_le (hle _ (List.mem_map_of_mem hx))⟩
      simp only [Linebuf.chunks, chunkSize] at hc ⊢
      exact ⟨by omega, by omega⟩
    · rintro ⟨hle, hdvd⟩
      have hdvd' : chunkSize ∣ l.bytes.length + 1 := by
        rw [← Nat.sub_add_cancel hle]
        exact Nat.dvd_add hdvd ⟨m + 1, rfl⟩
      obtain ⟨c, hc⟩ := hdvd'
      obtain ⟨j, rfl⟩ : ∃ j, c = j + 1 := ⟨c - 1, by simp only [chunkSize] at hc; omega⟩
      have hmj := (hm j).mp (by simp only [Linebuf.chunks, chunkSize] at hle hc; omega)
      refine ⟨_, _, rfl, l.no_newline, ⟨j + 1, hc⟩, ?_, fun k hk => ?_⟩
      · simp only [Linebuf.chunks, chunkSize] at hc ⊢
        omega
      · obtain ⟨x, hx, rfl⟩ := List.mem_map.mp hk
        have := hmj.2 x hx
        omega
  rw [hlost]
  split_ifs with h
  · simp [h]
  · simp [h]

/-- A file with lines that end is read line by line. -/
theorem deliveries_two_lines : (deliveries (.chunks 0) [97, 10, 98]).map CLine.bytes = linesOf [97, 10, 98] :=
  (deliveries_eq_linesOf_iff 0 (by decide)).mpr <| by
    rintro ⟨ls, l, he, -, -, hle, -⟩
    have hl : l.length + 1 ≤ 3 := by
      have := congrArg List.getLast? he
      rw [List.getLast?_concat] at this
      obtain rfl := Option.some.inj this.symm
      decide
    exact absurd (hle.trans hl) (by decide)

/-- A line of 1023 characters without a newline is not seen. -/
theorem unterminated_line_lost :
    deliveries .initial (List.replicate 1023 120) = [] ∧
      linesOf (List.replicate 1023 120) = [List.replicate 1023 120] := by
  have h10 : (10 : UInt8) ∉ List.replicate 1023 120 := fun h => by simpa using List.eq_of_mem_replicate h
  have h0 : (0 : UInt8) ∉ List.replicate 1023 120 := fun h => by simpa using List.eq_of_mem_replicate h
  have hne : List.replicate 1023 (120 : UInt8) ≠ [] := List.ne_nil_of_length_pos (by rw [List.length_replicate]; decide)
  refine ⟨Linebuf.deliveries_eq_nil ?_, linesOf_last h10 hne⟩
  rw [Linebuf.readData_last .initial (l := ⟨_, h0, h10⟩) hne, if_pos]
  rw [List.length_replicate]
  decide

end CSSC.Lines
