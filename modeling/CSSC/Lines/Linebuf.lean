import CSSC.Lines.Text
import Mathlib.Data.List.GetD

/-!
# The line buffer

`cssc_linebuf` reads lines of any length with `fgets`, into a buffer that grows by one chunk whenever a line does not
fit. It learns that the line did fit from the last byte but one of the buffer: a NUL put there before the read, or the
terminator, or the newline itself.

A buffer is known by its length, which is kept from one read to the next. Lengths are natural numbers; the program
asserts that they stay below `INT_MAX`. `fgets` is the standard function without errors.

**A file of whole lines is read back line by line**, whatever the buffer's length and however long the lines
(`readLine_stored`, `deliveries_storedLines`).
-/

namespace CSSC.Lines

/-- The bytes `fgets` takes, at most `k` of them, and the rest of the file. -/
def fgetsLoop : ℕ → List UInt8 → List UInt8 × List UInt8
  | 0, f => ([], f)
  | _ + 1, [] => ([], [])
  | k + 1, c :: f => if c = 10 then ([c], f) else ((c :: (fgetsLoop k f).1), (fgetsLoop k f).2)

/-- `fgets(s, n, f)`: at most `n - 1` bytes, no further than a newline; `none` at the end of the
file. -/
def fgets (n : ℕ) (f : List UInt8) : Option (List UInt8 × List UInt8) :=
  if f = [] then none else some (fgetsLoop (n - 1) f)

theorem fgetsLoop_length (k : ℕ) (f : List UInt8) : (fgetsLoop k f).1.length ≤ k := by
  induction f generalizing k with
  | nil => cases k <;> simp [fgetsLoop]
  | cons c f ih =>
    cases k with
    | zero => simp [fgetsLoop]
    | succ k =>
      rw [fgetsLoop]
      split
      · simp
      · simpa using ih k

theorem fgetsLoop_newline (k : ℕ) (f : List UInt8) : (10 : UInt8) ∉ (fgetsLoop k f).1.dropLast := by
  induction f generalizing k with
  | nil => cases k <;> simp [fgetsLoop]
  | cons c f ih =>
    cases k with
    | zero => simp [fgetsLoop]
    | succ k =>
      rw [fgetsLoop]
      split
      · simp
      · rename_i hc
        intro h
        cases hr : (fgetsLoop k f).1 with
        | nil => simp [hr] at h
        | cons d ds =>
          simp only [hr, List.dropLast_cons_cons, List.mem_cons] at h
          rcases h with h | h
          · exact hc h.symm
          · exact ih k (hr ▸ h)

/-- `fgets` takes a line that fits whole, and the first `k` bytes of one that does not. -/
theorem fgetsLoop_stored {k : ℕ} {l rest : List UInt8} (hl : (10 : UInt8) ∉ l) :
    fgetsLoop k (l ++ 10 :: rest) =
      if l.length < k then (l ++ [10], rest) else (l.take k, l.drop k ++ 10 :: rest) := by
  induction l generalizing k with
  | nil => cases k <;> simp [fgetsLoop]
  | cons c l ih =>
    cases k with
    | zero => simp [fgetsLoop]
    | succ k =>
      have hc : c ≠ 10 := fun e => hl (by simp [e])
      rw [List.cons_append, fgetsLoop, if_neg hc, ih (fun h => hl (List.mem_cons_of_mem c h))]
      by_cases hk : l.length < k
      · rw [if_pos hk, if_pos (by simpa using hk)]
        rfl
      · rw [if_neg hk, if_neg (by simpa using hk)]
        rfl

/-- `CONFIG_LINEBUF_CHUNK_SIZE`. -/
def chunkSize : ℕ := 1024

/-- A line buffer: one chunk at first, more after a line that did not fit. -/
structure Linebuf where
  /-- `buflen_`. -/
  buflen : ℕ
  /-- A buffer never shrinks. -/
  chunk_le : chunkSize ≤ buflen
  deriving DecidableEq, Repr

namespace Linebuf

/-- The buffer as it is constructed. -/
def initial : Linebuf := ⟨chunkSize, le_rfl⟩

/-- The buffer with one more chunk. -/
def grow (b : Linebuf) : Linebuf := ⟨b.buflen + chunkSize, b.chunk_le.trans (Nat.le_add_right _ _)⟩

/-- The loop of `read_line`: `data` fills the buffer from its start. A byte other than NUL and
newline at the last place but one means that the line goes on. Each round takes a byte, so the
length of the file bounds the rounds. -/
def readLoop : ℕ → Linebuf → List UInt8 → List UInt8 → Option (List UInt8 × Linebuf × List UInt8)
  | 0, b, data, f =>
    if data.getD (b.buflen - 2) 0 = 0 ∨ data.getD (b.buflen - 2) 0 = 10 then some (data, b, f) else none
  | fuel + 1, b, data, f =>
    if data.getD (b.buflen - 2) 0 = 0 ∨ data.getD (b.buflen - 2) 0 = 10 then some (data, b, f)
    else (fgets (chunkSize + 1) f).bind fun r => readLoop fuel b.grow (data ++ r.1) r.2

/-- The bytes that `cssc_linebuf::read_line` puts into the buffer, the buffer and the rest of the
file; `none` for `UnexpectedEOF`. -/
def readData (b : Linebuf) (f : List UInt8) : Option (List UInt8 × Linebuf × List UInt8) :=
  (fgets b.buflen f).bind fun r => readLoop f.length b r.1 r.2

/-- A full buffer without a newline at its end holds none at all. -/
theorem newline_of_full {k : ℕ} {data : List UInt8} (h : (10 : UInt8) ∉ data.dropLast) (hlen : data.length ≤ k + 1)
    (hc : ¬ (data.getD k 0 = 0 ∨ data.getD k 0 = 10)) : (10 : UInt8) ∉ data := by
  rcases List.eq_nil_or_concat data with rfl | ⟨ds, d, rfl⟩
  · simp
  · rw [List.concat_eq_append] at *
    rw [List.dropLast_concat] at h
    rw [List.length_append, List.length_singleton] at hlen
    by_cases hl : ds.length = k
    · have hd : (ds ++ [d]).getD k 0 = d := by
        rw [← hl, List.getD_append_right _ _ _ _ le_rfl, Nat.sub_self]
        rfl
      rw [hd] at hc
      simp only [List.mem_append, List.mem_singleton, not_or]
      exact ⟨h, fun e => hc (.inr e.symm)⟩
    · refine absurd (.inl ?_) hc
      rw [List.getD_eq_default]
      simp only [List.length_append, List.length_singleton]
      omega

/-- What follows data without a newline has one at its end only. -/
theorem newline_append {data r : List UInt8} (hd : (10 : UInt8) ∉ data) (hr : (10 : UInt8) ∉ r.dropLast) :
    (10 : UInt8) ∉ (data ++ r).dropLast := by
  rcases r with _ | ⟨e, es⟩
  · rw [List.append_nil]
    exact fun hm => hd ( List.dropLast_subset _ hm)
  · rw [List.dropLast_append_of_ne_nil (by simp)]
    exact fun hm => (List.mem_append.mp hm).elim hd hr

/-- A further chunk fits. -/
theorem grow_length {b : Linebuf} {data : List UInt8} (hlen : data.length ≤ b.buflen - 1) (f : List UInt8) :
    (data ++ (fgetsLoop (chunkSize + 1 - 1) f).1).length ≤ b.grow.buflen - 1 := by
  have := fgetsLoop_length (chunkSize + 1 - 1) f
  have := b.chunk_le
  simp only [List.length_append, grow, chunkSize] at *
  omega

theorem readLoop_newline {fuel : ℕ} {b b' : Linebuf} {data f d f' : List UInt8}
    (hn : (10 : UInt8) ∉ data.dropLast) (hlen : data.length ≤ b.buflen - 1)
    (h : readLoop fuel b data f = some (d, b', f')) : (10 : UInt8) ∉ d.dropLast := by
  have hb : 1024 ≤ b.buflen := b.chunk_le
  induction fuel generalizing b data f with
  | zero =>
    rw [readLoop] at h
    split at h
    · simp only [Option.some.injEq, Prod.mk.injEq] at h
      exact h.1 ▸ hn
    · simp at h
  | succ fuel ih =>
    rw [readLoop] at h
    split at h
    · simp only [Option.some.injEq, Prod.mk.injEq] at h
      exact h.1 ▸ hn
    · rename_i hc
      have hnd := newline_of_full hn (by omega) hc
      obtain ⟨r, hr, h⟩ := Option.bind_eq_some_iff.mp h
      rw [fgets] at hr
      split at hr
      · simp at hr
      · obtain rfl := Option.some.inj hr
        exact ih (newline_append hnd (fgetsLoop_newline _ _)) (grow_length hlen f) h b.grow.chunk_le

theorem readData_newline {b b' : Linebuf} {f d f' : List UInt8} (h : readData b f = some (d, b', f')) :
    (10 : UInt8) ∉ d.dropLast := by
  obtain ⟨r, hr, h⟩ := Option.bind_eq_some_iff.mp h
  rw [fgets] at hr
  split at hr
  · simp at hr
  · obtain rfl := Option.some.inj hr
    exact readLoop_newline (fgetsLoop_newline _ _) (fgetsLoop_length _ _) h

theorem fgetsLoop_append (k : ℕ) (f : List UInt8) : (fgetsLoop k f).1 ++ (fgetsLoop k f).2 = f := by
  induction f generalizing k with
  | nil => cases k <;> rfl
  | cons c f ih =>
    cases k with
    | zero => rfl
    | succ k =>
      rw [fgetsLoop]
      split
      · rfl
      · exact congrArg (c :: ·) (ih k)

/-- What comes after a newline does not matter. -/
theorem fgetsLoop_of_mem {k : ℕ} {f : List UInt8} (h : (10 : UInt8) ∈ f) (g : List UInt8) :
    fgetsLoop k (f ++ g) = ((fgetsLoop k f).1, (fgetsLoop k f).2 ++ g) := by
  induction f generalizing k with
  | nil => cases h
  | cons c f ih =>
    cases k with
    | zero => rfl
    | succ k =>
      rw [List.cons_append, fgetsLoop, fgetsLoop]
      by_cases hc : c = 10
      · rw [if_pos hc, if_pos hc]
      · rw [if_neg hc, if_neg hc, ih ((List.mem_cons.mp h).resolve_left (Ne.symm hc))]

/-- Characters that are no newlines are taken. -/
theorem fgetsLoop_prefix {k : ℕ} {c : List UInt8} (hc : (10 : UInt8) ∉ c) (f : List UInt8) :
    fgetsLoop (c.length + k) (c ++ f) = (c ++ (fgetsLoop k f).1, (fgetsLoop k f).2) := by
  induction c with
  | nil => simp
  | cons a c ih =>
    rw [List.mem_cons, not_or] at hc
    rw [List.length_cons, Nat.add_right_comm, List.cons_append, fgetsLoop, if_neg (Ne.symm hc.1), ih hc.2]
    rfl

theorem fgetsLoop_ne_nil {k : ℕ} {f : List UInt8} (hk : 0 < k) (hf : f ≠ []) : (fgetsLoop k f).1 ≠ [] := by
  obtain ⟨k, rfl⟩ := Nat.exists_eq_succ_of_ne_zero hk.ne'
  obtain ⟨c, f, rfl⟩ := List.exists_cons_of_ne_nil hf
  rw [fgetsLoop]
  split <;> simp

/-- The line has ended. -/
theorem readLoop_stop {fuel : ℕ} {b : Linebuf} {data f : List UInt8}
    (hc : data.getD (b.buflen - 2) 0 = 0 ∨ data.getD (b.buflen - 2) 0 = 10) :
    readLoop fuel b data f = some (data, b, f) := by
  cases fuel <;> rw [readLoop, if_pos hc]

/-- **A read that comes to a newline succeeds.** It keeps what is in the buffer; what it reads depends neither on the
`n` characters at the start of the buffer nor on what comes after the newline. -/
theorem readLoop_some {b : Linebuf} {n : ℕ} {d f : List UInt8} (hd : (10 : UInt8) ∉ d.dropLast)
    (hlen : n + d.length ≤ b.buflen - 1) (hn : n ≤ b.buflen - 2) (h10 : (10 : UInt8) ∈ d ++ f) :
    ∃ e b' f', e ++ f' = f ∧ ∀ (c g : List UInt8) (fuel : ℕ), c.length = n → f.length + g.length ≤ fuel →
      readLoop fuel b (c ++ d) (f ++ g) = some (c ++ (d ++ e), b', f' ++ g) := by
  induction hf : f.length using Nat.strong_induction_on generalizing b d f with
  | _ m ih =>
    have hb : 1024 ≤ b.buflen := b.chunk_le
    have hget : ∀ c : List UInt8, c.length = n → (c ++ d).getD (b.buflen - 2) 0 = d.getD (b.buflen - 2 - n) 0 := by
      rintro c rfl
      exact List.getD_append_right _ _ _ _ hn
    by_cases hc : d.getD (b.buflen - 2 - n) 0 = 0 ∨ d.getD (b.buflen - 2 - n) 0 = 10
    · refine ⟨[], b, f, rfl, fun c g fuel hcn _ => ?_⟩
      rw [List.append_nil, readLoop_stop (by rwa [hget c hcn])]
    -- the newline is in the rest of the file
    have hnd : (10 : UInt8) ∉ d := newline_of_full hd (by omega) hc
    have h10f : (10 : UInt8) ∈ f := (List.mem_append.mp h10).resolve_left hnd
    have hne : f ≠ [] := List.ne_nil_of_mem h10f
    have happ := fgetsLoop_append chunkSize f
    have hless : (fgetsLoop chunkSize f).2.length < m := by
      have h1 := congrArg List.length happ
      have h2 := List.length_pos_of_ne_nil (fgetsLoop_ne_nil (k := chunkSize) (by decide) hne)
      rw [List.length_append] at h1
      omega
    have hfit : n + (d ++ (fgetsLoop chunkSize f).1).length ≤ b.grow.buflen - 1 := by
      have := fgetsLoop_length chunkSize f
      simp only [List.length_append, grow, chunkSize] at *
      omega
    obtain ⟨e, b', f', happ', h⟩ := ih _ hless (newline_append hnd (fgetsLoop_newline chunkSize f)) hfit
      (by simp only [grow]; omega) (by rwa [List.append_assoc, happ]) rfl
    refine ⟨(fgetsLoop chunkSize f).1 ++ e, b', f', by rw [List.append_assoc, happ', happ], fun c g fuel hcn hfuel => ?_⟩
    obtain ⟨fuel, rfl⟩ : ∃ k, fuel = k + 1 :=
      ⟨fuel - 1, by have := List.length_pos_of_ne_nil hne; omega⟩
    rw [readLoop, if_neg (by rwa [hget c hcn]), fgets, if_neg (by simp [hne]), Option.bind_some, Nat.add_sub_cancel,
      fgetsLoop_of_mem h10f, List.append_assoc, h c g fuel hcn (by omega), List.append_assoc]

/-- **So does a read of a line that ends**, and it takes at least a character. -/
theorem readData_some {b : Linebuf} {n : ℕ} {f : List UInt8} (hn : n ≤ b.buflen - 2) (h10 : (10 : UInt8) ∈ f) :
    ∃ e b' f', e ≠ [] ∧ e ++ f' = f ∧ ∀ c g : List UInt8, c.length = n → (10 : UInt8) ∉ c →
      readData b (c ++ (f ++ g)) = some (c ++ e, b', f' ++ g) := by
  have hb : 1024 ≤ b.buflen := b.chunk_le
  obtain ⟨k, hk⟩ : ∃ k, b.buflen - 1 = n + k := ⟨b.buflen - 1 - n, by omega⟩
  have happ := fgetsLoop_append k f
  have hle := fgetsLoop_length k f
  have hne : (fgetsLoop k f).1 ≠ [] := fgetsLoop_ne_nil (by omega) (List.ne_nil_of_mem h10)
  obtain ⟨e, b', f', happ', h⟩ := readLoop_some (fgetsLoop_newline k f) (by omega) hn (by rwa [happ])
  refine ⟨(fgetsLoop k f).1 ++ e, b', f', by simp [hne], by rw [List.append_assoc, happ', happ], fun c g hcn hc => ?_⟩
  have hget : fgetsLoop (b.buflen - 1) (c ++ (f ++ g)) = (c ++ (fgetsLoop k f).1, (fgetsLoop k f).2 ++ g) := by
    rw [hk, ← hcn, fgetsLoop_prefix hc, fgetsLoop_of_mem h10]
  rw [readData, fgets, if_neg (by simp [List.ne_nil_of_mem h10]), Option.bind_some, hget]
  refine h c g _ hcn ?_
  have := congrArg List.length happ
  simp only [List.length_append] at this ⊢
  omega

/-- `cssc_linebuf::read_line`: the string in the buffer, the buffer and the rest of the file. -/
def readLine (b : Linebuf) (f : List UInt8) : Option (CLine × Linebuf × List UInt8) :=
  match h : readData b f with
  | none => none
  | some (d, b', f') => some (.ofData d (readData_newline h), b', f')

theorem readLine_of_readData {b b' : Linebuf} {f d f' : List UInt8} (h : readData b f = some (d, b', f')) :
    readLine b f = some (.ofData d (readData_newline h), b', f') := by
  rw [readLine]
  split
  · rename_i hn
    exact absurd (hn.symm.trans h) (by simp)
  · rename_i d' b'' f'' hs
    obtain ⟨rfl, rfl, rfl⟩ : d' = d ∧ b'' = b' ∧ f'' = f' := by
      simpa using hs.symm.trans h
    rfl

/-! ### Lines that come back whole -/

/-- A full buffer of bytes that are neither NUL nor newline means that the line goes on. -/
theorem not_stop_of_full {b : Linebuf} {data : List UInt8} (hd : data.length = b.buflen - 1)
    (h0 : ∀ c ∈ data, c ≠ 0 ∧ c ≠ 10) :
    ¬ (data.getD (b.buflen - 2) 0 = 0 ∨ data.getD (b.buflen - 2) 0 = 10) := by
  have hb : 1024 ≤ b.buflen := b.chunk_le
  have hlt : b.buflen - 2 < data.length := by omega
  rw [List.getD_eq_getElem _ _ hlt]
  simpa using h0 _ (List.getElem_mem hlt)

/-- The buffer that a line of `n` bytes fits into: as many chunks more as are needed. -/
def after (b : Linebuf) (n : ℕ) : Linebuf :=
  ⟨b.buflen + chunkSize * ((n + chunkSize - b.buflen) / chunkSize), b.chunk_le.trans (Nat.le_add_right _ _)⟩

theorem ext {b b' : Linebuf} (h : b.buflen = b'.buflen) : b = b' := by
  cases b
  cases b'
  cases h
  rfl

theorem after_of_lt {b : Linebuf} {n : ℕ} (h : n < b.buflen) : b.after n = b := by
  refine ext ?_
  have hb : 1024 ≤ b.buflen := b.chunk_le
  simp only [after, chunkSize]
  omega

/-- A full buffer grows by a chunk before it is looked at again. -/
theorem after_grow {b : Linebuf} {n : ℕ} (h : b.buflen ≤ n) : b.grow.after n = b.after n := by
  refine ext ?_
  have hb : 1024 ≤ b.buflen := b.chunk_le
  simp only [after, grow, chunkSize]
  omega

theorem readLoop_stored {fuel : ℕ} {b : Linebuf} {data l rest : List UInt8}
    (hd : data.length = b.buflen - 1) (hfuel : l.length < fuel)
    (h0 : ∀ c ∈ data, c ≠ 0 ∧ c ≠ 10) (hl0 : ∀ c ∈ l, c ≠ 0 ∧ c ≠ 10) :
    readLoop fuel b data (l ++ 10 :: rest) =
      some (data ++ l ++ [10], b.after (data ++ l ++ [10]).length, rest) := by
  induction fuel generalizing b data l with
  | zero => omega
  | succ fuel ih =>
    have hb : 1024 ≤ b.buflen := b.chunk_le
    have hfull : b.buflen ≤ (data ++ l ++ [10]).length := by
      simp only [List.length_append, List.length_singleton]
      omega
    rw [readLoop, if_neg (not_stop_of_full hd h0), fgets, if_neg (by simp), Option.bind_some,
      fgetsLoop_stored (fun h => (hl0 _ h).2 rfl)]
    by_cases hk : l.length < chunkSize + 1 - 1
    · -- the rest of the line fits into the new chunk
      rw [if_pos hk, ← List.append_assoc]
      have hlast : (data ++ l ++ [10]).getD (b.grow.buflen - 2) 0 = 0 ∨
          (data ++ l ++ [10]).getD (b.grow.buflen - 2) 0 = 10 := by
        simp only [grow, chunkSize] at hk ⊢
        rcases Nat.lt_or_ge (b.buflen + 1024 - 2) (data ++ l).length with hlt | hge
        · simp only [List.length_append] at hlt
          omega
        · rcases Nat.eq_or_lt_of_le hge with he | hlt
          · right
            rw [← he, List.getD_append_right _ _ _ _ le_rfl, Nat.sub_self]
            rfl
          · left
            rw [List.getD_eq_default]
            simp only [List.length_append, List.length_singleton] at hlt ⊢
            omega
      have hfit : (data ++ l ++ [10]).length < b.grow.buflen := by
        simp only [List.length_append, List.length_singleton, grow, chunkSize] at hk ⊢
        omega
      rw [readLoop_stop hlast, ← after_grow hfull, after_of_lt hfit]
    · -- the line fills the new chunk and goes on
      rw [if_neg hk]
      simp only [chunkSize, Nat.add_sub_cancel] at hk ⊢
      rw [ih (by simp only [List.length_append, List.length_take, grow, chunkSize]; omega)
        (by rw [List.length_drop]; omega)
        (fun c hc => (List.mem_append.mp hc).elim (h0 c) fun h => hl0 c (List.mem_of_mem_take h))
        (fun c hc => hl0 c (List.mem_of_mem_drop hc)), List.append_assoc data, List.take_append_drop, after_grow hfull]

theorem readData_stored (b : Linebuf) (l : Line) (rest : List UInt8) :
    readData b (l.stored ++ rest) = some (l.stored, b.after l.stored.length, rest) := by
  have hb : 1024 ≤ b.buflen := b.chunk_le
  have hf : l.stored ++ rest = l.bytes ++ 10 :: rest := by simp [Line.stored]
  rw [readData, hf, fgets, if_neg (by simp), Option.bind_some, fgetsLoop_stored l.no_newline]
  by_cases hk : l.bytes.length < b.buflen - 1
  · -- the line fits
    rw [if_pos hk]
    have hlast : (l.bytes ++ [10]).getD (b.buflen - 2) 0 = 0 ∨
        (l.bytes ++ [10]).getD (b.buflen - 2) 0 = 10 := by
      rcases Nat.eq_or_lt_of_le (Nat.le_sub_one_of_lt hk) with he | hlt
      · right
        rw [show b.buflen - 2 = l.bytes.length by omega, List.getD_append_right _ _ _ _ le_rfl, Nat.sub_self]
        rfl
      · left
        rw [List.getD_eq_default]
        simp only [List.length_append, List.length_singleton]
        omega
    have hfit : l.stored.length < b.buflen := by
      rw [Line.stored, List.length_append, List.length_singleton]
      omega
    rw [readLoop_stop hlast, after_of_lt hfit, Line.stored]
  · rw [if_neg hk, readLoop_stored
      (by rw [List.length_take]; omega)
      (by rw [List.length_drop, List.length_append, List.length_cons]; omega)
      (fun c hc => l.byte_ne c (List.mem_of_mem_take hc)) (fun c hc => l.byte_ne c (List.mem_of_mem_drop hc)),
      List.take_append_drop, Line.stored]

/-- **A stored line is read back whole.** -/
theorem readLine_stored (b : Linebuf) (l : Line) (rest : List UInt8) :
    ∃ b', readLine b (l.stored ++ rest) = some (l.delivered, b', rest) := by
  refine ⟨b.after l.stored.length, (readLine_of_readData (readData_stored b l rest)).trans ?_⟩
  refine congrArg some (Prod.ext (CLine.ext ?_) rfl)
  exact cstr_eq_self l.zero_not_mem_stored

end Linebuf

/-- The strings that reading a file to its end gives. -/
def deliveriesLoop : ℕ → Linebuf → List UInt8 → List CLine
  | 0, _, _ => []
  | fuel + 1, b, f =>
    match b.readLine f with
    | none => []
    | some (s, b', f') => s :: deliveriesLoop fuel b' f'

/-- The strings that reading a file to its end gives; every read takes at least one byte. -/
def deliveries (b : Linebuf) (f : List UInt8) : List CLine := deliveriesLoop (f.length + 1) b f

/-- A read takes what it gives from the file. -/
theorem Linebuf.readLoop_append {fuel : ℕ} {b b' : Linebuf} {data f d f' : List UInt8}
    (h : readLoop fuel b data f = some (d, b', f')) : d ++ f' = data ++ f ∧ data.length ≤ d.length := by
  induction fuel generalizing b data f with
  | zero =>
    rw [readLoop] at h
    split_ifs at h
    simp only [Option.some.injEq, Prod.mk.injEq] at h
    obtain ⟨rfl, -, rfl⟩ := h
    exact ⟨rfl, le_rfl⟩
  | succ fuel ih =>
    rw [readLoop] at h
    split_ifs at h
    · simp only [Option.some.injEq, Prod.mk.injEq] at h
      obtain ⟨rfl, -, rfl⟩ := h
      exact ⟨rfl, le_rfl⟩
    · obtain ⟨r, hr, h⟩ := Option.bind_eq_some_iff.mp h
      rw [fgets] at hr
      split_ifs at hr
      obtain rfl := Option.some.inj hr
      obtain ⟨happ, hlen⟩ := ih h
      rw [List.append_assoc, fgetsLoop_append] at happ
      rw [List.length_append] at hlen
      exact ⟨happ, by omega⟩

/-- Every read takes a character. -/
theorem Linebuf.readData_length {b b' : Linebuf} {f d f' : List UInt8} (h : readData b f = some (d, b', f')) :
    f'.length < f.length := by
  obtain ⟨r, hr, h⟩ := Option.bind_eq_some_iff.mp h
  rw [fgets] at hr
  split_ifs at hr with hf
  obtain rfl := Option.some.inj hr
  have hb := b.chunk_le
  rw [chunkSize] at hb
  obtain ⟨happ, hlen⟩ := readLoop_append h
  rw [fgetsLoop_append] at happ
  have h1 := List.length_pos_of_ne_nil (fgetsLoop_ne_nil (k := b.buflen - 1) (by omega) hf)
  have h2 := congrArg List.length happ
  rw [List.length_append] at h2
  omega

/-- The fuel of `deliveries` is enough. -/
theorem deliveriesLoop_fuel {fuel fuel' : ℕ} {b : Linebuf} {f : List UInt8} (h : f.length < fuel)
    (h' : f.length < fuel') : deliveriesLoop fuel b f = deliveriesLoop fuel' b f := by
  induction fuel generalizing fuel' b f with
  | zero => omega
  | succ fuel ih =>
    obtain ⟨fuel', rfl⟩ : ∃ k, fuel' = k + 1 := ⟨fuel' - 1, by omega⟩
    rw [deliveriesLoop, deliveriesLoop]
    rcases hd : b.readData f with _ | ⟨d, b', f'⟩
    · have : b.readLine f = none := by
        rw [Linebuf.readLine]
        split
        · rfl
        · rename_i hs
          exact absurd (hd.symm.trans hs) (by simp)
      rw [this]
    · have := Linebuf.readData_length hd
      rw [Linebuf.readLine_of_readData hd]
      exact congrArg _ (ih (by omega) (by omega))

/-- What a read gives comes first. -/
theorem deliveries_cons {b b' : Linebuf} {f d f' : List UInt8} (h : b.readData f = some (d, b', f')) :
    deliveries b f = .ofData d (Linebuf.readData_newline h) :: deliveries b' f' := by
  have := Linebuf.readData_length h
  rw [deliveries, deliveriesLoop, Linebuf.readLine_of_readData h]
  exact congrArg _ (deliveriesLoop_fuel (by omega) (by omega))

/-- **After the end of a line reading goes on with the next one**, whatever it is. -/
theorem deliveries_append (b : Linebuf) {p : List UInt8} (hp : p.getLastD 10 = 10) :
    ∃ ss b', ∀ g, deliveries b (p ++ g) = ss ++ deliveries b' g := by
  induction hm : p.length using Nat.strong_induction_on generalizing b p with
  | _ m ih =>
    by_cases hne : p = []
    · exact ⟨[], b, fun g => by simp [hne]⟩
    have h10 : (10 : UInt8) ∈ p := by
      have hl : p.getLast hne = 10 := by rwa [List.getLastD_eq_getLast?, List.getLast?_eq_getLast_of_ne_nil hne] at hp
      exact hl ▸ List.getLast_mem hne
    obtain ⟨e, b', f', he, happ, h⟩ := Linebuf.readData_some (b := b) (Nat.zero_le _) h10
    have hlen := congrArg List.length happ
    have hpos := List.length_pos_of_ne_nil he
    rw [List.length_append] at hlen
    have hf' : f'.getLastD 10 = 10 := by
      rcases List.eq_nil_or_concat f' with rfl | ⟨f'', c, rfl⟩
      · rfl
      · rw [List.concat_eq_append] at happ ⊢
        rw [← happ, ← List.append_assoc, List.getLastD_concat] at hp
        rw [List.getLastD_concat, hp]
    obtain ⟨ss, b'', hss⟩ := ih _ (by omega) b' hf' rfl
    have hread : ∀ g, b.readData (p ++ g) = some (e, b', f' ++ g) := fun g => h [] g rfl (by simp)
    refine ⟨.ofData e (Linebuf.readData_newline (hread [])) :: ss, b'', fun g => ?_⟩
    rw [deliveries_cons (hread g), hss]
    rfl

theorem deliveriesLoop_storedLines {fuel : ℕ} {ls : List Line} (b : Linebuf) (h : ls.length < fuel) :
    deliveriesLoop fuel b (storedLines ls) = ls.map Line.delivered := by
  induction fuel generalizing ls b with
  | zero => omega
  | succ fuel ih =>
    cases ls with
    | nil => simp [deliveriesLoop, Linebuf.readLine, Linebuf.readData, fgets]
    | cons l ls =>
      obtain ⟨b', hb⟩ := b.readLine_stored l (storedLines ls)
      rw [deliveriesLoop, storedLines_cons, hb]
      simp only [List.map_cons]
      rw [ih b' (by simpa using h)]

theorem length_le_storedLines (ls : List Line) : ls.length ≤ (storedLines ls).length := by
  induction ls with
  | nil => simp
  | cons l ls ih =>
    simp only [storedLines_cons, Line.stored, List.length_append, List.length_cons, List.length_nil]
    omega

/-- **A file of whole lines is read back line by line.** -/
theorem deliveries_storedLines (b : Linebuf) (ls : List Line) :
    deliveries b (storedLines ls) = ls.map Line.delivered :=
  deliveriesLoop_storedLines b (Nat.lt_succ_of_le (length_le_storedLines ls))

end CSSC.Lines
