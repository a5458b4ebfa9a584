import CSSC.Lines.Text
import Mathlib.Tactic.IntervalCases

/-!
# The encoding of binary files

A file that cannot be stored as text is stored in lines of printable characters, as `uuencode` writes them: a count,
and four characters for every three bytes.

Only the last six bits of a byte count in the macros `UUENC` and `UUDEC`, so that unsigned bytes serve for the signed
ones of the code; the arithmetic of the code, on signed characters that are promoted to `int`, gives the same
characters (`encode_signed`, `decode_signed`). The callers keep to the assertion that a line has at most 60 bytes. A
line that is shorter than its count makes `decode_line` read what earlier lines left in the buffer; the model says
`none`.

**A line of at most 45 bytes is decoded to itself** (`decodeLine_encodeLine`), and an encoded line is a line: it has
neither NUL nor newline, nor `^A` (`encodedLine`).
-/

namespace CSSC.Lines.Encoding

open CSSC.Lines

/-- `UUDEC`. -/
def uudec (c : UInt8) : UInt8 := (c - 32) &&& 63

/-- `UUENC`. -/
def uuenc (c : UInt8) : UInt8 := (c &&& 63) + 32

/-- The six bits that are encoded from two bytes: the last ones of `hi`, in front, and the first of `lo`. -/
def straddle (hi : UInt8) (shl maskHi : UInt8) (lo : UInt8) (shr maskLo : UInt8) : UInt8 :=
  ((hi <<< shl) &&& maskHi) ||| ((lo >>> shr) &&& maskLo)

/-- `encoding_impl::encode`. -/
def encode (a b c : UInt8) : List UInt8 :=
  [uuenc (a >>> 2), uuenc (straddle a 4 48 b 4 15), uuenc (straddle b 2 60 c 6 3), uuenc (c &&& 63)]

/-- `encoding_impl::decode`. -/
def decode (a b c d : UInt8) : List UInt8 :=
  [uudec a <<< 2 ||| uudec b >>> 4, uudec b <<< 4 ||| uudec c >>> 2, uudec c <<< 6 ||| uudec d]

/-- The body of an encoded line; the last bytes are filled up with NULs. -/
def encodeGroups : List UInt8 → List UInt8
  | [] => []
  | [a] => encode a 0 0
  | [a, b] => encode a b 0
  | a :: b :: c :: r => encode a b c ++ encodeGroups r

/-- The count, as the first character of an encoded line. -/
def count (bytes : List UInt8) : UInt8 := uuenc (.ofNat bytes.length)

/-- `encode_line`. -/
def encodeLine (bytes : List UInt8) : List UInt8 := count bytes :: encodeGroups bytes ++ [10]

/-- The loop of `decode_line`. -/
def decodeGroups : ℕ → List UInt8 → Option (List UInt8)
  | 0, _ => some []
  | k + 1, a :: b :: c :: d :: r => (decodeGroups k r).map (decode a b c d ++ ·)
  | _ + 1, _ => none

/-- `decode_line`: the bytes of the output buffer that count. -/
def decodeLine (s : List UInt8) : Option (List UInt8) :=
  let count := (uudec (s.headD 0)).toNat
  if count = 0 then some []
  else (decodeGroups ((count + 2) / 3) ((s ++ [0]).drop 1)).map (·.take count)

/-- Decoding line by line, as `test_decode` does: a line without bytes is the last one, and without such a
line the decoding fails. -/
def decodeLines : List Line → Option (List UInt8)
  | [] => none
  | l :: ls => do
    let data ← decodeLine l.bytes
    if data = [] then return [] else return data ++ (← decodeLines ls)

/-! ### Signed characters -/

/-- A signed `char` where an `int` is wanted. -/
def charInt (c : UInt8) : BitVec 32 := c.toBitVec.signExtend 32

/-- An `int` that is stored in a `char`. -/
def intChar (x : BitVec 32) : UInt8 := ⟨x.setWidth 8⟩

/-- `UUENC` as the code computes it. -/
def uuencInt (x : BitVec 32) : UInt8 := intChar ((x &&& 63) + 32)

/-- `UUDEC` as the code computes it. -/
def uudecInt (c : UInt8) : BitVec 32 := (charInt c - 32) &&& 63

/-- Only the last six bits of what is encoded count. -/
theorem uuencInt_eq {x : BitVec 32} {c : UInt8} (h : intChar x &&& 63 = c &&& 63) : uuencInt x = uuenc c := by
  rw [uuenc, ← h]
  apply UInt8.toBitVec_inj.mp
  simp only [uuencInt, intChar, UInt8.toBitVec_add, UInt8.toBitVec_and]
  rw [BitVec.setWidth_add _ _ (by decide), BitVec.setWidth_and]
  rfl

theorem uudecInt_eq (c : UInt8) : uudecInt c = (uudec c).toBitVec.setWidth 32 := by
  have h : ∀ c : Fin 256, uudecInt (UInt8.ofFin c) = (uudec (UInt8.ofFin c)).toBitVec.setWidth 32 := by
    decide +kernel
  exact h c.toFin

/-- The characters of `encoding_impl::encode`, computed on signed characters. -/
theorem encode_signed (a b c : UInt8) :
    [uuencInt ((charInt a).sshiftRight 2),
      uuencInt (((charInt a <<< 4) &&& 48) ||| ((charInt b).sshiftRight 4 &&& 15)),
      uuencInt (((charInt b <<< 2) &&& 60) ||| ((charInt c).sshiftRight 6 &&& 3)),
      uuencInt (charInt c &&& 63)] = encode a b c := by
  simp only [encode, List.cons.injEq, and_true]
  -- bit by bit: a mask takes away what the sign fills in
  refine ⟨uuencInt_eq ?_, uuencInt_eq ?_, uuencInt_eq ?_, uuencInt_eq ?_⟩ <;>
  · apply UInt8.toBitVec_inj.mp
    ext i hi
    interval_cases i <;> simp [intChar, charInt, straddle, BitVec.getElem_signExtend, BitVec.getElem_sshiftRight]

/-- The bytes of `encoding_impl::decode`, computed with `int`s. -/
theorem decode_signed (a b c d : UInt8) :
    [intChar ((uudecInt a <<< 2) ||| (uudecInt b).sshiftRight 4),
      intChar ((uudecInt b <<< 4) ||| (uudecInt c).sshiftRight 2),
      intChar ((uudecInt c <<< 6) ||| uudecInt d)] = decode a b c d := by
  simp only [uudecInt_eq, decode, List.cons.injEq, and_true]
  generalize uudec a = a
  generalize uudec b = b
  generalize uudec c = c
  generalize uudec d = d
  refine ⟨?_, ?_, ?_⟩ <;>
  · apply UInt8.toBitVec_inj.mp
    ext i hi
    interval_cases i <;> simp [intChar, BitVec.getElem_sshiftRight]

/-! ### Six bits at a time -/

theorem uudec_uuenc (c : UInt8) : uudec (uuenc c) = c &&& 63 := by
  have h : ∀ c : Fin 256, uudec (uuenc (UInt8.ofFin c)) = UInt8.ofFin c &&& 63 := by decide +kernel
  exact h c.toFin

theorem uuenc_range (c : UInt8) : 32 ≤ (uuenc c).toNat ∧ (uuenc c).toNat ≤ 95 := by
  have h : ∀ c : Fin 256, 32 ≤ (uuenc (UInt8.ofFin c)).toNat ∧ (uuenc (UInt8.ofFin c)).toNat ≤ 95 := by
    decide +kernel
  exact h c.toFin

/-- Three bytes come back from their four characters. -/
theorem decode_encode (a b c : UInt8) :
    decode (uuenc (a >>> 2)) (uuenc (straddle a 4 48 b 4 15)) (uuenc (straddle b 2 60 c 6 3)) (uuenc (c &&& 63)) =
      [a, b, c] := by
  -- bit by bit: each of the eight bits of a result comes from one bit of the input
  have h1 : uudec (uuenc (a >>> 2)) <<< 2 ||| uudec (uuenc (straddle a 4 48 b 4 15)) >>> 4 = a := by
    rw [uudec_uuenc, uudec_uuenc]
    apply UInt8.toBitVec_inj.mp
    ext i hi
    simp only [straddle]
    interval_cases i <;> simp
  have h2 : uudec (uuenc (straddle a 4 48 b 4 15)) <<< 4 ||| uudec (uuenc (straddle b 2 60 c 6 3)) >>> 2 = b := by
    rw [uudec_uuenc, uudec_uuenc]
    apply UInt8.toBitVec_inj.mp
    ext i hi
    simp only [straddle]
    interval_cases i <;> simp
  have h3 : uudec (uuenc (straddle b 2 60 c 6 3)) <<< 6 ||| uudec (uuenc (c &&& 63)) = c := by
    rw [uudec_uuenc, uudec_uuenc]
    apply UInt8.toBitVec_inj.mp
    ext i hi
    simp only [straddle]
    interval_cases i <;> simp
  rw [decode, h1, h2, h3]

/-! ### A line -/

/-- Decoding the groups of a line gives its bytes, and NULs up to a multiple of three. -/
theorem decodeGroups_encodeGroups (bytes rest : List UInt8) :
    ∃ pad, decodeGroups ((bytes.length + 2) / 3) (encodeGroups bytes ++ rest) = some (bytes ++ pad) := by
  induction bytes using encodeGroups.induct with
  | case1 => exact ⟨[], rfl⟩
  | case2 a =>
    refine ⟨[0, 0], ?_⟩
    simp only [encodeGroups, encode, List.length_singleton, List.cons_append, List.nil_append, decodeGroups,
      Option.map_some, decode_encode]
  | case3 a b =>
    refine ⟨[0], ?_⟩
    simp only [encodeGroups, encode, List.length_cons, List.length_nil, List.cons_append, List.nil_append,
      decodeGroups, Option.map_some, decode_encode]
  | case4 a b c r ih =>
    obtain ⟨pad, ih⟩ := ih
    refine ⟨pad, ?_⟩
    have hlen : ((a :: b :: c :: r).length + 2) / 3 = (r.length + 2) / 3 + 1 := by
      simp only [List.length_cons]
      omega
    rw [hlen]
    simp only [encodeGroups, encode, List.cons_append, List.nil_append, decodeGroups, decode_encode, ih,
      Option.map_some]

theorem count_toNat {bytes : List UInt8} (h : bytes.length ≤ 45) :
    (uudec (count bytes)).toNat = bytes.length := by
  have hk : ∀ n : Fin 46, (UInt8.ofNat n.1 &&& 63).toNat = n.1 := by decide
  rw [count, uudec_uuenc]
  exact hk ⟨bytes.length, by omega⟩

/-- **A line of at most 45 bytes is decoded to itself**, also without its newline. -/
theorem decodeLine_encodeLine {bytes : List UInt8} (h : bytes.length ≤ 45) :
    decodeLine (count bytes :: encodeGroups bytes) = some bytes := by
  simp only [decodeLine, List.headD_cons, count_toNat h, List.cons_append, List.drop_one, List.tail_cons]
  split
  · rename_i h0
    rw [List.length_eq_zero_iff.mp h0]
  · obtain ⟨pad, hp⟩ := decodeGroups_encodeGroups bytes [0]
    rw [hp, Option.map_some, List.take_left]

theorem encodeGroups_range (bytes : List UInt8) : ∀ c ∈ encodeGroups bytes, 32 ≤ c.toNat := by
  induction bytes using encodeGroups.induct with
  | case1 => simp [encodeGroups]
  | case2 a => simp [encodeGroups, encode, uuenc_range]
  | case3 a b => simp [encodeGroups, encode, uuenc_range]
  | case4 a b c r ih =>
    intro d hd
    rw [encodeGroups, List.mem_append] at hd
    rcases hd with hd | hd
    · simp only [encode, List.mem_cons, List.not_mem_nil, or_false] at hd
      rcases hd with rfl | rfl | rfl | rfl <;> exact (uuenc_range _).1
    · exact ih d hd

theorem length_le_encodeGroups (bytes : List UInt8) : bytes.length ≤ (encodeGroups bytes).length := by
  induction bytes using encodeGroups.induct with
  | case1 => simp
  | case2 a => simp [encodeGroups, encode]
  | case3 a b => simp [encodeGroups, encode]
  | case4 a b c r ih =>
    rw [encodeGroups, List.length_append]
    simp only [encode, List.length_cons, List.length_nil]
    omega

/-- Every character of an encoded line is printable. -/
theorem encoded_range (bytes : List UInt8) : ∀ c ∈ count bytes :: encodeGroups bytes, 32 ≤ c.toNat := by
  intro c hc
  rcases List.mem_cons.mp hc with rfl | hc
  · exact (uuenc_range _).1
  · exact encodeGroups_range bytes c hc

/-- An encoded line, without its newline. -/
def encodedLine (bytes : List UInt8) : Line where
  bytes := count bytes :: encodeGroups bytes
  no_nul h := absurd (encoded_range bytes _ h) (by decide)
  no_newline h := absurd (encoded_range bytes _ h) (by decide)

theorem encodedLine_stored (bytes : List UInt8) : (encodedLine bytes).stored = encodeLine bytes := rfl

theorem encodedLine_head (bytes : List UInt8) : (encodedLine bytes).bytes.head? ≠ some 1 := by
  intro h
  have h1 : count bytes = 1 := Option.some.inj h
  have := (uuenc_range (.ofNat bytes.length)).1
  rw [show uuenc (.ofNat bytes.length) = 1 from h1] at this
  exact absurd this (by decide)

/-- The line that ends an encoded file: a count of nothing. -/
theorem encodedLine_nil : (encodedLine []).stored = [32, 10] := by decide

/-- **Lines of at most 45 bytes are decoded one after the other**, up to the line that counts nothing. -/
theorem decodeLines_encodedLines {cs : List (List UInt8)} (h : ∀ c ∈ cs, c.length ≤ 45 ∧ c ≠ []) :
    decodeLines (cs.map encodedLine ++ [encodedLine []]) = some cs.flatten := by
  induction cs with
  | nil => decide
  | cons c cs ih =>
    obtain ⟨hlen, hne⟩ := h c List.mem_cons_self
    have hc : decodeLine (encodedLine c).bytes = some c := decodeLine_encodeLine hlen
    rw [List.map_cons, List.cons_append, decodeLines, hc, Option.bind_eq_bind, Option.bind_some, if_neg hne,
      ih fun d hd => h d (List.mem_cons_of_mem c hd), Option.bind_some]
    rfl

end CSSC.Lines.Encoding
