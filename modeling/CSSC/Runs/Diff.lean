import CSSC.Body.BodyIO
import CSSC.Body.RoundTrip

/-!
# What diff makes of a file that is checked in

`diff` is another program: it gets the file of the old version, which `get` wrote, and the file of the user. What is
relied on is `NormalDiff`: for a file whose lines can be read, the output is a script in normal format that leads from
the old lines to the new ones. A program that replaces the whole file is such a diff (`wholeDiff_normal`).

A file without NUL has lines that can be read (`exists_fileLines`). Files are `Storable` if their lines are all read
back as text; an encoded file always is (`storable_encodeStream`), and a script that leads to a storable file inserts
only text (`tame_of_storable`).
-/

namespace CSSC.Runs

open CSSC.Lines CSSC.Lines.Encoding CSSC.Body CSSC.Library.Weave

/-! ### The lines of a file -/

/-- The lines of a file, without their newlines. -/
def fileLines : List UInt8 → List (List UInt8)
  | [] => []
  | c :: f =>
    if c = 10 then [] :: fileLines f
    else
      match fileLines f with
      | [] => [[c]]
      | l :: ls => (c :: l) :: ls

/-- The files whose lines are all read back as text: no NUL, and no `^A` at the start of a line unless it is all of
the line. -/
def Storable (f : List UInt8) : Prop := (0 : UInt8) ∉ f ∧ ∀ l ∈ fileLines f, Plain l ∨ l = [1]

instance (f : List UInt8) : Decidable (Storable f) := inferInstanceAs (Decidable (_ ∧ ∀ l ∈ fileLines f, _))

/-- What the program relies on: diff prints a script in normal format. -/
def NormalDiff (diff : List UInt8 → List UInt8 → List UInt8) : Prop :=
  ∀ (V G : List Line) (f : List UInt8), fileLines f = G.map Line.bytes →
    ∃ s : Script, s.DiffOf V G ∧ diff (storedLines V) f = content s.render

theorem fileLines_append {l : List UInt8} (h : (10 : UInt8) ∉ l) (f : List UInt8) :
    fileLines (l ++ 10 :: f) = l :: fileLines f := by
  induction l with
  | nil => rfl
  | cons c l ih =>
    have hc : c ≠ 10 := fun e => h (by simp [e])
    rw [List.cons_append, fileLines, if_neg hc, ih fun e => h (List.mem_cons_of_mem c e)]

/-- A file of whole lines has these lines. -/
theorem fileLines_storedLines (ls : List Line) : fileLines (storedLines ls) = ls.map Line.bytes := by
  induction ls with
  | nil => rfl
  | cons l ls ih =>
    rw [storedLines_cons, Line.stored, List.append_assoc, List.singleton_append, fileLines_append l.no_newline, ih]
    rfl

theorem fileLines_mem {f l : List UInt8} (hl : l ∈ fileLines f) : (10 : UInt8) ∉ l ∧ ∀ c ∈ l, c ∈ f := by
  induction f generalizing l with
  | nil => simp [fileLines] at hl
  | cons c f ih =>
    rw [fileLines] at hl
    have hrest : ∀ m, m ∈ fileLines f → (10 : UInt8) ∉ m ∧ ∀ d ∈ m, d ∈ c :: f :=
      fun m hm => ⟨(ih hm).1, fun d hd => List.mem_cons_of_mem c ((ih hm).2 d hd)⟩
    split at hl
    · rcases List.mem_cons.mp hl with rfl | hl
      · simp
      · exact hrest l hl
    · rename_i hc
      split at hl
      · rw [List.mem_singleton.mp hl]
        simp [Ne.symm hc]
      · rename_i m ms hms
        rcases List.mem_cons.mp hl with rfl | hl
        · have hm := hrest m (by rw [hms]; exact List.mem_cons_self)
          refine ⟨by simp [Ne.symm hc, hm.1], fun d hd => ?_⟩
          rcases List.mem_cons.mp hd with rfl | hd
          · exact List.mem_cons_self
          · exact hm.2 d hd
        · exact hrest l (by rw [hms]; exact List.mem_cons_of_mem m hl)

/-- **A file without NUL has lines that can be read.** -/
theorem exists_fileLines {f : List UInt8} (h : (0 : UInt8) ∉ f) : ∃ G : List Line, fileLines f = G.map Line.bytes := by
  have hall : ∀ ls : List (List UInt8), (∀ l ∈ ls, l ∈ fileLines f) → ∃ G : List Line, ls = G.map Line.bytes := by
    intro ls hls
    induction ls with
    | nil => exact ⟨[], rfl⟩
    | cons l ls ih =>
      obtain ⟨G, rfl⟩ := ih fun m hm => hls m (List.mem_cons_of_mem l hm)
      obtain ⟨h10, hf⟩ := fileLines_mem (hls l List.mem_cons_self)
      exact ⟨⟨l, fun e => h (hf 0 e), h10⟩ :: G, rfl⟩
  exact hall _ fun l hl => hl

/-! ### Encoded files -/

/-- `encode_stream`: after the last line comes one with a count of nothing. -/
def encodeStream (f : List UInt8) : List UInt8 := ((chunks f).map encodeLine).flatten ++ encodeLine []

theorem encodeStream_eq (f : List UInt8) : encodeStream f = storedLines (encodedLines f) := by
  rw [encodeStream, encodedLines, storedLines_append, ← encodedLine_stored]
  congr 1
  rw [storedLines, List.flatMap_map, List.flatMap]
  rfl

/-- **An encoded file is storable.** -/
theorem storable_encodeStream (f : List UInt8) : Storable (encodeStream f) := by
  rw [encodeStream_eq]
  refine ⟨zero_not_mem_storedLines _, ?_⟩
  rw [fileLines_storedLines]
  intro l hl
  obtain ⟨g, hg, rfl⟩ := List.mem_map.mp hl
  exact .inl (encodedLines_plain f g hg)

/-! ### What is inserted -/

/-- **A script that leads to a storable file inserts whole lines of text.** -/
theorem inserts_of_storable {f : List UInt8} (h : Storable f) {V G : List Line} (hG : fileLines f = G.map Line.bytes)
    {s : Script} (hs : s.DiffOf V G) {ss : List CLine} (hss : Edit.insert ss ∈ s.edits) {c : CLine} (hc : c ∈ ss) :
    ∃ g : Line, c = g.delivered ∧ Tame g.stored := by
  have hmem : c ∈ s.newStrings := by
    rw [← s.newOf_edits]
    exact List.mem_flatMap.mpr ⟨_, hss, hc⟩
  rw [hs.new] at hmem
  obtain ⟨g, hg, rfl⟩ := List.mem_map.mp hmem
  refine ⟨g, rfl, ?_⟩
  rcases h.2 g.bytes (by rw [hG]; exact List.mem_map_of_mem hg) with hp | he
  · exact .inl hp.delivered
  · exact .inr (by rw [Line.stored, he]; rfl)

theorem tame_of_storable {f : List UInt8} (h : Storable f) {V G : List Line} (hG : fileLines f = G.map Line.bytes)
    {s : Script} (hs : s.DiffOf V G) : TameEdits s.edits := by
  intro ss hss c hc
  obtain ⟨g, rfl, ht⟩ := inserts_of_storable h hG hs hss hc
  exact ht

/-! ### A program that is a diff -/

/-- The lines of a file that can be read. -/
def readableLines (f : List UInt8) : List Line :=
  (fileLines f).filterMap fun l => if h : (0 : UInt8) ∉ l ∧ (10 : UInt8) ∉ l then some ⟨l, h.1, h.2⟩ else none

/-- The script that replaces a whole file by another one. -/
def wholeScript (V G : List Line) : Script :=
  if h : V ≠ [] ∨ G ≠ [] then
    ⟨[⟨[], V, G.map Line.delivered, h.imp_right fun e => by simpa using e⟩], [], false, by simp⟩
  else ⟨[], [], false, by simp⟩

/-- A program that replaces the whole file when the files differ. -/
def wholeDiff (old new : List UInt8) : List UInt8 :=
  if old = new then [] else content (wholeScript (readableLines old) (readableLines new)).render

theorem readableLines_eq {f : List UInt8} {G : List Line} (h : fileLines f = G.map Line.bytes) : readableLines f = G := by
  rw [readableLines, h, List.filterMap_map]
  conv_rhs => rw [← List.filterMap_some (l := G)]
  refine List.filterMap_congr fun g _ => ?_
  exact dif_pos ⟨g.no_nul, g.no_newline⟩

theorem bytes_injective : Function.Injective Line.bytes := fun _ _ h => Line.ext h

theorem wholeDiff_normal : NormalDiff wholeDiff := by
  intro V G f hf
  have hV := readableLines_eq (fileLines_storedLines V)
  have hG := readableLines_eq hf
  unfold wholeDiff
  split
  · rename_i he
    rw [← he, fileLines_storedLines] at hf
    obtain rfl : V = G := List.map_injective_iff.mpr bytes_injective hf
    exact ⟨⟨[], V, false, by simp⟩, ⟨by simp [Script.oldLines], by simp [Script.newStrings]⟩, rfl⟩
  · refine ⟨wholeScript V G, ?_, by rw [hV, hG]⟩
    unfold wholeScript
    split
    · exact ⟨by simp [Script.oldLines], by simp [Script.newStrings]⟩
    · rename_i h
      obtain ⟨hv, hg⟩ := not_or.mp h
      obtain rfl := not_not.mp hv
      obtain rfl := not_not.mp hg
      exact ⟨rfl, rfl⟩

end CSSC.Runs
