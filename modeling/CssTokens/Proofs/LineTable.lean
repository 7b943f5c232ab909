import CssTokens.Proofs.LineLookup
import CssTokens.Source

/-!
# CssTokens.Proofs.LineTable — the table of line starts, and lines found in it

The table of a text misses no line break and holds nothing else: behind its first entry, which is
zero, stand the offsets at which a line break ends, in ascending order (`succ_mem_starts_iff`).

To look a line up is then to invert the table.  An offset is on one line only (`OnLine.eq_line`), and
that is the one which halving finds (`onLine_line`).  No entry is behind the text, so this is true of
offsets behind the text as well: they are on the last line.

`KnowsLines` puts the two together, and `build_knowsLines` says that the index of every text does.
-/

namespace CssTokens.LineIndex

set_option autoImplicit false

/-! ## What is in the table -/

variable (text : String)

theorem starts_ascending : (build text).starts.toList.Pairwise (· < ·) := by
  rw [LineRules.build_starts]
  exact List.pairwise_lt_range.filter _

theorem mem_starts_iff (o : Nat) :
    o ∈ (build text).starts ↔ o ≤ text.utf8ByteSize ∧ LineRules.isStart text o = true := by
  rw [← Array.mem_toList_iff, LineRules.build_starts, LineRules.starts, List.mem_filter,
    List.mem_range, Nat.lt_succ_iff]

theorem starts_zero : (build text).starts[0]? = some 0 := by
  rw [← Array.getElem?_toList, LineRules.build_starts, LineRules.starts_eq_cons,
    List.getElem?_cons_zero]

/-- **Behind zero, the entries of the table are the offsets at which a line break ends.** -/
theorem succ_mem_starts_iff (o : Nat) :
    o + 1 ∈ (build text).starts ↔
      Utf8.byte? text o = some Byte.lineFeed ∨ Utf8.byte? text o = some Byte.formFeed ∨
        Utf8.byte? text o = some Byte.carriageReturn ∧
          (Utf8.byte? text (o + 1) ≠ some Byte.lineFeed ∨ o + 1 = text.utf8ByteSize) := by
  have hbreak : LineRules.isStart text (o + 1) = true ↔
      Utf8.byte? text o = some Byte.lineFeed ∨ Utf8.byte? text o = some Byte.formFeed ∨
        Utf8.byte? text o = some Byte.carriageReturn ∧
          Utf8.byte? text (o + 1) ≠ some Byte.lineFeed := by
    simp only [LineRules.isStart_succ, LineRules.breakEnds, Bool.or_eq_true, Bool.and_eq_true,
      beq_iff_eq, bne_iff_ne, or_assoc]
  -- At the end of the text no byte follows, so no line feed does.
  have hend (h : o + 1 = text.utf8ByteSize) :
      Utf8.byte? text (o + 1) ≠ some Byte.lineFeed := by
    rw [Utf8.byte?_eq_none_iff.mpr (Nat.le_of_eq h.symm)]
    exact (Option.some_ne_none _).symm
  rw [mem_starts_iff, hbreak]
  constructor
  · rintro ⟨-, hlf | hff | ⟨hcr, hnext⟩⟩
    · exact Or.inl hlf
    · exact Or.inr (Or.inl hff)
    · exact Or.inr (Or.inr ⟨hcr, Or.inl hnext⟩)
  · rintro (hlf | hff | ⟨hcr, hnext⟩)
    · exact ⟨Utf8.lt_size_of_byte? hlf, Or.inl hlf⟩
    · exact ⟨Utf8.lt_size_of_byte? hff, Or.inr (Or.inl hff)⟩
    · exact ⟨Utf8.lt_size_of_byte? hcr, Or.inr (Or.inr ⟨hcr, hnext.elim id hend⟩)⟩

/-- Carriage returns end a line each, but for the one that a line feed follows. -/
example : (build "é\r\r\n\n\r\x0c").starts = #[0, 3, 5, 6, 7, 8] := by decide +kernel

/-! ## Lines are looked up in it -/

/-- There is a line `n`, it starts at an offset or before it, and the next line, if there is one,
starts behind the offset. -/
structure OnLine (index : LineIndex) (offset n : Nat) : Prop where
  pos : 1 ≤ n
  le_lineCount : n ≤ index.lineCount
  start_le : ∃ start, index.lineStart? n = some start ∧ start ≤ offset
  lt_next : n < index.lineCount → ∃ next, index.lineStart? (n + 1) = some next ∧ offset < next

variable {text} {index : LineIndex} {offset n : Nat}

/-- Entries that are all in the text are split by an offset as by its place in the text. -/
theorem SplitsAt.of_min {starts : Array Nat} {size : Nat} (hsize : ∀ s ∈ starts, s ≤ size)
    (h : SplitsAt starts (min offset size) n) : SplitsAt starts offset n := by
  constructor
  · exact h.le_size
  · intro k hk hlt
    exact Nat.le_trans (h.before k hk hlt) (Nat.min_le_left _ _)
  · intro k hk hge
    have hbehind := h.behind k hk hge
    have hle := hsize starts[k] (Array.getElem_mem hk)
    omega

/-- Every offset splits the table at the line that is found for it. -/
theorem splitsAt_line (text : String) (offset : Nat) :
    SplitsAt (build text).starts offset ((build text).line offset) := by
  have hsize : ∀ s ∈ (build text).starts, s ≤ text.utf8ByteSize :=
    fun s hs => ((mem_starts_iff text s).mp hs).1
  have hsplit := (splitsAt_build (Nat.min_le_right offset text.utf8ByteSize)).of_min hsize
  rw [hsplit.line_eq]
  exact hsplit

theorem lineStart?_succ (index : LineIndex) (n : Nat) :
    index.lineStart? (n + 1) = index.starts[n]? := rfl

theorem onLine_line (text : String) (offset : Nat) :
    (build text).OnLine offset ((build text).line offset) := by
  have hsplit := splitsAt_line text offset
  obtain ⟨hzero, hfirst⟩ := Array.getElem?_eq_some_iff.mp (starts_zero text)
  obtain ⟨n, hn⟩ : ∃ n, (build text).line offset = n + 1 := by
    apply Nat.exists_eq_add_one.mpr
    apply Nat.pos_of_ne_zero
    intro hline
    have hbehind := hsplit.behind 0 hzero (Nat.le_of_eq hline)
    omega
  rw [hn] at hsplit ⊢
  have hlt : n < (build text).starts.size := hsplit.le_size
  refine ⟨Nat.succ_pos n, hsplit.le_size, ⟨(build text).starts[n], ?_, ?_⟩, fun hnext => ?_⟩
  · rw [lineStart?_succ, Array.getElem?_eq_getElem hlt]
  · exact hsplit.before n hlt (Nat.lt_succ_self n)
  · refine ⟨(build text).starts[n + 1], ?_, hsplit.behind (n + 1) hnext (Nat.le_refl _)⟩
    rw [lineStart?_succ, Array.getElem?_eq_getElem hnext]

/-- An offset is on no other line than the one that is found. -/
theorem OnLine.eq_line (h : (build text).OnLine offset n) : (build text).line offset = n := by
  have hsplit := splitsAt_line text offset
  obtain ⟨n, rfl⟩ : ∃ m, n = m + 1 := Nat.exists_eq_add_one.mpr h.pos
  obtain ⟨start, hstart, hle⟩ := h.start_le
  obtain ⟨hlt, rfl⟩ := Array.getElem?_eq_some_iff.mp hstart
  apply Nat.le_antisymm
  · -- Were the line found a later one, the next line would start at the offset or before it.
    apply Nat.le_of_not_lt
    intro hafter
    have hnext : n + 1 < (build text).lineCount := Nat.lt_of_lt_of_le hafter hsplit.le_size
    obtain ⟨next, hsome, hgt⟩ := h.lt_next hnext
    obtain ⟨hlt', rfl⟩ := Array.getElem?_eq_some_iff.mp hsome
    have hbefore := hsplit.before (n + 1) hlt' hafter
    omega
  · apply Nat.lt_of_not_le
    intro hbefore
    have hbehind := hsplit.behind n hlt hbefore
    omega

/-- A line starts on itself. -/
theorem onLine_lineStart? {start : Nat} (h : (build text).lineStart? n = some start) :
    (build text).OnLine start n := by
  cases n with
  | zero => cases h
  | succ n =>
      obtain ⟨hlt, hstart⟩ := Array.getElem?_eq_some_iff.mp h
      refine ⟨Nat.succ_pos n, hlt, ⟨start, h, Nat.le_refl _⟩, fun hnext => ?_⟩
      have hnext' : n + 1 < (build text).starts.size := hnext
      refine ⟨(build text).starts[n + 1], Array.getElem?_eq_getElem hnext', ?_⟩
      have hascending := List.pairwise_iff_getElem.mp (starts_ascending text) n (n + 1) hlt hnext'
        (Nat.lt_succ_self n)
      rw [Array.getElem_toList, Array.getElem_toList, hstart] at hascending
      exact hascending

/-- The end of the text is on the last line. -/
theorem onLine_size (text : String) :
    (build text).OnLine text.utf8ByteSize (build text).lineCount := by
  obtain ⟨hzero, -⟩ := Array.getElem?_eq_some_iff.mp (starts_zero text)
  obtain ⟨n, hn⟩ : ∃ n, (build text).lineCount = n + 1 := Nat.exists_eq_add_one.mpr hzero
  have hlt : n < (build text).starts.size := Nat.lt_of_succ_le (Nat.le_of_eq hn.symm)
  refine ⟨hzero, Nat.le_refl _, ⟨(build text).starts[n], ?_, ?_⟩, fun h => absurd h (Nat.lt_irrefl _)⟩
  · rw [hn, lineStart?_succ, Array.getElem?_eq_getElem hlt]
  · exact ((mem_starts_iff text _).mp (Array.getElem_mem hlt)).1

/-! ## An index that knows its lines -/

/-- The index of a source has all its line starts, and finds with them the line of every offset. -/
structure KnowsLines (src : Source) (index : LineIndex) : Prop where
  head : index.starts[0]? = some 0
  ascending : index.starts.toList.Pairwise (· < ·)
  le_size : ∀ s ∈ index.starts, s ≤ src.size
  /-- The other entries are the offsets behind the byte that ends a line break. -/
  succ_mem_iff : ∀ o, o + 1 ∈ index.starts ↔
    Utf8.byte? src.text o = some Byte.lineFeed ∨ Utf8.byte? src.text o = some Byte.formFeed ∨
      Utf8.byte? src.text o = some Byte.carriageReturn ∧
        (Utf8.byte? src.text (o + 1) ≠ some Byte.lineFeed ∨ o + 1 = src.size)
  /-- An offset, in the text or behind it, is on one line, and that is the line found. -/
  onLine_iff : ∀ offset n, index.OnLine offset n ↔ n = index.line offset
  line_lineStart? : ∀ n start, index.lineStart? n = some start → index.line start = n
  /-- Every line has a start. -/
  exists_lineStart? : ∀ n, 1 ≤ n → n ≤ index.lineCount → ∃ start, index.lineStart? n = some start
  line_size : index.line src.size = index.lineCount

/-- **The table of a text is complete, and lines and line starts are inverse to each other.** -/
theorem build_knowsLines (src : Source) : (build src.text).KnowsLines src where
  head := starts_zero src.text
  ascending := starts_ascending src.text
  le_size s hs := ((mem_starts_iff src.text s).mp hs).1
  succ_mem_iff := succ_mem_starts_iff src.text
  onLine_iff offset n := by
    constructor
    · intro h
      exact h.eq_line.symm
    · rintro rfl
      exact onLine_line src.text offset
  line_lineStart? n start h := (onLine_lineStart? h).eq_line
  exists_lineStart? n hpos hle := by
    obtain ⟨n, rfl⟩ : ∃ m, n = m + 1 := Nat.exists_eq_add_one.mpr hpos
    exact ⟨(build src.text).starts[n], Array.getElem?_eq_getElem hle⟩
  line_size := (onLine_size src.text).eq_line

end CssTokens.LineIndex
