import CssTokens.Proofs.Characters
import CssTokens.Proofs.CheckedCursor
import CssTokens.Proofs.LineTable

/-!
# CssTokens.Proofs.ForeignTexts — look-ups that cannot fail, whatever the text

An index is asked for positions in a text, and nothing makes sure that the text is its own, or the one
asked about the last time.  So line starts may lie behind the text, and the hint may have been left by
another text.  The answer then means little, but looking up is safe: the stretch that is counted lies in
the text that was given, and line, offset and column are numbers of 32 bits.

Look-ups are made in steps that can fail (`Checked.locate`).  The invariant of their hints is that the
column is at most one more than the offset; it names no text, so it outlasts a change of text.  Counting
keeps it, because a stretch of bytes begins at most as many characters (`locate_column_le`).  As offsets
are cut to the length of a source, no column is too large, and no step fails (`locate_eq`).

Nor is there room to spare: a line as long as a source can be ends at the largest number of 32 bits
(`column_limit_reached`).
-/

namespace CssTokens

set_option autoImplicit false

/-! ## Bounds on lines and columns -/

namespace LineIndex

/-- A text has at most one line more than bytes. -/
theorem lineCount_le (text : String) : (build text).lineCount ≤ text.utf8ByteSize + 1 := by
  rw [lineCount, ← Array.length_toList, LineRules.build_starts, LineRules.starts]
  refine Nat.le_trans (List.length_filter_le _ _) ?_
  exact Nat.le_of_eq List.length_range

variable {hint : ColumnHint}

/-- Where counting begins, the column is at most one more than the offset. -/
theorem resume_column_le (index : LineIndex) (line offset : Nat)
    (h : hint.column ≤ hint.offset + 1) :
    (index.resume hint line offset).2 ≤ (index.resume hint line offset).1 + 1 := by
  unfold resume
  split
  · exact h
  · exact Nat.le_add_left _ _

/-- Counting on from there to an offset, the column is again at most one more than the offset. -/
theorem resume_counted_le (index : LineIndex) (text : String) (line offset : Nat)
    (h : hint.column ≤ hint.offset + 1) :
    (index.resume hint line offset).2 +
        Utf8.countChars text (index.resume hint line offset).1 offset ≤ offset + 1 := by
  have hbegin := index.resume_column_le line offset h
  have horigin := index.resume_le hint line offset
  generalize index.resume hint line offset = r at hbegin horigin ⊢
  have hcount := Utf8.countLeads_le text r.1 (offset - r.1) 0
  rw [Utf8.countChars]
  omega

/-- **A look-up in any text finds a column that is at most one more than the offset.** -/
theorem locate_column_le (index : LineIndex) (text : String) (offset : Nat)
    (h : hint.column ≤ hint.offset + 1) :
    (index.locate text offset hint).1.column ≤ min offset text.utf8ByteSize + 1 :=
  index.resume_counted_le text _ _ h

end LineIndex

/-! ## Look-ups in checked steps -/

namespace Checked

/-- A number as one of 32 bits. -/
def narrow (n : Nat) : Checked Nat :=
  sum n 0

theorem narrow_eq {n : Nat} (h : n < 4294967296) : narrow n = .ok n :=
  sum_eq h

/-- The line that an offset is on: the place in the table of the last start that is not behind the offset,
or the first place, and one more. -/
def line (index : LineIndex) (offset : Nat) : Checked Nat := do
  sum (← narrow (index.line offset - 1)) 1

/-- Number of characters that begin in a stretch of a text. -/
def countChars (text : String) (start stop : Nat) : Checked Nat := do
  let bytes ← slice (Utf8.bytes text) start stop
  narrow (bytes.countP fun b => !Utf8.isContinuation b)

/-- The position of an offset, and the hint for the next one. -/
def locate (index : LineIndex) (text : String) (offset : Nat) (hint : ColumnHint) :
    Checked (Position × ColumnHint) := do
  let offset ← narrow (min offset text.utf8ByteSize)
  let line ← line index offset
  let begins := index.resume hint line offset
  let column ← sum begins.2 (← countChars text begins.1 offset)
  return (⟨line, column⟩, ⟨line, offset, column⟩)

/-- An index finds a line for every offset, so that one can be taken from its number. -/
theorem line_eq (known : Source) (offset : Nat) :
    line (.build known.text) offset = .ok ((LineIndex.build known.text).line offset) := by
  have hon := LineIndex.onLine_line known.text offset
  have hpos := hon.pos
  have hle := Nat.le_trans hon.le_lineCount (LineIndex.lineCount_le known.text)
  have hsize := known.size_le
  rw [line, narrow_eq (by omega)]
  show sum _ 1 = _
  rw [sum_eq (by omega), Nat.sub_add_cancel hpos]

/-- Characters are counted over the offsets, or in the bytes. -/
theorem countLeads_eq_countP_bytes (text : String) (i n : Nat) (h : i + n ≤ text.utf8ByteSize) :
    Utf8.countLeads text i n 0 =
      (((Utf8.bytes text).drop i).take n).countP fun b => !Utf8.isContinuation b := by
  induction n generalizing i with
  | zero => rfl
  | succ n ih =>
      have hlt : i < (Utf8.bytes text).length := by
        rw [Utf8.length_bytes]
        omega
      rw [Utf8.countLeads, Utf8.countLeads_add, ih (i + 1) (by omega), List.drop_eq_getElem_cons hlt,
        List.take_succ_cons, List.countP_cons, Utf8.isLead, Utf8.byte?_eq,
        List.getElem?_eq_getElem hlt, Option.any_some, Nat.zero_add, Nat.add_comm]

theorem countChars_eq (src : Source) {start stop : Nat} (h : start ≤ stop) (hstop : stop ≤ src.size) :
    countChars src.text start stop = .ok (Utf8.countChars src.text start stop) := by
  have hle := Utf8.countLeads_le src.text start (stop - start) 0
  have hsize := src.size_le
  have hbytes : stop ≤ (Utf8.bytes src.text).length := by
    rwa [Utf8.length_bytes]
  have hcount := countLeads_eq_countP_bytes src.text start (stop - start)
    (by rw [Nat.add_sub_cancel' h]; exact hstop)
  rw [countChars, slice_eq h hbytes]
  show narrow _ = _
  rw [← hcount, Utf8.countChars]
  exact narrow_eq (by rw [Source.size] at hstop; omega)

variable {hint : ColumnHint}

/-- **A look-up in checked steps is a look-up**, in whatever text it is made. -/
theorem locate_eq (known src : Source) (offset : Nat) (h : hint.column ≤ hint.offset + 1) :
    locate (.build known.text) src.text offset hint =
      .ok ((LineIndex.build known.text).locate src.text offset hint) := by
  have hle : min offset src.text.utf8ByteSize ≤ src.size := Nat.min_le_right _ _
  have hsize : src.size ≤ 4294967294 := src.size_le
  rw [locate, narrow_eq (by omega), LineIndex.locate]
  generalize min offset src.text.utf8ByteSize = o at hle ⊢
  show (line (.build known.text) o >>= _) = _
  rw [line_eq]
  generalize (LineIndex.build known.text).line o = l
  have horigin := (LineIndex.build known.text).resume_le hint l o
  have hcounted := (LineIndex.build known.text).resume_counted_le src.text l o h
  show (countChars src.text ((LineIndex.build known.text).resume hint l o).1 o >>= _) = _
  rw [countChars_eq src horigin hle]
  show (sum _ _ >>= _) = _
  rw [sum_eq (Nat.lt_of_le_of_lt hcounted (by omega))]
  rfl

/-! ## Look-ups one after the other -/

/-- The hint that look-ups leave, each made in a text of its own with the hint that the one before it
left. -/
def hintBehind (index : LineIndex) (hint : ColumnHint) : List (Source × Nat) → Checked ColumnHint
  | [] => return hint
  | (src, offset) :: lookups => do
      hintBehind index (← locate index src.text offset hint).2 lookups

/-- The invariant of the run is that the column of its hint is at most one more than the offset. -/
theorem hintBehind_of_column_le (known : Source) (lookups : List (Source × Nat))
    (h : hint.column ≤ hint.offset + 1) :
    ∃ hint', hintBehind (.build known.text) hint lookups = .ok hint' ∧
      hint'.column ≤ hint'.offset + 1 := by
  induction lookups generalizing hint with
  | nil => exact ⟨hint, rfl, h⟩
  | cons lookup lookups ih =>
      obtain ⟨src, offset⟩ := lookup
      rw [hintBehind, locate_eq known src offset h]
      apply ih
      rw [LineIndex.locate_hint]
      exact LineIndex.locate_column_le _ src.text offset h

/-- What it means that a look-up is safe, made in a text and with a hint. -/
structure SafeLookup (index : LineIndex) (hint : ColumnHint) (src : Source) (offset : Nat) : Prop where
  /-- What is counted lies in the text, between a place that is not behind the offset and the offset, cut
  to the length of the text. -/
  stretch : (index.resume hint (index.line (min offset src.size)) (min offset src.size)).1 ≤
    min offset src.size ∧ min offset src.size ≤ src.size
  /-- No step fails, and the outcome is that of the plain look-up. -/
  checked : locate index src.text offset hint = .ok (index.locate src.text offset hint)
  line_lt : (index.locate src.text offset hint).1.line < 4294967296
  column_lt : (index.locate src.text offset hint).1.column < 4294967296

theorem safeLookup_of_column_le (known src : Source) (offset : Nat)
    (h : hint.column ≤ hint.offset + 1) : SafeLookup (.build known.text) hint src offset where
  stretch := ⟨LineIndex.resume_le _ _ _ _, Nat.min_le_right _ _⟩
  checked := locate_eq known src offset h
  line_lt := by
    have hon := LineIndex.onLine_line known.text (min offset src.text.utf8ByteSize)
    have hle := Nat.le_trans hon.le_lineCount (LineIndex.lineCount_le known.text)
    have hsize := known.size_le
    exact Nat.lt_of_le_of_lt hle (by omega)
  column_lt := by
    have hcolumn := LineIndex.locate_column_le (.build known.text) src.text offset h
    have hsize := src.size_le
    omega

/-- **Looking up is safe, in whatever texts**: after any look-ups the hint is bounded, and the next one is
safe. -/
theorem foreign_lookups_safe (known : Source) (lookups : List (Source × Nat)) :
    ∃ hint, hintBehind (.build known.text) .initial lookups = .ok hint ∧
      hint.column ≤ hint.offset + 1 ∧
      ∀ src offset, SafeLookup (.build known.text) hint src offset := by
  have hinitial : ColumnHint.initial.column ≤ ColumnHint.initial.offset + 1 := Nat.zero_le _
  obtain ⟨hint, hrun, hbound⟩ := hintBehind_of_column_le known lookups hinitial
  exact ⟨hint, hrun, hbound, fun src offset => safeLookup_of_column_le known src offset hbound⟩

/-- The hint that a text of six characters leaves is taken for one of three characters as long. -/
example :
    hintBehind (.build "a") .initial [(⟨"abcdef", by decide⟩, 6), (⟨"ééé", by decide⟩, 9)] =
      .ok ⟨1, 6, 7⟩ := by
  decide +kernel

end Checked

/-! ## The longest line -/

/-- In a text of one-byte characters, none of which ends a line, columns are offsets. -/
theorem LineRules.spot_of_plain {text : String} {o : Nat} (ho : o ≤ text.utf8ByteSize)
    (hplain : ∀ b ∈ Utf8.bytes text, Utf8.isContinuation b = false ∧ b ≠ Byte.lineFeed ∧
      b ≠ Byte.formFeed ∧ b ≠ Byte.carriageReturn) : spot text o = ⟨1, o + 1⟩ := by
  induction o with
  | zero => exact spot_zero text
  | succ o ih =>
      have hlt : o < (Utf8.bytes text).length := by rwa [Utf8.length_bytes]
      have hbyte : Utf8.byte? text o = some (Utf8.bytes text)[o] := by
        rw [Utf8.byte?_eq, List.getElem?_eq_getElem hlt]
      obtain ⟨hlead, hlf, hff, hcr⟩ := hplain _ (List.getElem_mem hlt)
      have hbreak : ¬ breakEnds text (o + 1) = true := by
        simp [breakEnds, hbyte, hlf, hff, hcr]
      have hbegins : Utf8.isLead text o = true := by
        simp [Utf8.isLead, hbyte, hlead]
      rw [spot_succ, if_neg hbreak, if_pos hbegins, ih (Nat.le_of_succ_le ho)]

/-- There are lines of every length that a source can have. -/
theorem LineIndex.exists_line_of_size {n : Nat} (h : n ≤ Source.maxSize) :
    ∃ src : Source, src.size = n ∧ (build src.text).position src.text n = ⟨1, n + 1⟩ := by
  have hbytes : Utf8.bytes (String.ofList (List.replicate n 'a')) = List.replicate n 0x61 := by
    rw [Utf8.bytes_ofList]
    induction n with
    | zero => rfl
    | succ n ih =>
        rw [List.replicate_succ, Utf8.encode_cons, ih (Nat.le_of_succ_le h)]
        rfl
  have hsize : (String.ofList (List.replicate n 'a')).utf8ByteSize = n := by
    rw [← Utf8.length_bytes, hbytes, List.length_replicate]
  refine ⟨⟨String.ofList (List.replicate n 'a'), ?_⟩, hsize, ?_⟩
  · rw [hsize]
    exact h
  · rw [position_build, Nat.min_eq_left (Nat.le_of_eq hsize.symm)]
    apply LineRules.spot_of_plain (Nat.le_of_eq hsize.symm)
    intro b hb
    rw [hbytes] at hb
    obtain rfl := List.eq_of_mem_replicate hb
    decide

/-- **The bound on columns is reached**: some source ends at the largest number of 32 bits. -/
theorem LineIndex.column_limit_reached :
    ∃ src : Source, (build src.text).position src.text src.size = ⟨1, 4294967295⟩ := by
  obtain ⟨src, hsize, hposition⟩ := exists_line_of_size (Nat.le_refl Source.maxSize)
  exact ⟨src, hsize ▸ hposition⟩

end CssTokens
