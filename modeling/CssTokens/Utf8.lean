/-!
# CssTokens.Utf8 — a text seen through its UTF-8 bytes

Everything in this library is measured in bytes: offsets, spans, lengths.  This module is the one
place where a `String` is opened into bytes.

* `bytes` is the whole text as a list, the view in which facts are stated, and `byte?` reads one
  byte of it in constant time; `byte?_eq` ties the two together.
* `width` reads off a lead byte how long its character is, and `isContinuation` tells the other
  bytes of a character from the lead bytes.
* `slice` cuts out the part between two offsets if both fall between characters, and
  `lastCharOffset` finds where the last character of a stretch begins.
-/

namespace CssTokens.Utf8

set_option autoImplicit false

/-! ## Bytes of a text -/

/-- The UTF-8 bytes of a text, in order. -/
def bytes (text : String) : List UInt8 :=
  text.toByteArray.data.toList

/-- The byte at an offset, or `none` at and beyond the end of the text. -/
def byte? (text : String) (i : Nat) : Option UInt8 :=
  if h : i < text.utf8ByteSize then
    some (text.getUTF8Byte ⟨i⟩ (String.Pos.Raw.lt_iff.mpr h))
  else
    none

@[simp] theorem length_bytes (text : String) : (bytes text).length = text.utf8ByteSize := by
  simp [bytes]

theorem byte?_eq (text : String) (i : Nat) : byte? text i = (bytes text)[i]? := by
  unfold byte?
  split
  · next h =>
    have hi : i < (bytes text).length := by simpa using h
    rw [List.getElem?_eq_getElem hi]
    rfl
  · next h =>
    symm
    simpa using h

theorem byte?_eq_none_iff {text : String} {i : Nat} :
    byte? text i = none ↔ text.utf8ByteSize ≤ i := by
  simp [byte?_eq]

theorem lt_size_of_byte? {text : String} {i : Nat} {b : UInt8} (h : byte? text i = some b) :
    i < text.utf8ByteSize := by
  cases Nat.lt_or_ge i text.utf8ByteSize with
  | inl lt => exact lt
  | inr ge => simp [byte?_eq_none_iff.mpr ge] at h

/-! ## Characters -/

/-- Length in bytes of the character that a byte announces: as many as it has leading ones, if these
are two, three or four.  No character begins with `0xC0`, `0xC1`, or `0xF5` to `0xF7`, but they announce
one all the same.  All other bytes count as one. -/
def width (b : UInt8) : Nat :=
  if 0xC0 ≤ b ∧ b ≤ 0xDF then 2
  else if 0xE0 ≤ b ∧ b ≤ 0xEF then 3
  else if 0xF0 ≤ b ∧ b ≤ 0xF7 then 4
  else 1

theorem width_pos (b : UInt8) : 0 < width b := by
  unfold width
  split
  · exact Nat.succ_pos _
  · split
    · exact Nat.succ_pos _
    · split <;> exact Nat.succ_pos _

/-- Whether a byte continues a character that an earlier byte began. -/
def isContinuation (b : UInt8) : Bool :=
  b &&& 0xC0 == 0x80

/-- Whether a character begins at an offset of the text. -/
def isLead (text : String) (i : Nat) : Bool :=
  (byte? text i).any fun b => !isContinuation b

/-- Number of characters that begin at one of the `n` offsets from `i` on, added to `total`. -/
def countLeads (text : String) (i : Nat) : Nat → Nat → Nat
  | 0, total => total
  | n + 1, total => countLeads text (i + 1) n (if isLead text i then total + 1 else total)

/-- Number of characters whose first byte lies in the bytes from `start` up to `stop`. -/
def countChars (text : String) (start stop : Nat) : Nat :=
  countLeads text start (stop - start) 0

theorem countLeads_add (text : String) (i n total : Nat) :
    countLeads text i n total = total + countLeads text i n 0 := by
  induction n generalizing i total with
  | zero => rfl
  | succ n ih =>
    rw [countLeads, countLeads, ih, ih (i + 1) (if isLead text i then 0 + 1 else 0)]
    split <;> omega

/-- A stretch of `n` bytes begins at most `n` characters. -/
theorem countLeads_le (text : String) (i n total : Nat) :
    countLeads text i n total ≤ total + n := by
  induction n generalizing i total with
  | zero => exact Nat.le_refl _
  | succ n ih =>
    rw [countLeads]
    refine Nat.le_trans (ih _ _) ?_
    split <;> omega

/-! ## Offsets between characters -/

/-- Whether an offset falls between two characters, or at an end of the text. -/
def isBoundary (text : String) (i : Nat) : Bool :=
  String.Pos.Raw.isValid text ⟨i⟩

/-- The part of the text from `start` up to `stop`.  It is empty unless the two offsets are in
order and both fall between characters of the text. -/
def slice (text : String) (start stop : Nat) : String :=
  if h : start ≤ stop ∧ isBoundary text start ∧ isBoundary text stop then
    text.extract ⟨⟨start⟩, String.Pos.Raw.isValid_eq_true_iff.mp h.2.1⟩
      ⟨⟨stop⟩, String.Pos.Raw.isValid_eq_true_iff.mp h.2.2⟩
  else
    ""

/-- Steps back from `i` to the nearest boundary, but not below `start`. -/
def boundaryBefore (text : String) (start : Nat) : Nat → Nat
  | 0 => 0
  | i + 1 =>
    if start < i + 1 && !isBoundary text (i + 1) then boundaryBefore text start i else i + 1

/-- Offset at which the last character of the stretch from `start` up to `stop` begins; an empty
stretch has none, and its start stands in. -/
def lastCharOffset (text : String) (start stop : Nat) : Nat :=
  if start = stop then start else boundaryBefore text start (stop - 1)

theorem isBoundary_zero (text : String) : isBoundary text 0 = true :=
  String.Pos.Raw.isValid_eq_true_iff.mpr String.Pos.Raw.isValid_zero

theorem isBoundary_size (text : String) : isBoundary text text.utf8ByteSize = true :=
  String.Pos.Raw.isValid_eq_true_iff.mpr String.Pos.Raw.isValid_rawEndPos

end CssTokens.Utf8
