import CssTokens.Utf8

/-!
# CssTokens.Source — a text with zero bytes behind it

A source is a text whose length leaves room for 32-bit offsets.  Behind its bytes stand zero
bytes, at least one and as many as it takes to fill blocks of sixty-four; together they make the
padded source.  In the text scanning may look at the byte under it and the byte after that without
asking where the text ends, because the padding answers with zero.  At the end of the text only the
first of the two is sure: the one zero byte there may fill the block.

Reading is still guarded: `byteAt` refuses an index beyond the padded source with `OutOfBounds`.
`byteAt_eq` says that it reads the padded bytes and nothing else, `byteAt_of_lt` and
`byteAt_of_ge` give the two ways to succeed, and `lt_size_of_byteAt` is the fact that scanning
rests on: a byte other than zero belongs to the text.
-/

namespace CssTokens

set_option autoImplicit false

/-- A read behind the padding. -/
structure OutOfBounds where
  /-- Length of the padded source. -/
  size : Nat
  /-- The index that was read. -/
  index : Nat
deriving DecidableEq

/-- The report of a read behind the padding. -/
def OutOfBounds.message (e : OutOfBounds) : String :=
  s!"index out of bounds: the len is {e.size} but the index is {e.index}"

/-- A text too long to be a source. -/
structure SourceTooLong where
  /-- Length of the text in bytes. -/
  size : Nat
deriving DecidableEq

/-- A text that is not too long to be scanned. -/
structure Source where
  /-- The text itself. -/
  text : String
  /-- Offsets fit in 32 bits, and so does the index of the first zero byte behind the text. -/
  size_le : text.utf8ByteSize ≤ 4294967294

namespace Source

/-- Length in bytes of the longest text that can be a source. -/
def maxSize : Nat := 4294967294

/-- Padded sources are whole numbers of blocks of this many bytes. -/
def blockSize : Nat := 64

/-- Whether a text of `n` bytes can be a source. -/
def fits (n : Nat) : Bool :=
  n ≤ maxSize

/-- Admits a length, with the proof that it is small enough. -/
def checkSize (n : Nat) : Except SourceTooLong (PLift (n ≤ maxSize)) :=
  if h : n ≤ maxSize then .ok ⟨h⟩ else .error ⟨n⟩

/-- The source with a given text, if it is short enough. -/
def ofText (text : String) : Except SourceTooLong Source :=
  (checkSize text.utf8ByteSize).map fun h => ⟨text, h.down⟩

theorem ofText_eq {text : String} (h : text.utf8ByteSize ≤ maxSize) :
    ofText text = .ok ⟨text, h⟩ := by
  rw [ofText, checkSize, dif_pos h]
  rfl

variable (src : Source)

/-- Length of the text in bytes. -/
def size : Nat :=
  src.text.utf8ByteSize

/-- Whether the text is empty. -/
def isEmpty : Bool :=
  src.size == 0

/-- Length of the text and the zero bytes behind it: the next multiple of the block size. -/
def paddedSize : Nat :=
  (src.size / blockSize + 1) * blockSize

/-- The bytes of the text. -/
def bytes : List UInt8 :=
  Utf8.bytes src.text

/-- The bytes of the text and the zero bytes behind them. -/
def paddedBytes : List UInt8 :=
  src.bytes ++ List.replicate (src.paddedSize - src.size) 0

/-- The byte at an index of the padded source. -/
def byteAt (i : Nat) : Except OutOfBounds UInt8 :=
  match Utf8.byte? src.text i with
  | some b => .ok b
  | none => if i < src.paddedSize then .ok 0 else .error ⟨src.paddedSize, i⟩

/-! ## What is read -/

variable {src} {i : Nat} {b : UInt8}

@[simp] theorem length_bytes : src.bytes.length = src.size :=
  Utf8.length_bytes src.text

/-- At least one zero byte stands behind the text. -/
theorem size_lt_paddedSize : src.size < src.paddedSize := by
  unfold paddedSize blockSize
  omega

theorem length_paddedBytes : src.paddedBytes.length = src.paddedSize := by
  have := src.size_lt_paddedSize
  simp [paddedBytes]
  omega

theorem byteAt_of_lt (h : i < src.bytes.length) : src.byteAt i = .ok src.bytes[i] := by
  unfold byteAt
  rw [Utf8.byte?_eq, show Utf8.bytes src.text = src.bytes from rfl, List.getElem?_eq_getElem h]

theorem byteAt_of_ge (h : src.size ≤ i) (hp : i < src.paddedSize) : src.byteAt i = .ok 0 := by
  unfold byteAt
  rw [Utf8.byte?_eq_none_iff.mpr h]
  exact if_pos hp

theorem byteAt_of_paddedSize_le (h : src.paddedSize ≤ i) :
    src.byteAt i = .error ⟨src.paddedSize, i⟩ := by
  have hs : src.size ≤ i := Nat.le_of_lt (Nat.lt_of_lt_of_le src.size_lt_paddedSize h)
  unfold byteAt
  rw [Utf8.byte?_eq_none_iff.mpr hs]
  exact if_neg (Nat.not_lt.mpr h)

/-- Reading succeeds on the padded source and nowhere else, with the byte that stands there. -/
theorem byteAt_eq (i : Nat) :
    src.byteAt i = (src.paddedBytes[i]?).elim (.error ⟨src.paddedSize, i⟩) .ok := by
  cases Nat.lt_or_ge i src.size with
  | inl lt =>
    have hb : i < src.bytes.length := by simpa using lt
    rw [byteAt_of_lt hb, paddedBytes, List.getElem?_append_left hb, List.getElem?_eq_getElem hb]
    rfl
  | inr ge =>
    cases Nat.lt_or_ge i src.paddedSize with
    | inl lt =>
      rw [byteAt_of_ge ge lt, paddedBytes, List.getElem?_append_right (by simpa using ge),
        List.getElem?_replicate, if_pos (by simp; omega)]
      rfl
    | inr gep =>
      have hn : src.paddedBytes[i]? = none := by
        rw [List.getElem?_eq_none_iff, length_paddedBytes]
        exact gep
      rw [byteAt_of_paddedSize_le gep, hn]
      rfl

theorem lt_paddedSize_of_byteAt (h : src.byteAt i = .ok b) : i < src.paddedSize := by
  cases Nat.lt_or_ge i src.paddedSize with
  | inl lt => exact lt
  | inr ge => simp [byteAt_of_paddedSize_le ge] at h

/-- A byte other than zero belongs to the text. -/
theorem lt_size_of_byteAt (h : src.byteAt i = .ok b) (hb : b ≠ 0) : i < src.size := by
  cases Nat.lt_or_ge i src.size with
  | inl lt => exact lt
  | inr ge =>
    rw [byteAt_of_ge ge (lt_paddedSize_of_byteAt h)] at h
    injection h with h
    exact absurd h.symm hb

/-- Up to the first zero byte behind the text every read succeeds. -/
theorem exists_byteAt (h : i ≤ src.size) : ∃ b, src.byteAt i = .ok b := by
  cases Nat.lt_or_ge i src.size with
  | inl lt => exact ⟨_, byteAt_of_lt (by simpa using lt)⟩
  | inr ge => exact ⟨0, byteAt_of_ge ge (Nat.lt_of_le_of_lt h src.size_lt_paddedSize)⟩

end Source

/-- The report of a text too long to be a source. -/
def SourceTooLong.message (e : SourceTooLong) : String :=
  s!"source of {e.size} bytes exceeds SourceBuffer::MAX_LEN ({Source.maxSize})"

end CssTokens
