import CssTokens.LineIndex
import CssTokens.Proofs.FastSkips

/-!
# CssTokens.Proofs.FastLineTable — line starts found by searches

The table of line starts can be built without a look at every byte: a search for three bytes goes from
one line break to the next, and only behind a carriage return one more byte is looked at.  Here this is
written in checked steps, with any searches (`Searches`).

If they find the first match, no step fails, and the table is the one that is built byte by byte
(`lineTable_eq`).  The byte that a search finds is the next one that begins a line break
(`nextBreakEnd_eq`), and up to there looking at single bytes appends nothing.
-/

namespace CssTokens.Checked

set_option autoImplicit false

/-- Whether a byte is a line break, or the first byte of one. -/
def beginsBreak (b : UInt8) : Bool :=
  b == Byte.lineFeed || b == Byte.carriageReturn || b == Byte.formFeed

/-! ## Tables by searches -/

/-- The offset behind the line break that begins at `i`. -/
def breakEnd (text : String) (i : Nat) : Checked Nat :=
  match (Utf8.bytes text)[i]? with
  | none => .error (.beyond (Utf8.bytes text).length i)
  | some b =>
      if b = Byte.carriageReturn ∧ (Utf8.bytes text)[i + 1]? = some Byte.lineFeed then sum i 2
      else sum i 1

theorem lt_of_breakEnd {text : String} {i next : Nat} (h : breakEnd text i = .ok next) :
    i < next ∧ i < (Utf8.bytes text).length := by
  rw [breakEnd] at h
  cases hb : (Utf8.bytes text)[i]? with
  | none =>
      rw [hb] at h
      cases h
  | some b =>
      obtain ⟨hlt, -⟩ := List.getElem?_eq_some_iff.mp hb
      refine ⟨?_, hlt⟩
      simp only [hb] at h
      split at h
      · have hsum := eq_of_sum h
        omega
      · have hsum := eq_of_sum h
        omega

namespace Searches

variable (m : Searches)

/-- The offset behind the next line break from `i` on, if there is one. -/
def nextBreakEnd (text : String) (i : Nat) : Checked (Option Nat) := do
  let bytes ← slice (Utf8.bytes text) i (Utf8.bytes text).length
  match m.three Byte.lineFeed Byte.carriageReturn Byte.formFeed bytes with
  | none => return none
  | some offset => return some (← breakEnd text (← sum i offset))

variable {m} in
theorem lt_of_nextBreakEnd {text : String} {i next : Nat}
    (h : m.nextBreakEnd text i = .ok (some next)) : i < next ∧ i < (Utf8.bytes text).length := by
  obtain ⟨bytes, -, h⟩ := Reading.exists_of_bind h
  cases hm : m.three Byte.lineFeed Byte.carriageReturn Byte.formFeed bytes with
  | none =>
      rw [hm] at h
      cases h
  | some offset =>
      rw [hm] at h
      obtain ⟨found, hfound, h⟩ := Reading.exists_of_bind h
      obtain ⟨stop, hstop, h⟩ := Reading.exists_of_bind h
      cases h
      obtain ⟨hlt, hsize⟩ := lt_of_breakEnd hstop
      have hsum := eq_of_sum hfound
      omega

/-- Appends to `found` the starts of the lines behind the line breaks from `i` on, as numbers of 32
bits: a greater one is taken for the greatest. -/
def lineStartsFrom (text : String) (i : Nat) (found : Array Nat) : Checked (Array Nat) :=
  match _h : m.nextBreakEnd text i with
  | .error e => .error e
  | .ok none => .ok found
  | .ok (some next) => lineStartsFrom text next (found.push (min next 4294967295))
termination_by (Utf8.bytes text).length - i
decreasing_by
  have hlt := lt_of_nextBreakEnd _h
  omega

theorem lineStartsFrom_step (text : String) (i : Nat) (found : Array Nat) :
    m.lineStartsFrom text i found = m.nextBreakEnd text i >>= fun
      | none => .ok found
      | some next => m.lineStartsFrom text next (found.push (min next 4294967295)) := by
  rw [lineStartsFrom]
  split
  · next e he => rw [he]; rfl
  · next hnone => rw [hnone]; rfl
  · next next hnext => rw [hnext]; rfl

/-- The index of a text. -/
def lineTable (text : String) : Checked LineIndex := do
  return ⟨← m.lineStartsFrom text 0 #[0]⟩

end Searches

/-! ## They are the tables built byte by byte -/

variable {src : Source} {i : Nat} {b : UInt8}

theorem breakEnd?_of_beginsBreak (hb : Utf8.byte? src.text i = some b) (h : beginsBreak b = true) :
    LineIndex.breakEnd? src.text i =
      if b = Byte.carriageReturn ∧ Utf8.byte? src.text (i + 1) = some Byte.lineFeed then some (i + 2)
      else some (i + 1) := by
  rw [LineIndex.breakEnd?, hb]
  by_cases hcr : b = Byte.carriageReturn
  · simp [hcr]
  · simp only [beginsBreak, Bool.or_eq_true, beq_iff_eq, hcr, or_false] at h
    simp [hcr, h]

theorem breakEnd?_of_not_beginsBreak (hb : Utf8.byte? src.text i = some b)
    (h : ¬ beginsBreak b = true) : LineIndex.breakEnd? src.text i = none := by
  simp only [beginsBreak, Bool.or_eq_true, beq_iff_eq, not_or] at h
  simp [LineIndex.breakEnd?, hb, h]

/-- Behind the first byte of a line break the two ways agree. -/
theorem breakEnd_eq (hb : Utf8.byte? src.text i = some b) (h : beginsBreak b = true) :
    ∃ next, breakEnd src.text i = .ok next ∧ LineIndex.breakEnd? src.text i = some next := by
  have hlt : i < src.size := Utf8.lt_size_of_byte? hb
  rw [breakEnd?_of_beginsBreak hb h, breakEnd, ← Utf8.byte?_eq, ← Utf8.byte?_eq, hb]
  by_cases hpair : b = Byte.carriageReturn ∧ Utf8.byte? src.text (i + 1) = some Byte.lineFeed
  · have hnext : i + 1 < src.size := Utf8.lt_size_of_byte? hpair.2
    refine ⟨i + 2, ?_, if_pos hpair⟩
    rw [← sum_of_le_size src (by omega)]
    exact if_pos hpair
  · refine ⟨i + 1, ?_, if_neg hpair⟩
    rw [← sum_of_le_size src (by omega)]
    exact if_neg hpair

/-- The offset behind the next line break from `i` on, by looking at single bytes. -/
def nextBreak? (src : Source) (i : Nat) : Option Nat :=
  (src.find? beginsBreak i).bind fun r => LineIndex.breakEnd? src.text r.1

/-- Where no line break begins, the next one is that of the next byte. -/
theorem nextBreak?_eq (hlt : i < src.size) :
    nextBreak? src i = (LineIndex.breakEnd? src.text i).or (nextBreak? src (i + 1)) := by
  rw [nextBreak?, Source.find?]
  split
  · next hnone => exact absurd hlt (Nat.not_lt.mpr (Utf8.byte?_eq_none_iff.mp hnone))
  · next b hb =>
      by_cases hbegins : beginsBreak b = true
      · obtain ⟨next, -, hplain⟩ := breakEnd_eq hb hbegins
        rw [if_pos hbegins, hplain]
        exact hplain
      · rw [if_neg hbegins, breakEnd?_of_not_beginsBreak hb hbegins]
        rfl

theorem nextBreak?_of_size_le (h : src.size ≤ i) : nextBreak? src i = none := by
  rw [nextBreak?, Source.find?, Utf8.byte?_eq_none_iff.mpr h]
  rfl

namespace Searches.FindFirst

variable {m : Searches}

/-- A search finds the line break that looking at single bytes finds next. -/
theorem nextBreakEnd_eq (h : m.FindFirst) (hle : i ≤ src.size) :
    m.nextBreakEnd src.text i = .ok (nextBreak? src i) := by
  have hslice : slice (Utf8.bytes src.text) i (Utf8.bytes src.text).length =
      .ok (⟨i⟩ : Cursor src).rest := by
    rw [slice_eq (by rwa [Utf8.length_bytes]) (Nat.le_refl _), ← List.length_drop, List.take_length]
    rfl
  have hfound := h.three Byte.lineFeed Byte.carriageReturn Byte.formFeed (⟨i⟩ : Cursor src).rest
  have hplace := (firstPlace_find? src beginsBreak i).unique (hfound.shift i hasAt_rest_iff)
  rw [nextBreakEnd, hslice, nextBreak?]
  show (match m.three _ _ _ (⟨i⟩ : Cursor src).rest with | none => _ | some offset => _) = _
  cases hm : m.three Byte.lineFeed Byte.carriageReturn Byte.formFeed (⟨i⟩ : Cursor src).rest with
  | none =>
      rw [hm] at hplace
      rw [Option.map_eq_none_iff.mp hplace]
      rfl
  | some offset =>
      rw [hm] at hplace
      obtain ⟨⟨o, b⟩, hf, ho⟩ := Option.map_eq_some_iff.mp hplace
      obtain rfl : o = i + offset := ho
      obtain ⟨-, hb, hbegins, -⟩ := Source.find?_eq_some_iff.mp hf
      obtain ⟨next, hnext, hplain⟩ := breakEnd_eq hb hbegins
      have hlt : i + offset < src.size := Utf8.lt_size_of_byte? hb
      rw [hf]
      show (sum i offset >>= _) = _
      rw [sum_of_le_size src (by omega)]
      show (breakEnd src.text (i + offset) >>= _) = .ok (LineIndex.breakEnd? src.text (i + offset))
      rw [hnext, hplain]
      rfl

/-- The induction is that of the table built byte by byte: a byte that begins no line break is passed by
the search, and changes nothing of what it finds. -/
theorem lineStartsFrom_eq (h : m.FindFirst) (hle : i ≤ src.size) (found : Array Nat) :
    m.lineStartsFrom src.text i found = .ok (LineIndex.startsFrom src.text i found) := by
  fun_induction LineIndex.startsFrom src.text i found with
  | case1 i found hlt next hnext ih =>
      have hend := (LineIndex.breakEnd?_eq_some hnext).2
      have hsize : src.size ≤ 4294967294 := src.size_le
      have hfits : next ≤ 4294967295 := Nat.le_trans hend (Nat.le_succ_of_le hsize)
      rw [lineStartsFrom_step, h.nextBreakEnd_eq hle, nextBreak?_eq hlt, hnext]
      show m.lineStartsFrom src.text next (found.push (min next 4294967295)) = _
      rw [Nat.min_eq_left hfits]
      exact ih hend
  | case2 i found hlt hnone ih =>
      rw [lineStartsFrom_step, h.nextBreakEnd_eq hle, nextBreak?_eq hlt, hnone, Option.none_or,
        ← h.nextBreakEnd_eq (Nat.succ_le_of_lt hlt), ← lineStartsFrom_step]
      exact ih (Nat.succ_le_of_lt hlt)
  | case3 i found hge =>
      rw [lineStartsFrom_step, h.nextBreakEnd_eq hle, nextBreak?_of_size_le (Nat.le_of_not_lt hge)]
      rfl

/-- **A table built by searches is the table of the text.** -/
theorem lineTable_eq (h : m.FindFirst) (src : Source) :
    m.lineTable src.text = .ok (LineIndex.build src.text) := by
  rw [lineTable, h.lineStartsFrom_eq (Nat.zero_le _)]
  rfl

/-- A search that stops at a carriage return goes on behind the line feed that follows it. -/
example : linear.lineTable "a\r\r\n\nb\x0c" = .ok ⟨#[0, 2, 4, 5, 7]⟩ := by decide +kernel

end Searches.FindFirst

end CssTokens.Checked
