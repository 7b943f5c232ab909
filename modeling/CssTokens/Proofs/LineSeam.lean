import CssTokens.Proofs.Characters
import CssTokens.Proofs.PrefixStability

/-!
# CssTokens.Proofs.LineSeam — the lines of two texts that are put together

Lines can be indexed piece by piece.  Where a text is put behind another one, its lines follow the lines
of that one, except that its first line goes on where the last line of the other ends.  So its line
starts but the first move by the length of the other (`LineRules.starts_seam`), and its positions are
`placedAt` the position where the other ends (`LineRules.spot_behind`).

There is one way to go wrong.  A carriage return ends a line of its own, but not if it is the last byte
of the one text and the other begins with a line feed.  The seam must not cut a line break in two.
-/

namespace CssTokens

set_option autoImplicit false

/-- The position that `q` becomes if the text that it is in begins at `p`: the first line goes on where
`p` is, and the others are lines of their own. -/
def Position.placedAt (q p : Position) : Position :=
  if q.line = 1 then ⟨p.line, p.column + q.column - 1⟩ else ⟨p.line + q.line - 1, q.column⟩

namespace Position

variable {q : Position} (p : Position)

theorem placedAt_start : (⟨1, 1⟩ : Position).placedAt p = p := rfl

theorem placedAt_newLine (hq : 0 < q.line) :
    (⟨q.line + 1, 1⟩ : Position).placedAt p = ⟨(q.placedAt p).line + 1, 1⟩ := by
  have hne : q.line + 1 ≠ 1 := by omega
  have hline : (q.placedAt p).line = p.line + q.line - 1 := by
    rw [placedAt]
    split
    · next hone => rw [hone, Nat.add_sub_cancel]
    · rfl
  have hsum : p.line + (q.line + 1) - 1 = p.line + q.line - 1 + 1 := by omega
  rw [placedAt, if_neg hne, hline, hsum]

theorem placedAt_newColumn (hq : 0 < q.column) :
    (⟨q.line, q.column + 1⟩ : Position).placedAt p =
      ⟨(q.placedAt p).line, (q.placedAt p).column + 1⟩ := by
  have hsum : p.column + (q.column + 1) - 1 = p.column + q.column - 1 + 1 := by omega
  unfold placedAt
  by_cases hone : q.line = 1
  · rw [if_pos hone, if_pos hone, hsum]
  · rw [if_neg hone, if_neg hone]

end Position

/-! ## The bytes at the seam and behind it -/

namespace Utf8

variable {s t : String} {i : Nat} {c : Char}

theorem byte?_behind (s t : String) (i : Nat) : byte? (s ++ t) (s.utf8ByteSize + i) = byte? t i := by
  rw [byte?_eq, byte?_eq, bytes_append, List.getElem?_append_right (by rw [length_bytes]; omega),
    length_bytes, Nat.add_sub_cancel_left]

theorem isLead_behind (s t : String) (i : Nat) :
    isLead (s ++ t) (s.utf8ByteSize + i) = isLead t i := by
  rw [isLead, isLead, byte?_behind]

theorem head?_of_byte? (hc : c.toNat < 0x80) (h : byte? t 0 = some (ascii c)) :
    t.toList.head? = some c := by
  apply (head?_encode_iff hc).mp
  rw [encode_toList, List.head?_eq_getElem?, ← byte?_eq, h]

theorem getLast?_of_byte? (hc : c.toNat < 0x80) (hsize : s.utf8ByteSize = i + 1)
    (h : byte? s i = some (ascii c)) : s.toList.getLast? = some c := by
  have hlast : (encode s.toList).getLast? = some (ascii c) := by
    rw [encode_toList, List.getLast?_eq_getElem?, length_bytes, hsize, Nat.add_sub_cancel,
      ← byte?_eq, h]
  rcases List.eq_nil_or_concat s.toList with hnil | ⟨cs, d, hcs⟩
  · rw [hnil] at hlast
    cases hlast
  · obtain ⟨b, ds, hd, -, -⟩ := utf8EncodeChar_shape d
    have hmem : ascii c ∈ String.utf8EncodeChar d := by
      rw [hcs, List.concat_eq_append, encode_append, encode_cons, encode_nil, List.append_nil, hd,
        List.getLast?_append, List.getLast?_cons, Option.some_or] at hlast
      apply List.mem_of_getLast?
      rw [hd, List.getLast?_cons, hlast]
    rw [hcs, List.concat_eq_append, List.getLast?_concat,
      (ascii_mem_utf8EncodeChar_iff hc).mp hmem]

end Utf8

namespace LineRules

variable {s t : String} {o : Nat}

theorem breakEnds_behind (s t : String) (k : Nat) :
    breakEnds (s ++ t) (s.utf8ByteSize + k + 1) = breakEnds t (k + 1) := by
  have hnext := Utf8.byte?_behind s t (k + 1)
  rw [← Nat.add_assoc] at hnext
  simp only [breakEnds, Utf8.byte?_behind, hnext]

section Seam

variable (hseam : ¬ (s.toList.getLast? = some '\r' ∧ t.toList.head? = some '\n'))

include hseam

/-- Up to the seam, and at it, line breaks end as in the text before it. -/
theorem breakEnds_seam (h : o ≤ s.utf8ByteSize) : breakEnds (s ++ t) o = breakEnds s o := by
  rcases Nat.lt_or_eq_of_le h with hlt | hsize
  · exact breakEnds_append t hlt
  · cases o with
    | zero => rfl
    | succ o =>
        have hend : Utf8.byte? s (o + 1) = none :=
          Utf8.byte?_eq_none_iff.mpr (Nat.le_of_eq hsize.symm)
        have hnext : Utf8.byte? (s ++ t) (o + 1) = Utf8.byte? t 0 := by
          rw [hsize]
          exact Utf8.byte?_behind s t 0
        have hbefore : Utf8.byte? (s ++ t) o = Utf8.byte? s o := Utf8.byte?_append t h
        rw [breakEnds, breakEnds, hbefore, hnext, hend]
        by_cases hcr : Utf8.byte? s o = some Byte.carriageReturn
        · have hfeed : Utf8.byte? t 0 ≠ some Byte.lineFeed := fun hlf =>
            hseam ⟨Utf8.getLast?_of_byte? (by decide) hsize.symm hcr,
              Utf8.head?_of_byte? (by decide) hlf⟩
          have hnone : none ≠ some Byte.lineFeed := (Option.some_ne_none _).symm
          rw [bne_iff_ne.mpr hfeed, bne_iff_ne.mpr hnone]
        · rw [beq_eq_false_iff_ne.mpr hcr, Bool.false_and, Bool.false_and]

theorem spot_seam : spot (s ++ t) s.utf8ByteSize = spot s s.utf8ByteSize := by
  cases hsize : s.utf8ByteSize with
  | zero => rw [spot_zero, spot_zero]
  | succ i =>
      have hlt : i < s.utf8ByteSize := hsize ▸ Nat.lt_succ_self i
      rw [spot_succ, spot_succ, breakEnds_seam hseam hlt, Utf8.isLead_append t hlt,
        spot_append t hlt]

/-- **A place behind the seam has the position that it has in its own text, placed where the text
before the seam ends.** -/
theorem spot_behind (k : Nat) :
    spot (s ++ t) (s.utf8ByteSize + k) = (spot t k).placedAt (spot s s.utf8ByteSize) := by
  induction k with
  | zero => rw [Nat.add_zero, spot_seam hseam, spot_zero, Position.placedAt_start]
  | succ k ih =>
      rw [← Nat.add_assoc, spot_succ, ih, breakEnds_behind, Utf8.isLead_behind, spot_succ t k]
      split
      · exact (Position.placedAt_newLine _ (line_pos t k)).symm
      · split
        · exact (Position.placedAt_newColumn _ (Nat.lt_add_right _ Nat.one_pos)).symm
        · rfl

/-- **The line starts of the one text are followed by those of the other, but the first, moved to
behind the seam.** -/
theorem starts_seam :
    starts (s ++ t) = starts s ++ (starts t).tail.map (s.utf8ByteSize + ·) := by
  have hsplit : List.range' 1 (s ++ t).utf8ByteSize =
      List.range' 1 s.utf8ByteSize ++
        (List.range' 1 t.utf8ByteSize).map (s.utf8ByteSize + ·) := by
    rw [List.map_add_range', Nat.add_comm s.utf8ByteSize 1, List.range'_append_1,
      String.utf8ByteSize_append]
  have hbefore : (List.range' 1 s.utf8ByteSize).filter (isStart (s ++ t)) =
      (List.range' 1 s.utf8ByteSize).filter (isStart s) := by
    apply List.filter_congr
    intro o ho
    have hle : o ≤ s.utf8ByteSize := by
      have := (List.mem_range'_1.mp ho).2
      omega
    rw [isStart, isStart, breakEnds_seam hseam hle]
  have hbehind : (List.range' 1 t.utf8ByteSize).filter
        (isStart (s ++ t) ∘ (s.utf8ByteSize + ·)) =
      (List.range' 1 t.utf8ByteSize).filter (isStart t) := by
    apply List.filter_congr
    intro o ho
    obtain ⟨k, rfl⟩ := Nat.exists_eq_add_of_le' (List.mem_range'_1.mp ho).1
    exact breakEnds_behind s t k
  rw [starts_eq_cons, hsplit, List.filter_append, List.filter_map, hbefore, hbehind,
    starts_eq_cons s, starts_eq_cons t, List.tail_cons, List.cons_append]

end Seam

end LineRules

namespace LineIndex

/-- **The index of two texts put together comes from their own two**, unless the seam cuts a line
break in two. -/
theorem build_append (src : Source) {s t : String} (htext : src.text = s ++ t)
    (hseam : ¬ (s.toList.getLast? = some '\r' ∧ t.toList.head? = some '\n')) :
    (build src.text).starts.toList =
        (build s).starts.toList ++ (build t).starts.toList.tail.map (s.utf8ByteSize + ·) ∧
      ∀ o, (build src.text).position src.text (s.utf8ByteSize + o) =
        ((build t).position t o).placedAt ((build s).position s s.utf8ByteSize) := by
  rw [htext]
  constructor
  · rw [LineRules.build_starts, LineRules.build_starts, LineRules.build_starts]
    exact LineRules.starts_seam hseam
  · intro o
    have hmin : min (s.utf8ByteSize + o) (s ++ t).utf8ByteSize =
        s.utf8ByteSize + min o t.utf8ByteSize := by
      rw [String.utf8ByteSize_append, Nat.add_min_add_left]
    rw [position_build, position_build, position_build, hmin, Nat.min_self]
    exact LineRules.spot_behind hseam _

/-- The one text ends in its second line, and the other begins with a line break of two characters: its
second half is one column behind the first, and the letter behind it is in the third line. -/
theorem build_append_of_twoLines :
    let src : Source := ⟨"\né\r\nb\n", by decide⟩
    src.text = "\né" ++ "\r\nb\n" ∧
      ¬ ("\né".toList.getLast? = some '\r' ∧ "\r\nb\n".toList.head? = some '\n') ∧
      (build src.text).starts.toList = [0, 1, 5, 7] ∧
      (build src.text).position src.text 4 = ⟨2, 3⟩ ∧
      (build src.text).position src.text 5 = ⟨3, 1⟩ := by
  intro src
  have htext : src.text = "\né" ++ "\r\nb\n" := by decide
  have hseam : ¬ ("\né".toList.getLast? = some '\r' ∧ "\r\nb\n".toList.head? = some '\n') := by
    decide
  obtain ⟨hstarts, hposition⟩ := build_append src htext hseam
  have hbefore : (build "\né").starts.toList = [0, 1] := by decide +kernel
  have hbehind : (build "\r\nb\n").starts.toList = [0, 2, 4] := by decide +kernel
  have hend : (build "\né").position "\né" 3 = ⟨2, 2⟩ := by decide +kernel
  have hfeed : (build "\r\nb\n").position "\r\nb\n" 1 = ⟨1, 2⟩ := by decide +kernel
  have hletter : (build "\r\nb\n").position "\r\nb\n" 2 = ⟨2, 1⟩ := by decide +kernel
  have hsize : "\né".utf8ByteSize = 3 := by decide
  rw [hsize, hbefore, hbehind] at hstarts
  rw [hsize, hend] at hposition
  refine ⟨htext, hseam, hstarts, (hposition 1).trans ?_, (hposition 2).trans ?_⟩
  · rw [hfeed]
    rfl
  · rw [hletter]
    rfl

/-- A line break that the seam cuts in two is one, and each of its halves would be one of its own. -/
example : (build ("\r" ++ "\n")).starts = #[0, 2] ∧ (build "\r").starts = #[0, 1] ∧
    (build "\n").starts = #[0, 1] := by
  decide +kernel

end LineIndex

end CssTokens
