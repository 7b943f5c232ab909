import CssTokens.Proofs.LineRules

/-!
# CssTokens.Proofs.LineLookup — the index answers as a walk over the bytes would

Halving finds how many entries of the table are at most the offset asked for, whatever the entries
are, so long as the offset splits them (`SplitsAt`), that is so long as these come before the others
(`rank_eq`).  The table of a text is split by every offset at its line (`splitsAt_build`), so that is
the line found (`line_build`).

A hint is `Valid` if it was never set or gives the spot of its own offset.  From a valid hint the
answer is the spot of the offset asked for, cut to the length of the text, and the new hint is valid
again (`locate_eq_spot`, `locate_hint`).
-/

namespace CssTokens

set_option autoImplicit false

namespace LineIndex

/-! ## Lines -/

/-- The first `n` of the entries are at most the offset, and the others are behind it. -/
structure SplitsAt (starts : Array Nat) (offset n : Nat) : Prop where
  le_size : n ≤ starts.size
  before : ∀ k (hk : k < starts.size), k < n → starts[k] ≤ offset
  behind : ∀ k (hk : k < starts.size), n ≤ k → offset < starts[k]

theorem rank_eq {starts : Array Nat} {offset lo hi n : Nat} (h : hi ≤ starts.size)
    (hsplit : SplitsAt starts offset n) (hlo : lo ≤ n) (hhi : n ≤ hi) :
    rank starts offset lo hi h = n := by
  fun_induction rank starts offset lo hi h with
  | case1 lo hi h hlt hle ih =>
      apply ih
      · -- The entry in the middle is among the first `n`.
        apply Nat.succ_le_of_lt
        apply Nat.lt_of_not_le
        intro hge
        have := hsplit.behind ((lo + hi) / 2) (by omega) hge
        omega
      · exact hhi
  | case2 lo hi h hlt hgt ih =>
      apply ih
      · exact hlo
      · apply Nat.le_of_not_lt
        intro hlt'
        exact hgt (hsplit.before ((lo + hi) / 2) (by omega) hlt')
  | case3 lo hi h hge => omega

theorem SplitsAt.line_eq {index : LineIndex} {offset n : Nat}
    (h : SplitsAt index.starts offset n) : index.line offset = n :=
  rank_eq (Nat.le_refl _) h (Nat.zero_le n) h.le_size

variable {text : String} {o : Nat}

/-- An offset splits the table of a text at the line it is on. -/
theorem splitsAt_build (h : o ≤ text.utf8ByteSize) :
    SplitsAt (build text).starts o (LineRules.line text o) := by
  obtain ⟨before, behind, hstarts, hlen, hbefore, hbehind⟩ := LineRules.starts_split text h
  have htable := (LineRules.build_starts text).trans hstarts
  rw [← hlen]
  constructor
  · rw [← Array.length_toList, htable, List.length_append, List.length_cons]
    omega
  · intro k hk hlt
    rw [← Array.getElem_toList hk]
    simp only [htable]
    by_cases hlast : k < before.length
    · rw [List.getElem_append_left hlast]
      exact hbefore _ (List.getElem_mem hlast)
    · have hk' : k = before.length := by omega
      subst hk'
      rw [List.getElem_append_right (Nat.le_refl _)]
      simp only [Nat.sub_self, List.getElem_cons_zero]
      exact LineRules.start_le text o
  · intro k hk hge
    rw [← Array.getElem_toList hk]
    simp only [htable]
    rw [List.getElem_append_right (by omega), List.getElem_cons, dif_neg (by omega)]
    exact hbehind _ (List.getElem_mem _)

theorem line_build (h : o ≤ text.utf8ByteSize) : (build text).line o = LineRules.line text o :=
  (splitsAt_build h).line_eq

theorem lineStart?_build (h : o ≤ text.utf8ByteSize) :
    (build text).lineStart? (LineRules.line text o) = some (LineRules.start text o) := by
  obtain ⟨before, behind, hstarts, hlen, -, -⟩ := LineRules.starts_split text h
  rw [← hlen, lineStart?, ← Array.getElem?_toList, LineRules.build_starts, hstarts,
    List.getElem?_append_right (Nat.le_refl _), Nat.sub_self, List.getElem?_cons_zero]

end LineIndex

/-! ## Columns -/

/-- A hint that was never set, or that gives the spot of its own offset. -/
def ColumnHint.Valid (text : String) (hint : ColumnHint) : Prop :=
  hint.line = 0 ∨
    (hint.offset ≤ text.utf8ByteSize ∧ ⟨hint.line, hint.column⟩ = LineRules.spot text hint.offset)

theorem ColumnHint.valid_initial (text : String) : ColumnHint.initial.Valid text :=
  Or.inl rfl

namespace LineIndex

open LineRules

variable {text : String} {hint : ColumnHint}

/-- Counting on from where a valid hint resumes gives the column of the offset. -/
theorem resume_column {o : Nat} (h : o ≤ text.utf8ByteSize) (hv : hint.Valid text) :
    ((build text).resume hint (LineRules.line text o) o).2 +
        Utf8.countChars text ((build text).resume hint (LineRules.line text o) o).1 o =
      (LineRules.spot text o).column := by
  unfold resume
  by_cases hline : hint.line = LineRules.line text o ∧ hint.offset ≤ o
  · rw [if_pos hline]
    have hpos := LineRules.line_pos text o
    rcases hv with hunset | ⟨-, hspot⟩
    · omega
    · have hsame : LineRules.line text hint.offset = LineRules.line text o :=
        (congrArg Position.line hspot).symm.trans hline.1
      have hcolumn : hint.column = (spot text hint.offset).column := congrArg Position.column hspot
      have hstart := start_eq_of_line_eq text hline.2 hsame
      show hint.column + Utf8.countChars text hint.offset o = _
      rw [hcolumn]
      simp only [spot]
      rw [← hstart, Utf8.countChars_append text (start_le text hint.offset) hline.2, Nat.add_assoc]
  · rw [if_neg hline, lineStart?_build h, Option.getD_some, Nat.min_eq_left (start_le text o)]
    rfl

/-- **From a valid hint the position found is that of the offset, cut to the length of the text.** -/
theorem locate_eq_spot (offset : Nat) (hv : hint.Valid text) :
    ((build text).locate text offset hint).1 = spot text (min offset text.utf8ByteSize) := by
  have hle : min offset text.utf8ByteSize ≤ text.utf8ByteSize := Nat.min_le_right _ _
  have hcolumn := resume_column hle hv
  unfold locate
  simp only [line_build hle]
  exact congrArg (Position.mk _) hcolumn

theorem position_build (text : String) (offset : Nat) :
    (build text).position text offset = spot text (min offset text.utf8ByteSize) :=
  locate_eq_spot offset (ColumnHint.valid_initial text)

/-- The hint behind a look-up, in whatever text, holds what was found. -/
theorem locate_hint (index : LineIndex) (text : String) (offset : Nat) (hint : ColumnHint) :
    (index.locate text offset hint).2 =
      ⟨(index.locate text offset hint).1.line, min offset text.utf8ByteSize,
        (index.locate text offset hint).1.column⟩ := rfl

theorem locate_valid (offset : Nat) (hv : hint.Valid text) :
    ((build text).locate text offset hint).2.Valid text := by
  rw [locate_hint, locate_eq_spot offset hv]
  exact Or.inr ⟨Nat.min_le_right _ _, rfl⟩

end LineIndex

end CssTokens
