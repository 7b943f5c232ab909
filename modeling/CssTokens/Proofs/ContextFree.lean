import CssTokens.Proofs.Copies
import CssTokens.Proofs.ScannerSound

/-!
# CssTokens.Proofs.ContextFree — a lexeme depends on what is left of the text only

A scanner has two things that an earlier part of the text could act through: its offset, and the
memo of parentheses that earlier searches left.  Neither does.  Whatever steps a scanner and copies of
it have made, the next lexeme of each is the one that a new scanner finds at the start of a source
that holds only the rest of the text.

Both scanners follow the byte rules, and the rules look at the bytes that are left.
-/

namespace CssTokens

set_option autoImplicit false

open Reading

/-- A short text leaves a short rest. -/
theorem Source.exists_suffix (src : Source) {i : Nat} (h : Utf8.isBoundary src.text i = true) :
    ∃ suffix : Source, ofText (Utf8.slice src.text i src.size) = .ok suffix ∧
      suffix.bytes = src.bytes.drop i := by
  have hbytes := Utf8.bytes_slice_size h
  have hsize : (Utf8.slice src.text i src.size).utf8ByteSize ≤ maxSize := by
    rw [← Utf8.length_bytes, show src.size = src.text.utf8ByteSize from rfl, hbytes,
      List.length_drop, Utf8.length_bytes]
    exact Nat.le_trans (Nat.sub_le _ _) src.size_le
  exact ⟨⟨_, hsize⟩, ofText_eq hsize, hbytes⟩

namespace Scanner

variable {src : Source}

/-- The second scanner stands behind the lexeme that the first one finds. -/
def Moves (s s' : Scanner src) : Prop :=
  ∃ lexeme, s.next = .ok (lexeme, s')

theorem Sound.of_copies {first : Scanner src} {pool : List (Scanner src)}
    (h : Copies Moves first pool) (hfirst : first.Sound) : ∀ s ∈ pool, s.Sound := by
  apply h.forall_mem hfirst
  intro s s' hs hmove
  obtain ⟨lexeme, hnext⟩ := hmove
  exact hs.step hnext

/-- **Neither the memo nor the text before a scanner changes a lexeme.** -/
theorem next_eq_fresh_next {start : Nat} (hstart : Utf8.isBoundary src.text start = true)
    {pool : List (Scanner src)} (hpool : Copies Moves (ofCursor ⟨start⟩) pool) {s : Scanner src}
    (hs : s ∈ pool) :
    Utf8.isBoundary src.text s.pos = true ∧
      ∃ suffix lexeme after fresh,
        Source.ofText (Utf8.slice src.text s.pos src.size) = .ok suffix ∧
        suffix.bytes = src.bytes.drop s.pos ∧
        s.next = .ok (lexeme, after) ∧ (Scanner.start suffix).next = .ok (lexeme, fresh) := by
  have hsound : s.Sound := Sound.of_copies hpool (sound_ofCursor hstart) s hs
  obtain ⟨suffix, hsuffix, hbytes⟩ := src.exists_suffix hsound.boundary
  obtain ⟨⟨lexeme, after⟩, hnext, hrules⟩ := hsound.followsRules
  obtain ⟨⟨lexeme', fresh⟩, hfresh, hrules'⟩ := (sound_start suffix).followsRules
  have hrest : (Scanner.start suffix).cursor.rest = s.cursor.rest := hbytes
  have heq : lexeme' = lexeme := by
    have hlexeme : lexeme = ByteRules.lexeme s.cursor.rest := hrules.lexeme_eq
    rw [hlexeme, ← hrest]
    exact hrules'.lexeme_eq
  subst heq
  exact ⟨hsound.boundary, suffix, lexeme', after, fresh, hsuffix, hbytes, hnext, hfresh⟩

/-- Two parentheses that open no group, because of the quote behind them. -/
def quoteBehindParens : Source :=
  ⟨"(( '", by decide⟩

/-- The second parenthesis is remembered when it is reached, and is the lexeme that it would be at
the start of a source. -/
theorem next_eq_fresh_next_of_remembered :
    let remembering : Scanner quoteBehindParens := ⟨⟨1⟩, ⟨#[1], 0⟩⟩
    Copies Moves (start quoteBehindParens) [remembering] ∧
      Utf8.isBoundary quoteBehindParens.text 1 = true ∧
      ∃ suffix lexeme after fresh,
        Source.ofText (Utf8.slice quoteBehindParens.text 1 quoteBehindParens.size) = .ok suffix ∧
        suffix.bytes = quoteBehindParens.bytes.drop 1 ∧
        remembering.next = .ok (lexeme, after) ∧
        (Scanner.start suffix).next = .ok (lexeme, fresh) := by
  intro remembering
  have hmove : Moves (start quoteBehindParens) remembering :=
    ⟨⟨.token .openParen, 1⟩, by decide +kernel⟩
  have hstart : Copies Moves (start quoteBehindParens) ([] ++ start quoteBehindParens :: []) :=
    .start
  have hpool : Copies Moves (start quoteBehindParens) [remembering] := hstart.move hmove
  exact ⟨hpool, next_eq_fresh_next (by decide) hpool (List.mem_singleton.mpr rfl)⟩

end Scanner

end CssTokens
