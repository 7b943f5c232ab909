import CssTokens.Proofs.LineLookup
import CssTokens.Source

/-!
# CssTokens.Proofs.HintedLookups — a hint that is handed on changes no position

Offsets may be looked up in any order: ascending, back and forth, one of them twice, inside of a
character, behind the text.  Each look-up uses the hint that the last one left and leaves one for the
next.  `locateAll` is such a run, with all that its look-ups answer.

The hint may save counting, and it does nothing else.  A look-up with a valid hint answers as one with
no hint at all, and its own hint is this answer (`locate_of_valid`); so the hint stays valid, and the
run is look-up by look-up the one without hints (`locateAll_of_valid`).
-/

namespace CssTokens.LineIndex

set_option autoImplicit false

/-- Looks offsets up one after the other, each with the hint that the one before it left. -/
def locateAll (index : LineIndex) (text : String) (hint : ColumnHint) :
    List Nat → List (Position × ColumnHint)
  | [] => []
  | offset :: offsets =>
      let found := index.locate text offset hint
      found :: index.locateAll text found.2 offsets

variable {text : String} {hint : ColumnHint}

/-- A position as a hint: found at an offset that was cut to the length of the text. -/
def hintAt (text : String) (offset : Nat) : ColumnHint :=
  let position := (build text).position text offset
  ⟨position.line, min offset text.utf8ByteSize, position.column⟩

/-- With a valid hint a look-up answers as without one, and leaves the answer as its hint. -/
theorem locate_of_valid (offset : Nat) (hv : hint.Valid text) :
    (build text).locate text offset hint = ((build text).position text offset, hintAt text offset) := by
  have hposition : ((build text).locate text offset hint).1 = (build text).position text offset := by
    rw [locate_eq_spot offset hv, position_build]
  refine Prod.ext hposition ?_
  rw [locate_hint, hposition]
  rfl

/-- The invariant of the run is that its hint is valid. -/
theorem locateAll_of_valid (hv : hint.Valid text) (offsets : List Nat) :
    (build text).locateAll text hint offsets =
      offsets.map fun offset => ((build text).position text offset, hintAt text offset) := by
  induction offsets generalizing hint with
  | nil => rfl
  | cons offset offsets ih =>
      rw [locateAll, List.map_cons, ih (locate_valid offset hv), locate_of_valid offset hv]

/-- **Whatever the order of the look-ups, each answers as if it were the first, and leaves a hint with
the line and the column found and the offset cut to the length of the text.** -/
theorem hint_changes_no_position (src : Source) (offsets : List Nat) :
    (build src.text).locateAll src.text .initial offsets =
      offsets.map fun offset =>
        let position := (build src.text).position src.text offset
        (position, ⟨position.line, min offset src.size, position.column⟩) :=
  locateAll_of_valid (ColumnHint.valid_initial src.text) offsets

/-- Behind the text, then inside of the line break, then inside of a character, then one line on. -/
example : (build "é\r\nb").locateAll "é\r\nb" .initial [9, 3, 1, 4] =
    [(⟨2, 2⟩, ⟨2, 5, 2⟩), (⟨1, 3⟩, ⟨1, 3, 3⟩), (⟨1, 2⟩, ⟨1, 1, 2⟩), (⟨2, 1⟩, ⟨2, 4, 1⟩)] := by
  decide +kernel

end CssTokens.LineIndex
