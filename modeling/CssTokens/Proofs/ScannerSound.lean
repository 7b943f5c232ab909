import CssTokens.Proofs.LexemeShape
import CssTokens.Proofs.ScannerRules

/-!
# CssTokens.Proofs.ScannerSound — the invariant of a scanner

A scanner that begins between two characters is always between two characters, and its memo is
always sound: `Scanner.Sound` holds of it at first (`sound_ofCursor`) and every step keeps it
(`Sound.step`).  Of such a scanner every step gives the lexeme of the byte rules.
-/

namespace CssTokens.Scanner

set_option autoImplicit false

open Reading

variable {src : Source} {s : Scanner src} {r : Lexeme × Scanner src}

/-- The scanner stands between two characters, and remembers only parentheses that open no group. -/
structure Sound (s : Scanner src) : Prop where
  boundary : Utf8.isBoundary src.text s.pos = true
  memo : s.openParens.Sound src

theorem sound_ofCursor {c : Cursor src} (h : Utf8.isBoundary src.text c.pos = true) :
    (ofCursor c).Sound :=
  ⟨h, OpenParens.sound_empty⟩

theorem sound_start (src : Source) : (start src).Sound :=
  sound_ofCursor (Utf8.isBoundary_zero src.text)

theorem Sound.pos_le (h : s.Sound) : s.pos ≤ src.size :=
  Utf8.le_size_of_isBoundary h.boundary

theorem Sound.followsRules (h : s.Sound) : Yields s.next (FollowsRules s) :=
  next_followsRules h.pos_le h.memo

/-- Where a step that follows the rules ends, a character begins. -/
theorem FollowsRules.boundary (h : FollowsRules s r) (hs : s.Sound) (hle : r.2.pos ≤ src.size) :
    Utf8.isBoundary src.text r.2.pos = true := by
  have hrest : src.bytes.drop r.2.pos = s.cursor.rest.drop (ByteRules.lexeme s.cursor.rest).length := by
    show r.2.cursor.rest = _
    rw [h.cursor_eq, Cursor.rest_advance, h.lexeme_eq]
  refine Utf8.isBoundary_iff_encoded.mpr ⟨hle, ?_⟩
  show Utf8.Encoded (src.bytes.drop r.2.pos)
  rw [hrest]
  exact ByteRules.lexeme_encoded (Utf8.isBoundary_iff_encoded.mp hs.boundary).2

/-- Every step keeps the invariant. -/
theorem Sound.step (h : s.Sound) (hr : s.next = .ok r) : r.2.Sound := by
  have hrules := h.followsRules.of_eq_ok hr
  have hwithin := (next_yields h.pos_le).of_eq_ok hr
  exact ⟨hrules.boundary h hwithin.pos_le, hrules.sound⟩

end CssTokens.Scanner
