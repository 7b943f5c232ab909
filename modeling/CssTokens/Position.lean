/-!
# CssTokens.Position — lines, columns and spans

A place in a text is told to a reader by line and column, both counted from one and the column in
characters; it is told to a program by its offset in bytes.  A span is a stretch of bytes, from
`start` up to but not including `stop`.

Positions are ordered as they are read: by line, and by column within a line (`Position.lt_iff`,
`Position.le_iff`).
-/

namespace CssTokens

set_option autoImplicit false

/-- A line and a column, counted from one. -/
structure Position where
  line : Nat
  /-- Counts characters. -/
  column : Nat
deriving DecidableEq

namespace Position

instance : Ord Position :=
  ⟨fun a b => (compare a.line b.line).then (compare a.column b.column)⟩

instance : LT Position :=
  ltOfOrd

instance : LE Position :=
  leOfOrd

/-- Line and column with a colon between them. -/
def text (p : Position) : String :=
  s!"{p.line}:{p.column}"

/-- The debugging text of a position. -/
def debug (p : Position) : String :=
  s!"Position \x7b line: {p.line}, column: {p.column} \x7d"

theorem compare_eq (a b : Position) :
    compare a b = (compare a.line b.line).then (compare a.column b.column) := rfl

theorem lt_iff {a b : Position} :
    a < b ↔ a.line < b.line ∨ (a.line = b.line ∧ a.column < b.column) := by
  change compare a b = .lt ↔ _
  rw [compare_eq, Ordering.then_eq_lt, Nat.compare_eq_lt, Nat.compare_eq_eq, Nat.compare_eq_lt]

theorem le_iff {a b : Position} :
    a ≤ b ↔ a.line < b.line ∨ (a.line = b.line ∧ a.column ≤ b.column) := by
  change (compare a b).isLE = true ↔ _
  rw [compare_eq, Ordering.isLE_then_iff_or, Nat.compare_eq_lt, Nat.compare_eq_eq, Nat.isLE_compare]

theorem le_refl (p : Position) : p ≤ p :=
  le_iff.mpr (Or.inr ⟨rfl, Nat.le_refl _⟩)

theorem le_trans {p q r : Position} (hpq : p ≤ q) (hqr : q ≤ r) : p ≤ r := by
  rw [le_iff] at hpq hqr ⊢
  omega

theorem lt_of_lt_of_le {p q r : Position} (hpq : p < q) (hqr : q ≤ r) : p < r := by
  rw [lt_iff] at hpq ⊢
  rw [le_iff] at hqr
  omega

end Position

/-- The bytes from `start` up to `stop`. -/
structure Span where
  start : Nat
  /-- Offset of the first byte behind the span. -/
  stop : Nat
deriving DecidableEq

namespace Span

/-- The empty span at the start of a text. -/
def zero : Span :=
  ⟨0, 0⟩

/-- Number of bytes in a span. -/
def length (s : Span) : Nat :=
  s.stop - s.start

/-- Whether a span has no bytes. -/
def isEmpty (s : Span) : Bool :=
  s.start == s.stop

/-- Whether an offset is that of a byte in the span. -/
def contains (s : Span) (offset : Nat) : Bool :=
  s.start ≤ offset && offset < s.stop

/-- Start and stop with two dots between them. -/
def text (s : Span) : String :=
  s!"{s.start}..{s.stop}"

end Span

end CssTokens
