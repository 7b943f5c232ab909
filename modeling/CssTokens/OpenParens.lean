/-!
# CssTokens.OpenParens — parentheses known to open no group

When a quote puts an end to the search for the end of a group, every inner parenthesis that is
open at the quote would meet the same quote.  Their offsets are remembered, in ascending order, so
that none of them is searched from again; without that a run of parentheses before one quote would
be searched as many times as it is long.

Scanning asks about offsets in ascending order, so the entries behind it are never needed again.
`next` counts how many of them have been passed, and `lookup` passes those before the offset asked
for.

* `lookup_snd` says what a look-up changes: entries are passed, none is lost.
* `lookup_fst_mem` says that it answers yes only for a remembered offset.
-/

namespace CssTokens

set_option autoImplicit false

/-- Offsets of parentheses that stay open up to a quote. -/
structure OpenParens where
  /-- The offsets, in ascending order. -/
  offsets : Array Nat
  /-- How many of them have been passed. -/
  next : Nat
deriving DecidableEq

namespace OpenParens

/-- Nothing is remembered. -/
def empty : OpenParens :=
  ⟨#[], 0⟩

/-- Remembers offsets given the innermost, that is the greatest, first. -/
def ofInnermostFirst (opened : List Nat) : OpenParens :=
  ⟨opened.reverse.toArray, 0⟩

/-- Passes the entries before `offset` and says whether `offset` is the one after them. -/
def lookup (memo : OpenParens) (offset : Nat) : Bool × OpenParens :=
  if h : memo.next < memo.offsets.size then
    if memo.offsets[memo.next] < offset then
      lookup ⟨memo.offsets, memo.next + 1⟩ offset
    else
      (memo.offsets[memo.next] == offset, memo)
  else
    (false, memo)
termination_by memo.offsets.size - memo.next

variable {memo : OpenParens} {offset : Nat}

theorem lookup_snd :
    (memo.lookup offset).2.offsets = memo.offsets ∧ memo.next ≤ (memo.lookup offset).2.next := by
  fun_induction lookup memo offset with
  | case1 memo h hlt ih => exact ⟨ih.1, Nat.le_trans (Nat.le_succ _) ih.2⟩
  | case2 memo h hge => exact ⟨rfl, Nat.le_refl _⟩
  | case3 memo h => exact ⟨rfl, Nat.le_refl _⟩

theorem lookup_fst_mem (h : (memo.lookup offset).1 = true) : offset ∈ memo.offsets := by
  fun_induction lookup memo offset with
  | case1 memo hb hlt ih => exact ih h
  | case2 memo hb hge =>
    rw [← (beq_iff_eq.mp h)]
    exact Array.getElem_mem hb
  | case3 memo hb => exact absurd h (by simp)

end OpenParens

end CssTokens
