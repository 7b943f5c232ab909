import CssTokens.Proofs.LexemeShape
import CssTokens.Proofs.ScannerRun

/-!
# CssTokens.Proofs.GroupSearches — the searches that a scanner makes

A step may search for the end of a group, and what it answers does not tell whether it did.  So a step
is written here with the search left open, over any kind of computation (`nextBy`).  With the usual
search it is the usual step (`nextBy_scanGroup`).  With one that is noted (`searchNoting`) it is still
that step, and leaves a list of the searches that were made for it (`run_nextBy`).

A step searches at most once: at a parenthesis that the memo does not know (`searches_eq`).  The
searches of a run are those of its steps, one after the other (`runSearches`).
-/

namespace CssTokens

set_option autoImplicit false

variable {src : Source}

/-- A search for the end of a group. -/
structure GroupSearch (src : Source) where
  /-- Where it began: behind the parenthesis. -/
  start : Cursor src
  /-- What came of it. -/
  found : Reading (GroupEnd src)
deriving DecidableEq

/-- Readings that keep a list of the searches made for them, also if they fail. -/
abbrev Noting (src : Source) : Type → Type :=
  ExceptT OutOfBounds (StateM (List (GroupSearch src)))

namespace Scanner

/-! ## Steps with the search left open -/

section

variable {m : Type → Type} [Monad m]

/-- The lexeme at an opening parenthesis, by some way to search for the end of a group. -/
def nextParenBy (search : Cursor src → m (GroupEnd src)) (s : Scanner src) :
    m (Lexeme × Scanner src) := do
  let (known, openParens) := s.openParens.lookup s.pos
  if known then
    return s.parenAlone openParens
  else
    match ← search (s.cursor.advance 1) with
    | .closed c => return { s with openParens }.upTo (.token .brackets) c
    | .quoted _ opened => return s.parenAlone (.ofInnermostFirst opened)
    | .missing c => return { s with openParens }.upTo (.unclosed .bracket) c

/-- The next lexeme, by some way to search for the end of a group. -/
def nextBy [MonadLiftT Reading m] (search : Cursor src → m (GroupEnd src)) (s : Scanner src) :
    m (Lexeme × Scanner src) := do
  if Opening.ofByte (← s.cursor.current) = .paren then
    s.nextParenBy search
  else
    s.next

end

variable (s : Scanner src)

theorem next_of_paren {s : Scanner src} (hb : s.cursor.current = .ok Byte.openParen) :
    s.next = s.nextParen := by
  rw [next, hb]
  rfl

/-- **With the usual search it is the usual step.** -/
theorem nextBy_scanGroup : s.nextBy (fun c => c.scanGroup []) = s.next := by
  cases hb : s.cursor.current with
  | error e =>
      rw [nextBy, next, hb]
      rfl
  | ok b =>
      rw [nextBy, hb]
      show (if Opening.ofByte b = .paren then s.nextParen else s.next) = s.next
      split
      · next hparen =>
          obtain rfl := Opening.eq_of_ofByte_paren hparen
          exact (next_of_paren hb).symm
      · rfl

/-! ## Searches are noted -/

/-- Searches as usual, and notes what came of it. -/
def searchNoting (c : Cursor src) : Noting src (GroupEnd src) := do
  let found := c.scanGroup []
  modify fun made => made ++ [⟨c, found⟩]
  found

/-- The searches that the next step makes. -/
def searches : List (GroupSearch src) :=
  ((s.nextBy searchNoting).run.run []).2

theorem run_nextParenBy (made : List (GroupSearch src)) :
    (s.nextParenBy searchNoting).run.run made =
      (s.nextParen, made ++
        if (s.openParens.lookup s.pos).1 = false then
          [⟨s.cursor.advance 1, (s.cursor.advance 1).scanGroup []⟩]
        else []) := by
  cases hknown : (s.openParens.lookup s.pos).1 with
  | true =>
      simp only [nextParenBy, nextParen, hknown, Bool.true_eq_false, if_true, if_false,
        List.append_nil]
      rfl
  | false =>
      simp only [nextParenBy, nextParen, searchNoting, hknown, Bool.false_eq_true, if_true, if_false]
      generalize (s.cursor.advance 1).scanGroup [] = found
      cases found with
      | error e => rfl
      | ok found => cases found <;> rfl

/-- A step with its searches noted is the step, and the one search that it may make is noted. -/
theorem run_nextBy_eq (made : List (GroupSearch src)) :
    (s.nextBy searchNoting).run.run made =
      (s.next, made ++
        if s.cursor.current = .ok Byte.openParen ∧ (s.openParens.lookup s.pos).1 = false then
          [⟨s.cursor.advance 1, (s.cursor.advance 1).scanGroup []⟩]
        else []) := by
  cases hb : s.cursor.current with
  | error e =>
      rw [if_neg (fun h => nomatch h.1), List.append_nil, nextBy, next, hb]
      rfl
  | ok b =>
      by_cases hparen : Opening.ofByte b = .paren
      · obtain rfl := Opening.eq_of_ofByte_paren hparen
        rw [nextBy, hb, next_of_paren hb]
        simp only [true_and]
        exact run_nextParenBy s made
      · have hne : (.ok b : Reading UInt8) ≠ .ok Byte.openParen := by
          intro h
          cases h
          exact hparen rfl
        rw [if_neg fun h => hne h.1, List.append_nil, nextBy, hb]
        show (if Opening.ofByte b = .paren then s.nextParenBy searchNoting else liftM s.next).run.run
          made = _
        rw [if_neg hparen]
        rfl

/-- **A step searches once at a parenthesis that the memo does not know, and else not at all**: where
the memo says yes, nothing is searched. -/
theorem searches_eq :
    s.searches =
      if s.cursor.current = .ok Byte.openParen ∧ (s.openParens.lookup s.pos).1 = false then
        [⟨s.cursor.advance 1, (s.cursor.advance 1).scanGroup []⟩]
      else [] := by
  rw [searches, run_nextBy_eq, List.nil_append]

/-- **To note the searches changes nothing**: the outcome is that of the usual step, and those made
before stay as they are. -/
theorem run_nextBy (made : List (GroupSearch src)) :
    (s.nextBy searchNoting).run.run made = (s.next, made ++ s.searches) := by
  rw [run_nextBy_eq, searches_eq]

/-- The searches that the steps up to the end of the text make, in order. -/
def runSearches (h : s.pos ≤ src.size) : List (GroupSearch src) :=
  (s.run h).flatMap fun v => v.scanner.searches

end Scanner

end CssTokens
