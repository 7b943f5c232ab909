import CssTokens.Proofs.OpenParenMemo
import CssTokens.Scanner.Progress

/-!
# CssTokens.Proofs.ScannerRules — a scanner gives the lexemes of the byte rules

A step of a scanner whose memo is sound gives the lexeme that the byte rules give for what is left of
the text, moves the cursor by its length, and leaves a sound memo (`next_followsRules`).  The memo
is consulted at parentheses only, and there a remembered offset is one where the search would have
met a quote anyway (`nextParen_followsRules`).
-/

namespace CssTokens.Scanner

set_option autoImplicit false

open ByteRules Reading

variable {src : Source} {s : Scanner src}

/-- A step from `s` with this result gives the lexeme of the rules, covers it, and remembers only
parentheses that open no group. -/
structure FollowsRules (s : Scanner src) (r : Lexeme × Scanner src) : Prop where
  lexeme_eq : r.1 = lexeme s.cursor.rest
  cursor_eq : r.2.cursor = s.cursor.advance r.1.length
  sound : r.2.openParens.Sound src

theorem followsRules_upTo {s' : Scanner src} {tag : Tag} {n : Nat} (hs : s'.cursor = s.cursor)
    (hsound : s'.openParens.Sound src) (hlex : lexeme s.cursor.rest = ⟨tag, n⟩) :
    FollowsRules s (s'.upTo tag (s.cursor.advance n)) := by
  have hlen : (s.cursor.advance n).pos - s'.pos = n := by
    show s.cursor.pos + n - s'.cursor.pos = n
    rw [hs, Nat.add_sub_cancel_left]
  exact ⟨by rw [hlex, upTo, hlen], by rw [upTo, hlen], hsound⟩

theorem followsRules_parenAlone {openParens : OpenParens} (hsound : openParens.Sound src)
    (hlex : lexeme s.cursor.rest = ⟨.token .openParen, 1⟩) :
    FollowsRules s (s.parenAlone openParens) :=
  ⟨hlex.symm, rfl, hsound⟩

theorem nextParen_followsRules {b : UInt8} {bs : List UInt8} (hm : s.openParens.Sound src)
    (hr : s.cursor.rest = b :: bs) (ho : Opening.ofByte b = .paren) :
    Yields s.nextParen (FollowsRules s) := by
  have hle : (s.cursor.advance 1).pos ≤ src.size := Cursor.lt_size_of_rest hr
  have hlex : lexeme s.cursor.rest = enclosed .bracket 1 (group 0 bs) := by
    simp only [hr, lexeme, ho]
  have hscan := Cursor.scanGroup_ending [] hle
  rw [Cursor.rest_advance_one hr, List.length_nil] at hscan
  generalize group 0 bs = found at hlex hscan
  obtain ⟨ending, n⟩ := found
  -- Wherever the search ends, it ends `n` bytes behind the parenthesis.
  have hcursor {c : Cursor src} (hpos : c.pos = (s.cursor.advance 1).pos + n) :
      c = s.cursor.advance (1 + n) := by
    rw [← Cursor.advance_advance]
    cases c
    cases hpos
    rfl
  have hsound := OpenParens.sound_lookup hm s.pos
  unfold nextParen
  split
  next known openParens hlookup =>
    rw [hlookup] at hsound
    split
    · next hknown =>
        have hmem : s.pos ∈ s.openParens.offsets := by
          apply OpenParens.lookup_fst_mem
          rw [hlookup]
          exact hknown
        obtain ⟨quote, opened, habort⟩ := hm s.pos hmem
        cases congrArg Prod.fst (hscan.of_eq_ok habort)
        exact yields_pure (followsRules_parenAlone hsound hlex)
    · apply yields_bind hscan
      intro r hr' hgroup
      cases r with
      | closed c =>
          have hc : c = s.cursor.advance (1 + n) := hcursor (congrArg Prod.snd hgroup)
          subst hc
          cases congrArg Prod.fst hgroup
          exact yields_pure (followsRules_upTo rfl hsound hlex)
      | quoted quote opened =>
          cases congrArg Prod.fst hgroup
          exact yields_pure (followsRules_parenAlone (OpenParens.sound_ofInnermostFirst hr') hlex)
      | missing c =>
          have hc : c = s.cursor.advance (1 + n) := hcursor (congrArg Prod.snd hgroup)
          subst hc
          cases congrArg Prod.fst hgroup
          exact yields_pure (followsRules_upTo rfl hsound hlex)

theorem nextSlash_followsRules {b : UInt8} {bs : List UInt8} (hm : s.openParens.Sound src)
    (hr : s.cursor.rest = b :: bs) (ho : Opening.ofByte b = .slash) :
    Yields s.nextSlash (FollowsRules s) := by
  have hlt := Cursor.lt_size_of_rest hr
  simp only [nextSlash, Cursor.peek_of_rest hr, bind, Except.bind]
  by_cases hstar : bs.head? = some Byte.star
  · obtain ⟨ds, rfl⟩ : ∃ ds, bs = Byte.star :: ds := List.head?_eq_some_iff.mp hstar
    have hrest : (s.cursor.advance 2).rest = ds := by
      rw [Cursor.rest_advance, hr]
      rfl
    have hle : (s.cursor.advance 2).pos ≤ src.size := by
      apply Cursor.advance_pos_le (Nat.le_of_lt hlt)
      rw [hr]
      exact Nat.succ_le_succ (Nat.succ_le_succ (Nat.zero_le _))
    have hlex : lexeme s.cursor.rest = enclosed .comment 2 (comment ds) := by
      simp only [hr, lexeme, ho, List.head?_cons, if_true, List.tail_cons]
    rw [List.head?_cons, Option.getD_some, if_pos rfl, Cursor.skipPastCommentEnd_eq hle, hrest,
      Cursor.advance_advance]
    have hquoted := comment_ne_quoted ds
    generalize comment ds = found at hlex hquoted
    obtain ⟨ending, n⟩ := found
    cases ending with
    | closed => exact yields_pure (followsRules_upTo rfl hm hlex)
    | quoted => exact absurd rfl hquoted
    | missing => exact yields_pure (followsRules_upTo rfl hm hlex)
  · have hlex : lexeme s.cursor.rest = ⟨.token .word, charLength s.cursor.rest⟩ := by
      simp only [hr, lexeme, ho, if_neg hstar]
    rw [if_neg (fun h => hstar ((Cursor.head?_getD_eq_iff (by decide)).mp h)),
      Cursor.advanceChar_eq (Nat.le_of_lt hlt)]
    exact yields_pure (followsRules_upTo rfl hm hlex)

theorem nextQuote_followsRules {b : UInt8} {bs : List UInt8} {quote : UInt8}
    (hm : s.openParens.Sound src) (hr : s.cursor.rest = b :: bs)
    (ho : Opening.ofByte b = .quote quote) : Yields (s.nextQuote quote) (FollowsRules s) := by
  have hlex : lexeme s.cursor.rest = enclosed .string 1 (string quote bs) := by
    simp only [hr, lexeme, ho]
  unfold nextQuote
  rw [Cursor.skipString_eq (c := s.cursor.advance 1) (Cursor.lt_size_of_rest hr),
    Cursor.rest_advance_one hr, Cursor.advance_advance]
  have hquoted := string_ne_quoted quote bs
  generalize string quote bs = found at hlex hquoted
  obtain ⟨ending, n⟩ := found
  cases ending with
  | closed => exact yields_pure (followsRules_upTo rfl hm hlex)
  | quoted => exact absurd rfl hquoted
  | missing => exact yields_pure (followsRules_upTo rfl hm hlex)

theorem nextZero_followsRules_of_nil (h : s.pos ≤ src.size) (hm : s.openParens.Sound src)
    (hr : s.cursor.rest = []) : Yields s.nextZero (FollowsRules s) := by
  have hend : s.atEnd = .ok true := by
    rw [atEnd, Cursor.atEnd_eq h, hr]
    rfl
  simp only [nextZero, hend, bind, Except.bind, if_true]
  exact yields_pure ⟨by rw [hr]; rfl, rfl, hm⟩

theorem nextZero_followsRules {b : UInt8} {bs : List UInt8} (hm : s.openParens.Sound src)
    (hr : s.cursor.rest = b :: bs) (ho : Opening.ofByte b = .zero) :
    Yields s.nextZero (FollowsRules s) := by
  have hle := Nat.le_of_lt (Cursor.lt_size_of_rest hr)
  have hend : s.atEnd = .ok false := by
    rw [atEnd, Cursor.atEnd_eq hle, hr]
    rfl
  have hlex : lexeme s.cursor.rest = ⟨.token .word, charLength s.cursor.rest⟩ := by
    simp only [hr, lexeme, ho]
  simp only [nextZero, hend, bind, Except.bind, Bool.false_eq_true, if_false,
    Cursor.advanceChar_eq hle]
  exact yields_pure (followsRules_upTo rfl hm hlex)

/-- **A scanner with a sound memo gives the lexemes of the byte rules.** -/
theorem next_followsRules (h : s.pos ≤ src.size) (hm : s.openParens.Sound src) :
    Yields s.next (FollowsRules s) := by
  cases hr : s.cursor.rest with
  | nil =>
      simp only [next, Cursor.current_of_rest_nil h hr, bind, Except.bind, Opening.ofByte_zero]
      exact nextZero_followsRules_of_nil h hm hr
  | cons b bs =>
      have hle := Nat.le_of_lt (Cursor.lt_size_of_rest hr)
      have hle1 : (s.cursor.advance 1).pos ≤ src.size := Cursor.lt_size_of_rest hr
      simp only [next, Cursor.current_of_rest hr, bind, Except.bind]
      cases ho : Opening.ofByte b with
      | zero => exact nextZero_followsRules hm hr ho
      | blank =>
          rw [Cursor.skipBlanks_eq hle]
          exact yields_pure (followsRules_upTo rfl hm (by simp only [hr, lexeme, ho]))
      | atWord =>
          rw [Cursor.skipWord_eq hle1, Cursor.rest_advance_one hr, Cursor.advance_advance]
          exact yields_pure (followsRules_upTo rfl hm (by simp only [hr, lexeme, ho]))
      | quote quote => exact nextQuote_followsRules hm hr ho
      | slash => exact nextSlash_followsRules hm hr ho
      | paren => exact nextParen_followsRules hm hr ho
      | mark kind => exact yields_pure (followsRules_upTo rfl hm (by simp only [hr, lexeme, ho]))
      | word =>
          rw [Cursor.skipWord_eq hle]
          exact yields_pure (followsRules_upTo rfl hm (by simp only [hr, lexeme, ho]))
      | stray =>
          rw [Cursor.advanceChar_eq hle]
          exact yields_pure (followsRules_upTo rfl hm (by simp only [hr, lexeme, ho]))

end CssTokens.Scanner
