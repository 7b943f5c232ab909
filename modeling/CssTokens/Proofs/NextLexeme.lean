import CssTokens.Proofs.LexemeShape
import CssTokens.Proofs.ScannerRules

/-!
# CssTokens.Proofs.NextLexeme — what is remembered matters at parentheses only

The memo of a scanner is looked at where a parenthesis stands, and changed nowhere else.  So a scanner
that stands at another byte makes the step that it would make with any other memo (`next_withMemo`), and
what it finds is the lexeme of the byte rules even if the memo were wrong (`next_of_ne_openParen`).
-/

namespace CssTokens.Scanner

set_option autoImplicit false

open ByteRules Reading

variable {src : Source} {s s' : Scanner src} {l : Lexeme} {b : UInt8}

theorem upTo_withMemo (memo : OpenParens) {r : Reading (Cursor src)} {tag : Tag}
    (h : (r >>= fun c => pure (s.upTo tag c)) = .ok (l, s')) :
    (r >>= fun c => pure (({ s with openParens := memo } : Scanner src).upTo tag c)) =
      .ok (l, { s' with openParens := memo }) := by
  obtain ⟨c, rfl, hc⟩ := exists_of_bind h
  cases hc
  rfl

/-- Where no parenthesis stands, a step is the same with another memo. -/
theorem next_withMemo (memo : OpenParens) (hb : s.cursor.current = .ok b)
    (hparen : Opening.ofByte b ≠ .paren) (hnext : s.next = .ok (l, s')) :
    ({ s with openParens := memo } : Scanner src).next = .ok (l, { s' with openParens := memo }) := by
  simp only [next, hb, bind, Except.bind] at hnext ⊢
  cases ho : Opening.ofByte b with
  | zero =>
      simp only [ho] at hnext ⊢
      obtain ⟨ended, hended, hnext⟩ := exists_of_bind hnext
      simp only [nextZero, atEnd] at hended ⊢
      rw [hended]
      cases ended with
      | true =>
          cases hnext
          rfl
      | false => exact upTo_withMemo memo hnext
  | blank =>
      simp only [ho] at hnext
      exact upTo_withMemo memo hnext
  | atWord =>
      simp only [ho] at hnext
      exact upTo_withMemo memo hnext
  | quote quote =>
      simp only [ho] at hnext
      obtain ⟨⟨closed, c⟩, hc, hnext⟩ := exists_of_bind hnext
      simp only [nextQuote, hc]
      cases closed with
      | true =>
          cases hnext
          rfl
      | false =>
          cases hnext
          rfl
  | slash =>
      simp only [ho] at hnext
      obtain ⟨d, hd, hnext⟩ := exists_of_bind hnext
      simp only [nextSlash, hd]
      by_cases hstar : d = Byte.star
      · simp only [if_pos hstar] at hnext
        simp only [bind, Except.bind, if_pos hstar]
        cases hfound : (s.cursor.advance 2).skipPastCommentEnd with
        | mk closed c =>
            rw [hfound] at hnext
            cases closed with
            | true =>
                cases hnext
                rfl
            | false =>
                cases hnext
                rfl
      · simp only [if_neg hstar] at hnext
        simp only [bind, Except.bind, if_neg hstar]
        exact upTo_withMemo memo hnext
  | paren => exact absurd ho hparen
  | mark kind =>
      simp only [ho] at hnext
      cases hnext
      rfl
  | word =>
      simp only [ho] at hnext
      exact upTo_withMemo memo hnext
  | stray =>
      simp only [ho] at hnext
      exact upTo_withMemo memo hnext

/-- Only the step at a parenthesis changes the memo. -/
theorem openParens_of_next (hb : s.cursor.current = .ok b) (hparen : Opening.ofByte b ≠ .paren)
    (hnext : s.next = .ok (l, s')) : s'.openParens = s.openParens := by
  have hsame : s.next = .ok (l, { s' with openParens := s.openParens }) :=
    next_withMemo s.openParens hb hparen hnext
  rw [hnext] at hsame
  exact congrArg (fun r => r.2.openParens) (Except.ok.inj hsame)

/-- Every step keeps a sound memo sound, wherever it is made. -/
theorem sound_of_next (hm : s.openParens.Sound src) (hnext : s.next = .ok (l, s')) :
    s'.openParens.Sound src := by
  obtain ⟨b, hb, -⟩ := exists_of_bind hnext
  by_cases hparen : Opening.ofByte b = .paren
  · have hlt : s.pos < src.size := by
      apply Cursor.lt_size_of_current hb
      rw [Opening.eq_of_ofByte_paren hparen]
      decide
    exact ((next_followsRules (Nat.le_of_lt hlt) hm).of_eq_ok hnext).sound
  · rw [openParens_of_next hb hparen hnext]
    exact hm

/-- At a byte other than an opening parenthesis, whatever is remembered, the lexeme of the byte rules
is found, and the scanner goes on behind it. -/
theorem next_of_ne_openParen (h : s.pos ≤ src.size) (hb : s.cursor.current = .ok b)
    (hne : b ≠ Byte.openParen) :
    ∃ s', s.next = .ok (lexeme s.cursor.rest, s') ∧
      s'.pos = s.pos + (lexeme s.cursor.rest).length := by
  have hparen : Opening.ofByte b ≠ .paren := fun ho => hne (Opening.eq_of_ofByte_paren ho)
  obtain ⟨⟨l, fresh⟩, hnext, hrules⟩ :=
    next_followsRules (s := ofCursor s.cursor) h OpenParens.sound_empty
  have hlexeme : l = lexeme s.cursor.rest := hrules.lexeme_eq
  have hcursor : fresh.cursor = s.cursor.advance l.length := hrules.cursor_eq
  subst hlexeme
  exact ⟨_, next_withMemo (s := ofCursor s.cursor) s.openParens hb hparen hnext,
    congrArg Cursor.pos hcursor⟩

end CssTokens.Scanner
