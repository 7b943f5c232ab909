import CssTokens.Proofs.LexemeShape

/-!
# CssTokens.Proofs.LexemeAppend — what more text can change about a lexeme

A rule that stops before the end of the bytes has looked at one byte behind where it stops, or at none.
So what is appended to the bytes does not matter to it: its length is `Settled`.  That holds of each
rule that words are made of, and of a rule followed by another (`Settled.andThen`).  The search for a
closing delimiter looks at nothing behind the delimiter, wherever that stands.

A lexeme is therefore the same in a longer text if something is left behind it, or if it is closed by a
byte of its own (`lexeme_append`).  What may change are words and blanks at the end of the text, and
constructs without their end.
-/

namespace CssTokens

set_option autoImplicit false

/-- Whether a token of a kind is closed by its last byte. -/
def Kind.isClosed : Kind → Bool
  | .space | .word | .atWord | .openParen => false
  | .string | .comment | .brackets => true
  | .closeParen | .openSquare | .closeSquare | .openCurly | .closeCurly | .colon | .semicolon => true

namespace ByteRules

variable {bs : List UInt8}

/-! ## Lengths -/

/-- A length counted from the front of the bytes that more bytes behind them do not change, unless it
takes them all. -/
def Settled (rule : List UInt8 → Nat) : Prop :=
  ∀ bs ts, rule bs < bs.length → rule (bs ++ ts) = rule bs

theorem Settled.andThen {first second : List UInt8 → Nat} (hfirst : Settled first)
    (hsecond : Settled second) : Settled fun bs => first bs + second (bs.drop (first bs)) := by
  intro bs ts h
  have hsum : first bs + second (bs.drop (first bs)) < bs.length := h
  have hlt : first bs < bs.length := Nat.lt_of_le_of_lt (Nat.le_add_right _ _) h
  have hrest : second (bs.drop (first bs)) < (bs.drop (first bs)).length := by
    rw [List.length_drop]
    omega
  simp only [hfirst bs ts hlt, List.drop_append_of_le_length (Nat.le_of_lt hlt),
    hsecond _ ts hrest]

theorem settled_charLength : Settled charLength := by
  intro bs ts h
  cases bs with
  | nil => cases h
  | cons b bs =>
      simp only [charLength, List.length_cons, List.cons_append, List.length_append] at h ⊢
      omega

theorem settled_hexLength (n : Nat) : Settled (hexLength n) := by
  intro bs ts h
  induction n generalizing bs with
  | zero => rfl
  | succ n ih =>
      cases bs with
      | nil => cases h
      | cons b bs =>
          simp only [hexLength, List.cons_append, List.length_cons] at h ⊢
          by_cases hb : Byte.isHexDigit b = true
          · rw [if_pos hb] at h
            rw [if_pos hb, if_pos hb, ih bs (by omega)]
          · rw [if_neg hb, if_neg hb]

/-- Where a byte is left, what follows a byte is decided. -/
theorem head?_append_of_lt (h : 1 < bs.length + 1) (ts : List UInt8) :
    (bs ++ ts).head? = bs.head? := by
  cases bs with
  | nil => exact absurd h (Nat.lt_irrefl 1)
  | cons b bs => rfl

theorem head?_append_of_head? {b : UInt8} (h : bs.head? = some b) (ts : List UInt8) :
    (bs ++ ts).head? = some b := by
  rw [List.head?_append, h, Option.some_or]

theorem settled_blankLength : Settled blankLength := by
  intro bs ts h
  cases bs with
  | nil => cases h
  | cons b bs =>
      simp only [blankLength, List.cons_append, List.length_cons] at h ⊢
      by_cases hcr : b = Byte.carriageReturn
      · rw [if_pos hcr] at h
        have hlt : 1 < bs.length + 1 := by
          split at h
          · exact Nat.lt_of_succ_lt h
          · exact h
        rw [head?_append_of_lt hlt]
      · rw [if_neg hcr, if_neg hcr]

theorem settled_escapeLength : Settled escapeLength := by
  intro bs ts h
  cases bs with
  | nil => cases h
  | cons b bs =>
      rw [escapeLength] at h
      rw [List.cons_append, escapeLength, escapeLength]
      by_cases hb : Byte.isHexDigit b = true
      · rw [if_pos hb] at h
        rw [if_pos hb, if_pos hb]
        exact (settled_hexLength Cursor.maxHexDigits).andThen settled_blankLength (b :: bs) ts h
      · rw [if_neg hb] at h
        rw [if_neg hb, if_neg hb]
        exact settled_charLength (b :: bs) ts h

theorem settled_unitLength : Settled unitLength := by
  intro bs ts h
  cases bs with
  | nil => cases h
  | cons b bs =>
      rw [unitLength, List.length_cons] at h
      rw [List.cons_append, unitLength, unitLength]
      by_cases hback : b = Byte.backslash
      · rw [if_pos hback] at h
        rw [if_pos hback, if_pos hback, settled_escapeLength bs ts (by omega)]
      rw [if_neg hback] at h
      rw [if_neg hback, if_neg hback]
      by_cases hslash : b = Byte.slash
      · rw [if_pos hslash] at h
        rw [if_pos hslash, if_pos hslash]
        by_cases hstar : bs.head? = some Byte.star
        · rw [if_pos hstar, if_pos (head?_append_of_head? hstar ts)]
        · rw [if_neg hstar] at h
          rw [head?_append_of_lt h]
      · rw [if_neg hslash, if_neg hslash]

theorem settled_wordLength : Settled wordLength := by
  intro bs ts h
  fun_induction wordLength bs with
  | case1 bs hzero => exact wordLength_of_unit_zero ((settled_unitLength bs ts (hzero ▸ h)).trans hzero)
  | case2 bs hunit ih =>
      have hlt : unitLength bs < bs.length := Nat.lt_of_le_of_lt (Nat.le_add_right _ _) h
      have hsame := settled_unitLength bs ts hlt
      have hrest := ih (by rw [List.length_drop]; omega)
      rw [wordLength_of_unit (hsame ▸ hunit), hsame, List.drop_append_of_le_length (Nat.le_of_lt hlt),
        hrest]

theorem settled_blanks : Settled fun bs => (bs.takeWhile Byte.isBlank).length := by
  intro bs ts h
  have hne : (bs.takeWhile Byte.isBlank).length ≠ bs.length := Nat.ne_of_lt h
  simp only [List.takeWhile_append, if_neg hne]

/-! ## Searches for a closing delimiter -/

/-- An escaped character is not the last thing before the end of the bytes if something is found behind
it. -/
theorem char_append (h : bs.drop (charLength bs) ≠ []) (ts : List UInt8) :
    charLength (bs ++ ts) = charLength bs ∧
      (bs ++ ts).drop (charLength bs) = bs.drop (charLength bs) ++ ts := by
  have hlt : charLength bs < bs.length :=
    Nat.lt_of_not_le fun hle => h (List.drop_eq_nil_of_le hle)
  exact ⟨settled_charLength bs ts hlt, List.drop_append_of_le_length (Nat.le_of_lt hlt)⟩

theorem string_append_of_found {quote : UInt8} (h : (string quote bs).1 ≠ .missing)
    (ts : List UInt8) : string quote (bs ++ ts) = string quote bs := by
  fun_induction string quote bs with
  | case1 => exact absurd rfl h
  | case2 bs ih =>
      have hne : bs.drop (charLength bs) ≠ [] := by
        intro hnil
        rw [hnil] at h
        exact h (by rw [string]; rfl)
      obtain ⟨hlen, hdrop⟩ := char_append hne ts
      rw [List.cons_append, string, if_pos rfl, hlen, hdrop, ih h]
  | case3 bs hback => rw [List.cons_append, string, if_neg hback, if_pos rfl]
  | case4 b bs hback hquote ih =>
      rw [List.cons_append, string, if_neg hback, if_neg hquote, ih h]

theorem comment_append_of_found (h : (comment bs).1 ≠ .missing) (ts : List UInt8) :
    comment (bs ++ ts) = comment bs := by
  fun_induction comment bs with
  | case1 => exact absurd rfl h
  | case2 b bs hend =>
      rw [List.cons_append, comment, if_pos ⟨hend.1, head?_append_of_head? hend.2 ts⟩]
  | case3 b bs hend ih =>
      have hlt : 1 < bs.length + 1 := by
        cases bs with
        | nil => exact absurd rfl h
        | cons d bs => exact Nat.succ_lt_succ (Nat.succ_pos _)
      rw [List.cons_append, comment, head?_append_of_lt hlt, if_neg hend, ih h]

theorem group_append_of_found {depth : Nat} (h : (group depth bs).1 ≠ .missing) (ts : List UInt8) :
    group depth (bs ++ ts) = group depth bs := by
  fun_induction group depth bs with
  | case1 => exact absurd rfl h
  | case2 depth b bs hq => rw [List.cons_append, group_cons, if_pos hq]
  | case3 depth bs hq ih =>
      have hne : bs.drop (charLength bs) ≠ [] := by
        intro hnil
        rw [hnil] at h
        exact h (by rw [group]; rfl)
      obtain ⟨hlen, hdrop⟩ := char_append hne ts
      rw [List.cons_append, group_cons, if_neg hq, if_pos rfl, hlen, hdrop, ih h]
  | case4 depth bs hq hb ih =>
      rw [List.cons_append, group_cons, if_neg hq, if_neg hb, if_pos rfl, ih h]
  | case5 bs hq hb hp =>
      rw [List.cons_append, group_cons, if_neg hq, if_neg hb, if_neg hp, if_pos rfl]
  | case6 bs outer hq hb hp ih =>
      rw [List.cons_append, group_cons, if_neg hq, if_neg hb, if_neg hp, if_pos rfl]
      exact congrArg (behind 1) (ih h)
  | case7 depth b bs hq hb hp hc ih =>
      rw [List.cons_append, group_cons, if_neg hq, if_neg hb, if_neg hp, if_neg hc, ih h]

/-! ## Lexemes -/

/-- A lexeme of some bytes that more bytes do not change: something is left behind it, or it is closed
by its last byte. -/
def Decided (l : Lexeme) (n : Nat) : Prop :=
  l.length < n ∨ ∃ kind, l.tag = .token kind ∧ kind.isClosed = true

theorem Decided.lt {kind : Kind} {length n : Nat} (h : Decided ⟨.token kind, length⟩ n)
    (hkind : kind.isClosed = false) : length < n := by
  rcases h with hlt | ⟨kind, htag, hclosed⟩
  · exact hlt
  · cases htag
    cases hkind.symm.trans hclosed

theorem Decided.found {construct : Unclosed} {close : UInt8} {n : Nat} {found : Ending × Nat}
    (h : Decided (enclosed construct n found) (n + bs.length)) (hreaches : Reaches close bs found) :
    found.1 ≠ .missing := by
  intro hmissing
  have hlen := hreaches.length_of_missing hmissing
  obtain ⟨ending, k⟩ := found
  cases hmissing
  rcases h with hlt | ⟨kind, htag, -⟩
  · simp only [enclosed] at hlt hlen
    omega
  · cases htag

/-- **What is appended to the bytes does not change a lexeme that is decided.** -/
theorem lexeme_append (h : Decided (lexeme bs) bs.length) (ts : List UInt8) :
    lexeme (bs ++ ts) = lexeme bs := by
  cases bs with
  | nil =>
      rcases h with hlt | ⟨kind, htag, -⟩
      · cases hlt
      · cases htag
  | cons b bs =>
      rw [List.cons_append]
      have hchar (hd : Decided ⟨.token .word, charLength (b :: bs)⟩ (b :: bs).length) :
          charLength (b :: (bs ++ ts)) = charLength (b :: bs) :=
        settled_charLength (b :: bs) ts (hd.lt rfl)
      cases ho : Opening.ofByte b with
      | zero =>
          simp only [lexeme, ho] at h ⊢
          rw [hchar h]
      | blank =>
          simp only [lexeme, ho] at h ⊢
          rw [← List.cons_append]
          exact congrArg (Lexeme.mk _) (settled_blanks (b :: bs) ts (h.lt rfl))
      | atWord =>
          simp only [lexeme, ho] at h ⊢
          have hlt := h.lt rfl
          rw [List.length_cons] at hlt
          rw [settled_wordLength bs ts (by omega)]
      | quote quote =>
          simp only [lexeme, ho] at h ⊢
          rw [List.length_cons, Nat.add_comm] at h
          rw [string_append_of_found (h.found (string_reaches quote bs))]
      | slash =>
          simp only [lexeme, ho] at h ⊢
          by_cases hstar : bs.head? = some Byte.star
          · obtain ⟨ds, rfl⟩ := List.head?_eq_some_iff.mp hstar
            rw [if_pos hstar, List.tail_cons, List.length_cons, List.length_cons, Nat.add_assoc,
              Nat.add_comm] at h
            rw [if_pos hstar, if_pos (head?_append_of_head? hstar ts), List.cons_append,
              List.tail_cons, List.tail_cons,
              comment_append_of_found (h.found (comment_reaches ds))]
          · rw [if_neg hstar] at h
            have hlt : 1 < bs.length + 1 := Nat.lt_of_le_of_lt (charLength_pos b bs) (h.lt rfl)
            rw [head?_append_of_lt hlt, if_neg hstar, if_neg hstar, hchar h]
      | paren =>
          simp only [lexeme, ho] at h ⊢
          rw [List.length_cons, Nat.add_comm] at h
          rw [group_append_of_found (h.found (group_reaches 0 bs))]
      | mark kind => simp only [lexeme, ho]
      | word =>
          simp only [lexeme, ho] at h ⊢
          rw [← List.cons_append, settled_wordLength (b :: bs) ts (h.lt rfl)]
      | stray =>
          simp only [lexeme, ho] at h ⊢
          rw [hchar h]

end ByteRules

end CssTokens
