import CssTokens.Proofs.ByteRules
import CssTokens.Proofs.Utf8Encoding
import CssTokens.Scanner.Progress

/-!
# CssTokens.Proofs.LexemeShape — where a lexeme begins and where it stops

Behind a lexeme a character begins, or the text is over (`lexeme_encoded`).  Words and searches look
at single bytes, also at those inside of a character; but what stops a word or ends a construct is an
ASCII byte, and that is a character of its own.  Only the escapes that take a character along and the
characters that are words by themselves need the width of a character (`charLength_encoded`).

Where a byte is left there is a lexeme, of one byte at least and of no more than there are
(`lexeme_takes`).  It is tagged as unclosed exactly if the bytes are `Unfinished`: the opening
delimiter stands at their front and the closing one is missing.  It then reaches to the end of the
text (`unfinished_of_tag`, `lexeme_of_unfinished`).
-/

namespace CssTokens

set_option autoImplicit false

namespace Opening

/-- Whether a byte is one that can begin what an opening says. -/
def fits (b : UInt8) : Opening → Bool
  | .quote q => q == b && Byte.isQuote b
  | .slash => b == Byte.slash
  | .paren => b == Byte.openParen
  | .word => true
  | _ => b < 0x80

theorem ofByte_fits (b : UInt8) : fits b (ofByte b) = true := by
  refine Byte.forall_of_fin (P := fun b => fits b (ofByte b) = true) ?_ b
  decide +kernel

variable {b : UInt8}

theorem fits_of_ofByte {o : Opening} (h : ofByte b = o) : fits b o = true := by
  rw [← h]
  exact ofByte_fits b

theorem eq_of_ofByte_quote {quote : UInt8} (h : ofByte b = .quote quote) :
    b = quote ∧ Byte.isQuote quote = true := by
  obtain ⟨hsame, hquote⟩ := (Bool.and_eq_true _ _).mp (fits_of_ofByte h)
  have hsame : quote = b := beq_iff_eq.mp hsame
  rw [hsame]
  exact ⟨rfl, hquote⟩

theorem eq_of_ofByte_slash (h : ofByte b = .slash) : b = Byte.slash :=
  beq_iff_eq.mp (fits_of_ofByte h)

theorem eq_of_ofByte_paren (h : ofByte b = .paren) : b = Byte.openParen :=
  beq_iff_eq.mp (fits_of_ofByte h)

theorem lt_of_ofByte_atWord (h : ofByte b = .atWord) : b < 0x80 :=
  of_decide_eq_true (fits_of_ofByte h)

theorem lt_of_ofByte_mark {kind : Kind} (h : ofByte b = .mark kind) : b < 0x80 :=
  of_decide_eq_true (fits_of_ofByte h)

theorem ofByte_of_isQuote (h : Byte.isQuote b = true) : ofByte b = .quote b := by
  simp only [Byte.isQuote, Bool.or_eq_true, beq_iff_eq] at h
  rcases h with rfl | rfl
  · rfl
  · rfl

theorem ofByte_of_isWordStart (h : Byte.isWordStart b = true) : ofByte b = .word := by
  revert h
  refine Byte.forall_of_fin (P := fun b => Byte.isWordStart b = true → ofByte b = .word) ?_ b
  decide +kernel

end Opening

namespace ByteRules

open Utf8

/-! ## Bytes that stop something -/

theorem lt_of_endsWord {b : UInt8} (h : Byte.endsWord b = true) : b < 0x80 := by
  revert h
  refine Byte.forall_of_fin (P := fun b => Byte.endsWord b = true → b < 0x80) ?_ b
  decide +kernel

theorem lt_of_isBlank {b : UInt8} (h : Byte.isBlank b = true) : b < 0x80 := by
  apply lt_of_endsWord
  simp only [Byte.endsWord, h, Bool.true_or]

theorem lt_of_isQuote {b : UInt8} (h : Byte.isQuote b = true) : b < 0x80 := by
  apply lt_of_endsWord
  simp only [Byte.endsWord, h, Bool.or_true, Bool.true_or]

/-- A byte at which a word stops is ASCII. -/
theorem lt_of_unitLength_zero {b : UInt8} {bs : List UInt8} (h : unitLength (b :: bs) = 0) :
    b < 0x80 := by
  simp only [unitLength] at h
  by_cases hback : b = Byte.backslash
  · rw [if_pos hback] at h
    omega
  · rw [if_neg hback] at h
    by_cases hslash : b = Byte.slash
    · rw [hslash]
      decide
    · rw [if_neg hslash] at h
      apply lt_of_endsWord
      by_cases hends : Byte.endsWord b = true
      · exact hends
      · rw [if_neg hends] at h
        cases h

/-! ## Encoded bytes behind a lexeme -/

theorem charLength_encoded {bs : List UInt8} (h : Encoded bs) :
    Encoded (bs.drop (charLength bs)) := by
  cases bs with
  | nil => exact h
  | cons b bs =>
      obtain ⟨ds, rest, rfl, hlead, -, hrest⟩ := h.uncons
      have hlen : charLength (b :: (ds ++ rest)) = ds.length + 1 := by
        show min (width b) ((ds ++ rest).length + 1) = ds.length + 1
        rw [hlead.1, List.length_append]
        omega
      rw [hlen, List.drop_succ_cons, List.drop_left]
      exact hrest

theorem blanks_encoded {bs : List UInt8} (h : Encoded bs) :
    Encoded (bs.drop (bs.takeWhile Byte.isBlank).length) := by
  induction bs with
  | nil => exact h
  | cons b bs ih =>
      by_cases hb : Byte.isBlank b = true
      · rw [List.takeWhile_cons_of_pos hb, List.length_cons, List.drop_succ_cons]
        exact ih (h.tail (lt_of_isBlank hb))
      · rw [List.takeWhile_cons_of_neg hb]
        exact h

/-- A word goes on as long as there are units. -/
theorem unitLength_drop_wordLength (bs : List UInt8) : unitLength (bs.drop (wordLength bs)) = 0 := by
  fun_induction wordLength bs with
  | case1 bs h => exact h
  | case2 bs h ih =>
      rw [List.drop_drop] at ih
      exact ih

/-- A word ends where a character begins, even if it begins inside one. -/
theorem wordLength_drop_encoded {bs : List UInt8} (h : Encoded bs) (n : Nat) :
    Encoded (bs.drop (n + wordLength (bs.drop n))) := by
  apply h.drop
  intro d hd
  rw [← List.getElem?_drop] at hd
  obtain ⟨hlt, hget⟩ := List.getElem?_eq_some_iff.mp hd
  have hunit := unitLength_drop_wordLength (bs.drop n)
  rw [List.drop_eq_getElem_cons hlt, hget] at hunit
  exact (leads_of_lt (lt_of_unitLength_zero hunit)).2

theorem wordLength_encoded {bs : List UInt8} (h : Encoded bs) :
    Encoded (bs.drop (wordLength bs)) := by
  have hdrop := wordLength_drop_encoded h 0
  rwa [List.drop_zero, Nat.zero_add] at hdrop

/-- Where the search for an ASCII delimiter ends, a character begins. -/
theorem enclosed_encoded (pre : List UInt8) {construct : Unclosed} {close : UInt8}
    {bs : List UInt8} {found : Ending × Nat} (h : Encoded bs) (hc : close < 0x80)
    (hr : Reaches close bs found) :
    Encoded ((pre ++ bs).drop (enclosed construct pre.length found).length) := by
  obtain ⟨ending, k⟩ := found
  cases ending with
  | closed =>
      obtain ⟨m, rfl, hm⟩ := hr
      rw [enclosed, List.drop_append, List.drop_of_length_le (Nat.le_add_right _ _),
        Nat.add_sub_cancel_left, List.nil_append]
      exact h.drop_succ hm hc
  | quoted =>
      rw [enclosed, List.drop_left]
      exact h
  | missing =>
      have hk : k = bs.length := hr
      rw [enclosed, hk, ← List.length_append, List.drop_length]
      exact encoded_nil

/-- **Behind the lexeme of encoded bytes the bytes are encoded again.** -/
theorem lexeme_encoded {bs : List UInt8} (h : Encoded bs) :
    Encoded (bs.drop (lexeme bs).length) := by
  cases bs with
  | nil => exact h
  | cons b bs =>
      cases ho : Opening.ofByte b with
      | zero =>
          simp only [lexeme, ho]
          exact charLength_encoded h
      | blank =>
          simp only [lexeme, ho]
          exact blanks_encoded h
      | atWord =>
          simp only [lexeme, ho]
          rw [Nat.add_comm, List.drop_succ_cons]
          exact wordLength_encoded (h.tail (Opening.lt_of_ofByte_atWord ho))
      | quote quote =>
          obtain ⟨rfl, hquote⟩ := Opening.eq_of_ofByte_quote ho
          have hlt := lt_of_isQuote hquote
          simp only [lexeme, ho]
          exact enclosed_encoded [b] (h.tail hlt) hlt (string_reaches b bs)
      | slash =>
          obtain rfl := Opening.eq_of_ofByte_slash ho
          simp only [lexeme, ho]
          by_cases hstar : bs.head? = some Byte.star
          · obtain ⟨ds, rfl⟩ := List.head?_eq_some_iff.mp hstar
            have hds : Encoded ds := (h.tail (by decide)).tail (by decide)
            rw [if_pos hstar]
            exact enclosed_encoded [Byte.slash, Byte.star] hds (by decide) (comment_reaches ds)
          · rw [if_neg hstar]
            exact charLength_encoded h
      | paren =>
          obtain rfl := Opening.eq_of_ofByte_paren ho
          simp only [lexeme, ho]
          exact enclosed_encoded [Byte.openParen] (h.tail (by decide)) (by decide)
            (group_reaches 0 bs)
      | mark kind =>
          simp only [lexeme, ho]
          exact h.tail (Opening.lt_of_ofByte_mark ho)
      | word =>
          simp only [lexeme, ho]
          exact wordLength_encoded h
      | stray =>
          simp only [lexeme, ho]
          exact charLength_encoded h

/-! ## The length of a lexeme -/

/-- A lexeme other than the end that takes at least one byte and at most `n`. -/
structure Takes (l : Lexeme) (n : Nat) : Prop where
  tag_ne : l.tag ≠ .finish
  pos : 0 < l.length
  le : l.length ≤ n

theorem takes_token {kind : Kind} {length n : Nat} (hpos : 0 < length) (hle : length ≤ n) :
    Takes ⟨.token kind, length⟩ n :=
  ⟨nofun, hpos, hle⟩

/-- What an opening delimiter begins takes at least the delimiter. -/
theorem takes_enclosed (construct : Unclosed) {n : Nat} {close : UInt8} {bs : List UInt8}
    {found : Ending × Nat} (hn : 0 < n) (hr : Reaches close bs found) :
    Takes (enclosed construct n found) (n + bs.length) := by
  have hle := hr.le
  obtain ⟨ending, k⟩ := found
  have hpos : 0 < n + k := Nat.lt_of_lt_of_le hn (Nat.le_add_right n k)
  cases ending with
  | closed => exact ⟨nofun, hpos, Nat.add_le_add_left hle n⟩
  | quoted => exact ⟨nofun, hn, Nat.le_add_right n _⟩
  | missing => exact ⟨nofun, hpos, Nat.add_le_add_left hle n⟩

theorem unitLength_of_isWordStart {b : UInt8} (bs : List UInt8) (h : Byte.isWordStart b = true) :
    unitLength (b :: bs) ≠ 0 := by
  obtain ⟨hslash, -, hends⟩ := Byte.not_endsWord_of_isWordStart b h
  simp only [unitLength, if_neg hslash, hends]
  by_cases hback : b = Byte.backslash
  · rw [if_pos hback]
    omega
  · rw [if_neg hback]
    exact Nat.one_ne_zero

/-- Where a byte is left there is a lexeme, and it takes no more than there is. -/
theorem lexeme_takes (b : UInt8) (bs : List UInt8) :
    Takes (lexeme (b :: bs)) (b :: bs).length := by
  have hchar : Takes ⟨.token .word, charLength (b :: bs)⟩ (b :: bs).length :=
    takes_token (charLength_pos b bs) (charLength_le _)
  cases ho : Opening.ofByte b with
  | zero =>
      simp only [lexeme, ho]
      exact hchar
  | blank =>
      simp only [lexeme, ho]
      apply takes_token
      · rw [List.takeWhile_cons_of_pos (Opening.isBlank_of_ofByte ho)]
        exact Nat.succ_pos _
      · exact (List.takeWhile_prefix _).length_le
  | atWord =>
      have hle := wordLength_le bs
      simp only [lexeme, ho]
      apply takes_token
      · omega
      · rw [List.length_cons]
        omega
  | quote quote =>
      simp only [lexeme, ho]
      rw [List.length_cons, Nat.add_comm]
      exact takes_enclosed .string Nat.one_pos (string_reaches quote bs)
  | slash =>
      simp only [lexeme, ho]
      by_cases hstar : bs.head? = some Byte.star
      · obtain ⟨ds, rfl⟩ := List.head?_eq_some_iff.mp hstar
        rw [if_pos hstar, List.length_cons, List.length_cons, Nat.add_assoc, Nat.add_comm]
        exact takes_enclosed .comment (Nat.succ_pos 1) (comment_reaches ds)
      · rw [if_neg hstar]
        exact hchar
  | paren =>
      simp only [lexeme, ho]
      rw [List.length_cons, Nat.add_comm]
      exact takes_enclosed .bracket Nat.one_pos (group_reaches 0 bs)
  | mark kind =>
      simp only [lexeme, ho]
      exact takes_token Nat.one_pos (Nat.succ_le_succ (Nat.zero_le _))
  | word =>
      have hunit := unitLength_of_isWordStart bs (Opening.isWordStart_of_ofByte ho)
      simp only [lexeme, ho]
      apply takes_token
      · rw [wordLength_of_unit hunit]
        omega
      · exact wordLength_le _
  | stray =>
      simp only [lexeme, ho]
      exact hchar

/-! ## Constructs without their closing delimiter -/

/-- The bytes begin with the opening delimiter of a construct, and the closing one is missing. -/
inductive Unfinished : Unclosed → List UInt8 → Prop where
  | string {quote : UInt8} {bs : List UInt8} (hquote : Byte.isQuote quote = true)
      (h : (string quote bs).1 = .missing) : Unfinished .string (quote :: bs)
  | comment {bs : List UInt8} (h : (comment bs).1 = .missing) :
      Unfinished .comment (Byte.slash :: Byte.star :: bs)
  | bracket {bs : List UInt8} (h : (group 0 bs).1 = .missing) :
      Unfinished .bracket (Byte.openParen :: bs)

theorem enclosed_tag_unclosed {construct construct' : Unclosed} {n : Nat} {found : Ending × Nat}
    (h : (enclosed construct n found).tag = .unclosed construct') :
    construct = construct' ∧ found.1 = .missing := by
  obtain ⟨ending, k⟩ := found
  cases ending with
  | closed => cases h
  | quoted => cases h
  | missing =>
      cases h
      exact ⟨rfl, rfl⟩

theorem unfinished_of_tag {bs : List UInt8} {construct : Unclosed}
    (h : (lexeme bs).tag = .unclosed construct) : Unfinished construct bs := by
  cases bs with
  | nil => cases h
  | cons b bs =>
      cases ho : Opening.ofByte b with
      | quote quote =>
          obtain ⟨rfl, hquote⟩ := Opening.eq_of_ofByte_quote ho
          simp only [lexeme, ho] at h
          obtain ⟨rfl, hmissing⟩ := enclosed_tag_unclosed h
          exact .string hquote hmissing
      | slash =>
          obtain rfl := Opening.eq_of_ofByte_slash ho
          simp only [lexeme, ho] at h
          by_cases hstar : bs.head? = some Byte.star
          · obtain ⟨ds, rfl⟩ := List.head?_eq_some_iff.mp hstar
            rw [if_pos hstar] at h
            obtain ⟨rfl, hmissing⟩ := enclosed_tag_unclosed h
            exact .comment hmissing
          · rw [if_neg hstar] at h
            cases h
      | paren =>
          obtain rfl := Opening.eq_of_ofByte_paren ho
          simp only [lexeme, ho] at h
          obtain ⟨rfl, hmissing⟩ := enclosed_tag_unclosed h
          exact .bracket hmissing
      | zero => simp [lexeme, ho] at h
      | blank => simp [lexeme, ho] at h
      | atWord => simp [lexeme, ho] at h
      | mark kind => simp [lexeme, ho] at h
      | word => simp [lexeme, ho] at h
      | stray => simp [lexeme, ho] at h

/-- The lexeme of a construct without its closing delimiter reaches to the end of the text. -/
theorem lexeme_of_unfinished {bs : List UInt8} {construct : Unclosed}
    (h : Unfinished construct bs) : lexeme bs = ⟨.unclosed construct, bs.length⟩ := by
  have hmissing {n : Nat} {close : UInt8} {bs : List UInt8} {found : Ending × Nat}
      (hm : found.1 = .missing) (hr : Reaches close bs found) :
      enclosed construct n found = ⟨.unclosed construct, n + bs.length⟩ := by
    obtain ⟨ending, k⟩ := found
    cases hm
    have hk : k = bs.length := hr
    rw [enclosed, hk]
  cases h with
  | @string quote bs hquote hm =>
      have ho : Opening.ofByte quote = .quote quote := by
        rw [Byte.isQuote, Bool.or_eq_true, beq_iff_eq, beq_iff_eq] at hquote
        rcases hquote with rfl | rfl <;> rfl
      simp only [lexeme, ho]
      rw [hmissing hm (string_reaches quote bs), List.length_cons, Nat.add_comm]
  | @comment bs hm =>
      have hstart : lexeme (Byte.slash :: Byte.star :: bs) = enclosed .comment 2 (comment bs) := rfl
      rw [hstart, hmissing hm (comment_reaches bs), List.length_cons, List.length_cons, Nat.add_comm]
  | @bracket bs hm =>
      have hstart : lexeme (Byte.openParen :: bs) = enclosed .bracket 1 (group 0 bs) := rfl
      rw [hstart, hmissing hm (group_reaches 0 bs), List.length_cons, Nat.add_comm]

/-- The texts that open a construct. -/
def openers : Unclosed → List String
  | .string => ["\"", "'"]
  | .comment => ["/*"]
  | .bracket => ["("]

theorem Unfinished.opener {bs : List UInt8} {construct : Unclosed} (h : Unfinished construct bs) :
    ∃ opener ∈ openers construct, bytes opener <+: bs := by
  cases h with
  | @string quote bs hquote hm =>
      rw [Byte.isQuote, Bool.or_eq_true, beq_iff_eq, beq_iff_eq] at hquote
      rcases hquote with rfl | rfl
      · exact ⟨"\"", by decide, ⟨bs, rfl⟩⟩
      · exact ⟨"'", by decide, ⟨bs, rfl⟩⟩
  | @comment bs hm => exact ⟨"/*", by decide, ⟨bs, rfl⟩⟩
  | @bracket bs hm => exact ⟨"(", by decide, ⟨bs, rfl⟩⟩

end ByteRules

end CssTokens
