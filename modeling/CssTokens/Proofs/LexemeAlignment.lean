import CssTokens.Proofs.GroupAlignment

/-!
# CssTokens.Proofs.LexemeAlignment — a search for the end of a group, lexeme by lexeme

A search that will come to a quote takes the bytes before the quote for opaque, and the lexemes there
are found without it.  At each lexeme the two stay `Aligned` (`aligned_lexeme`).  Either the lexeme
`Explains` the quote: it is a string that begins with it, or a comment that hides it.  Or the search
comes to the same quote from behind the lexeme, with parentheses open that were open before or that the
lexeme `Shows`.

There is one case for each way a lexeme may begin.  Words and comments are passed over by
`Cursor.scanGroup_word` and `Cursor.scanGroup_comment`; a closed group is passed over as a whole,
because the parentheses outside of it do not matter inside (`Cursor.scanGroup_append`).
-/

namespace CssTokens

set_option autoImplicit false

variable {src : Source}

namespace Opening

/-- Whether a byte that begins this does not matter in a group. -/
def plain : Opening → Bool
  | .zero | .blank | .atWord | .slash | .stray => true
  | .mark kind => kind != .closeParen
  | .quote _ | .paren | .word => false

theorem not_isGroupDelim_of_plain (b : UInt8) :
    plain (ofByte b) = true → Byte.isGroupDelim b = false := by
  refine Byte.forall_of_fin (P := fun b => plain (ofByte b) = true →
    Byte.isGroupDelim b = false) ?_ b
  decide +kernel

theorem eq_of_ofByte_closeParen (b : UInt8) : ofByte b = .mark .closeParen → b = Byte.closeParen := by
  refine Byte.forall_of_fin (P := fun b => ofByte b = .mark .closeParen →
    b = Byte.closeParen) ?_ b
  decide +kernel

/-- A parenthesis that opens a group is no token by itself. -/
theorem mark_ne_openParen (b : UInt8) : ofByte b ≠ .mark .openParen := by
  refine Byte.forall_of_fin (P := fun b => ofByte b ≠ .mark .openParen) ?_ b
  decide +kernel

end Opening

namespace ByteRules

theorem quoted_of_enclosed {construct : Unclosed} {n : Nat} {found : Ending × Nat}
    (h : (enclosed construct n found).tag = .token .openParen) : found.1 = .quoted := by
  obtain ⟨ending, k⟩ := found
  cases ending with
  | closed => cases construct <;> cases h
  | quoted => rfl
  | missing => cases h

/-- A parenthesis is alone because of a quote. -/
theorem quoted_of_openParen {bs : List UInt8} (h : (lexeme bs).tag = .token .openParen) :
    ∃ ds n, bs = Byte.openParen :: ds ∧ group 0 ds = (.quoted, n) := by
  cases bs with
  | nil => cases h
  | cons b bs =>
      cases ho : Opening.ofByte b with
      | paren =>
          obtain rfl := Opening.eq_of_ofByte_paren ho
          exact ⟨bs, _, rfl, Prod.ext (quoted_of_enclosed h) rfl⟩
      | quote quote =>
          simp only [lexeme, ho] at h
          exact absurd (quoted_of_enclosed h) (string_ne_quoted quote bs)
      | slash =>
          simp only [lexeme, ho] at h
          by_cases hstar : bs.head? = some Byte.star
          · rw [if_pos hstar] at h
            exact absurd (quoted_of_enclosed h) (comment_ne_quoted bs.tail)
          · rw [if_neg hstar] at h
            cases h
      | mark kind =>
          simp only [lexeme, ho] at h
          cases h
          exact absurd ho (Opening.mark_ne_openParen b)
      | zero => simp [lexeme, ho] at h
      | blank => simp [lexeme, ho] at h
      | atWord => simp [lexeme, ho] at h
      | word => simp [lexeme, ho] at h
      | stray => simp [lexeme, ho] at h

end ByteRules

namespace Lexeme

/-- An offset lies in a comment, closed or not, behind its opening delimiter. -/
def Hides (l : Lexeme) (start offset : Nat) : Prop :=
  l.tag.kind? = some .comment ∧ start + 2 ≤ offset ∧ offset < start + l.length

/-- An offset is that of a quote which begins a string, closed or not, or lies in a comment. -/
def Explains (l : Lexeme) (start offset : Nat) : Prop :=
  (l.tag.kind? = some .string ∧ offset = start) ∨ l.Hides start offset

/-- What explains an offset covers it. -/
theorem Explains.covers {l : Lexeme} {start offset : Nat} (h : l.Explains start offset)
    (hpos : start < start + l.length) : start ≤ offset ∧ offset < start + l.length := by
  rcases h with ⟨-, rfl⟩ | ⟨-, hfrom, hto⟩
  · exact ⟨Nat.le_refl _, hpos⟩
  · exact ⟨by omega, hto⟩

/-- An offset is that of a parenthesis alone, or lies in a comment. -/
def Shows (l : Lexeme) (start offset : Nat) : Prop :=
  (l = ⟨.token .openParen, 1⟩ ∧ offset = start) ∨ l.Hides start offset

end Lexeme

namespace Cursor

open ByteRules Reading

variable {c quote : Cursor src} {opened found : List Nat} {b : UInt8} {bs : List UInt8}

theorem isQuote_of_quoted (hscan : c.scanGroup opened = .ok (.quoted quote found)) :
    ∃ b, quote.current = .ok b ∧ Byte.isQuote b = true := by
  fun_induction scanGroup opened c with
  | case1 opened c c' hd => cases hscan
  | case2 opened c b c' hd hq =>
      cases hscan
      exact ⟨b, (skipTo_eq_some hd).2.2.1, hq⟩
  | case3 opened c c' e he hd hq => cases hscan
  | case4 opened c c' c'' he hd hq ih => exact ih hscan
  | case5 opened c c' hd hq hb ih => exact ih hscan
  | case6 c b c' hd hq hb hp => cases hscan
  | case7 c b c' hd hq hb hp o outer ih => exact ih hscan

/-- What becomes of a search for the end of a group at a lexeme: it has come to the quote, which the
lexeme explains, or goes on behind the lexeme, over parentheses of which the lexeme shows the new ones. -/
def Aligned (quote : Cursor src) (found : List Nat) (c : Cursor src) (opened : List Nat)
    (l : Lexeme) : Prop :=
  (l.Explains c.pos quote.pos ∧ ∀ o ∈ found, o ∈ opened ∨ l.Shows c.pos o) ∨
  ∃ inner, (c.advance l.length).scanGroup inner = .ok (.quoted quote found) ∧
    ∀ o ∈ inner, o ∈ opened ∨ l.Shows c.pos o

theorem aligned_of_eq {l : Lexeme}
    (hscan : c.scanGroup opened = .ok (.quoted quote found))
    (h : (c.advance l.length).scanGroup opened = c.scanGroup opened) :
    Aligned quote found c opened l :=
  Or.inr ⟨opened, h.trans hscan, fun _ ho => Or.inl ho⟩

theorem aligned_string (hr : c.rest = b :: bs) (hb : Byte.isQuote b = true)
    (hscan : c.scanGroup opened = .ok (.quoted quote found)) :
    Aligned quote found c opened (enclosed .string 1 (string b bs)) := by
  have hscan' := scanGroup_of_rest opened hr
  rw [if_pos hb, hscan] at hscan'
  cases hscan'
  refine Or.inl ⟨Or.inl ⟨?_, rfl⟩, fun o ho => Or.inl ho⟩
  have hquoted := string_ne_quoted b bs
  generalize string b bs = found at hquoted
  obtain ⟨ending, n⟩ := found
  cases ending with
  | closed => rfl
  | quoted => exact absurd rfl hquoted
  | missing => rfl

/-- A comment that reaches behind the quote explains it, and hides all parentheses in between. -/
theorem aligned_of_comment {l : Lexeme} (hl : l.tag.kind? = some .comment)
    (hle : (c.advance 2).pos ≤ src.size)
    (hscan : (c.advance 2).scanGroup opened = .ok (.quoted quote found))
    (hlt : quote.pos < c.pos + l.length) : Aligned quote found c opened l := by
  have hge : c.pos + 2 ≤ quote.pos := (quote_bounds hle hscan).1
  refine Or.inl ⟨Or.inr ⟨hl, hge, hlt⟩, fun o ho => ?_⟩
  rcases mem_or_le_of_quoted hscan ho with hmem | hfrom
  · exact Or.inl hmem
  · rcases lt_of_quoted hle hscan o ho with hmem | hbefore
    · exact Or.inl hmem
    · exact Or.inr (Or.inr ⟨hl, hfrom, Nat.lt_trans hbefore hlt⟩)

theorem aligned_comment {ds : List UInt8} (hr : c.rest = Byte.slash :: Byte.star :: ds)
    (hscan : c.scanGroup opened = .ok (.quoted quote found)) :
    Aligned quote found c opened (enclosed .comment 2 (comment ds)) := by
  have hpos := Nat.le_of_lt (lt_size_of_rest hr)
  have hlen := pos_add_length_rest hpos
  have hle := advance_pos_le (n := 2) hpos (by rw [hr]; simp)
  have hrest : (c.advance 2).rest = ds := by
    rw [rest_advance, hr]
    rfl
  have hscan2 : (c.advance 2).scanGroup opened = .ok (.quoted quote found) :=
    (scanGroup_pass_two hr rfl rfl opened).trans hscan
  cases hfound : comment ds with
  | mk ending n =>
      cases ending with
      | closed =>
          rcases scanGroup_comment (hrest ▸ hfound) hscan2 with hlt | ⟨inner, hnext, hinner⟩
          · simp only [advance, Nat.add_assoc] at hlt
            exact aligned_of_comment rfl hle hscan2 hlt
          · rw [advance_advance] at hnext
            refine Or.inr ⟨inner, hnext, fun o ho => ?_⟩
            rcases hinner o ho with hmem | ⟨hfrom, hto⟩
            · exact Or.inl hmem
            · simp only [advance, Nat.add_assoc] at hto
              exact Or.inr (Or.inr ⟨rfl, hfrom, hto⟩)
      | quoted => exact absurd (congrArg Prod.fst hfound) (comment_ne_quoted ds)
      | missing =>
          have hn : n = ds.length := by
            have hreach := comment_reaches ds
            rwa [hfound] at hreach
          apply aligned_of_comment rfl hle hscan2
          have hlt := (quote_bounds hle hscan2).2
          rw [hr, List.length_cons, List.length_cons] at hlen
          simp only [enclosed]
          omega

/-- A group that closes is passed over, and a parenthesis that opens none is open from here on. -/
theorem aligned_group (hr : c.rest = Byte.openParen :: bs)
    (hscan : c.scanGroup opened = .ok (.quoted quote found)) :
    Aligned quote found c opened (enclosed .bracket 1 (group 0 bs)) := by
  have hopen : c.scanGroup opened = (c.advance 1).scanGroup (c.pos :: opened) :=
    scanGroup_of_rest opened hr
  have hframe := scanGroup_append [] (c.pos :: opened) (c.advance 1)
  rw [List.nil_append, ← hopen, hscan] at hframe
  obtain ⟨r, hinner, hending⟩ :=
    scanGroup_ending [] (c := c.advance 1) (lt_size_of_rest hr)
  rw [rest_advance_one hr, List.length_nil] at hending
  rw [hinner] at hframe
  cases hfound : group 0 bs with
  | mk ending n =>
      rw [hfound] at hending
      cases r with
      | closed a =>
          cases congrArg Prod.fst hending
          have hpos : a.pos = c.pos + 1 + n := congrArg Prod.snd hending
          have ha : c.advance (1 + n) = a := by
            rw [← advance_advance]
            exact (congrArg Cursor.mk hpos).symm
          refine Or.inr ⟨opened, ?_, fun o ho => Or.inl ho⟩
          rw [enclosed, ha]
          exact hframe.symm
      | quoted q inner =>
          cases congrArg Prod.fst hending
          refine Or.inr ⟨c.pos :: opened, hopen.symm.trans hscan, fun o ho => ?_⟩
          rcases List.mem_cons.mp ho with rfl | hmem
          · exact Or.inr (Or.inl ⟨rfl, rfl⟩)
          · exact Or.inl hmem
      | missing a => cases hframe

theorem aligned_closeParen (hr : c.rest = Byte.closeParen :: bs)
    (hscan : c.scanGroup opened = .ok (.quoted quote found)) :
    Aligned quote found c opened ⟨.token .closeParen, 1⟩ := by
  cases opened with
  | nil =>
      have hclosed : c.scanGroup [] = .ok (.closed (c.advance 1)) := scanGroup_of_rest [] hr
      cases hscan.symm.trans hclosed
  | cons p outer =>
      have hnext : c.scanGroup (p :: outer) = (c.advance 1).scanGroup outer :=
        scanGroup_of_rest (p :: outer) hr
      refine Or.inr ⟨outer, hnext.symm.trans hscan, fun o ho => ?_⟩
      exact Or.inl (List.mem_cons_of_mem p ho)

/-- **A search for the end of a group stays aligned with the lexemes.** -/
theorem aligned_lexeme (h : c.pos ≤ src.size)
    (hscan : c.scanGroup opened = .ok (.quoted quote found)) :
    Aligned quote found c opened (lexeme c.rest) := by
  cases hr : c.rest with
  | nil =>
      have hlt := quote_bounds h hscan
      have hend := pos_eq_size_of_rest h hr
      omega
  | cons b bs =>
      have hone {kind : Kind} (hplain : Opening.plain (Opening.ofByte b) = true) :
          Aligned quote found c opened ⟨.token kind, 1⟩ :=
        aligned_of_eq hscan (scanGroup_pass_one hr (Opening.not_isGroupDelim_of_plain b hplain) opened)
      have hchar (hb : b < 0x80) (hplain : Opening.plain (Opening.ofByte b) = true) :
          Aligned quote found c opened ⟨.token .word, charLength (b :: bs)⟩ := by
        rw [charLength_of_lt bs hb]
        exact hone hplain
      cases ho : Opening.ofByte b with
      | zero =>
          simp only [lexeme, ho]
          exact hchar (of_decide_eq_true (Opening.fits_of_ofByte ho)) (by rw [ho]; rfl)
      | stray =>
          simp only [lexeme, ho]
          exact hchar (of_decide_eq_true (Opening.fits_of_ofByte ho)) (by rw [ho]; rfl)
      | blank =>
          simp only [lexeme, ho]
          have hsplit := (List.takeWhile_append_dropWhile (p := Byte.isBlank) (l := b :: bs)).symm
          exact aligned_of_eq hscan (scanGroup_pass _ (hr.trans hsplit)
            (fun d hd => not_isGroupDelim_of_isBlank d (List.all_eq_true.mp List.all_takeWhile d hd))
            opened)
      | atWord =>
          simp only [lexeme, ho]
          have hplain := Opening.not_isGroupDelim_of_plain b (by rw [ho]; rfl)
          have hword := scanGroup_word (c.advance 1) opened
          rw [rest_advance_one hr, advance_advance] at hword
          exact aligned_of_eq hscan (hword.trans (scanGroup_pass_one hr hplain opened))
      | quote q =>
          obtain ⟨rfl, hquote⟩ := Opening.eq_of_ofByte_quote ho
          simp only [lexeme, ho]
          exact aligned_string hr hquote hscan
      | slash =>
          obtain rfl := Opening.eq_of_ofByte_slash ho
          simp only [lexeme, ho]
          by_cases hstar : bs.head? = some Byte.star
          · obtain ⟨ds, rfl⟩ := List.head?_eq_some_iff.mp hstar
            rw [if_pos hstar]
            exact aligned_comment hr hscan
          · rw [if_neg hstar]
            exact hchar (by decide) rfl
      | paren =>
          obtain rfl := Opening.eq_of_ofByte_paren ho
          simp only [lexeme, ho]
          exact aligned_group hr hscan
      | mark kind =>
          simp only [lexeme, ho]
          by_cases hclose : kind = .closeParen
          · subst hclose
            obtain rfl := Opening.eq_of_ofByte_closeParen b ho
            exact aligned_closeParen hr hscan
          · exact hone (by rw [ho]; simpa [Opening.plain] using hclose)
      | word =>
          simp only [lexeme, ho]
          have hword := scanGroup_word c opened
          rw [hr] at hword
          exact aligned_of_eq hscan hword

end Cursor

end CssTokens
