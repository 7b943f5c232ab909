import CssTokens.Proofs.LineSeam
import CssTokens.Proofs.Lossless
import CssTokens.Proofs.ReadingOrder
import CssTokens.Proofs.TokensAlone
import CssTokens.Proofs.WordUnits

/-!
# CssTokens.Proofs.SplitLineBreaks — a line break of two characters is split by an escape only

A carriage return and the line feed behind it are one line break.  A token ends between them in one
case only: it is a word, marked by `@` or not, and the carriage return is the character that an escape
in it takes as it is.  Everywhere else both are in one token (`line_breaks_split_by_escapes`).

Of the bytes only so much matters as tells that no other kind of lexeme can end there: a run of blanks
goes on with the line feed, a delimiter is no carriage return, and what lacks its delimiter goes on to
the end of the text (`ByteRules.opening_of_splits`).  What is left is words, and these are read in
units (`WordUnits.Reads.eq_append_of_lineBreak`).
-/

namespace CssTokens

set_option autoImplicit false

/-! ## Lexemes that end in a line break -/

namespace ByteRules

/-- Of a line break the carriage return is the last of the first `n` bytes, and the line feed stands
behind them. -/
def SplitsLineBreak (bs : List UInt8) (n : Nat) : Prop :=
  ∃ m, n = m + 1 ∧ bs[m]? = some Byte.carriageReturn ∧ bs[n]? = some Byte.lineFeed

variable {b : UInt8} {bs : List UInt8}

theorem not_splits_one (h : Opening.ofByte b ≠ .blank) : ¬ SplitsLineBreak (b :: bs) 1 := by
  rintro ⟨m, hm, hcr, -⟩
  obtain rfl : 0 = m := Nat.succ.inj hm
  cases hcr
  exact h rfl

/-- What stands behind a run of blanks is no blank. -/
theorem isBlank_behind_blanks (h : bs[(bs.takeWhile Byte.isBlank).length]? = some b) :
    Byte.isBlank b = false := by
  induction bs with
  | nil => cases h
  | cons d bs ih =>
      by_cases hd : Byte.isBlank d = true
      · rw [List.takeWhile_cons_of_pos hd] at h
        exact ih h
      · rw [List.takeWhile_cons_of_neg hd] at h
        cases h
        exact Bool.eq_false_iff.mpr hd

theorem not_splits_blanks (bs : List UInt8) :
    ¬ SplitsLineBreak bs (bs.takeWhile Byte.isBlank).length := by
  rintro ⟨-, -, -, hlf⟩
  exact absurd (isBlank_behind_blanks hlf) (by decide)

/-- A construct ends with its delimiter, or goes on to the end of the text. -/
theorem not_splits_enclosed (pre : List UInt8) {construct : Unclosed} {close : UInt8}
    {found : Ending × Nat} (hr : Reaches close bs found) (hclose : close ≠ Byte.carriageReturn)
    (hpre : Byte.carriageReturn ∉ pre) :
    ¬ SplitsLineBreak (pre ++ bs) (enclosed construct pre.length found).length := by
  rintro ⟨m, hm, hcr, hlf⟩
  obtain ⟨ending, k⟩ := found
  cases ending with
  | closed =>
      obtain ⟨j, rfl, hj⟩ := hr
      obtain rfl : pre.length + j = m := Nat.succ.inj hm
      rw [List.getElem?_append_right (Nat.le_add_right _ _), Nat.add_sub_cancel_left, hj] at hcr
      exact hclose (Option.some.inj hcr)
  | quoted =>
      have hlt : m < pre.length := by
        rw [show pre.length = m + 1 from hm]
        exact Nat.lt_succ_self m
      rw [List.getElem?_append_left hlt] at hcr
      exact hpre (List.mem_of_getElem? hcr)
  | missing =>
      have hk : k = bs.length := hr
      rw [enclosed, hk, ← List.length_append, List.getElem?_eq_none (Nat.le_refl _)] at hlf
      cases hlf

/-- **Only words end in a line break.** -/
theorem opening_of_splits (h : SplitsLineBreak (b :: bs) (lexeme (b :: bs)).length) :
    Opening.ofByte b = .word ∨ Opening.ofByte b = .atWord := by
  cases ho : Opening.ofByte b with
  | zero =>
      simp only [lexeme, ho] at h
      rw [Cursor.charLength_of_lt bs (of_decide_eq_true (Opening.fits_of_ofByte ho))] at h
      exact absurd h (not_splits_one (by simp [ho]))
  | blank =>
      simp only [lexeme, ho] at h
      exact absurd h (not_splits_blanks _)
  | atWord => exact Or.inr rfl
  | quote quote =>
      obtain ⟨rfl, hquote⟩ := Opening.eq_of_ofByte_quote ho
      have hne : b ≠ Byte.carriageReturn := by
        rintro rfl
        cases hquote
      simp only [lexeme, ho] at h
      exact absurd h (not_splits_enclosed [b] (string_reaches b bs) hne (by simpa using hne.symm))
  | slash =>
      obtain rfl := Opening.eq_of_ofByte_slash ho
      simp only [lexeme, ho] at h
      by_cases hstar : bs.head? = some Byte.star
      · obtain ⟨ds, rfl⟩ := List.head?_eq_some_iff.mp hstar
        rw [if_pos hstar] at h
        exact absurd h (not_splits_enclosed [Byte.slash, Byte.star] (comment_reaches ds) (by decide)
          (by decide))
      · rw [if_neg hstar, Cursor.charLength_of_lt bs (by decide)] at h
        exact absurd h (not_splits_one (by simp [ho]))
  | paren =>
      obtain rfl := Opening.eq_of_ofByte_paren ho
      simp only [lexeme, ho] at h
      exact absurd h (not_splits_enclosed [Byte.openParen] (group_reaches 0 bs) (by decide)
        (by decide))
  | mark kind =>
      simp only [lexeme, ho] at h
      exact absurd h (not_splits_one (by simp [ho]))
  | word => exact Or.inl rfl
  | stray =>
      simp only [lexeme, ho] at h
      rw [Cursor.charLength_of_lt bs (of_decide_eq_true (Opening.fits_of_ofByte ho))] at h
      exact absurd h (not_splits_one (by simp [ho]))

end ByteRules

/-! ## Units that end in a line break -/

namespace WordUnits

variable {unit rest : List Char} {units before after : List (List Char)}

theorem IsUnit.ne_nil (h : IsUnit unit rest) : unit ≠ [] := by
  cases h <;> exact List.cons_ne_nil _ _

/-- A line feed begins no unit. -/
theorem IsUnit.head?_ne (h : IsUnit unit rest) : unit.head? ≠ some '\n' := by
  intro hhead
  cases h with
  | char hc hends =>
      cases hhead
      exact hends (.terminator (by decide))
  | backslash => cases hhead
  | escaped hc => cases hhead
  | numeric hne hdigits hblank => cases hhead

/-- A unit that ends in a line break is a backslash and the carriage return. -/
theorem IsUnit.eq_of_lineBreak (h : IsUnit unit ('\n' :: rest)) (hlast : unit.getLast? = some '\r') :
    unit = ['\\', '\r'] := by
  generalize hfollow : '\n' :: rest = follow at h
  cases h with
  | char hc hends =>
      cases hlast
      exact absurd (Ends.terminator (by decide)) hends
  | backslash => cases hfollow
  | escaped hc =>
      cases hlast
      rfl
  | @numeric digits blank _ hne hdigits hblank =>
      subst hfollow
      cases hblank with
      | none hnone =>
          have hmem := List.mem_of_getLast? hlast
          rw [List.append_nil, List.mem_cons] at hmem
          exact absurd (hdigits.hex '\r' (hmem.resolve_left (by decide))) (by decide)
      | lineBreak => simp [List.getLast?_cons, List.getLast?_append] at hlast
      | one hc hbreak =>
          rw [← List.cons_append, List.getLast?_concat] at hlast
          exact absurd rfl (hbreak (Option.some.inj hlast))

/-- A word that ends in a line break has a last unit, which is a backslash and the carriage return. -/
theorem Reads.eq_append_of_lineBreak (h : Reads units ('\n' :: rest))
    (hlast : units.flatten.getLast? = some '\r') : ∃ before, units = before ++ [['\\', '\r']] := by
  generalize hfollow : '\n' :: rest = follow at h
  induction h with
  | nil hends => cases hlast
  | @cons unit units follow hunit h ih =>
      subst hfollow
      cases h with
      | nil hends =>
          rw [List.flatten_cons, List.flatten_nil, List.append_nil] at hlast
          exact ⟨[], by rw [hunit.eq_of_lineBreak hlast, List.nil_append]⟩
      | @cons unit' units' _ hunit' h' =>
          have hne : (unit' :: units').flatten ≠ [] := by
            rw [List.flatten_cons]
            exact List.append_ne_nil_of_left_ne_nil hunit'.ne_nil _
          have hbehind : (unit' :: units').flatten.getLast? = some '\r' := by
            rw [List.flatten_cons, List.getLast?_append, List.getLast?_eq_some_getLast hne] at hlast
            rw [List.getLast?_eq_some_getLast hne]
            exact hlast
          obtain ⟨before, hbefore⟩ := ih hbehind rfl
          exact ⟨unit :: before, by rw [hbefore, List.cons_append]⟩

theorem Reads.of_append (h : Reads (before ++ after) rest) : Reads after rest := by
  induction before with
  | nil => exact h
  | cons unit before ih =>
      cases h with
      | cons _ h => exact ih h

/-- Before a line feed no unit is left. -/
theorem Reads.eq_nil_of_lineFeed (h : Reads units rest)
    (hhead : (units.flatten ++ rest).head? = some '\n') : units = [] := by
  cases h with
  | nil hends => rfl
  | cons hunit h =>
      obtain ⟨c, cs, rfl⟩ := List.exists_cons_of_ne_nil hunit.ne_nil
      exact absurd hhead hunit.head?_ne

end WordUnits

/-! ## Where one span stops and another starts -/

namespace Tiles

variable {start stop : Nat} {spans : List Span} {s : Span}

/-- Every offset between the two ends is in a span. -/
theorem exists_covering (h : Tiles start spans stop) {offset : Nat} (hfrom : start ≤ offset)
    (hto : offset < stop) : ∃ s ∈ spans, s.start ≤ offset ∧ offset < s.stop := by
  have hcount := h.countP_contains offset
  rw [if_pos ⟨hfrom, hto⟩] at hcount
  have hpos : 0 < spans.countP (·.contains offset) := by omega
  obtain ⟨s, hs, hcontains⟩ := List.countP_pos_iff.mp hpos
  rw [Span.contains, Bool.and_eq_true, decide_eq_true_eq, decide_eq_true_eq] at hcontains
  exact ⟨s, hs, hcontains⟩

theorem exists_start (h : Tiles start spans stop) (hs : s ∈ spans) (hne : s.stop ≠ stop) :
    ∃ r ∈ spans, r.start = s.stop := by
  induction spans generalizing start with
  | nil => cases hs
  | cons a rest ih =>
      obtain ⟨rfl, hlt, hrest⟩ := h
      rcases List.mem_cons.mp hs with rfl | hmem
      · cases rest with
        | nil => exact absurd hrest hne
        | cons b rest => exact ⟨b, by simp, hrest.1⟩
      · obtain ⟨r, hr, hstart⟩ := ih hrest hmem
        exact ⟨r, List.mem_cons_of_mem a hr, hstart⟩

theorem exists_stop (h : Tiles start spans stop) (hs : s ∈ spans) (hne : s.start ≠ start) :
    ∃ r ∈ spans, r.stop = s.start := by
  induction spans generalizing start with
  | nil => cases hs
  | cons a rest ih =>
      obtain ⟨rfl, hlt, hrest⟩ := h
      rcases List.mem_cons.mp hs with rfl | hmem
      · exact absurd rfl hne
      · by_cases hfirst : s.start = a.stop
        · exact ⟨a, List.mem_cons_self, hfirst.symm⟩
        · obtain ⟨r, hr, hstop⟩ := ih hrest hmem hfirst
          exact ⟨r, List.mem_cons_of_mem a hr, hstop⟩

end Tiles

/-! ## Words in a text -/

theorem Opening.eq_of_ofByte_atWord {b : UInt8} (h : ofByte b = .atWord) : b = Byte.atSign := by
  revert h
  refine Byte.forall_of_fin (P := fun b => ofByte b = .atWord → b = Byte.atSign) ?_ b
  decide +kernel

/-- What stands in front of the units of a word, if a token of the kind is one. -/
def Kind.mark? : Kind → Option (List Char)
  | .word => some []
  | .atWord => some ['@']
  | _ => none

theorem Kind.not_mem_mark? {kind : Kind} {mark : List Char} (h : kind.mark? = some mark) :
    '\r' ∉ mark := by
  cases kind <;> cases h <;> decide

namespace Input

open Utf8 WordUnits

variable {input : Input} {token : Token} {i : Nat}

/-- The text of a word is its mark and then these units, as one who reads on from there finds them. -/
def IsMadeOf (input : Input) (token : Token) (mark : List Char) (units : List (List Char)) : Prop :=
  token.kind.mark? = some mark ∧ (input.slice token).toList = mark ++ units.flatten ∧
    Reads units (input.source.charsFrom token.span.stop)

/-- The character at an offset is taken by an escape of a word as it is: one of the units is a
backslash and that character, which is no hexadecimal digit. -/
def TakesLiterally (input : Input) (token : Token) (i : Nat) (c : Char) : Prop :=
  c ∉ hexDigits ∧ ∃ mark before after,
    input.IsMadeOf token mark (before ++ ['\\', c] :: after) ∧
    i = token.span.start + (String.ofList (mark ++ before.flatten)).utf8ByteSize + 1

/-- What is seen from the start of a token is its text, and then what is seen from its stop. -/
theorem charsFrom_start (h : token ∈ input.tokensFrom 0) :
    input.source.charsFrom token.span.start =
      (input.slice token).toList ++ input.source.charsFrom token.span.stop := by
  obtain ⟨-, hstart, hstop⟩ := mem_tokensFrom (isBoundary_zero input.text) h
  apply encode_injective
  rw [Source.encode_charsFrom hstart, encode_append, encode_toList, bytes_slice_of_mem h,
    Source.encode_charsFrom hstop, stop_of_mem_tokensFrom h, ← List.drop_drop,
    List.take_append_drop]

/-- A token as long as a part of what is seen from its start has that part as its text. -/
theorem slice_of_split {cs ds : List Char} (h : token ∈ input.tokensFrom 0)
    (hsplit : input.source.charsFrom token.span.start = cs ++ ds)
    (hlen : (input.lexemeAt token.span.start).length = (encode cs).length) :
    (input.slice token).toList = cs ∧ input.source.charsFrom token.span.stop = ds := by
  obtain ⟨-, hstart, -⟩ := mem_tokensFrom (isBoundary_zero input.text) h
  have htext : (input.slice token).toList = cs := by
    apply encode_injective
    rw [encode_toList, bytes_slice_of_mem h, hlen, ← Source.encode_charsFrom hstart, hsplit,
      encode_append, List.take_left]
  refine ⟨htext, ?_⟩
  rw [charsFrom_start h, htext] at hsplit
  exact List.append_cancel_left hsplit

/-- A token whose length is that of a mark and a word behind it is made of units. -/
theorem exists_isMadeOf {mark cs : List Char} (h : token ∈ input.tokensFrom 0)
    (hmark : token.kind.mark? = some mark)
    (hsplit : input.source.charsFrom token.span.start = mark ++ cs)
    (hlen : (input.lexemeAt token.span.start).length =
      (encode mark).length + ByteRules.wordLength (encode cs)) :
    ∃ units, input.IsMadeOf token mark units := by
  obtain ⟨units, rest, rfl, hreads⟩ := exists_reads cs
  rw [wordLength_reads hreads, ← List.length_append, ← encode_append] at hlen
  rw [← List.append_assoc] at hsplit
  obtain ⟨htext, hrest⟩ := slice_of_split h hsplit hlen
  exact ⟨units, hmark, htext, hrest ▸ hreads⟩

/-- A token that begins like a word is made of units. -/
theorem exists_isMadeOf_of_opening {b : UInt8} {bs : List UInt8} (h : token ∈ input.tokensFrom 0)
    (hbytes : input.source.bytes.drop token.span.start = b :: bs)
    (ho : Opening.ofByte b = .word ∨ Opening.ofByte b = .atWord) :
    ∃ mark units, input.IsMadeOf token mark units := by
  obtain ⟨hkind, hstart, -⟩ := mem_tokensFrom (isBoundary_zero input.text) h
  have hchars := Source.encode_charsFrom hstart
  rw [hbytes] at hchars
  rw [lexemeAt, hbytes] at hkind
  rcases ho with ho | ho
  · simp only [ByteRules.lexeme, ho, Tag.kind?, Option.some.injEq] at hkind
    have hsplit : input.source.charsFrom token.span.start =
        [] ++ input.source.charsFrom token.span.start := rfl
    refine ⟨[], exists_isMadeOf h (by rw [← hkind]; rfl) hsplit ?_⟩
    rw [hchars, lexemeAt, hbytes, encode_nil, List.length_nil, Nat.zero_add]
    simp only [ByteRules.lexeme, ho]
  · obtain rfl := Opening.eq_of_ofByte_atWord ho
    simp only [ByteRules.lexeme, ho, Tag.kind?, Option.some.injEq] at hkind
    have hhead : (encode (input.source.charsFrom token.span.start)).head? = some (ascii '@') := by
      rw [hchars]
      rfl
    obtain ⟨cs, hcs⟩ := List.head?_eq_some_iff.mp ((head?_encode_iff (by decide)).mp hhead)
    refine ⟨['@'], exists_isMadeOf h (by rw [← hkind]; rfl) hcs ?_⟩
    rw [hcs] at hchars
    have hbehind : encode cs = bs := (List.cons.inj hchars).2
    rw [hbehind, lexemeAt, hbytes]
    rfl

/-! ## Tokens that end in a line break -/

theorem head?_drop_of_byte? {b : UInt8} (h : byte? input.text i = some b) :
    (input.source.bytes.drop i).head? = some b := by
  rw [List.head?_drop]
  rw [byte?_eq] at h
  exact h

/-- A character of one byte is what is seen from where its byte stands. -/
theorem charsFrom_head? {c : Char} (hb : isBoundary input.text i = true) (hc : c.toNat < 0x80)
    (h : byte? input.text i = some (ascii c)) : (input.source.charsFrom i).head? = some c := by
  apply (head?_encode_iff hc).mp
  rw [Source.encode_charsFrom hb]
  exact head?_drop_of_byte? h

/-- The text of a token is as long as the lexeme where it begins. -/
theorem utf8ByteSize_slice (h : token ∈ input.tokensFrom 0) :
    (input.slice token).utf8ByteSize = (input.lexemeAt token.span.start).length := by
  have hlt := input.lt_size_of_kind? (mem_tokensFrom (isBoundary_zero input.text) h).1
  have hle := (input.lexemeAt_takes hlt).le
  rw [← length_bytes, bytes_slice_of_mem h, List.length_take, List.length_drop, Source.length_bytes]
  exact Nat.min_eq_left hle

theorem size_behind_escape (cs : List Char) : (String.ofList (cs ++ ['\\', '\r'])).utf8ByteSize =
    (String.ofList cs).utf8ByteSize + 2 := by
  rw [← length_encode, ← length_encode, encode_append, List.length_append]
  rfl

/-- A token whose text ends with an escaped carriage return stops two bytes behind what is before
that. -/
theorem stop_of_escape {cs : List Char} (h : token ∈ input.tokensFrom 0)
    (htext : (input.slice token).toList = cs ++ ['\\', '\r']) :
    token.span.stop = token.span.start + (String.ofList cs).utf8ByteSize + 2 := by
  have hsize := utf8ByteSize_slice h
  rw [← String.ofList_toList (s := input.slice token), htext, size_behind_escape] at hsize
  rw [stop_of_mem_tokensFrom h, ← hsize]
  rfl

/-- The lexeme of a token that ends between the two characters of a line break ends there too. -/
theorem splits_of_stop (h : token ∈ input.tokensFrom 0) (hstop : token.span.stop = i + 1)
    (hcr : byte? input.text i = some Byte.carriageReturn)
    (hlf : byte? input.text (i + 1) = some Byte.lineFeed) :
    ByteRules.SplitsLineBreak (input.source.bytes.drop token.span.start)
      (input.lexemeAt token.span.start).length := by
  have hlt := input.lt_size_of_kind? (mem_tokensFrom (isBoundary_zero input.text) h).1
  have hpos := (input.lexemeAt_takes hlt).pos
  have hspan := stop_of_mem_tokensFrom h
  obtain ⟨m, hm⟩ := Nat.exists_eq_add_one.mpr hpos
  obtain rfl : i = token.span.start + m := by omega
  rw [LineRules.byte?_add] at hcr
  rw [Nat.add_assoc, LineRules.byte?_add, ← hm] at hlf
  exact ⟨m, hm, hcr, hlf⟩

/-- A token that ends in a line break is a word. -/
theorem exists_isMadeOf_of_splits (h : token ∈ input.tokensFrom 0)
    (hsplits : ByteRules.SplitsLineBreak (input.source.bytes.drop token.span.start)
      (input.lexemeAt token.span.start).length) : ∃ mark units, input.IsMadeOf token mark units := by
  rw [lexemeAt] at hsplits
  cases hbytes : input.source.bytes.drop token.span.start with
  | nil =>
      rw [hbytes] at hsplits
      obtain ⟨m, hm, -⟩ := hsplits
      cases hm
  | cons b bs =>
      rw [hbytes] at hsplits
      exact exists_isMadeOf_of_opening h hbytes (ByteRules.opening_of_splits hsplits)

/-- The units of a word that ends in a line break end with the carriage return. -/
theorem IsMadeOf.getLast?_of_splits {mark : List Char} {units : List (List Char)}
    (hunits : input.IsMadeOf token mark units) (h : token ∈ input.tokensFrom 0)
    (hsplits : ByteRules.SplitsLineBreak (input.source.bytes.drop token.span.start)
      (input.lexemeAt token.span.start).length) : units.flatten.getLast? = some '\r' := by
  obtain ⟨m, hm, hcr, -⟩ := hsplits
  have hlast : (input.slice token).toList.getLast? = some '\r' := by
    apply getLast?_of_byte? (by decide) ((utf8ByteSize_slice h).trans hm)
    rw [byte?_eq, bytes_slice_of_mem h, hm, List.getElem?_take_of_lt (Nat.lt_succ_self m), hcr]
    rfl
  rw [hunits.2.1, List.getLast?_append] at hlast
  cases hflatten : units.flatten.getLast? with
  | some c =>
      rw [hflatten] at hlast
      exact hlast
  | none =>
      rw [hflatten] at hlast
      exact absurd (List.mem_of_getLast? hlast) (Kind.not_mem_mark? hunits.1)

/-- **A token that ends between the two characters of a line break is a word, and its last unit takes
the carriage return.** -/
theorem takesLiterally_of_stop (h : token ∈ input.tokensFrom 0) (hstop : token.span.stop = i + 1)
    (hcr : byte? input.text i = some Byte.carriageReturn)
    (hlf : byte? input.text (i + 1) = some Byte.lineFeed) : input.TakesLiterally token i '\r' := by
  have hsplits := splits_of_stop h hstop hcr hlf
  obtain ⟨mark, units, hunits⟩ := exists_isMadeOf_of_splits h hsplits
  have hlast := hunits.getLast?_of_splits h hsplits
  have hboundary := (mem_tokensFrom (isBoundary_zero input.text) h).2.2
  have hhead : (input.source.charsFrom token.span.stop).head? = some '\n' :=
    charsFrom_head? hboundary (by decide) (hstop ▸ hlf)
  obtain ⟨rest, hrest⟩ := List.head?_eq_some_iff.mp hhead
  obtain ⟨before, rfl⟩ := (hrest ▸ hunits.2.2).eq_append_of_lineBreak hlast
  have htext : (input.slice token).toList = mark ++ before.flatten ++ ['\\', '\r'] := by
    rw [hunits.2.1, List.flatten_append, List.append_assoc]
    rfl
  have hend := stop_of_escape h htext
  exact ⟨by decide, mark, before, [], hunits, by omega⟩

/-- A word ends behind the carriage return that one of its escapes takes, if a line feed follows. -/
theorem TakesLiterally.stop_eq (h : input.TakesLiterally token i '\r')
    (ht : token ∈ input.tokensFrom 0) (hlf : byte? input.text (i + 1) = some Byte.lineFeed) :
    token.span.stop = i + 1 := by
  obtain ⟨-, mark, before, after, ⟨hmark, htext, hreads⟩, rfl⟩ := h
  obtain ⟨-, hstart, -⟩ := mem_tokensFrom (isBoundary_zero input.text) ht
  have hchars : (input.slice token).toList =
      mark ++ before.flatten ++ ['\\', '\r'] ++ after.flatten := by
    rw [htext]
    simp
  -- Behind the escape the line feed is seen, and it would begin the next unit.
  have hsplit := charsFrom_start ht
  rw [hchars, List.append_assoc] at hsplit
  obtain ⟨hboundary, hseen⟩ := Source.charsFrom_split hstart hsplit
  rw [size_behind_escape] at hboundary hseen
  have hhead := charsFrom_head? (c := '\n') hboundary (by decide) hlf
  rw [hseen] at hhead
  obtain rfl : after = [] := by
    cases hreads.of_append with
    | cons _ hafter => exact hafter.eq_nil_of_lineFeed hhead
  rw [List.flatten_nil, List.append_nil] at hchars
  exact stop_of_escape ht hchars

/-- A token that begins at a line feed is a run of blanks. -/
theorem kind_of_lineFeed (h : token ∈ input.tokensFrom 0)
    (hlf : byte? input.text token.span.start = some Byte.lineFeed) : token.kind = .space := by
  have hkind := (mem_tokensFrom (isBoundary_zero input.text) h).1
  obtain ⟨bs, hbytes⟩ := List.head?_eq_some_iff.mp (head?_drop_of_byte? hlf)
  rw [lexemeAt, hbytes] at hkind
  exact (Option.some.inj hkind).symm

/-- Between the two characters of a line break the line goes on. -/
theorem position_in_lineBreak (hcr : byte? input.text i = some Byte.carriageReturn)
    (hlf : byte? input.text (i + 1) = some Byte.lineFeed) :
    LineRules.spot input.text (i + 1) =
      ⟨(input.position i).line, (input.position i).column + 1⟩ := by
  have hlt : i < input.size := lt_size_of_byte? hcr
  have hbreak : LineRules.breakEnds input.text (i + 1) = false := by
    rw [LineRules.breakEnds, hcr, hlf]
    decide
  have hlead : isLead input.text i = true := by
    rw [isLead, hcr]
    rfl
  rw [LineRules.spot_succ, hbreak, hlead, input.position_eq_spot, Nat.min_eq_left (Nat.le_of_lt hlt)]
  rfl

end Input

/-! ## In every text -/

/-- What happens to the line break whose carriage return is at `i`. -/
structure LineBreakRule (input : Input) (tokens : List Token) (i : Nat) : Prop where
  /-- A token begins at the line feed exactly if an escape takes the carriage return. -/
  split_iff : (∃ token ∈ tokens, token.span.start = i + 1) ↔
    ∃ token ∈ tokens, input.TakesLiterally token i '\r'
  /-- In all other cases both characters are in one token. -/
  whole : (¬ ∃ token ∈ tokens, input.TakesLiterally token i '\r') →
    ∃ token ∈ tokens, token.span.start ≤ i ∧ i + 1 < token.span.stop
  /-- What begins at the line feed is a run of blanks, on the line of the carriage return and in the
  next column. -/
  behind : ∀ token ∈ tokens, token.span.start = i + 1 → token.kind = .space ∧
    token.first = ⟨(input.position i).line, (input.position i).column + 1⟩

/-- **A line break of two characters is split by an escape only.** -/
theorem line_breaks_split_by_escapes (input : Input) {i : Nat}
    (hcr : Utf8.byte? input.text i = some Byte.carriageReturn)
    (hlf : Utf8.byte? input.text (i + 1) = some Byte.lineFeed) :
    ∃ tokens, tokenize input ⟨true⟩ = .ok tokens ∧ LineBreakRule input tokens i := by
  have htiles := Input.tiles_tokensFrom (Nat.zero_le input.size)
  have hlt : i + 1 < input.size := Utf8.lt_size_of_byte? hlf
  have hsplit : (∃ token ∈ input.tokensFrom 0, token.span.start = i + 1) ↔
      ∃ token ∈ input.tokensFrom 0, input.TakesLiterally token i '\r' := by
    constructor
    · rintro ⟨token, ht, hstart⟩
      obtain ⟨r, hr, hstop⟩ := htiles.exists_stop (List.mem_map_of_mem ht) (by omega)
      obtain ⟨before, hbefore, rfl⟩ := List.mem_map.mp hr
      exact ⟨before, hbefore, Input.takesLiterally_of_stop hbefore (hstop.trans hstart) hcr hlf⟩
    · rintro ⟨token, ht, htakes⟩
      have hstop := htakes.stop_eq ht hlf
      obtain ⟨r, hr, hstart⟩ := htiles.exists_start (List.mem_map_of_mem ht) (by omega)
      obtain ⟨behind, hbehind, rfl⟩ := List.mem_map.mp hr
      exact ⟨behind, hbehind, hstart.trans hstop⟩
  refine ⟨input.tokensFrom 0, tokenize_tolerant input, hsplit, ?_, ?_⟩
  · intro hnone
    obtain ⟨r, hr, hfrom, hto⟩ := htiles.exists_covering (Nat.zero_le (i + 1)) hlt
    obtain ⟨token, ht, rfl⟩ := List.mem_map.mp hr
    have hne : token.span.start ≠ i + 1 := fun hstart => hnone (hsplit.mp ⟨token, ht, hstart⟩)
    exact ⟨token, ht, by omega, hto⟩
  · intro token ht hstart
    refine ⟨Input.kind_of_lineFeed ht (hstart ▸ hlf), ?_⟩
    rw [(Input.first_of_mem_tokensFrom ht).1, hstart, Input.position_in_lineBreak hcr hlf]

/-- An escape that takes a carriage return, and a numeric one that a line break ends. -/
def twoLineBreaks : Input :=
  ⟨⟨"\\\r\n\\41\r\n", by decide⟩, "breaks.css", LineIndex.build "\\\r\n\\41\r\n", rfl⟩

/-- The first line break is split, and the second is in the word with its escape. -/
theorem line_breaks_split_by_escapes_of_twoLineBreaks :
    let tokens : List Token :=
      [⟨.word, ⟨0, 2⟩, ⟨1, 1⟩, ⟨1, 2⟩⟩, ⟨.space, ⟨2, 3⟩, ⟨1, 3⟩, ⟨1, 3⟩⟩,
        ⟨.word, ⟨3, 8⟩, ⟨2, 1⟩, ⟨2, 5⟩⟩]
    (Utf8.byte? twoLineBreaks.text 1 = some Byte.carriageReturn ∧
      Utf8.byte? twoLineBreaks.text 2 = some Byte.lineFeed) ∧
    (Utf8.byte? twoLineBreaks.text 6 = some Byte.carriageReturn ∧
      Utf8.byte? twoLineBreaks.text 7 = some Byte.lineFeed) ∧
    tokenize twoLineBreaks ⟨true⟩ = .ok tokens ∧
      LineBreakRule twoLineBreaks tokens 1 ∧ LineBreakRule twoLineBreaks tokens 6 := by
  intro tokens
  have hsplit : Utf8.byte? twoLineBreaks.text 1 = some Byte.carriageReturn ∧
      Utf8.byte? twoLineBreaks.text 2 = some Byte.lineFeed := by decide +kernel
  have hwhole : Utf8.byte? twoLineBreaks.text 6 = some Byte.carriageReturn ∧
      Utf8.byte? twoLineBreaks.text 7 = some Byte.lineFeed := by decide +kernel
  have htokens : tokenize twoLineBreaks ⟨true⟩ = .ok tokens := by decide +kernel
  obtain ⟨tokens₁, htokens₁, hrule₁⟩ := line_breaks_split_by_escapes twoLineBreaks hsplit.1 hsplit.2
  obtain ⟨tokens₂, htokens₂, hrule₂⟩ := line_breaks_split_by_escapes twoLineBreaks hwhole.1 hwhole.2
  cases htokens.symm.trans htokens₁
  cases htokens.symm.trans htokens₂
  exact ⟨hsplit, hwhole, htokens, hrule₁, hrule₂⟩

end CssTokens
