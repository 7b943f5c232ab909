import CssTokens.Proofs.Characters
import CssTokens.Proofs.NextLexeme

/-!
# CssTokens.Proofs.WordUnits — words as runs of units

The grammar of words, in characters.  A word is a run of units (`IsUnit`): a character that neither ends
words nor is a backslash, or an escape.  An escape is a backslash and any one character, or a backslash
and up to six hexadecimal digits with at most one blank behind them, both as many as there are; a
backslash at the end of the text stands alone.  The run ends where a word has to (`Ends`): at the end of
the text, at a terminator, or where a comment begins.  What belongs to an escape ends nothing.

Every text can be read so (`exists_reads`).  A scanner, which takes bytes and cares for none of these
notions, takes what has been read, no less and no more, and stops before the rest (`words_read`).
-/

namespace CssTokens

set_option autoImplicit false

open ByteRules Utf8

namespace WordUnits

/-! ## The grammar -/

/-- Space, tab and the characters of line breaks. -/
def blanks : List Char := [' ', '\t', '\n', '\r', '\x0c']

/-- The characters that end a word wherever they stand in it, unless escaped. -/
def terminators : List Char :=
  blanks ++ ['{', '}', '[', ']', '(', ')', ':', ';', '"', '\'', '@']

/-- The hexadecimal digits of either case. -/
def hexDigits : List Char :=
  ['0', '1', '2', '3', '4', '5', '6', '7', '8', '9', 'a', 'b', 'c', 'd', 'e', 'f',
    'A', 'B', 'C', 'D', 'E', 'F']

/-- A word ends before these characters. -/
inductive Ends : List Char → Prop where
  | finish : Ends []
  | terminator {c : Char} {rest : List Char} (hc : c ∈ terminators) : Ends (c :: rest)
  | comment {rest : List Char} : Ends ('/' :: '*' :: rest)

/-- As many hexadecimal digits as there are before `rest`, but at most `limit`. -/
structure Digits (limit : Nat) (digits rest : List Char) : Prop where
  hex : ∀ c ∈ digits, c ∈ hexDigits
  le : digits.length ≤ limit
  longest : digits.length = limit ∨ ∀ c, rest.head? = some c → c ∉ hexDigits

/-- The blank before `rest`, if there is one.  A carriage return and a line feed are one. -/
inductive Blank : List Char → List Char → Prop where
  | none {rest : List Char} (h : ∀ c, rest.head? = some c → c ∉ blanks) : Blank [] rest
  | lineBreak {rest : List Char} : Blank ['\r', '\n'] rest
  | one {c : Char} {rest : List Char} (hc : c ∈ blanks) (h : c = '\r' → rest.head? ≠ some '\n') :
      Blank [c] rest

/-- A unit of a word that goes on with `rest`. -/
inductive IsUnit : List Char → List Char → Prop where
  | char {c : Char} {rest : List Char} (hc : c ≠ '\\') (h : ¬ Ends (c :: rest)) : IsUnit [c] rest
  | backslash : IsUnit ['\\'] []
  | escaped {c : Char} {rest : List Char} (hc : c ∉ hexDigits) : IsUnit ['\\', c] rest
  | numeric {digits blank rest : List Char} (hne : digits ≠ [])
      (hdigits : Digits 6 digits (blank ++ rest)) (hblank : Blank blank rest) :
      IsUnit ('\\' :: (digits ++ blank)) rest

/-- The units of a word, one after the other, and the rest of the text, before which it ends. -/
inductive Reads : List (List Char) → List Char → Prop where
  | nil {rest : List Char} (h : Ends rest) : Reads [] rest
  | cons {unit : List Char} {units : List (List Char)} {rest : List Char}
      (hunit : IsUnit unit (units.flatten ++ rest)) (h : Reads units rest) :
      Reads (unit :: units) rest

/-! ## Every text can be read -/

theorem exists_digits (limit : Nat) (cs : List Char) :
    ∃ digits rest, cs = digits ++ rest ∧ Digits limit digits rest := by
  induction limit generalizing cs with
  | zero => exact ⟨[], cs, rfl, nofun, Nat.le_refl 0, Or.inl rfl⟩
  | succ limit ih =>
      cases cs with
      | nil => exact ⟨[], [], rfl, nofun, Nat.zero_le _, Or.inr nofun⟩
      | cons c cs =>
          by_cases hc : c ∈ hexDigits
          · obtain ⟨digits, rest, rfl, hdigits⟩ := ih cs
            refine ⟨c :: digits, rest, rfl, List.forall_mem_cons.mpr ⟨hc, hdigits.hex⟩,
              Nat.succ_le_succ hdigits.le, ?_⟩
            exact hdigits.longest.imp (congrArg (· + 1)) id
          · refine ⟨[], c :: cs, rfl, nofun, Nat.zero_le _, Or.inr ?_⟩
            intro d hd
            cases hd
            exact hc

theorem exists_blank (cs : List Char) : ∃ blank rest, cs = blank ++ rest ∧ Blank blank rest := by
  cases cs with
  | nil => exact ⟨[], [], rfl, .none nofun⟩
  | cons c cs =>
      by_cases hbreak : c = '\r' ∧ cs.head? = some '\n'
      · obtain ⟨rfl, hhead⟩ := hbreak
        obtain ⟨rest, rfl⟩ := List.head?_eq_some_iff.mp hhead
        exact ⟨['\r', '\n'], rest, rfl, .lineBreak⟩
      · by_cases hc : c ∈ blanks
        · exact ⟨[c], cs, rfl, .one hc fun hcr hlf => hbreak ⟨hcr, hlf⟩⟩
        · refine ⟨[], c :: cs, rfl, .none ?_⟩
          intro d hd
          cases hd
          exact hc

theorem exists_escape (cs : List Char) :
    ∃ escaped rest, cs = escaped ++ rest ∧ IsUnit ('\\' :: escaped) rest := by
  cases cs with
  | nil => exact ⟨[], [], rfl, .backslash⟩
  | cons c cs =>
      by_cases hc : c ∈ hexDigits
      · obtain ⟨digits, behind, hsplit, hdigits⟩ := exists_digits 6 (c :: cs)
        obtain ⟨blank, rest, rfl, hblank⟩ := exists_blank behind
        refine ⟨digits ++ blank, rest, by rw [hsplit, List.append_assoc], .numeric ?_ hdigits hblank⟩
        rintro rfl
        rcases hdigits.longest with hlimit | hnone
        · cases hlimit
        · exact hnone c (by rw [← List.nil_append (blank ++ rest), ← hsplit]; rfl) hc
      · exact ⟨[c], cs, rfl, .escaped hc⟩

/-- A text ends a word, or goes on with a unit. -/
theorem ends_or_exists_unit (cs : List Char) :
    Ends cs ∨ ∃ c cs' rest, cs = (c :: cs') ++ rest ∧ IsUnit (c :: cs') rest := by
  cases cs with
  | nil => exact Or.inl .finish
  | cons c cs =>
      by_cases hends : Ends (c :: cs)
      · exact Or.inl hends
      right
      by_cases hc : c = '\\'
      · subst hc
        obtain ⟨escaped, rest, rfl, hunit⟩ := exists_escape cs
        exact ⟨'\\', escaped, rest, rfl, hunit⟩
      · exact ⟨c, [], cs, rfl, .char hc hends⟩

theorem exists_reads (cs : List Char) :
    ∃ units rest, cs = units.flatten ++ rest ∧ Reads units rest := by
  generalize hn : cs.length = n
  induction n using Nat.strongRecOn generalizing cs with
  | ind n ih =>
      rcases ends_or_exists_unit cs with hends | ⟨c, cs', rest, rfl, hunit⟩
      · exact ⟨[], cs, rfl, .nil hends⟩
      · have hlt : rest.length < n := by
          rw [← hn, List.cons_append, List.length_cons, List.length_append]
          omega
        obtain ⟨units, rest, rfl, hreads⟩ := ih _ hlt rest rfl
        exact ⟨(c :: cs') :: units, rest, by rw [List.flatten_cons, List.append_assoc],
          .cons hunit hreads⟩

/-! ## What is read is what the byte rules take -/

theorem spells_isBlank : Spells Byte.isBlank blanks := by decide +kernel

theorem spells_endsWord : Spells Byte.endsWord terminators := by decide +kernel

theorem spells_isHexDigit : Spells Byte.isHexDigit hexDigits := by decide +kernel

variable {c : Char} {digits blank escaped unit rest : List Char} {units : List (List Char)}

theorem wordLength_cons {b : UInt8} {bs : List UInt8} (h : unitLength (b :: bs) = 1) :
    wordLength (b :: bs) = 1 + wordLength bs := by
  rw [wordLength_of_unit (by rw [h]; exact Nat.one_ne_zero), h]
  rfl

/-- Bytes that neither end words nor begin anything are taken one by one. -/
theorem wordLength_append {pre : List UInt8}
    (h : ∀ b ∈ pre, b ≠ Byte.backslash ∧ b ≠ Byte.slash ∧ Byte.endsWord b = false)
    (bs : List UInt8) : wordLength (pre ++ bs) = pre.length + wordLength bs := by
  induction pre with
  | nil => rw [List.nil_append, List.length_nil, Nat.zero_add]
  | cons b pre ih =>
      obtain ⟨⟨hback, hslash, hends⟩, hpre⟩ := List.forall_mem_cons.mp h
      have hunit : unitLength (b :: (pre ++ bs)) = 1 := by
        rw [unitLength, if_neg hback, if_neg hslash, hends]
        rfl
      rw [List.cons_append, wordLength_cons hunit, ih hpre, List.length_cons]
      omega

theorem wordLength_of_ends (h : Ends rest) : wordLength (encode rest) = 0 := by
  apply wordLength_of_unit_zero
  cases h with
  | finish => rfl
  | @terminator c rest hc =>
      obtain ⟨hone, hends⟩ := spells_endsWord.utf8EncodeChar_of_mem hc
      have hne {b : UInt8} (hb : Byte.endsWord b = false) : ascii c ≠ b := by
        rintro rfl
        rw [hends] at hb
        cases hb
      rw [encode_cons, hone, List.singleton_append, unitLength, if_neg (hne rfl), if_neg (hne rfl),
        if_pos hends]
  | comment => rfl

theorem wordLength_char (hc : c ≠ '\\') (h : ¬ Ends (c :: rest)) :
    wordLength (encode (c :: rest)) = (String.utf8EncodeChar c).length + wordLength (encode rest) := by
  rw [encode_cons]
  by_cases hslash : c = '/'
  · subst hslash
    have hstar : ¬ (encode rest).head? = some Byte.star := by
      intro hhead
      obtain ⟨more, rfl⟩ :=
        List.head?_eq_some_iff.mp ((head?_encode_iff (d := '*') (by decide)).mp hhead)
      exact h .comment
    have hunit : unitLength (Byte.slash :: encode rest) = 1 := by
      rw [unitLength, if_neg (by decide), if_pos rfl, if_neg hstar]
    exact wordLength_cons hunit
  · apply wordLength_append
    intro b hb
    refine ⟨?_, ?_, spells_endsWord.eq_false_of_not_mem (fun hmem => h (.terminator hmem)) b hb⟩
    · rintro rfl
      exact hc ((ascii_mem_utf8EncodeChar_iff (d := '\\') (by decide)).mp hb)
    · rintro rfl
      exact hslash ((ascii_mem_utf8EncodeChar_iff (d := '/') (by decide)).mp hb)

theorem hexLength_digits {limit : Nat} (h : Digits limit digits rest) :
    hexLength limit (encode (digits ++ rest)) = (encode digits).length := by
  induction digits generalizing limit with
  | nil =>
      rcases h.longest with rfl | hnone
      · rfl
      · cases rest with
        | nil => cases limit <;> rfl
        | cons c rest =>
            obtain ⟨b, bs, hc, -⟩ := utf8EncodeChar_shape c
            have hb : ¬ Byte.isHexDigit b = true :=
              fun hb => hnone c rfl ((spells_isHexDigit.first_iff hc).mp hb)
            rw [List.nil_append, encode_cons, hc]
            cases limit with
            | zero => rfl
            | succ limit => exact if_neg hb
  | cons d digits ih =>
      obtain ⟨hd, hhex⟩ := List.forall_mem_cons.mp h.hex
      obtain ⟨hone, hb⟩ := spells_isHexDigit.utf8EncodeChar_of_mem hd
      obtain ⟨limit, rfl⟩ : ∃ l, limit = l + 1 :=
        Nat.exists_eq_add_one.mpr (Nat.lt_of_lt_of_le (Nat.succ_pos _) h.le)
      have hrest : Digits limit digits rest :=
        ⟨hhex, Nat.le_of_succ_le_succ h.le, h.longest.imp Nat.succ.inj id⟩
      rw [List.cons_append, encode_cons, encode_cons, hone, List.singleton_append, hexLength, if_pos hb,
        ih hrest, List.singleton_append, List.length_cons, Nat.add_comm]

theorem blankLength_blank (h : Blank blank rest) :
    blankLength (encode (blank ++ rest)) = (encode blank).length := by
  cases h with
  | none hnone =>
      cases rest with
      | nil => rfl
      | cons c rest =>
          obtain ⟨b, bs, hc, -⟩ := utf8EncodeChar_shape c
          have hb : ¬ Byte.isBlank b = true :=
            fun hb => hnone c rfl ((spells_isBlank.first_iff hc).mp hb)
          have hcr : b ≠ Byte.carriageReturn := by
            rintro rfl
            exact hb rfl
          rw [List.nil_append, encode_cons, hc, List.cons_append, blankLength, if_neg hcr, if_neg hb]
          rfl
  | lineBreak => rfl
  | @one c rest hc hbreak =>
      obtain ⟨hone, hb⟩ := spells_isBlank.utf8EncodeChar_of_mem hc
      rw [List.singleton_append, encode_cons, encode_cons, hone, List.singleton_append, blankLength]
      by_cases hcr : ascii c = Byte.carriageReturn
      · have hc' : c = '\r' := by
          apply (ascii_mem_utf8EncodeChar_iff (by decide)).mp
          rw [hone]
          exact List.mem_singleton.mpr hcr.symm
        have hlf : ¬ (encode rest).head? = some Byte.lineFeed :=
          fun hhead => hbreak hc' ((head?_encode_iff (d := '\n') (by decide)).mp hhead)
        rw [if_pos hcr, if_neg hlf]
        rfl
      · rw [if_neg hcr, if_pos hb]
        rfl

theorem escapeLength_escaped (h : IsUnit ('\\' :: escaped) rest) :
    escapeLength (encode (escaped ++ rest)) = (encode escaped).length := by
  cases h with
  | char hc _ => exact absurd rfl hc
  | backslash => rfl
  | @escaped c _ hc =>
      have hlen := charLength_encode c rest
      obtain ⟨b, bs, hb, -⟩ := utf8EncodeChar_shape c
      rw [← String.length_utf8EncodeChar] at hlen
      rw [encode_cons, encode_nil, List.append_nil, ← hlen, List.singleton_append, encode_cons, hb,
        List.cons_append, escapeLength,
        if_neg (fun hex => hc ((spells_isHexDigit.first_iff hb).mp hex))]
  | @numeric digits blank _ hne hdigits hblank =>
      have hhex := hexLength_digits hdigits
      have hdrop : (encode (digits ++ (blank ++ rest))).drop (encode digits).length =
          encode (blank ++ rest) := by
        rw [encode_append, List.drop_left]
      obtain ⟨d, digits, rfl⟩ := List.exists_cons_of_ne_nil hne
      obtain ⟨hone, hb⟩ := spells_isHexDigit.utf8EncodeChar_of_mem (hdigits.hex d List.mem_cons_self)
      rw [List.append_assoc, encode_append (d :: digits) blank, List.length_append,
        ← blankLength_blank hblank, ← hdrop, ← hhex, List.cons_append, encode_cons, hone,
        List.singleton_append, escapeLength, if_pos hb]
      rfl

theorem wordLength_unit (h : IsUnit unit rest) :
    wordLength (encode (unit ++ rest)) = (encode unit).length + wordLength (encode rest) := by
  have hescape {escaped : List Char} (h : IsUnit ('\\' :: escaped) rest) :
      wordLength (encode ('\\' :: escaped ++ rest)) =
        (encode ('\\' :: escaped)).length + wordLength (encode rest) := by
    have hunit : unitLength (Byte.backslash :: encode (escaped ++ rest)) =
        1 + (encode escaped).length := by
      rw [unitLength, if_pos rfl, escapeLength_escaped h]
    have hstart : encode ('\\' :: escaped ++ rest) = Byte.backslash :: encode (escaped ++ rest) := rfl
    have hlen : (encode ('\\' :: escaped)).length = 1 + (encode escaped).length := by
      rw [Nat.add_comm]
      rfl
    rw [hstart, wordLength_of_unit (by rw [hunit]; omega), hunit, hlen,
      Nat.add_comm 1 (encode escaped).length, List.drop_succ_cons, encode_append, List.drop_left]
  cases h with
  | char hc hends =>
      rw [List.singleton_append, wordLength_char hc hends, encode_cons, encode_nil, List.append_nil]
  | backslash => exact hescape .backslash
  | escaped hc => exact hescape (.escaped hc)
  | numeric hne hdigits hblank => exact hescape (.numeric hne hdigits hblank)

/-- **What is read as a word is what the byte rules take.** -/
theorem wordLength_reads (h : Reads units rest) :
    wordLength (encode (units.flatten ++ rest)) = (encode units.flatten).length := by
  induction h with
  | nil hends => exact wordLength_of_ends hends
  | cons hunit _ ih =>
      rw [List.flatten_cons, List.append_assoc, wordLength_unit hunit, ih, encode_append,
        List.length_append]

end WordUnits

namespace Scanner

open WordUnits

variable {src : Source} {s : Scanner src}

/-- Behind `mark` bytes, where a character begins, the text can be read as units; and however it is
read, the step takes the mark and what was read as one token, and leaves the rest. -/
structure FindsUnits (s : Scanner src) (mark : Nat) (kind : Kind) : Prop where
  boundary : isBoundary src.text (s.pos + mark) = true
  readable : ∃ units rest, src.charsFrom (s.pos + mark) = units.flatten ++ rest ∧ Reads units rest
  taken : ∀ units rest, src.charsFrom (s.pos + mark) = units.flatten ++ rest → Reads units rest →
    ∃ s', s.next = .ok (⟨.token kind, mark + (String.ofList units.flatten).utf8ByteSize⟩, s') ∧
      s'.pos = s.pos + mark + (String.ofList units.flatten).utf8ByteSize ∧
      isBoundary src.text s'.pos = true ∧ src.charsFrom s'.pos = rest

theorem findsUnits_of_lexeme {mark : Nat} {kind : Kind} {b : UInt8}
    (hboundary : isBoundary src.text (s.pos + mark) = true) (hb : s.cursor.current = .ok b)
    (hne : b ≠ Byte.openParen) (hle : s.pos ≤ src.size)
    (hlexeme : lexeme s.cursor.rest =
      ⟨.token kind, mark + wordLength (src.bytes.drop (s.pos + mark))⟩) :
    s.FindsUnits mark kind := by
  refine ⟨hboundary, exists_reads _, ?_⟩
  intro units rest hsplit hreads
  have hlength : wordLength (src.bytes.drop (s.pos + mark)) =
      (String.ofList units.flatten).utf8ByteSize := by
    rw [← Source.encode_charsFrom hboundary, hsplit, wordLength_reads hreads, length_encode]
  obtain ⟨s', hnext, hpos⟩ := next_of_ne_openParen hle hb hne
  obtain ⟨hboundary', hrest⟩ := Source.charsFrom_split hboundary hsplit
  rw [hlexeme, hlength] at hnext hpos
  rw [← Nat.add_assoc] at hpos
  refine ⟨s', hnext, hpos, ?_, ?_⟩
  · rw [hpos]
    exact hboundary'
  · rw [hpos]
    exact hrest

/-- **Words are runs of units**, and so is what stands behind an `@`. -/
theorem words_read (s : Scanner src) (hboundary : isBoundary src.text s.pos = true) :
    (∀ b, s.cursor.current = .ok b → Byte.isWordStart b = true → s.FindsUnits 0 .word) ∧
      (s.cursor.current = .ok Byte.atSign → s.FindsUnits 1 .atWord) := by
  have hle : s.pos ≤ src.size := le_size_of_isBoundary hboundary
  constructor
  · intro b hb hstart
    have hne : b ≠ Byte.openParen := by
      rintro rfl
      exact absurd hstart (by decide)
    have hzero : b ≠ 0 := by
      rintro rfl
      exact absurd hstart (by decide)
    obtain ⟨bs, hr⟩ := Cursor.exists_rest_of_current hb hzero
    refine findsUnits_of_lexeme hboundary hb hne hle ?_
    have hdrop : src.bytes.drop (s.pos + 0) = b :: bs := hr
    rw [hdrop, hr, lexeme, Opening.ofByte_of_isWordStart hstart, Nat.zero_add]
  · intro hb
    obtain ⟨bs, hr⟩ := Cursor.exists_rest_of_current hb (by decide)
    refine findsUnits_of_lexeme (Cursor.isBoundary_of_rest hr (by decide)) hb (by decide) hle ?_
    have hdrop : src.bytes.drop (s.pos + 1) = bs := Cursor.rest_advance_one hr
    rw [hdrop, hr]
    rfl

/-- Two numeric escapes, the first with eight digits behind its backslash and the second ended by a
line break, an escaped terminator, a slash, and a comment that is never closed. -/
def escapesAndComment : Source :=
  ⟨"@a\\00004100\\41\r\n\\;/b/*", by decide⟩

/-- From the `@` and from the letter behind it, the units up to the comment are taken. -/
theorem words_read_of_escapesAndComment :
    let s : Scanner escapesAndComment := ofCursor ⟨0⟩
    let s' : Scanner escapesAndComment := ofCursor ⟨1⟩
    isBoundary escapesAndComment.text s.pos = true ∧ s.cursor.current = .ok Byte.atSign ∧
      s.FindsUnits 1 .atWord ∧ s.next = .ok (⟨.token .atWord, 20⟩, ofCursor ⟨20⟩) ∧
      isBoundary escapesAndComment.text s'.pos = true ∧ s'.cursor.current = .ok 0x61 ∧
      s'.FindsUnits 0 .word ∧ s'.next = .ok (⟨.token .word, 19⟩, ofCursor ⟨20⟩) := by
  intro s s'
  have hboundary : isBoundary escapesAndComment.text s.pos = true := by decide +kernel
  have hboundary' : isBoundary escapesAndComment.text s'.pos = true := by decide +kernel
  have hat : s.cursor.current = .ok Byte.atSign := by decide +kernel
  have hletter : s'.cursor.current = .ok 0x61 := by decide +kernel
  have hnext : s.next = .ok (⟨.token .atWord, 20⟩, ofCursor ⟨20⟩) := by decide +kernel
  have hnext' : s'.next = .ok (⟨.token .word, 19⟩, ofCursor ⟨20⟩) := by decide +kernel
  exact ⟨hboundary, hat, (words_read s hboundary).2 hat, hnext, hboundary', hletter,
    (words_read s' hboundary').1 0x61 hletter (by decide), hnext'⟩

end Scanner

end CssTokens
