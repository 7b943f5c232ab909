import CssTokens.Proofs.LexemeAppend
import CssTokens.Proofs.TokenStream

/-!
# CssTokens.Proofs.PrefixStability — more text leaves the tokens before it

When text is appended to a text, what was split stays split: all tokens but the last are tokens of the
longer text, with the same positions, and a token begins where the last one did.  The last one stays
too if a byte of its own closes it.

Three things make this so.  A place before the end of the text has the same line and column in the
longer text (`LineRules.spot_append`); a carriage return at the end, which a line feed may then
follow, shows only behind it.  A lexeme that leaves something behind it is the same there
(`Input.lexemeAt_append`).  And tokens follow from the lexemes, so the two lists part no sooner than
where the last token of the shorter text begins (`Input.tokensFrom_append`).
-/

namespace CssTokens

set_option autoImplicit false

/-! ## Places in a longer text -/

namespace Utf8

variable {s : String} (t : String) {i start stop : Nat}

theorem size_le_append : s.utf8ByteSize ≤ (s ++ t).utf8ByteSize := by
  rw [← length_bytes, ← length_bytes, bytes_append, List.length_append]
  exact Nat.le_add_right _ _

theorem byte?_append (h : i < s.utf8ByteSize) : byte? (s ++ t) i = byte? s i := by
  rw [byte?_eq, byte?_eq, bytes_append, List.getElem?_append_left (by rwa [length_bytes])]

theorem isLead_append (h : i < s.utf8ByteSize) : isLead (s ++ t) i = isLead s i := by
  simp only [isLead, byte?_append t h]

theorem isBoundary_append (h : i < s.utf8ByteSize) : isBoundary (s ++ t) i = isBoundary s i := by
  have h' : i < (s ++ t).utf8ByteSize := Nat.lt_of_lt_of_le h (size_le_append t)
  rw [Bool.eq_iff_iff, isBoundary_iff_isLead h, isBoundary_iff_isLead h', isLead_append t h]

theorem countLeads_text_append {n : Nat} (h : i + n ≤ s.utf8ByteSize) (total : Nat) :
    countLeads (s ++ t) i n total = countLeads s i n total := by
  induction n generalizing i total with
  | zero => rfl
  | succ n ih =>
      rw [countLeads, countLeads, isLead_append t (by omega), ih (by omega)]

theorem countChars_text_append (hle : start ≤ stop) (h : stop ≤ s.utf8ByteSize) :
    countChars (s ++ t) start stop = countChars s start stop :=
  countLeads_text_append t (by omega) 0

theorem boundaryBefore_append (h : i < s.utf8ByteSize) :
    boundaryBefore (s ++ t) start i = boundaryBefore s start i := by
  induction i with
  | zero => rfl
  | succ i ih =>
      rw [boundaryBefore, boundaryBefore, isBoundary_append t h, ih (Nat.lt_of_succ_lt h)]

theorem lastCharOffset_append (hlt : start < stop) (h : stop ≤ s.utf8ByteSize) :
    lastCharOffset (s ++ t) start stop = lastCharOffset s start stop := by
  simp only [lastCharOffset, if_neg (Nat.ne_of_lt hlt)]
  exact boundaryBefore_append t (by omega)

theorem lastCharOffset_lt (hlt : start < stop) (text : String) :
    lastCharOffset text start stop < stop := by
  have hle (i : Nat) : boundaryBefore text start i ≤ i := by
    induction i with
    | zero => exact Nat.le_refl 0
    | succ i ih =>
        rw [boundaryBefore]
        split
        · exact Nat.le_succ_of_le ih
        · exact Nat.le_refl _
  have hbefore := hle (stop - 1)
  rw [lastCharOffset, if_neg (Nat.ne_of_lt hlt)]
  omega

end Utf8

namespace LineRules

variable {s : String} (t : String) {o : Nat}

/-- Whether a line break ends at a place shows in the bytes before and at the place. -/
theorem breakEnds_append (h : o < s.utf8ByteSize) : breakEnds (s ++ t) o = breakEnds s o := by
  cases o with
  | zero => rfl
  | succ o =>
      simp only [breakEnds, Utf8.byte?_append t h, Utf8.byte?_append t (Nat.lt_of_succ_lt h)]

theorem line_append (h : o < s.utf8ByteSize) : line (s ++ t) o = line s o := by
  induction o with
  | zero => rfl
  | succ o ih => rw [line, line, breakEnds_append t h, ih (Nat.lt_of_succ_lt h)]

theorem start_append (h : o < s.utf8ByteSize) : start (s ++ t) o = start s o := by
  induction o with
  | zero => rfl
  | succ o ih => rw [start, start, breakEnds_append t h, ih (Nat.lt_of_succ_lt h)]

/-- **A place before the end of a text has the same position in a longer text.** -/
theorem spot_append (h : o < s.utf8ByteSize) : spot (s ++ t) o = spot s o := by
  simp only [spot, line_append t h, start_append t h,
    Utf8.countChars_text_append t (start_le s o) (Nat.le_of_lt h)]

end LineRules

/-! ## Tokens of a longer text -/

namespace Input

open ByteRules

variable {short long : Input} {t : String} {start : Nat} {last token : Token}
variable {before rest : List Token} (htext : long.text = short.text ++ t)

include htext

theorem size_le_of_append : short.size ≤ long.size := by
  have hsize := Utf8.size_le_append (s := short.text) t
  rw [← htext] at hsize
  exact hsize

/-- A lexeme that is decided is the same in a longer text. -/
theorem lexemeAt_append {offset : Nat} (hle : offset ≤ short.size)
    (h : Decided (short.lexemeAt offset) (short.size - offset)) :
    long.lexemeAt offset = short.lexemeAt offset := by
  have hbytes : long.source.bytes = short.source.bytes ++ Utf8.bytes t := by
    have happend := Utf8.bytes_append short.text t
    rw [← htext] at happend
    exact happend
  have hlen : short.source.bytes.length = short.size := Source.length_bytes
  have hdrop : (short.source.bytes.drop offset).length = short.size - offset := by
    rw [List.length_drop, hlen]
  rw [← hdrop] at h
  rw [lexemeAt, hbytes, List.drop_append_of_le_length (hlen ▸ hle)]
  exact lexeme_append h _

/-- A token of a text has the same positions in a longer text. -/
theorem tokenOn_append (kind : Kind) {span : Span} (hlt : span.start < span.stop)
    (hle : span.stop ≤ short.size) : long.tokenOn kind span = short.tokenOn kind span := by
  have hfirst : span.start < short.text.utf8ByteSize := Nat.lt_of_lt_of_le hlt hle
  have hlast : Utf8.lastCharOffset short.text span.start span.stop < short.text.utf8ByteSize :=
    Nat.lt_of_lt_of_le (Utf8.lastCharOffset_lt hlt short.text) hle
  have hoffset := Utf8.lastCharOffset_append (s := short.text) t hlt hle
  simp only [tokenOn, lastCharOffset, htext, hoffset, LineRules.spot_append t hfirst,
    LineRules.spot_append t hlast]

/-- A token whose lexeme is decided is a token of a longer text. -/
theorem tokensFrom_append_cons (h : short.tokensFrom start = token :: rest)
    (hd : Decided (short.lexemeAt start) (short.size - start)) :
    long.tokensFrom start = token :: long.tokensFrom token.span.stop := by
  obtain ⟨kind, hkind, rfl, -⟩ := tokensFrom_eq_cons h
  have hlt := short.lt_size_of_kind? hkind
  have htakes := short.lexemeAt_takes hlt
  have hpos := htakes.pos
  have hle := htakes.le
  have hlexeme := lexemeAt_append htext (Nat.le_of_lt hlt) hd
  have hkind' : (long.lexemeAt start).tag.kind? = some kind := by
    rw [hlexeme]
    exact hkind
  rw [tokensFrom_of_kind? hkind', hlexeme, tokenOn_append htext kind (by simpa using hpos)
    (show start + _ ≤ _ by omega)]
  rfl

/-- **Up to where the last token begins, the tokens of a longer text are the same.** -/
theorem tokensFrom_append (h : short.tokensFrom start = before ++ [last]) :
    long.tokensFrom start = before ++ long.tokensFrom last.span.start := by
  induction before generalizing start with
  | nil =>
      obtain ⟨kind, -, rfl, -⟩ := tokensFrom_eq_cons h
      rfl
  | cons token before ih =>
      obtain ⟨kind, -, htoken, hrest⟩ := tokensFrom_eq_cons h
      -- A token follows, so the lexeme of this one leaves something behind it.
      have hlt : start + (short.lexemeAt start).length < short.size := by
        apply Nat.lt_of_not_le
        intro hge
        rw [tokensFrom_of_finish (by rw [short.lexemeAt_of_le hge])] at hrest
        cases before <;> cases hrest
      rw [tokensFrom_append_cons htext h (Or.inl (by omega)), List.cons_append]
      rw [htoken]
      exact congrArg _ (ih hrest.symm)

/-- In a longer text a token begins where the last token began. -/
theorem exists_tokensFrom_append (h : short.tokensFrom start = before ++ [last]) :
    ∃ token rest, long.tokensFrom last.span.start = token :: rest ∧
      token.span.start = last.span.start := by
  obtain ⟨kind, hkind, -, -⟩ := tokensFrom_eq_cons (tokensFrom_last h)
  have hlt := Nat.lt_of_lt_of_le (short.lt_size_of_kind? hkind) (size_le_of_append htext)
  have htakes := long.lexemeAt_takes hlt
  cases hkind' : (long.lexemeAt last.span.start).tag.kind? with
  | none => exact absurd (Tag.kind?_eq_none_iff.mp hkind') htakes.tag_ne
  | some kind' => exact ⟨_, _, tokensFrom_of_kind? hkind', rfl⟩

end Input

/-! ## What stays -/

theorem Kind.isClosed_of_mark {kind : Kind} (h : kind ∈ [.closeParen, .openSquare, .closeSquare,
    .openCurly, .closeCurly, .colon, .semicolon]) :
    kind.isClosed = true ∧ kind ∉ [.string, .comment, .brackets] := by
  revert h
  cases kind <;> decide

theorem Tag.eq_token_of_kind? {tag : Tag} {kind : Kind} (h : tag.kind? = some kind)
    (hkind : kind ∉ [.string, .comment, .brackets]) : tag = .token kind := by
  cases tag with
  | token kind' =>
      cases h
      rfl
  | unclosed construct =>
      cases h
      revert hkind
      cases construct <;> decide
  | finish => cases h

/-- What stays of the tokens of an input in those of a longer text. -/
structure Kept (short : Input) (tokens longer : List Token) : Prop where
  /-- All tokens but the last stay. -/
  init : tokens.dropLast <+: longer
  /-- The token behind them begins where the last one did. -/
  start : ∀ last, tokens.getLast? = some last → ∃ token rest,
    longer = tokens.dropLast ++ token :: rest ∧ token.span.start = last.span.start
  /-- A construct that has its closing delimiter stays too. -/
  accepted : ∀ last, tokens.getLast? = some last → last.kind ∈ [.string, .comment, .brackets] →
    tokenize short .strict = .ok tokens → tokens <+: longer
  /-- And so does a mark. -/
  mark : ∀ last, tokens.getLast? = some last →
    last.kind ∈ [.closeParen, .openSquare, .closeSquare, .openCurly, .closeCurly, .colon,
      .semicolon] → tokens <+: longer

namespace Input

variable {short long : Input} {t : String} {last : Token} {before : List Token}

/-- Where the last token is closed by its last byte, all tokens stay. -/
theorem prefix_of_isClosed (htext : long.text = short.text ++ t)
    (h : short.tokensFrom 0 = before ++ [last])
    (htag : (short.lexemeAt last.span.start).tag = .token last.kind)
    (hclosed : last.kind.isClosed = true) : short.tokensFrom 0 <+: long.tokensFrom 0 := by
  have hlast := tokensFrom_append_cons htext (tokensFrom_last h) (Or.inr ⟨_, htag, hclosed⟩)
  rw [tokensFrom_append htext h, h, hlast]
  exact ⟨long.tokensFrom last.span.stop, by simp⟩

/-- **All tokens of a text but the last stay in a longer text, and the last if it is closed.** -/
theorem kept (htext : long.text = short.text ++ t) :
    Kept short (short.tokensFrom 0) (long.tokensFrom 0) := by
  constructor
  · cases hlast : (short.tokensFrom 0).getLast? with
    | none =>
        rw [List.getLast?_eq_none_iff.mp hlast]
        exact List.nil_prefix
    | some last =>
        obtain ⟨before, hbefore⟩ := List.getLast?_eq_some_iff.mp hlast
        rw [tokensFrom_append htext hbefore, hbefore, List.dropLast_concat]
        exact List.prefix_append _ _
  · intro last hlast
    obtain ⟨before, hbefore⟩ := List.getLast?_eq_some_iff.mp hlast
    obtain ⟨token, rest, htoken, hstart⟩ := exists_tokensFrom_append htext hbefore
    refine ⟨token, rest, ?_, hstart⟩
    rw [tokensFrom_append htext hbefore, htoken, hbefore, List.dropLast_concat]
  · intro last hlast hkind hstrict
    obtain ⟨before, hbefore⟩ := List.getLast?_eq_some_iff.mp hlast
    have htag := tag_of_strict hstrict last (List.mem_of_getLast? hlast)
    refine prefix_of_isClosed htext hbefore htag ?_
    revert hkind
    cases last.kind <;> decide
  · intro last hlast hkind
    obtain ⟨before, hbefore⟩ := List.getLast?_eq_some_iff.mp hlast
    obtain ⟨kind, htag, htoken, -⟩ := tokensFrom_eq_cons (tokensFrom_last hbefore)
    have hsame : last.kind = kind := congrArg Token.kind htoken
    rw [← hsame] at htag
    obtain ⟨hclosed, hmark⟩ := Kind.isClosed_of_mark hkind
    exact prefix_of_isClosed htext hbefore (Tag.eq_token_of_kind? htag hmark) hclosed

theorem exists_ofText {text : String} (name : String) (h : text.utf8ByteSize ≤ Source.maxSize) :
    ∃ input, ofText text name = .ok input ∧ input.text = text := by
  refine ⟨⟨⟨text, h⟩, name, LineIndex.build text, rfl⟩, ?_, rfl⟩
  rw [ofText, Source.ofText_eq h]
  rfl

end Input

/-- **Tokens are stable under more text.** -/
theorem tokenize_append (s t name longName : String)
    (h : (s ++ t).utf8ByteSize ≤ Source.maxSize) :
    ∃ short long, Input.ofText s name = .ok short ∧ Input.ofText (s ++ t) longName = .ok long ∧
      ∃ tokens longer, tokenize short ⟨true⟩ = .ok tokens ∧ tokenize long ⟨true⟩ = .ok longer ∧
        Kept short tokens longer := by
  obtain ⟨short, hshort, hs⟩ := Input.exists_ofText name (Nat.le_trans (Utf8.size_le_append t) h)
  obtain ⟨long, hlong, hst⟩ := Input.exists_ofText longName h
  refine ⟨short, long, hshort, hlong, _, _, tokenize_tolerant short, tokenize_tolerant long, ?_⟩
  exact Input.kept (t := t) (by rw [hst, hs])

/-- A line feed joins the carriage return before it, which was the last token; the string stays. -/
theorem tokenize_append_of_carriageReturn :
    let short : Input := ⟨⟨"'é'\r", by decide⟩, "a.css", LineIndex.build "'é'\r", rfl⟩
    let long : Input := ⟨⟨"'é'\r\na", by decide⟩, "b.css", LineIndex.build "'é'\r\na", rfl⟩
    let tokens : List Token :=
      [⟨.string, ⟨0, 4⟩, ⟨1, 1⟩, ⟨1, 3⟩⟩, ⟨.space, ⟨4, 5⟩, ⟨1, 4⟩, ⟨1, 4⟩⟩]
    let longer : List Token :=
      [⟨.string, ⟨0, 4⟩, ⟨1, 1⟩, ⟨1, 3⟩⟩, ⟨.space, ⟨4, 6⟩, ⟨1, 4⟩, ⟨1, 5⟩⟩,
        ⟨.word, ⟨6, 7⟩, ⟨2, 1⟩, ⟨2, 1⟩⟩]
    ("'é'\r" ++ "\na").utf8ByteSize ≤ Source.maxSize ∧
      tokenize short ⟨true⟩ = .ok tokens ∧ tokenize long ⟨true⟩ = .ok longer ∧
      Kept short tokens longer := by
  intro short long tokens longer
  have hsize : ("'é'\r" ++ "\na").utf8ByteSize ≤ Source.maxSize := by decide
  have hshort : Input.ofText "'é'\r" "a.css" = .ok short := rfl
  have hlong : Input.ofText ("'é'\r" ++ "\na") "b.css" = .ok long := by
    rw [show "'é'\r" ++ "\na" = "'é'\r\na" by decide]
    rfl
  have htokens : tokenize short ⟨true⟩ = .ok tokens := by decide +kernel
  have hlonger : tokenize long ⟨true⟩ = .ok longer := by decide +kernel
  obtain ⟨short', long', hshort', hlong', tokens', longer', htokens', hlonger', hkept⟩ :=
    tokenize_append "'é'\r" "\na" "a.css" "b.css" hsize
  cases hshort.symm.trans hshort'
  cases hlong.symm.trans hlong'
  cases htokens.symm.trans htokens'
  cases hlonger.symm.trans hlonger'
  exact ⟨hsize, htokens, hlonger, hkept⟩

end CssTokens
