import CssTokens.Proofs.LexemeAlone
import CssTokens.Proofs.PrefixStability

/-!
# CssTokens.Proofs.TokensAlone — the text of a token says what it is

A token was cut out of a text with a look at what follows it.  Cut out, its text is a source of its own,
with nothing behind it, and that source is one token again, of the same kind and over all of the text:
so the texts of the tokens are enough to know their kinds.

An opening parenthesis is the exception (`Kind.alone`).  It was one because of a quote further on; without
the quote it is a parenthesis group that lacks its end.

The lexeme of the bytes of a token is the lexeme that they were cut out as (`Input.lexemeAt_alone`), and a
source that begins with a lexeme as long as itself is one token (`Input.tokensFrom_of_whole`).
-/

namespace CssTokens

set_option autoImplicit false

/-- What the text of a token of a kind is when nothing stands behind it. -/
def Kind.alone : Kind → Kind
  | .openParen => .brackets
  | kind => kind

theorem Kind.alone_of_ne {kind : Kind} (h : kind ≠ .openParen) : kind.alone = kind := by
  cases kind with
  | openParen => exact absurd rfl h
  | _ => rfl

/-- A text is one token of a kind, which covers all of it. -/
def IsOneToken (text name : String) (kind : Kind) : Prop :=
  ∃ single token, Input.ofText text name = .ok single ∧ tokenize single ⟨true⟩ = .ok [token] ∧
    token.kind = kind ∧ token.span = ⟨0, single.size⟩ ∧ single.slice token = text

/-- The kind of a text that is one token. -/
def Kind.ofText? (text : String) : Option Kind :=
  match Input.ofText text Input.defaultName with
  | .error _ => none
  | .ok input =>
      match tokenize input ⟨true⟩ with
      | .ok [token] => some token.kind
      | _ => none

theorem IsOneToken.ofText? {text : String} {kind : Kind}
    (h : IsOneToken text Input.defaultName kind) : Kind.ofText? text = some kind := by
  obtain ⟨single, token, hsource, htokens, hkind, -⟩ := h
  simp only [Kind.ofText?, hsource, htokens, hkind]

/-- The bytes of a lexeme, all by themselves, are a lexeme of what its kind is alone, and all of them. -/
theorem ByteRules.lexeme_alone {bs : List UInt8} {kind : Kind}
    (h : (lexeme bs).tag.kind? = some kind) :
    (lexeme (bs.take (lexeme bs).length)).tag.kind? = some kind.alone ∧
      (lexeme (bs.take (lexeme bs).length)).length = (lexeme bs).length := by
  by_cases hopen : (lexeme bs).tag = .token .openParen
  · rw [hopen] at h
    cases h
    rw [lexeme_take_openParen hopen]
    exact ⟨rfl, rfl⟩
  · have hkind : kind ≠ .openParen := by
      rintro rfl
      exact hopen (Tag.eq_token_of_kind? h (by decide))
    rw [lexeme_take hopen, Kind.alone_of_ne hkind]
    exact ⟨h, rfl⟩

namespace Input

open ByteRules

variable {input : Input} {start : Nat} {token : Token}

/-- A token covers the lexeme where it begins. -/
theorem stop_of_mem_tokensFrom (h : token ∈ input.tokensFrom start) :
    token.span.stop = token.span.start + (input.lexemeAt token.span.start).length := by
  fun_induction tokensFrom input start with
  | case1 start hnone => cases h
  | case2 start kind hkind ih =>
      rcases List.mem_cons.mp h with rfl | hrest
      · rfl
      · exact ih hrest

/-- The bytes of the text of a token are those of the lexeme where it begins. -/
theorem bytes_slice_of_mem (h : token ∈ input.tokensFrom 0) :
    Utf8.bytes (input.slice token) =
      (input.source.bytes.drop token.span.start).take (input.lexemeAt token.span.start).length := by
  obtain ⟨-, hstart, hstop⟩ := mem_tokensFrom (Utf8.isBoundary_zero input.text) h
  have hspan := stop_of_mem_tokensFrom h
  have hle : token.span.start ≤ token.span.stop := by omega
  have hlen : token.span.stop - token.span.start = (input.lexemeAt token.span.start).length := by
    omega
  have hbytes := Utf8.bytes_slice hle hstart hstop
  rw [hlen] at hbytes
  exact hbytes

/-- The text of a token, as a source of its own, begins with a lexeme that is as long as the text and
stands for what the token is alone. -/
theorem lexemeAt_alone {single : Input} (h : token ∈ input.tokensFrom 0)
    (htext : single.text = input.slice token) :
    (single.lexemeAt 0).tag.kind? = some token.kind.alone ∧
      (single.lexemeAt 0).length = single.size := by
  have hkind := (mem_tokensFrom (Utf8.isBoundary_zero input.text) h).1
  obtain ⟨htag, hlength⟩ := lexeme_alone hkind
  have hbytes : single.source.bytes = (input.source.bytes.drop token.span.start).take
      (input.lexemeAt token.span.start).length := by
    rw [← bytes_slice_of_mem h, ← htext]
    rfl
  have hsize : single.size = (input.lexemeAt token.span.start).length := by
    have hle := (input.lexemeAt_takes (input.lt_size_of_kind? hkind)).le
    have hlen := congrArg List.length hbytes
    rw [Source.length_bytes, List.length_take, List.length_drop, Source.length_bytes] at hlen
    exact hlen.trans (Nat.min_eq_left hle)
  have hlexeme : single.lexemeAt 0 = lexeme ((input.source.bytes.drop token.span.start).take
      (lexeme (input.source.bytes.drop token.span.start)).length) := by
    rw [lexemeAt, List.drop_zero, hbytes]
    rfl
  rw [hlexeme, hsize]
  exact ⟨htag, hlength⟩

/-- A source that begins with a lexeme as long as itself is one token. -/
theorem tokensFrom_of_whole {single : Input} {kind : Kind}
    (hkind : (single.lexemeAt 0).tag.kind? = some kind)
    (hlength : (single.lexemeAt 0).length = single.size) :
    single.tokensFrom 0 = [single.tokenOn kind ⟨0, single.size⟩] := by
  have hend := congrArg Lexeme.tag (single.lexemeAt_of_le (Nat.le_refl single.size))
  rw [tokensFrom_of_kind? hkind, hlength, Nat.zero_add, tokensFrom_of_finish hend]

/-- The slice over all of a text is the text. -/
theorem sliceSpan_all (single : Input) : single.sliceSpan ⟨0, single.size⟩ = single.text := by
  apply Utf8.bytes_injective
  have hbytes := Utf8.bytes_slice_size (Utf8.isBoundary_zero single.text)
  rw [List.drop_zero] at hbytes
  exact hbytes

/-- **The text of a token is one token of the same kind**, or of the kind that it has alone. -/
theorem isOneToken_of_mem (h : token ∈ input.tokensFrom 0) (name : String) :
    IsOneToken (input.slice token) name token.kind.alone := by
  have hsize : (input.slice token).utf8ByteSize ≤ Source.maxSize := by
    have hle := input.source.size_le
    have hlen := congrArg List.length (bytes_slice_of_mem h)
    rw [Utf8.length_bytes, List.length_take, List.length_drop, Source.length_bytes] at hlen
    rw [hlen]
    exact Nat.le_trans (Nat.min_le_right _ _) (Nat.le_trans (Nat.sub_le _ _) hle)
  obtain ⟨single, hsource, htext⟩ := exists_ofText name hsize
  obtain ⟨hkind, hlength⟩ := lexemeAt_alone h htext
  refine ⟨single, single.tokenOn token.kind.alone ⟨0, single.size⟩, hsource, ?_, rfl, rfl, ?_⟩
  · rw [tokenize_tolerant, tokensFrom_of_whole hkind hlength]
  · rw [← htext]
    exact sliceSpan_all single

end Input

/-- **The texts of the tokens say what the tokens are.**  Each of them, all by itself, is one token of
the same kind over all of its text, an opening parenthesis apart; so the kinds are read off the texts. -/
theorem tokens_known_by_text (input : Input) :
    ∃ tokens, tokenize input ⟨true⟩ = .ok tokens ∧
      (∀ token ∈ tokens, ∀ name, IsOneToken (input.slice token) name token.kind.alone) ∧
      tokens.map (fun token => Kind.ofText? (input.slice token)) =
        tokens.map fun token => some token.kind.alone := by
  refine ⟨input.tokensFrom 0, tokenize_tolerant input, ?_, ?_⟩
  · intro token htoken name
    exact Input.isOneToken_of_mem htoken name
  · apply List.map_congr_left
    intro token htoken
    exact (Input.isOneToken_of_mem htoken Input.defaultName).ofText?

/-- A parenthesis before a quote, an escape that takes a line break along, and a string without its
end: alone, the parenthesis is a group. -/
theorem tokens_known_by_text_of_openParen :
    let input : Input := ⟨⟨"(\\41\r\n'é", by decide⟩, "a.css", LineIndex.build "(\\41\r\n'é", rfl⟩
    let paren : Token := ⟨.openParen, ⟨0, 1⟩, ⟨1, 1⟩, ⟨1, 1⟩⟩
    let word : Token := ⟨.word, ⟨1, 6⟩, ⟨1, 2⟩, ⟨1, 6⟩⟩
    let string : Token := ⟨.string, ⟨6, 9⟩, ⟨2, 1⟩, ⟨2, 2⟩⟩
    tokenize input ⟨true⟩ = .ok [paren, word, string] ∧ IsOneToken "(" "b.css" .brackets ∧
      IsOneToken "\\41\r\n" "b.css" .word ∧ IsOneToken "'é" "b.css" .string := by
  intro input paren word string
  have htokens : tokenize input ⟨true⟩ = .ok [paren, word, string] := by decide +kernel
  obtain ⟨tokens, htokens', hone, -⟩ := tokens_known_by_text input
  cases htokens.symm.trans htokens'
  have hparen : input.slice paren = "(" := by decide +kernel
  have hword : input.slice word = "\\41\r\n" := by decide +kernel
  have hstring : input.slice string = "'é" := by decide +kernel
  refine ⟨htokens, ?_, ?_, ?_⟩
  · exact hparen ▸ hone paren (by simp) "b.css"
  · exact hword ▸ hone word (by simp) "b.css"
  · exact hstring ▸ hone string (by simp) "b.css"

end CssTokens
