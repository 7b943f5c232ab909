import CssTokens.Proofs.TokenStream

/-!
# CssTokens.Proofs.Lossless — the tokens of a text make up the text

No byte of a text is lost and none is in two tokens.  The spans of the tokens `Tiles` the text: the
first begins where the text does, each of the others where the one before it stops, none is empty,
and the last stops where the text does (`Input.tiles_tokensFrom`).  They begin and stop between
characters, so each token has a text, and these texts joined give the text back
(`Tiles.bytes_join`).

All this holds of `Input.tokensFrom` by recursion on the offset.  It is true of the tokens of any
text, however many constructs in it lack their end.
-/

namespace CssTokens

set_option autoImplicit false

/-! ## Spans that fill a stretch -/

/-- Spans one behind the other, none of them empty, from one offset to another. -/
def Tiles (start : Nat) : List Span → Nat → Prop
  | [], stop => start = stop
  | s :: rest, stop => s.start = start ∧ s.start < s.stop ∧ Tiles s.stop rest stop

namespace Tiles

variable {start stop : Nat} {spans : List Span}

theorem le (h : Tiles start spans stop) : start ≤ stop := by
  induction spans generalizing start with
  | nil => exact Nat.le_of_eq h
  | cons s rest ih =>
      obtain ⟨rfl, hlt, hrest⟩ := h
      exact Nat.le_trans (Nat.le_of_lt hlt) (ih hrest)

/-- An offset between the two ends is in one span, and any other in none. -/
theorem countP_contains (h : Tiles start spans stop) (offset : Nat) :
    spans.countP (·.contains offset) = if start ≤ offset ∧ offset < stop then 1 else 0 := by
  induction spans generalizing start with
  | nil =>
      have heq : start = stop := h
      rw [List.countP_nil, if_neg (by omega)]
  | cons s rest ih =>
      obtain ⟨rfl, hlt, hrest⟩ := h
      have hle := hrest.le
      have hcontains : s.contains offset = true ↔ s.start ≤ offset ∧ offset < s.stop := by
        rw [Span.contains, Bool.and_eq_true, decide_eq_true_eq, decide_eq_true_eq]
      rw [List.countP_cons, ih hrest]
      by_cases hin : s.start ≤ offset ∧ offset < s.stop
      · rw [if_pos (hcontains.mpr hin), if_neg (by omega), if_pos (by omega)]
      · rw [if_neg (fun hc => hin (hcontains.mp hc))]
        by_cases hrange : s.stop ≤ offset ∧ offset < stop
        · rw [if_pos hrange, if_pos (by omega)]
        · rw [if_neg hrange, if_neg (by omega)]

/-- The texts of spans that fill a stretch make up the bytes of the stretch. -/
theorem bytes_join (text : String) (h : Tiles start spans stop)
    (hb : ∀ s ∈ spans, Utf8.isBoundary text s.start = true ∧ Utf8.isBoundary text s.stop = true) :
    Utf8.bytes (String.join (spans.map fun s => Utf8.slice text s.start s.stop)) =
      ((Utf8.bytes text).drop start).take (stop - start) := by
  induction spans generalizing start with
  | nil =>
      have heq : start = stop := h
      rw [heq, Nat.sub_self, List.take_zero]
      rfl
  | cons s rest ih =>
      obtain ⟨rfl, hlt, hrest⟩ := h
      have hle := hrest.le
      have hs := hb s List.mem_cons_self
      have htail := ih hrest (fun r hr => hb r (List.mem_cons_of_mem s hr))
      have hsum : stop - s.start = (s.stop - s.start) + (stop - s.stop) := by omega
      have hstop : s.start + (s.stop - s.start) = s.stop := by omega
      rw [List.map_cons, String.join_cons, Utf8.bytes_append, htail,
        Utf8.bytes_slice (Nat.le_of_lt hlt) hs.1 hs.2, hsum, List.take_add, List.drop_drop, hstop]

end Tiles

/-! ## The tokens of an input -/

namespace Input

variable {input : Input}

theorem tiles_tokensFrom {start : Nat} (h : start ≤ input.size) :
    Tiles start ((input.tokensFrom start).map Token.span) input.size := by
  fun_induction tokensFrom input start with
  | case1 start hnone =>
      apply Nat.le_antisymm h
      apply Nat.le_of_not_lt
      intro hlt
      exact (input.lexemeAt_takes hlt).tag_ne (Tag.kind?_eq_none_iff.mp hnone)
  | case2 start kind hkind ih =>
      have htakes := input.lexemeAt_takes (input.lt_size_of_kind? hkind)
      have hpos := htakes.pos
      have hle := htakes.le
      refine ⟨rfl, Nat.lt_add_of_pos_right hpos, ih ?_⟩
      omega

end Input

/-- Tokens that make up a text. -/
structure Lossless (input : Input) (tokens : List Token) : Prop where
  tiles : Tiles 0 (tokens.map Token.span) input.size
  boundaries : ∀ token ∈ tokens, Utf8.isBoundary input.text token.span.start = true ∧
    Utf8.isBoundary input.text token.span.stop = true
  covered : ∀ offset < input.size, tokens.countP (·.span.contains offset) = 1
  joined : String.join (tokens.map input.slice) = input.text

theorem lossless_tokensFrom (input : Input) : Lossless input (input.tokensFrom 0) := by
  have htiles := Input.tiles_tokensFrom (Nat.zero_le input.size)
  have hb : ∀ token ∈ input.tokensFrom 0, Utf8.isBoundary input.text token.span.start = true ∧
      Utf8.isBoundary input.text token.span.stop = true := by
    intro token ht
    exact (Input.mem_tokensFrom (Utf8.isBoundary_zero input.text) ht).2
  refine ⟨htiles, hb, ?_, ?_⟩
  · intro offset hlt
    have hcount := htiles.countP_contains offset
    rw [List.countP_map, if_pos ⟨Nat.zero_le _, hlt⟩] at hcount
    exact hcount
  · apply Utf8.bytes_injective
    have hspans : ∀ s ∈ (input.tokensFrom 0).map Token.span,
        Utf8.isBoundary input.text s.start = true ∧ Utf8.isBoundary input.text s.stop = true := by
      intro s hs
      obtain ⟨token, ht, rfl⟩ := List.mem_map.mp hs
      exact hb token ht
    have hjoin := htiles.bytes_join input.text hspans
    have hsize : input.size = (Utf8.bytes input.text).length := (Utf8.length_bytes input.text).symm
    rw [List.map_map, Nat.sub_zero, List.drop_zero, hsize, List.take_length] at hjoin
    exact hjoin

/-- **Every text that is not too long is split without loss.**  Letting unclosed constructs go, it is
split in any case. -/
theorem tokenize_lossless (text name : String) (h : text.utf8ByteSize ≤ Source.maxSize) :
    ∃ input, Input.ofText text name = .ok input ∧ input.text = text ∧
      (∃ tokens, tokenize input ⟨true⟩ = .ok tokens ∧ Lossless input tokens) ∧
      ∀ tokens, tokenize input .strict = .ok tokens → Lossless input tokens := by
  refine ⟨⟨⟨text, h⟩, name, LineIndex.build text, rfl⟩, ?_, rfl, ?_, ?_⟩
  · unfold Input.ofText Source.ofText Source.checkSize
    rw [dif_pos h]
    rfl
  · exact ⟨_, tokenize_tolerant _, lossless_tokensFrom _⟩
  · intro tokens htokens
    rw [tokenize_eq_ok htokens]
    exact lossless_tokensFrom _

/-- A zero byte in a text is a character like any other. -/
theorem tokenize_lossless_of_zero_byte :
    let input : Input := ⟨⟨"a\x00é(b)", by decide⟩, "zero.css", LineIndex.build "a\x00é(b)", rfl⟩
    let tokens : List Token :=
      [⟨.word, ⟨0, 4⟩, ⟨1, 1⟩, ⟨1, 3⟩⟩, ⟨.brackets, ⟨4, 7⟩, ⟨1, 4⟩, ⟨1, 6⟩⟩]
    Input.ofText "a\x00é(b)" "zero.css" = .ok input ∧ tokenize input .strict = .ok tokens ∧
      Lossless input tokens := by
  intro input tokens
  have hsize : "a\x00é(b)".utf8ByteSize ≤ Source.maxSize := by decide
  have hinput : Input.ofText "a\x00é(b)" "zero.css" = .ok input := rfl
  have htokens : tokenize input .strict = .ok tokens := by decide +kernel
  obtain ⟨input', hinput', -, -, hstrict⟩ := tokenize_lossless "a\x00é(b)" "zero.css" hsize
  rw [hinput] at hinput'
  cases hinput'
  exact ⟨hinput, htokens, hstrict tokens htokens⟩

end CssTokens
