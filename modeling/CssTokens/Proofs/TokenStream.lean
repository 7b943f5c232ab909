import CssTokens.Proofs.TokenizerRules
import CssTokens.Tokenizer.Collect

/-!
# CssTokens.Proofs.TokenStream — the tokens of an input, one behind the other

`Input.tokensFrom` lists the tokens from an offset on: the one that the lexeme there is, with exact
positions, and then those behind it.  There is no tokenizer in it and no state.

Nothing else ever comes out of an input.  If all tokens are asked for and no error puts an end to
them, they are these tokens (`collectInto_tokens`), and without strictness there is no error
(`tokenize_tolerant`, `tokenize_eq_ok`).  With it, no token that comes out lacks a closing delimiter
(`tag_of_strict`).
-/

namespace CssTokens

set_option autoImplicit false

namespace Input

variable (input : Input)

theorem lexemeAt_of_le {offset : Nat} (h : input.size ≤ offset) :
    input.lexemeAt offset = ⟨.finish, 0⟩ := by
  have hlen : input.source.bytes.length ≤ offset := by
    rw [Source.length_bytes]
    exact h
  rw [lexemeAt, List.drop_of_length_le hlen]
  rfl

theorem lexemeAt_takes {offset : Nat} (h : offset < input.size) :
    ByteRules.Takes (input.lexemeAt offset) (input.size - offset) := by
  have hlen : (input.source.bytes.drop offset).length = input.size - offset := by
    rw [List.length_drop, Source.length_bytes]
    rfl
  rw [← hlen, lexemeAt]
  cases hbytes : input.source.bytes.drop offset with
  | nil =>
      rw [hbytes, List.length_nil] at hlen
      omega
  | cons b bs => exact ByteRules.lexeme_takes b bs

theorem lt_size_of_kind? {offset : Nat} {kind : Kind}
    (h : (input.lexemeAt offset).tag.kind? = some kind) : offset < input.size := by
  apply Nat.lt_of_not_le
  intro hle
  rw [input.lexemeAt_of_le hle] at h
  cases h

/-- Behind a lexeme that begins at a boundary there is one. -/
theorem isBoundary_lexemeAt {offset : Nat} (hlt : offset < input.size)
    (hb : Utf8.isBoundary input.text offset = true) :
    Utf8.isBoundary input.text (offset + (input.lexemeAt offset).length) = true := by
  have hle := (input.lexemeAt_takes hlt).le
  have henc := (Utf8.isBoundary_iff_encoded.mp hb).2
  refine Utf8.isBoundary_iff_encoded.mpr ⟨?_, ?_⟩
  · show offset + (input.lexemeAt offset).length ≤ input.size
    omega
  · rw [← List.drop_drop]
    exact ByteRules.lexeme_encoded henc

/-- The tokens from an offset on, up to the end of the text. -/
def tokensFrom (start : Nat) : List Token :=
  match _h : (input.lexemeAt start).tag.kind? with
  | none => []
  | some kind =>
      input.tokenOn kind ⟨start, start + (input.lexemeAt start).length⟩ ::
        tokensFrom (start + (input.lexemeAt start).length)
termination_by input.size - start
decreasing_by
  have hlt := input.lt_size_of_kind? _h
  have hpos := (input.lexemeAt_takes hlt).pos
  omega

variable {input} {start : Nat}

theorem tokensFrom_of_finish (h : (input.lexemeAt start).tag = .finish) :
    input.tokensFrom start = [] := by
  rw [tokensFrom]
  split
  · rfl
  · next kind hkind =>
      rw [h] at hkind
      cases hkind

theorem tokensFrom_of_kind? {kind : Kind} (h : (input.lexemeAt start).tag.kind? = some kind) :
    input.tokensFrom start =
      input.tokenOn kind ⟨start, start + (input.lexemeAt start).length⟩ ::
        input.tokensFrom (start + (input.lexemeAt start).length) := by
  rw [tokensFrom]
  split
  · next hnone =>
      rw [h] at hnone
      cases hnone
  · next kind' hkind =>
      rw [h] at hkind
      cases hkind
      rfl

variable {token last : Token} {before rest : List Token}

theorem tokensFrom_eq_cons (h : input.tokensFrom start = token :: rest) :
    ∃ kind, (input.lexemeAt start).tag.kind? = some kind ∧
      token = input.tokenOn kind ⟨start, start + (input.lexemeAt start).length⟩ ∧
      rest = input.tokensFrom (start + (input.lexemeAt start).length) := by
  cases hkind : (input.lexemeAt start).tag.kind? with
  | none =>
      rw [tokensFrom_of_finish (Tag.kind?_eq_none_iff.mp hkind)] at h
      cases h
  | some kind =>
      rw [tokensFrom_of_kind? hkind] at h
      cases h
      exact ⟨kind, rfl, rfl, rfl⟩

/-- From where the last token begins, it is the only one. -/
theorem tokensFrom_last (h : input.tokensFrom start = before ++ [last]) :
    input.tokensFrom last.span.start = [last] := by
  induction before generalizing start with
  | nil =>
      obtain ⟨kind, -, rfl, -⟩ := tokensFrom_eq_cons h
      exact h
  | cons token before ih =>
      obtain ⟨kind, -, -, hrest⟩ := tokensFrom_eq_cons h
      exact ih hrest.symm

/-- Every token is that of the lexeme where it begins, and begins and ends at boundaries. -/
theorem mem_tokensFrom {token : Token} (hb : Utf8.isBoundary input.text start = true)
    (h : token ∈ input.tokensFrom start) :
    (input.lexemeAt token.span.start).tag.kind? = some token.kind ∧
      Utf8.isBoundary input.text token.span.start = true ∧
      Utf8.isBoundary input.text token.span.stop = true := by
  fun_induction tokensFrom input start with
  | case1 start hnone => cases h
  | case2 start kind hkind ih =>
      have hbehind := input.isBoundary_lexemeAt (input.lt_size_of_kind? hkind) hb
      rcases List.mem_cons.mp h with rfl | hrest
      · exact ⟨hkind, hb, hbehind⟩
      · exact ih hbehind hrest

end Input

/-! ## Asking for all tokens -/

namespace Tokenizer

variable {input : Input} {t : Tokenizer input}

theorem Answers.failed_eq_false {recover : Bool} {reply : Reply input} {found : Option Token}
    (h : Answers t recover reply) (hf : t.failed = false) (ho : reply.outcome = .ok found) :
    reply.after.failed = false := by
  apply Bool.eq_false_iff.mpr
  intro hfailed
  rcases h.failed.mp hfailed with hbefore | ⟨e, he⟩
  · rw [hf] at hbefore
    cases hbefore
  · rw [ho] at he
    cases he

/-- An answer with a token gives out the first token ahead, and the others are ahead then. -/
theorem Answers.tokensFrom {recover : Bool} {reply : Reply input} {token : Token}
    (h : Answers t recover reply) (ho : reply.outcome = .ok (some token)) :
    input.tokensFrom t.position = token :: input.tokensFrom reply.after.position := by
  obtain ⟨kind, hkind, rfl⟩ := Input.answer_eq_token (h.outcome.symm.trans ho)
  rw [h.position]
  exact Input.tokensFrom_of_kind? hkind

/-- All tokens that are asked for, up to the end, are the tokens ahead; and there is no error unless
the tokenizer is strict. -/
theorem collectInto_tokens (tokens : Array Token) (events : Array Event) (h : t.Sound)
    (hr : t.returned = none) (hf : t.failed = false) :
    ((t.collectInto tokens events).error = none →
      (t.collectInto tokens events).tokens.toList = tokens.toList ++ input.tokensFrom t.position) ∧
    (t.options.ignoreErrors = true → (t.collectInto tokens events).error = none) := by
  fun_induction collectInto t tokens events with
  | case1 t tokens events e reported after hnext =>
      have hanswers := h.nextWith_answers hr hf .usual
      rw [show t.nextWith .usual = _ from hnext] at hanswers
      refine ⟨nofun, ?_⟩
      intro hignore
      have hrecover := (Input.answer_eq_error hanswers.outcome.symm).1
      rw [hignore] at hrecover
      cases hrecover
  | case2 t tokens events reported after hnext =>
      have hanswers := h.nextWith_answers hr hf .usual
      rw [show t.nextWith .usual = _ from hnext] at hanswers
      constructor
      · intro _
        rw [Input.tokensFrom_of_finish (Input.answer_eq_none hanswers.outcome.symm),
          List.append_nil]
      · intro _
        rfl
  | case3 t tokens events token reported after hnext ih =>
      have hanswers := h.nextWith_answers hr hf .usual
      rw [show t.nextWith .usual = _ from hnext] at hanswers
      have hstep := ih hanswers.sound (hanswers.returned.trans hr)
        (hanswers.failed_eq_false hf rfl)
      rw [hanswers.tokensFrom rfl, ← hanswers.options]
      rw [Array.toList_push, List.append_assoc] at hstep
      exact hstep

/-- If a strict tokenizer gives out all tokens, each has its closing delimiter if it needs one. -/
theorem collectInto_strict (tokens : Array Token) (events : Array Event) (h : t.Sound)
    (hr : t.returned = none) (hf : t.failed = false) (hstrict : t.options.ignoreErrors = false)
    (herror : (t.collectInto tokens events).error = none) :
    ∀ token ∈ input.tokensFrom t.position,
      (input.lexemeAt token.span.start).tag = .token token.kind := by
  fun_induction collectInto t tokens events with
  | case1 t tokens events e reported after hnext => cases herror
  | case2 t tokens events reported after hnext =>
      have hanswers := h.nextWith_answers hr hf .usual
      rw [show t.nextWith .usual = _ from hnext] at hanswers
      intro token hmem
      rw [Input.tokensFrom_of_finish (Input.answer_eq_none hanswers.outcome.symm)] at hmem
      cases hmem
  | case3 t tokens events token reported after hnext ih =>
      have hanswers := h.nextWith_answers hr hf .usual
      rw [show t.nextWith .usual = _ from hnext] at hanswers
      rw [hanswers.tokensFrom rfl]
      intro token' hmem
      rcases List.mem_cons.mp hmem with rfl | hrest
      · have hanswer : input.answer false t.position t.lexeme = .ok (some token') := by
          have houtcome := hanswers.outcome.symm
          rw [hstrict] at houtcome
          exact houtcome
        obtain ⟨kind, -, rfl⟩ := Input.answer_eq_token hanswer
        exact Input.tag_of_strict_answer hanswer
      · exact ih hanswers.sound (hanswers.returned.trans hr) (hanswers.failed_eq_false hf rfl)
          (hanswers.options ▸ hstrict) herror token' hrest

end Tokenizer

variable {input : Input}

/-- **Without strictness, an input gives all its tokens.** -/
theorem tokenize_tolerant (input : Input) : tokenize input ⟨true⟩ = .ok (input.tokensFrom 0) := by
  have hall := Tokenizer.collectInto_tokens #[] #[] (Tokenizer.sound_ofInput input ⟨true⟩) rfl rfl
  have herror := hall.2 rfl
  have htokens := hall.1 herror
  unfold tokenize Tokenizer.collect
  simp only [herror, htokens, List.nil_append]
  rfl

theorem tokenize_eq_ok {options : Options} {tokens : List Token}
    (h : tokenize input options = .ok tokens) : tokens = input.tokensFrom 0 := by
  have hall := Tokenizer.collectInto_tokens #[] #[] (Tokenizer.sound_ofInput input options) rfl rfl
  unfold tokenize Tokenizer.collect at h
  cases herror : ((Tokenizer.ofInput input options).collectInto #[] #[]).error with
  | some e =>
      simp only [herror] at h
      cases h
  | none =>
      simp only [herror] at h
      cases h
      exact hall.1 herror

/-- What strictness accepts has its closing delimiters. -/
theorem tag_of_strict {tokens : List Token}
    (h : tokenize input .strict = .ok tokens) :
    ∀ token ∈ tokens, (input.lexemeAt token.span.start).tag = .token token.kind := by
  have hstrict := Tokenizer.collectInto_strict #[] #[]
    (Tokenizer.sound_ofInput input .strict) rfl rfl rfl
  rw [tokenize_eq_ok h]
  unfold tokenize Tokenizer.collect at h
  cases herror : ((Tokenizer.ofInput input .strict).collectInto #[] #[]).error with
  | none => exact hstrict herror
  | some e =>
      simp only [herror] at h
      cases h

end CssTokens
