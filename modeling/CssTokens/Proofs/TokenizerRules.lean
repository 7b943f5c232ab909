import CssTokens.Proofs.CharWalk
import CssTokens.Proofs.LineLookup
import CssTokens.Proofs.ScannerSound
import CssTokens.Tokenizer

/-!
# CssTokens.Proofs.TokenizerRules — a tokenizer answers by offset and lexeme

What a search finds is a function of the offset where it begins and of the lexeme there
(`Input.answer`): the memo of the scanner and the hint of the tokenizer have no part in it.  Tokens
have the positions that a walk over the text would give them (`Input.tokenOn`).

This holds while the tokenizer is `Sound`, that is while its scanner is and its hint is valid.  A
search keeps it so and moves by the length of the lexeme (`search_answers`), and so do all other
ways to use a tokenizer (`Sound.nextWith`, `Sound.takeBack`).
-/

namespace CssTokens

set_option autoImplicit false

theorem Tag.kind?_eq_none_iff {tag : Tag} : tag.kind? = none ↔ tag = .finish := by
  cases tag with
  | token kind => exact ⟨nofun, nofun⟩
  | unclosed construct => exact ⟨nofun, nofun⟩
  | finish => exact ⟨fun _ => rfl, fun _ => rfl⟩

theorem Tag.ne_finish_of_kind? {tag : Tag} {kind : Kind} (h : tag.kind? = some kind) :
    tag ≠ .finish := by
  rintro rfl
  cases h

/-! ## Tokens with exact positions -/

namespace Input

variable (input : Input)

/-- The token of a kind at a span, with the spots of its first and of its last character. -/
def tokenOn (kind : Kind) (span : Span) : Token :=
  ⟨kind, span, LineRules.spot input.text span.start,
    LineRules.spot input.text (input.lastCharOffset span)⟩

/-- The lexeme at an offset. -/
def lexemeAt (offset : Nat) : Lexeme :=
  ByteRules.lexeme (input.source.bytes.drop offset)

/-- What a search answers that finds a lexeme at an offset. -/
def answer (recover : Bool) (offset : Nat) (lexeme : Lexeme) :
    Except UnclosedError (Option Token) :=
  match lexeme.tag with
  | .finish => .ok none
  | .token kind => .ok (some (input.tokenOn kind ⟨offset, offset + lexeme.length⟩))
  | .unclosed construct =>
      if recover then
        .ok (some (input.tokenOn construct.kind ⟨offset, offset + lexeme.length⟩))
      else .error ⟨construct, offset, LineRules.spot input.text offset, input.name⟩

variable {input} {hint : ColumnHint}

/-- The three answers: nothing, a token, or an error where an unclosed construct is not let go. -/
theorem answer_cases (input : Input) (recover : Bool) (offset : Nat) (lexeme : Lexeme) :
    (lexeme.tag = .finish ∧ input.answer recover offset lexeme = .ok none) ∨
    (∃ kind, lexeme.tag.kind? = some kind ∧ input.answer recover offset lexeme =
      .ok (some (input.tokenOn kind ⟨offset, offset + lexeme.length⟩))) ∨
    (recover = false ∧ ∃ construct, lexeme.tag = .unclosed construct ∧
      input.answer recover offset lexeme =
        .error ⟨construct, offset, LineRules.spot input.text offset, input.name⟩) := by
  unfold answer
  cases lexeme.tag with
  | finish => exact Or.inl ⟨rfl, rfl⟩
  | token kind => exact Or.inr (Or.inl ⟨kind, rfl, rfl⟩)
  | unclosed construct =>
      cases recover with
      | false => exact Or.inr (Or.inr ⟨rfl, construct, rfl, rfl⟩)
      | true => exact Or.inr (Or.inl ⟨construct.kind, rfl, rfl⟩)

variable {recover : Bool} {offset : Nat} {lexeme : Lexeme}

theorem answer_eq_none (h : input.answer recover offset lexeme = .ok none) :
    lexeme.tag = .finish := by
  rcases input.answer_cases recover offset lexeme with
    ⟨htag, -⟩ | ⟨kind, -, ha⟩ | ⟨-, construct, -, ha⟩
  · exact htag
  · cases h.symm.trans ha
  · cases h.symm.trans ha

theorem answer_eq_token {token : Token}
    (h : input.answer recover offset lexeme = .ok (some token)) :
    ∃ kind, lexeme.tag.kind? = some kind ∧
      token = input.tokenOn kind ⟨offset, offset + lexeme.length⟩ := by
  rcases input.answer_cases recover offset lexeme with
    ⟨-, ha⟩ | ⟨kind, hkind, ha⟩ | ⟨-, construct, -, ha⟩
  · cases h.symm.trans ha
  · cases h.symm.trans ha
    exact ⟨kind, hkind, rfl⟩
  · cases h.symm.trans ha

theorem answer_eq_error {e : UnclosedError} (h : input.answer recover offset lexeme = .error e) :
    recover = false ∧ e.offset = offset ∧ e.position = LineRules.spot input.text offset := by
  rcases input.answer_cases recover offset lexeme with
    ⟨-, ha⟩ | ⟨kind, -, ha⟩ | ⟨hrecover, construct, -, ha⟩
  · cases h.symm.trans ha
  · cases h.symm.trans ha
  · cases h.symm.trans ha
    exact ⟨hrecover, rfl, rfl⟩

/-- A strict answer that is a token is the whole token. -/
theorem tag_of_strict_answer {token : Token}
    (h : input.answer false offset lexeme = .ok (some token)) :
    lexeme.tag = .token token.kind := by
  unfold answer at h
  cases htag : lexeme.tag with
  | finish => simp [htag] at h
  | token kind =>
      simp only [htag] at h
      cases h
      rfl
  | unclosed construct => simp [htag] at h

theorem locate_eq_spot (hv : hint.Valid input.text)
    (hb : Utf8.isBoundary input.text offset = true) :
    (input.locate offset hint).1 = LineRules.spot input.text offset := by
  have hle := Utf8.le_size_of_isBoundary hb
  rw [locate, input.lines_eq]
  show ((LineIndex.build input.text).locate input.text offset hint).1 = _
  rw [LineIndex.locate_eq_spot offset hv, Nat.min_eq_left hle]

theorem locate_valid (offset : Nat) (hv : hint.Valid input.text) :
    (input.locate offset hint).2.Valid input.text := by
  rw [locate, input.lines_eq]
  exact LineIndex.locate_valid offset hv

/-- The only character of a stretch of one byte is its first one. -/
theorem lastCharOffset_of_length_le_one {span : Span} (hlt : span.start < span.stop)
    (hone : span.length ≤ 1) : input.lastCharOffset span = span.start := by
  have hstop : span.stop - 1 = span.start := by
    rw [Span.length] at hone
    omega
  rw [lastCharOffset, Utf8.lastCharOffset, if_neg (Nat.ne_of_lt hlt), hstop]
  cases span.start with
  | zero => rfl
  | succ i =>
      rw [Utf8.boundaryBefore, decide_eq_false (Nat.lt_irrefl _), Bool.false_and]
      exact if_neg Bool.false_ne_true

theorem tokenAt_eq (kind : Kind) (span : Span) (hv : hint.Valid input.text)
    (hb : Utf8.isBoundary input.text span.start = true) (hlt : span.start < span.stop) :
    (input.tokenAt kind span hint).1 = input.tokenOn kind span := by
  have hfirst := locate_eq_spot hv hb
  have hbound : Utf8.isBoundary input.text (input.lastCharOffset span) = true :=
    (Utf8.lastCharOffset_beginsLast hb hlt).boundary
  have hlast := locate_eq_spot (locate_valid span.start hv) hbound
  unfold tokenAt tokenOn
  by_cases hone : span.length ≤ 1
  · simp only [if_pos hone, hfirst, lastCharOffset_of_length_le_one hlt hone]
  · simp only [if_neg hone, hfirst, hlast]

theorem tokenAt_valid (kind : Kind) (span : Span) (hv : hint.Valid input.text) :
    (input.tokenAt kind span hint).2.Valid input.text := by
  have hfirst := locate_valid span.start hv
  unfold tokenAt
  by_cases hone : span.length ≤ 1
  · simp only [if_pos hone]
    exact hfirst
  · simp only [if_neg hone]
    exact locate_valid _ hfirst

end Input

/-! ## Sound tokenizers -/

namespace Tokenizer

variable {input : Input} {t : Tokenizer input}

/-- The scanner of the tokenizer is sound, and its hint is right. -/
structure Sound (t : Tokenizer input) : Prop where
  scanner : t.scanner.Sound
  hint : t.hint.Valid input.text

theorem sound_ofInput (input : Input) (options : Options) : (ofInput input options).Sound :=
  ⟨Scanner.sound_start input.source, ColumnHint.valid_initial input.text⟩

/-- The lexeme where the next search begins. -/
def lexeme (t : Tokenizer input) : Lexeme :=
  input.lexemeAt t.position

theorem step_pos_le (t : Tokenizer input) :
    (t.scanner.step t.pos_le).val.2.pos ≤ input.source.size :=
  (Scanner.step_within t.pos_le).pos_le

/-- The tokenizer with its scanner behind the next lexeme. -/
def moved (t : Tokenizer input) : Tokenizer input :=
  { t with
    scanner := (t.scanner.step t.pos_le).val.2
    pos_le := t.step_pos_le }

theorem Sound.moved (h : t.Sound) : t.moved.Sound :=
  ⟨h.scanner.step (t.scanner.step t.pos_le).property, h.hint⟩

/-- The step of a sound scanner finds the lexeme of the rules. -/
theorem Sound.step_lexeme (h : t.Sound) : (t.scanner.step t.pos_le).val.1 = t.lexeme :=
  (h.scanner.followsRules.of_eq_ok (t.scanner.step t.pos_le).property).lexeme_eq

theorem Sound.moved_position (h : t.Sound) : t.moved.position = t.position + t.lexeme.length := by
  have hpos := (Scanner.step_within t.pos_le).pos_eq
  rw [h.step_lexeme] at hpos
  exact hpos

theorem Sound.tag_eq_finish_iff (h : t.Sound) :
    t.lexeme.tag = .finish ↔ t.position = input.size := by
  have hfinish := (Scanner.step_within t.pos_le).finish_iff
  rw [h.step_lexeme] at hfinish
  exact hfinish

theorem Sound.length_pos (h : t.Sound) (hne : t.lexeme.tag ≠ .finish) : 0 < t.lexeme.length := by
  have hpos := (Scanner.step_within t.pos_le).length_pos
  rw [h.step_lexeme] at hpos
  exact hpos hne

theorem Sound.search_eq (h : t.Sound) (recover : Bool) :
    t.search recover =
      match t.lexeme.tag with
      | .finish => ⟨.ok none, [], t.moved⟩
      | .token kind => t.moved.give kind ⟨t.position, t.position + t.lexeme.length⟩ []
      | .unclosed construct =>
          if recover then
            t.moved.give construct.kind ⟨t.position, t.position + t.lexeme.length⟩
              [.recovered construct ⟨t.position, t.position + t.lexeme.length⟩]
          else t.moved.fail construct t.position := by
  unfold search
  simp only [h.step_lexeme]
  rfl

/-- A reply to a search is the answer for the offset and the lexeme there, and the tokenizer moved
over the lexeme. -/
structure Answers (t : Tokenizer input) (recover : Bool) (reply : Reply input) : Prop where
  outcome : reply.outcome = input.answer recover t.position t.lexeme
  position : reply.after.position = t.position + t.lexeme.length
  options : reply.after.options = t.options
  returned : reply.after.returned = t.returned
  failed : reply.after.failed = true ↔ t.failed = true ∨ ∃ e, reply.outcome = .error e
  sound : reply.after.Sound

theorem give_answers {kind : Kind} {events : List Event} {recover : Bool} (h : t.Sound)
    (hne : t.lexeme.tag ≠ .finish)
    (ha : input.answer recover t.position t.lexeme =
      .ok (some (input.tokenOn kind ⟨t.position, t.position + t.lexeme.length⟩))) :
    Answers t recover
      (t.moved.give kind ⟨t.position, t.position + t.lexeme.length⟩ events) := by
  have hlt := Nat.lt_add_of_pos_right (n := t.position) (h.length_pos hne)
  have htoken := Input.tokenAt_eq kind ⟨t.position, t.position + t.lexeme.length⟩ h.hint
    h.scanner.boundary hlt
  refine ⟨?_, h.moved_position, rfl, rfl, ?_, h.moved.scanner, Input.tokenAt_valid kind _ h.hint⟩
  · rw [ha, ← htoken]
    rfl
  · exact ⟨Or.inl, fun hor => hor.resolve_right nofun⟩

theorem fail_answers {construct : Unclosed} (h : t.Sound)
    (htag : t.lexeme.tag = .unclosed construct) :
    Answers t false (t.moved.fail construct t.position) := by
  have hposition : (input.locate t.position t.hint).1 = LineRules.spot input.text t.position :=
    Input.locate_eq_spot h.hint h.scanner.boundary
  refine ⟨?_, h.moved_position, rfl, rfl, ?_, h.moved.scanner, Input.locate_valid _ h.hint⟩
  · rw [Input.answer, htag, ← hposition]
    rfl
  · exact ⟨fun _ => Or.inr ⟨_, rfl⟩, fun _ => rfl⟩

/-- **A search of a sound tokenizer answers by offset and lexeme.** -/
theorem Sound.search_answers (h : t.Sound) (recover : Bool) :
    Answers t recover (t.search recover) := by
  rw [h.search_eq recover]
  cases htag : t.lexeme.tag with
  | finish =>
      refine ⟨?_, h.moved_position, rfl, rfl, ?_, h.moved⟩
      · rw [Input.answer, htag]
      · exact ⟨Or.inl, fun hor => hor.resolve_right nofun⟩
  | token kind =>
      apply give_answers h
      · rw [htag]
        exact nofun
      · rw [Input.answer, htag]
  | unclosed construct =>
      cases recover with
      | false => exact fail_answers h htag
      | true =>
          apply give_answers h
          · rw [htag]
            exact nofun
          · rw [Input.answer, htag]
            rfl

/-! ## Every way to use a tokenizer keeps it sound -/

theorem nextWith_of_returned {token : Token} (hr : t.returned = some token)
    (options : RequestOptions) :
    t.nextWith options = ⟨.ok (some token), [], { t with returned := none }⟩ := by
  rw [nextWith, hr]

theorem nextWith_of_failed (hr : t.returned = none) (hf : t.failed = true)
    (options : RequestOptions) : t.nextWith options = ⟨.ok none, [], t⟩ := by
  rw [nextWith, hr, hf]
  rfl

theorem nextWith_of_search (hr : t.returned = none) (hf : t.failed = false)
    (options : RequestOptions) :
    t.nextWith options = t.search (t.options.ignoreErrors || options.ignoreUnclosed) := by
  rw [nextWith, hr, hf]
  rfl

/-- While no token was taken back and no error occurred, a request is answered by a search. -/
theorem Sound.nextWith_answers (h : t.Sound) (hr : t.returned = none) (hf : t.failed = false)
    (options : RequestOptions) :
    Answers t (t.options.ignoreErrors || options.ignoreUnclosed) (t.nextWith options) := by
  rw [nextWith_of_search hr hf]
  exact h.search_answers _

theorem Sound.nextWith (h : t.Sound) (options : RequestOptions) :
    (t.nextWith options).after.Sound := by
  cases hr : t.returned with
  | some token =>
      rw [nextWith_of_returned hr]
      exact ⟨h.scanner, h.hint⟩
  | none =>
      cases hf : t.failed with
      | true =>
          rw [nextWith_of_failed hr hf]
          exact h
      | false => exact (h.nextWith_answers hr hf options).sound

theorem takeBack_eq_ok {token : Token} {t' : Tokenizer input} {events : List Event}
    (h : t.takeBack token = .ok (t', events)) :
    t.returned = none ∧ t' = { t with returned := some token } := by
  unfold takeBack at h
  cases hr : t.returned with
  | some other =>
      rw [hr] at h
      cases h
  | none =>
      rw [hr] at h
      cases h
      exact ⟨rfl, rfl⟩

theorem Sound.takeBack (h : t.Sound) {token : Token} {t' : Tokenizer input} {events : List Event}
    (ht : t.takeBack token = .ok (t', events)) : t'.Sound := by
  obtain ⟨-, rfl⟩ := takeBack_eq_ok ht
  exact ⟨h.scanner, h.hint⟩

end Tokenizer

end CssTokens
