import CssTokens.Proofs.TokenStream

/-!
# CssTokens.Proofs.RecoveryRuns — strict and tolerant runs agree

A run is a list of requests, each without options or with some, put to a new tokenizer one after the
other.  Whatever the options are, it gives out the tokens that a tolerant run gives out, in order, and
nothing more behind them (`Stream.all`); with one exception.  If the last token is a construct without
its closing delimiter, and neither the tokenizer nor the one request that comes to it lets it go, then
an error stands in its place (`Stream.allButLast`).

`Stops` is this exception, and `ErrorFits` says what the error tells about the last token.  That runs
agree is shown by induction on the requests, over all states that are reached without a token taken
back (`Tokenizer.Sound.outcomes_agree`): a request drops the first of the tokens ahead, and the
exception stays the same as long as a token is left (`stops_cons`).
-/

namespace CssTokens

set_option autoImplicit false

/-! ## Requests and their outcomes -/

/-- A request for a token. -/
inductive Request where
  | next
  | nextWith (options : RequestOptions)

/-- The options of a request. -/
def Request.options : Request → RequestOptions
  | next => .usual
  | nextWith options => options

/-- What comes of a request. -/
abbrev Outcome : Type :=
  Except UnclosedError (Option Token)

namespace Tokenizer

variable {input : Input} {t : Tokenizer input}

/-- Puts a request to a tokenizer. -/
def ask (t : Tokenizer input) : Request → Reply input
  | .next => t.next
  | .nextWith options => t.nextWith options

theorem ask_eq (t : Tokenizer input) (request : Request) :
    t.ask request = t.nextWith request.options := by
  cases request with
  | next => rfl
  | nextWith options => rfl

/-- What comes of requests put to a tokenizer one after the other. -/
def outcomes (t : Tokenizer input) : List Request → List Outcome
  | [] => []
  | request :: requests =>
      (t.ask request).outcome :: (t.ask request).after.outcomes requests

end Tokenizer

/-! ## Streams -/

namespace Stream

/-- All tokens, and nothing more behind them. -/
def all (tokens : List Token) (k : Nat) : Outcome :=
  .ok tokens[k]?

/-- All tokens but the last, an error in its place, and nothing more behind it. -/
def allButLast (tokens : List Token) (e : UnclosedError) (k : Nat) : Outcome :=
  if k + 1 = tokens.length then .error e else .ok tokens[k]?

/-- The first outcomes of a stream. -/
def first (stream : Nat → Outcome) (n : Nat) : List Outcome :=
  (List.range n).map stream

theorem first_succ (stream : Nat → Outcome) (n : Nat) :
    first stream (n + 1) = stream 0 :: first (fun k => stream (k + 1)) n := by
  rw [first, List.range_succ_eq_map, List.map_cons, List.map_map]
  rfl

theorem first_all_cons (token : Token) (tokens : List Token) (n : Nat) :
    first (all (token :: tokens)) (n + 1) = .ok (some token) :: first (all tokens) n := by
  rw [first_succ]
  rfl

theorem first_allButLast_cons {tokens : List Token} (token : Token) (e : UnclosedError) (n : Nat)
    (hne : tokens ≠ []) :
    first (allButLast (token :: tokens) e) (n + 1) =
      .ok (some token) :: first (allButLast tokens e) n := by
  have hpos := List.length_pos_iff.mpr hne
  have hzero : allButLast (token :: tokens) e 0 = .ok (some token) := by
    rw [allButLast, List.length_cons, if_neg (by omega)]
    rfl
  have hsucc (k : Nat) : allButLast (token :: tokens) e (k + 1) = allButLast tokens e k := by
    simp only [allButLast, List.length_cons, Nat.add_right_cancel_iff, List.getElem?_cons_succ]
  rw [first_succ, hzero]
  simp only [hsucc]

/-- Behind one error there is nothing. -/
theorem first_allButLast_singleton (token : Token) (e : UnclosedError) (n : Nat) :
    first (allButLast [token] e) (n + 1) = .error e :: first (all []) n := by
  have hsucc (k : Nat) : allButLast [token] e (k + 1) = all [] k := by
    rw [allButLast, List.length_singleton, if_neg (by omega)]
    rfl
  rw [first_succ]
  simp only [hsucc]
  rfl

end Stream

/-! ## The exception -/

/-- The last of the tokens is a construct without its closing delimiter, and nothing lets it go:
neither the options of the tokenizer nor those of the request that comes to it. -/
def Stops (input : Input) (tokens : List Token) (options : Options) (requests : List Request) :
    Prop :=
  (∃ last construct, tokens.getLast? = some last ∧
    ByteRules.Unfinished construct (input.source.bytes.drop last.span.start)) ∧
  options.ignoreErrors = false ∧
  ∃ request, requests[tokens.length - 1]? = some request ∧ request.options.ignoreUnclosed = false

/-- The error tells what the last of the tokens is, where it begins and in which input; it stands at
the opening delimiter, and the token reaches to the end of the text. -/
structure ErrorFits (input : Input) (tokens : List Token) (e : UnclosedError) : Prop where
  last : ∃ last, tokens.getLast? = some last ∧ last.kind = e.construct.kind ∧
    last.span.stop = input.size ∧ e.offset = last.span.start ∧ e.position = last.first
  inputName : e.inputName = input.name
  opener : ∃ opener ∈ ByteRules.openers e.construct,
    Utf8.bytes opener <+: input.source.bytes.drop e.offset

/-- The outcomes of a run of requests are the tokens ahead and then nothing; in the exception, an
error stands in place of the last token. -/
def Agrees (input : Input) (tokens : List Token) (options : Options) (requests : List Request)
    (outcomes : List Outcome) : Prop :=
  (¬ Stops input tokens options requests ∧
    outcomes = Stream.first (Stream.all tokens) requests.length) ∨
  (Stops input tokens options requests ∧ ∃ e, ErrorFits input tokens e ∧
    outcomes = Stream.first (Stream.allButLast tokens e) requests.length)

variable {input : Input} {options : Options}

theorem not_stops_nil (requests : List Request) : ¬ Stops input [] options requests := by
  rintro ⟨⟨last, construct, hlast, -⟩, -⟩
  cases hlast

/-- A token in front does not change what becomes of the last one. -/
theorem stops_cons {token : Token} {tokens : List Token} (request : Request)
    (requests : List Request) (hne : tokens ≠ []) :
    Stops input (token :: tokens) options (request :: requests) ↔
      Stops input tokens options requests := by
  obtain ⟨n, hn⟩ : ∃ n, tokens.length = n + 1 :=
    Nat.exists_eq_add_one.mpr (List.length_pos_iff.mpr hne)
  have hlast : (token :: tokens).getLast? = tokens.getLast? := by
    obtain ⟨second, rest, rfl⟩ := List.exists_cons_of_ne_nil hne
    exact List.getLast?_cons_cons
  have hrequest : (request :: requests)[(token :: tokens).length - 1]? =
      requests[tokens.length - 1]? := by
    rw [List.length_cons, hn, Nat.add_sub_cancel, Nat.add_sub_cancel, List.getElem?_cons_succ]
  unfold Stops
  rw [hlast, hrequest]

theorem ErrorFits.cons {tokens : List Token} {e : UnclosedError} (token : Token)
    (h : ErrorFits input tokens e) : ErrorFits input (token :: tokens) e := by
  obtain ⟨last, hlast, hfits⟩ := h.last
  refine ⟨⟨last, ?_, hfits⟩, h.inputName, h.opener⟩
  rw [List.getLast?_cons, hlast]
  rfl

/-- A token in front that is not the exception itself is given out first. -/
theorem Agrees.cons {token : Token} {tokens : List Token} {request : Request}
    {requests : List Request} {outcomes : List Outcome}
    (h : Agrees input tokens options requests outcomes)
    (hfinished : ∀ construct,
      ¬ ByteRules.Unfinished construct (input.source.bytes.drop token.span.start)) :
    Agrees input (token :: tokens) options (request :: requests) (.ok (some token) :: outcomes) := by
  by_cases hne : tokens = []
  · subst hne
    rcases h with ⟨-, rfl⟩ | ⟨hstops, -⟩
    · refine Or.inl ⟨?_, (Stream.first_all_cons token [] _).symm⟩
      rintro ⟨⟨last, construct, hlast, hunfinished⟩, -⟩
      cases hlast
      exact hfinished construct hunfinished
    · exact absurd hstops (not_stops_nil requests)
  · rcases h with ⟨hstops, rfl⟩ | ⟨hstops, e, he, rfl⟩
    · refine Or.inl ⟨?_, (Stream.first_all_cons token tokens _).symm⟩
      rwa [stops_cons request requests hne]
    · refine Or.inr ⟨(stops_cons request requests hne).mpr hstops, e, he.cons token, ?_⟩
      exact (Stream.first_allButLast_cons token e _ hne).symm

/-! ## Runs -/

namespace Tokenizer

variable {t : Tokenizer input}

/-- Where the text is over, or an error occurred, nothing comes any more. -/
theorem outcomes_of_over (h : t.Sound) (hr : t.returned = none)
    (hover : t.failed = true ∨ t.position = input.size) (requests : List Request) :
    t.outcomes requests = Stream.first (Stream.all []) requests.length := by
  induction requests generalizing t with
  | nil => rfl
  | cons request requests ih =>
      rw [outcomes, ask_eq, List.length_cons, Stream.first_succ]
      cases hf : t.failed with
      | true =>
          rw [nextWith_of_failed hr hf, ih h hr (Or.inl hf)]
          rfl
      | false =>
          have hanswers := h.nextWith_answers hr hf request.options
          have hend : t.position = input.size := by
            rcases hover with hfailed | hend
            · rw [hf] at hfailed
              cases hfailed
            · exact hend
          have hlexeme : t.lexeme = ⟨.finish, 0⟩ := input.lexemeAt_of_le (Nat.le_of_eq hend.symm)
          have houtcome := hanswers.outcome
          have hposition := hanswers.position
          rw [hlexeme] at houtcome hposition
          rw [houtcome, ih hanswers.sound (hanswers.returned.trans hr)
            (Or.inr (hposition.trans hend))]
          rfl

/-- An unclosed construct reaches to the end of the text. -/
theorem Sound.unfinished (h : t.Sound) {construct : Unclosed}
    (htag : t.lexeme.tag = .unclosed construct) :
    ByteRules.Unfinished construct (input.source.bytes.drop t.position) ∧
      t.position + t.lexeme.length = input.size := by
  have hunfinished := ByteRules.unfinished_of_tag htag
  refine ⟨hunfinished, ?_⟩
  have hlexeme : t.lexeme = ⟨.unclosed construct, (input.source.bytes.drop t.position).length⟩ :=
    ByteRules.lexeme_of_unfinished hunfinished
  have hle : t.position ≤ input.size := h.scanner.pos_le
  rw [hlexeme, List.length_drop, Source.length_bytes]
  show t.position + (input.size - t.position) = input.size
  omega

/-- So it is the last token, if it is one. -/
theorem Sound.tokensFrom_of_unclosed (h : t.Sound) {construct : Unclosed}
    (htag : t.lexeme.tag = .unclosed construct) :
    input.tokensFrom t.position = [input.tokenOn construct.kind ⟨t.position, input.size⟩] := by
  have hend : t.position + (input.lexemeAt t.position).length = input.size := (h.unfinished htag).2
  have hkind : (input.lexemeAt t.position).tag.kind? = some construct.kind :=
    congrArg Tag.kind? htag
  have hbehind := congrArg Lexeme.tag (input.lexemeAt_of_le (Nat.le_refl input.size))
  rw [Input.tokensFrom_of_kind? hkind, hend, Input.tokensFrom_of_finish hbehind]

/-- A run that comes to an unclosed construct gets it as a token or as an error, and then nothing. -/
theorem Sound.agrees_of_unclosed (h : t.Sound) (hr : t.returned = none) (hf : t.failed = false)
    {construct : Unclosed} (htag : t.lexeme.tag = .unclosed construct) (request : Request)
    (requests : List Request) :
    Agrees input [input.tokenOn construct.kind ⟨t.position, input.size⟩] t.options
      (request :: requests) (t.outcomes (request :: requests)) := by
  obtain ⟨hunfinished, hend⟩ := h.unfinished htag
  have hanswers := h.nextWith_answers hr hf request.options
  have hover := hanswers.position.trans hend
  have houtcome := hanswers.outcome
  rw [Input.answer, htag] at houtcome
  rw [outcomes, ask_eq,
    outcomes_of_over hanswers.sound (hanswers.returned.trans hr) (Or.inr hover)]
  cases hrecover : t.options.ignoreErrors || request.options.ignoreUnclosed with
  | true =>
      simp only [hrecover, if_true, hend] at houtcome
      refine Or.inl ⟨?_, ?_⟩
      · rintro ⟨-, hstrict, request', hrequest, hflag⟩
        cases hrequest
        rw [hstrict, hflag] at hrecover
        cases hrecover
      · rw [houtcome]
        exact (Stream.first_all_cons _ [] _).symm
  | false =>
      obtain ⟨hstrict, hflag⟩ := Bool.or_eq_false_iff.mp hrecover
      simp only [hrecover, Bool.false_eq_true, if_false] at houtcome
      refine Or.inr ⟨⟨⟨_, construct, rfl, hunfinished⟩, hstrict, request, rfl, hflag⟩,
        ⟨construct, t.position, LineRules.spot input.text t.position, input.name⟩, ?_, ?_⟩
      · exact ⟨⟨_, rfl, rfl, rfl, rfl, rfl⟩, rfl, hunfinished.opener⟩
      · rw [houtcome]
        exact (Stream.first_allButLast_singleton _ _ _).symm

theorem Sound.outcomes_agree (h : t.Sound) (hr : t.returned = none) (hf : t.failed = false)
    (requests : List Request) :
    Agrees input (input.tokensFrom t.position) t.options requests (t.outcomes requests) := by
  induction requests generalizing t with
  | nil =>
      refine Or.inl ⟨?_, rfl⟩
      rintro ⟨-, -, request, hrequest, -⟩
      cases hrequest
  | cons request requests ih =>
      cases htag : t.lexeme.tag with
      | finish =>
          have hend := h.tag_eq_finish_iff.mp htag
          rw [Input.tokensFrom_of_finish htag]
          exact Or.inl ⟨not_stops_nil _, outcomes_of_over h hr (Or.inr hend) _⟩
      | token kind =>
          have hanswers := h.nextWith_answers hr hf request.options
          have houtcome := hanswers.outcome
          rw [Input.answer, htag] at houtcome
          have hagrees := ih hanswers.sound (hanswers.returned.trans hr)
            (hanswers.failed_eq_false hf houtcome)
          rw [hanswers.options] at hagrees
          rw [outcomes, ask_eq, houtcome, hanswers.tokensFrom houtcome]
          apply hagrees.cons
          intro construct hunfinished
          have hlexeme := congrArg Lexeme.tag (ByteRules.lexeme_of_unfinished hunfinished)
          cases htag.symm.trans hlexeme
      | unclosed construct =>
          rw [h.tokensFrom_of_unclosed htag]
          exact h.agrees_of_unclosed hr hf htag request requests

end Tokenizer

/-- There is an error among the outcomes exactly in the exception. -/
theorem Agrees.error_mem_iff {tokens : List Token} {requests : List Request}
    {outcomes : List Outcome} (h : Agrees input tokens options requests outcomes) :
    (∃ e, Except.error e ∈ outcomes) ↔ Stops input tokens options requests := by
  rcases h with ⟨hstops, rfl⟩ | ⟨hstops, e, -, rfl⟩
  · constructor
    · rintro ⟨e, he⟩
      obtain ⟨k, -, hk⟩ := List.mem_map.mp he
      cases hk
    · intro hs
      exact absurd hs hstops
  · constructor
    · intro _
      exact hstops
    · intro _
      obtain ⟨⟨last, construct, hlast, -⟩, -, request, hrequest, -⟩ := hstops
      obtain ⟨hlt, -⟩ := List.getElem?_eq_some_iff.mp hrequest
      have hpos : 0 < tokens.length := by
        rw [List.length_pos_iff]
        rintro rfl
        cases hlast
      refine ⟨e, List.mem_map.mpr ⟨tokens.length - 1, List.mem_range.mpr hlt, ?_⟩⟩
      rw [Stream.allButLast, if_pos (by omega)]

/-- **Strict, tolerant and mixed runs agree.**  The tokens of a tolerant run come out of every run,
and only if nothing lets it go an unclosed construct at the end is an error instead. -/
theorem recovery_runs_agree (input : Input) :
    ∃ tokens, tokenize input ⟨true⟩ = .ok tokens ∧
      ∀ (options : Options) (requests : List Request),
        Agrees input tokens options requests
            ((Tokenizer.ofInput input options).outcomes requests) ∧
          ((∃ e, .error e ∈ (Tokenizer.ofInput input options).outcomes requests) ↔
            Stops input tokens options requests) := by
  refine ⟨input.tokensFrom 0, tokenize_tolerant input, ?_⟩
  intro options requests
  have hsound := Tokenizer.sound_ofInput input options
  have hagrees := hsound.outcomes_agree rfl rfl requests
  exact ⟨hagrees, hagrees.error_mem_iff⟩

end CssTokens
