import CssTokens.Proofs.Pushback

/-!
# CssTokens.Proofs.Session — a tokenizer and everything that came of it

A tokenizer is called: asked for a token, as a request or as an iterator, or given a token back.  A
`Session` is a tokenizer together with all that came of it so far, one `Exchange` for each call: what the
call was, which token was pending then, what was answered, and what was reported.

There is one statement about what a call can do, `Sound.exchange_effect`, with four cases (`Effect`).
Nothing comes of it; or a token is taken back; or a token is found where the tokenizer stands, and the
tokenizer goes on behind it; or an unclosed construct is an error, and the tokenizer stands at the end of
the text.  What is true of all sessions follows from it by induction on the calls (`Session.calls_induction`).
-/

namespace CssTokens

set_option autoImplicit false

/-! ## Calls and answers -/

/-- Everything that can be done with a tokenizer. -/
inductive Call where
  | ask (request : Request)
  /-- The tokenizer as an iterator, which has items while there are tokens. -/
  | iterate
  | takeBack (token : Token)

/-- The options with which a call asks for a token, if it does. -/
def Call.options? : Call → Option RequestOptions
  | ask request => some request.options
  | iterate => some .usual
  | takeBack _ => none

theorem Call.eq_takeBack {c : Call} (h : c.options? = none) : ∃ token, c = .takeBack token := by
  cases c with
  | takeBack token => exact ⟨token, rfl⟩
  | ask request => cases h
  | iterate => cases h

/-- The item of an iterator that an outcome is; nothing at the end of the tokens. -/
def Outcome.item? : Outcome → Option (Except UnclosedError Token)
  | .ok none => none
  | .ok (some token) => some (.ok token)
  | .error e => some (.error e)

/-- What a call is answered. -/
inductive Answer where
  | outcome (outcome : Outcome)
  | item (item? : Option (Except UnclosedError Token))
  | taken
  | refused (report : PushbackOccupied)

namespace Answer

/-- The token that is given out. -/
def token? : Answer → Option Token
  | outcome (.ok token?) => token?
  | item (some (.ok token)) => some token
  | _ => none

/-- The error that is answered. -/
def error? : Answer → Option UnclosedError
  | outcome (.error e) => some e
  | item (some (.error e)) => some e
  | _ => none

/-- Whether a token was taken back. -/
def isTaken : Answer → Bool
  | taken => true
  | _ => false

end Answer

/-- A call and what came of it. -/
structure Exchange where
  call : Call
  /-- The token that was pending when the call was made. -/
  pending : Option Token
  answer : Answer
  /-- What was reported, in order. -/
  events : List Event

namespace Exchange

/-- The token that was searched for, found and given out: not a pending one. -/
def fresh? (x : Exchange) : Option Token :=
  match x.pending with
  | some _ => none
  | none => x.answer.token?

/-- The token that was taken back. -/
def accepted? (x : Exchange) : Option Token :=
  match x.call with
  | .takeBack token => if x.answer.isTaken then some token else none
  | _ => none

/-- Whether the answer is an error. -/
def failed (x : Exchange) : Bool :=
  x.answer.error?.isSome

end Exchange

namespace Tokenizer

variable {input : Input}

/-- What comes of a call, and the tokenizer behind it. -/
def exchange (t : Tokenizer input) : Call → Exchange × Tokenizer input
  | .ask request =>
      let reply := t.ask request
      (⟨.ask request, t.returned, .outcome reply.outcome, reply.events⟩, reply.after)
  | .iterate =>
      let reply := t.next
      (⟨.iterate, t.returned, .item (Outcome.item? reply.outcome), reply.events⟩, reply.after)
  | .takeBack token =>
      match t.takeBack token with
      | .ok (t', events) => (⟨.takeBack token, t.returned, .taken, events⟩, t')
      | .error report => (⟨.takeBack token, t.returned, .refused report, []⟩, t)

end Tokenizer

/-! ## Sessions -/

/-- A tokenizer with all that came of it, the earliest first. -/
structure Session (input : Input) where
  past : List Exchange
  tokenizer : Tokenizer input

namespace Session

variable {input : Input}

/-- A new tokenizer. -/
def start (input : Input) (options : Options) : Session input :=
  ⟨[], .ofInput input options⟩

/-- Makes one more call. -/
def call (s : Session input) (call : Call) : Session input :=
  ⟨s.past ++ [(s.tokenizer.exchange call).1], (s.tokenizer.exchange call).2⟩

/-- Makes calls one after the other. -/
def calls (s : Session input) (calls : List Call) : Session input :=
  calls.foldl call s

/-- A holder of a tokenizer makes a call. -/
def Moves (s s' : Session input) : Prop :=
  ∃ c, s' = s.call c

/-- The tokens that were found, in order. -/
def fresh (s : Session input) : List Token :=
  s.past.filterMap Exchange.fresh?

/-- The tokens that were taken back, in order. -/
def accepted (s : Session input) : List Token :=
  s.past.filterMap Exchange.accepted?

/-- Whether an error was answered. -/
def failed (s : Session input) : Bool :=
  s.past.any Exchange.failed

/-- Everything that was reported, in order. -/
def log (s : Session input) : List Event :=
  s.past.flatMap Exchange.events

/-- What holds at first and is kept by every call holds of all sessions. -/
theorem calls_induction {P : Session input → Prop} {s : Session input} (hstart : P s)
    (hcall : ∀ s c, P s → P (s.call c)) (calls : List Call) : P (s.calls calls) := by
  induction calls generalizing s with
  | nil => exact hstart
  | cons c calls ih => exact ih (hcall s c hstart)

variable {s : Session input} {c : Call}

theorem filterMap_concat {α β : Type} (f : α → Option β) (xs : List α) (x : α) :
    (xs ++ [x]).filterMap f = xs.filterMap f ++ (f x).toList := by
  rw [List.filterMap_append]
  cases h : f x with
  | none => rw [List.filterMap_cons_none h]; rfl
  | some y => rw [List.filterMap_cons_some h]; rfl

theorem fresh_call (s : Session input) (c : Call) :
    (s.call c).fresh = s.fresh ++ (s.tokenizer.exchange c).1.fresh?.toList := by
  exact filterMap_concat Exchange.fresh? s.past _

theorem log_call (s : Session input) (c : Call) :
    (s.call c).log = s.log ++ (s.tokenizer.exchange c).1.events := by
  simp [log, call]

theorem failed_call (s : Session input) (c : Call) :
    (s.call c).failed = (s.failed || (s.tokenizer.exchange c).1.failed) := by
  simp [failed, call]

end Session

/-! ## What a call can do -/

/-- The report of a token that was found: that it was found, and if it is a construct without its end
also that it was let go, up to the end of the text. -/
inductive Reported (input : Input) (token : Token) (events : List Event) : Prop where
  | whole
      (hfinished : ∀ construct,
        ¬ ByteRules.Unfinished construct (input.source.bytes.drop token.span.start))
      (hevents : events = [.found token])
  | recovered (construct : Unclosed)
      (hunfinished : ByteRules.Unfinished construct (input.source.bytes.drop token.span.start))
      (hkind : token.kind = construct.kind) (hstop : token.span.stop = input.size)
      (hevents : events = [.recovered construct token.span, .found token])

namespace Tokenizer

variable {input : Input}

/-- The effects of a call that `x` tells about, from one tokenizer to the next. -/
inductive Effect (t : Tokenizer input) (x : Exchange) (t' : Tokenizer input) : Prop where
  /-- Nothing comes of it: a pending token is given out, or nothing, or a token is refused. -/
  | quiet (hfresh : x.fresh? = none) (haccepted : x.accepted? = none) (hfailed : x.failed = false)
      (hevents : x.events = []) (hposition : t'.position = t.position)
      (hsame : t'.failed = t.failed)
  /-- A token is taken back. -/
  | taken (token : Token) (hfresh : x.fresh? = none) (haccepted : x.accepted? = some token)
      (hfailed : x.failed = false) (hevents : x.events = [.takenBack token])
      (hposition : t'.position = t.position) (hsame : t'.failed = t.failed)
  /-- A token is found. -/
  | found (token : Token) (hfresh : x.fresh? = some token) (haccepted : x.accepted? = none)
      (hfailed : x.failed = false) (hevents : Reported input token x.events)
      (hlt : t.position < t'.position) (hposition : t'.position = token.span.stop)
      (hbefore : t.failed = false) (hsame : t'.failed = false)
  /-- An unclosed construct is an error. -/
  | error (hfresh : x.fresh? = none) (haccepted : x.accepted? = none) (hfailed : x.failed = true)
      (hevents : x.events = []) (hposition : t'.position = input.size) (hafter : t'.failed = true)

/-! ### Asking -/

/-- However a token is asked for, it is a request with the options of the call. -/
theorem exchange_of_options (t : Tokenizer input) {c : Call} {options : RequestOptions}
    (h : c.options? = some options) :
    (t.exchange c).2 = (t.nextWith options).after ∧
      (t.exchange c).1.events = (t.nextWith options).events ∧
      (t.exchange c).1.pending = t.returned ∧
      (t.exchange c).1.accepted? = none ∧
      (t.exchange c).1.answer.token? = (Answer.outcome (t.nextWith options).outcome).token? ∧
      (t.exchange c).1.answer.error? = (Answer.outcome (t.nextWith options).outcome).error? := by
  cases c with
  | ask request =>
      cases h
      rw [exchange, ask_eq]
      exact ⟨rfl, rfl, rfl, rfl, rfl, rfl⟩
  | iterate =>
      cases h
      refine ⟨rfl, rfl, rfl, rfl, ?_, ?_⟩
      · show (Answer.item (Outcome.item? (t.nextWith .usual).outcome)).token? = _
        rcases (t.nextWith .usual).outcome with e | _ | token <;> rfl
      · show (Answer.item (Outcome.item? (t.nextWith .usual).outcome)).error? = _
        rcases (t.nextWith .usual).outcome with e | _ | token <;> rfl
  | takeBack token => cases h

/-- A lexeme with its end is reported as found. -/
theorem reported_of_token {kind : Kind} {token : Token}
    (htag : (input.lexemeAt token.span.start).tag = .token kind) :
    Reported input token [.found token] := by
  refine .whole ?_ rfl
  intro construct hunfinished
  have hlexeme := congrArg Lexeme.tag (ByteRules.lexeme_of_unfinished hunfinished)
  cases htag.symm.trans hlexeme

/-- A token that a search finds begins where the tokenizer stands and ends where it stands then. -/
theorem Sound.search_span {t : Tokenizer input} (h : t.Sound) {recover : Bool} {token : Token}
    (ho : (t.search recover).outcome = .ok (some token)) :
    token.span = ⟨t.position, (t.search recover).after.position⟩ ∧
      t.position < (t.search recover).after.position := by
  have hanswers := h.search_answers recover
  obtain ⟨kind, hkind, rfl⟩ := Input.answer_eq_token (hanswers.outcome.symm.trans ho)
  rw [hanswers.position]
  exact ⟨rfl, Nat.lt_add_of_pos_right (h.length_pos (Tag.ne_finish_of_kind? hkind))⟩

theorem give_events {t : Tokenizer input} {kind : Kind} {span : Span} {events : List Event}
    {token : Token} (ho : (t.give kind span events).outcome = .ok (some token)) :
    (t.give kind span events).events = events ++ [.found token] := by
  cases ho
  rfl

theorem Sound.search_reported {t : Tokenizer input} (h : t.Sound) {recover : Bool} {token : Token}
    (ho : (t.search recover).outcome = .ok (some token)) :
    Reported input token (t.search recover).events := by
  have houtcome := (h.search_answers recover).outcome
  obtain ⟨kind, hkind, rfl⟩ := Input.answer_eq_token (houtcome.symm.trans ho)
  rw [h.search_eq] at ho ⊢
  cases htag : t.lexeme.tag with
  | finish =>
      rw [htag] at hkind
      cases hkind
  | token kind' =>
      simp only [htag] at ho ⊢
      rw [give_events ho]
      exact reported_of_token htag
  | unclosed construct =>
      rw [htag] at hkind
      cases hkind
      obtain ⟨hunfinished, hend⟩ := h.unfinished htag
      cases recover with
      | false =>
          simp only [htag] at ho
          cases ho
      | true =>
          simp only [htag, if_true] at ho ⊢
          rw [give_events ho]
          exact .recovered construct hunfinished rfl hend rfl

/-- A search that finds the end of the text stays there and reports nothing. -/
theorem Sound.search_over {t : Tokenizer input} (h : t.Sound) {recover : Bool}
    (ho : (t.search recover).outcome = .ok none) :
    (t.search recover).events = [] ∧ t.position = input.size ∧
      (t.search recover).after.position = t.position := by
  have hanswers := h.search_answers recover
  have htag := Input.answer_eq_none (hanswers.outcome.symm.trans ho)
  have hend := h.tag_eq_finish_iff.mp htag
  have hlexeme : t.lexeme = ⟨.finish, 0⟩ := input.lexemeAt_of_le (Nat.le_of_eq hend.symm)
  refine ⟨?_, hend, ?_⟩
  · simp only [h.search_eq, htag]
  · rw [hanswers.position, hlexeme]
    rfl

/-- A search that ends with an error has come to the end of the text and reports nothing. -/
theorem Sound.search_error {t : Tokenizer input} (h : t.Sound) {recover : Bool} {e : UnclosedError}
    (ho : (t.search recover).outcome = .error e) :
    (t.search recover).events = [] ∧ (t.search recover).after.position = input.size := by
  rw [(h.search_answers recover).position]
  rw [h.search_eq] at ho ⊢
  cases htag : t.lexeme.tag with
  | finish =>
      simp only [htag] at ho
      cases ho
  | token kind =>
      simp only [htag] at ho
      cases ho
  | unclosed construct =>
      simp only [htag] at ho ⊢
      cases recover with
      | true => cases ho
      | false => exact ⟨rfl, (h.unfinished htag).2⟩

/-! ### The effect of a call -/

/-- What can come of a token taken back. -/
theorem takeBack_effect (t : Tokenizer input) (token : Token) :
    Effect t (t.exchange (.takeBack token)).1 (t.exchange (.takeBack token)).2 := by
  rw [exchange, takeBack]
  cases hr : t.returned with
  | some pending => exact .quiet rfl rfl rfl rfl rfl rfl
  | none => exact .taken token rfl rfl rfl rfl rfl rfl

/-- What can come of a search. -/
theorem Sound.search_effect {t : Tokenizer input} (h : t.Sound) (hf : t.failed = false)
    (recover : Bool) {x : Exchange}
    (hfresh : x.fresh? = (Answer.outcome (t.search recover).outcome).token?)
    (haccepted : x.accepted? = none)
    (hfailed : x.failed = (Answer.outcome (t.search recover).outcome).error?.isSome)
    (hevents : x.events = (t.search recover).events) :
    Effect t x (t.search recover).after := by
  have hanswers := h.search_answers recover
  cases ho : (t.search recover).outcome with
  | error e =>
      rw [ho] at hfresh hfailed
      obtain ⟨hreport, hend⟩ := h.search_error ho
      have hafter := hanswers.failed.mpr (Or.inr ⟨e, ho⟩)
      exact .error hfresh haccepted hfailed (hevents.trans hreport) hend hafter
  | ok found? =>
      rw [ho] at hfresh hfailed
      have hafter := hanswers.failed_eq_false hf ho
      cases found? with
      | none =>
          obtain ⟨hreport, -, hstays⟩ := h.search_over ho
          exact .quiet hfresh haccepted hfailed (hevents.trans hreport) hstays
            (hafter.trans hf.symm)
      | some token =>
          obtain ⟨hspan, hlt⟩ := h.search_span ho
          have hstop := (congrArg Span.stop hspan).symm
          exact .found token hfresh haccepted hfailed (hevents ▸ h.search_reported ho) hlt hstop hf
            hafter

/-- **What a call can do.** -/
theorem Sound.exchange_effect {t : Tokenizer input} (h : t.Sound) (c : Call) :
    Effect t (t.exchange c).1 (t.exchange c).2 := by
  cases hc : c.options? with
  | none =>
      obtain ⟨token, rfl⟩ := Call.eq_takeBack hc
      exact t.takeBack_effect token
  | some options =>
      obtain ⟨hafter, hevents, hpending, haccepted, htoken, herror⟩ := t.exchange_of_options hc
      have hfailed : (t.exchange c).1.failed =
          (Answer.outcome (t.nextWith options).outcome).error?.isSome := by
        rw [Exchange.failed, herror]
      rw [hafter]
      cases hr : t.returned with
      | some pending =>
          have hfresh : (t.exchange c).1.fresh? = none := by rw [Exchange.fresh?, hpending, hr]
          rw [nextWith_of_returned hr] at hevents hfailed ⊢
          exact .quiet hfresh haccepted hfailed hevents rfl rfl
      | none =>
          have hfresh : (t.exchange c).1.fresh? =
              (Answer.outcome (t.nextWith options).outcome).token? := by
            rw [Exchange.fresh?, hpending, hr, htoken]
          cases hf : t.failed with
          | true =>
              rw [nextWith_of_failed hr hf] at hevents hfresh hfailed ⊢
              exact .quiet hfresh haccepted hfailed hevents rfl rfl
          | false =>
              rw [nextWith_of_search hr hf] at hevents hfresh hfailed ⊢
              exact h.search_effect hf _ hfresh haccepted hfailed hevents

/-- Every call keeps a tokenizer sound. -/
theorem Sound.exchange {t : Tokenizer input} (h : t.Sound) (c : Call) : (t.exchange c).2.Sound := by
  cases hc : c.options? with
  | none =>
      obtain ⟨token, rfl⟩ := Call.eq_takeBack hc
      rw [Tokenizer.exchange]
      split
      · next t' events htake => exact h.takeBack htake
      · exact h
  | some options =>
      rw [(t.exchange_of_options hc).1]
      exact h.nextWith options

end Tokenizer

end CssTokens
