import Mathlib.Data.List.Basic
import CssTokens.Proofs.Session

/-!
# CssTokens.Proofs.EventLog — the log mirrors the session

What is reported in a session is all that came of it, and nothing else.  Each exchange accounts for its
own events (`Exchange.Accounted`): a token that was found is reported once, and with it, directly before,
that its construct was let go if it has no end; a token that was taken back is reported once; of all other
exchanges there is no report.  The log of a session is put together from these, so its traces are the
tokens that were found and those that were taken back, in order.

That a construct is let go happens once at most: the token reaches to the end of the text, and no other
token can be found there (`LetGoOnce`).
-/

namespace CssTokens

set_option autoImplicit false

/-- Whether an event has this level and this message. -/
def Event.isOf (level : Level) (message : String) (e : Event) : Bool :=
  e.level = level && e.message = message

/-- The fields of a trace that is about a token. -/
def Token.traceFields (message : String) (token : Token) : List (String × FieldValue) :=
  [("end", .number token.span.stop), ("kind", .text token.kind.name), ("message", .text message),
    ("start", .number token.span.start)]

/-- The fields of the report that a token is a construct without its end. -/
def Token.letGoFields (construct : Unclosed) (token : Token) : List (String × FieldValue) :=
  [("end", .number token.span.stop), ("error", .text construct.message),
    ("kind", .text token.kind.name), ("message", .text "recovered"),
    ("start", .number token.span.start)]

variable {input : Input}

/-! ## Single exchanges -/

/-- What an exchange has to report. -/
inductive Exchange.Accounted (input : Input) (x : Exchange) : Prop where
  | nothing (hfresh : x.fresh? = none) (haccepted : x.accepted? = none) (hevents : x.events = [])
  | taken (token : Token) (hfresh : x.fresh? = none) (haccepted : x.accepted? = some token)
      (hevents : x.events = [.takenBack token])
  | found (token : Token) (hfresh : x.fresh? = some token) (haccepted : x.accepted? = none)
      (hreported : Reported input token x.events)

theorem Tokenizer.Effect.accounted {t t' : Tokenizer input} {x : Exchange} (h : t.Effect x t') :
    x.Accounted input := by
  cases h with
  | quiet hfresh haccepted hfailed hevents hposition hsame =>
      exact .nothing hfresh haccepted hevents
  | taken token hfresh haccepted hfailed hevents hposition hsame =>
      exact .taken token hfresh haccepted hevents
  | found token hfresh haccepted hfailed hevents hlt hposition hbefore hsame =>
      exact .found token hfresh haccepted hevents
  | error hfresh haccepted hfailed hevents hposition hafter =>
      exact .nothing hfresh haccepted hevents

namespace Exchange

variable {x : Exchange}

theorem Accounted.found_events (h : x.Accounted input) :
    x.events.filter (Event.isOf .trace "token") = x.fresh?.toList.map .found := by
  cases h with
  | nothing hfresh haccepted hevents => rw [hfresh, hevents]; rfl
  | taken token hfresh haccepted hevents => rw [hfresh, hevents]; rfl
  | found token hfresh haccepted hreported =>
      rw [hfresh]
      cases hreported with
      | whole hfinished hevents => rw [hevents]; rfl
      | recovered construct hunfinished hkind hstop hevents => rw [hevents]; rfl

theorem Accounted.takenBack_events (h : x.Accounted input) :
    x.events.filter (Event.isOf .trace "back") = x.accepted?.toList.map .takenBack := by
  cases h with
  | nothing hfresh haccepted hevents => rw [haccepted, hevents]; rfl
  | taken token hfresh haccepted hevents => rw [haccepted, hevents]; rfl
  | found token hfresh haccepted hreported =>
      rw [haccepted]
      cases hreported with
      | whole hfinished hevents => rw [hevents]; rfl
      | recovered construct hunfinished hkind hstop hevents => rw [hevents]; rfl

theorem Accounted.of_letGo {e : Event} (h : x.Accounted input) (he : e ∈ x.events)
    (hletGo : e.isOf .debug "recovered" = true) :
    ∃ construct token, x.fresh? = some token ∧
      ByteRules.Unfinished construct (input.source.bytes.drop token.span.start) ∧
      x.events = [e, .found token] ∧ e.fields = token.letGoFields construct := by
  cases h with
  | nothing hfresh haccepted hevents =>
      rw [hevents] at he
      cases he
  | taken token hfresh haccepted hevents =>
      rw [hevents, List.mem_singleton] at he
      rw [he] at hletGo
      cases hletGo
  | found token hfresh haccepted hreported =>
      cases hreported with
      | whole hfinished hevents =>
          rw [hevents, List.mem_singleton] at he
          rw [he] at hletGo
          cases hletGo
      | recovered construct hunfinished hkind hstop hevents =>
          rw [hevents, List.mem_pair] at he
          rcases he with rfl | rfl
          · refine ⟨construct, token, hfresh, hunfinished, hevents, ?_⟩
            rw [Token.letGoFields, hkind]
            rfl
          · cases hletGo

theorem Accounted.exists_letGo {token : Token} {construct : Unclosed} (h : x.Accounted input)
    (hfresh : x.fresh? = some token)
    (hunfinished : ByteRules.Unfinished construct (input.source.bytes.drop token.span.start)) :
    ∃ e ∈ x.events, e.isOf .debug "recovered" = true := by
  cases h with
  | nothing hnone haccepted hevents => cases hnone.symm.trans hfresh
  | taken other hnone haccepted hevents => cases hnone.symm.trans hfresh
  | found other hsome haccepted hreported =>
      cases hsome.symm.trans hfresh
      cases hreported with
      | whole hfinished hevents => exact absurd hunfinished (hfinished construct)
      | recovered construct' hunfinished' hkind hstop hevents =>
          rw [hevents]
          exact ⟨_, List.mem_cons_self, rfl⟩

end Exchange

/-! ## The log -/

namespace Session

variable {s : Session input} {c : Call}

/-- Every exchange of a session accounts for its events. -/
def Accounted (s : Session input) : Prop :=
  ∀ x ∈ s.past, x.Accounted input

/-- The reports that constructs were let go. -/
def letGo (s : Session input) : List Event :=
  s.log.filter (Event.isOf .debug "recovered")

/-- Nothing was let go yet; or one construct was, and the tokenizer stands at the end of the text. -/
structure LetGoOnce (s : Session input) : Prop where
  length_le : s.letGo.length ≤ 1
  position : s.letGo ≠ [] → s.tokenizer.position = input.size

/-- The log is put together from what the exchanges report. -/
theorem filter_log {p : Event → Bool} {pick : Exchange → Option Token} {report : Token → Event}
    (h : ∀ x ∈ s.past, x.events.filter p = (pick x).toList.map report) :
    s.log.filter p = (s.past.filterMap pick).map report := by
  rw [log, List.filter_flatMap, List.flatMap_congr h, List.filterMap_eq_flatMap_toList, List.map_flatMap]

theorem letGo_call (s : Session input) (c : Call) :
    (s.call c).letGo =
      s.letGo ++ (s.tokenizer.exchange c).1.events.filter (Event.isOf .debug "recovered") := by
  rw [letGo, log_call, List.filter_append, letGo]

theorem accounted_start (input : Input) (options : Options) : (start input options).Accounted := by
  intro x hx
  cases hx

theorem letGoOnce_start (input : Input) (options : Options) : (start input options).LetGoOnce :=
  ⟨Nat.zero_le 1, fun hne => absurd rfl hne⟩

/-- A call that lets nothing go, and does not leave the end of the text, keeps the invariant. -/
theorem LetGoOnce.call_of_same (h : s.LetGoOnce)
    (hevents : (s.tokenizer.exchange c).1.events.filter (Event.isOf .debug "recovered") = [])
    (hend : s.tokenizer.position = input.size → (s.call c).tokenizer.position = input.size) :
    (s.call c).LetGoOnce := by
  have hsame : (s.call c).letGo = s.letGo := by rw [letGo_call, hevents, List.append_nil]
  refine ⟨?_, ?_⟩
  · rw [hsame]
    exact h.length_le
  · rw [hsame]
    exact fun hne => hend (h.position hne)

/-- Nothing is found at the end of the text, so nothing was let go before a token was found. -/
theorem LetGoOnce.call (h : s.LetGoOnce) (hsound : s.tokenizer.Sound) (c : Call) :
    (s.call c).LetGoOnce := by
  cases hsound.exchange_effect c with
  | quiet hfresh haccepted hfailed hevents hposition hsame =>
      apply h.call_of_same
      · rw [hevents, List.filter_nil]
      · exact fun hend => hposition.trans hend
  | taken token hfresh haccepted hfailed hevents hposition hsame =>
      apply h.call_of_same
      · rw [hevents]
        rfl
      · exact fun hend => hposition.trans hend
  | error hfresh haccepted hfailed hevents hposition hafter =>
      apply h.call_of_same
      · rw [hevents, List.filter_nil]
      · exact fun _ => hposition
  | found token hfresh haccepted hfailed hreported hlt hposition hbefore hsame =>
      have hle : (s.call c).tokenizer.position ≤ input.size := (s.call c).tokenizer.pos_le
      have hlt : s.tokenizer.position < (s.call c).tokenizer.position := hlt
      have hnone : s.letGo = [] := by
        apply Classical.byContradiction
        intro hne
        have hend := h.position hne
        omega
      cases hreported with
      | whole hfinished hevents =>
          apply h.call_of_same
          · rw [hevents]
            rfl
          · omega
      | recovered construct hunfinished hkind hstop hevents =>
          refine ⟨?_, fun _ => hposition.trans hstop⟩
          rw [letGo_call, hnone, hevents]
          exact Nat.le_refl 1

theorem Accounted.call (h : s.Accounted) (hsound : s.tokenizer.Sound) (c : Call) :
    (s.call c).Accounted := by
  intro x hx
  rcases List.mem_append.mp hx with hpast | hlast
  · exact h x hpast
  · rw [List.mem_singleton.mp hlast]
    exact (hsound.exchange_effect c).accounted

/-- What it means that the log mirrors the session. -/
structure LogMirrors (s : Session input) : Prop where
  /-- The traces of tokens are those of the tokens that were found, in order, one for each. -/
  found : (s.log.filter (Event.isOf .trace "token")).map Event.fields =
    s.fresh.map (Token.traceFields "token")
  /-- The traces of tokens taken back are those of the tokens that were accepted. -/
  takenBack : (s.log.filter (Event.isOf .trace "back")).map Event.fields =
    s.accepted.map (Token.traceFields "back")
  /-- It is reported at most once that a construct is let go. -/
  letGo_length_le : (s.log.filter (Event.isOf .debug "recovered")).length ≤ 1
  /-- It is, if a token was found that is a construct without its end. -/
  letGo_iff : (∃ e ∈ s.log, e.isOf .debug "recovered" = true) ↔
    ∃ token ∈ s.fresh, ∃ construct,
      ByteRules.Unfinished construct (input.source.bytes.drop token.span.start)
  /-- The report stands directly before that of the token, has its kind and its ends, and says what
  is wrong with the construct that it is. -/
  letGo_fields : ∀ e ∈ s.log, e.isOf .debug "recovered" = true →
    ∃ token ∈ s.fresh, ∃ construct,
      ByteRules.Unfinished construct (input.source.bytes.drop token.span.start) ∧
      [e, .found token] <:+: s.log ∧ e.fields = token.letGoFields construct
  /-- Nothing else is reported: not of pending tokens given out again, of the end of the tokens, of
  errors or of tokens that are refused. -/
  nothing_else : ∀ x ∈ s.past, x.fresh? = none → x.accepted? = none → x.events = []

theorem Accounted.logMirrors (h : s.Accounted) (honce : s.LetGoOnce) : LogMirrors s where
  found := by
    rw [filter_log fun x hx => (h x hx).found_events, List.map_map]
    rfl
  takenBack := by
    rw [filter_log fun x hx => (h x hx).takenBack_events, List.map_map]
    rfl
  letGo_length_le := honce.length_le
  letGo_iff := by
    constructor
    · rintro ⟨e, he, hletGo⟩
      obtain ⟨x, hx, hmem⟩ := List.mem_flatMap.mp he
      obtain ⟨construct, token, hfresh, hunfinished, -, -⟩ := (h x hx).of_letGo hmem hletGo
      exact ⟨token, List.mem_filterMap.mpr ⟨x, hx, hfresh⟩, construct, hunfinished⟩
    · rintro ⟨token, htoken, construct, hunfinished⟩
      obtain ⟨x, hx, hfresh⟩ := List.mem_filterMap.mp htoken
      obtain ⟨e, he, hletGo⟩ := (h x hx).exists_letGo hfresh hunfinished
      exact ⟨e, List.mem_flatMap.mpr ⟨x, hx, he⟩, hletGo⟩
  letGo_fields e he hletGo := by
    obtain ⟨x, hx, hmem⟩ := List.mem_flatMap.mp he
    obtain ⟨construct, token, hfresh, hunfinished, hevents, hfields⟩ :=
      (h x hx).of_letGo hmem hletGo
    have hinfix : x.events <:+: s.log := List.infix_of_mem_flatten (List.mem_map_of_mem hx)
    rw [hevents] at hinfix
    exact ⟨token, List.mem_filterMap.mpr ⟨x, hx, hfresh⟩, construct, hunfinished, hinfix, hfields⟩
  nothing_else x hx hfresh haccepted := by
    cases h x hx with
    | nothing _ _ hevents => exact hevents
    | taken token _ hsome hevents => cases hsome.symm.trans haccepted
    | found token hsome _ hreported => cases hsome.symm.trans hfresh

/-- **The log of a session mirrors it**, whatever the calls are. -/
theorem log_mirrors (input : Input) (options : Options) (calls : List Call) :
    LogMirrors ((start input options).calls calls) := by
  have hall := calls_induction (P := fun s => s.tokenizer.Sound ∧ s.Accounted ∧ s.LetGoOnce)
    ⟨Tokenizer.sound_ofInput input options, accounted_start input options,
      letGoOnce_start input options⟩
    (fun s c ⟨hsound, haccounted, honce⟩ =>
      ⟨hsound.exchange c, haccounted.call hsound c, honce.call hsound c⟩) calls
  exact hall.2.1.logMirrors hall.2.2

end Session

end CssTokens
