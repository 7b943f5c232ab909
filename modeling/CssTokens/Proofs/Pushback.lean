import CssTokens.Proofs.RecoveryRuns

/-!
# CssTokens.Proofs.Pushback — tokens taken back leave no trace

A tokenizer is used by operations: requests, and tokens taken back.  A token is accepted while none
is pending, and refused otherwise.  Any token may be taken back, at any time.

Apart from the token that is pending, a tokenizer is the same with and without pushbacks.  `settled`
is the tokenizer with nothing pending: taking a token back does not change it (`perform_takeBack`),
and neither does the request that gives the token out again (`ask_of_pending`).  What remains are the
requests that found nothing pending.  By induction on the operations, they come out as they would if
they were the only ones (`outcomes_of_searches`), and lead to the same tokenizer
(`settled_behind`).
-/

namespace CssTokens

set_option autoImplicit false

/-! ## Operations -/

/-- What a tokenizer is used by. -/
inductive Operation where
  | ask (request : Request)
  | takeBack (token : Token)

/-- What an operation is answered. -/
inductive Response where
  | outcome (outcome : Outcome)
  | taken
  | refused (report : PushbackOccupied)

/-- A request that was answered. -/
structure Answered where
  request : Request
  outcome : Outcome
  /-- Whether a token was pending, which is then the one given out. -/
  replayed : Bool

namespace Tokenizer

variable {input : Input} {t : Tokenizer input}

/-- The response to an operation, and the tokenizer behind it.  If a token is refused it is the
tokenizer that refused it. -/
def perform (t : Tokenizer input) : Operation → Response × Tokenizer input
  | .ask request => (.outcome (t.ask request).outcome, (t.ask request).after)
  | .takeBack token =>
      match t.takeBack token with
      | .ok (t', _) => (.taken, t')
      | .error report => (.refused report, t)

/-- The tokenizer behind operations made one after the other. -/
def behind (t : Tokenizer input) : List Operation → Tokenizer input
  | [] => t
  | operation :: operations => (t.perform operation).2.behind operations

/-- The requests among operations made one after the other, with their outcomes. -/
def answers (t : Tokenizer input) : List Operation → List Answered
  | [] => []
  | .ask request :: operations =>
      ⟨request, (t.ask request).outcome, t.returned.isSome⟩ :: (t.ask request).after.answers operations
  | .takeBack token :: operations => (t.perform (.takeBack token)).2.answers operations

/-- The requests that found nothing pending: all but the replays. -/
def searches (t : Tokenizer input) (operations : List Operation) : List Answered :=
  (t.answers operations).filter fun answered => !answered.replayed

/-! ## One operation -/

/-- The tokenizer with nothing pending. -/
def settled (t : Tokenizer input) : Tokenizer input :=
  { t with returned := none }

theorem settled_of_none (h : t.returned = none) : t.settled = t := by
  obtain ⟨scanner, options, returned, failed, hint, pos_le⟩ := t
  cases h
  rfl

theorem settled_position (t : Tokenizer input) : t.settled.position = t.position := rfl

theorem perform_takeBack_of_none (h : t.returned = none) (token : Token) :
    t.perform (.takeBack token) = (.taken, { t with returned := some token }) := by
  rw [perform, takeBack, h]

theorem perform_takeBack_of_some {pending : Token} (h : t.returned = some pending) (token : Token) :
    t.perform (.takeBack token) = (.refused {}, t) := by
  rw [perform, takeBack, h]

/-- Whether it is accepted or refused, a token that is taken back changes nothing else. -/
theorem perform_takeBack (t : Tokenizer input) (token : Token) :
    (t.perform (.takeBack token)).2.settled = t.settled := by
  cases h : t.returned with
  | none => rw [perform_takeBack_of_none h]; rfl
  | some pending => rw [perform_takeBack_of_some h]

theorem ask_of_pending {pending : Token} (h : t.returned = some pending) (request : Request) :
    t.ask request = ⟨.ok (some pending), [], t.settled⟩ := by
  rw [ask_eq, nextWith_of_returned h]
  rfl

theorem search_returned (t : Tokenizer input) (recover : Bool) :
    (t.search recover).after.returned = t.returned := by
  unfold search
  simp only
  split
  · rfl
  · rfl
  · split
    · rfl
    · rfl

/-- Nothing is pending behind a request. -/
theorem ask_returned (t : Tokenizer input) (request : Request) :
    (t.ask request).after.returned = none := by
  rw [ask_eq]
  cases hr : t.returned with
  | some pending => rw [nextWith_of_returned hr]
  | none =>
      cases hf : t.failed with
      | true =>
          rw [nextWith_of_failed hr hf]
          exact hr
      | false =>
          rw [nextWith_of_search hr hf, search_returned]
          exact hr

theorem perform_takeBack_taken_iff (t : Tokenizer input) (token : Token) :
    (t.perform (.takeBack token)).1 = .taken ↔ t.returned = none := by
  cases h : t.returned with
  | none =>
      rw [perform_takeBack_of_none h]
      exact ⟨fun _ => rfl, fun _ => rfl⟩
  | some pending =>
      rw [perform_takeBack_of_some h]
      exact ⟨nofun, nofun⟩

/-- While a token is pending every other one is refused. -/
theorem behind_refused {pending : Token} (h : t.returned = some pending) (refused : List Token) :
    t.behind (refused.map .takeBack) = t := by
  induction refused with
  | nil => rfl
  | cons token refused ih =>
      rw [List.map_cons, behind, perform_takeBack_of_some h]
      exact ih

/-- A token that was accepted comes out of the next request and leaves the tokenizer as it was. -/
theorem ask_behind_taken {token : Token} (h : (t.perform (.takeBack token)).1 = .taken)
    (refused : List Token) (request : Request) :
    (t.behind (.takeBack token :: refused.map .takeBack)).ask request =
      ⟨.ok (some token), [], t⟩ := by
  have hnone := (perform_takeBack_taken_iff t token).mp h
  have hpending : ({ t with returned := some token } : Tokenizer input).returned = some token := rfl
  rw [behind, perform_takeBack_of_none hnone, behind_refused hpending, ask_of_pending hpending]
  exact congrArg (Reply.mk _ _) (settled_of_none hnone)

/-! ## Runs -/

theorem searches_takeBack (t : Tokenizer input) (token : Token) (operations : List Operation) :
    t.searches (.takeBack token :: operations) =
      (t.perform (.takeBack token)).2.searches operations := rfl

theorem searches_ask_of_pending {pending : Token} (h : t.returned = some pending)
    (request : Request) (operations : List Operation) :
    t.searches (.ask request :: operations) = t.settled.searches operations := by
  rw [searches, answers, h, List.filter_cons_of_neg (by simp), ask_of_pending h]
  rfl

theorem searches_ask_of_none (h : t.returned = none) (request : Request)
    (operations : List Operation) :
    t.searches (.ask request :: operations) =
      ⟨request, (t.ask request).outcome, false⟩ :: (t.ask request).after.searches operations := by
  rw [searches, answers, h, List.filter_cons_of_pos (by rfl)]
  rfl

/-- The searches of a run come out as they do without the replays and pushbacks between them. -/
theorem outcomes_of_searches (t : Tokenizer input) (operations : List Operation) :
    t.settled.outcomes ((t.searches operations).map Answered.request) =
      (t.searches operations).map Answered.outcome := by
  induction operations generalizing t with
  | nil => rfl
  | cons operation operations ih =>
      cases operation with
      | takeBack token => rw [searches_takeBack, ← perform_takeBack t token, ih]
      | ask request =>
          cases h : t.returned with
          | some pending => rw [searches_ask_of_pending h]; exact ih t.settled
          | none =>
              have hrest := ih (t.ask request).after
              rw [settled_of_none (ask_returned t request)] at hrest
              rw [searches_ask_of_none h, settled_of_none h, List.map_cons, List.map_cons, outcomes,
                hrest]

/-- They lead to the same tokenizer, what is pending apart. -/
theorem settled_behind (t : Tokenizer input) (operations : List Operation) :
    (t.behind operations).settled =
      t.settled.behind ((t.searches operations).map fun search => .ask search.request) := by
  induction operations generalizing t with
  | nil => rfl
  | cons operation operations ih =>
      rw [behind, ih]
      cases operation with
      | takeBack token => rw [searches_takeBack, perform_takeBack t token]
      | ask request =>
          rw [perform, settled_of_none (ask_returned t request)]
          cases h : t.returned with
          | some pending =>
              rw [searches_ask_of_pending h, ask_of_pending h]
          | none =>
              rw [searches_ask_of_none h, settled_of_none h, List.map_cons, behind, perform]

/-- What it means that tokens taken back leave no trace: in a run from `start`, and in the tokenizer
behind it. -/
structure PushbackTransparent (start : Tokenizer input) (operations : List Operation) : Prop where
  /-- A token is accepted if none is pending. -/
  taken_iff : ∀ token, ((start.behind operations).perform (.takeBack token)).1 = .taken ↔
    (start.behind operations).returned = none
  /-- An accepted token comes out of the next request, whatever its options are and however many
  tokens are refused before, and behind it the tokenizer is what it was. -/
  replayed : ∀ token, ((start.behind operations).perform (.takeBack token)).1 = .taken →
    ∀ (refused : List Token) (request : Request),
      ((start.behind operations).behind (.takeBack token :: refused.map .takeBack)).ask request =
        ⟨.ok (some token), [], start.behind operations⟩
  /-- A refused token leaves the tokenizer as it is, and the one that is pending comes next. -/
  refused : ∀ token pending, (start.behind operations).returned = some pending →
    (start.behind operations).perform (.takeBack token) = (.refused {}, start.behind operations) ∧
      ∀ request, ((start.behind operations).ask request).outcome = .ok (some pending)
  /-- Without the replays the outcomes are those of a run of the other requests alone. -/
  outcomes : start.outcomes ((start.searches operations).map Answered.request) =
    (start.searches operations).map Answered.outcome
  /-- Apart from what is pending, the tokenizer is the one behind these requests alone. -/
  behind : (start.behind operations).settled =
    start.behind ((start.searches operations).map fun search => .ask search.request)
  /-- Neither accepted nor refused tokens move the place where the next search begins. -/
  position : ∀ token, ((start.behind operations).perform (.takeBack token)).2.position =
    (start.behind operations).position

/-- **Tokens taken back leave no trace.** -/
theorem pushback_transparent (input : Input) (options : Options) (operations : List Operation) :
    PushbackTransparent (ofInput input options) operations where
  taken_iff := (((ofInput input options).behind operations).perform_takeBack_taken_iff ·)
  replayed _ htaken refused := ask_behind_taken htaken refused
  refused token _ hpending :=
    ⟨perform_takeBack_of_some hpending token, fun request => by rw [ask_of_pending hpending]⟩
  outcomes := outcomes_of_searches (ofInput input options) operations
  behind := settled_behind (ofInput input options) operations
  position token := by rw [← settled_position, perform_takeBack, settled_position]

end Tokenizer

end CssTokens
