import CssTokens.Failure

/-!
# CssTokens.Proofs.MessageReading — a failure can be read back from its message

The message of an unclosed construct begins with the name of the input, and the name stands there as
it is: it may hold colons, digits, line breaks, even the message of another failure.  Reading from
the left, one cannot tell where it ends.

Reading from the right, one can.  The bare message has no colon, and neither has a number in digits;
so the last three colons of a message are the three that the message itself puts there, whatever the
name is.  `Report.read?` takes a text apart at its last three colons, and gives back what the
message was made of (`read?_message`).  Different reports thus have different messages.
-/

namespace CssTokens

set_option autoImplicit false

/-! ## The last colon of a text -/

/-- What stands before and behind the last colon of a text. -/
def splitAtLastColon? (cs : List Char) : Option (List Char × List Char) :=
  match cs.reverse.dropWhile (· ≠ ':') with
  | [] => none
  | _ :: before => some (before.reverse, (cs.reverse.takeWhile (· ≠ ':')).reverse)

/-- The last colon is the one with no colon behind it. -/
theorem splitAtLastColon?_append {before field : List Char} (h : ':' ∉ field) :
    splitAtLastColon? (before ++ ':' :: field) = some (before, field) := by
  have free : ∀ c ∈ field.reverse, decide (c ≠ ':') = true := by
    intro c hc
    have ne : c ≠ ':' := ne_of_mem_of_not_mem (List.mem_reverse.mp hc) h
    simpa using ne
  rw [splitAtLastColon?, List.reverse_append, List.reverse_cons, List.append_assoc,
    List.takeWhile_append_of_pos free, List.dropWhile_append_of_pos free]
  simp

theorem colon_not_mem_toDigits (n : Nat) : ':' ∉ Nat.toDigits 10 n := by
  intro h
  exact absurd (Nat.isDigit_of_mem_toDigits (by decide) (by decide) h) (by decide)

theorem Unclosed.colon_not_mem_message (u : Unclosed) : ':' ∉ ' ' :: u.message.toList := by
  cases u <;> decide

/-! ## Reports -/

namespace UnclosedError

/-- What the message of a failure tells of it. -/
structure Report where
  inputName : String
  position : Position
  construct : Unclosed
deriving DecidableEq

/-- What there is to tell of a failure. -/
def report (e : UnclosedError) : Report :=
  ⟨e.inputName, e.position, e.construct⟩

namespace Report

/-- The construct whose bare message is given, with a blank in front of it. -/
def construct? (cs : List Char) : Option Unclosed :=
  [.string, .comment, .bracket].find? fun u : Unclosed => ' ' :: u.message.toList = cs

theorem construct?_message (u : Unclosed) : construct? (' ' :: u.message.toList) = some u := by
  cases u <;> decide

/-- What a message tells, read from the right: bare message, column, line, and the name is the
rest. -/
def read? (text : String) : Option Report := do
  let (cs, bare) ← splitAtLastColon? text.toList
  let (cs, column) ← splitAtLastColon? cs
  let (name, line) ← splitAtLastColon? cs
  let construct ← construct? bare
  return ⟨String.ofList name, ⟨Nat.ofDigitChars 10 line 0, Nat.ofDigitChars 10 column 0⟩, construct⟩

end Report

theorem toList_message (e : UnclosedError) :
    e.message.toList = ((e.inputName.toList ++ ':' :: Nat.toDigits 10 e.position.line) ++
      ':' :: Nat.toDigits 10 e.position.column) ++ ':' :: ' ' :: e.construct.message.toList := by
  simp [message, Position.text, bareMessage, ToString.toString, Nat.repr]

theorem read?_message (e : UnclosedError) : Report.read? e.message = some e.report := by
  have column := colon_not_mem_toDigits e.position.column
  have line := colon_not_mem_toDigits e.position.line
  simp only [Report.read?, toList_message, Option.bind_eq_bind, Option.bind_some,
    splitAtLastColon?_append e.construct.colon_not_mem_message, splitAtLastColon?_append column,
    splitAtLastColon?_append line, Report.construct?_message, Nat.ofDigitChars_ten_toDigits,
    String.ofList_toList, Option.pure_def]
  rfl

/-- **A message says which failure it is.**  From the right it can be read as what it was made of,
and two failures have the same message only if name, line, column and construct are the same,
whatever characters the names have. -/
theorem message_eq_message_iff (e f : UnclosedError) :
    Report.read? e.message = some ⟨e.inputName, e.position, e.construct⟩ ∧
      (e.message = f.message ↔
        e.inputName = f.inputName ∧ e.position = f.position ∧ e.construct = f.construct) := by
  refine ⟨read?_message e, fun h => ?_, ?_⟩
  · have same : e.report = f.report :=
      Option.some.inj ((read?_message e).symm.trans (h ▸ read?_message f))
    simpa [report] using same
  · rintro ⟨hn, hp, hc⟩
    simp only [message, bareMessage, hn, hp, hc]

/-- A name that is itself a message does not lead astray. -/
example : Report.read? "a:1:2: Unclosed string:3:4: Unclosed comment" =
    some ⟨"a:1:2: Unclosed string", ⟨3, 4⟩, .comment⟩ := by
  decide +kernel

end UnclosedError

end CssTokens
