import CssTokens.Proofs.Utf8Encoding
import CssTokens.Scanner.Progress

/-!
# CssTokens.Proofs.CheckedCursor — reading and moving with every step checked

A cursor is a number, and moving it is addition.  A machine has offsets of 32 bits, and a cursor that
leaves the text is lost.  So all that a cursor does is written here a second time, in steps that can
fail (`Fault`): a byte is read in the padded source, a sum stays below 2 ^ 32, a difference is not
negative, and a cursor is moved to a place in the text or to its end.

Where the cursor stands in the text no step fails, and the outcome is that of the plain operation.  The
proofs follow the two definitions side by side (`lift_bind_eq`, `lift_ite_eq`).  Two facts about texts
carry them: a byte other than zero is in the text, and so is the whole character that a byte announces
(`add_width_le_size`).
-/

namespace CssTokens

set_option autoImplicit false

/-- A step that failed its check. -/
inductive Fault where
  /-- A read behind the padding. -/
  | read (report : OutOfBounds)
  /-- A sum of more than 32 bits. -/
  | overflow (a b : Nat)
  /-- A difference below zero. -/
  | underflow (a b : Nat)
  /-- A cursor moved, or a stretch of bytes taken, behind the end of the text. -/
  | beyond (size pos : Nat)
  /-- More entries removed from a list than it has. -/
  | missing (size count : Nat)
deriving DecidableEq

/-- A computation in steps that are checked. -/
abbrev Checked (α : Type) : Type :=
  Except Fault α

namespace Checked

/-! ## Steps -/

section Steps

variable {α β : Type}

/-- A reading as a checked computation. -/
def lift (r : Reading α) : Checked α :=
  r.mapError .read

theorem eq_of_lift {r : Reading α} {a : α} (h : lift r = .ok a) : r = .ok a := by
  cases r with
  | error e => cases h
  | ok a' =>
      cases h
      rfl

theorem lift_bind_eq {r : Reading α} {f : α → Checked β} {g : α → Reading β}
    (h : ∀ a, r = .ok a → f a = lift (g a)) : (lift r >>= f) = lift (r >>= g) := by
  cases r with
  | error e => rfl
  | ok a => exact h a rfl

theorem lift_ite_eq {p : Prop} [Decidable p] {x y : Checked α} {x' y' : Reading α}
    (hx : p → x = lift x') (hy : ¬ p → y = lift y') :
    (if p then x else y) = lift (if p then x' else y') := by
  by_cases hp : p
  · rw [if_pos hp, if_pos hp, hx hp]
  · rw [if_neg hp, if_neg hp, hy hp]

/-- The sum of two numbers of 32 bits. -/
def sum (a b : Nat) : Checked Nat :=
  if a + b < 4294967296 then .ok (a + b) else .error (.overflow a b)

/-- The difference of two numbers. -/
def difference (a b : Nat) : Checked Nat :=
  if b ≤ a then .ok (a - b) else .error (.underflow a b)

theorem sum_eq {a b : Nat} (h : a + b < 4294967296) : sum a b = .ok (a + b) :=
  if_pos h

theorem eq_of_sum {a b n : Nat} (h : sum a b = .ok n) : n = a + b := by
  rw [sum] at h
  split at h
  · cases h
    rfl
  · cases h

theorem difference_eq {a b : Nat} (h : b ≤ a) : difference a b = .ok (a - b) :=
  if_pos h

/-- A stretch of some bytes, from `start` up to `stop`. -/
def slice (bytes : List UInt8) (start stop : Nat) : Checked (List UInt8) := do
  let length ← difference stop start
  if stop ≤ bytes.length then
    return (bytes.drop start).take length
  else
    throw (.beyond bytes.length stop)

theorem slice_eq {bytes : List UInt8} {start stop : Nat} (h : start ≤ stop)
    (hstop : stop ≤ bytes.length) :
    slice bytes start stop = .ok ((bytes.drop start).take (stop - start)) := by
  rw [slice, difference_eq h]
  exact if_pos hstop

end Steps

/-! ## Reading and moving -/

variable {src : Source}

/-- A cursor at a place in the text or at its end. -/
def moveTo (src : Source) (pos : Nat) : Checked (Cursor src) :=
  if pos ≤ src.size then .ok ⟨pos⟩ else .error (.beyond src.size pos)

/-- The byte under a cursor. -/
def current (c : Cursor src) : Checked UInt8 :=
  lift (src.byteAt c.pos)

/-- The byte behind the one under a cursor. -/
def peek (c : Cursor src) : Checked UInt8 := do
  lift (src.byteAt (← sum c.pos 1))

/-- Whether a cursor stands on the padding. -/
def atEnd (c : Cursor src) : Checked Bool := do
  let b ← current c
  return b == 0 && src.size ≤ c.pos

/-- Moves on by a number of bytes. -/
def advance (c : Cursor src) (n : Nat) : Checked (Cursor src) := do
  moveTo src (← sum c.pos n)

/-- Moves over a character, at most to the end of the text. -/
def advanceChar (c : Cursor src) : Checked (Cursor src) := do
  let b ← current c
  let stop ← sum c.pos (Utf8.width b)
  moveTo src (min stop src.size)

variable {c c' : Cursor src}

theorem moveTo_eq {pos : Nat} (h : pos ≤ src.size) : moveTo src pos = .ok ⟨pos⟩ :=
  if_pos h

theorem pos_le_of_moveTo {pos : Nat} (h : moveTo src pos = .ok c) : c.pos = pos ∧ pos ≤ src.size := by
  unfold moveTo at h
  split at h
  · next hle =>
      cases h
      exact ⟨rfl, hle⟩
  · cases h

/-- Offsets in a text are far enough below 2 ^ 32 to be added one to. -/
theorem sum_of_le_size (src : Source) {a b : Nat} (h : a + b ≤ src.size + 1) : sum a b = .ok (a + b) := by
  have hmax : src.size ≤ 4294967294 := src.size_le
  exact sum_eq (by omega)

theorem advance_eq {n : Nat} (h : c.pos + n ≤ src.size) : advance c n = .ok (c.advance n) := by
  rw [advance, sum_of_le_size src (by omega)]
  exact moveTo_eq h

theorem advance_one (h : c.pos < src.size) : advance c 1 = .ok (c.advance 1) :=
  advance_eq h

theorem pos_of_advance {n : Nat} (h : advance c n = .ok c') :
    c'.pos = c.pos + n ∧ c'.pos ≤ src.size := by
  rw [advance, sum] at h
  split at h
  · obtain ⟨hpos, hle⟩ := pos_le_of_moveTo h
    exact ⟨hpos, hpos ▸ hle⟩
  · cases h

theorem current_eq (c : Cursor src) : current c = lift c.current := rfl

theorem peek_eq (h : c.pos ≤ src.size) : peek c = lift c.peek := by
  rw [peek, sum_of_le_size src (by omega)]
  rfl

/-- A cursor that is not at the end of the text, and not behind it, stands in it. -/
theorem lt_size_of_atEnd (h : c.atEnd = .ok false) : c.pos < src.size := by
  obtain ⟨b, hb, hended⟩ := Reading.exists_of_bind h
  by_cases hz : b = 0
  · subst hz
    have hended : decide (src.size ≤ c.pos) = false := Except.ok.inj hended
    exact Nat.lt_of_not_le (of_decide_eq_false hended)
  · exact Cursor.lt_size_of_current hb hz

theorem atEnd_eq (c : Cursor src) : atEnd c = lift c.atEnd :=
  lift_bind_eq fun _ _ => rfl

/-- A byte that continues a character counts as one of its own. -/
theorem width_of_isContinuation {b : UInt8} (h : Utf8.isContinuation b = true) : Utf8.width b = 1 := by
  revert h
  refine Byte.forall_of_fin (P := fun b => Utf8.isContinuation b = true → Utf8.width b = 1) ?_ b
  decide +kernel

/-- A byte of the text announces a character that ends within the text, whether the character begins
there or not. -/
theorem add_width_le_size {i : Nat} {b : UInt8} (h : src.byteAt i = .ok b) (hlt : i < src.size) :
    i + Utf8.width b ≤ src.size := by
  have hi : i < src.bytes.length := by rwa [Source.length_bytes]
  have hb : src.bytes[i] = b := by
    rw [Source.byteAt_of_lt hi] at h
    exact Except.ok.inj h
  cases hc : Utf8.isContinuation b with
  | true =>
      rw [width_of_isContinuation hc]
      exact hlt
  | false =>
      have hencoded : Utf8.Encoded (src.bytes.drop i) := by
        apply (Utf8.encoded_bytes src.text).drop
        intro d hd
        have hget : src.bytes[i]? = some d := hd
        rw [List.getElem?_eq_getElem hi, hb] at hget
        cases hget
        exact hc
      have hdrop : src.bytes.drop i = b :: src.bytes.drop (i + 1) := by
        rw [List.drop_eq_getElem_cons hi, hb]
      rw [hdrop] at hencoded
      obtain ⟨ds, rest, hrest, hleads, -, -⟩ := hencoded.uncons
      have hlength := congrArg List.length hrest
      rw [List.length_drop, Source.length_bytes, List.length_append] at hlength
      rw [hleads.1]
      omega

theorem advanceChar_eq (h : c.pos ≤ src.size) : advanceChar c = lift c.advanceChar := by
  refine lift_bind_eq fun b hb => ?_
  have hsum : c.pos + Utf8.width b ≤ src.size + 1 := by
    cases Nat.lt_or_ge c.pos src.size with
    | inl hlt => exact Nat.le_succ_of_le (add_width_le_size hb hlt)
    | inr hge =>
        have hzero := Source.byteAt_of_ge hge (Nat.lt_of_le_of_lt h src.size_lt_paddedSize)
        cases hb.symm.trans hzero
        exact Nat.succ_le_succ h
  rw [sum_of_le_size src hsum]
  exact moveTo_eq (Nat.min_le_right _ _)

/-! ## Runs of bytes -/

/-- Moves over the bytes that satisfy `p`. -/
def skipWhile (p : UInt8 → Bool) (c : Cursor src) : Checked (Cursor src) :=
  match current c with
  | .error e => .error e
  | .ok b =>
      if p b then
        match _h : advance c 1 with
        | .error e => .error e
        | .ok c' => skipWhile p c'
      else .ok c
termination_by src.size - c.pos
decreasing_by
  have hpos := pos_of_advance _h
  omega

theorem skipWhile_step (p : UInt8 → Bool) (c : Cursor src) :
    skipWhile p c =
      current c >>= fun b => if p b then advance c 1 >>= skipWhile p else .ok c := by
  rw [skipWhile]
  split
  · next e he => rw [he]; rfl
  · next b hb =>
      rw [hb]
      show _ = if p b then advance c 1 >>= skipWhile p else .ok c
      split
      · split
        · next e he => rw [he]; rfl
        · next c' hc' => rw [hc']; rfl
      · rfl

theorem skipWhile_eq {p : UInt8 → Bool} (hp : p 0 = false) (c : Cursor src) :
    skipWhile p c = lift (c.skipWhile p) := by
  fun_induction Cursor.skipWhile p c with
  | case1 c e he =>
      rw [skipWhile_step, current_eq, he]
      rfl
  | case2 c b hb hpb ih =>
      have hlt : c.pos < src.size := by
        apply Cursor.lt_size_of_current hb
        rintro rfl
        cases hp.symm.trans hpb
      rw [skipWhile_step, current_eq, hb]
      show (if p b then advance c 1 >>= skipWhile p else .ok c) = _
      rw [if_pos hpb, advance_one hlt]
      exact ih
  | case3 c b hb hpb =>
      rw [skipWhile_step, current_eq, hb]
      exact if_neg hpb

/-- Moves on by as many bytes as a search went, and reads the byte there. -/
def jump (c : Cursor src) (offset : Nat) : Checked (UInt8 × Cursor src) := do
  let c ← moveTo src (← sum c.pos offset)
  return (← current c, c)

/-- Moves to the next byte of the text that satisfies `p`, or to the end of the text. -/
def skipTo (p : UInt8 → Bool) (c : Cursor src) : Checked (Option UInt8 × Cursor src) :=
  match src.find? p c.pos with
  | some (i, _) => do
      let (b, c) ← jump c (i - c.pos)
      return (some b, c)
  | none => do
      return (none, ← moveTo src src.size)

/-- Moves past the next end of a comment, or to the end of the text. -/
def skipPastCommentEnd (c : Cursor src) : Checked (Bool × Cursor src) :=
  match src.findCommentEnd? c.pos with
  | some i => do
      let (_, c) ← jump c (i - c.pos)
      return (true, ← advance c 2)
  | none => do
      return (false, ← moveTo src src.size)

theorem jump_eq {i : Nat} {b : UInt8} (hle : c.pos ≤ i) (hb : Utf8.byte? src.text i = some b) :
    jump c (i - c.pos) = .ok (b, ⟨i⟩) := by
  have hlt : i < src.size := Utf8.lt_size_of_byte? hb
  have hsum : c.pos + (i - c.pos) = i := by omega
  have hread : current (⟨i⟩ : Cursor src) = .ok b := by
    rw [current, Source.byteAt, hb]
    rfl
  rw [jump, sum_of_le_size src (by omega), hsum]
  show (moveTo src i >>= _) = _
  rw [moveTo_eq (Nat.le_of_lt hlt)]
  show (current (⟨i⟩ : Cursor src) >>= _) = _
  rw [hread]
  rfl

theorem skipTo_eq (p : UInt8 → Bool) (c : Cursor src) : skipTo p c = .ok (c.skipTo p) := by
  rw [skipTo, Cursor.skipTo]
  cases hf : src.find? p c.pos with
  | none => rw [moveTo_eq (Nat.le_refl _)]; rfl
  | some found =>
      obtain ⟨hle, hb, -, -⟩ := Source.find?_eq_some_iff.mp hf
      show (jump c (found.1 - c.pos) >>= _) = _
      rw [jump_eq hle hb]
      rfl

theorem skipPastCommentEnd_eq (c : Cursor src) :
    skipPastCommentEnd c = .ok c.skipPastCommentEnd := by
  rw [skipPastCommentEnd, Cursor.skipPastCommentEnd]
  cases hf : src.findCommentEnd? c.pos with
  | none => rw [moveTo_eq (Nat.le_refl _)]; rfl
  | some i =>
      obtain ⟨hle, hstar, hslash⟩ := Source.findCommentEnd?_eq_some hf
      have hlt : i + 1 < src.size := Utf8.lt_size_of_byte? hslash
      show (jump c (i - c.pos) >>= _) = _
      rw [jump_eq hle hstar]
      show (advance (⟨i⟩ : Cursor src) 2 >>= _) = _
      rw [advance_eq hlt]
      rfl

/-! ## Escapes -/

/-- Moves over a backslash and the character behind it. -/
def skipEscapedChar (c : Cursor src) : Checked (Cursor src) := do
  let c ← advance c 1
  if ← atEnd c then
    return c
  else
    advanceChar c

/-- Moves over hexadecimal digits, when some have been counted already. -/
def skipHexDigits (c : Cursor src) (digits : Nat) : Checked (Cursor src) := do
  if _hlt : digits < Cursor.maxHexDigits then
    if Byte.isHexDigit (← current c) then
      let c ← advance c 1
      match _hsum : sum digits 1 with
      | .error e => throw e
      | .ok digits' => skipHexDigits c digits'
    else
      return c
  else
    return c
termination_by Cursor.maxHexDigits - digits
decreasing_by
  have hdigits := eq_of_sum _hsum
  omega

/-- Moves over one blank if there is one. -/
def skipOneBlank (c : Cursor src) : Checked (Cursor src) := do
  let b ← current c
  if b = Byte.carriageReturn then
    if (← peek c) = Byte.lineFeed then
      advance c 2
    else
      advance c 1
  else if Byte.isBlank b then
    advance c 1
  else
    return c

/-- Moves over an escape in a word, from its backslash on. -/
def skipEscape (c : Cursor src) : Checked (Cursor src) := do
  let c ← advance c 1
  if ← atEnd c then
    return c
  else if Byte.isHexDigit (← current c) then
    skipOneBlank (← skipHexDigits c 0)
  else
    advanceChar c

theorem skipEscapedChar_eq (h : c.pos < src.size) : skipEscapedChar c = lift c.skipEscapedChar := by
  rw [skipEscapedChar, advance_one h, Cursor.skipEscapedChar]
  show (atEnd (c.advance 1) >>= _) = _
  rw [atEnd_eq]
  refine lift_bind_eq fun ended _ => lift_ite_eq (fun _ => rfl) fun _ => ?_
  exact advanceChar_eq h

theorem skipHexDigits_eq (digits n : Nat) (hn : digits + n = Cursor.maxHexDigits)
    (h : c.pos ≤ src.size) : skipHexDigits c digits = lift (c.skipHexDigits n) := by
  induction n generalizing c digits with
  | zero =>
      rw [skipHexDigits, dif_neg (by omega)]
      rfl
  | succ n ih =>
      rw [skipHexDigits, dif_pos (by omega)]
      refine lift_bind_eq fun b hb => lift_ite_eq (fun hdigit => ?_) fun _ => rfl
      have hlt : c.pos < src.size := Cursor.lt_size_of_current hb (Byte.isHexDigit_ne_zero hdigit)
      have hsum : sum digits 1 = .ok (digits + 1) := by
        rw [Cursor.maxHexDigits] at hn
        exact sum_eq (by omega)
      rw [advance_one hlt]
      show (match _hsum : sum digits 1 with
        | .error e => throw e
        | .ok digits' => skipHexDigits (c.advance 1) digits') = _
      split
      · next e he => cases hsum.symm.trans he
      · next digits' hdigits' =>
          cases hsum.symm.trans hdigits'
          exact ih (digits + 1) (by omega) hlt

theorem skipOneBlank_eq (h : c.pos ≤ src.size) : skipOneBlank c = lift c.skipOneBlank := by
  refine lift_bind_eq fun b hb => lift_ite_eq ?_ fun _ => lift_ite_eq ?_ fun _ => rfl
  · intro hcr
    have hlt : c.pos < src.size := Cursor.lt_size_of_current hb (by rw [hcr]; decide)
    rw [peek_eq h]
    refine lift_bind_eq fun d hd => lift_ite_eq (fun hlf => ?_) fun _ => ?_
    · have hlt2 : c.pos + 1 < src.size := Source.lt_size_of_byteAt hd (by rw [hlf]; decide)
      exact advance_eq hlt2
    · exact advance_one hlt
  · intro hblank
    exact advance_one (Cursor.lt_size_of_current hb (Byte.isBlank_ne_zero hblank))

theorem skipEscape_eq (h : c.pos < src.size) : skipEscape c = lift c.skipEscape := by
  rw [skipEscape, advance_one h, Cursor.skipEscape]
  have hle : (c.advance 1).pos ≤ src.size := h
  show (atEnd (c.advance 1) >>= _) = _
  rw [atEnd_eq]
  refine lift_bind_eq fun ended _ => lift_ite_eq (fun _ => rfl) fun _ => ?_
  refine lift_bind_eq fun b hb => lift_ite_eq (fun _ => ?_) fun _ => advanceChar_eq hle
  rw [skipHexDigits_eq 0 Cursor.maxHexDigits (Nat.zero_add _) hle]
  refine lift_bind_eq fun c' hc' => ?_
  exact skipOneBlank_eq ((Cursor.skipHexDigits_yields _ hle).of_eq_ok hc').2

/-! ## Words -/

/-- Moves over the next unit of a word, or says with `none` that the word ends here. -/
def skipUnit (c : Cursor src) : Checked (Option (Cursor src)) := do
  let b ← current c
  if b = Byte.backslash then
    return some (← skipEscape c)
  else if b = Byte.slash then
    if (← peek c) = Byte.star then
      return none
    else
      return some (← advance c 1)
  else if b = Byte.zero then
    if ← atEnd c then
      return none
    else
      return some (← advance c 1)
  else if Byte.endsWord b then
    return none
  else
    return some (← advance c 1)

theorem skipUnit_eq (c : Cursor src) : skipUnit c = lift c.skipUnit := by
  refine lift_bind_eq fun b hb => ?_
  have hlt (hne : b ≠ 0) : c.pos < src.size := Cursor.lt_size_of_current hb hne
  have hone (hlt : c.pos < src.size) :
      (do return some (← advance c 1)) = lift (.ok (some (c.advance 1))) := by
    rw [advance_one hlt]
    rfl
  refine lift_ite_eq (fun hbs => ?_) fun _ => lift_ite_eq (fun hsl => ?_) fun _ =>
    lift_ite_eq (fun _ => ?_) fun hz => lift_ite_eq (fun _ => rfl) fun _ => hone (hlt hz)
  · rw [skipEscape_eq (hlt (by rw [hbs]; decide))]
    exact lift_bind_eq fun c' _ => rfl
  · have hlt := hlt (by rw [hsl]; decide)
    rw [peek_eq (Nat.le_of_lt hlt)]
    exact lift_bind_eq fun d _ => lift_ite_eq (fun _ => rfl) fun _ => hone hlt
  · rw [atEnd_eq]
    refine lift_bind_eq fun ended hended => ?_
    cases ended with
    | true => rfl
    | false => exact hone (lt_size_of_atEnd hended)

/-- Moves over the units of a word up to where it ends. -/
def skipWord (c : Cursor src) : Checked (Cursor src) :=
  match _h : skipUnit c with
  | .error e => .error e
  | .ok none => .ok c
  | .ok (some c') => skipWord c'
termination_by src.size - c.pos
decreasing_by
  rw [skipUnit_eq] at _h
  have hpos := Cursor.skipUnit_eq_some (eq_of_lift _h)
  omega

theorem skipWord_step (c : Cursor src) :
    skipWord c = skipUnit c >>= fun c' => c'.elim (.ok c) skipWord := by
  rw [skipWord]
  split
  · next e he => rw [he]; rfl
  · next hend => rw [hend]; rfl
  · next c' hc' => rw [hc']; rfl

theorem skipWord_eq (c : Cursor src) : skipWord c = lift c.skipWord := by
  fun_induction Cursor.skipWord c with
  | case1 c e he => rw [skipWord_step, skipUnit_eq, he]; rfl
  | case2 c hend => rw [skipWord_step, skipUnit_eq, hend]; rfl
  | case3 c c' hc' ih =>
      rw [skipWord_step, skipUnit_eq, hc']
      exact ih

/-! ## Strings -/

/-- Moves past the end of a string in the given quotes, from behind its opening quote, or to the end
of the text. -/
def skipString (quote : UInt8) (c : Cursor src) : Checked (Bool × Cursor src) :=
  match _h : skipTo (fun b => b == quote || b == Byte.backslash) c with
  | .error e => .error e
  | .ok (none, c') => .ok (false, c')
  | .ok (some b, c') =>
      if b = Byte.backslash then
        match _he : skipEscapedChar c' with
        | .error e => .error e
        | .ok c'' => skipString quote c''
      else do
        return (true, ← advance c' 1)
termination_by src.size - c.pos
decreasing_by
  rw [skipTo_eq] at _h
  have hpos := Cursor.skipTo_eq_some (Except.ok.inj _h)
  rw [skipEscapedChar_eq hpos.2.1] at _he
  have hescaped := (Cursor.skipEscapedChar_yields hpos.2.1).of_eq_ok (eq_of_lift _he)
  omega

/-- What comes of what was found: the end of the text, an escaped character or the end of the
string. -/
theorem skipString_step (quote : UInt8) (c : Cursor src) :
    skipString quote c =
      match c.skipToStringDelim quote with
      | (none, c') => .ok (false, c')
      | (some b, c') =>
          if b = Byte.backslash then skipEscapedChar c' >>= skipString quote
          else advance c' 1 >>= fun c'' => .ok (true, c'') := by
  rw [skipString]
  split
  · next e he =>
      rw [skipTo_eq] at he
      cases he
  · next c' hc' =>
      rw [skipTo_eq] at hc'
      rw [Cursor.skipToStringDelim, Except.ok.inj hc']
  · next b c' hc' =>
      rw [skipTo_eq] at hc'
      rw [Cursor.skipToStringDelim, Except.ok.inj hc']
      show _ = if b = Byte.backslash then skipEscapedChar c' >>= skipString quote
        else advance c' 1 >>= fun c'' => .ok (true, c'')
      split
      · split
        · next e he => rw [he]; rfl
        · next c'' hc'' => rw [hc'']; rfl
      · rfl

theorem skipString_eq (quote : UInt8) (c : Cursor src) :
    skipString quote c = lift (c.skipString quote) := by
  fun_induction Cursor.skipString quote c with
  | case1 c c' hd =>
      rw [skipString_step, hd]
      rfl
  | case2 c c' e he hd =>
      have hlt := (Cursor.skipTo_eq_some hd).2.1
      rw [skipString_step, hd]
      show skipEscapedChar c' >>= skipString quote = _
      rw [skipEscapedChar_eq hlt, he]
      rfl
  | case3 c c' c'' he hd ih =>
      have hlt := (Cursor.skipTo_eq_some hd).2.1
      rw [skipString_step, hd]
      show skipEscapedChar c' >>= skipString quote = _
      rw [skipEscapedChar_eq hlt, he]
      exact ih
  | case4 c b c' hd hb =>
      have hlt := (Cursor.skipTo_eq_some hd).2.1
      rw [skipString_step, hd]
      simp only [if_neg hb, advance_one hlt]
      rfl

end Checked

end CssTokens
