import CssTokens.Proofs.CheckedCursor

/-!
# CssTokens.Proofs.CheckedScanner — scanning with every step checked

A scanner in checked steps, with the memo as a machine keeps it.  A search for the end of a group has
its own list of open parentheses in the plain scanner.  Here it puts them on top of those remembered, in
one array: below `base` stand the old entries, above it those of this search.  At a quote the old ones
are drained, at the end of the text the new ones are cut off, and at the end of the group there are no
new ones.

Whatever the scanner, and wherever it stands, the outcome is that of the plain scanner, `next_eq`: a
fault is a read behind the padding, and there is no other.
-/

namespace CssTokens.Checked

set_option autoImplicit false

variable {src : Source}

/-! ## The array of open parentheses -/

/-- Removes the first `count` entries. -/
def drain (offsets : Array Nat) (count : Nat) : Checked (Array Nat) :=
  if count ≤ offsets.size then .ok (offsets.extract count) else .error (.missing offsets.size count)

/-- The entries are those remembered, and above them those of one search, the innermost on top. -/
def Stacked (known : Array Nat) (opened : List Nat) (offsets : Array Nat) : Prop :=
  offsets.toList = known.toList ++ opened.reverse

section Stacked

variable {known offsets : Array Nat} {opened : List Nat} {offset : Nat}

theorem Stacked.push (h : Stacked known opened offsets) (offset : Nat) :
    Stacked known (offset :: opened) (offsets.push offset) := by
  rw [Stacked, Array.toList_push, h, List.reverse_cons, List.append_assoc]

theorem Stacked.pop (h : Stacked known (offset :: opened) offsets) :
    Stacked known opened offsets.pop := by
  rw [Stacked, Array.toList_pop, h, List.reverse_cons, ← List.append_assoc, List.dropLast_concat]

theorem Stacked.size (h : Stacked known opened offsets) :
    offsets.size = known.size + opened.length := by
  rw [← Array.length_toList, h, List.length_append, List.length_reverse, Array.length_toList]

theorem Stacked.drain (h : Stacked known opened offsets) :
    drain offsets known.size = .ok opened.reverse.toArray := by
  have hle : opened.reverse.length ≤ offsets.size - known.size := by
    rw [h.size, List.length_reverse]
    omega
  rw [Checked.drain, if_pos (by rw [h.size]; exact Nat.le_add_right _ _)]
  congr 1
  apply Array.toList_inj.mp
  rw [Array.toList_extract, h, List.extract_eq_take_drop, List.drop_left' Array.length_toList]
  exact List.take_of_length_le hle

theorem Stacked.take (h : Stacked known opened offsets) : offsets.take known.size = known := by
  apply Array.toList_inj.mp
  rw [Array.take, Array.toList_extract, h, List.extract_eq_take_drop, List.drop_zero]
  exact List.take_left' Array.length_toList

end Stacked

/-! ## Lexemes -/

/-- The lexeme from `start` up to where a cursor stands, and the scanner there. -/
def upTo (start : Nat) (openParens : OpenParens) (tag : Tag) (c : Cursor src) :
    Checked (Lexeme × Scanner src) := do
  return (⟨tag, ← difference c.pos start⟩, ⟨c, openParens⟩)

/-- Looks for the end of a group that begins before `behind`.  The entries above the first `base` are
the parentheses open inside it. -/
def scanGroup (start : Nat) (behind : Cursor src) (base next : Nat) (offsets : Array Nat)
    (c : Cursor src) : Checked (Lexeme × Scanner src) :=
  match _h : skipTo Byte.isGroupDelim c with
  | .error e => .error e
  | .ok (none, c') => upTo start ⟨offsets.take base, next⟩ (.unclosed .bracket) c'
  | .ok (some b, c') =>
      if Byte.isQuote b then do
        return (⟨.token .openParen, 1⟩, ⟨behind, ⟨← drain offsets base, 0⟩⟩)
      else if b = Byte.backslash then
        match _he : skipEscapedChar c' with
        | .error e => .error e
        | .ok c'' => scanGroup start behind base next offsets c''
      else
        match _ha : advance c' 1 with
        | .error e => .error e
        | .ok c'' =>
            if b = Byte.openParen then
              scanGroup start behind base next (offsets.push c'.pos) c''
            else if offsets.size = base then
              upTo start ⟨offsets, next⟩ (.token .brackets) c''
            else
              scanGroup start behind base next offsets.pop c''
termination_by src.size - c.pos
decreasing_by
  all_goals
    rw [skipTo_eq] at _h
    have hpos := Cursor.skipTo_eq_some (Except.ok.inj _h)
  · rw [skipEscapedChar_eq hpos.2.1] at _he
    have hescaped := (Cursor.skipEscapedChar_yields hpos.2.1).of_eq_ok (eq_of_lift _he)
    omega
  · have hmoved := pos_of_advance _ha
    omega
  · have hmoved := pos_of_advance _ha
    omega

/-- What comes of the next byte that matters. -/
theorem scanGroup_step (start : Nat) (behind : Cursor src) (base next : Nat) (offsets : Array Nat)
    (c : Cursor src) :
    scanGroup start behind base next offsets c =
      match c.skipToGroupDelim with
      | (none, c') => upTo start ⟨offsets.take base, next⟩ (.unclosed .bracket) c'
      | (some b, c') =>
          if Byte.isQuote b then
            drain offsets base >>= fun own => .ok (⟨.token .openParen, 1⟩, ⟨behind, ⟨own, 0⟩⟩)
          else if b = Byte.backslash then
            skipEscapedChar c' >>= scanGroup start behind base next offsets
          else
            advance c' 1 >>= fun c'' =>
              if b = Byte.openParen then
                scanGroup start behind base next (offsets.push c'.pos) c''
              else if offsets.size = base then
                upTo start ⟨offsets, next⟩ (.token .brackets) c''
              else scanGroup start behind base next offsets.pop c'' := by
  rw [scanGroup]
  split
  · next e he =>
      rw [skipTo_eq] at he
      cases he
  · next c' hc' =>
      rw [skipTo_eq] at hc'
      rw [Cursor.skipToGroupDelim, Except.ok.inj hc']
  · next b c' hc' =>
      rw [skipTo_eq] at hc'
      rw [Cursor.skipToGroupDelim, Except.ok.inj hc']
      dsimp only
      split
      · rfl
      · split
        · split
          · next e he => rw [he]; rfl
          · next c'' hc'' => rw [hc'']; rfl
        · split
          · next e he => rw [he]; rfl
          · next c'' hc'' => rw [hc'']; rfl

/-- The lexeme that the end of a group decides, with the memo behind it unless a quote was met. -/
def ofGroupEnd (s : Scanner src) (known : OpenParens) : GroupEnd src → Lexeme × Scanner src
  | .closed c => { s with openParens := known }.upTo (.token .brackets) c
  | .quoted _ opened => s.parenAlone (.ofInnermostFirst opened)
  | .missing c => { s with openParens := known }.upTo (.unclosed .bracket) c

variable {s : Scanner src}

theorem upTo_eq {tag : Tag} {c : Cursor src} (openParens : OpenParens) (h : s.pos ≤ c.pos) :
    upTo s.pos openParens tag c = .ok ({ s with openParens }.upTo tag c) := by
  rw [upTo, difference_eq h]
  rfl

theorem scanGroup_eq {known : OpenParens} {opened : List Nat} {offsets : Array Nat} {c : Cursor src}
    (hstacked : Stacked known.offsets opened offsets) (hle : s.pos ≤ c.pos) (hs : s.pos ≤ src.size) :
    scanGroup s.pos (s.cursor.advance 1) known.offsets.size known.next offsets c =
      lift ((ofGroupEnd s known) <$> c.scanGroup opened) := by
  fun_induction Cursor.scanGroup opened c generalizing offsets with
  | case1 opened c c' hd =>
    have hend := Cursor.skipTo_eq_none hd
    rw [scanGroup_step, hd]
    dsimp only
    rw [hstacked.take, upTo_eq _ (by omega)]
    rfl
  | case2 opened c b c' hd hq =>
    rw [scanGroup_step, hd]
    simp only [hq, if_true]
    rw [hstacked.drain]
    rfl
  | case3 opened c c' e he hd hq =>
    have hlt := (Cursor.skipTo_eq_some hd).2.1
    exact absurd he (Cursor.skipEscapedChar_yields hlt).ne_error
  | case4 opened c c' c'' he hd hq ih =>
    obtain ⟨hmoved, hlt, -, -⟩ := Cursor.skipTo_eq_some hd
    have hescaped := (Cursor.skipEscapedChar_yields hlt).of_eq_ok he
    rw [scanGroup_step, hd]
    simp only [hq, if_false, if_true, Bool.false_eq_true]
    rw [skipEscapedChar_eq hlt, he]
    exact ih hstacked (by omega)
  | case5 opened c c' hd hq hb ih =>
    obtain ⟨hmoved, hlt, -, -⟩ := Cursor.skipTo_eq_some hd
    rw [scanGroup_step, hd]
    simp only [hq, hb, if_false, if_true, Bool.false_eq_true]
    rw [advance_one hlt]
    exact ih (hstacked.push c'.pos) (Nat.le_succ_of_le (Nat.le_trans hle hmoved))
  | case6 c b c' hd hq hb hp =>
    obtain ⟨hmoved, hlt, -, -⟩ := Cursor.skipTo_eq_some hd
    obtain rfl : offsets = known.offsets :=
      Array.toList_inj.mp (hstacked.trans (List.append_nil _))
    rw [scanGroup_step, hd]
    simp only [hq, hb, hp, if_false, if_true, Bool.false_eq_true]
    rw [advance_one hlt]
    exact upTo_eq known (Nat.le_succ_of_le (Nat.le_trans hle hmoved))
  | case7 c b c' hd hq hb hp o outer ih =>
    obtain ⟨hmoved, hlt, -, -⟩ := Cursor.skipTo_eq_some hd
    have hsize : offsets.size ≠ known.offsets.size := by
      rw [hstacked.size, List.length_cons]
      omega
    rw [scanGroup_step, hd]
    simp only [hq, hb, hp, hsize, if_false, Bool.false_eq_true]
    rw [advance_one hlt]
    exact ih hstacked.pop (Nat.le_succ_of_le (Nat.le_trans hle hmoved))

/-- The lexeme at an opening parenthesis. -/
def nextParen (s : Scanner src) : Checked (Lexeme × Scanner src) := do
  let behind ← advance s.cursor 1
  let (known, openParens) := s.openParens.lookup s.pos
  if known then
    return (⟨.token .openParen, 1⟩, ⟨behind, openParens⟩)
  else
    scanGroup s.pos behind openParens.offsets.size openParens.next openParens.offsets behind

/-- The lexeme of a single character. -/
def nextChar (s : Scanner src) : Checked (Lexeme × Scanner src) := do
  upTo s.pos s.openParens (.token .word) (← advanceChar s.cursor)

/-- The lexeme at a slash. -/
def nextSlash (s : Scanner src) : Checked (Lexeme × Scanner src) := do
  if (← peek s.cursor) = Byte.star then
    let (closed, c) ← skipPastCommentEnd (← advance s.cursor 2)
    upTo s.pos s.openParens (if closed then .token .comment else .unclosed .comment) c
  else
    nextChar s

/-- The lexeme at a quote. -/
def nextQuote (s : Scanner src) (quote : UInt8) : Checked (Lexeme × Scanner src) := do
  let (closed, c) ← skipString quote (← advance s.cursor 1)
  upTo s.pos s.openParens (if closed then .token .string else .unclosed .string) c

/-- The lexeme at a zero byte. -/
def nextZero (s : Scanner src) : Checked (Lexeme × Scanner src) := do
  if ← atEnd s.cursor then
    return (⟨.finish, 0⟩, s)
  else
    nextChar s

/-- The next lexeme, and the scanner behind it. -/
def next (s : Scanner src) : Checked (Lexeme × Scanner src) := do
  match Opening.ofByte (← current s.cursor) with
  | .zero => nextZero s
  | .blank => upTo s.pos s.openParens (.token .space) (← skipWhile Byte.isBlank s.cursor)
  | .atWord => upTo s.pos s.openParens (.token .atWord) (← skipWord (← advance s.cursor 1))
  | .quote quote => nextQuote s quote
  | .slash => nextSlash s
  | .paren => nextParen s
  | .mark kind => upTo s.pos s.openParens (.token kind) (← advance s.cursor 1)
  | .word => upTo s.pos s.openParens (.token .word) (← skipWord s.cursor)
  | .stray => nextChar s

/-! ## The outcome is that of the plain scanner -/

theorem nextParen_eq (h : s.pos < src.size) : nextParen s = lift s.nextParen := by
  rw [nextParen, advance_one h, Scanner.nextParen]
  show (if (s.openParens.lookup s.pos).1 then _ else _) = _
  refine lift_ite_eq (fun _ => rfl) fun _ => ?_
  have hstacked : Stacked (s.openParens.lookup s.pos).2.offsets []
      (s.openParens.lookup s.pos).2.offsets := (List.append_nil _).symm
  have hgroup := scanGroup_eq (c := s.cursor.advance 1) hstacked (Nat.le_succ _) (Nat.le_of_lt h)
  refine hgroup.trans ?_
  cases (s.cursor.advance 1).scanGroup [] with
  | error e => rfl
  | ok ending => cases ending <;> rfl

theorem nextChar_eq (h : s.pos < src.size) :
    nextChar s = lift (do return s.upTo (.token .word) (← s.cursor.advanceChar)) := by
  rw [nextChar, advanceChar_eq (Nat.le_of_lt h)]
  refine lift_bind_eq fun c hc => ?_
  have hpos := (Cursor.advanceChar_yields h).of_eq_ok hc
  exact upTo_eq s.openParens (Nat.le_of_lt hpos.1)

theorem nextSlash_eq (h : s.pos < src.size) : nextSlash s = lift s.nextSlash := by
  rw [nextSlash, peek_eq (Nat.le_of_lt h)]
  refine lift_bind_eq fun b hb => lift_ite_eq (fun hstar => ?_) fun _ => nextChar_eq h
  have hlt2 : s.pos + 1 < src.size := Source.lt_size_of_byteAt hb (by rw [hstar]; decide)
  have hpos := Cursor.skipPastCommentEnd_pos (c := s.cursor.advance 2) hlt2
  rw [advance_eq hlt2]
  show (skipPastCommentEnd (s.cursor.advance 2) >>= _) = _
  rw [skipPastCommentEnd_eq]
  generalize (s.cursor.advance 2).skipPastCommentEnd = r at hpos ⊢
  obtain ⟨closed, c⟩ := r
  have hle : s.pos ≤ c.pos := Nat.le_trans (Nat.le_add_right _ 2) hpos.1
  cases closed with
  | true => exact upTo_eq s.openParens hle
  | false => exact upTo_eq s.openParens hle

theorem nextQuote_eq (quote : UInt8) (h : s.pos < src.size) :
    nextQuote s quote = lift (s.nextQuote quote) := by
  rw [nextQuote, advance_one h]
  show (skipString quote (s.cursor.advance 1) >>= _) = _
  rw [skipString_eq]
  refine lift_bind_eq fun r hr => ?_
  have hpos := (Cursor.skipString_yields (c := s.cursor.advance 1) h).of_eq_ok hr
  obtain ⟨closed, c⟩ := r
  have hle : s.pos ≤ c.pos := Nat.le_trans (Nat.le_succ _) hpos.1
  cases closed with
  | true => exact upTo_eq s.openParens hle
  | false => exact upTo_eq s.openParens hle

theorem nextZero_eq (s : Scanner src) : nextZero s = lift s.nextZero := by
  rw [nextZero, atEnd_eq]
  refine lift_bind_eq fun ended hended => ?_
  cases ended with
  | true => rfl
  | false => exact nextChar_eq (lt_size_of_atEnd hended)

/-- **Scanning in checked steps is scanning**, wherever the scanner stands. -/
theorem next_eq (s : Scanner src) : next s = lift s.next := by
  refine lift_bind_eq fun b hb => ?_
  have hof {o : Opening} (ho : Opening.ofByte b = o) (hn : o ≠ .zero) : s.pos < src.size := by
    apply Cursor.lt_size_of_current hb
    rintro rfl
    exact hn ho.symm
  have hword {tag : Tag} {c : Cursor src} (hle : s.pos ≤ c.pos) (hsize : c.pos ≤ src.size) :
      (skipWord c >>= upTo s.pos s.openParens tag) =
        lift (c.skipWord >>= fun c' => return s.upTo tag c') := by
    rw [skipWord_eq]
    refine lift_bind_eq fun c' hc' => ?_
    have hpos := (Cursor.skipWord_yields hsize).of_eq_ok hc'
    exact upTo_eq s.openParens (Nat.le_trans hle hpos.1)
  cases ho : Opening.ofByte b with
  | zero => exact nextZero_eq s
  | blank =>
      have hlt := hof ho nofun
      dsimp only
      rw [skipWhile_eq (by decide)]
      refine lift_bind_eq fun c hc => ?_
      have hpos := (Cursor.skipWhile_yields (by decide) (Nat.le_of_lt hlt)).of_eq_ok hc
      exact upTo_eq s.openParens hpos.1
  | atWord =>
      have hlt := hof ho nofun
      dsimp only
      rw [advance_one hlt]
      exact hword (Nat.le_succ _) hlt
  | quote quote => exact nextQuote_eq quote (hof ho nofun)
  | slash => exact nextSlash_eq (hof ho nofun)
  | paren => exact nextParen_eq (hof ho nofun)
  | mark kind =>
      have hlt := hof ho nofun
      dsimp only
      rw [advance_one hlt]
      exact upTo_eq s.openParens (Nat.le_succ _)
  | word =>
      have hlt := hof ho nofun
      exact hword (Nat.le_refl _) (Nat.le_of_lt hlt)
  | stray => exact nextChar_eq (hof ho nofun)

end CssTokens.Checked
