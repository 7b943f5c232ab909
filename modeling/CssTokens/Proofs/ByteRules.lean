import CssTokens.Scanner

/-!
# CssTokens.Proofs.ByteRules — what a list of bytes begins with

A scanner works on offsets into a padded source: it reads ahead, jumps to the next byte of a class,
and remembers parentheses.  A lexeme shows none of that.  It is decided by the bytes from its start
to the end of the text, and this module says how, by recursion on these bytes alone.

Lengths are counted in bytes from the front of the list.  `wordLength` adds up units; `string`,
`comment` and `group` say what ends the search for a closing delimiter and how far it went; `lexeme`
puts them together.  What stands where such a search ends is the same for all three (`Reaches`,
`string_reaches`, `comment_reaches`, `group_reaches`): the last byte of the delimiter, a quote, or
the end of the list.
-/

namespace CssTokens.ByteRules

set_option autoImplicit false

/-! ## Characters and escapes -/

/-- Length of the character that begins the bytes, as far as the bytes go. -/
def charLength : List UInt8 → Nat
  | [] => 0
  | b :: bs => min (Utf8.width b) (bs.length + 1)

/-- Length of the run of hexadecimal digits at the front, counted up to a limit. -/
def hexLength : Nat → List UInt8 → Nat
  | 0, _ => 0
  | _ + 1, [] => 0
  | n + 1, b :: bs => if Byte.isHexDigit b then 1 + hexLength n bs else 0

/-- Length of the blank that ends a numeric escape, if there is one. -/
def blankLength : List UInt8 → Nat
  | [] => 0
  | b :: bs =>
      if b = Byte.carriageReturn then
        if bs.head? = some Byte.lineFeed then 2 else 1
      else if Byte.isBlank b then 1
      else 0

/-- Length of what a backslash in front of the bytes escapes in a word. -/
def escapeLength : List UInt8 → Nat
  | [] => 0
  | b :: bs =>
      if Byte.isHexDigit b then
        let digits := hexLength Cursor.maxHexDigits (b :: bs)
        digits + blankLength ((b :: bs).drop digits)
      else charLength (b :: bs)

theorem charLength_le (bs : List UInt8) : charLength bs ≤ bs.length := by
  cases bs with
  | nil => exact Nat.le_refl 0
  | cons b bs => exact Nat.min_le_right _ _

theorem charLength_pos (b : UInt8) (bs : List UInt8) : 0 < charLength (b :: bs) := by
  have := Utf8.width_pos b
  show 0 < min (Utf8.width b) (bs.length + 1)
  omega

theorem hexLength_le (n : Nat) (bs : List UInt8) : hexLength n bs ≤ bs.length := by
  induction n generalizing bs with
  | zero => exact Nat.zero_le _
  | succ n ih =>
      cases bs with
      | nil => exact Nat.le_refl 0
      | cons b bs =>
          have := ih bs
          simp only [hexLength, List.length_cons]
          split <;> omega

theorem blankLength_le (bs : List UInt8) : blankLength bs ≤ bs.length := by
  cases bs with
  | nil => exact Nat.le_refl 0
  | cons b bs =>
      simp only [blankLength, List.length_cons]
      split
      · split
        · next h =>
            cases bs with
            | nil => simp at h
            | cons d bs => simp
        · omega
      · split <;> omega

theorem escapeLength_le (bs : List UInt8) : escapeLength bs ≤ bs.length := by
  cases bs with
  | nil => exact Nat.le_refl 0
  | cons b bs =>
      have hd := hexLength_le Cursor.maxHexDigits (b :: bs)
      have hb := blankLength_le ((b :: bs).drop (hexLength Cursor.maxHexDigits (b :: bs)))
      rw [List.length_drop] at hb
      simp only [escapeLength]
      split
      · omega
      · exact charLength_le (b :: bs)

/-! ## Words -/

/-- Length of the unit at the front of a word that goes on with the bytes; zero if the word ends
before them. -/
def unitLength : List UInt8 → Nat
  | [] => 0
  | b :: bs =>
      if b = Byte.backslash then 1 + escapeLength bs
      else if b = Byte.slash then
        if bs.head? = some Byte.star then 0 else 1
      else if Byte.endsWord b then 0
      else 1

theorem unitLength_le (bs : List UInt8) : unitLength bs ≤ bs.length := by
  cases bs with
  | nil => exact Nat.le_refl 0
  | cons b bs =>
      have := escapeLength_le bs
      simp only [unitLength, List.length_cons]
      split
      · omega
      · split
        · split <;> omega
        · split <;> omega

/-- Length of the word that goes on with the bytes: its units, one after the other. -/
def wordLength (bs : List UInt8) : Nat :=
  if _h : unitLength bs = 0 then 0
  else unitLength bs + wordLength (bs.drop (unitLength bs))
termination_by bs.length
decreasing_by
  have := unitLength_le bs
  rw [List.length_drop]
  omega

theorem wordLength_of_unit_zero {bs : List UInt8} (h : unitLength bs = 0) : wordLength bs = 0 := by
  rw [wordLength, dif_pos h]

theorem wordLength_of_unit {bs : List UInt8} (h : unitLength bs ≠ 0) :
    wordLength bs = unitLength bs + wordLength (bs.drop (unitLength bs)) := by
  rw [wordLength, dif_neg h]

theorem wordLength_le (bs : List UInt8) : wordLength bs ≤ bs.length := by
  fun_induction wordLength bs with
  | case1 bs h => exact Nat.zero_le _
  | case2 bs h ih =>
      have := unitLength_le bs
      rw [List.length_drop] at ih
      omega

/-! ## Strings, comments and groups -/

/-- What puts an end to the search for a closing delimiter. -/
inductive Ending where
  /-- The delimiter, which belongs to what it closes. -/
  | closed
  /-- A quote that shows that there is no group; it is left where it stands. -/
  | quoted
  /-- The end of the bytes. -/
  | missing
deriving DecidableEq

/-- What is found in the bytes behind the first `n`. -/
def behind (n : Nat) (found : Ending × Nat) : Ending × Nat :=
  (found.1, n + found.2)

/-- How a string in the given quotes ends that goes on with the bytes, and how far it goes. -/
def string (quote : UInt8) : List UInt8 → Ending × Nat
  | [] => (.missing, 0)
  | b :: bs =>
      if b = Byte.backslash then
        behind (charLength bs + 1) (string quote (bs.drop (charLength bs)))
      else if b = quote then (.closed, 1)
      else behind 1 (string quote bs)
termination_by bs => bs.length
decreasing_by
  · rw [List.length_drop, List.length_cons]
    omega
  · exact Nat.lt_succ_self _

/-- How a comment ends that goes on with the bytes, and how far it goes. -/
def comment : List UInt8 → Ending × Nat
  | [] => (.missing, 0)
  | b :: bs =>
      if b = Byte.star ∧ bs.head? = some Byte.slash then (.closed, 2)
      else behind 1 (comment bs)

/-- How a group ends that goes on with the bytes while `depth` inner parentheses are open, and how
far it goes. -/
def group (depth : Nat) : List UInt8 → Ending × Nat
  | [] => (.missing, 0)
  | b :: bs =>
      if Byte.isQuote b then (.quoted, 0)
      else if b = Byte.backslash then
        behind (charLength bs + 1) (group depth (bs.drop (charLength bs)))
      else if b = Byte.openParen then behind 1 (group (depth + 1) bs)
      else if b = Byte.closeParen then
        match depth with
        | 0 => (.closed, 1)
        | outer + 1 => behind 1 (group outer bs)
      else behind 1 (group depth bs)
termination_by bs => bs.length
decreasing_by
  all_goals simp only [List.length_drop, List.length_cons]
  all_goals omega

/-- What stands in the bytes where the search for a closing delimiter came to its end: the last
byte of the delimiter, a quote, or nothing more. -/
def Reaches (close : UInt8) (bs : List UInt8) : Ending × Nat → Prop
  | (.closed, n) => ∃ m, n = m + 1 ∧ bs[m]? = some close
  | (.quoted, n) => ∃ quote, bs[n]? = some quote ∧ Byte.isQuote quote = true
  | (.missing, n) => n = bs.length

theorem Reaches.behind {close : UInt8} {bs : List UInt8} {n : Nat} {found : Ending × Nat}
    (h : Reaches close (bs.drop n) found) (hn : n ≤ bs.length) :
    Reaches close bs (behind n found) := by
  obtain ⟨ending, k⟩ := found
  cases ending with
  | closed =>
      obtain ⟨m, rfl, hm⟩ := h
      rw [List.getElem?_drop] at hm
      exact ⟨n + m, rfl, hm⟩
  | quoted =>
      obtain ⟨quote, hq, hquote⟩ := h
      rw [List.getElem?_drop] at hq
      exact ⟨quote, hq, hquote⟩
  | missing =>
      have hk : k = (bs.drop n).length := h
      rw [List.length_drop] at hk
      show n + k = bs.length
      omega

theorem Reaches.le {close : UInt8} {bs : List UInt8} {found : Ending × Nat}
    (h : Reaches close bs found) : found.2 ≤ bs.length := by
  obtain ⟨ending, k⟩ := found
  cases ending with
  | closed =>
      obtain ⟨m, rfl, hm⟩ := h
      exact (List.getElem?_eq_some_iff.mp hm).1
  | quoted =>
      obtain ⟨quote, hq, -⟩ := h
      exact Nat.le_of_lt (List.getElem?_eq_some_iff.mp hq).1
  | missing => exact Nat.le_of_eq h

/-- Where nothing is found the search has gone through all bytes. -/
theorem Reaches.length_of_missing {close : UInt8} {bs : List UInt8} {found : Ending × Nat}
    (h : Reaches close bs found) (hm : found.1 = .missing) : found.2 = bs.length := by
  obtain ⟨ending, k⟩ := found
  subst hm
  exact h

theorem string_reaches (quote : UInt8) (bs : List UInt8) :
    Reaches quote bs (string quote bs) := by
  fun_induction string quote bs with
  | case1 => rfl
  | case2 bs ih =>
      apply Reaches.behind (n := charLength bs + 1)
      · exact ih
      · exact Nat.succ_le_succ (charLength_le bs)
  | case3 bs h => exact ⟨0, rfl, rfl⟩
  | case4 b bs h hq ih =>
      apply Reaches.behind (n := 1)
      · exact ih
      · exact Nat.succ_le_succ (Nat.zero_le _)

theorem comment_reaches (bs : List UInt8) : Reaches Byte.slash bs (comment bs) := by
  fun_induction comment bs with
  | case1 => rfl
  | case2 b bs h => exact ⟨1, rfl, by rw [← h.2]; cases bs <;> rfl⟩
  | case3 b bs h ih =>
      apply Reaches.behind (n := 1)
      · exact ih
      · exact Nat.succ_le_succ (Nat.zero_le _)

theorem group_reaches (depth : Nat) (bs : List UInt8) :
    Reaches Byte.closeParen bs (group depth bs) := by
  have hone (b : UInt8) (bs : List UInt8) : 1 ≤ (b :: bs).length :=
    Nat.succ_le_succ (Nat.zero_le _)
  fun_induction group depth bs with
  | case1 => rfl
  | case2 depth b bs hq => exact ⟨b, rfl, hq⟩
  | case3 depth bs hq ih =>
      apply Reaches.behind (n := charLength bs + 1)
      · exact ih
      · exact Nat.succ_le_succ (charLength_le bs)
  | case4 depth bs hq hb ih => exact Reaches.behind (n := 1) ih (hone _ _)
  | case5 bs hq hb hp => exact ⟨0, rfl, rfl⟩
  | case6 bs hq hb hp outer ih => exact Reaches.behind (n := 1) ih (hone _ _)
  | case7 depth b bs hq hb hp hc ih => exact Reaches.behind (n := 1) ih (hone _ _)

theorem behind_zero (found : Ending × Nat) : behind 0 found = found := by
  simp [behind]

theorem behind_behind (m n : Nat) (found : Ending × Nat) :
    behind m (behind n found) = behind (m + n) found := by
  simp only [behind, Nat.add_assoc]

/-- Bytes that neither end a string nor escape anything are passed over. -/
theorem string_append {quote : UInt8} {pre : List UInt8}
    (h : ∀ b ∈ pre, (b == quote || b == Byte.backslash) = false) (bs : List UInt8) :
    string quote (pre ++ bs) = behind pre.length (string quote bs) := by
  induction pre with
  | nil => rw [List.nil_append, List.length_nil, behind_zero]
  | cons b pre ih =>
      have hb := h b List.mem_cons_self
      rw [Bool.or_eq_false_iff, beq_eq_false_iff_ne, beq_eq_false_iff_ne] at hb
      rw [List.cons_append, string, if_neg hb.2, if_neg hb.1,
        ih (fun d hd => h d (List.mem_cons_of_mem b hd)), behind_behind, List.length_cons,
        Nat.add_comm]

theorem group_cons (depth : Nat) (b : UInt8) (bs : List UInt8) :
    group depth (b :: bs) =
      if Byte.isQuote b then (.quoted, 0)
      else if b = Byte.backslash then
        behind (charLength bs + 1) (group depth (bs.drop (charLength bs)))
      else if b = Byte.openParen then behind 1 (group (depth + 1) bs)
      else if b = Byte.closeParen then
        match depth with
        | 0 => (.closed, 1)
        | outer + 1 => behind 1 (group outer bs)
      else behind 1 (group depth bs) := by
  rw [group.eq_def]

/-- Bytes that do not matter in a group are passed over. -/
theorem group_append {pre : List UInt8} (h : ∀ b ∈ pre, Byte.isGroupDelim b = false) (depth : Nat)
    (bs : List UInt8) : group depth (pre ++ bs) = behind pre.length (group depth bs) := by
  induction pre with
  | nil => rw [List.nil_append, List.length_nil, behind_zero]
  | cons b pre ih =>
      have hb := h b List.mem_cons_self
      simp only [Byte.isGroupDelim, Bool.or_eq_false_iff, beq_eq_false_iff_ne] at hb
      obtain ⟨⟨⟨hopen, hclose⟩, hback⟩, hquote⟩ := hb
      rw [List.cons_append, group_cons, if_neg (Bool.eq_false_iff.mp hquote), if_neg hback,
        if_neg hopen, if_neg hclose, ih (fun d hd => h d (List.mem_cons_of_mem b hd)),
        behind_behind, List.length_cons, Nat.add_comm]

/-- A quote prevents groups only. -/
theorem string_ne_quoted (quote : UInt8) (bs : List UInt8) : (string quote bs).1 ≠ .quoted := by
  fun_induction string quote bs with
  | case1 => exact nofun
  | case2 bs ih => exact ih
  | case3 bs h => exact nofun
  | case4 b bs h hq ih => exact ih

theorem comment_ne_quoted (bs : List UInt8) : (comment bs).1 ≠ .quoted := by
  fun_induction comment bs with
  | case1 => exact nofun
  | case2 b bs h => exact nofun
  | case3 b bs h ih => exact ih

/-! ## Lexemes -/

/-- The lexeme that an opening delimiter of `n` bytes begins, by what is found behind it.  Where a
quote is found the delimiter, a parenthesis, stands alone. -/
def enclosed (construct : Unclosed) (n : Nat) : Ending × Nat → Lexeme
  | (.closed, length) => ⟨.token construct.kind, n + length⟩
  | (.quoted, _) => ⟨.token .openParen, n⟩
  | (.missing, length) => ⟨.unclosed construct, n + length⟩

/-- The lexeme at the front of the bytes. -/
def lexeme : List UInt8 → Lexeme
  | [] => ⟨.finish, 0⟩
  | b :: bs =>
      match Opening.ofByte b with
      | .zero => ⟨.token .word, charLength (b :: bs)⟩
      | .blank => ⟨.token .space, ((b :: bs).takeWhile Byte.isBlank).length⟩
      | .atWord => ⟨.token .atWord, 1 + wordLength bs⟩
      | .quote quote => enclosed .string 1 (string quote bs)
      | .slash =>
          if bs.head? = some Byte.star then enclosed .comment 2 (comment bs.tail)
          else ⟨.token .word, charLength (b :: bs)⟩
      | .paren => enclosed .bracket 1 (group 0 bs)
      | .mark kind => ⟨.token kind, 1⟩
      | .word => ⟨.token .word, wordLength (b :: bs)⟩
      | .stray => ⟨.token .word, charLength (b :: bs)⟩

end CssTokens.ByteRules
