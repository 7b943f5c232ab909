import CssTokens.Proofs.LexemeAlignment

/-!
# CssTokens.Proofs.LexemeAlone — a lexeme without the text behind it

What a rule has taken is enough to decide what it takes.  It may have looked further, at a star behind a
slash, at a line feed behind a carriage return, at a seventh digit, or for a closing delimiter far away;
but what it looked for and did not take is missing just as well where the bytes end.  So the length of a
rule is `Trimmable`: it is the same in the bytes cut off behind it, or anywhere later.  That holds of
each rule that words are made of, and of a rule followed by another (`Trimmable.andThen`).  A search
that finds its closing delimiter finds it without the bytes behind it.

A lexeme is therefore the lexeme of its own bytes (`lexeme_take`).  An opening parenthesis is the
exception: the quote that keeps it from opening a group is not among its bytes, and alone it is a group
without its end (`lexeme_take_openParen`).
-/

namespace CssTokens

set_option autoImplicit false

namespace ByteRules

variable {bs : List UInt8}

/-! ## Lengths -/

/-- A length counted from the front of the bytes that stays when bytes are cut off behind it. -/
def Trimmable (rule : List UInt8 → Nat) : Prop :=
  ∀ bs n, rule bs ≤ n → rule (bs.take n) = rule bs

theorem Trimmable.andThen {first second : List UInt8 → Nat} (hfirst : Trimmable first)
    (hsecond : Trimmable second) : Trimmable fun bs => first bs + second (bs.drop (first bs)) := by
  intro bs n h
  have hsum : first bs + second (bs.drop (first bs)) ≤ n := h
  have hle : first bs ≤ n := Nat.le_trans (Nat.le_add_right _ _) hsum
  have hrest : second (bs.drop (first bs)) ≤ n - first bs := by omega
  simp only [hfirst bs n hle, List.drop_take, hsecond _ _ hrest]

/-- A rule that takes nothing where there is nothing needs to be looked at where a byte is kept. -/
theorem trimmable_of_cons {rule : List UInt8 → Nat} (hnil : rule [] = 0)
    (hcons : ∀ b bs n, rule (b :: bs) ≤ n + 1 → rule (b :: bs.take n) = rule (b :: bs)) :
    Trimmable rule := by
  intro bs n h
  cases n with
  | zero => rw [List.take_zero, hnil, Nat.le_zero.mp h]
  | succ n =>
      cases bs with
      | nil => rw [List.take_nil]
      | cons b bs => exact hcons b bs n h

theorem head?_of_head?_take {n : Nat} {b : UInt8} (h : (bs.take n).head? = some b) :
    bs.head? = some b := by
  rw [List.head?_take] at h
  split at h
  · cases h
  · exact h

theorem head?_take_of_pos {n : Nat} (hn : 0 < n) : (bs.take n).head? = bs.head? := by
  rw [List.head?_take, if_neg (Nat.ne_of_gt hn)]

theorem trimmable_charLength : Trimmable charLength := by
  apply trimmable_of_cons rfl
  intro b bs n h
  simp only [charLength, List.length_take] at h ⊢
  omega

theorem trimmable_hexLength (k : Nat) : Trimmable (hexLength k) := by
  induction k with
  | zero =>
      intro bs n h
      rfl
  | succ k ih =>
      apply trimmable_of_cons rfl
      intro b bs n h
      simp only [hexLength] at h ⊢
      by_cases hb : Byte.isHexDigit b = true
      · rw [if_pos hb] at h
        rw [if_pos hb, if_pos hb, ih bs n (by omega)]
      · rw [if_neg hb, if_neg hb]

theorem trimmable_blankLength : Trimmable blankLength := by
  apply trimmable_of_cons rfl
  intro b bs n h
  simp only [blankLength] at h ⊢
  by_cases hcr : b = Byte.carriageReturn
  · rw [if_pos hcr] at h
    rw [if_pos hcr, if_pos hcr]
    by_cases hlf : bs.head? = some Byte.lineFeed
    · rw [if_pos hlf] at h
      rw [head?_take_of_pos (by omega)]
    · rw [if_neg hlf, if_neg (fun htake => hlf (head?_of_head?_take htake))]
  · rw [if_neg hcr, if_neg hcr]

theorem trimmable_escapeLength : Trimmable escapeLength := by
  apply trimmable_of_cons rfl
  intro b bs n h
  rw [escapeLength] at h ⊢
  rw [escapeLength]
  by_cases hb : Byte.isHexDigit b = true
  · rw [if_pos hb] at h
    rw [if_pos hb, if_pos hb]
    exact (trimmable_hexLength Cursor.maxHexDigits).andThen trimmable_blankLength (b :: bs) (n + 1) h
  · rw [if_neg hb] at h
    rw [if_neg hb, if_neg hb]
    exact trimmable_charLength (b :: bs) (n + 1) h

/-- A unit stays a unit.  Where a word ends there is none, and there may be one without what ends it:
a slash that no star follows. -/
theorem unitLength_take {n : Nat} (hunit : unitLength bs ≠ 0) (h : unitLength bs ≤ n) :
    unitLength (bs.take n) = unitLength bs := by
  cases bs with
  | nil => exact absurd rfl hunit
  | cons b bs =>
      cases n with
      | zero => exact absurd (Nat.le_zero.mp h) hunit
      | succ n =>
          rw [List.take_succ_cons, unitLength]
          rw [unitLength] at h hunit ⊢
          by_cases hback : b = Byte.backslash
          · rw [if_pos hback] at h
            rw [if_pos hback, if_pos hback, trimmable_escapeLength bs n (by omega)]
          rw [if_neg hback] at hunit
          rw [if_neg hback, if_neg hback]
          by_cases hslash : b = Byte.slash
          · rw [if_pos hslash] at hunit
            rw [if_pos hslash, if_pos hslash]
            by_cases hstar : bs.head? = some Byte.star
            · rw [if_pos hstar] at hunit
              exact absurd rfl hunit
            · rw [if_neg hstar, if_neg (fun htake => hstar (head?_of_head?_take htake))]
          · rw [if_neg hslash, if_neg hslash]

theorem wordLength_take (bs : List UInt8) : wordLength (bs.take (wordLength bs)) = wordLength bs := by
  fun_induction wordLength bs with
  | case1 bs h =>
      rw [List.take_zero]
      exact wordLength_of_unit_zero rfl
  | case2 bs h ih =>
      have hunit := unitLength_take h (Nat.le_add_right _ (wordLength (bs.drop (unitLength bs))))
      have hne : unitLength (bs.take (unitLength bs + wordLength (bs.drop (unitLength bs)))) ≠ 0 := by
        rw [hunit]
        exact h
      rw [wordLength_of_unit hne, hunit, List.drop_take, Nat.add_sub_cancel_left, ih]

theorem blanks_take (bs : List UInt8) :
    ((bs.take (bs.takeWhile Byte.isBlank).length).takeWhile Byte.isBlank).length =
      (bs.takeWhile Byte.isBlank).length := by
  rw [← List.take_takeWhile, List.take_length]

/-! ## Searches for a closing delimiter -/

/-- A delimiter that is found behind some bytes is found in what the bytes that are kept leave of the
others. -/
theorem closed_of_behind {found : Ending × Nat} {k n : Nat}
    (h : (behind (k + 1) found).1 = .closed) (hn : (behind (k + 1) found).2 ≤ n) :
    ∃ m, n = m + 1 ∧ k ≤ m ∧ found.1 = .closed ∧ found.2 ≤ m - k := by
  have hsum : k + 1 + found.2 ≤ n := hn
  exact ⟨n - 1, by omega, by omega, h, by omega⟩

theorem string_take {quote : UInt8} {n : Nat} (h : (string quote bs).1 = .closed)
    (hn : (string quote bs).2 ≤ n) : string quote (bs.take n) = string quote bs := by
  fun_induction string quote bs generalizing n with
  | case1 => cases h
  | case2 bs ih =>
      obtain ⟨m, rfl, hk, hclosed, hle⟩ := closed_of_behind h hn
      rw [List.take_succ_cons, string, if_pos rfl, trimmable_charLength bs m hk, List.drop_take,
        ih hclosed hle]
  | case3 bs hback =>
      obtain ⟨m, rfl⟩ := Nat.exists_eq_add_one.mpr hn
      rw [List.take_succ_cons, string, if_neg hback, if_pos rfl]
  | case4 b bs hback hquote ih =>
      obtain ⟨m, rfl, -, hclosed, hle⟩ := closed_of_behind (k := 0) h hn
      rw [List.take_succ_cons, string, if_neg hback, if_neg hquote, ih (n := m) hclosed hle]

theorem comment_take {n : Nat} (h : (comment bs).1 = .closed) (hn : (comment bs).2 ≤ n) :
    comment (bs.take n) = comment bs := by
  fun_induction comment bs generalizing n with
  | case1 => cases h
  | case2 b bs hend =>
      have htwo : 2 ≤ n := hn
      obtain ⟨m, rfl⟩ : ∃ m, n = m + 1 := Nat.exists_eq_add_one.mpr (by omega)
      have hslash : (bs.take m).head? = some Byte.slash := by
        rw [head?_take_of_pos (by omega)]
        exact hend.2
      rw [List.take_succ_cons, comment, if_pos ⟨hend.1, hslash⟩]
  | case3 b bs hend ih =>
      obtain ⟨m, rfl, -, hclosed, hle⟩ := closed_of_behind (k := 0) h hn
      rw [List.take_succ_cons, comment, if_neg (fun ht => hend ⟨ht.1, head?_of_head?_take ht.2⟩),
        ih (n := m) hclosed hle]

theorem group_take {depth n : Nat} (h : (group depth bs).1 = .closed)
    (hn : (group depth bs).2 ≤ n) : group depth (bs.take n) = group depth bs := by
  fun_induction group depth bs generalizing n with
  | case1 => cases h
  | case2 depth b bs hq => cases h
  | case3 depth bs hq ih =>
      obtain ⟨m, rfl, hk, hclosed, hle⟩ := closed_of_behind h hn
      rw [List.take_succ_cons, group_cons, if_neg hq, if_pos rfl, trimmable_charLength bs m hk,
        List.drop_take, ih hclosed hle]
  | case4 depth bs hq hb ih =>
      obtain ⟨m, rfl, -, hclosed, hle⟩ := closed_of_behind (k := 0) h hn
      rw [List.take_succ_cons, group_cons, if_neg hq, if_neg hb, if_pos rfl,
        ih (n := m) hclosed hle]
  | case5 bs hq hb hp =>
      obtain ⟨m, rfl⟩ := Nat.exists_eq_add_one.mpr hn
      rw [List.take_succ_cons, group_cons, if_neg hq, if_neg hb, if_neg hp, if_pos rfl]
  | case6 bs outer hq hb hp ih =>
      obtain ⟨m, rfl, -, hclosed, hle⟩ := closed_of_behind (k := 0) h hn
      rw [List.take_succ_cons, group_cons, if_neg hq, if_neg hb, if_neg hp, if_pos rfl]
      exact congrArg (behind 1) (ih hclosed hle)
  | case7 depth b bs hq hb hp hc ih =>
      obtain ⟨m, rfl, -, hclosed, hle⟩ := closed_of_behind (k := 0) h hn
      rw [List.take_succ_cons, group_cons, if_neg hq, if_neg hb, if_neg hp, if_neg hc,
        ih (n := m) hclosed hle]

/-! ## Lexemes -/

/-- A lexeme with an opening delimiter of `n` bytes that is not alone takes as many bytes behind it as
decide the search. -/
theorem enclosed_take {search : List UInt8 → Ending × Nat} {construct : Unclosed} {close : UInt8}
    {n : Nat} (hreaches : Reaches close bs (search bs))
    (htake : ∀ m, (search bs).1 = .closed → (search bs).2 ≤ m → search (bs.take m) = search bs)
    (h : (enclosed construct n (search bs)).tag ≠ .token .openParen) :
    ∃ m, (enclosed construct n (search bs)).length = n + m ∧ search (bs.take m) = search bs := by
  cases hfound : search bs with
  | mk ending m =>
      rw [hfound] at h hreaches htake
      cases ending with
      | closed => exact ⟨m, rfl, htake m rfl (Nat.le_refl m)⟩
      | quoted => exact absurd rfl h
      | missing =>
          have hm : m = bs.length := hreaches
          exact ⟨m, rfl, by rw [hm, List.take_length, hfound, hm]⟩

/-- **A lexeme is the lexeme of its own bytes**, unless it is an opening parenthesis. -/
theorem lexeme_take (h : (lexeme bs).tag ≠ .token .openParen) :
    lexeme (bs.take (lexeme bs).length) = lexeme bs := by
  cases bs with
  | nil => rfl
  | cons b bs =>
      have hpos := (lexeme_takes b bs).pos
      have hchar : charLength ((b :: bs).take (charLength (b :: bs))) = charLength (b :: bs) :=
        trimmable_charLength (b :: bs) _ (Nat.le_refl _)
      obtain ⟨n, hn⟩ : ∃ n, (lexeme (b :: bs)).length = n + 1 := Nat.exists_eq_add_one.mpr hpos
      rw [hn, List.take_succ_cons]
      cases ho : Opening.ofByte b with
      | zero =>
          simp only [lexeme, ho] at hn ⊢
          rw [hn, List.take_succ_cons] at hchar
          rw [hchar, hn]
      | blank =>
          have hblanks := blanks_take (b :: bs)
          simp only [lexeme, ho] at hn ⊢
          rw [hn, List.take_succ_cons] at hblanks
          rw [hblanks, hn]
      | atWord =>
          simp only [lexeme, ho] at hn ⊢
          have hn : wordLength bs = n := by omega
          rw [← hn, wordLength_take]
      | quote quote =>
          simp only [lexeme, ho] at h hn ⊢
          obtain ⟨m, hm, hsame⟩ :=
            enclosed_take (string_reaches quote bs) (fun m => string_take) h
          have hn : n = m := by omega
          rw [hn, hsame]
      | slash =>
          simp only [lexeme, ho] at h hn ⊢
          by_cases hstar : bs.head? = some Byte.star
          · obtain ⟨ds, rfl⟩ := List.head?_eq_some_iff.mp hstar
            rw [if_pos hstar, List.tail_cons] at h hn
            obtain ⟨m, hm, hsame⟩ := enclosed_take (comment_reaches ds) (fun m => comment_take) h
            have hn : n = m + 1 := by omega
            simp only [hn, List.take_succ_cons, List.head?_cons, if_true, List.tail_cons, hsame]
          · simp only [if_neg hstar] at hn ⊢
            rw [if_neg (fun htake => hstar (head?_of_head?_take htake))]
            rw [hn, List.take_succ_cons] at hchar
            rw [hchar, hn]
      | paren =>
          simp only [lexeme, ho] at h hn ⊢
          obtain ⟨m, hm, hsame⟩ := enclosed_take (group_reaches 0 bs) (fun m => group_take) h
          have hn : n = m := by omega
          rw [hn, hsame]
      | mark kind => simp only [lexeme, ho]
      | word =>
          have hword := wordLength_take (b :: bs)
          simp only [lexeme, ho] at hn ⊢
          rw [hn, List.take_succ_cons] at hword
          rw [hword, hn]
      | stray =>
          simp only [lexeme, ho] at hn ⊢
          rw [hn, List.take_succ_cons] at hchar
          rw [hchar, hn]

/-- An opening parenthesis without the quote behind it begins a group. -/
theorem lexeme_take_openParen (h : (lexeme bs).tag = .token .openParen) :
    lexeme (bs.take (lexeme bs).length) = ⟨.unclosed .bracket, (lexeme bs).length⟩ := by
  obtain ⟨ds, n, rfl, hquoted⟩ := quoted_of_openParen h
  have hstart : lexeme (Byte.openParen :: ds) = ⟨.token .openParen, 1⟩ := by
    show enclosed .bracket 1 (group 0 ds) = _
    rw [hquoted]
    rfl
  have halone : lexeme [Byte.openParen] = ⟨.unclosed .bracket, 1⟩ := by decide +kernel
  rw [hstart]
  exact halone

end ByteRules

end CssTokens
