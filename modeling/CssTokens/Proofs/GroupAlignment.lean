import CssTokens.Proofs.LexemeShape
import CssTokens.Proofs.OpenParenMemo

/-!
# CssTokens.Proofs.GroupAlignment — a search for the end of a group, word by word

The search for the end of a group knows no words and no comments.  It takes one byte after the other,
or a backslash and the character behind it (`scanGroup_of_rest`), and jumps to what matters in a group
only to save time.  A word may take more than one character behind a backslash, and a comment hides
what is in it.  Still the search goes on behind both as if it had known them:

* nothing in a numeric escape matters in a group (`scanGroup_escape`), so a search from behind a word
  ends as one from before it (`scanGroup_word`);
* a backslash before the end of a comment escapes at most the star of it, and the slash does not matter
  in a group either (`scanGroup_comment`).  In a comment the search may come to its quote, and it may
  come by parentheses, which are open from there on (`PassesOver`).

What holds along a search that comes to a quote is shown by `quoted_induction`; so the parentheses that
are open at the quote are handed out from the innermost outwards (`descending_of_quoted`).
-/

namespace CssTokens

set_option autoImplicit false

variable {src : Source}

namespace Cursor

open ByteRules Reading

variable {c quote : Cursor src} {opened found : List Nat} {b : UInt8} {bs : List UInt8}

/-! ## The search, byte by byte -/

theorem byte?_of_rest (hr : c.rest = b :: bs) : Utf8.byte? src.text c.pos = some b := by
  have hget : (src.bytes.drop c.pos)[0]? = some b := congrArg (·[0]?) hr
  rw [List.getElem?_drop, Nat.add_zero] at hget
  rw [Utf8.byte?_eq]
  exact hget

/-- Behind an ASCII byte a character begins. -/
theorem encoded_of_rest (hr : c.rest = b :: bs) (hb : b < 0x80) : Utf8.Encoded bs := by
  have hbyte := byte?_of_rest hr
  rw [Utf8.byte?_eq] at hbyte
  rw [← rest_advance_one hr]
  exact (Utf8.encoded_bytes src.text).drop_succ hbyte hb

theorem skipTo_of_rest {p : UInt8 → Bool} (hr : c.rest = b :: bs) :
    c.skipTo p = if p b then (some b, c) else (c.advance 1).skipTo p := by
  have hbyte := byte?_of_rest hr
  by_cases hp : p b = true
  · have hfind : src.find? p c.pos = some (c.pos, b) :=
      Source.find?_eq_some_iff.mpr ⟨Nat.le_refl _, hbyte, hp, fun k _ hle hlt => by omega⟩
    rw [if_pos hp, skipTo, hfind]
  · have hfind : src.find? p c.pos = src.find? p (c.pos + 1) := by
      rw [Source.find?]
      split
      · next hnone => cases hbyte.symm.trans hnone
      · next d hd =>
          cases hbyte.symm.trans hd
          rw [if_neg hp]
    rw [if_neg hp, skipTo, skipTo, hfind]
    rfl

/-- What the search for the end of a group makes of the next byte. -/
theorem scanGroup_of_rest (opened : List Nat) (hr : c.rest = b :: bs) :
    c.scanGroup opened =
      if Byte.isQuote b then .ok (.quoted c opened)
      else if b = Byte.backslash then (c.advance (charLength bs + 1)).scanGroup opened
      else if b = Byte.openParen then (c.advance 1).scanGroup (c.pos :: opened)
      else if b = Byte.closeParen then
        match opened with
        | [] => .ok (.closed (c.advance 1))
        | _ :: outer => (c.advance 1).scanGroup outer
      else (c.advance 1).scanGroup opened := by
  rw [scanGroup_step, skipToGroupDelim, skipTo_of_rest hr]
  by_cases hdelim : Byte.isGroupDelim b = true
  · have hescaped : c.skipEscapedChar = .ok (c.advance (charLength bs + 1)) := by
      rw [skipEscapedChar_eq (lt_size_of_rest hr), hr, List.tail_cons]
    rw [if_pos hdelim]
    by_cases hq : Byte.isQuote b = true
    · simp only [if_pos hq]
    · by_cases hb : b = Byte.backslash
      · simp only [if_neg hq, if_pos hb, hescaped]
      · by_cases hp : b = Byte.openParen
        · simp only [if_neg hq, if_neg hb, if_pos hp]
        · have hclose := closeParen_of_isGroupDelim hdelim hq hb hp
          cases opened with
          | nil => simp only [if_neg hq, if_neg hb, if_neg hp, if_pos hclose]
          | cons o outer => simp only [if_neg hq, if_neg hb, if_neg hp, if_pos hclose]
  · rw [if_neg hdelim]
    simp only [Byte.isGroupDelim, Bool.or_eq_true, beq_iff_eq, not_or] at hdelim
    obtain ⟨⟨⟨hopen, hclose⟩, hback⟩, hquote⟩ := hdelim
    rw [if_neg hquote, if_neg hback, if_neg hopen, if_neg hclose]
    exact (scanGroup_step opened (c.advance 1)).symm

/-- What a byte other than a quote and a backslash does to the open parentheses. -/
inductive Nests (pos : Nat) (b : UInt8) (opened : List Nat) : List Nat → Prop where
  | opens (h : b = Byte.openParen) : Nests pos b opened (pos :: opened)
  | closes {o : Nat} {outer : List Nat} (h : b = Byte.closeParen) (ho : opened = o :: outer) :
      Nests pos b opened outer
  | passes : Nests pos b opened opened

theorem Nests.mem {pos o : Nat} {inner : List Nat} (h : Nests pos b opened inner)
    (ho : o ∈ inner) : o ∈ opened ∨ o = pos := by
  cases h with
  | opens => exact (List.mem_cons.mp ho).symm
  | closes _ hopened =>
      rw [hopened]
      exact Or.inl (List.mem_cons_of_mem _ ho)
  | passes => exact Or.inl ho

/-- A search that will come to a quote has come to it, or goes on behind an escaped character or
behind the next byte. -/
theorem scanGroup_quoted_cases (hr : c.rest = b :: bs)
    (hscan : c.scanGroup opened = .ok (.quoted quote found)) :
    (Byte.isQuote b = true ∧ quote = c ∧ found = opened) ∨
    (b = Byte.backslash ∧
      (c.advance (charLength bs + 1)).scanGroup opened = .ok (.quoted quote found)) ∨
    (b ≠ Byte.backslash ∧ ∃ inner, Nests c.pos b opened inner ∧
      (c.advance 1).scanGroup inner = .ok (.quoted quote found)) := by
  rw [scanGroup_of_rest opened hr] at hscan
  by_cases hq : Byte.isQuote b = true
  · rw [if_pos hq] at hscan
    cases hscan
    exact Or.inl ⟨hq, rfl, rfl⟩
  rw [if_neg hq] at hscan
  by_cases hback : b = Byte.backslash
  · rw [if_pos hback] at hscan
    exact Or.inr (Or.inl ⟨hback, hscan⟩)
  rw [if_neg hback] at hscan
  refine Or.inr (Or.inr ⟨hback, ?_⟩)
  by_cases hopen : b = Byte.openParen
  · rw [if_pos hopen] at hscan
    exact ⟨_, .opens hopen, hscan⟩
  rw [if_neg hopen] at hscan
  by_cases hclose : b = Byte.closeParen
  · rw [if_pos hclose] at hscan
    cases opened with
    | nil => cases hscan
    | cons o outer => exact ⟨outer, .closes hclose rfl, hscan⟩
  · rw [if_neg hclose] at hscan
    exact ⟨opened, .passes, hscan⟩

theorem quote_bounds (h : c.pos ≤ src.size)
    (hscan : c.scanGroup opened = .ok (.quoted quote found)) :
    c.pos ≤ quote.pos ∧ quote.pos < src.size :=
  (scanGroup_yields h).of_eq_ok hscan

/-- What holds at the quote, and of a search if it holds of the one that it goes on as, holds of every
search that comes to the quote. -/
theorem quoted_induction {P : Cursor src → List Nat → Prop} (hquote : P quote found)
    (hescape : ∀ c opened n, P (c.advance n) opened → P c opened)
    (hnests : ∀ c opened inner b, c.pos < quote.pos → Nests c.pos b opened inner →
      P (c.advance 1) inner → P c opened)
    (h : c.pos ≤ src.size) (hscan : c.scanGroup opened = .ok (.quoted quote found)) :
    P c opened := by
  generalize hn : c.rest.length = n
  induction n using Nat.strongRecOn generalizing c opened with
  | ind n ih =>
      cases hr : c.rest with
      | nil =>
          have hlt := quote_bounds h hscan
          have hend := pos_eq_size_of_rest h hr
          omega
      | cons b bs =>
          have hle : (c.advance 1).pos ≤ src.size := lt_size_of_rest hr
          rcases scanGroup_quoted_cases hr hscan with
            ⟨-, rfl, rfl⟩ | ⟨rfl, hnext⟩ | ⟨-, inner, hinner, hnext⟩
          · exact hquote
          · have hlen : charLength bs + 1 ≤ c.rest.length := by
              rw [hr]
              exact Nat.succ_le_succ (charLength_le bs)
            have hle' := advance_pos_le h hlen
            have hshort : (c.advance (charLength bs + 1)).rest.length < n := by
              rw [rest_advance, List.length_drop]
              omega
            exact hescape c opened _ (ih _ hshort hle' hnext rfl)
          · have hshort : (c.advance 1).rest.length < n := by
              rw [← hn, rest_advance_one hr, hr]
              exact Nat.lt_succ_self _
            exact hnests c opened inner b (quote_bounds hle hnext).1 hinner
              (ih _ hshort hle hnext rfl)

/-- A parenthesis that is open at the quote was open before, or stands before the quote. -/
theorem lt_of_quoted (h : c.pos ≤ src.size)
    (hscan : c.scanGroup opened = .ok (.quoted quote found)) :
    ∀ o ∈ found, o ∈ opened ∨ o < quote.pos := by
  refine quoted_induction (P := fun _ opened => ∀ o ∈ found, o ∈ opened ∨ o < quote.pos)
    (fun o ho => Or.inl ho) (fun c opened n hnext => hnext) ?_ h hscan
  intro c opened inner b hlt hinner hnext o ho
  rcases hnext o ho with hmem | hbefore
  · rcases hinner.mem hmem with hopened | rfl
    · exact Or.inl hopened
    · exact Or.inr hlt
  · exact Or.inr hbefore

/-- The parentheses that are open at the quote are handed out in descending order. -/
theorem descending_of_quoted (h : c.pos ≤ src.size)
    (hscan : c.scanGroup opened = .ok (.quoted quote found))
    (hopened : (c.pos :: opened).Pairwise (· > ·)) : found.Pairwise (· > ·) := by
  revert hopened
  refine quoted_induction (P := fun c opened => (c.pos :: opened).Pairwise (· > ·) →
    found.Pairwise (· > ·)) (fun hfound => hfound.of_cons) ?_ ?_ h hscan
  · intro c opened n hnext hopened
    obtain ⟨hlt, hsorted⟩ := List.pairwise_cons.mp hopened
    exact hnext (.cons (fun o ho => Nat.lt_of_lt_of_le (hlt o ho) (Nat.le_add_right _ _)) hsorted)
  · intro c opened inner b _ hinner hnext hopened
    obtain ⟨hlt, hsorted⟩ := List.pairwise_cons.mp hopened
    refine hnext (.cons (fun o ho => ?_) ?_)
    · rcases hinner.mem ho with hmem | rfl
      · exact Nat.lt_succ_of_lt (hlt o hmem)
      · exact Nat.lt_succ_self _
    · cases hinner with
      | opens => exact hopened
      | closes _ ho =>
          subst ho
          exact hsorted.of_cons
      | passes => exact hsorted

/-- Bytes that do not matter in a group are passed over. -/
theorem scanGroup_pass (pre : List UInt8) {post : List UInt8} (hr : c.rest = pre ++ post)
    (hpre : ∀ d ∈ pre, Byte.isGroupDelim d = false) (opened : List Nat) :
    (c.advance pre.length).scanGroup opened = c.scanGroup opened := by
  induction pre generalizing c with
  | nil => rfl
  | cons b pre ih =>
      have hb := hpre b List.mem_cons_self
      simp only [Byte.isGroupDelim, Bool.or_eq_false_iff, beq_eq_false_iff_ne] at hb
      obtain ⟨⟨⟨hopen, hclose⟩, hback⟩, hquote⟩ := hb
      have htail := ih (rest_advance_one hr) (fun d hd => hpre d (List.mem_cons_of_mem b hd))
      rw [advance_advance] at htail
      rw [scanGroup_of_rest opened hr, if_neg (Bool.eq_false_iff.mp hquote), if_neg hback,
        if_neg hopen, if_neg hclose, ← htail, List.length_cons, Nat.add_comm]

theorem scanGroup_pass_one (hr : c.rest = b :: bs) (hb : Byte.isGroupDelim b = false)
    (opened : List Nat) : (c.advance 1).scanGroup opened = c.scanGroup opened :=
  scanGroup_pass [b] hr (fun d hd => by rwa [List.mem_singleton.mp hd]) opened

theorem scanGroup_pass_two {d : UInt8} (hr : c.rest = b :: d :: bs)
    (hb : Byte.isGroupDelim b = false) (hd : Byte.isGroupDelim d = false) (opened : List Nat) :
    (c.advance 2).scanGroup opened = c.scanGroup opened :=
  (scanGroup_pass_one (rest_advance_one hr) hd opened).trans (scanGroup_pass_one hr hb opened)

/-! ## Words -/

theorem not_isGroupDelim_of_isHexDigit (b : UInt8) :
    Byte.isHexDigit b = true → Byte.isGroupDelim b = false ∧ b < 0x80 := by
  refine Byte.forall_of_fin (P := fun b => Byte.isHexDigit b = true →
    Byte.isGroupDelim b = false ∧ b < 0x80) ?_ b
  decide +kernel

theorem not_isGroupDelim_of_isBlank (b : UInt8) :
    Byte.isBlank b = true → Byte.isGroupDelim b = false := by
  refine Byte.forall_of_fin (P := fun b => Byte.isBlank b = true →
    Byte.isGroupDelim b = false) ?_ b
  decide +kernel

/-- What matters in a group ends a word, the backslash apart. -/
theorem not_isGroupDelim_of_not_endsWord (b : UInt8) :
    Byte.endsWord b = false → b ≠ Byte.backslash → Byte.isGroupDelim b = false := by
  refine Byte.forall_of_fin (P := fun b => Byte.endsWord b = false → b ≠ Byte.backslash →
    Byte.isGroupDelim b = false) ?_ b
  decide +kernel

theorem isHexDigit_of_mem_take {n : Nat} {d : UInt8} (h : d ∈ bs.take (hexLength n bs)) :
    Byte.isHexDigit d = true := by
  induction n generalizing bs with
  | zero => cases h
  | succ n ih =>
      cases bs with
      | nil => cases h
      | cons b bs =>
          rw [hexLength] at h
          by_cases hb : Byte.isHexDigit b = true
          · rw [if_pos hb, Nat.add_comm, List.take_succ_cons] at h
            rcases List.mem_cons.mp h with rfl | hrest
            · exact hb
            · exact ih hrest
          · rw [if_neg hb] at h
            cases h

theorem isBlank_of_mem_take {d : UInt8} (h : d ∈ bs.take (blankLength bs)) :
    Byte.isBlank d = true := by
  cases bs with
  | nil => cases h
  | cons b bs =>
      rw [blankLength] at h
      by_cases hcr : b = Byte.carriageReturn
      · rw [if_pos hcr] at h
        by_cases hlf : bs.head? = some Byte.lineFeed
        · obtain ⟨ds, rfl⟩ := List.head?_eq_some_iff.mp hlf
          rw [if_pos hlf, hcr] at h
          simp only [List.take_succ_cons, List.take_zero, List.mem_cons, List.not_mem_nil,
            or_false] at h
          rcases h with rfl | rfl <;> rfl
        · rw [if_neg hlf, hcr] at h
          rw [List.mem_singleton.mp h]
          rfl
      · rw [if_neg hcr] at h
        by_cases hb : Byte.isBlank b = true
        · rw [if_pos hb] at h
          rwa [List.mem_singleton.mp h]
        · rw [if_neg hb] at h
          cases h

/-- Nothing in a numeric escape matters in a group. -/
theorem not_isGroupDelim_of_mem_escape {d : UInt8} (hb : Byte.isHexDigit b = true)
    (h : d ∈ (b :: bs).take (escapeLength (b :: bs))) : Byte.isGroupDelim d = false := by
  rw [escapeLength, if_pos hb, List.take_add] at h
  rcases List.mem_append.mp h with hdigit | hblank
  · exact (not_isGroupDelim_of_isHexDigit d (isHexDigit_of_mem_take hdigit)).1
  · exact not_isGroupDelim_of_isBlank d (isBlank_of_mem_take hblank)

theorem charLength_of_lt (bs : List UInt8) (hb : b < 0x80) : charLength (b :: bs) = 1 := by
  rw [charLength, (Utf8.leads_of_lt hb).1]
  omega

/-- A group goes on behind an escape as it does behind the character that it sees escaped. -/
theorem scanGroup_escape (hr : c.rest = Byte.backslash :: bs) (opened : List Nat) :
    (c.advance (1 + escapeLength bs)).scanGroup opened = c.scanGroup opened := by
  have hstep : c.scanGroup opened = (c.advance (charLength bs + 1)).scanGroup opened :=
    scanGroup_of_rest opened hr
  have hrest := rest_advance_one hr
  cases bs with
  | nil => exact hstep.symm
  | cons b bs =>
      by_cases hb : Byte.isHexDigit b = true
      · have hdigit := not_isGroupDelim_of_isHexDigit b hb
        have hsplit := (List.take_append_drop (escapeLength (b :: bs)) (b :: bs)).symm
        have hlen : ((b :: bs).take (escapeLength (b :: bs))).length = escapeLength (b :: bs) :=
          List.length_take_of_le (escapeLength_le _)
        have hescape := scanGroup_pass _ (hrest.trans hsplit)
          (fun d hd => not_isGroupDelim_of_mem_escape hb hd) opened
        have hone := scanGroup_pass_one hrest hdigit.1 opened
        rw [hlen, advance_advance] at hescape
        rw [advance_advance] at hone
        rw [hescape, hstep, charLength_of_lt bs hdigit.2, hone]
      · rw [escapeLength, if_neg hb, Nat.add_comm, hstep]

theorem scanGroup_unit (c : Cursor src) (opened : List Nat) :
    (c.advance (unitLength c.rest)).scanGroup opened = c.scanGroup opened := by
  cases hr : c.rest with
  | nil => rfl
  | cons b bs =>
      rw [unitLength]
      by_cases hback : b = Byte.backslash
      · subst hback
        rw [if_pos rfl]
        exact scanGroup_escape hr opened
      · rw [if_neg hback]
        by_cases hslash : b = Byte.slash
        · rw [if_pos hslash]
          split
          · rfl
          · exact scanGroup_pass_one hr (by rw [hslash]; rfl) opened
        · rw [if_neg hslash]
          split
          · rfl
          · next hends =>
              have hplain := not_isGroupDelim_of_not_endsWord b (Bool.eq_false_iff.mpr hends) hback
              exact scanGroup_pass_one hr hplain opened

/-- A group goes on behind a word as if there were no word. -/
theorem scanGroup_word (c : Cursor src) (opened : List Nat) :
    (c.advance (wordLength c.rest)).scanGroup opened = c.scanGroup opened := by
  generalize hbs : c.rest = bs
  fun_induction wordLength bs generalizing c with
  | case1 bs hzero => rfl
  | case2 bs hunit ih =>
      have hword := ih (c.advance (unitLength bs)) (by rw [rest_advance, hbs])
      rw [advance_advance] at hword
      rw [hword, ← hbs, scanGroup_unit]

/-! ## Comments -/

theorem comment_append {pre : List UInt8} (h : ∀ d ∈ pre, d ≠ Byte.star) (bs : List UInt8) :
    comment (pre ++ bs) = behind pre.length (comment bs) := by
  induction pre with
  | nil => rw [List.nil_append, List.length_nil, behind_zero]
  | cons b pre ih =>
      have hb := h b List.mem_cons_self
      rw [List.cons_append, comment, if_neg (fun hend => hb hend.1),
        ih (fun d hd => h d (List.mem_cons_of_mem b hd)), behind_behind, List.length_cons,
        Nat.add_comm]

theorem eq_of_behind_closed {found : Ending × Nat} {k n : Nat}
    (h : behind k found = (.closed, n)) : ∃ m, found = (.closed, m) ∧ n = k + m := by
  obtain ⟨ending, m⟩ := found
  cases h
  exact ⟨m, rfl, rfl⟩

/-- The end of a comment does not begin inside of a character. -/
theorem comment_drop_char (h : Utf8.Encoded bs)
    (hend : ¬ ∃ ds, bs = Byte.star :: Byte.slash :: ds) :
    comment bs = behind (charLength bs) (comment (bs.drop (charLength bs))) := by
  cases bs with
  | nil => rfl
  | cons b bs =>
      obtain ⟨ds, rest, rfl, hlead, hds, -⟩ := h.uncons
      have hlen : charLength (b :: (ds ++ rest)) = 1 + ds.length := by
        rw [charLength, hlead.1, List.length_append]
        omega
      have hstar : ∀ d ∈ ds, d ≠ Byte.star := by
        rintro d hd rfl
        cases hds _ hd
      have hne : ¬ (b = Byte.star ∧ (ds ++ rest).head? = some Byte.slash) := by
        rintro ⟨rfl, hslash⟩
        obtain ⟨es, hes⟩ := List.head?_eq_some_iff.mp hslash
        exact hend ⟨es, by rw [hes]⟩
      rw [hlen, comment, if_neg hne, comment_append hstar, behind_behind, Nat.add_comm 1,
        List.drop_succ_cons, List.drop_left]

/-- The search goes on behind the next `n` bytes, over parentheses of which the new ones stand in
these bytes; or it has come to the quote before. -/
def PassesOver (quote : Cursor src) (found : List Nat) (c : Cursor src) (opened : List Nat)
    (n : Nat) : Prop :=
  quote.pos < c.pos + n ∨ ∃ inner, (c.advance n).scanGroup inner = .ok (.quoted quote found) ∧
    ∀ o ∈ inner, o ∈ opened ∨ (c.pos ≤ o ∧ o < c.pos + n)

theorem PassesOver.behind {middle : List Nat} {k n : Nat}
    (h : PassesOver quote found (c.advance k) middle n)
    (hmiddle : ∀ o ∈ middle, o ∈ opened ∨ (c.pos ≤ o ∧ o < c.pos + k)) :
    PassesOver quote found c opened (k + n) := by
  rcases h with hbefore | ⟨inner, hscan, hinner⟩
  · left
    simp only [advance] at hbefore
    omega
  · right
    rw [advance_advance] at hscan
    refine ⟨inner, hscan, fun o ho => ?_⟩
    rcases hinner o ho with hmem | hin
    · rcases hmiddle o hmem with hopened | hin
      · exact Or.inl hopened
      · exact Or.inr (by omega)
    · simp only [advance] at hin
      exact Or.inr (by omega)

/-- **The end of a comment is no escaped character of a group.**  The search, which knows no
comments, goes on behind it. -/
theorem scanGroup_comment {n : Nat} (hcomment : comment c.rest = (.closed, n))
    (hscan : c.scanGroup opened = .ok (.quoted quote found)) :
    PassesOver quote found c opened n := by
  induction n using Nat.strongRecOn generalizing c opened with
  | ind n ih =>
      cases hr : c.rest with
      | nil =>
          rw [hr] at hcomment
          cases hcomment
      | cons b bs =>
          rw [hr] at hcomment
          have hrest := rest_advance_one hr
          by_cases hend : b = Byte.star ∧ bs.head? = some Byte.slash
          · rw [comment, if_pos hend] at hcomment
            cases hcomment
            obtain ⟨ds, rfl⟩ := List.head?_eq_some_iff.mp hend.2
            have hpass := scanGroup_pass_two hr (by rw [hend.1]; rfl) rfl opened
            exact Or.inr ⟨opened, hpass.trans hscan, fun o ho => Or.inl ho⟩
          · rw [comment, if_neg hend] at hcomment
            obtain ⟨m, hbehind, rfl⟩ := eq_of_behind_closed hcomment
            rcases scanGroup_quoted_cases hr hscan with
              ⟨-, rfl, -⟩ | ⟨rfl, hnext⟩ | ⟨-, inner, hnests, hnext⟩
            · exact Or.inl (by omega)
            · by_cases hstar : ∃ ds, bs = Byte.star :: Byte.slash :: ds
              · -- The backslash escapes the star of the end, and the slash is left.
                obtain ⟨ds, rfl⟩ := hstar
                cases hbehind
                have hslash := scanGroup_pass_one (c := c.advance 2)
                  (by rw [rest_advance, hr]; rfl) (by decide) opened
                exact Or.inr ⟨opened, hslash.trans hnext, fun o ho => Or.inl ho⟩
              · rw [comment_drop_char (encoded_of_rest hr (by decide)) hstar] at hbehind
                obtain ⟨m, hchar, rfl⟩ := eq_of_behind_closed hbehind
                have hdrop : (c.advance (charLength bs + 1)).rest = bs.drop (charLength bs) := by
                  rw [rest_advance, hr, List.drop_succ_cons]
                have hpasses := ih m (by omega) (by rw [hdrop, hchar]) hnext
                rw [← Nat.add_assoc, Nat.add_comm 1]
                exact hpasses.behind (fun o ho => Or.inl ho)
            · have hpasses := ih m (by omega) (by rw [hrest, hbehind]) hnext
              refine hpasses.behind (fun o ho => ?_)
              rcases hnests.mem ho with hmem | rfl
              · exact Or.inl hmem
              · exact Or.inr (by omega)

end Cursor

end CssTokens
