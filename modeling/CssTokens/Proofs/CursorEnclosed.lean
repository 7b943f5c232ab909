import CssTokens.Proofs.CursorRest

/-!
# CssTokens.Proofs.CursorEnclosed — searches for closing delimiters

Strings, comments and groups are searched in jumps, each to the next byte that matters.  A jump
passes over bytes that the byte rules pass over one by one (`skipTo_some`, `skipTo_none`), so the
searches come out as the rules say: `skipString_eq`, `skipPastCommentEnd_eq`, `scanGroup_ending`.
-/

namespace CssTokens

set_option autoImplicit false

/-- What ended the search for the end of a group, and where the cursor stands then. -/
def GroupEnd.ending {src : Source} : GroupEnd src → ByteRules.Ending × Nat
  | .closed c => (.closed, c.pos)
  | .quoted c _ => (.quoted, c.pos)
  | .missing c => (.missing, c.pos)

namespace Cursor

open ByteRules Reading

variable {src : Source} {c c' : Cursor src}

theorem closeParen_of_isGroupDelim {b : UInt8} (h : Byte.isGroupDelim b = true)
    (hq : ¬ Byte.isQuote b = true) (hb : ¬ b = Byte.backslash) (hp : ¬ b = Byte.openParen) :
    b = Byte.closeParen := by
  simp only [Byte.isGroupDelim, Bool.or_eq_true, beq_iff_eq] at h
  exact ((h.resolve_right hq).resolve_right hb).resolve_left hp

/-! ## Jumps -/

/-- A jump that arrives passes over bytes outside of its class. -/
theorem skipTo_some {p : UInt8 → Bool} {b : UInt8} (h : c.skipTo p = (some b, c')) :
    ∃ pre post, c.rest = pre ++ b :: post ∧ (∀ d ∈ pre, p d = false) ∧ p b = true ∧
      c' = c.advance pre.length ∧ c'.rest = b :: post := by
  unfold skipTo at h
  split at h
  · next j d hf =>
      simp only [Prod.mk.injEq, Option.some.injEq] at h
      obtain ⟨rfl, rfl⟩ := h
      obtain ⟨hle, hbyte, hp, hleast⟩ := Source.find?_eq_some_iff.mp hf
      rw [Utf8.byte?_eq] at hbyte
      obtain ⟨hj, hget⟩ := List.getElem?_eq_some_iff.mp hbyte
      have hdrop : src.bytes.drop j = d :: src.bytes.drop (j + 1) := by
        rw [← hget]
        exact List.drop_eq_getElem_cons hj
      have hlen : (c.rest.take (j - c.pos)).length = j - c.pos := by
        rw [List.length_take, length_rest, ← Source.length_bytes]
        exact Nat.min_eq_left (Nat.sub_le_sub_right (Nat.le_of_lt hj) _)
      refine ⟨c.rest.take (j - c.pos), src.bytes.drop (j + 1), ?_, ?_, hp, ?_, hdrop⟩
      · have hsplit := List.take_append_drop (j - c.pos) c.rest
        have hback : c.rest.drop (j - c.pos) = src.bytes.drop j := by
          rw [rest, List.drop_drop, Nat.add_sub_cancel' hle]
        rw [hback, hdrop] at hsplit
        exact hsplit.symm
      · intro e he
        obtain ⟨m, hm⟩ := List.mem_iff_getElem?.mp he
        have hlt : m < j - c.pos := by
          rw [← hlen]
          exact (List.getElem?_eq_some_iff.mp hm).1
        rw [List.getElem?_take_of_lt hlt, rest, List.getElem?_drop] at hm
        apply hleast (c.pos + m) e (Nat.le_add_right _ _) (by omega)
        rw [Utf8.byte?_eq]
        exact hm
      · rw [hlen]
        simp only [advance]
        congr 1
        omega
  · exact absurd h (by simp)

/-- A jump with nowhere to go passes over all that is left. -/
theorem skipTo_none {p : UInt8 → Bool} (hle : c.pos ≤ src.size) (h : c.skipTo p = (none, c')) :
    (∀ d ∈ c.rest, p d = false) ∧ c' = c.advance c.rest.length := by
  unfold skipTo at h
  split at h
  · exact absurd h (by simp)
  · next hf =>
      constructor
      · intro d hd
        obtain ⟨m, hm⟩ := List.mem_iff_getElem?.mp hd
        rw [rest, List.getElem?_drop] at hm
        apply Source.find?_eq_none_iff.mp hf (c.pos + m) d (Nat.le_add_right _ _)
        rw [Utf8.byte?_eq]
        exact hm
      · simp only [Prod.mk.injEq, true_and] at h
        rw [← h, advance, pos_add_length_rest hle]

/-! ## Strings -/

theorem skipString_eq {quote : UInt8} (h : c.pos ≤ src.size) :
    c.skipString quote = .ok (decide ((string quote c.rest).1 = .closed),
      c.advance (string quote c.rest).2) := by
  fun_induction skipString quote c with
  | case1 c c' hd =>
      obtain ⟨hpass, rfl⟩ := skipTo_none h hd
      have hstring := string_append hpass []
      rw [List.append_nil, string] at hstring
      rw [hstring]
      rfl
  | case2 c c' e he hd =>
      exact absurd he (skipEscapedChar_yields (skipTo_eq_some hd).2.1).ne_error
  | case3 c c' c'' he hd ih =>
      obtain ⟨pre, post, hrest, hpass, -, rfl, hrest'⟩ := skipTo_some hd
      have hlt := lt_size_of_rest hrest'
      rw [skipEscapedChar_eq hlt, hrest', List.tail_cons] at he
      injection he with he
      subst he
      have hlen : charLength post + 1 ≤ (c.advance pre.length).rest.length := by
        rw [hrest']
        exact Nat.succ_le_succ (charLength_le post)
      have hstring : string quote c.rest = behind (pre.length + (charLength post + 1))
          (string quote (post.drop (charLength post))) := by
        rw [hrest, string_append hpass, string, if_pos rfl, behind_behind]
      rw [ih (advance_pos_le (Nat.le_of_lt hlt) hlen), rest_advance, hrest', List.drop_succ_cons,
        advance_advance, advance_advance, hstring, ← Nat.add_assoc]
      rfl
  | case4 c b c' hd hb =>
      obtain ⟨pre, post, hrest, hpass, hdelim, rfl, -⟩ := skipTo_some hd
      have hquote : b = quote := by
        rw [Bool.or_eq_true, beq_iff_eq, beq_iff_eq] at hdelim
        exact hdelim.resolve_right hb
      rw [hrest, string_append hpass, string, if_neg hb, if_pos hquote, advance_advance]
      rfl

/-! ## Comments -/

/-- The end of a comment is looked for where the rule for comments finds it. -/
theorem comment_of_findCommentEnd? (src : Source) (i : Nat) :
    match src.findCommentEnd? i with
    | some j => i ≤ j ∧ comment (src.bytes.drop i) = (.closed, j + 2 - i)
    | none => (comment (src.bytes.drop i)).1 = .missing := by
  fun_induction Source.findCommentEnd? src i with
  | case1 i h =>
      have hle := Utf8.byte?_eq_none_iff.mp h
      rw [List.drop_eq_nil_of_le (by rw [Source.length_bytes]; exact hle)]
      rfl
  | case2 i b h hend =>
      rw [Utf8.byte?_eq] at h
      obtain ⟨hi, hget⟩ := List.getElem?_eq_some_iff.mp h
      simp only [Bool.and_eq_true, beq_iff_eq, Utf8.byte?_eq] at hend
      refine ⟨Nat.le_refl i, ?_⟩
      have hdrop : src.bytes.drop i = b :: src.bytes.drop (i + 1) := by
        rw [← hget]
        exact List.drop_eq_getElem_cons hi
      rw [hdrop, comment, if_pos ⟨hend.1, by rw [List.head?_drop]; exact hend.2⟩,
        Nat.add_sub_cancel_left]
  | case3 i b h hend ih =>
      rw [Utf8.byte?_eq] at h
      obtain ⟨hi, hget⟩ := List.getElem?_eq_some_iff.mp h
      simp only [Bool.and_eq_true, beq_iff_eq, Utf8.byte?_eq] at hend
      have hdrop : src.bytes.drop i = b :: src.bytes.drop (i + 1) := by
        rw [← hget]
        exact List.drop_eq_getElem_cons hi
      have hstep : comment (src.bytes.drop i) = behind 1 (comment (src.bytes.drop (i + 1))) := by
        rw [hdrop, comment, if_neg (by rw [List.head?_drop]; exact hend)]
      rw [hstep]
      split at ih
      · next j hj =>
          refine ⟨Nat.le_of_succ_le ih.1, ?_⟩
          rw [ih.2, behind]
          congr 1
          omega
      · exact ih

theorem skipPastCommentEnd_eq (h : c.pos ≤ src.size) :
    c.skipPastCommentEnd = (decide ((comment c.rest).1 = .closed),
      c.advance (comment c.rest).2) := by
  have hcomment := comment_of_findCommentEnd? src c.pos
  have hreach := comment_reaches c.rest
  unfold skipPastCommentEnd
  cases hf : src.findCommentEnd? c.pos with
  | some j =>
      rw [hf] at hcomment
      rw [rest, hcomment.2, advance]
      simp only [decide_true]
      congr 2
      have := hcomment.1
      omega
  | none =>
      rw [hf] at hcomment
      have hmissing : (comment c.rest).1 = .missing := hcomment
      rw [hreach.length_of_missing hmissing, hmissing, advance, pos_add_length_rest h]
      rfl

/-! ## Groups -/

/-- The search for the end of a group comes out as the rule says for as many open parentheses. -/
theorem scanGroup_ending (opened : List Nat) (h : c.pos ≤ src.size) :
    Yields (c.scanGroup opened) fun r =>
      r.ending = behind c.pos (group opened.length c.rest) := by
  fun_induction scanGroup opened c with
  | case1 opened c c' hd =>
      obtain ⟨hpass, rfl⟩ := skipTo_none h hd
      have hgroup := group_append hpass opened.length []
      rw [List.append_nil, group] at hgroup
      refine yields_ok ?_
      rw [hgroup]
      rfl
  | case2 opened c b c' hd hq =>
      obtain ⟨pre, post, hrest, hpass, -, rfl, -⟩ := skipTo_some hd
      refine yields_ok ?_
      rw [hrest, group_append hpass, group_cons, if_pos hq]
      rfl
  | case3 opened c c' e he hd hq =>
      exact absurd he (skipEscapedChar_yields (skipTo_eq_some hd).2.1).ne_error
  | case4 opened c c' c'' he hd hq ih =>
      obtain ⟨pre, post, hrest, hpass, -, rfl, hrest'⟩ := skipTo_some hd
      have hlt := lt_size_of_rest hrest'
      rw [skipEscapedChar_eq hlt, hrest', List.tail_cons] at he
      injection he with he
      subst he
      have hlen : charLength post + 1 ≤ (c.advance pre.length).rest.length := by
        rw [hrest']
        exact Nat.succ_le_succ (charLength_le post)
      have hgroup : behind c.pos (group opened.length c.rest) =
          behind (c.pos + pre.length + (charLength post + 1))
            (group opened.length (post.drop (charLength post))) := by
        rw [hrest, group_append hpass, group_cons, if_neg hq, if_pos rfl, behind_behind,
          behind_behind, Nat.add_assoc]
      rw [hgroup]
      have hih := ih (advance_pos_le (Nat.le_of_lt hlt) hlen)
      rw [rest_advance, hrest', List.drop_succ_cons] at hih
      exact hih
  | case5 opened c c' hd hq hb ih =>
      obtain ⟨pre, post, hrest, hpass, -, rfl, hrest'⟩ := skipTo_some hd
      have hih := ih (lt_size_of_rest hrest')
      rw [rest_advance_one hrest'] at hih
      rw [hrest, group_append hpass, group_cons, if_neg hq, if_neg hb, if_pos rfl, behind_behind,
        behind_behind]
      exact hih
  | case6 c b c' hd hq hb hp =>
      obtain ⟨pre, post, hrest, hpass, hdelim, rfl, -⟩ := skipTo_some hd
      have hclose := closeParen_of_isGroupDelim hdelim hq hb hp
      refine yields_ok ?_
      rw [hrest, group_append hpass, group_cons, if_neg hq, if_neg hb, if_neg hp, if_pos hclose]
      rfl
  | case7 c b c' hd hq hb hp o outer ih =>
      obtain ⟨pre, post, hrest, hpass, hdelim, rfl, hrest'⟩ := skipTo_some hd
      have hclose := closeParen_of_isGroupDelim hdelim hq hb hp
      have hih := ih (lt_size_of_rest hrest')
      rw [rest_advance_one hrest'] at hih
      rw [hrest, group_append hpass, group_cons, if_neg hq, if_neg hb, if_neg hp, if_pos hclose,
        List.length_cons, behind_behind, behind_behind]
      exact hih

end Cursor

end CssTokens
