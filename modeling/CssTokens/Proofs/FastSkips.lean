import Mathlib.Order.Bounds.Basic
import Mathlib.Data.List.Infix
import CssTokens.Proofs.CharWalk
import CssTokens.Proofs.CheckedCursor
import CssTokens.Proofs.CursorRest

/-!
# CssTokens.Proofs.FastSkips — skips that search a whole stretch at once

A cursor skips to the next byte that matters as if it looked at one byte after the other.  A machine has
faster searches, which go through a stretch of bytes in blocks and say how far off the first match is
(`Searches`).  They look for two bytes, for three, or for a pattern.  The delimiters of a group are five,
so it takes two searches to find one: parentheses and backslashes are looked for first, and then the quotes,
but only before what was found.

Of the searches nothing is known but that they find the first match (`FindFirst`).  Then the nearer of two
matches is the first of both (`FirstPlace.nearer`), and a skip by searches, made in checked steps, never
faults and comes out as the plain one, wherever the cursor stands (`skipToStringDelim_eq`,
`skipToGroupDelim_eq`, `skipPastCommentEnd_eq`).  The plain skips end at the least offset there is
(`endsAtFirst_skipTo`, `endsPastFirst_skipPastCommentEnd`).
-/

namespace CssTokens.Checked

set_option autoImplicit false

/-! ## First places -/

/-- What a search found: the least place at which `P` holds, or that it holds at none. -/
def FirstPlace (P : Nat → Prop) : Option Nat → Prop
  | some i => IsLeast {i | P i} i
  | none => ∀ i, ¬ P i

/-- At a place in some bytes stands one of a class. -/
def HasAt (bytes : List UInt8) (p : UInt8 → Bool) (i : Nat) : Prop :=
  bytes[i]?.any p = true

section FirstPlace

variable {P Q : Nat → Prop} {bytes : List UInt8} {p q : UInt8 → Bool} {found : Option Nat} {n i : Nat}

theorem FirstPlace.unique {found' : Option Nat} (h : FirstPlace P found) (h' : FirstPlace P found') :
    found = found' := by
  cases found with
  | none =>
      cases found' with
      | none => rfl
      | some j => exact absurd h'.1 (h j)
  | some i =>
      cases found' with
      | none => exact absurd h.1 (h' i)
      | some j => rw [IsLeast.unique h h']

theorem FirstPlace.congr (hPQ : ∀ i, P i ↔ Q i) (h : FirstPlace P found) : FirstPlace Q found := by
  have hP : P = Q := funext fun i => propext (hPQ i)
  rwa [← hP]

/-- Places are counted from where a stretch begins. -/
theorem FirstPlace.shift (n : Nat) (hPQ : ∀ i, P i ↔ Q (n + i)) (h : FirstPlace P found) :
    FirstPlace (fun o => n ≤ o ∧ Q o) (found.map (n + ·)) := by
  have hback {o : Nat} (ho : n ≤ o ∧ Q o) : ∃ i, o = n + i ∧ P i := by
    obtain ⟨i, rfl⟩ := Nat.exists_eq_add_of_le ho.1
    exact ⟨i, rfl, (hPQ i).mpr ho.2⟩
  cases found with
  | none =>
      intro o ho
      obtain ⟨i, rfl, hi⟩ := hback ho
      exact h i hi
  | some i =>
      refine ⟨⟨Nat.le_add_right n i, (hPQ i).mp h.1⟩, ?_⟩
      intro o ho
      obtain ⟨j, rfl, hj⟩ := hback ho
      exact Nat.add_le_add_left (h.2 hj) n

theorem hasAt_or : HasAt bytes (fun b => p b || q b) i ↔ HasAt bytes p i ∨ HasAt bytes q i := by
  cases h : bytes[i]? with
  | none => simp [HasAt, h]
  | some b => simp [HasAt, h]

theorem hasAt_take : HasAt (bytes.take n) p i ↔ i < n ∧ HasAt bytes p i := by
  rw [HasAt, HasAt, List.getElem?_take]
  by_cases hi : i < n
  · simp [hi]
  · simp [hi]

theorem HasAt.lt_length (h : HasAt bytes p i) : i < bytes.length := by
  apply Nat.lt_of_not_le
  intro hle
  rw [HasAt, List.getElem?_eq_none hle] at h
  cases h

theorem FirstPlace.getD_le (h : FirstPlace (HasAt bytes p) found) :
    found.getD bytes.length ≤ bytes.length := by
  cases found with
  | none => exact Nat.le_refl _
  | some i => exact Nat.le_of_lt (HasAt.lt_length h.1)

/-- **Of two classes, one is looked for in all bytes, and the other only before what was found.  What the
second search finds, or else the first, is the first place of both.** -/
theorem FirstPlace.nearer {far near : Option Nat} (hfar : FirstPlace (HasAt bytes p) far)
    (hnear : FirstPlace (HasAt (bytes.take (far.getD bytes.length)) q) near) :
    FirstPlace (HasAt bytes fun b => p b || q b) (near.or far) := by
  -- Before the place that the first search found there is nothing of its class.
  have hbefore {o : Nat} (ho : HasAt bytes p o) : far.getD bytes.length ≤ o := by
    cases far with
    | none => exact absurd ho (hfar o)
    | some k => exact hfar.2 ho
  cases near with
  | some k =>
      obtain ⟨hlt, hk⟩ := hasAt_take.mp hnear.1
      refine ⟨hasAt_or.mpr (Or.inr hk), ?_⟩
      intro o ho
      rcases hasAt_or.mp ho with hp | hq
      · exact Nat.le_trans (Nat.le_of_lt hlt) (hbefore hp)
      · rcases Nat.lt_or_ge o (far.getD bytes.length) with hin | hout
        · exact hnear.2 (hasAt_take.mpr ⟨hin, hq⟩)
        · exact Nat.le_trans (Nat.le_of_lt hlt) hout
  | none =>
      have hbehind {o : Nat} (ho : HasAt bytes q o) : far.getD bytes.length ≤ o :=
        Nat.le_of_not_lt fun hin => hnear o (hasAt_take.mpr ⟨hin, ho⟩)
      cases far with
      | some k =>
          refine ⟨hasAt_or.mpr (Or.inl hfar.1), ?_⟩
          intro o ho
          exact (hasAt_or.mp ho).elim (fun hp => hfar.2 hp) hbehind
      | none =>
          intro o ho
          rcases hasAt_or.mp ho with hp | hq
          · exact hfar o hp
          · exact absurd hq.lt_length (Nat.not_lt.mpr (hbehind hq))

end FirstPlace

/-! ## Searches -/

/-- Searches of a stretch of bytes.  Each says how far from the start of the stretch the match is. -/
structure Searches where
  /-- For either of two bytes. -/
  two (a b : UInt8) (bytes : List UInt8) : Option Nat
  /-- For any of three bytes. -/
  three (a b c : UInt8) (bytes : List UInt8) : Option Nat
  /-- For a pattern. -/
  pattern (needle bytes : List UInt8) : Option Nat

/-- The match is the first one, and if there is one it is found. -/
structure Searches.FindFirst (m : Searches) : Prop where
  two : ∀ a b bytes, FirstPlace (HasAt bytes fun d => d == a || d == b) (m.two a b bytes)
  three : ∀ a b c bytes,
    FirstPlace (HasAt bytes fun d => d == a || d == b || d == c) (m.three a b c bytes)
  pattern : ∀ needle bytes, FirstPlace (fun i => needle <+: bytes.drop i) (m.pattern needle bytes)

/-! ## Skips by searches -/

variable {src : Source} {c : Cursor src}

/-- The bytes of the text from a cursor on. -/
def remaining (c : Cursor src) : Checked (List UInt8) :=
  slice src.paddedBytes (min c.pos src.size) src.size

/-- Moves to what a search found and answers the byte there; or moves to the end of the text and answers
zero. -/
def jumpTo (c : Cursor src) : Option Nat → Checked (UInt8 × Cursor src)
  | some offset => jump c offset
  | none => do return (0, ← moveTo src src.size)

namespace Searches

variable (m : Searches)

/-- Moves to what can end a string in the given quotes or escape a character of it. -/
def skipToStringDelim (quote : UInt8) (c : Cursor src) : Checked (UInt8 × Cursor src) := do
  jumpTo c (m.two quote Byte.backslash (← remaining c))

/-- Moves to the next byte that matters inside a parenthesis group. -/
def skipToGroupDelim (c : Cursor src) : Checked (UInt8 × Cursor src) := do
  let bytes ← remaining c
  let structural := m.three Byte.openParen Byte.closeParen Byte.backslash bytes
  let window ← slice bytes 0 (structural.getD bytes.length)
  jumpTo c ((m.two Byte.doubleQuote Byte.singleQuote window).or structural)

/-- Moves past the next end of a comment and says whether there was one. -/
def skipPastCommentEnd (c : Cursor src) : Checked (Bool × Cursor src) := do
  let found := m.pattern [Byte.star, Byte.slash] (← remaining c)
  let (_, c') ← jumpTo c found
  if found.isSome then
    return (true, ← advance c' 2)
  else
    return (false, c')

end Searches

/-! ## What the searches find, the plain skips find -/

theorem remaining_eq (c : Cursor src) : remaining c = .ok c.rest := by
  have hle : min c.pos src.size ≤ src.size := Nat.min_le_right _ _
  have hpadded : src.size ≤ src.paddedBytes.length := by
    rw [Source.length_paddedBytes]
    exact Nat.le_of_lt src.size_lt_paddedSize
  have htake : src.paddedBytes.take src.size = src.bytes :=
    List.take_left' Source.length_bytes
  rw [remaining, slice_eq hle hpadded, ← List.drop_take, htake, Cursor.rest]
  rcases Nat.le_total c.pos src.size with hin | hbehind
  · rw [Nat.min_eq_left hin]
  · have hnil {n : Nat} (hn : src.size ≤ n) : src.bytes.drop n = [] := by
      apply List.drop_eq_nil_of_le
      rwa [Source.length_bytes]
    rw [Nat.min_eq_right hbehind, hnil (Nat.le_refl _), hnil hbehind]

/-- What is in the text from a cursor on, seen from the cursor. -/
theorem hasAt_rest_iff {p : UInt8 → Bool} (i : Nat) :
    HasAt c.rest p i ↔ (Utf8.byte? src.text (c.pos + i)).any p = true := by
  rw [LineRules.byte?_add]
  rfl

/-- Looking at one byte after the other finds the first of a class. -/
theorem firstPlace_find? (src : Source) (p : UInt8 → Bool) (i : Nat) :
    FirstPlace (fun o => i ≤ o ∧ (Utf8.byte? src.text o).any p = true)
      ((src.find? p i).map Prod.fst) := by
  cases hf : src.find? p i with
  | none =>
      rintro o ⟨hle, ho⟩
      obtain ⟨b, hb, hp⟩ := (Option.any_eq_true _ _).mp ho
      rw [Source.find?_eq_none_iff.mp hf o b hle hb] at hp
      cases hp
  | some r =>
      obtain ⟨hle, hb, hp, hleast⟩ := Source.find?_eq_some_iff.mp hf
      refine ⟨⟨hle, ?_⟩, ?_⟩
      · rw [hb]
        exact hp
      · rintro o ⟨hle', ho⟩
        obtain ⟨d, hd, hp'⟩ := (Option.any_eq_true _ _).mp ho
        apply Nat.le_of_not_lt
        intro hlt
        rw [hleast o d hle' hlt hd] at hp'
        cases hp'

/-- The end of a comment stands at an offset of the text, with both its bytes. -/
def IsCommentEnd (text : String) (o : Nat) : Prop :=
  Utf8.byte? text o = some Byte.star ∧ Utf8.byte? text (o + 1) = some Byte.slash

/-- Looking at one byte after the other finds the first end of a comment. -/
theorem firstPlace_findCommentEnd? (src : Source) (i : Nat) :
    FirstPlace (fun o => i ≤ o ∧ IsCommentEnd src.text o) (src.findCommentEnd? i) := by
  fun_induction Source.findCommentEnd? src i with
  | case1 i h =>
      rintro o ⟨hle, hstar, -⟩
      have hlt := Utf8.lt_size_of_byte? hstar
      have hend := Utf8.byte?_eq_none_iff.mp h
      omega
  | case2 i b h hend =>
      simp only [Bool.and_eq_true, beq_iff_eq] at hend
      exact ⟨⟨Nat.le_refl i, by rw [h, hend.1], hend.2⟩, fun o ho => ho.1⟩
  | case3 i b h hend ih =>
      simp only [Bool.and_eq_true, beq_iff_eq] at hend
      apply ih.congr
      intro o
      refine and_congr_left fun ho => ⟨Nat.le_of_succ_le, fun hle => ?_⟩
      apply Nat.lt_of_le_of_ne hle
      rintro rfl
      exact hend ⟨Option.some.inj (h.symm.trans ho.1), ho.2⟩

theorem jumpTo_eq {p : UInt8 → Bool} {found : Option Nat} (h : FirstPlace (HasAt c.rest p) found) :
    jumpTo c found = .ok ((c.skipTo p).1.getD 0, (c.skipTo p).2) := by
  have hplace := (firstPlace_find? src p c.pos).unique (h.shift c.pos hasAt_rest_iff)
  rw [Cursor.skipTo]
  cases found with
  | none =>
      rw [Option.map_eq_none_iff.mp hplace, jumpTo, moveTo_eq (Nat.le_refl _)]
      rfl
  | some offset =>
      obtain ⟨⟨i, b⟩, hf, hi⟩ := Option.map_eq_some_iff.mp hplace
      obtain rfl : i = c.pos + offset := hi
      obtain ⟨hle, hb, -, -⟩ := Source.find?_eq_some_iff.mp hf
      have hjump := jump_eq hle hb
      rw [Nat.add_sub_cancel_left] at hjump
      rw [hf, jumpTo, hjump]
      rfl

theorem commentEnd_prefix_iff (i : Nat) :
    [Byte.star, Byte.slash] <+: c.rest.drop i ↔ IsCommentEnd src.text (c.pos + i) := by
  have hbyte (k : Nat) : Utf8.byte? src.text (c.pos + i + k) = (c.rest.drop i)[k]? := by
    rw [Nat.add_assoc, LineRules.byte?_add]
    exact List.getElem?_drop.symm
  rw [IsCommentEnd, hbyte 1, ← Nat.add_zero (c.pos + i), hbyte 0]
  match c.rest.drop i with
  | [] => simp
  | [d] => simp
  | d :: e :: rest => simp [eq_comm]

namespace Searches.FindFirst

variable {m : Searches}

theorem skipToStringDelim_eq (h : m.FindFirst) (quote : UInt8) (c : Cursor src) :
    m.skipToStringDelim quote c =
      .ok ((c.skipToStringDelim quote).1.getD 0, (c.skipToStringDelim quote).2) := by
  rw [skipToStringDelim, remaining_eq]
  exact jumpTo_eq (h.two quote Byte.backslash c.rest)

theorem skipToGroupDelim_eq (h : m.FindFirst) (c : Cursor src) :
    m.skipToGroupDelim c = .ok (c.skipToGroupDelim.1.getD 0, c.skipToGroupDelim.2) := by
  have hfar := h.three Byte.openParen Byte.closeParen Byte.backslash c.rest
  rw [skipToGroupDelim, remaining_eq]
  show (slice c.rest 0 _ >>= _) = _
  rw [slice_eq (Nat.zero_le _) hfar.getD_le]
  exact jumpTo_eq (hfar.nearer (h.two Byte.doubleQuote Byte.singleQuote _))

theorem skipPastCommentEnd_eq (h : m.FindFirst) (c : Cursor src) :
    m.skipPastCommentEnd c = .ok c.skipPastCommentEnd := by
  have hpattern := (h.pattern [Byte.star, Byte.slash] c.rest).shift c.pos commentEnd_prefix_iff
  have hplace := (firstPlace_findCommentEnd? src c.pos).unique hpattern
  rw [skipPastCommentEnd, remaining_eq, ← Checked.skipPastCommentEnd_eq, Checked.skipPastCommentEnd,
    hplace]
  show (jumpTo c (m.pattern _ c.rest) >>= _) = _
  cases m.pattern [Byte.star, Byte.slash] c.rest with
  | none =>
      rw [jumpTo, moveTo_eq (Nat.le_refl _)]
      rfl
  | some offset =>
      show _ = (jump c (c.pos + offset - c.pos) >>= _)
      rw [Nat.add_sub_cancel_left]
      rfl

end Searches.FindFirst

/-! ## The plain skips end at the first there is -/

/-- Where a skip from a cursor ends and what it answers: at the least offset of the text, from the cursor
on, whose byte is of a class, with this byte; or, if there is none, at the end of the text, with zero. -/
def EndsAtFirst (p : UInt8 → Bool) (c : Cursor src) (r : UInt8 × Cursor src) : Prop :=
  (∃ o b, IsLeast {o | c.pos ≤ o ∧ (Utf8.byte? src.text o).any p = true} o ∧
    Utf8.byte? src.text o = some b ∧ r = (b, ⟨o⟩)) ∨
  ((∀ o, c.pos ≤ o → ¬ (Utf8.byte? src.text o).any p = true) ∧ r = (0, ⟨src.size⟩))

/-- Where a skip from a cursor ends and what it answers: just past the least offset of the text, from the
cursor on, at which a comment ends, with `true`; or, if there is none, at the end of the text, with
`false`. -/
def EndsPastFirst (c : Cursor src) (r : Bool × Cursor src) : Prop :=
  (∃ o, IsLeast {o | c.pos ≤ o ∧ IsCommentEnd src.text o} o ∧ r = (true, ⟨o + 2⟩)) ∨
  ((∀ o, c.pos ≤ o → ¬ IsCommentEnd src.text o) ∧ r = (false, ⟨src.size⟩))

theorem endsAtFirst_skipTo (p : UInt8 → Bool) (c : Cursor src) :
    EndsAtFirst p c ((c.skipTo p).1.getD 0, (c.skipTo p).2) := by
  have hplace := firstPlace_find? src p c.pos
  rw [Cursor.skipTo]
  cases hf : src.find? p c.pos with
  | none =>
      rw [hf] at hplace
      exact Or.inr ⟨fun o hle ho => hplace o ⟨hle, ho⟩, rfl⟩
  | some r =>
      rw [hf] at hplace
      exact Or.inl ⟨r.1, r.2, hplace, (Source.find?_eq_some_iff.mp hf).2.1, rfl⟩

theorem endsPastFirst_skipPastCommentEnd (c : Cursor src) : EndsPastFirst c c.skipPastCommentEnd := by
  have hplace := firstPlace_findCommentEnd? src c.pos
  rw [Cursor.skipPastCommentEnd]
  cases hf : src.findCommentEnd? c.pos with
  | none =>
      rw [hf] at hplace
      exact Or.inr ⟨fun o hle ho => hplace o ⟨hle, ho⟩, rfl⟩
  | some o =>
      rw [hf] at hplace
      exact Or.inl ⟨o, hplace, rfl⟩

/-! ## Searches that look at one place after the other -/

/-- The searches that look at one place after the other. -/
def Searches.linear : Searches where
  two a b bytes := bytes.findIdx? fun d => d == a || d == b
  three a b c bytes := bytes.findIdx? fun d => d == a || d == b || d == c
  pattern needle bytes := bytes.tails.findIdx? needle.isPrefixOf

theorem firstPlace_findIdx? {α : Type} (p : α → Bool) (xs : List α) :
    FirstPlace (fun i => xs[i]?.any p = true) (xs.findIdx? p) := by
  cases hf : xs.findIdx? p with
  | none =>
      intro i hi
      obtain ⟨x, hx, hp⟩ := (Option.any_eq_true _ _).mp hi
      rw [List.findIdx?_eq_none_iff.mp hf x (List.mem_of_getElem? hx)] at hp
      cases hp
  | some i =>
      obtain ⟨hlt, hp, hleast⟩ := List.findIdx?_eq_some_iff_getElem.mp hf
      refine ⟨?_, ?_⟩
      · show xs[i]?.any p = true
        rw [List.getElem?_eq_getElem hlt]
        exact hp
      · intro j hj
        obtain ⟨x, hx, hp'⟩ := (Option.any_eq_true _ _).mp hj
        apply Nat.le_of_not_lt
        intro hji
        apply hleast j hji
        rwa [(List.getElem?_eq_some_iff.mp hx).2]

theorem any_tails_iff {needle bytes : List UInt8} (i : Nat) :
    bytes.tails[i]?.any needle.isPrefixOf = true ↔ i ≤ bytes.length ∧ needle <+: bytes.drop i := by
  rcases Nat.lt_or_ge i bytes.tails.length with hlt | hge
  · rw [List.getElem?_eq_getElem hlt, List.getElem_tails, Option.any_some,
      List.isPrefixOf_iff_prefix]
    rw [List.length_tails] at hlt
    exact (and_iff_right (Nat.le_of_lt_succ hlt)).symm
  · rw [List.getElem?_eq_none hge]
    rw [List.length_tails] at hge
    exact iff_of_false nofun fun h => Nat.not_le_of_lt hge h.1

theorem firstPlace_tails (needle bytes : List UInt8) :
    FirstPlace (fun i => needle <+: bytes.drop i) (bytes.tails.findIdx? needle.isPrefixOf) := by
  have hplace := (firstPlace_findIdx? needle.isPrefixOf bytes.tails).congr any_tails_iff
  cases hf : bytes.tails.findIdx? needle.isPrefixOf with
  | none =>
      rw [hf] at hplace
      intro i hi
      rcases Nat.le_total i bytes.length with hin | hbehind
      · exact hplace i ⟨hin, hi⟩
      · -- Nothing is left there, and so there is at the end of the bytes.
        rw [List.drop_eq_nil_of_le hbehind, ← @List.drop_length _ bytes] at hi
        exact hplace bytes.length ⟨Nat.le_refl _, hi⟩
  | some k =>
      rw [hf] at hplace
      refine ⟨hplace.1.2, ?_⟩
      intro i hi
      rcases Nat.le_total i bytes.length with hin | hbehind
      · exact hplace.2 ⟨hin, hi⟩
      · exact Nat.le_trans hplace.1.1 hbehind

theorem linear_findFirst : Searches.linear.FindFirst where
  two _ _ bytes := firstPlace_findIdx? _ bytes
  three _ _ _ bytes := firstPlace_findIdx? _ bytes
  pattern := firstPlace_tails

/-! ## Skips by searches are plain skips -/

/-- Skips by searches come out as the plain ones, and end at the first there is. -/
structure Searches.SkipsLinearly (m : Searches) (c : Cursor src) : Prop where
  string : ∀ quote, ∃ r, m.skipToStringDelim quote c = .ok r ∧
    r = ((c.skipToStringDelim quote).1.getD 0, (c.skipToStringDelim quote).2) ∧
    EndsAtFirst (fun b => b == quote || b == Byte.backslash) c r
  group : ∃ r, m.skipToGroupDelim c = .ok r ∧
    r = (c.skipToGroupDelim.1.getD 0, c.skipToGroupDelim.2) ∧ EndsAtFirst Byte.isGroupDelim c r
  comment : ∃ r, m.skipPastCommentEnd c = .ok r ∧ r = c.skipPastCommentEnd ∧ EndsPastFirst c r

/-- **Skips by searches end where looking at one byte after the other does**, wherever the cursor stands,
also at the end of the text and behind it. -/
theorem skips_linearly {m : Searches} (h : m.FindFirst) (c : Cursor src) : m.SkipsLinearly c where
  string quote := ⟨_, h.skipToStringDelim_eq quote c, rfl, endsAtFirst_skipTo _ c⟩
  group := ⟨_, h.skipToGroupDelim_eq c, rfl, endsAtFirst_skipTo _ c⟩
  comment := ⟨_, h.skipPastCommentEnd_eq c, rfl, endsPastFirst_skipPastCommentEnd c⟩

/-- A zero byte, a quote before a parenthesis, and the end of a comment at the end of the text. -/
def zeroAndDelimiters : Source :=
  ⟨"a\x00'(\\)*/", by decide⟩

/-- The zero byte is a quote like any other.  From the slash on no comment ends, though a star stands before
it, and from behind the text the cursor goes back to its end. -/
theorem skips_linearly_of_zeroAndDelimiters :
    let c : Cursor zeroAndDelimiters := ⟨0⟩
    let slash : Cursor zeroAndDelimiters := ⟨7⟩
    let behind : Cursor zeroAndDelimiters := ⟨9⟩
    Searches.linear.FindFirst ∧
      Searches.linear.skipToStringDelim 0 c = .ok (0, ⟨1⟩) ∧
      EndsAtFirst (fun b => b == 0 || b == Byte.backslash) c (0, ⟨1⟩) ∧
      Searches.linear.skipToGroupDelim c = .ok (Byte.singleQuote, ⟨2⟩) ∧
      EndsAtFirst Byte.isGroupDelim c (Byte.singleQuote, ⟨2⟩) ∧
      Searches.linear.skipPastCommentEnd slash = .ok (false, ⟨8⟩) ∧
      EndsPastFirst slash (false, ⟨8⟩) ∧
      Searches.linear.skipToGroupDelim behind = .ok (0, ⟨8⟩) ∧
      EndsAtFirst Byte.isGroupDelim behind (0, ⟨8⟩) := by
  intro c slash behind
  have hstring : Searches.linear.skipToStringDelim 0 c = .ok (0, ⟨1⟩) := by decide +kernel
  have hgroup : Searches.linear.skipToGroupDelim c = .ok (Byte.singleQuote, ⟨2⟩) := by
    decide +kernel
  have hcomment : Searches.linear.skipPastCommentEnd slash = .ok (false, ⟨8⟩) := by
    decide +kernel
  have hbehind : Searches.linear.skipToGroupDelim behind = .ok (0, ⟨8⟩) := by decide +kernel
  obtain ⟨r, hr, -, hstringEnds⟩ := (skips_linearly linear_findFirst c).string 0
  cases hstring.symm.trans hr
  obtain ⟨r, hr, -, hgroupEnds⟩ := (skips_linearly linear_findFirst c).group
  cases hgroup.symm.trans hr
  obtain ⟨r, hr, -, hcommentEnds⟩ := (skips_linearly linear_findFirst slash).comment
  cases hcomment.symm.trans hr
  obtain ⟨r, hr, -, hbehindEnds⟩ := (skips_linearly linear_findFirst behind).group
  cases hbehind.symm.trans hr
  exact ⟨linear_findFirst, hstring, hstringEnds, hgroup, hgroupEnds, hcomment, hcommentEnds, hbehind,
    hbehindEnds⟩

end CssTokens.Checked
