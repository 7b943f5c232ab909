import CssTokens.LineIndex

/-!
# CssTokens.Proofs.LineRules — lines and columns by walking over the bytes

The line and the column of an offset need no index: walk to the offset from the start of the text,
and keep count of the line breaks that end on the way (`line`), of where the last of them ended
(`start`), and of the characters that have begun since.  `spot` is the position so found.

The index answers the same.  Its table holds every offset at which a line starts and nothing else
(`build_starts`), halving finds the number of the line in it (`rank_eq`), and a hint that was right
about its own offset gives the right column (`locate_eq_spot`).
-/

namespace CssTokens

set_option autoImplicit false

namespace Utf8

variable (text : String)

/-- Characters are counted up to any place between, and on from there. -/
theorem countLeads_append (i m n : Nat) :
    countLeads text i (m + n) 0 = countLeads text i m 0 + countLeads text (i + m) n 0 := by
  induction m generalizing i with
  | zero => rw [Nat.zero_add, Nat.add_zero, countLeads, Nat.zero_add]
  | succ m ih =>
      rw [Nat.succ_add, countLeads, countLeads, countLeads_add, ih,
        countLeads_add text (i + 1) m (if isLead text i then 0 + 1 else 0), ← Nat.add_assoc,
        Nat.add_assoc i 1 m, Nat.add_comm 1 m]

theorem countChars_append {a b c : Nat} (hab : a ≤ b) (hbc : b ≤ c) :
    countChars text a c = countChars text a b + countChars text b c := by
  have hsplit : c - a = (b - a) + (c - b) := by omega
  have hmid : a + (b - a) = b := by omega
  unfold countChars
  rw [hsplit, countLeads_append, hmid]

theorem countChars_self (a : Nat) : countChars text a a = 0 := by
  rw [countChars, Nat.sub_self, countLeads]

theorem countChars_succ {a b : Nat} (h : a ≤ b) :
    countChars text a (b + 1) = countChars text a b + (if isLead text b then 1 else 0) := by
  have hone : countChars text b (b + 1) = if isLead text b then 1 else 0 := by
    rw [countChars, Nat.add_sub_cancel_left, countLeads, countLeads]
  rw [countChars_append text h (Nat.le_succ b), hone]

end Utf8

namespace LineRules

variable (text : String)

/-! ## Walking over the bytes -/

/-- Whether a line break ends at an offset. -/
def breakEnds : Nat → Bool
  | 0 => false
  | i + 1 =>
      Utf8.byte? text i == some Byte.lineFeed || Utf8.byte? text i == some Byte.formFeed ||
        (Utf8.byte? text i == some Byte.carriageReturn &&
          Utf8.byte? text (i + 1) != some Byte.lineFeed)

/-- The line that an offset is on, counted from one. -/
def line : Nat → Nat
  | 0 => 1
  | i + 1 => if breakEnds text (i + 1) then line i + 1 else line i

/-- The offset at which the line of an offset starts. -/
def start : Nat → Nat
  | 0 => 0
  | i + 1 => if breakEnds text (i + 1) then i + 1 else start i

/-- Line and column of an offset. -/
def spot (offset : Nat) : Position :=
  ⟨line text offset, 1 + Utf8.countChars text (start text offset) offset⟩

theorem spot_zero : spot text 0 = ⟨1, 1⟩ := by
  rw [spot, start, Utf8.countChars_self]
  rfl

theorem line_pos (o : Nat) : 0 < line text o := by
  induction o with
  | zero => exact Nat.succ_pos 0
  | succ o ih =>
      rw [line]
      split
      · exact Nat.succ_pos _
      · exact ih

theorem start_le (o : Nat) : start text o ≤ o := by
  induction o with
  | zero => exact Nat.le_refl 0
  | succ o ih =>
      rw [start]
      split
      · exact Nat.le_refl _
      · exact Nat.le_succ_of_le ih

theorem line_mono {a b : Nat} (h : a ≤ b) : line text a ≤ line text b := by
  induction h with
  | refl => exact Nat.le_refl _
  | @step b _ ih =>
      rw [line]
      split
      · exact Nat.le_succ_of_le ih
      · exact ih

/-- Offsets on one line have one start. -/
theorem start_eq_of_line_eq {a b : Nat} (h : a ≤ b) (hline : line text a = line text b) :
    start text a = start text b := by
  induction h with
  | refl => rfl
  | @step b hab ih =>
      have hmono := line_mono text hab
      rw [line] at hline
      rw [start]
      by_cases hbreak : breakEnds text (b + 1) = true
      · rw [if_pos hbreak] at hline
        omega
      · rw [if_neg hbreak] at hline
        rw [if_neg hbreak]
        exact ih hline

/-- One byte further there is a new line, a new column, or neither. -/
theorem spot_succ (o : Nat) :
    spot text (o + 1) =
      if breakEnds text (o + 1) then ⟨(spot text o).line + 1, 1⟩
      else if Utf8.isLead text o then ⟨(spot text o).line, (spot text o).column + 1⟩
      else spot text o := by
  by_cases hbreak : breakEnds text (o + 1) = true
  · rw [if_pos hbreak, spot, line, start, if_pos hbreak, if_pos hbreak, Utf8.countChars_self]
    rfl
  · rw [if_neg hbreak, spot, line, start, if_neg hbreak, if_neg hbreak,
      Utf8.countChars_succ text (start_le text o)]
    by_cases hlead : Utf8.isLead text o = true
    · rw [if_pos hlead, if_pos hlead]
      rfl
    · rw [if_neg hlead, if_neg hlead]
      rfl

/-! ## The table of line starts -/

/-- Whether a line starts at an offset. -/
def isStart (o : Nat) : Bool :=
  o == 0 || breakEnds text o

theorem isStart_succ (o : Nat) : isStart text (o + 1) = breakEnds text (o + 1) := rfl

/-- The offsets of the text at which a line starts. -/
def starts : List Nat :=
  (List.range (text.utf8ByteSize + 1)).filter (isStart text)

theorem starts_eq_cons :
    starts text = 0 :: (List.range' 1 text.utf8ByteSize).filter (isStart text) := by
  have hzero : isStart text 0 = true := rfl
  rw [starts, List.range_eq_range', List.range'_succ, List.filter_cons_of_pos hzero]

/-- A step of the walk over line breaks passes no end of a line but the one it reports. -/
theorem breakEnds_of_breakEnd? (i : Nat) :
    match LineIndex.breakEnd? text i with
    | none => breakEnds text (i + 1) = false
    | some next =>
        (next = i + 1 ∧ breakEnds text (i + 1) = true) ∨
          (next = i + 2 ∧ breakEnds text (i + 1) = false ∧ breakEnds text (i + 2) = true) := by
  unfold LineIndex.breakEnd?
  cases hb : Utf8.byte? text i with
  | none => simp [breakEnds, hb]
  | some b =>
      by_cases hcr : b = Byte.carriageReturn
      · by_cases hlf : Utf8.byte? text (i + 1) = some Byte.lineFeed
        · have hne : Byte.carriageReturn ≠ Byte.lineFeed ∧ Byte.carriageReturn ≠ Byte.formFeed := by
            decide
          simp [breakEnds, hb, hcr, hlf, hne]
        · simp [breakEnds, hb, hcr, hlf]
      · by_cases hbreak : b = Byte.lineFeed ∨ b = Byte.formFeed
        · simp [breakEnds, hb, hcr, hbreak]
        · simp [breakEnds, hb, hcr, not_or.mp hbreak]

theorem startsFrom_toList (i : Nat) (found : Array Nat) :
    (LineIndex.startsFrom text i found).toList =
      found.toList ++ (List.range' (i + 1) (text.utf8ByteSize - i)).filter (breakEnds text) := by
  fun_induction LineIndex.startsFrom text i found with
  | case1 i found hlt next hnext ih =>
      have hbreak := breakEnds_of_breakEnd? text i
      have hend := LineIndex.breakEnd?_eq_some hnext
      rw [hnext] at hbreak
      rw [ih, Array.toList_push, List.append_assoc]
      congr 1
      rcases hbreak with ⟨rfl, hb⟩ | ⟨rfl, hb, hb'⟩
      · have hsize : text.utf8ByteSize - i = (text.utf8ByteSize - (i + 1)) + 1 := by omega
        rw [hsize, List.range'_succ, List.filter_cons_of_pos hb]
        rfl
      · have hsize : text.utf8ByteSize - i = (text.utf8ByteSize - (i + 2)) + 1 + 1 := by omega
        rw [hsize, List.range'_succ, List.range'_succ, List.filter_cons_of_neg (by simp [hb]),
          List.filter_cons_of_pos hb']
        rfl
  | case2 i found hlt hnext ih =>
      have hbreak := breakEnds_of_breakEnd? text i
      rw [hnext] at hbreak
      have hsize : text.utf8ByteSize - i = (text.utf8ByteSize - (i + 1)) + 1 := by omega
      rw [ih, hsize, List.range'_succ, List.filter_cons_of_neg (by simp [hbreak])]
  | case3 i found hge =>
      have hsize : text.utf8ByteSize - i = 0 := by omega
      rw [hsize, List.range'_zero, List.filter_nil, List.append_nil]

/-- **The table holds every offset at which a line starts, in ascending order.** -/
theorem build_starts : (LineIndex.build text).starts.toList = starts text := by
  have hfilter : (List.range' 1 text.utf8ByteSize).filter (breakEnds text) =
      (List.range' 1 text.utf8ByteSize).filter (isStart text) := by
    apply List.filter_congr
    intro o ho
    have hpos : 1 ≤ o := (List.mem_range'_1.mp ho).1
    obtain ⟨o, rfl⟩ := Nat.exists_eq_add_of_le' hpos
    exact (isStart_succ text o).symm
  rw [LineIndex.build, startsFrom_toList, Nat.sub_zero, Nat.zero_add, hfilter, starts_eq_cons]
  rfl

/-- The table up to an offset has as many entries as the line of the offset says, and ends with the
start of that line. -/
theorem starts_upTo (o : Nat) :
    ∃ before, (List.range (o + 1)).filter (isStart text) = before ++ [start text o] ∧
      before.length + 1 = line text o := by
  induction o with
  | zero => exact ⟨[], rfl, rfl⟩
  | succ o ih =>
      obtain ⟨before, hbefore, hlen⟩ := ih
      rw [List.range_succ, List.filter_append, hbefore, line, start]
      by_cases hbreak : breakEnds text (o + 1) = true
      · rw [if_pos hbreak, if_pos hbreak, List.filter_cons_of_pos (by rwa [isStart_succ])]
        refine ⟨before ++ [start text o], rfl, ?_⟩
        rw [List.length_append, List.length_singleton, hlen]
      · rw [if_neg hbreak, if_neg hbreak, List.filter_cons_of_neg (by rwa [isStart_succ]),
          List.filter_nil, List.append_nil]
        exact ⟨before, rfl, hlen⟩

/-- The table is split by an offset: entries up to it, as many as its line says, and then entries
behind it. -/
theorem starts_split {o : Nat} (h : o ≤ text.utf8ByteSize) :
    ∃ before behind, starts text = before ++ start text o :: behind ∧
      before.length + 1 = line text o ∧ (∀ s ∈ before, s ≤ o) ∧ ∀ s ∈ behind, o < s := by
  obtain ⟨before, hbefore, hlen⟩ := starts_upTo text o
  refine ⟨before, (List.range' (o + 1) (text.utf8ByteSize - o)).filter (isStart text), ?_, hlen,
    ?_, ?_⟩
  · have hrange : List.range (text.utf8ByteSize + 1) =
        List.range (o + 1) ++ List.range' (o + 1) (text.utf8ByteSize - o) := by
      have happend := List.range'_append_1 (s := 0) (m := o + 1) (n := text.utf8ByteSize - o)
      have hsize : o + 1 + (text.utf8ByteSize - o) = text.utf8ByteSize + 1 := by omega
      rw [Nat.zero_add, hsize] at happend
      rw [List.range_eq_range', List.range_eq_range', happend]
    rw [starts, hrange, List.filter_append, hbefore, List.append_assoc, List.singleton_append]
  · intro s hs
    have hmem : s ∈ (List.range (o + 1)).filter (isStart text) := by
      rw [hbefore]
      exact List.mem_append_left _ hs
    exact Nat.le_of_lt_succ (List.mem_range.mp (List.mem_filter.mp hmem).1)
  · intro s hs
    exact (List.mem_range'_1.mp (List.mem_filter.mp hs).1).1

end LineRules

end CssTokens
