import CssTokens.Proofs.Characters
import CssTokens.Proofs.ContextFree
import CssTokens.Proofs.NextLexeme

/-!
# CssTokens.Proofs.GroupDepth — where parenthesis groups end, by counting

A reader who wants to know where the group of a parenthesis ends reads the characters behind it, leaves
out every backslash with the character that it escapes (`unescaped`), and counts: the depth is one at
first, an opening parenthesis adds one to it, a closing one takes one away.  Where the depth first comes
to zero the group ends, unless there was a quote before (`ClosesAt`, `Quoted`).

A scanner does not count.  It keeps a stack of offsets, jumps from one byte that matters to the next,
and sometimes remembers from an earlier search that a quote will come.  What it finds is what the reader
finds, in every state that it can come to (`groups_recognised`).
-/

namespace CssTokens

set_option autoImplicit false

open ByteRules Reading Utf8

namespace GroupDepth

/-! ## Reading characters -/

/-- The characters that no backslash escapes and that escape nothing, with their offsets; the first of
all characters stands at `offset`. -/
def unescaped (offset : Nat) : List Char → List (Nat × Char)
  | [] => []
  | ['\\'] => []
  | '\\' :: c :: cs => unescaped (offset + (c.utf8Size + 1)) cs
  | c :: cs => (offset, c) :: unescaped (offset + c.utf8Size) cs

/-- The two quotes. -/
def quotes : List Char := ['"', '\'']

/-- The depth behind some characters, if it was `first` before them. -/
def depth (first : Int) (cs : List (Nat × Char)) : Int :=
  first + cs.countP (·.2 = '(') - cs.countP (·.2 = ')')

/-- The depth first comes to zero at the closing parenthesis at `offset`, and there is no quote
before. -/
def ClosesAt (first : Int) (cs : List (Nat × Char)) (offset : Nat) : Prop :=
  ∃ k, cs[k]? = some (offset, ')') ∧ depth first (cs.take (k + 1)) = 0 ∧
    (∀ j ≤ k, depth first (cs.take j) ≠ 0) ∧ ∀ c ∈ cs.take k, c.2 ∉ quotes

/-- There is a quote before the depth comes to zero. -/
def Quoted (first : Int) (cs : List (Nat × Char)) : Prop :=
  ∃ (k offset : Nat) (quote : Char), cs[k]? = some (offset, quote) ∧ quote ∈ quotes ∧
    ∀ j ≤ k, depth first (cs.take j) ≠ 0

variable {first : Int} {cs : List (Nat × Char)} {i n : Nat} {c : Char}

theorem ClosesAt.unique {o o' : Nat} (h : ClosesAt first cs o) (h' : ClosesAt first cs o') :
    o = o' := by
  obtain ⟨k, hk, hzero, hopen, -⟩ := h
  obtain ⟨k', hk', hzero', hopen', -⟩ := h'
  rcases Nat.lt_trichotomy k k' with hlt | rfl | hlt
  · exact absurd hzero (hopen' (k + 1) hlt)
  · cases hk.symm.trans hk'
    rfl
  · exact absurd hzero' (hopen (k' + 1) hlt)

theorem ClosesAt.not_quoted {o : Nat} (h : ClosesAt first cs o) : ¬ Quoted first cs := by
  rintro ⟨k', o', quote, hk', hquote, hopen'⟩
  obtain ⟨k, hk, hzero, -, hnone⟩ := h
  rcases Nat.lt_trichotomy k k' with hlt | rfl | hlt
  · exact absurd hzero (hopen' (k + 1) hlt)
  · cases hk.symm.trans hk'
    exact absurd hquote (by decide)
  · have hmem : (o', quote) ∈ cs.take k := by
      apply List.mem_of_getElem? (i := k')
      rw [List.getElem?_take_of_lt hlt]
      exact hk'
    exact hnone _ hmem hquote

/-! ## Counting finds what the rule for groups finds -/

/-- What counting says about characters that begin at an offset, for each way in which the search for
the end of a group can end. -/
def Counts (first : Int) (cs : List (Nat × Char)) (i : Nat) : Ending × Nat → Prop
  | (.closed, n) => ∃ offset, ClosesAt first cs offset ∧ i + n = offset + 1
  | (.quoted, _) => Quoted first cs
  | (.missing, _) => (∀ k, depth first (cs.take k) ≠ 0) ∧ ∀ c ∈ cs, c.2 ∉ quotes

@[simp] theorem depth_nil : depth first [] = first := by
  simp [depth]

theorem depth_cons (c : Nat × Char) (cs : List (Nat × Char)) :
    depth first (c :: cs) = depth (depth first [c]) cs := by
  simp only [depth, List.countP_cons, List.countP_nil]
  omega

theorem Counts.shift {found : Ending × Nat} (h : Counts first cs (i + n) found) :
    Counts first cs i (behind n found) := by
  obtain ⟨ending, m⟩ := found
  cases ending with
  | closed =>
      obtain ⟨offset, hcloses, hsum⟩ := h
      exact ⟨offset, hcloses, by omega⟩
  | quoted => exact h
  | missing => exact h

theorem counts_nil (d i n : Nat) : Counts (d + 1) [] i (.missing, n) := by
  refine ⟨fun k => ?_, nofun⟩
  rw [List.take_nil, depth_nil]
  omega

/-- A character that is no quote passes on what is said about the others, from the depth behind it. -/
theorem Counts.cons {found : Ending × Nat} (h : Counts (depth first [(i, c)]) cs (i + n) found)
    (hc : c ∉ quotes) (hfirst : first ≠ 0) :
    Counts first ((i, c) :: cs) i (behind n found) := by
  -- The depths are those of the shorter list, one place later, and the first of all is not zero.
  have hdepth {k : Nat} (hopen : ∀ j ≤ k, depth (depth first [(i, c)]) (cs.take j) ≠ 0) :
      ∀ j ≤ k + 1, depth first (((i, c) :: cs).take j) ≠ 0 := by
    intro j hj
    cases j with
    | zero =>
        rw [List.take_zero, depth_nil]
        exact hfirst
    | succ j =>
        rw [List.take_succ_cons, depth_cons]
        exact hopen j (Nat.le_of_succ_le_succ hj)
  have hshift := h.shift
  obtain ⟨ending, m⟩ := found
  cases ending with
  | closed =>
      obtain ⟨offset, ⟨k, hk, hzero, hopen, hnone⟩, hsum⟩ := hshift
      refine ⟨offset, ⟨k + 1, hk, ?_, hdepth hopen, ?_⟩, hsum⟩
      · rw [List.take_succ_cons, depth_cons]
        exact hzero
      · rw [List.take_succ_cons]
        exact List.forall_mem_cons.mpr ⟨hc, hnone⟩
  | quoted =>
      obtain ⟨k, offset, quote, hk, hquote, hopen⟩ := hshift
      exact ⟨k + 1, offset, quote, hk, hquote, hdepth hopen⟩
  | missing =>
      obtain ⟨hopen, hnone⟩ := hshift
      exact ⟨fun k => hdepth (fun j _ => hopen j) k (Nat.le_succ k),
        List.forall_mem_cons.mpr ⟨hc, hnone⟩⟩

theorem spells_isGroupDelim : Spells Byte.isGroupDelim ['(', ')', '\\', '"', '\''] := by
  decide +kernel

/-- What a character other than a backslash is to a group that it goes on. -/
theorem group_char (d : Nat) (hc : c ≠ '\\') (bs : List UInt8) :
    (c ∈ quotes ∧ group d (String.utf8EncodeChar c ++ bs) = (.quoted, 0)) ∨
    (c = ')' ∧ d = 0 ∧ group d (String.utf8EncodeChar c ++ bs) = (.closed, 1)) ∨
    (c ∉ quotes ∧ ∃ d' : Nat, depth (d + 1) [(i, c)] = d' + 1 ∧
      group d (String.utf8EncodeChar c ++ bs) = behind c.utf8Size (group d' bs)) := by
  by_cases hquote : c ∈ quotes
  · left
    refine ⟨hquote, ?_⟩
    simp only [quotes, List.mem_cons, List.not_mem_nil, or_false] at hquote
    rcases hquote with rfl | rfl
    · exact group_cons d _ bs
    · exact group_cons d _ bs
  right
  by_cases hopen : c = '('
  · subst hopen
    exact Or.inr ⟨hquote, d + 1, rfl, group_cons d _ bs⟩
  by_cases hclose : c = ')'
  · subst hclose
    cases d with
    | zero => exact Or.inl ⟨rfl, rfl, group_cons 0 _ bs⟩
    | succ d =>
        refine Or.inr ⟨hquote, d, ?_, group_cons (d + 1) _ bs⟩
        simp [depth]
  · right
    refine ⟨hquote, d, by simp [depth, hopen, hclose], ?_⟩
    have hnone : c ∉ ['(', ')', '\\', '"', '\''] := by
      simp only [quotes, List.mem_cons, List.not_mem_nil, or_false, not_or] at hquote ⊢
      exact ⟨hopen, hclose, hc, hquote⟩
    rw [group_append (spells_isGroupDelim.eq_false_of_not_mem hnone), String.length_utf8EncodeChar]

/-- **The search for the end of a group finds what counting finds.** -/
theorem group_counts (d i : Nat) (cs : List Char) :
    Counts (d + 1) (unescaped i cs) i (group d (encode cs)) := by
  fun_induction unescaped i cs generalizing d with
  | case1 i =>
      rw [encode_nil, group]
      exact counts_nil d i 0
  | case2 i =>
      have hgroup : group d (encode ['\\']) = behind 1 (group d []) := group_cons d _ []
      rw [hgroup, group]
      exact counts_nil d i 1
  | case3 i c cs ih =>
      have hgroup : group d (encode ('\\' :: c :: cs)) = behind (c.utf8Size + 1) (group d (encode cs)) := by
        have hstep : group d (encode ('\\' :: c :: cs)) =
            behind (charLength (encode (c :: cs)) + 1)
              (group d ((encode (c :: cs)).drop (charLength (encode (c :: cs))))) :=
          group_cons d _ _
        rw [hstep, charLength_encode, encode_cons, ← String.length_utf8EncodeChar, List.drop_left]
      rw [hgroup]
      exact (ih d).shift
  | case4 i c cs hlone hescape ih =>
      have hc : c ≠ '\\' := by
        rintro rfl
        cases cs with
        | nil => exact hlone rfl rfl
        | cons e cs => exact hescape e cs rfl rfl
      rw [encode_cons]
      rcases group_char (i := i) d hc (encode cs) with
        ⟨hquote, hgroup⟩ | ⟨rfl, rfl, hgroup⟩ | ⟨hquote, d', hdepth, hgroup⟩
      · rw [hgroup]
        refine ⟨0, i, c, rfl, hquote, ?_⟩
        intro j hj
        obtain rfl := Nat.le_zero.mp hj
        rw [List.take_zero, depth_nil]
        omega
      · rw [hgroup]
        refine ⟨i, ⟨0, rfl, by simp [depth], ?_, fun c hc => absurd hc List.not_mem_nil⟩, rfl⟩
        intro j hj
        obtain rfl := Nat.le_zero.mp hj
        simp
      · rw [hgroup]
        apply Counts.cons
        · rw [hdepth]
          exact ih d'
        · exact hquote
        · omega

end GroupDepth

namespace Scanner

open GroupDepth

variable {src : Source}

/-- The characters behind the parenthesis that a scanner stands at, as a reader counts them. -/
def inGroup (s : Scanner src) : List (Nat × Char) :=
  unescaped (s.pos + 1) (src.charsFrom (s.pos + 1))

/-- What a step at a parenthesis finds is what counting finds. -/
structure FindsGroup (s s' : Scanner src) (l : Lexeme) : Prop where
  /-- The characters that are counted begin behind the parenthesis. -/
  boundary : isBoundary src.text (s.pos + 1) = true
  pos_eq : s'.pos = s.pos + l.length
  /-- A group is a token if it is closed, up to and with its closing parenthesis. -/
  closed : ∀ n, l = ⟨.token .brackets, n⟩ ↔
    ∃ offset, ClosesAt 1 s.inGroup offset ∧ s.pos + n = offset + 1
  /-- The parenthesis is a token alone if a quote comes first. -/
  quoted : l = ⟨.token .openParen, 1⟩ ↔ Quoted 1 s.inGroup
  /-- Otherwise the group lacks its end and reaches to the end of the text. -/
  missing : l = ⟨.unclosed .bracket, src.size - s.pos⟩ ↔
    (¬ ∃ offset, ClosesAt 1 s.inGroup offset) ∧ ¬ Quoted 1 s.inGroup

theorem findsGroup_of_counts {s s' : Scanner src} {found : Ending × Nat}
    (hboundary : isBoundary src.text (s.pos + 1) = true)
    (hpos : s'.pos = s.pos + (enclosed .bracket 1 found).length)
    (hcounts : Counts 1 s.inGroup (s.pos + 1) found)
    (hend : found.1 = .missing → 1 + found.2 = src.size - s.pos) :
    s.FindsGroup s' (enclosed .bracket 1 found) := by
  obtain ⟨ending, m⟩ := found
  cases ending with
  | closed =>
      obtain ⟨offset, hcloses, hsum⟩ := hcounts
      refine ⟨hboundary, hpos, fun n => ⟨?_, ?_⟩, iff_of_false nofun hcloses.not_quoted,
        iff_of_false nofun fun h => h.1 ⟨offset, hcloses⟩⟩
      · intro hl
        cases hl
        exact ⟨offset, hcloses, by omega⟩
      · rintro ⟨offset', hcloses', hsum'⟩
        obtain rfl := hcloses.unique hcloses'
        have hn : n = 1 + m := by omega
        rw [hn]
        rfl
  | quoted =>
      have hquoted : Quoted 1 s.inGroup := hcounts
      exact ⟨hboundary, hpos, fun n => iff_of_false nofun fun ⟨_, hc, _⟩ => hc.not_quoted hquoted,
        iff_of_true rfl hquoted, iff_of_false nofun fun h => h.2 hquoted⟩
  | missing =>
      obtain ⟨hopen, hnone⟩ := hcounts
      have hclosed : ¬ ∃ offset, ClosesAt 1 s.inGroup offset :=
        fun ⟨_, k, _, hzero, _⟩ => hopen (k + 1) hzero
      have hquoted : ¬ Quoted 1 s.inGroup :=
        fun ⟨_, _, _, hk, hquote, _⟩ => hnone _ (List.mem_of_getElem? hk) hquote
      refine ⟨hboundary, hpos, fun n => iff_of_false nofun fun ⟨o, hc, _⟩ => hclosed ⟨o, hc⟩,
        iff_of_false nofun hquoted, iff_of_true ?_ ⟨hclosed, hquoted⟩⟩
      rw [enclosed, hend rfl]

/-- **Groups are recognised by counting**, whatever is remembered from earlier searches. -/
theorem groups_recognised {start : Nat} {pool : List (Scanner src)}
    (hpool : Copies Moves (ofCursor ⟨start⟩) pool) {s : Scanner src} (hs : s ∈ pool)
    (hparen : s.cursor.current = .ok Byte.openParen) :
    ∃ l s', s.next = .ok (l, s') ∧ s.FindsGroup s' l := by
  have hm : s.openParens.Sound src :=
    hpool.forall_mem OpenParens.sound_empty (fun _ _ hm ⟨_, hnext⟩ => sound_of_next hm hnext) s hs
  obtain ⟨bs, hr⟩ := Cursor.exists_rest_of_current hparen (by decide)
  have hlt : s.pos < src.size := Cursor.lt_size_of_rest hr
  have hboundary : isBoundary src.text (s.pos + 1) = true :=
    Cursor.isBoundary_of_rest hr (by decide)
  have hbytes : encode (src.charsFrom (s.pos + 1)) = bs :=
    (Source.encode_charsFrom hboundary).trans (Cursor.rest_advance_one hr)
  obtain ⟨⟨l, s'⟩, hnext, hrules⟩ := next_followsRules (Nat.le_of_lt hlt) hm
  have hlexeme : l = enclosed .bracket 1 (group 0 bs) := by
    have hrule : l = lexeme s.cursor.rest := hrules.lexeme_eq
    rw [hrule, hr]
    rfl
  subst hlexeme
  refine ⟨_, s', hnext, findsGroup_of_counts hboundary ?_ ?_ ?_⟩
  · exact ((next_yields (Nat.le_of_lt hlt)).of_eq_ok hnext).pos_eq
  · rw [← hbytes]
    exact group_counts 0 (s.pos + 1) (src.charsFrom (s.pos + 1))
  · intro hmissing
    have hlen := Cursor.length_rest s.cursor
    rw [hr, List.length_cons] at hlen
    rw [(group_reaches 0 bs).length_of_missing hmissing, Nat.add_comm]
    exact hlen

/-- A parenthesis that opens no group, and in it a group with an escaped parenthesis. -/
def groupInParen : Source :=
  ⟨"((\\)é)('", by decide⟩

/-- The group is found while the parenthesis behind it is remembered. -/
theorem groups_recognised_of_groupInParen :
    let s : Scanner groupInParen := ⟨⟨1⟩, ⟨#[7], 0⟩⟩
    Copies Moves (ofCursor ⟨0⟩) [s] ∧ s.cursor.current = .ok Byte.openParen ∧
      ∃ s', s.next = .ok (⟨.token .brackets, 6⟩, s') ∧
        s.FindsGroup s' ⟨.token .brackets, 6⟩ := by
  intro s
  have hmove : Moves (ofCursor ⟨0⟩) s := ⟨⟨.token .openParen, 1⟩, by decide +kernel⟩
  have hstart : Copies Moves (ofCursor ⟨0⟩) ([] ++ (ofCursor ⟨0⟩ : Scanner groupInParen) :: []) :=
    .start
  have hpool : Copies Moves (ofCursor ⟨0⟩) [s] := hstart.move hmove
  have hparen : s.cursor.current = .ok Byte.openParen := by decide +kernel
  have hnext : s.next = .ok (⟨.token .brackets, 6⟩, ⟨⟨7⟩, ⟨#[7], 0⟩⟩) := by decide +kernel
  obtain ⟨l, s', hfound, hgroup⟩ := groups_recognised hpool (List.mem_singleton.mpr rfl) hparen
  cases hnext.symm.trans hfound
  exact ⟨hpool, hparen, _, hnext, hgroup⟩

end Scanner

end CssTokens
