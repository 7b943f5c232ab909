import CssTokens.Byte
import CssTokens.Source

/-!
# CssTokens.Source.Search — finding bytes in a text

Two searches, both for the least offset from a given one on: that of a byte of some class, and that
of the end of a comment.  They look at the text and never at the padding.

`find?_eq_some_iff` and `find?_eq_none_iff` say for the first that the offset is the least one;
`findCommentEnd?_eq_some` says for the second what stands at the offset found.
-/

namespace CssTokens

set_option autoImplicit false

namespace Source

/-- The least offset of the text, from `i` on, whose byte satisfies `p`, and that byte. -/
def find? (src : Source) (p : UInt8 → Bool) (i : Nat) : Option (Nat × UInt8) :=
  match _h : Utf8.byte? src.text i with
  | none => none
  | some b => if p b then some (i, b) else find? src p (i + 1)
termination_by src.size - i
decreasing_by
  have := Utf8.lt_size_of_byte? _h
  simp only [Source.size]
  omega

/-- The least offset of the text, from `i` on, at which the end of a comment begins. -/
def findCommentEnd? (src : Source) (i : Nat) : Option Nat :=
  match _h : Utf8.byte? src.text i with
  | none => none
  | some b =>
    if b == Byte.star && Utf8.byte? src.text (i + 1) == some Byte.slash then some i
    else findCommentEnd? src (i + 1)
termination_by src.size - i
decreasing_by
  have := Utf8.lt_size_of_byte? _h
  simp only [Source.size]
  omega

variable {src : Source} {p : UInt8 → Bool} {i j : Nat} {b : UInt8}

theorem find?_eq_some_iff :
    src.find? p i = some (j, b) ↔
      i ≤ j ∧ Utf8.byte? src.text j = some b ∧ p b = true ∧
        ∀ k d, i ≤ k → k < j → Utf8.byte? src.text k = some d → p d = false := by
  fun_induction find? src p i with
  | case1 i h =>
    constructor
    · intro hf
      exact absurd hf (by simp)
    · rintro ⟨hij, hj, -, -⟩
      have := Utf8.byte?_eq_none_iff.mp h
      have := Utf8.lt_size_of_byte? hj
      omega
  | case2 i d h hd =>
    constructor
    · intro hf
      simp only [Option.some.injEq, Prod.mk.injEq] at hf
      obtain ⟨rfl, rfl⟩ := hf
      exact ⟨Nat.le_refl _, h, hd, fun k _ hk hk' => absurd hk (by omega)⟩
    · rintro ⟨hij, hj, hb, hleast⟩
      cases Nat.eq_or_lt_of_le hij with
      | inl eq =>
        subst eq
        rw [h] at hj
        injection hj with hj
        rw [hj]
      | inr lt =>
        have := hleast i d (Nat.le_refl _) lt h
        simp [hd] at this
  | case3 i d h hd ih =>
    rw [ih]
    constructor
    · rintro ⟨hij, hj, hb, hleast⟩
      refine ⟨by omega, hj, hb, fun k e hk hkj he => ?_⟩
      cases Nat.eq_or_lt_of_le hk with
      | inl eq =>
        subst eq
        rw [h] at he
        injection he with he
        simpa [← he] using hd
      | inr lt => exact hleast k e lt hkj he
    · rintro ⟨hij, hj, hb, hleast⟩
      cases Nat.eq_or_lt_of_le hij with
      | inl eq =>
        subst eq
        rw [h] at hj
        injection hj with hj
        rw [hj] at hd
        exact absurd hb hd
      | inr lt => exact ⟨lt, hj, hb, fun k e hk hkj he => hleast k e (by omega) hkj he⟩

theorem find?_eq_none_iff :
    src.find? p i = none ↔ ∀ k d, i ≤ k → Utf8.byte? src.text k = some d → p d = false := by
  fun_induction find? src p i with
  | case1 i h =>
    refine ⟨fun _ k d hk hd => ?_, fun _ => rfl⟩
    have := Utf8.byte?_eq_none_iff.mp h
    have := Utf8.lt_size_of_byte? hd
    omega
  | case2 i d h hd =>
    constructor
    · intro hf
      exact absurd hf (by simp)
    · intro hnone
      have := hnone i d (Nat.le_refl _) h
      simp [hd] at this
  | case3 i d h hd ih =>
    rw [ih]
    constructor
    · intro hnone k e hk he
      cases Nat.eq_or_lt_of_le hk with
      | inl eq =>
        subst eq
        rw [h] at he
        injection he with he
        simpa [← he] using hd
      | inr lt => exact hnone k e lt he
    · exact fun hnone k e hk he => hnone k e (by omega) he

theorem findCommentEnd?_eq_some (h : src.findCommentEnd? i = some j) :
    i ≤ j ∧ Utf8.byte? src.text j = some Byte.star ∧
      Utf8.byte? src.text (j + 1) = some Byte.slash := by
  fun_induction findCommentEnd? src i with
  | case1 => exact absurd h (by simp)
  | case2 i b hb hends =>
    simp only [Option.some.injEq] at h
    subst h
    simp only [Bool.and_eq_true, beq_iff_eq] at hends
    exact ⟨Nat.le_refl _, by rw [hb, hends.1], hends.2⟩
  | case3 i b hb hends ih =>
    obtain ⟨hij, hrest⟩ := ih h
    exact ⟨by omega, hrest⟩

end Source

end CssTokens
