/-!
# CssTokens.Proofs.Copies — states that are copied and go on independently

A state that is a value may be copied at any time.  From then on there are two holders of it, each
of which makes its own moves.  `Copies` says which lists of states can arise so, one entry for each
holder: any of them moves, or any of them is copied.

What holds at first and is kept by every move holds of every holder (`Copies.forall_mem`).
-/

namespace CssTokens

set_option autoImplicit false

/-- The lists of states held after some moves and copies in any order. -/
inductive Copies {σ : Type} (moves : σ → σ → Prop) (first : σ) : List σ → Prop where
  | start : Copies moves first [first]
  | move {left right : List σ} {s s' : σ} (h : Copies moves first (left ++ s :: right))
      (hmove : moves s s') : Copies moves first (left ++ s' :: right)
  | copy {pool : List σ} {s : σ} (h : Copies moves first pool) (hs : s ∈ pool) :
      Copies moves first (pool ++ [s])

/-- An invariant of the moves is one of every holder. -/
theorem Copies.forall_mem {σ : Type} {moves : σ → σ → Prop} {first : σ} {pool : List σ}
    {P : σ → Prop} (h : Copies moves first pool) (hfirst : P first)
    (hmoves : ∀ s s', P s → moves s s' → P s') : ∀ s ∈ pool, P s := by
  induction h with
  | start =>
      intro s hs
      rw [List.mem_singleton.mp hs]
      exact hfirst
  | @move left right s s' h hmove ih =>
      intro t ht
      rcases List.mem_append.mp ht with hleft | hright
      · exact ih t (List.mem_append_left _ hleft)
      · rcases List.mem_cons.mp hright with rfl | hright
        · exact hmoves s t (ih s (List.mem_append_right _ List.mem_cons_self)) hmove
        · exact ih t (List.mem_append_right _ (List.mem_cons_of_mem s hright))
  | copy h hs ih =>
      intro t ht
      rcases List.mem_append.mp ht with hpool | hcopy
      · exact ih t hpool
      · rw [List.mem_singleton.mp hcopy]
        exact ih _ hs

end CssTokens
