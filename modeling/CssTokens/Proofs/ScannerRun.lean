import CssTokens.Proofs.ScannerSound

/-!
# CssTokens.Proofs.ScannerRun — all steps of a scanner

`Scanner.run` lists the steps that a scanner makes up to the end of the text, in order.  Behind them
it finds the end over and over.  Each step is kept as a `Visit`: the scanner as it was before the
step, which says where the step began and what was remembered then, and the lexeme that it found.

Visits come one behind the other (`run_pairwise`), so an offset lies in one of them at most
(`eq_of_mem_run`).  Behind each visit the run goes on as that of the next scanner
(`exists_run_of_mem`), and an invariant of the steps holds at every visit (`forall_mem_run`).
-/

namespace CssTokens

set_option autoImplicit false

variable {src : Source}

/-- A step of a scanner. -/
structure Visit (src : Source) where
  /-- The scanner before the step. -/
  scanner : Scanner src
  /-- What the step found. -/
  lexeme : Lexeme
deriving DecidableEq

namespace Visit

/-- Offset at which the lexeme begins. -/
def start (v : Visit src) : Nat :=
  v.scanner.pos

/-- Offset of the first byte behind the lexeme. -/
def stop (v : Visit src) : Nat :=
  v.start + v.lexeme.length

/-- What the lexeme is; on recovery, if it is unclosed. -/
def kind? (v : Visit src) : Option Kind :=
  v.lexeme.tag.kind?

end Visit

namespace Scanner

/-- The steps of a scanner up to the end of the text. -/
def run (s : Scanner src) (h : s.pos ≤ src.size) : List (Visit src) :=
  if _hend : s.pos = src.size then []
  else ⟨s, (s.step h).val.1⟩ :: (s.step h).val.2.run (step_within h).pos_le
termination_by src.size - s.pos
decreasing_by
  have hwithin := step_within h
  have hpos := hwithin.pos_eq
  have hlen := hwithin.length_pos (fun hfinish => _hend (hwithin.finish_iff.mp hfinish))
  omega

variable {s : Scanner src} {h : s.pos ≤ src.size} {v w : Visit src}

/-- An invariant of the steps holds at every visit. -/
theorem forall_mem_run {P : Scanner src → Prop} (hs : P s)
    (hstep : ∀ s l s', s.pos ≤ src.size → P s → s.next = .ok (l, s') → P s') :
    ∀ v ∈ s.run h, P v.scanner := by
  fun_induction run s h with
  | case1 s h hend => exact nofun
  | case2 s h hend ih =>
      intro v hv
      rcases List.mem_cons.mp hv with rfl | hrest
      · exact hs
      · exact ih (hstep s _ _ h hs (s.step h).property) v hrest

theorem pos_le_of_mem_run (hv : v ∈ s.run h) : s.pos ≤ v.start := by
  refine forall_mem_run (P := fun u => s.pos ≤ u.pos) (Nat.le_refl _) ?_ v hv
  intro u l u' hle hu hnext
  have hpos : u'.pos = u.pos + l.length := ((next_yields hle).of_eq_ok hnext).pos_eq
  omega

/-- Visits come one behind the other. -/
theorem run_pairwise (s : Scanner src) (h : s.pos ≤ src.size) :
    (s.run h).Pairwise fun v w => v.stop ≤ w.start := by
  fun_induction run s h with
  | case1 s h hend => exact .nil
  | case2 s h hend ih =>
      refine .cons (fun w hw => ?_) ih
      have hpos : (s.step h).val.2.pos = s.pos + (s.step h).val.1.length := (step_within h).pos_eq
      have hle : (s.step h).val.2.pos ≤ w.start := pos_le_of_mem_run hw
      rw [hpos] at hle
      exact hle

/-- An offset lies in one visit at most. -/
theorem eq_of_mem_run (hv : v ∈ s.run h) (hw : w ∈ s.run h) {offset : Nat}
    (hvo : v.start ≤ offset ∧ offset < v.stop) (hwo : w.start ≤ offset ∧ offset < w.stop) :
    v = w := by
  apply List.Pairwise.forall_of_forall_of_flip (R := fun v w : Visit src =>
    (v.start ≤ offset ∧ offset < v.stop) → (w.start ≤ offset ∧ offset < w.stop) → v = w)
    (l := s.run h) _ _ _ hv hw hvo hwo
  · intro v _ _ _
    rfl
  · exact (run_pairwise s h).imp (fun hle ha hb => by omega)
  · exact (run_pairwise s h).imp (fun hle ha hb => by omega)

/-- Behind a visit the run goes on as that of the next scanner. -/
theorem exists_run_of_mem (hv : v ∈ s.run h) :
    v.start < src.size ∧ ∃ s' : Scanner src, v.scanner.next = .ok (v.lexeme, s') ∧
      ∃ h' : s'.pos ≤ src.size, ∀ w ∈ s'.run h', w ∈ s.run h := by
  fun_induction run s h with
  | case1 s h hend => cases hv
  | case2 s h hend ih =>
      rcases List.mem_cons.mp hv with rfl | hrest
      · refine ⟨Nat.lt_of_le_of_ne h hend, _, (s.step h).property, (step_within h).pos_le, ?_⟩
        intro w hw
        exact List.mem_cons_of_mem _ hw
      · obtain ⟨hlt, s', hnext, h', hmem⟩ := ih hrest
        exact ⟨hlt, s', hnext, h', fun w hw => List.mem_cons_of_mem _ (hmem w hw)⟩

/-- A visit is at least one byte long. -/
theorem start_lt_stop_of_mem_run (hv : v ∈ s.run h) : v.start < v.stop := by
  obtain ⟨hlt, s', hnext, -⟩ := exists_run_of_mem hv
  have hwithin := (next_yields (Nat.le_of_lt hlt)).of_eq_ok hnext
  have hlen := hwithin.length_pos (fun hfinish => Nat.ne_of_lt hlt (hwithin.finish_iff.mp hfinish))
  exact Nat.lt_add_of_pos_right hlen

end Scanner

end CssTokens
