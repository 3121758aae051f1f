import Mathlib.Data.List.Infix
import Mathlib.Tactic.Tauto

/-!
# The topmost of a set of paths

`Topmost P p` says that `p` is in the set and no proper prefix of it is. Every path of the set lies below just one that
is topmost (`exists_topmost`, `Topmost.eq`). One more path in the set changes nothing where another one is above it
(`topmost_insert_of_covered`); otherwise it takes the place of all that are topmost below it (`topmost_insert`).
-/

universe u

variable {K : Type u} {P : List K → Prop} {p q path : List K}

def Topmost (P : List K → Prop) (p : List K) : Prop := P p ∧ ∀ q, q <+: p → q ≠ p → ¬ P q

theorem exists_topmost (h : P p) : ∃ q, q <+: p ∧ Topmost P q := by
  induction hn : p.length using Nat.strong_induction_on generalizing p with
  | _ n ih =>
    by_cases habove : ∃ q, q <+: p ∧ q ≠ p ∧ P q
    · obtain ⟨q, hq, hne, hP⟩ := habove
      have hlt : q.length < n := hn ▸ lt_of_le_of_ne hq.length_le fun heq => hne (hq.eq_of_length heq)
      obtain ⟨r, hr, htop⟩ := ih q.length hlt hP rfl
      exact ⟨r, hr.trans hq, htop⟩
    · exact ⟨p, List.prefix_refl p, h, fun q hq hne hP => habove ⟨q, hq, hne, hP⟩⟩

theorem Topmost.eq (hp : Topmost P p) (hq : Topmost P q) (h : p <+: path) (h' : q <+: path) : p = q := by
  rcases List.prefix_or_prefix_of_prefix h h' with hpq | hqp
  · by_contra hne
    exact hq.2 p hpq hne hp.1
  · by_contra hne
    exact hp.2 q hqp (Ne.symm hne) hq.1

theorem topmost_insert_of_covered (hcovered : ∃ r, r <+: path ∧ P r) (hpath : ¬ P path) :
    Topmost (fun q => q = path ∨ P q) q ↔ Topmost P q := by
  obtain ⟨r, hr, hPr⟩ := hcovered
  have hrne : r ≠ path := fun h => hpath (h ▸ hPr)
  constructor
  · rintro ⟨hq, habove⟩
    have hne : q ≠ path := fun heq => habove r (heq ▸ hr) (heq ▸ hrne) (Or.inr hPr)
    exact ⟨hq.resolve_left hne, fun s hs hsq hPs => habove s hs hsq (Or.inr hPs)⟩
  · rintro ⟨hq, habove⟩
    refine ⟨Or.inr hq, fun s hs hsq hPs => ?_⟩
    rcases hPs with rfl | hPs
    · -- what covers the path is above, too
      refine habove r (hr.trans hs) (fun heq => ?_) hPr
      exact hsq (hs.eq_of_length (le_antisymm hs.length_le (heq ▸ hr.length_le)))
    · exact habove s hs hsq hPs

theorem topmost_insert (hcovered : ¬ ∃ r, r <+: path ∧ P r) :
    Topmost (fun q => q = path ∨ P q) q ↔ q = path ∨ (Topmost P q ∧ ¬ path <+: q) := by
  constructor
  · rintro ⟨hq, habove⟩
    by_cases hne : q = path
    · exact Or.inl hne
    · refine Or.inr ⟨⟨hq.resolve_left hne, fun s hs hsq hPs => habove s hs hsq (Or.inr hPs)⟩, fun hpq => ?_⟩
      exact habove path hpq (Ne.symm hne) (Or.inl rfl)
  · rintro (rfl | ⟨⟨hq, habove⟩, hpq⟩)
    · refine ⟨Or.inl rfl, fun s hs hne hPs => ?_⟩
      rcases hPs with rfl | hPs
      · exact hne rfl
      · exact hcovered ⟨s, hs, hPs⟩
    · refine ⟨Or.inr hq, fun s hs hsq hPs => ?_⟩
      rcases hPs with rfl | hPs
      · exact hpq hs
      · exact habove s hs hsq hPs

/-- With nothing above the path, the topmost below it are those with nothing in between. -/
theorem topmost_append (hcovered : ¬ ∃ r, r <+: path ∧ P r) :
    Topmost P (path ++ q) ↔ P (path ++ q) ∧ ∀ s, s <+: q → s ≠ q → s ≠ [] → ¬ P (path ++ s) := by
  refine and_congr_right fun _ => ⟨fun habove s hs hne _ => ?_, fun hbetween r hr hne hPr => ?_⟩
  · exact habove _ ((List.prefix_append_right_inj path).2 hs) fun heq => hne (List.append_cancel_left heq)
  · rcases List.prefix_or_prefix_of_prefix hr (List.prefix_append path q) with hrp | hpr
    · exact hcovered ⟨r, hrp, hPr⟩
    · obtain ⟨s, rfl⟩ := hpr
      by_cases hs : s = []
      · rw [hs, List.append_nil] at hPr
        exact hcovered ⟨path, List.prefix_refl _, hPr⟩
      · exact hbetween s ((List.prefix_append_right_inj path).1 hr) (fun heq => hne (heq ▸ rfl)) hs hPr
