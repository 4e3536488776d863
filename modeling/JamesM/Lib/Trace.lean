/-
  JamesM.Lib.Trace — finite runs of a transition system, and the rules for them.

  A run from `s` is the list of its operations, each with the state it led to.
  `Trace step s tr` says that every step is one of `step`; `Along C s tr` says that
  every step meets the condition `C` on the state BEFORE it and the operation.

    * `Trace.refine` — the invariant rule: if every step that meets `C` keeps `I`
      and has the effect `R`, so does every run whose steps all meet `C`;
    * `Trace.reached` — the same for the states of the run, the first one included;
    * `Trace.all_iff` — the exact rule: if moreover a step that misses `C` always
      leaves a state without `P`, then `P` holds along a run IF AND ONLY IF all its
      steps meet `C`;
    * `Trace.along_iff`, `Trace.final_iff` — the same for two conditions on the
      steps, and for the last state alone.
-/
import Mathlib.Tactic

namespace JamesM.Lib

variable {σ ο : Type}

/-- Every step of the run is a step of the system. -/
def Trace (step : σ → ο → σ → Prop) : σ → List (ο × σ) → Prop
  | _, [] => True
  | s, (o, s') :: tr => step s o s' ∧ Trace step s' tr

/-- Every step of the run meets `C`. -/
def Along (C : σ → ο → Prop) : σ → List (ο × σ) → Prop
  | _, [] => True
  | s, (o, s') :: tr => C s o ∧ Along C s' tr

/-- A condition that always holds. -/
theorem along_true (s : σ) (tr : List (ο × σ)) : Along (fun _ _ => True) s tr := by
  induction tr generalizing s with
  | nil => trivial
  | cons x tr ih => exact ⟨trivial, ih x.2⟩

/-- A run whose steps all meet a condition is a run of the system with that condition. -/
theorem Trace.and_along {step : σ → ο → σ → Prop} {C : σ → ο → Prop} : ∀ {tr : List (ο × σ)} {s : σ},
    Trace step s tr → Along C s tr → Trace (fun s o s' => step s o s' ∧ C s o) s tr
  | [], _, _, _ => trivial
  | (_, _) :: _, _, ⟨hs, htr⟩, ⟨hc, hal⟩ => ⟨⟨hs, hc⟩, Trace.and_along htr hal⟩

/-- **The invariant rule.** -/
theorem Trace.refine {step R : σ → ο → σ → Prop} {C : σ → ο → Prop} {I : σ → Prop}
    (hstep : ∀ s o s', I s → C s o → step s o s' → I s' ∧ R s o s') :
    ∀ {tr : List (ο × σ)} {s : σ}, I s → Trace step s tr → Along C s tr →
      (∀ x ∈ tr, I x.2) ∧ Trace R s tr
  | [], _, _, _, _ => ⟨by simp, trivial⟩
  | (o, s') :: tr, s, h0, ⟨hs, htr⟩, ⟨hc, hal⟩ => by
      obtain ⟨hinv, hR⟩ := hstep s o s' h0 hc hs
      obtain ⟨hall, hRs⟩ := Trace.refine hstep hinv htr hal
      refine ⟨fun x hx => ?_, hR, hRs⟩
      rcases List.mem_cons.mp hx with rfl | hx
      · exact hinv
      · exact hall x hx

/-- The states of the run. -/
def Reached (s : σ) (tr : List (ο × σ)) (x : σ) : Prop := x = s ∨ ∃ o, (o, x) ∈ tr

/-- The last state of the run. -/
def final (s : σ) : List (ο × σ) → σ
  | [] => s
  | (_, s') :: tr => final s' tr

theorem reached_final (s : σ) (tr : List (ο × σ)) : Reached s tr (final s tr) := by
  induction tr generalizing s with
  | nil => exact .inl rfl
  | cons x tr ih =>
      obtain ⟨o, s'⟩ := x
      right
      rcases ih s' with h | ⟨o', h⟩
      · exact ⟨o, by rw [final, h]; exact List.mem_cons_self⟩
      · exact ⟨o', List.mem_cons_of_mem _ h⟩

/-- The invariant in every state of the run. -/
theorem Trace.reached {step R : σ → ο → σ → Prop} {C : σ → ο → Prop} {I : σ → Prop}
    (hstep : ∀ s o s', I s → C s o → step s o s' → I s' ∧ R s o s') {tr : List (ο × σ)} {s x : σ}
    (h0 : I s) (htr : Trace step s tr) (hal : Along C s tr) (hx : Reached s tr x) : I x := by
  rcases hx with rfl | ⟨o, hx⟩
  · exact h0
  · exact (Trace.refine hstep h0 htr hal).1 (o, x) hx

/-- **The exact rule.** -/
theorem Trace.all_iff {step : σ → ο → σ → Prop} {C : σ → ο → Prop} {I P : σ → Prop}
    (hP : ∀ s, I s → P s)
    (hgood : ∀ s o s', I s → C s o → step s o s' → I s')
    (hbad : ∀ s o s', I s → ¬ C s o → step s o s' → ¬ P s') :
    ∀ {tr : List (ο × σ)} {s : σ}, I s → Trace step s tr →
      ((∀ x ∈ tr, P x.2) ↔ Along C s tr)
  | [], _, _, _ => ⟨fun _ => trivial, fun _ => by simp⟩
  | (o, s') :: tr, s, h0, ⟨hs, htr⟩ => by
      constructor
      · intro hall
        have hc : C s o := by
          by_contra hc
          exact hbad s o s' h0 hc hs (hall (o, s') List.mem_cons_self)
        exact ⟨hc, (Trace.all_iff hP hgood hbad (hgood s o s' h0 hc hs) htr).mp
          fun x hx => hall x (List.mem_cons_of_mem _ hx)⟩
      · rintro ⟨hc, hal⟩ x hx
        have hinv := hgood s o s' h0 hc hs
        rcases List.mem_cons.mp hx with rfl | hx
        · exact hP _ hinv
        · exact (Trace.all_iff hP hgood hbad hinv htr).mpr hal x hx

/-- **The exact rule for steps.**  Under an invariant, two conditions that agree on each step agree on
    the run. -/
theorem Trace.along_iff {step : σ → ο → σ → Prop} {C D : σ → ο → Prop} {I : σ → Prop}
    (hkeep : ∀ s o s', I s → step s o s' → I s')
    (hiff : ∀ s o s', I s → step s o s' → (C s o ↔ D s o)) :
    ∀ {tr : List (ο × σ)} {s : σ}, I s → Trace step s tr → (Along C s tr ↔ Along D s tr)
  | [], _, _, _ => Iff.rfl
  | (o, s') :: _, s, h0, ⟨hs, htr⟩ =>
      and_congr (hiff s o s' h0 hs) (Trace.along_iff hkeep hiff (hkeep s o s' h0 hs) htr)

/-- A property that no step gives back is lost for the rest of the run. -/
theorem Trace.not_final {step : σ → ο → σ → Prop} {I P : σ → Prop}
    (hlost : ∀ s o s', I s → step s o s' → I s' ∧ (¬ P s → ¬ P s')) :
    ∀ {tr : List (ο × σ)} {s : σ}, I s → ¬ P s → Trace step s tr → ¬ P (final s tr)
  | [], _, _, hP, _ => hP
  | (o, s') :: tr, s, h0, hP, ⟨hs, htr⟩ => by
      obtain ⟨hinv, hnot⟩ := hlost s o s' h0 hs
      show ¬ P (final s' tr)
      exact Trace.not_final hlost hinv (hnot hP) htr

/-- **The exact rule for the last state.**  If no step gives `P` back, and a step keeps it exactly if
    it meets `C`, then the last state has `P` exactly if all steps meet `C`. -/
theorem Trace.final_iff {step : σ → ο → σ → Prop} {C : σ → ο → Prop} {I P : σ → Prop}
    (hlost : ∀ s o s', I s → step s o s' → I s' ∧ (¬ P s → ¬ P s'))
    (hkeep : ∀ s o s', I s → step s o s' → P s → (P s' ↔ C s o)) :
    ∀ {tr : List (ο × σ)} {s : σ}, I s → P s → Trace step s tr → (P (final s tr) ↔ Along C s tr)
  | [], _, _, hP, _ => iff_of_true hP trivial
  | (o, s') :: tr, s, h0, hP, ⟨hs, htr⟩ => by
      have hinv := (hlost s o s' h0 hs).1
      show P (final s' tr) ↔ _
      by_cases hc : C s o
      · have hP' := (hkeep s o s' h0 hs hP).mpr hc
        exact (Trace.final_iff hlost hkeep hinv hP' htr).trans (and_iff_right hc).symm
      · have hP' : ¬ P s' := fun h => hc ((hkeep s o s' h0 hs hP).mp h)
        exact iff_of_false (Trace.not_final hlost hinv hP' htr) fun h => hc h.1

end JamesM.Lib
