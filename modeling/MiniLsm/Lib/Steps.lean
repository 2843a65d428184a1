import Mathlib.Data.List.Induction

/-!
# Runs of a step function

A system is a function that takes a step from a state, where the step can be taken. `Steps` are its
runs from a state in which every step has a given property. An invariant of the steps is one of the
runs (`Steps.invariant`), a map that the steps commute with takes runs to runs (`Steps.map_iff`), and
a run of given steps is found by taking them (`Steps.of_exec`).
-/

namespace MiniLsm

/-- The states that the steps of a system lead to from `s₀`, each step with the property `P`. -/
inductive Steps {S A : Type} (step : S → A → Option S) (P : S → A → Prop) (s₀ : S) :
    List A → S → Prop
  | refl : Steps step P s₀ [] s₀
  | snoc {as : List A} {s s' : S} {a : A} : Steps step P s₀ as s → P s a → step s a = some s' →
      Steps step P s₀ (as ++ [a]) s'

namespace Steps

variable {S A : Type} {step : S → A → Option S} {P : S → A → Prop} {s₀ s : S} {as : List A}

/-- What holds at first and is kept by every step holds in every state of a run. -/
theorem invariant {I : S → Prop} (hinit : I s₀)
    (hstep : ∀ s a s', I s → P s a → step s a = some s' → I s') (h : Steps step P s₀ as s) :
    I s := by
  induction h with
  | refl => exact hinit
  | snoc _ hP hs ih => exact hstep _ _ _ ih hP hs

/-- A run whose steps have another property in every state that an invariant allows. -/
theorem imp {I : S → Prop} {Q : S → A → Prop} (hinit : I s₀)
    (hstep : ∀ s a s', I s → Q s a → step s a = some s' → I s')
    (hP : ∀ s a, I s → Q s a → P s a) (h : Steps step Q s₀ as s) : Steps step P s₀ as s := by
  induction h with
  | refl => exact .refl
  | snoc hrun hQ hs ih => exact ih.snoc (hP _ _ (invariant hinit hstep hrun) hQ) hs

/-- A run goes on with another one. -/
theorem append {bs : List A} {s' : S} (h : Steps step P s₀ as s) (h' : Steps step P s bs s') :
    Steps step P s₀ (as ++ bs) s' := by
  induction h' with
  | refl => rwa [List.append_nil]
  | snoc _ hP hs ih =>
    rw [← List.append_assoc]
    exact ih.snoc hP hs

/-- The last step of a run. -/
theorem of_concat {a : A} (h : Steps step P s₀ (as ++ [a]) s) :
    ∃ t, Steps step P s₀ as t ∧ P t a ∧ step t a = some s := by
  generalize hbs : as ++ [a] = bs at h
  cases h with
  | refl => simp at hbs
  | snoc h hP hs =>
    obtain ⟨rfl, hb⟩ := List.append_inj' hbs rfl
    obtain rfl := List.singleton_inj.mp hb
    exact ⟨_, h, hP, hs⟩

/-- A part of a run from its start is a run. -/
theorem of_append {bs : List A} (h : Steps step P s₀ (as ++ bs) s) :
    ∃ t, Steps step P s₀ as t := by
  induction bs using List.reverseRecOn generalizing s with
  | nil => exact ⟨s, List.append_nil as ▸ h⟩
  | append_singleton bs b ih =>
    rw [← List.append_assoc] at h
    obtain ⟨t, h, -, -⟩ := of_concat h
    exact ih h

/-- Where a map of the states takes the steps of a system to those of another one, it takes the runs
of the one to the runs of the other, and there are no others. -/
theorem map_iff {S' : Type} {step' : S' → A → Option S'} {P' : S' → A → Prop} {f : S → S'}
    (hstep : ∀ s a, step' (f s) a = (step s a).map f) {t : S'} :
    Steps step' P' (f s₀) as t ↔ ∃ s, Steps step (fun s a => P' (f s) a) s₀ as s ∧ f s = t := by
  constructor
  · intro h
    induction h with
    | refl => exact ⟨s₀, .refl, rfl⟩
    | snoc _ hP hs ih =>
      obtain ⟨s, hrun, rfl⟩ := ih
      rw [hstep] at hs
      obtain ⟨s', hs', rfl⟩ := Option.map_eq_some_iff.mp hs
      exact ⟨s', hrun.snoc hP hs', rfl⟩
  · rintro ⟨s, h, rfl⟩
    induction h with
    | refl => exact .refl
    | snoc _ hP hs ih => exact ih.snoc hP (by rw [hstep, hs, Option.map_some])

/-- The state after some steps, if they can be taken and have the property `p`. -/
def exec (step : S → A → Option S) (p : S → A → Bool) (s : S) : List A → Option S
  | [] => some s
  | a :: as => if p s a then (step s a).bind fun s' => exec step p s' as else none

/-- Steps that can be taken after a run continue it. -/
theorem append_exec {p : S → A → Bool} (hp : ∀ s a, p s a = true → P s a) {bs : List A} {s' : S}
    (h : Steps step P s₀ as s) (hexec : exec step p s bs = some s') :
    Steps step P s₀ (as ++ bs) s' := by
  induction bs generalizing s as with
  | nil =>
    rw [exec, Option.some.injEq] at hexec
    rwa [List.append_nil, ← hexec]
  | cons b bs ih =>
    rw [exec] at hexec
    split_ifs at hexec with hb
    obtain ⟨t, ht, hexec⟩ := Option.bind_eq_some_iff.mp hexec
    have hrun := ih (h.snoc (hp s b hb) ht) hexec
    rwa [List.append_assoc, List.singleton_append] at hrun

/-- A run is found by taking its steps, and has what is checked of its last state. -/
theorem of_exec {p : S → A → Bool} (hp : ∀ s a, p s a = true → P s a) {q : S → Bool}
    (h : (exec step p s₀ as).any q = true) : ∃ s, Steps step P s₀ as s ∧ q s = true := by
  rcases hexec : exec step p s₀ as with _ | s
  · rw [hexec] at h
    cases h
  · rw [hexec] at h
    exact ⟨s, append_exec hp .refl hexec, h⟩

end Steps

end MiniLsm
