import MiniLsm.Lib.Assoc

/-!
# Cursors over key-value sequences

A cursor stands at an entry or past the end, shows the entry it stands at, and moves to the next
one, which may fail. `Yields it l` says that a cursor shows exactly the entries of `l`, one after
the other, and then ends; every move on the way succeeds. `bound` is a number that the cursor's
state gives for the entries still to come, by which loops over cursors are cut off; `Yields`
includes that it is large enough.

`entries` is the sequence of a cursor that yields one (`Good`), as a function.
-/

/-- The operations of a cursor. -/
class Cursor (ι : Type) (K V ε : outParam Type) where
  /-- The cursor stands at an entry. -/
  isValid : ι → Bool
  /-- The key of the entry. -/
  key : ι → K
  /-- The value of the entry. -/
  value : ι → V
  /-- The cursor at the next entry, or the failure of the move. -/
  next : ι → Except ε ι
  /-- A number of entries at least as large as that of the entries still to come. -/
  bound : ι → ℕ

namespace Cursor

variable {ι K V ε : Type} [Cursor ι K V ε]

/-- The cursor shows the entries of the list in order and then ends. -/
inductive Yields : ι → List (K × V) → Prop
  | nil {it : ι} : isValid it = false → Yields it []
  | cons {it it' : ι} {l : List (K × V)} : isValid it = true → next it = .ok it' →
      l.length < bound it → Yields it' l → Yields it ((key it, value it) :: l)

/-- A cursor that yields nothing is past the end. -/
theorem Yields.isValid_nil {it : ι} (h : Yields it []) : isValid it = false := by
  cases h with
  | nil h => exact h

/-- A cursor that yields an entry stands at it, and moves to a cursor that yields the rest. -/
theorem Yields.isValid_cons {it : ι} {p : K × V} {l : List (K × V)} (h : Yields it (p :: l)) :
    isValid it = true ∧ key it = p.1 ∧ value it = p.2 ∧ l.length < bound it ∧
      ∃ it', next it = .ok it' ∧ Yields it' l := by
  cases h with
  | cons hv hn hb hy => exact ⟨hv, rfl, rfl, hb, _, hn, hy⟩

/-- A cursor that stands at `p` and moves to a cursor that yields `l` yields `p :: l`. -/
theorem Yields.cons_of {it it' : ι} {p : K × V} {l : List (K × V)} (hv : isValid it = true)
    (hk : key it = p.1) (hw : value it = p.2) (hn : next it = .ok it') (hb : l.length < bound it)
    (hy : Yields it' l) : Yields it (p :: l) := by
  have := Yields.cons hv hn hb hy
  rwa [hk, hw] at this

/-- A cursor yields one sequence only. -/
theorem Yields.unique {it : ι} {l l' : List (K × V)} (h : Yields it l) (h' : Yields it l') :
    l = l' := by
  induction h generalizing l' with
  | nil hv =>
    cases h' with
    | nil => rfl
    | cons hv' => simp [hv] at hv'
  | cons hv hn _ _ ih =>
    cases h' with
    | nil hv' => simp [hv] at hv'
    | cons _ hn' _ hy' =>
      rw [hn] at hn'
      cases hn'
      rw [ih hy']

/-- The bound of a cursor counts at least the entries it yields. -/
theorem Yields.length_le {it : ι} {l : List (K × V)} (h : Yields it l) : l.length ≤ bound it := by
  cases h with
  | nil => exact Nat.zero_le _
  | cons _ _ hb _ => exact hb

/-- The cursor yields some sequence. -/
def Good (it : ι) : Prop := ∃ l, Yields it l

open Classical in
/-- The sequence that the cursor yields, if it yields one. -/
noncomputable def entries (it : ι) : List (K × V) :=
  if h : Good it then h.choose else []

/-- A good cursor yields its entries. -/
theorem Good.yields {it : ι} (h : Good it) : Yields it (entries it) := by
  rw [entries, dif_pos h]
  exact h.choose_spec

theorem Yields.good {it : ι} {l : List (K × V)} (h : Yields it l) : Good it := ⟨l, h⟩

theorem Yields.entries_eq {it : ι} {l : List (K × V)} (h : Yields it l) : entries it = l :=
  h.good.yields.unique h

/-- A good cursor stands at an entry exactly when it has entries left. -/
theorem Good.isValid_iff {it : ι} (h : Good it) : isValid it = true ↔ entries it ≠ [] := by
  have hy := h.yields
  rcases hl : entries it with _ | ⟨p, l⟩
  · rw [hl] at hy
    simp [hy.isValid_nil]
  · rw [hl] at hy
    simp [hy.isValid_cons.1]

/-- A good cursor at an entry shows the first of its entries and moves to a good cursor on the
others. -/
theorem Good.step {it : ι} (h : Good it) (hv : isValid it = true) :
    ∃ it' l, next it = .ok it' ∧ Good it' ∧ entries it' = l ∧
      entries it = (key it, value it) :: l := by
  have hy := h.yields
  rcases hl : entries it with _ | ⟨p, l⟩
  · exact absurd hl (h.isValid_iff.mp hv)
  · rw [hl] at hy
    obtain ⟨-, hk, hw, -, it', hn, hy'⟩ := hy.isValid_cons
    exact ⟨it', l, hn, hy'.good, hy'.entries_eq, by rw [hk, hw]⟩

end Cursor
