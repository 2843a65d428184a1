import Mathlib

/-!
# Recency

A history lists the key that each operation on a store has used, where it has used one. `Recent`
says that a list of keys has the most recently used key first. It is kept by moving the used key to
the front (`Recent.touch`) and by dropping keys, and the last key of such a list is the one whose
last use is the oldest (`Recent.usedBefore_last`).
-/

namespace Recency

variable {K : Type*}

/-- `b` has been used after every use of `a`. -/
def UsedBefore (uses : List (Option K)) (a b : K) : Prop :=
  ∃ j : ℕ, uses[j]? = some (some b) ∧ ∀ i : ℕ, uses[i]? = some (some a) → i < j

/-- The keys are in the order of their last uses, with the most recently used one first. -/
def Recent (uses : List (Option K)) (ks : List K) : Prop :=
  ks.Pairwise fun a b => UsedBefore uses b a

variable {uses : List (Option K)} {ks ks' : List K} {a b k : K}

/-- A key is not used before itself. -/
theorem UsedBefore.ne (h : UsedBefore uses a b) : a ≠ b := by
  rintro rfl
  obtain ⟨j, hj, hlt⟩ := h
  exact lt_irrefl j (hlt j hj)

/-- The use of another key, or of none, does not change which key was used last. -/
theorem UsedBefore.concat (h : UsedBefore uses a b) {use : Option K} (huse : use ≠ some a) :
    UsedBefore (uses ++ [use]) a b := by
  obtain ⟨j, hj, hlt⟩ := h
  have hjlt : j < uses.length := (List.getElem?_eq_some_iff.mp hj).1
  refine ⟨j, by rwa [List.getElem?_append_left hjlt], fun i hi => ?_⟩
  rcases lt_or_ge i uses.length with hlen | hlen
  · rw [List.getElem?_append_left hlen] at hi
    exact hlt i hi
  · -- The last use is not one of `a`.
    rw [List.getElem?_append_right hlen] at hi
    have hmem : some a ∈ [use] := List.mem_of_getElem? hi
    exact absurd (List.mem_singleton.mp hmem).symm huse

/-- The key that is used now is used after every other key. -/
theorem usedBefore_concat (h : a ≠ b) : UsedBefore (uses ++ [some b]) a b := by
  refine ⟨uses.length, by simp, fun i hi => ?_⟩
  have hle : i < (uses ++ [some b]).length := (List.getElem?_eq_some_iff.mp hi).1
  rw [List.length_append, List.length_singleton] at hle
  by_contra hge
  obtain rfl : i = uses.length := by omega
  rw [List.getElem?_concat_length, Option.some.injEq, Option.some.injEq] at hi
  exact h hi.symm

namespace Recent

/-- A list in the order of last uses has each key once. -/
theorem nodup (h : Recent uses ks) : ks.Nodup :=
  List.Pairwise.imp (fun hab => hab.ne.symm) h

/-- Leaving keys out does not change the order of the others. -/
theorem sublist (h : Recent uses ks) (hs : ks'.Sublist ks) : Recent uses ks' :=
  List.Pairwise.sublist hs h

/-- An operation that uses none of the keys. -/
theorem concat (h : Recent uses ks) {use : Option K} (huse : ∀ a ∈ ks, use ≠ some a) :
    Recent (uses ++ [use]) ks :=
  List.Pairwise.imp_of_mem (fun _ hb hab => hab.concat (huse _ hb)) h

/-- The used key comes to the front. -/
theorem cons (h : Recent uses ks) (hk : k ∉ ks) : Recent (uses ++ [some k]) (k :: ks) := by
  have hne : ∀ a ∈ ks, a ≠ k := fun a ha hak => hk (hak ▸ ha)
  refine List.pairwise_cons.mpr ⟨fun a ha => usedBefore_concat (hne a ha), ?_⟩
  exact h.concat fun a ha heq => hne a ha (Option.some_inj.mp heq).symm

/-- The used key moves from its place to the front. -/
theorem touch [DecidableEq K] (h : Recent uses ks) (k : K) :
    Recent (uses ++ [some k]) (k :: ks.filter fun a => a ≠ k) :=
  (h.sublist List.filter_sublist).cons (by simp)

/-- The last of the keys is the one whose last use is the oldest. -/
theorem usedBefore_last (h : Recent uses ks) (hlast : ks.getLast? = some k) (ha : a ∈ ks)
    (hne : a ≠ k) : UsedBefore uses k a := by
  obtain ⟨init, rfl⟩ := List.getLast?_eq_some_iff.mp hlast
  have hinit : a ∈ init := by simpa [hne] using ha
  exact (List.pairwise_append.mp h).2.2 a hinit k (List.mem_singleton_self k)

end Recent

end Recency
