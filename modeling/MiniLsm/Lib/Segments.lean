import MiniLsm.Lib.Assoc

/-!
# Segmented logs

Writes to a map are appended to a log, which is kept in segments. A new segment may be begun at any
time, and the oldest one may be moved into the map underneath. A part of each segment is durable. A
crash keeps the durable part of every segment, and any number of the writes behind it.

A read returns the value of the last write, as long as nothing is lost (`Trace.value_eq`). What a
crash may leave of a key is a `Candidate` for its value. Later steps that do not write the key add
no candidates (`Trace.candidate`): however many crashes there are, the key is read as one crash
might have left it. A key with no pending write has one candidate (`Candidate.eq_value`).
-/

namespace SegmentedLog

variable {K V : Type*} [LinearOrder K]

/-- The value of the last write of a key. -/
def lastValue (ws : List (K × V)) (k : K) : Option V := Assoc.lookup k ws.reverse

/-- A segment: the writes that a crash keeps, and those behind them. -/
structure Segment (K V : Type*) where
  durable : List (K × V)
  pending : List (K × V)

/-- The segments, the newest first, and the map underneath. -/
structure Log (K V : Type*) where
  segments : List (Segment K V)
  base : K → V

/-- What is seen of a step. -/
inductive Event (K V : Type*) where
  | write (key : K) (value : V)
  | crash

namespace Segment

/-- The writes, the oldest first. -/
def writes (s : Segment K V) : List (K × V) := s.durable ++ s.pending

/-- A crash may leave `s'` of `s`. -/
def Survives (s s' : Segment K V) : Prop := ∃ n, s' = ⟨s.durable ++ s.pending.take n, []⟩

omit [LinearOrder K] in
/-- A crash may keep everything. -/
theorem survives_all (s : Segment K V) : s.Survives ⟨s.writes, []⟩ :=
  ⟨s.pending.length, by rw [List.take_length, writes]⟩

omit [LinearOrder K] in
/-- A second crash changes nothing. -/
theorem Survives.eq_of_survives {s t u : Segment K V} (h : s.Survives t) (h' : t.Survives u) :
    u = t := by
  obtain ⟨n, rfl⟩ := h
  obtain ⟨m, rfl⟩ := h'
  rw [List.take_nil, List.append_nil]

omit [LinearOrder K] in
/-- Of a segment without pending writes, all is kept. -/
theorem Survives.eq_of_durable {ws : List (K × V)} {t : Segment K V}
    (h : Survives ⟨ws, []⟩ t) : t = ⟨ws, []⟩ := by
  obtain ⟨n, rfl⟩ := h
  rw [List.take_nil, List.append_nil]

end Segment

open Segment (Survives)

/-- The value of the last write that is in the log, or the one underneath. -/
def Log.value (a : Log K V) (k : K) : V :=
  (a.segments.findSome? fun s => lastValue s.writes k).getD (a.base k)

/-- A step, with what is seen of it. -/
inductive Step : Log K V → Option (Event K V) → Log K V → Prop
  /-- A write goes to the newest segment. -/
  | write (s : Segment K V) (B : List (Segment K V)) (base : K → V) (k : K) (v : V) :
    Step ⟨s :: B, base⟩ (some (.write k v)) ⟨⟨s.durable, s.pending ++ [(k, v)]⟩ :: B, base⟩
  /-- A new segment. -/
  | rotate (A : List (Segment K V)) (base : K → V) : Step ⟨A, base⟩ none ⟨⟨[], []⟩ :: A, base⟩
  /-- The oldest segment moves into the map underneath. -/
  | settle (A : List (Segment K V)) (s : Segment K V) (base : K → V) :
    Step ⟨A ++ [s], base⟩ none ⟨A, fun k => (lastValue s.writes k).getD (base k)⟩
  /-- The pending writes of a segment become durable. -/
  | pass (A : List (Segment K V)) (s : Segment K V) (B : List (Segment K V)) (base : K → V) :
    Step ⟨A ++ s :: B, base⟩ none ⟨A ++ ⟨s.writes, []⟩ :: B, base⟩
  /-- A segment without writes is dropped. -/
  | drop (A : List (Segment K V)) (s : Segment K V) (B : List (Segment K V)) (base : K → V) :
    s.writes = [] → Step ⟨A ++ s :: B, base⟩ none ⟨A ++ B, base⟩
  | crash {A B : List (Segment K V)} (base : K → V) : List.Forall₂ Survives A B →
    Step ⟨A, base⟩ (some .crash) ⟨B, base⟩

/-- A run, with what is seen of its steps. -/
inductive Trace (a : Log K V) : List (Event K V) → Log K V → Prop
  | refl : Trace a [] a
  | silent {es : List (Event K V)} {b c : Log K V} : Trace a es b → Step b none c → Trace a es c
  | visible {es : List (Event K V)} {b c : Log K V} {e : Event K V} : Trace a es b →
    Step b (some e) c → Trace a (es ++ [e]) c

/-- A value of a key that a crash may leave. -/
def Candidate (a : Log K V) (k : K) (v : V) : Prop :=
  ∃ B, List.Forall₂ Survives a.segments B ∧ Log.value ⟨B, a.base⟩ k = v

variable {ws ws' : List (K × V)} {a b c : Log K V} {k : K} {v : V}

/-! ## Runs -/

theorem Trace.append {es es' : List (Event K V)} (h : Trace a es b) (h' : Trace b es' c) :
    Trace a (es ++ es') c := by
  induction h' with
  | refl => rwa [List.append_nil]
  | silent _ hstep ih => exact ih.silent hstep
  | visible _ hstep ih =>
    rw [← List.append_assoc]
    exact ih.visible hstep

/-- A run of a step that is not seen. -/
theorem Step.silent (h : Step a none b) : Trace a [] b := Trace.refl.silent h

/-- A run of a step that is seen. -/
theorem Step.visible {e : Event K V} (h : Step a (some e) b) : Trace a [e] b := Trace.refl.visible h

/-- All pending writes may become durable. -/
theorem trace_pass (A B : List (Segment K V)) (base : K → V) :
    Trace ⟨A ++ B, base⟩ [] ⟨A ++ B.map fun s => ⟨s.writes, []⟩, base⟩ := by
  induction B generalizing A with
  | nil => exact .refl
  | cons s B ih =>
    have h := ih (A ++ [⟨s.writes, []⟩])
    rw [List.append_assoc, List.append_assoc] at h
    exact (Step.pass A s B base).silent.append h

/-- All segments without writes may be dropped. -/
theorem trace_drop (A B : List (Segment K V)) (base : K → V) :
    Trace ⟨A ++ B, base⟩ [] ⟨A ++ B.filter fun s => !s.writes.isEmpty, base⟩ := by
  induction B generalizing A with
  | nil => exact .refl
  | cons s B ih =>
    rcases hs : s.writes.isEmpty with _ | _
    · have h := ih (A ++ [s])
      rw [List.append_assoc, List.append_assoc] at h
      rwa [List.filter_cons_of_pos (by simp [hs])]
    · rw [List.filter_cons_of_neg (by simp [hs])]
      exact (Step.drop A s B base (List.isEmpty_iff.mp hs)).silent.append (ih A)

/-! ## Values -/

theorem lastValue_append (ws ws' : List (K × V)) (k : K) :
    lastValue (ws ++ ws') k = (lastValue ws' k).or (lastValue ws k) := by
  rw [lastValue, List.reverse_append, Assoc.lookup_append]
  rfl

theorem lastValue_concat (ws : List (K × V)) (e : K × V) (k : K) :
    lastValue (ws ++ [e]) k = if e.1 = k then some e.2 else lastValue ws k := by
  rw [lastValue, List.reverse_append, List.reverse_singleton, List.singleton_append,
    Assoc.lookup_cons]
  rfl

theorem lastValue_eq_none_iff : lastValue ws k = none ↔ ∀ e ∈ ws, e.1 ≠ k := by
  rw [lastValue, Assoc.lookup_eq_none_iff]
  simp only [List.mem_reverse]

/-- Writes of other keys are not seen. -/
theorem lastValue_append_of_ne (h : ∀ e ∈ ws', e.1 ≠ k) :
    lastValue (ws ++ ws') k = lastValue ws k := by
  rw [lastValue_append, lastValue_eq_none_iff.mpr h, Option.none_or]

/-- Reading a part of the segments, and then the others. -/
theorem value_append (A B : List (Segment K V)) (base : K → V) (k : K) :
    Log.value ⟨A ++ B, base⟩ k =
      (A.findSome? fun s => lastValue s.writes k).getD (Log.value ⟨B, base⟩ k) := by
  rw [Log.value, Log.value, List.findSome?_append, Option.getD_or]

theorem value_cons (s : Segment K V) (B : List (Segment K V)) (base : K → V) (k : K) :
    Log.value ⟨s :: B, base⟩ k = (lastValue s.writes k).getD (Log.value ⟨B, base⟩ k) := by
  rw [← List.singleton_append, value_append]
  rcases h : lastValue s.writes k with _ | v <;> simp [h]

/-- The values that a step without a crash leaves. -/
def update (f : K → V) (k : K) : Option (Event K V) → V
  | some (.write k' v) => if k' = k then v else f k
  | some .crash => f k
  | none => f k

/-- A step that is no crash changes the value of the key that it writes, and no other. -/
theorem Step.value_eq {e : Option (Event K V)} (h : Step a e b) (he : e ≠ some .crash) (k : K) :
    b.value k = update a.value k e := by
  cases h with
  | write s B base k' v =>
    rw [update, value_cons, value_cons, Segment.writes, ← List.append_assoc, lastValue_concat]
    split_ifs <;> rfl
  | rotate A base =>
    rw [value_cons]
    rfl
  | settle A s base =>
    rw [update, value_append, value_cons]
    rfl
  | pass A s B base =>
    rw [update, value_append, value_append, value_cons, value_cons, Segment.writes,
      List.append_nil]
  | drop A s B base hs =>
    rw [update, value_append, value_append, value_cons, hs]
    rfl
  | crash base hs => exact absurd rfl he

/-- The value of the last write of a key that is seen. -/
def written (es : List (Event K V)) (k : K) : Option V :=
  lastValue (es.filterMap fun | .write k v => some (k, v) | .crash => none) k

theorem written_concat (es : List (Event K V)) (e : Event K V) (f : K → V) (k : K) :
    (written (es ++ [e]) k).getD (f k) =
      update (fun k => (written es k).getD (f k)) k (some e) := by
  rw [written, List.filterMap_append]
  cases e with
  | crash => simp [update, written]
  | write k' v =>
    rw [List.filterMap_cons, List.filterMap_nil, lastValue_concat, update]
    split_ifs <;> rfl

/-- Without a crash, a read returns the value of the last write. -/
theorem Trace.value_eq {es : List (Event K V)} (h : Trace a es b) (hes : .crash ∉ es) :
    b.value = fun k => (written es k).getD (a.value k) := by
  induction h with
  | refl => rfl
  | silent _ hstep ih =>
    rw [← ih hes]
    exact funext fun k => hstep.value_eq (by simp) k
  | @visible es b c e _ hstep ih =>
    rw [List.mem_append, List.mem_singleton, not_or] at hes
    have he : some e ≠ some .crash := fun h => hes.2 (Option.some.inj h).symm
    funext k
    rw [hstep.value_eq he, written_concat, ih hes.1]

/-! ## Crashes -/

/-- What is related to two lists, one behind the other. -/
theorem forall₂_append_iff {α β : Type*} {R : α → β → Prop} {A B : List α} {C : List β} :
    List.Forall₂ R (A ++ B) C ↔
      ∃ A' B', C = A' ++ B' ∧ List.Forall₂ R A A' ∧ List.Forall₂ R B B' := by
  constructor
  · intro h
    exact ⟨_, _, (List.take_append_drop A.length C).symm, by
      simpa using List.forall₂_take A.length h, by simpa using List.forall₂_drop A.length h⟩
  · rintro ⟨A', B', rfl, hA, hB⟩
    exact List.rel_append hA hB

/-- Nothing may be lost. -/
theorem candidate_value (a : Log K V) (k : K) : Candidate a k (a.value k) := by
  refine ⟨a.segments.map fun s => ⟨s.writes, []⟩, ?_, ?_⟩
  · rw [List.forall₂_map_right_iff]
    exact List.forall₂_same.mpr fun s _ => s.survives_all
  · rw [Log.value, Log.value, List.findSome?_map]
    congr 2
    funext s
    rw [Function.comp_apply, Segment.writes, List.append_nil]

omit [LinearOrder K] in
/-- A second crash changes nothing. -/
theorem eq_of_survives {A B C : List (Segment K V)} (h : List.Forall₂ Survives A B)
    (h' : List.Forall₂ Survives B C) : C = B := by
  induction h generalizing C with
  | nil => exact List.forall₂_nil_left_iff.mp h'
  | cons hs _ ih =>
    obtain ⟨u, C', hu, hC, rfl⟩ := List.forall₂_cons_left_iff.mp h'
    rw [hs.eq_of_survives hu, ih hC]

/-- What a crash of the segments `A` may leave of a key, a crash of the segments `B` may leave as
well. -/
theorem Candidate.mono {A B : List (Segment K V)} {base base' : K → V}
    (h : Candidate ⟨A, base⟩ k v)
    (hle : ∀ A', List.Forall₂ Survives A A' → ∃ B', List.Forall₂ Survives B B' ∧
      Log.value ⟨B', base'⟩ k = Log.value ⟨A', base⟩ k) : Candidate ⟨B, base'⟩ k v := by
  obtain ⟨A', hA, rfl⟩ := h
  exact hle A' hA

/-- The only candidate that a step adds is the value that it writes. -/
theorem Step.candidate {e : Option (Event K V)} (h : Step a e b) (hc : Candidate b k v) :
    e = some (.write k v) ∨ Candidate a k v := by
  cases h with
  | write s B base k' v' =>
    obtain ⟨A', hA, rfl⟩ := hc
    obtain ⟨s', B', ⟨n, rfl⟩, hB, rfl⟩ := List.forall₂_cons_left_iff.mp hA
    have hold : Candidate ⟨s :: B, base⟩ k
        (Log.value ⟨⟨s.durable ++ s.pending.take n, []⟩ :: B', base⟩ k) :=
      ⟨_, .cons ⟨n, rfl⟩ hB, rfl⟩
    dsimp only
    rw [List.take_append]
    -- The crash keeps the write, or it leaves what a crash before it may leave.
    rcases hn : n - s.pending.length with _ | m
    · right
      rwa [List.take_zero, List.append_nil]
    · rw [value_cons, Segment.writes, List.append_nil] at hold
      rw [List.take_succ_cons, List.take_nil, value_cons, Segment.writes, List.append_nil,
        ← List.append_assoc, lastValue_concat]
      split_ifs with hk
      · left
        dsimp only at hk
        rw [hk]
        rfl
      · exact .inr hold
  | rotate A base =>
    refine .inr (hc.mono fun A' hA => ?_)
    obtain ⟨s', B', hs, hB, rfl⟩ := List.forall₂_cons_left_iff.mp hA
    refine ⟨B', hB, ?_⟩
    rw [hs.eq_of_durable, value_cons]
    rfl
  | settle A s base =>
    refine .inr (hc.mono fun A' hA => ?_)
    refine ⟨A' ++ [⟨s.writes, []⟩], List.rel_append hA (.cons s.survives_all .nil), ?_⟩
    rw [value_append, value_cons, Segment.writes, List.append_nil]
    rfl
  | pass A s B base =>
    refine .inr (hc.mono fun A' hA => ?_)
    obtain ⟨A₁, B₁, rfl, hA₁, hB₁⟩ := forall₂_append_iff.mp hA
    obtain ⟨s', B', hs, hB, rfl⟩ := List.forall₂_cons_left_iff.mp hB₁
    refine ⟨_, List.rel_append hA₁ (.cons s.survives_all hB), ?_⟩
    rw [hs.eq_of_durable]
  | drop A s B base hs =>
    refine .inr (hc.mono fun A' hA => ?_)
    obtain ⟨A₁, B₁, rfl, hA₁, hB₁⟩ := forall₂_append_iff.mp hA
    refine ⟨_, List.rel_append hA₁ (.cons s.survives_all hB₁), ?_⟩
    rw [value_append, value_append, value_cons, hs]
    rfl
  | @crash A B base hs =>
    refine .inr (hc.mono fun B' hB => ⟨B, hs, ?_⟩)
    rw [eq_of_survives hs hB]

/-- In a run, the only candidates that are added are the values that are written. -/
theorem Trace.candidate {es : List (Event K V)} (h : Trace a es b) (hc : Candidate b k v) :
    .write k v ∈ es ∨ Candidate a k v := by
  induction h with
  | refl => exact .inr hc
  | silent _ hstep ih => exact ih ((hstep.candidate hc).resolve_left (by simp))
  | visible _ hstep ih =>
    rw [List.mem_append, List.mem_singleton]
    rcases hstep.candidate hc with he | hc
    · exact .inl (.inr (Option.some.inj he).symm)
    · exact (ih hc).imp_left .inl

/-- A key with no pending write has one candidate. -/
theorem Candidate.eq_value (h : Candidate a k v)
    (hk : ∀ s ∈ a.segments, ∀ e ∈ s.pending, e.1 ≠ k) : v = a.value k := by
  obtain ⟨A, base⟩ := a
  obtain ⟨B, hs, rfl⟩ := h
  dsimp only at hs hk ⊢
  induction hs with
  | nil => rfl
  | @cons s s' A B hs _ ih =>
    rw [List.forall_mem_cons] at hk
    obtain ⟨n, rfl⟩ := hs
    rw [value_cons, value_cons, ih hk.2, Segment.writes, Segment.writes, List.append_nil,
      lastValue_append_of_ne hk.1, lastValue_append_of_ne fun e he =>
        hk.1 e (List.mem_of_mem_take he)]

/-- Until it is written again, a key with no pending write keeps its value, through any crashes. -/
theorem Trace.value_eq_of_durable {es : List (Event K V)} (h : Trace a es b)
    (hes : ∀ v, .write k v ∉ es) (hk : ∀ s ∈ a.segments, ∀ e ∈ s.pending, e.1 ≠ k) :
    b.value k = a.value k :=
  ((h.candidate (candidate_value b k)).resolve_left (hes _)).eq_value hk

omit [LinearOrder K] in
/-- What holds of everything that a list is related to. -/
theorem forall_mem_of_forall₂ {α β : Type*} {p : β → Prop} {A : List α} {B : List β}
    (h : List.Forall₂ (fun _ b => p b) A B) : ∀ b ∈ B, p b := by
  induction h with
  | nil => simp
  | cons hb _ ih => exact List.forall_mem_cons.mpr ⟨hb, ih⟩

end SegmentedLog
