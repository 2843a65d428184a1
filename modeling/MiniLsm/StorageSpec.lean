import MiniLsm.Storage
import MiniLsm.MemTableSpec

/-!
# What reads return

The sources of a state are the entries that its memtables, its level-0 tables, and its levels hold,
the newest first. `view` is the value of a key in the first source that has it, where the empty
string stands for a deleted key and for none. On a state whose tables and levels are in order
(`Readable`), `get` returns the view (`get_spec`), and a scan yields the keys within its bounds that
have a non-empty view, with it (`scan_spec`).
-/

namespace MiniLsm

open Cursor (Yields)

/-! ## Contents of tables -/

open Classical in
/-- The entries that the table holds, if it holds any. -/
noncomputable def SsTable.contents (E : Extern) (t : SsTable) : List (Bytes × Bytes) :=
  if h : ∃ es, t.Holds E es then h.choose else []

/-- The table holds its contents. -/
def SsTable.Good (E : Extern) (t : SsTable) : Prop := t.Holds E (t.contents E)

/-- A table holds one list of entries only. -/
theorem SsTable.Holds.contents_eq {E : Extern} {t : SsTable} {es : List (Bytes × Bytes)}
    (h : t.Holds E es) : t.contents E = es := by
  have hex : ∃ es, t.Holds E es := ⟨es, h⟩
  obtain ⟨it, hit, hy⟩ := SsTableIterator.createAndSeekToFirst_yields h
  obtain ⟨it', hit', hy'⟩ := SsTableIterator.createAndSeekToFirst_yields hex.choose_spec
  rw [hit] at hit'
  cases hit'
  rw [contents, dif_pos hex]
  exact hy'.unique hy

theorem SsTable.Holds.good {E : Extern} {t : SsTable} {es : List (Bytes × Bytes)}
    (h : t.Holds E es) : t.Good E := by
  rw [Good, h.contents_eq]
  exact h

/-- The last key of sorted entries is not below any of them. -/
theorem le_lastKey {es : List (Bytes × Bytes)} (hs : Assoc.Sorted es) {e : Bytes × Bytes}
    (he : e ∈ es) : e.1 ≤ lastKey es := by
  obtain ⟨es, e', rfl⟩ := (List.eq_nil_or_concat' es).resolve_left (List.ne_nil_of_mem he)
  rw [SsTableBuilder.lastKey_concat]
  rw [Assoc.Sorted, List.pairwise_append] at hs
  rcases List.mem_append.mp he with he | he
  · exact (hs.2.2 e he e' (by simp)).le
  · rw [List.mem_singleton.mp he]

/-- The keys of a table lie between its first and its last key. -/
theorem SsTable.Good.key_mem_range {E : Extern} {t : SsTable} (h : t.Good E) {e : Bytes × Bytes}
    (he : e ∈ t.contents E) : t.first_key ≤ e.1 ∧ e.1 ≤ t.last_key := by
  rw [h.first_key, h.last_key]
  exact ⟨firstKey_le h.sorted he, le_lastKey h.sorted he⟩

/-- A key for which `keep_table` drops a table is not in the table. -/
theorem lookup_of_not_keepTable {E : Extern} {t : SsTable} (h : t.Good E) {k : Bytes}
    (hk : LsmStorageInner.keepTable E k t = false) : Assoc.lookup k (t.contents E) = none := by
  rw [Assoc.lookup_eq_none_iff]
  rintro e he rfl
  obtain ⟨h1, h2⟩ := h.key_mem_range he
  have h3 := h.bloom e he
  simp [LsmStorageInner.keepTable, h1, h2, h3] at hk

/-! ## Lookups in lists of maps -/

/-- A lookup in a flattened list tries its parts in order. -/
theorem lookup_flatten (k : Bytes) (ls : List (List (Bytes × Bytes))) :
    Assoc.lookup k ls.flatten = ls.findSome? (Assoc.lookup k) := by
  induction ls with
  | nil => rfl
  | cons l ls ih =>
    rw [List.flatten_cons, Assoc.lookup_append, ih, List.findSome?_cons]
    cases Assoc.lookup k l <;> rfl

/-- Elements with nothing to find may be left out. -/
theorem findSome?_filter {α β : Type} {f : α → Option β} {p : α → Bool} {l : List α}
    (h : ∀ x ∈ l, p x = false → f x = none) : (l.filter p).findSome? f = l.findSome? f := by
  induction l with
  | nil => rfl
  | cons x l ih =>
    rw [List.forall_mem_cons] at h
    rw [List.filter_cons, List.findSome?_cons]
    by_cases hx : p x = true
    · rw [if_pos hx, List.findSome?_cons, ih h.2]
    · rw [if_neg hx, ih h.2, h.1 (by simpa using hx)]

theorem findSome?_congr {α β : Type} {f g : α → Option β} {l : List α}
    (h : ∀ x ∈ l, f x = g x) : l.findSome? f = l.findSome? g := by
  induction l with
  | nil => rfl
  | cons x l ih =>
    rw [List.forall_mem_cons] at h
    rw [List.findSome?_cons, List.findSome?_cons, h.1, ih h.2]

/-- What is created for each element of a list, when no creation throws. -/
theorem mapM_ok {α β γ : Type} {f : α → Except Error β} {R : β → γ → Prop} {g : α → γ}
    {l : List α} (h : ∀ x ∈ l, ∃ y, f x = .ok y ∧ R y (g x)) :
    ∃ ys, l.mapM f = .ok ys ∧ List.Forall₂ R ys (l.map g) := by
  induction l with
  | nil => exact ⟨[], rfl, .nil⟩
  | cons x l ih =>
    rw [List.forall_mem_cons] at h
    obtain ⟨y, hy, hr⟩ := h.1
    obtain ⟨ys, hys, hrs⟩ := ih h.2
    refine ⟨y :: ys, ?_, .cons hr hrs⟩
    rw [List.mapM_cons, hy, ok_bind, hys, ok_bind]
    rfl

/-! ## The view of a state -/

/-- The identifiers of the tables of a state. -/
def LsmStorageState.tableIds (s : LsmStorageState) : List ℕ :=
  s.l0_sstables ++ (s.levels.map Prod.snd).flatten

/-- The memtables, the newest first. -/
def LsmStorageState.memtables (s : LsmStorageState) : List MemTable :=
  s.memtable :: s.imm_memtables

/-- The entries of tables one after the other. -/
noncomputable def LsmStorageState.run (E : Extern) (s : LsmStorageState) (ids : List ℕ) :
    List (Bytes × Bytes) :=
  ((s.tables ids).map (SsTable.contents E)).flatten

/-- The entries of the tables of a state, the newest first. -/
noncomputable def LsmStorageState.tableSources (E : Extern) (s : LsmStorageState) :
    List (List (Bytes × Bytes)) :=
  (s.tables s.l0_sstables).map (SsTable.contents E) ++ s.levels.map fun level => s.run E level.2

/-- The entries that a state holds, the newest first. -/
noncomputable def LsmStorageState.sources (E : Extern) (s : LsmStorageState) :
    List (List (Bytes × Bytes)) :=
  s.memtables.map MemTable.map ++ s.tableSources E

/-- The value of the first source that has the key, or the empty string. -/
def firstValue (sources : List (List (Bytes × Bytes))) (k : Bytes) : Bytes :=
  (sources.findSome? (Assoc.lookup k)).getD []

/-- The value of a key in a state. -/
noncomputable def LsmStorageState.view (E : Extern) (s : LsmStorageState) (k : Bytes) : Bytes :=
  firstValue (s.sources E) k

/-- The memtables are sorted, the tables are open and good, and the tables of a level are in
order. -/
structure LsmStorageState.Readable (E : Extern) (s : LsmStorageState) : Prop where
  mem_sorted : ∀ m ∈ s.memtables, Assoc.Sorted m.map
  good : ∀ id ∈ s.tableIds, ∃ t, s.sstables id = some t ∧ t.Good E
  level_sorted : ∀ level ∈ s.levels, Assoc.Sorted (s.run E level.2)

namespace LsmStorageState

variable {E : Extern} {s : LsmStorageState}

theorem Readable.good_of_mem_l0 (h : s.Readable E) {t : SsTable}
    (ht : t ∈ s.tables s.l0_sstables) : t.Good E := by
  obtain ⟨id, hid, hst⟩ := List.mem_filterMap.mp ht
  obtain ⟨t', ht', hg⟩ := h.good id (List.mem_append_left _ hid)
  rw [hst] at ht'
  cases ht'
  exact hg

theorem Readable.good_of_mem_level (h : s.Readable E) {level : ℕ × List ℕ} (hl : level ∈ s.levels)
    {t : SsTable} (ht : t ∈ s.tables level.2) : t.Good E := by
  obtain ⟨id, hid, hst⟩ := List.mem_filterMap.mp ht
  have hmem : id ∈ (s.levels.map Prod.snd).flatten :=
    List.mem_flatten.mpr ⟨level.2, List.mem_map_of_mem hl, hid⟩
  obtain ⟨t', ht', hg⟩ := h.good id (List.mem_append_right _ hmem)
  rw [hst] at ht'
  cases ht'
  exact hg

/-- Good tables hold their contents. -/
theorem forall₂_holds {ts : List SsTable} (h : ∀ t ∈ ts, t.Good E) :
    List.Forall₂ (SsTable.Holds E) ts (ts.map (SsTable.contents E)) := by
  induction ts with
  | nil => exact .nil
  | cons t ts ih =>
    rw [List.forall_mem_cons] at h
    exact .cons h.1 (ih h.2)

/-- The entries of some tables of a level are in order. -/
theorem Readable.sorted_filter (h : s.Readable E) {level : ℕ × List ℕ} (hl : level ∈ s.levels)
    (p : SsTable → Bool) :
    Assoc.Sorted (((s.tables level.2).filter p).map (SsTable.contents E)).flatten :=
  (h.level_sorted level hl).sublist (List.Sublist.flatten (List.filter_sublist.map _))

end LsmStorageState

/-! ## `get` -/

/-- A lookup in what `seek` leaves. -/
theorem lookup_seek {k : Bytes} {l : List (Bytes × Bytes)} (hl : Assoc.Sorted l) :
    Assoc.lookup k (Assoc.seek k l) = Assoc.lookup k l := by
  apply Option.ext
  intro v
  rw [Assoc.lookup_eq_some_iff (hl.seek k), Assoc.lookup_eq_some_iff hl, Assoc.mem_seek_iff hl]
  simp

/-- An iterator whose keys are not below `k` stands at `k` exactly when `k` has a value. -/
theorem value_of_yields {ι : Type} [Cursor ι Bytes Bytes Error] {it : ι} {l : List (Bytes × Bytes)}
    (hy : Yields it l) (hs : Assoc.Sorted l) {k : Bytes} (hge : ∀ e ∈ l, k ≤ e.1) :
    (if Cursor.isValid it && decide (Cursor.key it = k) && !(Cursor.value it).isEmpty then
      Cursor.value it else []) = (Assoc.lookup k l).getD [] := by
  rcases l with _ | ⟨⟨a, v⟩, l⟩
  · simp [hy.isValid_nil]
  · obtain ⟨hv, hk, hw, -⟩ := hy.isValid_cons
    simp only at hk hw
    rw [hv, hk, hw, Assoc.lookup_cons]
    by_cases ha : a = k
    · simp only [ha, decide_true, Bool.and_self, Bool.true_and, if_true, Option.getD_some]
      rcases v with _ | ⟨x, v⟩ <;> simp
    · have hlt : k < a := lt_of_le_of_ne (hge (a, v) (by simp)) (Ne.symm ha)
      have hnone : Assoc.lookup k l = none := by
        rw [Assoc.lookup_eq_none_iff]
        intro e he
        exact (hlt.trans ((List.pairwise_cons.mp hs).1 e he)).ne'
      simp [ha, hnone]

namespace LsmStorageInner

variable {M : Type} {E : Extern} {s : LsmStorageInner M}

/-- The lookup in the merge of some iterators over tables, laid over that of some iterators over
levels. -/
theorem lookup_merged (k : Bytes) (ls ls' : List (List (Bytes × Bytes))) :
    Assoc.lookup k (Assoc.overlay (Assoc.overlays ls) (Assoc.overlays ls')) =
      (ls ++ ls').findSome? (Assoc.lookup k) := by
  rw [Assoc.lookup_overlay _ _ (Assoc.sorted_overlays ls'), Assoc.lookup_overlays,
    Assoc.lookup_overlays, List.findSome?_append]

/-- The keys of maps laid over each other are keys of the maps. -/
theorem exists_mem_of_mem_overlays {ls : List (List (Bytes × Bytes))} {e : Bytes × Bytes}
    (h : e ∈ Assoc.overlays ls) : ∃ l ∈ ls, e ∈ l := by
  induction ls with
  | nil => cases h
  | cons l ls ih =>
    rcases Assoc.mem_overlay h with h | h
    · exact ⟨l, by simp, h⟩
    · obtain ⟨l', hl', h⟩ := ih h
      exact ⟨l', by simp [hl'], h⟩

/-- The tables that `get` reads, from the key on. -/
theorem get_tables (h : s.state.Readable E) (k : Bytes) :
    ∃ its lits, ((s.state.tables s.state.l0_sstables).filter (keepTable E k)).mapM
        (fun t => SsTableIterator.createAndSeekToKey E t k) = .ok its ∧
      s.state.levels.mapM (fun level => SstConcatIterator.createAndSeekToKey E
        ((s.state.tables level.2).filter (keepTable E k)) k) = .ok lits ∧
      ∃ ls ls', List.Forall₂ Yields its ls ∧ List.Forall₂ Yields lits ls' ∧
        (∀ l ∈ ls ++ ls', Assoc.Sorted l ∧ ∀ e ∈ l, k ≤ e.1) ∧
        (ls ++ ls').findSome? (Assoc.lookup k) =
          (s.state.tableSources E).findSome? (Assoc.lookup k) := by
  have hgood : ∀ t ∈ (s.state.tables s.state.l0_sstables).filter (keepTable E k), t.Good E :=
    fun t ht => h.good_of_mem_l0 (List.mem_of_mem_filter ht)
  obtain ⟨its, hits, hyits⟩ := mapM_ok (R := Yields)
    (g := fun t : SsTable => Assoc.seek k (t.contents E))
    (l := (s.state.tables s.state.l0_sstables).filter (keepTable E k))
    fun t ht => SsTableIterator.createAndSeekToKey_yields (hgood t ht) k
  obtain ⟨lits, hlits, hylits⟩ := mapM_ok (R := Yields)
    (g := fun level : ℕ × List ℕ => Assoc.seek k
      (((s.state.tables level.2).filter (keepTable E k)).map (SsTable.contents E)).flatten)
    (l := s.state.levels) fun level hl => SstConcatIterator.createAndSeekToKey_yields
      (LsmStorageState.forall₂_holds fun t ht =>
        h.good_of_mem_level hl (List.mem_of_mem_filter ht)) (h.sorted_filter hl _) k
  refine ⟨its, lits, hits, hlits, _, _, hyits, hylits, ?_, ?_⟩
  · intro l hl
    rcases List.mem_append.mp hl with hl | hl
    · obtain ⟨t, ht, rfl⟩ := List.mem_map.mp hl
      have hs := (hgood t ht).sorted
      exact ⟨hs.seek k, fun e he => ((Assoc.mem_seek_iff hs).mp he).2⟩
    · obtain ⟨level, hlev, rfl⟩ := List.mem_map.mp hl
      have hs := h.sorted_filter hlev (keepTable E k)
      exact ⟨hs.seek k, fun e he => ((Assoc.mem_seek_iff hs).mp he).2⟩
  · rw [List.findSome?_append, LsmStorageState.tableSources, List.findSome?_append]
    congr 1
    · -- A table that is left out does not have the key.
      rw [List.findSome?_map, List.findSome?_map]
      calc ((s.state.tables s.state.l0_sstables).filter (keepTable E k)).findSome? _
          = ((s.state.tables s.state.l0_sstables).filter (keepTable E k)).findSome?
              (Assoc.lookup k ∘ SsTable.contents E) :=
            findSome?_congr fun t ht => lookup_seek (hgood t ht).sorted
        _ = _ := findSome?_filter fun t ht hk =>
            lookup_of_not_keepTable (h.good_of_mem_l0 ht) hk
    · rw [List.findSome?_map, List.findSome?_map]
      refine findSome?_congr fun level hl => ?_
      simp only [Function.comp]
      rw [lookup_seek (h.sorted_filter hl _), LsmStorageState.run, lookup_flatten, lookup_flatten,
        List.findSome?_map, List.findSome?_map]
      exact findSome?_filter fun t ht hk => lookup_of_not_keepTable (h.good_of_mem_level hl ht) hk

/-- `get` returns the value of the newest source that has the key. -/
theorem get_spec (h : s.state.Readable E) (k : Bytes) : s.get E k = .ok (s.state.view E k) := by
  rw [get, LsmStorageState.view, firstValue, LsmStorageState.sources, List.findSome?_append,
    List.findSome?_map]
  have hmem : (s.state.memtables.findSome? (Assoc.lookup k ∘ MemTable.map)) =
      (s.state.memtable :: s.state.imm_memtables).findSome? fun m => m.get k := rfl
  rw [hmem]
  cases (s.state.memtable :: s.state.imm_memtables).findSome? fun m => m.get k with
  | some v => rfl
  | none =>
    obtain ⟨its, lits, hits, hlits, ls, ls', hyits, hylits, hls, hfind⟩ := get_tables h k
    have hy := MergeIterator.create_yields hyits fun l hl => (hls l (by simp [hl])).1
    have hy' := MergeIterator.create_yields hylits fun l hl => (hls l (by simp [hl])).1
    obtain ⟨it, hit, hyit⟩ := TwoMergeIterator.create_yields hy hy' (Assoc.sorted_overlays _)
      (Assoc.sorted_overlays _)
    have hval := value_of_yields hyit ((Assoc.sorted_overlays ls').overlay _) (k := k) (by
      intro e he
      rcases Assoc.mem_overlay he with he | he
      · obtain ⟨l, hl, he⟩ := exists_mem_of_mem_overlays he
        exact (hls l (by simp [hl])).2 e he
      · obtain ⟨l, hl, he⟩ := exists_mem_of_mem_overlays he
        exact (hls l (by simp [hl])).2 e he)
    rw [lookup_merged, hfind] at hval
    rw [Option.none_or, ← hval]
    simp only [hits, hlits, ok_bind, hit]
    split_ifs <;> rfl

end LsmStorageInner

/-! ## `scan` -/

/-- The key is not before the bound, taken as the start of a range. -/
def Bound.above : Bound → Bytes → Bool
  | .unbounded, _ => true
  | .included key, k => decide (key ≤ k)
  | .excluded key, k => decide (key < k)

/-- The entries from the lower bound on. -/
def aboveLower (lower : Bound) (l : List (Bytes × Bytes)) : List (Bytes × Bytes) :=
  l.filter fun e => lower.above e.1

/-- The keys below an upper bound are those before some point. -/
theorem Bound.below_of_lt (upper : Bound) {a b : Bytes} (h : a < b) (hb : upper.below b = true) :
    upper.below a = true := by
  cases upper with
  | unbounded => rfl
  | included key =>
    simp only [below, decide_eq_true_eq] at *
    exact h.le.trans hb
  | excluded key =>
    simp only [below, decide_eq_true_eq] at *
    exact h.trans hb

/-- A memtable's scan starts at the lower bound. -/
theorem MemTable.fromLower_eq (lower : Bound) {l : List (Bytes × Bytes)} (hl : Assoc.Sorted l) :
    fromLower lower l = aboveLower lower l := by
  cases lower with
  | unbounded => simp [fromLower, aboveLower, Bound.above]
  | included key =>
    rw [fromLower, Assoc.seek_eq_filter key hl, aboveLower]
    refine List.filter_congr fun e _ => ?_
    rw [Bool.eq_iff_iff]
    simp [Bound.above]
  | excluded key =>
    rw [fromLower, Assoc.dropWhile_eq_filter (p := fun a => decide (a ≤ key))
      (fun a b hab hb => by simpa using hab.le.trans (by simpa using hb)) hl, aboveLower]
    refine List.filter_congr fun e _ => ?_
    rw [Bool.eq_iff_iff]
    simp [Bound.above]

/-- A memtable's scan ends at the upper bound. -/
theorem MemTable.toUpper_eq (upper : Bound) {l : List (Bytes × Bytes)} (hl : Assoc.Sorted l) :
    toUpper upper l = l.filter fun e => upper.below e.1 := by
  rw [← Assoc.takeWhile_eq_filter (fun a b hab hb => upper.below_of_lt hab hb) hl]
  cases upper with
  | unbounded => exact (List.takeWhile_eq_self_iff.mpr fun _ _ => rfl).symm
  | included key =>
    rw [toUpper]
    congr 1
    funext e
    rw [Bool.eq_iff_iff]
    simp [Bound.below]
  | excluded key =>
    rw [toUpper]
    congr 1
    funext e
    rw [Bool.eq_iff_iff]
    simp [Bound.below]

namespace LsmStorageInner

variable {M : Type} {E : Extern} {s : LsmStorageInner M}

/-- An iterator of `scan` over tables starts at the lower bound. -/
theorem seekLower_yields {ι : Type} [Cursor ι Bytes Bytes Error] {seekToFirst : Except Error ι}
    {seekToKey : Bytes → Except Error ι} {l : List (Bytes × Bytes)} (hl : Assoc.Sorted l)
    (hf : ∃ it, seekToFirst = .ok it ∧ Yields it l)
    (hk : ∀ key, ∃ it, seekToKey key = .ok it ∧ Yields it (Assoc.seek key l)) (lower : Bound) :
    ∃ it, seekLower seekToFirst seekToKey lower = .ok it ∧ Yields it (aboveLower lower l) := by
  cases lower with
  | unbounded =>
    rw [← MemTable.fromLower_eq _ hl]
    exact hf
  | included key =>
    rw [← MemTable.fromLower_eq _ hl]
    exact hk key
  | excluded key =>
    obtain ⟨it, hit, hy⟩ := hk key
    have hs : Assoc.Sorted (Assoc.seek key l) := hl.seek key
    have hseek : aboveLower (.excluded key) l = aboveLower (.excluded key) (Assoc.seek key l) := by
      have : Assoc.seek key l = aboveLower (.included key) l :=
        MemTable.fromLower_eq (.included key) hl
      rw [this, aboveLower, aboveLower, aboveLower, List.filter_filter]
      refine List.filter_congr fun e _ => ?_
      simp only [Bound.above]
      by_cases he : key < e.1
      · simp [he, he.le]
      · simp [he]
    have hge : ∀ e ∈ Assoc.seek key l, key ≤ e.1 := fun e he => ((Assoc.mem_seek_iff hl).mp he).2
    rw [hseek]
    simp only [seekLower, hit, ok_bind]
    generalize Assoc.seek key l = l' at hy hs hge
    rcases l' with _ | ⟨e, l'⟩
    · exact ⟨it, by simp [hy.isValid_nil], hy⟩
    · obtain ⟨hv, hkey, -, -, it', hn, hy'⟩ := hy.isValid_cons
      have hgt := (List.pairwise_cons.mp hs).1
      by_cases he : e.1 = key
      · -- The iterator stands at the bound itself, and moves over it.
        refine ⟨it', by simp [hv, hkey, he, hn], ?_⟩
        have : aboveLower (.excluded key) (e :: l') = l' := by
          rw [aboveLower, List.filter_cons, if_neg (by simp [Bound.above, he]), List.filter_eq_self]
          intro e' he'
          simpa [Bound.above] using he ▸ hgt e' he'
        rwa [this]
      · have hlt : key < e.1 := lt_of_le_of_ne (hge e (by simp)) (Ne.symm he)
        refine ⟨it, by simp [hkey, he], ?_⟩
        have : aboveLower (.excluded key) (e :: l') = e :: l' := by
          rw [aboveLower, List.filter_eq_self]
          intro e' he'
          rcases List.mem_cons.mp he' with rfl | he'
          · simpa [Bound.above] using hlt
          · simpa [Bound.above] using hlt.trans (hgt e' he')
        rwa [this]

/-- A table that `range_overlap` drops has no key within the bounds. -/
theorem lookup_of_not_rangeOverlap {t : SsTable} (h : t.Good E) {lower upper : Bound}
    (ho : rangeOverlap lower upper t.first_key t.last_key = false) {k : Bytes}
    (hl : lower.above k = true) (hu : upper.below k = true) :
    Assoc.lookup k (t.contents E) = none := by
  rw [Assoc.lookup_eq_none_iff]
  rintro e he rfl
  obtain ⟨h1, h2⟩ := h.key_mem_range he
  have htrue : rangeOverlap lower upper t.first_key t.last_key = true := by
    unfold rangeOverlap
    rw [Bool.and_eq_true]
    constructor
    · cases lower with
      | unbounded => rfl
      | included key =>
        simp only [Bound.above, decide_eq_true_eq] at hl
        simpa using hl.trans h2
      | excluded key =>
        simp only [Bound.above, decide_eq_true_eq] at hl
        simpa using hl.trans_le h2
    · cases upper with
      | unbounded => rfl
      | included key =>
        simp only [Bound.below, decide_eq_true_eq] at hu
        simpa using h1.trans hu
      | excluded key =>
        simp only [Bound.below, decide_eq_true_eq] at hu
        simpa using h1.trans_lt hu
  rw [htrue] at ho
  cases ho

/-- A lookup in the entries from the lower bound on. -/
theorem lookup_aboveLower (lower : Bound) (k : Bytes) {l : List (Bytes × Bytes)}
    (hl : Assoc.Sorted l) :
    Assoc.lookup k (aboveLower lower l) = if lower.above k then Assoc.lookup k l else none := by
  rw [aboveLower, Assoc.lookup_filter _ _ hl]
  split_ifs with h
  · cases Assoc.lookup k l <;> simp [h]
  · cases Assoc.lookup k l <;> simp [h]

/-- The entries of a memtable that its scan shows. -/
theorem lookup_memtable_scan {lower upper : Bound} {k : Bytes} (hu : upper.below k = true)
    {m : MemTable} (hm : Assoc.Sorted m.map) :
    Assoc.lookup k (m.scan lower upper).snapshot =
      if lower.above k then Assoc.lookup k m.map else none := by
  have hs : Assoc.Sorted (aboveLower lower m.map) := List.Pairwise.filter _ hm
  rw [MemTable.scan, MemTable.fromLower_eq lower hm, MemTable.toUpper_eq upper hs,
    Assoc.lookup_filter _ _ hs, lookup_aboveLower lower k hm]
  split_ifs
  · cases Assoc.lookup k m.map <;> simp [hu]
  · rfl

/-- Where nothing is found in any element, nothing is found. -/
theorem findSome?_ite {α β : Type} {f : α → Option β} {c : Prop} [Decidable c] {l : List α} :
    (l.findSome? fun x => if c then f x else none) = if c then l.findSome? f else none := by
  split_ifs
  · rfl
  · simp

/-- The iterators that `scan` merges: each yields a sorted list, and the lists show the keys from
the lower bound on as the sources of the state do. -/
theorem scan_tables (h : s.state.Readable E) (lower upper : Bound) :
    ∃ its lits, ((s.state.tables s.state.l0_sstables).filter fun t =>
        rangeOverlap lower upper t.first_key t.last_key).mapM (fun t =>
          seekLower (SsTableIterator.createAndSeekToFirst E t)
            (SsTableIterator.createAndSeekToKey E t) lower) = .ok its ∧
      s.state.levels.mapM (fun level =>
        let level_ssts := (s.state.tables level.2).filter fun t =>
          rangeOverlap lower upper t.first_key t.last_key
        if level_ssts.isEmpty then .ok ⟨none, 0, []⟩
        else seekLower (SstConcatIterator.createAndSeekToFirst E level_ssts)
          (SstConcatIterator.createAndSeekToKey E level_ssts) lower) = .ok lits ∧
      ∃ ls ls', List.Forall₂ Yields its ls ∧ List.Forall₂ Yields lits ls' ∧
        (∀ l ∈ ls ++ ls', Assoc.Sorted l) ∧
        ∀ k, upper.below k = true → (ls ++ ls').findSome? (Assoc.lookup k) =
          if lower.above k then (s.state.tableSources E).findSome? (Assoc.lookup k) else none := by
  obtain ⟨p, hp⟩ : ∃ p : SsTable → Bool, p = fun t =>
    rangeOverlap lower upper t.first_key t.last_key := ⟨_, rfl⟩
  rw [← hp]
  -- A table outside of the bounds has no key within them.
  have hdrop : ∀ k, upper.below k = true → lower.above k = true → ∀ t : SsTable, t.Good E →
      p t = false → Assoc.lookup k (t.contents E) = none := by
    intro k hu hl t ht hpt
    rw [hp] at hpt
    exact lookup_of_not_rangeOverlap ht hpt hl hu
  have hgood : ∀ t ∈ (s.state.tables s.state.l0_sstables).filter p, t.Good E :=
    fun t ht => h.good_of_mem_l0 (List.mem_of_mem_filter ht)
  -- One iterator for each table of level 0, and one for each level.
  obtain ⟨its, hits, hyits⟩ := mapM_ok (R := Yields)
    (f := fun t => seekLower (SsTableIterator.createAndSeekToFirst E t)
      (SsTableIterator.createAndSeekToKey E t) lower)
    (g := fun t : SsTable => aboveLower lower (t.contents E))
    (l := (s.state.tables s.state.l0_sstables).filter p) fun t ht =>
      seekLower_yields (hgood t ht).sorted
        (SsTableIterator.createAndSeekToFirst_yields (hgood t ht))
        (SsTableIterator.createAndSeekToKey_yields (hgood t ht)) lower
  obtain ⟨lits, hlits, hylits⟩ := mapM_ok (R := Yields)
    (f := fun level : ℕ × List ℕ =>
      let level_ssts := (s.state.tables level.2).filter p
      if level_ssts.isEmpty then .ok ⟨none, 0, []⟩
      else seekLower (SstConcatIterator.createAndSeekToFirst E level_ssts)
        (SstConcatIterator.createAndSeekToKey E level_ssts) lower)
    (g := fun level : ℕ × List ℕ => aboveLower lower
      (((s.state.tables level.2).filter p).map (SsTable.contents E)).flatten)
    (l := s.state.levels) (by
      intro level hl
      have hgood' : ∀ t ∈ (s.state.tables level.2).filter p, t.Good E :=
        fun t ht => h.good_of_mem_level hl (List.mem_of_mem_filter ht)
      have hholds := LsmStorageState.forall₂_holds hgood'
      have hs := h.sorted_filter hl p
      dsimp only
      by_cases he : ((s.state.tables level.2).filter p).isEmpty = true
      · rw [if_pos he, List.isEmpty_iff.mp he]
        exact ⟨_, rfl, .nil rfl⟩
      · rw [if_neg he]
        exact seekLower_yields hs (SstConcatIterator.createAndSeekToFirst_yields hholds)
          (SstConcatIterator.createAndSeekToKey_yields hholds hs) lower)
  refine ⟨its, lits, hits, hlits, _, _, hyits, hylits, ?_, ?_⟩
  · intro l hl
    rcases List.mem_append.mp hl with hl | hl
    · obtain ⟨t, ht, rfl⟩ := List.mem_map.mp hl
      exact List.Pairwise.filter _ (hgood t ht).sorted
    · obtain ⟨level, hlev, rfl⟩ := List.mem_map.mp hl
      exact List.Pairwise.filter _ (h.sorted_filter hlev p)
  -- The sources that are left out have nothing of the keys that are asked for.
  · intro k hu
    rw [List.findSome?_append, LsmStorageState.tableSources, List.findSome?_append,
      List.findSome?_map, List.findSome?_map, List.findSome?_map, List.findSome?_map]
    simp only [Function.comp_def]
    rw [findSome?_congr fun t ht => lookup_aboveLower lower k (hgood t ht).sorted,
      findSome?_congr fun level hl => lookup_aboveLower lower k (h.sorted_filter hl p),
      findSome?_ite, findSome?_ite]
    split_ifs with hl
    · congr 1
      · exact findSome?_filter fun t ht hpt => hdrop k hu hl t (h.good_of_mem_l0 ht) hpt
      · refine findSome?_congr fun level hlev => ?_
        rw [LsmStorageState.run, lookup_flatten, lookup_flatten, List.findSome?_map,
          List.findSome?_map]
        exact findSome?_filter fun t ht hpt =>
          hdrop k hu hl t (h.good_of_mem_level hlev ht) hpt
    · rfl

/-- The entries that `LsmIterator` shows of a sorted list. -/
theorem mem_visible {upper : Bound} {l : List (Bytes × Bytes)} (hl : Assoc.Sorted l) {k v : Bytes} :
    (k, v) ∈ visible upper l ↔ Assoc.lookup k l = some v ∧ upper.below k = true ∧ v ≠ [] := by
  rw [visible, Assoc.takeWhile_eq_filter (fun a b hab hb => upper.below_of_lt hab hb) hl,
    List.mem_filter, List.mem_filter, Assoc.lookup_eq_some_iff hl, and_assoc]
  simp

/-- A scan yields, in order, the keys within its bounds that have a non-empty view, with it. -/
theorem scan_spec (h : s.state.Readable E) (lower upper : Bound) :
    ∃ it, s.scan E lower upper = .ok it ∧ ∃ l, Yields it l ∧ Assoc.Sorted l ∧
      ∀ k v, (k, v) ∈ l ↔ lower.above k = true ∧ upper.below k = true ∧
        s.state.view E k = v ∧ v ≠ [] := by
  obtain ⟨its, lits, hits, hlits, ls, ls', hyits, hylits, hls, hfind⟩ :=
    scan_tables h lower upper
  have hmems : ∀ m ∈ s.state.memtables,
      Assoc.Sorted (m.scan lower upper).snapshot := by
    intro m hm
    have hs : Assoc.Sorted (aboveLower lower m.map) := List.Pairwise.filter _ (h.mem_sorted m hm)
    rw [MemTable.scan, MemTable.fromLower_eq lower (h.mem_sorted m hm),
      MemTable.toUpper_eq upper hs]
    exact List.Pairwise.filter _ hs
  have hymem : List.Forall₂ Yields (s.state.memtables.map fun m => m.scan lower upper)
      (s.state.memtables.map fun m => (m.scan lower upper).snapshot) := by
    generalize s.state.memtables = ms
    induction ms with
    | nil => exact .nil
    | cons m ms ih => exact .cons (MemTableIterator.yields _) ih
  -- The three merges, laid over each other.
  have hy₁ := MergeIterator.create_yields hymem fun l hl => by
    obtain ⟨m, hm, rfl⟩ := List.mem_map.mp hl
    exact hmems m hm
  have hy₂ := MergeIterator.create_yields hyits fun l hl => hls l (by simp [hl])
  have hy₃ := MergeIterator.create_yields hylits fun l hl => hls l (by simp [hl])
  obtain ⟨it₁, hit₁, hyit₁⟩ := TwoMergeIterator.create_yields hy₁ hy₂ (Assoc.sorted_overlays _)
    (Assoc.sorted_overlays _)
  have hsorted₁ := (Assoc.sorted_overlays ls).overlay
    (Assoc.overlays (s.state.memtables.map fun m => (m.scan lower upper).snapshot))
  obtain ⟨it₂, hit₂, hyit₂⟩ := TwoMergeIterator.create_yields hyit₁ hy₃ hsorted₁
    (Assoc.sorted_overlays _)
  obtain ⟨it₃, hit₃, hyit₃⟩ := LsmIterator.create_yields upper hyit₂
  have hsorted := (Assoc.sorted_overlays ls').overlay (Assoc.overlay
    (Assoc.overlays (s.state.memtables.map fun m => (m.scan lower upper).snapshot))
    (Assoc.overlays ls))
  refine ⟨FusedIterator.create it₃, ?_, _, FusedIterator.create_yields hyit₃, ?_, ?_⟩
  · have hmemtables : (s.state.memtable :: s.state.imm_memtables) = s.state.memtables := rfl
    simp only [scan, hits, hlits, ok_bind, hmemtables, hit₁, hit₂, hit₃]
  · exact List.Pairwise.filter _ (List.Pairwise.sublist (List.takeWhile_sublist _) hsorted)
  · intro k v
    rw [mem_visible hsorted, Assoc.lookup_overlay _ _ (Assoc.sorted_overlays ls'), lookup_merged,
      Assoc.lookup_overlays, List.findSome?_append, Option.or_assoc, ← List.findSome?_append,
      List.findSome?_map]
    by_cases hu : upper.below k = true
    · have hmem : s.state.memtables.findSome?
          (Assoc.lookup k ∘ fun m => (m.scan lower upper).snapshot) =
          if lower.above k then s.state.memtables.findSome? (Assoc.lookup k ∘ MemTable.map)
          else none := by
        rw [← findSome?_ite]
        exact findSome?_congr fun m hm => lookup_memtable_scan hu (h.mem_sorted m hm)
      rw [hfind k hu, hmem, LsmStorageState.view, firstValue, LsmStorageState.sources,
        List.findSome?_append, List.findSome?_map]
      by_cases hl : lower.above k = true
      · simp only [hl, hu, if_true, true_and]
        generalize (s.state.memtables.findSome? (Assoc.lookup k ∘ MemTable.map)).or
          ((s.state.tableSources E).findSome? (Assoc.lookup k)) = o
        rcases o with _ | w
        · simp
        · simp
      · simp [hl]
    · simp [hu]

end LsmStorageInner

end MiniLsm
