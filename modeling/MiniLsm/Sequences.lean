import MiniLsm.Exec

/-!
# What the iterators yield

The sequences of the iterators, in the terms of those who use them: a block stores the entries that
its builder has accepted (`BlockBuilder.round_trip`), the table of any entries reopens to the
entries (`SsTable.reopen_spec`), the merge of several iterators takes each key from the first one
that has it (`MergeIterator.create_newest_wins`), nested merges are one merge
(`TwoMergeIterator.nested_eq_flat`), tables with disjoint key ranges are read one after the other
(`SstConcatIterator.create_of_disjoint`), and a compaction cuts the sequence of its iterator into
tables (`LsmStorageInner.compactGenerateSstFromIter_splits_iff`).
-/

namespace MiniLsm

open Cursor (Yields)

/-! ## Blocks -/

namespace BlockBuilder

/-- A call of `BlockBuilder::add`, which leaves the builder unchanged where it returns `false`. -/
def apply (b : BlockBuilder) (e : Bytes × Bytes) : BlockBuilder := (b.add e.1 e.2).getD b

/-- The entries that a builder accepts, in a sequence of calls. -/
def accepted (b : BlockBuilder) : List (Bytes × Bytes) → List (Bytes × Bytes)
  | [] => []
  | e :: calls =>
    match b.add e.1 e.2 with
    | some b' => e :: b'.accepted calls
    | none => b.accepted calls

/-- The numbers that a call casts to 16 bits are below 2^16: the offset of the entry, the length of
the prefix that its key shares, those of the rest of the key and of the value, and the number of
entries. -/
structure Lossless (b : BlockBuilder) (e : Bytes × Bytes) : Prop where
  offset : b.data.length < 2^16
  overlap : computeOverlap b.first_key e.1 < 2^16
  rest : e.1.length - computeOverlap b.first_key e.1 < 2^16
  value : e.2.length < 2^16
  count : b.offsets.length + 1 < 2^16

theorem Holds.lossless {b b' : BlockBuilder} {es : List (Bytes × Bytes)} {e : Bytes × Bytes}
    (h : b.Holds es) (hs : Storable e) (ha : b.add e.1 e.2 = some b') : b.Lossless e := by
  obtain ⟨hoffset, hcount⟩ := h.room ha
  obtain ⟨-, hle, -⟩ := computeOverlap_spec b.first_key e.1
  obtain ⟨-, hk, hv⟩ := hs
  exact ⟨hoffset, by omega, by omega, by omega, by omega⟩

/-- A builder holds what its calls have accepted. -/
theorem Holds.calls {b : BlockBuilder} {es : List (Bytes × Bytes)} (h : b.Holds es)
    {calls : List (Bytes × Bytes)} (hst : ∀ e ∈ calls, Storable e) :
    (calls.foldl apply b).Holds (es ++ b.accepted calls) := by
  induction calls generalizing b es with
  | nil => simpa [accepted] using h
  | cons e calls ih =>
    rw [List.forall_mem_cons] at hst
    rw [List.foldl_cons, accepted, apply]
    rcases ha : b.add e.1 e.2 with _ | b'
    · exact ih h hst.2
    · have hcalls := ih (add_holds h hst.1 ha).1 hst.2
      rwa [List.append_assoc, List.singleton_append] at hcalls

end BlockBuilder

/-- The positions that an iterator over a block may have: behind its constructor, and behind any
moves from another position. -/
inductive BlockIterator.Reached (b : Block) : BlockIterator → Prop
  | create {it : BlockIterator} : BlockIterator.create b = .ok it → Reached b it
  | seekTo {it it' : BlockIterator} (idx : ℕ) : Reached b it → it.seekTo idx = .ok it' →
      Reached b it'
  | next {it it' : BlockIterator} : Reached b it → it.next = .ok it' → Reached b it'
  | seekToKey {it it' : BlockIterator} (target : Bytes) : Reached b it →
      it.seekToKey target = .ok it' → Reached b it'

theorem BlockIterator.Reached.over {b : Block} {es : List (Bytes × Bytes)} (hb : b.Holds es)
    {it : BlockIterator} (h : Reached b it) : it.Over b es := by
  induction h with
  | create hc =>
    obtain ⟨it, hc', hover⟩ := create_spec hb
    rw [hc] at hc'
    cases hc'
    exact hover
  | seekTo idx _ hs ih =>
    obtain ⟨it', hs', hover⟩ := ih.of_seekTo idx
    rw [hs] at hs'
    cases hs'
    exact hover
  | @next it it' _ hn ih =>
    obtain ⟨it'', hs, hover⟩ :=
      Over.of_seekTo (show Over { it with idx := it.idx + 1 } b es from ih) (it.idx + 1)
    rw [BlockIterator.next, hs] at hn
    cases hn
    exact hover
  | seekToKey target _ hs ih =>
    simp only [BlockIterator.seekToKey, ih.1] at hs
    exact ih.of_search target _ _ _ hs

/-- A block stores what its builder has accepted: nothing is lost in the casts, the encoding decodes
to the block, and the iterator yields the accepted entries. Where their keys increase, a search from
any position yields those that are not below the target. -/
theorem BlockBuilder.round_trip {block_size : ℕ} (hsize : block_size ≤ 65536)
    {calls es : List (Bytes × Bytes)} (hst : ∀ e ∈ calls, Storable e) {b : BlockBuilder}
    (hb : calls.foldl apply (create block_size) = b)
    (hes : (create block_size).accepted calls = es) :
    (∀ pre e post, calls = pre ++ e :: post →
      ((pre.foldl apply (create block_size)).add e.1 e.2).isSome = true →
        (pre.foldl apply (create block_size)).Lossless e) ∧
      b.build.offsets.length < 2^16 ∧
      Block.decode b.build.encode = .ok b.build ∧
      (∃ it, BlockIterator.createAndSeekToFirst b.build = .ok it ∧ Yields it es) ∧
      ((es.map Prod.fst).Pairwise (· < ·) → ∀ it, BlockIterator.Reached b.build it → ∀ target,
        ∃ it', it.seekToKey target = .ok it' ∧ Yields it' (Assoc.seek target es)) := by
  have hholds : ∀ calls : List (Bytes × Bytes), (∀ e ∈ calls, Storable e) →
      (calls.foldl apply (create block_size)).Holds ((create block_size).accepted calls) :=
    fun calls hst => (create_holds hsize).calls hst
  have h : b.Holds es := by
    rw [← hb, ← hes]
    exact hholds calls hst
  have hcount : b.build.offsets.length < 2^16 := by
    have hle : b.build.offsets.length ≤ 32768 := h.length_le
    omega
  refine ⟨?_, hcount, Block.decode_encode h.offsets_lt hcount,
    BlockIterator.createAndSeekToFirst_yields h.block, fun hsorted it hit target => ?_⟩
  · rintro pre e post rfl hsome
    obtain ⟨b', ha⟩ := Option.isSome_iff_exists.mp hsome
    refine (hholds pre fun e' he' => hst e' (List.mem_append_left _ he')).lossless ?_ ha
    exact hst e (List.mem_append_right _ List.mem_cons_self)
  · exact (hit.over h.block).seekToKey_yields (List.pairwise_map.mp hsorted) target

/-- A block whose second call is refused. -/
def threeCalls : List (Bytes × Bytes) :=
  [([97, 97], [49]), ([97, 98], List.replicate 30 0), ([97, 99], [51])]

/-- A search from behind the last entry. -/
theorem BlockBuilder.round_trip_threeCalls :
    ∃ it it' : BlockIterator,
      BlockIterator.Reached (threeCalls.foldl apply (create 40)).build it ∧
      it.isValid = false ∧ it.seekToKey [97, 98] = .ok it' ∧ Yields it' [([97, 99], [51])] := by
  have hst : ∀ e ∈ threeCalls, Storable e := by decide
  have hes : (create 40).accepted threeCalls = [([97, 97], [49]), ([97, 99], [51])] := by decide
  obtain ⟨-, -, -, -, hseek⟩ := round_trip (show 40 ≤ 65536 by decide) hst rfl hes
  have hend : ((BlockIterator.create (threeCalls.foldl apply (create 40)).build).toOption.any
      fun it => (it.seekTo 2).toOption.any fun it => !it.isValid) = true := by decide +kernel
  rcases hc : BlockIterator.create (threeCalls.foldl apply (create 40)).build with e | it₀
  · rw [hc] at hend
    cases hend
  rw [hc, Except.toOption, Option.any_some] at hend
  rcases hs : it₀.seekTo 2 with e | it
  · rw [hs] at hend
    cases hend
  rw [hs, Except.toOption, Option.any_some] at hend
  obtain ⟨it', hit', hy⟩ := hseek (by decide) it (.seekTo 2 (.create hc) hs) [97, 98]
  exact ⟨it, it', .seekTo 2 (.create hc) hs, by simpa using hend, hit', hy⟩

/-! ## Tables -/

/-- A call of `SsTableBuilder` before its table is built. -/
inductive BuilderCall where
  | add (key value : Bytes)
  | setCompression (compression : CompressionType)
  deriving DecidableEq

namespace BuilderCall

/-- The builder after the call. -/
def apply (E : Extern) (b : SsTableBuilder) : BuilderCall → SsTableBuilder
  | add key value => b.add E key value
  | setCompression compression => b.setCompression compression

/-- The entry that the call adds. -/
def entry : BuilderCall → Option (Bytes × Bytes)
  | add key value => some (key, value)
  | setCompression _ => none

end BuilderCall

namespace SsTableBuilder

variable {E : Extern}

/-- The compression of the blocks to come does not matter for the entries. -/
theorem Holds.setCompression {b : SsTableBuilder} {es : List (Bytes × Bytes)} (h : b.Holds E es)
    (compression : CompressionType) : (b.setCompression compression).Holds E es := by
  obtain ⟨⟨bs, cur, hb, hes, hcur⟩, hkh⟩ := h
  exact ⟨⟨bs, cur, ⟨hb.builder, hb.block_size, hb.first_key, hb.last_key, hb.layout, hb.ne_nil⟩, hes,
    hcur⟩, hkh⟩

/-- A builder holds the entries that its calls have added. -/
theorem Holds.calls {b : SsTableBuilder} {es : List (Bytes × Bytes)} (h : b.Holds E es)
    {calls : List BuilderCall} (hst : ∀ e ∈ calls.filterMap BuilderCall.entry, Storable e) :
    (calls.foldl (BuilderCall.apply E) b).Holds E (es ++ calls.filterMap BuilderCall.entry) := by
  induction calls generalizing b es with
  | nil => simpa using h
  | cons call calls ih =>
    rw [List.foldl_cons]
    rcases call with ⟨key, value⟩ | compression
    · have hentry : (BuilderCall.add key value :: calls).filterMap BuilderCall.entry =
          (key, value) :: calls.filterMap BuilderCall.entry := rfl
      rw [hentry] at hst ⊢
      rw [List.forall_mem_cons] at hst
      have := ih (add_holds h hst.1) hst.2
      rwa [List.append_assoc, List.singleton_append] at this
    · exact ih (h.setCompression compression) hst

end SsTableBuilder

/-- The table that a builder writes reopens, with the first and the last key of the entries. From
the start it yields the entries, and from a key on those that are not below it, whatever the
compression was set to between the entries. -/
theorem SsTable.reopen_spec (E : Extern) {block_size : ℕ} (hsize : block_size ≤ 65536)
    (compression : CompressionType) {calls : List BuilderCall} {es : List (Bytes × Bytes)}
    (hes : calls.filterMap BuilderCall.entry = es) (hne : es ≠ [])
    (hsorted : (es.map Prod.fst).Pairwise (· < ·)) (hst : ∀ e ∈ es, Storable e) {b : SsTableBuilder}
    (hb : calls.foldl (BuilderCall.apply E) (SsTableBuilder.create block_size compression) = b)
    (hlt : (b.fileBytes E).length < 2^32) (id : ℕ) :
    ∃ t, SsTable.open E id (b.fileBytes E) = .ok t ∧
      es.head?.map Prod.fst = some t.first_key ∧ es.getLast?.map Prod.fst = some t.last_key ∧
      (∃ it, SsTableIterator.createAndSeekToFirst E t = .ok it ∧ Yields it es) ∧
      ∀ k, ∃ it, SsTableIterator.createAndSeekToKey E t k = .ok it ∧
        Yields it (Assoc.seek k es) := by
  have hholds : b.Holds E es := by
    subst hes hb
    exact (SsTableBuilder.create_holds E hsize compression).calls hst
  obtain ⟨t, hopen, ht, -, -⟩ := open_fileBytes hholds (List.pairwise_map.mp hsorted) hne id hlt
  refine ⟨t, hopen, ?_, ?_, SsTableIterator.createAndSeekToFirst_yields ht,
    SsTableIterator.createAndSeekToKey_yields ht⟩
  · obtain ⟨e, es, rfl⟩ := List.exists_cons_of_ne_nil hne
    rw [ht.first_key]
    rfl
  · obtain ⟨es, e, rfl⟩ := (List.eq_nil_or_concat' es).resolve_left hne
    rw [ht.last_key, SsTableBuilder.lastKey_concat]
    simp

/-- A table with a compressed and an uncompressed block. -/
def mixedCalls : List BuilderCall :=
  [.add [97] [49], .setCompression .snappy, .add [98] [], .setCompression .none, .add [99] [51]]

theorem SsTable.reopen_mixed :
    ∃ t, SsTable.open .lib 7 ((mixedCalls.foldl (BuilderCall.apply .lib)
        (SsTableBuilder.create 16 .none)).fileBytes .lib) = .ok t ∧ t.first_key = [97] ∧
      ∃ it, SsTableIterator.createAndSeekToKey .lib t [97, 0] = .ok it ∧
        Yields it [([98], []), ([99], [51])] := by
  obtain ⟨t, ht, hfirst, -, -, hseek⟩ := reopen_spec .lib (show 16 ≤ 65536 by decide) .none
    (show mixedCalls.filterMap BuilderCall.entry = [([97], [49]), ([98], []), ([99], [51])] from rfl)
    (by decide) (by decide) (by decide) rfl (by decide +kernel) 7
  exact ⟨t, ht, (Option.some.inj hfirst).symm, hseek [97, 0]⟩

/-! ## Merges -/

/-- The merge of iterators with increasing keys yields every key of theirs once, in order, with the
value of the first iterator that has it. -/
theorem MergeIterator.create_newest_wins {ι : Type} [Cursor ι Bytes Bytes Error] {iters : List ι}
    {ls : List (List (Bytes × Bytes))} (h : List.Forall₂ Yields iters ls)
    (hs : ∀ l ∈ ls, (l.map Prod.fst).Pairwise (· < ·)) :
    ∃ l, Yields (create iters) l ∧ (l.map Prod.fst).Pairwise (· < ·) ∧
      (∀ k, k ∈ l.map Prod.fst ↔ ∃ l' ∈ ls, k ∈ l'.map Prod.fst) ∧
      ∀ k v, (k, v) ∈ l ↔ ∃ pre l' post, ls = pre ++ l' :: post ∧ (k, v) ∈ l' ∧
        ∀ l'' ∈ pre, k ∉ l''.map Prod.fst := by
  have hsorted : ∀ l ∈ ls, Assoc.Sorted l := fun l hl => List.pairwise_map.mp (hs l hl)
  have hlookup : ∀ (k : Bytes) (l' : List (Bytes × Bytes)),
      Assoc.lookup k l' = none ↔ k ∉ l'.map Prod.fst := by
    intro k l'
    rw [Assoc.lookup_eq_none_iff]
    simp only [List.mem_map, not_exists, not_and]
  refine ⟨_, create_yields h hsorted, List.pairwise_map.mpr (Assoc.sorted_overlays ls), ?_, ?_⟩
  · intro k
    rw [← not_iff_not, ← hlookup, Assoc.lookup_overlays, List.findSome?_eq_none_iff]
    push Not
    exact forall_congr' fun l' => forall_congr' fun _ => hlookup k l'
  · intro k v
    rw [← Assoc.lookup_eq_some_iff (Assoc.sorted_overlays ls), Assoc.lookup_overlays,
      List.findSome?_eq_some_iff]
    constructor
    · rintro ⟨pre, l', post, rfl, hv, hpre⟩
      exact ⟨pre, l', post, rfl, Assoc.mem_of_lookup hv, fun l'' hl => (hlookup k l'').mp (hpre l'' hl)⟩
    · rintro ⟨pre, l', post, rfl, hv, hpre⟩
      exact ⟨pre, l', post, rfl, (Assoc.lookup_eq_some_iff (hsorted l' (by simp))).mpr hv,
        fun l'' hl => (hlookup k l'').mpr (hpre l'' hl)⟩

theorem MemTableIterator.forall₂_yields (ls : List (List (Bytes × Bytes))) :
    List.Forall₂ Yields (ls.map MemTableIterator.mk) ls := by
  induction ls with
  | nil => exact .nil
  | cons l ls ih => exact .cons (MemTableIterator.yields l) ih

theorem MergeIterator.create_two_of_three :
    ∃ l, Yields (create ([[([97], [49])], [], [([97], [50]), ([98], [])]].map
        MemTableIterator.mk)) l ∧ ([97], [49]) ∈ l ∧ ([98], []) ∈ l := by
  obtain ⟨l, hy, -, -, hmem⟩ := create_newest_wins
    (MemTableIterator.forall₂_yields [[([97], [49])], [], [([97], [50]), ([98], [])]]) (by decide)
  refine ⟨l, hy, (hmem _ _).mpr ⟨[], _, _, rfl, by simp, by simp⟩,
    (hmem _ _).mpr ⟨[[([97], [49])], []], _, [], rfl, by simp, by decide⟩⟩

/-- The merge of two iterators with increasing keys yields the keys of both in order, with the value
of the first one where both have the key. Nested as in `LsmStorageInner::scan`, merges yield what
one merge over all the iterators does. -/
theorem TwoMergeIterator.nested_eq_flat {A B C D : Type} [Cursor A Bytes Bytes Error]
    [Cursor B Bytes Bytes Error] [Cursor C Bytes Bytes Error] [Cursor D Bytes Bytes Error] :
    (∀ (a : A) (b : B) (la lb : List (Bytes × Bytes)), Yields a la → Yields b lb →
      (la.map Prod.fst).Pairwise (· < ·) → (lb.map Prod.fst).Pairwise (· < ·) →
      ∃ it l, create a b = .ok it ∧ Yields it l ∧ (l.map Prod.fst).Pairwise (· < ·) ∧
        ∀ k v, (k, v) ∈ l ↔ (k, v) ∈ la ∨ (k ∉ la.map Prod.fst ∧ (k, v) ∈ lb)) ∧
    ∀ (ms : List A) (ls : List B) (vs : List C) (flat : List D)
      (lms lls lvs : List (List (Bytes × Bytes))), List.Forall₂ Yields ms lms →
      List.Forall₂ Yields ls lls → List.Forall₂ Yields vs lvs →
      List.Forall₂ Yields flat (lms ++ lls ++ lvs) →
      (∀ l ∈ lms ++ lls ++ lvs, (l.map Prod.fst).Pairwise (· < ·)) →
      ∃ it₁ it₂ l, create (MergeIterator.create ms) (MergeIterator.create ls) = .ok it₁ ∧
        create it₁ (MergeIterator.create vs) = .ok it₂ ∧ Yields it₂ l ∧
        Yields (MergeIterator.create flat) l := by
  refine ⟨?_, ?_⟩
  · intro a b la lb ha hb hsa hsb
    have hsa' : Assoc.Sorted la := List.pairwise_map.mp hsa
    have hsb' : Assoc.Sorted lb := List.pairwise_map.mp hsb
    obtain ⟨it, hit, hy⟩ := create_yields ha hb hsa' hsb'
    refine ⟨it, _, hit, hy, List.pairwise_map.mpr (hsb'.overlay la), fun k v => ?_⟩
    rw [← Assoc.lookup_eq_some_iff (hsb'.overlay la), Assoc.lookup_overlay k la hsb',
      Option.or_eq_some_iff, Assoc.lookup_eq_some_iff hsa', Assoc.lookup_eq_some_iff hsb',
      Assoc.lookup_eq_none_iff]
    simp only [List.mem_map, not_exists, not_and, ne_eq]
  · intro ms ls vs flat lms lls lvs hms hls hvs hflat hs
    have hsorted : ∀ l ∈ lms ++ lls ++ lvs, Assoc.Sorted l := fun l hl =>
      List.pairwise_map.mp (hs l hl)
    have hm := MergeIterator.create_yields hms fun l hl => hsorted l (by simp [hl])
    have hl := MergeIterator.create_yields hls fun l hl => hsorted l (by simp [hl])
    have hv := MergeIterator.create_yields hvs fun l hl => hsorted l (by simp [hl])
    obtain ⟨it₁, hit₁, hy₁⟩ := create_yields hm hl (Assoc.sorted_overlays _)
      (Assoc.sorted_overlays _)
    obtain ⟨it₂, hit₂, hy₂⟩ := create_yields hy₁ hv ((Assoc.sorted_overlays _).overlay _)
      (Assoc.sorted_overlays _)
    refine ⟨it₁, it₂, _, hit₁, hit₂, hy₂, ?_⟩
    -- Overlays of overlays are those of all lists, one after the other.
    rw [← Assoc.overlays_append, ← Assoc.overlays_append]
    exact MergeIterator.create_yields hflat hsorted

/-- Two memtables, two tables of level 0 and a level, all with a key in common. -/
theorem TwoMergeIterator.nested_eq_flat_groups :
    ∃ it₁ it₂ l,
      create (MergeIterator.create ([[([97], [49])], [([98], [])]].map MemTableIterator.mk))
        (MergeIterator.create ([[([97], [50]), ([99], [50])], []].map MemTableIterator.mk)) =
          .ok it₁ ∧
      create it₁ (MergeIterator.create ([[([97], [51]), ([98], [51])]].map MemTableIterator.mk)) =
        .ok it₂ ∧ Yields it₂ l ∧
      Yields (MergeIterator.create ([[([97], [49])], [([98], [])], [([97], [50]), ([99], [50])], [],
        [([97], [51]), ([98], [51])]].map MemTableIterator.mk)) l :=
  nested_eq_flat.2 _ _ _ _ _ _ _ (MemTableIterator.forall₂_yields _)
    (MemTableIterator.forall₂_yields _) (MemTableIterator.forall₂_yields _)
    (MemTableIterator.forall₂_yields _) (by decide)

/-! ## Tables one after the other -/

theorem SsTable.Good.sorted_flatten {E : Extern} {ts : List SsTable} (hgood : ∀ t ∈ ts, t.Good E)
    (hdisj : ts.Pairwise fun a b => a.last_key < b.first_key) :
    Assoc.Sorted (ts.map (SsTable.contents E)).flatten := by
  rw [Assoc.Sorted, List.pairwise_flatten, List.pairwise_map]
  refine ⟨fun l hl => ?_, hdisj.imp_of_mem fun {a b} ha hb hab e he e' he' => ?_⟩
  · obtain ⟨t, ht, rfl⟩ := List.mem_map.mp hl
    exact (hgood t ht).sorted
  · calc e.1 ≤ a.last_key := ((hgood a ha).key_mem_range he).2
      _ < b.first_key := hab
      _ ≤ e'.1 := ((hgood b hb).key_mem_range he').1

/-- An iterator that has been moved to a key stands at its entry exactly where there is one. -/
theorem yields_seek_iff {ι : Type} [Cursor ι Bytes Bytes Error] {it : ι} {k : Bytes}
    {l : List (Bytes × Bytes)} (hs : Assoc.Sorted l) (hy : Yields it (Assoc.seek k l)) (v : Bytes) :
    (Cursor.isValid it = true ∧ Cursor.key it = k ∧ Cursor.value it = v) ↔ (k, v) ∈ l := by
  have hmem : (k, v) ∈ Assoc.seek k l ↔ (k, v) ∈ l := by
    rw [Assoc.mem_seek_iff hs]
    exact and_iff_left le_rfl
  rw [← hmem]
  rcases hseek : Assoc.seek k l with _ | ⟨e, rest⟩
  · rw [hseek] at hy
    simp [hy.isValid_nil]
  · have hsorted := hs.seek k
    rw [hseek] at hy hsorted
    obtain ⟨hv, hk, hval, -⟩ := hy.isValid_cons
    rw [hv, hk, hval]
    constructor
    · rintro ⟨-, rfl, rfl⟩
      exact List.mem_cons_self
    · intro he
      -- An entry behind the first one has a larger key, and the first one is not below `k`.
      rcases List.mem_cons.mp he with rfl | he
      · exact ⟨rfl, rfl, rfl⟩
      · have hlt : e.1 < k := (List.pairwise_cons.mp hsorted).1 (k, v) he
        have hle : k ≤ e.1 := ((Assoc.mem_seek_iff hs).mp (hseek ▸ List.mem_cons_self)).2
        exact absurd hlt (not_lt.mpr hle)

/-- Tables with increasing disjoint ranges of keys are read one after the other, from the start or
from a key on. The entry of a key is found as well when tables are left out whose range does not
contain it. -/
theorem SstConcatIterator.create_of_disjoint {E : Extern} {ts : List SsTable}
    (hgood : ∀ t ∈ ts, t.Good E)
    (hdisj : ts.Pairwise fun a b => a.last_key < b.first_key) :
    (∃ it, createAndSeekToFirst E ts = .ok it ∧
      Yields it (ts.map (SsTable.contents E)).flatten) ∧
    (∀ k, ∃ it, createAndSeekToKey E ts k = .ok it ∧
      Yields it ((ts.map (SsTable.contents E)).flatten.filter fun e => decide (k ≤ e.1))) ∧
    ∀ k ts', ts'.Sublist ts → (∀ t ∈ ts, t.first_key ≤ k → k ≤ t.last_key → t ∈ ts') →
      ∃ it it', createAndSeekToKey E ts k = .ok it ∧ createAndSeekToKey E ts' k = .ok it' ∧
        ∀ v, (Cursor.isValid it = true ∧ Cursor.key it = k ∧ Cursor.value it = v) ↔
          (Cursor.isValid it' = true ∧ Cursor.key it' = k ∧ Cursor.value it' = v) := by
  have hsorted := SsTable.Good.sorted_flatten hgood hdisj
  have hholds := LsmStorageState.forall₂_holds hgood
  refine ⟨createAndSeekToFirst_yields hholds, fun k => ?_, fun k ts' hsub hkeep => ?_⟩
  · obtain ⟨it, hit, hy⟩ := createAndSeekToKey_yields hholds hsorted k
    rw [Assoc.seek_eq_filter k hsorted] at hy
    exact ⟨it, hit, hy⟩
  · have hgood' : ∀ t ∈ ts', t.Good E := fun t ht => hgood t (hsub.subset ht)
    have hsorted' := SsTable.Good.sorted_flatten hgood' (hdisj.sublist hsub)
    obtain ⟨it, hit, hy⟩ := createAndSeekToKey_yields hholds hsorted k
    obtain ⟨it', hit', hy'⟩ := createAndSeekToKey_yields (LsmStorageState.forall₂_holds hgood')
      hsorted' k
    refine ⟨it, it', hit, hit', fun v => ?_⟩
    rw [yields_seek_iff hsorted hy, yields_seek_iff hsorted' hy']
    simp only [List.mem_flatten, List.mem_map, exists_exists_and_eq_and]
    constructor
    · rintro ⟨t, ht, he⟩
      obtain ⟨hfirst, hlast⟩ := (hgood t ht).key_mem_range he
      exact ⟨t, hkeep t ht hfirst hlast, he⟩
    · rintro ⟨t, ht, he⟩
      exact ⟨t, hsub.subset ht, he⟩

/-- A table of one entry. -/
theorem SsTable.exists_good (e : Bytes × Bytes) (hst : Storable e)
    (hlt : (((SsTableBuilder.create 4096 .none).add .lib e.1 e.2).fileBytes .lib).length < 2^32) :
    ∃ t : SsTable, t.Good .lib ∧ t.contents .lib = [e] ∧ t.first_key = e.1 ∧ t.last_key = e.1 := by
  have hholds := SsTableBuilder.add_holds (SsTableBuilder.create_holds .lib
    (show 4096 ≤ 65536 by decide) .none) hst
  obtain ⟨t, -, ht, -, -⟩ := open_fileBytes hholds (List.pairwise_singleton _ _)
    (List.cons_ne_nil e []) 0 hlt
  exact ⟨t, ht.good, ht.contents_eq, ht.first_key, ht.last_key⟩

theorem SstConcatIterator.create_two_tables :
    ∃ (ts : List SsTable) (it : SstConcatIterator .lib), ts.length = 2 ∧
      createAndSeekToFirst .lib ts = .ok it ∧ Yields it [([97], [49]), ([98], [50])] := by
  obtain ⟨a, hga, hca, -, hla⟩ := SsTable.exists_good ([97], [49]) (by decide) (by decide +kernel)
  obtain ⟨b, hgb, hcb, hfb, -⟩ := SsTable.exists_good ([98], [50]) (by decide) (by decide +kernel)
  have hgood : ∀ t ∈ [a, b], t.Good .lib := by simp [hga, hgb]
  have hdisj : [a, b].Pairwise fun a b => a.last_key < b.first_key := by
    rw [List.pairwise_pair, hla, hfb]
    decide
  obtain ⟨⟨it, hit, hy⟩, -, -⟩ := create_of_disjoint hgood hdisj
  exact ⟨[a, b], it, rfl, hit, by simpa [hca, hcb] using hy⟩

/-! ## The tables of a compaction -/

/-- What a compaction is meant to do with the sequence `l` of its iterator: it cuts it into tables
with entries, with increasing disjoint ranges of keys and new identifiers. It leaves out the deleted
keys where it goes to the bottom level, and nothing else. -/
def LsmStorageInner.Splits {M ι : Type} [Cursor ι Bytes Bytes Error] (E : Extern)
    (s : LsmStorageInner M) (iter : ι) (bottom : Bool) (l : List (Bytes × Bytes)) : Prop :=
  ∃ ts ess, (s.compactGenerateSstFromIter E iter bottom).1 = .ok ts ∧
    List.Forall₂ (fun t es => es ≠ [] ∧
      ∃ it, SsTableIterator.createAndSeekToFirst E t = .ok it ∧ Yields it es) ts ess ∧
    (ts.Pairwise fun a b => a.last_key < b.first_key) ∧ (ts.map SsTable.id).Nodup ∧
    (∀ t ∈ ts, s.next_sst_id ≤ t.id ∧
      t.id < (s.compactGenerateSstFromIter E iter bottom).2.next_sst_id) ∧
    ess.flatten = if bottom then l.filter fun e => !e.2.isEmpty else l

namespace LsmStorageInner

variable {M ι : Type} [Cursor ι Bytes Bytes Error] {E : Extern} {s : LsmStorageInner M} {iter : ι}
  {bottom : Bool} {l : List (Bytes × Bytes)}

/-- The tables of a compaction have the entries that it keeps, with their values cut to what a block
can store. -/
theorem compactGenerateSstFromIter_cut (hy : Yields iter l)
    (hs : (l.map Prod.fst).Pairwise (· < ·))
    (hkeys : ∀ e ∈ keptEntries bottom l, e.1 ≠ [] ∧ e.1.length ≤ 65535)
    (hsize : s.options.block_size ≤ 65536)
    (hsmall : (s.compactGenerateSstFromIter E iter bottom).2.disk.Small) :
    ∃ ts, (s.compactGenerateSstFromIter E iter bottom).1 = .ok ts ∧
      Built E s (s.compactGenerateSstFromIter E iter bottom).2 ts
        ((keptEntries bottom l).map cutEntry) := by
  have hsorted : Assoc.Sorted ([] ++ (keptEntries bottom l).map cutEntry) :=
    sorted_map_cutEntry.mpr
      ((List.pairwise_map.mp hs : Assoc.Sorted l).sublist (sublist_keptEntries bottom l))
  have hnone : ∀ b : SsTableBuilder, none = some b → b.Holds E [] := fun b hb => by cases hb
  exact compactLoop_cut [] hy (Nat.lt_succ_of_le hy.length_le) hnone (fun _ => rfl) hsorted
    (fun e he => storable_truncate (hkeys e he).1 (hkeys e he).2 e.2) hsize hsmall

/-- The tables that a compaction has built are what it is meant to build of their entries. -/
theorem Built.splits {ts : List SsTable}
    (hts : (s.compactGenerateSstFromIter E iter bottom).1 = .ok ts)
    (hb : Built E s (s.compactGenerateSstFromIter E iter bottom).2 ts (keptEntries bottom l))
    (hs : Assoc.Sorted l) : Splits E s iter bottom l := by
  have hsorted : Assoc.Sorted (keptEntries bottom l) := hs.sublist (sublist_keptEntries bottom l)
  have hids : ∀ t ∈ ts, ∃ i < ts.length, t.id = s.next_sst_id + i := by
    intro t ht
    have hid : t.id ∈ List.range' s.next_sst_id ts.length := by
      rw [← hb.ids]
      exact List.mem_map_of_mem ht
    obtain ⟨i, hi, heq⟩ := List.mem_range'.mp hid
    exact ⟨i, hi, by omega⟩
  refine ⟨ts, ts.map (SsTable.contents E), hts, ?_, ?_, ?_, fun t ht => ?_, hb.contents⟩
  · have hgood := hb.good
    clear hts hb hids
    induction ts with
    | nil => exact .nil
    | cons t ts ih =>
      rw [List.forall_mem_cons] at hgood
      exact .cons ⟨hgood.1.ne_nil, SsTableIterator.createAndSeekToFirst_yields hgood.1⟩ (ih hgood.2)
  · exact SsTable.Good.pairwise_ranges hb.good (by rw [hb.contents]; exact hsorted)
  · rw [hb.ids]
    exact List.nodup_range'
  · obtain ⟨i, hi, heq⟩ := hids t ht
    have hnext : (s.compactGenerateSstFromIter E iter bottom).2.next_sst_id =
        s.next_sst_id + ts.length := hb.next_eq
    omega

/-- What the tables of a compaction yield are their entries. -/
theorem flatten_of_yields {ts : List SsTable} {ess : List (List (Bytes × Bytes))}
    (hgood : ∀ t ∈ ts, t.Good E) (h : List.Forall₂ (fun t es => es ≠ [] ∧
      ∃ it, SsTableIterator.createAndSeekToFirst E t = .ok it ∧ Yields it es) ts ess) :
    ess = ts.map (SsTable.contents E) := by
  induction h with
  | nil => rfl
  | cons hes _ ih =>
    rw [List.forall_mem_cons] at hgood
    obtain ⟨-, it, hit, hy⟩ := hes
    obtain ⟨it', hit', hy'⟩ := SsTableIterator.createAndSeekToFirst_yields hgood.1
    rw [hit] at hit'
    cases hit'
    rw [List.map_cons, ih hgood.2, hy.unique hy']

/-- A compaction whose tables have all that it keeps has kept no value of more than 65535 bytes. -/
theorem Splits.length_le (h : Splits E s iter bottom l) (hy : Yields iter l)
    (hs : (l.map Prod.fst).Pairwise (· < ·))
    (hkeys : ∀ e ∈ keptEntries bottom l, e.1 ≠ [] ∧ e.1.length ≤ 65535)
    (hsize : s.options.block_size ≤ 65536)
    (hsmall : (s.compactGenerateSstFromIter E iter bottom).2.disk.Small) :
    ∀ e ∈ keptEntries bottom l, e.2.length ≤ 65535 := by
  obtain ⟨ts, ess, hts, hess, -, -, -, hflat⟩ := h
  obtain ⟨ts', hts', hb⟩ := compactGenerateSstFromIter_cut hy hs hkeys hsize hsmall
  obtain rfl := Except.ok.inj (hts.symm.trans hts')
  rw [flatten_of_yields hb.good hess, hb.contents] at hflat
  change _ = keptEntries bottom l at hflat
  intro e he
  have hcut : cutEntry e = e := by
    obtain ⟨i, hi⟩ := List.mem_iff_getElem?.mp he
    have hget : ((keptEntries bottom l).map cutEntry)[i]? = (keptEntries bottom l)[i]? := by
      rw [hflat]
    rw [List.getElem?_map, hi] at hget
    exact Option.some.inj hget
  have hlen := congrArg (fun e => e.2.length) hcut
  dsimp only [cutEntry] at hlen
  rw [length_truncate] at hlen
  omega

/-- With keys that a block can store and files within the format, a compaction splits the sequence
of its iterator exactly where every value that it keeps has at most 65535 bytes. -/
theorem compactGenerateSstFromIter_splits_iff (hy : Yields iter l)
    (hs : (l.map Prod.fst).Pairwise (· < ·))
    (hkeys : ∀ e ∈ keptEntries bottom l, e.1 ≠ [] ∧ e.1.length ≤ 65535)
    (hsize : s.options.block_size ≤ 65536)
    (hsmall : (s.compactGenerateSstFromIter E iter bottom).2.disk.Small) :
    Splits E s iter bottom l ↔ ∀ e ∈ keptEntries bottom l, e.2.length ≤ 65535 := by
  refine ⟨fun h => h.length_le hy hs hkeys hsize hsmall, fun hvalues => ?_⟩
  obtain ⟨ts, hts, hb⟩ := compactGenerateSstFromIter_cut hy hs hkeys hsize hsmall
  rw [map_cutEntry fun e he => ⟨(hkeys e he).1, (hkeys e he).2, hvalues e he⟩] at hb
  exact Built.splits hts hb (List.pairwise_map.mp hs)

/-- A new store whose tables are cut after each entry. -/
def cutAlways : LsmStorageInner (List ManifestRecord) :=
  openFresh .list Disk.empty { target_sst_size := 0, block_size := 16 }

theorem compactGenerateSstFromIter_three_keys :
    Splits .lib cutAlways (MemTableIterator.mk [([97], []), ([98], [50]), ([99], [51])]) true
      [([97], []), ([98], [50]), ([99], [51])] := by
  have hsmall : (cutAlways.compactGenerateSstFromIter .lib
      (MemTableIterator.mk [([97], []), ([98], [50]), ([99], [51])]) true).2.disk.Small :=
    ((openFresh_bounded _ _).wrote (compactLoop_wrote _ _ _ _ _ _)).small (by decide +kernel)
  exact (compactGenerateSstFromIter_splits_iff
    (MemTableIterator.yields [([97], []), ([98], [50]), ([99], [51])]) (by decide) (by decide)
    (by decide) hsmall).mpr (by decide)

/-- The file of a single long value keeps to the format. -/
theorem small_longValue {value : Bytes} (hlen : value.length = 65536) :
    ((openFresh .list Disk.empty {} : LsmStorageInner (List ManifestRecord)).compactGenerateSstFromIter
      .lib (MemTableIterator.mk [([97], value)]) false).2.disk.Small := by
  obtain ⟨b, hb⟩ : ∃ b, b = (SsTableBuilder.create 4096 .none).add .lib [97] value := ⟨_, rfl⟩
  have hsize : b.estimatedSize = 0 := by
    rw [hb, SsTableBuilder.create_add]
    rfl
  have hfile : (b.fileBytes .lib).length < 2^32 := by
    rw [hb, length_fileBytes_single, hlen]
    decide
  obtain ⟨s, hs⟩ : ∃ s, s = (openFresh .list Disk.empty {} : LsmStorageInner (List ManifestRecord)) :=
    ⟨_, rfl⟩
  have hadd : s.addEntry .lib false none [97] value = b := by
    rw [hb, hs]
    rfl
  have htarget : s.options.target_sst_size = 2097152 := by
    rw [hs]
    rfl
  have hempty : s.disk.ssts = fun _ => none := by
    rw [hs]
    rfl
  rw [← hs]
  have hnotempty : b.isEmpty = false := by
    rw [hb, SsTableBuilder.create_add]
    rfl
  have hloop : s.compactGenerateSstFromIter .lib (MemTableIterator.mk [([97], value)]) false =
      (s.buildNext .lib b).bind fun sst s => (.ok [sst], s) := by
    unfold compactGenerateSstFromIter
    change compactLoop .lib false 2 _ none [] s = _
    have hnext : Cursor.next (MemTableIterator.mk [([97], value)]) = .ok (MemTableIterator.mk []) :=
      rfl
    rw [compactLoop_round (b := b) 1 [] rfl hnext hadd, hsize, htarget, if_neg (by simp),
      compactLoop_last 0 [] rfl hnotempty]
    rfl
  rw [hloop]
  intro id buf hbuf
  have hssts : ((s.buildNext .lib b).bind fun sst s => ((.ok [sst], s) :
      Outcome _ (List SsTable))).2.disk.ssts =
        Function.update s.disk.ssts s.next_sst_id (some (b.fileBytes .lib)) := by
    unfold buildNext build
    dsimp only
    rcases SsTable.open .lib s.next_sst_id (b.fileBytes .lib) with e | t <;> rfl
  rw [hssts, hempty] at hbuf
  by_cases hid : id = s.next_sst_id
  · rw [hid, Function.update_self] at hbuf
    cases hbuf
    exact hfile
  · rw [Function.update_of_ne hid] at hbuf
    cases hbuf

/-- A value of 2^16 bytes comes out of a compaction empty. -/
theorem not_splits_longValue :
    ¬ ∀ (s : LsmStorageInner (List ManifestRecord)) (l : List (Bytes × Bytes)) (bottom : Bool),
      (l.map Prod.fst).Pairwise (· < ·) → (∀ e ∈ l, e.1 ≠ []) → s.options.block_size ≤ 65536 →
      Splits .lib s (MemTableIterator.mk l) bottom l := by
  intro h
  obtain ⟨value, hlen⟩ : ∃ value : Bytes, value.length = 65536 :=
    ⟨List.replicate 65536 0, List.length_replicate⟩
  have hsplits := h (openFresh .list Disk.empty {}) [([97], value)] false
    (List.pairwise_singleton _ _) (by simp) (by decide)
  have hle := hsplits.length_le (MemTableIterator.yields [([97], value)])
    (List.pairwise_singleton _ _) (by simp [keptEntries]) (by decide) (small_longValue hlen)
    ([97], value) (by simp [keptEntries])
  rw [hlen] at hle
  exact absurd hle (by decide)

end LsmStorageInner

end MiniLsm
