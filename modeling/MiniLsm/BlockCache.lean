import MiniLsm.Table
import MiniLsm.Lib.Recency

/-!
# The block cache

`BlockCache` is a list of nodes, the most recently used one first, and a map from the keys to
iterators of the list. An iterator is modelled by the number of the node that it points at, which a
node keeps when `splice` moves it. A function has no result where the code's behaviour is undefined:
where an iterator points at no node of the list, and at `back` of an empty list.

`BlockCache.Linked` is the invariant that ties the two structures together. Over it, the cache is
the list of its entries (`BlockCache.entries`): a use of an entry brings it to the front, and an
insertion into a full cache drops the last one. The order of the entries is the one of their last
uses (`BlockCache.lru_transparent`).
-/

namespace MiniLsm

/-- `BlockCache::Key`: `sst_id` and `block_idx`. -/
abbrev BlockCacheKey := ℕ × ℕ

/-- A node of the list of the cache. `it` is what the iterators that point at it are. -/
structure BlockCacheNode (B : Type) where
  it : ℕ
  key : BlockCacheKey
  block : B

/-- `BlockCache`, over any type of blocks. `next_it` is the iterator of the next new node. -/
structure BlockCache (B : Type) where
  capacity : ℕ
  list : List (BlockCacheNode B)
  map : AList fun _ : BlockCacheKey => ℕ
  next_it : ℕ

namespace BlockCache

variable {B : Type}

/-- The constructor of `BlockCache`. -/
def create (B : Type) (capacity : ℕ) : BlockCache B := ⟨capacity, [], ∅, 0⟩

/-- `BlockCache::size` -/
def size (c : BlockCache B) : ℕ := c.map.entries.length

/-- `list_.splice(list_.begin(), list_, it)` and the node that `it` points at. -/
def splice (c : BlockCache B) (it : ℕ) : Option (BlockCacheNode B × BlockCache B) :=
  match c.list.find? fun n => n.it = it with
  | some n => some (n, { c with list := n :: c.list.filter fun m => m.it ≠ it })
  | none => none

/-- `BlockCache::get` -/
def get (c : BlockCache B) (key : BlockCacheKey) : Option (Option B × BlockCache B) :=
  match c.map.lookup key with
  | none => some (none, c)
  | some it => (c.splice it).map fun (n, c) => (some n.block, c)

/-- The removal of the last node, by an insertion into a full cache. -/
def popBack (c : BlockCache B) : Option (BlockCache B) :=
  match c.list.getLast? with
  | some last => some { c with map := c.map.erase last.key, list := c.list.dropLast }
  | none => none

/-- The new node of an insertion. -/
def pushFront (c : BlockCache B) (key : BlockCacheKey) (block : B) : BlockCache B :=
  { c with
    list := ⟨c.next_it, key, block⟩ :: c.list
    map := c.map.insert key c.next_it
    next_it := c.next_it + 1 }

/-- `it->second->second = std::move(block)` -/
def assign (c : BlockCache B) (it : ℕ) (block : B) : BlockCache B :=
  { c with list := c.list.map fun n => if n.it = it then { n with block := block } else n }

/-- `BlockCache::insert` -/
def insert (c : BlockCache B) (key : BlockCacheKey) (block : Option B) : Option (BlockCache B) :=
  match block with
  | none => some c
  | some block =>
    if c.capacity = 0 then some c else
    match c.map.lookup key with
    | some it => ((c.assign it block).splice it).map fun (_, c) => c
    | none =>
      if c.size ≥ c.capacity then c.popBack.map fun c => c.pushFront key block
      else some (c.pushFront key block)

/-- `BlockCache::try_get_with`. What `loader` throws is thrown on. -/
def tryGetWith (c : BlockCache B) (key : BlockCacheKey) (loader : Except Error (Option B)) :
    Option (Except Error (Option B) × BlockCache B) :=
  match c.get key with
  | none => none
  | some (some block, c) => some (.ok (some block), c)
  | some (none, c) =>
    match loader with
    | .error e => some (.error e, c)
    | .ok block => (c.insert key block).map fun c => (.ok block, c)

end BlockCache

/-- `SsTable::read_block_cached`, and the cache behind it. -/
def SsTable.readBlockCached (E : Extern) (t : SsTable) (block_cache : Option (BlockCache Block))
    (block_idx : ℕ) : Option (Except Error (Option Block) × Option (BlockCache Block)) :=
  match block_cache with
  | none => some ((t.readBlock E block_idx).map some, none)
  | some c =>
    (c.tryGetWith (t.id, block_idx) ((t.readBlock E block_idx).map some)).map
      fun (block, c) => (block, some c)

/-- An operation on the cache. Blocks passed to `insert` are not null, and a loader throws, or
returns a block or null. -/
inductive BlockCacheOp (B : Type) where
  | get (key : BlockCacheKey)
  | insert (key : BlockCacheKey) (block : B)
  | tryGetWith (key : BlockCacheKey) (loader : Except Error (Option B))

namespace BlockCache

variable {B : Type}

/-- The cache behind an operation. -/
def step (c : BlockCache B) : BlockCacheOp B → Option (BlockCache B)
  | .get key => (c.get key).map fun (_, c) => c
  | .insert key block => c.insert key (some block)
  | .tryGetWith key loader => (c.tryGetWith key loader).map fun (_, c) => c

/-- The key of the successful get or insert of an operation, where it has one. -/
def used (c : BlockCache B) : BlockCacheOp B → Option BlockCacheKey
  | .get key => if key ∈ c.map then some key else none
  | .insert key _ => if c.capacity = 0 then none else some key
  | .tryGetWith key loader =>
    if key ∈ c.map then some key else
    match loader with
    | .ok (some _) => if c.capacity = 0 then none else some key
    | _ => none

/-- The cache behind a sequence of operations, and the history of the keys that they have used. -/
def run (B : Type) (capacity : ℕ) (ops : List (BlockCacheOp B)) :
    Option (BlockCache B × List (Option BlockCacheKey)) :=
  ops.foldlM (fun (c, uses) op => (c.step op).map fun c' => (c', uses ++ [c.used op]))
    (create B capacity, [])

variable {c c' : BlockCache B} {n n' : BlockCacheNode B} {key k : BlockCacheKey} {block : B}

/-! ## The map and the list -/

/-- The list of the entries of the cache. -/
def entries (c : BlockCache B) : List (BlockCacheKey × B) := c.list.map fun n => (n.key, n.block)

/-- The keys of the cache, the most recently used one first. -/
def keys (c : BlockCache B) : List BlockCacheKey := c.list.map BlockCacheNode.key

/-- The map and the list have the same keys, each once, and an entry of the map points at the node
of its key. -/
structure Linked (c : BlockCache B) : Prop where
  lookup_iff : ∀ key it, c.map.lookup key = some it ↔ ∃ n ∈ c.list, n.key = key ∧ n.it = it
  keys_nodup : c.keys.Nodup
  /-- Two nodes are not the same one, and a new node is none of them. -/
  its_nodup : (c.list.map BlockCacheNode.it).Nodup
  fresh : ∀ n ∈ c.list, n.it < c.next_it

theorem keys_eq (c : BlockCache B) : c.keys = c.entries.map Prod.fst := by
  rw [keys, entries, List.map_map]
  rfl

theorem create_linked (B : Type) (capacity : ℕ) : (create B capacity).Linked :=
  ⟨by simp [create], List.nodup_nil, List.nodup_nil, by simp [create]⟩

/-- The node that an iterator points at, and the list with this node at the front. -/
theorem find_of_mem {l : List (BlockCacheNode B)} (hl : (l.map BlockCacheNode.it).Nodup)
    (hn : n ∈ l) : (l.find? fun m => m.it = n.it) = some n ∧
      (n :: l.filter fun m => m.it ≠ n.it).Perm l := by
  obtain ⟨l₁, l₂, rfl⟩ := List.append_of_mem hn
  rw [List.map_append, List.map_cons, List.nodup_middle, List.nodup_cons, List.mem_append,
    not_or] at hl
  obtain ⟨⟨h1, h2⟩, -⟩ := hl
  have hne1 : ∀ m ∈ l₁, m.it ≠ n.it := fun m hm heq => h1 (heq ▸ List.mem_map_of_mem hm)
  have hne2 : ∀ m ∈ l₂, m.it ≠ n.it := fun m hm heq => h2 (heq ▸ List.mem_map_of_mem hm)
  constructor
  · have hnone : (l₁.find? fun m => m.it = n.it) = none := by simpa using hne1
    rw [List.find?_append, hnone, Option.none_or, List.find?_cons_of_pos (by simp)]
  · have hf1 : (l₁.filter fun m => m.it ≠ n.it) = l₁ :=
      List.filter_eq_self.mpr (by simpa using hne1)
    have hf2 : (l₂.filter fun m => m.it ≠ n.it) = l₂ :=
      List.filter_eq_self.mpr (by simpa using hne2)
    rw [List.filter_append, List.filter_cons_of_neg (by simp), hf1, hf2]
    exact List.perm_middle.symm

namespace Linked

/-- The map has the keys of the list. -/
theorem mem_iff (h : c.Linked) : key ∈ c.map ↔ key ∈ c.keys := by
  rw [← AList.lookup_isSome, Option.isSome_iff_exists, keys, List.mem_map]
  constructor
  · rintro ⟨it, hit⟩
    obtain ⟨n, hn, hkey, -⟩ := (h.lookup_iff key it).mp hit
    exact ⟨n, hn, hkey⟩
  · rintro ⟨n, hn, hkey⟩
    exact ⟨n.it, (h.lookup_iff key n.it).mpr ⟨n, hn, hkey, rfl⟩⟩

theorem size_eq (h : c.Linked) : c.size = c.entries.length := by
  have hperm : c.map.keys.Perm c.keys := by
    rw [List.perm_ext_iff_of_nodup c.map.keys_nodup h.keys_nodup]
    exact fun key => AList.mem_keys.symm.trans h.mem_iff
  calc c.size = c.map.keys.length := (List.length_map _).symm
    _ = c.keys.length := hperm.length_eq
    _ = c.entries.length := by rw [keys_eq, List.length_map]

/-- Only the nodes and their iterators count, in any order. -/
theorem of_perm (h : c.Linked) (hmap : c'.map = c.map) (hnext : c'.next_it = c.next_it)
    (hperm : (c'.list.map fun n => (n.key, n.it)).Perm (c.list.map fun n => (n.key, n.it))) :
    c'.Linked := by
  have hkeys : c'.keys.Perm c.keys := by
    simpa [keys, Function.comp_def] using hperm.map Prod.fst
  have hits : (c'.list.map BlockCacheNode.it).Perm (c.list.map BlockCacheNode.it) := by
    simpa [Function.comp_def] using hperm.map Prod.snd
  have hmem : ∀ key it, (∃ n ∈ c'.list, n.key = key ∧ n.it = it) ↔
      ∃ n ∈ c.list, n.key = key ∧ n.it = it := fun key it => by
    simpa using hperm.mem_iff (a := (key, it))
  refine ⟨fun key it => ?_, hkeys.nodup_iff.mpr h.keys_nodup, hits.nodup_iff.mpr h.its_nodup, ?_⟩
  · rw [hmap, hmem]
    exact h.lookup_iff key it
  · intro n hn
    obtain ⟨m, hm, -, hit⟩ := (hmem n.key n.it).mp ⟨n, hn, rfl, rfl⟩
    rw [← hit, hnext]
    exact h.fresh m hm

end Linked

/-! ## What an operation does to the entries -/

/-- `c'` is the cache behind a use of `key`, which now has `block`: the entry is at the front, and
the last entry is gone where a new one has come into a full cache. -/
structure Used (c c' : BlockCache B) (key : BlockCacheKey) (block : B) : Prop where
  linked : c'.Linked
  capacity : c'.capacity = c.capacity
  entries :
    (key ∈ c.keys ∧ c'.entries = (key, block) :: c.entries.filter fun e => e.1 ≠ key) ∨
    (key ∉ c.keys ∧ c.entries.length < c.capacity ∧ c'.entries = (key, block) :: c.entries) ∨
    (key ∉ c.keys ∧ 0 < c.capacity ∧ c.capacity ≤ c.entries.length ∧
      c'.entries = (key, block) :: c.entries.dropLast)

/-- A node of the list comes to the front. -/
theorem Linked.splice (h : c.Linked) (hn : n ∈ c.list) :
    ∃ c', c.splice n.it = some (n, c') ∧ c'.Linked ∧ c'.capacity = c.capacity ∧
      c'.entries = (n.key, n.block) :: c.entries.filter fun e => e.1 ≠ n.key := by
  obtain ⟨hfind, hperm⟩ := find_of_mem h.its_nodup hn
  refine ⟨{ c with list := n :: c.list.filter fun m => m.it ≠ n.it }, ?_, ?_, rfl, ?_⟩
  · unfold BlockCache.splice
    rw [hfind]
  · exact h.of_perm rfl rfl (hperm.map _)
  · -- Two nodes of the list have the same iterator exactly where they have the same key.
    have hiff : ∀ m ∈ c.list, (m.it = n.it ↔ m.key = n.key) := fun m hm => by
      constructor
      · intro hit
        rw [List.inj_on_of_nodup_map h.its_nodup hm hn hit]
      · intro hkey
        rw [List.inj_on_of_nodup_map h.keys_nodup hm hn hkey]
    have hfilter : (c.list.filter fun m => m.it ≠ n.it) = c.list.filter fun m => m.key ≠ n.key :=
      List.filter_congr fun m hm => by simpa using hiff m hm
    unfold BlockCache.entries
    dsimp only
    rw [hfilter, List.map_cons, List.filter_map]
    rfl

/-- The assignment to a node of the list. -/
theorem Linked.assign (h : c.Linked) (hn : n ∈ c.list) (block : B) :
    (c.assign n.it block).Linked ∧ { n with block := block } ∈ (c.assign n.it block).list ∧
      ((c.assign n.it block).entries.filter fun e => e.1 ≠ n.key) =
        c.entries.filter fun e => e.1 ≠ n.key := by
  refine ⟨h.of_perm rfl rfl ?_, ?_, ?_⟩
  · unfold BlockCache.assign
    rw [List.map_map]
    refine List.Perm.of_eq (List.map_congr_left fun m _ => ?_)
    dsimp only [Function.comp_apply]
    split_ifs <;> rfl
  · refine List.mem_map.mpr ⟨n, hn, ?_⟩
    rw [if_pos rfl]
  · unfold BlockCache.assign BlockCache.entries
    dsimp only
    rw [List.map_map, List.filter_map, List.filter_map]
    have hkey : ∀ m : BlockCacheNode B,
        (if m.it = n.it then { m with block := block } else m).key = m.key := fun m => by
      split_ifs <;> rfl
    simp only [Function.comp_def, hkey]
    refine List.map_congr_left fun m hm => ?_
    obtain ⟨hm, hne⟩ := List.mem_filter.mp hm
    have hit : m.it ≠ n.it := fun hit => by
      rw [List.inj_on_of_nodup_map h.its_nodup hm hn hit] at hne
      simp at hne
    rw [if_neg hit]

/-- A node with a new key is put to the front. -/
theorem Linked.pushFront (h : c.Linked) (hkey : key ∉ c.keys) (block : B) :
    (c.pushFront key block).Linked := by
  have hit : c.next_it ∉ c.list.map BlockCacheNode.it := fun hmem => by
    obtain ⟨m, hm, heq⟩ := List.mem_map.mp hmem
    exact absurd heq (h.fresh m hm).ne
  refine ⟨fun k it => ?_, List.nodup_cons.mpr ⟨hkey, h.keys_nodup⟩,
    List.nodup_cons.mpr ⟨hit, h.its_nodup⟩, ?_⟩
  · unfold BlockCache.pushFront
    dsimp only
    by_cases hk : k = key
    · subst hk
      rw [AList.lookup_insert]
      constructor
      · intro heq
        exact ⟨_, List.mem_cons_self, rfl, Option.some_inj.mp heq⟩
      · rintro ⟨m, hm, hmkey, hmit⟩
        rcases List.mem_cons.mp hm with rfl | hm
        · rw [← hmit]
        · exact absurd (hmkey ▸ List.mem_map_of_mem hm) hkey
    · rw [AList.lookup_insert_ne hk, h.lookup_iff]
      simp [Ne.symm hk]
  · intro m hm
    rcases List.mem_cons.mp hm with rfl | hm
    · exact Nat.lt_succ_self _
    · exact (h.fresh m hm).trans (Nat.lt_succ_self _)

/-- The last node goes, with its entry in the map. -/
theorem Linked.popBack (h : c.Linked) (hne : c.entries ≠ []) :
    ∃ c', c.popBack = some c' ∧ c'.Linked ∧ c'.capacity = c.capacity ∧
      c'.entries = c.entries.dropLast := by
  have hlist : c.list ≠ [] := fun hnil => hne (by rw [entries, hnil, List.map_nil])
  obtain ⟨init, last, hlist⟩ : ∃ init last, c.list = init ++ [last] :=
    ⟨_, _, (List.dropLast_concat_getLast hlist).symm⟩
  have hkeys : c.keys = init.map BlockCacheNode.key ++ [last.key] := by
    rw [keys, hlist, List.map_append, List.map_singleton]
  have hnodup := h.keys_nodup
  have hits := h.its_nodup
  rw [hkeys, List.nodup_append_comm, List.singleton_append, List.nodup_cons] at hnodup
  rw [hlist, List.map_append, List.map_singleton, List.nodup_append_comm, List.singleton_append,
    List.nodup_cons] at hits
  refine ⟨{ c with map := c.map.erase last.key, list := init }, ?_, ⟨fun key it => ?_, hnodup.2,
    hits.2, fun m hm => h.fresh m ?_⟩, rfl, ?_⟩
  · unfold BlockCache.popBack
    rw [hlist, List.getLast?_concat, List.dropLast_concat]
  · dsimp only
    by_cases hkey : key = last.key
    · subst hkey
      rw [AList.lookup_erase]
      constructor
      · intro heq
        cases heq
      · rintro ⟨m, hm, hmkey, -⟩
        exact absurd (hmkey ▸ List.mem_map_of_mem hm) hnodup.1
    · rw [AList.lookup_erase_ne hkey, h.lookup_iff, hlist]
      simp [Ne.symm hkey]
  · rw [hlist]
    exact List.mem_append_left _ hm
  · rw [entries, entries, hlist, List.map_append, List.map_singleton, List.dropLast_concat]

/-- `get` returns the block of an entry, which it brings to the front. -/
theorem Linked.get (h : c.Linked) (key : BlockCacheKey) :
    (key ∉ c.map ∧ c.get key = some (none, c)) ∨
      ∃ block c', key ∈ c.map ∧ (key, block) ∈ c.entries ∧ c.get key = some (some block, c') ∧
        Used c c' key block := by
  unfold BlockCache.get
  rcases hlookup : c.map.lookup key with _ | it
  · exact .inl ⟨AList.lookup_eq_none.mp hlookup, rfl⟩
  · obtain ⟨n, hn, rfl, rfl⟩ := (h.lookup_iff key it).mp hlookup
    obtain ⟨c', hsplice, hlinked, hcap, hentries⟩ := h.splice hn
    refine .inr ⟨n.block, c', ?_, List.mem_map_of_mem hn, ?_, hlinked, hcap, .inl ⟨?_, hentries⟩⟩
    · exact AList.lookup_isSome.mp (hlookup ▸ rfl)
    · dsimp only
      rw [hsplice, Option.map_some]
    · exact List.mem_map_of_mem hn

/-- `insert` stores a block in the cache, if the cache can store any. -/
theorem Linked.insert (h : c.Linked) (hcap : c.capacity ≠ 0) (key : BlockCacheKey) (block : B) :
    ∃ c', c.insert key (some block) = some c' ∧ Used c c' key block := by
  unfold BlockCache.insert
  dsimp only
  rw [if_neg hcap]
  rcases hlookup : c.map.lookup key with _ | it
  · have hkey : key ∉ c.keys := fun hmem => AList.lookup_eq_none.mp hlookup (h.mem_iff.mpr hmem)
    dsimp only
    rw [h.size_eq]
    split_ifs with hfull
    · have hne : c.entries ≠ [] := List.ne_nil_of_length_pos (by omega)
      obtain ⟨c₁, hpop, hlinked, hcap₁, hentries⟩ := h.popBack hne
      have hkey₁ : key ∉ c₁.keys := fun hmem => hkey (by
        rw [keys_eq, hentries, List.map_dropLast, ← keys_eq] at hmem
        exact List.mem_of_mem_dropLast hmem)
      refine ⟨c₁.pushFront key block, by rw [hpop, Option.map_some], hlinked.pushFront hkey₁ block,
        hcap₁, .inr (.inr ⟨hkey, Nat.pos_of_ne_zero hcap, hfull, ?_⟩)⟩
      rw [← hentries]
      rfl
    · exact ⟨_, rfl, h.pushFront hkey block, rfl, .inr (.inl ⟨hkey, by omega, rfl⟩)⟩
  · obtain ⟨n, hn, rfl, rfl⟩ := (h.lookup_iff key it).mp hlookup
    obtain ⟨hlinked, hmem, hfilter⟩ := h.assign hn block
    obtain ⟨c', hsplice, hlinked', hcap', hentries⟩ := hlinked.splice hmem
    dsimp only at hsplice hentries ⊢
    refine ⟨c', by rw [hsplice, Option.map_some], hlinked', hcap', .inl ⟨?_, ?_⟩⟩
    · exact List.mem_map_of_mem hn
    · rw [hentries, hfilter]

end BlockCache

/-- The loaders of the operation for `key` return `v`, and so does what it inserts for `key`. -/
def BlockCacheOp.Loads {B : Type} (key : BlockCacheKey) (v : Except Error (Option B)) :
    BlockCacheOp B → Prop
  | .get _ => True
  | .insert k block => k = key → v = .ok (some block)
  | .tryGetWith k loader => k = key → loader = v

namespace BlockCache

variable {B : Type} {c c' : BlockCache B} {key : BlockCacheKey} {block : B}

/-- `try_get_with` returns the block of the entry, or else what the loader returns or throws. -/
theorem Linked.tryGetWith (h : c.Linked) (key : BlockCacheKey) (loader : Except Error (Option B)) :
    ∃ v c', c.tryGetWith key loader = some (v, c') ∧
      ((key ∈ c.map ∧ ∃ block, v = .ok (some block) ∧ (key, block) ∈ c.entries ∧
          Used c c' key block) ∨
        (key ∉ c.map ∧ v = loader ∧
          ((c' = c ∧ (c.capacity = 0 ∨ ∀ block, loader ≠ .ok (some block))) ∨
            c.capacity ≠ 0 ∧ ∃ block, loader = .ok (some block) ∧ Used c c' key block))) := by
  unfold BlockCache.tryGetWith
  rcases h.get key with ⟨hkey, hget⟩ | ⟨block, c', hkey, hmem, hget, hused⟩
  · rw [hget]
    dsimp only
    rcases loader with e | _ | block
    · exact ⟨_, c, rfl, .inr ⟨hkey, rfl, .inl ⟨rfl, .inr (by simp)⟩⟩⟩
    · exact ⟨_, c, rfl, .inr ⟨hkey, rfl, .inl ⟨rfl, .inr (by simp)⟩⟩⟩
    · by_cases hcap : c.capacity = 0
      · refine ⟨_, c, ?_, .inr ⟨hkey, rfl, .inl ⟨rfl, .inl hcap⟩⟩⟩
        unfold BlockCache.insert
        dsimp only
        rw [if_pos hcap, Option.map_some]
      · obtain ⟨c', hinsert, hused⟩ := h.insert hcap key block
        refine ⟨_, c', ?_, .inr ⟨hkey, rfl, .inr ⟨hcap, block, rfl, hused⟩⟩⟩
        dsimp only
        rw [hinsert, Option.map_some]
  · rw [hget]
    exact ⟨_, c', rfl, .inl ⟨hkey, block, rfl, hmem, hused⟩⟩

/-- An operation leaves the cache as it is, or it uses a key whose block was there or is loaded. -/
theorem Linked.step (h : c.Linked) (op : BlockCacheOp B) :
    ∃ c', c.step op = some c' ∧ ((c' = c ∧ c.used op = none) ∨
      ∃ key block, c.used op = some key ∧ Used c c' key block ∧
        ((key, block) ∈ c.entries ∨ ∀ v, op.Loads key v → v = .ok (some block))) := by
  cases op with
  | get key =>
    unfold BlockCache.step used
    dsimp only
    rcases h.get key with ⟨hkey, hget⟩ | ⟨block, c', hkey, hmem, hget, hused⟩
    · rw [hget, Option.map_some, if_neg hkey]
      exact ⟨c, rfl, .inl ⟨rfl, rfl⟩⟩
    · rw [hget, Option.map_some, if_pos hkey]
      exact ⟨c', rfl, .inr ⟨key, block, rfl, hused, .inl hmem⟩⟩
  | insert key block =>
    unfold BlockCache.step used
    dsimp only
    by_cases hcap : c.capacity = 0
    · unfold BlockCache.insert
      dsimp only
      rw [if_pos hcap, if_pos hcap]
      exact ⟨c, rfl, .inl ⟨rfl, rfl⟩⟩
    -- An insert puts its own block under the key, whatever was there.
    · obtain ⟨c', hinsert, hused⟩ := h.insert hcap key block
      rw [if_neg hcap]
      exact ⟨c', hinsert, .inr ⟨key, block, rfl, hused, .inr fun v hv => hv rfl⟩⟩
  | tryGetWith key loader =>
    obtain ⟨v, c', htry, hcases⟩ := h.tryGetWith key loader
    unfold BlockCache.step used
    dsimp only
    rw [htry, Option.map_some]
    refine ⟨c', rfl, ?_⟩
    -- The key is there, or the loader gives nothing to keep, or its block comes in.
    rcases hcases with ⟨hkey, block, -, hmem, hused⟩ |
      ⟨hkey, -, ⟨rfl, hnone⟩ | ⟨hcap, block, rfl, hused⟩⟩
    · rw [if_pos hkey]
      exact .inr ⟨key, block, rfl, hused, .inl hmem⟩
    · refine .inl ⟨rfl, ?_⟩
      rw [if_neg hkey]
      rcases loader with e | _ | block
      · rfl
      · rfl
      · exact if_pos (hnone.resolve_right fun hne => hne block rfl)
    · rw [if_neg hkey]
      dsimp only
      rw [if_neg hcap]
      exact .inr ⟨key, block, rfl, hused, .inr fun v hv => (hv rfl).symm⟩

/-! ## Runs -/

/-- The cache is well linked and within its capacity, and its entries are in the order of their last
uses. -/
structure Valid (c : BlockCache B) (uses : List (Option BlockCacheKey)) : Prop where
  linked : c.Linked
  length_le : c.entries.length ≤ c.capacity
  recent : Recency.Recent uses c.keys

variable {uses : List (Option BlockCacheKey)}

theorem Used.keys (hused : Used c c' key block) :
    (key ∈ c.keys ∧ c'.keys = key :: c.keys.filter fun k => k ≠ key) ∨
      (key ∉ c.keys ∧ c'.keys = key :: c.keys) ∨
      (key ∉ c.keys ∧ c'.keys = key :: c.keys.dropLast) := by
  rw [keys_eq c']
  rcases hused.entries with ⟨hkey, heq⟩ | ⟨hkey, -, heq⟩ | ⟨hkey, -, -, heq⟩
  · refine .inl ⟨hkey, ?_⟩
    rw [heq, keys_eq, List.map_cons, List.filter_map]
    rfl
  · refine .inr (.inl ⟨hkey, ?_⟩)
    rw [heq, keys_eq, List.map_cons]
  · refine .inr (.inr ⟨hkey, ?_⟩)
    rw [heq, keys_eq, List.map_cons, List.map_dropLast]

/-- A use keeps the invariant. -/
theorem Valid.used (h : c.Valid uses) (hused : Used c c' key block) :
    c'.Valid (uses ++ [some key]) := by
  refine ⟨hused.linked, ?_, ?_⟩
  · have hle := h.length_le
    rw [hused.capacity]
    rcases hused.entries with ⟨hkey, heq⟩ | ⟨-, hlt, heq⟩ | ⟨-, hcap, -, heq⟩
    · -- The filter has taken the entry of the key away.
      rw [keys_eq, List.mem_map] at hkey
      obtain ⟨e, he, hek⟩ := hkey
      have hlt : (c.entries.filter fun e => e.1 ≠ key).length < c.entries.length :=
        List.length_filter_lt_length_iff_exists.mpr ⟨e, he, by simpa using hek⟩
      rw [heq, List.length_cons]
      omega
    · rw [heq, List.length_cons]
      omega
    · rw [heq, List.length_cons, List.length_dropLast]
      omega
  · rcases hused.keys with ⟨-, heq⟩ | ⟨hkey, heq⟩ | ⟨hkey, heq⟩
    · rw [heq]
      exact h.recent.touch key
    · rw [heq]
      exact h.recent.cons hkey
    · rw [heq]
      exact (h.recent.sublist (List.dropLast_sublist _)).cons fun hmem =>
        hkey (List.mem_of_mem_dropLast hmem)

/-- The used key is at the front, so that the next `get` finds its block. -/
theorem Used.front (hused : Used c c' key block) :
    c'.keys.head? = some key ∧ ∃ c'', c'.get key = some (some block, c'') := by
  have hfront : ∃ es, c'.entries = (key, block) :: es := by
    rcases hused.entries with ⟨-, heq⟩ | ⟨-, -, heq⟩ | ⟨-, -, -, heq⟩
    all_goals exact ⟨_, heq⟩
  obtain ⟨es, heq⟩ := hfront
  have hkeys : c'.keys = key :: es.map Prod.fst := by rw [keys_eq, heq, List.map_cons]
  refine ⟨by rw [hkeys, List.head?_cons], ?_⟩
  rcases hused.linked.get key with ⟨hkey, -⟩ | ⟨block', c'', -, hmem, hget, -⟩
  · rw [hused.linked.mem_iff, hkeys] at hkey
    exact absurd List.mem_cons_self hkey
  · -- The entry that is found is the one at the front, since the keys are distinct.
    have hnodup : (key :: es.map Prod.fst).Nodup := hkeys ▸ hused.linked.keys_nodup
    rw [heq, List.mem_cons] at hmem
    rcases hmem with hmem | hmem
    · rw [(Prod.mk.inj hmem).2] at hget
      exact ⟨c'', hget⟩
    · exact absurd (List.mem_map_of_mem hmem) (List.nodup_cons.mp hnodup).1

/-- The only key that a use can take out of the cache is the last one of a full cache, and it does
so where it comes in new. -/
theorem Used.evicts (hused : Used c c' key block) {k : BlockCacheKey} (hk : k ∈ c.keys)
    (hk' : k ∉ c'.keys) :
    key ∉ c.keys ∧ c.capacity ≤ c.entries.length ∧ c.keys.getLast? = some k := by
  rcases hused.entries with ⟨hkey, heq⟩ | ⟨hkey, -, heq⟩ | ⟨hkey, -, hfull, heq⟩
  · rw [keys_eq, heq, List.map_cons, List.mem_cons, not_or] at hk'
    rw [keys_eq, List.mem_map] at hk
    obtain ⟨e, he, rfl⟩ := hk
    exact absurd (List.mem_map_of_mem (List.mem_filter.mpr ⟨he, by simpa using hk'.1⟩)) hk'.2
  · rw [keys_eq, heq, List.map_cons, ← keys_eq] at hk'
    exact absurd (List.mem_cons_of_mem _ hk) hk'
  · refine ⟨hkey, hfull, ?_⟩
    rw [keys_eq, heq, List.map_cons, List.map_dropLast, ← keys_eq, List.mem_cons, not_or] at hk'
    have hne : c.keys ≠ [] := List.ne_nil_of_mem hk
    rw [← List.dropLast_concat_getLast hne, List.mem_append, List.mem_singleton] at hk
    rw [List.getLast?_eq_some_getLast hne, hk.resolve_left hk'.2]

/-- The entries behind a use are the used one and entries from before. -/
theorem Used.mem_entries (hused : Used c c' key block) {e : BlockCacheKey × B}
    (he : e ∈ c'.entries) : e = (key, block) ∨ e ∈ c.entries := by
  rcases hused.entries with ⟨-, heq⟩ | ⟨-, -, heq⟩ | ⟨-, -, -, heq⟩
  · rw [heq, List.mem_cons, List.mem_filter] at he
    exact he.imp_right And.left
  · rw [heq, List.mem_cons] at he
    exact he
  · rw [heq, List.mem_cons] at he
    exact he.imp_right List.mem_of_mem_dropLast

/-- A run never meets undefined behaviour. It keeps the invariant, and an entry has the block that
the operations load for its key. -/
theorem run_spec (capacity : ℕ) (ops : List (BlockCacheOp B)) :
    ∃ c uses, run B capacity ops = some (c, uses) ∧ c.Valid uses ∧ c.capacity = capacity ∧
      ∀ key v, (∀ op ∈ ops, op.Loads key v) → ∀ block, (key, block) ∈ c.entries →
        v = .ok (some block) := by
  induction ops using List.reverseRecOn with
  | nil =>
    refine ⟨create B capacity, [], rfl, ⟨create_linked B capacity, Nat.zero_le _, ?_⟩, rfl, ?_⟩
    · exact List.Pairwise.nil
    · exact fun _ _ _ _ hmem => absurd hmem List.not_mem_nil
  | append_singleton ops op ih =>
    obtain ⟨c, uses, hrun, hvalid, hcap, hloads⟩ := ih
    obtain ⟨c', hstep, hcases⟩ := hvalid.linked.step op
    have hrun' : run B capacity (ops ++ [op]) = some (c', uses ++ [c.used op]) := by
      unfold run at hrun ⊢
      rw [List.foldlM_append, hrun]
      simp [hstep]
    refine ⟨c', uses ++ [c.used op], hrun', ?_⟩
    rcases hcases with ⟨rfl, hnone⟩ | ⟨key, block, hkey, hused, hblock⟩
    · rw [hnone]
      refine ⟨⟨hvalid.linked, hvalid.length_le, hvalid.recent.concat (by simp)⟩, hcap, ?_⟩
      exact fun key v hv => hloads key v fun op hop => hv op (List.mem_append_left _ hop)
    · rw [hkey]
      refine ⟨hvalid.used hused, hused.capacity.trans hcap, fun key' v hv block' hmem => ?_⟩
      have hold : (key', block') ∈ c.entries → v = .ok (some block') :=
        hloads key' v (fun op hop => hv op (List.mem_append_left _ hop)) block'
      rcases hused.mem_entries hmem with heq | hmem
      · obtain ⟨rfl, rfl⟩ := Prod.mk.injEq _ _ _ _ ▸ heq
        exact hblock.elim hold fun hb => hb v (hv op (by simp))
      · exact hold hmem

/-- If all operations load the same for a key, `try_get_with` returns it. -/
theorem tryGetWith_eq (h : c.Linked) {v : Except Error (Option B)}
    (hv : ∀ block, (key, block) ∈ c.entries → v = .ok (some block)) :
    ∃ c', c.tryGetWith key v = some (v, c') := by
  obtain ⟨w, c', htry, hcases⟩ := h.tryGetWith key v
  rcases hcases with ⟨-, block, rfl, hmem, -⟩ | ⟨-, rfl, -⟩
  · exact ⟨c', hv block hmem ▸ htry⟩
  · exact ⟨c', htry⟩

/-- The cache after any sequence of operations, and its recency order. What is found, inserted or
loaded is at the front afterwards, where the next `get` finds it. A key leaves the cache only where
another one comes into a full cache, and it is then the one whose last successful get or insert is
the oldest. The cache is transparent for every key of which all loaders return the same block, if no
other block is inserted for the key. -/
theorem lru_transparent (E : Extern) (capacity : ℕ) (ops : List (BlockCacheOp Block)) :
    ∃ c uses, run Block capacity ops = some (c, uses) ∧ c.Linked ∧ c.size ≤ capacity ∧
      (∀ key ∈ c.keys, ∃ block c', c.get key = some (some block, c') ∧
        c'.keys = key :: c.keys.filter fun k => k ≠ key) ∧
      (0 < capacity → ∀ key block,
        (∃ c', c.insert key (some block) = some c' ∧ c'.keys.head? = some key ∧
          ∃ c'', c'.get key = some (some block, c'')) ∧
        (key ∉ c.keys → ∃ c', c.tryGetWith key (.ok (some block)) = some (.ok (some block), c') ∧
          c'.keys.head? = some key ∧ ∃ c'', c'.get key = some (some block, c''))) ∧
      (∀ op c', c.step op = some c' → ∀ k ∈ c.keys, k ∉ c'.keys →
        c.size = capacity ∧ (∃ key ∉ c.keys, c.used op = some key) ∧
          ∀ a ∈ c.keys, a ≠ k → Recency.UsedBefore uses k a) ∧
      (∀ key v, (∀ op ∈ ops, op.Loads key v) → ∃ c', c.tryGetWith key v = some (v, c')) ∧
      ∀ (t : SsTable) (i : ℕ),
        (∀ op ∈ ops, op.Loads (t.id, i) ((t.readBlock E i).map some)) →
          ∃ c', t.readBlockCached E (some c) i = some ((t.readBlock E i).map some, some c') := by
  obtain ⟨c, uses, hrun, hvalid, hcap, hloads⟩ := run_spec capacity ops
  have hsize : c.size ≤ capacity := by
    rw [hvalid.linked.size_eq, ← hcap]
    exact hvalid.length_le
  refine ⟨c, uses, hrun, hvalid.linked, hsize, ?_, ?_, ?_, ?_, ?_⟩
  -- A hit moves its key to the front.
  · intro key hkey
    rcases hvalid.linked.get key with ⟨hno, -⟩ | ⟨block, c', -, -, hget, hused⟩
    · exact absurd (hvalid.linked.mem_iff.mpr hkey) hno
    · refine ⟨block, c', hget, ?_⟩
      rcases hused.keys with ⟨-, heq⟩ | ⟨hno, -⟩ | ⟨hno, -⟩
      · exact heq
      · exact absurd hkey hno
      · exact absurd hkey hno
  -- With a capacity there is room for what comes in, at the front.
  · intro hpos key block
    have hcap' : c.capacity ≠ 0 := by omega
    refine ⟨?_, fun hkey => ?_⟩
    · obtain ⟨c', hinsert, hused⟩ := hvalid.linked.insert hcap' key block
      exact ⟨c', hinsert, hused.front⟩
    · obtain ⟨v, c', htry, hcases⟩ := hvalid.linked.tryGetWith key (.ok (some block))
      rcases hcases with ⟨hin, -⟩ | ⟨-, rfl, ⟨-, hzero | hnone⟩ | ⟨-, block', hb, hused⟩⟩
      · exact absurd (hvalid.linked.mem_iff.mp hin) hkey
      · exact absurd hzero hcap'
      · exact absurd rfl (hnone block)
      · cases hb
        exact ⟨c', htry, hused.front⟩
  -- A key leaves only when another one comes in and the cache is full: it is the last of the list.
  · intro op c' hstep k hk hk'
    obtain ⟨c₁, hstep₁, hcases⟩ := hvalid.linked.step op
    obtain rfl := Option.some_inj.mp (hstep₁.symm.trans hstep)
    rcases hcases with ⟨rfl, -⟩ | ⟨key, block, hkey, hused, -⟩
    · exact absurd hk hk'
    · obtain ⟨hnew, hfull, hlast⟩ := hused.evicts hk hk'
      refine ⟨?_, ⟨key, hnew, hkey⟩, fun a ha hne => hvalid.recent.usedBefore_last hlast ha hne⟩
      rw [hvalid.linked.size_eq] at hsize ⊢
      omega
  · exact fun key v hv => tryGetWith_eq hvalid.linked (hloads key v hv)
  · intro t i hv
    obtain ⟨c', htry⟩ := tryGetWith_eq hvalid.linked (hloads (t.id, i) _ hv)
    refine ⟨c', ?_⟩
    unfold SsTable.readBlockCached
    dsimp only
    rw [htry, Option.map_some]

/-- The loaders alone do not make the cache transparent: it also returns what was inserted. -/
theorem not_transparent_insert : ¬ ∀ (capacity : ℕ) (ops : List (BlockCacheOp Block))
    (key : BlockCacheKey) (block : Block),
    (∀ op ∈ ops, ∀ loader, op = .tryGetWith key loader → loader = .ok (some block)) →
      ∃ c uses c', run Block capacity ops = some (c, uses) ∧
        c.tryGetWith key (.ok (some block)) = some (.ok (some block), c') := by
  intro h
  obtain ⟨c, uses, c', hrun, htry⟩ := h 1 [.insert (1, 0) ⟨[0], [0]⟩] (1, 0) ⟨[1], [0]⟩ (by simp)
  obtain ⟨rfl, -⟩ := Prod.mk.injEq _ _ _ _ ▸ Option.some_inj.mp hrun
  have hblock : some (Except.ok (some (⟨[0], [0]⟩ : Block))) =
      some (Except.ok (some (⟨[1], [0]⟩ : Block)) : Except Error (Option Block)) :=
    congrArg (Option.map Prod.fst) htry
  simp at hblock

end BlockCache

end MiniLsm
