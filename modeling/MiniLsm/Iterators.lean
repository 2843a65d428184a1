import MiniLsm.Table

/-!
# Merging and concatenating iterators

The iterators of `include/mini_lsm/iterators.h` and `lsm_iterator.h` over other iterators:
`TwoMergeIterator`, `MergeIterator`, `SstConcatIterator`, `LsmIterator`, and `FusedIterator`. They
are generic in the iterators that they read, as the templates are, by way of `Cursor`.

The heap of `MergeIterator` is the list of its elements from the largest to the smallest.
`std::pop_heap` and `std::push_heap` show no more of a heap than its largest element, and no two
elements are equal in the order of `HeapWrapper`, so that the place of the others cannot be
observed.

A loop that moves an iterator is cut off after as many rounds as the iterators it moves have entries
to come, at most (`Cursor.bound`).
-/

namespace MiniLsm

/-- `Bound` of `iterators.h`, whose key is unused in an `Unbounded` one. -/
inductive Bound where
  | unbounded
  | included (key : Bytes)
  | excluded (key : Bytes)
  deriving DecidableEq

/-! ## `TwoMergeIterator` -/

/-- `TwoMergeIterator` -/
structure TwoMergeIterator (A B : Type) where
  a : A
  b : B
  first : Bool

namespace TwoMergeIterator

variable {A B : Type} [Cursor A Bytes Bytes Error] [Cursor B Bytes Bytes Error]

/-- `TwoMergeIterator::skip_b` -/
def skipB (a : A) (b : B) : Except Error B :=
  if Cursor.isValid a then
    if Cursor.isValid b && decide (Cursor.key b = Cursor.key a) then Cursor.next b else .ok b
  else .ok b

/-- `TwoMergeIterator::choose_a` -/
def chooseA (a : A) (b : B) : Bool :=
  if !Cursor.isValid a then false
  else if !Cursor.isValid b then true
  else decide (Cursor.key a < Cursor.key b)

/-- `TwoMergeIterator::create` -/
def create (a : A) (b : B) : Except Error (TwoMergeIterator A B) := do
  let b ← skipB a b
  .ok ⟨a, b, chooseA a b⟩

/-- `TwoMergeIterator::next`, which ends as the constructor does. -/
def next (it : TwoMergeIterator A B) : Except Error (TwoMergeIterator A B) := do
  if it.first then
    let a ← Cursor.next it.a
    create a it.b
  else
    let b ← Cursor.next it.b
    create it.a b

instance : Cursor (TwoMergeIterator A B) Bytes Bytes Error where
  isValid it := if it.first then Cursor.isValid it.a else Cursor.isValid it.b
  key it := if it.first then Cursor.key it.a else Cursor.key it.b
  value it := if it.first then Cursor.value it.a else Cursor.value it.b
  next := TwoMergeIterator.next
  bound it := Cursor.bound it.a + Cursor.bound it.b

end TwoMergeIterator

/-! ## `MergeIterator` -/

/-- `MergeIterator::HeapWrapper` -/
structure HeapWrapper (ι : Type) where
  index : ℕ
  iter : ι

/-- `HeapWrapper::operator<` -/
def HeapWrapper.lt {ι : Type} [Cursor ι Bytes Bytes Error] (w other : HeapWrapper ι) : Bool :=
  let cmp := compare (Cursor.key w.iter) (Cursor.key other.iter)
  if cmp ≠ 0 then decide (cmp > 0) else decide (w.index > other.index)

/-- `MergeIterator` -/
structure MergeIterator (ι : Type) where
  heap : List (HeapWrapper ι)
  current : Option (HeapWrapper ι)

namespace MergeIterator

variable {ι : Type} [Cursor ι Bytes Bytes Error]

/-- `std::push_heap` -/
def pushHeap (w : HeapWrapper ι) (heap : List (HeapWrapper ι)) : List (HeapWrapper ι) :=
  heap.orderedInsert (fun x y => y.lt x) w

/-- `std::make_heap` -/
def makeHeap (ws : List (HeapWrapper ι)) : List (HeapWrapper ι) :=
  ws.insertionSort fun x y => y.lt x

/-- The largest element of the heap becomes `current_`, if there is one. -/
def popCurrent : List (HeapWrapper ι) → MergeIterator ι
  | [] => ⟨[], none⟩
  | top :: heap => ⟨heap, some top⟩

/-- The constructor of `MergeIterator`. -/
def create (iters : List ι) : MergeIterator ι :=
  popCurrent (makeHeap ((iters.zipIdx.filter fun p => Cursor.isValid p.1).map fun p => ⟨p.2, p.1⟩))

/-- The loop of `MergeIterator::next`: the elements of the heap that stand at the key are moved. -/
def skipEqual (key : Bytes) : ℕ → List (HeapWrapper ι) → Except Error (List (HeapWrapper ι))
  | 0, _ => .error (.undefined "more moves than entries")
  | _ + 1, [] => .ok []
  | n + 1, top :: heap =>
    if Cursor.key top.iter = key then do
      let iter ← Cursor.next top.iter
      if Cursor.isValid iter then skipEqual key n (pushHeap ⟨top.index, iter⟩ heap)
      else skipEqual key n heap
    else .ok (top :: heap)

/-- `MergeIterator::next` -/
def next (it : MergeIterator ι) : Except Error (MergeIterator ι) := do
  match it.current with
  | none => .error (.undefined "next without a current iterator")
  | some current =>
    let heap ← skipEqual (Cursor.key current.iter)
      ((it.heap.map fun w => Cursor.bound w.iter).sum + 1) it.heap
    let iter ← Cursor.next current.iter
    let current := { current with iter := iter }
    if !Cursor.isValid current.iter then .ok (popCurrent heap)
    else
      match heap with
      | [] => .ok ⟨[], some current⟩
      | top :: heap =>
        if current.lt top then .ok ⟨pushHeap current heap, some top⟩
        else .ok ⟨top :: heap, some current⟩

instance : Cursor (MergeIterator ι) Bytes Bytes Error where
  isValid it := (it.current.map fun w => Cursor.isValid w.iter).getD false
  key it := (it.current.map fun w => Cursor.key w.iter).getD []
  value it := (it.current.map fun w => Cursor.value w.iter).getD []
  next := MergeIterator.next
  bound it := ((it.current.toList ++ it.heap).map fun w => Cursor.bound w.iter).sum

end MergeIterator

/-! ## `SstConcatIterator` -/

/-- `SstConcatIterator`, over tables read with the libraries `E`. -/
structure SstConcatIterator (E : Extern) where
  current : Option (SsTableIterator E)
  next_sst_idx : ℕ
  sstables : List SsTable

namespace SstConcatIterator

variable {E : Extern}

/-- The condition that `SstConcatIterator::check_sst_valid` asserts. -/
def checkSstValid (sstables : List SsTable) : Prop :=
  (∀ sst ∈ sstables, sst.first_key ≤ sst.last_key) ∧
    ∀ i a b, sstables[i]? = some a → sstables[i + 1]? = some b → a.last_key < b.first_key

/-- `SstConcatIterator::move_until_valid`, with a number of rounds. -/
def moveUntilValidLoop : ℕ → SstConcatIterator E → Except Error (SstConcatIterator E)
  | 0, _ => .error (.undefined "more rounds than tables")
  | n + 1, it =>
    match it.current with
    | none => .ok it
    | some current =>
      if Cursor.isValid current then .ok it
      else
        match it.sstables[it.next_sst_idx]? with
        | none => .ok { it with current := none }
        | some sst => do
          let current ← SsTableIterator.createAndSeekToFirst E sst
          moveUntilValidLoop n
            { it with current := some current, next_sst_idx := it.next_sst_idx + 1 }

/-- `SstConcatIterator::move_until_valid`. Each round but the last opens a table. -/
def moveUntilValid (it : SstConcatIterator E) : Except Error (SstConcatIterator E) :=
  moveUntilValidLoop (it.sstables.length + 1) it

/-- `SstConcatIterator::create_and_seek_to_first` -/
def createAndSeekToFirst (E : Extern) (sstables : List SsTable) :
    Except Error (SstConcatIterator E) := do
  match sstables with
  | [] => .ok ⟨none, 0, []⟩
  | sst :: _ =>
    let current ← SsTableIterator.createAndSeekToFirst E sst
    moveUntilValid ⟨some current, 1, sstables⟩

/-- `SstConcatIterator::create_and_seek_to_key` -/
def createAndSeekToKey (E : Extern) (sstables : List SsTable) (key : Bytes) :
    Except Error (SstConcatIterator E) := do
  let part := (sstables.takeWhile fun sst => sst.first_key ≤ key).length
  let idx := if part > 0 then part - 1 else 0
  match sstables[idx]? with
  | none => .ok ⟨none, sstables.length, sstables⟩
  | some sst =>
    let current ← SsTableIterator.createAndSeekToKey E sst key
    moveUntilValid ⟨some current, idx + 1, sstables⟩

/-- `SstConcatIterator::next` -/
def next (it : SstConcatIterator E) : Except Error (SstConcatIterator E) := do
  match it.current with
  | none => .error (.undefined "next without a current iterator")
  | some current =>
    let current ← Cursor.next current
    moveUntilValid { it with current := some current }

instance : Cursor (SstConcatIterator E) Bytes Bytes Error where
  isValid it := (it.current.map Cursor.isValid).getD false
  key it := (it.current.map Cursor.key).getD []
  value it := (it.current.map Cursor.value).getD []
  next := SstConcatIterator.next
  bound it := (it.sstables.map fun t => t.numEntries E).sum

end SstConcatIterator

/-! ## `LsmIterator` and `FusedIterator` -/

/-- `LsmIterator` -/
structure LsmIterator (ι : Type) where
  inner : ι
  end_bound : Bound
  is_valid : Bool

namespace LsmIterator

variable {ι : Type} [Cursor ι Bytes Bytes Error]

/-- `LsmIterator::match_end_bound` -/
def matchEndBound (it : LsmIterator ι) : LsmIterator ι :=
  if !it.is_valid then it
  else
    match it.end_bound with
    | .unbounded => it
    | .included key => if Cursor.key it.inner > key then { it with is_valid := false } else it
    | .excluded key => if Cursor.key it.inner ≥ key then { it with is_valid := false } else it

/-- `LsmIterator::next_inner` -/
def nextInner (it : LsmIterator ι) : Except Error (LsmIterator ι) := do
  let inner ← Cursor.next it.inner
  if !Cursor.isValid inner then .ok { it with inner := inner, is_valid := false }
  else .ok (matchEndBound { it with inner := inner })

/-- `LsmIterator::move_to_non_delete`, with a number of rounds. -/
def moveToNonDeleteLoop : ℕ → LsmIterator ι → Except Error (LsmIterator ι)
  | 0, _ => .error (.undefined "more moves than entries")
  | n + 1, it =>
    if it.is_valid && (Cursor.value it.inner).isEmpty then do
      let it ← nextInner it
      moveToNonDeleteLoop n it
    else .ok it

/-- `LsmIterator::move_to_non_delete`. Each round but the last moves the inner iterator. -/
def moveToNonDelete (it : LsmIterator ι) : Except Error (LsmIterator ι) :=
  moveToNonDeleteLoop (Cursor.bound it.inner + 1) it

/-- `LsmIterator::create` -/
def create (inner : ι) (end_bound : Bound) : Except Error (LsmIterator ι) :=
  if Cursor.isValid inner then moveToNonDelete (matchEndBound ⟨inner, end_bound, true⟩)
  else .ok ⟨inner, end_bound, false⟩

/-- `LsmIterator::next` -/
def next (it : LsmIterator ι) : Except Error (LsmIterator ι) := do
  if !it.is_valid then .ok it else
  let it ← nextInner it
  moveToNonDelete it

instance : Cursor (LsmIterator ι) Bytes Bytes Error where
  isValid it := it.is_valid
  key it := Cursor.key it.inner
  value it := Cursor.value it.inner
  next := LsmIterator.next
  bound it := Cursor.bound it.inner

end LsmIterator

/-- `FusedIterator` -/
structure FusedIterator (ι : Type) where
  iter : ι
  has_errored : Bool

namespace FusedIterator

variable {ι : Type} [Cursor ι Bytes Bytes Error]

/-- `FusedIterator::create` -/
def create (iter : ι) : FusedIterator ι := ⟨iter, false⟩

/-- `FusedIterator::next`. Once a move has thrown, the iterator is no longer used. -/
def next (it : FusedIterator ι) : Except Error (FusedIterator ι) := do
  if it.has_errored || !Cursor.isValid it.iter then .ok it else
  let iter ← Cursor.next it.iter
  .ok { it with iter := iter }

instance : Cursor (FusedIterator ι) Bytes Bytes Error where
  isValid it := !it.has_errored && Cursor.isValid it.iter
  key it := Cursor.key it.iter
  value it := Cursor.value it.iter
  next := FusedIterator.next
  bound it := Cursor.bound it.iter

end FusedIterator

end MiniLsm
