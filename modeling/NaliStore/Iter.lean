import NaliStore.RangeScan
import NaliStore.Lib.Cursor

/-!
# Iterators

`Nali::Iter` and the three iterators below it: of a group, of a B entry and of a bucket. Each
holds one of the next kind and goes on with it as long as it can. They do not agree on what
they leave behind when they cannot go on, nor on what they do with an empty bucket:

* the iterator of an empty bucket shows the key and value 0;
* the iterator of a B entry that goes on to an empty bucket says that there is nothing more, and
  the iterator of the group goes on to the next B entry;
* an iterator that starts at a key takes what it finds in the bucket of the key, and does not
  look whether it has come to an end.

The results say what each iterator shows, as a list (`shown`, `chained`, `shownAll`).
The buckets an iterator reads do not change while it is used.
-/

namespace NaliStore

open Routing Runs

/-! ## Buckets -/

/-- `BuncketIter` -/
structure BuncketIter where
  /-- `cur_` -/
  cur : UnSortBuncket
  /-- `sorted_index_` -/
  sortedIndex : List ℕ
  /-- `idx_` -/
  idx : ℕ

namespace BuncketIter

/-- `BuncketIter(bucket, prefix_key)` -/
def init (bucket : UnSortBuncket) : BuncketIter := ⟨bucket, bucket.getSortedIndex, 0⟩

/-- `BuncketIter(bucket, prefix_key, start_key)`. The start key is compared with `prefix_key`,
for which the callers pass `prefix_bytes`. -/
def initFrom (bucket : UnSortBuncket) (prefixKey : ℕ) (startKey : UInt64) : BuncketIter :=
  let sortedIndex := bucket.getSortedIndex
  if startKey.toNat ≤ prefixKey then ⟨bucket, sortedIndex, 0⟩
  else ⟨bucket, sortedIndex, sortedIndex.findIdx fun i => bucket.key i ≥ startKey⟩

/-- `key` -/
def key (it : BuncketIter) : UInt64 :=
  if it.idx < it.cur.entries then it.cur.key (it.sortedIndex.getD it.idx 0) else 0

/-- `value` -/
def value (it : BuncketIter) : UInt64 :=
  if it.idx < it.cur.entries then it.cur.value (it.sortedIndex.getD it.idx 0) else 0

/-- `next`. It compares with `entries - 1`, which is -1 for an empty bucket. -/
def next (it : BuncketIter) : Bool × BuncketIter :=
  if it.cur.entries ≤ it.idx + 1 then (false, it) else (true, { it with idx := it.idx + 1 })

/-- `end` -/
def atEnd (it : BuncketIter) : Bool := it.cur.entries ≤ it.idx

end BuncketIter

/-! ## B entries -/

/-- `PointerBEntryIter` -/
structure PointerBEntryIter where
  /-- `entry_` -/
  entry : PointerBEntry
  /-- `cur_idx` -/
  curIdx : ℕ
  /-- `biter_`, if it has been constructed -/
  biter : Option BuncketIter

namespace PointerBEntryIter

/-- `PointerBEntryIter(kventry)` -/
def init (h : Heap) (kventry : PointerBEntry) : PointerBEntryIter :=
  ⟨kventry, 0, if (kventry.entrys 0).IsValid then
    some (.init (h.bunckets (kventry.entrys 0).pointer)) else none⟩

/-- `key` -/
def key (it : PointerBEntryIter) : Except Fault UInt64 :=
  match it.biter with
  | none => .error .segv
  | some biter => .ok biter.key

/-- `value` -/
def value (it : PointerBEntryIter) : Except Fault UInt64 :=
  match it.biter with
  | none => .error .segv
  | some biter => .ok biter.value

/-- The first condition of `next`: `cur_idx < entry_->buf.entries && biter_.next()`. -/
def innerNext (it : PointerBEntryIter) : Except Fault (Bool × PointerBEntryIter) :=
  if it.curIdx < it.entry.entries then
    match it.biter with
    | none => .error .segv
    | some biter => .ok (biter.next.1, { it with biter := some biter.next.2 })
  else .ok (false, it)

/-- `next` -/
def next (h : Heap) (it : PointerBEntryIter) : Except Fault (Bool × PointerBEntryIter) := do
  let (ret, it) ← it.innerNext
  if ret then .ok (true, it)
  else if it.curIdx + 1 < it.entry.entries then
    let biter := BuncketIter.init (h.bunckets (it.entry.entrys (it.curIdx + 1)).pointer)
    .ok (!biter.atEnd, { it with curIdx := it.curIdx + 1, biter := some biter })
  else .ok (false, { it with curIdx := it.entry.entries })

/-- `end` -/
def atEnd (it : PointerBEntryIter) : Bool := it.entry.entries ≤ it.curIdx

/-- `PointerBEntryIter(kventry, start_key)`. What `next` says is not looked at. -/
def initFrom (h : Heap) (kventry : PointerBEntry) (startKey : UInt64) :
    Except Fault PointerBEntryIter :=
  let pos := kventry.findPos startKey
  let e := kventry.entrys pos
  if ¬ e.IsValid then .ok ⟨kventry, PointerBEntry.pbEntryCount, none⟩
  else
    let biter := BuncketIter.initFrom (h.bunckets e.pointer) e.prefixBytes startKey
    if biter.atEnd then do
      let (_, it) ← next h ⟨kventry, pos, some biter⟩
      .ok it
    else .ok ⟨kventry, pos, some biter⟩

end PointerBEntryIter

/-! ## Groups -/

/-- `group::Iter` -/
structure GroupIter where
  /-- `root_` -/
  root : Group
  /-- `idx_` -/
  idx : ℕ
  /-- `biter_`, if it has been constructed -/
  biter : Option PointerBEntryIter

namespace GroupIter

/-- `Iter(root)` -/
def init (h : Heap) (root : Group) : GroupIter :=
  ⟨root, 0, root.entrySpace.head?.map (PointerBEntryIter.init h)⟩

/-- `key` -/
def key (it : GroupIter) : Except Fault UInt64 :=
  match it.biter with
  | none => .error .segv
  | some biter => biter.key

/-- `value` -/
def value (it : GroupIter) : Except Fault UInt64 :=
  match it.biter with
  | none => .error .segv
  | some biter => biter.value

/-- The first condition of `next`: `idx_ < root_->nr_entries_ && biter_.next()`. -/
def innerNext (h : Heap) (it : GroupIter) : Except Fault (Bool × GroupIter) :=
  if it.idx < it.root.nrEntries then
    match it.biter with
    | none => .error .segv
    | some biter => do
      let (ret, biter) ← biter.next h
      .ok (ret, { it with biter := some biter })
  else .ok (false, it)

/-- `next` -/
def next (h : Heap) (it : GroupIter) : Except Fault (Bool × GroupIter) := do
  let (ret, it) ← it.innerNext h
  if ret then .ok (true, it)
  else
    match it.root.entrySpace[it.idx + 1]? with
    | some b =>
      .ok (true, { it with idx := it.idx + 1, biter := some (PointerBEntryIter.init h b) })
    | none => .ok (false, { it with idx := it.idx + 1 })

/-- `end` -/
def atEnd (it : GroupIter) : Bool := it.root.nrEntries ≤ it.idx

/-- `Iter(root, start_key)`. In an empty group `idx_` is not set, and every use of the iterator
reads it. -/
def initFrom (h : Heap) (root : Group) (startKey : UInt64) : Except Fault GroupIter := do
  if root.nrEntries = 0 then .error .segv
  else
    let b ← root.entryFor startKey
    let biter ← PointerBEntryIter.initFrom h b startKey
    let it : GroupIter := ⟨root, root.findEntry startKey, some biter⟩
    if biter.atEnd then do
      let (_, it) ← it.next h
      .ok it
    else .ok it

end GroupIter

/-! ## The index -/

/-- `Nali::Iter` -/
structure NaliIter where
  /-- `group_id_` -/
  groupId : ℕ
  /-- `giter` -/
  giter : GroupIter

namespace NaliIter

/-- The loop `while (giter.end())`, over the groups after that of the iterator. -/
def skip (h : Heap) : List Group → NaliIter → NaliIter
  | [], it => if it.giter.atEnd then { it with groupId := it.groupId + 1 } else it
  | g :: groups, it =>
    if it.giter.atEnd then skip h groups ⟨it.groupId + 1, .init h g⟩ else it

/-- `key` -/
def key (it : NaliIter) : Except Fault UInt64 := it.giter.key

/-- `value` -/
def value (it : NaliIter) : Except Fault UInt64 := it.giter.value

/-- `end` -/
def atEnd (tree : Nali) (it : NaliIter) : Bool := tree.nrGroups ≤ it.groupId

/-- The first condition of `next`: `group_id_ < tree_->nr_groups_ && giter.next()`. -/
def innerNext (tree : Nali) (it : NaliIter) : Except Fault (Bool × NaliIter) :=
  if it.groupId < tree.nrGroups then do
    let (ret, giter) ← it.giter.next tree.heap
    .ok (ret, { it with giter })
  else .ok (false, it)

/-- `next` -/
def next (tree : Nali) (it : NaliIter) : Except Fault (Bool × NaliIter) := do
  let (ret, it) ← it.innerNext tree
  if ret then .ok (true, it)
  else
    let it := skip tree.heap (tree.groupSpace.drop (it.groupId + 1)) it
    .ok (decide (it.groupId < tree.nrGroups), it)

/-- `Iter(tree)` -/
def init (tree : Nali) : Except Fault NaliIter := do
  let g ← tree.groupAt 0
  .ok (skip tree.heap (tree.groupSpace.drop 1) ⟨0, .init tree.heap g⟩)

/-- `Iter(tree, start_key)` -/
def initFrom (tree : Nali) (startKey : UInt64) : Except Fault NaliIter := do
  let groupId ← tree.findGroup startKey
  let g ← tree.groupAt groupId
  let giter ← GroupIter.initFrom tree.heap g startKey
  .ok ⟨groupId, giter⟩

/-- An iterator as a cursor over the pairs. -/
def cursor (tree : Nali) : Cursor Fault NaliIter (UInt64 × UInt64) where
  cur it := do
    let key ← it.key
    let value ← it.value
    .ok (key, value)
  next := next tree

end NaliIter

/-- Read `key()` and `value()` and call `next()` until `end()`, in a bounded number of rounds:
from `Iter(tree, start_key)`, or from `Iter(tree)` when there is no start key. -/
def Nali.iterate (tree : Nali) (startKey : Option UInt64) (fuel : ℕ) : Except Fault Pairs := do
  let it ← match startKey with
    | none => NaliIter.init tree
    | some startKey => NaliIter.initFrom tree startKey
  (NaliIter.cursor tree).collect (NaliIter.atEnd tree) .diverges fuel it

/-! ## What the iterator of a bucket shows -/

/-- All pairs of the bucket in order; an empty bucket is shown as a pair of zeros. -/
def UnSortBuncket.shown (b : UnSortBuncket) : Pairs := if b.entries = 0 then [(0, 0)] else b.sorted

/-- What the iterator of the bucket goes through from the start key on. -/
def UnSortBuncket.sortedFrom (b : UnSortBuncket) (prefixKey : ℕ) (startKey : UInt64) : Pairs :=
  if startKey.toNat ≤ prefixKey then b.sorted else b.sorted.filter fun p => startKey ≤ p.1

namespace BuncketIter

variable {b : UnSortBuncket} {it : BuncketIter} {startKey : UInt64} {prefixKey idx : ℕ}

/-- An iterator of a bucket as a cursor. -/
def cursor : Cursor Fault BuncketIter (UInt64 × UInt64) where
  cur it := .ok (it.key, it.value)
  next it := .ok it.next

/-- The iterator of the bucket shows the pairs, whatever it leaves behind. -/
abbrev Shows (it : BuncketIter) (l : Pairs) : Prop := cursor.Shows (fun _ => True) it l

/-- The iterator stands at one of the sorted pairs. -/
theorem cur_eq (hidx : idx < b.sorted.length) :
    cursor.cur ⟨b, b.getSortedIndex, idx⟩ = .ok b.sorted[idx] := by
  have hlt : idx < b.getSortedIndex.length := by rwa [UnSortBuncket.sorted, List.length_map] at hidx
  have hslot : b.getSortedIndex.getD idx 0 = b.getSortedIndex[idx] := by
    rw [List.getD_eq_getElem?_getD, List.getElem?_eq_getElem hlt, Option.getD_some]
  have hentries : idx < b.entries := by rwa [UnSortBuncket.length_sorted] at hidx
  simp only [cursor, key, value, hentries, if_true, hslot, UnSortBuncket.sorted, List.getElem_map]
  rfl

theorem next_end (hidx : it.cur.entries ≤ it.idx + 1) : it.next = (false, it) := if_pos hidx

/-- **From a place on the sorted pairs are shown.** -/
theorem shows_drop (b : UnSortBuncket) : ∀ n idx, b.entries = idx + 1 + n →
    Shows ⟨b, b.getSortedIndex, idx⟩ (b.sorted.drop idx) := by
  intro n
  induction n with
  | zero =>
    intro idx hidx
    have hlt : idx < b.sorted.length := by
      rw [UnSortBuncket.length_sorted, hidx]
      exact Nat.lt_succ_self idx
    have hdrop : b.sorted.drop (idx + 1) = [] := by
      rw [List.drop_eq_nil_iff, UnSortBuncket.length_sorted, hidx]
    rw [List.drop_eq_getElem_cons hlt, hdrop]
    exact .last (cur_eq hlt) (congrArg Except.ok (next_end hidx.le)) trivial
  | succ n ih =>
    intro idx hidx
    have hlt : idx + 1 < b.entries := by omega
    have hlt' : idx < b.sorted.length := by
      rw [UnSortBuncket.length_sorted]
      exact Nat.lt_of_succ_lt hlt
    rw [List.drop_eq_getElem_cons hlt']
    exact .more (cur_eq hlt') (congrArg Except.ok (if_neg (Nat.not_le_of_lt hlt)))
      (ih (idx + 1) (by omega))

/-- Past the end a pair of zeros is shown. -/
theorem cur_zero (hidx : it.cur.entries ≤ it.idx) : cursor.cur it = .ok (0, 0) := by
  have hkey : it.key = 0 := if_neg (Nat.not_lt_of_le hidx)
  have hvalue : it.value = 0 := if_neg (Nat.not_lt_of_le hidx)
  have hcur : cursor.cur it = .ok (it.key, it.value) := rfl
  rw [hcur, hkey, hvalue]

/-- A new iterator shows the bucket. -/
theorem shows_init (b : UnSortBuncket) : (init b).Shows b.shown := by
  rw [UnSortBuncket.shown]
  split
  · rename_i hempty
    exact .last (cur_zero hempty.le) (congrArg Except.ok (next_end (Nat.le_succ_of_le hempty.le)))
      trivial
  · rename_i hne
    obtain ⟨n, hn⟩ := Nat.exists_eq_succ_of_ne_zero hne
    exact shows_drop b n 0 (by omega)

/-- A new iterator of the bucket shows the pairs from the start key on, or stands at the end
when there are none. -/
theorem initFrom_spec (hb : b.Distinct) (prefixKey : ℕ) (startKey : UInt64) :
    b.sortedFrom prefixKey startKey = [] ∧ (initFrom b prefixKey startKey).atEnd = true ∧
        cursor.cur (initFrom b prefixKey startKey) = .ok (0, 0) ∧
        (initFrom b prefixKey startKey).next = (false, initFrom b prefixKey startKey) ∨
      b.sortedFrom prefixKey startKey ≠ [] ∧ (initFrom b prefixKey startKey).atEnd = false ∧
        (initFrom b prefixKey startKey).Shows (b.sortedFrom prefixKey startKey) := by
  obtain ⟨idx, hit, hdrop⟩ : ∃ idx, initFrom b prefixKey startKey = ⟨b, b.getSortedIndex, idx⟩ ∧
      b.sortedFrom prefixKey startKey = b.sorted.drop idx := by
    rw [initFrom, UnSortBuncket.sortedFrom]
    split
    · exact ⟨0, rfl, rfl⟩
    · refine ⟨_, rfl, ?_⟩
      have hfind : b.getSortedIndex.findIdx (fun i => decide (b.key i ≥ startKey)) =
          b.sorted.findIdx fun p => decide (startKey ≤ p.1) := by
        rw [UnSortBuncket.sorted, List.findIdx_map]
        rfl
      rw [hfind]
      refine Cursor.filter_eq_drop_findIdx (hb.ascends_sorted.imp fun {p q} hlt hle => ?_)
      exact decide_eq_true ((of_decide_eq_true hle).trans hlt.le)
  rw [hit, hdrop, ne_eq, List.drop_eq_nil_iff, UnSortBuncket.length_sorted]
  rcases Nat.lt_or_ge idx b.entries with hlt | hge
  · obtain ⟨n, hn⟩ := Nat.exists_eq_add_of_lt hlt
    exact .inr ⟨Nat.not_le_of_lt hlt, decide_eq_false (Nat.not_le_of_lt hlt),
      shows_drop b n idx (by omega)⟩
  · exact .inl ⟨hge, decide_eq_true hge, cur_zero hge, next_end (Nat.le_succ_of_le hge)⟩

end BuncketIter

/-! ## What the iterator of a B entry shows -/

/-- What is shown of the buckets after the one an iterator stands in: those before the first
that is empty. -/
def chained : List UnSortBuncket → Pairs
  | [] => []
  | b :: bunckets => if b.entries = 0 then [] else b.sorted ++ chained bunckets

/-- What a new iterator shows of the buckets of a B entry. -/
def shownAll : List UnSortBuncket → Pairs
  | [] => []
  | b :: bunckets => b.shown ++ chained bunckets

/-- The buckets from a place on. -/
theorem PointerBEntry.drop_bunckets {b : PointerBEntry} {i : ℕ} (hi : i < b.entries) (h : Heap) :
    (b.bunckets h).drop i =
      h.bunckets (b.entrys i).pointer :: (b.bunckets h).drop (i + 1) := by
  have hget := bunckets_getElem? (b := b) (h := h) i
  rw [if_pos hi] at hget
  obtain ⟨hlt, heq⟩ := List.getElem?_eq_some_iff.mp hget
  rw [List.drop_eq_getElem_cons hlt, heq]

theorem PointerBEntry.drop_bunckets_of_le {b : PointerBEntry} {i : ℕ} (hi : b.entries ≤ i)
    (h : Heap) : (b.bunckets h).drop i = [] := by
  rw [List.drop_eq_nil_iff, bunckets, List.length_map, length_cells]
  exact hi

namespace PointerBEntryIter

variable {b : PointerBEntry} {h : Heap} {i : ℕ} {biter biter' : BuncketIter} {l : Pairs}
  {startKey : UInt64}

/-- An iterator of a B entry as a cursor. -/
def cursor (h : Heap) : Cursor Fault PointerBEntryIter (UInt64 × UInt64) where
  cur it := do
    let key ← it.key
    let value ← it.value
    .ok (key, value)
  next := next h

/-- The iterator of the B entry shows the pairs, whatever it leaves behind. -/
abbrev Shows (h : Heap) (it : PointerBEntryIter) (l : Pairs) : Prop :=
  (cursor h).Shows (fun _ => True) it l

/-- It goes on in the bucket. -/
theorem next_of_more (hi : i < b.entries) (hnext : biter.next = (true, biter')) :
    next h ⟨b, i, some biter⟩ = .ok (true, ⟨b, i, some biter'⟩) := by
  simp only [next, innerNext, if_pos hi, hnext, bind, Except.bind, if_true]

/-- It goes on to the next bucket. -/
theorem next_of_last (hi : i + 1 < b.entries) (hnext : biter.next = (false, biter')) :
    next h ⟨b, i, some biter⟩ =
      .ok (!(BuncketIter.init (h.bunckets (b.entrys (i + 1)).pointer)).atEnd,
        ⟨b, i + 1, some (.init (h.bunckets (b.entrys (i + 1)).pointer))⟩) := by
  simp only [next, innerNext, if_pos (Nat.lt_of_succ_lt hi), hnext, bind, Except.bind,
    Bool.false_eq_true, if_false, if_pos hi]

/-- It has come to the end of the last bucket. -/
theorem next_of_end (hi : i < b.entries) (hlast : b.entries ≤ i + 1)
    (hnext : biter.next = (false, biter')) :
    next h ⟨b, i, some biter⟩ = .ok (false, ⟨b, b.entries, some biter'⟩) := by
  simp only [next, innerNext, if_pos hi, hnext, bind, Except.bind, Bool.false_eq_true, if_false,
    if_neg (Nat.not_lt_of_le hlast)]

/-- An iterator in a bucket shows what is left of the bucket first. -/
theorem shows_append {m : Pairs} (hi : i < b.entries) (hl : biter.Shows l)
    (hlast : ∀ biter biter', biter.next = (false, biter') →
      (cursor h).After (fun _ => True) ⟨b, i, some biter⟩ m) :
    Shows h ⟨b, i, some biter⟩ (l ++ m) := by
  refine hl.lift (PointerBEntryIter.mk b i ∘ some) ?_ ?_ ?_
  · rintro biter a ⟨⟩
    rfl
  · intro biter biter' hgo
    exact next_of_more hi (Except.ok.inj hgo)
  · intro biter biter' hgo _
    exact hlast biter biter' (Except.ok.inj hgo)

/-- **An iterator in a bucket** shows what is left of the bucket, and the buckets after it up
to an empty one. -/
theorem shows_of_buncket (h : Heap) (b : PointerBEntry) : ∀ n i, b.entries = i + 1 + n →
    ∀ (biter : BuncketIter) (l : Pairs), biter.Shows l →
      Shows h ⟨b, i, some biter⟩ (l ++ chained ((b.bunckets h).drop (i + 1))) := by
  intro n
  induction n with
  | zero =>
    intro i hi biter l hl
    have hlt : i < b.entries := by omega
    rw [PointerBEntry.drop_bunckets_of_le hi.le]
    refine shows_append hlt hl fun biter biter' hgo => .inl ⟨rfl, ?_⟩
    exact ⟨_, next_of_end hlt hi.le hgo, trivial⟩
  | succ n ih =>
    intro i hi biter l hl
    have hlt : i + 1 < b.entries := by omega
    rw [PointerBEntry.drop_bunckets hlt, chained]
    set c := h.bunckets (b.entrys (i + 1)).pointer with hc
    refine shows_append (Nat.lt_of_succ_lt hlt) hl fun biter biter' hgo => ?_
    have hnext := next_of_last (h := h) hlt hgo
    rw [← hc] at hnext
    split
    · -- it says that there is nothing more
      rename_i hempty
      have hend : (BuncketIter.init c).atEnd = true := decide_eq_true hempty.le
      rw [hend] at hnext
      exact .inl ⟨rfl, _, hnext, trivial⟩
    · rename_i hne
      have hend : (BuncketIter.init c).atEnd = false :=
        decide_eq_false fun hle => hne (Nat.le_zero.mp hle)
      rw [hend] at hnext
      have hshown := BuncketIter.shows_init c
      rw [UnSortBuncket.shown, if_neg hne] at hshown
      exact .inr ⟨_, hnext, ih (i + 1) (by omega) _ _ hshown⟩

/-- A new iterator shows the B entry. -/
theorem shows_init (hb : b.WF) (h : Heap) : Shows h (init h b) (shownAll (b.bunckets h)) := by
  have hpos := hb.pos
  have hdrop := PointerBEntry.drop_bunckets hpos h
  rw [List.drop_zero] at hdrop
  rw [init, if_pos (hb.valid 0 hpos), hdrop, shownAll]
  exact shows_of_buncket h b (b.entries - 1) 0 (by omega) _ _ (BuncketIter.shows_init _)

/-- **An iterator that starts at a key** shows what is from the start key on in its bucket, and
the buckets after it; when there is nothing there, it shows the rest of the B entry as a new
iterator does. When there is no bucket left it is at the end. -/
theorem initFrom_spec (hb : b.WF) {e : EEntry} (he : b.entrys (b.findPos startKey) = e)
    (hdist : (h.bunckets e.pointer).Distinct) {F : Pairs} {rest : List UnSortBuncket}
    (hF : (h.bunckets e.pointer).sortedFrom e.prefixBytes startKey = F)
    (hrest : (b.bunckets h).drop (b.findPos startKey + 1) = rest) :
    ∃ it, initFrom h b startKey = .ok it ∧
      (it.atEnd = false ∧ (F ≠ [] ∧ Shows h it (F ++ chained rest) ∨
          F = [] ∧ rest ≠ [] ∧ Shows h it (shownAll rest)) ∨
        it.atEnd = true ∧ F = [] ∧ rest = [] ∧ (cursor h).cur it = .ok (0, 0) ∧
          ∃ it', next h it = .ok (false, it') ∧ (cursor h).cur it' = .ok (0, 0)) := by
  have hpos := hb.findPos_lt startKey
  have hvalid := hb.valid _ hpos
  rw [he] at hvalid
  rw [initFrom, he]
  simp only [hvalid, not_true, if_false]
  generalize b.findPos startKey = pos at hpos hrest
  rcases BuncketIter.initFrom_spec hdist e.prefixBytes startKey with
    ⟨hnil, hend, hcur, hnext⟩ | ⟨hne, hend, hshows⟩
  · rw [hF] at hnil
    rw [if_pos hend]
    rcases Nat.lt_or_ge (pos + 1) b.entries with hlt | hge
    · -- the next bucket
      rw [PointerBEntry.drop_bunckets hlt] at hrest
      rw [next_of_last hlt hnext]
      refine ⟨_, rfl, .inl ⟨decide_eq_false (Nat.not_le_of_lt hlt), .inr ⟨hnil, ?_, ?_⟩⟩⟩
      · rw [← hrest]
        exact List.cons_ne_nil _ _
      · rw [← hrest, shownAll]
        exact shows_of_buncket h b (b.entries - (pos + 2)) (pos + 1) (by omega) _ _
          (BuncketIter.shows_init _)
    · -- there is none
      rw [PointerBEntry.drop_bunckets_of_le hge] at hrest
      rw [next_of_end hpos hge hnext]
      have hcur' : (cursor h).cur ⟨b, b.entries, some (BuncketIter.initFrom (h.bunckets e.pointer)
          e.prefixBytes startKey)⟩ = .ok (0, 0) := hcur
      refine ⟨_, rfl, .inr ⟨decide_eq_true le_rfl, hnil, hrest.symm, hcur', _, ?_, hcur'⟩⟩
      simp only [next, innerNext, lt_irrefl, if_false, bind, Except.bind, Bool.false_eq_true,
        if_neg (Nat.not_succ_lt_self)]
  · rw [hF] at hne hshows
    rw [hend, if_neg Bool.false_ne_true]
    refine ⟨_, rfl, .inl ⟨decide_eq_false (Nat.not_le_of_lt hpos), .inl ⟨hne, ?_⟩⟩⟩
    rw [← hrest]
    exact shows_of_buncket h b (b.entries - (pos + 1)) pos (by omega) _ _ hshows

end PointerBEntryIter

/-! ## What the iterator of a group shows -/

/-- What a new iterator shows of B entries. -/
def Group.shown (h : Heap) (entries : List PointerBEntry) : Pairs :=
  entries.flatMap fun b => shownAll (b.bunckets h)

/-- What an iterator shows that starts at a key: `F` is what it finds in the bucket of the key,
`rest` are the buckets after it in the B entry, and `later` the B entries after that. -/
def Group.shownFrom (h : Heap) (F : Pairs) (rest : List UnSortBuncket)
    (later : List PointerBEntry) : Pairs :=
  (if F ≠ [] then F ++ chained rest
    else if rest = [] ∧ later = [] then [(0, 0)] else shownAll rest) ++ Group.shown h later

namespace GroupIter

variable {g : Group} {h : Heap} {i : ℕ} {biter biter' : PointerBEntryIter} {l m : Pairs}
  {startKey : UInt64}

/-- An iterator of a group as a cursor. -/
def cursor (h : Heap) : Cursor Fault GroupIter (UInt64 × UInt64) where
  cur it := do
    let key ← it.key
    let value ← it.value
    .ok (key, value)
  next := next h

/-- The iterator of the group shows the pairs, and is then at the end. -/
abbrev Shows (h : Heap) (it : GroupIter) (l : Pairs) : Prop :=
  (cursor h).Shows (fun it => it.atEnd = true) it l

theorem next_of_more (hi : i < g.nrEntries) (hnext : biter.next h = .ok (true, biter')) :
    next h ⟨g, i, some biter⟩ = .ok (true, ⟨g, i, some biter'⟩) := by
  simp only [next, innerNext, if_pos hi, hnext, bind, Except.bind, if_true]

/-- It goes on to the next B entry. -/
theorem next_of_last (hi : i < g.nrEntries) {b : PointerBEntry}
    (hb : g.entrySpace[i + 1]? = some b) (hnext : biter.next h = .ok (false, biter')) :
    next h ⟨g, i, some biter⟩ = .ok (true, ⟨g, i + 1, some (.init h b)⟩) := by
  simp only [next, innerNext, if_pos hi, hnext, bind, Except.bind, Bool.false_eq_true, if_false, hb]

/-- It has come to the end of the last B entry. -/
theorem next_of_end (hi : i < g.nrEntries) (hlast : g.entrySpace[i + 1]? = none)
    (hnext : biter.next h = .ok (false, biter')) :
    next h ⟨g, i, some biter⟩ = .ok (false, ⟨g, i + 1, some biter'⟩) := by
  simp only [next, innerNext, if_pos hi, hnext, bind, Except.bind, Bool.false_eq_true, if_false,
    hlast]

/-- An iterator in a B entry shows what is left of it first. -/
theorem shows_append (hi : i < g.nrEntries) (hl : PointerBEntryIter.Shows h biter l)
    (hlast : ∀ biter biter', biter.next h = .ok (false, biter') →
      (cursor h).After (fun it => it.atEnd = true) ⟨g, i, some biter⟩ m) :
    Shows h ⟨g, i, some biter⟩ (l ++ m) := by
  refine hl.lift (GroupIter.mk g i ∘ some) (fun biter a ha => ha) ?_ ?_
  · intro biter biter' hgo
    exact next_of_more hi hgo
  · intro biter biter' hgo _
    exact hlast biter biter' hgo

/-- **An iterator in a B entry** shows what is left of it, and the B entries after it. -/
theorem shows_of_entry (h : Heap) (g : Group) (entries : List PointerBEntry) :
    ∀ i, g.entrySpace.drop (i + 1) = entries → i < g.nrEntries → (∀ b ∈ entries, b.WF) →
      ∀ (biter : PointerBEntryIter) (l : Pairs), PointerBEntryIter.Shows h biter l →
        Shows h ⟨g, i, some biter⟩ (l ++ Group.shown h entries) := by
  induction entries with
  | nil =>
    intro i hdrop hi _ biter l hl
    have hlast : g.entrySpace[i + 1]? = none :=
      List.getElem?_eq_none (List.drop_eq_nil_iff.mp hdrop)
    refine shows_append hi hl fun biter biter' hgo => .inl ⟨rfl, _, next_of_end hi hlast hgo, ?_⟩
    exact decide_eq_true (List.drop_eq_nil_iff.mp hdrop)
  | cons b entries ih =>
    intro i hdrop hi hwf biter l hl
    obtain ⟨hb, hdrop'⟩ := Cursor.getElem?_of_drop_eq_cons hdrop
    have hlt : i + 1 < g.nrEntries := (List.getElem?_eq_some_iff.mp hb).1
    refine shows_append hi hl fun biter biter' hgo => .inr ⟨_, next_of_last hi hb hgo, ?_⟩
    exact ih (i + 1) hdrop' hlt (fun x hx => hwf x (List.mem_cons_of_mem _ hx)) _ _
      (PointerBEntryIter.shows_init (hwf b (List.mem_cons_self ..)) h)

/-- A new iterator shows the group. -/
theorem shows_init (hwf : ∀ b ∈ g.entrySpace, b.WF) (hne : g.entrySpace ≠ []) (h : Heap) :
    Shows h (init h g) (Group.shown h g.entrySpace) := by
  obtain ⟨b, entries, heq⟩ := List.exists_cons_of_ne_nil hne
  rw [init, heq]
  rw [heq] at hwf
  refine shows_of_entry h g entries 0 (by rw [heq]; rfl) (List.length_pos_of_ne_nil hne)
    (fun x hx => hwf x (List.mem_cons_of_mem _ hx)) _ _ ?_
  exact PointerBEntryIter.shows_init (hwf b (List.mem_cons_self ..)) h

/-- **An iterator that starts at a key** shows what is from the start key on in its bucket, and
what is after it. -/
theorem initFrom_spec {epre epost : List PointerBEntry} {b : PointerBEntry}
    (hloc : g.Located startKey epre b epost) (hwf : ∀ b ∈ g.entrySpace, b.WF) {e : EEntry}
    (he : b.entrys (b.findPos startKey) = e) (hdist : (h.bunckets e.pointer).Distinct) {F : Pairs}
    {rest : List UnSortBuncket}
    (hF : (h.bunckets e.pointer).sortedFrom e.prefixBytes startKey = F)
    (hrest : (b.bunckets h).drop (b.findPos startKey + 1) = rest) :
    ∃ it, initFrom h g startKey = .ok it ∧ Shows h it (Group.shownFrom h F rest epost) := by
  have hi : epre.length < g.nrEntries := hloc.lt_length
  have hdrop := hloc.drop_eq
  have hpost : ∀ x ∈ epost, x.WF := fun x hx =>
    hwf x (hloc.eq ▸ List.mem_append_right _ (List.mem_cons_of_mem _ hx))
  obtain ⟨biter, hbiter, hcases⟩ :=
    PointerBEntryIter.initFrom_spec (hwf b hloc.mem) he hdist hF hrest
  rw [initFrom, if_neg (Nat.ne_zero_of_lt hi), hloc.entryFor_eq]
  simp only [bind, Except.bind, hbiter, hloc.index]
  rcases hcases with ⟨hend, hshows⟩ | ⟨hend, hnil, hrestnil, hcur, biter', hnext, hcur'⟩
  · rw [hend, if_neg Bool.false_ne_true, Group.shownFrom]
    refine ⟨_, rfl, shows_of_entry h g epost _ hdrop hi hpost _ _ ?_⟩
    rcases hshows with ⟨hne, hshows⟩ | ⟨hnil, hne, hshows⟩
    · rw [if_pos hne]
      exact hshows
    · rw [if_neg (not_not_intro hnil), if_neg fun hand => hne hand.1]
      exact hshows
  · -- it goes on to the next B entry
    rw [if_pos hend, Group.shownFrom, if_neg (not_not_intro hnil), hrestnil]
    cases epost with
    | nil =>
      -- which is not there
      have hlast : g.entrySpace[epre.length + 1]? = none :=
        List.getElem?_eq_none (List.drop_eq_nil_iff.mp hdrop)
      have hafter : ¬ epre.length + 1 < g.nrEntries :=
        Nat.not_lt_of_le (List.drop_eq_nil_iff.mp hdrop)
      have hlast' : g.entrySpace[epre.length + 1 + 1]? = none :=
        List.getElem?_eq_none (Nat.le_succ_of_le (List.drop_eq_nil_iff.mp hdrop))
      have hgo : next h ⟨g, epre.length + 1, some biter'⟩ =
          .ok (false, ⟨g, epre.length + 1 + 1, some biter'⟩) := by
        simp only [next, innerNext, if_neg hafter, bind, Except.bind, Bool.false_eq_true, if_false,
          hlast']
      rw [next_of_end hi hlast hnext, if_pos ⟨rfl, rfl⟩]
      refine ⟨_, rfl, .last hcur' hgo ?_⟩
      exact decide_eq_true (Nat.le_succ_of_le (List.drop_eq_nil_iff.mp hdrop))
    | cons b' epost =>
      obtain ⟨hb', hdrop'⟩ := Cursor.getElem?_of_drop_eq_cons hdrop
      rw [next_of_last hi hb' hnext, if_neg fun hand => List.cons_ne_nil _ _ hand.2]
      refine ⟨_, rfl, shows_of_entry h g epost _ hdrop' (List.getElem?_eq_some_iff.mp hb').1
        (fun x hx => hpost x (List.mem_cons_of_mem _ hx)) _ _ ?_⟩
      exact PointerBEntryIter.shows_init (hpost b' (List.mem_cons_self ..)) h

end GroupIter

/-! ## What the iterator of the index shows -/

/-- What new iterators show of groups. -/
def Nali.shown (h : Heap) (groups : List Group) : Pairs := Group.shown h (entriesOf groups)

namespace NaliIter

variable {s : Nali} {i : ℕ} {giter giter' : GroupIter} {l m : Pairs} {startKey : UInt64}

/-- The iterator of the index shows the pairs. -/
abbrev Shows (s : Nali) (it : NaliIter) (l : Pairs) : Prop :=
  (cursor s).Shows (fun _ => True) it l

/-- `next` says whether the iterator has come to its end. -/
theorem atEnd_next (it : NaliIter) (r : Bool) (it' : NaliIter)
    (hnext : it.next s = .ok (r, it')) : it'.atEnd s = !r := by
  obtain ⟨⟨ret, it₁⟩, hinner, hrest⟩ := bind_eq_ok hnext
  simp only at hrest
  split at hrest
  · -- there was a group
    rename_i hret
    obtain ⟨rfl, rfl⟩ := Prod.mk.inj (Except.ok.inj hrest)
    rw [innerNext] at hinner
    split at hinner
    · rename_i hlt
      obtain ⟨⟨ret', giter⟩, -, hok⟩ := bind_eq_ok hinner
      obtain ⟨-, rfl⟩ := Prod.mk.inj (Except.ok.inj hok)
      exact decide_eq_false (Nat.not_le_of_lt hlt)
    · obtain ⟨rfl, -⟩ := Prod.mk.inj (Except.ok.inj hinner)
      cases hret
  · obtain ⟨rfl, rfl⟩ := Prod.mk.inj (Except.ok.inj hrest)
    rw [atEnd, ← decide_not]
    simp only [not_lt]

theorem next_of_more (hi : i < s.nrGroups) (hnext : giter.next s.heap = .ok (true, giter')) :
    next s ⟨i, giter⟩ = .ok (true, ⟨i, giter'⟩) := by
  simp only [next, innerNext, if_pos hi, hnext, bind, Except.bind, if_true]

/-- It goes on to the next group that is not empty. -/
theorem next_of_last (hi : i < s.nrGroups) (hnext : giter.next s.heap = .ok (false, giter')) :
    next s ⟨i, giter⟩ = .ok (decide
      ((skip s.heap (s.groupSpace.drop (i + 1)) ⟨i, giter'⟩).groupId < s.nrGroups),
      skip s.heap (s.groupSpace.drop (i + 1)) ⟨i, giter'⟩) := by
  simp only [next, innerNext, if_pos hi, hnext, bind, Except.bind, Bool.false_eq_true, if_false]

/-- The loop over empty groups comes to an item, and the groups are shown from there on; or
there is nothing to show, and it comes to the end. -/
def Skips (s : Nali) (groups : List Group) : Prop :=
  ∀ i giter, s.groupSpace.drop (i + 1) = groups → giter.atEnd = true →
    (skip s.heap groups ⟨i, giter⟩).groupId < s.nrGroups ∧
        Shows s (skip s.heap groups ⟨i, giter⟩) (Nali.shown s.heap groups) ∨
      ¬ (skip s.heap groups ⟨i, giter⟩).groupId < s.nrGroups ∧ Nali.shown s.heap groups = []

/-- **An iterator in a group** shows what is left of it, and the groups after it. -/
theorem Skips.shows {groups : List Group} (hskip : Skips s groups)
    (hdrop : s.groupSpace.drop (i + 1) = groups) (hi : i < s.nrGroups)
    (hl : GroupIter.Shows s.heap giter l) :
    Shows s ⟨i, giter⟩ (l ++ Nali.shown s.heap groups) := by
  refine hl.lift (NaliIter.mk i) (fun giter a ha => ha) ?_ ?_
  · intro giter giter' hgo
    exact next_of_more hi hgo
  · intro giter giter' hgo hend
    have hnext := next_of_last hi hgo
    rw [hdrop] at hnext
    rcases hskip i giter' hdrop hend with ⟨hlt, hshows⟩ | ⟨hge, hnil⟩
    · rw [decide_eq_true hlt] at hnext
      exact .inr ⟨_, hnext, hshows⟩
    · rw [decide_eq_false hge] at hnext
      exact .inl ⟨hnil, _, hnext, trivial⟩

theorem shown_cons (h : Heap) (g : Group) (groups : List Group) :
    Nali.shown h (g :: groups) = Group.shown h g.entrySpace ++ Nali.shown h groups := by
  rw [Nali.shown, entriesOf, List.flatMap_cons, Group.shown, List.flatMap_append]
  rfl

theorem atEnd_init {h : Heap} {g : Group} : (GroupIter.init h g).atEnd = true ↔ g.entrySpace = [] := by
  rw [GroupIter.atEnd, decide_eq_true_iff]
  exact Nat.le_zero.trans List.length_eq_zero_iff

/-- A group that is not empty is not skipped. -/
theorem skip_of_ne {h : Heap} {g : Group} (hne : g.entrySpace ≠ []) (groups : List Group) (i : ℕ) :
    skip h groups ⟨i, .init h g⟩ = ⟨i, .init h g⟩ := by
  have hnot : (GroupIter.init h g).atEnd ≠ true := fun hend => hne (atEnd_init.mp hend)
  cases groups with
  | nil => exact if_neg hnot
  | cons x groups => exact if_neg hnot

theorem skips (groups : List Group) : (∀ g ∈ groups, g.WF) → Skips s groups := by
  induction groups with
  | nil =>
    intro _ i giter hdrop hend
    rw [skip, if_pos hend]
    exact .inr ⟨Nat.not_lt_of_le (List.drop_eq_nil_iff.mp hdrop), rfl⟩
  | cons g groups ih =>
    intro hwf i giter hdrop hend
    have hskip := ih fun x hx => hwf x (List.mem_cons_of_mem _ hx)
    obtain ⟨hg, hdrop'⟩ := Cursor.getElem?_of_drop_eq_cons hdrop
    have hlt : i + 1 < s.nrGroups := (List.getElem?_eq_some_iff.mp hg).1
    rw [skip, if_pos hend, shown_cons]
    by_cases hempty : g.entrySpace = []
    · -- it is skipped
      rw [hempty]
      exact hskip (i + 1) _ hdrop' (atEnd_init.mpr hempty)
    · rw [skip_of_ne hempty]
      exact .inl ⟨hlt, hskip.shows hdrop' hlt
        (GroupIter.shows_init (hwf g (List.mem_cons_self ..)).entry hempty s.heap)⟩

/-- A new iterator shows all groups. -/
theorem init_spec (hs : s.Inv) : ∃ it, init s = .ok it ∧ it.atEnd s = false ∧
    Shows s it (Nali.shown s.heap s.groupSpace) := by
  obtain ⟨g', hg', hne'⟩ := hs.exists_nonempty
  obtain ⟨g, groups, heq⟩ := List.exists_cons_of_ne_nil (List.ne_nil_of_mem hg')
  have hat : s.groupAt 0 = .ok g := Nali.groupIn_eq (by rw [heq]; rfl)
  have hdrop : s.groupSpace.drop (0 + 1) = groups := by rw [heq]; rfl
  have hwf : ∀ x ∈ groups, x.WF := fun x hx => hs.wf x (heq ▸ List.mem_cons_of_mem _ hx)
  have hg : g.WF := hs.wf g (heq ▸ List.mem_cons_self ..)
  have hpos : 0 < s.nrGroups := List.length_pos_of_mem hg'
  rw [init, hat, heq, shown_cons]
  refine ⟨_, rfl, ?_⟩
  change (skip s.heap groups ⟨0, .init s.heap g⟩).atEnd s = false ∧
    Shows s (skip s.heap groups ⟨0, .init s.heap g⟩) _
  by_cases hempty : g.entrySpace = []
  · rw [hempty]
    rcases skips groups hwf 0 (.init s.heap g) hdrop (atEnd_init.mpr hempty) with
      ⟨hlt, hshows⟩ | ⟨-, hnil⟩
    · exact ⟨decide_eq_false (Nat.not_le_of_lt hlt), hshows⟩
    · -- there is a B entry to show
      exfalso
      rw [heq] at hg'
      rcases List.mem_cons.mp hg' with rfl | hg'
      · exact hne' hempty
      · obtain ⟨b, hb⟩ := List.exists_mem_of_ne_nil _ hne'
        have hbnil := List.flatMap_eq_nil_iff.mp hnil b (List.mem_flatMap.mpr ⟨g', hg', hb⟩)
        exact (PointerBEntryIter.shows_init ((hwf g' hg').entry b hb) s.heap).ne_nil hbnil
  · rw [skip_of_ne hempty]
    exact ⟨decide_eq_false (Nat.not_le_of_lt hpos), (skips groups hwf).shows hdrop hpos
      (GroupIter.shows_init hg.entry hempty s.heap)⟩

end NaliIter

/-! ## The loop -/

namespace Nali

variable {s : Nali} {startKey : UInt64}

/-- The loop visits the pairs, in as many rounds as there are pairs and one more. -/
def Visits (s : Nali) (startKey : Option UInt64) (l : Pairs) : Prop :=
  ∀ fuel, s.iterate startKey fuel = if l.length < fuel then .ok l else .error .diverges

theorem Visits.eq_of_ok {start : Option UInt64} {l m : Pairs} {fuel : ℕ} (h : s.Visits start l)
    (hok : s.iterate start fuel = .ok m) : m = l := by
  rw [h fuel] at hok
  split at hok
  · exact (Except.ok.inj hok).symm
  · cases hok

/-- **What is visited from `Iter(tree)` on.** -/
theorem visits_none (hs : s.Inv) : s.Visits none (Nali.shown s.heap s.groupSpace) := by
  obtain ⟨it, hit, hend, hshows⟩ := NaliIter.init_spec hs
  intro fuel
  rw [iterate, hit]
  exact hshows.collects NaliIter.atEnd_next hend fuel

/-- **What is visited from `Iter(tree, start_key)` on.** -/
theorem visits_some (hs : s.Inv) {gpre gpost : List Group} {g : Group}
    (hloc : s.Located startKey gpre g gpost) {epre epost : List PointerBEntry} {b : PointerBEntry}
    (hloc' : g.Located startKey epre b epost) {e : EEntry}
    (he : b.entrys (b.findPos startKey) = e) (hdist : (s.heap.bunckets e.pointer).Distinct) :
    s.Visits (some startKey) (Group.shownFrom s.heap
        ((s.heap.bunckets e.pointer).sortedFrom e.prefixBytes startKey)
        ((b.bunckets s.heap).drop (b.findPos startKey + 1)) epost ++ Nali.shown s.heap gpost) := by
  obtain ⟨giter, hgiter, hshows⟩ :=
    GroupIter.initFrom_spec hloc' (hs.wf g hloc.mem).entry he hdist rfl rfl
  have hi : gpre.length < s.nrGroups := hloc.lt_length
  have hwf : ∀ x ∈ gpost, x.WF := fun x hx =>
    hs.wf x (hloc.eq ▸ List.mem_append_right _ (List.mem_cons_of_mem _ hx))
  intro fuel
  simp only [iterate, NaliIter.initFrom, hloc.find, bind, Except.bind, hloc.groupAt_eq, hgiter]
  exact ((NaliIter.skips gpost hwf).shows hloc.drop_eq hi hshows).collects NaliIter.atEnd_next
    (decide_eq_false (Nat.not_le_of_lt hi)) fuel

end Nali

end NaliStore
