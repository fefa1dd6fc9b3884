import NaliStore.Buncket

/-!
# The chain of buckets

`Expand_` of an `UnSortBuncket` splits a bucket in two and links the new one behind the old one.
The buckets are in a heap here, with their `next_bucket` pointers; the memory that the new one
is built in holds anything.

What happens to the records is in `Buncket`: a bucket is split at the middle key, the keys from
there on move and the keys below stay (`Distinct.split_expand`). Here this is read as a partition
of the bucket, and the assertion on the way is shown to hold.
-/

namespace NaliStore

/-- A bucket and its `next_bucket`. -/
structure BuncketNode where
  /-- the bucket -/
  bucket : UnSortBuncket
  /-- `next_bucket` -/
  nextBucket : Option ℕ

/-- The buckets, by address. -/
abbrev BuncketHeap := ℕ → Option BuncketNode

/-- What stops `Expand_`. -/
inductive ExpandFault where
  /-- there is no bucket at the address -/
  | badPointer
  /-- `assert(key(sorted_index_[0]) < split_key)` -/
  | assertion
  deriving DecidableEq, Repr

/-- What `Expand_` returns and leaves. -/
structure Expanded where
  /-- the result -/
  status : Status
  /-- `next` -/
  next : ℕ
  /-- `split_key` -/
  splitKey : UInt64
  /-- `prefix_len` -/
  prefixLen : ℤ
  /-- the heap -/
  heap : BuncketHeap

namespace BuncketHeap

/-- The two buckets are written: the new one takes over the pointer of the old one, which then
points at the new one. -/
def link (h : BuncketHeap) (this fresh : ℕ) (node : BuncketNode) (rest next : UnSortBuncket) :
    BuncketHeap :=
  Function.update (Function.update h fresh (some ⟨next, node.nextBucket⟩)) this
    (some ⟨rest, some fresh⟩)

/-- `Expand_` of the bucket at `this`, where `new` returns the address `fresh` of memory that
holds anything. -/
def expand (h : BuncketHeap) (this fresh : ℕ) (memory : UnSortBuncket) :
    Except ExpandFault Expanded :=
  match h this with
  | none => .error .badPointer
  | some node =>
    let (next, splitKey, rest) := node.bucket.expand memory
    if node.bucket.key (node.bucket.getSortedIndex.getD 0 0) < splitKey then
      .ok ⟨.ok, fresh, splitKey, 0, h.link this fresh node rest next⟩
    else .error .assertion

/-- The buckets that are linked from a pointer on. -/
inductive Linked (h : BuncketHeap) : Option ℕ → List ℕ → Prop
  /-- null -/
  | nil : Linked h none []
  /-- a bucket and those behind it -/
  | cons {a : ℕ} {node : BuncketNode} {chain : List ℕ} :
      h a = some node → Linked h node.nextBucket chain → Linked h (some a) (a :: chain)

end BuncketHeap

namespace UnSortBuncket

/-- The bucket `b` has been cut in two: the lower half of its keys is in `rest`, the others
are in `next`, and the key `splitKey` is where it has been cut. -/
structure Partition (b rest next : UnSortBuncket) (splitKey : UInt64) : Prop where
  /-- nothing is lost and nothing is added -/
  has : ∀ k v, b.Has k v ↔ rest.Has k v ∨ next.Has k v
  /-- no key is in two slots -/
  distinct_rest : rest.Distinct
  /-- no key is in two slots -/
  distinct_next : next.Distinct
  /-- the keys that stay are the smallest -/
  lt : ∀ k v k' v', rest.Has k v → next.Has k' v' → k < k'
  /-- half of them -/
  entries_rest : rest.entries = b.entries / 2
  /-- the others -/
  entries_next : next.entries = b.entries - b.entries / 2
  /-- the split key is in the new bucket -/
  split : ∃ v, next.Has splitKey v
  /-- and it is the smallest there -/
  split_le : ∀ k v, next.Has k v → splitKey ≤ k
  /-- and it is greater than what stays -/
  lt_split : ∀ k v, rest.Has k v → k < splitKey

variable {b : UnSortBuncket}

/-- A bucket with at least one key is cut in two. -/
theorem Distinct.partition_expand (h : b.Distinct) (hpos : 0 < b.entries) (memory : UnSortBuncket) :
    Partition b (b.expand memory).2.2 (b.expand memory).1 (b.expand memory).2.1 := by
  have hsplit := h.split_expand hpos memory
  have hlt : ∀ k v, (b.expand memory).2.2.Has k v → k < (b.expand memory).2.1 :=
    fun k v hk => ((hsplit.has_rest k v).mp hk).2
  have hle : ∀ k v, (b.expand memory).1.Has k v → (b.expand memory).2.1 ≤ k :=
    fun k v hk => ((hsplit.has_next k v).mp hk).2
  refine ⟨fun k v => ?_, hsplit.distinct_rest, hsplit.distinct_next,
    fun k v k' v' hk hk' => (hlt k v hk).trans_le (hle k' v' hk'), hsplit.entries_rest,
    hsplit.entries_next, ?_, hle, hlt⟩
  · rw [hsplit.has_rest, hsplit.has_next]
    constructor
    · intro hk
      rcases lt_or_ge k (b.expand memory).2.1 with hbelow | habove
      · exact .inl ⟨hk, hbelow⟩
      · exact .inr ⟨hk, habove⟩
    · rintro (⟨hk, -⟩ | ⟨hk, -⟩) <;> exact hk
  · obtain ⟨m, rest, hm, hkey⟩ := exists_upperHalf hpos
    have hmem : m ∈ b.upperHalf := hm ▸ List.mem_cons_self ..
    refine ⟨b.value m, (hsplit.has_next _ _).mpr ⟨?_, le_rfl⟩⟩
    rw [hkey memory]
    exact has_of_lt (lt_of_mem_upperHalf hmem)

/-- The assertion of `Expand_` holds when there are two keys. -/
theorem Distinct.first_lt_splitKey (h : b.Distinct) (htwo : 2 ≤ b.entries) (memory : UnSortBuncket) :
    b.key (b.getSortedIndex.getD 0 0) < (b.expand memory).2.1 := by
  have hlen : b.getSortedIndex.length = b.entries := length_getSortedIndex
  have hsorted := List.pairwise_iff_getElem.mp h.pairwise_getSortedIndex 0 (b.entries / 2)
    (by omega) (by omega) (by omega)
  have hsplit : (b.expand memory).2.1 = b.key (b.getSortedIndex.getD (b.entries / 2) 0) := rfl
  rw [hsplit, List.getD_eq_getElem?_getD, List.getD_eq_getElem?_getD,
    List.getElem?_eq_getElem (by omega), List.getElem?_eq_getElem (by omega)]
  exact hsorted

end UnSortBuncket

namespace BuncketHeap

variable {h : BuncketHeap} {p : Option ℕ} {chain chain' pre post : List ℕ} {a this fresh : ℕ}

namespace Linked

theorem unique (hl : Linked h p chain) (hl' : Linked h p chain') : chain = chain' := by
  induction hl generalizing chain' with
  | nil =>
    cases hl'
    rfl
  | cons hnode _ ih =>
    cases hl' with
    | cons hnode' hrest' =>
      obtain rfl := Option.some.inj (hnode.symm.trans hnode')
      rw [ih hrest']

/-- From a bucket of a chain on. -/
theorem from_append (hl : Linked h p (pre ++ a :: post)) : Linked h (some a) (a :: post) := by
  induction pre generalizing p with
  | nil =>
    cases hl with
    | cons hnode hrest => exact .cons hnode hrest
  | cons b pre ih =>
    cases hl with
    | cons hnode hrest => exact ih hrest

/-- A chain that ends does not come back to a bucket. -/
theorem nodup (hl : Linked h p chain) : chain.Nodup := by
  induction hl with
  | nil => exact List.nodup_nil
  | @cons a node chain hnode hrest ih =>
    refine List.nodup_cons.mpr ⟨fun hmem => ?_, ih⟩
    obtain ⟨pre, post, rfl⟩ := List.append_of_mem hmem
    have hagain := (Linked.cons hnode hrest).unique hrest.from_append
    have hlen := congrArg List.length (List.cons.inj hagain).2
    rw [List.length_append, List.length_cons] at hlen
    omega

end Linked

/-- What `Expand_` of the bucket at `this` has done to the heap. -/
structure Inserted (h : BuncketHeap) (this fresh : ℕ) (node : BuncketNode)
    (rest next : UnSortBuncket) (h' : BuncketHeap) : Prop where
  /-- the old bucket is followed by the new one -/
  old : h' this = some ⟨rest, some fresh⟩
  /-- the new bucket is followed by what followed the old one -/
  new : h' fresh = some ⟨next, node.nextBucket⟩
  /-- the other buckets are as before -/
  other : ∀ a, a ≠ this → a ≠ fresh → h' a = h a

theorem inserted_link (h : BuncketHeap) (node : BuncketNode) (rest next : UnSortBuncket)
    (hne : fresh ≠ this) : Inserted h this fresh node rest next (h.link this fresh node rest next) := by
  refine ⟨Function.update_self .., ?_, fun a hthis hfresh => ?_⟩
  · rw [link, Function.update_of_ne hne, Function.update_self]
  · rw [link, Function.update_of_ne hthis, Function.update_of_ne hfresh]

namespace Inserted

variable {h' : BuncketHeap} {node : BuncketNode} {rest next : UnSortBuncket}

/-- A chain without the old bucket stays. -/
theorem linked_of_notMem (hins : Inserted h this fresh node rest next h') (hfresh : h fresh = none)
    (hl : Linked h p chain) (hthis : this ∉ chain) : Linked h' p chain := by
  induction hl with
  | nil => exact .nil
  | @cons a node chain hnode _ ih =>
    rw [List.mem_cons, not_or] at hthis
    refine .cons ((hins.other a (Ne.symm hthis.1) ?_).trans hnode) (ih hthis.2)
    rintro rfl
    rw [hfresh] at hnode
    cases hnode

/-- **The chain** has the new bucket behind the old one. -/
theorem linked (hins : Inserted h this fresh node rest next h') (hthis : h this = some node)
    (hfresh : h fresh = none) (hl : Linked h p (pre ++ this :: post)) :
    Linked h' p (pre ++ this :: fresh :: post) := by
  induction pre generalizing p with
  | nil =>
    have hnotMem : this ∉ post := (List.nodup_cons.mp hl.nodup).1
    cases hl with
    | cons hnode hrest =>
      obtain rfl := Option.some.inj (hnode.symm.trans hthis)
      exact .cons hins.old (.cons hins.new (hins.linked_of_notMem hfresh hrest hnotMem))
  | cons a pre ih =>
    have hnotMem : a ∉ pre ++ this :: post := (List.nodup_cons.mp hl.nodup).1
    cases hl with
    | cons hnode hrest =>
      refine .cons ((hins.other a ?_ ?_).trans hnode) (ih hrest)
      · rintro rfl
        exact hnotMem (List.mem_append_right _ (List.mem_cons_self ..))
      · rintro rfl
        rw [hfresh] at hnode
        cases hnode

end Inserted

/-- **A split is a partition.** `Expand_` of a bucket with two to fifteen distinct keys returns;
the lower half of the keys stays, the others are in a new bucket, and the new bucket is behind
the old one in every chain. -/
theorem expand_partition (h : BuncketHeap) (this fresh : ℕ) (memory : UnSortBuncket)
    (node : BuncketNode) (hthis : h this = some node) (hfresh : h fresh = none)
    (hdistinct : node.bucket.Distinct) (htwo : 2 ≤ node.bucket.entries) :
    ∃ splitKey rest next h',
      h.expand this fresh memory = .ok ⟨.ok, fresh, splitKey, 0, h'⟩ ∧
      node.bucket.Partition rest next splitKey ∧
      Inserted h this fresh node rest next h' ∧
      (∀ p pre post, Linked h p (pre ++ this :: post) →
        Linked h' p (pre ++ this :: fresh :: post)) ∧
      ∀ p chain, Linked h p chain → this ∉ chain → Linked h' p chain := by
  have hexpand : h.expand this fresh memory = .ok ⟨.ok, fresh, (node.bucket.expand memory).2.1, 0,
      h.link this fresh node (node.bucket.expand memory).2.2 (node.bucket.expand memory).1⟩ := by
    rw [expand, hthis]
    exact if_pos (hdistinct.first_lt_splitKey htwo memory)
  have hne : fresh ≠ this := by
    rintro rfl
    rw [hfresh] at hthis
    cases hthis
  have hins := inserted_link h node (node.bucket.expand memory).2.2 (node.bucket.expand memory).1 hne
  exact ⟨_, _, _, _, hexpand, hdistinct.partition_expand (by omega) memory, hins,
    fun p pre post hl => hins.linked hthis hfresh hl,
    fun p chain hl hnotMem => hins.linked_of_notMem hfresh hl hnotMem⟩

/-- A bucket of three keys in front of another bucket: the middle key is where it is cut. -/
theorem expand_partition_three :
    let b : UnSortBuncket := ⟨3, fun i => ([(30, 3), (10, 1), (20, 2)] : List _).getD i (10, 9)⟩
    let node : BuncketNode := ⟨b, some 7⟩
    let h : BuncketHeap := fun a => if a = 4 then some node else if a = 7 then some ⟨b, none⟩ else none
    Linked h (some 4) [4, 7] ∧
    ∃ rest next h', h.expand 4 5 b = .ok ⟨.ok, 5, 20, 0, h'⟩ ∧ b.Partition rest next 20 ∧
      Linked h' (some 4) [4, 5, 7] := by
  intro b node h
  have hdistinct : b.Distinct := ⟨by decide, by decide⟩
  have hlinked : Linked h (some 4) [4, 7] := .cons rfl (.cons rfl .nil)
  refine ⟨hlinked, ?_⟩
  obtain ⟨splitKey, rest, next, h', hexpand, hpart, -, hchain, -⟩ :=
    expand_partition h 4 5 b node rfl rfl hdistinct (by decide)
  have hsplit : (h.expand 4 5 b).map (·.splitKey) = .ok 20 := by decide +kernel
  rw [hexpand] at hsplit
  obtain rfl : splitKey = 20 := Except.ok.inj hsplit
  exact ⟨rest, next, h', hexpand, hpart, hchain (some 4) [] [7] hlinked⟩

end BuncketHeap

end NaliStore
