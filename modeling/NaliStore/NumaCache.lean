import Mathlib.Data.List.AList
import Mathlib.Data.Prod.Lex
import Mathlib.Data.UInt
import NaliStore.Lib.Runs
import NaliStore.Lib.StdSet

/-!
# The NUMA cache

`NumaCache` of `src/include/new_cache.h`. A cache owns `capacity_` nodes. Those in use are
found by key in `entry_map_` and are ordered by weight and age in `entry_set_`; the others
are on the stack `free_entry_`. `size_` counts the nodes in use, and `put` looks at it to
decide whether a node has to be evicted. `evict` does not count its node as unused.

Weights are `double`: a type `W` with an order and with the operations of the source, of
which nothing is assumed but that the order is linear (no weight is a NaN).
-/

namespace NaliStore

open Runs

/-- What stops a call. -/
inductive CacheFault where
  /-- `begin()` of an empty set is read -/
  | emptySet
  /-- `top()` of an empty stack is read -/
  | emptyStack
  /-- a signed counter overflows -/
  | overflow
  deriving DecidableEq, Repr

/-- `CacheEntry` -/
structure CacheEntry (W : Type) where
  /-- `key_` -/
  key : UInt64
  /-- `value_` -/
  value : UInt64
  /-- `numa_id_`, where `none` is `-1` -/
  numaId : Option (Fin 2)
  /-- `weight_` -/
  weight : W
  /-- `oldest_ts_` -/
  oldestTs : ℤ
  /-- `visit_times_` -/
  visitTimes : Fin 2 → UInt64

namespace CacheEntry

variable {W : Type} [LinearOrder W] [Zero W] [One W] [Add W] [Mul W]

/-- `Reset`: nothing of the old entry is left. -/
def reset (key value : UInt64) (ts : ℤ) (numaId : Fin 2) : CacheEntry W :=
  ⟨key, value, some numaId, 1, ts, Function.update (fun _ => 0) numaId 1⟩

/-- `numa_weight` -/
def numaWeight : W := 1

/-- `Visit`, where `toDouble` converts a count. -/
def visit (toDouble : UInt64 → W) (e : CacheEntry W) (numaId : Fin 2) : CacheEntry W :=
  let visitTimes := Function.update e.visitTimes numaId (e.visitTimes numaId + 1)
  { e with
    numaId := some numaId
    visitTimes
    weight := (List.finRange 2).foldl (fun weight i =>
      if i = numaId then weight + toDouble (visitTimes i)
      else weight + toDouble (visitTimes i) * numaWeight) 0 }

/-- `CacheEntryCmp` -/
def Cmp (a b : CacheEntry W) : Prop :=
  if a.weight = b.weight then a.oldestTs < b.oldestTs else a.weight < b.weight

instance : DecidableRel (Cmp (W := W)) := fun a b =>
  inferInstanceAs (Decidable (if a.weight = b.weight then _ else _))

end CacheEntry

/-- `NumaCache`. Nodes are numbered. -/
structure NumaCache (W : Type) where
  /-- `capacity_` -/
  capacity : ℕ
  /-- `size_` -/
  size : ℕ
  /-- `current_ts_` -/
  currentTs : ℤ
  /-- `entry_map_` -/
  entryMap : AList fun _ : UInt64 => ℕ
  /-- `entry_set_`, in its order -/
  entrySet : List ℕ
  /-- `free_entry_`, from the top -/
  freeEntry : List ℕ
  /-- the nodes -/
  nodes : ℕ → CacheEntry W

namespace NumaCache

variable {W : Type} [LinearOrder W] [Zero W] [One W] [Add W] [Mul W] {toDouble : UInt64 → W}

/-- `INT64_MAX` -/
def int64Max : ℤ := 2 ^ 63 - 1

/-- The constructor. The loop counts with an `int`; the nodes are not initialised. -/
def create (cap : ℕ) (memory : ℕ → CacheEntry W) : Except CacheFault (NumaCache W) :=
  if 2 ^ 31 ≤ cap then .error .overflow
  else .ok ⟨cap, 0, 0, ∅, [], (List.range cap).reverse, memory⟩

/-- The order of `entry_set_`. -/
def Before (nodes : ℕ → CacheEntry W) (m n : ℕ) : Prop := (nodes m).Cmp (nodes n)

instance (nodes : ℕ → CacheEntry W) : DecidableRel (Before nodes) := fun m n =>
  inferInstanceAs (Decidable ((nodes m).Cmp (nodes n)))

/-- `node->Reset(..); entry_set_.insert(node); entry_map_[node->key_] = node;` with
`current_ts_++` -/
def link (c : NumaCache W) (node : ℕ) (key value : UInt64) (numaId : Fin 2) :
    Except CacheFault (NumaCache W) :=
  if c.currentTs = int64Max then .error .overflow
  else
    let nodes := Function.update c.nodes node (.reset key value c.currentTs numaId)
    .ok { c with
      currentTs := c.currentTs + 1
      nodes
      entrySet := StdSet.insert (Before nodes) node c.entrySet
      entryMap := c.entryMap.insert (nodes node).key node }

/-- `entry_set_.erase(node);` and, after the node has become `entry`,
`entry_set_.insert(node);` -/
def reorder (c : NumaCache W) (node : ℕ) (entry : CacheEntry W) : NumaCache W :=
  let entrySet := StdSet.erase (Before c.nodes) node c.entrySet
  let nodes := Function.update c.nodes node entry
  { c with nodes, entrySet := StdSet.insert (Before nodes) node entrySet }

/-- `put`, with the key that it evicts. -/
def put (toDouble : UInt64 → W) (c : NumaCache W) (key value : UInt64) (numaId : Fin 2) :
    Except CacheFault (Option UInt64 × NumaCache W) :=
  match c.entryMap.lookup key with
  | none =>
    if c.size = c.capacity then
      match c.entrySet with
      | [] => .error .emptySet
      | node :: rest => do
        let evicted := (c.nodes node).key
        let c := { c with entrySet := rest, entryMap := c.entryMap.erase evicted }
        let c ← c.link node key value numaId
        .ok (some evicted, c)
    else
      match c.freeEntry with
      | [] => .error .emptyStack
      | node :: free => do
        let c := { c with freeEntry := free }
        let c ← c.link node key value numaId
        .ok (none, { c with size := c.size + 1 })
  | some node =>
    let entry := (c.nodes node).visit toDouble numaId
    .ok (none, c.reorder node { entry with value })

/-- `get` -/
def get (toDouble : UInt64 → W) (c : NumaCache W) (key : UInt64) (numaId : Fin 2) :
    Option UInt64 × NumaCache W :=
  match c.entryMap.lookup key with
  | none => (none, c)
  | some node =>
    let entry := (c.nodes node).visit toDouble numaId
    (some entry.value, c.reorder node entry)

/-- `evict` -/
def evict (c : NumaCache W) (key : UInt64) : Bool × NumaCache W :=
  match c.entryMap.lookup key with
  | none => (false, c)
  | some node =>
    (true, { c with
      entrySet := StdSet.erase (Before c.nodes) node c.entrySet
      entryMap := c.entryMap.erase key
      freeEntry := node :: c.freeEntry })

/-! ## Runs -/

/-- A call. -/
inductive Op where
  /-- `put(key, value, numa_id)` -/
  | put (key value : UInt64) (numaId : Fin 2)
  /-- `get(key, value, numa_id)` -/
  | get (key : UInt64) (numaId : Fin 2)
  /-- `evict(key)` -/
  | evict (key : UInt64)

/-- What has happened to a key. -/
inductive Event where
  /-- a value was put -/
  | put (key value : UInt64)
  /-- it was evicted -/
  | evicted (key : UInt64)

/-- The value of the last put of a key that has not been evicted. The newest event comes
first. -/
def lastValue : List Event → UInt64 → Option UInt64
  | [], _ => none
  | .put key value :: events, k => if k = key then some value else lastValue events k
  | .evicted key :: events, k => if k = key then none else lastValue events k

/-- A cache and what has happened to its keys. -/
structure Traced (W : Type) where
  /-- the cache -/
  cache : NumaCache W
  /-- the events, newest first -/
  events : List Event

namespace Traced

/-- One call. -/
def step (toDouble : UInt64 → W) (s : Traced W) : Op → Except CacheFault (Traced W)
  | .put key value numaId => do
    let (evicted, cache) ← s.cache.put toDouble key value numaId
    .ok ⟨cache, .put key value :: (evicted.map Event.evicted).toList ++ s.events⟩
  | .get key numaId => .ok { s with cache := (s.cache.get toDouble key numaId).2 }
  | .evict key =>
    let (found, cache) := s.cache.evict key
    .ok ⟨cache, if found then .evicted key :: s.events else s.events⟩

/-- A new cache and calls on it. -/
def exec (toDouble : UInt64 → W) (capacity : ℕ) (memory : ℕ → CacheEntry W) (ops : List Op) :
    Except CacheFault (Traced W) := do
  let cache ← create capacity memory
  ops.foldlM (step toDouble) ⟨cache, []⟩

/-- The books of a cache are right. -/
structure Sound (toDouble : UInt64 → W) (s : Traced W) : Prop where
  /-- `entry_map_` and `entry_set_` hold the same nodes -/
  sameNodes : (s.cache.entryMap.entries.map Sigma.snd).Perm s.cache.entrySet
  /-- each node once -/
  once : s.cache.entrySet.Nodup
  /-- each node under its own key -/
  ownKey : ∀ key node, s.cache.entryMap.lookup key = some node → (s.cache.nodes node).key = key
  /-- `size_` counts the entries -/
  size : s.cache.size = s.cache.entryMap.entries.length
  /-- the other nodes are free -/
  free : s.cache.entryMap.entries.length + s.cache.freeEntry.length = s.cache.capacity
  /-- `put` reads no `begin()` of an empty set and no `top()` of an empty stack -/
  put_ne : ∀ key value numaId, s.cache.put toDouble key value numaId ≠ .error .emptySet ∧
    s.cache.put toDouble key value numaId ≠ .error .emptyStack
  /-- `put` evicts only when the cache is full -/
  full_of_evicts : ∀ key value numaId evicted cache,
    s.cache.put toDouble key value numaId = .ok (some evicted, cache) →
      s.cache.entryMap.entries.length = s.cache.capacity
  /-- `get` returns the last value -/
  get_eq : ∀ key numaId, (s.cache.get toDouble key numaId).1 = lastValue s.events key

/-- `evict` does not find its key, and the time stamp of a new entry does not overflow. -/
def Proper (s : Traced W) : Op → Prop
  | .put key _ _ => key ∈ s.cache.entryMap ∨ s.cache.currentTs ≠ int64Max
  | .get _ _ => True
  | .evict key => key ∉ s.cache.entryMap

end Traced

/-! ## The branches of `put` -/

section Put

variable {c : NumaCache W} {key value : UInt64} {numaId : Fin 2} {node : ℕ} {rest : List ℕ}

theorem put_of_full (hkey : c.entryMap.lookup key = none) (hfull : c.size = c.capacity)
    (hset : c.entrySet = node :: rest) :
    c.put toDouble key value numaId = (do
      let c' ← { c with entrySet := rest, entryMap := c.entryMap.erase (c.nodes node).key }.link node key
        value numaId
      .ok (some (c.nodes node).key, c')) := by
  rw [put, hkey]
  dsimp only
  rw [if_pos hfull, hset]

theorem put_of_room (hkey : c.entryMap.lookup key = none) (hroom : c.size ≠ c.capacity)
    (hfree : c.freeEntry = node :: rest) :
    c.put toDouble key value numaId = (do
      let c' ← { c with freeEntry := rest }.link node key value numaId
      .ok (none, { c' with size := c'.size + 1 })) := by
  rw [put, hkey]
  dsimp only
  rw [if_neg hroom, hfree]

omit [Zero W] [Add W] [Mul W] in
theorem link_cases (c : NumaCache W) (node : ℕ) (key value : UInt64) (numaId : Fin 2) :
    (c.currentTs = int64Max ∧ c.link node key value numaId = .error .overflow) ∨
      ∃ c', c.link node key value numaId = .ok c' := by
  rw [link]
  split
  · rename_i hnow
    exact .inl ⟨hnow, rfl⟩
  · exact .inr ⟨_, rfl⟩

omit [Zero W] [Add W] [Mul W] in
theorem ne_of_link {c' : NumaCache W} (h : c.link node key value numaId = .ok c') :
    c.currentTs ≠ int64Max := by
  rcases link_cases c node key value numaId with ⟨-, herr⟩ | ⟨c'', hok⟩
  · cases h.symm.trans herr
  · intro hnow
    rw [link, if_pos hnow] at hok
    cases hok

/-- A new entry gets a time stamp. -/
theorem ne_of_put {p : Option UInt64 × NumaCache W} (hput : c.put toDouble key value numaId = .ok p)
    (hkey : c.entryMap.lookup key = none) : c.currentTs ≠ int64Max := by
  rw [put, hkey] at hput
  dsimp only at hput
  split at hput
  · split at hput
    · cases hput
    · obtain ⟨c', hlink, -⟩ := bind_eq_ok hput
      have hne := ne_of_link hlink
      exact hne
  · split at hput
    · cases hput
    · obtain ⟨c', hlink, -⟩ := bind_eq_ok hput
      have hne := ne_of_link hlink
      exact hne

end Put

/-! ## Map and set -/

/-- The key that `CacheEntryCmp` compares. -/
def rank (nodes : ℕ → CacheEntry W) (n : ℕ) : W ×ₗ ℤ := toLex ((nodes n).weight, (nodes n).oldestTs)

omit [Zero W] [One W] [Add W] [Mul W] in
theorem before_iff (nodes : ℕ → CacheEntry W) (m n : ℕ) : Before nodes m n ↔ rank nodes m < rank nodes n := by
  rw [Before, CacheEntry.Cmp, rank, rank, Prod.Lex.toLex_lt_toLex]
  split
  · rename_i heq
    simp only [heq, lt_self_iff_false, true_and, false_or]
  · rename_i hne
    simp only [hne, false_and, or_false]

/-- `entry_map_` and `entry_set_` over the nodes: the set is in order, a key leads to the
node of the set with that key, and time stamps tell nodes apart. -/
structure Held (nodes : ℕ → CacheEntry W) (entryMap : AList fun _ : UInt64 => ℕ) (entrySet : List ℕ) :
    Prop where
  sorted : entrySet.Pairwise (Before nodes)
  lookup : ∀ key n, entryMap.lookup key = some n ↔ n ∈ entrySet ∧ (nodes n).key = key
  ts : ∀ m ∈ entrySet, ∀ n ∈ entrySet, (nodes m).oldestTs = (nodes n).oldestTs → m = n

namespace Held

variable {nodes : ℕ → CacheEntry W} {entryMap : AList fun _ : UInt64 => ℕ} {entrySet set' : List ℕ}
  {key : UInt64} {n : ℕ} {e : CacheEntry W} (h : Held nodes entryMap entrySet)

omit [Zero W] [One W] [Add W] [Mul W]

include h

theorem nodup : entrySet.Nodup := by
  refine List.Pairwise.imp ?_ h.sorted
  rintro m _ hlt rfl
  exact lt_irrefl _ ((before_iff nodes m m).mp hlt)

theorem sameNodes : (entryMap.entries.map Sigma.snd).Perm entrySet := by
  have hentry : ∀ p : (_ : UInt64) × ℕ, p ∈ entryMap.entries ↔ p.2 ∈ entrySet ∧ (nodes p.2).key = p.1 :=
    fun p => AList.mem_lookup_iff.symm.trans (h.lookup p.1 p.2)
  refine (List.perm_ext_iff_of_nodup ?_ h.nodup).mpr fun n => ?_
  · refine entryMap.nodupKeys.nodup.map_on ?_
    rintro ⟨k, n⟩ hp ⟨k', n'⟩ hp' (rfl : n = n')
    have hk : (nodes n).key = k := ((hentry _).mp hp).2
    have hk' : (nodes n).key = k' := ((hentry _).mp hp').2
    rw [← hk, ← hk']
  · rw [List.mem_map]
    constructor
    · rintro ⟨p, hp, rfl⟩
      exact ((hentry p).mp hp).1
    · intro hn
      exact ⟨⟨(nodes n).key, n⟩, (hentry _).mpr ⟨hn, rfl⟩, rfl⟩

theorem length_eq : entryMap.entries.length = entrySet.length := by
  rw [← h.sameNodes.length_eq, List.length_map]

/-- A node leaves map and set. -/
theorem remove (hsorted : set'.Pairwise (Before nodes)) (hn : n ∈ entrySet)
    (hmem : ∀ m, m ∈ set' ↔ m ∈ entrySet ∧ m ≠ n) :
    Held nodes (entryMap.erase (nodes n).key) set' where
  sorted := hsorted
  lookup key m := by
    have hn' := (h.lookup (nodes n).key n).mpr ⟨hn, rfl⟩
    rcases eq_or_ne key (nodes n).key with rfl | hne
    · rw [AList.lookup_erase, hmem]
      refine ⟨nofun, ?_⟩
      rintro ⟨⟨hm, hmn⟩, hkey⟩
      have hm' := (h.lookup (nodes n).key m).mpr ⟨hm, hkey⟩
      exact absurd (Option.some.inj (hm'.symm.trans hn')) hmn
    · rw [AList.lookup_erase_ne hne, h.lookup, hmem, and_right_comm]
      refine ⟨fun ⟨hm, hkey⟩ => ⟨⟨hm, hkey⟩, ?_⟩, And.left⟩
      rintro rfl
      exact hne hkey.symm
  ts m hm m' hm' := h.ts m ((hmem m).mp hm).1 m' ((hmem m').mp hm').1

/-- The set without one of its nodes, which may then change. -/
theorem pairwise_update (hn : n ∉ entrySet) :
    entrySet.Pairwise (Before (Function.update nodes n e)) := by
  refine h.sorted.imp_of_mem fun {m m'} hm hm' hlt => ?_
  rw [Before, Function.update_of_ne (ne_of_mem_of_not_mem hm hn),
    Function.update_of_ne (ne_of_mem_of_not_mem hm' hn)]
  exact hlt

omit h in
/-- A node with a time stamp of its own goes into the set. -/
theorem mem_insert (hn : n ∉ entrySet) (hts : ∀ m ∈ entrySet, (nodes m).oldestTs ≠ e.oldestTs) (m : ℕ) :
    m ∈ StdSet.insert (Before (Function.update nodes n e)) n entrySet ↔ m = n ∨ m ∈ entrySet := by
  refine StdSet.mem_insert (before_iff _) fun m hm heq => hts m hm ?_
  have hrank := congrArg (fun r => (ofLex r).2) heq
  simpa only [rank, ofLex_toLex, Function.update_self,
    Function.update_of_ne (ne_of_mem_of_not_mem hm hn)] using hrank

/-- A node with a new key and a time stamp of its own joins map and set. -/
theorem add (hn : n ∉ entrySet) (hts : ∀ m ∈ entrySet, (nodes m).oldestTs ≠ e.oldestTs)
    (hkey : entryMap.lookup e.key = none) :
    Held (Function.update nodes n e) (entryMap.insert e.key n)
      (StdSet.insert (Before (Function.update nodes n e)) n entrySet) where
  sorted := StdSet.pairwise_insert (before_iff _) (h.pairwise_update hn)
  lookup key m := by
    rw [mem_insert hn hts]
    rcases eq_or_ne m n with rfl | hmn
    · simp only [true_or, true_and, Function.update_self]
      rcases eq_or_ne key e.key with rfl | hne
      · exact ⟨fun _ => rfl, fun _ => AList.lookup_insert _⟩
      · rw [AList.lookup_insert_ne hne, h.lookup]
        exact ⟨fun hm => absurd hm.1 hn, fun heq => absurd heq.symm hne⟩
    · simp only [hmn, false_or, Function.update_of_ne hmn]
      rcases eq_or_ne key e.key with rfl | hne
      · rw [AList.lookup_insert, ← h.lookup, hkey]
        exact ⟨fun heq => absurd (Option.some.inj heq).symm hmn, nofun⟩
      · rw [AList.lookup_insert_ne hne, h.lookup]
  ts m hm m' hm' heq := by
    rw [mem_insert hn hts] at hm hm'
    rcases hm with rfl | hm <;> rcases hm' with rfl | hm'
    · rfl
    · rw [Function.update_self, Function.update_of_ne (ne_of_mem_of_not_mem hm' hn)] at heq
      exact absurd heq.symm (hts m' hm')
    · rw [Function.update_self, Function.update_of_ne (ne_of_mem_of_not_mem hm hn)] at heq
      exact absurd heq (hts m hm)
    · rw [Function.update_of_ne (ne_of_mem_of_not_mem hm hn),
        Function.update_of_ne (ne_of_mem_of_not_mem hm' hn)] at heq
      exact h.ts m hm m' hm' heq

theorem mem_erase (hn : n ∈ entrySet) (m : ℕ) :
    m ∈ StdSet.erase (Before nodes) n entrySet ↔ m ∈ entrySet ∧ m ≠ n :=
  StdSet.mem_erase (before_iff nodes) h.sorted hn

/-- A node is taken out of the set, changes its weight and its value, and goes back. -/
theorem visit (hn : n ∈ entrySet) (hkey : e.key = (nodes n).key) (hts : e.oldestTs = (nodes n).oldestTs) :
    Held (Function.update nodes n e) entryMap
        (StdSet.insert (Before (Function.update nodes n e)) n (StdSet.erase (Before nodes) n entrySet)) ∧
      (StdSet.insert (Before (Function.update nodes n e)) n
        (StdSet.erase (Before nodes) n entrySet)).Perm entrySet := by
  have hout : Held nodes (entryMap.erase (nodes n).key) (StdSet.erase (Before nodes) n entrySet) :=
    h.remove (StdSet.pairwise_erase h.sorted) hn (h.mem_erase hn)
  have hnot : n ∉ StdSet.erase (Before nodes) n entrySet := fun hmem => ((h.mem_erase hn n).mp hmem).2 rfl
  have hts' : ∀ m ∈ StdSet.erase (Before nodes) n entrySet, (nodes m).oldestTs ≠ e.oldestTs := by
    intro m hm heq
    rw [h.mem_erase hn] at hm
    exact hm.2 (h.ts m hm.1 n hn (heq.trans hts))
  have hin := hout.add hnot hts' (by rw [hkey, AList.lookup_erase])
  have hmem : ∀ m, m ∈ StdSet.insert (Before (Function.update nodes n e)) n
      (StdSet.erase (Before nodes) n entrySet) ↔ m ∈ entrySet := by
    intro m
    rw [mem_insert hnot hts', h.mem_erase hn]
    rcases eq_or_ne m n with rfl | hne
    · simp only [hn, true_or]
    · simp only [hne, false_or, ne_eq, not_false_eq_true, and_true]
  refine ⟨⟨hin.sorted, fun key m => ?_, hin.ts⟩,
    (List.perm_ext_iff_of_nodup hin.nodup h.nodup).mpr hmem⟩
  rw [h.lookup, hmem]
  rcases eq_or_ne m n with rfl | hne
  · rw [Function.update_self, hkey]
  · rw [Function.update_of_ne hne]

end Held

/-! ## The invariant -/

namespace Traced

variable {s s' : Traced W} {key value : UInt64} {numaId : Fin 2}

/-- The nodes in use and the free nodes are all nodes, and the entries hold the last values. -/
structure Inv (s : Traced W) : Prop where
  held : Held s.cache.nodes s.cache.entryMap s.cache.entrySet
  freeNodup : s.cache.freeEntry.Nodup
  freeUnused : ∀ n ∈ s.cache.freeEntry, n ∉ s.cache.entrySet
  ts : ∀ n ∈ s.cache.entrySet, (s.cache.nodes n).oldestTs < s.cache.currentTs
  size : s.cache.size = s.cache.entrySet.length
  total : s.cache.entrySet.length + s.cache.freeEntry.length = s.cache.capacity
  pos : 0 < s.cache.capacity
  values : ∀ key, lastValue s.events key =
    (s.cache.entryMap.lookup key).map fun n => (s.cache.nodes n).value

omit [Zero W] [One W] [Add W] [Mul W] in
theorem inv_create {capacity : ℕ} (hpos : 0 < capacity) (hlt : capacity < 2 ^ 31)
    (memory : ℕ → CacheEntry W) :
    ∃ cache, create capacity memory = .ok cache ∧ (⟨cache, []⟩ : Traced W).Inv := by
  refine ⟨_, if_neg (Nat.not_le.mpr hlt), ⟨⟨.nil, fun _ _ => ⟨nofun, nofun⟩, nofun⟩, ?_, nofun, nofun, rfl,
    ?_, hpos, fun _ => rfl⟩⟩
  · exact List.nodup_reverse.mpr List.nodup_range
  · simp only [List.length_nil, List.length_reverse, List.length_range, Nat.zero_add]

namespace Inv

variable (h : s.Inv)

include h

omit [Zero W] [One W] [Add W] [Mul W] in
/-- The oldest of the lightest nodes, when the cache is full. -/
theorem exists_begin (hfull : s.cache.size = s.cache.capacity) :
    ∃ node rest, s.cache.entrySet = node :: rest := by
  apply List.exists_cons_of_length_pos
  have hpos := h.pos
  rw [← h.size]
  omega

omit [Zero W] [One W] [Add W] [Mul W] in
/-- A free node, when the cache is not full. -/
theorem exists_top (hroom : s.cache.size ≠ s.cache.capacity) :
    ∃ node free, s.cache.freeEntry = node :: free := by
  apply List.exists_cons_of_length_pos
  have htotal := h.total
  have hsize := h.size
  omega

omit [Zero W] [One W] [Add W] [Mul W] in
/-- An entry is visited, and may be given a value. -/
theorem reorder {node : ℕ} {e : CacheEntry W} {events : List Event}
    (hlookup : s.cache.entryMap.lookup key = some node)
    (hkey : e.key = (s.cache.nodes node).key) (hts : e.oldestTs = (s.cache.nodes node).oldestTs)
    (hevents : ∀ k, lastValue events k = if k = key then some e.value else lastValue s.events k) :
    (⟨s.cache.reorder node e, events⟩ : Traced W).Inv := by
  obtain ⟨hnode, hnodeKey⟩ := (h.held.lookup key node).mp hlookup
  obtain ⟨hheld, hperm⟩ := h.held.visit hnode hkey hts
  rw [NumaCache.reorder]
  refine ⟨hheld, h.freeNodup, fun n hn hmem => h.freeUnused n hn (hperm.mem_iff.mp hmem), fun n hn => ?_,
    h.size.trans hperm.length_eq.symm, ?_, h.pos, fun k => ?_⟩
  · rcases eq_or_ne n node with rfl | hne
    · simp only [Function.update_self, hts]
      exact h.ts n hnode
    · simp only [Function.update_of_ne hne]
      exact h.ts n (hperm.mem_iff.mp hn)
  · simp only [hperm.length_eq]
    exact h.total
  · rw [hevents]
    rcases eq_or_ne k key with rfl | hne
    · rw [if_pos rfl, hlookup]
      simp only [Option.map_some, Function.update_self]
    · rw [if_neg hne, h.values]
      cases hk : s.cache.entryMap.lookup k with
      | none => rfl
      | some m =>
        have hm : m ≠ node := by
          rintro rfl
          exact hne (((h.held.lookup k m).mp hk).2.symm.trans hnodeKey)
        simp only [Option.map_some, Function.update_of_ne hm]

omit [Zero W] [Add W] [Mul W] h in
/-- A node that is not in use is filled. The map and the set may have lost a node before. -/
theorem link (key value : UInt64) (numaId : Fin 2) (events : List Event) {c : NumaCache W}
    {node : ℕ} {size : ℕ}
    (hheld : Held c.nodes c.entryMap c.entrySet) (hnode : node ∉ c.entrySet)
    (hts : ∀ n ∈ c.entrySet, (c.nodes n).oldestTs < c.currentTs)
    (hfree : c.freeEntry.Nodup) (hunused : ∀ n ∈ c.freeEntry, n ≠ node ∧ n ∉ c.entrySet)
    (hsize : size = c.entrySet.length + 1) (htotal : size + c.freeEntry.length = c.capacity)
    (hkey : c.entryMap.lookup key = none)
    (hevents : ∀ k, lastValue events k =
      if k = key then some value else (c.entryMap.lookup k).map fun n => (c.nodes n).value)
    (hnow : c.currentTs ≠ int64Max) :
    ∃ c', c.link node key value numaId = .ok c' ∧ (⟨{ c' with size }, events⟩ : Traced W).Inv ∧
      c'.size = c.size := by
  have hts' : ∀ m ∈ c.entrySet, (c.nodes m).oldestTs ≠ c.currentTs := fun m hm => (hts m hm).ne
  have hadd : Held (Function.update c.nodes node (.reset key value c.currentTs numaId))
      (c.entryMap.insert key node)
      (StdSet.insert (Before (Function.update c.nodes node (.reset key value c.currentTs numaId))) node
        c.entrySet) := hheld.add hnode hts' hkey
  have hmem := Held.mem_insert (e := .reset key value c.currentTs numaId) hnode hts'
  have hperm : (StdSet.insert
      (Before (Function.update c.nodes node (.reset key value c.currentTs numaId))) node
        c.entrySet).Perm (node :: c.entrySet) := by
    refine (List.perm_ext_iff_of_nodup hadd.nodup (List.nodup_cons.mpr ⟨hnode, hheld.nodup⟩)).mpr ?_
    intro m
    rw [hmem, List.mem_cons]
  have hlength := hperm.length_eq
  refine ⟨_, if_neg hnow, ⟨?_, hfree, fun n hn hmem' => ?_, fun n hn => ?_, ?_, ?_, ?_, fun k => ?_⟩, rfl⟩
  · simp only [Function.update_self]
    exact hadd
  · obtain ⟨hne, hout⟩ := hunused n hn
    exact ((hmem n).mp hmem').elim hne hout
  · rcases eq_or_ne n node with rfl | hne
    · simp only [Function.update_self, CacheEntry.reset]
      exact Int.lt_succ _
    · simp only [Function.update_of_ne hne]
      exact (hts n (((hmem n).mp hn).resolve_left hne)).trans (Int.lt_succ _)
  · exact hsize.trans hlength.symm
  · rw [hlength, List.length_cons, ← hsize]
    exact htotal
  · simp only
    omega
  · simp only [Function.update_self, CacheEntry.reset]
    rw [hevents]
    rcases eq_or_ne k key with rfl | hne
    · rw [if_pos rfl, AList.lookup_insert, Option.map_some, Function.update_self]
    · rw [if_neg hne, AList.lookup_insert_ne hne]
      cases hk : c.entryMap.lookup k with
      | none => rfl
      | some m =>
        have hm : m ≠ node := ne_of_mem_of_not_mem ((hheld.lookup k m).mp hk).1 hnode
        rw [Option.map_some, Option.map_some, Function.update_of_ne hm]

/-- `put` of a new key when the cache is full: a node is evicted and used again. -/
theorem put_full (hkey : s.cache.entryMap.lookup key = none) (hfull : s.cache.size = s.cache.capacity)
    (hnow : s.cache.currentTs ≠ int64Max) :
    ∃ s', s.step toDouble (.put key value numaId) = .ok s' ∧ s'.Inv := by
  obtain ⟨node, rest, hset⟩ := h.exists_begin hfull
  obtain ⟨hnode, -⟩ := List.nodup_cons.mp (hset ▸ h.held.nodup)
  have hin : ∀ m, m ∈ rest → m ∈ s.cache.entrySet := fun m hm => hset ▸ List.mem_cons_of_mem _ hm
  have hnodeIn : node ∈ s.cache.entrySet := hset ▸ List.mem_cons_self ..
  have hsize : s.cache.size = rest.length + 1 := h.size.trans (congrArg List.length hset)
  have hheld : Held s.cache.nodes (s.cache.entryMap.erase (s.cache.nodes node).key) rest := by
    refine h.held.remove (hset ▸ h.held.sorted).of_cons hnodeIn fun m => ?_
    rw [hset, List.mem_cons]
    exact ⟨fun hm => ⟨.inr hm, ne_of_mem_of_not_mem hm hnode⟩, fun hm => hm.1.resolve_left hm.2⟩
  have hkey' : (s.cache.entryMap.erase (s.cache.nodes node).key).lookup key = none :=
    AList.lookup_eq_none.mpr fun hmem => AList.lookup_eq_none.mp hkey (AList.mem_erase.mp hmem).2
  obtain ⟨c', hlink, hinv, hsize'⟩ := link key value numaId
    (.put key value :: .evicted (s.cache.nodes node).key :: s.events)
    (c := { s.cache with entrySet := rest, entryMap := s.cache.entryMap.erase (s.cache.nodes node).key })
    hheld hnode (fun n hn => h.ts n (hin n hn)) h.freeNodup
    (fun n hn => ⟨fun heq => h.freeUnused n hn (heq ▸ hnodeIn), fun hmem => h.freeUnused n hn (hin n hmem)⟩)
    hsize (by rw [h.size]; exact h.total) hkey'
    (fun k => by
      rw [lastValue, lastValue]
      split
      · rfl
      · split
        · rename_i heq
          rw [heq, AList.lookup_erase]
          rfl
        · rename_i hne
          rw [AList.lookup_erase_ne hne, h.values])
    hnow
  have hsize'' : c'.size = s.cache.size := hsize'
  rw [← hsize''] at hinv
  refine ⟨_, ?_, hinv⟩
  rw [step, put_of_full hkey hfull hset, hlink]
  rfl

/-- `put` of a new key when there is room: a free node is used. -/
theorem put_room (hkey : s.cache.entryMap.lookup key = none) (hroom : s.cache.size ≠ s.cache.capacity)
    (hnow : s.cache.currentTs ≠ int64Max) :
    ∃ s', s.step toDouble (.put key value numaId) = .ok s' ∧ s'.Inv := by
  obtain ⟨node, free, hfree⟩ := h.exists_top hroom
  obtain ⟨hnode, hfreeNodup⟩ := List.nodup_cons.mp (hfree ▸ h.freeNodup)
  have hin : ∀ m, m ∈ free → m ∈ s.cache.freeEntry := fun m hm => hfree ▸ List.mem_cons_of_mem _ hm
  have htotal := h.total
  rw [hfree, List.length_cons] at htotal
  obtain ⟨c', hlink, hinv, hsize'⟩ := link key value numaId (.put key value :: s.events)
    (c := { s.cache with freeEntry := free })
    h.held (h.freeUnused node (hfree ▸ List.mem_cons_self ..)) h.ts hfreeNodup
    (fun n hn => ⟨ne_of_mem_of_not_mem hn hnode, h.freeUnused n (hin n hn)⟩)
    rfl (by simp only; omega) hkey (fun k => by rw [lastValue, h.values]) hnow
  have hsize'' : c'.size + 1 = s.cache.entrySet.length + 1 := congrArg (· + 1) (hsize'.trans h.size)
  rw [← hsize''] at hinv
  refine ⟨_, ?_, hinv⟩
  rw [step, put_of_room hkey hroom hfree, hlink]
  rfl

/-- **`put`** returns and keeps the books. -/
theorem put (hproper : s.Proper (.put key value numaId)) :
    ∃ s', s.step toDouble (.put key value numaId) = .ok s' ∧ s'.Inv := by
  cases hlookup : s.cache.entryMap.lookup key with
  | some node =>
    have hput : s.step toDouble (.put key value numaId) = .ok ⟨s.cache.reorder node
        { (s.cache.nodes node).visit toDouble numaId with value }, .put key value :: s.events⟩ := by
      rw [step, NumaCache.put, hlookup]
      rfl
    exact ⟨_, hput, h.reorder hlookup rfl rfl fun _ => rfl⟩
  | none =>
    have hnow : s.cache.currentTs ≠ int64Max := hproper.resolve_left (AList.lookup_eq_none.mp hlookup)
    rcases eq_or_ne s.cache.size s.cache.capacity with hfull | hroom
    · exact h.put_full hlookup hfull hnow
    · exact h.put_room hlookup hroom hnow

/-- **`get`** keeps the books. -/
theorem get : (⟨(s.cache.get toDouble key numaId).2, s.events⟩ : Traced W).Inv := by
  rw [NumaCache.get]
  cases hlookup : s.cache.entryMap.lookup key with
  | none => exact h
  | some node =>
    refine h.reorder hlookup rfl rfl fun k => ?_
    split
    · rename_i heq
      rw [heq, h.values, hlookup]
      rfl
    · rfl

/-- What `get` returns. -/
theorem get_fst : (s.cache.get toDouble key numaId).1 = lastValue s.events key := by
  rw [NumaCache.get, h.values]
  cases s.cache.entryMap.lookup key <;> rfl

/-- How `put` can end. -/
theorem put_cases (key value : UInt64) (numaId : Fin 2) :
    (key ∉ s.cache.entryMap ∧ s.cache.currentTs = int64Max ∧
        s.cache.put toDouble key value numaId = .error .overflow) ∨
      ∃ evicted cache, s.cache.put toDouble key value numaId = .ok (evicted, cache) ∧
        (evicted ≠ none → s.cache.size = s.cache.capacity) := by
  cases hlookup : s.cache.entryMap.lookup key with
  | some node =>
    refine .inr ⟨none, _, by rw [NumaCache.put, hlookup], fun hne => absurd rfl hne⟩
  | none =>
    have hnot := AList.lookup_eq_none.mp hlookup
    rcases eq_or_ne s.cache.size s.cache.capacity with hfull | hroom
    · obtain ⟨node, rest, hset⟩ := h.exists_begin hfull
      rw [put_of_full hlookup hfull hset]
      rcases link_cases { s.cache with
          entrySet := rest, entryMap := s.cache.entryMap.erase (s.cache.nodes node).key }
          node key value numaId with ⟨hnow, hlink⟩ | ⟨c', hlink⟩ <;> rw [hlink]
      · exact .inl ⟨hnot, hnow, rfl⟩
      · exact .inr ⟨_, _, rfl, fun _ => hfull⟩
    · obtain ⟨node, free, hfree⟩ := h.exists_top hroom
      rw [put_of_room hlookup hroom hfree]
      rcases link_cases { s.cache with freeEntry := free } node key value numaId
        with ⟨hnow, hlink⟩ | ⟨c', hlink⟩ <;> rw [hlink]
      · exact .inl ⟨hnot, hnow, rfl⟩
      · exact .inr ⟨_, _, rfl, fun hne => absurd rfl hne⟩

/-- **The books are right** as long as the invariant holds. -/
theorem sound : s.Sound toDouble where
  sameNodes := h.held.sameNodes
  once := h.held.nodup
  ownKey key node hlookup := ((h.held.lookup key node).mp hlookup).2
  size := h.size.trans h.held.length_eq.symm
  free := h.held.length_eq ▸ h.total
  put_ne key value numaId := by
    rcases h.put_cases key value numaId with ⟨-, -, hput⟩ | ⟨_, _, hput, -⟩ <;> rw [hput]
    · exact ⟨nofun, nofun⟩
    · exact ⟨nofun, nofun⟩
  full_of_evicts key value numaId evicted cache hput := by
    rw [h.held.length_eq, ← h.size]
    rcases h.put_cases key value numaId with ⟨-, -, hput'⟩ | ⟨_, _, hput', hfull⟩
    · cases hput.symm.trans hput'
    · cases hput.symm.trans hput'
      exact hfull nofun
  get_eq key numaId := h.get_fst

/-- One call. -/
theorem step {op : Op} (hproper : s.Proper op) : ∃ s', s.step toDouble op = .ok s' ∧ s'.Inv := by
  cases op with
  | put key value numaId => exact h.put hproper
  | get key numaId => exact ⟨_, rfl, h.get⟩
  | evict key =>
    refine ⟨s, ?_, h⟩
    rw [Traced.step, NumaCache.evict, AList.lookup_eq_none.mpr hproper]
    rfl

end Inv

/-! ## Every sequence of calls -/

theorem exec_append {capacity : ℕ} {memory : ℕ → CacheEntry W} {done : List Op}
    (hdone : exec toDouble capacity memory done = .ok s) (op : Op) :
    exec toDouble capacity memory (done ++ [op]) = s.step toDouble op := by
  rw [exec] at hdone ⊢
  obtain ⟨cache, hcreate, hdone⟩ := bind_eq_ok hdone
  rw [hcreate]
  change (done ++ [op]).foldlM (step toDouble) ⟨cache, []⟩ = _
  rw [List.foldlM_append, hdone]
  change [op].foldlM (step toDouble) s = _
  rw [List.foldlM_cons]
  cases s.step toDouble op <;> rfl

/-- The books are right whenever a call has returned. -/
def AlwaysSound (toDouble : UInt64 → W) (capacity : ℕ) (memory : ℕ → CacheEntry W) (ops : List Op) : Prop :=
  ∀ done, done <+: ops → ∃ s, exec toDouble capacity memory done = .ok s ∧ s.Sound toDouble

/-- An entry that is evicted stays counted. -/
theorem not_sound_of_evict (h : s.Sound toDouble) (hkey : key ∈ s.cache.entryMap)
    (hstep : s.step toDouble (.evict key) = .ok s') : ¬ s'.Sound toDouble := by
  intro h'
  obtain ⟨node, hlookup⟩ := Option.isSome_iff_exists.mp (AList.lookup_isSome.mpr hkey)
  rw [step, evict, hlookup] at hstep
  obtain rfl := Except.ok.inj hstep
  have hsize := h.size
  have hsize' : s.cache.size = (s.cache.entryMap.erase key).entries.length := h'.size
  have hlength : ∀ m : AList fun _ : UInt64 => ℕ, m.keys.length = m.entries.length := fun m => List.length_map _
  have hpos := List.length_pos_of_mem (AList.mem_keys.mp hkey)
  rw [← hlength, AList.keys_erase, List.length_erase_of_mem (AList.mem_keys.mp hkey)] at hsize'
  rw [← hlength] at hsize
  omega

/-- **The books are right in every state** exactly when the constructor can count the nodes,
no call of `evict` finds its key and no time stamp overflows. -/
theorem alwaysSound_iff (toDouble : UInt64 → W) (capacity : ℕ) (hpos : 0 < capacity)
    (memory : ℕ → CacheEntry W) (ops : List Op) :
    AlwaysSound toDouble capacity memory ops ↔
      capacity < 2 ^ 31 ∧ ∀ done op rest s, ops = done ++ op :: rest →
        exec toDouble capacity memory done = .ok s → s.Proper op := by
  constructor
  · intro hall
    refine ⟨?_, ?_⟩
    · obtain ⟨s, hs, -⟩ := hall [] List.nil_prefix
      by_contra hlarge
      rw [exec, create, if_pos (Nat.not_lt.mp hlarge)] at hs
      cases hs
    · rintro done op rest s rfl hdone
      obtain ⟨s₀, hs₀, hsound⟩ := hall done (List.prefix_append ..)
      obtain rfl := Except.ok.inj (hdone.symm.trans hs₀)
      obtain ⟨s', hs', hsound'⟩ := hall (done ++ [op]) ⟨rest, by rw [List.append_assoc]; rfl⟩
      rw [exec_append hdone] at hs'
      cases op with
      | get key numaId => trivial
      | evict key => exact fun hkey => not_sound_of_evict hsound hkey hs' hsound'
      | put key value numaId =>
        obtain ⟨p, hput, -⟩ := bind_eq_ok hs'
        rcases Classical.em (key ∈ s.cache.entryMap) with hkey | hkey
        · exact .inl hkey
        · exact .inr (ne_of_put hput (AList.lookup_eq_none.mpr hkey))
  · rintro ⟨hlt, hproper⟩ done ⟨rest, rfl⟩
    obtain ⟨cache, hcreate, hinv⟩ := inv_create hpos hlt memory
    obtain ⟨s, hs, hdone, hinv⟩ := exists_foldlM_of_append (f := step toDouble) done
      (fun done s => exec toDouble capacity memory done = .ok s ∧ s.Inv)
      (fun done op rest' s heq ⟨hs, hinv⟩ => by
        obtain ⟨s', hstep, hinv'⟩ : ∃ s', s.step toDouble op = .ok s' ∧ s'.Inv := hinv.step
          (hproper done op (rest' ++ rest) s (by rw [heq, List.append_assoc]; rfl) hs)
        exact ⟨s', hstep, by rw [exec_append hs, hstep], hinv'⟩)
      (s := ⟨cache, []⟩) ⟨by rw [exec, hcreate]; rfl, hinv⟩
    exact ⟨s, hdone, hinv.sound⟩

/-- Weights that are counts, and a call of `evict` that does not find its key. -/
theorem alwaysSound_iff_miss :
    AlwaysSound UInt64.toNat 1 (fun _ => .reset 0 0 0 0) [.put 1 10 0, .evict 2, .get 1 1] := by
  refine (alwaysSound_iff UInt64.toNat 1 Nat.one_pos _ _).mpr ⟨by decide, ?_⟩
  rintro (_ | ⟨_, _ | ⟨_, _ | ⟨_, done⟩⟩⟩) op rest s heq hs
  · cases heq
    cases hs
    exact .inr (by decide)
  · cases heq
    cases hs
    exact (by decide : (2 : UInt64) ∉ [(1 : UInt64)])
  · cases heq
    trivial
  · cases done <;> cases heq

/-- In a cache for one entry, a key is put and evicted. The next `put` takes the cache for
full and reads `begin()` of the empty set. -/
theorem put_after_evict :
    exec UInt64.toNat 1 (fun _ => .reset 0 0 0 0) [.put 1 10 0, .evict 1, .put 2 20 0] =
        .error .emptySet ∧
      ¬ AlwaysSound UInt64.toNat 1 (fun _ => .reset 0 0 0 0) [.put 1 10 0, .evict 1, .put 2 20 0] := by
  have hexec : exec UInt64.toNat 1 (fun _ => .reset 0 0 0 0) [.put 1 10 0, .evict 1, .put 2 20 0] =
      .error .emptySet := by
    rfl
  refine ⟨hexec, fun hall => ?_⟩
  obtain ⟨s, hs, -⟩ := hall _ List.prefix_rfl
  rw [hexec] at hs
  cases hs

end Traced

end NumaCache

end NaliStore
