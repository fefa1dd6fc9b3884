import Mathlib.Data.List.Sort
import Mathlib.Data.List.Range
import Mathlib.Data.UInt
import Mathlib.Order.Defs.LinearOrder

/-!
# Buckets of the learned index

`UnSortBuncket` of `src/src/nali_entry.h`: fifteen slots of key and value in no order, of
which the first `entries` are in use. What the other slots hold is left over from earlier
contents, or from the memory the bucket was allocated in. A full bucket is split at its
median key (`expand`).

The results say what the operations do to the pairs in use (`Has`), as long as no key is in
two slots (`Distinct`).
-/

namespace NaliStore

instance instLinearOrderUInt64 : LinearOrder UInt64 where
  le_refl := UInt64.le_refl
  le_trans _ _ _ := UInt64.le_trans
  le_antisymm _ _ := UInt64.le_antisymm
  le_total := UInt64.le_total
  lt_iff_le_not_ge a b := by
    rw [UInt64.not_le]
    exact ⟨fun h => ⟨UInt64.le_of_lt h, h⟩, fun h => h.2⟩
  toDecidableLE := inferInstance

/-- `status` -/
inductive Status where
  | failed
  | ok
  | full
  | exist
  | noExist
  deriving DecidableEq, Repr

namespace Status

/-- The values of the enumeration. -/
def toInt : Status → ℤ
  | failed => -1
  | ok => 0
  | full => 1
  | exist => 2
  | noExist => 3

/-- The conversion to `bool`. -/
def toBool (s : Status) : Bool := s.toInt != 0

end Status

/-- `UnSortBuncket<256, 8>` -/
structure UnSortBuncket where
  /-- `entries`: the slots in use -/
  entries : ℕ
  /-- `records`: key and value of each slot -/
  records : ℕ → UInt64 × UInt64

namespace UnSortBuncket

/-- `max_entries` -/
def maxEntries : ℕ := min ((256 - (8 + 8)) / (8 + 8)) 64

theorem maxEntries_eq : maxEntries = 15 := rfl

/-- `key` -/
def key (b : UnSortBuncket) (idx : ℕ) : UInt64 := (b.records idx).1

/-- `value` -/
def value (b : UnSortBuncket) (idx : ℕ) : UInt64 := (b.records idx).2

/-- `PutBufKV` -/
def putBufKV (b : UnSortBuncket) (newKey value : UInt64) (dataIndex : ℕ) :
    Status × UnSortBuncket :=
  if dataIndex ≥ maxEntries then (.full, b)
  else (.ok, { b with records := Function.update b.records dataIndex (newKey, value) })

/-- `Find`: the first slot in use that holds the key. -/
def find (b : UnSortBuncket) (target : UInt64) : Option ℕ :=
  (List.range b.entries).find? fun i => b.key i == target

/-- `Put`: append without looking for the key. -/
def put (b : UnSortBuncket) (key value : UInt64) : Status × UnSortBuncket :=
  match b.putBufKV key value b.entries with
  | (.ok, b) => (.ok, { b with entries := b.entries + 1 })
  | (ret, b) => (ret, b)

/-- `Update`: the old value, if the key is there. -/
def update (b : UnSortBuncket) (key value : UInt64) : Option UInt64 × UnSortBuncket :=
  match b.find key with
  | none => (none, b)
  | some pos =>
    (some (b.value pos), { b with records := Function.update b.records pos (b.key pos, value) })

/-- `Get` -/
def get (b : UnSortBuncket) (key : UInt64) : Option UInt64 := (b.find key).map b.value

/-- `remove_key` of a bucket with `idx` slots in use: the last of them fills the gap. -/
def removeKey (b : UnSortBuncket) (key : UInt64) (idx : ℕ) : Option UInt64 × UnSortBuncket :=
  match b.find key with
  | none => (none, b)
  | some pos =>
    if pos = idx - 1 then (some (b.value pos), b)
    else (some (b.value pos), { b with
      records := Function.update b.records pos (b.records (idx - 1)) })

/-- `Delete`: the old value, if the key is there. -/
def delete (b : UnSortBuncket) (key : UInt64) : Option UInt64 × UnSortBuncket :=
  match b.removeKey key b.entries with
  | (none, b) => (none, b)
  | (some value, b) => (some value, { b with entries := b.entries - 1 })

/-- `min_key`. It reads the first slot whether or not it is in use. -/
def minKey (b : UnSortBuncket) : UInt64 :=
  (List.range' 1 (b.entries - 1)).foldl (fun m i => if b.key i < m then b.key i else m) (b.key 0)

/-- `getSortedIndex`: the slots in use by ascending key. -/
def getSortedIndex (b : UnSortBuncket) : List ℕ :=
  (List.range b.entries).insertionSort fun i j => b.key i ≤ b.key j

/-- The first loop of `Expand_`: copy the slots into the new bucket. -/
def copySlots (b : UnSortBuncket) : List ℕ → UnSortBuncket → ℕ → UnSortBuncket
  | [], next, _ => next
  | i :: slots, next, idx =>
    copySlots b slots (next.putBufKV (b.key i) (b.value i) idx).2 (idx + 1)

/-- The second loop of `Expand_`: remove the keys of the slots, whose positions in the
bucket are those from before the loop. -/
def removeSlots : List ℕ → UnSortBuncket → ℕ → UnSortBuncket
  | [], b, _ => b
  | i :: slots, b, idx => removeSlots slots (b.removeKey (b.key i) idx).2 (idx - 1)

/-- `Expand_`: move the upper half to the bucket `next`; returns it, the split key, and what
is left. -/
def expand (b next : UnSortBuncket) : UnSortBuncket × UInt64 × UnSortBuncket :=
  let half := b.entries / 2
  let sortedIndex := b.getSortedIndex
  let splitKey := b.key (sortedIndex.getD half 0)
  let upper := sortedIndex.drop half
  ({ b.copySlots upper next 0 with entries := b.entries - half }, splitKey,
    { removeSlots upper b b.entries with entries := half })

/-! ## What a bucket holds -/

/-- The pair is in a slot in use. -/
def Has (b : UnSortBuncket) (k v : UInt64) : Prop := ∃ i < b.entries, b.records i = (k, v)

/-- The slots that `min_key` may read: those in use, and the first. -/
def Reads (b : UnSortBuncket) (k : UInt64) : Prop := ∃ i < max b.entries 1, b.key i = k

/-- No key is in two slots in use, and the slots in use are there. -/
structure Distinct (b : UnSortBuncket) : Prop where
  /-- no key is in two slots -/
  inj : ∀ i < b.entries, ∀ j < b.entries, b.key i = b.key j → i = j
  /-- there are fifteen slots -/
  le : b.entries ≤ maxEntries

variable {b : UnSortBuncket} {k v k' v' : UInt64} {i : ℕ}

theorem Has.reads (h : b.Has k v) : b.Reads k := by
  obtain ⟨i, hi, hrec⟩ := h
  exact ⟨i, lt_max_of_lt_left hi, by rw [key, hrec]⟩

/-- In a bucket that is not empty every slot read is in use. -/
theorem Reads.has (h : b.Reads k) (hpos : 0 < b.entries) : ∃ v, b.Has k v := by
  obtain ⟨i, hi, rfl⟩ := h
  rw [Nat.max_eq_left hpos] at hi
  exact ⟨_, i, hi, rfl⟩

theorem has_of_lt (hi : i < b.entries) : b.Has (b.key i) (b.value i) := ⟨i, hi, rfl⟩

theorem Distinct.has_unique (h : b.Distinct) (hv : b.Has k v) (hv' : b.Has k v') : v = v' := by
  obtain ⟨i, hi, hrec⟩ := hv
  obtain ⟨j, hj, hrec'⟩ := hv'
  obtain rfl := h.inj i hi j hj (by rw [key, key, hrec, hrec'])
  exact (Prod.mk.inj (hrec.symm.trans hrec')).2

theorem find_eq_some : b.find k = some i ↔ i < b.entries ∧ b.key i = k ∧ ∀ j < i, b.key j ≠ k := by
  rw [find, List.find?_range_eq_some]
  simp only [beq_iff_eq, List.mem_range, Bool.not_eq_eq_eq_not, Bool.not_true, beq_eq_false_iff_ne]
  tauto

theorem find_eq_none : b.find k = none ↔ ∀ v, ¬ b.Has k v := by
  rw [find, List.find?_eq_none]
  simp only [List.mem_range, beq_iff_eq]
  constructor
  · rintro h v ⟨i, hi, hrec⟩
    exact h i hi (by rw [key, hrec])
  · rintro h i hi rfl
    exact h _ (has_of_lt hi)

/-- What `Find` finds is the only slot of the key. -/
theorem Distinct.find_of_lt (h : b.Distinct) (hi : i < b.entries) (hk : b.key i = k) :
    b.find k = some i := by
  cases hf : b.find k with
  | none => exact absurd (hk ▸ has_of_lt hi) (find_eq_none.mp hf _)
  | some j =>
    obtain ⟨hj, hjk, -⟩ := find_eq_some.mp hf
    rw [h.inj i hi j hj (hk.trans hjk.symm)]

/-- **`Get`** returns what the bucket has. -/
theorem Distinct.get_eq (h : b.Distinct) : b.get k = some v ↔ b.Has k v := by
  rw [get, Option.map_eq_some_iff]
  constructor
  · rintro ⟨i, hi, rfl⟩
    obtain ⟨hlt, rfl, -⟩ := find_eq_some.mp hi
    exact has_of_lt hlt
  · rintro ⟨i, hi, hrec⟩
    exact ⟨i, h.find_of_lt hi (by rw [key, hrec]), by rw [value, hrec]⟩

theorem get_eq_none : b.get k = none ↔ ∀ v, ¬ b.Has k v := by
  rw [get, Option.map_eq_none_iff, find_eq_none]

/-! ## Put -/

/-- **`Put`** fails in a full bucket. -/
theorem put_of_full (h : maxEntries ≤ b.entries) : b.put k v = (.full, b) := by
  rw [put, putBufKV, if_pos h]

/-- The bucket after a `Put` that finds room. -/
def append (b : UnSortBuncket) (k v : UInt64) : UnSortBuncket :=
  ⟨b.entries + 1, Function.update b.records b.entries (k, v)⟩

/-- **`Put`** appends when there is room. -/
theorem put_of_room (h : b.entries < maxEntries) : b.put k v = (.ok, b.append k v) := by
  rw [put, putBufKV, if_neg (Nat.not_le_of_lt h)]
  rfl

theorem append_records_of_lt (hi : i < b.entries) : (b.append k v).records i = b.records i :=
  Function.update_of_ne (Nat.ne_of_lt hi) ..

theorem append_records_self : (b.append k v).records b.entries = (k, v) :=
  Function.update_self ..

theorem append_has : (b.append k v).Has k' v' ↔ b.Has k' v' ∨ (k' = k ∧ v' = v) := by
  constructor
  · rintro ⟨i, hi, hrec⟩
    rcases Nat.lt_succ_iff_lt_or_eq.mp hi with hlt | rfl
    · rw [append_records_of_lt hlt] at hrec
      exact .inl ⟨i, hlt, hrec⟩
    · rw [append_records_self] at hrec
      obtain ⟨rfl, rfl⟩ := Prod.mk.inj hrec
      exact .inr ⟨rfl, rfl⟩
  · rintro (⟨i, hi, hrec⟩ | ⟨rfl, rfl⟩)
    · exact ⟨i, Nat.lt_succ_of_lt hi, by rw [append_records_of_lt hi, hrec]⟩
    · exact ⟨b.entries, Nat.lt_succ_self _, append_records_self⟩

theorem append_reads (h : (b.append k v).Reads k') : b.Reads k' ∨ k' = k := by
  obtain ⟨i, hi, rfl⟩ := h
  have hi' : i < b.entries + 1 := by
    rwa [append, Nat.max_eq_left (Nat.succ_le_succ (Nat.zero_le _))] at hi
  rcases Nat.lt_succ_iff_lt_or_eq.mp hi' with hlt | rfl
  · exact .inl ⟨i, lt_max_of_lt_left hlt, by rw [key, key, append_records_of_lt hlt]⟩
  · exact .inr (by rw [key, append_records_self])

theorem Distinct.append (h : b.Distinct) (hroom : b.entries < maxEntries)
    (hk : ∀ v, ¬ b.Has k v) : (b.append k v).Distinct where
  inj i hi j hj heq := by
    have hne : ∀ i < b.entries, b.key i ≠ k := fun i hi hik => hk _ (hik ▸ has_of_lt hi)
    rcases Nat.lt_succ_iff_lt_or_eq.mp hi with hlt | rfl
    · rcases Nat.lt_succ_iff_lt_or_eq.mp hj with hlt' | rfl
      · rw [key, key, append_records_of_lt hlt, append_records_of_lt hlt'] at heq
        exact h.inj i hlt j hlt' heq
      · rw [key, key, append_records_of_lt hlt, append_records_self] at heq
        exact absurd heq (hne i hlt)
    · rcases Nat.lt_succ_iff_lt_or_eq.mp hj with hlt' | rfl
      · rw [key, key, append_records_of_lt hlt', append_records_self] at heq
        exact absurd heq.symm (hne j hlt')
      · rfl
  le := hroom

/-! ## Update and Delete -/

/-- **`Update`** of a key that is there. -/
theorem Distinct.update_of_has (h : b.Distinct) (hk : b.Has k v) (w : UInt64) :
    ∃ b', b.update k w = (some v, b') ∧ b'.Distinct ∧
      (∀ k' v', b'.Has k' v' ↔ if k' = k then v' = w else b.Has k' v') ∧
      ∀ k', b'.Reads k' → b.Reads k' := by
  obtain ⟨i, hi, hrec⟩ := hk
  have hkey : b.key i = k := by rw [key, hrec]
  set b' : UnSortBuncket := ⟨b.entries, Function.update b.records i (b.key i, w)⟩ with hb'
  have hkeys : ∀ j, b'.key j = b.key j := by
    intro j
    by_cases hj : j = i
    · simp only [key, hb', hj, Function.update_self]
    · simp only [key, hb', Function.update_of_ne hj]
  refine ⟨b', ?_, ⟨fun x hx y hy hxy => ?_, h.le⟩, fun k' v' => ?_, ?_⟩
  · rw [update, h.find_of_lt hi hkey]
    simp only [value, hrec, hb']
  · rw [hkeys, hkeys] at hxy
    exact h.inj x hx y hy hxy
  · constructor
    · rintro ⟨j, hj, hjrec⟩
      have hjk : b.key j = k' := by rw [← hkeys, key, hjrec]
      by_cases hji : j = i
      · subst hji
        rw [if_pos (hjk.symm.trans hkey)]
        rw [hb'] at hjrec
        simp only [Function.update_self] at hjrec
        exact (Prod.mk.inj hjrec).2.symm
      · rw [if_neg fun hk' => hji (h.inj j hj i hi (by rw [hjk, hkey, hk']))]
        rw [hb'] at hjrec
        simp only [Function.update_of_ne hji] at hjrec
        exact ⟨j, hj, hjrec⟩
    · intro hcase
      split at hcase
      · rename_i hk'
        subst hk' hcase
        exact ⟨i, hi, by simp only [hb', Function.update_self, hkey]⟩
      · rename_i hk'
        obtain ⟨j, hj, hjrec⟩ := hcase
        have hji : j ≠ i := by
          rintro rfl
          exact hk' ((Prod.mk.inj (hjrec.symm.trans hrec)).1)
        exact ⟨j, hj, by simp only [hb', Function.update_of_ne hji, hjrec]⟩
  · rintro k' ⟨j, hj, rfl⟩
    exact ⟨j, hj, (hkeys j).symm⟩

theorem update_of_absent (hk : ∀ v, ¬ b.Has k v) (w : UInt64) : b.update k w = (none, b) := by
  rw [update, find_eq_none.mpr hk]

/-- **`remove_key`** with the first `n` slots in use, of the key of slot `i`. -/
theorem removeKey_spec {n : ℕ} (hn : n ≤ b.entries)
    (hinj : ∀ i < n, ∀ j < n, b.key i = b.key j → i = j) (hi : i < n) :
    ∃ b', b.removeKey (b.key i) n = (some (b.value i), b') ∧ b'.entries = b.entries ∧
      (∀ j < n - 1, ∀ j' < n - 1, b'.key j = b'.key j' → j = j') ∧
      (∀ r, (∃ j < n - 1, b'.records j = r) ↔ r.1 ≠ b.key i ∧ ∃ j < n, b.records j = r) ∧
      ∀ j ≠ i, b'.records j = b.records j := by
  have hfind : b.find (b.key i) = some i := find_eq_some.mpr ⟨lt_of_lt_of_le hi hn, rfl,
    fun j hj hji => absurd (hinj j (hj.trans hi) i hi hji) hj.ne⟩
  have hlast : n - 1 < n := Nat.sub_lt (Nat.zero_lt_of_lt hi) Nat.one_pos
  by_cases hlt : i = n - 1
  · -- the last slot is dropped
    refine ⟨b, ?_, rfl, fun j hj j' hj' => hinj j (hj.trans hlast) j' (hj'.trans hlast),
      fun r => ?_, fun _ _ => rfl⟩
    · rw [removeKey, hfind]
      simp only [if_pos hlt]
    · constructor
      · rintro ⟨j, hj, rfl⟩
        exact ⟨fun hji => absurd (hinj j (hj.trans hlast) i hi hji) (hlt ▸ hj.ne),
          j, hj.trans hlast, rfl⟩
      · rintro ⟨hne, j, hj, rfl⟩
        have hji : j ≠ i := fun h => hne (by rw [h]; rfl)
        exact ⟨j, by omega, rfl⟩
  · -- the last slot fills the gap
    set b' : UnSortBuncket := ⟨b.entries, Function.update b.records i (b.records (n - 1))⟩ with hb'
    have hself : b'.records i = b.records (n - 1) := Function.update_self ..
    have hother : ∀ j ≠ i, b'.records j = b.records j := fun j hj => Function.update_of_ne hj ..
    have hmove : ∀ j < n - 1, ∃ x < n, x ≠ i ∧ b'.records j = b.records x ∧
        (x = j ∨ j = i ∧ x = n - 1) := by
      intro j hj
      by_cases hji : j = i
      · exact ⟨n - 1, hlast, fun h => hlt h.symm, by rw [hji, hself], .inr ⟨hji, rfl⟩⟩
      · exact ⟨j, hj.trans hlast, hji, hother j hji, .inl rfl⟩
    refine ⟨b', ?_, rfl, fun j hj j' hj' heq => ?_, fun r => ?_, hother⟩
    · rw [removeKey, hfind]
      simp only [if_neg hlt, hb']
    · obtain ⟨x, hx, -, hxr, hxj⟩ := hmove j hj
      obtain ⟨y, hy, -, hyr, hyj⟩ := hmove j' hj'
      have hxy : x = y := hinj x hx y hy (by rwa [key, key, hxr, hyr] at heq)
      omega
    · constructor
      · rintro ⟨j, hj, rfl⟩
        obtain ⟨x, hx, hxi, hxr, -⟩ := hmove j hj
        rw [hxr]
        exact ⟨fun hxk => hxi (hinj x hx i hi hxk), x, hx, rfl⟩
      · rintro ⟨hne, j, hj, rfl⟩
        have hji : j ≠ i := fun h => hne (by rw [h]; rfl)
        by_cases hjl : j = n - 1
        · exact ⟨i, by omega, by rw [hself, hjl]⟩
        · exact ⟨j, by omega, hother j hji⟩

/-- **`Delete`** of a key that is there. -/
theorem Distinct.delete_of_has (h : b.Distinct) (hk : b.Has k v) :
    ∃ b', b.delete k = (some v, b') ∧ b'.Distinct ∧
      (∀ k' v', b'.Has k' v' ↔ k' ≠ k ∧ b.Has k' v') ∧ ∀ k', b'.Reads k' → b.Reads k' := by
  obtain ⟨i, hi, hrec⟩ := hk
  obtain ⟨rfl, rfl⟩ : b.key i = k ∧ b.value i = v := Prod.mk.inj hrec
  obtain ⟨b', hrem, hent, hinj, hhas, hother⟩ := removeKey_spec (Nat.le_refl _) h.inj hi
  refine ⟨⟨b'.entries - 1, b'.records⟩, ?_, ⟨?_, ?_⟩, fun k' v' => ?_, ?_⟩
  · rw [delete, hrem]
  · rw [hent]
    exact hinj
  · rw [hent]
    exact le_trans (Nat.sub_le ..) h.le
  · simp only [Has, hent]
    exact hhas (k', v')
  · rintro k' ⟨j, hj, rfl⟩
    simp only [hent] at hj
    by_cases hlt : j < b.entries - 1
    · obtain ⟨-, x, hx, hxr⟩ := (hhas (b'.records j)).mp ⟨j, hlt, rfl⟩
      exact ⟨x, lt_max_of_lt_left hx, by rw [key, hxr]; rfl⟩
    · -- the bucket is empty now, and its first slot is the one that was in use
      have hi0 : i = 0 := by omega
      have hj0 : j = 0 := by omega
      subst hi0 hj0
      have hsame : b'.records 0 = b.records 0 := by
        have hone : 0 = b.entries - 1 := by omega
        have hfind := h.find_of_lt hi rfl
        rw [removeKey, hfind] at hrem
        simp only [if_pos hone] at hrem
        rw [← (Prod.mk.inj hrem).2]
      exact ⟨0, lt_max_of_lt_right Nat.one_pos, by rw [key, ← hsame]; rfl⟩

theorem delete_of_absent (hk : ∀ v, ¬ b.Has k v) : b.delete k = (none, b) := by
  rw [delete, removeKey, find_eq_none.mpr hk]

theorem entries_update : (b.update k v).2.entries = b.entries := by
  rw [update]
  cases b.find k <;> rfl

theorem entries_delete : (b.delete k).2.entries = if (b.delete k).1 = none then b.entries
    else b.entries - 1 := by
  rw [delete, removeKey]
  cases b.find k with
  | none => rfl
  | some pos =>
    by_cases hlast : pos = b.entries - 1
    · simp only [if_pos hlast]
      rfl
    · simp only [if_neg hlast]
      rfl

theorem entries_delete_le : (b.delete k).2.entries ≤ b.entries := by
  rw [entries_delete]
  split <;> omega

/-! ## Splitting -/

theorem mem_getSortedIndex : i ∈ b.getSortedIndex ↔ i < b.entries := by
  rw [getSortedIndex, List.mem_insertionSort, List.mem_range]

theorem length_getSortedIndex : b.getSortedIndex.length = b.entries := by
  rw [getSortedIndex, List.length_insertionSort, List.length_range]

theorem nodup_getSortedIndex : b.getSortedIndex.Nodup :=
  (List.perm_insertionSort _ _).nodup_iff.mpr List.nodup_range

/-- The sorted slots ascend strictly when no key is in two of them. -/
theorem Distinct.pairwise_getSortedIndex (h : b.Distinct) :
    b.getSortedIndex.Pairwise fun i j => b.key i < b.key j := by
  have htotal : Std.Total fun i j => b.key i ≤ b.key j := ⟨fun i j => le_total _ _⟩
  have htrans : IsTrans ℕ fun i j => b.key i ≤ b.key j := ⟨fun _ _ _ => le_trans⟩
  have hle : b.getSortedIndex.Pairwise fun i j => b.key i ≤ b.key j :=
    List.pairwise_insertionSort _ _
  refine (hle.and (nodup_getSortedIndex (b := b))).imp_of_mem ?_
  rintro i j hi hj ⟨hij, hne⟩
  exact lt_of_le_of_ne hij fun heq =>
    hne (h.inj i (mem_getSortedIndex.mp hi) j (mem_getSortedIndex.mp hj) heq)

theorem copySlots_records (slots : List ℕ) : ∀ (next : UnSortBuncket) (idx : ℕ),
    idx + slots.length ≤ maxEntries →
    (∀ j < idx, (b.copySlots slots next idx).records j = next.records j) ∧
      ∀ t i, slots[t]? = some i → (b.copySlots slots next idx).records (idx + t) = b.records i := by
  induction slots with
  | nil => exact fun next idx _ => ⟨fun _ _ => rfl, fun t i ht => by cases ht⟩
  | cons i slots ih =>
    intro next idx hlen
    rw [List.length_cons] at hlen
    have hput : (next.putBufKV (b.key i) (b.value i) idx).2 =
        ⟨next.entries, Function.update next.records idx (b.records i)⟩ := by
      rw [putBufKV, if_neg (by omega)]
      rfl
    rw [copySlots, hput]
    obtain ⟨hbefore, hafter⟩ := ih ⟨next.entries, Function.update next.records idx (b.records i)⟩
      (idx + 1) (by omega)
    refine ⟨fun j hj => ?_, fun t x ht => ?_⟩
    · rw [hbefore j (Nat.lt_succ_of_lt hj)]
      exact Function.update_of_ne hj.ne ..
    · cases t with
      | zero =>
        obtain rfl := Option.some.inj ht
        exact (hbefore idx (Nat.lt_succ_self _)).trans (Function.update_self ..)
      | succ t =>
        rw [← Nat.add_assoc, Nat.add_right_comm]
        exact hafter t x ht

/-- **The removal loop of `Expand_`.** The records of the slots in `kept` are the first `n`
of the bucket, and each is still at its old place; the loop removes those of `slots`. -/
theorem removeSlots_spec (slots : List ℕ) : ∀ (c : UnSortBuncket) (n : ℕ) (kept : ℕ → Prop),
    n ≤ c.entries → (∀ i < n, ∀ j < n, c.key i = c.key j → i = j) →
    (∀ r, (∃ j < n, c.records j = r) ↔ ∃ x, kept x ∧ b.records x = r) →
    (∀ x, kept x → c.records x = b.records x) →
    (∀ x y, kept x → kept y → b.key x = b.key y → x = y) →
    slots.Nodup → (∀ x ∈ slots, kept x) →
    (∀ i < n - slots.length, ∀ j < n - slots.length,
        (removeSlots slots c n).key i = (removeSlots slots c n).key j → i = j) ∧
      ∀ r, (∃ j < n - slots.length, (removeSlots slots c n).records j = r) ↔
        ∃ x, kept x ∧ x ∉ slots ∧ b.records x = r := by
  induction slots with
  | nil =>
    intro c n kept _ hinj hrec _ _ _ _
    refine ⟨hinj, fun r => (hrec r).trans ?_⟩
    simp
  | cons i slots ih =>
    intro c n kept hn hinj hrec hplace hkept hnodup hslots
    obtain ⟨hi, hnodup⟩ := List.nodup_cons.mp hnodup
    have hki : kept i := hslots i (List.mem_cons_self ..)
    -- the key is read at the old place of its record, and removed where the record is now
    obtain ⟨p, hp, hpr⟩ := (hrec (b.records i)).mpr ⟨i, hki, rfl⟩
    have hkey : c.key i = c.key p := by rw [key, key, hplace i hki, hpr]
    obtain ⟨c', hrem, hent, hinj', hrec', hother⟩ := removeKey_spec hn hinj hp
    have hpi : c.key p = b.key i := by rw [key, hpr, key]
    have hstep := ih c' (n - 1) (fun x => kept x ∧ x ≠ i) (by rw [hent]; omega) hinj'
      (fun r => ?_) (fun x hx => ?_) (fun x y hx hy => hkept x y hx.1 hy.1) hnodup
      (fun x hx => ⟨hslots x (List.mem_cons_of_mem _ hx), fun h => hi (h ▸ hx)⟩)
    · rw [removeSlots, hkey, hrem, List.length_cons, Nat.add_comm, Nat.sub_add_eq]
      refine ⟨hstep.1, fun r => (hstep.2 r).trans ?_⟩
      constructor
      · rintro ⟨x, ⟨hx, hxi⟩, hxs, hxr⟩
        exact ⟨x, hx, by simp [hxi, hxs], hxr⟩
      · rintro ⟨x, hx, hxs, hxr⟩
        exact ⟨x, ⟨hx, fun h => hxs (by simp [h])⟩, fun h => hxs (List.mem_cons_of_mem _ h), hxr⟩
    · rw [hrec', hrec, hpi]
      constructor
      · rintro ⟨hne, x, hx, rfl⟩
        exact ⟨x, ⟨hx, fun h => hne (by rw [h]; rfl)⟩, rfl⟩
      · rintro ⟨x, ⟨hx, hxi⟩, rfl⟩
        exact ⟨fun h => hxi (hkept x i hx hki h), x, hx, rfl⟩
    · rw [← hplace x hx.1]
      refine hother x fun hxp => hx.2 (hkept x i hx.1 hki ?_)
      rw [key, ← hplace x hx.1, hxp, hpr, key]

/-- **`Expand_`** of a bucket with at least two slots in use: the pairs below the split key
stay, the others move. -/
structure Split (b next : UnSortBuncket) (splitKey : UInt64) (rest : UnSortBuncket) : Prop where
  /-- what has moved -/
  has_next : ∀ k v, next.Has k v ↔ b.Has k v ∧ splitKey ≤ k
  /-- what has stayed -/
  has_rest : ∀ k v, rest.Has k v ↔ b.Has k v ∧ k < splitKey
  /-- no key is in two slots -/
  distinct_next : next.Distinct
  /-- no key is in two slots -/
  distinct_rest : rest.Distinct
  /-- the upper half has moved -/
  entries_next : next.entries = b.entries - b.entries / 2
  /-- the lower half has stayed -/
  entries_rest : rest.entries = b.entries / 2

/-- The slots of the upper half. -/
def upperHalf (b : UnSortBuncket) : List ℕ := b.getSortedIndex.drop (b.entries / 2)

theorem length_upperHalf : b.upperHalf.length = b.entries - b.entries / 2 := by
  rw [upperHalf, List.length_drop, length_getSortedIndex]

theorem nodup_upperHalf : b.upperHalf.Nodup := nodup_getSortedIndex.drop

theorem lt_of_mem_upperHalf (h : i ∈ b.upperHalf) : i < b.entries :=
  mem_getSortedIndex.mp (List.mem_of_mem_drop h)

/-- The split key is the least key of the upper half. -/
theorem exists_upperHalf (hpos : 0 < b.entries) :
    ∃ m rest, b.upperHalf = m :: rest ∧ ∀ next, (b.expand next).2.1 = b.key m := by
  obtain ⟨m, rest, hm⟩ : ∃ m rest, b.upperHalf = m :: rest :=
    List.exists_cons_of_length_pos (by rw [length_upperHalf]; omega)
  refine ⟨m, rest, hm, fun next => ?_⟩
  have hget : b.getSortedIndex[b.entries / 2]? = some m := by
    rw [← Nat.add_zero (b.entries / 2), ← List.getElem?_drop, ← upperHalf, hm]
    rfl
  simp only [expand, List.getD, hget, Option.getD_some]

/-- The split key is a key of the bucket, and the upper half has the keys from there on. -/
theorem Distinct.mem_upperHalf (h : b.Distinct) (hpos : 0 < b.entries) (next : UnSortBuncket) :
    ∀ x < b.entries, x ∈ b.upperHalf ↔ (b.expand next).2.1 ≤ b.key x := by
  obtain ⟨m, rest, hm, hsplit⟩ := exists_upperHalf hpos
  have hcut := h.pairwise_getSortedIndex
  rw [← List.take_append_drop (b.entries / 2) b.getSortedIndex, ← upperHalf,
    List.pairwise_append, hm] at hcut
  obtain ⟨-, hup, hcross⟩ := hcut
  intro x hx
  rw [hsplit next, hm]
  constructor
  · intro hxu
    rcases List.mem_cons.mp hxu with rfl | hxr
    · exact le_rfl
    · exact ((List.pairwise_cons.mp hup).1 x hxr).le
  · intro hle
    have hxs : x ∈ b.getSortedIndex := mem_getSortedIndex.mpr hx
    rw [← List.take_append_drop (b.entries / 2) b.getSortedIndex, ← upperHalf, hm] at hxs
    rcases List.mem_append.mp hxs with hxl | hxu
    · exact absurd hle (not_le_of_gt (hcross x hxl m (List.mem_cons_self ..)))
    · exact hxu

/-- The new bucket has the records of the upper half. -/
theorem expand_records (hle : b.entries ≤ maxEntries) (next : UnSortBuncket) {t : ℕ}
    (ht : t < b.entries - b.entries / 2) :
    ∃ x, b.upperHalf[t]? = some x ∧ (b.expand next).1.records t = b.records x := by
  have hcopy := (copySlots_records (b := b) b.upperHalf next 0
    (by rw [length_upperHalf]; omega)).2
  obtain ⟨x, hx⟩ : ∃ x, b.upperHalf[t]? = some x :=
    ⟨_, List.getElem?_eq_getElem (by rw [length_upperHalf]; exact ht)⟩
  have hrec := hcopy t x hx
  rw [Nat.zero_add] at hrec
  exact ⟨x, hx, hrec⟩

theorem Distinct.split_expand (h : b.Distinct) (hpos : 0 < b.entries) (next : UnSortBuncket) :
    Split b (b.expand next).1 (b.expand next).2.1 (b.expand next).2.2 := by
  have hmem := h.mem_upperHalf hpos next
  obtain ⟨hrinj, hrrec⟩ := removeSlots_spec (b := b) b.upperHalf b b.entries (· < b.entries)
    le_rfl h.inj (fun r => Iff.rfl) (fun _ _ => rfl) (fun x y hx hy => h.inj x hx y hy)
    nodup_upperHalf fun _ => lt_of_mem_upperHalf
  have hhalf : b.entries - b.upperHalf.length = b.entries / 2 := by
    rw [length_upperHalf]
    omega
  rw [hhalf] at hrinj hrrec
  refine ⟨fun k v => ?_, fun k v => ?_, ⟨fun i hi j hj heq => ?_, ?_⟩, ⟨hrinj, ?_⟩, rfl, rfl⟩
  · constructor
    · rintro ⟨t, ht, hrec⟩
      obtain ⟨x, hx, hxr⟩ := expand_records h.le next ht
      have hxu := List.mem_of_getElem? hx
      have hxk : b.records x = (k, v) := hxr.symm.trans hrec
      have hxlt := lt_of_mem_upperHalf hxu
      refine ⟨⟨x, hxlt, hxk⟩, ?_⟩
      have hle := (hmem x hxlt).mp hxu
      rwa [key, hxk] at hle
    · rintro ⟨⟨x, hx, hxk⟩, hle⟩
      have hxu : x ∈ b.upperHalf := (hmem x hx).mpr (by rwa [key, hxk])
      obtain ⟨t, ht⟩ := List.mem_iff_getElem?.mp hxu
      obtain ⟨htlt, -⟩ := List.getElem?_eq_some_iff.mp ht
      rw [length_upperHalf] at htlt
      obtain ⟨y, hy, hyr⟩ := expand_records h.le next htlt
      obtain rfl := Option.some.inj (ht.symm.trans hy)
      exact ⟨t, htlt, hyr.trans hxk⟩
  · refine (hrrec (k, v)).trans ?_
    constructor
    · rintro ⟨x, hx, hxu, hxk⟩
      refine ⟨⟨x, hx, hxk⟩, lt_of_not_ge fun hle => hxu ((hmem x hx).mpr ?_)⟩
      rwa [key, hxk]
    · rintro ⟨⟨x, hx, hxk⟩, hk⟩
      refine ⟨x, hx, fun hxu => not_le_of_gt hk ?_, hxk⟩
      have hle := (hmem x hx).mp hxu
      rwa [key, hxk] at hle
  · obtain ⟨x, hx, hxr⟩ := expand_records h.le next hi
    obtain ⟨y, hy, hyr⟩ := expand_records h.le next hj
    rw [key, key, hxr, hyr] at heq
    obtain rfl := h.inj x (lt_of_mem_upperHalf (List.mem_of_getElem? hx)) y
      (lt_of_mem_upperHalf (List.mem_of_getElem? hy)) heq
    exact (List.getElem?_inj (by rw [length_upperHalf]; exact hi) nodup_upperHalf).mp
      (hx.trans hy.symm)
  · exact le_trans (Nat.sub_le ..) h.le
  · exact le_trans (Nat.div_le_self ..) h.le

/-! ## The least key -/

/-- The loop of `min_key`. -/
theorem foldl_min (key : ℕ → UInt64) (l : List ℕ) : ∀ m : UInt64,
    let r := l.foldl (fun m i => if key i < m then key i else m) m
    r ≤ m ∧ (∀ i ∈ l, r ≤ key i) ∧ (r = m ∨ ∃ i ∈ l, r = key i) := by
  induction l with
  | nil => exact fun m => ⟨le_rfl, fun i hi => absurd hi List.not_mem_nil, .inl rfl⟩
  | cons i l ih =>
    intro m
    obtain ⟨hle, hall, hmem⟩ := ih (if key i < m then key i else m)
    have hstep : (if key i < m then key i else m) ≤ m ∧ (if key i < m then key i else m) ≤ key i := by
      split
      · exact ⟨le_of_lt ‹_›, le_rfl⟩
      · exact ⟨le_rfl, le_of_not_gt ‹_›⟩
    refine ⟨hle.trans hstep.1, fun j hj => ?_, ?_⟩
    · rcases List.mem_cons.mp hj with rfl | hj
      · exact hle.trans hstep.2
      · exact hall j hj
    · rcases hmem with hmem | ⟨j, hj, hmem⟩
      · by_cases hlt : key i < m
        · rw [if_pos hlt] at hmem
          exact .inr ⟨i, List.mem_cons_self .., by rw [List.foldl_cons, if_pos hlt, hmem]⟩
        · rw [if_neg hlt] at hmem
          exact .inl (by rw [List.foldl_cons, if_neg hlt, hmem])
      · exact .inr ⟨j, List.mem_cons_of_mem _ hj, hmem⟩

theorem minKey_le (h : b.Reads k) : b.minKey ≤ k := by
  obtain ⟨i, hi, rfl⟩ := h
  obtain ⟨hle, hall, -⟩ := foldl_min b.key (List.range' 1 (b.entries - 1)) (b.key 0)
  rcases Nat.eq_zero_or_pos i with rfl | hpos
  · exact hle
  · exact hall i (List.mem_range'_1.mpr (by omega))

/-- `min_key` returns a key that it has read. -/
theorem reads_minKey (b : UnSortBuncket) : b.Reads b.minKey := by
  obtain ⟨-, -, hmem⟩ := foldl_min b.key (List.range' 1 (b.entries - 1)) (b.key 0)
  rcases hmem with hmem | ⟨i, hi, hmem⟩
  · exact ⟨0, lt_max_of_lt_right Nat.one_pos, hmem.symm⟩
  · rw [List.mem_range'_1] at hi
    exact ⟨i, lt_max_of_lt_left (by omega), hmem.symm⟩

end UnSortBuncket

end NaliStore
