import Mathlib.Data.List.Nodup
import Mathlib.Logic.Function.Basic

/-!
# The CLHT hash table

The part of `src/src/clht/clht_lb_res.cc` that the store's read cache uses, run by one
thread: `clht_create`, `clht_get`, `clht_put` and the resize that `clht_put` can start.
A bin is a chain of buckets of three slots; it is modelled as the list of its slots.
Key 0 marks an empty slot, and a chained bucket comes from `memalign`, so the values of
its empty slots are whatever the memory held.

What the cache needs is `Clht.get_put`: a `clht_put` of `k ↦ v` changes what `clht_get`
returns for a key only to 0, or, for `k` itself, to `v`. For key 0 this takes memory
that reads as zero.
-/

namespace NaliStore

/-- `clht_hashtable_t`. -/
structure Clht where
  /-- `hash`: one less than `num_buckets` -/
  hash : ℕ
  /-- the slots of each bin, its chained buckets appended -/
  table : ℕ → List (UInt64 × UInt64)
  /-- `num_expands` -/
  numExpands : ℕ

/-- What the table's code does not determine. -/
structure ClhtEnv where
  /-- the values in the two empty slots of a bucket that `clht_bucket_create` returns -/
  memalign : Clht → UInt64 × UInt64
  /-- the sizes (less one) `ht_status` resizes to, picked from fill ratios -/
  resizes : Clht → List ℕ

namespace Clht

variable (env : ClhtEnv)

/-- `clht_hashtable_create` with `hash + 1` buckets. -/
def create (hash : ℕ) : Clht := ⟨hash, fun _ => [(0, 0), (0, 0), (0, 0)], 0⟩

/-- `clht_hash` -/
def bin (h : Clht) (key : UInt64) : ℕ := key.toNat &&& h.hash

/-- `clht_get`: the value of the first slot that holds the key, 0 if there is none. -/
def get (h : Clht) (key : UInt64) : UInt64 :=
  match (h.table (h.bin key)).find? fun p => p.1 == key with
  | some p => p.2
  | none => 0

/-- `bucket_exists` -/
def bucketExists (h : Clht) (key : UInt64) : Bool :=
  (h.table (h.bin key)).any fun p => p.1 == key

/-- Fill the first empty slot of a bin, or chain a new bucket; says whether it did. -/
def fillSlot (uninit : UInt64 × UInt64) (key val : UInt64) :
    List (UInt64 × UInt64) → List (UInt64 × UInt64) × Bool
  | [] => ([(key, val), (0, uninit.1), (0, uninit.2)], true)
  | p :: slots =>
    if p.1 = 0 then ((key, val) :: slots, false)
    else
      let rest := fillSlot uninit key val slots
      (p :: rest.1, rest.2)

/-- `clht_put_seq`, with the bin of its own key: insert without looking for the key. -/
def putSeq (h : Clht) (key val : UInt64) : Clht :=
  let filled := fillSlot (env.memalign h) key val (h.table (h.bin key))
  { h with
    table := Function.update h.table (h.bin key) filled.1
    numExpands := if filled.2 then h.numExpands + 1 else h.numExpands }

/-- The slots `bucket_cpy` moves, bin after bin. -/
def slots (h : Clht) : List (UInt64 × UInt64) :=
  ((List.range (h.hash + 1)).flatMap h.table).filter fun p => p.1 != 0

/-- `ht_resize_pes`: move every entry to a new table. -/
def resize (h : Clht) (hash : ℕ) : Clht :=
  h.slots.foldl (fun t p => putSeq env t p.1 p.2) (create hash)

/-- `clht_put`: a key that is there is left alone. -/
def put (h : Clht) (key val : UInt64) : Clht :=
  if h.bucketExists key then h
  else
    let h' := putSeq env h key val
    -- the bucket that brings the expansions to the threshold starts a resize
    if h.numExpands < h'.numExpands ∧ h'.numExpands = h.hash + 1 then
      (env.resizes h').foldl (resize env) h'
    else h'

/-! ## Entries -/

/-- Every entry is in its own bin, and no key has two. -/
structure WF (h : Clht) : Prop where
  /-- an entry is in the bin of its key -/
  own : ∀ b p, p ∈ h.table b → p.1 ≠ 0 → h.bin p.1 = b
  /-- the keys of a bin differ -/
  nodup : ∀ b, (((h.table b).filter fun p => p.1 != 0).map Prod.fst).Nodup

/-- The table holds `k ↦ v`. -/
def Entry (h : Clht) (k v : UInt64) : Prop := (k, v) ∈ h.table (h.bin k)

theorem wf_create (hash : ℕ) : (create hash).WF where
  own b p hp hne := by
    simp only [create, List.mem_cons, List.not_mem_nil, or_false, or_self] at hp
    exact absurd (congrArg Prod.fst hp) hne
  nodup b := by simp [create]

section Slots

variable {uninit : UInt64 × UInt64} {key val : UInt64}

theorem mem_fillSlot {p : UInt64 × UInt64} :
    ∀ {l : List (UInt64 × UInt64)}, p.1 ≠ 0 →
      (p ∈ (fillSlot uninit key val l).1 ↔ p = (key, val) ∨ p ∈ l) := by
  intro l hp
  induction l with
  | nil =>
    have h₁ : p ≠ (0, uninit.1) := fun h => hp (congrArg Prod.fst h)
    have h₂ : p ≠ (0, uninit.2) := fun h => hp (congrArg Prod.fst h)
    simp [fillSlot, h₁, h₂]
  | cons q l ih =>
    by_cases hq : q.1 = 0
    · have hne : p ≠ q := fun h => hp (h ▸ hq)
      simp [fillSlot, hq, hne]
    · simp only [fillSlot, if_neg hq, List.mem_cons, ih]
      exact or_left_comm

theorem nodup_fillSlot (hkey : key ≠ 0) :
    ∀ {l : List (UInt64 × UInt64)}, (∀ p ∈ l, p.1 ≠ key) →
      ((l.filter fun p => p.1 != 0).map Prod.fst).Nodup →
      (((fillSlot uninit key val l).1.filter fun p => p.1 != 0).map Prod.fst).Nodup := by
  intro l habs hnd
  induction l with
  | nil =>
    have hk : (key != 0) = true := by simpa using hkey
    simp [fillSlot, hk]
  | cons q l ih =>
    have hfresh : key ∉ (l.filter fun p => p.1 != 0).map Prod.fst := by
      intro hmem
      obtain ⟨p, hp, rfl⟩ := List.mem_map.mp hmem
      exact habs p (List.mem_cons_of_mem _ (List.mem_of_mem_filter hp)) rfl
    by_cases hq : q.1 = 0
    · have hl : ((l.filter fun p => p.1 != 0).map Prod.fst).Nodup := by
        simpa [List.filter_cons, hq] using hnd
      rw [fillSlot, if_pos hq, List.filter_cons, if_pos (by simpa using hkey), List.map_cons]
      exact List.nodup_cons.mpr ⟨hfresh, hl⟩
    · have hq' : (q.1 != 0) = true := by simpa using hq
      rw [List.filter_cons, if_pos hq', List.map_cons, List.nodup_cons] at hnd
      simp only [fillSlot, if_neg hq, List.filter_cons, if_pos hq', List.map_cons]
      refine List.nodup_cons.mpr ⟨fun hmem => ?_,
        ih (fun p hp => habs p (List.mem_cons_of_mem _ hp)) hnd.2⟩
      obtain ⟨p, hp, hpq⟩ := List.mem_map.mp hmem
      obtain ⟨hp, hp0⟩ := List.mem_filter.mp hp
      rcases (mem_fillSlot (by simpa using hp0)).mp hp with rfl | hp
      · exact habs q (List.mem_cons_self ..) hpq.symm
      · exact hnd.1 (List.mem_map.mpr ⟨p, List.mem_filter.mpr ⟨hp, hp0⟩, hpq⟩)

/-- Filling a slot with key 0 adds no entry. -/
theorem filter_fillSlot_zero (l : List (UInt64 × UInt64)) :
    ((fillSlot uninit 0 val l).1.filter fun p => p.1 != 0) = l.filter fun p => p.1 != 0 := by
  induction l with
  | nil => simp [fillSlot]
  | cons q l ih =>
    by_cases hq : q.1 = 0
    · simp [fillSlot, hq]
    · simp [fillSlot, hq, ih]

end Slots

section Get

variable {h : Clht} {k v : UInt64}

/-- `clht_get` finds an entry whenever it returns something. -/
theorem entry_of_get_ne_zero (hget : h.get k ≠ 0) : h.Entry k (h.get k) := by
  rw [get] at hget ⊢
  split
  · rename_i p hp
    obtain rfl : p.1 = k := by simpa using List.find?_some hp
    exact List.mem_of_find?_eq_some hp
  · rename_i hnone
    rw [hnone] at hget
    exact absurd rfl hget

/-- An entry is what `clht_get` returns. -/
theorem WF.get_of_entry (hwf : h.WF) (hk : k ≠ 0) (hentry : h.Entry k v) : h.get k = v := by
  have hnd := hwf.nodup (h.bin k)
  have hmem : ∀ {w}, (k, w) ∈ h.table (h.bin k) →
      (k, w) ∈ (h.table (h.bin k)).filter fun p => p.1 != 0 :=
    fun hw => List.mem_filter.mpr ⟨hw, by simpa using hk⟩
  cases hfind : (h.table (h.bin k)).find? fun p => p.1 == k with
  | none => exact absurd (List.find?_eq_none.mp hfind (k, v) hentry) (by simp)
  | some p =>
    obtain rfl : p.1 = k := by simpa using List.find?_some hfind
    have heq : p = (p.1, v) :=
      List.inj_on_of_nodup_map hnd (hmem (List.mem_of_find?_eq_some hfind)) (hmem hentry) rfl
    rw [get, hfind]
    exact congrArg Prod.snd heq

/-- A new table shows nothing. -/
theorem get_create (hash : ℕ) (k : UInt64) : (create hash).get k = 0 := by
  by_contra hget
  rw [get] at hget
  simp only [create] at hget
  split at hget
  · rename_i p hp
    have hmem := List.mem_of_find?_eq_some hp
    simp only [List.mem_cons, List.not_mem_nil, or_false, or_self] at hmem
    rw [hmem] at hget
    exact hget rfl
  · exact hget rfl

theorem not_entry_of_not_exists (hex : ¬ h.bucketExists k) : ∀ p ∈ h.table (h.bin k), p.1 ≠ k := by
  intro p hp heq
  refine hex (List.any_eq_true.mpr ⟨p, hp, ?_⟩)
  simpa using heq

end Get

/-! ## Insertion and resize -/

section Put

variable {env} {h : Clht} {k v : UInt64}

theorem bin_putSeq (k' : UInt64) : (putSeq env h k v).bin k' = h.bin k' := rfl

theorem table_putSeq (b : ℕ) :
    (putSeq env h k v).table b =
      if b = h.bin k then (fillSlot (env.memalign h) k v (h.table (h.bin k))).1 else h.table b :=
  Function.update_apply ..

theorem WF.putSeq (hwf : h.WF) (habs : ∀ p ∈ h.table (h.bin k), p.1 ≠ k) :
    (putSeq env h k v).WF where
  own b p hp hne := by
    rw [table_putSeq] at hp
    rw [bin_putSeq]
    split at hp
    · rename_i hb
      rcases (mem_fillSlot hne).mp hp with rfl | hp
      · exact hb.symm
      · exact (hwf.own _ p hp hne).trans hb.symm
    · exact hwf.own b p hp hne
  nodup b := by
    rw [table_putSeq]
    split
    · by_cases hk : k = 0
      · subst hk
        rw [filter_fillSlot_zero]
        exact hwf.nodup _
      · exact nodup_fillSlot hk habs (hwf.nodup _)
    · exact hwf.nodup b

/-- An entry after `clht_put_seq` was there before or is the new one. -/
theorem entry_putSeq {k' w : UInt64} (hk' : k' ≠ 0) :
    (putSeq env h k v).Entry k' w ↔ h.Entry k' w ∨ k' = k ∧ w = v := by
  rw [Entry, table_putSeq, bin_putSeq]
  split
  · rename_i hb
    rw [mem_fillSlot (p := (k', w)) hk', Entry, hb, Prod.mk.injEq, or_comm]
  · rename_i hb
    rw [Entry]
    constructor
    · exact .inl
    · rintro (hentry | ⟨rfl, -⟩)
      · exact hentry
      · exact absurd rfl hb

theorem bin_le (h : Clht) (k : UInt64) : h.bin k ≤ h.hash := Nat.and_le_right

/-- The slots a resize moves are the entries. -/
theorem WF.mem_slots (hwf : h.WF) {p : UInt64 × UInt64} :
    p ∈ h.slots ↔ p.1 ≠ 0 ∧ h.Entry p.1 p.2 := by
  simp only [slots, List.mem_filter, List.mem_flatMap, List.mem_range, bne_iff_ne]
  constructor
  · rintro ⟨⟨b, -, hp⟩, hne⟩
    refine ⟨hne, ?_⟩
    rw [Entry, hwf.own b p hp hne]
    exact hp
  · rintro ⟨hne, hentry⟩
    exact ⟨⟨h.bin p.1, Nat.lt_succ_of_le (h.bin_le _), hentry⟩, hne⟩

theorem WF.nodup_slots (hwf : h.WF) : (h.slots.map Prod.fst).Nodup := by
  rw [slots, List.filter_flatMap, List.map_flatMap, List.nodup_flatMap]
  refine ⟨fun b _ => hwf.nodup b, List.nodup_range.imp fun {a b} hab => ?_⟩
  intro k ha hb
  obtain ⟨p, hp, rfl⟩ := List.mem_map.mp ha
  obtain ⟨q, hq, hpq⟩ := List.mem_map.mp hb
  obtain ⟨hp, hp0⟩ := List.mem_filter.mp hp
  obtain ⟨hq, hq0⟩ := List.mem_filter.mp hq
  have h₁ := hwf.own a p hp (by simpa using hp0)
  have h₂ := hwf.own b q hq (by simpa using hq0)
  exact hab (by rw [← h₁, ← h₂, hpq])

/-- Moving a list of entries with different keys. -/
theorem WF.foldl_putSeq (env : ClhtEnv) :
    ∀ {l : List (UInt64 × UInt64)} {t : Clht}, t.WF → (l.map Prod.fst).Nodup →
      (∀ p ∈ l, p.1 ≠ 0 ∧ ∀ q ∈ t.table (t.bin p.1), q.1 ≠ p.1) →
      (l.foldl (fun t p => Clht.putSeq env t p.1 p.2) t).WF ∧
        ∀ k' w, k' ≠ 0 → ((l.foldl (fun t p => Clht.putSeq env t p.1 p.2) t).Entry k' w ↔
          t.Entry k' w ∨ (k', w) ∈ l) := by
  intro l
  induction l with
  | nil =>
    intro t ht _ _
    exact ⟨ht, fun k' w _ => by simp⟩
  | cons p l ih =>
    intro t ht hnd habs
    rw [List.map_cons, List.nodup_cons] at hnd
    obtain ⟨hp0, hpabs⟩ := habs p (List.mem_cons_self ..)
    have hnext := ih (t := Clht.putSeq env t p.1 p.2) (ht.putSeq hpabs) hnd.2 (by
      intro q hq
      obtain ⟨hq0, hqabs⟩ := habs q (List.mem_cons_of_mem _ hq)
      refine ⟨hq0, fun r hr hrq => ?_⟩
      rw [bin_putSeq, table_putSeq] at hr
      split at hr
      · rename_i hb
        rcases (mem_fillSlot (by rw [hrq]; exact hq0)).mp hr with rfl | hr
        · exact hnd.1 (List.mem_map.mpr ⟨q, hq, hrq.symm⟩)
        · rw [← hb] at hr
          exact hqabs r hr hrq
      · exact hqabs r hr hrq)
    refine ⟨hnext.1, fun k' w hk' => ?_⟩
    rw [List.foldl_cons, hnext.2 k' w hk', entry_putSeq hk', List.mem_cons, or_assoc]
    refine or_congr_right (or_congr_left ?_)
    exact (Prod.ext_iff (x := (k', w)) (y := p)).symm

/-- **A resize keeps the entries.** -/
theorem WF.resize (hwf : h.WF) (env : ClhtEnv) (hash : ℕ) :
    (Clht.resize env h hash).WF ∧
      ∀ k' w, k' ≠ 0 → ((Clht.resize env h hash).Entry k' w ↔ h.Entry k' w) := by
  have habs : ∀ p ∈ h.slots, p.1 ≠ 0 ∧
      ∀ q ∈ (create hash).table ((create hash).bin p.1), q.1 ≠ p.1 := by
    intro p hp
    obtain ⟨hp0, -⟩ := hwf.mem_slots.mp hp
    refine ⟨hp0, fun q hq hqp => hp0 ?_⟩
    simp only [create, List.mem_cons, List.not_mem_nil, or_false, or_self] at hq
    rw [← hqp, hq]
  obtain ⟨hwf', hentry⟩ := WF.foldl_putSeq env (wf_create hash) hwf.nodup_slots habs
  refine ⟨hwf', fun k' w hk' => ?_⟩
  have hempty : ¬ (create hash).Entry k' w := by
    intro he
    simp only [Entry, create, List.mem_cons, List.not_mem_nil, or_false, or_self] at he
    exact hk' (congrArg Prod.fst he)
  rw [Clht.resize, hentry k' w hk', hwf.mem_slots]
  simp [hempty, hk']

theorem WF.foldl_resize (hwf : h.WF) (env : ClhtEnv) (sizes : List ℕ) :
    (sizes.foldl (Clht.resize env) h).WF ∧
      ∀ k' w, k' ≠ 0 → ((sizes.foldl (Clht.resize env) h).Entry k' w ↔ h.Entry k' w) := by
  induction sizes generalizing h with
  | nil => exact ⟨hwf, fun _ _ _ => Iff.rfl⟩
  | cons n sizes ih =>
    obtain ⟨hwf', he⟩ := hwf.resize env n
    obtain ⟨hwf'', he'⟩ := ih hwf'
    exact ⟨hwf'', fun k' w hk' => (he' k' w hk').trans (he k' w hk')⟩

end Put

/-! ## Key 0

`clht_get` of key 0 reads the value of the first empty slot of bin 0. With memory that
reads as zero, only that slot can hold another value: the one a `clht_put` of key 0 left
in a bucket it chained. -/

section Zero

variable {env} {h : Clht}

/-- All empty slots of a bin but the first hold 0. -/
def TailZero (l : List (UInt64 × UInt64)) : Prop :=
  ∀ p ∈ (l.filter fun p => p.1 == 0).tail, p.2 = 0

theorem get_zero (h : Clht) :
    h.get 0 = (((h.table 0).filter fun p => p.1 == 0).head?.map Prod.snd).getD 0 := by
  have hbin : h.bin 0 = 0 := Nat.zero_and _
  rw [get, hbin, List.head?_filter]
  cases (h.table 0).find? fun p => p.1 == 0 <;> rfl

/-- Filling a slot with a key leaves only zeros in the empty slots of the bin. -/
theorem filter_fillSlot {key val : UInt64} (hkey : key ≠ 0) :
    ∀ l : List (UInt64 × UInt64), TailZero l →
      ∀ p ∈ (fillSlot (0, 0) key val l).1.filter fun p => p.1 == 0, p.2 = 0 := by
  have hk : ¬ (key == 0) = true := by simpa using hkey
  intro l
  induction l with
  | nil =>
    intro _ p hp
    simp only [fillSlot, List.filter_cons, if_neg hk] at hp
    simp at hp
    rw [hp]
  | cons q l ih =>
    intro hl p hp
    by_cases hq : q.1 = 0
    · have hq' : (q.1 == 0) = true := by simpa using hq
      rw [fillSlot, if_pos hq, List.filter_cons, if_neg hk] at hp
      exact hl p (by rw [List.filter_cons, if_pos hq', List.tail_cons]; exact hp)
    · have hq' : ¬ (q.1 == 0) = true := by simpa using hq
      simp only [fillSlot, if_neg hq, List.filter_cons, if_neg hq'] at hp
      refine ih ?_ p hp
      rwa [TailZero, List.filter_cons, if_neg hq'] at hl

/-- With no empty slot left, key 0 goes to the first slot of a new bucket. -/
theorem filter_fillSlot_append {val : UInt64} :
    ∀ {l : List (UInt64 × UInt64)}, (∀ p ∈ l, p.1 ≠ 0) →
      ((fillSlot (0, 0) 0 val l).1.filter fun p => p.1 == 0) = [(0, val), (0, 0), (0, 0)] := by
  intro l hl
  induction l with
  | nil => simp [fillSlot]
  | cons q l ih =>
    have hq : q.1 ≠ 0 := hl q (List.mem_cons_self ..)
    have hq' : ¬ (q.1 == 0) = true := by simpa using hq
    simp only [fillSlot, if_neg hq, List.filter_cons, if_neg hq']
    exact ih fun p hp => hl p (List.mem_cons_of_mem _ hp)

theorem get_zero_of_all {h : Clht}
    (hz : ∀ p ∈ (h.table 0).filter fun p => p.1 == 0, p.2 = 0) : h.get 0 = 0 := by
  rw [get_zero]
  cases hf : (h.table 0).filter fun p => p.1 == 0 with
  | nil => rfl
  | cons p l => exact hz p (hf ▸ List.mem_cons_self ..)

theorem tailZero_of_all {l : List (UInt64 × UInt64)}
    (hz : ∀ p ∈ l.filter fun p => p.1 == 0, p.2 = 0) : TailZero l :=
  fun p hp => hz p (List.mem_of_mem_tail hp)

/-- Inserting a key other than 0 cannot make key 0 show anything new. -/
theorem putSeq_zero (hmem : ∀ t, env.memalign t = (0, 0)) {key : UInt64} (val : UInt64)
    (hkey : key ≠ 0)
    (hz : TailZero (h.table 0)) :
    TailZero ((putSeq env h key val).table 0) ∧
      ((putSeq env h key val).get 0 = h.get 0 ∨ (putSeq env h key val).get 0 = 0) := by
  by_cases hb : 0 = h.bin key
  · have hall : ∀ p ∈ ((putSeq env h key val).table 0).filter fun p => p.1 == 0, p.2 = 0 := by
      rw [table_putSeq, if_pos hb, ← hb, hmem]
      exact filter_fillSlot hkey _ hz
    exact ⟨tailZero_of_all hall, .inr (get_zero_of_all hall)⟩
  · have htable : (putSeq env h key val).table 0 = h.table 0 := by
      rw [table_putSeq, if_neg hb]
    rw [get_zero, get_zero, htable]
    exact ⟨hz, .inl rfl⟩

theorem create_zero (hash : ℕ) :
    TailZero ((create hash).table 0) ∧ (create hash).get 0 = 0 := by
  refine ⟨fun p hp => ?_, get_create hash 0⟩
  simp [create] at hp
  rw [hp]

/-- A resize drops what key 0 showed. -/
theorem resize_zero (hmem : ∀ t, env.memalign t = (0, 0)) (hash : ℕ) :
    TailZero ((resize env h hash).table 0) ∧ (resize env h hash).get 0 = 0 := by
  have hfold : ∀ (l : List (UInt64 × UInt64)) (t : Clht), (∀ p ∈ l, p.1 ≠ 0) →
      TailZero (t.table 0) ∧ t.get 0 = 0 →
      TailZero ((l.foldl (fun t p => putSeq env t p.1 p.2) t).table 0) ∧
        (l.foldl (fun t p => putSeq env t p.1 p.2) t).get 0 = 0 := by
    intro l
    induction l with
    | nil => intro t _ ht; exact ht
    | cons p l ih =>
      intro t hne ht
      obtain ⟨hz, hget⟩ := putSeq_zero hmem p.2 (hne p (List.mem_cons_self ..)) ht.1
      refine ih _ (fun q hq => hne q (List.mem_cons_of_mem _ hq)) ⟨hz, ?_⟩
      rcases hget with hget | hget
      · rw [hget, ht.2]
      · exact hget
  refine hfold _ _ (fun p hp => ?_) (create_zero hash)
  simpa using (List.mem_filter.mp hp).2

theorem foldl_resize_zero (hmem : ∀ t, env.memalign t = (0, 0)) :
    ∀ (sizes : List ℕ) (h : Clht), TailZero (h.table 0) →
      TailZero ((sizes.foldl (resize env) h).table 0) ∧
        ((sizes.foldl (resize env) h).get 0 = h.get 0 ∨
          (sizes.foldl (resize env) h).get 0 = 0) := by
  intro sizes
  induction sizes with
  | nil => intro h hz; exact ⟨hz, .inl rfl⟩
  | cons n sizes ih =>
    intro h _
    obtain ⟨hz, hget⟩ := resize_zero (h := h) hmem n
    obtain ⟨hz', hget'⟩ := ih _ hz
    refine ⟨hz', .inr ?_⟩
    rcases hget' with hget' | hget'
    · exact hget'.trans hget
    · exact hget'

end Zero

/-! ## `clht_put` as the cache sees it -/

/-- The invariant of the cache's table; the second part speaks of key 0. -/
structure Inv (h : Clht) : Prop where
  /-- the entries are where `clht_get` looks for them -/
  wf : h.WF
  /-- with zeroed memory, the empty slots hold zeros -/
  zero : (∀ t, env.memalign t = (0, 0)) → TailZero (h.table 0)

theorem inv_create (hash : ℕ) : (create hash).Inv env :=
  ⟨wf_create hash, fun _ => (create_zero hash).1⟩

variable {env} {h : Clht} {k v : UInt64}

/-- A table that gained at most the entry `k ↦ v`. -/
theorem WF.get_of_subset (hwf : h.WF) {t : Clht} {k' : UInt64} (hk' : k' ≠ 0)
    (hsub : ∀ w, t.Entry k' w → h.Entry k' w ∨ k' = k ∧ w = v) :
    t.get k' = h.get k' ∨ t.get k' = 0 ∨ k' = k ∧ t.get k' = v := by
  by_cases hget : t.get k' = 0
  · exact .inr (.inl hget)
  · rcases hsub _ (entry_of_get_ne_zero hget) with hentry | hnew
    · exact .inl (hwf.get_of_entry hk' hentry).symm
    · exact .inr (.inr hnew)

/-- `clht_put` of an absent key, before a resize. -/
theorem Inv.putSeq (hinv : h.Inv env) (habs : ∀ p ∈ h.table (h.bin k), p.1 ≠ k) :
    (Clht.putSeq env h k v).Inv env ∧
      ∀ k', (k' ≠ 0 ∨ ∀ t, env.memalign t = (0, 0)) →
        (Clht.putSeq env h k v).get k' = h.get k' ∨ (Clht.putSeq env h k v).get k' = 0 ∨
          k' = k ∧ (Clht.putSeq env h k v).get k' = v := by
  have hzero : (∀ t, env.memalign t = (0, 0)) → TailZero ((Clht.putSeq env h k v).table 0) ∧
      ((Clht.putSeq env h k v).get 0 = h.get 0 ∨ (Clht.putSeq env h k v).get 0 = 0 ∨
        0 = k ∧ (Clht.putSeq env h k v).get 0 = v) := by
    intro hmem
    by_cases hk : k = 0
    · subst hk
      have hbin : h.bin 0 = 0 := Nat.zero_and _
      have hf : ((Clht.putSeq env h 0 v).table 0).filter (fun p => p.1 == 0) =
          [(0, v), (0, 0), (0, 0)] := by
        rw [table_putSeq, hbin, if_pos rfl, hmem]
        rw [hbin] at habs
        exact filter_fillSlot_append habs
      refine ⟨?_, .inr (.inr ⟨rfl, ?_⟩)⟩
      · rw [TailZero, hf]
        simp
      · rw [get_zero, hf]
        rfl
    · obtain ⟨hz, hget⟩ := putSeq_zero hmem v hk (hinv.zero hmem)
      exact ⟨hz, hget.imp_right .inl⟩
  refine ⟨⟨hinv.wf.putSeq habs, fun hmem => (hzero hmem).1⟩, fun k' hk' => ?_⟩
  by_cases hk0 : k' = 0
  · subst hk0
    exact (hzero (hk'.resolve_left (absurd rfl))).2
  · exact hinv.wf.get_of_subset hk0 fun w => (entry_putSeq hk0).mp

theorem Inv.foldl_resize (hinv : h.Inv env) (sizes : List ℕ) :
    (sizes.foldl (Clht.resize env) h).Inv env ∧
      ∀ k', (k' ≠ 0 ∨ ∀ t, env.memalign t = (0, 0)) →
        (sizes.foldl (Clht.resize env) h).get k' = h.get k' ∨
          (sizes.foldl (Clht.resize env) h).get k' = 0 := by
  obtain ⟨hwf, hentry⟩ := hinv.wf.foldl_resize env sizes
  refine ⟨⟨hwf, fun hmem => (foldl_resize_zero hmem sizes h (hinv.zero hmem)).1⟩, ?_⟩
  intro k' hk'
  by_cases hk0 : k' = 0
  · subst hk0
    have hmem := hk'.resolve_left (absurd rfl)
    exact (foldl_resize_zero hmem sizes h (hinv.zero hmem)).2
  · by_cases hget : (sizes.foldl (Clht.resize env) h).get k' = 0
    · exact .inr hget
    · exact .inl (hinv.wf.get_of_entry hk0
        ((hentry k' _ hk0).mp (entry_of_get_ne_zero hget))).symm

/-- **What `clht_put` can change**: a key shows what it showed before, or nothing, or it
is the key that was put and shows the value that was put. -/
theorem Inv.put (hinv : h.Inv env) (k v : UInt64) :
    (Clht.put env h k v).Inv env ∧
      ∀ k', (k' ≠ 0 ∨ ∀ t, env.memalign t = (0, 0)) →
        (Clht.put env h k v).get k' = h.get k' ∨ (Clht.put env h k v).get k' = 0 ∨
          k' = k ∧ (Clht.put env h k v).get k' = v := by
  by_cases hex : h.bucketExists k
  · rw [Clht.put, if_pos hex]
    exact ⟨hinv, fun _ _ => .inl rfl⟩
  obtain ⟨hinv', hget'⟩ := hinv.putSeq (v := v) (not_entry_of_not_exists hex)
  rw [Clht.put, if_neg hex]
  simp only
  split
  · obtain ⟨hinv'', hget''⟩ :=
      hinv'.foldl_resize (env.resizes (Clht.putSeq env h k v))
    refine ⟨hinv'', fun k' hk' => ?_⟩
    rcases hget'' k' hk' with heq | hzero
    · rw [heq]
      exact hget' k' hk'
    · exact .inr (.inl hzero)
  · exact ⟨hinv', hget'⟩

/-- The first entry of a new table is shown. -/
theorem get_put_create (hash : ℕ) (hk : k ≠ 0) :
    (Clht.put env (create hash) k v).get k = v := by
  have hex : ¬ (create hash).bucketExists k := by
    simp [bucketExists, create, Ne.symm hk]
  have hexpand : (Clht.putSeq env (create hash) k v).numExpands = 0 := rfl
  rw [Clht.put, if_neg hex]
  simp only [hexpand]
  rw [if_neg fun hc => absurd hc.1 (Nat.not_lt_zero _)]
  exact ((wf_create hash).putSeq (not_entry_of_not_exists hex)).get_of_entry hk
    ((entry_putSeq hk).mpr (.inr ⟨rfl, rfl⟩))

end Clht

end NaliStore
