import NaliStore.Lib.Runs
import Mathlib.Data.List.Basic
import Mathlib.Tactic.Common

/-!
# The CLHT hash table under threads

`clht_get`, `clht_put` and `clht_remove` of `src/src/clht/clht_lb_res.cc`, called by any number of
threads. A step is one load, one store or one atomic instruction of one thread, and between two steps
of a thread the others may take any number. A bin is again the list of its slots; a writer holds the
lock of the bin, a reader holds nothing.

The bucket that brings `num_expands` to the threshold makes its `clht_put` go on to `ht_status`. That
reads the table, and before it resizes it prints `clht_gc_get_id()`, the `id` behind a pointer that
only `clht_gc_thread_init` sets, which nothing calls: the program ends there. So a thread that is
before `ht_status` takes no further step here, and the table is never replaced.

Beside its program counter a thread has two fields for what can be said about its call: what its key
has been mapped to since the call began, and the change its own step has made.

`clht_get` takes a value for its key's if it reads it from the slot before and after it has read the
key. Between the two the key may be removed and the slot be filled for another key with the very same
value, so `call_takes_effect` needs that no such store happens (`Spared`), which is so in every run in
which nothing is removed, as with the read cache of the store.
-/

namespace NaliStore

open Runs

/-- A call. -/
inductive ClhtCall where
  /-- `clht_get(hashtable, key)` -/
  | get (key : UInt64)
  /-- `clht_put(h, key, val)` -/
  | put (key val : UInt64)
  /-- `clht_remove(h, key)` -/
  | remove (key : UInt64)
  deriving DecidableEq

/-- The key of a call. -/
def ClhtCall.key : ClhtCall → UInt64
  | .get key => key
  | .put key _ => key
  | .remove key => key

@[simp] theorem ClhtCall.key_get (key : UInt64) : (ClhtCall.get key).key = key := rfl

@[simp] theorem ClhtCall.key_put (key val : UInt64) : (ClhtCall.put key val).key = key := rfl

@[simp] theorem ClhtCall.key_remove (key : UInt64) : (ClhtCall.remove key).key = key := rfl

/-- What the call is as one operation on a map: what it returns for what its key is mapped to, and what
that is then. -/
def ClhtCall.spec : ClhtCall → Option UInt64 → UInt64 × Option UInt64
  | .get _, x => (x.getD 0, x)
  | .put _ val, none => (1, some val)
  | .put _ _, some v => (0, some v)
  | .remove _, x => (x.getD 0, none)

/-- Where a thread is in its call. The slots of a bin are counted through its buckets. -/
inductive ClhtPc where
  /-- `clht_get`, before the first load of `val[j]`, or behind the last slot -/
  | getVal (i : ℕ)
  /-- before the load of `key[j]` -/
  | getKey (i : ℕ) (val : UInt64)
  /-- before the second load of `val[j]` -/
  | getAgain (i : ℕ) (val : UInt64)
  /-- `bucket_exists` -/
  | probe (i : ℕ)
  /-- `LOCK_ACQ` -/
  | acquire
  /-- in the loop under the lock, with the first empty slot -/
  | scan (i : ℕ) (empty : Option ℕ)
  /-- before `*empty_v = val` -/
  | storeVal (e : ℕ)
  /-- before `*empty = key` -/
  | storeKey (e : ℕ)
  /-- `IAF_U32(&h->num_expands)` in `clht_bucket_create_stats` -/
  | expand
  /-- before `bucket->next = b` -/
  | link (resize : Bool)
  /-- `clht_remove`, before the load of `val[j]` -/
  | take (i : ℕ)
  /-- before `key[j] = 0` -/
  | clear (i : ℕ) (val : UInt64)
  /-- before `LOCK_RLS` -/
  | release (ret : UInt64) (resize : Bool)
  /-- before `ht_status(h, 1, 0)` -/
  | status (ret : UInt64)
  /-- back from the call -/
  | returned (ret : UInt64)
  deriving DecidableEq

/-- The slots of a bin, its chained buckets appended. -/
abbrev ClhtSlots := List (UInt64 × UInt64)

/-- A bin. -/
structure ClhtBin where
  /-- `lock` is `LOCK_UPDATE` -/
  locked : Bool
  /-- the slots -/
  slots : ClhtSlots

/-- A thread in its call, or back from it. -/
structure ClhtThread where
  /-- the call -/
  call : ClhtCall
  /-- where it is -/
  pc : ClhtPc
  /-- what the key has been mapped to since the call began, the latest first -/
  seen : List (Option UInt64)
  /-- what its own step has changed the key from and to -/
  effect : Option (Option UInt64 × Option UInt64)

/-- A table and the threads. -/
structure ClhtShared where
  /-- `hash` -/
  hash : ℕ
  /-- `table` -/
  bins : ℕ → ClhtBin
  /-- `num_expands` -/
  numExpands : UInt32
  /-- the threads, but for those that have not called yet -/
  threads : ℕ → Option ClhtThread

/-- What a slot list maps a key to. -/
def lookupSlots (slots : ClhtSlots) (key : UInt64) : Option UInt64 :=
  (slots.find? fun p => p.1 == key).map Prod.snd

namespace ClhtShared

/-- `clht_hash` -/
def bin (s : ClhtShared) (key : UInt64) : ℕ := key.toNat &&& s.hash

/-- What the table maps a key to. -/
def content (s : ClhtShared) (key : UInt64) : Option UInt64 :=
  lookupSlots (s.bins (s.bin key)).slots key

/-- `num_expands_threshold` -/
def threshold (s : ClhtShared) : UInt32 :=
  if UInt32.ofNat (s.hash + 1) = 0 then 1 else UInt32.ofNat (s.hash + 1)

/-- `clht_hashtable_create`: the memory is zero. -/
def create (hash : ℕ) : ClhtShared :=
  ⟨hash, fun _ => ⟨false, [(0, 0), (0, 0), (0, 0)]⟩, 0, fun _ => none⟩

end ClhtShared

/-- What a step does to the bin of the key, to `num_expands` and to the thread. -/
abbrev ClhtMove := ClhtPc × ClhtBin × UInt32

/-- One step of `clht_get`. -/
def getMove (key : UInt64) (b : ClhtBin) : ClhtPc → Option ClhtPc
  | .getVal i =>
    match b.slots[i]? with
    | some p => some (.getKey i p.2)
    -- `bucket->next` is null
    | none => some (.returned 0)
  | .getKey i val =>
    b.slots[i]?.map fun p => if p.1 = key then .getAgain i val else .getVal (i + 1)
  | .getAgain i val => b.slots[i]?.map fun p => .returned (if p.2 = val then val else 0)
  | _ => none

/-- One step of `clht_put`; `uninit` is what the memory of a new bucket holds. -/
def putMove (key val : UInt64) (uninit : UInt64 × UInt64) (threshold n : UInt32) (b : ClhtBin) :
    ClhtPc → Option ClhtMove
  | .probe i =>
    match b.slots[i]? with
    | some p => some (if p.1 = key then .returned 0 else .probe (i + 1), b, n)
    | none => some (.acquire, b, n)
  | .acquire =>
    if b.locked then some (.acquire, b, n) else some (.scan 0 none, { b with locked := true }, n)
  | .scan i empty =>
    match b.slots[i]? with
    | some p =>
      if p.1 = key then some (.release 0 false, b, n)
      else some (.scan (i + 1) (if empty = none ∧ p.1 = 0 then some i else empty), b, n)
    | none =>
      match empty with
      | some e => some (.storeVal e, b, n)
      | none => some (.expand, b, n)
  | .storeVal e =>
    b.slots[e]?.map fun p => (.storeKey e, { b with slots := b.slots.set e (p.1, val) }, n)
  | .storeKey e =>
    b.slots[e]?.map fun p => (.release 1 false, { b with slots := b.slots.set e (key, p.2) }, n)
  | .expand => some (.link (n + 1 == threshold), b, n + 1)
  | .link resize =>
    some (.release 1 resize, { b with slots := b.slots ++ [(key, val), (0, uninit.1), (0, uninit.2)] }, n)
  | .release ret resize =>
    some (if resize then .status ret else .returned ret, { b with locked := false }, n)
  | _ => none

/-- One step of `clht_remove`. -/
def removeMove (key : UInt64) (b : ClhtBin) : ClhtPc → Option (ClhtPc × ClhtBin)
  | .probe i =>
    match b.slots[i]? with
    | some p => some (if p.1 = key then .acquire else .probe (i + 1), b)
    | none => some (.returned 0, b)
  | .acquire =>
    if b.locked then some (.acquire, b) else some (.scan 0 none, { b with locked := true })
  | .scan i empty =>
    match b.slots[i]? with
    | some p => some (if p.1 = key then .take i else .scan (i + 1) empty, b)
    | none => some (.release 0 false, b)
  | .take i => b.slots[i]?.map fun p => (.clear i p.2, b)
  | .clear i val =>
    b.slots[i]?.map fun p => (.release val false, { b with slots := b.slots.set i (0, p.2) })
  | .release ret _ => some (.returned ret, { b with locked := false })
  | _ => none

/-- One step of a call. -/
def ClhtCall.move (uninit : UInt64 × UInt64) (threshold n : UInt32) (b : ClhtBin) (pc : ClhtPc) :
    ClhtCall → Option ClhtMove
  | .get key => (getMove key b pc).map fun pc => (pc, b, n)
  | .put key val => putMove key val uninit threshold n b pc
  | .remove key => (removeMove key b pc).map fun m => (m.1, m.2, n)

/-- The first place of a call. -/
def ClhtCall.entry : ClhtCall → ClhtPc
  | .get _ => .getVal 0
  | .put _ _ => .probe 0
  | .remove _ => .probe 0

/-- What happens next. -/
inductive ClhtAct where
  /-- a thread calls -/
  | call (t : ℕ) (c : ClhtCall)
  /-- a thread takes its next step, with what new memory holds -/
  | run (t : ℕ) (uninit : UInt64 × UInt64)

/-- What stops a step. -/
inductive ClhtFault where
  /-- the thread is still in a call -/
  | busy
  /-- the thread is in no call, or before `ht_status` -/
  | noStep
  deriving DecidableEq

/-- The change a thread has made, after a step. -/
def changeOf (effect : Option (Option UInt64 × Option UInt64)) (before after : Option UInt64) :
    Option (Option UInt64 × Option UInt64) :=
  if before = after then effect else some (before, after)

namespace ClhtThread

/-- The thread is in no call. -/
def isIdle : Option ClhtThread → Bool
  | none => true
  | some th => match th.pc with
    | .returned _ => true
    | _ => false

/-- The thread goes on, and its key has the one content before and the other after. -/
def goTo (th : ClhtThread) (pc : ClhtPc) (before after : Option UInt64) : ClhtThread :=
  { th with
    pc := pc
    effect := changeOf th.effect before after }

end ClhtThread

namespace ClhtShared

/-- A thread that is in a call sees the content of its key. -/
def observe (s : ClhtShared) (th : ClhtThread) : ClhtThread :=
  if ClhtThread.isIdle (some th) then th else { th with seen := s.content th.call.key :: th.seen }

/-- The bin of the key and `num_expands` change. -/
def store (s : ClhtShared) (key : UInt64) (b : ClhtBin) (n : UInt32) : ClhtShared :=
  { s with bins := Function.update s.bins (s.bin key) b, numExpands := n }

/-- The thread goes on, and all threads see the contents there are now. -/
def goOn (s s' : ClhtShared) (t : ℕ) (th : ClhtThread) (pc : ClhtPc) : ClhtShared :=
  let key := th.call.key
  { s' with
    threads := fun t' => (Function.update s.threads t
      (some (th.goTo pc (s.content key) (s'.content key))) t').map s'.observe }

/-- One step. -/
def step (s : ClhtShared) : ClhtAct → Except ClhtFault ClhtShared
  | .call t c =>
    if ClhtThread.isIdle (s.threads t) then
      let th : ClhtThread := ⟨c, c.entry, [s.content c.key], none⟩
      .ok { s with threads := Function.update s.threads t (some th) }
    else .error .busy
  | .run t uninit =>
    match s.threads t with
    | none => .error .noStep
    | some th =>
      match th.call.move uninit s.threshold s.numExpands (s.bins (s.bin th.call.key)) th.pc with
      | none => .error .noStep
      | some (pc, b, n) => .ok (s.goOn (s.store th.call.key b n) t th pc)

end ClhtShared

/-! ## Slots -/

section Slots

variable {c : ClhtCall} {slots slots' : ClhtSlots} {key k v w : UInt64} {e i : ℕ} {p : UInt64 × UInt64}

/-- No key but the empty one is in two slots. -/
def Distinct (slots : ClhtSlots) : Prop :=
  ∀ (i j : ℕ) (p q : UInt64 × UInt64), slots[i]? = some p → slots[j]? = some q → p.1 = q.1 → p.1 ≠ 0 → i = j

/-- The key is in no slot. -/
def Absent (slots : ClhtSlots) (key : UInt64) : Prop :=
  ∀ (i : ℕ) (p : UInt64 × UInt64), slots[i]? = some p → p.1 ≠ key

theorem lookupSlots_eq_none : lookupSlots slots key = none ↔ Absent slots key := by
  simp only [lookupSlots, Option.map_eq_none_iff, List.find?_eq_none, beq_iff_eq, Absent]
  constructor
  · intro h i p hp
    exact h p (List.mem_of_getElem? hp)
  · intro h p hp
    obtain ⟨i, hi⟩ := List.getElem?_of_mem hp
    exact h i p hi

theorem lookupSlots_eq_some (hd : Distinct slots) (hkey : key ≠ 0) (hp : slots[i]? = some p)
    (hpk : p.1 = key) : lookupSlots slots key = some p.2 := by
  cases hfind : slots.find? fun p => p.1 == key with
  | none =>
    have habs : Absent slots key := lookupSlots_eq_none.mp (by rw [lookupSlots, hfind]; rfl)
    exact absurd hpk (habs i p hp)
  | some q =>
    obtain ⟨j, hj⟩ := List.getElem?_of_mem (List.mem_of_find?_eq_some hfind)
    have hqk : q.1 = key := by simpa using List.find?_some hfind
    obtain rfl := hd i j p q hp hj (hpk.trans hqk.symm) (hpk ▸ hkey)
    rw [hp] at hj
    rw [lookupSlots, hfind, Option.some.inj hj]
    rfl

/-- What a step of a call can do to the slots of a bin. -/
inductive SlotChange (c : ClhtCall) (slots slots' : ClhtSlots) : Prop where
  /-- nothing -/
  | same (h : slots' = slots)
  /-- a value goes into an empty slot -/
  | val (e : ℕ) (key w v : UInt64) (hc : c = .put key v) (he : slots[e]? = some (0, w))
      (h : slots' = slots.set e (0, v))
  /-- the key, which is in no slot, goes into an empty one -/
  | key (e : ℕ) (key v : UInt64) (hc : c = .put key v) (he : slots[e]? = some (0, v))
      (habs : Absent slots key) (h : slots' = slots.set e (key, v))
  /-- a bucket with such a key is chained -/
  | link (key v : UInt64) (uninit : UInt64 × UInt64) (hc : c = .put key v) (habs : Absent slots key)
      (h : slots' = slots ++ [(key, v), (0, uninit.1), (0, uninit.2)])
  /-- the slot of the key is emptied -/
  | clear (e : ℕ) (key v : UInt64) (hc : c = .remove key) (he : slots[e]? = some (key, v))
      (h : slots' = slots.set e (0, v))

theorem getElem?_set_of_some {q : UInt64 × UInt64} (he : slots[e]? = some p) (j : ℕ) :
    (slots.set e q)[j]? = if e = j then some q else slots[j]? := by
  have hlt : e < slots.length := (List.getElem?_eq_some_iff.mp he).1
  rw [List.getElem?_set]
  split <;> simp_all

/-- A slot of a chained bucket is one there was, the new key, or empty. -/
theorem getElem?_link {uninit : UInt64 × UInt64} {j : ℕ} {q : UInt64 × UInt64}
    (h : (slots ++ [(k, v), (0, uninit.1), (0, uninit.2)])[j]? = some q) :
    slots[j]? = some q ∨ (j = slots.length ∧ q = (k, v)) ∨ (slots.length < j ∧ q.1 = 0) := by
  rcases Nat.lt_or_ge j slots.length with hj | hj
  · rw [List.getElem?_append_left hj] at h
    exact .inl h
  · rw [List.getElem?_append_right hj] at h
    obtain ⟨d, rfl⟩ := Nat.exists_eq_add_of_le hj
    rw [Nat.add_sub_cancel_left] at h
    rcases d with _ | _ | _ | d
    · exact .inr (.inl ⟨rfl, by simpa using h.symm⟩)
    · exact .inr (.inr ⟨by omega, by simpa using congrArg Prod.fst (Option.some.inj h).symm⟩)
    · exact .inr (.inr ⟨by omega, by simpa using congrArg Prod.fst (Option.some.inj h).symm⟩)
    · simp at h

theorem SlotChange.length_le (h : SlotChange c slots slots') : slots.length ≤ slots'.length := by
  cases h with
  | same h => exact Nat.le_of_eq (by rw [h])
  | val e key w v hc he h => exact Nat.le_of_eq (by rw [h, List.length_set])
  | key e key v hc he habs h => exact Nat.le_of_eq (by rw [h, List.length_set])
  | link key v uninit hc habs h =>
    rw [h, List.length_append]
    exact Nat.le_add_right _ _
  | clear e key v hc he h => exact Nat.le_of_eq (by rw [h, List.length_set])

/-- A slot afterwards is as before, or empty, or the only one with the key, which was in none. -/
theorem SlotChange.cases_after (h : SlotChange c slots slots') {j : ℕ} {q : UInt64 × UInt64}
    (hq : slots'[j]? = some q) (hne : q.1 ≠ 0) :
    slots[j]? = some q ∨ (q.1 = c.key ∧ Absent slots q.1 ∧
      ∀ (i : ℕ) (p : UInt64 × UInt64), slots'[i]? = some p → p.1 = q.1 → i = j) := by
  cases h with
  | same h => exact .inl (h ▸ hq)
  | val e key w v hc he h =>
    rw [h, getElem?_set_of_some he] at hq
    split at hq
    · exact absurd (congrArg Prod.fst (Option.some.inj hq)).symm hne
    · exact .inl hq
  | key e key v hc he habs h =>
    subst h hc
    rw [getElem?_set_of_some he] at hq
    split at hq
    · next hej =>
      obtain rfl := Option.some.inj hq
      refine .inr ⟨rfl, habs, fun i p hp hpk => ?_⟩
      rw [getElem?_set_of_some he] at hp
      split at hp
      · next hei => exact hei.symm.trans hej
      · exact absurd hpk (habs i p hp)
    · exact .inl hq
  | link key v uninit hc habs h =>
    subst h hc
    rcases getElem?_link hq with hq | ⟨hj, rfl⟩ | ⟨-, hq0⟩
    · exact .inl hq
    · refine .inr ⟨rfl, habs, fun i p hp hpk => ?_⟩
      rcases getElem?_link hp with hp | ⟨hi, -⟩ | ⟨-, hp0⟩
      · exact absurd hpk (habs i p hp)
      · rw [hi, hj]
      · exact absurd (hpk.symm.trans hp0) hne
    · exact absurd hq0 hne
  | clear e key v hc he h =>
    rw [h, getElem?_set_of_some he] at hq
    split at hq
    · exact absurd (congrArg Prod.fst (Option.some.inj hq)).symm hne
    · exact .inl hq

theorem SlotChange.distinct (h : SlotChange c slots slots') (hd : Distinct slots) :
    Distinct slots' := by
  intro i j p q hp hq hpq hne
  rcases h.cases_after hp hne with hp' | ⟨-, -, honly⟩
  · rcases h.cases_after hq (hpq ▸ hne) with hq' | ⟨-, -, honly⟩
    · exact hd i j p q hp' hq' hpq hne
    · exact honly i p hp hpq
  · exact (honly j q hq hpq.symm).symm

/-- A slot with a key stays as it is, unless the key is removed. -/
theorem SlotChange.stays (h : SlotChange c slots slots') (hp : slots[i]? = some p) (hne : p.1 ≠ 0)
    (hc : c ≠ .remove p.1) : slots'[i]? = some p := by
  have hempty : ∀ {e : ℕ} {w : UInt64}, slots[e]? = some (0, w) → e ≠ i := by
    rintro e w he rfl
    rw [hp] at he
    exact hne (congrArg Prod.fst (Option.some.inj he))
  cases h with
  | same h => exact h ▸ hp
  | val e key w v hc he h =>
    rw [h, getElem?_set_of_some he, if_neg (hempty he)]
    exact hp
  | key e key v hc he habs h =>
    rw [h, getElem?_set_of_some he, if_neg (hempty he)]
    exact hp
  | link key v uninit hc habs h =>
    rw [h, List.getElem?_append_left (List.getElem?_eq_some_iff.mp hp).1]
    exact hp
  | clear e key v hc' he h =>
    rw [h, getElem?_set_of_some he, if_neg]
    · exact hp
    · rintro rfl
      rw [hp] at he
      rw [Option.some.inj he] at hc
      exact hc hc'

/-- A key that is in a slot stays there, or is in no slot afterwards. -/
theorem SlotChange.keeps (h : SlotChange c slots slots') (hd : Distinct slots) (hp : slots[i]? = some p)
    (hne : p.1 ≠ 0) : slots'[i]? = some p ∨ Absent slots' p.1 := by
  by_cases hc : c = .remove p.1
  · cases h with
    | same h => exact .inl (h ▸ hp)
    | val e key w v hc' => cases hc.symm.trans hc'
    | key e key v hc' => cases hc.symm.trans hc'
    | link key v uninit hc' => cases hc.symm.trans hc'
    | clear e key v hc' he h =>
      obtain rfl : p.1 = key := by simpa using hc.symm.trans hc'
      obtain rfl := hd i e p _ hp he rfl hne
      refine .inr fun j q hq hqk => ?_
      rw [h, getElem?_set_of_some he] at hq
      split at hq
      · obtain rfl := Option.some.inj hq
        exact hne hqk.symm
      · next hij => exact hij (hd i j p q hp hq hqk.symm hne)
  · exact .inl (h.stays hp hne hc)

/-- What the other keys are mapped to stays. -/
theorem SlotChange.lookup_other (h : SlotChange c slots slots') (hd : Distinct slots) (hk : k ≠ 0)
    (hne : k ≠ c.key) : lookupSlots slots' k = lookupSlots slots k := by
  by_cases habs : Absent slots k
  · rw [lookupSlots_eq_none.mpr habs]
    refine lookupSlots_eq_none.mpr fun j q hq hqk => ?_
    rcases h.cases_after hq (hqk ▸ hk) with hq' | ⟨hqc, -⟩
    · exact habs j q hq' hqk
    · exact hne (hqk.symm.trans hqc)
  · simp only [Absent, not_forall, not_not] at habs
    obtain ⟨j, p, hp, rfl⟩ := habs
    have hc : c ≠ .remove p.1 := by
      rintro rfl
      exact hne rfl
    rw [lookupSlots_eq_some (h.distinct hd) hk (h.stays hp hk hc) rfl, lookupSlots_eq_some hd hk hp rfl]

end Slots

/-! ## What is known of a call -/

/-- The call has its result at some moment since it began. -/
def Explained (seen : List (Option UInt64)) (effect : Option (Option UInt64 × Option UInt64))
    (ret : UInt64) : ClhtCall → Prop
  | .get _ => effect = none ∧ ∃ c ∈ seen, c.getD 0 = ret
  | .put _ val =>
    (ret = 1 ∧ effect = some (none, some val)) ∨ (ret = 0 ∧ effect = none ∧ ∃ v, some v ∈ seen)
  | .remove _ => effect = some (some ret, none) ∨ (ret = 0 ∧ effect = none ∧ none ∈ seen)

/-- The thread holds the lock of the bin. -/
def ClhtPc.holds : ClhtPc → Bool
  | .scan _ _ | .storeVal _ | .storeKey _ | .expand | .link _ | .take _ | .clear _ _
  | .release _ _ => true
  | _ => false

/-- The result of the call is not known yet. -/
def ClhtPc.isOpen : ClhtPc → Bool
  | .release _ _ | .status _ | .returned _ => false
  | _ => true

/-- What the slots are like where a thread is in its call. -/
def Placed (slots : ClhtSlots) (c : ClhtCall) : ClhtPc → Prop
  | .getKey i _ | .getAgain i _ => i < slots.length
  | .scan i empty => (∀ (j : ℕ) (p : UInt64 × UInt64), j < i → slots[j]? = some p → p.1 ≠ c.key) ∧
      ∀ e, empty = some e → ∃ w, slots[e]? = some (0, w)
  | .storeVal e => Absent slots c.key ∧ ∃ w, slots[e]? = some (0, w)
  | .storeKey e => Absent slots c.key ∧ ∃ key val, c = .put key val ∧ slots[e]? = some (0, val)
  | .expand | .link _ => Absent slots c.key
  | .take i => ∃ v, slots[i]? = some (c.key, v)
  | .clear i v => slots[i]? = some (c.key, v)
  | _ => True

/-- The key is from a slot on, or it has been in none at some moment. -/
def Ahead (slots : ClhtSlots) (seen : List (Option UInt64)) (key : UInt64) (i : ℕ) : Prop :=
  none ∈ seen ∨ ∃ (j : ℕ) (p : UInt64 × UInt64), i ≤ j ∧ slots[j]? = some p ∧ p.1 = key

/-- What a thread with a key that is not empty knows. -/
def Known (slots : ClhtSlots) (c : ClhtCall) (seen : List (Option UInt64))
    (effect : Option (Option UInt64 × Option UInt64)) : ClhtPc → Prop
  | .getVal i | .probe i => effect = none ∧ Ahead slots seen c.key i
  | .getKey i val => effect = none ∧ Ahead slots seen c.key i ∧
      ∀ p, slots[i]? = some p → p.1 = c.key → p.2 = val ∨ none ∈ seen
  | .getAgain i val => effect = none ∧
      (some val ∈ seen ∨ ∀ p, slots[i]? = some p → p.2 ≠ val) ∧
      (none ∈ seen ∨ slots[i]? = some (c.key, val))
  | .release ret _ | .status ret | .returned ret => Explained seen effect ret c
  | _ => effect = none

section Known

variable {slots slots' : ClhtSlots} {c : ClhtCall} {seen : List (Option UInt64)}
  {effect : Option (Option UInt64 × Option UInt64)} {pc : ClhtPc} {i : ℕ} {x : Option UInt64}

theorem Explained.see {ret : UInt64} (h : Explained seen effect ret c) :
    Explained (x :: seen) effect ret c := by
  cases c with
  | get key =>
    obtain ⟨he, y, hy, hret⟩ := h
    exact ⟨he, y, List.mem_cons_of_mem x hy, hret⟩
  | put key val =>
    rcases h with h | ⟨hret, he, v, hv⟩
    · exact .inl h
    · exact .inr ⟨hret, he, v, List.mem_cons_of_mem x hv⟩
  | remove key =>
    rcases h with h | ⟨hret, he, hv⟩
    · exact .inl h
    · exact .inr ⟨hret, he, List.mem_cons_of_mem x hv⟩

/-- What is explained is what the operation does. -/
theorem Explained.spec {ret : UInt64} (h : Explained seen effect ret c) :
    (∃ y z, effect = some (y, z) ∧ c.spec y = (ret, z)) ∨
      (effect = none ∧ ∃ x ∈ seen, c.spec x = (ret, x)) := by
  cases c with
  | get key =>
    obtain ⟨he, x, hx, rfl⟩ := h
    exact .inr ⟨he, x, hx, rfl⟩
  | put key val =>
    rcases h with ⟨rfl, he⟩ | ⟨rfl, he, v, hv⟩
    · exact .inl ⟨none, some val, he, rfl⟩
    · exact .inr ⟨he, some v, hv, rfl⟩
  | remove key =>
    rcases h with he | ⟨rfl, he, hx⟩
    · exact .inl ⟨some ret, none, he, rfl⟩
    · exact .inr ⟨he, none, hx, rfl⟩

/-- A change that has been made explains the result. -/
theorem Known.explained {y : Option UInt64 × Option UInt64} (h : Known slots c seen (some y) pc) :
    ∃ ret, Explained seen (some y) ret c := by
  cases pc with
  | getVal | getKey | getAgain | probe => cases h.1
  | release ret _ => exact ⟨ret, h⟩
  | status ret => exact ⟨ret, h⟩
  | returned ret => exact ⟨ret, h⟩
  | _ => cases h

theorem Ahead.see {key : UInt64} (h : Ahead slots seen key i) : Ahead slots (x :: seen) key i :=
  h.imp_left (List.mem_cons_of_mem x)

/-- More is seen while the slots stay. -/
theorem Known.see (h : Known slots c seen effect pc) : Known slots c (x :: seen) effect pc := by
  cases pc with
  | getVal i => exact ⟨h.1, h.2.see⟩
  | probe i => exact ⟨h.1, h.2.see⟩
  | getKey i val =>
    exact ⟨h.1, h.2.1.see, fun p hp hpk => (h.2.2 p hp hpk).imp_right (List.mem_cons_of_mem x)⟩
  | getAgain i val =>
    exact ⟨h.1, h.2.1.imp_left (List.mem_cons_of_mem x), h.2.2.imp_left (List.mem_cons_of_mem x)⟩
  | release ret resize => exact Explained.see h
  | status ret => exact Explained.see h
  | returned ret => exact Explained.see h
  | _ => exact h

/-- The slots are changed by another thread, and what the key is mapped to then is seen. -/
theorem Known.change {o : ClhtCall} (h : Known slots c seen effect pc) (hs : SlotChange o slots slots')
    (hd : Distinct slots) (hkey : c.key ≠ 0) (hcur : lookupSlots slots c.key ∈ seen)
    (hbound : Placed slots c pc)
    (hval : ∀ i val p q, pc = .getAgain i val → slots[i]? = some p → slots'[i]? = some q →
      q.2 = p.2 ∨ q.2 ≠ val) :
    Known slots' c (lookupSlots slots' c.key :: seen) effect pc := by
  have hgone : Absent slots' c.key → none ∈ lookupSlots slots' c.key :: seen := by
    intro habs
    rw [lookupSlots_eq_none.mpr habs]
    exact List.mem_cons_self
  have hwas : Absent slots c.key → none ∈ lookupSlots slots' c.key :: seen := by
    intro habs
    rw [lookupSlots_eq_none.mpr habs] at hcur
    exact List.mem_cons_of_mem _ hcur
  have hahead : ∀ {i}, Ahead slots seen c.key i →
      Ahead slots' (lookupSlots slots' c.key :: seen) c.key i := by
    rintro i (hseen | ⟨j, p, hij, hp, hpk⟩)
    · exact .inl (List.mem_cons_of_mem _ hseen)
    · rcases hs.keeps hd hp (hpk ▸ hkey) with hp' | habs
      · exact .inr ⟨j, p, hij, hp', hpk⟩
      · exact .inl (hgone (hpk ▸ habs))
  cases pc with
  | getVal i => exact ⟨h.1, hahead h.2⟩
  | probe i => exact ⟨h.1, hahead h.2⟩
  | getKey i val =>
    refine ⟨h.1, hahead h.2.1, fun q hq hqk => ?_⟩
    rcases hs.cases_after hq (hqk ▸ hkey) with hq' | ⟨-, habs, -⟩
    · exact (h.2.2 q hq' hqk).imp_right (List.mem_cons_of_mem _)
    · exact .inr (hwas (hqk ▸ habs))
  | getAgain i val =>
    refine ⟨h.1, ?_, ?_⟩
    · rcases h.2.1 with hseen | hne
      · exact .inl (List.mem_cons_of_mem _ hseen)
      · refine .inr fun q hq => ?_
        have hlt : i < slots.length := hbound
        obtain ⟨p, hp⟩ : ∃ p, slots[i]? = some p := ⟨slots[i], List.getElem?_eq_getElem hlt⟩
        rcases hval i val p q rfl hp hq with heq | hne'
        · exact heq ▸ hne p hp
        · exact hne'
    · rcases h.2.2 with hseen | hp
      · exact .inl (List.mem_cons_of_mem _ hseen)
      · exact (hs.keeps hd hp hkey).symm.imp_left hgone
  | release ret resize => exact Explained.see h
  | status ret => exact Explained.see h
  | returned ret => exact Explained.see h
  | _ => exact h

end Known

/-! ## The thread that takes a step -/

section Move

variable {b b' : ClhtBin} {c : ClhtCall} {key val : UInt64} {pc pc' : ClhtPc}
  {uninit : UInt64 × UInt64} {threshold n n' : UInt32} {seen : List (Option UInt64)}
  {effect : Option (Option UInt64 × Option UInt64)}

@[simp] theorem changeOf_same (x : Option UInt64) : changeOf effect x x = effect := if_pos rfl

/-- How a step treats the lock. -/
inductive LockMove (b b' : ClhtBin) (pc pc' : ClhtPc) : Prop where
  /-- outside -/
  | outside (h : pc.holds = false) (h' : pc'.holds = false) (hb : b' = b)
  /-- taking it -/
  | take (h : pc.holds = false) (h' : pc'.holds = true) (hb : b.locked = false)
      (hb' : b' = { b with locked := true })
  /-- inside, with the result still open -/
  | inside (h : pc.holds = true) (h' : pc'.holds = true) (hb : b'.locked = b.locked)
      (hopen : pc.isOpen = true)
  /-- giving it back -/
  | release (h : pc.holds = true) (h' : pc'.holds = false) (hb : b'.slots = b.slots)

/-- What a step of a thread does. -/
structure Moved (b b' : ClhtBin) (c : ClhtCall) (pc pc' : ClhtPc) : Prop where
  /-- the slots -/
  change : SlotChange c b.slots b'.slots
  /-- the lock -/
  lock : LockMove b b' pc pc'
  /-- the thread is in its place -/
  placed : Placed b'.slots c pc'
  /-- and knows of its key -/
  known : c.key ≠ 0 → ∀ seen effect, lookupSlots b.slots c.key ∈ seen →
    Known b.slots c seen effect pc →
    Known b'.slots c seen (changeOf effect (lookupSlots b.slots c.key) (lookupSlots b'.slots c.key)) pc'
  /-- a value is only changed where it is stored -/
  vals : ∀ (i : ℕ) (p q : UInt64 × UInt64), b.slots[i]? = some p → b'.slots[i]? = some q →
    q.2 = p.2 ∨ ∃ key, c = .put key q.2 ∧ pc = .storeVal i

/-- A step that leaves the bin alone. -/
theorem Moved.stay (hlock : LockMove b b pc pc') (hplaced : Placed b.slots c pc')
    (hknown : c.key ≠ 0 → ∀ seen effect, lookupSlots b.slots c.key ∈ seen →
      Known b.slots c seen effect pc → Known b.slots c seen effect pc') : Moved b b c pc pc' where
  change := .same rfl
  lock := hlock
  placed := hplaced
  known hkey seen effect hcur h := by
    rw [changeOf_same]
    exact hknown hkey seen effect hcur h
  vals i p q hp hq := .inl (by rw [hp] at hq; rw [Option.some.inj hq])

theorem Ahead.next {slots : ClhtSlots} {i : ℕ} {p : UInt64 × UInt64} (h : Ahead slots seen key i)
    (hp : slots[i]? = some p) (hne : p.1 ≠ key) : Ahead slots seen key (i + 1) := by
  rcases h with h | ⟨j, q, hij, hq, hqk⟩
  · exact .inl h
  · refine .inr ⟨j, q, ?_, hq, hqk⟩
    rcases Nat.eq_or_lt_of_le hij with rfl | hlt
    · rw [hp] at hq
      exact absurd (Option.some.inj hq ▸ hqk) hne
    · exact hlt

theorem Ahead.none_mem {slots : ClhtSlots} {i : ℕ} (h : Ahead slots seen key i)
    (hi : slots[i]? = none) : none ∈ seen := by
  rcases h with h | ⟨j, q, hij, hq, -⟩
  · exact h
  · have hlt := (List.getElem?_eq_some_iff.mp hq).1
    have hge := List.getElem?_eq_none_iff.mp hi
    exact absurd (Nat.lt_of_lt_of_le hlt hge) (Nat.not_lt.mpr hij)

theorem getMove_moved (hm : getMove key b pc = some pc') (hd : Distinct b.slots) :
    Moved b b (.get key) pc pc' := by
  cases pc with
  | getVal i =>
    simp only [getMove] at hm
    split at hm
    · next p hp =>
      obtain rfl := Option.some.inj hm
      refine .stay (.outside rfl rfl rfl) (List.getElem?_eq_some_iff.mp hp).1 ?_
      intro _ seen effect _ h
      refine ⟨h.1, h.2, fun q hq _ => .inl ?_⟩
      rw [hp] at hq
      rw [Option.some.inj hq]
    · next hnone =>
      obtain rfl := Option.some.inj hm
      refine .stay (.outside rfl rfl rfl) trivial ?_
      intro _ seen effect _ h
      exact ⟨h.1, none, h.2.none_mem hnone, rfl⟩
  | getKey i val =>
    obtain ⟨p, hp, rfl⟩ := Option.map_eq_some_iff.mp hm
    split
    · next hpk =>
      refine .stay (.outside rfl rfl rfl) (List.getElem?_eq_some_iff.mp hp).1 ?_
      intro hkey seen effect hcur h
      have hlookup := lookupSlots_eq_some hd hkey hp hpk
      refine ⟨h.1, ?_, ?_⟩
      · rcases h.2.2 p hp hpk with rfl | hseen
        · exact .inl (hlookup ▸ hcur)
        · by_cases hv : p.2 = val
          · exact .inl (hv ▸ hlookup ▸ hcur)
          · refine .inr fun q hq => ?_
            rw [hp] at hq
            exact Option.some.inj hq ▸ hv
      · rcases h.2.2 p hp hpk with rfl | hseen
        · refine .inr ?_
          rw [hp, ClhtCall.key, ← hpk]
        · exact .inl hseen
    · next hne =>
      refine .stay (.outside rfl rfl rfl) trivial ?_
      intro _ seen effect _ h
      exact ⟨h.1, h.2.1.next hp hne⟩
  | getAgain i val =>
    obtain ⟨p, hp, rfl⟩ := Option.map_eq_some_iff.mp hm
    refine .stay (.outside rfl rfl rfl) trivial ?_
    intro _ seen effect _ h
    refine ⟨h.1, ?_⟩
    split
    · next hv =>
      rcases h.2.1 with hseen | hne
      · exact ⟨some val, hseen, rfl⟩
      · exact absurd hv (hne p hp)
    · next hv =>
      rcases h.2.2 with hseen | hq
      · exact ⟨none, hseen, rfl⟩
      · rw [hp] at hq
        exact absurd (congrArg Prod.snd (Option.some.inj hq)) hv
  | _ => simp [getMove] at hm

theorem absent_set {slots : ClhtSlots} {e : ℕ} {w v : UInt64} (habs : Absent slots key)
    (he : slots[e]? = some (0, w)) : Absent (slots.set e (0, v)) key := by
  intro i p hp
  rw [getElem?_set_of_some he] at hp
  split at hp
  · obtain rfl := Option.some.inj hp
    exact habs e (0, w) he
  · exact habs i p hp

theorem distinct_of_change {slots slots' : ClhtSlots} (h : SlotChange c slots slots') (hd : Distinct slots)
    {i : ℕ} {v : UInt64} (hkey : key ≠ 0) (hi : slots'[i]? = some (key, v)) :
    lookupSlots slots' key = some v :=
  lookupSlots_eq_some (h.distinct hd) hkey hi rfl

theorem putMove_moved (hm : putMove key val uninit threshold n b pc = some (pc', b', n'))
    (hd : Distinct b.slots) (hplaced : Placed b.slots (.put key val) pc) :
    Moved b b' (.put key val) pc pc' := by
  cases pc with
  | probe i =>
    simp only [putMove] at hm
    split at hm
    · next p hp =>
      obtain ⟨rfl, rfl, -⟩ : _ ∧ _ ∧ _ := by simpa using hm
      split
      · next hpk =>
        refine .stay (.outside rfl rfl rfl) trivial ?_
        intro hkey seen effect hcur h
        have hlookup := lookupSlots_eq_some hd hkey hp hpk
        exact .inr ⟨rfl, h.1, p.2, hlookup ▸ hcur⟩
      · next hne =>
        refine .stay (.outside rfl rfl rfl) trivial ?_
        intro _ seen effect _ h
        exact ⟨h.1, h.2.next hp hne⟩
    · obtain ⟨rfl, rfl, -⟩ : _ ∧ _ ∧ _ := by simpa using hm
      exact .stay (.outside rfl rfl rfl) trivial fun _ _ _ _ h => h.1
  | acquire =>
    simp only [putMove] at hm
    split at hm
    · obtain ⟨rfl, rfl, -⟩ : _ ∧ _ ∧ _ := by simpa using hm
      exact .stay (.outside rfl rfl rfl) trivial fun _ _ _ _ h => h
    · next hfree =>
      obtain ⟨rfl, rfl, -⟩ : _ ∧ _ ∧ _ := by simpa using hm
      refine ⟨.same rfl, .take rfl rfl (by simpa using hfree) rfl, ⟨by simp, by simp⟩, ?_, ?_⟩
      · intro _ seen effect _ h
        rw [changeOf_same]
        exact h
      · intro i p q hp hq
        rw [hp] at hq
        exact .inl (by rw [Option.some.inj hq])
  | scan i empty =>
    obtain ⟨hbefore, hempty⟩ := hplaced
    simp only [putMove] at hm
    split at hm
    · next p hp =>
      split at hm
      · next hpk =>
        obtain ⟨rfl, rfl, -⟩ : _ ∧ _ ∧ _ := by simpa using hm
        refine .stay (.inside rfl rfl rfl rfl) trivial ?_
        intro hkey seen effect hcur h
        have hlookup := lookupSlots_eq_some hd hkey hp hpk
        exact .inr ⟨rfl, h, p.2, hlookup ▸ hcur⟩
      · next hne =>
        obtain ⟨rfl, rfl, -⟩ : _ ∧ _ ∧ _ := by simpa using hm
        refine .stay (.inside rfl rfl rfl rfl) ⟨fun j q hj hq => ?_, fun e he => ?_⟩ fun _ _ _ _ h => h
        · rcases Nat.lt_succ_iff_lt_or_eq.mp hj with hj | rfl
          · exact hbefore j q hj hq
          · rw [hp] at hq
            exact Option.some.inj hq ▸ hne
        · split at he
          · next hfirst =>
            obtain rfl := Option.some.inj he
            exact ⟨p.2, by rw [hp, ← hfirst.2]⟩
          · exact hempty e he
    · next hnone =>
      have habs : Absent b.slots key := by
        intro j q hq
        have hlt := (List.getElem?_eq_some_iff.mp hq).1
        exact hbefore j q (Nat.lt_of_lt_of_le hlt (List.getElem?_eq_none_iff.mp hnone)) hq
      split at hm
      · next e =>
        obtain ⟨rfl, rfl, -⟩ : _ ∧ _ ∧ _ := by simpa using hm
        exact .stay (.inside rfl rfl rfl rfl) ⟨habs, hempty e rfl⟩ fun _ _ _ _ h => h
      · obtain ⟨rfl, rfl, -⟩ : _ ∧ _ ∧ _ := by simpa using hm
        exact .stay (.inside rfl rfl rfl rfl) habs fun _ _ _ _ h => h
  | storeVal e =>
    obtain ⟨habs, w, he⟩ := hplaced
    rw [ClhtCall.key_put] at habs
    simp only [putMove, he, Option.map_some, Option.some.injEq, Prod.mk.injEq] at hm
    obtain ⟨rfl, rfl, -⟩ := hm
    have habs' : Absent (b.slots.set e (0, val)) key := absent_set habs he
    refine ⟨.val e key w val rfl he rfl, .inside rfl rfl rfl rfl, ⟨habs', key, val, rfl, ?_⟩, ?_, ?_⟩
    · rw [getElem?_set_of_some he, if_pos rfl]
    · intro _ seen effect _ h
      rw [ClhtCall.key_put, lookupSlots_eq_none.mpr habs, lookupSlots_eq_none.mpr habs', changeOf_same]
      exact h
    · intro i p q hp hq
      rw [getElem?_set_of_some he] at hq
      split at hq
      · next hei =>
        obtain rfl := Option.some.inj hq
        exact .inr ⟨key, rfl, by rw [hei]⟩
      · rw [hp] at hq
        exact .inl (by rw [Option.some.inj hq])
  | storeKey e =>
    obtain ⟨habs, key', val', hc, he⟩ := hplaced
    rw [ClhtCall.key_put] at habs
    obtain ⟨rfl, rfl⟩ : key = key' ∧ val = val' := by simpa using hc
    simp only [putMove, he, Option.map_some, Option.some.injEq, Prod.mk.injEq] at hm
    obtain ⟨rfl, rfl, -⟩ := hm
    have hchange : SlotChange (.put key val) b.slots (b.slots.set e (key, val)) :=
      .key e key val rfl he habs rfl
    refine ⟨hchange, .inside rfl rfl rfl rfl, trivial, ?_, ?_⟩
    · intro hkey seen effect _ h
      have hafter : lookupSlots (b.slots.set e (key, val)) key = some val :=
        distinct_of_change hchange hd hkey (by rw [getElem?_set_of_some he, if_pos rfl])
      refine .inl ⟨rfl, ?_⟩
      rw [ClhtCall.key_put, hafter, lookupSlots_eq_none.mpr habs]
      rfl
    · intro i p q hp hq
      rw [getElem?_set_of_some he] at hq
      split at hq
      · next hei =>
        subst hei
        rw [he] at hp
        rw [← Option.some.inj hq, ← Option.some.inj hp]
        exact .inl rfl
      · rw [hp] at hq
        exact .inl (by rw [Option.some.inj hq])
  | expand =>
    simp only [putMove, Option.some.injEq, Prod.mk.injEq] at hm
    obtain ⟨rfl, rfl, -⟩ := hm
    exact .stay (.inside rfl rfl rfl rfl) hplaced fun _ _ _ _ h => h
  | link resize =>
    simp only [putMove, Option.some.injEq, Prod.mk.injEq] at hm
    obtain ⟨rfl, rfl, -⟩ := hm
    have hchange : SlotChange (.put key val) b.slots
        (b.slots ++ [(key, val), (0, uninit.1), (0, uninit.2)]) := .link key val uninit rfl hplaced rfl
    refine ⟨hchange, .inside rfl rfl rfl rfl, trivial, ?_, ?_⟩
    · intro hkey seen effect _ h
      have hafter : lookupSlots (b.slots ++ [(key, val), (0, uninit.1), (0, uninit.2)]) key = some val :=
        distinct_of_change hchange hd hkey (i := b.slots.length) (by
          rw [List.getElem?_append_right (Nat.le_refl _), Nat.sub_self]
          rfl)
      refine .inl ⟨rfl, ?_⟩
      have hbefore : lookupSlots b.slots key = none := lookupSlots_eq_none.mpr hplaced
      rw [ClhtCall.key_put, hafter, hbefore]
      rfl
    · intro i p q hp hq
      rw [List.getElem?_append_left (List.getElem?_eq_some_iff.mp hp).1, hp] at hq
      exact .inl (by rw [Option.some.inj hq])
  | release ret resize =>
    simp only [putMove, Option.some.injEq, Prod.mk.injEq] at hm
    obtain ⟨rfl, rfl, -⟩ := hm
    refine ⟨.same rfl, .release rfl ?_ rfl, ?_, ?_, ?_⟩
    · cases resize <;> rfl
    · cases resize <;> trivial
    · intro _ seen effect _ h
      rw [changeOf_same]
      cases resize <;> exact h
    · intro i p q hp hq
      rw [hp] at hq
      exact .inl (by rw [Option.some.inj hq])
  | _ => simp [putMove] at hm

theorem removeMove_moved (hm : removeMove key b pc = some (pc', b')) (hd : Distinct b.slots)
    (hplaced : Placed b.slots (.remove key) pc) : Moved b b' (.remove key) pc pc' := by
  cases pc with
  | probe i =>
    simp only [removeMove] at hm
    split at hm
    · next p hp =>
      obtain ⟨rfl, rfl⟩ : _ ∧ _ := by simpa using hm
      split
      · exact .stay (.outside rfl rfl rfl) trivial fun _ _ _ _ h => h.1
      · next hne =>
        refine .stay (.outside rfl rfl rfl) trivial ?_
        intro _ seen effect _ h
        exact ⟨h.1, h.2.next hp hne⟩
    · next hnone =>
      obtain ⟨rfl, rfl⟩ : _ ∧ _ := by simpa using hm
      refine .stay (.outside rfl rfl rfl) trivial ?_
      intro _ seen effect _ h
      exact .inr ⟨rfl, h.1, h.2.none_mem hnone⟩
  | acquire =>
    simp only [removeMove] at hm
    split at hm
    · obtain ⟨rfl, rfl⟩ : _ ∧ _ := by simpa using hm
      exact .stay (.outside rfl rfl rfl) trivial fun _ _ _ _ h => h
    · next hfree =>
      obtain ⟨rfl, rfl⟩ : _ ∧ _ := by simpa using hm
      refine ⟨.same rfl, .take rfl rfl (by simpa using hfree) rfl, ⟨by simp, by simp⟩, ?_, ?_⟩
      · intro _ seen effect _ h
        rw [changeOf_same]
        exact h
      · intro i p q hp hq
        rw [hp] at hq
        exact .inl (by rw [Option.some.inj hq])
  | scan i empty =>
    obtain ⟨hbefore, hempty⟩ := hplaced
    simp only [removeMove] at hm
    split at hm
    · next p hp =>
      obtain ⟨rfl, rfl⟩ : _ ∧ _ := by simpa using hm
      split
      · next hpk =>
        refine .stay (.inside rfl rfl rfl rfl) ⟨p.2, ?_⟩ fun _ _ _ _ h => h
        rw [hp, ClhtCall.key_remove, ← hpk]
      · next hne =>
        refine .stay (.inside rfl rfl rfl rfl) ⟨fun j q hj hq => ?_, hempty⟩ fun _ _ _ _ h => h
        rcases Nat.lt_succ_iff_lt_or_eq.mp hj with hj | rfl
        · exact hbefore j q hj hq
        · rw [hp] at hq
          exact Option.some.inj hq ▸ hne
    · next hnone =>
      obtain ⟨rfl, rfl⟩ : _ ∧ _ := by simpa using hm
      refine .stay (.inside rfl rfl rfl rfl) trivial ?_
      intro _ seen effect hcur h
      have habs : Absent b.slots key := by
        intro j q hq
        have hlt := (List.getElem?_eq_some_iff.mp hq).1
        exact hbefore j q (Nat.lt_of_lt_of_le hlt (List.getElem?_eq_none_iff.mp hnone)) hq
      rw [ClhtCall.key_remove, lookupSlots_eq_none.mpr habs] at hcur
      exact .inr ⟨rfl, h, hcur⟩
  | take i =>
    obtain ⟨v, hv⟩ := hplaced
    simp only [removeMove, hv, Option.map_some, Option.some.injEq, Prod.mk.injEq] at hm
    obtain ⟨rfl, rfl⟩ := hm
    exact .stay (.inside rfl rfl rfl rfl) hv fun _ _ _ _ h => h
  | clear i v =>
    have hv : b.slots[i]? = some (key, v) := hplaced
    simp only [removeMove, hv, Option.map_some, Option.some.injEq, Prod.mk.injEq] at hm
    obtain ⟨rfl, rfl⟩ := hm
    have hchange : SlotChange (.remove key) b.slots (b.slots.set i (0, v)) := .clear i key v rfl hv rfl
    refine ⟨hchange, .inside rfl rfl rfl rfl, trivial, ?_, ?_⟩
    · intro hkey seen effect _ h
      have habs : Absent (b.slots.set i (0, v)) key := by
        rcases hchange.keeps hd hv hkey with hsame | habs
        · rw [getElem?_set_of_some hv, if_pos rfl] at hsame
          exact absurd (congrArg Prod.fst (Option.some.inj hsame)).symm hkey
        · exact habs
      refine .inl ?_
      have hbefore : lookupSlots b.slots key = some v := lookupSlots_eq_some hd hkey hv rfl
      rw [ClhtCall.key_remove, lookupSlots_eq_none.mpr habs, hbefore]
      rfl
    · intro j p q hp hq
      rw [getElem?_set_of_some hv] at hq
      split at hq
      · next hij =>
        subst hij
        rw [hv] at hp
        rw [← Option.some.inj hq, ← Option.some.inj hp]
        exact .inl rfl
      · rw [hp] at hq
        exact .inl (by rw [Option.some.inj hq])
  | release ret resize =>
    simp only [removeMove, Option.some.injEq, Prod.mk.injEq] at hm
    obtain ⟨rfl, rfl⟩ := hm
    refine ⟨.same rfl, .release rfl rfl rfl, trivial, ?_, ?_⟩
    · intro _ seen effect _ h
      rw [changeOf_same]
      exact h
    · intro i p q hp hq
      rw [hp] at hq
      exact .inl (by rw [Option.some.inj hq])
  | _ => simp [removeMove] at hm

/-- What one step of a call does. -/
theorem move_moved (hm : c.move uninit threshold n b pc = some (pc', b', n')) (hd : Distinct b.slots)
    (hplaced : Placed b.slots c pc) : Moved b b' c pc pc' := by
  cases c with
  | get key =>
    obtain ⟨pc'', hget, heq⟩ := Option.map_eq_some_iff.mp hm
    obtain ⟨rfl, rfl, -⟩ : pc'' = pc' ∧ b = b' ∧ n = n' := by simpa using heq
    exact getMove_moved hget hd
  | put key val => exact putMove_moved hm hd hplaced
  | remove key =>
    obtain ⟨m, hremove, heq⟩ := Option.map_eq_some_iff.mp hm
    obtain ⟨rfl, rfl, -⟩ : m.1 = pc' ∧ m.2 = b' ∧ n = n' := by simpa using heq
    exact removeMove_moved hremove hd hplaced

/-- A `clht_get` goes to its second load from a slot with its key. -/
theorem move_again {i : ℕ}
    (hm : c.move uninit threshold n b pc = some (.getAgain i val, b', n')) :
    ∃ w, b'.slots[i]? = some (c.key, w) := by
  cases c with
  | get key =>
    obtain ⟨pc', hget, heq⟩ := Option.map_eq_some_iff.mp hm
    obtain ⟨rfl, rfl, -⟩ : pc' = .getAgain i val ∧ b = b' ∧ n = n' := by simpa using heq
    cases pc with
    | getVal j =>
      simp only [getMove] at hget
      split at hget <;> cases hget
    | getKey j v =>
      obtain ⟨p, hp, hpc⟩ := Option.map_eq_some_iff.mp hget
      split at hpc
      · next hpk =>
        obtain ⟨rfl, rfl⟩ : j = i ∧ v = val := by simpa using hpc
        exact ⟨p.2, by rw [hp, ClhtCall.key_get, ← hpk]⟩
      · cases hpc
    | getAgain j v =>
      obtain ⟨p, hp, hpc⟩ := Option.map_eq_some_iff.mp hget
      cases hpc
    | _ => cases hget
  | put key val' =>
    simp only [ClhtCall.move] at hm
    unfold putMove at hm
    grind
  | remove key =>
    obtain ⟨m, hremove, heq⟩ := Option.map_eq_some_iff.mp hm
    unfold removeMove at hremove
    grind

theorem LockMove.slots_or_holds (h : LockMove b b' pc pc') : b'.slots = b.slots ∨ pc.holds = true := by
  cases h with
  | outside _ _ hb => exact .inl (by rw [hb])
  | take _ _ _ hb' => exact .inl (by rw [hb'])
  | inside h _ _ _ => exact .inr h
  | release h _ _ => exact .inr h

/-- A thread that holds no lock stays in its place. -/
theorem Placed.change {slots slots' : ClhtSlots} {o : ClhtCall} (h : Placed slots c pc) (hpc : pc.holds = false)
    (hs : SlotChange o slots slots') : Placed slots' c pc := by
  cases pc with
  | getKey i val => exact Nat.lt_of_lt_of_le h hs.length_le
  | getAgain i val => exact Nat.lt_of_lt_of_le h hs.length_le
  | getVal | probe | acquire | status | returned => trivial
  | scan | storeVal | storeKey | expand | link | take | clear | release => cases hpc

end Move

/-! ## What holds of the table and the threads -/

namespace ClhtShared

variable {s s' : ClhtShared} {t t' : ℕ} {th th' : ClhtThread} {c : ClhtCall} {a : ClhtAct}
  {uninit : UInt64 × UInt64} {key : UInt64}

/-- The slots a thread works on. -/
def slotsOf (s : ClhtShared) (th : ClhtThread) : ClhtSlots := (s.bins (s.bin th.call.key)).slots

/-- The invariant. -/
structure Inv (s : ClhtShared) : Prop where
  /-- a key is in one slot of its bin -/
  distinct : ∀ i, Distinct (s.bins i).slots
  /-- every thread is in its place -/
  placed : ∀ t th, s.threads t = some th → Placed (s.slotsOf th) th.call th.pc
  /-- who holds a lock has taken it -/
  locked : ∀ t th, s.threads t = some th → th.pc.holds = true →
    (s.bins (s.bin th.call.key)).locked = true
  /-- alone -/
  alone : ∀ t t' th th', s.threads t = some th → s.threads t' = some th' →
    s.bin th.call.key = s.bin th'.call.key → th.pc.holds = true → th'.pc.holds = true → t = t'
  /-- what a thread knows -/
  known : ∀ t th, s.threads t = some th → th.call.key ≠ 0 →
    Known (s.slotsOf th) th.call th.seen th.effect th.pc
  /-- a thread that is in a call has seen what there is -/
  current : ∀ t th, s.threads t = some th → ClhtThread.isIdle (some th) = false →
    s.content th.call.key ∈ th.seen

@[simp] theorem observe_call : (s.observe th).call = th.call := by
  unfold observe
  split <;> rfl

@[simp] theorem observe_pc : (s.observe th).pc = th.pc := by
  unfold observe
  split <;> rfl

@[simp] theorem observe_effect : (s.observe th).effect = th.effect := by
  unfold observe
  split <;> rfl

theorem observe_of_idle (h : ClhtThread.isIdle (some th) = true) : s.observe th = th := if_pos h

theorem observe_of_not_idle (h : ClhtThread.isIdle (some th) = false) :
    s.observe th = { th with seen := s.content th.call.key :: th.seen } := by
  rw [observe, h]
  rfl

@[simp] theorem slotsOf_observe : s'.slotsOf (s.observe th) = s'.slotsOf th := by
  rw [slotsOf, observe_call, slotsOf]

/-- What a step of a thread is. -/
structure Ran (s s' : ClhtShared) (t : ℕ) (th : ClhtThread) (pc : ClhtPc) (b : ClhtBin) : Prop where
  /-- the table keeps its size -/
  hash : s'.hash = s.hash
  /-- one bin changes -/
  bins : s'.bins = Function.update s.bins (s.bin th.call.key) b
  /-- as the call says -/
  move : ∃ uninit threshold n n',
    th.call.move uninit threshold n (s.bins (s.bin th.call.key)) th.pc = some (pc, b, n')
  /-- the thread goes on -/
  self : s'.threads t = some (s'.observe
    (th.goTo pc (s.content th.call.key) (s'.content th.call.key)))
  /-- the others see -/
  others : ∀ t', t' ≠ t → s'.threads t' = (s.threads t').map s'.observe

theorem ran_of_step (h : s.step (.run t uninit) = .ok s') :
    ∃ th pc b, s.threads t = some th ∧ Ran s s' t th pc b := by
  simp only [step] at h
  split at h
  · cases h
  · next th ht =>
    split at h
    · cases h
    · next pc b n hm =>
      obtain rfl := Except.ok.inj h
      refine ⟨th, pc, b, ht, rfl, rfl, ⟨uninit, _, _, n, hm⟩, ?_, fun t' hne => ?_⟩
      · simp only [goOn, Function.update_self, Option.map_some]
        rfl
      · simp only [goOn, Function.update_of_ne hne]
        rfl

/-- A step of a call that begins. -/
theorem called_of_step (h : s.step (.call t c) = .ok s') :
    ClhtThread.isIdle (s.threads t) = true ∧ s' = { s with
      threads := Function.update s.threads t (some ⟨c, c.entry, [s.content c.key], none⟩) } := by
  simp only [step] at h
  split at h
  · next hidle => exact ⟨hidle, (Except.ok.inj h).symm⟩
  · cases h

/-! ### A step of a thread -/

/-- No `clht_put` stores the very value that a `clht_get` of a key has read there before and is to read
again. -/
def Spared (s : ClhtShared) : ClhtAct → Prop
  | .call _ _ => True
  | .run t _ => ∀ th key val e, s.threads t = some th → th.call = .put key val → th.pc = .storeVal e →
    ∀ t' th', s.threads t' = some th' → th'.call.key ≠ 0 → s.bin th'.call.key = s.bin key →
      th'.pc ≠ .getAgain e val

namespace Ran

variable {pc : ClhtPc} {b : ClhtBin}

theorem bin_eq (h : Ran s s' t th pc b) (key : UInt64) : s'.bin key = s.bin key := by
  rw [bin, bin, h.hash]

theorem bins_self (h : Ran s s' t th pc b) : s'.bins (s.bin th.call.key) = b := by
  rw [h.bins, Function.update_self]

theorem bins_ne (h : Ran s s' t th pc b) {i : ℕ} (hi : i ≠ s.bin th.call.key) :
    s'.bins i = s.bins i := by
  rw [h.bins, Function.update_of_ne hi]

/-- What the step does, by where the thread is. -/
theorem moved (h : Ran s s' t th pc b) (hi : Inv s) (ht : s.threads t = some th) :
    Moved (s.bins (s.bin th.call.key)) b th.call th.pc pc := by
  obtain ⟨uninit, threshold, n, n', hm⟩ := h.move
  exact move_moved hm (hi.distinct _) (hi.placed t th ht)

/-- A thread afterwards. -/
theorem thread_cases (h : Ran s s' t th pc b) (ht' : s'.threads t' = some th') :
    (t' = t ∧ th' = s'.observe (th.goTo pc (s.content th.call.key) (s'.content th.call.key))) ∨
      (t' ≠ t ∧ ∃ o, s.threads t' = some o ∧ th' = s'.observe o) := by
  by_cases htt : t' = t
  · subst htt
    rw [h.self] at ht'
    exact .inl ⟨rfl, (Option.some.inj ht').symm⟩
  · rw [h.others t' htt] at ht'
    obtain ⟨o, ho, heq⟩ := Option.map_eq_some_iff.mp ht'
    exact .inr ⟨htt, o, ho, heq.symm⟩

/-- The slots of another call stay, or its bin is the one that changes, under the lock. -/
theorem slotsOf_cases (h : Ran s s' t th pc b) (hi : Inv s) (ht : s.threads t = some th)
    (o : ClhtThread) : s'.slotsOf o = s.slotsOf o ∨
      (s.bin o.call.key = s.bin th.call.key ∧ th.pc.holds = true ∧ s'.slotsOf o = b.slots) := by
  by_cases hbin : s.bin o.call.key = s.bin th.call.key
  · have hafter : s'.slotsOf o = b.slots := by rw [slotsOf, h.bin_eq, hbin, h.bins_self]
    rcases (h.moved hi ht).lock.slots_or_holds with hsame | hholds
    · refine .inl ?_
      rw [hafter, hsame, slotsOf, hbin]
    · exact .inr ⟨hbin, hholds, hafter⟩
  · refine .inl ?_
    rw [slotsOf, h.bin_eq, h.bins_ne hbin, slotsOf]

/-- The slots of any call change as one step can change them. -/
theorem slotChange (h : Ran s s' t th pc b) (hi : Inv s) (ht : s.threads t = some th)
    (o : ClhtThread) : SlotChange th.call (s.slotsOf o) (s'.slotsOf o) := by
  rcases h.slotsOf_cases hi ht o with hsame | ⟨hbin, -, hafter⟩
  · exact .same hsame
  · rw [hafter, slotsOf, hbin]
    exact (h.moved hi ht).change

theorem slotsOf_self (h : Ran s s' t th pc b) : s'.slotsOf th = b.slots := by
  rw [slotsOf, h.bin_eq, h.bins_self]

theorem distinct (h : Ran s s' t th pc b) (hi : Inv s) (ht : s.threads t = some th) (i : ℕ) :
    Distinct (s'.bins i).slots := by
  by_cases hbin : i = s.bin th.call.key
  · rw [hbin, h.bins_self]
    exact (h.moved hi ht).change.distinct (hi.distinct _)
  · rw [h.bins_ne hbin]
    exact hi.distinct i

theorem placed_other (h : Ran s s' t th pc b) (hi : Inv s) (ht : s.threads t = some th)
    {o : ClhtThread} (ho : s.threads t' = some o) (hne : t' ≠ t) : Placed (s'.slotsOf o) o.call o.pc := by
  rcases h.slotsOf_cases hi ht o with hsame | ⟨hbin, hholds, -⟩
  · rw [hsame]
    exact hi.placed t' o ho
  · refine (hi.placed t' o ho).change ?_ (h.slotChange hi ht o)
    cases hpc : o.pc.holds with
    | false => rfl
    | true => exact absurd (hi.alone t' t o th ho ht hbin hpc hholds) hne

/-- A lock is held by the threads that have taken it. -/
theorem locked_other (h : Ran s s' t th pc b) (hi : Inv s) (ht : s.threads t = some th)
    {o : ClhtThread} (ho : s.threads t' = some o) (hne : t' ≠ t) (hholds : o.pc.holds = true) :
    (s'.bins (s.bin o.call.key)).locked = true := by
  have hlocked := hi.locked t' o ho hholds
  by_cases hbin : s.bin o.call.key = s.bin th.call.key
  · rw [hbin, h.bins_self]
    rw [hbin] at hlocked
    cases (h.moved hi ht).lock with
    | outside _ _ hb => rw [hb, hlocked]
    | take _ _ _ hb' => rw [hb']
    | inside _ _ hb _ => rw [hb, hlocked]
    | release hth _ _ => exact absurd (hi.alone t' t o th ho ht hbin hholds hth) hne
  · rw [h.bins_ne hbin]
    exact hlocked

theorem locked_self (h : Ran s s' t th pc b) (hi : Inv s) (ht : s.threads t = some th)
    (hholds : pc.holds = true) : b.locked = true := by
  cases (h.moved hi ht).lock with
  | outside _ h' _ =>
    rw [h'] at hholds
    cases hholds
  | take _ _ _ hb' => rw [hb']
  | inside hth _ hb _ =>
    rw [hb]
    exact hi.locked t th ht hth
  | release _ h' _ =>
    rw [h'] at hholds
    cases hholds

/-- No other thread holds the lock that the thread holds then. -/
theorem alone_other (h : Ran s s' t th pc b) (hi : Inv s) (ht : s.threads t = some th)
    {o : ClhtThread} (ho : s.threads t' = some o) (hbin : s.bin o.call.key = s.bin th.call.key)
    (hpc : pc.holds = true) (hholds : o.pc.holds = true) : t' = t := by
  cases (h.moved hi ht).lock with
  | outside _ h' _ =>
    rw [h'] at hpc
    cases hpc
  | take _ _ hfree _ =>
    have hlocked := hi.locked t' o ho hholds
    rw [hbin, hfree] at hlocked
    cases hlocked
  | inside hth _ _ _ => exact hi.alone t' t o th ho ht hbin hholds hth
  | release _ h' _ =>
    rw [h'] at hpc
    cases hpc

theorem not_idle (h : Ran s s' t th pc b) : ClhtThread.isIdle (some th) = false := by
  obtain ⟨uninit, threshold, n, n', hm⟩ := h.move
  cases hpc : th.pc with
  | returned ret =>
    rw [hpc] at hm
    cases hc : th.call <;> simp [hc, ClhtCall.move, getMove, putMove, removeMove] at hm
  | _ => rw [ClhtThread.isIdle, hpc]

theorem known_self (h : Ran s s' t th pc b) (hi : Inv s) (ht : s.threads t = some th)
    (hkey : th.call.key ≠ 0) :
    Known (s'.slotsOf th) th.call
      (s'.observe (th.goTo pc (s.content th.call.key) (s'.content th.call.key))).seen
      (changeOf th.effect (s.content th.call.key) (s'.content th.call.key)) pc := by
  have hcur := hi.current t th ht h.not_idle
  have hafter : s'.content th.call.key = lookupSlots b.slots th.call.key := by
    rw [content, h.bin_eq, h.bins_self]
  have hknown := (h.moved hi ht).known hkey th.seen th.effect hcur (hi.known t th ht hkey)
  rw [h.slotsOf_self, hafter]
  cases hidle : ClhtThread.isIdle (some (th.goTo pc (s.content th.call.key) (s'.content th.call.key))) with
  | true =>
    rw [← hafter, observe_of_idle hidle, hafter]
    exact hknown
  | false =>
    rw [← hafter, observe_of_not_idle hidle, hafter]
    exact hknown.see

theorem known_other (h : Ran s s' t th pc b) (hi : Inv s) (ht : s.threads t = some th)
    (hspared : Spared s (.run t uninit)) {o : ClhtThread} (ho : s.threads t' = some o)
    (hkey : o.call.key ≠ 0) :
    Known (s'.slotsOf o) o.call (s'.observe o).seen o.effect o.pc := by
  have hknown := hi.known t' o ho hkey
  cases hidle : ClhtThread.isIdle (some o) with
  | true =>
    rw [observe_of_idle hidle]
    cases hpc : o.pc with
    | returned ret =>
      rw [hpc] at hknown
      exact hknown
    | _ => simp [ClhtThread.isIdle, hpc] at hidle
  | false =>
    rw [observe_of_not_idle hidle]
    refine hknown.change (h.slotChange hi ht o) (hi.distinct _) hkey (hi.current t' o ho hidle)
      (hi.placed t' o ho) fun i val p q hpc hp hq => ?_
    rcases h.slotsOf_cases hi ht o with hsame | ⟨hbin, -, hafter⟩
    · rw [hsame, hp] at hq
      exact .inl (by rw [Option.some.inj hq])
    · rw [slotsOf, hbin] at hp
      rw [hafter] at hq
      rcases (h.moved hi ht).vals i p q hp hq with hval | ⟨key, hcall, hstore⟩
      · exact .inl hval
      · refine .inr ?_
        rintro rfl
        rw [hcall] at hbin
        exact hspared th key q.2 i ht hcall hstore t' o ho hkey hbin hpc

theorem inv (h : Ran s s' t th pc b) (hi : Inv s) (ht : s.threads t = some th)
    (hspared : Spared s (.run t uninit)) : Inv s' where
  distinct := h.distinct hi ht
  placed t' th' ht' := by
    rcases h.thread_cases ht' with ⟨-, rfl⟩ | ⟨hne, o, ho, rfl⟩
    · rw [slotsOf_observe, observe_call, observe_pc]
      exact h.slotsOf_self ▸ (h.moved hi ht).placed
    · rw [slotsOf_observe, observe_call, observe_pc]
      exact h.placed_other hi ht ho hne
  locked t' th' ht' hholds := by
    rw [h.bin_eq]
    rcases h.thread_cases ht' with ⟨-, rfl⟩ | ⟨hne, o, ho, rfl⟩
    · rw [observe_pc] at hholds
      rw [observe_call, ClhtThread.goTo, h.bins_self]
      exact h.locked_self hi ht hholds
    · rw [observe_pc] at hholds
      rw [observe_call]
      exact h.locked_other hi ht ho hne hholds
  alone t₁ t₂ th₁ th₂ ht₁ ht₂ hbin hholds₁ hholds₂ := by
    rw [h.bin_eq, h.bin_eq] at hbin
    rcases h.thread_cases ht₁ with ⟨heq₁, rfl⟩ | ⟨hne₁, o₁, ho₁, rfl⟩ <;>
    rcases h.thread_cases ht₂ with ⟨heq₂, rfl⟩ | ⟨hne₂, o₂, ho₂, rfl⟩ <;>
    simp only [observe_call, observe_pc] at hbin hholds₁ hholds₂
    · exact heq₁.trans heq₂.symm
    · exact absurd (h.alone_other hi ht ho₂ hbin.symm hholds₁ hholds₂) hne₂
    · exact absurd (h.alone_other hi ht ho₁ hbin hholds₂ hholds₁) hne₁
    · exact hi.alone t₁ t₂ o₁ o₂ ho₁ ho₂ hbin hholds₁ hholds₂
  known t' th' ht' hkey := by
    rcases h.thread_cases ht' with ⟨-, rfl⟩ | ⟨hne, o, ho, rfl⟩
    · rw [observe_call] at hkey
      rw [slotsOf_observe, observe_call, observe_pc, observe_effect]
      exact h.known_self hi ht hkey
    · rw [observe_call] at hkey
      rw [slotsOf_observe, observe_call, observe_pc, observe_effect]
      exact h.known_other hi ht hspared ho hkey
  current t' th' ht' hidle := by
    have hseen : ∀ o : ClhtThread, ClhtThread.isIdle (some (s'.observe o)) = false →
        s'.content (s'.observe o).call.key ∈ (s'.observe o).seen := by
      intro o hidle
      have hidle' : ClhtThread.isIdle (some o) = false := by
        simpa only [ClhtThread.isIdle, observe_pc] using hidle
      rw [observe_of_not_idle hidle']
      exact List.mem_cons_self
    rcases h.thread_cases ht' with ⟨-, rfl⟩ | ⟨-, o, -, rfl⟩
    · exact hseen _ hidle
    · exact hseen _ hidle

theorem again_self {i : ℕ} {val : UInt64} (h : Ran s s' t th (.getAgain i val) b) :
    ∃ w, (s'.slotsOf th)[i]? = some (th.call.key, w) := by
  obtain ⟨uninit, threshold, n, n', hm⟩ := h.move
  rw [h.slotsOf_self]
  exact move_again hm

end Ran

theorem inv_create (hash : ℕ) : Inv (create hash) where
  distinct i j k p q hp hq hpq hne := by
    have hp0 : p.1 = 0 := by
      have := List.mem_of_getElem? hp
      simp only [create, List.mem_cons, List.not_mem_nil, or_false, or_self] at this
      rw [this]
    exact absurd hp0 hne
  placed t th ht := by cases ht
  locked t th ht := by cases ht
  alone t t' th th' ht := by cases ht
  known t th ht := by cases ht
  current t th ht := by cases ht

/-- What a call knows when it begins. -/
theorem known_entry (s : ClhtShared) (c : ClhtCall) :
    Known (s.bins (s.bin c.key)).slots c [s.content c.key] none c.entry := by
  have hahead : Ahead (s.bins (s.bin c.key)).slots [s.content c.key] c.key 0 := by
    by_cases habs : Absent (s.bins (s.bin c.key)).slots c.key
    · refine .inl ?_
      rw [content, lookupSlots_eq_none.mpr habs]
      exact List.mem_cons_self
    · simp only [Absent, not_forall, not_not] at habs
      obtain ⟨i, p, hp, hpk⟩ := habs
      exact .inr ⟨i, p, Nat.zero_le i, hp, hpk⟩
  cases c with
  | get key => exact ⟨rfl, hahead⟩
  | put key val => exact ⟨rfl, hahead⟩
  | remove key => exact ⟨rfl, hahead⟩

theorem inv_call (hi : Inv s) (h : s.step (.call t c) = .ok s') : Inv s' := by
  obtain ⟨-, rfl⟩ := called_of_step h
  have hcases : ∀ {t' th'}, Function.update s.threads t (some ⟨c, c.entry, [s.content c.key], none⟩) t' =
      some th' → (t' = t ∧ th' = ⟨c, c.entry, [s.content c.key], none⟩) ∨ s.threads t' = some th' := by
    intro t' th' ht'
    by_cases htt : t' = t
    · subst htt
      rw [Function.update_self] at ht'
      exact .inl ⟨rfl, (Option.some.inj ht').symm⟩
    · rw [Function.update_of_ne htt] at ht'
      exact .inr ht'
  have hentry : c.entry.holds = false := by cases c <;> rfl
  refine ⟨hi.distinct, fun t' th' ht' => ?_, fun t' th' ht' hholds => ?_,
    fun t₁ t₂ th₁ th₂ ht₁ ht₂ hbin hholds₁ hholds₂ => ?_, fun t' th' ht' hkey => ?_,
    fun t' th' ht' hidle => ?_⟩
  · rcases hcases ht' with ⟨-, rfl⟩ | ho
    · cases c <;> trivial
    · exact hi.placed t' th' ho
  · rcases hcases ht' with ⟨-, rfl⟩ | ho
    · rw [hentry] at hholds
      cases hholds
    · exact hi.locked t' th' ho hholds
  · rcases hcases ht₁ with ⟨-, rfl⟩ | ho₁
    · rw [hentry] at hholds₁
      cases hholds₁
    · rcases hcases ht₂ with ⟨-, rfl⟩ | ho₂
      · rw [hentry] at hholds₂
        cases hholds₂
      · exact hi.alone t₁ t₂ th₁ th₂ ho₁ ho₂ hbin hholds₁ hholds₂
  · rcases hcases ht' with ⟨-, rfl⟩ | ho
    · exact known_entry s c
    · exact hi.known t' th' ho hkey
  · rcases hcases ht' with ⟨-, rfl⟩ | ho
    · exact List.mem_cons_self
    · exact hi.current t' th' ho hidle

theorem inv_step (hi : Inv s) (hspared : Spared s a) (h : s.step a = .ok s') : Inv s' := by
  cases a with
  | call t c => exact inv_call hi h
  | run t uninit =>
    obtain ⟨th, pc, b, ht, hran⟩ := ran_of_step h
    exact hran.inv hi ht hspared

/-! ## Whole runs -/

variable {C : ClhtShared → ClhtAct → Prop} {as : List ClhtAct} {u v w : ClhtShared}

/-- A moment of a thread in a run: a state the run passes, or a step of the thread. -/
inductive Moment (C : ClhtShared → ClhtAct → Prop) (t : ℕ) (s : ClhtShared) (as : List ClhtAct)
    (u : ClhtShared) : ClhtShared → ClhtShared → Prop
  /-- a state -/
  | state {as₁ as₂ : List ClhtAct} {v : ClhtShared} (has : as = as₁ ++ as₂) (h₁ : Run step C s as₁ v)
      (h₂ : Run step C v as₂ u) : Moment C t s as u v v
  /-- a step -/
  | own {as₁ as₂ : List ClhtAct} {uninit : UInt64 × UInt64} {v w : ClhtShared}
      (has : as = as₁ ++ .run t uninit :: as₂) (h₁ : Run step C s as₁ v)
      (hst : v.step (.run t uninit) = .ok w) (h₂ : Run step C w as₂ u) : Moment C t s as u v w

theorem Moment.cons (hC : C s a) (hst : s.step a = .ok s') (h : Moment C t s' as u v w) :
    Moment C t s (a :: as) u v w := by
  cases h with
  | state has h₁ h₂ => exact .state (by rw [has]; rfl) (.cons hC hst h₁) h₂
  | own has h₁ hst' h₂ => exact .own (by rw [has]; rfl) (.cons hC hst h₁) hst' h₂

theorem thread_of_call (h : s.step (.call t c) = .ok s') :
    s'.threads t = some ⟨c, c.entry, [s'.content c.key], none⟩ := by
  obtain ⟨-, rfl⟩ := called_of_step h
  exact Function.update_self t _ _

/-- A thread after a step that is not its call: what it has seen and what it has changed. -/
theorem thread_of_step (hst : s.step a = .ok s') (hcalls : ∀ c, a ≠ .call t c)
    (ht : s.threads t = some th) : ∃ o, s'.threads t = some o ∧ o.call = th.call ∧
      (∀ x ∈ o.seen, x ∈ th.seen ∨ s'.content th.call.key = x) ∧ (o.effect = th.effect ∨
        ∃ uninit, a = .run t uninit ∧
          o.effect = some (s.content th.call.key, s'.content th.call.key)) := by
  have hsee : ∀ (o : ClhtThread) (x : Option UInt64), o.call = th.call →
      x ∈ (s'.observe o).seen → x ∈ o.seen ∨ s'.content th.call.key = x := by
    intro o x ho hx
    cases hidle : ClhtThread.isIdle (some o) with
    | true =>
      rw [observe_of_idle hidle] at hx
      exact .inl hx
    | false =>
      rw [observe_of_not_idle hidle, ho] at hx
      exact (List.mem_cons.mp hx).symm.imp_right Eq.symm
  cases a with
  | call t' c =>
    obtain ⟨-, rfl⟩ := called_of_step hst
    have hne : t ≠ t' := by
      rintro rfl
      exact hcalls c rfl
    exact ⟨th, (Function.update_of_ne hne _ _).trans ht, rfl, fun x hx => .inl hx, .inl rfl⟩
  | run t' uninit =>
    obtain ⟨o, pc, b, ho, hran⟩ := ran_of_step hst
    by_cases htt : t = t'
    · subst htt
      obtain rfl := Option.some.inj (ht.symm.trans ho)
      refine ⟨_, hran.self, by rw [observe_call]; rfl, fun x hx => ?_, ?_⟩
      · exact hsee (th.goTo pc (s.content th.call.key) (s'.content th.call.key)) x rfl hx
      rw [observe_effect, ClhtThread.goTo, changeOf]
      split
      · exact .inl rfl
      · exact .inr ⟨uninit, rfl, rfl⟩
    · exact ⟨s'.observe th, by rw [hran.others t htt, ht]; rfl, observe_call,
        fun x hx => hsee th x rfl hx, .inl observe_effect⟩

/-- A thread after a run in which it does not call: what it has seen and what it has changed is what it
was, or of a moment since. -/
theorem thread_of_run (h : Run step C s as u) (hcalls : ∀ c, .call t c ∉ as)
    (ht : s.threads t = some th) : ∃ th', u.threads t = some th' ∧ th'.call = th.call ∧
      (∀ x ∈ th'.seen, x ∈ th.seen ∨ ∃ v, Moment C t s as u v v ∧ v.content th.call.key = x) ∧
      (th'.effect = th.effect ∨ ∃ v w, Moment C t s as u v w ∧
        th'.effect = some (v.content th.call.key, w.content th.call.key)) := by
  induction h generalizing th with
  | nil s => exact ⟨th, ht, rfl, fun x hx => .inl hx, .inl rfl⟩
  | @cons s s' u a as hC hst hrest ih =>
    have hhead : ∀ c, a ≠ .call t c := fun c ha => hcalls c (ha ▸ List.mem_cons_self)
    obtain ⟨o, ho, hcall, hseen, heffect⟩ := thread_of_step hst hhead ht
    obtain ⟨th', ht', hcall', hseen', heffect'⟩ :=
      ih (fun c hc => hcalls c (List.mem_cons_of_mem a hc)) ho
    rw [hcall] at hcall' hseen' heffect'
    refine ⟨th', ht', hcall', fun x hx => ?_, ?_⟩
    · rcases hseen' x hx with hx | ⟨v, hv, hx⟩
      · refine (hseen x hx).imp_right fun hx => ⟨s', ?_, hx⟩
        exact .state (show a :: as = [a] ++ as from rfl) (.single hC hst) hrest
      · exact .inr ⟨v, hv.cons hC hst, hx⟩
    · rcases heffect' with heq | ⟨v, w, hvw, heq⟩
      · rcases heffect with heq' | ⟨uninit, rfl, heq'⟩
        · exact .inl (heq.trans heq')
        · exact .inr ⟨s, s', .own (List.nil_append _).symm (.nil s) hst hrest, heq.trans heq'⟩
      · exact .inr ⟨v, w, hvw.cons hC hst, heq⟩

theorem inv_of_run {hash : ℕ} (h : Run step Spared (create hash) as s) : Inv s :=
  h.invariant (fun _ _ _ hi hspared hst => inv_step hi hspared hst) (inv_create hash)

/-! ### Runs without removals -/

/-- What holds besides where nothing is removed. -/
structure Kept (s : ClhtShared) : Prop where
  /-- the invariant -/
  inv : Inv s
  /-- no call removes -/
  calls : ∀ t th key, s.threads t = some th → th.call ≠ .remove key
  /-- the slot in which a `clht_get` has found its key has it -/
  again : ∀ t th i val, s.threads t = some th → th.call.key ≠ 0 → th.pc = .getAgain i val →
    ∃ w, (s.slotsOf th)[i]? = some (th.call.key, w)

/-- No `clht_put` stores a value or a key into a slot that a `clht_get` is to read again, having found
its key there. -/
def Apart (s : ClhtShared) : ClhtAct → Prop
  | .call _ _ => True
  | .run t _ => ∀ th key val e, s.threads t = some th → th.call = .put key val →
    th.pc = .storeVal e ∨ th.pc = .storeKey e →
    ∀ t' th' val', s.threads t' = some th' → th'.call.key ≠ 0 → s.bin th'.call.key = s.bin key →
      th'.pc ≠ .getAgain e val'

theorem Apart.spared {a : ClhtAct} (h : Apart s a) : Spared s a := by
  cases a with
  | call t c => trivial
  | run t uninit =>
    intro th key val e ht hcall hpc t' th' ht' hkey hbin
    exact h th key val e ht hcall (.inl hpc) t' th' val ht' hkey hbin

/-- A slot into which a `clht_put` stores has no key, and one that is read again has one. -/
theorem Kept.apart (h : Kept s) (a : ClhtAct) : Apart s a := by
  cases a with
  | call t c => trivial
  | run t uninit =>
    intro th key val e ht hcall hpc t' th' val' ht' hkey hbin hpc'
    have hempty : ∃ w, (s.slotsOf th)[e]? = some (0, w) := by
      have hplaced := h.inv.placed t th ht
      rcases hpc with hpc | hpc
      · rw [hpc] at hplaced
        exact hplaced.2
      · rw [hpc] at hplaced
        obtain ⟨-, -, w, -, hw⟩ := hplaced
        exact ⟨w, hw⟩
    obtain ⟨w, hw⟩ := hempty
    obtain ⟨w', hw'⟩ := h.again t' th' e val' ht' hkey hpc'
    rw [slotsOf, hcall, ClhtCall.key_put] at hw
    rw [slotsOf, hbin, hw] at hw'
    exact hkey (congrArg Prod.fst (Option.some.inj hw')).symm

theorem Kept.spared (h : Kept s) (a : ClhtAct) : Spared s a := (h.apart a).spared

theorem kept_step (hk : Kept s) (ha : ∀ t key, a ≠ .call t (.remove key)) (hst : s.step a = .ok s') :
    Kept s' := by
  refine ⟨inv_step hk.inv (hk.spared a) hst, fun t' th' key ht' => ?_,
    fun t' th' i val ht' hkey hpc' => ?_⟩
  · cases a with
    | call t c =>
      obtain ⟨-, rfl⟩ := called_of_step hst
      rcases eq_or_ne t' t with rfl | hne
      · obtain rfl := Option.some.inj ((Function.update_self t' _ _).symm.trans ht')
        rintro rfl
        exact ha t' key rfl
      · exact hk.calls t' th' key ((Function.update_of_ne hne _ _).symm.trans ht')
    | run t uninit =>
      obtain ⟨th, pc, b, ht, hran⟩ := ran_of_step hst
      rcases hran.thread_cases ht' with ⟨-, rfl⟩ | ⟨-, o, ho, rfl⟩
      · rw [observe_call]
        exact hk.calls t th key ht
      · rw [observe_call]
        exact hk.calls t' o key ho
  · cases a with
    | call t c =>
      obtain ⟨-, rfl⟩ := called_of_step hst
      rcases eq_or_ne t' t with rfl | hne
      · obtain rfl := Option.some.inj ((Function.update_self t' _ _).symm.trans ht')
        cases c <;> cases hpc'
      · exact hk.again t' th' i val ((Function.update_of_ne hne _ _).symm.trans ht') hkey hpc'
    | run t uninit =>
      obtain ⟨th, pc, b, ht, hran⟩ := ran_of_step hst
      rcases hran.thread_cases ht' with ⟨-, rfl⟩ | ⟨-, o, ho, rfl⟩
      · rw [observe_pc] at hpc'
        obtain rfl : pc = .getAgain i val := hpc'
        rw [slotsOf_observe, observe_call]
        exact hran.again_self
      · rw [observe_pc] at hpc'
        rw [observe_call] at hkey
        rw [slotsOf_observe, observe_call]
        obtain ⟨w, hw⟩ := hk.again t' o i val ho hkey hpc'
        exact ⟨w, (hran.slotChange hk.inv ht o).stays hw hkey (hk.calls t th _ ht)⟩

theorem kept_create (hash : ℕ) : Kept (create hash) where
  inv := inv_create hash
  calls t th key ht := by cases ht
  again t th i val ht := by cases ht

/-- No `clht_remove` is called. -/
def Removeless (as : List ClhtAct) : Prop := ∀ t key, .call t (.remove key) ∉ as

theorem Kept.of_run (hk : Kept s) (has : Removeless as) (h : Run step C s as u) : Kept u := by
  refine h.mem.invariant (fun s a s' hk ha hst => kept_step hk (fun t key hc => ?_) hst) hk
  exact has t key (hc ▸ ha.2)

theorem Kept.spared_run (hk : Kept s) (has : Removeless as) (h : Run step C s as u) :
    Run step Spared s as u := by
  refine (h.mem.with_invariant (fun s a s' hk ha hst => kept_step hk (fun t key hc => ?_) hst) hk).mono
    fun s a hs => hs.2.spared a
  exact has t key (hc ▸ ha.2)

/-- A thread takes some steps. -/
def steps (t n : ℕ) : List ClhtAct := List.replicate n (.run t (0, 0))

theorem removeless_append {bs : List ClhtAct} (has : Removeless as) (hbs : Removeless bs) :
    Removeless (as ++ bs) := fun t key h => (List.mem_append.mp h).elim (has t key) (hbs t key)

theorem removeless_steps (t n : ℕ) : Removeless (steps t n) := by
  intro t' key h
  cases List.eq_of_mem_replicate h

/-- **Where nothing is removed, no slot is stored into that a `clht_get` is to read again**, in whatever
order the threads go: every step is spared. -/
theorem apart_of_removeless {hash : ℕ} (has : Removeless as) (h : Run step C (create hash) as s) :
    Run step (fun s a => Apart s a ∧ Spared s a) (create hash) as s := by
  refine (h.mem.with_invariant (fun s a s' hk ha hst => kept_step hk (fun t key hc => ?_) hst)
    (kept_create hash)).mono fun s a hs => ⟨hs.2.apart a, hs.2.spared a⟩
  exact has t key (hc ▸ ha.2)

/-- A `clht_put` goes on to its `*empty_v = val` while a `clht_get` has read `val` of that slot once and
has not yet compared the key. -/
theorem apart_put_get : ∃ s th, Run step (fun s a => Apart s a ∧ Spared s a) (create 0)
    (.call 0 (.put 5 9) :: .call 1 (.get 5) :: (steps 0 9 ++ steps 1 1)) s ∧
    s.threads 0 = some th ∧ th.pc = .storeVal 0 := by
  obtain ⟨s, hfold, hpc⟩ := exists_of_foldlM step (fun u => (u.threads 0).map ClhtThread.pc) (create 0)
    (.call 0 (.put 5 9) :: .call 1 (.get 5) :: (steps 0 9 ++ steps 1 1)) (some (.storeVal 0))
    (by decide +kernel)
  obtain ⟨th, ht, hpc⟩ := Option.map_eq_some_iff.mp hpc
  refine ⟨s, th, apart_of_removeless ?_ (Run.of_foldlM hfold), ht, hpc⟩
  have hcalls : Removeless [.call 0 (.put 5 9), .call 1 (.get 5)] := fun t key h => by simp at h
  exact removeless_append hcalls (removeless_append (removeless_steps 0 9) (removeless_steps 1 1))

/-! ### The calls as operations -/

/-- **Every call is one atomic operation on the map.** At a moment between the call and its return, what
it returns and what it makes of its key is what the operation does there. -/
theorem call_takes_effect {hash : ℕ} {bs : List ClhtAct} {s₀ s₁ s₂ : ClhtShared} {ret : UInt64}
    (h₀ : Run step Spared (create hash) as s₀) (hcall : s₀.step (.call t c) = .ok s₁)
    (h : Run step Spared s₁ bs s₂) (hcalls : ∀ c', .call t c' ∉ bs) (ht : s₂.threads t = some th)
    (hret : th.pc = .returned ret) (hkey : c.key ≠ 0) :
    ∃ v w, Moment Spared t s₁ bs s₂ v w ∧ c.spec (v.content c.key) = (ret, w.content c.key) := by
  have hi₁ : Inv s₁ := inv_call (inv_of_run h₀) hcall
  have hi₂ : Inv s₂ := h.invariant (fun _ _ _ hi hspared hst => inv_step hi hspared hst) hi₁
  obtain ⟨th', ht', hcall', hseen, heffect⟩ := thread_of_run h hcalls (thread_of_call hcall)
  obtain rfl := Option.some.inj (ht.symm.trans ht')
  have hknown := hi₂.known t th ht (hcall' ▸ hkey)
  rw [hret, hcall'] at hknown
  rcases hknown.spec with ⟨y, z, hyz, hspec⟩ | ⟨-, x, hx, hspec⟩
  · rcases heffect with hnone | ⟨v, w, hvw, heq⟩
    · rw [hnone] at hyz
      cases hyz
    · obtain ⟨rfl, rfl⟩ := Prod.mk.inj (Option.some.inj (heq.symm.trans hyz))
      exact ⟨v, w, hvw, hspec⟩
  -- what it has seen is of a moment since, or of the one at which it began
  · rcases hseen x hx with hx | ⟨v, hv, rfl⟩
    · refine ⟨s₁, s₁, .state (List.nil_append bs).symm (.nil s₁) h, ?_⟩
      rw [← List.mem_singleton.mp hx, hspec]
    · exact ⟨v, v, hv, hspec⟩

/-- A `clht_put` beside a `clht_get` of the same key. -/
theorem put_takes_effect : ∃ s₀ s₁ s₂ v w : ClhtShared, s₀.step (.call 0 (.put 5 9)) = .ok s₁ ∧
    Moment Spared 0 s₁ (steps 0 2 ++ steps 1 2 ++ steps 0 10) s₂ v w ∧
    (ClhtCall.put 5 9).spec (v.content 5) = (1, w.content 5) := by
  obtain ⟨s₀, h₀, -⟩ := exists_of_foldlM step (fun _ => ()) (create 0) [.call 1 (.get 5)] () rfl
  have hkept₀ := (kept_create 0).of_run (fun t key h => by simp at h) (Run.of_foldlM h₀)
  obtain ⟨s₂, hfold, hpc⟩ := exists_of_foldlM step (fun u => (u.threads 0).map ClhtThread.pc) (create 0)
    ([.call 1 (.get 5)] ++ .call 0 (.put 5 9) :: (steps 0 2 ++ steps 1 2 ++ steps 0 10))
    (some (.returned 1)) (by decide +kernel)
  obtain ⟨th, ht, hret⟩ := Option.map_eq_some_iff.mp hpc
  rw [List.foldlM_append, h₀, ok_bind, List.foldlM_cons] at hfold
  obtain ⟨s₁, hcall, hfold⟩ := bind_eq_ok hfold
  have hkept₁ : Kept s₁ := kept_step hkept₀ (fun t key h => by simp at h) hcall
  have hless : Removeless (steps 0 2 ++ steps 1 2 ++ steps 0 10) := removeless_append
    (removeless_append (removeless_steps 0 2) (removeless_steps 1 2)) (removeless_steps 0 10)
  obtain ⟨v, w, hvw, hspec⟩ := call_takes_effect
    ((kept_create 0).spared_run (fun t key h => by simp at h) (Run.of_foldlM h₀)) hcall
    (hkept₁.spared_run hless (Run.of_foldlM hfold)) (fun c h => by simp [steps] at h) ht hret
    (by decide)
  exact ⟨s₀, s₁, s₂, v, w, hcall, hvw, hspec⟩

/-- **The map changes by such operations only.** A step that changes what a key is mapped to is one of a
call for the key that has changed nothing before, and it changes it as the operation does. -/
theorem content_changes {hash : ℕ} {k : UInt64} (h : Run step Spared (create hash) as s)
    (hspared : Spared s a) (hst : s.step a = .ok s') (hk : k ≠ 0) (hne : s'.content k ≠ s.content k) :
    ∃ t uninit th ret, a = .run t uninit ∧ s.threads t = some th ∧ th.call.key = k ∧
      th.effect = none ∧ th.call.spec (s.content k) = (ret, s'.content k) := by
  have hi := inv_of_run h
  cases a with
  | call t c =>
    obtain ⟨-, rfl⟩ := called_of_step hst
    exact absurd rfl hne
  | run t uninit =>
    obtain ⟨th, pc, b, ht, hran⟩ := ran_of_step hst
    have hmoved := hran.moved hi ht
    -- the bin is the one of the key, and its slots change
    have hbin : s.bin k = s.bin th.call.key := by
      by_contra hbin
      rw [content, hran.bin_eq, hran.bins_ne hbin, content] at hne
      exact hne rfl
    have hafter : s'.content k = lookupSlots b.slots k := by
      rw [content, hran.bin_eq, hbin, hran.bins_self]
    have hbefore : s.content k = lookupSlots (s.bins (s.bin th.call.key)).slots k := by
      rw [content, hbin]
    have hkey : th.call.key = k := by
      by_contra hkey
      rw [hafter, hbefore] at hne
      exact hne (hmoved.change.lookup_other (hi.distinct _) hk (Ne.symm hkey))
    subst hkey
    have hopen : th.pc.isOpen = true := by
      cases hmoved.lock with
      | outside _ _ hb => exact absurd (by rw [hafter, hbefore, hb]) hne
      | take _ _ _ hb' => exact absurd (by rw [hafter, hbefore, hb']) hne
      | inside _ _ _ hopen => exact hopen
      | release _ _ hb => exact absurd (by rw [hafter, hbefore, hb]) hne
    have hknown := hi.known t th ht hk
    have hnone : th.effect = none := by
      cases hpc : th.pc with
      | getVal | getKey | getAgain | probe =>
        rw [hpc] at hknown
        exact hknown.1
      | release | status | returned => simp [hpc, ClhtPc.isOpen] at hopen
      | _ =>
        rw [hpc] at hknown
        exact hknown
    have hlater := hran.known_self hi ht hk
    rw [hnone, changeOf, if_neg (Ne.symm hne)] at hlater
    obtain ⟨ret, hret⟩ := hlater.explained
    rcases hret.spec with ⟨y, z, hyz, hspec⟩ | ⟨heff, -⟩
    · obtain ⟨rfl, rfl⟩ := Prod.mk.inj (Option.some.inj hyz)
      exact ⟨t, uninit, th, ret, rfl, ht, rfl, hnone, hspec⟩
    · cases heff

/-- `*empty = key` of a `clht_put`. -/
theorem put_changes : ∃ s s' : ClhtShared, s.step (.run 0 (0, 0)) = .ok s' ∧ ∃ th ret, s.threads 0 = some th ∧
    th.call.key = 5 ∧ th.effect = none ∧ th.call.spec (s.content 5) = (ret, s'.content 5) := by
  obtain ⟨s, h, hbefore⟩ := exists_of_foldlM step (fun u => u.content 5) (create 0)
    (.call 0 (.put 5 9) :: steps 0 10) none (by decide +kernel)
  obtain ⟨s', h', hafter⟩ := exists_of_foldlM step (fun u => u.content 5) (create 0)
    (.call 0 (.put 5 9) :: steps 0 10 ++ [.run 0 (0, 0)]) (some 9) (by decide +kernel)
  rw [List.foldlM_append, h, ok_bind, List.foldlM_cons] at h'
  obtain ⟨_, hst, hnil⟩ := bind_eq_ok h'
  obtain rfl := Except.ok.inj hnil
  have hcall : Removeless [.call 0 (.put 5 9)] := fun t key h => by simp at h
  have hless : Removeless (.call 0 (.put 5 9) :: steps 0 10) :=
    removeless_append hcall (removeless_steps 0 10)
  have hkept := (kept_create 0).of_run hless (Run.of_foldlM h)
  obtain ⟨t, uninit, th, ret, ha, hrest⟩ := content_changes
    ((kept_create 0).spared_run hless (Run.of_foldlM h)) (hkept.spared _) hst
    (show (5 : UInt64) ≠ 0 by decide) (by rw [hbefore, hafter]; decide)
  obtain ⟨rfl, -⟩ : 0 = t ∧ (0, 0) = uninit := by simpa using ha
  exact ⟨s, _, hst, th, ret, hrest⟩

end ClhtShared

end NaliStore
