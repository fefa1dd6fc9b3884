import NaliStore.Index

/-!
# The trees under the store

The three adapters of `src/include/db_interface.h` that `logdb` can be built on. `logdb` calls
them through the interface `Tree`, and relies on what its methods return: `insert` is true
when the key is new, `update` is true and hands back the old value when the key is there,
`erase` is true when it has removed something. The trees `alexol::Alex` and `btreeolc::BTree`
are taken to be correct maps; `Nali` is the learned index.

`alexoldb` meets the contract. `btreeolcdb` inserts whatever the key, never writes the old
value and erases nothing. `nalidb` returns the status of `Put` as a `bool`, and the status for
success is 0.
-/

namespace NaliStore

open Runs

/-- A finite map of keys to values. -/
abbrev KVMap := UInt64 → Option UInt64

/-- The interface `Tree`. What a method gets through a pointer or a reference it gets as an
argument and returns. -/
structure Tree where
  /-- the states of the tree -/
  State : Type
  /-- the map a state holds -/
  Holds : State → KVMap → Prop
  /-- `insert(key, payload)` -/
  insert : State → UInt64 → UInt64 → Except Fault (Bool × State)
  /-- `update(key, payload, &log_offset)` -/
  update : State → UInt64 → UInt64 → UInt64 → Except Fault (Bool × UInt64 × State)
  /-- `erase(key, &log_offset)` -/
  erase : State → UInt64 → UInt64 → Except Fault (Bool × UInt64 × State)
  /-- `search(key, payload)` -/
  search : State → UInt64 → UInt64 → Except Fault (Bool × UInt64)

/-- A call of a method. -/
inductive TreeCall where
  | insert (key payload : UInt64)
  | update (key payload logOffset : UInt64)
  | erase (key logOffset : UInt64)
  | search (key payload : UInt64)

/-- **The contract** that `logdb` relies on, for one call in a state that holds `M`. -/
def Tree.Meets (t : Tree) (s : t.State) (M : KVMap) : TreeCall → Prop
  | .insert k v => ∃ ret s', t.insert s k v = .ok (ret, s') ∧ (ret = true ↔ M k = none) ∧
      t.Holds s' (if M k = none then Function.update M k (some v) else M)
  | .update k v o => ∃ ret old s', t.update s k v o = .ok (ret, old, s') ∧
      (ret = true ↔ M k ≠ none) ∧ (∀ w, M k = some w → old = w) ∧
      t.Holds s' (if M k = none then M else Function.update M k (some v))
  | .erase k o => ∃ ret old s', t.erase s k o = .ok (ret, old, s') ∧ (ret = true ↔ M k ≠ none) ∧
      t.Holds s' (Function.update M k none)
  | .search k p => ∃ ret payload, t.search s k p = .ok (ret, payload) ∧
      (ret = true ↔ M k ≠ none) ∧ ∀ w, M k = some w → payload = w

/-! ## The trees of others -/

/-- `alexol::Alex`, a correct map. -/
structure Alex where
  /-- its states -/
  State : Type
  /-- the map a state holds -/
  map : State → KVMap
  /-- `insert(key, payload)` -/
  insert : State → UInt64 → UInt64 → Bool × State
  /-- `get_payload(key, &payload)`: the payload, when it returns true -/
  getPayload : State → UInt64 → Option UInt64
  /-- `erase(key, log_offset)`: the number of keys erased -/
  erase : State → UInt64 → UInt64 → ℤ × UInt64 × State
  /-- `update(key, payload, log_offset)` -/
  update : State → UInt64 → UInt64 → UInt64 → Bool × UInt64 × State
  /-- `insert` rejects a present key -/
  insert_spec : ∀ s k v, ((insert s k v).1 = true ↔ map s k = none) ∧
    map (insert s k v).2 = if map s k = none then Function.update (map s) k (some v) else map s
  /-- `get_payload` reads the map -/
  getPayload_spec : ∀ s k, getPayload s k = map s k
  /-- `erase` removes the key -/
  erase_spec : ∀ s k o, (0 < (erase s k o).1 ↔ map s k ≠ none) ∧
    map (erase s k o).2.2 = Function.update (map s) k none
  /-- `update` replaces the payload of a present key and returns the old one -/
  update_spec : ∀ s k v o, ((update s k v o).1 = true ↔ map s k ≠ none) ∧
    (∀ w, map s k = some w → (update s k v o).2.1 = w) ∧
    map (update s k v o).2.2 =
      if map s k = none then map s else Function.update (map s) k (some v)

/-- `btreeolc::BTree`, a correct map. -/
structure BTree where
  /-- its states -/
  State : Type
  /-- the map a state holds -/
  map : State → KVMap
  /-- `insert(key, payload)` -/
  insert : State → UInt64 → UInt64 → State
  /-- `lookup(key, payload)`: the payload, when it returns true -/
  lookup : State → UInt64 → Option UInt64
  /-- `insert` inserts or replaces -/
  insert_spec : ∀ s k v, map (insert s k v) = Function.update (map s) k (some v)
  /-- `lookup` reads the map -/
  lookup_spec : ∀ s k, lookup s k = map s k

/-! ## The adapters -/

/-- `alexoldb` -/
def alexoldb (alex : Alex) : Tree where
  State := alex.State
  Holds s M := alex.map s = M
  insert s key payload := .ok (alex.insert s key payload)
  update s key payload logOffset := .ok (alex.update s key payload logOffset)
  erase s key logOffset :=
    let (num, logOffset, s) := alex.erase s key logOffset
    if num > 0 then .ok (true, logOffset, s) else .ok (false, logOffset, s)
  search s key payload :=
    let found := alex.getPayload s key
    .ok (found.isSome, found.getD payload)

/-- `btreeolcdb` -/
def btreeolcdb (btree : BTree) : Tree where
  State := btree.State
  Holds s M := btree.map s = M
  insert s key payload := .ok (true, btree.insert s key payload)
  update s key payload logOffset := .ok (true, logOffset, btree.insert s key payload)
  erase s _ logOffset := .ok (false, logOffset, s)
  search s key payload :=
    let found := btree.lookup s key
    .ok (found.isSome, found.getD payload)

/-- `nalidb` -/
def nalidb (models : Models) : Tree where
  State := Nali
  Holds := Nali.Holds
  insert s key payload := do
    let (ret, s) ← s.put models key payload
    .ok (ret.toBool, s)
  update s key payload logOffset := do
    let (old, s) ← s.update key payload
    .ok (old.isSome, old.getD logOffset, s)
  erase s key logOffset := do
    let (old, s) ← s.delete key
    .ok (old.isSome, old.getD logOffset, s)
  search s key payload := do
    let found ← s.get key
    .ok (found.isSome, found.getD payload)

/-- The adapters that `logdb` can be built on. -/
inductive Adapter where
  | alexoldb
  | btreeolcdb
  | nalidb

namespace Adapter

/-- The tree of an adapter. -/
def tree (alex : Alex) (btree : BTree) (models : Models) : Adapter → Tree
  | alexoldb => NaliStore.alexoldb alex
  | btreeolcdb => NaliStore.btreeolcdb btree
  | nalidb => NaliStore.nalidb models

/-- When a call meets the contract in a state that holds `M`. -/
def MeetsWhen : Adapter → KVMap → TreeCall → Prop
  | alexoldb, _, _ => True
  | btreeolcdb, M, .insert k _ => M k = none
  | btreeolcdb, M, .update k _ o => M k = some o
  | btreeolcdb, M, .erase k _ => M k = none
  | btreeolcdb, _, .search _ _ => True
  | nalidb, _, .insert _ _ => False
  | nalidb, _, _ => True

end Adapter

/-! ## Which calls meet the contract -/

variable {M : KVMap} {k v o p : UInt64}

theorem getD_of_eq {x : Option UInt64} {w : UInt64} (h : x = some w) (d : UInt64) :
    x.getD d = w := by
  rw [h, Option.getD_some]

/-- **`alexoldb` meets the contract.** -/
theorem alexoldb_meets (alex : Alex) (s : alex.State) (c : TreeCall) :
    (alexoldb alex).Meets s (alex.map s) c := by
  cases c with
  | insert k v =>
    obtain ⟨hret, hmap⟩ := alex.insert_spec s k v
    exact ⟨_, _, rfl, hret, hmap⟩
  | update k v o =>
    obtain ⟨hret, hold, hmap⟩ := alex.update_spec s k v o
    exact ⟨_, _, _, rfl, hret, hold, hmap⟩
  | erase k o =>
    obtain ⟨hret, hmap⟩ := alex.erase_spec s k o
    by_cases hpos : (alex.erase s k o).1 > 0
    · exact ⟨true, _, _, if_pos hpos, ⟨fun _ => hret.mp hpos, fun _ => rfl⟩, hmap⟩
    · exact ⟨false, _, _, if_neg hpos, ⟨fun h => (by cases h), fun h => absurd (hret.mpr h) hpos⟩,
        hmap⟩
  | search k p =>
    refine ⟨_, _, rfl, ?_, fun w hw => ?_⟩
    · rw [alex.getPayload_spec]
      exact Option.isSome_iff_ne_none
    · rw [alex.getPayload_spec]
      exact getD_of_eq hw p

/-- **`btreeolcdb`** meets the contract when it happens to do what the call asks for. -/
theorem btreeolcdb_meets_iff (btree : BTree) (s : btree.State) (c : TreeCall) :
    (btreeolcdb btree).Meets s (btree.map s) c ↔ Adapter.btreeolcdb.MeetsWhen (btree.map s) c := by
  cases c with
  | insert k v =>
    constructor
    · rintro ⟨ret, s', heq, hret, -⟩
      obtain ⟨rfl, -⟩ := Prod.mk.inj (Except.ok.inj heq)
      exact hret.mp rfl
    · intro (hk : btree.map s k = none)
      refine ⟨true, _, rfl, ⟨fun _ => hk, fun _ => rfl⟩, ?_⟩
      rw [if_pos hk]
      exact btree.insert_spec s k v
  | update k v o =>
    constructor
    · rintro ⟨ret, old, s', heq, hret, hold, -⟩
      obtain ⟨rfl, hrest⟩ := Prod.mk.inj (Except.ok.inj heq)
      obtain ⟨rfl, -⟩ := Prod.mk.inj hrest
      obtain ⟨w, hw⟩ := Option.ne_none_iff_exists'.mp (hret.mp rfl)
      rw [hold w hw]
      exact hw
    · intro (hk : btree.map s k = some o)
      have hne : btree.map s k ≠ none := by rw [hk]; exact Option.some_ne_none o
      refine ⟨true, o, _, rfl, ⟨fun _ => hne, fun _ => rfl⟩, fun w hw => ?_, ?_⟩
      · exact Option.some.inj (hk.symm.trans hw)
      · rw [if_neg hne]
        exact btree.insert_spec s k v
  | erase k o =>
    constructor
    · rintro ⟨ret, old, s', heq, hret, -⟩
      obtain ⟨rfl, -⟩ := Prod.mk.inj (Except.ok.inj heq)
      by_contra hne
      exact absurd (hret.mpr hne) Bool.false_ne_true
    · intro (hk : btree.map s k = none)
      refine ⟨false, o, s, rfl, ⟨fun h => (by cases h), fun h => absurd hk h⟩, ?_⟩
      rw [← hk, Function.update_eq_self]
      rfl
  | search k p =>
    refine ⟨fun _ => trivial, fun _ => ⟨_, _, rfl, ?_, fun w hw => ?_⟩⟩
    · rw [btree.lookup_spec]
      exact Option.isSome_iff_ne_none
    · rw [btree.lookup_spec]
      exact getD_of_eq hw p

/-- `insert` of `nalidb` returns false for a new key, and makes a second copy of a present one. -/
theorem nalidb_not_meets_insert (models : Models) {s : Nali} (hs : s.Holds M) (k v : UInt64) :
    ¬ (nalidb models).Meets s M (.insert k v) := by
  rintro ⟨ret, s', heq, hret, hholds⟩
  obtain ⟨s'', hput, hok⟩ := hs.inv.put_spec models k v
  have heq' : (nalidb models).insert s k v = .ok (false, s'') := by
    simp only [nalidb, hput, bind, Except.bind]
    rfl
  obtain ⟨rfl, rfl⟩ := Prod.mk.inj (Except.ok.inj (heq'.symm.trans heq))
  cases hk : M k with
  | none => exact absurd (hret.mpr hk) Bool.false_ne_true
  | some w => exact hok.not_unique ((hs.stored k w).mp hk) (Nali.Holds.exact hholds).unique

/-- **`nalidb`** meets the contract except with `insert`. -/
theorem nalidb_meets_iff (models : Models) {s : Nali} (hs : s.Holds M) (c : TreeCall) :
    (nalidb models).Meets s M c ↔ Adapter.nalidb.MeetsWhen M c := by
  cases c with
  | insert k v => exact ⟨fun h => nalidb_not_meets_insert models hs k v h, fun h => h.elim⟩
  | update k v o =>
    obtain ⟨s', hupdate, hs'⟩ := hs.update_spec k v
    refine ⟨fun _ => trivial, fun _ => ⟨(M k).isSome, (M k).getD o, s', ?_, Option.isSome_iff_ne_none,
      fun w hw => getD_of_eq hw o, hs'⟩⟩
    simp only [nalidb, hupdate, bind, Except.bind]
  | erase k o =>
    obtain ⟨s', hdelete, hs'⟩ := hs.delete_spec k
    refine ⟨fun _ => trivial, fun _ => ⟨(M k).isSome, (M k).getD o, s', ?_, Option.isSome_iff_ne_none, hs'⟩⟩
    simp only [nalidb, hdelete, bind, Except.bind]
  | search k p =>
    refine ⟨fun _ => trivial, fun _ => ⟨(M k).isSome, (M k).getD p, ?_, Option.isSome_iff_ne_none,
      fun w hw => getD_of_eq hw p⟩⟩
    simp only [nalidb, hs.get_eq, bind, Except.bind]

/-- **The adapters and the contract**: every call of `alexoldb` meets it, and which calls of
the other two do. -/
theorem meets_iff_meetsWhen (alex : Alex) (btree : BTree) (models : Models) (a : Adapter)
    (s : (a.tree alex btree models).State) (M : KVMap)
    (hs : (a.tree alex btree models).Holds s M) (c : TreeCall) :
    (a.tree alex btree models).Meets s M c ↔ a.MeetsWhen M c := by
  cases a with
  | alexoldb =>
    obtain rfl : alex.map s = M := hs
    exact ⟨fun _ => trivial, fun _ => alexoldb_meets alex s c⟩
  | btreeolcdb =>
    obtain rfl : btree.map s = M := hs
    exact btreeolcdb_meets_iff btree s c
  | nalidb => exact nalidb_meets_iff models hs c

/-- A map is a correct `alexol::Alex`. -/
def mapAlex : Alex where
  State := KVMap
  map s := s
  insert s k v := if s k = none then (true, Function.update s k (some v)) else (false, s)
  getPayload s k := s k
  erase s k o := (if s k = none then 0 else 1, (s k).getD o, Function.update s k none)
  update s k v o :=
    ((s k).isSome, (s k).getD o, if s k = none then s else Function.update s k (some v))
  insert_spec s k v := by
    split <;> rename_i hk <;> simp [hk]
  getPayload_spec _ _ := rfl
  erase_spec s k o := by
    refine ⟨?_, rfl⟩
    split <;> rename_i hk <;> simp [hk]
  update_spec s k v o := ⟨Option.isSome_iff_ne_none, fun w hw => getD_of_eq hw o, rfl⟩

/-- A map is a correct `btreeolc::BTree`. -/
def mapBTree : BTree where
  State := KVMap
  map s := s
  insert s k v := Function.update s k (some v)
  lookup s k := s k
  insert_spec _ _ _ := rfl
  lookup_spec _ _ := rfl

/-- The index after `Init`, and a B tree with the pair 5, 1. -/
theorem meets_iff_meetsWhen_update :
    ((Adapter.tree mapAlex mapBTree Nali.zeroModels .nalidb).Holds
        (Nali.init Nali.zeroModels (Nali.zeroModels.root []) Nali.zeroHeap 0) (fun _ => none) ∧
      (Adapter.tree mapAlex mapBTree Nali.zeroModels .nalidb).Meets
        (Nali.init Nali.zeroModels (Nali.zeroModels.root []) Nali.zeroHeap 0) (fun _ => none)
        (.update 5 2 0)) ∧
    (Adapter.tree mapAlex mapBTree Nali.zeroModels .btreeolcdb).Meets
      (Function.update (fun _ => none) 5 (some 1) : KVMap)
      (Function.update (fun _ => none) 5 (some 1)) (.update 5 2 1) := by
  have hinit := Nali.holds_init Nali.zeroModels (Nali.zeroModels.root []) Nali.zeroHeap 0
  refine ⟨⟨hinit, ?_⟩, ?_⟩
  · exact (meets_iff_meetsWhen mapAlex mapBTree Nali.zeroModels .nalidb _ _ hinit _).mpr trivial
  · exact (meets_iff_meetsWhen mapAlex mapBTree Nali.zeroModels .btreeolcdb _ _ rfl _).mpr rfl

/-- `nalidb` says of a new key that it has not been inserted, and `btreeolcdb` erases nothing
and does not hand back the old value. -/
theorem adapters_break_contract :
    ¬ (nalidb Nali.zeroModels).Meets
      (Nali.init Nali.zeroModels (Nali.zeroModels.root []) Nali.zeroHeap 0) (fun _ => none)
      (.insert 5 1) ∧
    ¬ (btreeolcdb mapBTree).Meets (Function.update (fun _ => none) 5 (some 1) : KVMap)
      (Function.update (fun _ => none) 5 (some 1)) (.erase 5 0) ∧
    ¬ (btreeolcdb mapBTree).Meets (Function.update (fun _ => none) 5 (some 1) : KVMap)
      (Function.update (fun _ => none) 5 (some 1)) (.update 5 2 0) := by
  have hinit := Nali.holds_init Nali.zeroModels (Nali.zeroModels.root []) Nali.zeroHeap 0
  refine ⟨nalidb_not_meets_insert Nali.zeroModels hinit 5 1, fun h => ?_, fun h => ?_⟩
  · have hk : Function.update (fun _ => none : KVMap) 5 (some 1) 5 = none :=
      (btreeolcdb_meets_iff mapBTree _ _).mp h
    rw [Function.update_self] at hk
    cases hk
  · have hk : Function.update (fun _ => none : KVMap) 5 (some 1) 5 = some 0 :=
      (btreeolcdb_meets_iff mapBTree _ _).mp h
    rw [Function.update_self] at hk
    exact absurd (Option.some.inj hk) (by decide)

end NaliStore
