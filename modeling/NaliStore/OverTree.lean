import NaliStore.Adapters
import NaliStore.Refine

/-!
# The store over an adapter

`logdb` with its index `db_` behind the interface `Tree`, as it is built: each operation calls the
methods of the tree and works with what they return. In `Logdb` the index is a finite map; here it is
one of the adapters of `src/include/db_interface.h`, for `nalidb` the learned index with its groups,
entries and buckets.

Each adapter allows some calls only (`Adapter.Allows`). For sequences of calls that it allows, the whole
store returns what a finite map returns, but for one thing: `insert` through `nalidb` says false.

The trees of others under `alexoldb` and `btreeolcdb` are taken for correct maps. `erase` of
`alexol::Alex` is not one: when it contracts a leaf below the root it deletes the node that `root_node_`
still points to. So no `erase` is allowed over `alexoldb`.
-/

namespace NaliStore

open Runs

variable {cfg : Config}

/-- `logdb` over a tree, without its cache. -/
structure TreeDb (cfg : Config) (t : Tree) where
  /-- `log_kv_` -/
  log : LogKV cfg
  /-- `db_` -/
  db : t.State

namespace TreeDb

variable {t : Tree}

/-- `logdb::insert` -/
def insert (s : TreeDb cfg t) (threadId : Fin 64) (key payload : UInt64) :
    Except Fault (Bool × TreeDb cfg t) := do
  let keyHash := cfg.xxh3 key
  let (logOffset, log) ← s.log.insert threadId key payload keyHash
  let (ret, db) ← t.insert s.db key logOffset
  pure (ret, ⟨log, db⟩)

/-- `logdb::search` below the cache: false is `none`. -/
def search (s : TreeDb cfg t) (key : UInt64) : Except Fault (Option UInt64) := do
  let keyHash := cfg.xxh3 key
  let (ret, addrInfo) ← t.search s.db key 0
  if ret then do
    let pmemAddr ← s.log.getAddr (.ofAddrInfo addrInfo) keyHash
    let payload ← s.log.readPayload pmemAddr
    pure (some payload)
  else pure none

/-- `logdb::erase`; `o_log_offset` is not initialised. -/
def erase (s : TreeDb cfg t) (threadId : Fin 64) (key : UInt64) :
    Except Fault (Bool × TreeDb cfg t) := do
  let keyHash := cfg.xxh3 key
  let (_, addrInfo) ← t.search s.db key 0
  let (ret, _, db) ← t.erase s.db key cfg.uninit
  let log ← s.log.erase threadId key keyHash addrInfo
  pure (ret, ⟨log, db⟩)

/-- `logdb::update`; `_log_offset` is not initialised. -/
def update (s : TreeDb cfg t) (threadId : Fin 64) (key payload : UInt64) :
    Except Fault (Bool × TreeDb cfg t) := do
  let keyHash := cfg.xxh3 key
  let p := PairT.ofKeyValue key payload
  let (logAddr, curLogAddr, p, log) ← s.log.updateStep1 threadId keyHash p
  let (ret, logOffset, db) ← t.update s.db key curLogAddr cfg.uninit
  if ret then do
    let log ← log.storePersist logAddr (p.setLastLogOffest logOffset)
    pure (true, ⟨log, db⟩)
  else pure (false, ⟨log, db⟩)

/-- The store over an empty directory. -/
def fresh (cfg : Config) (db : t.State) : TreeDb cfg t := ⟨LogKV.fresh cfg, db⟩

/-- One call on the store. -/
def step (s : TreeDb cfg t) (c : Call) : Except Fault (Ret × TreeDb cfg t) :=
  match c.op with
  | .insert k v => do
    let (ret, s) ← s.insert c.threadId k v
    pure (.bool ret, s)
  | .update k v => do
    let (ret, s) ← s.update c.threadId k v
    pure (.bool ret, s)
  | .erase k => do
    let (ret, s) ← s.erase c.threadId k
    pure (.bool ret, s)
  | .search k => do
    let ret ← s.search k
    pure (.found ret, s)

end TreeDb

/-! ## What a tree does for the store -/

/-- The calls that the store may make over an adapter when it holds a map. -/
def Adapter.Allows : Adapter → KVMap → Op → Prop
  | .alexoldb, _, .erase _ => False
  | .alexoldb, _, _ => True
  | .btreeolcdb, m, .insert k _ => m k = none
  | .btreeolcdb, m, .update k _ => m k ≠ none
  | .btreeolcdb, m, .erase k => m k = none
  | .btreeolcdb, _, .search _ => True
  | .nalidb, m, .insert k _ => m k = none
  | .nalidb, _, _ => True

/-- What the store returns over an adapter for what a map returns. -/
def Adapter.replies : Adapter → Op → Ret → Ret
  | .nalidb, .insert _ _, _ => .bool false
  | _, _, r => r

/-- A call on a map, with what the store over an adapter returns. -/
def Adapter.mapStep (a : Adapter) (m : KVMap) (c : Call) : Ret × KVMap :=
  (a.replies c.op (NaliStore.mapStep m c).1, (NaliStore.mapStep m c).2)

/-- Every call is allowed when its turn comes. -/
def Adapter.AllowsAll (a : Adapter) : KVMap → List Call → Prop
  | _, [] => True
  | m, c :: cs => a.Allows m c.op ∧ a.AllowsAll (a.mapStep m c).2 cs

/-- A method of the tree does what the store needs of it for a call: it works on the map, and its
boolean is right, or for `insert` what the adapter replies. The old value of `update` may be anything. -/
def Tree.Serves (t : Tree) (s : t.State) (M : KVMap) (replies : Op → Ret → Ret) : Op → Prop
  | .insert k v => ∀ w, ∃ ret s', t.insert s k w = .ok (ret, s') ∧
      replies (.insert k v) (.bool (M k).isNone) = .bool ret ∧ t.Holds s' (Index.insert M k w).2
  | .update k _ => ∀ w o, ∃ old s', t.update s k w o = .ok ((M k).isSome, old, s') ∧
      t.Holds s' (Index.update M k w).2
  | .erase k => ∀ o, ∃ old s', t.erase s k o = .ok ((M k).isSome, old, s') ∧
      t.Holds s' (Index.erase M k).2
  | .search _ => True

/-- A `search` of the tree reads the map. -/
def Tree.Reads (t : Tree) (s : t.State) (M : KVMap) : Prop :=
  ∀ k, t.search s k 0 = .ok ((M k).isSome, (M k).getD 0)

section Serves

variable {t : Tree} {s : t.State} {M : KVMap} {replies : Op → Ret → Ret} {k v : UInt64}

theorem bool_eq_isSome {ret : Bool} {x : Option UInt64} (h : ret = true ↔ x ≠ none) :
    ret = x.isSome := by
  cases x with
  | none => exact Bool.eq_false_iff.mpr fun hret => h.mp hret rfl
  | some w => exact h.mpr (Option.some_ne_none w)

theorem bool_eq_isNone {ret : Bool} {x : Option UInt64} (h : ret = true ↔ x = none) :
    ret = x.isNone := by
  cases x with
  | none => exact h.mpr rfl
  | some w => exact Bool.eq_false_iff.mpr fun hret => absurd (h.mp hret) (Option.some_ne_none w)

theorem Index.insert_eq (M : Index) (k w : UInt64) :
    (Index.insert M k w).2 = if M k = none then Function.update M k (some w) else M := by
  rw [Index.insert]
  cases M k <;> rfl

theorem Index.update_eq (M : Index) (k w : UInt64) :
    (Index.update M k w).2 = if M k = none then M else Function.update M k (some w) := by
  rw [Index.update]
  cases M k <;> rfl

/-- A call that meets the contract serves. -/
theorem Tree.serves_insert (h : ∀ w, t.Meets s M (.insert k w))
    (hreplies : replies (.insert k v) (.bool (M k).isNone) = .bool (M k).isNone) :
    t.Serves s M replies (.insert k v) := by
  intro w
  obtain ⟨ret, s', heq, hret, hholds⟩ := h w
  rw [Index.insert_eq]
  exact ⟨ret, s', heq, by rw [hreplies, bool_eq_isNone hret], hholds⟩

theorem Tree.serves_update (h : ∀ w o, t.Meets s M (.update k w o)) :
    t.Serves s M replies (.update k v) := by
  intro w o
  obtain ⟨ret, old, s', heq, hret, -, hholds⟩ := h w o
  rw [Index.update_eq]
  exact ⟨old, s', bool_eq_isSome hret ▸ heq, hholds⟩

theorem Tree.serves_erase (h : ∀ o, t.Meets s M (.erase k o)) : t.Serves s M replies (.erase k) := by
  intro o
  obtain ⟨ret, old, s', heq, hret, hholds⟩ := h o
  exact ⟨old, s', bool_eq_isSome hret ▸ heq, hholds⟩

end Serves

namespace Adapter

variable {alex : Alex} {btree : BTree} {models : Models} {M : KVMap}

theorem alexoldb_serves (s : alex.State) {op : Op} (h : alexoldb.Allows (alex.map s) op) :
    (alexoldb.tree alex btree models).Serves s (alex.map s) alexoldb.replies op := by
  cases op with
  | insert k v => exact Tree.serves_insert (fun w => alexoldb_meets alex s _) rfl
  | update k v => exact Tree.serves_update fun w o => alexoldb_meets alex s _
  | erase k => exact absurd h not_false
  | search k => trivial

theorem btreeolcdb_serves (s : btree.State) {op : Op} (h : btreeolcdb.Allows (btree.map s) op) :
    (btreeolcdb.tree alex btree models).Serves s (btree.map s) btreeolcdb.replies op := by
  cases op with
  | insert k v =>
    refine Tree.serves_insert (fun w => (btreeolcdb_meets_iff btree s _).mpr ?_) rfl
    exact h
  | update k v =>
    -- the old value is not handed back, whatever there was
    intro w o
    have hk : btree.map s k ≠ none := h
    rw [Index.update_eq, if_neg hk, Option.isSome_iff_ne_none.mpr hk]
    exact ⟨o, btree.insert s k w, rfl, btree.insert_spec s k w⟩
  | erase k =>
    refine Tree.serves_erase fun o => (btreeolcdb_meets_iff btree s _).mpr ?_
    exact h
  | search k => trivial

theorem nalidb_serves {s : Nali} (hs : s.Holds M) {op : Op} (h : nalidb.Allows M op) :
    (nalidb.tree alex btree models).Serves s M nalidb.replies op := by
  cases op with
  | insert k v =>
    intro w
    have hk : M k = none := h
    obtain ⟨s', hput, hs'⟩ := hs.put_spec hk models w
    rw [Index.insert_eq, if_pos hk]
    refine ⟨false, s', ?_, rfl, hs'⟩
    simp only [tree, NaliStore.nalidb, hput, bind, Except.bind]
    rfl
  | update k v => exact Tree.serves_update fun w o => (nalidb_meets_iff models hs _).mpr trivial
  | erase k => exact Tree.serves_erase fun o => (nalidb_meets_iff models hs _).mpr trivial
  | search k => trivial

/-- **Each adapter serves the calls it allows.** -/
theorem serves (a : Adapter) (s : (a.tree alex btree models).State)
    (hs : (a.tree alex btree models).Holds s M) {op : Op} (h : a.Allows M op) :
    (a.tree alex btree models).Serves s M a.replies op := by
  cases a with
  | alexoldb =>
    obtain rfl : alex.map s = M := hs
    exact alexoldb_serves s h
  | btreeolcdb =>
    obtain rfl : btree.map s = M := hs
    exact btreeolcdb_serves s h
  | nalidb => exact nalidb_serves hs h

/-- A search reads the map, over each adapter. -/
theorem reads (a : Adapter) (s : (a.tree alex btree models).State)
    (hs : (a.tree alex btree models).Holds s M) : (a.tree alex btree models).Reads s M := by
  intro k
  cases a with
  | alexoldb =>
    obtain rfl : alex.map s = M := hs
    have hget : alex.getPayload s k = alex.map s k := alex.getPayload_spec s k
    exact congrArg (fun x => Except.ok (x.isSome, x.getD 0)) hget
  | btreeolcdb =>
    obtain rfl : btree.map s = M := hs
    have hlookup : btree.lookup s k = btree.map s k := btree.lookup_spec s k
    exact congrArg (fun x => Except.ok (x.isSome, x.getD 0)) hlookup
  | nalidb =>
    have hget := Nali.Holds.get_eq hs k
    simp only [tree, NaliStore.nalidb, hget, bind, Except.bind]

/-- The allowed calls depend on which keys there are. -/
theorem Allows.congr {a : Adapter} {m : KVMap} {op : Op} (h : a.Allows m op)
    (hm : ∀ k, (M k).isSome = (m k).isSome) : a.Allows M op := by
  have hnone : ∀ k, M k = none ↔ m k = none := by
    intro k
    rw [← Option.isNone_iff_eq_none, ← Option.isNone_iff_eq_none, ← Option.not_isSome,
      ← Option.not_isSome, hm]
  cases a with
  | alexoldb =>
    cases op with
    | erase k => exact absurd h not_false
    | _ => trivial
  | btreeolcdb =>
    cases op with
    | insert k v => exact (hnone k).mpr h
    | update k v => exact fun hk => h ((hnone k).mp hk)
    | erase k => exact (hnone k).mpr h
    | search k => trivial
  | nalidb =>
    cases op with
    | insert k v => exact (hnone k).mpr h
    | _ => trivial

end Adapter

/-! ## The whole store -/

namespace TreeDb

variable {alex : Alex} {btree : BTree} {models : Models} {a : Adapter} {m : KVMap} {c : Call}
  {s : TreeDb cfg (a.tree alex btree models)}

/-- The store holds a map: the tree holds an index of the records whose payloads are the map's. -/
def Holds (s : TreeDb cfg (a.tree alex btree models)) (m : KVMap) : Prop :=
  ∃ db : Index, (a.tree alex btree models).Holds s.db db ∧ Logdb.Inv ⟨s.log, db⟩ ∧
    Logdb.abs ⟨s.log, db⟩ = m

/-- **A search reads the map.** -/
theorem Holds.search_eq (h : s.Holds m) (k : UInt64) : s.search k = .ok (m k) := by
  obtain ⟨db, hdb, hinv, rfl⟩ := h
  have hsearch := hinv.search_eq k
  rw [search, a.reads s.db hdb k, ok_bind, ← hsearch, Logdb.search]
  dsimp only
  cases db k with
  | none => rfl
  | some w => rfl

/-- The calls that are allowed are so whether the values are addresses or payloads. -/
theorem allows_of_abs {log : LogKV cfg} {db : Index} {op : Op}
    (h : a.Allows (Logdb.abs ⟨log, db⟩) op) : a.Allows db op :=
  h.congr fun k => (Logdb.isSome_abs ⟨log, db⟩ k).symm

theorem used_slot (log : LogKV cfg) (tid : Fin 64) (k : UInt64) (l : LogId cfg) :
    Function.update log.used (cfg.logFor tid k) (log.used (cfg.logFor tid k) + 1) l =
      log.used l + if some (cfg.logFor tid k) = some l then 1 else 0 := by
  by_cases hl : l = cfg.logFor tid k
  · subst hl
    rw [Function.update_self, if_pos rfl]
  · rw [Function.update_of_ne hl, if_neg fun hc => hl (Option.some_inj.mp hc).symm, Nat.add_zero]

theorem Holds.insert (h : s.Holds m) (tid : Fin 64) {k v : UInt64} (hallow : a.Allows m (.insert k v))
    (hroom : s.log.Room tid k) :
    ∃ s', s.step ⟨tid, .insert k v⟩ = .ok ((a.mapStep m ⟨tid, .insert k v⟩).1, s') ∧
      s'.Holds (mapStep m ⟨tid, .insert k v⟩).2 ∧
      s'.log = s.log.append tid k (.insertRec (s.log.versionFor k) k v) := by
  obtain ⟨db, hdb, hinv, rfl⟩ := h
  have hs : s.log.Slotted := hinv.slotted
  obtain ⟨ret, db', hinsert, hret, hdb'⟩ :=
    a.serves s.db hdb (allows_of_abs hallow) (s.log.nextSlot (cfg.logFor tid k)).word
  have hext := hs.extends_append hroom (.insertRec (s.log.versionFor k) k v)
  have hsome := Logdb.isSome_abs ⟨s.log, db⟩ k
  refine ⟨⟨s.log.append tid k (.insertRec (s.log.versionFor k) k v), db'⟩, ?_, ?_, rfl⟩
  · have hanswer : (a.mapStep (Logdb.abs ⟨s.log, db⟩) ⟨tid, .insert k v⟩).1 = .bool ret := by
      rw [← hret, Adapter.mapStep]
      cases hk : db k with
      | none => simp [mapStep, Logdb.abs, hk]
      | some w => simp [mapStep, Logdb.abs, hk]
    rw [hanswer]
    simp only [step, TreeDb.insert, hs.insert_eq, if_pos hroom, bind, Except.bind, hinsert]
    rfl
  · cases hk : db k with
    | none =>
      have htarget : Logdb.Target (s.log.append tid k (.insertRec (s.log.versionFor k) k v)) k
          (s.log.nextSlot (cfg.logFor tid k)) :=
        Logdb.target_append (s := ⟨s.log, db⟩) hs ⟨rfl, .inl rfl⟩
      obtain ⟨hinv', habs⟩ := hinv.remap hext htarget
      rw [LogKV.recAt_append_self hs] at habs
      have hm : (NaliStore.mapStep (Logdb.abs ⟨s.log, db⟩) ⟨tid, .insert k v⟩).2 =
          Function.update (Logdb.abs ⟨s.log, db⟩) k (some v) := by
        simp [mapStep, Logdb.abs, hk]
      rw [Index.insert_eq, if_pos hk] at hdb'
      exact ⟨_, hdb', hinv', by rw [habs, hm]; rfl⟩
    | some w =>
      obtain ⟨hinv', habs⟩ := hinv.extend hext
      have hm : (NaliStore.mapStep (Logdb.abs ⟨s.log, db⟩) ⟨tid, .insert k v⟩).2 =
          Logdb.abs ⟨s.log, db⟩ := by
        simp [mapStep, Logdb.abs, hk]
      rw [Index.insert_eq, if_neg (by rw [hk]; exact Option.some_ne_none w)] at hdb'
      exact ⟨_, hdb', hinv', by rw [habs, hm]⟩

theorem Holds.update (h : s.Holds m) (tid : Fin 64) {k v : UInt64} (hallow : a.Allows m (.update k v))
    (hroom : s.log.Room tid k) :
    ∃ s', s.step ⟨tid, .update k v⟩ = .ok ((a.mapStep m ⟨tid, .update k v⟩).1, s') ∧
      s'.Holds (mapStep m ⟨tid, .update k v⟩).2 ∧
      s'.log.used = (s.log.reserve tid k).used := by
  obtain ⟨db, hdb, hinv, rfl⟩ := h
  have hs : s.log.Slotted := hinv.slotted
  obtain ⟨old, db', hupdate, hdb'⟩ :=
    a.serves s.db hdb (allows_of_abs hallow) (s.log.nextSlot (cfg.logFor tid k)).word cfg.uninit
  have hreplies : ∀ r, a.replies (.update k v) r = r := fun r => by cases a <;> rfl
  rw [Adapter.mapStep, hreplies]
  cases hk : db k with
  | none =>
    have hm : NaliStore.mapStep (Logdb.abs ⟨s.log, db⟩) ⟨tid, .update k v⟩ =
        (.bool false, Logdb.abs ⟨s.log, db⟩) := by
      simp [mapStep, Logdb.abs, hk]
    obtain ⟨hinv', habs⟩ := hinv.extend (hs.extends_reserve hroom)
    rw [hk] at hupdate
    rw [Index.update_eq, if_pos hk] at hdb'
    refine ⟨⟨s.log.reserve tid k, db'⟩, ?_, ⟨db, hdb', hinv', by rw [habs, hm]⟩, rfl⟩
    rw [hm]
    simp only [step, TreeDb.update, hs.updateStep1_eq, if_pos hroom, bind, Except.bind, hupdate]
    rfl
  | some w =>
    have hm : NaliStore.mapStep (Logdb.abs ⟨s.log, db⟩) ⟨tid, .update k v⟩ =
        (.bool true, Function.update (Logdb.abs ⟨s.log, db⟩) k (some v)) := by
      simp [mapStep, Logdb.abs, hk]
    -- whatever the tree has written as the old value is the link of the record
    have hext := hs.extends_append hroom (.updateRec (s.log.versionFor k) k v old)
    have htarget : Logdb.Target (s.log.append tid k (.updateRec (s.log.versionFor k) k v old)) k
        (s.log.nextSlot (cfg.logFor tid k)) :=
      Logdb.target_append (s := ⟨s.log, db⟩) hs ⟨rfl, .inr rfl⟩
    obtain ⟨hinv', habs⟩ := hinv.remap hext htarget
    rw [LogKV.recAt_append_self hs] at habs
    rw [hk] at hupdate
    rw [Index.update_eq, if_neg (by rw [hk]; exact Option.some_ne_none w)] at hdb'
    refine ⟨⟨s.log.append tid k (.updateRec (s.log.versionFor k) k v old), db'⟩, ?_,
      ⟨_, hdb', hinv', by rw [habs, hm]; rfl⟩, ?_⟩
    · rw [hm]
      simp only [step, TreeDb.update, hs.updateStep1_eq, if_pos hroom, bind, Except.bind, hupdate,
        Option.isSome_some, if_true, PairT.setLastLogOffest, PairT.updateRec,
        hs.storePersist_reserve hroom]
      rfl
    · rw [LogKV.used_append hs, LogKV.used_reserve hs]

theorem Holds.erase (h : s.Holds m) (tid : Fin 64) {k : UInt64} (hallow : a.Allows m (.erase k))
    (hroom : s.log.Room tid k) :
    ∃ s', s.step ⟨tid, .erase k⟩ = .ok ((a.mapStep m ⟨tid, .erase k⟩).1, s') ∧
      s'.Holds (mapStep m ⟨tid, .erase k⟩).2 ∧
      s'.log.used = (s.log.reserve tid k).used := by
  obtain ⟨db, hdb, hinv, rfl⟩ := h
  have hs : s.log.Slotted := hinv.slotted
  obtain ⟨old, db', herase, hdb'⟩ := a.serves s.db hdb (allows_of_abs hallow) cfg.uninit
  have hreplies : ∀ r, a.replies (.erase k) r = r := fun r => by cases a <;> rfl
  have hm : NaliStore.mapStep (Logdb.abs ⟨s.log, db⟩) ⟨tid, .erase k⟩ =
      (.bool (db k).isSome, Function.update (Logdb.abs ⟨s.log, db⟩) k none) := by
    simp only [mapStep, Logdb.isSome_abs]
  have hext := hs.extends_append hroom (.deleteRec (s.log.versionFor k) cfg.uninit k ((db k).getD 0))
  obtain ⟨hinv', habs⟩ := hinv.unmap (k := k) hext
  rw [Adapter.mapStep, hreplies, hm]
  refine ⟨⟨s.log.append tid k (.deleteRec (s.log.versionFor k) cfg.uninit k ((db k).getD 0)), db'⟩,
    ?_, ⟨_, hdb', hinv', habs⟩, ?_⟩
  · simp only [step, TreeDb.erase, a.reads s.db hdb k, bind, Except.bind, herase, hs.erase_eq,
      if_pos hroom]
    rfl
  · rw [LogKV.used_append hs, LogKV.used_reserve hs]

/-- **One call refines one map operation**, and uses one slot of its log if it writes. -/
theorem Holds.step (h : s.Holds m) (hallow : a.Allows m c.op)
    (hroom : ∀ l, c.log? cfg = some l → s.log.used l < logCapacity) :
    ∃ s', s.step c = .ok ((a.mapStep m c).1, s') ∧ s'.Holds (mapStep m c).2 ∧
      ∀ l, s'.log.used l = s.log.used l + if c.log? cfg = some l then 1 else 0 := by
  have hs : s.log.Slotted := by
    obtain ⟨db, -, hinv, -⟩ := h
    exact hinv.slotted
  obtain ⟨tid, op⟩ := c
  cases op with
  | insert k v =>
    obtain ⟨s', hstep, hholds, hlog⟩ := h.insert tid hallow (hroom _ rfl)
    refine ⟨s', hstep, hholds, fun l => ?_⟩
    rw [hlog, LogKV.used_append hs]
    exact used_slot s.log tid k l
  | update k v =>
    obtain ⟨s', hstep, hholds, hused⟩ := h.update tid hallow (hroom _ rfl)
    refine ⟨s', hstep, hholds, fun l => ?_⟩
    rw [hused, LogKV.used_reserve hs]
    exact used_slot s.log tid k l
  | erase k =>
    obtain ⟨s', hstep, hholds, hused⟩ := h.erase tid hallow (hroom _ rfl)
    refine ⟨s', hstep, hholds, fun l => ?_⟩
    rw [hused, LogKV.used_reserve hs]
    exact used_slot s.log tid k l
  | search k =>
    have hreplies : ∀ r, a.replies (.search k) r = r := fun r => by cases a <;> rfl
    refine ⟨s, ?_, h, fun l => (Nat.add_zero _).symm⟩
    rw [Adapter.mapStep, hreplies]
    simp only [TreeDb.step, h.search_eq]
    rfl

/-- The empty store holds the empty map. -/
theorem holds_fresh (cfg : Config) (db : (a.tree alex btree models).State)
    (hdb : (a.tree alex btree models).Holds db fun _ => none) :
    (fresh cfg db).Holds (a := a) fun _ => none :=
  ⟨fun _ => none, hdb, Logdb.inv_fresh cfg, rfl⟩

/-- **The whole store refines a finite map**, over each of the adapters. For every sequence of calls
that the adapter allows and that fits the pages, by threads of either node, the store returns what the
map does, `insert` through `nalidb` apart, and afterwards a search finds what the map holds. -/
theorem calls_refine_map (cfg : Config) (alex : Alex) (btree : BTree) (models : Models) (a : Adapter)
    (db : (a.tree alex btree models).State) (cs : List Call)
    (hdb : (a.tree alex btree models).Holds db fun _ => none) (hfit : Logdb.FitsPages cfg cs)
    (hallow : a.AllowsAll (fun _ => none) cs) :
    ∃ s, exec step (fresh cfg db) cs = .ok ((specRun a.mapStep (fun _ => none) cs).1, s) ∧
      ∀ k, s.search k = .ok ((specRun a.mapStep (fun _ => none) cs).2 k) := by
  -- the relation carries the slots the remaining calls will take, and that they are allowed
  let R : List Call → TreeDb cfg (a.tree alex btree models) → KVMap → Prop := fun rest s m =>
    s.Holds m ∧ a.AllowsAll m rest ∧
      ∀ l, s.log.used l + Logdb.writesTo l rest = Logdb.writesTo l cs
  have hstep : ∀ c rest s m, R (c :: rest) s m →
      ∃ s', step s c = .ok ((a.mapStep m c).1, s') ∧ R rest s' (a.mapStep m c).2 := by
    rintro c rest s m ⟨hholds, ⟨hc, hrest⟩, hbudget⟩
    have hroom : ∀ l, c.log? cfg = some l → s.log.used l < logCapacity := by
      intro l hl
      have hb := hbudget l
      have hf := hfit l
      rw [Logdb.writesTo_cons, if_pos hl] at hb
      simp only [PairT.size, maxLofFileId, ppageSize_eq, logCapacity] at *
      omega
    obtain ⟨s', hok, hholds', hused⟩ := hholds.step hc hroom
    refine ⟨s', hok, hholds', hrest, fun l => ?_⟩
    have hb := hbudget l
    rw [Logdb.writesTo_cons] at hb
    rw [hused]
    omega
  have hinit : R cs (fresh cfg db) fun _ => none := by
    refine ⟨holds_fresh cfg db hdb, hallow, fun l => ?_⟩
    have h0 : (fresh cfg db).log.used l = 0 := LogKV.used_fresh l
    rw [h0, Nat.zero_add]
  obtain ⟨s, hexec, hholds, -, -⟩ := exec_refines R hstep cs _ _ hinit
  exact ⟨s, hexec, hholds.search_eq⟩

/-- A few calls on the store over the learned index, by threads of both nodes. -/
theorem calls_refine_map_nalidb :
    ∃ s : TreeDb oneShard (Adapter.nalidb.tree mapAlex mapBTree Nali.zeroModels),
      exec step (fresh oneShard (Nali.init Nali.zeroModels (Nali.zeroModels.root []) Nali.zeroHeap 0))
        [⟨0, .insert 2 7⟩, ⟨16, .update 2 9⟩, ⟨0, .search 2⟩, ⟨16, .erase 2⟩, ⟨0, .insert 2 8⟩] =
        .ok ([.bool false, .bool true, .found (some 9), .bool true, .bool false], s) ∧
      s.search 2 = .ok (some 8) := by
  have hdb := Nali.holds_init Nali.zeroModels (Nali.zeroModels.root []) Nali.zeroHeap 0
  obtain ⟨s, hexec, hsearch⟩ := calls_refine_map oneShard mapAlex mapBTree Nali.zeroModels .nalidb _
    [⟨0, .insert 2 7⟩, ⟨16, .update 2 9⟩, ⟨0, .search 2⟩, ⟨16, .erase 2⟩, ⟨0, .insert 2 8⟩] hdb
    (Logdb.fitsPages_of_length (by decide)) ⟨rfl, trivial, trivial, trivial, rfl, trivial⟩
  refine ⟨s, hexec, ?_⟩
  rw [hsearch]
  rfl

end TreeDb

end NaliStore
