import NaliStore.Slots

/-!
# The store: log and index

`logdb` of `src/include/logdb.h` below its cache, for 8-byte payloads, with the three
log operations of `LogKV` it calls. A write appends one record to the log of its
thread's NUMA node and its key's shard, whether or not the index then accepts it; the
index maps a key to the packed address of its record.

The index `db_` is taken as a correct finite map.
-/

namespace NaliStore

open ByteMem

variable {cfg : Config}

/-! ## The index -/

/-- `Tree<T, uint64_t>`: key to packed log address. -/
abbrev Index : Type := UInt64 → Option UInt64

namespace Index

/-- `insert`: reject a key that is present. -/
def insert (db : Index) (key value : UInt64) : Bool × Index :=
  match db key with
  | some _ => (false, db)
  | none => (true, Function.update db key (some value))

/-- `update`: replace the value of a key that is present and hand back the old one;
`none` is the return value false. -/
def update (db : Index) (key value : UInt64) : Option UInt64 × Index :=
  match db key with
  | some old => (some old, Function.update db key (some value))
  | none => (none, db)

/-- `erase` -/
def erase (db : Index) (key : UInt64) : Bool × Index :=
  ((db key).isSome, Function.update db key none)

end Index

/-! ## Records as the operations build them -/

namespace PairT

/-- The constructor from key and value. The bit fields are set before any use. -/
def ofKeyValue (k v : UInt64) : PairT := ⟨.insert, 0, k, v, uint64Max⟩

/-- The constructor from a key, which leaves the rest uninitialised. -/
def ofKey (uninit k : UInt64) : PairT := ⟨.insert, 0, k, uninit, uninit⟩

end PairT

/-! ## Log operations -/

namespace LogKV

/-- `LogKV::insert`: returns the packed address of the record. -/
def insert (s : LogKV cfg) (threadId : Fin 64) (key payload hashKey : UInt64) :
    Except Fault (UInt64 × LogKV cfg) := do
  let p := PairT.ofKeyValue key payload
  let (version, s) := s.getVersion hashKey
  let p := (p.setVersion version).setOp .insert
  let (logAddr, logInfo, s) ← s.allocLog threadId hashKey ⟨PairT.vlen, 255, 0, 0⟩ PairT.size
  let s ← s.storePersist logAddr p
  pure (logInfo.toUint64Offset, s)

/-- `LogKV::erase` -/
def erase (s : LogKV cfg) (threadId : Fin 64) (key hashKey oldLogOffset : UInt64) :
    Except Fault (LogKV cfg) := do
  let p := PairT.ofKey cfg.uninit key
  let (version, s) := s.getVersion hashKey
  let p := ((p.setVersion version).setOp .delete).setLastLogOffest oldLogOffset
  let (logAddr, _, s) ← s.allocLog threadId hashKey ⟨0, 255, 0, 0⟩ PairT.size
  s.storePersist logAddr p

/-- `LogKV::update_step1`: space for the new record, which is not stored yet. -/
def updateStep1 (s : LogKV cfg) (threadId : Fin 64) (hashKey : UInt64) (p : PairT) :
    Except Fault (Ptr cfg × UInt64 × PairT × LogKV cfg) := do
  let (version, s) := s.getVersion hashKey
  let p := (p.setVersion version).setOp .update
  let (logAddr, logInfo, s) ← s.allocLog threadId hashKey ⟨PairT.vlen, 255, 0, 0⟩ PairT.size
  pure (logAddr, logInfo.toUint64Offset, p, s)

/-- The payload: 8 bytes at offset 16 of the record an address points to. -/
def readPayload (s : LogKV cfg) (p : Ptr cfg) : Except Fault UInt64 := do
  let m ← s.page p
  pure (load64 m (p.off + 16))

end LogKV

/-! ## The store -/

/-- `logdb`, without its cache. -/
@[ext] structure Logdb (cfg : Config) where
  /-- `log_kv_` -/
  log : LogKV cfg
  /-- `db_` -/
  db : Index

namespace Logdb

/-- `logdb::insert` -/
def insert (s : Logdb cfg) (threadId : Fin 64) (key payload : UInt64) :
    Except Fault (Bool × Logdb cfg) := do
  let keyHash := cfg.xxh3 key
  let (logOffset, log) ← s.log.insert threadId key payload keyHash
  let (ret, db) := s.db.insert key logOffset
  pure (ret, ⟨log, db⟩)

/-- `logdb::search` below the cache: false is `none`. -/
def search (s : Logdb cfg) (key : UInt64) : Except Fault (Option UInt64) :=
  match s.db key with
  | none => pure none
  | some addrInfo => do
    let pmemAddr ← s.log.getAddr (.ofAddrInfo addrInfo) (cfg.xxh3 key)
    let payload ← s.log.readPayload pmemAddr
    pure (some payload)

/-- `logdb::erase`: the old address is fetched by a separate search and stays 0 when the
key is absent. -/
def erase (s : Logdb cfg) (threadId : Fin 64) (key : UInt64) :
    Except Fault (Bool × Logdb cfg) := do
  let keyHash := cfg.xxh3 key
  let addrInfo := (s.db key).getD 0
  let (ret, db) := s.db.erase key
  let log ← s.log.erase threadId key keyHash addrInfo
  pure (ret, ⟨log, db⟩)

/-- `logdb::update`: allocate, publish in the index, then store the record. -/
def update (s : Logdb cfg) (threadId : Fin 64) (key payload : UInt64) :
    Except Fault (Bool × Logdb cfg) := do
  let keyHash := cfg.xxh3 key
  let p := PairT.ofKeyValue key payload
  let (logAddr, curLogAddr, p, log) ← s.log.updateStep1 threadId keyHash p
  match s.db.update key curLogAddr with
  | (none, db) => pure (false, ⟨log, db⟩)
  | (some logOffset, db) => do
    let log ← log.storePersist logAddr (p.setLastLogOffest logOffset)
    pure (true, ⟨log, db⟩)

/-- The store over an empty directory. -/
def fresh (cfg : Config) : Logdb cfg := ⟨LogKV.fresh cfg, fun _ => none⟩

end Logdb

/-! ## What the operations do, in slots -/

/-- The shard of a key. -/
def Config.shard (cfg : Config) (key : UInt64) : Fin cfg.shards := cfg.shardOf (cfg.xxh3 key)

/-- The log a thread appends the records of a key to. -/
def Config.logFor (cfg : Config) (threadId : Fin 64) (key : UInt64) : LogId cfg :=
  LogKV.logOf cfg threadId (cfg.xxh3 key)

@[simp] theorem Config.logFor_hash (threadId : Fin 64) (key : UInt64) :
    (cfg.logFor threadId key).hash = cfg.shard key := rfl

namespace PairT

/-- The record of `insert(k, v)`. -/
def insertRec (version : ℕ) (k v : UInt64) : PairT :=
  ⟨.insert, BitVec.ofNat 62 (version + 1), k, v, uint64Max⟩

/-- The record of `update(k, v)` that supersedes the one at `old`. -/
def updateRec (version : ℕ) (k v old : UInt64) : PairT :=
  ⟨.update, BitVec.ofNat 62 (version + 1), k, v, old⟩

/-- The record of `erase(k)`. -/
def deleteRec (version : ℕ) (uninit k old : UInt64) : PairT :=
  ⟨.delete, BitVec.ofNat 62 (version + 1), k, uninit, old⟩

end PairT

namespace LogKV

/-- The log after a version and a slot have been taken for `key`. -/
def reserve (s : LogKV cfg) (threadId : Fin 64) (key : UInt64) : LogKV cfg :=
  (s.bump (cfg.xxh3 key)).afterAlloc (cfg.logFor threadId key) PairT.size

/-- The log after a record of `key` has been appended. -/
def append (s : LogKV cfg) (threadId : Fin 64) (key : UInt64) (r : PairT) : LogKV cfg :=
  (s.reserve threadId key).write (s.nextSlot (cfg.logFor threadId key)) r

/-- There is a slot left for a record of `key`. -/
def Room (s : LogKV cfg) (threadId : Fin 64) (key : UInt64) : Prop :=
  s.used (cfg.logFor threadId key) < logCapacity

instance (s : LogKV cfg) (threadId : Fin 64) (key : UInt64) : Decidable (s.Room threadId key) :=
  inferInstanceAs (Decidable (_ < _))

section Reserve

variable {s : LogKV cfg} {threadId : Fin 64} {key : UInt64} {r : PairT} {σ : Slot cfg}

theorem used_reserve (h : s.Slotted) :
    (s.reserve threadId key).used =
      Function.update s.used (cfg.logFor threadId key) (s.used (cfg.logFor threadId key) + 1) :=
  h.bump.used_afterAlloc

theorem recAt_reserve (h : s.Slotted) : (s.reserve threadId key).recAt = s.recAt :=
  h.bump.recAt_afterAlloc

theorem live_reserve (h : s.Slotted) :
    (s.reserve threadId key).Live σ ↔ s.Live σ ∨ σ = s.nextSlot (cfg.logFor threadId key) :=
  h.bump.live_afterAlloc

theorem live_nextSlot_reserve (h : s.Slotted) (threadId : Fin 64) (key : UInt64) :
    (s.reserve threadId key).Live (s.nextSlot (cfg.logFor threadId key)) :=
  (live_reserve h).mpr (.inr rfl)

theorem Slotted.reserve (h : s.Slotted) (hroom : s.Room threadId key) :
    (s.reserve threadId key).Slotted :=
  h.bump.afterAlloc hroom

theorem used_append (h : s.Slotted) :
    (s.append threadId key r).used =
      Function.update s.used (cfg.logFor threadId key) (s.used (cfg.logFor threadId key) + 1) :=
  used_reserve h

theorem recAt_append (h : s.Slotted) :
    (s.append threadId key r).recAt =
      Function.update s.recAt (s.nextSlot (cfg.logFor threadId key)) r := by
  rw [append, recAt_write, recAt_reserve h]

theorem live_append (h : s.Slotted) :
    (s.append threadId key r).Live σ ↔ s.Live σ ∨ σ = s.nextSlot (cfg.logFor threadId key) :=
  live_reserve h

/-- A slot handed out before keeps its record. -/
theorem recAt_append_of_live (h : s.Slotted) (hσ : s.Live σ) :
    (s.append threadId key r).recAt σ = s.recAt σ := by
  rw [recAt_append h, Function.update_of_ne]
  rintro rfl
  exact nextSlot_not_live hσ

/-- The new record is in the new slot. -/
theorem recAt_append_self (h : s.Slotted) :
    (s.append threadId key r).recAt (s.nextSlot (cfg.logFor threadId key)) = r := by
  rw [recAt_append h, Function.update_self]

/-- A slot in use does not have the address of the next slot of its shard. -/
theorem Slotted.word_ne_nextSlot (h : s.Slotted) (hroom : s.Room threadId key) {τ : Slot cfg}
    (hlive : s.Live τ) (hshard : τ.log.hash = cfg.shard key) :
    τ.word ≠ (s.nextSlot (cfg.logFor threadId key)).word := by
  intro heq
  have heqτ : τ = s.nextSlot (cfg.logFor threadId key) :=
    Slot.word_injective (h.lt_capacity hlive) hroom hshard heq
  exact nextSlot_not_live (heqτ ▸ hlive)

theorem Slotted.append (h : s.Slotted) (hroom : s.Room threadId key) :
    (s.append threadId key r).Slotted :=
  (h.reserve hroom).write ((live_reserve h).mpr (.inr rfl))

/-- `alloc_log` after `get_version`: the next slot, or no slot left. -/
theorem Slotted.allocLog_eq (h : s.Slotted) (logInfo : LastLogOffest) :
    (s.bump (cfg.xxh3 key)).allocLog threadId (cfg.xxh3 key) logInfo PairT.size =
      if s.Room threadId key then
        .ok ((s.nextSlot (cfg.logFor threadId key)).ptr,
          (s.nextSlot (cfg.logFor threadId key)).info logInfo.vlen, s.reserve threadId key)
      else .error .outOfBounds := by
  split
  · exact h.bump.alloc_eq ‹_› logInfo
  · exact h.bump.alloc_full ‹_› logInfo

/-- `alloc_log` with a slot left. -/
theorem Slotted.allocLog_of_room (h : s.Slotted) (hroom : s.Room threadId key)
    (logInfo : LastLogOffest) :
    s.allocLog threadId (cfg.xxh3 key) logInfo PairT.size =
      .ok ((s.nextSlot (cfg.logFor threadId key)).ptr,
        (s.nextSlot (cfg.logFor threadId key)).info logInfo.vlen,
        s.afterAlloc (cfg.logFor threadId key) PairT.size) :=
  h.alloc_eq hroom logInfo

/-- Inversion of an `alloc_log` that returned. -/
theorem Slotted.allocLog_inv (h : s.Slotted) {logInfo li : LastLogOffest} {p : Ptr cfg}
    {s' : LogKV cfg}
    (halloc : s.allocLog threadId (cfg.xxh3 key) logInfo PairT.size = .ok (p, li, s')) :
    s.Room threadId key ∧ p = (s.nextSlot (cfg.logFor threadId key)).ptr ∧
      li = (s.nextSlot (cfg.logFor threadId key)).info logInfo.vlen ∧
      s' = s.afterAlloc (cfg.logFor threadId key) PairT.size := by
  by_cases hroom : s.Room threadId key
  · rw [h.allocLog_of_room hroom] at halloc
    obtain ⟨rfl, rfl, rfl⟩ := Prod.mk.inj (Except.ok.inj halloc) |>.imp id Prod.mk.inj
    exact ⟨hroom, rfl, rfl, rfl⟩
  · rw [allocLog, ← Config.logFor, h.alloc_full hroom] at halloc
    cases halloc

theorem Slotted.storePersist_reserve (h : s.Slotted) (hroom : s.Room threadId key) (r : PairT) :
    (s.reserve threadId key).storePersist (s.nextSlot (cfg.logFor threadId key)).ptr r =
      .ok (s.append threadId key r) :=
  (h.reserve hroom).storePersist_eq ((live_reserve h).mpr (.inr rfl)) r

/-- The version `get_version` hands out for a key. -/
def versionFor (s : LogKV cfg) (key : UInt64) : ℕ := s.version (cfg.shard key)

theorem getVersion_eq (s : LogKV cfg) (key : UInt64) :
    s.getVersion (cfg.xxh3 key) = (s.versionFor key, s.bump (cfg.xxh3 key)) := rfl

theorem Slotted.insert_eq (h : s.Slotted) (payload : UInt64) :
    s.insert threadId key payload (cfg.xxh3 key) =
      if s.Room threadId key then
        .ok ((s.nextSlot (cfg.logFor threadId key)).word,
          s.append threadId key (.insertRec (s.versionFor key) key payload))
      else .error .outOfBounds := by
  simp only [LogKV.insert, getVersion_eq, h.allocLog_eq]
  split
  · rename_i hroom
    simp only [bind, Except.bind, h.storePersist_reserve hroom]
    rfl
  · rfl

theorem Slotted.erase_eq (h : s.Slotted) (old : UInt64) :
    s.erase threadId key (cfg.xxh3 key) old =
      if s.Room threadId key then
        .ok (s.append threadId key (.deleteRec (s.versionFor key) cfg.uninit key old))
      else .error .outOfBounds := by
  simp only [LogKV.erase, getVersion_eq, h.allocLog_eq]
  split
  · rename_i hroom
    simp only [bind, Except.bind, h.storePersist_reserve hroom]
    rfl
  · rfl

theorem Slotted.updateStep1_eq (h : s.Slotted) (payload : UInt64) :
    s.updateStep1 threadId (cfg.xxh3 key) (.ofKeyValue key payload) =
      if s.Room threadId key then
        .ok ((s.nextSlot (cfg.logFor threadId key)).ptr,
          (s.nextSlot (cfg.logFor threadId key)).word,
          .updateRec (s.versionFor key) key payload uint64Max, s.reserve threadId key)
      else .error .outOfBounds := by
  simp only [LogKV.updateStep1, getVersion_eq, h.allocLog_eq]
  split
  · rfl
  · rfl

theorem Slotted.readPayload_eq (h : s.Slotted) (hσ : s.Live σ) :
    s.readPayload σ.ptr = .ok (s.recAt σ).value := by
  simp only [readPayload, page, Slot.ptr, h.pmem_eq hσ]
  rfl

end Reserve

end LogKV

namespace Logdb

section Specs

variable {s : Logdb cfg} {threadId : Fin 64} {key : UInt64}

/-- **`insert`** appends an INSERT record, and maps an absent key to it. -/
theorem insert_eq (h : s.log.Slotted) (payload : UInt64) :
    s.insert threadId key payload =
      if s.log.Room threadId key then
        .ok ((s.db key).isNone,
          ⟨s.log.append threadId key (.insertRec (s.log.versionFor key) key payload),
            if (s.db key).isNone then
              Function.update s.db key (some (s.log.nextSlot (cfg.logFor threadId key)).word)
            else s.db⟩)
      else .error .outOfBounds := by
  simp only [insert, h.insert_eq]
  split
  · simp only [bind, Except.bind, pure, Except.pure, Index.insert]
    cases s.db key <;> rfl
  · rfl

/-- **`erase`** appends a DELETE record, linked to the record the key was mapped to. -/
theorem erase_eq (h : s.log.Slotted) :
    s.erase threadId key =
      if s.log.Room threadId key then
        .ok ((s.db key).isSome,
          ⟨s.log.append threadId key
            (.deleteRec (s.log.versionFor key) cfg.uninit key ((s.db key).getD 0)),
            Function.update s.db key none⟩)
      else .error .outOfBounds := by
  simp only [erase, Index.erase, h.erase_eq]
  split <;> rfl

/-- **`update`** of a present key appends an UPDATE record linked to the old one and maps
the key to it. -/
theorem update_eq_of_some (h : s.log.Slotted) (payload : UInt64) {old : UInt64}
    (hold : s.db key = some old) :
    s.update threadId key payload =
      if s.log.Room threadId key then
        .ok (true, ⟨s.log.append threadId key
            (.updateRec (s.log.versionFor key) key payload old),
            Function.update s.db key (some (s.log.nextSlot (cfg.logFor threadId key)).word)⟩)
      else .error .outOfBounds := by
  simp only [update, h.updateStep1_eq]
  split
  · rename_i hroom
    simp only [bind, Except.bind, pure, Except.pure, Index.update, hold,
      PairT.setLastLogOffest, PairT.updateRec, h.storePersist_reserve hroom]
  · rfl

/-- **`update`** of an absent key takes a slot and leaves it unwritten. -/
theorem update_eq_of_none (h : s.log.Slotted) (payload : UInt64) (hnone : s.db key = none) :
    s.update threadId key payload =
      if s.log.Room threadId key then .ok (false, ⟨s.log.reserve threadId key, s.db⟩)
      else .error .outOfBounds := by
  simp only [update, h.updateStep1_eq]
  split
  · simp only [bind, Except.bind, pure, Except.pure, Index.update, hnone]
  · rfl

end Specs

end Logdb

end NaliStore
