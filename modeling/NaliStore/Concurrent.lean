import NaliStore.Refine

/-!
# Threads

The store under concurrent calls. Each call of `logdb` is cut into the steps that other
threads can come between: `get_version` (one atomic increment), `PPage::alloc` (under
its latch), `store_persist`, each operation of the index, the read of a payload, and the
return. A thread stands in front of one of these steps (`Pc`), with the local variables
the rest of its call needs; `Sys.step` lets one thread take one step. Garbage
collection's relocation is a thread that reads a record of an old page and then goes
through `update` with its key and value.

`run_alone` ties the steps to the sequential model: a thread that is let run through its
call without interruption does to the store what the sequential operation does.
-/

namespace NaliStore

open Runs

variable {cfg : Config}

/-- What a thread does next, and the local variables of its call. `src` is the record a
relocation of the garbage collection read, and `none` in a foreground call. -/
inductive Pc (cfg : Config) where
  /-- no call in progress -/
  | idle
  /-- `insert`: take a version -/
  | insertStart (threadId : Fin 64) (key payload : UInt64)
  /-- `insert`: allocate -/
  | insertVersioned (threadId : Fin 64) (p : PairT)
  /-- `insert`: store the record -/
  | insertAllocated (p : PairT) (logAddr : Ptr cfg) (logOffset : UInt64)
  /-- `insert`: insert into the index -/
  | insertStored (key payload logOffset : UInt64)
  /-- `update`: take a version -/
  | updateStart (src : Option (Slot cfg)) (threadId : Fin 64) (key payload : UInt64)
  /-- `update`: allocate -/
  | updateVersioned (src : Option (Slot cfg)) (threadId : Fin 64) (p : PairT)
  /-- `update`: update the index -/
  | updateAllocated (src : Option (Slot cfg)) (p : PairT) (logAddr : Ptr cfg)
      (curLogAddr : UInt64)
  /-- `update`: store the record -/
  | updatePublished (src : Option (Slot cfg)) (p : PairT) (logAddr : Ptr cfg)
  /-- `erase`: search the index for the old record -/
  | eraseStart (threadId : Fin 64) (key : UInt64)
  /-- `erase`: erase from the index -/
  | eraseSearched (threadId : Fin 64) (key addrInfo : UInt64)
  /-- `erase`: take a version -/
  | eraseErased (threadId : Fin 64) (key addrInfo : UInt64) (ret : Bool)
  /-- `erase`: allocate -/
  | eraseVersioned (threadId : Fin 64) (p : PairT) (ret : Bool)
  /-- `erase`: store the record -/
  | eraseAllocated (p : PairT) (logAddr : Ptr cfg) (ret : Bool)
  /-- `search`: search the index -/
  | searchStart (key : UInt64)
  /-- `search`: read the payload -/
  | searchFound (key addrInfo : UInt64)
  /-- return from the call -/
  | returning (src : Option (Slot cfg)) (op : Op) (ret : Ret)

/-- The store, its threads, and the calls that have returned, oldest first. -/
@[ext] structure Sys (cfg : Config) where
  /-- the shared store -/
  store : Logdb cfg
  /-- where each thread stands -/
  threads : ℕ → Pc cfg
  /-- what foreground calls have returned -/
  returns : List (Op × Ret)

/-- What happens next. -/
inductive Action (cfg : Config) where
  /-- idle thread `t` makes a call -/
  | call (t : ℕ) (c : Call)
  /-- idle thread `t` of the garbage collection reads a record of an old page to relocate it -/
  | relocate (t : ℕ) (threadId : Fin 64) (σ : Slot cfg)
  /-- thread `t` takes its next step -/
  | run (t : ℕ)

/-- Where a call starts. -/
def Call.start (c : Call) : Pc cfg :=
  match c.op with
  | .insert k v => .insertStart c.threadId k v
  | .update k v => .updateStart none c.threadId k v
  | .erase k => .eraseStart c.threadId k
  | .search k => .searchStart k

namespace Sys

/-- Thread `t` has changed the store and stands at `pc`. -/
def next (s : Sys cfg) (t : ℕ) (store : Logdb cfg) (pc : Pc cfg) : Sys cfg :=
  { s with store, threads := Function.update s.threads t pc }

/-- One step of thread `t`. -/
def runThread (s : Sys cfg) (t : ℕ) : Except Fault (Sys cfg) :=
  let log := s.store.log
  let db := s.store.db
  match s.threads t with
  | .idle => pure s
  | .insertStart threadId key payload => do
    let (version, log) := log.getVersion (cfg.xxh3 key)
    let p := ((PairT.ofKeyValue key payload).setVersion version).setOp .insert
    pure (s.next t ⟨log, db⟩ (.insertVersioned threadId p))
  | .insertVersioned threadId p => do
    let (logAddr, logInfo, log) ←
      log.allocLog threadId (cfg.xxh3 p.key) ⟨PairT.vlen, 255, 0, 0⟩ PairT.size
    pure (s.next t ⟨log, db⟩ (.insertAllocated p logAddr logInfo.toUint64Offset))
  | .insertAllocated p logAddr logOffset => do
    let log ← log.storePersist logAddr p
    pure (s.next t ⟨log, db⟩ (.insertStored p.key p.value logOffset))
  | .insertStored key payload logOffset => do
    let (ret, db) := db.insert key logOffset
    pure (s.next t ⟨log, db⟩ (.returning none (.insert key payload) (.bool ret)))
  | .updateStart src threadId key payload => do
    let (version, log) := log.getVersion (cfg.xxh3 key)
    let p := ((PairT.ofKeyValue key payload).setVersion version).setOp .update
    pure (s.next t ⟨log, db⟩ (.updateVersioned src threadId p))
  | .updateVersioned src threadId p => do
    let (logAddr, logInfo, log) ←
      log.allocLog threadId (cfg.xxh3 p.key) ⟨PairT.vlen, 255, 0, 0⟩ PairT.size
    pure (s.next t ⟨log, db⟩ (.updateAllocated src p logAddr logInfo.toUint64Offset))
  | .updateAllocated src p logAddr curLogAddr =>
    match db.update p.key curLogAddr with
    | (none, db) =>
      pure (s.next t ⟨log, db⟩ (.returning src (.update p.key p.value) (.bool false)))
    | (some logOffset, db) =>
      pure (s.next t ⟨log, db⟩ (.updatePublished src (p.setLastLogOffest logOffset) logAddr))
  | .updatePublished src p logAddr => do
    let log ← log.storePersist logAddr p
    pure (s.next t ⟨log, db⟩ (.returning src (.update p.key p.value) (.bool true)))
  | .eraseStart threadId key =>
    pure (s.next t ⟨log, db⟩ (.eraseSearched threadId key ((db key).getD 0)))
  | .eraseSearched threadId key addrInfo => do
    let (ret, db) := db.erase key
    pure (s.next t ⟨log, db⟩ (.eraseErased threadId key addrInfo ret))
  | .eraseErased threadId key addrInfo ret => do
    let (version, log) := log.getVersion (cfg.xxh3 key)
    let p := (((PairT.ofKey cfg.uninit key).setVersion version).setOp .delete).setLastLogOffest
      addrInfo
    pure (s.next t ⟨log, db⟩ (.eraseVersioned threadId p ret))
  | .eraseVersioned threadId p ret => do
    let (logAddr, _, log) ← log.allocLog threadId (cfg.xxh3 p.key) ⟨0, 255, 0, 0⟩ PairT.size
    pure (s.next t ⟨log, db⟩ (.eraseAllocated p logAddr ret))
  | .eraseAllocated p logAddr ret => do
    let log ← log.storePersist logAddr p
    pure (s.next t ⟨log, db⟩ (.returning none (.erase p.key) (.bool ret)))
  | .searchStart key =>
    match db key with
    | none => pure (s.next t ⟨log, db⟩ (.returning none (.search key) (.found none)))
    | some addrInfo => pure (s.next t ⟨log, db⟩ (.searchFound key addrInfo))
  | .searchFound key addrInfo => do
    let pmemAddr ← log.getAddr (.ofAddrInfo addrInfo) (cfg.xxh3 key)
    let payload ← log.readPayload pmemAddr
    pure (s.next t ⟨log, db⟩ (.returning none (.search key) (.found (some payload))))
  | .returning src op ret =>
    -- the return value of a relocation is not looked at
    pure { s.next t ⟨log, db⟩ .idle with
      returns := if src.isNone then s.returns ++ [(op, ret)] else s.returns }

/-- The page of the slot is older than the newest of its log. -/
def OldPage (s : Sys cfg) (σ : Slot cfg) : Prop :=
  σ.pageId.page < (s.store.log.ppage σ.log).ppageId

instance (s : Sys cfg) (σ : Slot cfg) : Decidable (s.OldPage σ) :=
  inferInstanceAs (Decidable (_ < _))

/-- One action. An action that is not enabled changes nothing. -/
def step (s : Sys cfg) (a : Action cfg) : Except Fault (Sys cfg) :=
  match a with
  | .call t c =>
    match s.threads t with
    | .idle => pure (s.next t s.store c.start)
    | _ => pure s
  | .relocate t threadId σ =>
    match s.threads t with
    | .idle =>
      if s.OldPage σ then do
        let r ← s.store.log.load σ.ptr
        if r.op = .insert ∨ r.op = .update then
          pure (s.next t s.store (.updateStart (some σ) threadId r.key r.value))
        else pure s
      else pure s
    | _ => pure s
  | .run t => s.runThread t

theorem step_run {s s' : Sys cfg} {t : ℕ} (h : s.runThread t = .ok s') :
    s.step (.run t) = .ok s' := h

/-- A store without calls in progress. -/
def ofStore (store : Logdb cfg) : Sys cfg := ⟨store, fun _ => .idle, []⟩

@[simp] theorem next_store (s : Sys cfg) (t : ℕ) (store : Logdb cfg) (pc : Pc cfg) :
    (s.next t store pc).store = store := rfl

@[simp] theorem next_threads_self (s : Sys cfg) (t : ℕ) (store : Logdb cfg) (pc : Pc cfg) :
    (s.next t store pc).threads t = pc := Function.update_self ..

theorem next_threads_of_ne (s : Sys cfg) {t u : ℕ} (store : Logdb cfg) (pc : Pc cfg)
    (h : u ≠ t) : (s.next t store pc).threads u = s.threads u := Function.update_of_ne h ..

@[simp] theorem next_next (s : Sys cfg) (t : ℕ) (store store' : Logdb cfg) (pc pc' : Pc cfg) :
    (s.next t store pc).next t store' pc' = s.next t store' pc' := by
  simp only [next, Function.update_idem]

theorem next_self {s : Sys cfg} {t : ℕ} {pc : Pc cfg} (h : s.threads t = pc) :
    s.next t s.store pc = s := by
  rw [next, ← h, Function.update_eq_self]

@[simp] theorem next_returns (s : Sys cfg) (t : ℕ) (store : Logdb cfg) (pc : Pc cfg) :
    (s.next t store pc).returns = s.returns := rfl

/-! ## The steps -/

section Steps

variable {s : Sys cfg} {t : ℕ} {store : Logdb cfg} {src : Option (Slot cfg)}
  {threadId : Fin 64} {k v w : UInt64} {p : PairT} {σ : Slot cfg} {ret : Bool} {op : Op} {r : Ret}

theorem runThread_insertStart :
    (s.next t store (.insertStart threadId k v)).runThread t =
      .ok (s.next t ⟨store.log.bump (cfg.xxh3 k), store.db⟩
      (.insertVersioned threadId (.insertRec (store.log.versionFor k) k v))) := by
  simp only [runThread, next_threads_self, next_next, next_store]
  rfl

theorem runThread_insertVersioned (hs : store.log.Slotted) (hroom : store.log.Room threadId p.key) :
    (s.next t store (.insertVersioned threadId p)).runThread t =
      .ok (s.next t
      ⟨store.log.afterAlloc (cfg.logFor threadId p.key) PairT.size, store.db⟩
      (.insertAllocated p (store.log.nextSlot (cfg.logFor threadId p.key)).ptr
        (store.log.nextSlot (cfg.logFor threadId p.key)).word)) := by
  simp only [runThread, next_threads_self, next_next, next_store, hs.allocLog_of_room hroom]
  rfl

theorem runThread_insertAllocated (hs : store.log.Slotted) (hσ : store.log.Live σ) :
    (s.next t store (.insertAllocated p σ.ptr w)).runThread t =
      .ok (s.next t ⟨store.log.write σ p, store.db⟩
      (.insertStored p.key p.value w)) := by
  simp only [runThread, next_threads_self, next_next, next_store, hs.storePersist_eq hσ]
  rfl

theorem runThread_insertStored :
    (s.next t store (.insertStored k v w)).runThread t =
      .ok (s.next t ⟨store.log, (store.db.insert k w).2⟩
      (.returning none (.insert k v) (.bool (store.db.insert k w).1))) := by
  simp only [runThread, next_threads_self, next_next, next_store]
  rfl

theorem runThread_updateStart :
    (s.next t store (.updateStart src threadId k v)).runThread t =
      .ok (s.next t ⟨store.log.bump (cfg.xxh3 k), store.db⟩
      (.updateVersioned src threadId
        (.updateRec (store.log.versionFor k) k v uint64Max))) := by
  simp only [runThread, next_threads_self, next_next, next_store]
  rfl

theorem runThread_updateVersioned (hs : store.log.Slotted) (hroom : store.log.Room threadId p.key) :
    (s.next t store (.updateVersioned src threadId p)).runThread t =
      .ok (s.next t
      ⟨store.log.afterAlloc (cfg.logFor threadId p.key) PairT.size, store.db⟩
      (.updateAllocated src p (store.log.nextSlot (cfg.logFor threadId p.key)).ptr
        (store.log.nextSlot (cfg.logFor threadId p.key)).word)) := by
  simp only [runThread, next_threads_self, next_next, next_store, hs.allocLog_of_room hroom]
  rfl

theorem runThread_updateAllocated_of_none (hdb : store.db p.key = none) :
    (s.next t store (.updateAllocated src p σ.ptr w)).runThread t =
      .ok (s.next t store
      (.returning src (.update p.key p.value) (.bool false))) := by
  simp only [runThread, next_threads_self, next_next, next_store, Index.update, hdb]
  rfl

theorem runThread_updateAllocated_of_some {old : UInt64} (hdb : store.db p.key = some old) :
    (s.next t store (.updateAllocated src p σ.ptr w)).runThread t =
      .ok (s.next t
      ⟨store.log, Function.update store.db p.key (some w)⟩
      (.updatePublished src (p.setLastLogOffest old) σ.ptr)) := by
  simp only [runThread, next_threads_self, next_next, next_store, Index.update, hdb]
  rfl

theorem runThread_updatePublished (hs : store.log.Slotted) (hσ : store.log.Live σ) :
    (s.next t store (.updatePublished src p σ.ptr)).runThread t =
      .ok (s.next t ⟨store.log.write σ p, store.db⟩
      (.returning src (.update p.key p.value) (.bool true))) := by
  simp only [runThread, next_threads_self, next_next, next_store, hs.storePersist_eq hσ]
  rfl

theorem runThread_eraseStart :
    (s.next t store (.eraseStart threadId k)).runThread t =
      .ok (s.next t store (.eraseSearched threadId k ((store.db k).getD 0))) := by
  simp only [runThread, next_threads_self, next_next, next_store]
  rfl

theorem runThread_eraseSearched :
    (s.next t store (.eraseSearched threadId k w)).runThread t =
      .ok (s.next t ⟨store.log, Function.update store.db k none⟩
      (.eraseErased threadId k w (store.db k).isSome)) := by
  simp only [runThread, next_threads_self, next_next, next_store]
  rfl

theorem runThread_eraseErased :
    (s.next t store (.eraseErased threadId k w ret)).runThread t =
      .ok (s.next t ⟨store.log.bump (cfg.xxh3 k), store.db⟩
      (.eraseVersioned threadId
        (.deleteRec (store.log.versionFor k) cfg.uninit k w) ret)) := by
  simp only [runThread, next_threads_self, next_next, next_store]
  rfl

theorem runThread_eraseVersioned (hs : store.log.Slotted) (hroom : store.log.Room threadId p.key) :
    (s.next t store (.eraseVersioned threadId p ret)).runThread t =
      .ok (s.next t
      ⟨store.log.afterAlloc (cfg.logFor threadId p.key) PairT.size, store.db⟩
      (.eraseAllocated p (store.log.nextSlot (cfg.logFor threadId p.key)).ptr ret)) := by
  simp only [runThread, next_threads_self, next_next, next_store, hs.allocLog_of_room hroom]
  rfl

theorem runThread_eraseAllocated (hs : store.log.Slotted) (hσ : store.log.Live σ) :
    (s.next t store (.eraseAllocated p σ.ptr ret)).runThread t =
      .ok (s.next t ⟨store.log.write σ p, store.db⟩
      (.returning none (.erase p.key) (.bool ret))) := by
  simp only [runThread, next_threads_self, next_next, next_store, hs.storePersist_eq hσ]
  rfl

theorem runThread_searchStart_of_none (hdb : store.db k = none) :
    (s.next t store (.searchStart k)).runThread t =
      .ok (s.next t store (.returning none (.search k) (.found none))) := by
  simp only [runThread, next_threads_self, next_next, next_store, hdb]
  rfl

theorem runThread_searchStart_of_some (hdb : store.db k = some w) :
    (s.next t store (.searchStart k)).runThread t =
      .ok (s.next t store (.searchFound k w)) := by
  simp only [runThread, next_threads_self, next_next, next_store, hdb]
  rfl

theorem runThread_searchFound (hs : store.log.Slotted) (hσ : store.log.Live σ)
    (hshard : σ.log.hash = cfg.shard k) :
    (s.next t store (.searchFound k σ.word)).runThread t =
      .ok (s.next t store
      (.returning none (.search k) (.found (some (store.log.recAt σ).value)))) := by
  simp only [runThread, next_threads_self, next_next, next_store, hs.getAddr_eq hσ hshard,
    bind, Except.bind, hs.readPayload_eq hσ]
  rfl

theorem runThread_returning :
    (s.next t store (.returning none op r)).runThread t =
      .ok { s.next t store .idle with returns := s.returns ++ [(op, r)] } := by
  simp only [runThread, next_threads_self, next_next, next_store]
  rfl

theorem runThread_returning_relocation :
    (s.next t store (.returning (some σ) op r)).runThread t = .ok (s.next t store .idle) := by
  simp only [runThread, next_threads_self, next_next, next_store]
  rfl

/-- What a step of thread `t` does, by where the thread stands. -/
inductive Ran (s : Sys cfg) (t : ℕ) : Pc cfg → Sys cfg → Prop
  /-- nothing -/
  | idle : Ran s t .idle s
  /-- `insert` takes a version -/
  | insertStart (threadId : Fin 64) (k v : UInt64) : Ran s t (.insertStart threadId k v)
      (s.next t ⟨s.store.log.bump (cfg.xxh3 k), s.store.db⟩ (.insertVersioned threadId
        (((PairT.ofKeyValue k v).setVersion (s.store.log.versionFor k)).setOp .insert)))
  /-- `insert` allocates -/
  | insertVersioned (threadId : Fin 64) (p : PairT) {logAddr : Ptr cfg} {logInfo : LastLogOffest}
      {log : LogKV cfg} (halloc : s.store.log.allocLog threadId (cfg.xxh3 p.key)
        ⟨PairT.vlen, 255, 0, 0⟩ PairT.size = .ok (logAddr, logInfo, log)) :
      Ran s t (.insertVersioned threadId p) (s.next t ⟨log, s.store.db⟩
        (.insertAllocated p logAddr logInfo.toUint64Offset))
  /-- `insert` stores the record -/
  | insertAllocated (p : PairT) (logAddr : Ptr cfg) (logOffset : UInt64) {log : LogKV cfg}
      (hstore : s.store.log.storePersist logAddr p = .ok log) :
      Ran s t (.insertAllocated p logAddr logOffset) (s.next t ⟨log, s.store.db⟩
        (.insertStored p.key p.value logOffset))
  /-- `insert` inserts into the index -/
  | insertStored (k v logOffset : UInt64) : Ran s t (.insertStored k v logOffset)
      (s.next t ⟨s.store.log, (s.store.db.insert k logOffset).2⟩
        (.returning none (.insert k v) (.bool (s.store.db.insert k logOffset).1)))
  /-- `update` takes a version -/
  | updateStart (src : Option (Slot cfg)) (threadId : Fin 64) (k v : UInt64) :
      Ran s t (.updateStart src threadId k v)
        (s.next t ⟨s.store.log.bump (cfg.xxh3 k), s.store.db⟩ (.updateVersioned src threadId
          (((PairT.ofKeyValue k v).setVersion (s.store.log.versionFor k)).setOp .update)))
  /-- `update` allocates -/
  | updateVersioned (src : Option (Slot cfg)) (threadId : Fin 64) (p : PairT) {logAddr : Ptr cfg}
      {logInfo : LastLogOffest} {log : LogKV cfg} (halloc : s.store.log.allocLog threadId
        (cfg.xxh3 p.key) ⟨PairT.vlen, 255, 0, 0⟩ PairT.size = .ok (logAddr, logInfo, log)) :
      Ran s t (.updateVersioned src threadId p) (s.next t ⟨log, s.store.db⟩
        (.updateAllocated src p logAddr logInfo.toUint64Offset))
  /-- `update` does not find the key in the index -/
  | updateMissing (src : Option (Slot cfg)) (p : PairT) (logAddr : Ptr cfg) (curLogAddr : UInt64)
      (hdb : s.store.db p.key = none) : Ran s t (.updateAllocated src p logAddr curLogAddr)
        (s.next t s.store (.returning src (.update p.key p.value) (.bool false)))
  /-- `update` exchanges the entry of the index -/
  | updateAllocated (src : Option (Slot cfg)) (p : PairT) (logAddr : Ptr cfg)
      (curLogAddr old : UInt64) (hdb : s.store.db p.key = some old) :
      Ran s t (.updateAllocated src p logAddr curLogAddr)
        (s.next t ⟨s.store.log, Function.update s.store.db p.key (some curLogAddr)⟩
          (.updatePublished src (p.setLastLogOffest old) logAddr))
  /-- `update` stores the record -/
  | updatePublished (src : Option (Slot cfg)) (p : PairT) (logAddr : Ptr cfg) {log : LogKV cfg}
      (hstore : s.store.log.storePersist logAddr p = .ok log) :
      Ran s t (.updatePublished src p logAddr) (s.next t ⟨log, s.store.db⟩
        (.returning src (.update p.key p.value) (.bool true)))
  /-- `erase` searches the index -/
  | eraseStart (threadId : Fin 64) (k : UInt64) : Ran s t (.eraseStart threadId k)
      (s.next t s.store (.eraseSearched threadId k ((s.store.db k).getD 0)))
  /-- `erase` erases from the index -/
  | eraseSearched (threadId : Fin 64) (k addrInfo : UInt64) :
      Ran s t (.eraseSearched threadId k addrInfo)
        (s.next t ⟨s.store.log, (s.store.db.erase k).2⟩
          (.eraseErased threadId k addrInfo (s.store.db.erase k).1))
  /-- `erase` takes a version -/
  | eraseErased (threadId : Fin 64) (k addrInfo : UInt64) (ret : Bool) :
      Ran s t (.eraseErased threadId k addrInfo ret)
        (s.next t ⟨s.store.log.bump (cfg.xxh3 k), s.store.db⟩ (.eraseVersioned threadId
          ((((PairT.ofKey cfg.uninit k).setVersion (s.store.log.versionFor k)).setOp
            .delete).setLastLogOffest addrInfo) ret))
  /-- `erase` allocates -/
  | eraseVersioned (threadId : Fin 64) (p : PairT) (ret : Bool) {logAddr : Ptr cfg}
      {logInfo : LastLogOffest} {log : LogKV cfg} (halloc : s.store.log.allocLog threadId
        (cfg.xxh3 p.key) ⟨0, 255, 0, 0⟩ PairT.size = .ok (logAddr, logInfo, log)) :
      Ran s t (.eraseVersioned threadId p ret) (s.next t ⟨log, s.store.db⟩
        (.eraseAllocated p logAddr ret))
  /-- `erase` stores the record -/
  | eraseAllocated (p : PairT) (logAddr : Ptr cfg) (ret : Bool) {log : LogKV cfg}
      (hstore : s.store.log.storePersist logAddr p = .ok log) :
      Ran s t (.eraseAllocated p logAddr ret) (s.next t ⟨log, s.store.db⟩
        (.returning none (.erase p.key) (.bool ret)))
  /-- `search` does not find the key in the index -/
  | searchMissing (k : UInt64) (hdb : s.store.db k = none) : Ran s t (.searchStart k)
      (s.next t s.store (.returning none (.search k) (.found none)))
  /-- `search` finds the key in the index -/
  | searchStart (k addrInfo : UInt64) (hdb : s.store.db k = some addrInfo) :
      Ran s t (.searchStart k) (s.next t s.store (.searchFound k addrInfo))
  /-- `search` reads the payload -/
  | searchFound (k addrInfo : UInt64) {pmemAddr : Ptr cfg} {v : UInt64}
      (haddr : s.store.log.getAddr (.ofAddrInfo addrInfo) (cfg.xxh3 k) = .ok pmemAddr)
      (hread : s.store.log.readPayload pmemAddr = .ok v) :
      Ran s t (.searchFound k addrInfo)
        (s.next t s.store (.returning none (.search k) (.found (some v))))
  /-- the call returns -/
  | returning (src : Option (Slot cfg)) (op : Op) (ret : Ret) : Ran s t (.returning src op ret)
      { s.next t s.store .idle with
        returns := if src.isNone then s.returns ++ [(op, ret)] else s.returns }

/-- **What a step of a thread does.** -/
theorem ran_of_runThread {s' : Sys cfg} (h : s.runThread t = .ok s') :
    s.Ran t (s.threads t) s' := by
  cases hth : s.threads t with
  | idle | insertStart threadId k v | insertStored k v w | updateStart src threadId k v
  | eraseStart threadId k | eraseSearched threadId k w | eraseErased threadId k w ret
  | returning src op ret =>
    simp only [runThread, hth] at h
    obtain rfl := Except.ok.inj h
    constructor
  | insertVersioned threadId p | updateVersioned src threadId p | eraseVersioned threadId p ret =>
    simp only [runThread, hth] at h
    obtain ⟨⟨a, li, log⟩, halloc, h⟩ := bind_eq_ok h
    obtain rfl := Except.ok.inj h
    constructor
    exact halloc
  | insertAllocated p a w | updatePublished src p a | eraseAllocated p a ret =>
    simp only [runThread, hth] at h
    obtain ⟨log, hstore, h⟩ := bind_eq_ok h
    obtain rfl := Except.ok.inj h
    constructor
    exact hstore
  | updateAllocated src p a w =>
    cases hdb : s.store.db p.key with
    | none =>
      simp only [runThread, hth, Index.update, hdb] at h
      obtain rfl := Except.ok.inj h
      exact .updateMissing src p a w hdb
    | some old =>
      simp only [runThread, hth, Index.update, hdb] at h
      obtain rfl := Except.ok.inj h
      exact .updateAllocated src p a w old hdb
  | searchStart k =>
    cases hdb : s.store.db k with
    | none =>
      simp only [runThread, hth, hdb] at h
      obtain rfl := Except.ok.inj h
      exact .searchMissing k hdb
    | some w =>
      simp only [runThread, hth, hdb] at h
      obtain rfl := Except.ok.inj h
      exact .searchStart k w hdb
  | searchFound k w =>
    simp only [runThread, hth] at h
    obtain ⟨a, haddr, h⟩ := bind_eq_ok h
    obtain ⟨v, hread, h⟩ := bind_eq_ok h
    obtain rfl := Except.ok.inj h
    exact .searchFound k w haddr hread

/-- A step of one thread does not move another. -/
theorem runThread_other {s' : Sys cfg} {u : ℕ} (h : s.runThread t = .ok s') (hu : u ≠ t) :
    s'.threads u = s.threads u := by
  have hran := ran_of_runThread h
  generalize s.threads t = pc at hran
  cases hran with
  | idle => rfl
  | returning src op ret => exact next_threads_of_ne s s.store .idle hu
  | _ => exact next_threads_of_ne _ _ _ hu

end Steps

/-! ## One thread alone -/

/-- Let thread `t` take its next `n` steps. -/
def runAlone (t : ℕ) : ℕ → Sys cfg → Except Fault (Sys cfg)
  | 0, s => pure s
  | n + 1, s => s.runThread t >>= runAlone t n

theorem runAlone_succ {s s' : Sys cfg} {t : ℕ} (n : ℕ) (h : s.runThread t = .ok s') :
    runAlone t (n + 1) s = runAlone t n s' := by
  rw [runAlone, h]
  rfl

theorem runAlone_idle {s : Sys cfg} {t : ℕ} (h : s.threads t = .idle) (n : ℕ) :
    runAlone t n s = .ok s := by
  induction n with
  | zero => rfl
  | succ n ih =>
    have hstep : s.runThread t = .ok s := by
      simp only [runThread, h]
      rfl
    rw [runAlone_succ n hstep, ih]

/-- The return of a foreground call, and idling after it. -/
theorem runAlone_return {s : Sys cfg} {t : ℕ} {store : Logdb cfg} {op : Op} {r : Ret}
    (hidle : s.threads t = .idle) (n : ℕ) :
    runAlone t (n + 1) (s.next t store (.returning none op r)) =
      .ok { s with store, returns := s.returns ++ [(op, r)] } := by
  have hthreads : Function.update s.threads t .idle = s.threads := by
    rw [← hidle, Function.update_eq_self]
  refine (runAlone_succ n runThread_returning).trans ?_
  simp only [next, hthreads]
  exact runAlone_idle (s := { s with store, returns := s.returns ++ [(op, r)] }) hidle n

section Alone

variable {s : Sys cfg} {t : ℕ} {threadId : Fin 64} {k v : UInt64}

/-- The uninterrupted steps of `insert` do what `insert` does. -/
theorem runAlone_insert (hidle : s.threads t = .idle) (hs : s.store.log.Slotted) {ret : Bool}
    {store : Logdb cfg} (h : s.store.insert threadId k v = .ok (ret, store)) :
    runAlone t 6 (s.next t s.store (.insertStart threadId k v)) =
      .ok { s with store, returns := s.returns ++ [(.insert k v, .bool ret)] } := by
  rw [Logdb.insert_eq hs] at h
  split at h
  · rename_i hroom
    have hlive := LogKV.live_nextSlot_reserve hs threadId k
    have hindex : s.store.db.insert k (s.store.log.nextSlot (cfg.logFor threadId k)).word =
        ((s.store.db k).isNone, if (s.store.db k).isNone then Function.update s.store.db k
          (some (s.store.log.nextSlot (cfg.logFor threadId k)).word) else s.store.db) := by
      rw [Index.insert]
      cases s.store.db k <;> rfl
    obtain ⟨rfl, rfl⟩ := Prod.mk.inj (Except.ok.inj h)
    refine (runAlone_succ 5 runThread_insertStart).trans ?_
    refine (runAlone_succ 4
      (runThread_insertVersioned (by exact hs.bump) (by exact hroom))).trans ?_
    refine (runAlone_succ 3
      (runThread_insertAllocated (by exact hs.reserve hroom) (by exact hlive))).trans ?_
    refine (runAlone_succ 2 runThread_insertStored).trans ?_
    refine (runAlone_return hidle 1).trans ?_
    exact congrArg (fun q : Bool × Index => Except.ok { s with
      store := ⟨s.store.log.append threadId k (.insertRec (s.store.log.versionFor k) k v), q.2⟩
      returns := s.returns ++ [(Op.insert k v, Ret.bool q.1)] }) hindex
  · cases h

/-- The uninterrupted steps of `update` do what `update` does. -/
theorem runAlone_update (hidle : s.threads t = .idle) (hs : s.store.log.Slotted) {ret : Bool}
    {store : Logdb cfg} (h : s.store.update threadId k v = .ok (ret, store)) :
    runAlone t 6 (s.next t s.store (.updateStart none threadId k v)) =
      .ok { s with store, returns := s.returns ++ [(.update k v, .bool ret)] } := by
  cases hdb : s.store.db k with
  | none =>
    rw [Logdb.update_eq_of_none hs v hdb] at h
    split at h
    · rename_i hroom
      obtain ⟨rfl, rfl⟩ := Prod.mk.inj (Except.ok.inj h)
      refine (runAlone_succ 5 runThread_updateStart).trans ?_
      refine (runAlone_succ 4
        (runThread_updateVersioned (by exact hs.bump) (by exact hroom))).trans ?_
      refine (runAlone_succ 3 (runThread_updateAllocated_of_none (by exact hdb))).trans ?_
      exact runAlone_return hidle 2
    · cases h
  | some old =>
    rw [Logdb.update_eq_of_some hs v hdb] at h
    split at h
    · rename_i hroom
      have hlive := LogKV.live_nextSlot_reserve hs threadId k
      obtain ⟨rfl, rfl⟩ := Prod.mk.inj (Except.ok.inj h)
      refine (runAlone_succ 5 runThread_updateStart).trans ?_
      refine (runAlone_succ 4
        (runThread_updateVersioned (by exact hs.bump) (by exact hroom))).trans ?_
      refine (runAlone_succ 3 (runThread_updateAllocated_of_some (by exact hdb))).trans ?_
      refine (runAlone_succ 2
        (runThread_updatePublished (by exact hs.reserve hroom) (by exact hlive))).trans ?_
      exact runAlone_return hidle 1
    · cases h

/-- The uninterrupted steps of `erase` do what `erase` does. -/
theorem runAlone_erase (hidle : s.threads t = .idle) (hs : s.store.log.Slotted) {ret : Bool}
    {store : Logdb cfg} (h : s.store.erase threadId k = .ok (ret, store)) :
    runAlone t 6 (s.next t s.store (.eraseStart threadId k)) =
      .ok { s with store, returns := s.returns ++ [(.erase k, .bool ret)] } := by
  rw [Logdb.erase_eq hs] at h
  split at h
  · rename_i hroom
    have hlive := LogKV.live_nextSlot_reserve hs threadId k
    obtain ⟨rfl, rfl⟩ := Prod.mk.inj (Except.ok.inj h)
    refine (runAlone_succ 5 runThread_eraseStart).trans ?_
    refine (runAlone_succ 4 runThread_eraseSearched).trans ?_
    refine (runAlone_succ 3 runThread_eraseErased).trans ?_
    refine (runAlone_succ 2
      (runThread_eraseVersioned (by exact hs.bump) (by exact hroom))).trans ?_
    refine (runAlone_succ 1
      (runThread_eraseAllocated (by exact hs.reserve hroom) (by exact hlive))).trans ?_
    exact runAlone_return hidle 0
  · cases h

/-- The uninterrupted steps of `search` find what `search` finds. -/
theorem runAlone_search (hidle : s.threads t = .idle) {payload : Option UInt64}
    (h : s.store.search k = .ok payload) :
    runAlone t 6 (s.next t s.store (.searchStart k)) =
      .ok { s with returns := s.returns ++ [(.search k, .found payload)] } := by
  cases hdb : s.store.db k with
  | none =>
    simp only [Logdb.search, hdb] at h
    obtain rfl := Except.ok.inj h
    refine (runAlone_succ 5 (runThread_searchStart_of_none hdb)).trans ?_
    exact runAlone_return hidle 4
  | some addrInfo =>
    simp only [Logdb.search, hdb] at h
    obtain ⟨addr, haddr, h⟩ := bind_eq_ok h
    obtain ⟨v, hv, h⟩ := bind_eq_ok h
    obtain rfl := Except.ok.inj h
    have hread : (s.next t s.store (.searchFound k addrInfo)).runThread t =
        .ok (s.next t s.store (.returning none (.search k) (.found (some v)))) := by
      simp only [runThread, next_threads_self, next_next, next_store, haddr, bind, Except.bind, hv]
      rfl
    refine (runAlone_succ 5 (runThread_searchStart_of_some hdb)).trans ?_
    exact (runAlone_succ 4 hread).trans (runAlone_return hidle 3)

end Alone

/-- The action is a call of `c` by thread `t`, or a step of it, and the other threads
stand where they stand in `s`. -/
def Alone (s : Sys cfg) (t : ℕ) (c : Call) (s' : Sys cfg) (a : Action cfg) : Prop :=
  (a = .call t c ∨ a = .run t) ∧ ∀ u, u ≠ t → s'.threads u = s.threads u

/-- **A thread alone makes the sequential call.** When the sequential call returns, so do
the six steps of an idle thread that starts it, with the same result and the same store,
and everything else as it was. -/
theorem run_alone {s : Sys cfg} {t : ℕ} {c : Call} {r : Ret} {store : Logdb cfg}
    (hidle : s.threads t = .idle) (hs : s.store.log.Slotted)
    (h : s.store.step c = .ok (r, store)) :
    Run step (s.Alone t c) s (.call t c :: List.replicate 6 (.run t))
      { s with store, returns := s.returns ++ [(c.op, r)] } := by
  have hcall : s.step (.call t c) = .ok (s.next t s.store c.start) := by
    simp only [step, hidle]
    rfl
  have halone : runAlone t 6 (s.next t s.store c.start) =
      .ok { s with store, returns := s.returns ++ [(c.op, r)] } := by
    obtain ⟨threadId, op⟩ := c
    cases op with
    | insert k v =>
      obtain ⟨⟨ret, store'⟩, hst, hr⟩ := bind_eq_ok h
      obtain ⟨rfl, rfl⟩ := Prod.mk.inj (Except.ok.inj hr)
      exact runAlone_insert hidle hs hst
    | update k v =>
      obtain ⟨⟨ret, store'⟩, hst, hr⟩ := bind_eq_ok h
      obtain ⟨rfl, rfl⟩ := Prod.mk.inj (Except.ok.inj hr)
      exact runAlone_update hidle hs hst
    | erase k =>
      obtain ⟨⟨ret, store'⟩, hst, hr⟩ := bind_eq_ok h
      obtain ⟨rfl, rfl⟩ := Prod.mk.inj (Except.ok.inj hr)
      exact runAlone_erase hidle hs hst
    | search k =>
      obtain ⟨payload, hst, hr⟩ := bind_eq_ok h
      obtain ⟨rfl, rfl⟩ := Prod.mk.inj (Except.ok.inj hr)
      exact runAlone_search hidle hst
  have hrun : ∀ (n : ℕ) (u u' : Sys cfg), (∀ x, x ≠ t → u.threads x = s.threads x) →
      runAlone t n u = .ok u' → Run step (s.Alone t c) u (List.replicate n (.run t)) u' := by
    intro n
    induction n with
    | zero =>
      intro u u' _ hu'
      obtain rfl := Except.ok.inj hu'
      exact .nil u
    | succ n ih =>
      intro u u' hother hu'
      obtain ⟨x, hx, hrest⟩ := bind_eq_ok hu'
      refine .cons ⟨.inr rfl, hother⟩ hx (ih x u' (fun y hy => ?_) hrest)
      rw [runThread_other hx hy, hother y hy]
  exact .cons ⟨.inl rfl, fun _ _ => rfl⟩ hcall
    (hrun 6 _ _ (fun _ hu => next_threads_of_ne _ _ _ hu) halone)

end Sys

end NaliStore
