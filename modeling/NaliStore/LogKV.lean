import NaliStore.Record
import NaliStore.Lib.Runs
import NaliStore.Lib.StdString
import Mathlib.Data.List.FinRange

/-!
# The sharded persistent log

`PPage`, `global_ppage_meta` and the address arithmetic of `LogKV` in
`src/src/nali_kvlog.h`. There is one log for every NUMA node and hash shard; a log
is a sequence of 16 MiB page files, of which only the newest is appended to, and a
table maps (node, shard, page number) to the address the page is mapped at.

Persistent memory is a map from page files to bytes. An address is the page file it
points into and an offset, so two pages never overlap; the null pointer has no
page. A page file is identified by the three numbers its name is made of.

The C++ arrays have declared bounds: an access outside them, a dereference of the
null pointer and `exit(1)` are faults, after which there is no state.
-/

namespace NaliStore

open ByteMem

/-- `PPAGE_SIZE`: 16 MiB. -/
def ppageSize : ℕ := 16 * 1024 * 1024

/-- `numa_node_num` -/
abbrev numaNodeNum : ℕ := 2

theorem numaNodeNum_pos : 0 < numaNodeNum := Nat.two_pos

/-- `MAX_LOF_FILE_ID`: the page slots of one log in the address table. -/
def maxLofFileId : ℕ := 32

theorem ppageSize_eq : ppageSize = 16777216 := rfl

/-- What is fixed before the store is created. -/
structure Config where
  /-- `NALI_VERSION_SHARDS` -/
  shards : ℕ
  /-- `hash_key % NALI_VERSION_SHARDS` is defined -/
  shards_pos : 0 < shards
  /-- the shard arrays have 256 elements -/
  shards_le : shards ≤ 256
  /-- `XXH3_64bits` of an 8-byte key -/
  xxh3 : UInt64 → UInt64
  /-- what the constructor `Pair_t(k)` leaves in the value it does not initialise -/
  uninit : UInt64

/-- A store with one shard, whose hash is the key itself. -/
def oneShard : Config := ⟨1, by decide, by decide, id, 0⟩

/-- The same with two shards. -/
def twoShards : Config := ⟨2, by decide, by decide, id, 0⟩

variable {cfg : Config}

/-- The value of a `size_t` in an `int`. -/
def toInt (n : ℕ) : ℤ := Int.bmod n 4294967296

theorem toInt_of_lt {n : ℕ} (hn : n < 32) : toInt n = n := by
  unfold toInt
  rw [Int.bmod_def]
  omega

/-- The shard of a hash: `hash_key % NALI_VERSION_SHARDS`. -/
def Config.shardOf (cfg : Config) (hashKey : UInt64) : Fin cfg.shards :=
  ⟨hashKey.toNat % cfg.shards, Nat.mod_lt _ cfg.shards_pos⟩

/-- `global_numa_map` as `init_numa_map` fills it, read by `get_numa_id`. -/
def getNumaId (threadId : Fin 64) : Fin numaNodeNum :=
  if threadId.val < 16 then 0
  else if threadId.val < 32 then 1
  else if threadId.val < 48 then 0
  else 1

/-- A log: a NUMA node and a hash shard. -/
@[ext] structure LogId (cfg : Config) where
  /-- `numa_id` -/
  numa : Fin numaNodeNum
  /-- `hash_id` -/
  hash : Fin cfg.shards
  deriving DecidableEq

/-- A page file, `nali_<numa>_<hash>_<page>`. -/
@[ext] structure PageId (cfg : Config) where
  /-- the log it belongs to -/
  log : LogId cfg
  /-- `ppage_id` -/
  page : ℕ
  deriving DecidableEq

/-- An address: a page and an offset in it. `none` is the null page. -/
@[ext] structure Ptr (cfg : Config) where
  /-- the page pointed into -/
  base : Option (PageId cfg)
  /-- the offset from its start -/
  off : ℕ
  deriving DecidableEq

/-- How the program can stop. -/
inductive Fault where
  /-- `exit(1)`: the page file to create exists already -/
  | fileExists
  /-- an array is accessed outside its declared bounds -/
  | outOfBounds
  /-- a null or unmapped address is dereferenced -/
  | segv
  /-- an exception that nothing catches -/
  | uncaught
  /-- a loop that does not end -/
  | diverges
  deriving DecidableEq, Repr

/-- `PPage` with its `ppage_header`: the DRAM state of a log. -/
@[ext] structure PPage (cfg : Config) where
  /-- `start_addr_` -/
  startAddr : Option (PageId cfg)
  /-- `ppage_id`, a `size_t` that starts at -1 -/
  ppageId : ℕ
  /-- `sz_allocated` -/
  szAllocated : ℕ

/-- The state of `LogKV`, with the page files and the global page table. -/
@[ext] structure LogKV (cfg : Config) where
  /-- the page files and their bytes -/
  pmem : PageId cfg → Option Mem
  /-- `start_addr_arr_` -/
  startAddrArr : PageId cfg → Option (PageId cfg)
  /-- `sz_freed` -/
  szFreed : PageId cfg → ℕ
  /-- `ppage_` -/
  ppage : LogId cfg → PPage cfg
  /-- `version_allocator_` -/
  version : Fin cfg.shards → ℕ

namespace LogKV

/-! ## Memory access -/

/-- The bytes of the page an address points into. -/
def page (s : LogKV cfg) (p : Ptr cfg) : Except Fault Mem :=
  match p.base with
  | none => .error .segv
  | some pg =>
    match s.pmem pg with
    | none => .error .segv
    | some m => .ok m

/-- Read a record through a `Pair_t *`. -/
def load (s : LogKV cfg) (p : Ptr cfg) : Except Fault PairT := do
  let m ← s.page p
  pure (PairT.view m p.off)

/-- Replace the bytes of a page. -/
def setPage (s : LogKV cfg) (pg : PageId cfg) (m : Mem) : LogKV cfg :=
  { s with pmem := Function.update s.pmem pg (some m) }

/-- `store_persist` at an address. -/
def storePersist (s : LogKV cfg) (p : Ptr cfg) (r : PairT) : Except Fault (LogKV cfg) :=
  match p.base with
  | none => .error .segv
  | some pg =>
    match s.pmem pg with
    | none => .error .segv
    | some m => .ok (s.setPage pg (PairT.storePersist m p.off r))

/-! ## Allocation -/

/-- `alloc_new_ppage`: create the page file, fill it with ones, enter it in the
address table. `pmem_map_file` is taken to succeed. -/
def allocNewPpage (s : LogKV cfg) (pg : PageId cfg) :
    Except Fault (PageId cfg × LogKV cfg) :=
  if (s.pmem pg).isSome then .error .fileExists
  else if pg.page < maxLofFileId then
    .ok (pg, { s with
      pmem := Function.update s.pmem pg (some (fill 0xff))
      startAddrArr := Function.update s.startAddrArr pg (some pg) })
  else .error .outOfBounds

/-- Move log `l` to its next page, as the constructor of `PPage` and the overflow
branch of `PPage::alloc` do. -/
def nextPpage (s : LogKV cfg) (l : LogId cfg) : Except Fault (LogKV cfg) := do
  let ppageId := ((s.ppage l).ppageId + 1) % 2 ^ 64
  let (startAddr, s) ← s.allocNewPpage ⟨l, ppageId⟩
  pure { s with ppage := Function.update s.ppage l ⟨some startAddr, ppageId, 0⟩ }

/-- `PPage::alloc`; the value length of `logInfo` is the caller's. -/
def alloc (s : LogKV cfg) (l : LogId cfg) (logInfo : LastLogOffest) (allocSize : ℕ) :
    Except Fault (Ptr cfg × LastLogOffest × LogKV cfg) := do
  let s ← if allocSize > StdString.sizeSub ppageSize (s.ppage l).szAllocated then s.nextPpage l
    else pure s
  let h := s.ppage l
  let logInfo := { logInfo with
    numaId := UInt8.ofNat l.numa
    ppageId := UInt8.ofNat h.ppageId
    logOffset := UInt32.ofNat h.szAllocated }
  let ret : Ptr cfg := ⟨h.startAddr, h.szAllocated⟩
  pure (ret, logInfo, { s with
    ppage := Function.update s.ppage l { h with szAllocated := h.szAllocated + allocSize } })

/-- The log a thread appends a hash to. -/
def logOf (cfg : Config) (threadId : Fin 64) (hashKey : UInt64) : LogId cfg :=
  ⟨getNumaId threadId, cfg.shardOf hashKey⟩

/-- `alloc_log` -/
def allocLog (s : LogKV cfg) (threadId : Fin 64) (hashKey : UInt64) (logInfo : LastLogOffest)
    (allocSize : ℕ) : Except Fault (Ptr cfg × LastLogOffest × LogKV cfg) :=
  s.alloc (logOf cfg threadId hashKey) logInfo allocSize

/-- `get_addr`: look the page up in the table and add the offset. -/
def getAddr (s : LogKV cfg) (logInfo : LastLogOffest) (hashKey : UInt64) :
    Except Fault (Ptr cfg) :=
  if hn : logInfo.numaId.toNat < numaNodeNum then
    if logInfo.ppageId.toNat < maxLofFileId then
      .ok ⟨s.startAddrArr ⟨⟨⟨logInfo.numaId.toNat, hn⟩, cfg.shardOf hashKey⟩,
        logInfo.ppageId.toNat⟩, logInfo.logOffset.toNat⟩
    else .error .outOfBounds
  else .error .outOfBounds

/-- `version_alloctor::get_version` -/
def getVersion (s : LogKV cfg) (hashKey : UInt64) : ℕ × LogKV cfg :=
  let h := cfg.shardOf hashKey
  (s.version h, { s with version := Function.update s.version h (s.version h + 1) })

/-! ## The constructor -/

/-- Every log, in the order the constructor visits them. -/
def logs (cfg : Config) : List (LogId cfg) :=
  (List.finRange numaNodeNum).flatMap fun n => (List.finRange cfg.shards).map fun h => ⟨n, h⟩

/-- The DRAM state of `LogKV` before any page is created: `ppage_id` is `size_t(-1)`
and nothing is mapped. -/
def blank (pmem : PageId cfg → Option Mem) : LogKV cfg where
  pmem := pmem
  startAddrArr _ := none
  szFreed _ := 0
  ppage _ := ⟨none, 2 ^ 64 - 1, 0⟩
  version _ := 0

/-- One round of the constructor's loop: a new `PPage`, entered in the table. -/
def newPPage (recovery : Bool) (s : LogKV cfg) (l : LogId cfg) : Except Fault (LogKV cfg) := do
  let s ← if recovery then pure s else s.nextPpage l
  pure { s with
    startAddrArr := Function.update s.startAddrArr ⟨l, 0⟩ (s.ppage l).startAddr }

/-- The constructor `LogKV(recovery)`, run over the page files `pmem`. -/
def new (recovery : Bool) (pmem : PageId cfg → Option Mem) : Except Fault (LogKV cfg) :=
  (logs cfg).foldlM (newPPage recovery) (blank pmem)

end LogKV

end NaliStore
