import NaliStore.Chain
import Mathlib.Data.Rat.Defs
import Mathlib.Data.Set.Card
import Mathlib.Logic.Relation

/-!
# Garbage collection

`LogKV::do_gc` of `src/src/nali_kvlog.h`, run over the shards `[begin_pos, end_pos)` for
fixed 32-byte records. Both phases visit the pages that are older than the newest of
their log, from the highest file number down.

The first phase looks at UPDATE and DELETE records, follows their links to the records
they supersede until it meets one that is TRASH already, sets these records to TRASH and
counts the freed bytes of their pages. The second phase re-applies the INSERT and UPDATE
records that are left in the pages of which a sufficient part is free, each by an
ordinary `update` of the store.

This file is the model, and what the loops do to one page and to one slot.
-/

namespace NaliStore

open ByteMem Runs

variable {cfg : Config}

/-! ## The loops -/

/-- The three loops: the file numbers from `MAX_LOF_FILE_ID` down to 0, the NUMA nodes, the
shards from `beginPos` to `endPos`. -/
def gcPages (cfg : Config) (beginPos endPos : ℕ) : List (PageId cfg) :=
  (List.range (maxLofFileId + 1)).reverse.flatMap fun fileId =>
    (List.finRange numaNodeNum).flatMap fun numaId =>
      ((List.finRange cfg.shards).filter fun h => beginPos ≤ h.val ∧ h.val < endPos).map
        fun hashId => ⟨⟨numaId, hashId⟩, fileId⟩

/-- The `global_thread_id` of the collector, from its number among the collectors. -/
def gcThreadId (id : Fin 48) : Fin 64 :=
  ⟨if id.val < 16 then id.val else id.val + 16, by split <;> omega⟩

namespace LogKV

/-- `get_page_start_addr` -/
def getPageStartAddr (s : LogKV cfg) (pg : PageId cfg) : Except Fault (Option (PageId cfg)) :=
  if pg.page < maxLofFileId then .ok (s.startAddrArr pg) else .error .outOfBounds

/-- The head of the inner loops: skip the newest page of a log, and what is not mapped. -/
def visitPage {α : Type} (s : LogKV cfg) (pg : PageId cfg) (skip : α)
    (body : PageId cfg → Except Fault α) : Except Fault α :=
  let newestPageId := toInt (s.ppage pg.log).ppageId
  if newestPageId ≤ pg.page then pure skip
  else do
    match ← s.getPageStartAddr pg with
    | none => pure skip
    | some startAddr => body startAddr

/-- `log_->op = o` -/
def storeOp (s : LogKV cfg) (p : Ptr cfg) (o : OpT) : Except Fault (LogKV cfg) :=
  match p.base with
  | none => .error .segv
  | some pg =>
    match s.pmem pg with
    | none => .error .segv
    | some m => .ok (s.setPage pg (PairT.storeOp m p.off o))

/-- `sz_freed[..][..][..] += 32` -/
def addFreed (s : LogKV cfg) (li : LastLogOffest) (keyHash : UInt64) : Except Fault (LogKV cfg) :=
  if hn : li.numaId.toNat < numaNodeNum then
    if li.ppageId.toNat < maxLofFileId then
      let pg : PageId cfg := ⟨⟨⟨li.numaId.toNat, hn⟩, cfg.shardOf keyHash⟩, li.ppageId.toNat⟩
      .ok { s with szFreed := Function.update s.szFreed pg (s.szFreed pg + 32) }
    else .error .outOfBounds
  else .error .outOfBounds

/-! ## The first phase -/

/-- More than the records of a shard: a chain of links that is longer goes in a circle. -/
def chainBound : ℕ := numaNodeNum * logCapacity + 1

/-- The `while` loop over `next_old_log`, for as many rounds as the first argument says. -/
def oldLogs (s : LogKV cfg) (keyHash : UInt64) : ℕ → UInt64 →
    Except Fault (List (UInt64 × Ptr cfg))
  | 0, _ => .error .diverges
  | n + 1, nextOldLog =>
    if nextOldLog = uint64Max then pure []
    else do
      let log ← s.getAddr (.ofAddrInfo nextOldLog) keyHash
      let r ← s.load log
      if r.op = .trash then pure []
      else do
        let oldLog ← s.oldLogs keyHash n r.uOffset
        pure ((nextOldLog, log) :: oldLog)

/-- One round of the loop that sets the old records invalid. -/
def setInvalid (keyHash : UInt64) (s : LogKV cfg) (old : UInt64 × Ptr cfg) :
    Except Fault (LogKV cfg) := do
  let s ← s.storeOp old.2 .trash
  s.addFreed (.ofAddrInfo old.1) keyHash

/-- The record at slot `i` of page `pg`, which is mapped at `startAddr`. -/
def markRecord (pg startAddr : PageId cfg) (s : LogKV cfg) (i : ℕ) : Except Fault (LogKV cfg) := do
  let offset := PairT.size * i
  let r ← s.load ⟨some startAddr, offset⟩
  if r.op = .update ∨ r.op = .delete then do
    let keyHash := cfg.xxh3 r.key
    let logInfo : LastLogOffest :=
      ⟨8, UInt8.ofNat pg.log.numa, UInt8.ofNat pg.page, UInt32.ofNat offset⟩
    let self : List (UInt64 × Ptr cfg) :=
      if r.op = .delete then [(logInfo.toUint64Offset, ⟨some startAddr, offset⟩)] else []
    let oldLog ← s.oldLogs keyHash chainBound r.uOffset
    (self ++ oldLog).reverse.foldlM (setInvalid keyHash) s
  else pure s

/-- The first phase on one page. -/
def markPage (s : LogKV cfg) (pg : PageId cfg) : Except Fault (LogKV cfg) :=
  s.visitPage pg s fun startAddr =>
    (List.range (ppageSize / PairT.size)).foldlM (markRecord pg startAddr) s

end LogKV

/-! ## The second phase -/

namespace Logdb

/-- The record at slot `i` of the page mapped at `startAddr`: `db_->update` if it is still
an INSERT or UPDATE record. -/
def relocateRecord (threadId : Fin 64) (startAddr : PageId cfg) (s : Logdb cfg) (i : ℕ) :
    Except Fault (Logdb cfg) := do
  let r ← s.log.load ⟨some startAddr, PairT.size * i⟩
  if r.op = .insert ∨ r.op = .update then do
    let (_, s) ← s.update threadId r.key r.value
    pure s
  else pure s

/-- The second phase on one page. Freed bytes are at most 2 ^ 24, so the quotient and the
comparison are exact in `double`. -/
def relocatePage (gcThreshold : ℚ) (threadId : Fin 64) (s : Logdb cfg) (pg : PageId cfg) :
    Except Fault (Logdb cfg) :=
  s.log.visitPage pg s fun startAddr =>
    if gcThreshold ≤ (s.log.szFreed pg : ℚ) / ppageSize then do
      let s ← (List.range (ppageSize / PairT.size)).foldlM (relocateRecord threadId startAddr) s
      pure ⟨{ s.log with szFreed := Function.update s.log.szFreed pg 0 }, s.db⟩
    else pure s

/-- `do_gc` -/
def doGc (gcThreshold : ℚ) (id : Fin 48) (beginPos endPos : ℕ) (s : Logdb cfg) :
    Except Fault (Logdb cfg) := do
  let log ← (gcPages cfg beginPos endPos).foldlM LogKV.markPage s.log
  (gcPages cfg beginPos endPos).foldlM (relocatePage gcThreshold (gcThreadId id)) ⟨log, s.db⟩

end Logdb

/-! ## Records set to TRASH -/

theorem PageId.ptr_slotAt (pg : PageId cfg) {i : ℕ} (hi : i < slotsPerPage) :
    (pg.slotAt i).ptr = ⟨some pg, PairT.size * i⟩ := by
  rw [Slot.ptr, pg.pageId_slotAt hi, pg.off_slotAt hi]

/-- The information of a slot, from the numbers of its page and its offset. -/
theorem PageId.info_slotAt (pg : PageId cfg) {i : ℕ} (hi : i < slotsPerPage) :
    (pg.slotAt i).info PairT.vlen =
      ⟨8, UInt8.ofNat pg.log.numa, UInt8.ofNat pg.page, UInt32.ofNat (PairT.size * i)⟩ := by
  rw [Slot.info, pg.pageId_slotAt hi, pg.off_slotAt hi]
  rfl

namespace LogKV

/-- The page of the slot is older than the newest of its log. -/
def Old (s : LogKV cfg) (pg : PageId cfg) : Prop := pg.page < (s.ppage pg.log).ppageId

section Visit

variable {s : LogKV cfg} {pg : PageId cfg} {α : Type} {skip : α}
  {body : PageId cfg → Except Fault α}

/-- The body runs on the pages below the newest. -/
theorem Slotted.visitPage_old (h : s.Slotted) (hold : s.Old pg) :
    s.visitPage pg skip body = body pg := by
  have hlt := h.wf.page_lt pg.log
  have hnewest := toInt_of_lt hlt
  have hpage : pg.page < maxLofFileId := hold.trans hlt
  have htable := h.wf.table pg.log pg.page (le_of_lt hold)
  simp only [visitPage, hnewest, Nat.cast_le, Nat.not_le.mpr hold, if_false, getPageStartAddr,
    if_pos hpage]
  rw [show s.startAddrArr pg = some pg from htable]
  rfl

theorem Slotted.visitPage_of_not_old (h : s.Slotted) (hold : ¬ s.Old pg) :
    s.visitPage pg skip body = .ok skip := by
  have hnewest := toInt_of_lt (h.wf.page_lt pg.log)
  simp only [visitPage, hnewest, Nat.cast_le, Nat.not_lt.mp hold, if_true]
  rfl

end Visit

section Trash

variable {s : LogKV cfg} {σ : Slot cfg}

/-- The log after a record has been set to TRASH and its bytes counted. -/
def trash (s : LogKV cfg) (σ : Slot cfg) : LogKV cfg :=
  { s.setPage σ.pageId (PairT.storeOp (s.bytes σ.pageId) σ.off .trash) with
    szFreed := Function.update s.szFreed σ.pageId (s.szFreed σ.pageId + 32) }

theorem recAt_trash : (s.trash σ).recAt = Function.update s.recAt σ ((s.recAt σ).setOp .trash) := by
  funext τ
  have hbytes : (s.trash σ).bytes τ.pageId = if τ.pageId = σ.pageId then
      PairT.storeOp (s.bytes σ.pageId) σ.off .trash else s.bytes τ.pageId :=
    bytes_setPage _ _ _
  rw [recAt, hbytes]
  by_cases hτ : τ = σ
  · subst hτ
    rw [if_pos rfl, PairT.view_storeOp_same, Function.update_self, recAt]
  · rw [Function.update_of_ne hτ, recAt]
    split
    · rename_i hpage
      rw [PairT.view_storeOp_disjoint _ _ (Slot.disjoint_of_ne hpage hτ).symm, hpage]
    · rfl

theorem Slotted.trash (h : s.Slotted) (hσ : s.Live σ) : (s.trash σ).Slotted where
  wf := by
    have hwf : (s.setPage σ.pageId (PairT.storeOp (s.bytes σ.pageId) σ.off .trash)).WF :=
      h.wf.setPage (h.page_le hσ)
    exact ⟨hwf.page_lt, hwf.start, hwf.sz_le, hwf.table, hwf.table_none, hwf.file, hwf.file_none⟩
  dvd := h.dvd
  unwritten τ hτ := by
    have hne : τ ≠ σ := by
      rintro rfl
      exact hτ hσ
    rw [recAt_trash, Function.update_of_ne hne]
    exact h.unwritten τ hτ

end Trash

end LogKV

end NaliStore
