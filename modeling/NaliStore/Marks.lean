import NaliStore.Gc

/-!
# The first phase on any well-linked log

`Gc` follows the first phase of `do_gc` from the states of a run. Here the log is any log
whose links make sense: the link of a record that is not TRASH is the sentinel or resolves
to an earlier record of the same key in the same shard, and TRASH is linked to TRASH only.
Links are taken as the code takes them, through the address table and the shard of the
key, and the collector may have any range of shards.

The phase ends, and it sets exactly the records to TRASH that it should, each once. The
records of a walk go **oldest first**: after every single store of an op whatever is linked
from TRASH is TRASH, so a walk that stops at a TRASH record has missed nothing.

Two things the walk does not look at. A DELETE record goes with its own walk, whether or
not the index names it, and the bytes it frees are counted in the shard of its key, wherever
the record lies.
-/

namespace NaliStore

open ByteMem Runs

variable {cfg : Config}

/-! ## The phase, with a record of its stores -/

namespace LogKV

section With

variable {α : Type} (log : α → LogKV cfg)
  (setInvalid : UInt64 → α → UInt64 × Ptr cfg → Except Fault α)

/-- `markRecord`, over states that hold a log. -/
def markRecordWith (pg startAddr : PageId cfg) (a : α) (i : ℕ) : Except Fault α := do
  let offset := PairT.size * i
  let r ← (log a).load ⟨some startAddr, offset⟩
  if r.op = .update ∨ r.op = .delete then do
    let keyHash := cfg.xxh3 r.key
    let logInfo : LastLogOffest :=
      ⟨8, UInt8.ofNat pg.log.numa, UInt8.ofNat pg.page, UInt32.ofNat offset⟩
    let self : List (UInt64 × Ptr cfg) :=
      if r.op = .delete then [(logInfo.toUint64Offset, ⟨some startAddr, offset⟩)] else []
    let oldLog ← (log a).oldLogs keyHash chainBound r.uOffset
    (self ++ oldLog).reverse.foldlM (setInvalid keyHash) a
  else pure a

/-- `markPage`, over states that hold a log. -/
def markPageWith (a : α) (pg : PageId cfg) : Except Fault α :=
  (log a).visitPage pg a fun startAddr =>
    (List.range (ppageSize / PairT.size)).foldlM (markRecordWith log setInvalid pg startAddr) a

end With

theorem markPage_eq_with :
    (markPage : LogKV cfg → PageId cfg → Except Fault (LogKV cfg)) = markPageWith id setInvalid :=
  rfl

end LogKV

/-- A log and the states it was in right after each store of an op. -/
structure Audit (cfg : Config) where
  /-- the log now -/
  log : LogKV cfg
  /-- the states, oldest first -/
  states : List (LogKV cfg)

namespace Audit

/-- One round of the loop that sets the old records invalid, with the state between its two
statements. -/
def setInvalid (keyHash : UInt64) (a : Audit cfg) (old : UInt64 × Ptr cfg) :
    Except Fault (Audit cfg) := do
  let s ← a.log.storeOp old.2 .trash
  let t ← s.addFreed (.ofAddrInfo old.1) keyHash
  pure ⟨t, a.states ++ [s]⟩

/-- The first phase on one page, with the states. -/
def markPage : Audit cfg → PageId cfg → Except Fault (Audit cfg) :=
  LogKV.markPageWith log setInvalid

end Audit

/-! ## Forgetting the states -/

section Forget

variable {α β : Type} {log : α → LogKV cfg} {log' : β → LogKV cfg}
  {f : UInt64 → α → UInt64 × Ptr cfg → Except Fault α}
  {g : UInt64 → β → UInt64 × Ptr cfg → Except Fault β} {forget : α → β}

theorem LogKV.map_visitPage (s : LogKV cfg) (pg : PageId cfg) (skip : α)
    (body : PageId cfg → Except Fault α) :
    (s.visitPage pg skip body).map forget =
      s.visitPage pg (forget skip) fun startAddr => (body startAddr).map forget := by
  simp only [visitPage]
  split
  · rfl
  · cases s.getPageStartAddr pg with
    | error e => rfl
    | ok p =>
      cases p with
      | none => rfl
      | some startAddr => rfl

theorem LogKV.map_markRecordWith (hlog : ∀ a, log' (forget a) = log a)
    (hstep : ∀ keyHash a old, (f keyHash a old).map forget = g keyHash (forget a) old)
    (pg startAddr : PageId cfg) (a : α) (i : ℕ) :
    (markRecordWith log f pg startAddr a i).map forget =
      markRecordWith log' g pg startAddr (forget a) i := by
  simp only [markRecordWith, hlog]
  cases (log a).load ⟨some startAddr, PairT.size * i⟩ with
  | error e => rfl
  | ok r =>
    simp only [bind, Except.bind]
    split
    · cases (log a).oldLogs (cfg.xxh3 r.key) chainBound r.uOffset with
      | error e => rfl
      | ok oldLog => exact map_foldlM (hstep _) _ a
    · rfl

/-- The phase does to the log what it does without the states. -/
theorem LogKV.map_markPageWith (hlog : ∀ a, log' (forget a) = log a)
    (hstep : ∀ keyHash a old, (f keyHash a old).map forget = g keyHash (forget a) old)
    (a : α) (pg : PageId cfg) :
    (markPageWith log f a pg).map forget = markPageWith log' g (forget a) pg := by
  have hbody : ∀ startAddr, ((List.range (ppageSize / PairT.size)).foldlM
      (markRecordWith log f pg startAddr) a).map forget =
      (List.range (ppageSize / PairT.size)).foldlM
        (markRecordWith log' g pg startAddr) (forget a) :=
    fun startAddr => map_foldlM (map_markRecordWith hlog hstep pg startAddr) _ a
  simp only [markPageWith, map_visitPage, hlog, hbody]

end Forget

theorem Audit.map_setInvalid (keyHash : UInt64) (a : Audit cfg) (old : UInt64 × Ptr cfg) :
    (a.setInvalid keyHash old).map log = LogKV.setInvalid keyHash a.log old := by
  simp only [Audit.setInvalid, LogKV.setInvalid]
  cases a.log.storeOp old.2 .trash with
  | error e => rfl
  | ok s =>
    simp only [bind, Except.bind]
    cases s.addFreed (.ofAddrInfo old.1) keyHash with
    | error e => rfl
    | ok t => rfl

/-- **The states are only looked on**: the log goes through the phase as `markPage` takes
it. -/
theorem Audit.map_markPages (pgs : List (PageId cfg)) (a : Audit cfg) :
    (pgs.foldlM markPage a).map log = pgs.foldlM LogKV.markPage a.log := by
  rw [LogKV.markPage_eq_with]
  apply map_foldlM
  intro s pg
  rw [markPage]
  apply LogKV.map_markPageWith
  · exact fun _ => rfl
  · exact map_setInvalid

/-! ## Well-linked logs -/

/-- The slots of the two logs of a shard. -/
def shardSlots (hash : Fin cfg.shards) : Finset (Slot cfg) :=
  (Finset.univ ×ˢ Finset.range logCapacity).image
    fun p : Fin numaNodeNum × ℕ => ⟨⟨p.1, hash⟩, p.2⟩

theorem mem_shardSlots {σ : Slot cfg} (h : σ.pos < logCapacity) : σ ∈ shardSlots σ.log.hash :=
  Finset.mem_image.mpr ⟨(σ.log.numa, σ.pos),
    Finset.mem_product.mpr ⟨Finset.mem_univ _, Finset.mem_range.mpr h⟩, rfl⟩

theorem card_shardSlots_lt (hash : Fin cfg.shards) :
    (shardSlots hash).card < LogKV.chainBound := by
  refine Nat.lt_succ_of_le (Finset.card_image_le.trans (le_of_eq ?_))
  rw [Finset.card_product, Finset.card_univ, Fintype.card_fin, Finset.card_range]

namespace LogKV

/-- The link of the record in `σ` resolves to `τ`, the way `do_gc` resolves it. -/
def LinkTo (b : LogKV cfg) (σ τ : Slot cfg) : Prop :=
  (b.recAt σ).uOffset ≠ uint64Max ∧
    b.getAddr (.ofAddrInfo (b.recAt σ).uOffset) (cfg.xxh3 (b.recAt σ).key) = .ok τ.ptr

/-- Everything linked from a TRASH record is TRASH. -/
def TrashClosed (b : LogKV cfg) : Prop :=
  ∀ σ τ, (b.recAt σ).op = .trash → b.LinkTo σ τ → (b.recAt τ).op = .trash

/-- The index names the record in `σ`, the way `get_addr` resolves it. -/
def Pointed (b : LogKV cfg) (db : Index) (σ : Slot cfg) : Prop :=
  ∃ k w, db k = some w ∧ b.getAddr (.ofAddrInfo w) (cfg.xxh3 k) = .ok σ.ptr

/-- No record that is not TRASH is linked to a record the index names. -/
def Superseding (b : LogKV cfg) (db : Index) : Prop :=
  ∀ σ τ, (b.recAt σ).op ≠ .trash → b.LinkTo σ τ → ¬ b.Pointed db τ

/-- A log whose links make sense, when the records were written in the order of `time`. -/
structure WellLinked (b : LogKV cfg) (time : Slot cfg → ℕ) : Prop where
  /-- the log consists of fixed-size slots -/
  slotted : b.Slotted
  /-- a link is the sentinel, or leads to an earlier record of the key and shard -/
  link : ∀ σ, (b.recAt σ).op ≠ .trash → (b.recAt σ).uOffset = uint64Max ∨
    ∃ τ, b.LinkTo σ τ ∧ b.Live τ ∧ (b.recAt τ).key = (b.recAt σ).key ∧
      τ.log.hash = σ.log.hash ∧ time τ < time σ
  /-- below TRASH there is only TRASH -/
  closed : b.TrashClosed

/-- The record is in an old page of one of the collector's shards. -/
def Swept (b : LogKV cfg) (beginPos endPos : ℕ) (σ : Slot cfg) : Prop :=
  (beginPos ≤ σ.log.hash.val ∧ σ.log.hash.val < endPos) ∧ b.Old σ.pageId

/-- What the first phase is to set to TRASH: the DELETE records in old pages, and what is
reachable by links from an UPDATE or DELETE record in an old page, unless TRASH already. -/
def Turned (b : LogKV cfg) (beginPos endPos : ℕ) (σ : Slot cfg) : Prop :=
  (b.recAt σ).op ≠ .trash ∧
    ((b.Swept beginPos endPos σ ∧ (b.recAt σ).op = .delete) ∨
      ∃ ρ, b.Swept beginPos endPos ρ ∧
        ((b.recAt ρ).op = .update ∨ (b.recAt ρ).op = .delete) ∧ Relation.TransGen b.LinkTo ρ σ)

/-- The page the freed bytes of a record are counted in: its node and page number, in the
shard of its key. -/
def charged (b : LogKV cfg) (σ : Slot cfg) : PageId cfg :=
  ⟨⟨σ.log.numa, cfg.shard (b.recAt σ).key⟩, σ.pageId.page⟩

/-- For a record in the shard of its key that is its own page. -/
theorem charged_eq {b : LogKV cfg} {σ : Slot cfg} (h : σ.log.hash = cfg.shard (b.recAt σ).key) :
    b.charged σ = σ.pageId :=
  PageId.ext (LogId.ext rfl h.symm) rfl

section Links

variable {b : LogKV cfg} {σ τ τ' : Slot cfg} {time : Slot cfg → ℕ}

theorem LinkTo.unique (h : b.LinkTo σ τ) (h' : b.LinkTo σ τ') : τ = τ' :=
  Slot.ptr_injective (Except.ok.inj (h.2.symm.trans h'.2))

/-- An address that resolves to a slot has the node and the page number of the slot. -/
theorem WF.getAddr_inv {s : LogKV cfg} (h : s.WF) {li : LastLogOffest} {keyHash : UInt64}
    (haddr : s.getAddr li keyHash = .ok τ.ptr) :
    li.numaId.toNat = τ.log.numa ∧ li.ppageId.toNat = τ.pageId.page ∧
      τ.log.hash = cfg.shardOf keyHash := by
  simp only [getAddr] at haddr
  split at haddr
  · split at haddr
    · rename_i hn hp
      have hbase := (Ptr.mk.inj (Except.ok.inj haddr)).1
      set l : LogId cfg := ⟨⟨li.numaId.toNat, hn⟩, cfg.shardOf keyHash⟩ with hl
      rcases Nat.lt_or_ge (s.ppage l).ppageId li.ppageId.toNat with hlt | hle
      · rw [h.table_none l _ hlt] at hbase
        cases hbase
      · rw [h.table l _ hle] at hbase
        have hpage : (⟨l, li.ppageId.toNat⟩ : PageId cfg) = τ.pageId := Option.some_inj.mp hbase
        have hlog : l = τ.log := congrArg PageId.log hpage
        refine ⟨congrArg (fun l => l.numa.val) hlog, congrArg PageId.page hpage, ?_⟩
        rw [← hlog]
    · cases haddr
  · cases haddr

/-- How many slots of its shard are earlier. -/
def rank (time : Slot cfg → ℕ) (σ : Slot cfg) : ℕ :=
  ((shardSlots σ.log.hash).filter (time · < time σ)).card

theorem rank_lt_chainBound (time : Slot cfg → ℕ) (σ : Slot cfg) : rank time σ < chainBound :=
  (Finset.card_le_card (Finset.filter_subset ..)).trans_lt (card_shardSlots_lt _)

/-- Earlier in the shard is lower in rank. -/
theorem rank_lt_rank (hτ : τ.pos < logCapacity) (hhash : τ.log.hash = σ.log.hash)
    (hlt : time τ < time σ) : rank time τ < rank time σ := by
  refine Finset.card_lt_card (Finset.ssubset_iff_of_subset ?_ |>.mpr ⟨τ, ?_, ?_⟩)
  · intro x hx
    rw [Finset.mem_filter, hhash] at hx
    exact Finset.mem_filter.mpr ⟨hx.1, hx.2.trans hlt⟩
  · exact Finset.mem_filter.mpr ⟨hhash ▸ mem_shardSlots hτ, hlt⟩
  · intro hmem
    exact lt_irrefl _ (Finset.mem_filter.mp hmem).2

end Links

/-! ## Records set to TRASH -/

/-- The records of `b` in the slots `T` have been set to TRASH, each once. -/
structure Voided (b : LogKV cfg) (T : Finset (Slot cfg)) (s : LogKV cfg) : Prop where
  /-- the slots are as they were -/
  slotted : s.Slotted
  /-- nothing has been allocated -/
  ppage : s.ppage = b.ppage
  /-- nor mapped -/
  table : s.startAddrArr = b.startAddrArr
  /-- only ops have changed -/
  recAt : s.recAt = fun σ => if σ ∈ T then (b.recAt σ).setOp .trash else b.recAt σ
  /-- the bytes have been counted -/
  szFreed : ∀ pg, s.szFreed pg = b.szFreed pg + 32 * (T.filter (b.charged · = pg)).card

/-- The links of the records in `T` stay in `T` or lead to records that were TRASH. -/
def Down (b : LogKV cfg) (T : Finset (Slot cfg)) (σ : Slot cfg) : Prop :=
  ∀ τ, b.LinkTo σ τ → τ ∈ T ∨ (b.recAt τ).op = .trash

section Voided

variable {b s : LogKV cfg} {T : Finset (Slot cfg)} {σ τ : Slot cfg}

theorem Slotted.voided (h : b.Slotted) : b.Voided ∅ b where
  slotted := h
  ppage := rfl
  table := rfl
  recAt := rfl
  szFreed _ := rfl

theorem Voided.live_iff (h : b.Voided T s) : s.Live σ ↔ b.Live σ := by
  rw [Live, LogKV.used, h.ppage, Live, LogKV.used]

theorem Voided.old_iff (h : b.Voided T s) {pg : PageId cfg} : s.Old pg ↔ b.Old pg := by
  rw [Old, h.ppage, Old]

theorem Voided.recAt_of_mem (h : b.Voided T s) (hσ : σ ∈ T) :
    s.recAt σ = (b.recAt σ).setOp .trash := by
  rw [h.recAt]
  exact if_pos hσ

theorem Voided.recAt_of_not_mem (h : b.Voided T s) (hσ : σ ∉ T) : s.recAt σ = b.recAt σ := by
  rw [h.recAt]
  exact if_neg hσ

/-- The links are those of the log before. -/
theorem Voided.linkTo_iff (h : b.Voided T s) : s.LinkTo σ τ ↔ b.LinkTo σ τ := by
  have hget : ∀ li hk, s.getAddr li hk = b.getAddr li hk := by
    intro li hk
    simp only [getAddr, h.table]
  rcases Decidable.em (σ ∈ T) with hmem | hmem
  · rw [LinkTo, h.recAt_of_mem hmem, hget]
    exact Iff.rfl
  · rw [LinkTo, h.recAt_of_not_mem hmem, hget]
    exact Iff.rfl

theorem Voided.op_eq_trash_iff (h : b.Voided T s) :
    (s.recAt σ).op = .trash ↔ σ ∈ T ∨ (b.recAt σ).op = .trash := by
  rcases Decidable.em (σ ∈ T) with hmem | hmem
  · simp only [h.recAt_of_mem hmem, hmem, true_or, iff_true]
    rfl
  · simp only [h.recAt_of_not_mem hmem, hmem, false_or]

/-- Closed below, the set leaves a closed log. -/
theorem Voided.trashClosed (h : b.Voided T s) (hb : b.TrashClosed) (hdown : ∀ σ ∈ T, b.Down T σ) :
    s.TrashClosed := by
  intro σ τ hop hlink
  rw [h.linkTo_iff] at hlink
  rw [h.op_eq_trash_iff] at hop ⊢
  rcases hop with hmem | hop
  · exact hdown σ hmem τ hlink
  · exact .inr (hb σ τ hop hlink)

end Voided

/-- The state of the phase when it has set the records in `T` to TRASH. -/
structure Phase (b : LogKV cfg) (T : Finset (Slot cfg)) (a : Audit cfg) : Prop where
  /-- these and no others -/
  voided : b.Voided T a.log
  /-- they were not TRASH before -/
  fresh : ∀ σ ∈ T, (b.recAt σ).op ≠ .trash
  /-- below TRASH there is only TRASH -/
  down : ∀ σ ∈ T, b.Down T σ
  /-- and never was anything else -/
  states : ∀ s ∈ a.states, s.TrashClosed

/-- The packed address `w` has the node and the page number of the slot, and the hash is in
the shard of the key of its record. -/
structure Names (b : LogKV cfg) (keyHash w : UInt64) (σ : Slot cfg) : Prop where
  /-- the slot exists -/
  live : b.Live σ
  /-- the node -/
  numa : (LastLogOffest.ofAddrInfo w).numaId.toNat = σ.log.numa
  /-- the page number -/
  page : (LastLogOffest.ofAddrInfo w).ppageId.toNat = σ.pageId.page
  /-- the shard of the key -/
  shard : cfg.shardOf keyHash = cfg.shard (b.recAt σ).key

section Phase

variable {b s : LogKV cfg} {T : Finset (Slot cfg)} {σ : Slot cfg} {keyHash w : UInt64}

/-- The log after the op of a record has been stored, and after its bytes have been counted
in a page. -/
theorem Voided.insert (h : b.Voided T s) (hσ : b.Live σ) (hT : σ ∉ T) {t : LogKV cfg}
    (ht : t = { s.setPage σ.pageId (PairT.storeOp (s.bytes σ.pageId) σ.off .trash) with
      szFreed := Function.update s.szFreed (b.charged σ) (s.szFreed (b.charged σ) + 32) }) :
    b.Voided (Insert.insert σ T) t := by
  have hs := h.slotted.trash (h.live_iff.mpr hσ)
  have hrec : t.recAt = Function.update s.recAt σ ((s.recAt σ).setOp .trash) := by
    rw [ht]
    exact recAt_trash
  subst ht
  refine ⟨⟨⟨hs.wf.page_lt, hs.wf.start, hs.wf.sz_le, hs.wf.table, hs.wf.table_none, hs.wf.file,
    hs.wf.file_none⟩, hs.dvd, hs.unwritten⟩, h.ppage, h.table, ?_, ?_⟩
  · rw [hrec]
    funext τ
    rcases eq_or_ne τ σ with rfl | hτ
    · rw [Function.update_self, h.recAt_of_not_mem hT, if_pos (Finset.mem_insert_self ..)]
    · rw [Function.update_of_ne hτ, h.recAt]
      simp only [Finset.mem_insert, hτ, false_or]
  · intro pg
    change Function.update s.szFreed (b.charged σ) (s.szFreed (b.charged σ) + 32) pg = _
    rw [Finset.filter_insert]
    rcases eq_or_ne pg (b.charged σ) with rfl | hpg
    · rw [Function.update_self, if_pos rfl, Finset.card_insert_of_notMem
        (fun hc => hT (Finset.mem_of_mem_filter _ hc)), h.szFreed, Nat.mul_succ, Nat.add_assoc]
    · rw [Function.update_of_ne hpg, if_neg (fun hc => hpg hc.symm), h.szFreed]

/-- Down into a set is down into a larger one. -/
theorem Down.mono {T' : Finset (Slot cfg)} (h : b.Down T σ) (hT : T ⊆ T') : b.Down T' σ :=
  fun τ hτ => (h τ hτ).imp (fun hmem => hT hmem) id

/-- **One record is set invalid.** What it is linked to is TRASH already, so the log is
closed right after the store of its op. -/
theorem Phase.setInvalid {a : Audit cfg} (hb : b.TrashClosed) (h : b.Phase T a)
    (hn : b.Names keyHash w σ) (hT : σ ∉ T) (hop : (b.recAt σ).op ≠ .trash)
    (hdown : b.Down T σ) :
    ∃ a', a.setInvalid keyHash (w, σ.ptr) = .ok a' ∧ b.Phase (Insert.insert σ T) a' := by
  have hlive := h.voided.live_iff.mpr hn.live
  have hstore : a.log.storeOp σ.ptr .trash =
      .ok (a.log.setPage σ.pageId (PairT.storeOp (a.log.bytes σ.pageId) σ.off .trash)) := by
    simp only [storeOp, Slot.ptr, h.voided.slotted.pmem_eq hlive]
  set s := a.log.setPage σ.pageId (PairT.storeOp (a.log.bytes σ.pageId) σ.off .trash) with hs
  set t : LogKV cfg := { s with
    szFreed := Function.update s.szFreed (b.charged σ) (s.szFreed (b.charged σ) + 32) } with ht
  have hfreed : s.addFreed (.ofAddrInfo w) keyHash = .ok t := by
    have hpage : σ.pageId.page < maxLofFileId :=
      Slot.pageId_page_lt (h.voided.slotted.lt_capacity hlive)
    have hpg : ∀ hlt : (LastLogOffest.ofAddrInfo w).numaId.toNat < numaNodeNum,
        (⟨⟨⟨(LastLogOffest.ofAddrInfo w).numaId.toNat, hlt⟩, cfg.shardOf keyHash⟩,
          (LastLogOffest.ofAddrInfo w).ppageId.toNat⟩ : PageId cfg) = b.charged σ :=
      fun hlt => PageId.ext (LogId.ext (Fin.ext hn.numa) hn.shard) hn.page
    rw [addFreed, dif_pos (by rw [hn.numa]; exact σ.log.numa.isLt),
      if_pos (by rw [hn.page]; exact hpage)]
    simp only [hpg, ht]
  have hvoided := h.voided.insert hn.live hT (t := t) rfl
  have hdown' : ∀ τ ∈ Insert.insert σ T, b.Down (Insert.insert σ T) τ := by
    intro τ hτ
    rcases Finset.mem_insert.mp hτ with rfl | hτ
    · exact hdown.mono (Finset.subset_insert ..)
    · exact (h.down τ hτ).mono (Finset.subset_insert ..)
  refine ⟨⟨t, a.states ++ [s]⟩, ?_, hvoided, ?_, hdown', ?_⟩
  · simp only [Audit.setInvalid, hstore, bind, Except.bind, hfreed]
    rfl
  · intro τ hτ
    rcases Finset.mem_insert.mp hτ with rfl | hτ
    · exact hop
    · exact h.fresh τ hτ
  · intro u hu
    rcases List.mem_append.mp hu with hu | hu
    · exact h.states u hu
    · -- the two statements of a round leave the same records
      rw [List.mem_singleton.mp hu]
      exact hvoided.trashClosed hb hdown'

end Phase

/-! ## Following the links -/

/-- The walk from the record in `σ`, when the records in `T` are TRASH already: the packed
addresses and the slots it collects, newest first. -/
inductive Walked (b : LogKV cfg) (time : Slot cfg → ℕ) (T : Finset (Slot cfg)) :
    Slot cfg → List (UInt64 × Slot cfg) → Prop
  /-- there is nothing left to collect -/
  | nil {σ : Slot cfg} : b.Down T σ → Walked b time T σ []
  /-- the link leads to a record that is not TRASH, and on from there -/
  | cons {σ τ : Slot cfg} {c : List (UInt64 × Slot cfg)} : b.LinkTo σ τ → b.Live τ →
      (b.recAt τ).key = (b.recAt σ).key → time τ < time σ → τ ∉ T → (b.recAt τ).op ≠ .trash →
      Walked b time T τ c → Walked b time T σ (((b.recAt σ).uOffset, τ) :: c)

section Walked

variable {b s : LogKV cfg} {time : Slot cfg → ℕ} {T : Finset (Slot cfg)} {σ : Slot cfg}

/-- **The walk ends.** -/
theorem WellLinked.oldLogs_eq (hb : b.WellLinked time) (h : b.Voided T s) {n : ℕ}
    (hop : (b.recAt σ).op ≠ .trash) (hn : rank time σ < n) :
    ∃ c, b.Walked time T σ c ∧ s.oldLogs (cfg.xxh3 (b.recAt σ).key) n (b.recAt σ).uOffset =
      .ok (c.map fun x => (x.1, x.2.ptr)) := by
  induction n generalizing σ with
  | zero => exact absurd hn (Nat.not_lt_zero _)
  | succ n ih =>
    rcases hb.link σ hop with hmax | ⟨τ, hlink, hlive, hkey, hhash, hlt⟩
    · refine ⟨[], .nil fun τ hτ => absurd hmax hτ.1, ?_⟩
      rw [oldLogs, if_pos hmax]
      rfl
    · have haddr : s.getAddr (.ofAddrInfo (b.recAt σ).uOffset) (cfg.xxh3 (b.recAt σ).key) =
          .ok τ.ptr := by
        rw [← hlink.2]
        simp only [getAddr, h.table]
      have hload := h.slotted.load_eq (h.live_iff.mpr hlive)
      rcases Decidable.em ((s.recAt τ).op = .trash) with htrash | htrash
      · refine ⟨[], .nil fun τ' hτ' => ?_, ?_⟩
        · rw [hτ'.unique hlink]
          exact h.op_eq_trash_iff.mp htrash
        · simp only [oldLogs, if_neg hlink.1, haddr, hload, bind, Except.bind, if_pos htrash]
          rfl
      · obtain ⟨hτT, hτop⟩ := not_or.mp (mt h.op_eq_trash_iff.mpr htrash)
        have hrank := rank_lt_rank (hb.slotted.lt_capacity hlive) hhash hlt
        obtain ⟨c, hc, hlogs⟩ := ih hτop (by omega)
        refine ⟨_, .cons hlink hlive hkey hlt hτT hτop hc, ?_⟩
        rw [hkey] at hlogs
        rw [h.recAt_of_not_mem hτT] at hload
        simp only [oldLogs, if_neg hlink.1, haddr, hload, bind, Except.bind, if_neg hτop, hlogs]
        rfl

/-- **The records of a walk are set invalid**, oldest first. -/
theorem Walked.setInvalid (hb : b.WellLinked time) {c : List (UInt64 × Slot cfg)}
    (hw : b.Walked time T σ c) {a : Audit cfg} (h : b.Phase T a) :
    ∃ T' a', (c.map fun x => (x.1, x.2.ptr)).reverse.foldlM
        (Audit.setInvalid (cfg.xxh3 (b.recAt σ).key)) a = .ok a' ∧ b.Phase T' a' ∧
      T ⊆ T' ∧ b.Down T' σ ∧
      ∀ x ∈ T', x ∈ T ∨ Relation.TransGen b.LinkTo σ x ∧ time x < time σ := by
  induction hw with
  | nil hdown => exact ⟨T, a, rfl, h, fun _ hx => hx, hdown, fun _ => .inl⟩
  | @cons σ τ c hlink hlive hkey hlt hτT hop _ ih =>
    obtain ⟨T', a', hfold, hphase, hsub, hdown, hnew⟩ := ih
    -- what the walk collects below a record is earlier, so the record is not among it
    have hτT' : τ ∉ T' := by
      intro hmem
      rcases hnew τ hmem with hmem | ⟨-, hself⟩
      · exact hτT hmem
      · exact lt_irrefl _ hself
    obtain ⟨hnuma, hpage, -⟩ := hb.slotted.wf.getAddr_inv hlink.2
    have hnames : b.Names (cfg.xxh3 (b.recAt τ).key) (b.recAt σ).uOffset τ :=
      ⟨hlive, hnuma, hpage, rfl⟩
    obtain ⟨a'', hstep, hphase'⟩ := hphase.setInvalid hb.closed hnames hτT' hop hdown
    refine ⟨Insert.insert τ T', a'', ?_, hphase', hsub.trans (Finset.subset_insert ..), ?_, ?_⟩
    · rw [List.map_cons, List.reverse_cons, List.foldlM_append, ← hkey, hfold]
      exact (bind_pure _).trans hstep
    · intro τ' hτ'
      rw [hτ'.unique hlink]
      exact .inl (Finset.mem_insert_self ..)
    · intro x hx
      rcases Finset.mem_insert.mp hx with rfl | hx
      · exact .inr ⟨.single hlink, hlt⟩
      · exact (hnew x hx).imp id fun hx => ⟨.head hlink hx.1, hx.2.trans hlt⟩

end Walked

/-! ## The scan of the old pages -/

/-- The state of the phase when it has looked at the slots in `D`. -/
structure Sweep (b : LogKV cfg) (beginPos endPos : ℕ) (D : Slot cfg → Prop)
    (T : Finset (Slot cfg)) (a : Audit cfg) : Prop where
  /-- the records in `T` are TRASH -/
  phase : b.Phase T a
  /-- as they should -/
  turned : ∀ σ ∈ T, b.Turned beginPos endPos σ
  /-- and so is what the UPDATE and DELETE records looked at lead to -/
  done : ∀ σ, D σ → (b.recAt σ).op = .update ∨ (b.recAt σ).op = .delete →
    ((b.recAt σ).op = .delete → σ ∈ T) ∧ b.Down T σ

section Sweep

variable {b : LogKV cfg} {time : Slot cfg → ℕ} {beginPos endPos : ℕ} {D : Slot cfg → Prop}
  {T : Finset (Slot cfg)} {a : Audit cfg} {σ : Slot cfg}

theorem Sweep.mono (h : b.Sweep beginPos endPos D T a) {D' : Slot cfg → Prop}
    (hD : ∀ x, D' x → D x) : b.Sweep beginPos endPos D' T a where
  phase := h.phase
  turned := h.turned
  done σ hσ := h.done σ (hD σ hσ)

/-- One more record has been looked at. -/
theorem Sweep.extend (h : b.Sweep beginPos endPos D T a) {T' : Finset (Slot cfg)}
    {a' : Audit cfg} (hphase : b.Phase T' a') (hsub : T ⊆ T')
    (hnew : ∀ x ∈ T', x ∈ T ∨ b.Turned beginPos endPos x)
    (hself : (b.recAt σ).op = .delete → σ ∈ T')
    (hdown : (b.recAt σ).op = .update ∨ (b.recAt σ).op = .delete → b.Down T' σ) :
    b.Sweep beginPos endPos (fun x => D x ∨ x = σ) T' a' where
  phase := hphase
  turned x hx := (hnew x hx).elim (h.turned x) id
  done x hx hop := by
    rcases hx with hx | rfl
    · obtain ⟨hdelete, hlinks⟩ := h.done x hx hop
      exact ⟨fun hd => hsub (hdelete hd), hlinks.mono hsub⟩
    · exact ⟨hself, hdown hop⟩

/-- What a walk from a scanned record has collected is to be collected. -/
theorem Turned.of_walk (hscan : b.Swept beginPos endPos σ)
    (hop : (b.recAt σ).op = .update ∨ (b.recAt σ).op = .delete) {T' : Finset (Slot cfg)}
    (h' : b.Phase T' a)
    (hnew : ∀ x ∈ T', x ∈ T ∨ Relation.TransGen b.LinkTo σ x ∧ time x < time σ) :
    ∀ x ∈ T', x ∈ T ∨ b.Turned beginPos endPos x :=
  fun x hx => (hnew x hx).imp id fun hreach =>
    ⟨h'.fresh x hx, .inr ⟨σ, hscan, hop, hreach.1⟩⟩

/-- **One record of an old page.** -/
theorem WellLinked.markRecord (hb : b.WellLinked time) (h : b.Sweep beginPos endPos D T a)
    {pg : PageId cfg} (hold : b.Old pg)
    (hrange : beginPos ≤ pg.log.hash.val ∧ pg.log.hash.val < endPos) {i : ℕ}
    (hi : i < slotsPerPage) :
    ∃ T' a', markRecordWith Audit.log Audit.setInvalid pg pg a i = .ok a' ∧
      b.Sweep beginPos endPos (fun x => D x ∨ x = pg.slotAt i) T' a' := by
  set σ := pg.slotAt i with hσ
  have hpage : σ.pageId = pg := pg.pageId_slotAt hi
  have hscan : b.Swept beginPos endPos σ := ⟨hrange, hpage.symm ▸ hold⟩
  have hlive : b.Live σ := Slotted.live_of_page_lt hscan.2
  have hload : a.log.load ⟨some pg, PairT.size * i⟩ = .ok (a.log.recAt σ) := by
    rw [← pg.ptr_slotAt hi]
    exact h.phase.voided.slotted.load_eq (h.phase.voided.live_iff.mpr hlive)
  rcases Decidable.em (σ ∈ T) with hmem | hmem
  · refine ⟨T, a, ?_, h.extend h.phase (fun _ hx => hx) (fun _ => .inl) (fun _ => hmem)
      fun _ => h.phase.down σ hmem⟩
    simp only [markRecordWith, hload, bind, Except.bind, h.phase.voided.recAt_of_mem hmem]
    rfl
  · rw [h.phase.voided.recAt_of_not_mem hmem] at hload
    rcases Decidable.em ((b.recAt σ).op = .update ∨ (b.recAt σ).op = .delete) with hop | hop
    · have hne : (b.recAt σ).op ≠ .trash := by
        rcases hop with hop | hop <;> rw [hop] <;> decide
      obtain ⟨c, hw, hlogs⟩ := hb.oldLogs_eq h.phase.voided hne (rank_lt_chainBound time σ)
      obtain ⟨T', a', hfold, hphase, hsub, hdown, hnew⟩ := hw.setInvalid hb h.phase
      have hturned := Turned.of_walk hscan hop hphase hnew
      rcases Decidable.em ((b.recAt σ).op = .delete) with hdel | hdel
      · -- a DELETE record goes last, after the records it leads to
        have hσT' : σ ∉ T' := by
          intro hx
          rcases hnew σ hx with hx | ⟨-, hself⟩
          · exact hmem hx
          · exact lt_irrefl _ hself
        obtain ⟨hnuma, hpg, -⟩ := Slot.toNat_info (hb.slotted.lt_capacity hlive) PairT.vlen
        have hnames : b.Names (cfg.xxh3 (b.recAt σ).key) σ.word σ := by
          refine ⟨hlive, ?_, ?_, rfl⟩
          · rw [Slot.word, LastLogOffest.ofAddrInfo_toUint64Offset, hnuma]
          · rw [Slot.word, LastLogOffest.ofAddrInfo_toUint64Offset, hpg]
        obtain ⟨a'', hstep, hphase'⟩ := hphase.setInvalid hb.closed hnames hσT' hne hdown
        have hentry : (⟨8, UInt8.ofNat pg.log.numa, UInt8.ofNat pg.page,
            UInt32.ofNat (PairT.size * i)⟩ : LastLogOffest).toUint64Offset = σ.word := by
          rw [Slot.word, pg.info_slotAt hi]
        refine ⟨Insert.insert σ T', a'', ?_, h.extend hphase'
          (hsub.trans (Finset.subset_insert ..)) ?_ (fun _ => Finset.mem_insert_self ..)
          fun _ => hdown.mono (Finset.subset_insert ..)⟩
        · simp only [markRecordWith, hload, bind, Except.bind, if_pos hop, if_pos hdel, hlogs,
            hentry]
          rw [← pg.ptr_slotAt hi, List.cons_append, List.nil_append, List.reverse_cons,
            List.foldlM_append, hfold]
          exact (bind_pure _).trans hstep
        · intro x hx
          rcases Finset.mem_insert.mp hx with rfl | hx
          · exact .inr ⟨hne, .inl ⟨hscan, hdel⟩⟩
          · exact hturned x hx
      · refine ⟨T', a', ?_, h.extend hphase hsub hturned (fun hd => absurd hd hdel)
          fun _ => hdown⟩
        simp only [markRecordWith, hload, bind, Except.bind, if_pos hop, if_neg hdel, hlogs,
          List.nil_append]
        exact hfold
    · refine ⟨T, a, ?_, h.extend h.phase (fun _ hx => hx) (fun _ => .inl)
        (fun hd => absurd (.inr hd) hop) fun hc => absurd hc hop⟩
      simp only [markRecordWith, hload, bind, Except.bind, if_neg hop]
      rfl

/-- **One page**: all its records, if it is old. -/
theorem WellLinked.markPage (hb : b.WellLinked time) (h : b.Sweep beginPos endPos D T a)
    (pg : PageId cfg) (hrange : beginPos ≤ pg.log.hash.val ∧ pg.log.hash.val < endPos) :
    ∃ T' a', a.markPage pg = .ok a' ∧
      b.Sweep beginPos endPos (fun x => D x ∨ x.pageId = pg ∧ b.Old pg) T' a' := by
  rcases Classical.em (b.Old pg) with hold | hold
  · obtain ⟨a', ha', T', hT'⟩ := exists_foldlM (List.range (ppageSize / PairT.size))
      (f := markRecordWith Audit.log Audit.setInvalid pg pg)
      (fun done a => ∃ T, b.Sweep beginPos endPos
        (fun x => D x ∨ ∃ i ∈ done, x = pg.slotAt i) T a)
      (by
        rintro done i a hi ⟨T, hT⟩
        obtain ⟨T', a', ha', hT'⟩ := hb.markRecord hT hold hrange (List.mem_range.mp hi)
        refine ⟨a', ha', T', hT'.mono ?_⟩
        rintro x (hx | ⟨j, hj, rfl⟩)
        · exact .inl (.inl hx)
        · rcases List.mem_append.mp hj with hj | hj
          · exact .inl (.inr ⟨j, hj, rfl⟩)
          · rw [List.mem_singleton.mp hj]
            exact .inr rfl)
      (s := a) ⟨T, h.mono fun x hx => hx.elim id fun ⟨_, hi, _⟩ => absurd hi List.not_mem_nil⟩
    refine ⟨T', a', ?_, hT'.mono ?_⟩
    · rw [Audit.markPage, markPageWith,
        h.phase.voided.slotted.visitPage_old (h.phase.voided.old_iff.mpr hold)]
      exact ha'
    · rintro x (hx | ⟨hx, -⟩)
      · exact .inl hx
      · exact .inr ⟨_, List.mem_range.mpr (Nat.mod_lt _ (by decide)), (PageId.slotAt_pos hx).symm⟩
  · refine ⟨T, a, ?_, h.mono ?_⟩
    · rw [Audit.markPage, markPageWith]
      exact h.phase.voided.slotted.visitPage_of_not_old fun hc => hold (h.phase.voided.old_iff.mp hc)
    · rintro x (hx | ⟨-, hc⟩)
      · exact hx
      · exact absurd hc hold

end Sweep

end LogKV

/-- The pages of a collector. -/
theorem mem_gcPages_iff {pg : PageId cfg} {beginPos endPos : ℕ} :
    pg ∈ gcPages cfg beginPos endPos ↔
      pg.page ≤ maxLofFileId ∧ beginPos ≤ pg.log.hash.val ∧ pg.log.hash.val < endPos := by
  simp only [gcPages, List.mem_flatMap, List.mem_reverse, List.mem_range, List.mem_finRange,
    List.mem_map, List.mem_filter, true_and, decide_eq_true_eq]
  constructor
  · rintro ⟨f, hf, n, h, hrange, rfl⟩
    exact ⟨Nat.lt_succ_iff.mp hf, hrange⟩
  · rintro ⟨hle, hrange⟩
    exact ⟨pg.page, Nat.lt_succ_iff.mpr hle, pg.log.numa, pg.log.hash, hrange, rfl⟩

/-- The collector of all shards visits every page that the address table has room for. -/
theorem mem_gcPages {pg : PageId cfg} :
    pg ∈ gcPages cfg 0 cfg.shards ↔ pg.page ≤ maxLofFileId := by
  rw [mem_gcPages_iff]
  exact and_iff_left ⟨Nat.zero_le _, pg.log.hash.isLt⟩

/-- The first phase from a well-linked log: it ends, with exactly the records that are to go
set to TRASH, each of them once. -/
theorem LogKV.WellLinked.markPages {b : LogKV cfg} {time : Slot cfg → ℕ}
    (hb : b.WellLinked time) (beginPos endPos : ℕ) :
    ∃ (T : Finset (Slot cfg)) (a : Audit cfg),
      (gcPages cfg beginPos endPos).foldlM Audit.markPage ⟨b, []⟩ = .ok a ∧ b.Phase T a ∧
        ∀ σ, σ ∈ T ↔ b.Turned beginPos endPos σ := by
  obtain ⟨a, ha, T, hT⟩ := exists_foldlM (gcPages cfg beginPos endPos) (f := Audit.markPage)
    (fun done a => ∃ T, b.Sweep beginPos endPos
      (fun x => x.pageId ∈ done ∧ b.Old x.pageId) T a)
    (by
      rintro done pg a hpg ⟨T, hT⟩
      obtain ⟨T', a', ha', hT'⟩ := hb.markPage hT pg (mem_gcPages_iff.mp hpg).2
      refine ⟨a', ha', T', hT'.mono ?_⟩
      rintro x ⟨hx, hold⟩
      rcases List.mem_append.mp hx with hx | hx
      · exact .inl ⟨hx, hold⟩
      · rw [List.mem_singleton] at hx
        exact .inr ⟨hx, hx ▸ hold⟩)
    (s := ⟨b, []⟩) ⟨∅, ⟨hb.slotted.voided, fun _ h => absurd h (Finset.notMem_empty _),
      fun _ h => absurd h (Finset.notMem_empty _), fun _ h => absurd h List.not_mem_nil⟩,
      fun _ h => absurd h (Finset.notMem_empty _), fun _ h => absurd h.1 List.not_mem_nil⟩
  refine ⟨T, a, ha, hT.phase, fun σ => ⟨hT.turned σ, ?_⟩⟩
  have hdone : ∀ ρ : Slot cfg, b.Swept beginPos endPos ρ →
      ρ.pageId ∈ gcPages cfg beginPos endPos ∧ b.Old ρ.pageId :=
    fun ρ hscan => ⟨mem_gcPages_iff.mpr
      ⟨le_of_lt (hscan.2.trans (hb.slotted.wf.page_lt _)), hscan.1⟩, hscan.2⟩
  rintro ⟨hop, ⟨hscan, hdel⟩ | ⟨ρ, hscan, hρ, hreach⟩⟩
  · exact (hT.done σ (hdone σ hscan) (.inr hdel)).1 hdel
  · -- the first link leads into TRASH, and from there everything is
    have hall : σ ∈ T ∨ (b.recAt σ).op = .trash := by
      clear hop
      induction hreach with
      | single hlink => exact (hT.done ρ (hdone ρ hscan) hρ).2 _ hlink
      | tail _ hlink ih =>
        rcases ih with hmem | htrash
        · exact hT.phase.down _ hmem _ hlink
        · exact .inr (hb.closed _ _ htrash hlink)
    exact hall.resolve_right hop

namespace LogKV

/-! ## Logs with a few records -/

/-- Every log has begun its second page; nothing has been stored in the first. -/
def aged (cfg : Config) : LogKV cfg where
  pmem pg := if pg.page ≤ 1 then some (fill 0xff) else none
  startAddrArr pg := if pg.page ≤ 1 then some pg else none
  szFreed _ := 0
  ppage l := ⟨some ⟨l, 1⟩, 1, 0⟩
  version _ := 0

theorem recAt_aged (σ : Slot cfg) : (aged cfg).recAt σ = PairT.blank := by
  have hbytes : (aged cfg).bytes σ.pageId = fill 0xff := by
    simp only [bytes, aged]
    split <;> rfl
  rw [recAt, hbytes, PairT.view_fill]

theorem slotted_aged (cfg : Config) : (aged cfg).Slotted where
  wf := {
    page_lt := fun _ => by
      change 1 < maxLofFileId
      decide
    start := fun _ => rfl
    sz_le := fun _ => Nat.zero_le _
    table := fun _ _ hp => if_pos hp
    table_none := fun _ _ hp => if_neg (Nat.not_le.mpr hp)
    file := fun _ _ hp => ⟨_, if_pos hp⟩
    file_none := fun _ _ hp => if_neg (Nat.not_le.mpr hp) }
  dvd _ := dvd_zero _
  unwritten σ _ := recAt_aged σ

/-- The slots of the first page are old. -/
theorem old_aged (l : LogId cfg) {n : ℕ} (hn : n < slotsPerPage) :
    (aged cfg).Old (⟨l, n⟩ : Slot cfg).pageId := by
  change n / slotsPerPage < 1
  rw [Nat.div_eq_of_lt hn]
  exact Nat.one_pos

/-- A DELETE record without a link, alone in the first page of a log. -/
def lone (cfg : Config) (l : LogId cfg) (k : UInt64) : LogKV cfg :=
  (aged cfg).write ⟨l, 0⟩ (.deleteRec 0 0 k uint64Max)

section Lone

variable (l : LogId cfg) (k : UInt64)

theorem recAt_lone : (lone cfg l k).recAt =
    Function.update (fun _ => PairT.blank) ⟨l, 0⟩ (.deleteRec 0 0 k uint64Max) := by
  have hblank : (aged cfg).recAt = fun _ => PairT.blank := funext recAt_aged
  rw [lone, recAt_write, hblank]

theorem recAt_lone_self : (lone cfg l k).recAt ⟨l, 0⟩ = .deleteRec 0 0 k uint64Max := by
  rw [recAt_lone, Function.update_self]

theorem uOffset_lone (σ : Slot cfg) : ((lone cfg l k).recAt σ).uOffset = uint64Max := by
  rw [recAt_lone]
  rcases eq_or_ne σ ⟨l, 0⟩ with rfl | hσ
  · rw [Function.update_self]
    rfl
  · rw [Function.update_of_ne hσ]
    rfl

theorem op_lone {σ : Slot cfg} (h : ((lone cfg l k).recAt σ).op ≠ .trash) : σ = ⟨l, 0⟩ := by
  by_contra hσ
  rw [recAt_lone, Function.update_of_ne hσ] at h
  exact h rfl

theorem wellLinked_lone : (lone cfg l k).WellLinked fun _ => 0 where
  slotted := (slotted_aged cfg).write (Slotted.live_of_page_lt (old_aged l (by decide)))
  link σ _ := .inl (uOffset_lone l k σ)
  closed σ _ _ hlink := absurd (uOffset_lone l k σ) hlink.1

theorem superseding_lone (db : Index) : (lone cfg l k).Superseding db :=
  fun σ _ _ hlink => absurd (uOffset_lone l k σ) hlink.1

theorem turned_lone_iff {σ : Slot cfg} :
    (lone cfg l k).Turned 0 cfg.shards σ ↔ σ = ⟨l, 0⟩ := by
  constructor
  · exact fun h => op_lone l k h.1
  · rintro rfl
    refine ⟨?_, .inl ⟨⟨⟨Nat.zero_le _, l.hash.isLt⟩, old_aged l (by decide)⟩, ?_⟩⟩
    · rw [recAt_lone_self]
      exact OpT.noConfusion
    · rw [recAt_lone_self]
      rfl

/-- What the phase makes of it. -/
theorem markPages_lone : ∃ t, (gcPages cfg 0 cfg.shards).foldlM LogKV.markPage (lone cfg l k) =
    .ok t ∧ (t.recAt ⟨l, 0⟩).op = .trash ∧
    ∀ pg, pg ≠ ⟨⟨l.numa, cfg.shard k⟩, 0⟩ → t.szFreed pg = 0 := by
  obtain ⟨T, a, ha, hphase, hT⟩ := (wellLinked_lone l k).markPages 0 cfg.shards
  refine ⟨a.log, ?_, ?_, ?_⟩
  · rw [← Audit.map_markPages (gcPages cfg 0 cfg.shards) ⟨lone cfg l k, []⟩, ha]
    rfl
  · exact hphase.voided.op_eq_trash_iff.mpr (.inl ((hT _).mpr ((turned_lone_iff l k).mpr rfl)))
  · intro pg hpg
    have hnone : T.filter ((lone cfg l k).charged · = pg) = ∅ := by
      refine Finset.filter_eq_empty_iff.mpr fun σ hσ hcharged => hpg ?_
      rw [← hcharged, (turned_lone_iff l k).mp ((hT σ).mp hσ), charged, recAt_lone_self]
      exact PageId.ext rfl (Nat.zero_div _)
    rw [hphase.voided.szFreed, hnone]
    rfl

end Lone

/-- An INSERT and an UPDATE record of a key, linked, in the first page of a log. -/
def revised (cfg : Config) (threadId : Fin 64) (k : UInt64) : LogKV cfg :=
  ((aged cfg).write ⟨cfg.logFor threadId k, 0⟩ (.insertRec 0 k 1)).write ⟨cfg.logFor threadId k, 1⟩
    (.updateRec 1 k 2 (⟨cfg.logFor threadId k, 0⟩ : Slot cfg).word)

section Revised

variable (threadId : Fin 64) (k : UInt64)

theorem live_revised {n : ℕ} (hn : n < slotsPerPage) :
    (revised cfg threadId k).Live ⟨cfg.logFor threadId k, n⟩ :=
  Slotted.live_of_page_lt (old_aged _ hn)

theorem slotted_revised : (revised cfg threadId k).Slotted := by
  have hlive : ∀ n < slotsPerPage, (aged cfg).Live ⟨cfg.logFor threadId k, n⟩ :=
    fun n hn => Slotted.live_of_page_lt (old_aged _ hn)
  refine ((slotted_aged cfg).write ?_).write ?_
  · exact hlive 0 (by decide)
  · exact hlive 1 (by decide)

theorem recAt_revised_first : (revised cfg threadId k).recAt ⟨cfg.logFor threadId k, 0⟩ = .insertRec 0 k 1 := by
  have hne : (⟨cfg.logFor threadId k, 0⟩ : Slot cfg) ≠ ⟨cfg.logFor threadId k, 1⟩ :=
    fun h => absurd (congrArg Slot.pos h) Nat.zero_ne_one
  rw [revised, recAt_write, Function.update_of_ne hne, recAt_write, Function.update_self]

theorem recAt_revised_second : (revised cfg threadId k).recAt ⟨cfg.logFor threadId k, 1⟩ =
    .updateRec 1 k 2 (⟨cfg.logFor threadId k, 0⟩ : Slot cfg).word := by
  rw [revised, recAt_write, Function.update_self]

theorem uOffset_revised {σ : Slot cfg} (h : ((revised cfg threadId k).recAt σ).uOffset ≠ uint64Max) :
    σ = ⟨cfg.logFor threadId k, 1⟩ := by
  by_contra hσ
  rcases eq_or_ne σ ⟨cfg.logFor threadId k, 0⟩ with rfl | hσ'
  · rw [recAt_revised_first] at h
    exact h rfl
  · rw [revised, recAt_write, Function.update_of_ne hσ, recAt_write, Function.update_of_ne hσ',
      recAt_aged] at h
    exact h rfl

theorem linkTo_revised : (revised cfg threadId k).LinkTo ⟨cfg.logFor threadId k, 1⟩ ⟨cfg.logFor threadId k, 0⟩ := by
  rw [LinkTo, recAt_revised_second]
  exact ⟨Slot.word_ne_max _, (slotted_revised threadId k).getAddr_eq (live_revised threadId k (by decide)) rfl⟩

theorem wellLinked_revised : (revised cfg threadId k).WellLinked Slot.pos where
  slotted := slotted_revised threadId k
  link σ _ := by
    rcases eq_or_ne ((revised cfg threadId k).recAt σ).uOffset uint64Max with hmax | hmax
    · exact .inl hmax
    · obtain rfl := uOffset_revised threadId k hmax
      refine .inr ⟨_, linkTo_revised threadId k, live_revised threadId k (by decide), ?_, rfl, Nat.one_pos⟩
      rw [recAt_revised_first, recAt_revised_second]
      rfl
  closed σ τ hop hlink := by
    obtain rfl := uOffset_revised threadId k hlink.1
    rw [recAt_revised_second] at hop
    exact OpT.noConfusion hop

/-- The index names the UPDATE record. -/
theorem superseding_revised : (revised cfg threadId k).Superseding
    (Function.update (fun _ => none) k (some (⟨cfg.logFor threadId k, 1⟩ : Slot cfg).word)) := by
  rintro σ τ - hlink ⟨k', w, hw, haddr⟩
  obtain rfl := uOffset_revised threadId k hlink.1
  rcases eq_or_ne k' k with rfl | hk
  · rw [Function.update_self] at hw
    obtain rfl := Option.some_inj.mp hw
    rw [(slotted_revised threadId k').getAddr_eq (live_revised threadId k' (by decide)) rfl] at haddr
    have hτ := Slot.ptr_injective (Except.ok.inj haddr)
    rw [← hτ] at hlink
    exact absurd (congrArg Slot.pos (hlink.unique (linkTo_revised threadId k'))) Nat.one_ne_zero
  · rw [Function.update_of_ne hk] at hw
    cases hw

end Revised

/-! ## What the phase turns -/

section Exact

variable {b : LogKV cfg} {time : Slot cfg → ℕ} {db : Index} {beginPos endPos : ℕ} {σ : Slot cfg}

/-- A record is turned for its own sake or because a record that is not TRASH is linked to
it. -/
theorem WellLinked.turned_cases (hb : b.WellLinked time) (h : b.Turned beginPos endPos σ) :
    (b.Swept beginPos endPos σ ∧ (b.recAt σ).op = .delete) ∨
      ∃ ρ, (b.recAt ρ).op ≠ .trash ∧ b.LinkTo ρ σ := by
  rcases h.2 with hself | ⟨ρ, -, hop, hreach⟩
  · exact .inl hself
  · right
    cases hreach with
    | single hlink =>
      refine ⟨ρ, ?_, hlink⟩
      rcases hop with hop | hop <;> rw [hop] <;> decide
    | tail _ hlink => exact ⟨_, fun htrash => h.1 (hb.closed _ _ htrash hlink), hlink⟩

/-- Of the records the index names, only DELETE records in old pages are turned. -/
theorem WellLinked.turned_of_pointed (hb : b.WellLinked time) (hdb : b.Superseding db)
    (h : b.Turned beginPos endPos σ) (hσ : b.Pointed db σ) :
    b.Swept beginPos endPos σ ∧ (b.recAt σ).op = .delete := by
  rcases hb.turned_cases h with hself | ⟨ρ, hop, hlink⟩
  · exact hself
  · exact absurd hσ (hdb ρ σ hop hlink)

/-- A record that something links to lies in the shard of its key. -/
theorem WellLinked.shard_of_linkTo (hb : b.WellLinked time) {ρ : Slot cfg}
    (hop : (b.recAt ρ).op ≠ .trash) (hlink : b.LinkTo ρ σ) :
    σ.log.hash = cfg.shard (b.recAt σ).key := by
  rcases hb.link ρ hop with hmax | ⟨τ, hτ, -, hkey, -⟩
  · exact absurd hmax hlink.1
  · obtain rfl := hτ.unique hlink
    rw [(hb.slotted.wf.getAddr_inv hlink.2).2.2, hkey, Config.shard]

/-- The bytes of a turned record are counted in its page, or it is a DELETE record without
a link that lies outside the shard of its key. -/
theorem WellLinked.charged_of_turned (hb : b.WellLinked time)
    (h : b.Turned beginPos endPos σ) :
    b.charged σ = σ.pageId ∨ (b.recAt σ).op = .delete ∧ (b.recAt σ).uOffset = uint64Max ∧
      σ.log.hash ≠ cfg.shard (b.recAt σ).key := by
  rcases hb.turned_cases h with ⟨-, hdel⟩ | ⟨ρ, hop, hlink⟩
  · rcases eq_or_ne σ.log.hash (cfg.shard (b.recAt σ).key) with hshard | hshard
    · exact .inl (charged_eq hshard)
    · refine .inr ⟨hdel, ?_, hshard⟩
      rcases hb.link σ h.1 with hmax | ⟨τ, hlink, -, -, hhash, -⟩
      · exact hmax
      · -- a link resolves in the shard of the key
        exact absurd (hhash.symm.trans (hb.slotted.wf.getAddr_inv hlink.2).2.2) hshard
  · exact .inl (charged_eq (hb.shard_of_linkTo hop hlink))

end Exact

/-- **The first phase is exact.** From every well-linked log that the index is newer than,
for every range of shards, the phase ends, and

* it sets exactly the records to TRASH that are to be turned, and changes no other record;
* of the records the index names it turns only DELETE records in old pages;
* after every single store of an op, everything linked from TRASH is TRASH;
* it counts 32 bytes for every record turned, in the page of the record, or, for a DELETE
  record without a link outside the shard of its key, in the page with the same numbers in
  that shard. -/
theorem markPages_exact {b : LogKV cfg} {time : Slot cfg → ℕ} (hb : b.WellLinked time)
    {db : Index} (hdb : b.Superseding db) (beginPos endPos : ℕ) :
    ∃ (a : Audit cfg) (T : Finset (Slot cfg)),
      (gcPages cfg beginPos endPos).foldlM Audit.markPage ⟨b, []⟩ = .ok a ∧
      (gcPages cfg beginPos endPos).foldlM LogKV.markPage b = .ok a.log ∧
      (∀ σ, σ ∈ T ↔ b.Turned beginPos endPos σ) ∧
      (∀ σ, a.log.recAt σ = if σ ∈ T then (b.recAt σ).setOp .trash else b.recAt σ) ∧
      (∀ σ ∈ T, b.Pointed db σ → b.Swept beginPos endPos σ ∧ (b.recAt σ).op = .delete) ∧
      (∀ s ∈ a.states, s.TrashClosed) ∧
      (∀ pg, a.log.szFreed pg = b.szFreed pg + 32 * (T.filter (b.charged · = pg)).card) ∧
      ∀ σ ∈ T, b.charged σ = σ.pageId ∨ (b.recAt σ).op = .delete ∧
        (b.recAt σ).uOffset = uint64Max ∧ σ.log.hash ≠ cfg.shard (b.recAt σ).key := by
  obtain ⟨T, a, ha, hphase, hT⟩ := hb.markPages beginPos endPos
  refine ⟨a, T, ha, ?_, hT, ?_, ?_, hphase.states, hphase.voided.szFreed, ?_⟩
  · rw [← Audit.map_markPages (gcPages cfg beginPos endPos) ⟨b, []⟩, ha]
    rfl
  · intro σ
    rw [hphase.voided.recAt]
  · intro σ hσ
    exact hb.turned_of_pointed hdb ((hT σ).mp hσ)
  · intro σ hσ
    exact hb.charged_of_turned ((hT σ).mp hσ)

/-- The phase on an INSERT record that an UPDATE record has superseded. -/
theorem markPages_exact_revised :
    (revised oneShard 0 5).WellLinked Slot.pos ∧
      ∃ t, (gcPages oneShard 0 1).foldlM LogKV.markPage (revised oneShard 0 5) = .ok t ∧
        t.recAt ⟨oneShard.logFor 0 5, 0⟩ = (PairT.insertRec 0 5 1).setOp .trash := by
  have hb : (revised oneShard 0 5).WellLinked Slot.pos := wellLinked_revised 0 5
  obtain ⟨a, T, -, ha, hT, hrec, -⟩ := markPages_exact hb (superseding_revised 0 5) 0 1
  refine ⟨hb, a.log, ha, ?_⟩
  have hturned : (revised oneShard 0 5).Turned 0 1 ⟨oneShard.logFor 0 5, 0⟩ := by
    refine ⟨?_, .inr ⟨⟨oneShard.logFor 0 5, 1⟩, ⟨⟨Nat.zero_le _, by decide⟩,
      old_aged _ (by decide)⟩, .inl ?_, .single (linkTo_revised 0 5)⟩⟩
    · rw [recAt_revised_first]
      decide
    · rw [recAt_revised_second]
      rfl
  rw [hrec, if_pos ((hT _).mpr hturned), recAt_revised_first]

/-- The log of node 0 and shard 0. -/
def loneLog (cfg : Config) : LogId cfg := ⟨⟨0, numaNodeNum_pos⟩, ⟨0, cfg.shards_pos⟩⟩

/-- The slot of the lone record. -/
def loneSlot (cfg : Config) : Slot cfg := ⟨loneLog cfg, 0⟩

/-- A DELETE record that the index names is turned; and one in shard 0 whose key is of shard
1 is turned without any byte counted in its page. -/
theorem markPages_delete :
    (∃ (time : Slot oneShard → ℕ) (db : Index) (t : LogKV oneShard),
      (lone oneShard (loneLog _) 5).WellLinked time ∧
      (lone oneShard (loneLog _) 5).Superseding db ∧
      (gcPages oneShard 0 1).foldlM LogKV.markPage (lone oneShard (loneLog _) 5) = .ok t ∧
      (lone oneShard (loneLog _) 5).Pointed db (loneSlot _) ∧
      ((lone oneShard (loneLog _) 5).recAt (loneSlot _)).op = .delete ∧
      (t.recAt (loneSlot _)).op = .trash) ∧
    ∃ (time : Slot twoShards → ℕ) (db : Index) (t : LogKV twoShards),
      (lone twoShards (loneLog _) 5).WellLinked time ∧
      (lone twoShards (loneLog _) 5).Superseding db ∧
      (gcPages twoShards 0 2).foldlM LogKV.markPage (lone twoShards (loneLog _) 5) = .ok t ∧
      ((lone twoShards (loneLog _) 5).recAt (loneSlot _)).op = .delete ∧
      (t.recAt (loneSlot _)).op = .trash ∧
      t.szFreed (loneSlot _).pageId =
        (lone twoShards (loneLog _) 5).szFreed (loneSlot _).pageId := by
  constructor
  · obtain ⟨t, ht, htrash, -⟩ := markPages_lone (loneLog oneShard) 5
    have hb := wellLinked_lone (loneLog oneShard) 5
    have hlive : (lone oneShard (loneLog _) 5).Live (loneSlot _) :=
      Slotted.live_of_page_lt (old_aged (loneLog _) (by decide))
    refine ⟨_, fun _ => some (loneSlot oneShard).word, t, hb, superseding_lone _ _ _, ht,
      ⟨5, _, rfl, hb.slotted.getAddr_eq hlive (by decide)⟩, ?_, htrash⟩
    rw [loneSlot, recAt_lone_self]
    rfl
  · obtain ⟨t, ht, htrash, hfreed⟩ := markPages_lone (loneLog twoShards) 5
    refine ⟨_, fun _ => none, t, wellLinked_lone _ _, superseding_lone _ _ _, ht, ?_, htrash, ?_⟩
    · rw [loneSlot, recAt_lone_self]
      rfl
    · rw [hfreed _ fun h => absurd (congrArg (fun pg => pg.log.hash) h) (by decide)]
      rfl

end LogKV

end NaliStore
