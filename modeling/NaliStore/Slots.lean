import NaliStore.Alloc

/-!
# Logs of fixed-size records

With 32-byte records a page is an array of 524288 slots and a log is one append-only
sequence of slots: page `p` holds the slots from `p * slotsPerPage` on. `LogKV.used`
counts the slots handed out and `LogKV.recAt` is the record in a slot. In these terms
an allocation is `used + 1`, a `store_persist` is an update of `recAt` at one slot, and
the packed address of a slot resolves to it as long as it has been handed out. The rest
of the development speaks of slots and records only.
-/

namespace NaliStore

open ByteMem

variable {cfg : Config}

/-- The record an unwritten slot shows: all bits are 1. -/
def PairT.blank : PairT := ⟨.trash, BitVec.allOnes 62, uint64Max, uint64Max, uint64Max⟩

theorem PairT.view_fill (a : ℕ) : view (fill 0xff) a = blank := by
  simp only [view, load64_fill_ones]
  decide

/-- The slots of a page. -/
def slotsPerPage : ℕ := 524288

/-- The slots of a log: 32 pages. -/
def logCapacity : ℕ := 16777216

/-- A position in a log of fixed-size records. -/
@[ext] structure Slot (cfg : Config) where
  /-- the log -/
  log : LogId cfg
  /-- the number of slots before this one -/
  pos : ℕ
  deriving DecidableEq

namespace Slot

/-- The page file the slot is in. -/
def pageId (σ : Slot cfg) : PageId cfg := ⟨σ.log, σ.pos / slotsPerPage⟩

/-- The offset of the slot in its page. -/
def off (σ : Slot cfg) : ℕ := PairT.size * (σ.pos % slotsPerPage)

/-- The address of the slot. -/
def ptr (σ : Slot cfg) : Ptr cfg := ⟨some σ.pageId, σ.off⟩

/-- The log information of the slot. -/
def info (σ : Slot cfg) (vlen : UInt16) : LastLogOffest :=
  ⟨vlen, UInt8.ofNat σ.log.numa, UInt8.ofNat σ.pageId.page, UInt32.ofNat σ.off⟩

/-- The packed address of the slot. -/
def word (σ : Slot cfg) : UInt64 := (σ.info PairT.vlen).toUint64Offset

theorem off_add_le (σ : Slot cfg) : σ.off + 32 ≤ ppageSize := by
  have : σ.pos % slotsPerPage < slotsPerPage := Nat.mod_lt _ (by decide)
  simp only [off, PairT.size, slotsPerPage, ppageSize_eq] at *
  omega

theorem pageId_page_lt {σ : Slot cfg} (h : σ.pos < logCapacity) : σ.pageId.page < 32 := by
  simp only [pageId, slotsPerPage, logCapacity] at *
  omega

/-- Two slots of one page do not overlap. -/
theorem disjoint_of_ne {σ τ : Slot cfg} (hpage : σ.pageId = τ.pageId) (hne : σ ≠ τ) :
    τ.off + 32 ≤ σ.off ∨ σ.off + 32 ≤ τ.off := by
  obtain ⟨hlog, hp⟩ := PageId.mk.inj hpage
  have hpos : σ.pos ≠ τ.pos := fun h => hne (Slot.ext hlog h)
  simp only [off, PairT.size, slotsPerPage] at *
  omega

theorem ptr_injective {σ τ : Slot cfg} (h : σ.ptr = τ.ptr) : σ = τ := by
  obtain ⟨hpage, hoff⟩ := Ptr.mk.inj h
  by_contra hne
  rcases disjoint_of_ne (Option.some_inj.mp hpage) hne with hlt | hlt
  · exact absurd hoff (by omega)
  · exact absurd hoff (by omega)

/-- The fields of the packed address are those of the slot. -/
theorem toNat_info {σ : Slot cfg} (h : σ.pos < logCapacity) (vlen : UInt16) :
    (σ.info vlen).numaId.toNat = σ.log.numa ∧ (σ.info vlen).ppageId.toNat = σ.pageId.page ∧
      (σ.info vlen).logOffset.toNat = σ.off := by
  have hn : (σ.log.numa : ℕ) < 2 := σ.log.numa.isLt
  have hp := pageId_page_lt h
  have ho := σ.off_add_le
  rw [ppageSize_eq] at ho
  refine ⟨?_, ?_, ?_⟩
  · rw [info, UInt8.toNat_ofNat']
    exact Nat.mod_eq_of_lt (by omega)
  · rw [info, UInt8.toNat_ofNat']
    exact Nat.mod_eq_of_lt (by omega)
  · rw [info, UInt32.toNat_ofNat']
    exact Nat.mod_eq_of_lt (by omega)

/-- Within a shard, different slots have different packed addresses. -/
theorem word_injective {σ τ : Slot cfg} (hσ : σ.pos < logCapacity) (hτ : τ.pos < logCapacity)
    (hhash : σ.log.hash = τ.log.hash) (h : σ.word = τ.word) : σ = τ := by
  have hinfo : σ.info PairT.vlen = τ.info PairT.vlen := by
    rw [← LastLogOffest.ofAddrInfo_toUint64Offset (σ.info PairT.vlen), ← word, h, word,
      LastLogOffest.ofAddrInfo_toUint64Offset]
  obtain ⟨hn, hp, ho⟩ := toNat_info hσ PairT.vlen
  obtain ⟨hn', hp', ho'⟩ := toNat_info hτ PairT.vlen
  rw [hinfo] at hn hp ho
  have hlog : σ.log = τ.log := LogId.ext (Fin.ext (hn.symm.trans hn')) hhash
  have hpage := hp.symm.trans hp'
  have hoff := ho.symm.trans ho'
  refine Slot.ext hlog ?_
  simp only [pageId, off, PairT.size, slotsPerPage] at hpage hoff
  omega

/-- The packed address of a slot carries the value length, so it is not the sentinel. -/
theorem word_ne_max (σ : Slot cfg) : σ.word ≠ uint64Max := by
  intro h
  have hv : (LastLogOffest.ofAddrInfo σ.word).vlen = (LastLogOffest.ofAddrInfo uint64Max).vlen := by
    rw [h]
  rw [word, LastLogOffest.ofAddrInfo_toUint64Offset] at hv
  exact absurd hv (by simp only [info]; decide)

/-- For the same reason it is not the null word. -/
theorem word_ne_zero (σ : Slot cfg) : σ.word ≠ 0 := by
  intro h
  have hv : (LastLogOffest.ofAddrInfo σ.word).vlen = (LastLogOffest.ofAddrInfo 0).vlen := by
    rw [h]
  rw [word, LastLogOffest.ofAddrInfo_toUint64Offset] at hv
  exact absurd hv (by simp only [info]; decide)

end Slot

/-- Slot `i` of a page. -/
def PageId.slotAt (pg : PageId cfg) (i : ℕ) : Slot cfg := ⟨pg.log, pg.page * slotsPerPage + i⟩

theorem PageId.pageId_slotAt (pg : PageId cfg) {i : ℕ} (hi : i < slotsPerPage) :
    (pg.slotAt i).pageId = pg := by
  have hpageId : (pg.slotAt i).pageId =
      ⟨pg.log, (pg.page * slotsPerPage + i) / slotsPerPage⟩ := rfl
  rw [hpageId, Nat.mul_comm, Nat.mul_add_div (by decide), Nat.div_eq_of_lt hi, Nat.add_zero]

theorem PageId.off_slotAt (pg : PageId cfg) {i : ℕ} (hi : i < slotsPerPage) :
    (pg.slotAt i).off = PairT.size * i := by
  rw [Slot.off, slotAt, Nat.mul_comm pg.page, Nat.mul_add_mod, Nat.mod_eq_of_lt hi]

theorem PageId.slotAt_pos {pg : PageId cfg} {σ : Slot cfg} (h : σ.pageId = pg) :
    pg.slotAt (σ.pos % slotsPerPage) = σ := by
  subst h
  exact Slot.ext rfl (Nat.div_add_mod' σ.pos slotsPerPage)

namespace LogKV

/-! ## The slots of a log state -/

/-- The slots of log `l` that have been handed out. -/
def used (s : LogKV cfg) (l : LogId cfg) : ℕ :=
  (s.ppage l).ppageId * slotsPerPage + (s.ppage l).szAllocated / PairT.size

/-- The bytes of a page file; a page that does not exist yet will be created blank. -/
def bytes (s : LogKV cfg) (pg : PageId cfg) : Mem := (s.pmem pg).getD (fill 0xff)

/-- The record in a slot. -/
def recAt (s : LogKV cfg) (σ : Slot cfg) : PairT := PairT.view (s.bytes σ.pageId) σ.off

/-- The slot the next allocation in log `l` hands out. -/
def nextSlot (s : LogKV cfg) (l : LogId cfg) : Slot cfg := ⟨l, s.used l⟩

/-- Write a record to a slot. -/
def write (s : LogKV cfg) (σ : Slot cfg) (r : PairT) : LogKV cfg :=
  s.setPage σ.pageId (PairT.storePersist (s.bytes σ.pageId) σ.off r)

/-- The slot has been handed out. -/
def Live (s : LogKV cfg) (σ : Slot cfg) : Prop := σ.pos < s.used σ.log

instance (s : LogKV cfg) (σ : Slot cfg) : Decidable (s.Live σ) := inferInstanceAs (Decidable (_ < _))

/-- A log state made by allocations of fixed-size records only. -/
structure Slotted (s : LogKV cfg) : Prop where
  /-- the allocator invariant -/
  wf : s.WF
  /-- the append position is at a slot -/
  dvd : ∀ l, PairT.size ∣ (s.ppage l).szAllocated
  /-- slots not handed out yet are unwritten -/
  unwritten : ∀ σ : Slot cfg, ¬ s.Live σ → s.recAt σ = PairT.blank

theorem used_fresh (l : LogId cfg) : (fresh cfg).used l = 0 := by
  simp [used, fresh]

theorem recAt_fresh (σ : Slot cfg) : (fresh cfg).recAt σ = PairT.blank := by
  have hbytes : (fresh cfg).bytes σ.pageId = fill 0xff := by
    simp only [bytes, fresh]
    split <;> rfl
  rw [recAt, hbytes, PairT.view_fill]

theorem slotted_fresh (cfg : Config) : (fresh cfg).Slotted where
  wf := wf_fresh cfg
  dvd _ := dvd_zero _
  unwritten σ _ := recAt_fresh σ

namespace Slotted

variable {s : LogKV cfg} {σ τ : Slot cfg} {l : LogId cfg} {r : PairT}

theorem used_le (h : s.Slotted) (l : LogId cfg) : s.used l ≤ logCapacity := by
  have hp := h.wf.page_lt l
  have hs := h.wf.sz_le l
  simp only [used, maxLofFileId, ppageSize_eq, slotsPerPage, PairT.size, logCapacity] at *
  omega

/-- A slot that has not been handed out shows as TRASH. -/
theorem op_of_not_live (h : s.Slotted) (hσ : ¬ s.Live σ) : (s.recAt σ).op = .trash := by
  rw [h.unwritten σ hσ]
  rfl

theorem lt_capacity (h : s.Slotted) (hσ : s.Live σ) : σ.pos < logCapacity :=
  lt_of_lt_of_le hσ (h.used_le σ.log)

/-- A slot handed out is in a page that exists. -/
theorem page_le (h : s.Slotted) (hσ : s.Live σ) :
    σ.pageId.page ≤ (s.ppage σ.log).ppageId := by
  have hs := h.wf.sz_le σ.log
  simp only [Live, used, Slot.pageId, ppageSize_eq, slotsPerPage, PairT.size] at *
  omega

/-- The pages below the newest are full. -/
theorem live_of_page_lt (h : σ.pageId.page < (s.ppage σ.log).ppageId) : s.Live σ := by
  simp only [Live, used, Slot.pageId, slotsPerPage, PairT.size] at *
  omega

theorem pmem_eq (h : s.Slotted) (hσ : s.Live σ) : s.pmem σ.pageId = some (s.bytes σ.pageId) := by
  obtain ⟨m, hm⟩ := h.wf.file σ.log σ.pageId.page (h.page_le hσ)
  have hm' : s.pmem σ.pageId = some m := hm
  rw [bytes, hm', Option.getD_some]

/-- A slot handed out can be read. -/
theorem load_eq (h : s.Slotted) (hσ : s.Live σ) : s.load σ.ptr = .ok (s.recAt σ) := by
  simp only [load, page, Slot.ptr, h.pmem_eq hσ]
  rfl

/-- A slot handed out can be written. -/
theorem storePersist_eq (h : s.Slotted) (hσ : s.Live σ) (r : PairT) :
    s.storePersist σ.ptr r = .ok (s.write σ r) := by
  simp only [storePersist, Slot.ptr, h.pmem_eq hσ]
  rfl

theorem storePersist_inv (h : s.Slotted) (hσ : s.Live σ) {r : PairT} {s' : LogKV cfg}
    (hstore : s.storePersist σ.ptr r = .ok s') : s' = s.write σ r :=
  Except.ok.inj (hstore.symm.trans (h.storePersist_eq hσ r))

/-- The packed address of a slot handed out resolves to the slot. -/
theorem getAddr_eq (h : s.Slotted) (hσ : s.Live σ) {hashKey : UInt64}
    (hhash : σ.log.hash = cfg.shardOf hashKey) :
    s.getAddr (.ofAddrInfo σ.word) hashKey = .ok σ.ptr := by
  obtain ⟨hn, hp, ho⟩ := Slot.toNat_info (h.lt_capacity hσ) PairT.vlen
  rw [Slot.word, LastLogOffest.ofAddrInfo_toUint64Offset]
  exact getAddr_of_wf h.wf hhash hn hp ho (h.page_le hσ)

end Slotted

/-! ## Allocation of a slot -/

section Alloc

variable {s : LogKV cfg} {l : LogId cfg}

/-- A page rolls over exactly when it is full. -/
theorem Slotted.roll_iff (h : s.Slotted) (l : LogId cfg) :
    PairT.size > ppageSize - (s.ppage l).szAllocated ↔ (s.ppage l).szAllocated = ppageSize := by
  obtain ⟨j, hj⟩ := h.dvd l
  have hs := h.wf.sz_le l
  simp only [PairT.size, ppageSize_eq] at *
  omega

theorem Slotted.allocPage_eq (h : s.Slotted) (l : LogId cfg) :
    s.allocPage l PairT.size = (s.nextSlot l).pageId.page := by
  obtain ⟨j, hj⟩ := h.dvd l
  have hs := h.wf.sz_le l
  have hroll := h.roll_iff l
  by_cases hfull : (s.ppage l).szAllocated = ppageSize
  · rw [allocPage, if_pos (hroll.mpr hfull)]
    simp only [nextSlot, Slot.pageId, used, PairT.size, ppageSize_eq, slotsPerPage] at *
    omega
  · rw [allocPage, if_neg fun hc => hfull (hroll.mp hc)]
    simp only [nextSlot, Slot.pageId, used, PairT.size, ppageSize_eq, slotsPerPage] at *
    omega

theorem Slotted.allocOff_eq (h : s.Slotted) (l : LogId cfg) :
    s.allocOff l PairT.size = (s.nextSlot l).off := by
  obtain ⟨j, hj⟩ := h.dvd l
  have hs := h.wf.sz_le l
  have hroll := h.roll_iff l
  by_cases hfull : (s.ppage l).szAllocated = ppageSize
  · rw [allocOff, if_pos (hroll.mpr hfull)]
    simp only [nextSlot, Slot.off, used, PairT.size, ppageSize_eq, slotsPerPage] at *
    omega
  · rw [allocOff, if_neg fun hc => hfull (hroll.mp hc)]
    simp only [nextSlot, Slot.off, used, PairT.size, ppageSize_eq, slotsPerPage] at *
    omega

theorem Slotted.fits_iff (h : s.Slotted) (l : LogId cfg) :
    s.allocPage l PairT.size < maxLofFileId ↔ s.used l < logCapacity := by
  rw [h.allocPage_eq]
  simp only [nextSlot, Slot.pageId, maxLofFileId, slotsPerPage, logCapacity]
  omega

/-- **An allocation hands out the next slot.** -/
theorem Slotted.alloc_eq (h : s.Slotted) (hfit : s.used l < logCapacity)
    (logInfo : LastLogOffest) :
    s.alloc l logInfo PairT.size =
      .ok ((s.nextSlot l).ptr, (s.nextSlot l).info logInfo.vlen, s.afterAlloc l PairT.size) := by
  rw [LogKV.alloc_eq h.wf ((h.fits_iff l).mpr hfit), allocInfo, h.allocPage_eq, h.allocOff_eq]
  rfl

/-- A full log has no slot left. -/
theorem Slotted.alloc_full (h : s.Slotted) (hfit : ¬ s.used l < logCapacity)
    (logInfo : LastLogOffest) : s.alloc l logInfo PairT.size = .error .outOfBounds :=
  alloc_outOfBounds h.wf fun hc => hfit ((h.fits_iff l).mp hc)

theorem Slotted.used_afterAlloc (h : s.Slotted) :
    (s.afterAlloc l PairT.size).used = Function.update s.used l (s.used l + 1) := by
  obtain ⟨j, hj⟩ := h.dvd l
  have hs := h.wf.sz_le l
  funext l'
  by_cases hl : l' = l
  · subst hl
    rw [Function.update_self, used, afterAlloc_ppage_self, h.allocPage_eq, h.allocOff_eq]
    simp only [nextSlot, Slot.pageId, Slot.off, used, PairT.size, slotsPerPage] at *
    omega
  · rw [Function.update_of_ne hl, used, afterAlloc_ppage_ne hl, used]

theorem Slotted.bytes_afterAlloc (h : s.Slotted) (pg : PageId cfg) :
    (s.afterAlloc l PairT.size).bytes pg = s.bytes pg := by
  simp only [bytes, LogKV.afterAlloc]
  split
  · rename_i hc
    have hlt : (s.ppage l).ppageId < s.allocPage l PairT.size := by
      rw [allocPage, if_pos hc.2]
      exact Nat.lt_succ_self _
    rw [hc.1, h.wf.file_none l _ hlt]
    rfl
  · rfl

@[simp] theorem Slotted.recAt_afterAlloc (h : s.Slotted) :
    (s.afterAlloc l PairT.size).recAt = s.recAt := by
  funext σ
  rw [recAt, h.bytes_afterAlloc, recAt]

/-- Every slot handed out stays so. -/
theorem Slotted.live_afterAlloc (h : s.Slotted) {σ : Slot cfg} :
    (s.afterAlloc l PairT.size).Live σ ↔ s.Live σ ∨ σ = s.nextSlot l := by
  rw [Live, h.used_afterAlloc, Live, nextSlot, Slot.ext_iff]
  by_cases hl : σ.log = l
  · subst hl
    rw [Function.update_self]
    simp only [true_and]
    omega
  · rw [Function.update_of_ne hl]
    simp [hl]

theorem Slotted.afterAlloc (h : s.Slotted) (hfit : s.used l < logCapacity) :
    (s.afterAlloc l PairT.size).Slotted where
  wf := h.wf.afterAlloc (by decide) ((h.fits_iff l).mpr hfit)
  dvd l' := by
    by_cases hl : l' = l
    · subst hl
      rw [afterAlloc_ppage_self, h.allocOff_eq]
      exact Nat.dvd_add (dvd_mul_right ..) (dvd_refl _)
    · rw [afterAlloc_ppage_ne hl]
      exact h.dvd l'
  unwritten σ hσ := by
    rw [h.recAt_afterAlloc]
    exact h.unwritten σ fun hc => hσ (h.live_afterAlloc.mpr (.inl hc))

theorem nextSlot_not_live : ¬ s.Live (s.nextSlot l) := lt_irrefl _

theorem Slotted.nextSlot_live (h : s.Slotted) :
    (s.afterAlloc l PairT.size).Live (s.nextSlot l) :=
  h.live_afterAlloc.mpr (.inr rfl)

end Alloc

/-! ## Writing a slot -/

section Write

variable {s : LogKV cfg} {σ : Slot cfg} {r : PairT}

@[simp] theorem used_write : (s.write σ r).used = s.used := rfl

@[simp] theorem ppage_write : (s.write σ r).ppage = s.ppage := rfl

@[simp] theorem version_write : (s.write σ r).version = s.version := rfl

@[simp] theorem startAddrArr_write : (s.write σ r).startAddrArr = s.startAddrArr := rfl

@[simp] theorem szFreed_write : (s.write σ r).szFreed = s.szFreed := rfl

@[simp] theorem live_write {τ : Slot cfg} : (s.write σ r).Live τ ↔ s.Live τ := Iff.rfl

theorem bytes_setPage (pg pg' : PageId cfg) (m : Mem) :
    (s.setPage pg m).bytes pg' = if pg' = pg then m else s.bytes pg' := by
  simp only [bytes, setPage, Function.update_apply]
  split <;> rfl

/-- A write changes the record of its slot and of no other. -/
@[simp] theorem recAt_write : (s.write σ r).recAt = Function.update s.recAt σ r := by
  funext τ
  rw [recAt, write, bytes_setPage]
  by_cases hτ : τ = σ
  · subst hτ
    rw [if_pos rfl, PairT.view_storePersist_same, Function.update_self]
  · rw [Function.update_of_ne hτ, recAt]
    split
    · rename_i hpage
      rw [PairT.view_storePersist_disjoint _ _ (Slot.disjoint_of_ne hpage hτ).symm, hpage]
    · rfl

/-- Existing pages stay mapped when the bytes of one of them change. -/
theorem WF.setPage (h : s.WF) {pg : PageId cfg} {m : Mem}
    (hpg : pg.page ≤ (s.ppage pg.log).ppageId) : (s.setPage pg m).WF where
  page_lt := h.page_lt
  start := h.start
  sz_le := h.sz_le
  table := h.table
  table_none := h.table_none
  file l p hp := by
    simp only [LogKV.setPage, Function.update_apply]
    split
    · exact ⟨m, rfl⟩
    · exact h.file l p hp
  file_none l p hp := by
    have hne : (⟨l, p⟩ : PageId cfg) ≠ pg := by
      rintro rfl
      exact absurd hp (Nat.not_lt.mpr hpg)
    simp only [LogKV.setPage, Function.update_of_ne hne]
    exact h.file_none l p hp

theorem Slotted.write (h : s.Slotted) (hσ : s.Live σ) : (s.write σ r).Slotted where
  wf := h.wf.setPage (h.page_le hσ)
  dvd := h.dvd
  unwritten τ hτ := by
    have hne : τ ≠ σ := by
      rintro rfl
      exact hτ hσ
    rw [recAt_write, Function.update_of_ne hne]
    exact h.unwritten τ hτ

end Write

/-! ## Handing out a version -/

section Version

variable {s : LogKV cfg} {hashKey : UInt64}

/-- The state after `get_version`. -/
def bump (s : LogKV cfg) (hashKey : UInt64) : LogKV cfg := (s.getVersion hashKey).2

@[simp] theorem used_bump : (s.bump hashKey).used = s.used := rfl

@[simp] theorem recAt_bump : (s.bump hashKey).recAt = s.recAt := rfl

@[simp] theorem szFreed_bump : (s.bump hashKey).szFreed = s.szFreed := rfl

@[simp] theorem nextSlot_bump {l : LogId cfg} : (s.bump hashKey).nextSlot l = s.nextSlot l := rfl

@[simp] theorem live_bump {τ : Slot cfg} : (s.bump hashKey).Live τ ↔ s.Live τ := Iff.rfl

theorem Slotted.bump (h : s.Slotted) : (s.bump hashKey).Slotted where
  wf := ⟨h.wf.page_lt, h.wf.start, h.wf.sz_le, h.wf.table, h.wf.table_none, h.wf.file,
    h.wf.file_none⟩
  dvd := h.dvd
  unwritten := h.unwritten

end Version

end LogKV

end NaliStore
