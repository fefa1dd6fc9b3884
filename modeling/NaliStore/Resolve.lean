import NaliStore.Slots

/-!
# Handed-out addresses

Runs of `alloc_log` calls, for records of any size. The page counter of a log is a
`size_t` that `PPage::alloc` increments without a check, while the address table has
`MAX_LOF_FILE_ID` = 32 slots a log: as long as every call finds room in the newest page
of its log or a table slot for the next page, each address ever handed out decodes and
resolves to the pointer that was returned for it. The call that needs page 32 writes
outside the table, and a log reaches it after 2^24 fixed-size records.
-/

namespace NaliStore

open Runs

variable {cfg : Config}

/-! ## Runs of `alloc_log` calls -/

/-- The sizes the `Pair_t` types produce: 32 bytes, or 26 and a 16-bit value length. -/
def IsRecordSize (n : ℕ) : Prop := n = PairT.size ∨ ∃ vlen : UInt16, n = 26 + vlen.toNat

theorem IsRecordSize.le_ppageSize {n : ℕ} (h : IsRecordSize n) : n ≤ ppageSize := by
  rw [ppageSize_eq]
  rcases h with rfl | ⟨vlen, rfl⟩
  · decide
  · have := vlen.toNat_lt
    omega

/-- One call of `alloc_log`. -/
structure AllocCall where
  /-- the calling thread -/
  threadId : Fin 64
  /-- `hash_key` -/
  hashKey : UInt64
  /-- `log_info` as the caller passes it -/
  logInfo : LastLogOffest
  /-- `alloc_size` -/
  size : ℕ

/-- An address handed out: the pointer, the packed offset and the hash it was for. -/
structure Handed (cfg : Config) where
  /-- what `alloc_log` returned -/
  ptr : Ptr cfg
  /-- `log_info.to_uint64_t_offset()` -/
  addrInfo : UInt64
  /-- `hash_key` -/
  hashKey : UInt64

/-- A store and every address it has handed out, oldest first. -/
structure AllocRun (cfg : Config) where
  /-- the log -/
  log : LogKV cfg
  /-- the history -/
  handed : List (Handed cfg)

/-- Make a call and remember what it returned. -/
def allocStep (s : AllocRun cfg) (c : AllocCall) : Except Fault (AllocRun cfg) := do
  let (ptr, logInfo, log) ← s.log.allocLog c.threadId c.hashKey c.logInfo c.size
  pure ⟨log, s.handed ++ [⟨ptr, logInfo.toUint64Offset, c.hashKey⟩]⟩

/-- Every address handed out so far decodes, through the page table of this moment,
to the pointer that was returned for it, and its page number survived the 8 bits. -/
def Resolvable (s : AllocRun cfg) : Prop :=
  ∀ h ∈ s.handed,
    s.log.getAddr (LastLogOffest.ofAddrInfo h.addrInfo) h.hashKey = .ok h.ptr ∧
      ∃ pg, h.ptr.base = some pg ∧
        (LastLogOffest.ofAddrInfo h.addrInfo).ppageId.toNat = pg.page

/-- The log the call appends to has room in its newest page, or a slot in the address
table for the next one. -/
def HasRoom (s : LogKV cfg) (l : LogId cfg) (size : ℕ) : Prop :=
  size ≤ ppageSize - (s.ppage l).szAllocated ∨ (s.ppage l).ppageId + 1 < maxLofFileId

/-- The call has a record size, and room. -/
def AllocCall.Allowed (s : AllocRun cfg) (c : AllocCall) : Prop :=
  IsRecordSize c.size ∧ HasRoom s.log (LogKV.logOf cfg c.threadId c.hashKey) c.size

theorem hasRoom_iff {s : LogKV cfg} (hwf : s.WF) {l : LogId cfg} {size : ℕ} :
    HasRoom s l size ↔ s.allocPage l size < maxLofFileId := by
  have := hwf.page_lt l
  rw [HasRoom, LogKV.allocPage]
  split <;> omega

/-- What is known about an address handed out: which log and page it is in. -/
def Handed.WF (s : LogKV cfg) (h : Handed cfg) : Prop :=
  ∃ l : LogId cfg, ∃ p off : ℕ,
    h.ptr = ⟨some ⟨l, p⟩, off⟩ ∧ l.hash = cfg.shardOf h.hashKey ∧ p ≤ (s.ppage l).ppageId ∧
      (LastLogOffest.ofAddrInfo h.addrInfo).numaId.toNat = l.numa ∧
      (LastLogOffest.ofAddrInfo h.addrInfo).ppageId.toNat = p ∧
      (LastLogOffest.ofAddrInfo h.addrInfo).logOffset.toNat = off

/-- The invariant of a run: the allocator's, and where each address lies. -/
def AllocRun.Inv (s : AllocRun cfg) : Prop := s.log.WF ∧ ∀ h ∈ s.handed, h.WF s.log

theorem Handed.WF.resolve {s : LogKV cfg} (hwf : s.WF) {h : Handed cfg} (hh : h.WF s) :
    s.getAddr (LastLogOffest.ofAddrInfo h.addrInfo) h.hashKey = .ok h.ptr ∧
      ∃ pg, h.ptr.base = some pg ∧
        (LastLogOffest.ofAddrInfo h.addrInfo).ppageId.toNat = pg.page := by
  obtain ⟨l, p, off, hptr, hhash, hle, hn, hp, ho⟩ := hh
  rw [hptr]
  exact ⟨LogKV.getAddr_of_wf hwf hhash hn hp ho hle, ⟨l, p⟩, rfl, hp⟩

/-- An address stays where it is when the log grows. -/
theorem Handed.WF.afterAlloc {s : LogKV cfg} {h : Handed cfg} (hh : h.WF s) (l' : LogId cfg)
    (size : ℕ) : h.WF (s.afterAlloc l' size) := by
  obtain ⟨l, p, off, hptr, hhash, hle, hrest⟩ := hh
  refine ⟨l, p, off, hptr, hhash, ?_, hrest⟩
  by_cases hl : l = l'
  · subst hl
    rw [LogKV.afterAlloc_ppage_self]
    exact le_trans hle LogKV.le_allocPage
  · rwa [LogKV.afterAlloc_ppage_ne hl]

/-- One call: it returns exactly when there is room, and keeps the invariant. -/
theorem allocStep_spec {s : AllocRun cfg} (hinv : s.Inv) {c : AllocCall}
    (hsize : IsRecordSize c.size) :
    (HasRoom s.log (LogKV.logOf cfg c.threadId c.hashKey) c.size →
      ∃ t, allocStep s c = .ok t ∧ t.Inv ∧
        t.log = s.log.afterAlloc (LogKV.logOf cfg c.threadId c.hashKey) c.size) ∧
    (¬ HasRoom s.log (LogKV.logOf cfg c.threadId c.hashKey) c.size →
      allocStep s c = .error .outOfBounds) := by
  obtain ⟨hwf, hhanded⟩ := hinv
  rw [hasRoom_iff hwf]
  set l := LogKV.logOf cfg c.threadId c.hashKey with hl
  constructor
  · intro hfit
    refine ⟨⟨s.log.afterAlloc l c.size, s.handed ++ [⟨⟨some ⟨l, s.log.allocPage l c.size⟩,
      s.log.allocOff l c.size⟩, (s.log.allocInfo l c.logInfo c.size).toUint64Offset,
      c.hashKey⟩]⟩, ?_, ⟨hwf.afterAlloc hsize.le_ppageSize hfit, ?_⟩, rfl⟩
    · rw [allocStep, LogKV.allocLog, ← hl, LogKV.alloc_eq hwf hfit]
      rfl
    · intro h hmem
      rcases List.mem_append.mp hmem with hmem | hmem
      · exact (hhanded h hmem).afterAlloc l c.size
      · obtain rfl := List.mem_singleton.mp hmem
        obtain ⟨hn, hp, ho⟩ := LogKV.toNat_allocInfo hwf c.logInfo hfit
        refine ⟨l, s.log.allocPage l c.size, s.log.allocOff l c.size, rfl, rfl, ?_, ?_, ?_, ?_⟩
        · rw [LogKV.afterAlloc_ppage_self]
        · rw [LastLogOffest.ofAddrInfo_toUint64Offset, hn]
        · rw [LastLogOffest.ofAddrInfo_toUint64Offset, hp]
        · rw [LastLogOffest.ofAddrInfo_toUint64Offset, ho]
  · intro hfit
    rw [allocStep, LogKV.allocLog, ← hl, LogKV.alloc_outOfBounds hwf hfit]
    rfl

theorem inv_fresh (cfg : Config) : AllocRun.Inv ⟨LogKV.fresh cfg, []⟩ :=
  ⟨LogKV.wf_fresh cfg, fun _ hmem => absurd hmem (List.not_mem_nil)⟩

theorem inv_of_run {calls : List AllocCall} {t : AllocRun cfg}
    (hrun : Run allocStep AllocCall.Allowed ⟨LogKV.fresh cfg, []⟩ calls t) : t.Inv := by
  refine hrun.invariant (I := AllocRun.Inv) ?_ (inv_fresh cfg)
  intro s c t hinv hC hstep
  obtain ⟨t', hok, hinv', -⟩ := (allocStep_spec hinv hC.1).1 hC.2
  rw [hok] at hstep
  obtain rfl := Except.ok.inj hstep
  exact hinv'

/-- **Addresses stay resolvable while no log leaves the table.** In every run of
`alloc_log` calls in which each call finds room in the newest page of its log or a
table slot for the next, every address handed out so far resolves to the pointer
returned for it, no page counter reaches `MAX_LOF_FILE_ID`, and the next call
returns exactly when it has room too; otherwise it writes outside the table. -/
theorem handed_addresses_resolve (cfg : Config) {calls : List AllocCall} {t : AllocRun cfg}
    (hrun : Run allocStep AllocCall.Allowed ⟨LogKV.fresh cfg, []⟩ calls t) :
    Resolvable t ∧ (∀ l, (t.log.ppage l).ppageId < maxLofFileId) ∧
      ∀ c : AllocCall, IsRecordSize c.size →
        (HasRoom t.log (LogKV.logOf cfg c.threadId c.hashKey) c.size ∧
          ∃ t', allocStep t c = .ok t') ∨
        (¬ HasRoom t.log (LogKV.logOf cfg c.threadId c.hashKey) c.size ∧
          allocStep t c = .error .outOfBounds) := by
  have hinv := inv_of_run hrun
  refine ⟨fun h hmem => (hinv.2 h hmem).resolve hinv.1, hinv.1.page_lt, ?_⟩
  intro c hsize
  obtain ⟨hok, herr⟩ := allocStep_spec hinv hsize
  by_cases hroom : HasRoom t.log (LogKV.logOf cfg c.threadId c.hashKey) c.size
  · obtain ⟨t', ht', -⟩ := hok hroom
    exact .inl ⟨hroom, t', ht'⟩
  · exact .inr ⟨hroom, herr hroom⟩

/-- A call for a fixed-size record. -/
def fixedCall (threadId : Fin 64) : AllocCall := ⟨threadId, 0, ⟨8, 255, 0, 0⟩, PairT.size⟩

/-- Calls for fixed-size records take one slot after the other, through all the pages of a log. -/
theorem exists_fixed_run (cfg : Config) : ∀ n ≤ logCapacity, ∃ t : AllocRun cfg,
    Run allocStep AllocCall.Allowed ⟨LogKV.fresh cfg, []⟩ (List.replicate n (fixedCall 0)) t ∧
      t.log.Slotted ∧ t.log.used (LogKV.logOf cfg 0 0) = n ∧
      t.handed.map Handed.ptr =
        (List.range n).map fun i => Slot.ptr ⟨LogKV.logOf cfg 0 0, i⟩ := by
  intro n
  induction n with
  | zero => exact fun _ => ⟨_, .nil _, LogKV.slotted_fresh cfg, LogKV.used_fresh _, rfl⟩
  | succ n ih =>
    intro hn
    obtain ⟨s, hrun, hs, hused, hptrs⟩ := ih (Nat.le_of_succ_le hn)
    set l := LogKV.logOf cfg 0 0 with hl
    have hfit : s.log.used l < logCapacity := by omega
    have hroom : AllocCall.Allowed s (fixedCall 0) :=
      ⟨.inl rfl, (hasRoom_iff hs.wf).mpr ((hs.fits_iff l).mpr hfit)⟩
    have hstep : allocStep s (fixedCall 0) = .ok ⟨s.log.afterAlloc l PairT.size,
        s.handed ++ [⟨(s.log.nextSlot l).ptr, ((s.log.nextSlot l).info 8).toUint64Offset, 0⟩]⟩ := by
      rw [allocStep, LogKV.allocLog, fixedCall, ← hl, hs.alloc_eq hfit]
      rfl
    have hrun' := hrun.append (.single hroom hstep)
    rw [← List.replicate_succ'] at hrun'
    refine ⟨_, hrun', hs.afterAlloc hfit, ?_, ?_⟩
    · rw [hs.used_afterAlloc, Function.update_self, hused]
    · rw [List.map_append, hptrs, List.range_succ, List.map_append, List.map_singleton,
        List.map_singleton, LogKV.nextSlot, hused]

/-- The page of a log is full and it goes on in the next one. -/
theorem handed_addresses_resolve_roll : ∃ t : AllocRun oneShard,
    Run allocStep AllocCall.Allowed ⟨LogKV.fresh oneShard, []⟩
      (List.replicate (slotsPerPage + 1) (fixedCall 0)) t ∧
    (t.handed.map Handed.ptr)[slotsPerPage - 1]? =
      some ⟨some ⟨LogKV.logOf oneShard 0 0, 0⟩, ppageSize - PairT.size⟩ ∧
    (t.handed.map Handed.ptr)[slotsPerPage]? = some ⟨some ⟨LogKV.logOf oneShard 0 0, 1⟩, 0⟩ ∧
    Resolvable t := by
  obtain ⟨t, hrun, -, -, hptrs⟩ := exists_fixed_run oneShard (slotsPerPage + 1) (by decide)
  refine ⟨t, hrun, ?_, ?_, (handed_addresses_resolve oneShard hrun).1⟩
  · rw [hptrs, List.getElem?_map, List.getElem?_range (by decide)]
    rfl
  · rw [hptrs, List.getElem?_map, List.getElem?_range (by decide)]
    rfl

/-- A successful call for a fixed-size record takes one slot of its log. -/
theorem allocStep_fixed {s t : AllocRun cfg} {c : AllocCall} (hs : s.log.Slotted)
    (hsize : c.size = PairT.size) (h : allocStep s c = .ok t) :
    t.log.Slotted ∧ t.log.used = Function.update s.log.used
      (LogKV.logOf cfg c.threadId c.hashKey)
      (s.log.used (LogKV.logOf cfg c.threadId c.hashKey) + 1) := by
  by_cases hfit : s.log.used (LogKV.logOf cfg c.threadId c.hashKey) < logCapacity
  · rw [allocStep, LogKV.allocLog, hsize, hs.alloc_eq hfit] at h
    obtain rfl := Except.ok.inj h
    exact ⟨hs.afterAlloc hfit, hs.used_afterAlloc⟩
  · rw [allocStep, LogKV.allocLog, hsize, hs.alloc_full hfit] at h
    cases h

/-- A run of `n` calls of thread 0 for one hash takes `n` slots. -/
theorem used_of_fixed_run {n : ℕ} {s t : AllocRun cfg} {C : AllocRun cfg → AllocCall → Prop}
    (hs : s.log.Slotted) (hrun : Run allocStep C s (List.replicate n (fixedCall 0)) t) :
    t.log.Slotted ∧
      t.log.used (LogKV.logOf cfg 0 0) = s.log.used (LogKV.logOf cfg 0 0) + n := by
  induction n generalizing s with
  | zero =>
    cases hrun
    exact ⟨hs, (Nat.add_zero _).symm⟩
  | succ n ih =>
    rw [List.replicate_succ] at hrun
    cases hrun with
    | cons hC hstep hrest =>
      obtain ⟨hs', hused⟩ := allocStep_fixed hs rfl hstep
      obtain ⟨ht, hcount⟩ := ih hs' hrest
      refine ⟨ht, ?_⟩
      rw [hcount, hused]
      simp only [fixedCall, Function.update_self]
      omega

/-- No run makes more calls than the log has slots. -/
theorem le_capacity_of_fixed_run {n : ℕ} {t : AllocRun cfg} {C : AllocRun cfg → AllocCall → Prop}
    (hrun : Run allocStep C ⟨LogKV.fresh cfg, []⟩ (List.replicate n (fixedCall 0)) t) :
    n ≤ logCapacity := by
  obtain ⟨ht, hcount⟩ := used_of_fixed_run (LogKV.slotted_fresh cfg) hrun
  have hle := ht.used_le (LogKV.logOf cfg 0 0)
  rwa [hcount, LogKV.used_fresh, Nat.zero_add] at hle

/-- Unconditionally the law fails: 2^24 records fill the 32 pages of a log, and the next
call has no table slot for its page. -/
theorem handed_addresses_overflow :
    ¬ ∀ (cfg : Config) (calls : List AllocCall), (∀ c ∈ calls, IsRecordSize c.size) →
      ∃ t : AllocRun cfg,
        Run allocStep (fun _ _ => True) ⟨LogKV.fresh cfg, []⟩ calls t ∧ Resolvable t := by
  intro h
  have hall : ∀ n, ∀ c ∈ List.replicate n (fixedCall 0), IsRecordSize c.size := by
    intro n c hc
    rw [List.eq_of_mem_replicate hc]
    exact .inl rfl
  obtain ⟨t, hrun, -⟩ := h oneShard _ (hall (logCapacity + 1))
  exact absurd (le_capacity_of_fixed_run hrun) (Nat.not_succ_le_self _)

end NaliStore
