import NaliStore.Restore

/-!
# Allocation after a restart

A recovered `PPage` is put together in three places: the constructor leaves `start_addr_`
null, `set_page_start_addr` raises `ppage_id` and the scan sets `sz_allocated`. Nothing
sets `start_addr_`, so an allocation in the newest page returns an offset from null, while
its `log_info` resolves to the page. Only an allocation that has to open a new page sets
`start_addr_`: `alloc_after_restart_iff` says that the allocator of a log is sound after a
restart exactly when the newest page was full.

Page files of whole logs may be missing: `lost` is the set of shards that had no file.
-/

namespace NaliStore

open ByteMem Runs StdString

variable {cfg : Config}

/-! ## What recovery leaves of a log -/

/-- A scan of the page ends at `e`: behind the INSERT records from its start on. -/
def ScanEnd (m : Mem) (e : ℕ) : Prop :=
  ∃ j, j ≤ slotsPerPage ∧ e = PairT.size * j ∧
    (∀ a, a < j → (PairT.view m (PairT.size * a)).op = .insert) ∧
    (j < slotsPerPage → (PairT.view m (PairT.size * j)).op ≠ .insert)

theorem scanEnd_scanRecords (m : Mem) (db : Index) : ScanEnd m (scanRecords m 0 db).2 := by
  obtain ⟨j, -, hj, hins, hstop, hoff, -⟩ :=
    scanRecords_spec m slotsPerPage 0 db (Nat.zero_add _)
  exact ⟨j, hj, hoff, fun a ha => hins a (Nat.zero_le _) ha, hstop⟩

/-- Page `p` is the newest of the page files of log `l`. -/
def Newest (pmem : PageId cfg → Option Mem) (l : LogId cfg) (p : ℕ) : Prop :=
  (pmem ⟨l, p⟩).isSome ∧ ∀ q, (pmem ⟨l, q⟩).isSome → q ≤ p

/-- The state of the recovery when the logs in `V` have been scanned. -/
structure Swept (pmem : PageId cfg → Option Mem) (V : LogId cfg → Prop) (s : LogKV cfg) :
    Prop where
  /-- the files are not touched -/
  files : s.pmem = pmem
  /-- every page file is in the table -/
  table : ∀ pg, s.startAddrArr pg = if (pmem pg).isSome then some pg else none
  /-- the page counter is that of the newest page, or still -1 -/
  newest : ∀ l, (s.ppage l).ppageId = 2 ^ 64 - 1 ∧ (∀ p, pmem ⟨l, p⟩ = none) ∨
    (s.ppage l).ppageId < maxLofFileId ∧ Newest pmem l (s.ppage l).ppageId
  /-- no page is open for appending -/
  start : ∀ l, (s.ppage l).startAddr = none
  /-- the append position of a scanned log is the end of the scan of its newest page -/
  size : ∀ l, V l → ∀ m, pmem ⟨l, (s.ppage l).ppageId⟩ = some m → ScanEnd m (s.ppage l).szAllocated
  /-- without a page it is 0 -/
  size_none : ∀ l, (∀ p, pmem ⟨l, p⟩ = none) → (s.ppage l).szAllocated = 0

namespace LogKV

/-- Mapping the files opens no page and sets no append position. -/
theorem mapFiles_ppage {dir : Fin numaNodeNum → List (PageId cfg)} {s t : LogKV cfg}
    (hs : ∀ l, (s.ppage l).startAddr = none ∧ (s.ppage l).szAllocated = 0)
    (h : s.mapFiles dir = .ok t) (l : LogId cfg) :
    (t.ppage l).startAddr = none ∧ (t.ppage l).szAllocated = 0 := by
  let I : LogKV cfg → Prop := fun s =>
    ∀ l, (s.ppage l).startAddr = none ∧ (s.ppage l).szAllocated = 0
  have hfile : ∀ i (s t : LogKV cfg) pg, I s → mapFile i s pg = .ok t → I t := by
    intro i s t pg hI hst
    rw [mapFile] at hst
    cases hparse : parseFileName pg.fileName with
    | none =>
      rw [hparse] at hst
      cases hst
    | some numbers =>
      rw [hparse] at hst
      simp only [enterFile, setPageStartAddr] at hst
      split at hst
      · split at hst
        · split at hst
          · obtain rfl := Except.ok.inj hst
            intro l'
            simp only [Function.update_apply]
            split
            · exact hI _
            · exact hI l'
          · obtain rfl := Except.ok.inj hst
            exact hI
        · cases hst
      · cases hst
  have hdir : ∀ i (s t : LogKV cfg), I s → (dir i).foldlM (mapFile i) s = .ok t → I t :=
    fun i s t hI hst => foldlM_invariant (P := fun _ => I)
      (fun _ pg _ s t _ hI hst => hfile i s t pg hI hst) hI hst
  exact foldlM_invariant (P := fun _ => I) (fun _ i _ s t _ hI hst => hdir i s t hI hst) hs h l

end LogKV

/-- The state when all files are mapped. -/
theorem exists_swept {pmem : PageId cfg → Option Mem}
    (hpage : ∀ pg, (pmem pg).isSome → pg.page < maxLofFileId)
    {dir : Fin numaNodeNum → List (PageId cfg)} (hdir : Lists dir pmem) :
    ∃ s, (LogKV.blank pmem).mapFiles dir = .ok s ∧ Swept pmem (fun _ => False) s := by
  obtain ⟨s, hs, hmapped⟩ := LogKV.mapFiles_mapped pmem fun i pg hpg =>
    ((hdir i pg).mp hpg).imp id (hpage pg)
  have hblank := LogKV.mapFiles_ppage (fun _ => ⟨rfl, rfl⟩) hs
  have hmem := LogKV.mem_flatMap_dir hdir
  refine ⟨s, hs, hmapped.pmem, fun pg => ?_, fun l => ?_, fun l => (hblank l).1,
    fun _ h => h.elim, fun l _ => (hblank l).2⟩
  · simp only [hmapped.table, hmem]
  · refine (hmapped.newest l).imp (fun h => ⟨h.1, fun p => ?_⟩) fun h => ⟨h.2.1, ?_, fun q hq => ?_⟩
    · by_contra hsome
      exact h.2 ⟨l, p⟩ ((hmem _).mpr (Option.isSome_iff_ne_none.mpr hsome)) rfl
    · exact (hmem _).mp h.1
    · exact h.2.2 ⟨l, q⟩ ((hmem _).mpr hq) rfl

namespace Swept

variable {pmem : PageId cfg → Option Mem} {V : LogId cfg → Prop} {s : Logdb cfg}

/-- Setting the append position of a scanned log. -/
theorem setSize (h : Swept pmem V s.log) {l : LogId cfg} {e : ℕ} {m : Mem}
    (hm : pmem ⟨l, (s.log.ppage l).ppageId⟩ = some m) (he : ScanEnd m e) :
    Swept pmem (fun l' => V l' ∨ l' = l) { s.log with
      ppage := Function.update s.log.ppage l { s.log.ppage l with szAllocated := e } } := by
  have hother : ∀ l', l' ≠ l → Function.update s.log.ppage l
      { s.log.ppage l with szAllocated := e } l' = s.log.ppage l' := fun l' hl =>
    Function.update_of_ne hl ..
  refine ⟨h.files, h.table, fun l' => ?_, fun l' => ?_, fun l' hV => ?_, fun l' hnone => ?_⟩
  · by_cases hl : l' = l
    · subst hl
      simp only [Function.update_self]
      exact h.newest l'
    · simp only [hother l' hl]
      exact h.newest l'
  · by_cases hl : l' = l
    · subst hl
      simp only [Function.update_self]
      exact h.start l'
    · simp only [hother l' hl]
      exact h.start l'
  · by_cases hl : l' = l
    · subst hl
      simp only [Function.update_self]
      intro m' hm'
      rw [Option.some_inj.mp (hm'.symm.trans hm)]
      exact he
    · simp only [hother l' hl]
      exact h.size l' (hV.resolve_right hl)
  · by_cases hl : l' = l
    · subst hl
      rw [hnone] at hm
      cases hm
    · simp only [hother l' hl]
      exact h.size_none l' hnone

/-- Scanning one page: only that of the newest page has an effect on the log. -/
theorem scanPage (h : Swept pmem V s.log) {l : LogId cfg} {p : ℕ} (hp : p < maxLofFileId)
    (hnewest : Newest pmem l (s.log.ppage l).ppageId) :
    ∃ t, Logdb.scanPage l s p = .ok t ∧ (t.log.ppage l).ppageId = (s.log.ppage l).ppageId ∧
      Swept pmem (fun l' => V l' ∨ l' = l ∧ (s.log.ppage l).ppageId = p) t.log := by
  have hread : ∃ db e, (∀ m, pmem ⟨l, p⟩ = some m → ScanEnd m e) ∧
      Logdb.scanPage l s p = .ok (if p = (s.log.ppage l).ppageId then
        ⟨{ s.log with ppage :=
          Function.update s.log.ppage l { s.log.ppage l with szAllocated := e } }, db⟩
        else ⟨s.log, db⟩) := by
    have htable := h.table ⟨l, p⟩
    cases hm : pmem ⟨l, p⟩ with
    | none =>
      rw [hm, if_neg (by decide)] at htable
      refine ⟨s.db, 0, fun m hm' => (nomatch hm'), ?_⟩
      rw [Logdb.scanPage, if_pos hp, htable]
      simp only [bind, Except.bind, pure, Except.pure]
      split <;> rfl
    | some m =>
      rw [hm, if_pos (Option.isSome_some)] at htable
      refine ⟨(scanRecords m 0 s.db).1, (scanRecords m 0 s.db).2, fun m' hm' => ?_, ?_⟩
      · obtain rfl := Option.some_inj.mp hm'
        exact scanEnd_scanRecords m s.db
      · have hmem : s.log.page ⟨some ⟨l, p⟩, 0⟩ = .ok m := by
          simp only [LogKV.page, h.files, hm]
        rw [Logdb.scanPage, if_pos hp, htable]
        simp only [hmem, bind, Except.bind, pure, Except.pure]
        split <;> rfl
  obtain ⟨db, e, he, hscan⟩ := hread
  refine ⟨_, hscan, ?_⟩
  by_cases hpage : p = (s.log.ppage l).ppageId
  · obtain ⟨m, hm⟩ := Option.isSome_iff_exists.mp hnewest.1
    subst hpage
    simp only [if_true, Function.update_self, and_true, true_and]
    exact h.setSize hm (he m hm)
  · simp only [if_neg hpage, true_and]
    refine ⟨h.files, h.table, h.newest, h.start, fun l' hV => h.size l' ?_, h.size_none⟩
    exact hV.resolve_right fun hc => hpage hc.2.symm

/-- Scanning all pages of a log. -/
theorem scanLog (h : Swept pmem V s.log) (l : LogId cfg) :
    ∃ t, Logdb.scanLog s l = .ok t ∧ Swept pmem (fun l' => V l' ∨ l' = l) t.log := by
  obtain ⟨hmax, hnone⟩ | ⟨hlt, hnewest⟩ := h.newest l
  · -- a log without a page: the loop has no round
    have hrounds : (toInt (s.log.ppage l).ppageId + 1).toNat = 0 := by
      rw [hmax]
      decide
    rw [Logdb.scanLog, hrounds]
    refine ⟨s, rfl, h.files, h.table, h.newest, h.start, fun l' hV m hm => ?_, h.size_none⟩
    rcases hV with hV | rfl
    · exact h.size l' hV m hm
    · rw [hnone] at hm
      cases hm
  · have hrounds : (toInt (s.log.ppage l).ppageId + 1).toNat = (s.log.ppage l).ppageId + 1 := by
      rw [toInt_of_lt hlt]
      rfl
    rw [Logdb.scanLog, hrounds]
    set q := (s.log.ppage l).ppageId with hq
    obtain ⟨t, ht, -, hP⟩ := exists_foldlM (f := Logdb.scanPage l) (List.range (q + 1)).reverse
      (fun done t => (t.log.ppage l).ppageId = q ∧
        Swept pmem (fun l' => V l' ∨ l' = l ∧ q ∈ done) t.log) (s := s) (by
        rintro done p u hp ⟨hu, hP⟩
        rw [List.mem_reverse, List.mem_range] at hp
        obtain ⟨t, ht, hid, hPt⟩ := hP.scanPage (l := l) (p := p)
          (lt_of_le_of_lt (Nat.lt_succ_iff.mp hp) hlt) (hu.symm ▸ hnewest)
        rw [hu] at hid hPt
        refine ⟨t, ht, hid, ?_⟩
        simpa only [or_assoc, List.mem_append, List.mem_singleton, and_or_left] using hPt)
      ⟨rfl, by simpa only [List.not_mem_nil, and_false, or_false] using h⟩
    refine ⟨t, ht, ?_⟩
    have hmem : q ∈ (List.range (q + 1)).reverse :=
      List.mem_reverse.mpr (List.mem_range.mpr (Nat.lt_succ_self q))
    simpa only [hmem, and_true] using hP

end Swept

/-- **What recovery leaves of every log**, with or without page files. -/
theorem Logdb.recover_swept {pmem : PageId cfg → Option Mem}
    (hpage : ∀ pg, (pmem pg).isSome → pg.page < maxLofFileId)
    {dir : Fin numaNodeNum → List (PageId cfg)} (hdir : Lists dir pmem) {n : ℕ} (hn : 0 < n) :
    ∃ t, recover pmem dir n = .ok t ∧ Swept pmem (fun _ => True) t.log := by
  obtain ⟨log, hlog, hswept⟩ := exists_swept hpage hdir
  obtain ⟨t, ht, hP⟩ := exists_scanLogs (P := fun V s => Swept pmem V s.log)
    (s := ⟨log, fun _ => none⟩) (fun _ _ l h => h.scanLog l) hswept hn
  refine ⟨t, ?_, hP⟩
  simp only [recover, LogKV.new_recovery, bind, Except.bind, hlog]
  exact ht

/-! ## Allocation, whatever the state -/

namespace LogKV

variable {s t u : LogKV cfg} {l : LogId cfg}

/-- The page a log moves to. -/
def nextPageId (s : LogKV cfg) (l : LogId cfg) : PageId cfg :=
  ⟨l, ((s.ppage l).ppageId + 1) % 2 ^ 64⟩

/-- The state with the next page of a log opened. -/
def withNextPage (s : LogKV cfg) (l : LogId cfg) : LogKV cfg :=
  { s with
    pmem := Function.update s.pmem (s.nextPageId l) (some (fill 0xff))
    startAddrArr := Function.update s.startAddrArr (s.nextPageId l) (some (s.nextPageId l))
    ppage := Function.update s.ppage l ⟨some (s.nextPageId l), (s.nextPageId l).page, 0⟩ }

/-- Opening the next page fails if its file exists or if it has no place in the table. -/
theorem nextPpage_eq (s : LogKV cfg) (l : LogId cfg) :
    s.nextPpage l = if (s.pmem (s.nextPageId l)).isSome then .error .fileExists
      else if (s.nextPageId l).page < maxLofFileId then .ok (s.withNextPage l)
      else .error .outOfBounds := by
  have hnew : s.nextPpage l = s.allocNewPpage (s.nextPageId l) >>= fun r =>
      .ok { r.2 with ppage :=
        Function.update r.2.ppage l ⟨some r.1, (s.nextPageId l).page, 0⟩ } := rfl
  rw [hnew, allocNewPpage]
  split
  · rfl
  · split <;> rfl

theorem nextPpage_eq_ok_iff : s.nextPpage l = .ok u ↔
    s.pmem (s.nextPageId l) = none ∧ (s.nextPageId l).page < maxLofFileId ∧
      u = s.withNextPage l := by
  rw [nextPpage_eq]
  cases hm : s.pmem (s.nextPageId l) with
  | some m => simp
  | none =>
    by_cases hlt : (s.nextPageId l).page < maxLofFileId
    · simp [hlt, eq_comm]
    · simp [hlt]

/-- The next record does not fit in the newest page. -/
def Rolls (s : LogKV cfg) (l : LogId cfg) : Prop :=
  PairT.size > sizeSub ppageSize (s.ppage l).szAllocated

instance (s : LogKV cfg) (l : LogId cfg) : Decidable (s.Rolls l) :=
  inferInstanceAs (Decidable (_ > _))

/-- The state an allocation takes its space from. -/
def rolled (s : LogKV cfg) (l : LogId cfg) : LogKV cfg :=
  if s.Rolls l then s.withNextPage l else s

/-- The state with the append position of a log moved by a record. -/
def advance (s : LogKV cfg) (l : LogId cfg) : LogKV cfg :=
  { s with
    ppage := Function.update s.ppage l
      ⟨(s.ppage l).startAddr, (s.ppage l).ppageId, (s.ppage l).szAllocated + PairT.size⟩ }

/-- What `alloc` returns for the slot at the append position. -/
def taken (s : LogKV cfg) (l : LogId cfg) (logInfo : LastLogOffest) :
    Ptr cfg × LastLogOffest × LogKV cfg :=
  (⟨(s.ppage l).startAddr, (s.ppage l).szAllocated⟩,
    ⟨logInfo.vlen, UInt8.ofNat l.numa, UInt8.ofNat (s.ppage l).ppageId,
      UInt32.ofNat (s.ppage l).szAllocated⟩,
    s.advance l)

/-- **What `alloc` does in any state**: it returns unless a new page cannot be opened. -/
theorem alloc_eq_ok_iff {logInfo : LastLogOffest} {r : Ptr cfg × LastLogOffest × LogKV cfg} :
    s.alloc l logInfo PairT.size = .ok r ↔
      (s.Rolls l → s.pmem (s.nextPageId l) = none ∧ (s.nextPageId l).page < maxLofFileId) ∧
        r = (s.rolled l).taken l logInfo := by
  by_cases hroll : s.Rolls l
  · have heq : s.alloc l logInfo PairT.size = s.nextPpage l >>= fun u => .ok (u.taken l logInfo) :=
      if_pos hroll
    rw [heq, rolled, if_pos hroll]
    constructor
    · intro h
      obtain ⟨u, hu, hr⟩ := bind_eq_ok h
      obtain ⟨hnone, hlt, rfl⟩ := nextPpage_eq_ok_iff.mp hu
      exact ⟨fun _ => ⟨hnone, hlt⟩, (Except.ok.inj hr).symm⟩
    · rintro ⟨hok, rfl⟩
      rw [nextPpage_eq_ok_iff.mpr ⟨(hok hroll).1, (hok hroll).2, rfl⟩]
      rfl
  · have heq : s.alloc l logInfo PairT.size = .ok (s.taken l logInfo) := if_neg hroll
    rw [heq, rolled, if_neg hroll]
    exact ⟨fun h => ⟨fun hc => absurd hc hroll, (Except.ok.inj h).symm⟩, fun h => by rw [h.2]⟩

/-- An allocation leaves the other logs alone. -/
theorem rolled_of_ne {l l' : LogId cfg} (hl : l' ≠ l) (q : ℕ) :
    (s.rolled l).ppage l' = s.ppage l' ∧
      (s.rolled l).startAddrArr ⟨l', q⟩ = s.startAddrArr ⟨l', q⟩ ∧
      (s.rolled l).pmem ⟨l', q⟩ = s.pmem ⟨l', q⟩ := by
  rw [rolled]
  split
  · have hpg : (⟨l', q⟩ : PageId cfg) ≠ s.nextPageId l := fun hc =>
      hl (congrArg PageId.log hc)
    exact ⟨Function.update_of_ne hl .., Function.update_of_ne hpg .., Function.update_of_ne hpg ..⟩
  · exact ⟨rfl, rfl, rfl⟩

end LogKV

/-! ## Sound allocation -/

/-- What the caller of an allocation in log `l` relies on, when `b` is the state of the
store before the restart and `s` the one after the allocation. -/
structure Usable (b : LogKV cfg) (l : LogId cfg) (p : Ptr cfg) (logInfo : LastLogOffest)
    (s : LogKV cfg) : Prop where
  /-- the packed address is that of the pointer -/
  resolves : ∀ hashKey, cfg.shardOf hashKey = l.hash → s.getAddr logInfo hashKey = .ok p
  /-- the space is in a mapped page of the log -/
  mapped : ∃ pg, p.base = some pg ∧ pg.log = l ∧ (s.pmem pg).isSome ∧
    p.off + PairT.size ≤ ppageSize
  /-- no record that was there before is in that space -/
  apart : ∀ σ, b.Live σ → p.base = some σ.pageId →
    p.off + PairT.size ≤ σ.off ∨ σ.off + PairT.size ≤ p.off

/-- What happens to the log after the restart. -/
inductive SpaceAct (cfg : Config) where
  /-- `alloc` of a record in a log -/
  | alloc (l : LogId cfg) (logInfo : LastLogOffest)
  /-- `store_persist` -/
  | store (p : Ptr cfg) (r : PairT)

/-- One such action. -/
def spaceStep (s : LogKV cfg) : SpaceAct cfg → Except Fault (LogKV cfg)
  | .alloc l logInfo => do
    let (_, _, s) ← s.alloc l logInfo PairT.size
    pure s
  | .store p r => s.storePersist p r

/-- **The allocator of log `l` is sound**: the next allocation in it returns, and whatever
happens, every allocation in it that returns can be used. -/
def AllocsSafely (b s : LogKV cfg) (l : LogId cfg) : Prop :=
  (∀ logInfo, ∃ r, s.alloc l logInfo PairT.size = .ok r) ∧
    ∀ as t, Run spaceStep (fun _ _ => True) s as t → ∀ logInfo p li t',
      t.alloc l logInfo PairT.size = .ok (p, li, t') → Usable b l p li t'

/-- The newest page of log `l` is open for appending, and newer than the records of `b`. -/
structure Opened (b : LogKV cfg) (l : LogId cfg) (s : LogKV cfg) : Prop where
  /-- the page has a place in the table -/
  page_lt : (s.ppage l).ppageId < maxLofFileId
  /-- it is newer than every page there was -/
  newer : (b.ppage l).ppageId < (s.ppage l).ppageId
  /-- `start_addr_` is its address -/
  start : (s.ppage l).startAddr = some ⟨l, (s.ppage l).ppageId⟩
  /-- the table has it -/
  table : s.startAddrArr ⟨l, (s.ppage l).ppageId⟩ = some ⟨l, (s.ppage l).ppageId⟩
  /-- it is mapped -/
  file : (s.pmem ⟨l, (s.ppage l).ppageId⟩).isSome

/-- The page is open unless the next allocation opens another one. -/
structure Ready (b : LogKV cfg) (l : LogId cfg) (s : LogKV cfg) : Prop where
  /-- the page counter has not left the table -/
  page_lt : (s.ppage l).ppageId < maxLofFileId
  /-- pages are not taken back -/
  newest : (b.ppage l).ppageId ≤ (s.ppage l).ppageId
  /-- the append position is in the page -/
  sz_le : (s.ppage l).szAllocated ≤ ppageSize
  /-- an allocation that stays in the page finds it open -/
  opened : ¬ s.Rolls l → Opened b l s

theorem LogKV.rolls_iff {s : LogKV cfg} {l : LogId cfg} (h : (s.ppage l).szAllocated ≤ ppageSize) :
    s.Rolls l ↔ ppageSize < (s.ppage l).szAllocated + PairT.size := by
  rw [LogKV.Rolls, sizeSub_of_le h (by decide)]
  simp only [PairT.size, ppageSize_eq] at *
  omega

namespace Ready

variable {b s t : LogKV cfg} {l : LogId cfg}

/-- An allocation that returns takes its space from an open page. -/
theorem rolled (h : Ready b l s)
    (hok : s.Rolls l → s.pmem (s.nextPageId l) = none ∧ (s.nextPageId l).page < maxLofFileId) :
    Opened b l (s.rolled l) ∧ ((s.rolled l).ppage l).szAllocated + PairT.size ≤ ppageSize := by
  by_cases hroll : s.Rolls l
  · have hpage : (s.nextPageId l).page = (s.ppage l).ppageId + 1 := by
      have := h.page_lt
      rw [maxLofFileId] at this
      exact Nat.mod_eq_of_lt (by omega)
    have hself : (s.withNextPage l).ppage l =
      ⟨some (s.nextPageId l), (s.nextPageId l).page, 0⟩ := Function.update_self ..
    rw [LogKV.rolled, if_pos hroll]
    refine ⟨⟨?_, ?_, ?_, ?_, ?_⟩, ?_⟩
    · rw [hself]
      exact (hok hroll).2
    · rw [hself, hpage]
      exact Nat.lt_succ_of_le h.newest
    · rw [hself]
      rfl
    · rw [hself]
      exact Function.update_self ..
    · rw [hself]
      exact Option.isSome_iff_exists.mpr ⟨_, Function.update_self ..⟩
    · rw [hself]
      change 0 + PairT.size ≤ ppageSize
      decide
  · rw [LogKV.rolled, if_neg hroll]
    exact ⟨h.opened hroll, Nat.le_of_not_lt fun hc => hroll ((LogKV.rolls_iff h.sz_le).mpr hc)⟩

/-- The space taken from an open page can be used. -/
theorem usable (hb : b.Slotted) (h : Opened b l s)
    (hfits : (s.ppage l).szAllocated + PairT.size ≤ ppageSize) (logInfo : LastLogOffest) :
    Usable b l (s.taken l logInfo).1 (s.taken l logInfo).2.1 (s.taken l logInfo).2.2 := by
  have hlt := h.page_lt
  have hnuma : (l.numa : ℕ) < 2 := l.numa.isLt
  refine ⟨fun hashKey hhash => ?_, ⟨_, h.start, rfl, h.file, hfits⟩, fun σ hσ hpg => ?_⟩
  · have hn : (UInt8.ofNat l.numa).toNat = l.numa := by
      rw [UInt8.toNat_ofNat']
      exact Nat.mod_eq_of_lt (by omega)
    have hp : (UInt8.ofNat (s.ppage l).ppageId).toNat = (s.ppage l).ppageId := by
      rw [maxLofFileId] at hlt
      rw [UInt8.toNat_ofNat']
      exact Nat.mod_eq_of_lt (by omega)
    have ho : (UInt32.ofNat (s.ppage l).szAllocated).toNat = (s.ppage l).szAllocated := by
      simp only [PairT.size, ppageSize_eq] at hfits
      rw [UInt32.toNat_ofNat']
      exact Nat.mod_eq_of_lt (by omega)
    have hlog : ∀ hc, (⟨⟨(UInt8.ofNat l.numa).toNat, hc⟩, cfg.shardOf hashKey⟩ : LogId cfg) = l :=
      fun _ => LogId.ext (Fin.ext hn) hhash
    simp only [LogKV.taken, LogKV.getAddr, hlog, hp, ho]
    rw [dif_pos (hn.symm ▸ hnuma), if_pos hlt, h.start]
    exact congrArg (fun x => Except.ok (⟨x, _⟩ : Ptr cfg)) h.table
  · -- the records are in older pages
    have hpage : σ.pageId = ⟨l, (s.ppage l).ppageId⟩ :=
      Option.some_inj.mp (hpg.symm.trans h.start)
    have hle := hb.page_le hσ
    rw [show σ.log = l from congrArg PageId.log hpage, hpage] at hle
    exact absurd hle (Nat.not_le.mpr h.newer)

/-- An allocation in the log keeps it ready. -/
theorem advance (h : Opened b l s)
    (hfits : (s.ppage l).szAllocated + PairT.size ≤ ppageSize) : Ready b l (s.advance l) := by
  have hself : (s.advance l).ppage l = ⟨(s.ppage l).startAddr, (s.ppage l).ppageId,
    (s.ppage l).szAllocated + PairT.size⟩ := Function.update_self ..
  refine ⟨?_, ?_, ?_, fun _ => ⟨?_, ?_, ?_, ?_, ?_⟩⟩
  · rw [hself]
    exact h.page_lt
  · rw [hself]
    exact le_of_lt h.newer
  · rw [hself]
    exact hfits
  · rw [hself]
    exact h.page_lt
  · rw [hself]
    exact h.newer
  · rw [hself]
    exact h.start
  · rw [hself]
    exact h.table
  · rw [hself]
    exact h.file

/-- What does not touch the `PPage` of the log, its entries in the table and its files
keeps it ready. -/
theorem frame (h : Ready b l s) (hppage : t.ppage l = s.ppage l)
    (htable : ∀ q, t.startAddrArr ⟨l, q⟩ = s.startAddrArr ⟨l, q⟩)
    (hfile : ∀ q, (t.pmem ⟨l, q⟩).isSome = (s.pmem ⟨l, q⟩).isSome) : Ready b l t := by
  refine ⟨hppage ▸ h.page_lt, hppage ▸ h.newest, hppage ▸ h.sz_le, fun hroll => ?_⟩
  have hopen := h.opened (by rwa [LogKV.Rolls, ← hppage])
  refine ⟨hppage ▸ h.page_lt, hppage ▸ hopen.newer, hppage ▸ hopen.start, ?_, ?_⟩
  · rw [hppage, htable]
    exact hopen.table
  · rw [hppage, hfile]
    exact hopen.file

/-- **Every action keeps the log ready.** -/
theorem step (h : Ready b l s) {a : SpaceAct cfg} (hstep : spaceStep s a = .ok t) :
    Ready b l t := by
  cases a with
  | alloc l' logInfo =>
    obtain ⟨r, halloc, ht⟩ := bind_eq_ok hstep
    obtain ⟨hok, rfl⟩ := LogKV.alloc_eq_ok_iff.mp halloc
    obtain rfl := Except.ok.inj ht
    by_cases hl : l = l'
    · subst hl
      obtain ⟨hopen, hfits⟩ := h.rolled hok
      exact advance hopen hfits
    · have hother := LogKV.rolled_of_ne (s := s) hl
      refine h.frame ((Function.update_of_ne hl ..).trans (hother 0).1)
        (fun q => (hother q).2.1) fun q => ?_
      exact congrArg Option.isSome (hother q).2.2
  | store p r =>
    simp only [spaceStep, LogKV.storePersist] at hstep
    split at hstep
    · cases hstep
    · split at hstep
      · cases hstep
      · rename_i pg _ m hm
        obtain rfl := Except.ok.inj hstep
        refine h.frame rfl (fun _ => rfl) fun q => ?_
        simp only [LogKV.setPage, Function.update_apply]
        split
        · rename_i hpg
          rw [hpg, hm]
          rfl
        · rfl

/-- A ready log whose next page can be opened has a sound allocator. -/
theorem allocsSafely (hb : b.Slotted) (h : Ready b l s)
    (hok : s.Rolls l → s.pmem (s.nextPageId l) = none ∧ (s.nextPageId l).page < maxLofFileId) :
    AllocsSafely b s l := by
  refine ⟨fun logInfo => ⟨_, LogKV.alloc_eq_ok_iff.mpr ⟨hok, rfl⟩⟩, ?_⟩
  intro as t hrun logInfo p li t' halloc
  have ht : Ready b l t := hrun.invariant (I := Ready b l) (fun _ _ _ h _ hst => h.step hst) h
  obtain ⟨hok', heq⟩ := LogKV.alloc_eq_ok_iff.mp halloc
  obtain ⟨hopen, hfits⟩ := ht.rolled hok'
  have husable := usable hb hopen hfits logInfo
  rwa [← heq] at husable

end Ready

/-- A log without an open page has a sound allocator only if the next allocation opens one. -/
theorem AllocsSafely.rolls {b s : LogKV cfg} {l : LogId cfg} (h : AllocsSafely b s l)
    (hstart : (s.ppage l).startAddr = none) :
    s.Rolls l ∧ s.pmem (s.nextPageId l) = none ∧ (s.nextPageId l).page < maxLofFileId := by
  obtain ⟨r, hr⟩ := h.1 ⟨0, 0, 0, 0⟩
  obtain ⟨hok, heq⟩ := LogKV.alloc_eq_ok_iff.mp hr
  by_cases hroll : s.Rolls l
  · exact ⟨hroll, hok hroll⟩
  · obtain ⟨pg, hpg, -⟩ := (h.2 [] s (.nil s) _ _ _ _ hr).mapped
    rw [heq, LogKV.rolled, if_neg hroll] at hpg
    exact absurd (hstart.symm.trans hpg) (by simp)

/-! ## Which logs are sound after a restart -/

namespace LogKV

variable {s : LogKV cfg}

/-- A log that has gone past its first page has a record in the newest one. -/
def SizePos (s : LogKV cfg) : Prop := ∀ l, 0 < (s.ppage l).ppageId → 0 < (s.ppage l).szAllocated

theorem SizePos.reserve (h : s.SizePos) (threadId : Fin 64) (key : UInt64) :
    (s.reserve threadId key).SizePos := by
  intro l
  by_cases hl : l = cfg.logFor threadId key
  · subst hl
    rw [LogKV.reserve, afterAlloc_ppage_self]
    exact fun _ => Nat.add_pos_right _ (by decide)
  · rw [LogKV.reserve, afterAlloc_ppage_ne hl]
    exact h l

/-- The newest page is full when the slots handed out fill whole pages. -/
theorem Slotted.full_iff (h : s.Slotted) (hpos : s.SizePos) (l : LogId cfg) :
    (s.ppage l).szAllocated = ppageSize ↔ 0 < s.used l ∧ slotsPerPage ∣ s.used l := by
  obtain ⟨j, hj⟩ := h.dvd l
  have hle := h.wf.sz_le l
  have hp := hpos l
  rw [used]
  constructor
  · intro hfull
    rw [hfull]
    refine ⟨Nat.add_pos_right _ (by decide), Nat.dvd_add (Nat.dvd_mul_left ..) (by decide)⟩
  · rintro ⟨hused, hdvd⟩
    have hdvd' := (Nat.dvd_add_right (Nat.dvd_mul_left slotsPerPage _)).mp hdvd
    obtain ⟨k, hk⟩ := hdvd'
    simp only [PairT.size, ppageSize_eq, slotsPerPage] at *
    omega

end LogKV

theorem Logdb.Reachable.sizePos {s : Logdb cfg} (h : s.Reachable) : s.log.SizePos := by
  obtain ⟨cs, rets, hexec⟩ := h
  have hstep : ∀ (s : Logdb cfg) (c : Call) (r : Ret) (t : Logdb cfg),
      s.Inv ∧ s.log.SizePos → s.step c = .ok (r, t) → t.Inv ∧ t.log.SizePos := by
    rintro s c r t ⟨hinv, hp⟩ hst
    refine ⟨hinv.step hst, ?_⟩
    have hcases := step_cases hinv.slotted hst
    obtain ⟨tid, op⟩ := c
    cases hcases with
    | inserted k v _ _ => exact hp.reserve tid k
    | rejected k v w _ _ => exact hp.reserve tid k
    | updated k v w _ _ => exact hp.reserve tid k
    | missed k v _ _ => exact hp.reserve tid k
    | erased k _ => exact hp.reserve tid k
    | searched k => exact hp
  exact (exec_invariant (I := fun s => s.Inv ∧ s.log.SizePos) hstep cs _
    ⟨inv_fresh cfg, fun _ h => absurd h (lt_irrefl _)⟩ hexec).2

/-- The page files that are left when those of the logs in `lost` are not there. -/
def withoutLogs (pmem : PageId cfg → Option Mem) (lost : LogId cfg → Bool) (pg : PageId cfg) :
    Option Mem :=
  if lost pg.log then none else pmem pg

theorem withoutLogs_none (pmem : PageId cfg → Option Mem) :
    withoutLogs pmem (fun _ => false) = pmem := by
  funext pg
  exact if_neg Bool.false_ne_true

section Restart

variable {s : Logdb cfg} {cs : List Insert} {lost : LogId cfg → Bool} {t : LogKV cfg}
  {l : LogId cfg}

/-- A log without page files has no sound allocator. -/
theorem Swept.not_allocsSafely_of_lost (h : Swept (withoutLogs s.log.pmem lost) (fun _ => True) t)
    (hl : lost l) : ¬ AllocsSafely s.log t l := by
  intro hsafe
  have hsize : (t.ppage l).szAllocated = 0 := h.size_none l fun p => if_pos hl
  have hroll := (hsafe.rolls (h.start l)).1
  rw [LogKV.rolls_iff (hsize ▸ Nat.zero_le _), hsize] at hroll
  exact absurd hroll (by decide)

/-- The newest page is the one there was. -/
theorem Swept.ppageId_eq (h : Swept (withoutLogs s.log.pmem lost) (fun _ => True) t)
    (hb : s.log.WF) (hl : lost l = false) : (t.ppage l).ppageId = (s.log.ppage l).ppageId := by
  have hfile : ∀ p, withoutLogs s.log.pmem lost ⟨l, p⟩ = s.log.pmem ⟨l, p⟩ := fun p =>
    if_neg (by rw [hl]; decide)
  have hiff : ∀ p, (withoutLogs s.log.pmem lost ⟨l, p⟩).isSome ↔ p ≤ (s.log.ppage l).ppageId :=
    fun p => by rw [hfile, hb.isSome_pmem_iff]
  obtain ⟨-, hnone⟩ | ⟨-, hsome, hmax⟩ := h.newest l
  · have hzero := (hiff 0).mpr (Nat.zero_le _)
    rw [hnone] at hzero
    cases hzero
  · exact le_antisymm ((hiff _).mp hsome) (hmax _ ((hiff _).mpr (le_refl _)))

/-- The append position is that of the store before the restart, as far as it matters: the
newest page is full or it is not. -/
theorem Swept.rolls_iff (h : Swept (withoutLogs s.log.pmem lost) (fun _ => True) t)
    (hj : Journal s cs) (hl : lost l = false) :
    (t.ppage l).szAllocated ≤ ppageSize ∧
      (t.Rolls l ↔ (s.log.ppage l).szAllocated = ppageSize) := by
  have hb := hj.inv.slotted
  have hid := h.ppageId_eq hb.wf hl
  obtain ⟨m, hm⟩ := hb.wf.file l (s.log.ppage l).ppageId (le_refl _)
  have hfile : withoutLogs s.log.pmem lost ⟨l, (t.ppage l).ppageId⟩ = some m := by
    rw [hid, ← hm]
    exact if_neg (by rw [hl]; decide)
  obtain ⟨j, hj', he, hins, hstop⟩ := h.size l trivial m hfile
  have hle : (t.ppage l).szAllocated ≤ ppageSize := by
    rw [he]
    simp only [PairT.size, ppageSize_eq, slotsPerPage] at *
    omega
  -- a slot of the newest page holds an INSERT record when it has been handed out
  have hslot : ∀ a, a < slotsPerPage → ((PairT.view m (PairT.size * a)).op = .insert ↔
      PairT.size * a < (s.log.ppage l).szAllocated) := by
    intro a ha
    rw [← LogKV.recAt_slotAt (b := s.log) hm ha]
    have hlive : s.log.Live (PageId.slotAt ⟨l, (s.log.ppage l).ppageId⟩ a) ↔
        PairT.size * a < (s.log.ppage l).szAllocated := by
      obtain ⟨k, hk⟩ := hb.dvd l
      simp only [LogKV.Live, PageId.slotAt, LogKV.used, hk, PairT.size]
      omega
    rw [← hlive]
    constructor
    · intro hop
      by_contra hnot
      rw [hb.op_of_not_live hnot] at hop
      cases hop
    · intro hσ
      obtain ⟨c, -, version, hrec⟩ := hj.recAt hσ
      rw [hrec]
      rfl
  refine ⟨hle, ?_⟩
  rw [LogKV.rolls_iff hle, he]
  have hsz := hb.wf.sz_le l
  obtain ⟨k, hk⟩ := hb.dvd l
  constructor
  · intro hroll
    have hall : j = slotsPerPage := by
      simp only [PairT.size, ppageSize_eq, slotsPerPage] at *
      omega
    have hlast := (hslot (slotsPerPage - 1) (by decide)).mp
      (hins _ (by rw [hall]; decide))
    simp only [PairT.size, ppageSize_eq, slotsPerPage] at *
    omega
  · intro hfull
    by_contra hroll
    have hlt : j < slotsPerPage := by
      simp only [PairT.size, ppageSize_eq, slotsPerPage] at *
      omega
    refine hstop hlt ((hslot j hlt).mpr ?_)
    rw [hfull]
    simp only [PairT.size, ppageSize_eq, slotsPerPage] at *
    omega

/-- A log with page files has a sound allocator when its newest page was full and is not
the last. -/
theorem Swept.allocsSafely_iff (h : Swept (withoutLogs s.log.pmem lost) (fun _ => True) t)
    (hj : Journal s cs) (hl : lost l = false) :
    AllocsSafely s.log t l ↔ (s.log.ppage l).szAllocated = ppageSize ∧
      (s.log.ppage l).ppageId + 1 < maxLofFileId := by
  have hb := hj.inv.slotted
  have hid := h.ppageId_eq hb.wf hl
  obtain ⟨hle, hrolls⟩ := h.rolls_iff hj hl
  have hpage : (t.nextPageId l).page = (s.log.ppage l).ppageId + 1 := by
    have hlt := hb.wf.page_lt l
    rw [maxLofFileId] at hlt
    rw [LogKV.nextPageId, hid]
    exact Nat.mod_eq_of_lt (by omega)
  constructor
  · intro hsafe
    obtain ⟨hroll, -, hlt⟩ := hsafe.rolls (h.start l)
    exact ⟨hrolls.mp hroll, hpage ▸ hlt⟩
  · rintro ⟨hfull, hlt⟩
    have hready : Ready s.log l t := by
      refine ⟨hid ▸ hb.wf.page_lt l, le_of_eq hid.symm, hle, fun hroll => ?_⟩
      exact absurd (hrolls.mpr hfull) hroll
    refine hready.allocsSafely hb fun _ => ⟨?_, hpage.symm ▸ hlt⟩
    have hnone : s.log.pmem (t.nextPageId l) = none :=
      hb.wf.file_none l (t.nextPageId l).page (by rw [hpage]; exact Nat.lt_succ_self _)
    rw [h.files, withoutLogs, hnone]
    exact ite_self _

end Restart

/-- **When the allocator of a log survives a restart.** After every history of inserts and
a restart, with the page files of any logs missing, recovery by any number of threads
returns, and for every log the following are equivalent: the next allocation returns a
pointer that its `log_info` resolves to, in a mapped page of the log and apart from every
record that was there before, and so does every later allocation that returns; and: the
log has its page files, its records fill whole pages, and there is a page left for it. -/
theorem alloc_after_restart_iff (cfg : Config) {cs : List Insert} {rets : List Ret} {s : Logdb cfg}
    (hexec : exec Logdb.step (Logdb.fresh cfg) (cs.map Insert.call) = .ok (rets, s))
    (lost : LogId cfg → Bool) {dir : Fin numaNodeNum → List (PageId cfg)}
    (hdir : Lists dir (withoutLogs s.log.pmem lost)) {n : ℕ} (hn : 0 < n) :
    ∃ t, Logdb.recover (withoutLogs s.log.pmem lost) dir n = .ok t ∧
      ∀ l, AllocsSafely s.log t.log l ↔ lost l = false ∧ 0 < (journal l cs).length ∧
        slotsPerPage ∣ (journal l cs).length ∧ (journal l cs).length < logCapacity := by
  have hj := Journal.of_exec hexec
  have hb := hj.inv.slotted
  have hpos : s.log.SizePos := Logdb.Reachable.sizePos ⟨_, _, hexec⟩
  have hpage : ∀ pg, (withoutLogs s.log.pmem lost pg).isSome → pg.page < maxLofFileId := by
    intro pg hsome
    rw [withoutLogs] at hsome
    split at hsome
    · cases hsome
    · exact hb.wf.page_lt_of_isSome pg hsome
  obtain ⟨t, ht, hswept⟩ := Logdb.recover_swept hpage hdir hn
  refine ⟨t, ht, fun l => ?_⟩
  cases hl : lost l with
  | true =>
    have hnot := hswept.not_allocsSafely_of_lost hl
    simp [hnot]
  | false =>
    rw [hswept.allocsSafely_iff hj hl, hb.full_iff hpos, hj.used, and_assoc]
    refine ⟨fun ⟨hp, hd, hlt⟩ => ⟨rfl, hp, hd, ?_⟩, fun ⟨_, hp, hd, hlt⟩ => ⟨hp, hd, ?_⟩⟩
    · rw [← hj.used, LogKV.used]
      have hsz := hb.wf.sz_le l
      simp only [PairT.size, ppageSize_eq, slotsPerPage, maxLofFileId, logCapacity] at *
      omega
    · have hfull := (hb.full_iff hpos l).mpr ⟨by rwa [hj.used], by rwa [hj.used]⟩
      rw [← hj.used, LogKV.used, hfull] at hlt
      simp only [PairT.size, ppageSize_eq, slotsPerPage, maxLofFileId, logCapacity] at *
      omega

/-- Inserts that fill a page exactly, with nothing lost. -/
theorem alloc_after_restart_iff_full_page :
    ∃ (rets : List Ret) (s t : Logdb oneShard) (dir : Fin numaNodeNum → List (PageId oneShard)),
      exec Logdb.step (Logdb.fresh oneShard)
        ((List.replicate slotsPerPage ⟨0, 5, 1⟩).map Insert.call) = .ok (rets, s) ∧
      Logdb.recover (withoutLogs s.log.pmem fun _ => false) dir 1 = .ok t ∧
      AllocsSafely s.log t.log (oneShard.logFor 0 5) := by
  set cs : List Insert := List.replicate slotsPerPage ⟨0, 5, 1⟩ with hcs
  have hfit : Logdb.FitsPages oneShard (cs.map Insert.call) := Logdb.fitsPages_of_length (by
    rw [List.length_map, hcs, List.length_replicate]
    decide)
  obtain ⟨s, hexec, hinv, -⟩ := Logdb.exec_eq hfit
  obtain ⟨dir, hdir⟩ := hinv.slotted.wf.exists_lists
  rw [← withoutLogs_none s.log.pmem] at hdir
  obtain ⟨t, ht, hiff⟩ := alloc_after_restart_iff oneShard hexec (fun _ => false) hdir Nat.one_pos
  refine ⟨_, s, t, dir, hexec, ht, (hiff _).mpr ?_⟩
  have hlen : (journal (oneShard.logFor 0 5) cs).length = slotsPerPage := by
    rw [journal, List.filter_eq_self.mpr, hcs, List.length_replicate]
    intro c hc
    rw [List.eq_of_mem_replicate hc]
    decide
  rw [hlen]
  exact ⟨rfl, by decide, dvd_refl _, by decide⟩

/-- After one insert and a restart the first page of the log is not full: the next
allocation in it returns an offset from null. -/
theorem restart_allocates_from_null :
    ¬ ∀ (cfg : Config) (cs : List Insert) (rets : List Ret) (s : Logdb cfg)
      (dir : Fin numaNodeNum → List (PageId cfg)) (n : ℕ),
      exec Logdb.step (Logdb.fresh cfg) (cs.map Insert.call) = .ok (rets, s) →
      Lists dir s.log.pmem → 0 < n →
      ∃ t, Logdb.recover s.log.pmem dir n = .ok t ∧ ∀ l, AllocsSafely s.log t.log l := by
  intro hall
  obtain ⟨s, dir, hexec, hdir⟩ := Logdb.exists_stopped ⟨0, 5, 1⟩
  have hj : Journal s [⟨0, 5, 1⟩] := Journal.of_exec hexec
  have hb := hj.inv.slotted
  obtain ⟨t, ht, hsafe⟩ := hall oneShard [⟨0, 5, 1⟩] _ s dir 1 hexec hdir Nat.one_pos
  obtain ⟨t', ht', hswept⟩ := Logdb.recover_swept hb.wf.page_lt_of_isSome hdir Nat.one_pos
  obtain rfl := Except.ok.inj (ht.symm.trans ht')
  rw [← withoutLogs_none s.log.pmem] at hswept
  have hfull := ((hswept.allocsSafely_iff hj (l := oneShard.logFor 0 5) rfl).mp (hsafe _)).1
  have hused := hj.used (oneShard.logFor 0 5)
  rw [LogKV.used, hfull] at hused
  have hlen : (journal (oneShard.logFor 0 5) [⟨0, 5, 1⟩]).length ≤ 1 := List.length_filter_le _ _
  simp only [PairT.size, ppageSize_eq] at hused
  omega

end NaliStore
