import NaliStore.LogKV

/-!
# The allocator

The invariant of a log that was created fresh (`LogKV.WF`), what one `PPage::alloc`
does under it, and how an address it handed out is resolved.

`WF` says that the page counter of every log has stayed inside the address table,
that the pages up to the counter exist and are entered under their own slot, and
that nothing beyond them exists. `alloc_eq` is the specification of `PPage::alloc`
under `WF`: it succeeds exactly when the page it needs is below `MAX_LOF_FILE_ID`.
-/

namespace NaliStore

open ByteMem Runs

variable {cfg : Config}

namespace LogKV

/-! ## The state after the constructor -/

/-- `LogKV(false)` over an empty directory: page 0 of every log. -/
def fresh (cfg : Config) : LogKV cfg where
  pmem pg := if pg.page = 0 then some (fill 0xff) else none
  startAddrArr pg := if pg.page = 0 then some pg else none
  szFreed _ := 0
  ppage l := ⟨some ⟨l, 0⟩, 0, 0⟩
  version _ := 0

/-- The constructor's state when the logs in `ls` have their first page. -/
def opened (ls : List (LogId cfg)) : LogKV cfg where
  pmem pg := if pg.page = 0 ∧ pg.log ∈ ls then some (fill 0xff) else none
  startAddrArr pg := if pg.page = 0 ∧ pg.log ∈ ls then some pg else none
  szFreed _ := 0
  ppage l := if l ∈ ls then ⟨some ⟨l, 0⟩, 0, 0⟩ else ⟨none, 2 ^ 64 - 1, 0⟩
  version _ := 0

/-- One round of the constructor opens one more log. -/
theorem newPPage_opened {ls : List (LogId cfg)} {l : LogId cfg} (hl : l ∉ ls) :
    newPPage false (opened ls) l = .ok (opened (ls ++ [l])) := by
  have hid : ((opened ls).ppage l).ppageId = 2 ^ 64 - 1 := by simp [opened, hl]
  have hnone : (opened ls).pmem ⟨l, 0⟩ = none := by simp [opened, hl]
  have hpage : ∀ pg : PageId cfg, (pg = ⟨l, 0⟩) = (pg.page = 0 ∧ pg.log = l) := by
    intro pg
    rw [PageId.ext_iff, eq_iff_iff, and_comm]
  simp only [newPPage, nextPpage, hid, allocNewPpage]
  norm_num [hnone, maxLofFileId, bind, Except.bind, pure, Except.pure]
  ext1
  · funext pg
    simp only [Function.update_apply, opened, hpage, List.mem_append, List.mem_singleton]
    grind
  · funext pg
    simp only [Function.update_apply, opened, hpage, List.mem_append, List.mem_singleton]
    grind
  · rfl
  · funext l'
    simp only [Function.update_apply, opened, List.mem_append, List.mem_singleton]
    grind
  · rfl

theorem foldlM_newPPage_opened :
    ∀ (ls' ls : List (LogId cfg)), (ls ++ ls').Nodup →
      ls'.foldlM (newPPage false) (opened ls) = .ok (opened (ls ++ ls')) := by
  intro ls'
  induction ls' with
  | nil => intro ls _; rw [List.append_nil]; rfl
  | cons l ls' ih =>
    intro ls hnd
    have hl : l ∉ ls := by
      intro hmem
      exact (List.nodup_append.mp hnd).2.2 l hmem l (List.mem_cons_self ..) rfl
    have hassoc : ls ++ l :: ls' = ls ++ [l] ++ ls' := by simp
    rw [List.foldlM_cons, newPPage_opened hl, hassoc]
    exact ih (ls ++ [l]) (hassoc ▸ hnd)

theorem mem_logs (l : LogId cfg) : l ∈ logs cfg := by
  rw [logs, List.mem_flatMap]
  exact ⟨l.numa, List.mem_finRange _, List.mem_map.mpr ⟨l.hash, List.mem_finRange _, rfl⟩⟩

theorem nodup_logs (cfg : Config) : (logs cfg).Nodup := by
  rw [logs, List.nodup_flatMap]
  refine ⟨fun n _ => (List.nodup_finRange _).map fun a b h => (LogId.mk.inj h).2, ?_⟩
  refine (List.nodup_finRange _).imp fun {a b} hab => ?_
  intro l ha hb
  obtain ⟨_, _, rfl⟩ := List.mem_map.mp ha
  obtain ⟨_, _, heq⟩ := List.mem_map.mp hb
  exact hab (LogId.mk.inj heq).1.symm

/-- The constructor over an empty directory succeeds and opens every log. -/
theorem new_eq_fresh (cfg : Config) : new false (fun _ => none) = .ok (fresh cfg) := by
  have hblank : blank (fun _ : PageId cfg => none) = opened [] := by
    simp [blank, opened]
  have hall : opened (logs cfg) = fresh cfg := by
    simp [opened, fresh, mem_logs]
  rw [new, hblank, foldlM_newPPage_opened _ _ (by simpa using nodup_logs cfg), List.nil_append,
    hall]

/-! ## The invariant -/

/-- The allocator state of a store created fresh. -/
structure WF (s : LogKV cfg) : Prop where
  /-- no log has left the address table -/
  page_lt : ∀ l, (s.ppage l).ppageId < maxLofFileId
  /-- the newest page is the one appended to -/
  start : ∀ l, (s.ppage l).startAddr = some ⟨l, (s.ppage l).ppageId⟩
  /-- the append position is in the page -/
  sz_le : ∀ l, (s.ppage l).szAllocated ≤ ppageSize
  /-- existing pages are in the table, under their own slot -/
  table : ∀ l p, p ≤ (s.ppage l).ppageId → s.startAddrArr ⟨l, p⟩ = some ⟨l, p⟩
  /-- there is nothing else in the table -/
  table_none : ∀ l p, (s.ppage l).ppageId < p → s.startAddrArr ⟨l, p⟩ = none
  /-- existing pages are mapped -/
  file : ∀ l p, p ≤ (s.ppage l).ppageId → ∃ m, s.pmem ⟨l, p⟩ = some m
  /-- there are no other page files -/
  file_none : ∀ l p, (s.ppage l).ppageId < p → s.pmem ⟨l, p⟩ = none

theorem wf_fresh (cfg : Config) : (fresh cfg).WF where
  page_lt _ := Nat.zero_lt_succ _
  start _ := rfl
  sz_le _ := Nat.zero_le _
  table _ _ hp := if_pos (Nat.le_zero.mp hp)
  table_none _ _ hp := if_neg (Nat.pos_iff_ne_zero.mp hp)
  file _ _ hp := ⟨_, if_pos (Nat.le_zero.mp hp)⟩
  file_none _ _ hp := if_neg (Nat.pos_iff_ne_zero.mp hp)

/-! ## One allocation -/

/-- The page of log `l` the next allocation of `size` bytes goes to. -/
def allocPage (s : LogKV cfg) (l : LogId cfg) (size : ℕ) : ℕ :=
  if size > ppageSize - (s.ppage l).szAllocated then (s.ppage l).ppageId + 1
  else (s.ppage l).ppageId

/-- The offset in that page. -/
def allocOff (s : LogKV cfg) (l : LogId cfg) (size : ℕ) : ℕ :=
  if size > ppageSize - (s.ppage l).szAllocated then 0 else (s.ppage l).szAllocated

/-- The state after that allocation. -/
def afterAlloc (s : LogKV cfg) (l : LogId cfg) (size : ℕ) : LogKV cfg where
  pmem pg :=
    if pg = ⟨l, s.allocPage l size⟩ ∧ size > ppageSize - (s.ppage l).szAllocated then
      some (fill 0xff)
    else s.pmem pg
  startAddrArr pg :=
    if pg = ⟨l, s.allocPage l size⟩ ∧ size > ppageSize - (s.ppage l).szAllocated then some pg
    else s.startAddrArr pg
  szFreed := s.szFreed
  ppage := Function.update s.ppage l
    ⟨some ⟨l, s.allocPage l size⟩, s.allocPage l size, s.allocOff l size + size⟩
  version := s.version

/-- The log information `PPage::alloc` fills in. -/
def allocInfo (s : LogKV cfg) (l : LogId cfg) (logInfo : LastLogOffest) (size : ℕ) :
    LastLogOffest :=
  { logInfo with
    numaId := UInt8.ofNat l.numa
    ppageId := UInt8.ofNat (s.allocPage l size)
    logOffset := UInt32.ofNat (s.allocOff l size) }

/-- The free bytes of the newest page: the subtraction does not wrap around. -/
theorem WF.sizeSub_eq {s : LogKV cfg} (hwf : s.WF) (l : LogId cfg) :
    StdString.sizeSub ppageSize (s.ppage l).szAllocated = ppageSize - (s.ppage l).szAllocated :=
  StdString.sizeSub_of_le (hwf.sz_le l) (by decide)

/-- **`PPage::alloc` under the invariant**: it succeeds when the page it needs has a
slot in the address table. -/
theorem alloc_eq {s : LogKV cfg} (hwf : s.WF) {l : LogId cfg} {logInfo : LastLogOffest}
    {size : ℕ} (hfit : s.allocPage l size < maxLofFileId) :
    s.alloc l logInfo size =
      .ok (⟨some ⟨l, s.allocPage l size⟩, s.allocOff l size⟩, s.allocInfo l logInfo size,
        s.afterAlloc l size) := by
  have hlt := hwf.page_lt l
  have hmod : ((s.ppage l).ppageId + 1) % 2 ^ 64 = (s.ppage l).ppageId + 1 :=
    Nat.mod_eq_of_lt (by unfold maxLofFileId at hlt; omega)
  by_cases hroll : size > ppageSize - (s.ppage l).szAllocated
  · have hnew := hwf.file_none l ((s.ppage l).ppageId + 1) (Nat.lt_succ_self _)
    rw [allocPage, if_pos hroll] at hfit
    simp only [alloc, hwf.sizeSub_eq, nextPpage, hmod, allocNewPpage, hnew, hfit, bind, Except.bind, pure,
      Except.pure, allocPage, allocOff, allocInfo, afterAlloc, Option.isSome_none,
      Bool.false_eq_true, if_false, if_true, hroll, and_true, Function.update_self,
      Function.update_idem]
    congr 3
    ext1
    · funext pg
      exact Function.update_apply ..
    · funext pg
      by_cases hpg : pg = ⟨l, (s.ppage l).ppageId + 1⟩
      · simp [hpg]
      · simp [hpg]
    · rfl
    · rfl
    · rfl
  · simp only [alloc, hwf.sizeSub_eq, bind, Except.bind, pure, Except.pure, allocPage, allocOff,
      allocInfo, afterAlloc, hroll, and_false, if_false, hwf.start l]

/-- When the page it needs has no slot, `PPage::alloc` writes outside the table. -/
theorem alloc_outOfBounds {s : LogKV cfg} (hwf : s.WF) {l : LogId cfg} {logInfo : LastLogOffest}
    {size : ℕ} (hfit : ¬ s.allocPage l size < maxLofFileId) :
    s.alloc l logInfo size = .error .outOfBounds := by
  have hlt := hwf.page_lt l
  have hmod : ((s.ppage l).ppageId + 1) % 2 ^ 64 = (s.ppage l).ppageId + 1 :=
    Nat.mod_eq_of_lt (by unfold maxLofFileId at hlt; omega)
  by_cases hroll : size > ppageSize - (s.ppage l).szAllocated
  · have hnew := hwf.file_none l ((s.ppage l).ppageId + 1) (Nat.lt_succ_self _)
    rw [allocPage, if_pos hroll] at hfit
    simp only [alloc, hwf.sizeSub_eq, if_pos hroll, nextPpage, hmod, allocNewPpage, hnew, if_neg hfit, bind,
      Except.bind, Option.isSome_none, Bool.false_eq_true, if_false]
  · rw [allocPage, if_neg hroll] at hfit
    exact absurd hlt hfit

/-- Inversion: what a successful allocation did. -/
theorem alloc_inv {s : LogKV cfg} (hwf : s.WF) {l : LogId cfg} {logInfo : LastLogOffest}
    {size : ℕ} {p : Ptr cfg} {li : LastLogOffest} {s' : LogKV cfg}
    (h : s.alloc l logInfo size = .ok (p, li, s')) :
    s.allocPage l size < maxLofFileId ∧
      p = ⟨some ⟨l, s.allocPage l size⟩, s.allocOff l size⟩ ∧
      li = s.allocInfo l logInfo size ∧ s' = s.afterAlloc l size := by
  by_cases hfit : s.allocPage l size < maxLofFileId
  · rw [alloc_eq hwf hfit] at h
    obtain ⟨rfl, rfl, rfl⟩ := Prod.mk.inj (Except.ok.inj h) |>.imp id Prod.mk.inj
    exact ⟨hfit, rfl, rfl, rfl⟩
  · rw [alloc_outOfBounds hwf hfit] at h
    cases h

section AfterAlloc

variable {s : LogKV cfg} {l : LogId cfg} {size : ℕ}

theorem afterAlloc_ppage_self :
    (s.afterAlloc l size).ppage l =
      ⟨some ⟨l, s.allocPage l size⟩, s.allocPage l size, s.allocOff l size + size⟩ :=
  Function.update_self ..

theorem afterAlloc_ppage_ne {l' : LogId cfg} (h : l' ≠ l) :
    (s.afterAlloc l size).ppage l' = s.ppage l' :=
  Function.update_of_ne h ..

theorem le_allocPage : (s.ppage l).ppageId ≤ s.allocPage l size := by
  rw [allocPage]
  split <;> omega

/-- The allocation lies in its page. -/
theorem allocOff_add_le (hwf : s.WF) (hsize : size ≤ ppageSize) :
    s.allocOff l size + size ≤ ppageSize := by
  have := hwf.sz_le l
  rw [allocOff]
  split <;> omega

/-- The pages of other logs, and the older pages of this one, are untouched. -/
theorem afterAlloc_pmem_of_ne {pg : PageId cfg} (h : pg ≠ ⟨l, s.allocPage l size⟩) :
    (s.afterAlloc l size).pmem pg = s.pmem pg := by
  rw [afterAlloc]
  exact if_neg fun hc => h hc.1

/-- A page that existed keeps its bytes. -/
theorem afterAlloc_pmem_of_le {l' : LogId cfg} {p : ℕ}
    (h : p ≤ (s.ppage l').ppageId) : (s.afterAlloc l size).pmem ⟨l', p⟩ = s.pmem ⟨l', p⟩ := by
  rw [afterAlloc]
  refine if_neg ?_
  rintro ⟨heq, hroll⟩
  obtain ⟨rfl, rfl⟩ := PageId.mk.inj heq
  rw [allocPage, if_pos hroll] at h
  omega

/-- A new page is blank. -/
theorem afterAlloc_pmem_new (h : (s.ppage l).ppageId < s.allocPage l size) :
    (s.afterAlloc l size).pmem ⟨l, s.allocPage l size⟩ = some (fill 0xff) := by
  have hroll : size > ppageSize - (s.ppage l).szAllocated := by
    by_contra hroll
    rw [allocPage, if_neg hroll] at h
    omega
  rw [afterAlloc]
  exact if_pos ⟨rfl, hroll⟩

/-- **Allocation keeps the invariant.** -/
theorem WF.afterAlloc (hwf : s.WF) (hsize : size ≤ ppageSize)
    (hfit : s.allocPage l size < maxLofFileId) : (s.afterAlloc l size).WF := by
  have hcase : ∀ l', (l' = l ∧ (s.afterAlloc l size).ppage l' =
      ⟨some ⟨l, s.allocPage l size⟩, s.allocPage l size, s.allocOff l size + size⟩) ∨
      (l' ≠ l ∧ (s.afterAlloc l size).ppage l' = s.ppage l') := by
    intro l'
    by_cases hl : l' = l
    · subst hl; exact .inl ⟨rfl, afterAlloc_ppage_self⟩
    · exact .inr ⟨hl, afterAlloc_ppage_ne hl⟩
  -- a slot is new exactly when it is the page this allocation opened
  have hslot : ∀ l' p, (⟨l', p⟩ : PageId cfg) = ⟨l, s.allocPage l size⟩ ∧
      size > ppageSize - (s.ppage l).szAllocated ↔
      l' = l ∧ p = (s.ppage l).ppageId + 1 ∧ size > ppageSize - (s.ppage l).szAllocated := by
    intro l' p
    rw [PageId.mk.injEq, allocPage]
    constructor
    · rintro ⟨⟨h₁, h₂⟩, hroll⟩
      rw [if_pos hroll] at h₂
      exact ⟨h₁, h₂, hroll⟩
    · rintro ⟨h₁, h₂, hroll⟩
      rw [if_pos hroll]
      exact ⟨⟨h₁, h₂⟩, hroll⟩
  have hold : ∀ l' p, p ≤ ((s.afterAlloc l size).ppage l').ppageId →
      ¬ (⟨l', p⟩ = (⟨l, s.allocPage l size⟩ : PageId cfg) ∧
        size > ppageSize - (s.ppage l).szAllocated) → p ≤ (s.ppage l').ppageId := by
    intro l' p hp hnew
    rw [hslot] at hnew
    obtain ⟨rfl, he⟩ | ⟨hl, he⟩ := hcase l'
    · rw [he] at hp
      simp only [allocPage, true_and] at hp hnew
      split at hp <;> omega
    · rwa [he] at hp
  have hbeyond : ∀ l' p, ((s.afterAlloc l size).ppage l').ppageId < p →
      ¬ (⟨l', p⟩ = (⟨l, s.allocPage l size⟩ : PageId cfg) ∧
        size > ppageSize - (s.ppage l).szAllocated) ∧ (s.ppage l').ppageId < p := by
    intro l' p hp
    rw [hslot]
    obtain ⟨rfl, he⟩ | ⟨hl, he⟩ := hcase l'
    · rw [he] at hp
      simp only [allocPage, true_and] at hp ⊢
      split at hp <;> omega
    · rw [he] at hp
      exact ⟨fun h => hl h.1, hp⟩
  constructor
  · intro l'
    obtain ⟨rfl, he⟩ | ⟨-, he⟩ := hcase l'
    · rw [he]; exact hfit
    · rw [he]; exact hwf.page_lt l'
  · intro l'
    obtain ⟨rfl, he⟩ | ⟨-, he⟩ := hcase l'
    · rw [he]
    · rw [he]; exact hwf.start l'
  · intro l'
    obtain ⟨rfl, he⟩ | ⟨-, he⟩ := hcase l'
    · rw [he]; exact allocOff_add_le hwf hsize
    · rw [he]; exact hwf.sz_le l'
  · intro l' p hp
    simp only [LogKV.afterAlloc]
    split
    · rfl
    · exact hwf.table l' p (hold l' p hp ‹_›)
  · intro l' p hp
    obtain ⟨hnew, hlt⟩ := hbeyond l' p hp
    simp only [LogKV.afterAlloc]
    rw [if_neg hnew]
    exact hwf.table_none l' p hlt
  · intro l' p hp
    simp only [LogKV.afterAlloc]
    split
    · exact ⟨_, rfl⟩
    · exact hwf.file l' p (hold l' p hp ‹_›)
  · intro l' p hp
    obtain ⟨hnew, hlt⟩ := hbeyond l' p hp
    simp only [LogKV.afterAlloc]
    rw [if_neg hnew]
    exact hwf.file_none l' p hlt

end AfterAlloc

/-! ## Resolving an address

A packed address names a page by 8 bits of node and 8 bits of page number. Under the
invariant both are wide enough, and the table still holds the page, so `get_addr`
finds the address that was handed out, at every later point. -/

theorem getAddr_of_wf {s : LogKV cfg} (hwf : s.WF) {logInfo : LastLogOffest} {hashKey : UInt64}
    {l : LogId cfg} {p off : ℕ} (hhash : l.hash = cfg.shardOf hashKey)
    (hn : logInfo.numaId.toNat = l.numa) (hp : logInfo.ppageId.toNat = p)
    (ho : logInfo.logOffset.toNat = off) (hle : p ≤ (s.ppage l).ppageId) :
    s.getAddr logInfo hashKey = .ok ⟨some ⟨l, p⟩, off⟩ := by
  have hlt : p < maxLofFileId := lt_of_le_of_lt hle (hwf.page_lt l)
  have hnuma : logInfo.numaId.toNat < numaNodeNum := hn ▸ l.numa.isLt
  have hlog : (⟨⟨logInfo.numaId.toNat, hnuma⟩, cfg.shardOf hashKey⟩ : LogId cfg) = l := by
    ext
    · exact hn
    · rw [hhash]
  rw [getAddr, dif_pos hnuma, hp, if_pos hlt, hlog, hwf.table l p hle, ho]

/-- The packed fields `PPage::alloc` fills in are the ones it used. -/
theorem toNat_allocInfo {s : LogKV cfg} (hwf : s.WF) {l : LogId cfg} (logInfo : LastLogOffest)
    {size : ℕ} (hfit : s.allocPage l size < maxLofFileId) :
    (s.allocInfo l logInfo size).numaId.toNat = l.numa ∧
      (s.allocInfo l logInfo size).ppageId.toNat = s.allocPage l size ∧
      (s.allocInfo l logInfo size).logOffset.toNat = s.allocOff l size := by
  have hn : (l.numa : ℕ) < 2 := l.numa.isLt
  have hoff : s.allocOff l size ≤ ppageSize := by
    have := hwf.sz_le l
    rw [allocOff]
    split <;> omega
  rw [maxLofFileId] at hfit
  rw [ppageSize_eq] at hoff
  refine ⟨?_, ?_, ?_⟩
  · rw [allocInfo, UInt8.toNat_ofNat']
    exact Nat.mod_eq_of_lt (by omega)
  · rw [allocInfo, UInt8.toNat_ofNat']
    exact Nat.mod_eq_of_lt (by omega)
  · rw [allocInfo, UInt32.toNat_ofNat']
    exact Nat.mod_eq_of_lt (by omega)

end LogKV

end NaliStore
