import NaliStore.Refine
import NaliStore.Lib.StdString

/-!
# Recovery

`recovery_logkv`: what a restart does with the page files it finds. The names of the
files are taken apart to rebuild the address table and the page counters; then the
recovery threads, each with a range of shards, scan the pages of each log from the newest
to the oldest. The scan of a page ends at the first slot that does not hold an INSERT
record, and every key it meets is inserted into the index, with the constant 1 in place
of the packed address of its record.

`recover_spec` says what comes out, for every directory a run of the store can leave
behind, cleanly stopped or crashed: the address table and the page counters of the
store, and an index that maps exactly the keys of the scanned slots, all of them to 1.
-/

namespace NaliStore

open ByteMem Runs StdString

variable {cfg : Config}

/-! ## File names -/

/-- The directory of a node. -/
def dirName (numaId : ℕ) : List Char :=
  "/mnt/pmem".toList ++ StdString.toString numaId ++ "/zzy".toList

/-- The path `alloc_new_ppage` creates a page under, and `loadfiles` lists it under. -/
def PageId.fileName (pg : PageId cfg) : List Char :=
  dirName pg.log.numa ++ "/nali_".toList ++ StdString.toString pg.log.numa ++ '_' :: StdString.toString pg.log.hash ++
    '_' :: StdString.toString pg.page

/-- The shard and the page number in a path. -/
def parseFileName (file : List Char) : Option (ℤ × ℤ) := do
  let pos0 := sizeAdd (find file "nali_".toList 0) 5
  let pos1 := sizeAdd (find file "_".toList pos0) 1
  let pos0 := find file "_".toList pos1
  let hashId ← stoi (← substr file pos1 (sizeSub pos0 pos1))
  let pos0 := sizeAdd pos0 1
  let pos1 := find file "_".toList pos0
  let ppageId ← stoi (← substr file pos0 (sizeSub pos1 pos0))
  pure (hashId, ppageId)

/-- The path of a page file, by its numbers. -/
def pathName (numaId hashId ppageId : ℕ) : List Char :=
  dirName numaId ++ "/nali_".toList ++ StdString.toString numaId ++ '_' :: StdString.toString hashId ++
    '_' :: StdString.toString ppageId

/-- The length of a printed `int`. -/
theorem length_toString_le {n : ℕ} (hn : n < 2 ^ 31) : (StdString.toString n).length ≤ 10 :=
  (Nat.length_toDigits_le_iff (by decide) (by decide)).mpr (by omega)

theorem length_dirName (numaId : ℕ) :
    (dirName numaId).length = 13 + (StdString.toString numaId).length := by
  have hlen : ∀ N : List Char, ("/mnt/pmem".toList ++ N ++ "/zzy".toList).length = 13 + N.length := by
    intro N
    simp
    omega
  exact hlen _

/-- In a path the name of the file is the first that starts like one. -/
theorem find_nali (numaId : ℕ) (rest : List Char) :
    find (dirName numaId ++ ("/nali_".toList ++ rest)) "nali_".toList 0 =
      14 + (StdString.toString numaId).length := by
  suffices h : ∀ N : List Char, 'n' ∉ N →
      find ("/mnt/pmem".toList ++ N ++ "/zzy".toList ++ ("/nali_".toList ++ rest)) "nali_".toList 0 =
        14 + N.length from
    h _ fun hn => absurd (Nat.isDigit_of_mem_toDigits (by decide) (by decide) hn) (by decide)
  intro N hN
  have hn : 'n' ∉ N ++ "/zzy/".toList := by
    rw [List.mem_append, not_or]
    exact ⟨hN, by decide⟩
  have hpath : "/mnt/pmem".toList ++ N ++ "/zzy".toList ++ ("/nali_".toList ++ rest) =
      "/mnt/pmem".toList ++ ((N ++ "/zzy/".toList) ++ ("nali_".toList ++ rest)) := by
    simp
  have hskip : ∀ tail, findFrom "nali_".toList ("/mnt/pmem".toList ++ tail) 0 =
      findFrom "nali_".toList tail 9 := fun _ => rfl
  have hfind : findFrom "nali_".toList ((N ++ "/zzy/".toList) ++ ("nali_".toList ++ rest)) 9 =
      some (9 + (N ++ "/zzy/".toList).length) := findFrom_append hn rest 9
  have hlen : 9 + (N ++ "/zzy/".toList).length = 14 + N.length := by
    simp
    omega
  rw [find, if_pos (Nat.zero_le _), List.drop_zero, hpath, hskip, hfind, Option.getD_some, hlen]

/-- **The path of a page file is taken apart into its numbers**, whatever their widths. -/
theorem parseFileName_pathName {numaId hashId ppageId : ℕ} (hnuma : numaId < 2 ^ 31)
    (hhash : hashId < 2 ^ 31) (hpage : ppageId < 2 ^ 31) :
    parseFileName (pathName numaId hashId ppageId) = some ((hashId : ℤ), (ppageId : ℤ)) := by
  have hNlen := length_toString_le hnuma
  have hHlen := length_toString_le hhash
  have hPlen := length_toString_le hpage
  have hNsep := underscore_notMem_toString numaId
  have hHsep := underscore_notMem_toString hashId
  have hPsep := underscore_notMem_toString ppageId
  have hH := stoi_toString hhash
  have hP := stoi_toString hpage
  have hfind := find_nali numaId
  have hlen := length_dirName numaId
  rw [pathName]
  -- from here on the printed numbers are known by these properties only
  generalize StdString.toString numaId = N at *
  generalize StdString.toString hashId = H at *
  generalize StdString.toString ppageId = P at *
  generalize dirName numaId = dir at *
  obtain ⟨pre, hpre⟩ : ∃ pre, pre = dir ++ "/nali_".toList := ⟨_, rfl⟩
  have hprelen : pre.length = 19 + N.length := by
    simp [hpre, hlen]
    omega
  obtain ⟨path, hpath⟩ : ∃ path, path = dir ++ "/nali_".toList ++ N ++ '_' :: H ++ '_' :: P := ⟨_, rfl⟩
  have hname₁ : path = pre ++ (N ++ '_' :: (H ++ '_' :: P)) := by
    rw [hpath, hpre]
    simp
  have hname₂ : path = (pre ++ N ++ ['_']) ++ (H ++ '_' :: P) := by
    rw [hname₁]
    simp
  have hname₃ : path = (pre ++ N ++ ['_'] ++ H ++ ['_']) ++ P := by
    rw [hname₁]
    simp
  have hlen₂ : (pre ++ N ++ ['_']).length = 20 + 2 * N.length := by
    simp [hprelen]
    omega
  have hlen₃ : (pre ++ N ++ ['_'] ++ H ++ ['_']).length = 21 + 2 * N.length + H.length := by
    simp [hprelen]
    omega
  have h₀ : find path "nali_".toList 0 = 14 + N.length := by
    rw [hname₁, hpre, List.append_assoc, hfind]
  have h₁ : find path "_".toList (19 + N.length) = 19 + 2 * N.length := by
    rw [hname₁]
    refine (find_append hNsep _ hprelen).trans ?_
    omega
  have h₂ : find path "_".toList (20 + 2 * N.length) = 20 + 2 * N.length + H.length := by
    rw [hname₂]
    exact find_append hHsep _ hlen₂
  have h₃ : find path "_".toList (21 + 2 * N.length + H.length) = npos := by
    rw [hname₃]
    exact find_eq_npos hPsep hlen₃
  have hsub₁ : substr path (20 + 2 * N.length) H.length = some H := by
    rw [hname₂]
    exact substr_append hlen₂ rfl
  have hsub₂ : ∀ n, P.length ≤ n → substr path (21 + 2 * N.length + H.length) n = some P := by
    intro n hn
    rw [hname₃]
    exact substr_of_length_le hlen₃ hn
  -- the cursors do not wrap
  have e₀ : sizeAdd (14 + N.length) 5 = 19 + N.length := by
    rw [sizeAdd]
    omega
  have e₁ : sizeAdd (19 + 2 * N.length) 1 = 20 + 2 * N.length := by
    rw [sizeAdd]
    omega
  have e₂ : sizeSub (20 + 2 * N.length + H.length) (20 + 2 * N.length) = H.length := by
    rw [sizeSub]
    omega
  have e₃ : sizeAdd (20 + 2 * N.length + H.length) 1 = 21 + 2 * N.length + H.length := by
    rw [sizeAdd]
    omega
  have e₄ : P.length ≤ sizeSub npos (21 + 2 * N.length + H.length) := by
    rw [sizeSub, npos]
    omega
  rw [← hpath]
  simp only [parseFileName, h₀, e₀, h₁, e₁, h₂, e₂, e₃, h₃, hsub₁, hsub₂ _ e₄, hH, hP, bind,
    Option.bind, pure]

/-- The name of a page file is taken apart into its numbers. -/
theorem parseFileName_fileName (pg : PageId cfg) (hpage : pg.page < maxLofFileId) :
    parseFileName pg.fileName = some ((pg.log.hash : ℤ), (pg.page : ℤ)) := by
  have hnuma : (pg.log.numa : ℕ) < 2 := pg.log.numa.isLt
  have hhash : (pg.log.hash : ℕ) < 256 := lt_of_lt_of_le pg.log.hash.isLt cfg.shards_le
  rw [maxLofFileId] at hpage
  exact parseFileName_pathName (by omega) (by omega) (by omega)

/-! ## The address table -/

namespace LogKV

/-- `set_page_start_addr`. There is a `PPage` for the shards in use only. -/
def setPageStartAddr (s : LogKV cfg) (numaId : Fin numaNodeNum) (hashId logpageId : ℤ)
    (startAddr : PageId cfg) : Except Fault (LogKV cfg) :=
  if h : 0 ≤ hashId ∧ hashId.toNat < cfg.shards then
    if 0 ≤ logpageId ∧ logpageId < maxLofFileId then
      let l : LogId cfg := ⟨numaId, hashId.toNat, h.2⟩
      let s := { s with
        startAddrArr := Function.update s.startAddrArr ⟨l, logpageId.toNat⟩ (some startAddr) }
      if toInt (s.ppage l).ppageId < logpageId then
        .ok { s with ppage :=
          Function.update s.ppage l { s.ppage l with ppageId := logpageId.toNat } }
      else .ok s
    else .error .outOfBounds
  else .error .segv

/-- Enter a file in the table under the numbers of its name. -/
def enterFile (numaId : Fin numaNodeNum) (s : LogKV cfg) (file : PageId cfg) :
    Option (ℤ × ℤ) → Except Fault (LogKV cfg)
  | none => .error .uncaught
  | some (hashId, ppageId) => s.setPageStartAddr numaId hashId ppageId file

/-- Map one listed file. -/
def mapFile (numaId : Fin numaNodeNum) (s : LogKV cfg) (file : PageId cfg) :
    Except Fault (LogKV cfg) :=
  enterFile numaId s file (parseFileName file.fileName)

/-- Map the listed files of every node. -/
def mapFiles (dir : Fin numaNodeNum → List (PageId cfg)) (s : LogKV cfg) :
    Except Fault (LogKV cfg) :=
  (List.finRange numaNodeNum).foldlM (fun s numaId => (dir numaId).foldlM (mapFile numaId) s) s

end LogKV

/-! ## The scan -/

/-- Scan the records of a page from an offset on: the index, and where the scan ended. -/
def scanRecords (m : Mem) (logOffset : ℕ) (db : Index) : Index × ℕ :=
  if logOffset < ppageSize then
    if (PairT.view m logOffset).op = .insert then
      scanRecords m (logOffset + PairT.size) (db.insert (PairT.view m logOffset).key 1).2
    else (db, logOffset)
  else (db, logOffset)
  termination_by ppageSize - logOffset
  decreasing_by simp only [PairT.size]; omega

namespace Logdb

/-- Scan one page of a log; the end of the scan of the newest page is the append position. -/
def scanPage (l : LogId cfg) (s : Logdb cfg) (ppageId : ℕ) : Except Fault (Logdb cfg) := do
  let (db, logOffset) ←
    if ppageId < maxLofFileId then
      match s.log.startAddrArr ⟨l, ppageId⟩ with
      | none => pure (s.db, 0)
      | some addr => do
        let m ← s.log.page ⟨some addr, 0⟩
        pure (scanRecords m 0 s.db)
    else .error .outOfBounds
  let h := s.log.ppage l
  if ppageId = h.ppageId then
    pure ⟨{ s.log with ppage := Function.update s.log.ppage l { h with szAllocated := logOffset } },
      db⟩
  else pure ⟨s.log, db⟩

/-- Scan the pages of a log, the newest first. -/
def scanLog (s : Logdb cfg) (l : LogId cfg) : Except Fault (Logdb cfg) :=
  let newest := toInt (s.log.ppage l).ppageId
  ((List.range (newest + 1).toNat).reverse).foldlM (scanPage l) s

/-- The shards of recovery thread `id` of `n`. -/
def threadShards (cfg : Config) (n id : ℕ) : List ℕ :=
  let perthreadHashNums := cfg.shards / n
  let beginHashid := id * perthreadHashNums
  let endHashid := if id = n - 1 then cfg.shards else beginHashid + perthreadHashNums
  List.range' beginHashid (endHashid - beginHashid)

/-- The logs recovery thread `id` of `n` scans, in order. -/
def threadLogs (cfg : Config) (n id : ℕ) : List (Fin numaNodeNum × ℕ) :=
  (List.finRange numaNodeNum).flatMap fun numaId => (threadShards cfg n id).map fun h => (numaId, h)

/-- Scan one log, given by its numbers. -/
def scanShard (s : Logdb cfg) (l : Fin numaNodeNum × ℕ) : Except Fault (Logdb cfg) :=
  if h : l.2 < cfg.shards then s.scanLog ⟨l.1, l.2, h⟩ else .error .segv

/-- `logdb(db, true, n)` over the page files `pmem`, listed by `loadfiles` as `dir`: the
constructor of `LogKV`, then `recovery_logkv`. The threads work on different shards and
what they insert does not depend on the order, so they are run one after the other. -/
def recover (pmem : PageId cfg → Option Mem) (dir : Fin numaNodeNum → List (PageId cfg)) (n : ℕ) :
    Except Fault (Logdb cfg) := do
  let log ← LogKV.new true pmem
  let log ← log.mapFiles dir
  (List.range n).foldlM (fun s id => (threadLogs cfg n id).foldlM scanShard s)
    ⟨log, fun _ => none⟩

end Logdb

/-! ## The table is rebuilt -/

/-- `loadfiles` lists exactly the page files there are, those of a node in its directory. -/
def Lists (dir : Fin numaNodeNum → List (PageId cfg)) (pmem : PageId cfg → Option Mem) : Prop :=
  ∀ i pg, pg ∈ dir i ↔ pg.log.numa = i ∧ (pmem pg).isSome

theorem LogKV.WF.isSome_pmem_iff {b : LogKV cfg} (h : b.WF) (pg : PageId cfg) :
    (b.pmem pg).isSome ↔ pg.page ≤ (b.ppage pg.log).ppageId := by
  constructor
  · intro hsome
    by_contra hlt
    have hnone : b.pmem pg = none := h.file_none pg.log pg.page (Nat.lt_of_not_le hlt)
    rw [hnone] at hsome
    cases hsome
  · intro hle
    obtain ⟨m, hm⟩ := h.file pg.log pg.page hle
    have hm' : b.pmem pg = some m := hm
    rw [hm']
    rfl

/-- There is such a listing of the files of a log state. -/
theorem LogKV.WF.exists_lists {b : LogKV cfg} (hb : b.WF) : ∃ dir, Lists dir b.pmem := by
  refine ⟨fun i => (List.finRange cfg.shards).flatMap fun h =>
    (List.range ((b.ppage ⟨i, h⟩).ppageId + 1)).map fun p => ⟨⟨i, h⟩, p⟩, fun i pg => ?_⟩
  rw [hb.isSome_pmem_iff, List.mem_flatMap]
  constructor
  · rintro ⟨h, -, hpg⟩
    obtain ⟨p, hp, rfl⟩ := List.mem_map.mp hpg
    exact ⟨rfl, Nat.lt_succ_iff.mp (List.mem_range.mp hp)⟩
  · rintro ⟨rfl, hle⟩
    exact ⟨pg.log.hash, List.mem_finRange _,
      List.mem_map.mpr ⟨pg.page, List.mem_range.mpr (Nat.lt_succ_iff.mpr hle), rfl⟩⟩

namespace LogKV

/-- The constructor in recovery mode creates nothing. -/
theorem new_recovery (pmem : PageId cfg → Option Mem) : new true pmem = .ok (blank pmem) := by
  have hround : ∀ l, newPPage true (blank pmem) l = .ok (blank pmem) := by
    intro l
    have hnone : Function.update (fun _ : PageId cfg => (none : Option (PageId cfg))) ⟨l, 0⟩ none =
        fun _ => none := Function.update_eq_self _ _
    simp only [newPPage, blank, if_true, bind, Except.bind, pure, Except.pure, hnone]
  have hloop : ∀ ls : List (LogId cfg), ls.foldlM (newPPage true) (blank pmem) =
      .ok (blank pmem) := by
    intro ls
    induction ls with
    | nil => rfl
    | cons l ls ih => rw [List.foldlM_cons, hround l]; exact ih
  exact hloop _

/-- The state when the files in `done` have been mapped. -/
structure Mapped (pmem : PageId cfg → Option Mem) (done : List (PageId cfg)) (s : LogKV cfg) :
    Prop where
  /-- the files are not touched -/
  pmem : s.pmem = pmem
  /-- a mapped file is in the table, under its own numbers -/
  table : ∀ pg, s.startAddrArr pg = if pg ∈ done then some pg else none
  /-- the page counter is the largest page number met -/
  newest : ∀ l, (s.ppage l).ppageId = 2 ^ 64 - 1 ∧ (∀ pg ∈ done, pg.log ≠ l) ∨
    ⟨l, (s.ppage l).ppageId⟩ ∈ done ∧ (s.ppage l).ppageId < maxLofFileId ∧
      ∀ pg ∈ done, pg.log = l → pg.page ≤ (s.ppage l).ppageId

theorem mapped_blank (pmem : PageId cfg → Option Mem) : Mapped pmem [] (blank pmem) where
  pmem := rfl
  table _ := rfl
  newest _ := .inl ⟨rfl, fun _ h => nomatch h⟩

/-- `set_page_start_addr` with the numbers of a page. -/
theorem setPageStartAddr_eq (s : LogKV cfg) (pg startAddr : PageId cfg)
    (hpage : pg.page < maxLofFileId) :
    s.setPageStartAddr pg.log.numa pg.log.hash pg.page startAddr =
      .ok { s with
        startAddrArr := Function.update s.startAddrArr pg (some startAddr)
        ppage := if toInt (s.ppage pg.log).ppageId < pg.page then
          Function.update s.ppage pg.log { s.ppage pg.log with ppageId := pg.page }
          else s.ppage } := by
  have hhash : 0 ≤ (pg.log.hash : ℤ) ∧ (pg.log.hash : ℤ).toNat < cfg.shards :=
    ⟨Int.natCast_nonneg _, pg.log.hash.isLt⟩
  have hrange : 0 ≤ (pg.page : ℤ) ∧ (pg.page : ℤ) < maxLofFileId :=
    ⟨Int.natCast_nonneg _, Int.ofNat_lt.mpr hpage⟩
  rw [setPageStartAddr, dif_pos hhash, if_pos hrange]
  by_cases hlt : toInt (s.ppage pg.log).ppageId < pg.page
  · rw [if_pos hlt]
    exact if_pos hlt
  · rw [if_neg hlt]
    exact if_neg hlt

/-- Mapping one file. -/
theorem Mapped.mapFile {pmem : PageId cfg → Option Mem} {done : List (PageId cfg)}
    {s : LogKV cfg} (h : Mapped pmem done s) {pg : PageId cfg} (hpage : pg.page < maxLofFileId) :
    ∃ t, mapFile pg.log.numa s pg = .ok t ∧ Mapped pmem (done ++ [pg]) t := by
  rw [LogKV.mapFile, parseFileName_fileName pg hpage]
  refine ⟨_, setPageStartAddr_eq s pg pg hpage, h.pmem, fun q => ?_, fun l => ?_⟩
  · simp only [Function.update_apply, h.table, List.mem_append, List.mem_singleton]
    by_cases hq : q = pg
    · simp [hq]
    · simp [hq]
  · have hnew : pg ∈ done ++ [pg] := List.mem_append_right _ (List.mem_singleton_self _)
    have hmem : ∀ q, q ∈ done ++ [pg] → q ∈ done ∨ q = pg := fun q hq =>
      (List.mem_append.mp hq).imp id List.mem_singleton.mp
    by_cases hl : l = pg.log
    · subst hl
      refine .inr ?_
      obtain ⟨hmax, hnone⟩ | ⟨hin, hsmall, hle⟩ := h.newest pg.log
      · have hlt : toInt (s.ppage pg.log).ppageId < pg.page := by
          rw [hmax]
          exact lt_of_lt_of_le (by decide) (Int.natCast_nonneg _)
        simp only [if_pos hlt, Function.update_self]
        refine ⟨hnew, hpage, fun q hq hql => ?_⟩
        rcases hmem q hq with hq | rfl
        · exact absurd hql (hnone q hq)
        · exact le_refl _
      · simp only [toInt_of_lt hsmall]
        by_cases hlt : (s.ppage pg.log).ppageId < pg.page
        · simp only [Int.ofNat_lt, if_pos hlt, Function.update_self]
          refine ⟨hnew, hpage, fun q hq hql => ?_⟩
          rcases hmem q hq with hq | rfl
          · exact le_of_lt (lt_of_le_of_lt (hle q hq hql) hlt)
          · exact le_refl _
        · simp only [Int.ofNat_lt, if_neg hlt]
          refine ⟨List.mem_append_left _ hin, hsmall, fun q hq hql => ?_⟩
          rcases hmem q hq with hq | rfl
          · exact hle q hq hql
          · exact Nat.le_of_not_lt hlt
    · -- the counters of the other logs are left alone
      have hother : (if toInt (s.ppage pg.log).ppageId < pg.page then
          Function.update s.ppage pg.log { s.ppage pg.log with ppageId := pg.page }
          else s.ppage) l = s.ppage l := by
        split
        · exact Function.update_of_ne hl ..
        · rfl
      simp only [hother]
      refine (h.newest l).imp (fun hn => ⟨hn.1, fun q hq => ?_⟩) fun hn =>
        ⟨List.mem_append_left _ hn.1, hn.2.1, fun q hq hql => ?_⟩
      · rcases hmem q hq with hq | rfl
        · exact hn.2 q hq
        · exact Ne.symm hl
      · rcases hmem q hq with hq | rfl
        · exact hn.2.2 q hq hql
        · exact absurd hql.symm hl

/-- Mapping every listed file, in any order, when their page numbers are in the table. -/
theorem mapFiles_mapped (pmem : PageId cfg → Option Mem) {dir : Fin numaNodeNum → List (PageId cfg)}
    (hdir : ∀ i, ∀ pg ∈ dir i, pg.log.numa = i ∧ pg.page < maxLofFileId) :
    ∃ s, (blank pmem).mapFiles dir = .ok s ∧
      Mapped pmem ((List.finRange numaNodeNum).flatMap dir) s :=
  exists_foldlM (f := fun s i => (dir i).foldlM (LogKV.mapFile i) s)
    (List.finRange numaNodeNum) (fun done s => Mapped pmem (done.flatMap dir) s)
    (s := blank pmem) (by
      intro done i s _ hP
      obtain ⟨t, ht, hPt⟩ := exists_foldlM (f := LogKV.mapFile i) (dir i)
        (fun files s => Mapped pmem (done.flatMap dir ++ files) s) (s := s) (by
          intro files pg s hpg hP
          obtain ⟨rfl, hpage⟩ := hdir i pg hpg
          rw [← List.append_assoc]
          exact hP.mapFile hpage) (by rwa [List.append_nil])
      refine ⟨t, ht, ?_⟩
      rw [List.flatMap_append, List.flatMap_singleton]
      exact hPt) (mapped_blank pmem)

/-- The files of the directories together are the page files. -/
theorem mem_flatMap_dir {pmem : PageId cfg → Option Mem}
    {dir : Fin numaNodeNum → List (PageId cfg)} (hdir : Lists dir pmem) (pg : PageId cfg) :
    pg ∈ (List.finRange numaNodeNum).flatMap dir ↔ (pmem pg).isSome := by
  rw [List.mem_flatMap]
  constructor
  · rintro ⟨i, -, hpg⟩
    exact ((hdir i pg).mp hpg).2
  · intro hsome
    exact ⟨pg.log.numa, List.mem_finRange _, (hdir _ pg).mpr ⟨rfl, hsome⟩⟩

/-- A rebuilt state knows the pages as the state that was lost did. -/
structure Rebuilt (b s : LogKV cfg) : Prop where
  /-- the files are not touched -/
  pmem : s.pmem = b.pmem
  /-- the address table -/
  startAddrArr : s.startAddrArr = b.startAddrArr
  /-- the page counters -/
  ppageId : ∀ l, (s.ppage l).ppageId = (b.ppage l).ppageId

/-- The page files of a store have numbers in the table. -/
theorem WF.page_lt_of_isSome {b : LogKV cfg} (hb : b.WF) (pg : PageId cfg)
    (hsome : (b.pmem pg).isSome) : pg.page < maxLofFileId :=
  lt_of_le_of_lt ((hb.isSome_pmem_iff pg).mp hsome) (hb.page_lt _)

/-- **The table and the page counters are rebuilt** from the names of the files. -/
theorem mapFiles_spec {b : LogKV cfg} (hb : b.WF) {dir : Fin numaNodeNum → List (PageId cfg)}
    (hdir : Lists dir b.pmem) : ∃ s, (blank b.pmem).mapFiles dir = .ok s ∧ b.Rebuilt s := by
  obtain ⟨s, hs, hmapped⟩ := mapFiles_mapped b.pmem fun i pg hpg =>
    ((hdir i pg).mp hpg).imp id (hb.page_lt_of_isSome pg)
  have hmem : ∀ pg, pg ∈ (List.finRange numaNodeNum).flatMap dir ↔
      pg.page ≤ (b.ppage pg.log).ppageId := fun pg =>
    (mem_flatMap_dir hdir pg).trans (hb.isSome_pmem_iff pg)
  refine ⟨s, hs, hmapped.pmem, ?_, fun l => ?_⟩
  · funext pg
    rw [hmapped.table]
    split
    · rename_i hpg
      exact (hb.table pg.log pg.page ((hmem pg).mp hpg)).symm
    · rename_i hpg
      exact (hb.table_none pg.log pg.page (Nat.lt_of_not_le fun hle => hpg ((hmem pg).mpr hle))).symm
  · obtain ⟨-, hnone⟩ | ⟨hin, -, hle⟩ := hmapped.newest l
    · exact absurd rfl (hnone ⟨l, 0⟩ ((hmem _).mpr (Nat.zero_le _)))
    · exact le_antisymm ((hmem _).mp hin) (hle ⟨l, _⟩ ((hmem _).mpr (le_refl _)) rfl)

end LogKV

/-! ## The records are scanned -/

theorem Index.isSome_insert (db : Index) (k w k' : UInt64) :
    ((db.insert k w).2 k').isSome ↔ (db k').isSome ∨ k = k' := by
  rw [Index.insert]
  cases hdb : db k with
  | some old =>
    by_cases hk : k = k'
    · subst hk
      simp [hdb]
    · simp [hk]
  | none =>
    by_cases hk : k = k'
    · subst hk
      simp
    · simp [Function.update_of_ne (Ne.symm hk), hk]

theorem Index.insert_eq_some {db : Index} {k w k' w' : UInt64} (h : (db.insert k w).2 k' = some w') :
    db k' = some w' ∨ w' = w := by
  rw [Index.insert] at h
  cases hdb : db k with
  | some old =>
    rw [hdb] at h
    exact .inl h
  | none =>
    rw [hdb] at h
    by_cases hk : k' = k
    · subst hk
      simp only [Function.update_self, Option.some_inj] at h
      exact .inr h.symm
    · simp only [Function.update_of_ne hk] at h
      exact .inl h

/-- What a scan from slot `i` of a page on does: it takes the INSERT records up to the
first slot that holds none. -/
theorem scanRecords_spec (m : Mem) : ∀ (n i : ℕ) (db : Index), i + n = slotsPerPage →
    ∃ j, i ≤ j ∧ j ≤ slotsPerPage ∧
      (∀ a, i ≤ a → a < j → (PairT.view m (PairT.size * a)).op = .insert) ∧
      (j < slotsPerPage → (PairT.view m (PairT.size * j)).op ≠ .insert) ∧
      (scanRecords m (PairT.size * i) db).2 = PairT.size * j ∧
      (∀ k w, (scanRecords m (PairT.size * i) db).1 k = some w → db k = some w ∨ w = 1) ∧
      ∀ k, ((scanRecords m (PairT.size * i) db).1 k).isSome ↔
        (db k).isSome ∨ ∃ a, i ≤ a ∧ a < j ∧ (PairT.view m (PairT.size * a)).key = k := by
  have hnone : ∀ i k, ¬ ∃ a, i ≤ a ∧ a < i ∧ (PairT.view m (PairT.size * a)).key = k := by
    rintro i k ⟨a, ha, hai, -⟩
    omega
  intro n
  induction n with
  | zero =>
    intro i db hi
    have hend : ¬ PairT.size * i < ppageSize := by
      simp only [PairT.size, ppageSize_eq, slotsPerPage] at *
      omega
    rw [scanRecords, if_neg hend]
    exact ⟨i, le_refl _, by omega, fun a _ _ => by omega, fun _ => by omega, rfl,
      fun _ _ => .inl, fun k => ⟨.inl, fun h => h.resolve_right (hnone i k)⟩⟩
  | succ n ih =>
    intro i db hi
    have hin : PairT.size * i < ppageSize := by
      simp only [PairT.size, ppageSize_eq, slotsPerPage] at *
      omega
    rw [scanRecords, if_pos hin]
    by_cases hop : (PairT.view m (PairT.size * i)).op = .insert
    · have hnext : PairT.size * i + PairT.size = PairT.size * (i + 1) := (Nat.mul_succ ..).symm
      rw [if_pos hop, hnext]
      obtain ⟨j, hij, hj, hins, hstop, hoff, hone, hkeys⟩ :=
        ih (i + 1) (db.insert (PairT.view m (PairT.size * i)).key 1).2 (by omega)
      refine ⟨j, by omega, hj, fun a ha haj => ?_, hstop, hoff, fun k w hw => ?_, fun k => ?_⟩
      · rcases Nat.eq_or_lt_of_le ha with rfl | ha
        · exact hop
        · exact hins a ha haj
      · rcases hone k w hw with hw | hw
        · exact Index.insert_eq_some hw
        · exact .inr hw
      · rw [hkeys, Index.isSome_insert, or_assoc]
        refine or_congr_right ⟨?_, ?_⟩
        · rintro (hk | ⟨a, ha, haj, hk⟩)
          · exact ⟨i, le_refl _, by omega, hk⟩
          · exact ⟨a, by omega, haj, hk⟩
        · rintro ⟨a, ha, haj, hk⟩
          rcases Nat.eq_or_lt_of_le ha with rfl | ha
          · exact .inl hk
          · exact .inr ⟨a, ha, haj, hk⟩
    · rw [if_neg hop]
      exact ⟨i, le_refl _, by omega, fun a _ _ => by omega, fun _ => hop, rfl,
        fun _ _ => .inl, fun k => ⟨.inl, fun h => h.resolve_right (hnone i k)⟩⟩

namespace LogKV

variable {b : LogKV cfg}

/-- The record in slot `a` of a page that exists. -/
theorem recAt_slotAt {pg : PageId cfg} {m : Mem} (hm : b.pmem pg = some m) {a : ℕ}
    (ha : a < slotsPerPage) : b.recAt (pg.slotAt a) = PairT.view m (PairT.size * a) := by
  rw [recAt, PageId.pageId_slotAt _ ha, PageId.off_slotAt _ ha, bytes, hm, Option.getD_some]

/-- The scan of its page reaches the slot: it and the slots before it hold INSERT records. -/
def Scanned (b : LogKV cfg) (σ : Slot cfg) : Prop :=
  ∀ τ : Slot cfg, τ.pageId = σ.pageId → τ.pos ≤ σ.pos → (b.recAt τ).op = .insert

theorem Scanned.live (hb : b.Slotted) {σ : Slot cfg} (h : b.Scanned σ) : b.Live σ := by
  by_contra hlive
  have hop := h σ rfl (le_refl _)
  rw [hb.unwritten σ hlive] at hop
  cases hop

/-- The slots of a page that the scan reaches are those in front of its end. -/
theorem scanned_slotAt_iff {pg : PageId cfg} {j : ℕ} (hj : j ≤ slotsPerPage)
    (hins : ∀ a, a < j → (b.recAt (pg.slotAt a)).op = .insert)
    (hstop : j < slotsPerPage → (b.recAt (pg.slotAt j)).op ≠ .insert) {a : ℕ}
    (ha : a < slotsPerPage) : b.Scanned (pg.slotAt a) ↔ a < j := by
  constructor
  · intro h
    by_contra haj
    have hlt : j < slotsPerPage := by omega
    refine hstop hlt (h _ ?_ ?_)
    · rw [pg.pageId_slotAt hlt, pg.pageId_slotAt ha]
    · simp only [PageId.slotAt]
      omega
  · intro haj τ hpage hpos
    rw [pg.pageId_slotAt ha] at hpage
    have hτ := PageId.slotAt_pos hpage
    rw [← hτ] at hpos ⊢
    simp only [PageId.slotAt] at hpos
    exact hins _ (by omega)

end LogKV

namespace Logdb

variable {b : LogKV cfg} {s : Logdb cfg} {V : PageId cfg → Prop}

/-- The state of the recovery when the pages in `V` have been scanned. -/
structure Scanning (b : LogKV cfg) (V : PageId cfg → Prop) (s : Logdb cfg) : Prop where
  /-- the pages are known -/
  rebuilt : b.Rebuilt s.log
  /-- every key is mapped to 1 -/
  ones : ∀ k w, s.db k = some w → w = 1
  /-- the keys of the slots reached by the scan are in the index -/
  keys : ∀ k, (s.db k).isSome ↔ ∃ σ, V σ.pageId ∧ b.Scanned σ ∧ (b.recAt σ).key = k
  /-- the append position is behind the slots of the newest page that the scan reached -/
  size : ∀ σ, V σ.pageId → σ.pageId.page = (b.ppage σ.log).ppageId → b.Scanned σ →
    σ.off + PairT.size ≤ (s.log.ppage σ.log).szAllocated

/-- Only pages that exist matter. -/
theorem Scanning.congr (h : Scanning b V s) (hb : b.Slotted) {W : PageId cfg → Prop}
    (hVW : ∀ pg, pg.page ≤ (b.ppage pg.log).ppageId → (V pg ↔ W pg)) : Scanning b W s where
  rebuilt := h.rebuilt
  ones := h.ones
  keys k := by
    rw [h.keys]
    refine exists_congr fun σ => and_congr_left fun hσ => ?_
    exact hVW _ (hb.page_le (hσ.1.live hb))
  size σ hW hpage hσ := h.size σ ((hVW _ (hb.page_le (hσ.live hb))).mpr hW) hpage hσ

/-- Scanning one page. -/
theorem Scanning.scanPage (h : Scanning b V s) (hb : b.Slotted) {l : LogId cfg} {p : ℕ}
    (hp : p ≤ (b.ppage l).ppageId) :
    ∃ t, scanPage l s p = .ok t ∧ Scanning b (fun pg => V pg ∨ pg = ⟨l, p⟩) t := by
  have hlt : p < maxLofFileId := lt_of_le_of_lt hp (hb.wf.page_lt l)
  have htable : s.log.startAddrArr ⟨l, p⟩ = some ⟨l, p⟩ := by
    rw [h.rebuilt.startAddrArr, hb.wf.table l p hp]
  obtain ⟨m, hm⟩ := hb.wf.file l p hp
  have hmem : s.log.page ⟨some ⟨l, p⟩, 0⟩ = .ok m := by
    simp only [LogKV.page, h.rebuilt.pmem, hm]
  have hrec : ∀ a, a < slotsPerPage → b.recAt (PageId.slotAt ⟨l, p⟩ a) =
      PairT.view m (PairT.size * a) := fun a ha => LogKV.recAt_slotAt hm ha
  obtain ⟨j, -, hj, hins, hstop, hoff, hone, hkeys⟩ :=
    scanRecords_spec m slotsPerPage 0 s.db (Nat.zero_add _)
  rw [Nat.mul_zero] at hoff hone hkeys
  -- from here on the result of the scan is known by its properties only
  obtain ⟨⟨db, logOffset⟩, hscan⟩ : ∃ r, scanRecords m 0 s.db = r := ⟨_, rfl⟩
  rw [hscan] at hoff hone hkeys
  obtain rfl : logOffset = PairT.size * j := hoff
  have hreach : ∀ a, a < slotsPerPage → (b.Scanned (PageId.slotAt ⟨l, p⟩ a) ↔ a < j) := by
    refine fun a ha => LogKV.scanned_slotAt_iff hj (fun c hc => ?_) (fun hlt => ?_) ha
    · rw [hrec c (by omega)]
      exact hins c (Nat.zero_le _) hc
    · rw [hrec j hlt]
      exact hstop hlt
  have hpos : ∀ σ : Slot cfg, σ.pos % slotsPerPage < slotsPerPage := fun σ =>
    Nat.mod_lt _ (by decide)
  have hkeys' : ∀ k, (db k).isSome ↔
      ∃ σ, (V σ.pageId ∨ σ.pageId = ⟨l, p⟩) ∧ b.Scanned σ ∧ (b.recAt σ).key = k := by
    intro k
    rw [hkeys, h.keys]
    constructor
    · rintro (⟨σ, hV, hσ, hk⟩ | ⟨a, -, haj, hk⟩)
      · exact ⟨σ, .inl hV, hσ, hk⟩
      · have ha : a < slotsPerPage := by omega
        exact ⟨_, .inr (PageId.pageId_slotAt _ ha), (hreach a ha).mpr haj, by rw [hrec a ha, hk]⟩
    · rintro ⟨σ, hV | hpg, hσ, hk⟩
      · exact .inl ⟨σ, hV, hσ, hk⟩
      · have heq := PageId.slotAt_pos hpg
        rw [← heq] at hσ hk
        rw [hrec _ (hpos σ)] at hk
        exact .inr ⟨_, Nat.zero_le _, (hreach _ (hpos σ)).mp hσ, hk⟩
  have hones : ∀ k w, db k = some w → w = 1 := fun k w hw =>
    (hone k w hw).elim (h.ones k w) id
  have hid : (s.log.ppage l).ppageId = (b.ppage l).ppageId := h.rebuilt.ppageId l
  rw [Logdb.scanPage, if_pos hlt, htable]
  simp only [hmem, bind, Except.bind, pure, Except.pure, hid, hscan]
  split
  · -- the newest page: the append position is set
    rename_i hnewest
    refine ⟨_, rfl, ⟨h.rebuilt.pmem, h.rebuilt.startAddrArr, fun l' => ?_⟩, hones, hkeys', ?_⟩
    · by_cases hl : l' = l
      · subst hl
        simp only [Function.update_self]
      · simp only [Function.update_of_ne hl, h.rebuilt.ppageId]
    · intro σ hV hpage hσ
      by_cases hl : σ.log = l
      · have hpg : σ.pageId = ⟨l, p⟩ := PageId.ext hl (by rw [hpage, hl, hnewest])
        have heq := PageId.slotAt_pos hpg
        rw [← heq] at hσ
        have hlt := (hreach _ (hpos σ)).mp hσ
        have hle : σ.off + PairT.size ≤ PairT.size * j := by
          rw [← heq, PageId.off_slotAt _ (hpos σ), ← Nat.mul_succ]
          exact Nat.mul_le_mul_left _ hlt
        simp only [hl, Function.update_self]
        exact hle
      · simp only [Function.update_of_ne hl]
        refine h.size σ (hV.resolve_right fun hpg => hl ?_) hpage hσ
        exact congrArg PageId.log hpg
  · rename_i hold
    refine ⟨_, rfl, h.rebuilt, hones, hkeys', fun σ hV hpage hσ => ?_⟩
    refine h.size σ (hV.resolve_right fun hpg => hold ?_) hpage hσ
    obtain ⟨rfl, rfl⟩ := PageId.mk.inj hpg
    exact hpage

/-- Scanning all pages of a log. -/
theorem Scanning.scanLog (h : Scanning b V s) (hb : b.Slotted) (l : LogId cfg) :
    ∃ t, scanLog s l = .ok t ∧ Scanning b (fun pg => V pg ∨ pg.log = l) t := by
  have hnewest : (toInt (s.log.ppage l).ppageId + 1).toNat = (b.ppage l).ppageId + 1 := by
    rw [h.rebuilt.ppageId, toInt_of_lt (hb.wf.page_lt l)]
    rfl
  rw [Logdb.scanLog, hnewest]
  obtain ⟨t, ht, hP⟩ := exists_foldlM (f := Logdb.scanPage l) (List.range ((b.ppage l).ppageId + 1)).reverse
    (fun done s => Scanning b (fun pg => V pg ∨ pg.log = l ∧ pg.page ∈ done) s) (s := s) (by
      intro done p s hp hP
      rw [List.mem_reverse, List.mem_range] at hp
      obtain ⟨t, ht, hPt⟩ := hP.scanPage hb (l := l) (p := p) (by omega)
      refine ⟨t, ht, hPt.congr hb fun pg _ => ?_⟩
      rw [or_assoc, PageId.ext_iff, List.mem_append, List.mem_singleton, and_or_left])
    (h.congr hb fun pg _ => by simp)
  refine ⟨t, ht, hP.congr hb fun pg hpg => or_congr_right ?_⟩
  rw [List.mem_reverse, List.mem_range]
  refine and_iff_left_of_imp ?_
  rintro rfl
  omega

theorem mem_threadShards {n id h : ℕ} : h ∈ threadShards cfg n id ↔
    id * (cfg.shards / n) ≤ h ∧
      h < if id = n - 1 then max cfg.shards (id * (cfg.shards / n))
        else id * (cfg.shards / n) + cfg.shards / n := by
  simp only [threadShards, List.mem_range'_1]
  split <;> omega

/-- Every shard has its thread. -/
theorem exists_mem_threadShards {n : ℕ} (hn : 0 < n) {h : ℕ} (hh : h < cfg.shards) :
    ∃ id, id < n ∧ h ∈ threadShards cfg n id := by
  by_cases hlast : (n - 1) * (cfg.shards / n) ≤ h
  · refine ⟨n - 1, by omega, mem_threadShards.mpr ⟨hlast, ?_⟩⟩
    rw [if_pos rfl]
    exact lt_max_of_lt_left hh
  · have hpos : 0 < cfg.shards / n := by
      by_contra hzero
      rw [Nat.eq_zero_of_not_pos hzero, Nat.mul_zero] at hlast
      exact hlast (Nat.zero_le _)
    have hid : h / (cfg.shards / n) < n - 1 :=
      (Nat.div_lt_iff_lt_mul hpos).mpr (Nat.lt_of_not_le hlast)
    refine ⟨h / (cfg.shards / n), by omega, mem_threadShards.mpr
      ⟨Nat.div_mul_le_self _ _, ?_⟩⟩
    rw [if_neg (by omega)]
    exact Nat.lt_div_mul_add hpos

theorem lt_of_mem_threadShards {n id : ℕ} (hid : id < n) {h : ℕ} (hh : h ∈ threadShards cfg n id) :
    h < cfg.shards := by
  obtain ⟨-, hlt⟩ := mem_threadShards.mp hh
  have hle : (id + 1) * (cfg.shards / n) ≤ cfg.shards :=
    (Nat.mul_le_mul_right _ hid).trans (Nat.mul_div_le ..)
  rw [Nat.succ_mul] at hle
  split at hlt
  · rwa [max_eq_left ((Nat.le_add_right ..).trans hle)] at hlt
  · omega

section Loops

variable {P : (LogId cfg → Prop) → Logdb cfg → Prop}

/-- The loop of one thread, by what the scan of one log does. -/
theorem exists_scanShards
    (hstep : ∀ V s l, P V s → ∃ t, scanLog s l = .ok t ∧ P (fun l' => V l' ∨ l' = l) t)
    {V : LogId cfg → Prop} (hs : P V s) {n id : ℕ} (hid : id < n) :
    ∃ t, (threadLogs cfg n id).foldlM scanShard s = .ok t ∧
      P (fun l => V l ∨ (l.hash : ℕ) ∈ threadShards cfg n id) t := by
  obtain ⟨t, ht, hP⟩ := exists_foldlM (f := scanShard) (threadLogs cfg n id)
    (fun done s => P (fun l => V l ∨ (l.numa, (l.hash : ℕ)) ∈ done) s) (s := s) (by
      rintro done ⟨numaId, hash⟩ s hl hP
      obtain ⟨i, -, hi⟩ := List.mem_flatMap.mp hl
      obtain ⟨hash', hmem, heq⟩ := List.mem_map.mp hi
      obtain ⟨rfl, rfl⟩ := Prod.mk.inj heq
      have hlt := lt_of_mem_threadShards hid hmem
      obtain ⟨t, ht, hPt⟩ := hstep _ s ⟨i, hash', hlt⟩ hP
      refine ⟨t, ?_, ?_⟩
      · rw [scanShard, dif_pos hlt]
        exact ht
      · simp only [or_assoc, LogId.ext_iff, Fin.ext_iff] at hPt
        simpa only [List.mem_append, List.mem_singleton, Prod.mk.injEq, Fin.ext_iff] using hPt)
    (by simpa only [List.not_mem_nil, or_false] using hs)
  refine ⟨t, ht, ?_⟩
  have hmem : ∀ l : LogId cfg, (l.numa, (l.hash : ℕ)) ∈ threadLogs cfg n id ↔
      (l.hash : ℕ) ∈ threadShards cfg n id := by
    intro l
    simp only [threadLogs, List.mem_flatMap, List.mem_map, Prod.mk.injEq, List.mem_finRange,
      true_and]
    constructor
    · rintro ⟨_, h', hmem, -, rfl⟩
      exact hmem
    · intro hmem
      exact ⟨l.numa, _, hmem, rfl, rfl⟩
  simpa only [hmem] using hP

/-- **The threads together scan every log**: what is known of the logs scanned so far is
known of all of them in the end. -/
theorem exists_scanLogs
    (hstep : ∀ V s l, P V s → ∃ t, scanLog s l = .ok t ∧ P (fun l' => V l' ∨ l' = l) t)
    (hs : P (fun _ => False) s) {n : ℕ} (hn : 0 < n) :
    ∃ t, (List.range n).foldlM (fun s id => (threadLogs cfg n id).foldlM scanShard s) s = .ok t ∧
      P (fun _ => True) t := by
  obtain ⟨t, ht, hP⟩ := exists_foldlM (List.range n)
    (f := fun s id => (threadLogs cfg n id).foldlM scanShard s)
    (fun done s => P (fun l => ∃ id ∈ done, (l.hash : ℕ) ∈ threadShards cfg n id) s) (s := s) (by
      intro done id s hid hP
      obtain ⟨t, ht, hPt⟩ := exists_scanShards hstep hP (List.mem_range.mp hid)
      refine ⟨t, ht, ?_⟩
      simpa only [List.mem_append, List.mem_singleton, or_and_right, exists_or, exists_eq_left]
        using hPt)
    (by simpa only [List.not_mem_nil, false_and, exists_false] using hs)
  refine ⟨t, ht, ?_⟩
  have hall : (fun l : LogId cfg => ∃ id ∈ List.range n, (l.hash : ℕ) ∈ threadShards cfg n id) =
      fun _ => True := by
    funext l
    obtain ⟨id, hid, hmem⟩ := exists_mem_threadShards hn l.hash.isLt
    exact eq_true ⟨id, List.mem_range.mpr hid, hmem⟩
  rwa [hall] at hP

end Loops

/-- **What recovery restores.** From the page files of any state of a log of fixed-size
records, recovery by any number of threads rebuilds the address table and the page
counters, an index that maps the keys the scan reaches to 1, and the append positions. -/
theorem recover_spec (hb : b.Slotted) {dir : Fin numaNodeNum → List (PageId cfg)}
    (hdir : Lists dir b.pmem) {n : ℕ} (hn : 0 < n) :
    ∃ s, recover b.pmem dir n = .ok s ∧ Scanning b (fun _ => True) s := by
  obtain ⟨log, hlog, hrebuilt⟩ := LogKV.mapFiles_spec hb.wf hdir
  have hinit : Scanning b (fun _ => False) ⟨log, fun _ => none⟩ :=
    ⟨hrebuilt, fun _ _ h => (nomatch h), fun k => by simp, fun _ h => h.elim⟩
  obtain ⟨s, hs, hP⟩ := exists_scanLogs (P := fun V s => Scanning b (fun pg => V pg.log) s)
    (fun _ _ l h => h.scanLog hb l) hinit hn
  refine ⟨s, ?_, hP⟩
  simp only [recover, LogKV.new_recovery, bind, Except.bind, hlog]
  exact hs

end Logdb

end NaliStore
