import NaliStore.Payloads

/-!
# The stride of the recovery scan

`recovery_logkv` does not ask a record for its size: it steps over the records of a page by
`log_size`, a number it computes from the configured value length. Here the scan is modelled with
that number, and with the places it reads an INSERT record at; `recoverBy_eight` says that for a
value length of 8 it is the scan of fixed-size records.

The scan meets exactly the records that were stored when its stride is the size of a record
(`recoverBy_stepsOver_iff`). It is not for strings of 8 bytes: their records take 34 bytes and the
scan steps by 32, as over records with an integer in them.
-/

namespace NaliStore

open ByteMem Runs

variable {cfg : Config}

/-! ## The scan -/

/-- `log_size` -/
def logSize (valSize : ℕ) : ℕ := if valSize = 8 then 32 else 26 + valSize

theorem logSize_pos (valSize : ℕ) : 0 < logSize valSize := by
  rw [logSize]
  split <;> omega

/-- Scan the records of a page from an offset on: the index, the offsets at which there was an
INSERT record, and where the scan ended. -/
def scanBy (valSize : ℕ) (m : Mem) (logOffset : ℕ) (db : Index) : Index × List ℕ × ℕ :=
  if logOffset < ppageSize then
    if (PairT.view m logOffset).op = .insert then
      let (db, offsets, stop) := scanBy valSize m (logOffset + logSize valSize)
        (db.insert (PairT.view m logOffset).key 1).2
      (db, logOffset :: offsets, stop)
    else (db, [], logOffset)
  else (db, [], logOffset)
  termination_by ppageSize - logOffset
  decreasing_by
    have hpos := logSize_pos valSize
    omega

namespace Logdb

/-- Scan one page of a log, and note the places of the INSERT records. -/
def scanPageBy (valSize : ℕ) (l : LogId cfg) (x : Logdb cfg × List (Ptr cfg)) (ppageId : ℕ) :
    Except Fault (Logdb cfg × List (Ptr cfg)) := do
  let (s, inspected) := x
  let (db, places, logOffset) ←
    if ppageId < maxLofFileId then
      match s.log.startAddrArr ⟨l, ppageId⟩ with
      | none => pure (s.db, [], 0)
      | some addr => do
        let m ← s.log.page ⟨some addr, 0⟩
        let (db, offsets, logOffset) := scanBy valSize m 0 s.db
        pure (db, offsets.map fun off => (⟨some addr, off⟩ : Ptr cfg), logOffset)
    else .error .outOfBounds
  let h := s.log.ppage l
  if ppageId = h.ppageId then
    pure (⟨{ s.log with ppage := Function.update s.log.ppage l { h with szAllocated := logOffset } },
      db⟩, inspected ++ places)
  else pure (⟨s.log, db⟩, inspected ++ places)

/-- Scan the pages of a log, the newest first. -/
def scanLogBy (valSize : ℕ) (x : Logdb cfg × List (Ptr cfg)) (l : LogId cfg) :
    Except Fault (Logdb cfg × List (Ptr cfg)) :=
  let newest := toInt (x.1.log.ppage l).ppageId
  ((List.range (newest + 1).toNat).reverse).foldlM (scanPageBy valSize l) x

/-- Scan one log, given by its numbers. -/
def scanShardBy (valSize : ℕ) (x : Logdb cfg × List (Ptr cfg)) (l : Fin numaNodeNum × ℕ) :
    Except Fault (Logdb cfg × List (Ptr cfg)) :=
  if h : l.2 < cfg.shards then scanLogBy valSize x ⟨l.1, l.2, h⟩ else .error .segv

/-- `recovery_logkv` with a value length: the store, and the places of the INSERT records that its
threads met. -/
def recoverBy (valSize : ℕ) (pmem : PageId cfg → Option Mem)
    (dir : Fin numaNodeNum → List (PageId cfg)) (n : ℕ) :
    Except Fault (Logdb cfg × List (Ptr cfg)) := do
  let log ← LogKV.new true pmem
  let log ← log.mapFiles dir
  (List.range n).foldlM (fun x id => (threadLogs cfg n id).foldlM (scanShardBy valSize) x)
    (⟨log, fun _ => none⟩, [])

end Logdb

/-- With a stride of 32 it is the scan of fixed-size records. -/
theorem scanBy_eight (m : Mem) (logOffset : ℕ) (db : Index) :
    ((scanBy 8 m logOffset db).1, (scanBy 8 m logOffset db).2.2) = scanRecords m logOffset db := by
  fun_induction scanRecords m logOffset db with
  | case1 logOffset db hlt hop ih =>
    rw [scanBy, if_pos hlt, if_pos hop]
    exact ih
  | case2 logOffset db hlt hop => rw [scanBy, if_pos hlt, if_neg hop]
  | case3 logOffset db hlt => rw [scanBy, if_neg hlt]

namespace Logdb

theorem scanPageBy_eight (l : LogId cfg) (x : Logdb cfg × List (Ptr cfg)) (ppageId : ℕ) :
    (scanPageBy 8 l x ppageId).map Prod.fst = scanPage l x.1 ppageId := by
  obtain ⟨s, inspected⟩ := x
  simp only [scanPageBy, scanPage, bind, Except.bind]
  split
  · cases s.log.startAddrArr ⟨l, ppageId⟩ with
    | none =>
      simp only [pure, Except.pure]
      split <;> rfl
    | some addr =>
      simp only
      cases s.log.page ⟨some addr, 0⟩ with
      | error e => rfl
      | ok m =>
        simp only [pure, Except.pure, ← scanBy_eight]
        split <;> rfl
  · rfl

theorem scanShardBy_eight (x : Logdb cfg × List (Ptr cfg)) (l : Fin numaNodeNum × ℕ) :
    (scanShardBy 8 x l).map Prod.fst = scanShard x.1 l := by
  rw [scanShardBy, scanShard]
  split
  · exact map_foldlM (scanPageBy_eight _) _ _
  · rfl

/-- **Recovery with a value length of 8** is recovery of fixed-size records. -/
theorem recoverBy_eight (pmem : PageId cfg → Option Mem)
    (dir : Fin numaNodeNum → List (PageId cfg)) (n : ℕ) :
    (recoverBy 8 pmem dir n).map Prod.fst = recover pmem dir n := by
  have hthread : ∀ (x : Logdb cfg × List (Ptr cfg)) (id : ℕ),
      ((threadLogs cfg n id).foldlM (scanShardBy 8) x).map Prod.fst =
        (threadLogs cfg n id).foldlM scanShard x.1 := fun x id => map_foldlM scanShardBy_eight _ x
  simp only [recoverBy, recover, bind, Except.bind]
  cases LogKV.new true pmem with
  | error e => rfl
  | ok log =>
    simp only
    cases log.mapFiles dir with
    | error e => rfl
    | ok log => exact map_foldlM hthread _ _

end Logdb

/-! ## One page -/

/-- What a scan from an offset on does: it takes INSERT records, a stride apart, up to the first
place that holds none. -/
theorem scanBy_spec (valSize : ℕ) (m : Mem) (logOffset : ℕ) (db : Index) : ∃ r,
    (scanBy valSize m logOffset db).2 =
      ((List.range r).map fun j => logOffset + j * logSize valSize, logOffset + r * logSize valSize) ∧
    (∀ j < r, logOffset + j * logSize valSize < ppageSize ∧
      (PairT.view m (logOffset + j * logSize valSize)).op = .insert) ∧
    (logOffset + r * logSize valSize < ppageSize →
      (PairT.view m (logOffset + r * logSize valSize)).op ≠ .insert) := by
  fun_induction scanBy valSize m logOffset db with
  | case1 logOffset db hlt hop db' offsets stop hrec ih =>
    obtain ⟨r, hscan, hins, hstop⟩ := ih
    rw [hrec] at hscan
    obtain ⟨rfl, rfl⟩ := Prod.mk.inj hscan
    have hshift : ∀ j, logOffset + logSize valSize + j * logSize valSize =
        logOffset + (j + 1) * logSize valSize := by
      intro j
      rw [Nat.succ_mul]
      omega
    simp only [hshift] at hins hstop ⊢
    refine ⟨r + 1, ?_, fun j hj => ?_, hstop⟩
    · simp [List.range_succ_eq_map, Function.comp_def]
    · cases j with
      | zero => simpa using ⟨hlt, hop⟩
      | succ j => exact hins j (Nat.lt_of_succ_lt_succ hj)
  | case2 logOffset db hlt hop => exact ⟨0, by simp, by simp, by simpa using fun _ => hop⟩
  | case3 logOffset db hlt => exact ⟨0, by simp, by simp, by simpa using fun h => absurd h hlt⟩

/-- How many records the scan of a page meets. -/
theorem scanBy_page (valSize : ℕ) (m : Mem) : ∃ r, (∀ db, (scanBy valSize m 0 db).2 =
      ((List.range r).map fun j => j * logSize valSize, r * logSize valSize)) ∧
    (∀ j < r, j * logSize valSize < ppageSize ∧
      (PairT.view m (j * logSize valSize)).op = .insert) ∧
    (r * logSize valSize < ppageSize → (PairT.view m (r * logSize valSize)).op ≠ .insert) := by
  obtain ⟨r, -, hins, hstop⟩ := scanBy_spec valSize m 0 fun _ => none
  simp only [Nat.zero_add] at hins hstop
  refine ⟨r, fun db => ?_, hins, hstop⟩
  -- what the scan does is decided by the page, so it ends at the same place with any index
  obtain ⟨r', hscan, hins', hstop'⟩ := scanBy_spec valSize m 0 db
  simp only [Nat.zero_add] at hscan hins' hstop'
  rcases Nat.lt_trichotomy r r' with hlt | rfl | hlt
  · obtain ⟨hin, hop⟩ := hins' r hlt
    exact absurd hop (hstop hin)
  · exact hscan
  · obtain ⟨hin, hop⟩ := hins r' hlt
    exact absurd hop (hstop' hin)

/-- **With the right stride the scan of a page meets the records that are in it**, and with any
stride the scan of a blank page meets none. -/
theorem Filled.scanBy {valSize size c : ℕ} {m : Mem} (h : Filled size m c)
    (hstride : logSize valSize = size ∨ c = 0) (db : Index) :
    (scanBy valSize m 0 db).2 = ((List.range c).map fun j => j * size, c * size) := by
  obtain ⟨r, hscan, hins, hstop⟩ := scanBy_page valSize m
  have hrest : ∀ i, c * size ≤ i → (PairT.view m i).op ≠ .insert := by
    intro i hi
    rw [op_view_of_ones (h.rest i hi)]
    decide
  rw [hscan]
  rcases hstride with rfl | rfl
  · obtain rfl : r = c := by
      rcases Nat.lt_trichotomy r c with hlt | heq | hlt
      · have hin : r * logSize valSize < c * logSize valSize :=
          Nat.mul_lt_mul_of_pos_right hlt (logSize_pos valSize)
        exact absurd (h.insert r hlt) (hstop (lt_of_lt_of_le hin h.le))
      · exact heq
      · exact absurd (hins c hlt).2 (hrest _ le_rfl)
    rfl
  · obtain rfl : r = 0 := by
      by_contra hr
      have hop := (hins 0 (Nat.pos_of_ne_zero hr)).2
      exact hrest _ (by omega) hop
    simp

/-! ## All pages, each once -/

namespace LogKV

variable {b : LogKV cfg}

/-- The pages of a log, the newest first. -/
def pagesOf (b : LogKV cfg) (l : LogId cfg) : List (PageId cfg) :=
  (List.range ((b.ppage l).ppageId + 1)).reverse.map fun p => ⟨l, p⟩

/-- The pages of a log, given by its numbers. -/
def pagesAt (b : LogKV cfg) (l : Fin numaNodeNum × ℕ) : List (PageId cfg) :=
  if h : l.2 < cfg.shards then b.pagesOf ⟨l.1, l.2, h⟩ else []

/-- The pages in the order in which `n` threads scan them. -/
def pagesBy (b : LogKV cfg) (n : ℕ) : List (PageId cfg) :=
  ((List.range n).flatMap (Logdb.threadLogs cfg n)).flatMap b.pagesAt

theorem mem_pagesAt {l : Fin numaNodeNum × ℕ} {pg : PageId cfg} :
    pg ∈ b.pagesAt l ↔ (pg.log.numa, (pg.log.hash : ℕ)) = l ∧ pg.page ≤ (b.ppage pg.log).ppageId := by
  obtain ⟨numaId, hash⟩ := l
  obtain ⟨⟨numaId', hash'⟩, page⟩ := pg
  rw [pagesAt]
  split
  · simp only [pagesOf, List.mem_map, List.mem_reverse, List.mem_range, Nat.lt_succ_iff,
      PageId.mk.injEq, LogId.mk.injEq, Prod.mk.injEq, Fin.ext_iff]
    constructor
    · rintro ⟨p, hp, ⟨hn, hh⟩, rfl⟩
      obtain rfl := Fin.ext hn
      subst hh
      exact ⟨⟨rfl, rfl⟩, hp⟩
    · rintro ⟨⟨hn, hh⟩, hp⟩
      obtain rfl := Fin.ext hn
      subst hh
      exact ⟨page, hp, ⟨rfl, rfl⟩, rfl⟩
  · rename_i hout
    simp only [List.not_mem_nil, false_iff, Prod.mk.injEq]
    rintro ⟨⟨-, rfl⟩, -⟩
    exact hout hash'.isLt

theorem nodup_pagesAt (b : LogKV cfg) (l : Fin numaNodeNum × ℕ) : (b.pagesAt l).Nodup := by
  rw [pagesAt]
  split
  · refine List.Nodup.map ?_ (List.nodup_reverse.mpr List.nodup_range)
    intro p q hpq
    exact (PageId.mk.inj hpq).2
  · exact List.nodup_nil

/-- No two threads have a log in common, and no thread has one twice. -/
theorem nodup_threadLogs (cfg : Config) (n : ℕ) :
    ((List.range n).flatMap (Logdb.threadLogs cfg n)).Nodup := by
  refine List.nodup_flatMap.mpr ⟨fun id _ => ?_, ?_⟩
  · exact (List.nodup_finRange _).product List.nodup_range'
  · refine List.pairwise_lt_range.imp_of_mem fun {id id'} _ hid' hlt => ?_
    rintro ⟨numaId, hash⟩ hl hl'
    simp only [Logdb.threadLogs, List.mem_flatMap, List.mem_map, Prod.mk.injEq] at hl hl'
    obtain ⟨_, -, _, hl, -, rfl⟩ := hl
    obtain ⟨_, -, _, hl', -, rfl⟩ := hl'
    -- the range of the earlier thread ends before that of the later one starts
    have hlast : ¬ id = n - 1 := by
      have hid' := List.mem_range.mp hid'
      omega
    obtain ⟨-, hup⟩ := Logdb.mem_threadShards.mp hl
    obtain ⟨hlow, -⟩ := Logdb.mem_threadShards.mp hl'
    rw [if_neg hlast] at hup
    have hmul : (id + 1) * (cfg.shards / n) ≤ id' * (cfg.shards / n) :=
      Nat.mul_le_mul_right _ hlt
    rw [Nat.succ_mul] at hmul
    omega

theorem nodup_pagesBy (b : LogKV cfg) (n : ℕ) : (b.pagesBy n).Nodup := by
  refine List.nodup_flatMap.mpr ⟨fun l _ => b.nodup_pagesAt l, ?_⟩
  refine (nodup_threadLogs cfg n).imp fun {l l'} hne pg hpg hpg' => hne ?_
  exact (mem_pagesAt.mp hpg).1.symm.trans (mem_pagesAt.mp hpg').1

/-- **Every page has its turn.** -/
theorem mem_pagesBy {n : ℕ} (hn : 0 < n) {pg : PageId cfg} :
    pg ∈ b.pagesBy n ↔ pg.page ≤ (b.ppage pg.log).ppageId := by
  simp only [pagesBy, List.mem_flatMap, mem_pagesAt]
  constructor
  · rintro ⟨-, -, -, hle⟩
    exact hle
  · intro hle
    obtain ⟨id, hid, hmem⟩ := Logdb.exists_mem_threadShards hn pg.log.hash.isLt
    refine ⟨_, ⟨id, List.mem_range.mpr hid, ?_⟩, rfl, hle⟩
    exact List.mem_flatMap.mpr ⟨pg.log.numa, List.mem_finRange _, List.mem_map.mpr ⟨_, hmem, rfl⟩⟩

end LogKV

/-! ## The trace of the scan -/

namespace Logdb

variable {b : LogKV cfg} {valSize : ℕ} {done : List (PageId cfg)} {x : Logdb cfg × List (Ptr cfg)}

/-- The places of the INSERT records that the scan of a page meets. -/
def inspectedOn (valSize : ℕ) (b : LogKV cfg) (pg : PageId cfg) : List (Ptr cfg) :=
  (scanBy valSize (b.bytes pg) 0 fun _ => none).2.1.map fun off => ⟨some pg, off⟩

/-- The pages in `done` have been scanned, in this order. -/
structure Traced (valSize : ℕ) (b : LogKV cfg) (done : List (PageId cfg))
    (x : Logdb cfg × List (Ptr cfg)) : Prop where
  /-- the pages are known -/
  rebuilt : b.Rebuilt x.1.log
  /-- the records met -/
  inspected : x.2 = done.flatMap (inspectedOn valSize b)
  /-- the append position is where the scan of the newest page ended -/
  size : ∀ pg ∈ done, pg.page = (b.ppage pg.log).ppageId →
    (x.1.log.ppage pg.log).szAllocated = (scanBy valSize (b.bytes pg) 0 fun _ => none).2.2

/-- Scanning one page. -/
theorem Traced.scanPageBy (h : Traced valSize b done x) (hb : b.WF) {l : LogId cfg} {p : ℕ}
    (hp : p ≤ (b.ppage l).ppageId) :
    ∃ y, scanPageBy valSize l x p = .ok y ∧ Traced valSize b (done ++ [⟨l, p⟩]) y := by
  obtain ⟨s, inspected⟩ := x
  have hrebuilt : b.Rebuilt s.log := h.rebuilt
  have hlt : p < maxLofFileId := lt_of_le_of_lt hp (hb.page_lt l)
  have htable : s.log.startAddrArr ⟨l, p⟩ = some ⟨l, p⟩ := by
    rw [hrebuilt.startAddrArr, hb.table l p hp]
  obtain ⟨m, hm⟩ := hb.file l p hp
  have hmem : s.log.page ⟨some ⟨l, p⟩, 0⟩ = .ok m := by
    simp only [LogKV.page, hrebuilt.pmem, hm]
  have hbytes : b.bytes ⟨l, p⟩ = m := by
    rw [LogKV.bytes, hm, Option.getD_some]
  have hid : (s.log.ppage l).ppageId = (b.ppage l).ppageId := h.rebuilt.ppageId l
  -- the index does not matter for where the scan goes
  obtain ⟨r, hscan, -, -⟩ := scanBy_page valSize m
  have hany : (scanBy valSize m 0 s.db).2 = (scanBy valSize m 0 fun _ => none).2 :=
    (hscan _).trans (hscan _).symm
  have hinspected : inspected ++ (scanBy valSize m 0 s.db).2.1.map (fun off =>
      (⟨some ⟨l, p⟩, off⟩ : Ptr cfg)) =
        (done ++ [(⟨l, p⟩ : PageId cfg)]).flatMap (inspectedOn valSize b) := by
    rw [List.flatMap_append, List.flatMap_singleton, ← h.inspected, inspectedOn, hbytes, hany]
  rw [Logdb.scanPageBy]
  simp only [if_pos hlt, htable, hmem, bind, Except.bind, pure, Except.pure, hid]
  split
  · rename_i hnewest
    refine ⟨_, rfl, ⟨hrebuilt.pmem, hrebuilt.startAddrArr, fun l' => ?_⟩, hinspected, ?_⟩
    · by_cases hl : l' = l
      · subst hl
        simp only [Function.update_self]
      · simp only [Function.update_of_ne hl, hrebuilt.ppageId]
    · intro pg hpg hpage
      by_cases hl : pg.log = l
      · have hpg : pg = ⟨l, p⟩ := PageId.ext hl (by rw [hpage, hl, hnewest])
        subst hpg
        rw [hbytes, ← hany]
        simp only [Function.update_self]
      · simp only [Function.update_of_ne hl]
        rcases List.mem_append.mp hpg with hpg | hpg
        · exact h.size pg hpg hpage
        · rw [List.mem_singleton.mp hpg] at hl
          exact absurd rfl hl
  · rename_i hold
    refine ⟨_, rfl, h.rebuilt, hinspected, fun pg hpg hpage => ?_⟩
    rcases List.mem_append.mp hpg with hpg | hpg
    · exact h.size pg hpg hpage
    · rw [List.mem_singleton.mp hpg] at hpage
      exact absurd hpage hold

/-- Scanning all pages of a log. -/
theorem Traced.scanLogBy (h : Traced valSize b done x) (hb : b.WF) (l : LogId cfg) :
    ∃ y, scanLogBy valSize x l = .ok y ∧ Traced valSize b (done ++ b.pagesOf l) y := by
  have hnewest : (toInt (x.1.log.ppage l).ppageId + 1).toNat = (b.ppage l).ppageId + 1 := by
    rw [h.rebuilt.ppageId, toInt_of_lt (hb.page_lt l)]
    rfl
  rw [Logdb.scanLogBy, hnewest, LogKV.pagesOf]
  refine exists_foldlM (f := Logdb.scanPageBy valSize l) _
    (fun ps y => Traced valSize b (done ++ ps.map fun p => ⟨l, p⟩) y) ?_ (by simpa using h)
  intro ps p y hp hy
  rw [List.mem_reverse, List.mem_range, Nat.lt_succ_iff] at hp
  simpa using hy.scanPageBy hb hp

/-- Scanning all logs of a thread. -/
theorem Traced.scanShardsBy (h : Traced valSize b done x) (hb : b.WF) {n id : ℕ} (hid : id < n) :
    ∃ y, (threadLogs cfg n id).foldlM (scanShardBy valSize) x = .ok y ∧
      Traced valSize b (done ++ (threadLogs cfg n id).flatMap b.pagesAt) y := by
  refine exists_foldlM (f := scanShardBy valSize) _
    (fun ls y => Traced valSize b (done ++ ls.flatMap b.pagesAt) y) ?_ (by simpa using h)
  rintro ls ⟨numaId, hash⟩ y hl hy
  have hlt : hash < cfg.shards := by
    simp only [threadLogs, List.mem_flatMap, List.mem_map, Prod.mk.injEq] at hl
    obtain ⟨_, -, _, hl, -, rfl⟩ := hl
    exact lt_of_mem_threadShards hid hl
  rw [scanShardBy, dif_pos hlt, List.flatMap_append, List.flatMap_singleton, LogKV.pagesAt,
    dif_pos hlt, ← List.append_assoc]
  exact hy.scanLogBy hb _

/-- **What recovery has scanned**: all pages, by any number of threads. -/
theorem recoverBy_traced (valSize : ℕ) (hb : b.WF) {dir : Fin numaNodeNum → List (PageId cfg)}
    (hdir : Lists dir b.pmem) (n : ℕ) :
    ∃ x, recoverBy valSize b.pmem dir n = .ok x ∧ Traced valSize b (b.pagesBy n) x := by
  obtain ⟨log, hlog, hrebuilt⟩ := LogKV.mapFiles_spec hb hdir
  have hinit : Traced valSize b [] (⟨log, fun _ => none⟩, []) :=
    ⟨hrebuilt, rfl, fun _ h => absurd h List.not_mem_nil⟩
  obtain ⟨x, hx, htraced⟩ := exists_foldlM (List.range n)
    (f := fun x id => (threadLogs cfg n id).foldlM (scanShardBy valSize) x)
    (fun ids y => Traced valSize b ((ids.flatMap (threadLogs cfg n)).flatMap b.pagesAt) y)
    (fun ids id y hid hy => by
      simpa using hy.scanShardsBy hb (List.mem_range.mp hid)) hinit
  refine ⟨x, ?_, htraced⟩
  simp only [recoverBy, LogKV.new_recovery, bind, Except.bind, hlog]
  exact hx

end Logdb

/-! ## What was stored and what is met -/

/-- The value types of a store. -/
inductive ValueType where
  /-- 8-byte integers -/
  | integer
  /-- strings of the configured length -/
  | string
  deriving DecidableEq

/-- A value of a store with this value type and this configured `VALUE_LENGTH`. -/
def Payload.IsOf (type : ValueType) (valueLength : ℕ) : Payload → Prop
  | .integer _ => type = .integer
  | .string v => type = .string ∧ v.length = valueLength

/-- The size of the records of a store. -/
def ValueType.recordSize (type : ValueType) (valueLength : ℕ) : ℕ :=
  match type with
  | .integer => 32
  | .string => 26 + valueLength

theorem Payload.IsOf.size {type : ValueType} {valueLength : ℕ} {payload : Payload}
    (h : payload.IsOf type valueLength) (hlen : valueLength ≤ 65535) :
    payload.size = type.recordSize valueLength := by
  cases payload with
  | integer v =>
    obtain rfl : type = .integer := h
    rfl
  | string v =>
    obtain ⟨rfl, rfl⟩ : type = .string ∧ v.length = valueLength := h
    have hvlen : (VarPairT.ofKeyValue 0 0 v).vlen.toNat = v.length := by
      have hmod := LogKV.toNat_vlen_varRec 0 0 .insert 0 0 v
      rw [Nat.mod_eq_of_lt (by omega)] at hmod
      exact hmod
    rw [Payload.size, VarPairT.size, hvlen]
    rfl

/-- The stride of the scan is the size of a record. -/
def ValueType.Fits (type : ValueType) (valueLength : ℕ) : Prop :=
  match type with
  | .integer => valueLength = 8 ∨ valueLength = 6
  | .string => valueLength ≠ 8

theorem ValueType.fits_iff (type : ValueType) (valueLength : ℕ) :
    type.Fits valueLength ↔ logSize valueLength = type.recordSize valueLength := by
  rw [logSize]
  cases type with
  | integer =>
    simp only [Fits, recordSize]
    split <;> omega
  | string =>
    simp only [Fits, recordSize]
    split <;> omega

/-- Places that are the same page by page are the same. -/
theorem perm_of_onPage {ps qs : List (Ptr cfg)} (hps : ∀ p ∈ ps, p.base ≠ none)
    (hqs : ∀ p ∈ qs, p.base ≠ none) (h : ∀ pg, LogKV.onPage ps pg = LogKV.onPage qs pg) :
    ps.Perm qs := by
  refine List.perm_iff_count.mpr fun p => ?_
  cases hbase : p.base with
  | none =>
    rw [List.count_eq_zero_of_not_mem fun hp => hps p hp hbase,
      List.count_eq_zero_of_not_mem fun hp => hqs p hp hbase]
  | some pg =>
    have hcount : ∀ l : List (Ptr cfg), l.count p = (LogKV.onPage l pg).count p := fun l =>
      (List.count_filter (by simpa using hbase)).symm
    rw [hcount ps, hcount qs, h]

namespace Logdb

variable {b : LogKV cfg} {valSize size : ℕ} {stored : List (Ptr cfg)} {x : Logdb cfg × List (Ptr cfg)}

/-- Recovery met the records that were stored, each once, and appends go on where they were. -/
structure StepsOver (b : LogKV cfg) (stored : List (Ptr cfg)) (x : Logdb cfg × List (Ptr cfg)) :
    Prop where
  /-- the places -/
  inspected : x.2.Perm stored
  /-- none of them twice -/
  once : x.2.Nodup
  /-- the newest page of each log -/
  ppageId : ∀ l, (x.1.log.ppage l).ppageId = (b.ppage l).ppageId
  /-- its append position -/
  szAllocated : ∀ l, (x.1.log.ppage l).szAllocated = (b.ppage l).szAllocated

theorem base_of_mem_inspectedOn {pg : PageId cfg} {p : Ptr cfg} (h : p ∈ inspectedOn valSize b pg) :
    p.base = some pg := by
  obtain ⟨off, -, rfl⟩ := List.mem_map.mp h
  rfl

/-- What is met on one page. -/
theorem onPage_flatMap {done : List (PageId cfg)} (hdone : done.Nodup) {pg : PageId cfg} :
    LogKV.onPage (done.flatMap (inspectedOn valSize b)) pg =
      if pg ∈ done then inspectedOn valSize b pg else [] := by
  have hself : LogKV.onPage (inspectedOn valSize b pg) pg = inspectedOn valSize b pg :=
    List.filter_eq_self.mpr fun p hp => by simpa using base_of_mem_inspectedOn hp
  have hother : ∀ q, q ≠ pg → LogKV.onPage (inspectedOn valSize b q) pg = [] := by
    intro q hne
    refine List.filter_eq_nil_iff.mpr fun p hp => ?_
    rw [base_of_mem_inspectedOn hp]
    simpa using hne
  induction done with
  | nil => rfl
  | cons q done ih =>
    obtain ⟨hq, hdone⟩ := List.nodup_cons.mp hdone
    have hcons : LogKV.onPage ((q :: done).flatMap (inspectedOn valSize b)) pg =
        LogKV.onPage (inspectedOn valSize b q) pg ++
          LogKV.onPage (done.flatMap (inspectedOn valSize b)) pg := List.filter_append ..
    rw [hcons, ih hdone]
    by_cases hne : q = pg
    · subst hne
      simp [hself, hq]
    · simp [hother q hne, Ne.symm hne]

theorem nodup_inspectedOn (valSize : ℕ) (b : LogKV cfg) (pg : PageId cfg) :
    (inspectedOn valSize b pg).Nodup := by
  obtain ⟨r, hscan, -, -⟩ := scanBy_page valSize (b.bytes pg)
  rw [inspectedOn, hscan, List.map_map]
  refine List.Nodup.map ?_ List.nodup_range
  intro i j hij
  exact Nat.eq_of_mul_eq_mul_right (logSize_pos valSize) (Ptr.mk.inj hij).2

/-- No place is met twice, with any stride. -/
theorem Traced.nodup {n : ℕ} (h : Traced valSize b (b.pagesBy n) x) : x.2.Nodup := by
  rw [h.inspected]
  refine List.nodup_flatMap.mpr ⟨fun pg _ => nodup_inspectedOn valSize b pg, ?_⟩
  refine (b.nodup_pagesBy n).imp fun {pg pg'} hne p hp hp' => hne ?_
  exact Option.some.inj ((base_of_mem_inspectedOn hp).symm.trans (base_of_mem_inspectedOn hp'))

/-- **With the right stride recovery meets the records that were stored**, and where nothing was
stored it meets nothing with any stride. -/
theorem Traced.stepsOver {n : ℕ} (h : Traced valSize b (b.pagesBy n) x) (hn : 0 < n)
    (hb : LogKV.Packed size b stored) (hstride : logSize valSize = size ∨ stored = []) :
    StepsOver b stored x := by
  have hpage : ∀ pg, pg.page ≤ (b.ppage pg.log).ppageId → ∃ c,
      LogKV.onPage stored pg = LogKV.places size pg c ∧
      (pg.page = (b.ppage pg.log).ppageId → (b.ppage pg.log).szAllocated = c * size) ∧
      (scanBy valSize (b.bytes pg) 0 fun _ => none).2 =
        ((List.range c).map fun j => j * size, c * size) := by
    intro pg hle
    obtain ⟨m, hm⟩ := hb.wf.file pg.log pg.page hle
    obtain ⟨c, hplaces, hfilled, hsz⟩ := hb.page pg m hm
    have hbytes : b.bytes pg = m := by
      rw [LogKV.bytes, hm, Option.getD_some]
    refine ⟨c, hplaces, hsz, ?_⟩
    rw [hbytes]
    refine hfilled.scanBy (hstride.imp id fun hnil => ?_) _
    -- a page of an empty log has no records
    subst hnil
    have hlength := congrArg List.length hplaces
    simpa [LogKV.places, LogKV.onPage] using hlength.symm
  refine ⟨?_, h.nodup, h.rebuilt.ppageId, fun l => ?_⟩
  · rw [h.inspected]
    refine perm_of_onPage (fun p hp => ?_) (fun p hp => ?_) fun pg => ?_
    · obtain ⟨pg, -, hp⟩ := List.mem_flatMap.mp hp
      rw [base_of_mem_inspectedOn hp]
      exact Option.some_ne_none pg
    · obtain ⟨pg, hbase, -⟩ := hb.file p hp
      rw [hbase]
      exact Option.some_ne_none pg
    · rw [onPage_flatMap (b.nodup_pagesBy n)]
      split
      · rename_i hmem
        obtain ⟨c, hplaces, -, hscan⟩ := hpage pg ((LogKV.mem_pagesBy hn).mp hmem)
        rw [hplaces, inspectedOn, hscan, List.map_map]
        rfl
      · rename_i hmem
        refine (List.filter_eq_nil_iff.mpr fun p hp hbase => hmem ((LogKV.mem_pagesBy hn).mpr ?_)).symm
        obtain ⟨pg', hpg', hle⟩ := hb.file p hp
        rw [of_decide_eq_true hbase] at hpg'
        obtain rfl := Option.some.inj hpg'
        exact hle
  · set pg : PageId cfg := ⟨l, (b.ppage l).ppageId⟩
    obtain ⟨c, -, hsz, hscan⟩ := hpage pg le_rfl
    have hsize := h.size pg ((LogKV.mem_pagesBy hn).mpr le_rfl) rfl
    rw [hscan] at hsize
    exact hsize.trans (hsz rfl).symm

/-- **Where recovery meets the records its stride is right.** -/
theorem Traced.stride_eq {n : ℕ} (h : Traced valSize b (b.pagesBy n) x) (hn : 0 < n)
    (hb : LogKV.Packed size b stored) (hne : stored ≠ []) (hover : StepsOver b stored x) :
    logSize valSize = size := by
  obtain ⟨l, hused⟩ := hb.used hne
  set pg : PageId cfg := ⟨l, (b.ppage l).ppageId⟩
  obtain ⟨m, hm⟩ := hb.wf.file l (b.ppage l).ppageId le_rfl
  obtain ⟨c, hplaces, -, hsz⟩ := hb.page pg m hm
  have hsz : (b.ppage l).szAllocated = c * size := hsz rfl
  have hmem : pg ∈ b.pagesBy n := (LogKV.mem_pagesBy hn).mpr le_rfl
  obtain ⟨r, hscan, -, -⟩ := scanBy_page valSize (b.bytes pg)
  -- as many records are met on the page as there are
  have hcount : r = c := by
    have hperm : (LogKV.onPage x.2 pg).Perm (LogKV.onPage stored pg) := hover.inspected.filter _
    rw [h.inspected, onPage_flatMap (b.nodup_pagesBy n), if_pos hmem, hplaces, inspectedOn,
      hscan] at hperm
    simpa [LogKV.places] using hperm.length_eq
  -- and the scan ends behind the last of them
  have hend : (x.1.log.ppage l).szAllocated = r * logSize valSize := by
    have hsize := h.size pg hmem rfl
    rwa [hscan] at hsize
  have hmul : c * logSize valSize = c * size := by
    rw [← hcount, ← hend, hover.szAllocated, hsz, hcount]
  have hpos : 0 < c := by
    refine Nat.pos_of_ne_zero fun hzero => ?_
    rw [hsz, hzero, Nat.zero_mul] at hused
    exact absurd hused (Nat.lt_irrefl 0)
  exact Nat.eq_of_mul_eq_mul_left hpos hmul

/-- **The recovery scan steps over the records that were written** when there are none, or when the
values are integers and the configured length is 8 (or 6: 26 and 6 are 32), or when they are
strings of another length than 8. -/
theorem recoverBy_stepsOver_iff (type : ValueType) {valueLength : ℕ} (hlen : valueLength ≤ 65535)
    {ws : List Write} (hws : ∀ w ∈ ws, w.payload.IsOf type valueLength)
    (hrun : ws.foldlM LogKV.storeStep (LogKV.fresh cfg, []) = .ok (b, stored))
    {dir : Fin numaNodeNum → List (PageId cfg)} (hdir : Lists dir b.pmem) {n : ℕ} (hn : 1 ≤ n) :
    (∃ x, recoverBy valueLength b.pmem dir n = .ok x ∧ StepsOver b stored x) ↔
      ws = [] ∨ type.Fits valueLength := by
  have hsize : ∀ w ∈ ws, w.payload.size = type.recordSize valueLength :=
    fun w hw => (hws w hw).size hlen
  obtain ⟨hpacked, hcount⟩ := LogKV.Packed.run hsize (LogKV.packed_fresh cfg _) hrun
  have hempty : stored = [] ↔ ws = [] := by
    rw [← List.length_eq_zero_iff, ← List.length_eq_zero_iff, hcount, List.length_nil, Nat.zero_add]
  obtain ⟨x, hx, htraced⟩ := recoverBy_traced valueLength hpacked.wf hdir n
  rw [type.fits_iff]
  constructor
  · rintro ⟨y, hy, hover⟩
    obtain rfl := Except.ok.inj (hx.symm.trans hy)
    by_cases hnil : ws = []
    · exact .inl hnil
    · exact .inr (htraced.stride_eq hn hpacked (fun h => hnil (hempty.mp h)) hover)
  · intro h
    exact ⟨x, hx, htraced.stepsOver hn hpacked (h.symm.imp id hempty.mpr)⟩

/-- A log has 32 pages, and an insert takes at most one more of them. -/
theorem exists_storeSteps (cfg : Config) {size : ℕ} {ws : List Write}
    (hws : ∀ w ∈ ws, w.payload.size = size) (hlen : ws.length < maxLofFileId) :
    ∃ b stored, ws.foldlM LogKV.storeStep (LogKV.fresh cfg, []) = .ok (b, stored) := by
  let P (done : List Write) (x : LogKV cfg × List (Ptr cfg)) : Prop :=
    LogKV.Packed size x.1 x.2 ∧ ∀ l, (x.1.ppage l).ppageId ≤ done.length
  have hstep : ∀ done w rest x, ws = done ++ w :: rest → P done x →
      ∃ y, LogKV.storeStep x w = .ok y ∧ P (done ++ [w]) y := by
    rintro done w rest ⟨s, stored⟩ heq ⟨hpacked, hpages⟩
    have hdone : done.length + 1 < maxLofFileId := by
      rw [heq, List.length_append, List.length_cons] at hlen
      omega
    have hle : ∀ l, s.allocPage l w.payload.size ≤ done.length + 1 := by
      intro l
      have hpage : (s.ppage l).ppageId ≤ done.length := hpages l
      rw [LogKV.allocPage]
      split <;> omega
    obtain rfl := hws w (heq ▸ List.mem_append_right _ (List.mem_cons_self ..))
    obtain ⟨⟨addr, info, t⟩, hins⟩ : ∃ r, s.insertAt w.threadId w.key w.payload (cfg.xxh3 w.key) =
      .ok r := LogKV.exists_insertAt hpacked.wf ((hle _).trans_lt hdone)
    refine ⟨(t, stored ++ [addr]), by rw [LogKV.storeStep, hins]; rfl, hpacked.insertAt hins,
      fun l => ?_⟩
    obtain ⟨l', version, m, -, -, -, rfl⟩ := LogKV.insertAt_inv hpacked.wf hins
    rw [List.length_append, List.length_singleton]
    by_cases hl : l = l'
    · subst hl
      exact (congrArg PPage.ppageId LogKV.afterAlloc_ppage_self).trans_le (hle l)
    · exact (congrArg PPage.ppageId (LogKV.afterAlloc_ppage_ne hl)).trans_le
        (Nat.le_succ_of_le (hpages l))
  obtain ⟨⟨b, stored⟩, hrun, -⟩ := exists_foldlM_of_append ws P hstep
    (s := (LogKV.fresh cfg, [])) ⟨LogKV.packed_fresh cfg _, fun _ => Nat.le_refl 0⟩
  exact ⟨b, stored, hrun⟩

/-- Strings of three bytes, two of one thread and one of another. -/
def threeStrings (near far : Fin 64) : List Write :=
  [⟨near, 5, .string [97, 98, 99]⟩, ⟨near, 6, .string [100, 101, 102]⟩,
    ⟨far, 7, .string [103, 104, 105]⟩]

/-- Their records take 29 bytes, and so far the scan steps. -/
theorem recoverBy_stepsOver_threeStrings : ∃ (b : LogKV oneShard) (stored : List (Ptr oneShard))
    (dir : Fin numaNodeNum → List (PageId oneShard)),
    (threeStrings 0 63).foldlM LogKV.storeStep (LogKV.fresh oneShard, []) = .ok (b, stored) ∧
    stored.length = 3 ∧ Lists dir b.pmem ∧
    ∃ x, recoverBy 3 b.pmem dir 3 = .ok x ∧ StepsOver b stored x := by
  have hws : ∀ w ∈ threeStrings 0 63, w.payload.IsOf .string 3 := by
    intro w hw
    simp only [threeStrings, List.mem_cons, List.not_mem_nil, or_false] at hw
    rcases hw with rfl | rfl | rfl <;> exact ⟨rfl, rfl⟩
  have hsize : ∀ w ∈ threeStrings 0 63, w.payload.size = ValueType.string.recordSize 3 :=
    fun w hw => (hws w hw).size (by decide)
  obtain ⟨b, stored, hrun⟩ := exists_storeSteps oneShard hsize (by decide)
  obtain ⟨hpacked, hcount⟩ := LogKV.Packed.run hsize (LogKV.packed_fresh oneShard _) hrun
  obtain ⟨dir, hdir⟩ := hpacked.wf.exists_lists
  exact ⟨b, stored, dir, hrun, hcount, hdir,
    (recoverBy_stepsOver_iff .string (by decide) hws hrun hdir (by decide)).mpr
      (.inr fun h => by cases h)⟩

/-- A string of 8 bytes: its record takes 34 bytes and the scan steps by 32. -/
theorem recoverBy_string_eight : ∃ (b : LogKV oneShard) (stored : List (Ptr oneShard))
    (dir : Fin numaNodeNum → List (PageId oneShard)),
    [(⟨0, 5, .string [97, 98, 99, 100, 101, 102, 103, 104]⟩ : Write)].foldlM LogKV.storeStep
      (LogKV.fresh oneShard, []) = .ok (b, stored) ∧
    Lists dir b.pmem ∧ ¬ ∃ x, recoverBy 8 b.pmem dir 1 = .ok x ∧ StepsOver b stored x := by
  have hws : ∀ w ∈ [(⟨0, 5, .string [97, 98, 99, 100, 101, 102, 103, 104]⟩ : Write)],
      w.payload.IsOf .string 8 := by
    intro w hw
    rw [List.mem_singleton.mp hw]
    exact ⟨rfl, rfl⟩
  have hsize := fun w hw => (hws w hw).size (by decide)
  obtain ⟨b, stored, hrun⟩ := exists_storeSteps oneShard hsize (by decide)
  obtain ⟨hpacked, hcount⟩ := LogKV.Packed.run hsize (LogKV.packed_fresh oneShard _) hrun
  obtain ⟨dir, hdir⟩ := hpacked.wf.exists_lists
  refine ⟨b, stored, dir, hrun, hdir, ?_⟩
  rintro ⟨x, hx, hover⟩
  obtain ⟨y, hy, htraced⟩ := recoverBy_traced 8 hpacked.wf hdir 1
  obtain rfl := Except.ok.inj (hx.symm.trans hy)
  have hne : stored ≠ [] := by
    rintro rfl
    cases hcount
  exact absurd (htraced.stride_eq Nat.one_pos hpacked hne hover) (by decide)

end Logdb

end NaliStore
