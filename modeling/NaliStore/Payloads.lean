import NaliStore.Recovery
import NaliStore.VarRecord

/-!
# Logs of records of one size

`LogKV::insert` of `src/src/nali_kvlog.h` for both value types, with the places it stores its
records at. When all values of a store have one length all its records have one size, and they
lie in their pages one behind the other from the start on: `Packed` says which places of a page
have been stored at, and that the rest of the page is as it was filled, all ones.
-/

namespace NaliStore

open ByteMem Runs

variable {cfg : Config}

/-- A value of one of the two value types. -/
inductive Payload where
  /-- an 8-byte integer -/
  | integer (v : UInt64)
  /-- a `std::string` -/
  | string (v : List UInt8)
  deriving DecidableEq, Repr

namespace Payload

/-- `p.vlen()` of the record -/
def vlen : Payload → UInt16
  | integer _ => PairT.vlen
  | string v => (VarPairT.ofKeyValue 0 0 v).vlen

/-- `p.size()` of the record -/
def size : Payload → ℕ
  | integer _ => PairT.size
  | string v => (VarPairT.ofKeyValue 0 0 v).size

/-- `p.store_persist` of the INSERT record. -/
def storePersist (uninit : UInt64) (version : ℕ) (key : UInt64) (payload : Payload) (m : Mem)
    (a : ℕ) : Mem :=
  match payload with
  | integer v => PairT.storePersist m a (((PairT.ofKeyValue key v).setVersion version).setOp .insert)
  | string v =>
    VarPairT.storePersist m a (((VarPairT.ofKeyValue uninit key v).setVersion version).setOp .insert)

end Payload

namespace LogKV

/-- `store_persist` at an address. -/
def storePayload (s : LogKV cfg) (p : Ptr cfg) (version : ℕ) (key : UInt64) (payload : Payload) :
    Except Fault (LogKV cfg) :=
  match p.base with
  | none => .error .segv
  | some pg =>
    match s.pmem pg with
    | none => .error .segv
    | some m => .ok (s.setPage pg (payload.storePersist cfg.uninit version key m p.off))

/-- `LogKV::insert`: also the address it stores the record at. -/
def insertAt (s : LogKV cfg) (threadId : Fin 64) (key : UInt64) (payload : Payload)
    (hashKey : UInt64) : Except Fault (Ptr cfg × UInt64 × LogKV cfg) := do
  let (version, s) := s.getVersion hashKey
  let (logAddr, logInfo, s) ← s.allocLog threadId hashKey ⟨payload.vlen, 255, 0, 0⟩ payload.size
  let s ← s.storePayload logAddr version key payload
  pure (logAddr, logInfo.toUint64Offset, s)

/-- It is the insert of an integer. -/
theorem insertAt_integer (s : LogKV cfg) (threadId : Fin 64) (key v hashKey : UInt64) :
    (s.insertAt threadId key (.integer v) hashKey).map Prod.snd =
      s.insert threadId key v hashKey := by
  have hstore : ∀ (t : LogKV cfg) (p : Ptr cfg) (version : ℕ),
      t.storePayload p version key (.integer v) =
        t.storePersist p (((PairT.ofKeyValue key v).setVersion version).setOp .insert) :=
    fun _ _ _ => rfl
  simp only [insertAt, LogKV.insert, hstore, Payload.vlen, Payload.size, bind, Except.bind]
  cases (s.getVersion hashKey).2.allocLog threadId hashKey ⟨PairT.vlen, 255, 0, 0⟩ PairT.size with
  | error e => rfl
  | ok x =>
    simp only
    split <;> rfl

/-- It is the insert of a string. -/
theorem insertAt_string (s : LogKV cfg) (threadId : Fin 64) (key hashKey : UInt64) (v : List UInt8) :
    (s.insertAt threadId key (.string v) hashKey).map Prod.snd =
      s.insertVar threadId key v hashKey := by
  have hstore : ∀ (t : LogKV cfg) (p : Ptr cfg) (version : ℕ),
      t.storePayload p version key (.string v) = t.storeVar p
        (((VarPairT.ofKeyValue cfg.uninit key v).setVersion version).setOp .insert) :=
    fun _ _ _ => rfl
  have hvlen : ∀ version : ℕ, (((VarPairT.ofKeyValue cfg.uninit key v).setVersion version).setOp
      .insert).vlen = (VarPairT.ofKeyValue 0 0 v).vlen := fun _ => rfl
  have hsize : ∀ version : ℕ, (((VarPairT.ofKeyValue cfg.uninit key v).setVersion version).setOp
      .insert).size = (VarPairT.ofKeyValue 0 0 v).size := fun _ => rfl
  simp only [insertAt, insertVar, hstore, hvlen, hsize, Payload.vlen, Payload.size, bind, Except.bind]
  cases (s.getVersion hashKey).2.allocLog threadId hashKey
    ⟨(VarPairT.ofKeyValue 0 0 v).vlen, 255, 0, 0⟩ (VarPairT.ofKeyValue 0 0 v).size with
  | error e => rfl
  | ok x =>
    simp only
    split <;> rfl

end LogKV

/-! ## The bytes of a record -/

/-- The op of a record is in its first byte. -/
theorem op_view (m : Mem) (a : ℕ) : (PairT.view m a).op = OpT.ofBits (m a).toNat := by
  have hbyte : (load64 m a).toNat % 4 = (m a).toNat % 4 := by
    rw [toNat_load64, load_succ]
    omega
  rw [PairT.view, OpT.ofBits, OpT.ofBits, hbyte]

theorem op_view_of_ones {m : Mem} {a : ℕ} (h : m a = 0xff) : (PairT.view m a).op = .trash := by
  rw [op_view, h]
  rfl

namespace Payload

variable {payload : Payload} {uninit key : UInt64} {version : ℕ} {m : Mem} {a : ℕ}

theorem size_pos (payload : Payload) : 0 < payload.size := by
  cases payload with
  | integer v => exact Nat.zero_lt_succ _
  | string v => exact Nat.add_pos_left (Nat.zero_lt_succ _) _

theorem size_le_ppageSize (payload : Payload) : payload.size ≤ ppageSize := by
  cases payload with
  | integer v => exact (by decide : PairT.size ≤ ppageSize)
  | string v => exact VarPairT.size_le_ppageSize _

theorem op_storePersist : (PairT.view (payload.storePersist uninit version key m a) a).op = .insert := by
  cases payload with
  | integer v =>
    rw [storePersist, PairT.view_storePersist_same]
    rfl
  | string v =>
    rw [storePersist, PairT.view, VarPairT.load64_op, VarPairT.ofBits_opVersion]
    rfl

theorem storePersist_of_disjoint {i : ℕ} (h : i < a ∨ a + payload.size ≤ i) :
    payload.storePersist uninit version key m a i = m i := by
  cases payload with
  | integer v => exact PairT.storePersist_apply_of_disjoint m _ h
  | string v => exact VarPairT.storePersist_of_disjoint h

end Payload

/-! ## Pages of records of one size -/

/-- There are `c` INSERT records of `size` bytes in the page, from its start on, and ones behind
them. -/
structure Filled (size : ℕ) (m : Mem) (c : ℕ) : Prop where
  /-- the records -/
  insert : ∀ j < c, (PairT.view m (j * size)).op = .insert
  /-- the rest -/
  rest : ∀ i, c * size ≤ i → m i = 0xff
  /-- the records are in the page -/
  le : c * size ≤ ppageSize

theorem filled_blank (size : ℕ) : Filled size (fill 0xff) 0 where
  insert _ hj := absurd hj (Nat.not_lt_zero _)
  rest _ _ := rfl
  le := by
    rw [Nat.zero_mul]
    exact Nat.zero_le _

/-- Another record is stored behind those that are there. -/
theorem Filled.store {m : Mem} {c : ℕ} {payload : Payload} {uninit key : UInt64} {version : ℕ}
    (h : Filled payload.size m c) (hle : c * payload.size + payload.size ≤ ppageSize) :
    Filled payload.size (payload.storePersist uninit version key m (c * payload.size)) (c + 1) where
  insert j hj := by
    rcases Nat.lt_succ_iff_lt_or_eq.mp hj with hlt | rfl
    · have hbefore : j * payload.size < c * payload.size :=
        Nat.mul_lt_mul_of_pos_right hlt payload.size_pos
      rw [op_view, Payload.storePersist_of_disjoint (.inl hbefore), ← op_view]
      exact h.insert j hlt
    · exact Payload.op_storePersist
  rest i hi := by
    rw [Nat.succ_mul] at hi
    rw [Payload.storePersist_of_disjoint (.inr hi)]
    exact h.rest i (by omega)
  le := by
    rw [Nat.succ_mul]
    exact hle

/-! ## Runs of inserts -/

/-- An insert and the thread that makes it. -/
structure Write where
  /-- `global_thread_id` -/
  threadId : Fin 64
  /-- the key -/
  key : UInt64
  /-- the value -/
  payload : Payload
  deriving DecidableEq

namespace LogKV

variable {size : ℕ} {s t : LogKV cfg} {stored : List (Ptr cfg)} {w : Write}

/-- One insert, and the places of all records so far. -/
def storeStep (x : LogKV cfg × List (Ptr cfg)) (w : Write) :
    Except Fault (LogKV cfg × List (Ptr cfg)) := do
  let (logAddr, _, log) ← x.1.insertAt w.threadId w.key w.payload (cfg.xxh3 w.key)
  .ok (log, x.2 ++ [logAddr])

/-- The places of a page. -/
def onPage (stored : List (Ptr cfg)) (pg : PageId cfg) : List (Ptr cfg) :=
  stored.filter fun p => p.base = some pg

/-- The first `c` places of a page for records of `size` bytes. -/
def places (size : ℕ) (pg : PageId cfg) (c : ℕ) : List (Ptr cfg) :=
  (List.range c).map fun j => ⟨some pg, j * size⟩

/-- The records at the places `stored` are all there is in the log, each page has its own from the
start on, and the append position of the newest page is behind them. -/
structure Packed (size : ℕ) (s : LogKV cfg) (stored : List (Ptr cfg)) : Prop where
  /-- the pages are in order -/
  wf : s.WF
  /-- the records of a page -/
  page : ∀ pg m, s.pmem pg = some m → ∃ c, onPage stored pg = places size pg c ∧ Filled size m c ∧
    (pg.page = (s.ppage pg.log).ppageId → (s.ppage pg.log).szAllocated = c * size)
  /-- every place is in a page -/
  file : ∀ p ∈ stored, ∃ pg, p.base = some pg ∧ pg.page ≤ (s.ppage pg.log).ppageId
  /-- a log that has been appended to -/
  used : stored ≠ [] → ∃ l, 0 < (s.ppage l).szAllocated

theorem WF.bump (h : s.WF) (hashKey : UInt64) : (s.bump hashKey).WF :=
  ⟨h.page_lt, h.start, h.sz_le, h.table, h.table_none, h.file, h.file_none⟩

theorem Packed.bump (h : Packed size s stored) (hashKey : UInt64) :
    Packed size (s.bump hashKey) stored :=
  ⟨h.wf.bump hashKey, h.page, h.file, h.used⟩

theorem packed_fresh (cfg : Config) (size : ℕ) : Packed size (fresh cfg) [] where
  wf := wf_fresh cfg
  page pg m hm := by
    have hzero : pg.page = 0 ∧ fill 0xff = m := by
      simpa [fresh] using hm
    refine ⟨0, rfl, hzero.2 ▸ filled_blank size, fun _ => ?_⟩
    rw [Nat.zero_mul]
    rfl
  file p hp := absurd hp List.not_mem_nil
  used h := absurd rfl h

theorem storePayload_eq {pg : PageId cfg} {m : Mem} (hm : s.pmem pg = some m) (off version : ℕ)
    (key : UInt64) (payload : Payload) :
    s.storePayload ⟨some pg, off⟩ version key payload =
      .ok (s.setPage pg (payload.storePersist cfg.uninit version key m off)) := by
  simp only [storePayload, hm]

/-- An insert succeeds while there is a page file number for it. -/
theorem exists_insertAt (hwf : s.WF) {threadId : Fin 64} {key hashKey : UInt64} {payload : Payload}
    (hfit : s.allocPage (logOf cfg threadId hashKey) payload.size < maxLofFileId) :
    ∃ r, s.insertAt threadId key payload hashKey = .ok r := by
  have hwf' := hwf.bump hashKey
  have halloc : (s.getVersion hashKey).2.allocLog threadId hashKey ⟨payload.vlen, 255, 0, 0⟩
      payload.size = _ := alloc_eq hwf' hfit
  obtain ⟨m, hm⟩ := (hwf'.afterAlloc payload.size_le_ppageSize hfit).file
    (logOf cfg threadId hashKey) ((s.bump hashKey).allocPage (logOf cfg threadId hashKey) payload.size)
    (by rw [afterAlloc_ppage_self])
  cases hins : s.insertAt threadId key payload hashKey with
  | ok r => exact ⟨r, rfl⟩
  | error e => simp [insertAt, halloc, storePayload_eq hm, bind, Except.bind, pure, Except.pure] at hins

/-- What an insert does: it takes space and stores its record there. -/
theorem insertAt_inv (hwf : s.WF) {threadId : Fin 64} {key hashKey addrInfo : UInt64}
    {payload : Payload} {addr : Ptr cfg}
    (h : s.insertAt threadId key payload hashKey = .ok (addr, addrInfo, t)) :
    ∃ (l : LogId cfg) (version : ℕ) (m : Mem), s.allocPage l payload.size < maxLofFileId ∧
      addr = ⟨some ⟨l, s.allocPage l payload.size⟩, s.allocOff l payload.size⟩ ∧
      ((s.bump hashKey).afterAlloc l payload.size).pmem ⟨l, s.allocPage l payload.size⟩ = some m ∧
      t = ((s.bump hashKey).afterAlloc l payload.size).setPage ⟨l, s.allocPage l payload.size⟩
        (payload.storePersist cfg.uninit version key m (s.allocOff l payload.size)) := by
  obtain ⟨⟨p, li, s₁⟩, halloc, h⟩ := bind_eq_ok h
  obtain ⟨s₂, hstore, h⟩ := bind_eq_ok h
  obtain ⟨rfl, -, rfl⟩ := Prod.mk.inj (Except.ok.inj h) |>.imp id Prod.mk.inj
  obtain ⟨hfit, rfl, -, rfl⟩ := alloc_inv (hwf.bump hashKey) halloc
  set l := logOf cfg threadId hashKey
  have hwf₁ := (hwf.bump hashKey).afterAlloc (l := l) payload.size_le_ppageSize hfit
  obtain ⟨m, hm⟩ := hwf₁.file l ((s.bump hashKey).allocPage l payload.size)
    (by rw [afterAlloc_ppage_self])
  exact ⟨l, (s.getVersion hashKey).1, m, hfit, rfl, hm,
    (Except.ok.inj ((storePayload_eq hm ..).symm.trans hstore)).symm⟩

/-- The page that space has been taken from, before the record is stored. -/
theorem Packed.afterAlloc (h : Packed size s stored) (hsize : size ≤ ppageSize) {l : LogId cfg}
    {m : Mem} (hm : (s.afterAlloc l size).pmem ⟨l, s.allocPage l size⟩ = some m) :
    ∃ c, onPage stored ⟨l, s.allocPage l size⟩ = places size ⟨l, s.allocPage l size⟩ c ∧
      Filled size m c ∧ s.allocOff l size = c * size ∧ c * size + size ≤ ppageSize := by
  have hfits := allocOff_add_le h.wf (l := l) hsize
  by_cases hroll : size > ppageSize - (s.ppage l).szAllocated
  · -- a new page
    have hpage : s.allocPage l size = (s.ppage l).ppageId + 1 := if_pos hroll
    have hoff : s.allocOff l size = 0 := if_pos hroll
    have hblank : (s.afterAlloc l size).pmem ⟨l, s.allocPage l size⟩ = some (fill 0xff) :=
      afterAlloc_pmem_new (by omega)
    obtain rfl := Option.some.inj (hblank.symm.trans hm)
    refine ⟨0, ?_, filled_blank size, by rw [hoff, Nat.zero_mul], by omega⟩
    refine List.filter_eq_nil_iff.mpr fun p hp hbase => ?_
    obtain ⟨pg, hpg, hle⟩ := h.file p hp
    rw [of_decide_eq_true hbase] at hpg
    obtain rfl := Option.some.inj hpg
    exact absurd hle (by simp only; omega)
  · have hpage : s.allocPage l size = (s.ppage l).ppageId := if_neg hroll
    have hoff : s.allocOff l size = (s.ppage l).szAllocated := if_neg hroll
    rw [afterAlloc_pmem_of_le (by rw [hpage])] at hm
    obtain ⟨c, hplaces, hfilled, hsz⟩ := h.page _ m hm
    have hcount : s.allocOff l size = c * size := hoff.trans (hsz hpage)
    exact ⟨c, hplaces, hfilled, hcount, hcount ▸ hfits⟩

theorem places_succ (size : ℕ) (pg : PageId cfg) (c : ℕ) :
    places size pg (c + 1) = places size pg c ++ [⟨some pg, c * size⟩] := by
  rw [places, List.range_succ, List.map_append]
  rfl

theorem onPage_append_self (stored : List (Ptr cfg)) (pg : PageId cfg) (off : ℕ) :
    onPage (stored ++ [⟨some pg, off⟩]) pg = onPage stored pg ++ [⟨some pg, off⟩] := by
  simp [onPage]

theorem onPage_append_of_ne {pg pg' : PageId cfg} (hne : pg' ≠ pg) (stored : List (Ptr cfg)) (off : ℕ) :
    onPage (stored ++ [⟨some pg, off⟩]) pg' = onPage stored pg' := by
  simp [onPage, hne.symm]

/-- **An insert keeps the log packed.** -/
theorem Packed.insertAt {threadId : Fin 64} {key hashKey addrInfo : UInt64} {payload : Payload}
    {addr : Ptr cfg} (h : Packed payload.size s stored)
    (hins : s.insertAt threadId key payload hashKey = .ok (addr, addrInfo, t)) :
    Packed payload.size t (stored ++ [addr]) := by
  obtain ⟨l, version, m, hfit, rfl, hm, rfl⟩ := insertAt_inv h.wf hins
  have hsize := payload.size_le_ppageSize
  obtain ⟨c, hplaces, hfilled, hoff, hle⟩ := (h.bump hashKey).afterAlloc hsize hm
  set pg : PageId cfg := ⟨l, s.allocPage l payload.size⟩ with hpg
  have hoff : s.allocOff l payload.size = c * payload.size := hoff
  have hppage : ((s.bump hashKey).afterAlloc l payload.size).ppage l =
      ⟨some pg, pg.page, s.allocOff l payload.size + payload.size⟩ := afterAlloc_ppage_self
  have hnewest : pg.page ≤ (((s.bump hashKey).afterAlloc l payload.size).ppage pg.log).ppageId :=
    (congrArg PPage.ppageId hppage).ge
  refine ⟨((h.wf.bump hashKey).afterAlloc hsize hfit).setPage hnewest, fun pg' m' hm' => ?_,
    fun p hp => ?_, fun _ => ⟨l, ?_⟩⟩
  · by_cases hne : pg' = pg
    · subst hne
      simp only [setPage, Function.update_self, Option.some.injEq] at hm'
      subst hm'
      refine ⟨c + 1, ?_, ?_, fun _ => ?_⟩
      · rw [onPage_append_self, hoff, places_succ]
        exact congrArg (· ++ _) hplaces
      · rw [hoff]
        exact hfilled.store hle
      · rw [Nat.succ_mul, ← hoff]
        exact congrArg PPage.szAllocated hppage
    · have hold : s.pmem pg' = some m' := by
        simp only [setPage, Function.update_of_ne hne] at hm'
        exact (afterAlloc_pmem_of_ne (s := s.bump hashKey) hne).symm.trans hm'
      obtain ⟨c', hplaces', hfilled', hsz⟩ := h.page pg' m' hold
      refine ⟨c', (onPage_append_of_ne hne ..).trans hplaces', hfilled', fun hnewest => ?_⟩
      by_cases hl : pg'.log = l
      · -- the newest page of this log is the one that was appended to
        have hid : pg'.page = pg.page := by
          rw [hl] at hnewest
          exact hnewest.trans (congrArg PPage.ppageId hppage)
        exact absurd (PageId.ext hl hid) hne
      · have hsame : ((s.bump hashKey).afterAlloc l payload.size).ppage pg'.log = s.ppage pg'.log :=
          afterAlloc_ppage_ne hl
        exact (congrArg PPage.szAllocated hsame).trans
          (hsz (hnewest.trans (congrArg PPage.ppageId hsame)))
  · rcases List.mem_append.mp hp with hp | hp
    · obtain ⟨pg', hbase, hle⟩ := h.file p hp
      refine ⟨pg', hbase, ?_⟩
      by_cases hl : pg'.log = l
      · rw [hl] at hle ⊢
        exact (hle.trans le_allocPage).trans (congrArg PPage.ppageId hppage).ge
      · have hsame : ((s.bump hashKey).afterAlloc l payload.size).ppage pg'.log = s.ppage pg'.log :=
          afterAlloc_ppage_ne hl
        exact hle.trans (congrArg PPage.ppageId hsame).ge
    · rw [List.mem_singleton.mp hp]
      exact ⟨pg, rfl, (congrArg PPage.ppageId hppage).ge⟩
  · have hpos := payload.size_pos
    refine lt_of_lt_of_eq (?_ : 0 < s.allocOff l payload.size + payload.size)
      (congrArg PPage.szAllocated hppage).symm
    omega

/-- **A run of inserts** of records of one size leaves a packed log. -/
theorem Packed.run {ws : List Write} (hws : ∀ w ∈ ws, w.payload.size = size) :
    ∀ {s t : LogKV cfg} {stored stored' : List (Ptr cfg)}, Packed size s stored →
    ws.foldlM storeStep (s, stored) = .ok (t, stored') →
    Packed size t stored' ∧ stored'.length = stored.length + ws.length := by
  induction ws with
  | nil =>
    intro s t stored stored' h hrun
    obtain ⟨rfl, rfl⟩ := Prod.mk.inj (Except.ok.inj hrun)
    exact ⟨h, rfl⟩
  | cons w ws ih =>
    intro s t stored stored' h hrun
    rw [List.foldlM_cons] at hrun
    obtain ⟨⟨s₁, stored₁⟩, hstep, hrun⟩ := bind_eq_ok hrun
    obtain ⟨⟨addr, addrInfo, log⟩, hins, hstep⟩ := bind_eq_ok hstep
    obtain ⟨rfl, rfl⟩ := Prod.mk.inj (Except.ok.inj hstep)
    obtain rfl := hws w (List.mem_cons_self ..)
    obtain ⟨hpacked, hlength⟩ := ih (fun x hx => hws x (List.mem_cons_of_mem _ hx))
      (h.insertAt hins) hrun
    refine ⟨hpacked, ?_⟩
    simp only [hlength, List.length_append, List.length_cons, List.length_nil]
    omega

end LogKV

end NaliStore
