import NaliStore.Alloc

/-!
# Records of variable length

`Pair_t<KEY, std::string>` of `src/src/nali_kvlog.h`, the record of a build with string values:

    | op : 2, version : 62 | key | vlen : 16 | last_log_offset | value |

with 26 bytes before the value. `store_persist` copies the first 26 bytes of the object and then
the value; `load` and `logdb::search` read the value back at offset 26. The length of the value is
a `size_t` in the string, and 16 bits in the record and in the packed address: of a longer value
the record holds the length modulo 2^16, and so many of its first bytes.
-/

namespace NaliStore

open ByteMem

/-- `Pair_t<KEY, std::string>` -/
@[ext] structure VarPairT where
  /-- what the record logs -/
  op : OpT
  /-- the 62-bit version -/
  version : BitVec 62
  /-- `_key` -/
  key : UInt64
  /-- `_vlen` -/
  vlen : UInt16
  /-- `u_offset` -/
  uOffset : UInt64
  /-- `_value` -/
  value : List UInt8
  deriving DecidableEq, Repr

namespace VarPairT

/-- The constructor from key and value. It leaves the link uninitialised; the bit fields are set
before any use. -/
def ofKeyValue (uninit k : UInt64) (v : List UInt8) : VarPairT :=
  ⟨.insert, 0, k, UInt16.ofNat v.length, uninit, v⟩

/-- `set_version` -/
def setVersion (p : VarPairT) (oldVersion : ℕ) : VarPairT :=
  { p with version := BitVec.ofNat 62 (oldVersion + 1) }

/-- `set_op` -/
def setOp (p : VarPairT) (o : OpT) : VarPairT := { p with op := o }

/-- `set_last_log_offest` -/
def setLastLogOffest (p : VarPairT) (logOffset : UInt64) : VarPairT := { p with uOffset := logOffset }

/-- `value_offset()`: where the value starts. -/
def valueOffset : ℕ := 26

/-- `size()` -/
def size (p : VarPairT) : ℕ := valueOffset + p.vlen.toNat

/-- The first word: the two bit fields. -/
def opVersion (p : VarPairT) : ℕ := p.op.toNat + 4 * p.version.toNat

/-- The copy of the object up to its string. -/
def storeHead (m : Mem) (a : ℕ) (p : VarPairT) : Mem :=
  store64 (store (store64 (store64 m a (UInt64.ofNat p.opVersion)) (a + 8) p.key)
    (a + 16) 2 p.vlen.toNat) (a + 18) p.uOffset

/-- `store_persist`: copy the record to address `a`. -/
def storePersist (m : Mem) (a : ℕ) (p : VarPairT) : Mem :=
  let m := storeHead m a p
  if p.vlen.toNat > 0 then storeBytes m (a + valueOffset) (p.value.take p.vlen.toNat) else m

/-- `load(p)`: what an object holds after it has been loaded from address `a`. The version and
the link are not loaded. -/
def load (p : VarPairT) (m : Mem) (a : ℕ) : VarPairT :=
  let vlen := UInt16.ofNat (ByteMem.load m (a + 16) 2)
  { p with
    op := OpT.ofBits (load64 m a).toNat
    key := load64 m (a + 8)
    vlen
    value := loadBytes m (a + valueOffset) vlen.toNat }

end VarPairT

namespace LogKV

variable {cfg : Config}

/-- `store_persist` of a record of variable length at an address. -/
def storeVar (s : LogKV cfg) (p : Ptr cfg) (r : VarPairT) : Except Fault (LogKV cfg) :=
  match p.base with
  | none => .error .segv
  | some pg =>
    match s.pmem pg with
    | none => .error .segv
    | some m => .ok (s.setPage pg (VarPairT.storePersist m p.off r))

/-- `load` from an address. -/
def loadVar (s : LogKV cfg) (p : Ptr cfg) (r : VarPairT) : Except Fault VarPairT := do
  let m ← s.page p
  pure (r.load m p.off)

/-- The value of a search: `vlen` bytes at offset 26 of the record an address points to. -/
def readValue (s : LogKV cfg) (p : Ptr cfg) (vlen : UInt16) : Except Fault (List UInt8) := do
  let m ← s.page p
  pure (loadBytes m (p.off + 26) vlen.toNat)

/-- `LogKV::insert` of a string: returns the packed address of the record. -/
def insertVar (s : LogKV cfg) (threadId : Fin 64) (key : UInt64) (payload : List UInt8)
    (hashKey : UInt64) : Except Fault (UInt64 × LogKV cfg) := do
  let p := VarPairT.ofKeyValue cfg.uninit key payload
  let (version, s) := s.getVersion hashKey
  let p := (p.setVersion version).setOp .insert
  let (logAddr, logInfo, s) ← s.allocLog threadId hashKey ⟨p.vlen, 255, 0, 0⟩ p.size
  let s ← s.storeVar logAddr p
  pure (logInfo.toUint64Offset, s)

end LogKV

/-! ## The record laws -/

namespace VarPairT

variable {p : VarPairT} {m : Mem} {a i : ℕ}

/-- The fixed-size record with the same first two words. -/
def head (p : VarPairT) : PairT := ⟨p.op, p.version, p.key, 0, 0⟩

theorem ofBits_opVersion (p : VarPairT) : OpT.ofBits (UInt64.ofNat p.opVersion).toNat = p.op := by
  have hhead : p.opVersion = p.head.opVersion := rfl
  rw [hhead, PairT.ofNat_opVersion]
  exact (PairT.fields_opVersion p.head).1

theorem size_le_ppageSize (p : VarPairT) : p.size ≤ ppageSize := by
  have hlt := p.vlen.toNat_lt
  rw [size, valueOffset, ppageSize_eq]
  omega

theorem length_take_le (p : VarPairT) : (p.value.take p.vlen.toNat).length ≤ p.vlen.toNat :=
  List.length_take_le ..

/-- `store_persist` writes the bytes of the record and no others. -/
theorem storePersist_of_disjoint (h : i < a ∨ a + p.size ≤ i) : storePersist m a p i = m i := by
  have hle := p.length_take_le
  rw [size, valueOffset] at h
  have hhead : storeHead m a p i = m i := by
    simp only [storeHead, store64, store]
    rw [if_neg (by omega), if_neg (by omega), if_neg (by omega), if_neg (by omega)]
  simp only [storePersist, valueOffset]
  split
  · rw [storeBytes_of_disjoint _ (by omega), hhead]
  · exact hhead

/-- The copy of the value does not disturb what is before it. -/
theorem load_storePersist {j n : ℕ} (h : j + n ≤ 26) :
    ByteMem.load (storePersist m a p) (a + j) n = ByteMem.load (storeHead m a p) (a + j) n := by
  simp only [storePersist, valueOffset]
  split
  · rw [load_storeBytes_disjoint _ (by omega)]
  · rfl

theorem load64_storePersist {j : ℕ} (h : j + 8 ≤ 26) :
    load64 (storePersist m a p) (a + j) = load64 (storeHead m a p) (a + j) := by
  rw [load64, load_storePersist h, ← load64]

theorem load64_op (m : Mem) (a : ℕ) (p : VarPairT) :
    load64 (storePersist m a p) a = UInt64.ofNat p.opVersion := by
  have h := load64_storePersist (m := m) (a := a) (p := p) (j := 0) (by omega)
  rw [Nat.add_zero] at h
  rw [h, storeHead, load64_store64_disjoint _ _ (by omega), load64, load_store_disjoint _ (by omega),
    ← load64, load64_store64_disjoint _ _ (by omega), load64_store64_same]

theorem load64_key (m : Mem) (a : ℕ) (p : VarPairT) :
    load64 (storePersist m a p) (a + 8) = p.key := by
  rw [load64_storePersist (by omega), storeHead, load64_store64_disjoint _ _ (by omega), load64,
    load_store_disjoint _ (by omega), ← load64, load64_store64_same]

theorem load_vlen (m : Mem) (a : ℕ) (p : VarPairT) :
    ByteMem.load (storePersist m a p) (a + 16) 2 = p.vlen.toNat := by
  rw [load_storePersist (by omega), storeHead, store64, load_store_disjoint _ (by omega),
    load_store_same]
  exact Nat.mod_eq_of_lt p.vlen.toNat_lt

/-- **The value in the record** is as much of the value as the 16-bit length says. -/
theorem loadBytes_value (m : Mem) (a : ℕ) (p : VarPairT) (hvlen : p.vlen.toNat ≤ p.value.length) :
    loadBytes (storePersist m a p) (a + 26) p.vlen.toNat = p.value.take p.vlen.toNat := by
  simp only [storePersist, valueOffset]
  split
  · have hsame := loadBytes_storeBytes_same (storeHead m a p) (a + 26) (p.value.take p.vlen.toNat)
    rwa [List.length_take_of_le hvlen] at hsame
  · rename_i hzero
    obtain hzero : p.vlen.toNat = 0 := by omega
    rw [hzero]
    rfl

/-- **What `load` reads back.** -/
theorem load_storePersist_same (m : Mem) (a : ℕ) (p q : VarPairT)
    (hvlen : p.vlen.toNat ≤ p.value.length) :
    q.load (storePersist m a p) a = { q with
      op := p.op
      key := p.key
      vlen := p.vlen
      value := p.value.take p.vlen.toNat } := by
  simp only [load, load64_op, load64_key, load_vlen, ofBits_opVersion, UInt16.ofNat_toNat,
    valueOffset, loadBytes_value m a p hvlen]

end VarPairT

/-! ## Writing and reading a value -/

namespace LogKV

variable {cfg : Config} {s s₁ : LogKV cfg} {addr : Ptr cfg} {logInfo : LastLogOffest}

/-- The record `p`, stored at `addr` by the step from `s₁` to `s₂`, comes back: its bytes stay in
the region of `p.size()` bytes, `load` gives the key, the op and the value, and so many bytes as
the packed address says are the value. -/
structure RoundTrips (s₁ s₂ : LogKV cfg) (addr : Ptr cfg) (addrInfo hashKey : UInt64)
    (p : VarPairT) : Prop where
  /-- the region is one of a page, and nothing else changes -/
  region : ∃ pg, addr.base = some pg ∧ addr.off + p.size ≤ ppageSize ∧
    ∀ pg' m, s₁.pmem pg' = some m → ∃ m', s₂.pmem pg' = some m' ∧
      ∀ i, pg' ≠ pg ∨ i < addr.off ∨ addr.off + p.size ≤ i → m' i = m i
  /-- `load` -/
  load : ∀ q, ∃ r, s₂.loadVar addr q = .ok r ∧ r.op = p.op ∧ r.key = p.key ∧ r.value = p.value
  /-- a search by the packed address -/
  read : ∃ addr', s₂.getAddr (.ofAddrInfo addrInfo) hashKey = .ok addr' ∧
    s₂.readValue addr' (LastLogOffest.ofAddrInfo addrInfo).vlen = .ok p.value

/-- The record of a write of `v`. -/
def varRec (uninit : UInt64) (version : ℕ) (o : OpT) (k old : UInt64) (v : List UInt8) : VarPairT :=
  (((VarPairT.ofKeyValue uninit k v).setVersion version).setOp o).setLastLogOffest old

theorem toNat_vlen_varRec (uninit : UInt64) (version : ℕ) (o : OpT) (k old : UInt64) (v : List UInt8) :
    (varRec uninit version o k old v).vlen.toNat = v.length % 2 ^ 16 := by
  simp [varRec, VarPairT.ofKeyValue, VarPairT.setVersion, VarPairT.setOp, VarPairT.setLastLogOffest]

/-- What is at the place of a record that has been allocated and stored. -/
theorem exists_storeVar (hwf : s.WF) {threadId : Fin 64} {hashKey : UInt64} {li : LastLogOffest}
    (p : VarPairT) (halloc : s.allocLog threadId hashKey li p.size = .ok (addr, logInfo, s₁)) :
    ∃ pg m, addr.base = some pg ∧ addr.off + p.size ≤ ppageSize ∧ s₁.pmem pg = some m ∧
      s₁.storeVar addr p = .ok (s₁.setPage pg (VarPairT.storePersist m addr.off p)) ∧
      logInfo.vlen = li.vlen ∧ s₁.getAddr logInfo hashKey = .ok addr := by
  obtain ⟨hfit, rfl, rfl, rfl⟩ := alloc_inv hwf halloc
  set l := logOf cfg threadId hashKey with hl
  have hsize := p.size_le_ppageSize
  have hwf₁ := hwf.afterAlloc (l := l) hsize hfit
  have hpage : s.allocPage l p.size ≤ ((s.afterAlloc l p.size).ppage l).ppageId := by
    rw [afterAlloc_ppage_self]
  obtain ⟨m, hm⟩ := hwf₁.file l _ hpage
  obtain ⟨hn, hp, ho⟩ := toNat_allocInfo hwf (l := l) li hfit
  refine ⟨_, m, rfl, allocOff_add_le hwf hsize, hm, ?_, rfl, getAddr_of_wf hwf₁ rfl hn hp ho hpage⟩
  simp only [storeVar, hm]

theorem getAddr_setPage (pg : PageId cfg) (m : ByteMem.Mem) (li : LastLogOffest) (hashKey : UInt64) :
    (s.setPage pg m).getAddr li hashKey = s.getAddr li hashKey := rfl

/-- **What comes back of a value of any length**: as much of it as 16 bits of its length say. -/
theorem exists_readBack (hwf : s.WF) {threadId : Fin 64} {hashKey : UInt64} (uninit : UInt64)
    (version : ℕ) (o : OpT) (k old : UInt64) (v : List UInt8)
    (halloc : s.allocLog threadId hashKey ⟨(varRec uninit version o k old v).vlen, 255, 0, 0⟩
      (varRec uninit version o k old v).size = .ok (addr, logInfo, s₁)) :
    ∃ pg m s₂, addr.base = some pg ∧ addr.off + (varRec uninit version o k old v).size ≤ ppageSize ∧
      s₁.pmem pg = some m ∧ s₁.storeVar addr (varRec uninit version o k old v) = .ok s₂ ∧
      s₂ = s₁.setPage pg (VarPairT.storePersist m addr.off (varRec uninit version o k old v)) ∧
      (∀ q, s₂.loadVar addr q = .ok { q with
        op := o
        key := k
        vlen := (varRec uninit version o k old v).vlen
        value := v.take (v.length % 2 ^ 16) }) ∧
      s₂.getAddr (.ofAddrInfo logInfo.toUint64Offset) hashKey = .ok addr ∧
      s₂.readValue addr (LastLogOffest.ofAddrInfo logInfo.toUint64Offset).vlen =
        .ok (v.take (v.length % 2 ^ 16)) := by
  set p := varRec uninit version o k old v with hp
  have hvlen : p.vlen.toNat = v.length % 2 ^ 16 := toNat_vlen_varRec ..
  have hle : p.vlen.toNat ≤ p.value.length := by
    rw [hvlen]
    exact Nat.mod_le ..
  obtain ⟨pg, m, hbase, hfit, hm, hstore, hli, haddr⟩ := exists_storeVar hwf p halloc
  set m' := VarPairT.storePersist m addr.off p with hm'
  have hpage : (s₁.setPage pg m').page addr = .ok m' := by
    rw [page, hbase]
    simp [setPage]
  refine ⟨pg, m, _, hbase, hfit, hm, hstore, rfl, fun q => ?_, ?_, ?_⟩
  · rw [loadVar, hpage, ← hvlen]
    exact congrArg Except.ok (VarPairT.load_storePersist_same m addr.off p q hle)
  · rw [LastLogOffest.ofAddrInfo_toUint64Offset, getAddr_setPage, haddr]
  · rw [LastLogOffest.ofAddrInfo_toUint64Offset, hli, readValue, hpage, ← hvlen]
    exact congrArg Except.ok (VarPairT.loadBytes_value m addr.off p hle)

/-- **A value comes back** exactly when its length fits into 16 bits. Nothing rejects a longer
one. -/
theorem storeVar_roundTrips_iff (hwf : s.WF) {threadId : Fin 64} {hashKey : UInt64} (uninit : UInt64)
    (version : ℕ) (o : OpT) (k old : UInt64) (v : List UInt8)
    (halloc : s.allocLog threadId hashKey ⟨(varRec uninit version o k old v).vlen, 255, 0, 0⟩
      (varRec uninit version o k old v).size = .ok (addr, logInfo, s₁)) :
    (∃ s₂, s₁.storeVar addr (varRec uninit version o k old v) = .ok s₂ ∧
      RoundTrips s₁ s₂ addr logInfo.toUint64Offset hashKey (varRec uninit version o k old v)) ↔
    v.length < 2 ^ 16 := by
  obtain ⟨pg, m, s₂, hbase, hfit, hm, hstore, hs₂, hload, haddr, hread⟩ :=
    exists_readBack hwf uninit version o k old v halloc
  constructor
  · rintro ⟨s₂', hs₂', -, -, addr', haddr', hval⟩
    obtain rfl := Except.ok.inj (hstore.symm.trans hs₂')
    obtain rfl := Except.ok.inj (haddr.symm.trans haddr')
    -- the length of what is read
    have hlen := congrArg List.length (Except.ok.inj (hread.symm.trans hval))
    have hvalue : (varRec uninit version o k old v).value = v := rfl
    rw [List.length_take, hvalue] at hlen
    omega
  · intro hlt
    rw [Nat.mod_eq_of_lt hlt, List.take_length] at hload hread
    refine ⟨s₂, hstore, ⟨pg, hbase, hfit, fun pg' x hx => ?_⟩, fun q => ⟨_, hload q, rfl, rfl, rfl⟩,
      addr, haddr, hread⟩
    by_cases hpg : pg' = pg
    · subst hpg
      obtain rfl := Option.some.inj (hm.symm.trans hx)
      refine ⟨_, by rw [hs₂]; exact Function.update_self .., fun i hi => ?_⟩
      rcases hi with hi | hi
      · exact absurd rfl hi
      · exact VarPairT.storePersist_of_disjoint hi
    · exact ⟨x, by rw [hs₂]; exact (Function.update_of_ne hpg ..).trans hx, fun _ _ => rfl⟩

/-- In a fresh log there is space for every record. -/
theorem exists_alloc_fresh (cfg : Config) (p : VarPairT) (threadId : Fin 64) (hashKey : UInt64) (li : LastLogOffest) :
    ∃ addr logInfo s₁, (fresh cfg).allocLog threadId hashKey li p.size = .ok (addr, logInfo, s₁) := by
  have hpage : (fresh cfg).allocPage (logOf cfg threadId hashKey) p.size = 0 :=
    if_neg (Nat.not_lt.mpr p.size_le_ppageSize)
  exact ⟨_, _, _, alloc_eq (wf_fresh cfg) (by rw [hpage]; decide)⟩

/-- A value of three bytes. -/
theorem storeVar_roundTrips_short : ∃ addr logInfo s₁, (fresh oneShard).WF ∧
    (fresh oneShard).allocLog 0 5 ⟨(varRec 0 0 .insert 5 0 [97, 98, 99]).vlen, 255, 0, 0⟩
      (varRec 0 0 .insert 5 0 [97, 98, 99]).size = .ok (addr, logInfo, s₁) ∧
    ∃ s₂, s₁.storeVar addr (varRec 0 0 .insert 5 0 [97, 98, 99]) = .ok s₂ ∧
      RoundTrips s₁ s₂ addr logInfo.toUint64Offset 5 (varRec 0 0 .insert 5 0 [97, 98, 99]) := by
  have hwf := wf_fresh oneShard
  obtain ⟨addr, logInfo, s₁, halloc⟩ := exists_alloc_fresh oneShard
    (varRec 0 0 .insert 5 0 [97, 98, 99]) 0 5 ⟨(varRec 0 0 .insert 5 0 [97, 98, 99]).vlen, 255, 0, 0⟩
  exact ⟨addr, logInfo, s₁, hwf, halloc,
    (storeVar_roundTrips_iff hwf 0 0 .insert 5 0 _ halloc).mpr (by decide)⟩

/-- A string of 65536 characters. -/
def longValue : List UInt8 := List.replicate 65536 49

/-- The record of a value of 65536 bytes has no value at all, and a search returns the empty
string. -/
theorem storeVar_loses_long : ∃ addr logInfo s₁,
    (fresh oneShard).allocLog 0 5 ⟨(varRec 0 0 .insert 5 0 longValue).vlen, 255, 0, 0⟩
      (varRec 0 0 .insert 5 0 longValue).size = .ok (addr, logInfo, s₁) ∧
    ∃ s₂, s₁.storeVar addr (varRec 0 0 .insert 5 0 longValue) = .ok s₂ ∧
      s₂.getAddr (.ofAddrInfo logInfo.toUint64Offset) 5 = .ok addr ∧
      s₂.readValue addr (LastLogOffest.ofAddrInfo logInfo.toUint64Offset).vlen = .ok [] ∧
      ¬ RoundTrips s₁ s₂ addr logInfo.toUint64Offset 5 (varRec 0 0 .insert 5 0 longValue) := by
  have hlength : longValue.length = 65536 := List.length_replicate
  obtain ⟨addr, logInfo, s₁, halloc⟩ := exists_alloc_fresh oneShard
    (varRec 0 0 .insert 5 0 longValue) 0 5 ⟨(varRec 0 0 .insert 5 0 longValue).vlen, 255, 0, 0⟩
  obtain ⟨-, -, s₂, -, -, -, hstore, -, hload, haddr, hread⟩ :=
    exists_readBack (wf_fresh oneShard) 0 0 .insert 5 0 longValue halloc
  have hmod : longValue.length % 2 ^ 16 = 0 := by omega
  rw [hmod, List.take_zero] at hload hread
  refine ⟨addr, logInfo, s₁, halloc, s₂, hstore, haddr, hread, fun h => ?_⟩
  obtain ⟨r, hr, -, -, hvalue⟩ := h.load (varRec 0 0 .insert 5 0 longValue)
  obtain rfl := Except.ok.inj ((hload _).symm.trans hr)
  -- the empty string is not the value
  have hnil : longValue = [] := hvalue.symm
  rw [hnil] at hlength
  cases hlength

end LogKV

end NaliStore
