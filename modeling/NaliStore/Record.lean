import NaliStore.Lib.ByteMem

/-!
# Log records and packed log addresses

The persistent format of `src/src/nali_kvlog.h`. A log address is packed into one
64-bit word (`last_log_offest`: 16 bits of value length, 8 of NUMA node, 8 of page
number, 32 of offset in the page); the all-ones word is the chain-end sentinel. A
fixed-size record (`Pair_t<KEY, VALUE>` with 8-byte key and value) is four words,

    | op : 2, version : 62 | key | value | last_log_offset |

so 32 bytes. `storePersist` is the 32-byte copy that makes a record durable and
`PairT.view` is what a cast of a page address to `Pair_t *` reads. The laws at the
end (a record is read back, a disjoint record is not disturbed, an op store changes
only the op) are all that most of the development knows about bytes.
-/

namespace NaliStore

open ByteMem

/-! ## Packed log addresses -/

/-- `vlen_mask` -/
def vlenMask : UInt64 := (0xffff : UInt64) <<< 48

/-- `numa_id_mask` -/
def numaIdMask : UInt64 := (0xff : UInt64) <<< 40

/-- `ppage_id_mask` -/
def ppageIdMask : UInt64 := (0xff : UInt64) <<< 32

/-- `log_offset_mask` -/
def logOffsetMask : UInt64 := 0xffffffff

/-- `UINT64_MAX`: the link of the oldest record of a chain. -/
def uint64Max : UInt64 := 0xffffffffffffffff

/-- `last_log_offest`: where a log record lies, and how long its value is. -/
@[ext] structure LastLogOffest where
  /-- value length -/
  vlen : UInt16
  /-- NUMA node of the log file -/
  numaId : UInt8
  /-- page number of the log file -/
  ppageId : UInt8
  /-- offset in the page -/
  logOffset : UInt32
  deriving DecidableEq, Repr

/-- Masking a bit field and shifting it down reads the field. -/
theorem and_mask_shiftRight (w i k : ℕ) :
    (w &&& ((2 ^ k - 1) <<< i)) >>> i = w / 2 ^ i % 2 ^ k := by
  rw [Nat.shiftRight_and_distrib, Nat.shiftLeft_shiftRight, Nat.shiftRight_eq_div_pow,
    Nat.and_two_pow_sub_one_eq_mod]

namespace LastLogOffest

/-- The constructor from a packed address. -/
def ofAddrInfo (addrInfo : UInt64) : LastLogOffest where
  vlen := ((addrInfo &&& vlenMask) >>> 48).toUInt16
  numaId := ((addrInfo &&& numaIdMask) >>> 40).toUInt8
  ppageId := ((addrInfo &&& ppageIdMask) >>> 32).toUInt8
  logOffset := (addrInfo &&& logOffsetMask).toUInt32

/-- `to_uint64_t_offset` -/
def toUint64Offset (x : LastLogOffest) : UInt64 :=
  (x.vlen.toUInt64 <<< 48) ||| (x.numaId.toUInt64 <<< 40) |||
    (x.ppageId.toUInt64 <<< 32) ||| x.logOffset.toUInt64

/-- The packed word, as a number. -/
theorem toNat_toUint64Offset (x : LastLogOffest) :
    x.toUint64Offset.toNat =
      x.vlen.toNat * 2 ^ 48 + x.numaId.toNat * 2 ^ 40 + x.ppageId.toNat * 2 ^ 32 +
        x.logOffset.toNat := by
  have hv : x.vlen.toNat < 2 ^ 16 := x.vlen.toNat_lt
  have hn : x.numaId.toNat < 2 ^ 8 := x.numaId.toNat_lt
  have hp : x.ppageId.toNat < 2 ^ 8 := x.ppageId.toNat_lt
  have ho : x.logOffset.toNat < 2 ^ 32 := x.logOffset.toNat_lt
  have e₁ : (x.vlen.toUInt64 <<< 48).toNat = x.vlen.toNat <<< 48 := by
    simp [Nat.shiftLeft_eq]
    omega
  have e₂ : (x.numaId.toUInt64 <<< 40).toNat = x.numaId.toNat <<< 40 := by
    simp [Nat.shiftLeft_eq]
    omega
  have e₃ : (x.ppageId.toUInt64 <<< 32).toNat = x.ppageId.toNat <<< 32 := by
    simp [Nat.shiftLeft_eq]
    omega
  -- the fields do not overlap, so each `|` is an addition
  rw [toUint64Offset, UInt64.toNat_or, UInt64.toNat_or, UInt64.toNat_or, e₁, e₂, e₃,
    UInt32.toNat_toUInt64, Nat.or_assoc, Nat.or_assoc, ← Nat.shiftLeft_add_eq_or_of_lt ho,
    ← Nat.shiftLeft_add_eq_or_of_lt (i := 40), ← Nat.shiftLeft_add_eq_or_of_lt (i := 48)]
  · simp only [Nat.shiftLeft_eq]
    omega
  · simp only [Nat.shiftLeft_eq]
    omega
  · simp only [Nat.shiftLeft_eq]
    omega

theorem toNat_vlen_ofAddrInfo (w : UInt64) :
    (ofAddrInfo w).vlen.toNat = w.toNat / 2 ^ 48 % 2 ^ 16 := by
  have h := and_mask_shiftRight w.toNat 48 16
  simp only [ofAddrInfo, vlenMask]
  simp at h ⊢
  rw [h, Nat.mod_mod]

theorem toNat_numaId_ofAddrInfo (w : UInt64) :
    (ofAddrInfo w).numaId.toNat = w.toNat / 2 ^ 40 % 2 ^ 8 := by
  have h := and_mask_shiftRight w.toNat 40 8
  simp only [ofAddrInfo, numaIdMask]
  simp at h ⊢
  rw [h, Nat.mod_mod]

theorem toNat_ppageId_ofAddrInfo (w : UInt64) :
    (ofAddrInfo w).ppageId.toNat = w.toNat / 2 ^ 32 % 2 ^ 8 := by
  have h := and_mask_shiftRight w.toNat 32 8
  simp only [ofAddrInfo, ppageIdMask]
  simp at h ⊢
  rw [h, Nat.mod_mod]

theorem toNat_logOffset_ofAddrInfo (w : UInt64) :
    (ofAddrInfo w).logOffset.toNat = w.toNat % 2 ^ 32 := by
  have h := and_mask_shiftRight w.toNat 0 32
  rw [Nat.shiftLeft_zero, Nat.shiftRight_zero, pow_zero, Nat.div_one] at h
  have hmask : logOffsetMask.toNat = 2 ^ 32 - 1 := rfl
  rw [ofAddrInfo, UInt64.toNat_toUInt32, UInt64.toNat_and, hmask, h, Nat.mod_mod]

/-- Unpacking a packed address gives back its fields. -/
@[simp] theorem ofAddrInfo_toUint64Offset (x : LastLogOffest) :
    ofAddrInfo x.toUint64Offset = x := by
  have hv : x.vlen.toNat < 2 ^ 16 := x.vlen.toNat_lt
  have hn : x.numaId.toNat < 2 ^ 8 := x.numaId.toNat_lt
  have hp : x.ppageId.toNat < 2 ^ 8 := x.ppageId.toNat_lt
  have ho : x.logOffset.toNat < 2 ^ 32 := x.logOffset.toNat_lt
  have hw := toNat_toUint64Offset x
  have e₁ := toNat_vlen_ofAddrInfo x.toUint64Offset
  have e₂ := toNat_numaId_ofAddrInfo x.toUint64Offset
  have e₃ := toNat_ppageId_ofAddrInfo x.toUint64Offset
  have e₄ := toNat_logOffset_ofAddrInfo x.toUint64Offset
  ext1
  · exact UInt16.toNat_inj.mp (by omega)
  · exact UInt8.toNat_inj.mp (by omega)
  · exact UInt8.toNat_inj.mp (by omega)
  · exact UInt32.toNat_inj.mp (by omega)

end LastLogOffest

/-! ## Records -/

/-- `OP_t`; `trash` is for garbage collection. -/
inductive OpT where
  /-- `INSERT` -/
  | insert
  /-- `DELETE` -/
  | delete
  /-- `UPDATE` -/
  | update
  /-- `TRASH` -/
  | trash
  deriving DecidableEq, Repr

namespace OpT

/-- The value of the enumerator. -/
def toNat : OpT → ℕ
  | insert => 0
  | delete => 1
  | update => 2
  | trash => 3

/-- The enumerator held by a two-bit field. -/
def ofBits (n : ℕ) : OpT :=
  match n % 4 with
  | 0 => insert
  | 1 => delete
  | 2 => update
  | _ => trash

theorem toNat_lt (o : OpT) : o.toNat < 4 := by
  cases o <;> decide

@[simp] theorem ofBits_toNat_add (o : OpT) (n : ℕ) : ofBits (o.toNat + 4 * n) = o := by
  rw [ofBits, Nat.add_mul_mod_self_left]
  cases o <;> rfl

end OpT

/-- `Pair_t<KEY, VALUE>` for 8-byte keys and values: one log record. -/
@[ext] structure PairT where
  /-- what the record logs -/
  op : OpT
  /-- the 62-bit version -/
  version : BitVec 62
  /-- `_key` -/
  key : UInt64
  /-- `_value` -/
  value : UInt64
  /-- `u_offset`: the packed address of the record this one supersedes -/
  uOffset : UInt64
  deriving DecidableEq, Repr

namespace PairT

/-- `set_version`: one more than the version handed out. -/
def setVersion (p : PairT) (oldVersion : ℕ) : PairT :=
  { p with version := BitVec.ofNat 62 (oldVersion + 1) }

/-- `set_op` -/
def setOp (p : PairT) (o : OpT) : PairT := { p with op := o }

/-- `set_last_log_offest` -/
def setLastLogOffest (p : PairT) (logOffset : UInt64) : PairT := { p with uOffset := logOffset }

/-- `size()` of a fixed-size record. -/
def size : ℕ := 32

/-- `vlen()` of a fixed-size record. -/
def vlen : UInt16 := 8

/-- The first word: the two bit fields. -/
def opVersion (p : PairT) : ℕ := p.op.toNat + 4 * p.version.toNat

theorem opVersion_lt (p : PairT) : p.opVersion < 2 ^ 64 := by
  have ho := p.op.toNat_lt
  have hv : p.version.toNat < 2 ^ 62 := p.version.isLt
  rw [opVersion]
  omega

/-- `store_persist`: copy the record to address `a`. -/
def storePersist (m : Mem) (a : ℕ) (p : PairT) : Mem :=
  store64 (store64 (store64 (store64 m a (UInt64.ofNat p.opVersion)) (a + 8) p.key)
    (a + 16) p.value) (a + 24) p.uOffset

/-- The record a `Pair_t *` at address `a` shows. -/
def view (m : Mem) (a : ℕ) : PairT where
  op := OpT.ofBits (load64 m a).toNat
  version := BitVec.ofNat 62 ((load64 m a).toNat / 4)
  key := load64 m (a + 8)
  value := load64 m (a + 16)
  uOffset := load64 m (a + 24)

/-- `log_->op = o`: a store to the two low bits of the first word. -/
def storeOp (m : Mem) (a : ℕ) (o : OpT) : Mem :=
  store64 m a (UInt64.ofNat (((view m a).setOp o).opVersion))

/-! ## The record laws -/

theorem ofNat_opVersion (p : PairT) : (UInt64.ofNat p.opVersion).toNat = p.opVersion := by
  rw [UInt64.toNat_ofNat']
  exact Nat.mod_eq_of_lt p.opVersion_lt

/-- The two bit fields are read back from the first word. -/
theorem fields_opVersion (p : PairT) :
    OpT.ofBits p.opVersion = p.op ∧ BitVec.ofNat 62 (p.opVersion / 4) = p.version := by
  refine ⟨OpT.ofBits_toNat_add p.op _, ?_⟩
  have hdiv : p.opVersion / 4 = p.version.toNat := by
    have := p.op.toNat_lt
    rw [opVersion]
    omega
  rw [hdiv, BitVec.ofNat_toNat, BitVec.setWidth_eq]

/-- A stored record is read back. -/
@[simp] theorem view_storePersist_same (m : Mem) (a : ℕ) (p : PairT) :
    view (storePersist m a p) a = p := by
  have h₀ : load64 (storePersist m a p) a = UInt64.ofNat p.opVersion := by
    rw [storePersist, load64_store64_disjoint _ _ (by omega), load64_store64_disjoint _ _ (by omega),
      load64_store64_disjoint _ _ (by omega), load64_store64_same]
  have h₁ : load64 (storePersist m a p) (a + 8) = p.key := by
    rw [storePersist, load64_store64_disjoint _ _ (by omega), load64_store64_disjoint _ _ (by omega),
      load64_store64_same]
  have h₂ : load64 (storePersist m a p) (a + 16) = p.value := by
    rw [storePersist, load64_store64_disjoint _ _ (by omega), load64_store64_same]
  have h₃ : load64 (storePersist m a p) (a + 24) = p.uOffset := by
    rw [storePersist, load64_store64_same]
  obtain ⟨hop, hver⟩ := p.fields_opVersion
  ext1
  · rw [view, h₀, ofNat_opVersion, hop]
  · rw [view, h₀, ofNat_opVersion, hver]
  · exact h₁
  · exact h₂
  · exact h₃

/-- The view depends only on the 32 bytes of the record. -/
theorem view_congr {m m' : Mem} {a : ℕ} (h : ∀ i, a ≤ i → i < a + 32 → m i = m' i) :
    view m a = view m' a := by
  have hword : ∀ j, j + 8 ≤ 32 → load64 m (a + j) = load64 m' (a + j) := by
    intro j hj
    rw [load64, load64, load_congr fun i hlo hhi => h i (by omega) (by omega)]
  have h₀ := hword 0 (by omega)
  rw [Nat.add_zero] at h₀
  rw [view, view, h₀, hword 8 (by omega), hword 16 (by omega), hword 24 (by omega)]

theorem storePersist_apply_of_disjoint (m : Mem) {a i : ℕ} (p : PairT)
    (h : i < a ∨ a + 32 ≤ i) : storePersist m a p i = m i := by
  simp only [storePersist, store64, store]
  rw [if_neg (by omega), if_neg (by omega), if_neg (by omega), if_neg (by omega)]

/-- Storing a record does not disturb a disjoint one. -/
theorem view_storePersist_disjoint (m : Mem) {a b : ℕ} (p : PairT)
    (h : b + 32 ≤ a ∨ a + 32 ≤ b) : view (storePersist m a p) b = view m b :=
  view_congr fun _ _ _ => storePersist_apply_of_disjoint m p (by omega)

/-- An op store changes the op and nothing else of the record. -/
@[simp] theorem view_storeOp_same (m : Mem) (a : ℕ) (o : OpT) :
    view (storeOp m a o) a = (view m a).setOp o := by
  obtain ⟨hop, hver⟩ := ((view m a).setOp o).fields_opVersion
  have h₀ : load64 (storeOp m a o) a = UInt64.ofNat ((view m a).setOp o).opVersion := by
    rw [storeOp, load64_store64_same]
  have hrest : ∀ j, 8 ≤ j → load64 (storeOp m a o) (a + j) = load64 m (a + j) := by
    intro j hj
    rw [storeOp, load64_store64_disjoint _ _ (by omega)]
  ext1
  · rw [view, h₀, ofNat_opVersion, hop]
  · rw [view, h₀, ofNat_opVersion, hver]
  · exact hrest 8 (by omega)
  · exact hrest 16 (by omega)
  · exact hrest 24 (by omega)

/-- An op store does not disturb a disjoint record. -/
theorem view_storeOp_disjoint (m : Mem) {a b : ℕ} (o : OpT)
    (h : b + 32 ≤ a ∨ a + 32 ≤ b) : view (storeOp m a o) b = view m b := by
  refine view_congr fun i hlo hhi => ?_
  rw [storeOp, store64, store, if_neg (by omega)]

end PairT

end NaliStore
