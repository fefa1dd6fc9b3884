import NaliStore.Logdb

/-!
# Reading a fixed-size record

The 32 bytes of a record are read in three ways: `do_gc` and `recovery_logkv` look at the fields
through a `Pair_t *` (`PairT.view`), `load` copies the whole object and the fields are taken from
the copy, and `search` copies the 8 bytes at offset 16. All of them give back what `store_persist`
stored, and none of them takes a record for a blank slot: `storePersist_decodes`.
-/

namespace NaliStore

open ByteMem

namespace PairT

variable {m m' : Mem} {a b : ℕ}

/-- The record that is stored for a key: the constructor, `set_version` with a version of the
allocator, `set_op` and `set_last_log_offest`. -/
def record (oldVersion : ℕ) (o : OpT) (key value logOffset : UInt64) : PairT :=
  ((((ofKeyValue key value).setVersion oldVersion).setOp o).setLastLogOffest logOffset)

/-- `load`: the object is assigned to one at `b`, which lies in another memory. -/
def copyObject (m : Mem) (a : ℕ) (m' : Mem) (b : ℕ) : Mem := storeBytes m' b (loadBytes m a size)

/-- `memcpy(&payload, addr + 16, 8)` -/
def payloadAt (m : Mem) (a : ℕ) : UInt64 := load64 m (a + 16)

/-- The record at an address, however it is read. -/
structure Decodes (m : Mem) (a : ℕ) (p : PairT) : Prop where
  /-- through a pointer -/
  view : view m a = p
  /-- by a copy of the object -/
  copy : ∀ m' b, PairT.view (copyObject m a m' b) b = p
  /-- by its offset -/
  payload : payloadAt m a = p.value

/-- The record is in its 32 bytes. -/
theorem view_eq_of_loadBytes (h : loadBytes m a size = loadBytes m' b size) :
    PairT.view m a = PairT.view m' b := by
  have h₀ : load64 m a = load64 m' b := load64_eq_of_loadBytes h (j := 0) (by decide)
  have h₁ : load64 m (a + 8) = load64 m' (b + 8) := load64_eq_of_loadBytes h (by decide)
  have h₂ : load64 m (a + 16) = load64 m' (b + 16) := load64_eq_of_loadBytes h (by decide)
  have h₃ : load64 m (a + 24) = load64 m' (b + 24) := load64_eq_of_loadBytes h (by decide)
  rw [PairT.view, PairT.view, h₀, h₁, h₂, h₃]

/-- The three ways to read a record agree. -/
theorem decodes_view (m : Mem) (a : ℕ) : Decodes m a (PairT.view m a) where
  view := rfl
  copy m' b := by
    refine view_eq_of_loadBytes ?_
    have hcopy := loadBytes_storeBytes_same m' b (loadBytes m a size)
    rwa [length_loadBytes] at hcopy
  payload := rfl

theorem Decodes.eq {p q : PairT} (hp : Decodes m a p) (hq : Decodes m a q) : p = q :=
  hp.view.symm.trans hq.view

/-- A slot of ones decodes as `TRASH` without an older record. -/
theorem decodes_blank (h : loadBytes m a size = List.replicate size 0xff) : Decodes m a blank := by
  have hfill : loadBytes m a size = loadBytes (fill 0xff) 0 size := by
    rw [h]
    rfl
  have hview : PairT.view m a = blank := by
    rw [view_eq_of_loadBytes hfill, view_fill]
  exact hview ▸ decodes_view m a

/-- **Records round-trip and are told apart from blank space.** Whatever is in the memory before,
a stored record is decoded to what it was made of, a store of `TRASH` to its op changes nothing
else, and neither its bytes nor its op are those of a blank slot. -/
theorem storePersist_decodes (m : Mem) (a oldVersion : ℕ) {o : OpT} (ho : o ≠ .trash)
    (key value logOffset : UInt64) :
    let p := record oldVersion o key value logOffset
    let m' := storePersist m a p
    Decodes m' a p ∧
    (p.op = o ∧ p.version.toNat = (oldVersion + 1) % 2 ^ 62 ∧ p.key = key ∧ p.value = value ∧
      p.uOffset = logOffset) ∧
    Decodes (storeOp m' a .trash) a { p with op := .trash } ∧
    loadBytes m' a size ≠ List.replicate size 0xff ∧
    ∀ m₀ b q, loadBytes m₀ b size = List.replicate size 0xff → Decodes m₀ b q →
      q.op = .trash ∧ q.uOffset = uint64Max ∧ p.op ≠ q.op := by
  intro p m'
  have hp : Decodes m' a p := by
    have h := decodes_view m' a
    rwa [view_storePersist_same] at h
  have htrash : Decodes (storeOp m' a .trash) a { p with op := .trash } := by
    have h := decodes_view (storeOp m' a .trash) a
    rwa [view_storeOp_same, hp.view] at h
  refine ⟨hp, ⟨rfl, BitVec.toNat_ofNat .., rfl, rfl, rfl⟩, htrash, fun hones => ?_, ?_⟩
  · -- the op would be `TRASH`
    exact ho (congrArg PairT.op (hp.eq (decodes_blank hones)))
  · intro m₀ b q hones hq
    rw [hq.eq (decodes_blank hones)]
    exact ⟨rfl, rfl, ho⟩

/-- An UPDATE record with all other bits set, in the slot at 64. -/
theorem storePersist_decodes_update :
    OpT.update ≠ .trash ∧
    Decodes (storePersist (fill 0xff) 64 (record (2 ^ 62 - 2) .update uint64Max uint64Max uint64Max)) 64
      (record (2 ^ 62 - 2) .update uint64Max uint64Max uint64Max) :=
  ⟨by decide, (storePersist_decodes (fill 0xff) 64 (2 ^ 62 - 2) (o := .update) (by decide) uint64Max
    uint64Max uint64Max).1⟩

end PairT

/-- The log reads its records in these ways: `search` reads the payload of the record, the others
its fields. -/
theorem LogKV.read_of_decodes {cfg : Config} {s : LogKV cfg} {p : Ptr cfg} {m : Mem} {r : PairT}
    (hm : s.page p = .ok m) (h : PairT.Decodes m p.off r) :
    s.load p = .ok r ∧ s.readPayload p = .ok r.value := by
  rw [LogKV.load, readPayload, hm]
  exact ⟨congrArg Except.ok h.view, congrArg Except.ok h.payload⟩

end NaliStore
