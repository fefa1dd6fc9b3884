import NaliStore.Restore

/-!
# A crash in the middle of a record

`store_persist` copies four words, and the processor may write them back to persistent
memory one by one, in any order. An insert cut short leaves a slot that holds some words
of its record and ones for the others. Recovery takes a slot for a record by the op bits
in its first word alone, so as soon as that word is durable the slot counts: with the key
it shows, whatever the other words are. `no_phantom_keys_iff` says for which words that
goes well.
-/

namespace NaliStore

open ByteMem Runs

variable {cfg : Config}

/-! ## Records stored word by word -/

namespace PairT

/-- The four words of a record. -/
def word (r : PairT) : Fin 4 → UInt64
  | 0 => UInt64.ofNat r.opVersion
  | 1 => r.key
  | 2 => r.value
  | 3 => r.uOffset

/-- The memory after some words of a record have become durable, in the order given. -/
def storeWords (m : Mem) (a : ℕ) (r : PairT) (ws : List (Fin 4)) : Mem :=
  ws.foldl (fun m (i : Fin 4) => store64 m (a + 8 * i) (r.word i)) m

/-- All four words together are the record. -/
theorem storeWords_all (m : Mem) (a : ℕ) (r : PairT) :
    storeWords m a r [0, 1, 2, 3] = storePersist m a r := rfl

theorem storeWords_apply_of_disjoint {a i : ℕ} (r : PairT) (h : i < a ∨ a + 32 ≤ i)
    (ws : List (Fin 4)) (m : Mem) : storeWords m a r ws i = m i := by
  induction ws generalizing m with
  | nil => rfl
  | cons w ws ih =>
    have hw := w.isLt
    have hword : store64 m (a + 8 * w) (r.word w) i = m i := if_neg (by omega)
    exact (ih _).trans hword

/-- Each word is the new one if it is durable. -/
theorem load64_storeWords (a : ℕ) (r : PairT) (j : Fin 4) (ws : List (Fin 4)) (m : Mem) :
    load64 (storeWords m a r ws) (a + 8 * j) =
      if j ∈ ws then r.word j else load64 m (a + 8 * j) := by
  induction ws generalizing m with
  | nil => rfl
  | cons w ws ih =>
    have hcons : storeWords m a r (w :: ws) =
      storeWords (store64 m (a + 8 * w) (r.word w)) a r ws := rfl
    rw [hcons, ih]
    by_cases hj : j ∈ ws
    · rw [if_pos hj, if_pos (List.mem_cons_of_mem _ hj)]
    · rw [if_neg hj]
      by_cases hw : j = w
      · subst hw
        rw [load64_store64_same, if_pos (List.mem_cons_self ..)]
      · have hne : (j : ℕ) ≠ w := fun hc => hw (Fin.ext hc)
        rw [load64_store64_disjoint _ _ (by omega), if_neg]
        rintro hc
        rcases List.mem_cons.mp hc with hc | hc
        · exact hw hc
        · exact hj hc

/-- The key a slot shows after some words of a record have been written over ones. -/
def shownKey (r : PairT) (ws : List (Fin 4)) : UInt64 := if 1 ∈ ws then r.key else uint64Max

/-- Every word of the record is in the slot: it has become durable, or it is the word of
ones that was there before. -/
def Whole (r : PairT) (ws : List (Fin 4)) : Prop := ∀ i, i ∈ ws ∨ r.word i = uint64Max

instance (r : PairT) (ws : List (Fin 4)) : Decidable (r.Whole ws) :=
  inferInstanceAs (Decidable (∀ _, _))

theorem view_op (m : Mem) (a : ℕ) : (view m a).op = OpT.ofBits (load64 m a).toNat := by
  rw [view]

theorem view_key (m : Mem) (a : ℕ) : (view m a).key = load64 m (a + 8) := by
  rw [view]

/-- **What a slot of ones shows** once some words of an INSERT record are durable. -/
theorem view_storeWords {m : Mem} {a : ℕ} (hblank : view m a = blank) {r : PairT}
    (hop : r.op = .insert) (ws : List (Fin 4)) :
    (view (storeWords m a r ws) a).op = (if 0 ∈ ws then .insert else .trash) ∧
      (view (storeWords m a r ws) a).key = r.shownKey ws := by
  have h₀ := load64_storeWords a r 0 ws m
  have h₁ := load64_storeWords a r 1 ws m
  simp only [Fin.val_zero, Fin.val_one, Nat.mul_zero, Nat.mul_one, Nat.add_zero] at h₀ h₁
  constructor
  · rw [view_op, h₀]
    split
    · rw [word, ofNat_opVersion, r.fields_opVersion.1, hop]
    · rw [← view_op, hblank, blank]
  · rw [view_key, h₁, ← view_key, hblank]
    rfl

/-- A record that is in the slot as a whole shows its key. -/
theorem shownKey_of_whole {r : PairT} {ws : List (Fin 4)} (h : r.Whole ws) :
    r.shownKey ws = r.key := by
  rw [shownKey]
  split
  · rfl
  · exact ((h 1).resolve_left ‹_›).symm

end PairT

/-! ## An insert cut short -/

namespace LogKV

/-- `store_persist` at an address, of which the words `ws` became durable. -/
def storeWords (s : LogKV cfg) (p : Ptr cfg) (r : PairT) (ws : List (Fin 4)) :
    Except Fault (LogKV cfg) :=
  match p.base with
  | none => .error .segv
  | some pg =>
    match s.pmem pg with
    | none => .error .segv
    | some m => .ok (s.setPage pg (PairT.storeWords m p.off r ws))

/-- `LogKV::insert` up to a crash during its `store_persist`. -/
def insertCut (s : LogKV cfg) (c : Insert) (ws : List (Fin 4)) : Except Fault (LogKV cfg) := do
  let p := PairT.ofKeyValue c.key c.payload
  let (version, s) := s.getVersion (cfg.xxh3 c.key)
  let p := (p.setVersion version).setOp .insert
  let (logAddr, _, s) ← s.allocLog c.threadId (cfg.xxh3 c.key) ⟨PairT.vlen, 255, 0, 0⟩ PairT.size
  s.storeWords logAddr p ws

variable {s b : LogKV cfg} {c : Insert} {ws : List (Fin 4)}

/-- The record the insert was writing. -/
def cutRec (s : LogKV cfg) (c : Insert) : PairT := .insertRec (s.versionFor c.key) c.key c.payload

/-- Inversion of an insert that got to its `store_persist`. -/
theorem Slotted.insertCut_inv (h : s.Slotted) (hcut : s.insertCut c ws = .ok b) :
    s.Room c.threadId c.key ∧ b = (s.reserve c.threadId c.key).setPage
      (s.nextSlot (c.log cfg)).pageId (PairT.storeWords
        ((s.reserve c.threadId c.key).bytes (s.nextSlot (c.log cfg)).pageId)
        (s.nextSlot (c.log cfg)).off (s.cutRec c) ws) := by
  simp only [insertCut, getVersion_eq, h.allocLog_eq] at hcut
  split at hcut
  · rename_i hroom
    have hlive := live_nextSlot_reserve h c.threadId c.key
    have hmem := (h.reserve hroom).pmem_eq hlive
    simp only [bind, Except.bind, storeWords, Slot.ptr, hmem] at hcut
    exact ⟨hroom, (Except.ok.inj hcut).symm⟩
  · cases hcut

/-- The slots of the state a cut insert leaves: one more, and all the others as before. -/
structure Cut (s : LogKV cfg) (c : Insert) (ws : List (Fin 4)) (b : LogKV cfg) : Prop where
  /-- the slot invariant -/
  slotted : b.Slotted
  /-- the slot of the insert has been handed out -/
  live : ∀ σ, b.Live σ ↔ s.Live σ ∨ σ = s.nextSlot (c.log cfg)
  /-- the records are there -/
  recAt : ∀ σ, σ ≠ s.nextSlot (c.log cfg) → b.recAt σ = s.recAt σ
  /-- the slot counts as a record if the first word is durable -/
  op : (b.recAt (s.nextSlot (c.log cfg))).op = if 0 ∈ ws then .insert else .trash
  /-- and shows a key -/
  key : (b.recAt (s.nextSlot (c.log cfg))).key = (s.cutRec c).shownKey ws

/-- **An insert cut short** leaves the records and a slot with some words of its own. -/
theorem Slotted.cut (h : s.Slotted) (hcut : s.insertCut c ws = .ok b) : Cut s c ws b := by
  obtain ⟨hroom, rfl⟩ := h.insertCut_inv hcut
  set σ := s.nextSlot (c.log cfg)
  set u := s.reserve c.threadId c.key
  have hu : u.Slotted := h.reserve hroom
  have hσ : u.Live σ := live_nextSlot_reserve h c.threadId c.key
  have hblank : PairT.view (u.bytes σ.pageId) σ.off = PairT.blank := by
    have hrec : u.recAt σ = s.recAt σ := by rw [recAt_reserve h]
    exact hrec.trans (h.unwritten σ nextSlot_not_live)
  have hself : ∀ m, (u.setPage σ.pageId m).recAt σ = PairT.view m σ.off := by
    intro m
    rw [LogKV.recAt, bytes_setPage, if_pos rfl]
  -- a slot of the same page is apart from the words that were written
  have hother : ∀ τ, τ ≠ σ → (u.setPage σ.pageId (PairT.storeWords (u.bytes σ.pageId) σ.off
      (s.cutRec c) ws)).recAt τ = s.recAt τ := by
    intro τ hτ
    have hreserve : u.recAt = s.recAt := recAt_reserve h
    rw [← hreserve, LogKV.recAt, bytes_setPage]
    split
    · rename_i hpage
      have hdisj := Slot.disjoint_of_ne hpage hτ
      rw [LogKV.recAt, hpage]
      exact PairT.view_congr fun i hlo hhi =>
        PairT.storeWords_apply_of_disjoint _ (by omega) ws _
    · rfl
  obtain ⟨hop, hkey⟩ := PairT.view_storeWords hblank (r := s.cutRec c) rfl ws
  refine ⟨⟨hu.wf.setPage (hu.page_le hσ), hu.dvd, fun τ hτ => ?_⟩, fun τ => live_reserve h,
    hother, ?_, ?_⟩
  · have hne : τ ≠ σ := by
      rintro rfl
      exact hτ hσ
    rw [hother τ hne]
    exact h.unwritten τ fun hc => hτ ((live_reserve h).mpr (.inl hc))
  · rw [hself, hop]
  · rw [hself, hkey]

end LogKV

/-! ## What recovery makes of it -/

section Recovery

variable {s : Logdb cfg} {cs : List Insert} {c : Insert} {ws : List (Fin 4)} {b : LogKV cfg}

/-- The scan reaches the records, and the cut slot if its first word is durable. -/
theorem Journal.scanned_cut_iff (hj : Journal s cs) (hcut : s.log.Cut c ws b) {σ : Slot cfg} :
    b.Scanned σ ↔ s.log.Live σ ∨ σ = s.log.nextSlot (c.log cfg) ∧ 0 ∈ ws := by
  have hold : ∀ τ, s.log.Live τ → (b.recAt τ).op = .insert := by
    intro τ hτ
    have hne : τ ≠ s.log.nextSlot (c.log cfg) := by
      rintro rfl
      exact LogKV.nextSlot_not_live hτ
    rw [hcut.recAt τ hne]
    exact hj.scanned_iff.mpr hτ τ rfl (le_refl _)
  have hnew : (b.recAt (s.log.nextSlot (c.log cfg))).op = .insert ↔ 0 ∈ ws := by
    rw [hcut.op]
    split
    · exact iff_of_true rfl ‹_›
    · exact iff_of_false (by decide) ‹_›
  constructor
  · intro hσ
    refine ((hcut.live σ).mp (hσ.live hcut.slotted)).imp id fun heq => ⟨heq, ?_⟩
    subst heq
    exact hnew.mp (hσ _ rfl (le_refl _))
  · intro hσ τ hpage hpos
    have hlog : τ.log = σ.log := congrArg PageId.log hpage
    rcases hσ with hσ | ⟨rfl, hw⟩
    · refine hold τ ?_
      rw [LogKV.Live, hlog]
      exact lt_of_le_of_lt hpos hσ
    · -- the cut slot is the last of its log
      rcases Nat.eq_or_lt_of_le hpos with heq | hlt
      · rw [Slot.ext hlog heq]
        exact hnew.mpr hw
      · refine hold τ ?_
        rw [LogKV.Live, hlog]
        exact hlt

/-- The keys recovery finds: those of the history, and the one the cut slot shows. -/
theorem Journal.exists_scanned_cut_iff (hj : Journal s cs) (hcut : s.log.Cut c ws b) (k : UInt64) :
    (∃ σ, b.Scanned σ ∧ (b.recAt σ).key = k) ↔
      (∃ d ∈ cs, d.key = k) ∨ 0 ∈ ws ∧ (s.log.cutRec c).shownKey ws = k := by
  rw [← hj.exists_scanned_iff]
  constructor
  · rintro ⟨σ, hσ, hk⟩
    rcases (hj.scanned_cut_iff hcut).mp hσ with hlive | ⟨rfl, hw⟩
    · refine .inl ⟨σ, hj.scanned_iff.mpr hlive, ?_⟩
      rw [← hk, hcut.recAt]
      rintro rfl
      exact LogKV.nextSlot_not_live hlive
    · exact .inr ⟨hw, hcut.key ▸ hk⟩
  · rintro (⟨σ, hσ, hk⟩ | ⟨hw, hk⟩)
    · have hlive := hj.scanned_iff.mp hσ
      refine ⟨σ, (hj.scanned_cut_iff hcut).mpr (.inl hlive), ?_⟩
      rw [← hk, hcut.recAt]
      rintro rfl
      exact LogKV.nextSlot_not_live hlive
    · exact ⟨_, (hj.scanned_cut_iff hcut).mpr (.inr ⟨rfl, hw⟩), hcut.key.trans hk⟩

/-- The rebuilt index has no key but those of the history, and the key of the cut insert
only if its whole record is in its slot. -/
def NoPhantom (s : Logdb cfg) (cs : List Insert) (c : Insert) (ws : List (Fin 4))
    (t : Logdb cfg) : Prop :=
  ∀ k, (t.db k).isSome → (∃ d ∈ cs, d.key = k) ∨ k = c.key ∧ (s.log.cutRec c).Whole ws

/-- **When a torn record does no harm.** For every history of inserts, every insert after
it that is cut by a crash with any of its words durable, in any order, and every number of
recovery threads: recovery returns, and its index has no phantom key if and only if the
first word is not durable, or the whole record is in the slot, or the key that the slot
shows was inserted before. -/
theorem no_phantom_keys_iff (cfg : Config) {s : Logdb cfg} {cs : List Insert} {rets : List Ret}
    (hexec : exec Logdb.step (Logdb.fresh cfg) (cs.map Insert.call) = .ok (rets, s))
    {c : Insert} {ws : List (Fin 4)} {b : LogKV cfg} (hcut : s.log.insertCut c ws = .ok b)
    {dir : Fin numaNodeNum → List (PageId cfg)} (hdir : Lists dir b.pmem) {n : ℕ} (hn : 0 < n) :
    ∃ t, Logdb.recover b.pmem dir n = .ok t ∧ (NoPhantom s cs c ws t ↔
      0 ∉ ws ∨ (s.log.cutRec c).Whole ws ∨ ∃ d ∈ cs, d.key = (s.log.cutRec c).shownKey ws) := by
  have hj := Journal.of_exec hexec
  have hb := hj.inv.slotted.cut hcut
  obtain ⟨t, ht, hscan⟩ := Logdb.recover_spec hb.slotted hdir hn
  have hkeys : ∀ k, (t.db k).isSome ↔
      (∃ d ∈ cs, d.key = k) ∨ 0 ∈ ws ∧ (s.log.cutRec c).shownKey ws = k := by
    intro k
    rw [hscan.keys, ← hj.exists_scanned_cut_iff hb]
    simp only [true_and]
  refine ⟨t, ht, ?_⟩
  constructor
  · intro h
    by_cases hw : 0 ∈ ws
    · rcases h _ ((hkeys _).mpr (.inr ⟨hw, rfl⟩)) with hd | ⟨-, hwhole⟩
      · exact .inr (.inr hd)
      · exact .inr (.inl hwhole)
    · exact .inl hw
  · intro h k hk
    rcases (hkeys k).mp hk with hd | ⟨hw, rfl⟩
    · exact .inl hd
    · rcases h with hnot | hwhole | hd
      · exact absurd hw hnot
      · exact .inr ⟨PairT.shownKey_of_whole hwhole, hwhole⟩
      · exact .inl hd

end Recovery

/-- An insert with room in its log gets to its `store_persist`. -/
theorem LogKV.Slotted.exists_insertCut {s : LogKV cfg} (h : s.Slotted) {c : Insert}
    (hroom : s.Room c.threadId c.key) (ws : List (Fin 4)) : ∃ b, s.insertCut c ws = .ok b := by
  have hmem := (h.reserve hroom).pmem_eq (live_nextSlot_reserve h c.threadId c.key)
  simp only [insertCut, getVersion_eq, h.allocLog_eq, if_pos hroom, bind, Except.bind,
    LogKV.storeWords, Slot.ptr, hmem]
  exact ⟨_, rfl⟩

/-- A first insert cut short, and a listing of the page files it leaves. -/
theorem exists_first_cut (c : Insert) (ws : List (Fin 4)) : ∃ (b : LogKV oneShard)
    (dir : Fin numaNodeNum → List (PageId oneShard)),
    (Logdb.fresh oneShard).log.insertCut c ws = .ok b ∧ Lists dir b.pmem := by
  have hs := (Logdb.inv_fresh oneShard).slotted
  have hroom : (Logdb.fresh oneShard).log.Room c.threadId c.key := by
    have h0 : (Logdb.fresh oneShard).log.used (oneShard.logFor c.threadId c.key) = 0 :=
      LogKV.used_fresh _
    rw [LogKV.Room, h0]
    decide
  obtain ⟨b, hb⟩ := hs.exists_insertCut hroom ws
  obtain ⟨dir, hdir⟩ := (hs.cut hb).slotted.wf.exists_lists
  exact ⟨b, dir, hb, hdir⟩

/-- Key, payload and then the first word: the link of an insert is all ones anyway. -/
theorem no_phantom_keys_iff_three_words :
    ∃ (b : LogKV oneShard) (t : Logdb oneShard) (dir : Fin numaNodeNum → List (PageId oneShard)),
      (Logdb.fresh oneShard).log.insertCut ⟨0, 5, 1⟩ [1, 2, 0] = .ok b ∧
      Logdb.recover b.pmem dir 2 = .ok t ∧
      NoPhantom (Logdb.fresh oneShard) [] ⟨0, 5, 1⟩ [1, 2, 0] t := by
  obtain ⟨b, dir, hb, hdir⟩ := exists_first_cut ⟨0, 5, 1⟩ [1, 2, 0]
  have hexec : exec Logdb.step (Logdb.fresh oneShard) (([] : List Insert).map Insert.call) =
    .ok ([], Logdb.fresh oneShard) := rfl
  obtain ⟨t, ht, hiff⟩ := no_phantom_keys_iff oneShard hexec hb hdir Nat.two_pos
  refine ⟨b, t, dir, hb, ht, hiff.mpr (.inr (.inl fun i => ?_))⟩
  match i with
  | 0 => exact .inl (by decide)
  | 1 => exact .inl (by decide)
  | 2 => exact .inl (by decide)
  | 3 => exact .inr rfl

/-- The first word alone: recovery finds the key of all ones, which nobody inserted. -/
theorem torn_record_gives_phantom_key :
    ¬ ∀ (cfg : Config) (s : Logdb cfg) (cs : List Insert) (rets : List Ret) (c : Insert)
      (ws : List (Fin 4)) (b : LogKV cfg) (dir : Fin numaNodeNum → List (PageId cfg)) (n : ℕ),
      exec Logdb.step (Logdb.fresh cfg) (cs.map Insert.call) = .ok (rets, s) →
      s.log.insertCut c ws = .ok b → Lists dir b.pmem → 0 < n →
      ∃ t, Logdb.recover b.pmem dir n = .ok t ∧ NoPhantom s cs c ws t := by
  intro hall
  obtain ⟨b, dir, hb, hdir⟩ := exists_first_cut ⟨0, 5, 1⟩ [0]
  obtain ⟨t, ht, hno⟩ := hall oneShard _ [] [] ⟨0, 5, 1⟩ [0] b dir 1 rfl hb hdir Nat.one_pos
  have hj := journal_fresh oneShard
  have hcut := hj.inv.slotted.cut hb
  obtain ⟨t', ht', hscan⟩ := Logdb.recover_spec hcut.slotted hdir Nat.one_pos
  obtain rfl := Except.ok.inj (ht.symm.trans ht')
  have hkey : (t.db uint64Max).isSome := by
    rw [hscan.keys]
    simp only [true_and]
    exact (hj.exists_scanned_cut_iff hcut uint64Max).mpr (.inr ⟨by decide, rfl⟩)
  rcases hno uint64Max hkey with ⟨d, hd, -⟩ | ⟨heq, -⟩
  · cases hd
  · exact absurd heq (by decide)

end NaliStore
