import NaliStore.Recovery

/-!
# Restart after a clean stop

A history of inserts fills the slots of each log in order (`Journal`), so after a clean
stop the scan of recovery reaches every record and the rebuilt index has exactly the
inserted keys. What it maps them to is the constant 1, which the next search takes for a
packed address: node 0, page 0, offset 1. So every search in a shard reads the same eight
bytes, one byte behind the payload of the first record that a thread of node 0 wrote
there. `recovery_restores_iff` says exactly which histories survive that.
-/

namespace NaliStore

open ByteMem Runs

variable {cfg : Config}

/-- An insert and the thread that makes it. -/
structure Insert where
  /-- `global_thread_id` -/
  threadId : Fin 64
  /-- the key -/
  key : UInt64
  /-- its payload -/
  payload : UInt64
  deriving DecidableEq

namespace Insert

/-- The call. -/
def call (c : Insert) : Call := ⟨c.threadId, .insert c.key c.payload⟩

/-- The log its record goes to. -/
def log (cfg : Config) (c : Insert) : LogId cfg := cfg.logFor c.threadId c.key

end Insert

/-- The inserts of a history whose records are in log `l`, in order. -/
def journal (l : LogId cfg) (cs : List Insert) : List Insert := cs.filter fun c => c.log cfg = l

theorem mem_journal {l : LogId cfg} {cs : List Insert} {c : Insert} :
    c ∈ journal l cs ↔ c ∈ cs ∧ c.log cfg = l := by
  rw [journal, List.mem_filter, decide_eq_true_eq]

theorem journal_append (l : LogId cfg) (cs : List Insert) (c : Insert) :
    journal l (cs ++ [c]) = journal l cs ++ if c.log cfg = l then [c] else [] := by
  rw [journal, List.filter_append, journal]
  by_cases hl : c.log cfg = l
  · simp [hl]
  · simp [hl]

/-- The log holds the records of the inserts in `cs`. -/
structure Journal (s : Logdb cfg) (cs : List Insert) : Prop where
  /-- the store invariant -/
  inv : s.Inv
  /-- every insert has its slot -/
  used : ∀ l, s.log.used l = (journal l cs).length
  /-- and its record is there -/
  record : ∀ (l : LogId cfg) (j : ℕ) (c : Insert), (journal l cs)[j]? = some c →
    ∃ version, s.log.recAt ⟨l, j⟩ = .insertRec version c.key c.payload

theorem journal_fresh (cfg : Config) : Journal (Logdb.fresh cfg) [] where
  inv := Logdb.inv_fresh cfg
  used l := LogKV.used_fresh l
  record _ _ _ h := nomatch h

namespace Journal

variable {s t : Logdb cfg} {cs : List Insert}

/-- An append of the record of an insert extends the journal. -/
theorem append (h : Journal s cs) (c : Insert) {db : Index} {version : ℕ}
    (hinv : Logdb.Inv ⟨s.log.append c.threadId c.key (.insertRec version c.key c.payload), db⟩) :
    Journal ⟨s.log.append c.threadId c.key (.insertRec version c.key c.payload), db⟩
      (cs ++ [c]) where
  inv := hinv
  used l := by
    rw [LogKV.used_append h.inv.slotted, journal_append, List.length_append, ← h.used, Insert.log]
    by_cases hl : l = cfg.logFor c.threadId c.key
    · subst hl
      rw [if_pos rfl, List.length_singleton, Function.update_self]
    · rw [if_neg (Ne.symm hl), Function.update_of_ne hl]
      exact (Nat.add_zero _).symm
  record l j d hd := by
    rw [LogKV.recAt_append h.inv.slotted]
    rw [journal_append, List.getElem?_append, ← h.used] at hd
    split at hd
    · rename_i hj
      rw [Function.update_of_ne]
      · exact h.record l j d hd
      · rintro heq
        obtain ⟨rfl, rfl⟩ := Slot.mk.inj heq
        exact lt_irrefl _ hj
    · rename_i hj
      by_cases hl : c.log cfg = l
      · subst hl
        rw [if_pos rfl, List.getElem?_singleton] at hd
        split at hd
        · rename_i hzero
          obtain rfl := Option.some_inj.mp hd
          have hslot : (⟨c.log cfg, j⟩ : Slot cfg) =
              s.log.nextSlot (cfg.logFor c.threadId c.key) := by
            refine Slot.ext rfl ?_
            have hu : s.log.used (c.log cfg) = j := by omega
            exact hu.symm
          rw [hslot, Function.update_self]
          exact ⟨version, rfl⟩
        · cases hd
      · rw [if_neg hl] at hd
        cases hd

/-- One insert extends the journal, accepted or not. -/
theorem step (h : Journal s cs) {c : Insert} {r : Ret} (hstep : s.step c.call = .ok (r, t)) :
    Journal t (cs ++ [c]) := by
  have hinv := h.inv.step hstep
  cases Logdb.step_cases h.inv.slotted hstep with
  | inserted k v _ _ => exact h.append c hinv
  | rejected k v w _ _ => exact h.append c hinv

/-- **A history of inserts leaves its journal.** -/
theorem of_exec {rets : List Ret}
    (hexec : exec Logdb.step (Logdb.fresh cfg) (cs.map Insert.call) = .ok (rets, s)) :
    Journal s cs := by
  suffices h : ∀ (cs done : List Insert) (s₀ : Logdb cfg) (rets : List Ret), Journal s₀ done →
      exec Logdb.step s₀ (cs.map Insert.call) = .ok (rets, s) → Journal s (done ++ cs) from
    h cs [] _ rets (journal_fresh cfg) hexec
  intro cs
  induction cs with
  | nil =>
    intro done s₀ rets h hexec
    obtain ⟨-, rfl⟩ := Prod.mk.inj (Except.ok.inj hexec)
    rwa [List.append_nil]
  | cons c cs ih =>
    intro done s₀ rets h hexec
    rw [List.map_cons] at hexec
    obtain ⟨r, s₁, rets', hstep, hrest⟩ := exec_cons_eq_ok hexec
    have hnext := ih (done ++ [c]) s₁ rets' (h.step hstep) hrest
    rwa [List.append_assoc] at hnext

/-- The record in a slot that was handed out. -/
theorem recAt (h : Journal s cs) {σ : Slot cfg} (hσ : s.log.Live σ) :
    ∃ c ∈ journal σ.log cs, ∃ version,
      s.log.recAt σ = .insertRec version c.key c.payload := by
  have hlt : σ.pos < (journal σ.log cs).length := by
    rw [← h.used]
    exact hσ
  obtain ⟨version, hrec⟩ := h.record σ.log σ.pos _ (List.getElem?_eq_getElem hlt)
  exact ⟨_, List.getElem_mem hlt, version, hrec⟩

/-- The scan reaches every record. -/
theorem scanned_iff (h : Journal s cs) {σ : Slot cfg} : s.log.Scanned σ ↔ s.log.Live σ := by
  refine ⟨fun hσ => hσ.live h.inv.slotted, fun hσ τ hpage hpos => ?_⟩
  have hlog : τ.log = σ.log := congrArg PageId.log hpage
  have hτ : s.log.Live τ := by
    rw [LogKV.Live, hlog]
    exact lt_of_le_of_lt hpos hσ
  obtain ⟨c, -, version, hrec⟩ := h.recAt hτ
  rw [hrec]
  rfl

/-- The scan meets exactly the inserted keys. -/
theorem exists_scanned_iff (h : Journal s cs) (k : UInt64) :
    (∃ σ, s.log.Scanned σ ∧ (s.log.recAt σ).key = k) ↔ ∃ c ∈ cs, c.key = k := by
  constructor
  · rintro ⟨σ, hσ, hk⟩
    obtain ⟨c, hc, version, hrec⟩ := h.recAt (h.scanned_iff.mp hσ)
    rw [hrec] at hk
    exact ⟨c, (mem_journal.mp hc).1, hk⟩
  · rintro ⟨c, hc, rfl⟩
    obtain ⟨j, hj⟩ := List.mem_iff_getElem?.mp (mem_journal.mpr ⟨hc, rfl⟩)
    obtain ⟨version, hrec⟩ := h.record (c.log cfg) j c hj
    refine ⟨⟨c.log cfg, j⟩, h.scanned_iff.mpr ?_, by rw [hrec]; rfl⟩
    rw [LogKV.Live, h.used]
    exact (List.getElem?_eq_some_iff.mp hj).1

end Journal

/-! ## What the index leads to -/

/-- The eight bytes one byte behind a payload that is followed by the link of an INSERT
record. -/
def offByOne (payload : UInt64) : UInt64 := (payload >>> 8) ||| 0xff00000000000000

theorem toNat_offByOne (payload : UInt64) :
    (offByOne payload).toNat = payload.toNat / 256 + 2 ^ 56 * 255 := by
  have hlt : payload.toNat < 2 ^ 64 := payload.toNat_lt
  have hshift : (payload >>> 8).toNat = payload.toNat / 256 := by
    rw [UInt64.toNat_shiftRight]
    exact Nat.shiftRight_eq_div_pow ..
  have hmask : (0xff00000000000000 : UInt64).toNat = 255 <<< 56 := rfl
  -- the two parts do not overlap
  rw [offByOne, UInt64.toNat_or, hshift, hmask, Nat.or_comm,
    ← Nat.shiftLeft_add_eq_or_of_lt (by omega), Nat.shiftLeft_eq]
  omega

/-- The payload of the first insert that a thread of node 0 made into a shard, and the
ones of an unwritten slot if there was none. -/
def firstPayload (cs : List Insert) (h : Fin cfg.shards) : UInt64 :=
  ((cs.find? fun c => c.log cfg = ⟨⟨0, numaNodeNum_pos⟩, h⟩).map Insert.payload).getD uint64Max

/-- The payload in the first slot of the first page of node 0. -/
theorem Journal.first {s : Logdb cfg} {cs : List Insert} (h : Journal s cs)
    (hash : Fin cfg.shards) :
    (s.log.recAt ⟨⟨0, hash⟩, 0⟩).value = firstPayload cs hash ∧
      (s.log.recAt ⟨⟨0, hash⟩, 0⟩).uOffset = uint64Max := by
  have hfirst : firstPayload cs hash =
      ((journal (⟨0, hash⟩ : LogId cfg) cs)[0]?.map Insert.payload).getD uint64Max := by
    rw [← List.head?_eq_getElem?, journal, List.head?_filter]
    rfl
  rw [hfirst]
  cases hc : (journal (⟨0, hash⟩ : LogId cfg) cs)[0]? with
  | some c =>
    obtain ⟨version, hrec⟩ := h.record _ 0 c hc
    rw [hrec]
    exact ⟨rfl, rfl⟩
  | none =>
    have hlive : ¬ s.log.Live ⟨⟨0, hash⟩, 0⟩ := by
      rw [LogKV.Live, h.used]
      exact Nat.not_lt.mpr (List.getElem?_eq_none_iff.mp hc)
    rw [h.inv.slotted.unwritten _ hlive]
    exact ⟨rfl, rfl⟩

namespace Logdb

/-- **After recovery every search of a key in the index reads the same place**: one byte
behind the payload in the first slot of node 0 and the shard of the key. -/
theorem Scanning.search_eq {b : LogKV cfg} {s : Logdb cfg} (h : Scanning b (fun _ => True) s)
    (hb : b.Slotted) {k : UInt64} (hk : (s.db k).isSome)
    (hlink : (b.recAt ⟨⟨0, cfg.shard k⟩, 0⟩).uOffset = uint64Max) :
    s.search k = .ok (some (offByOne (b.recAt ⟨⟨0, cfg.shard k⟩, 0⟩).value)) := by
  obtain ⟨w, hw⟩ := Option.isSome_iff_exists.mp hk
  obtain rfl := h.ones k w hw
  set pg : PageId cfg := ⟨⟨0, cfg.shard k⟩, 0⟩
  have haddr : s.log.getAddr (.ofAddrInfo 1) (cfg.xxh3 k) = .ok ⟨some pg, 1⟩ := by
    have htable := hb.wf.table ⟨0, cfg.shard k⟩ 0 (Nat.zero_le _)
    have hn : (LastLogOffest.ofAddrInfo 1).numaId.toNat = 0 := by decide
    have hp : (LastLogOffest.ofAddrInfo 1).ppageId.toNat = 0 := by decide
    have ho : (LastLogOffest.ofAddrInfo 1).logOffset.toNat = 1 := by decide
    simp only [LogKV.getAddr, h.rebuilt.startAddrArr, hn, hp, ho]
    rw [dif_pos (by decide), if_pos (by decide)]
    exact congrArg (fun x => Except.ok (⟨x, 1⟩ : Ptr cfg)) htable
  obtain ⟨m, hm⟩ := hb.wf.file ⟨0, cfg.shard k⟩ 0 (Nat.zero_le _)
  have hpage : s.log.page ⟨some pg, 1⟩ = .ok m := by
    simp only [LogKV.page, h.rebuilt.pmem, pg, hm]
  have hrec : b.recAt ⟨⟨0, cfg.shard k⟩, 0⟩ = PairT.view m 0 := by
    have hslot : (⟨⟨0, cfg.shard k⟩, 0⟩ : Slot cfg) = pg.slotAt 0 := by
      rw [PageId.slotAt, Nat.zero_mul]
    rw [hslot, LogKV.recAt, PageId.pageId_slotAt _ (by decide), PageId.off_slotAt _ (by decide),
      LogKV.bytes, hm]
    rfl
  rw [hrec] at hlink ⊢
  have hread : s.log.readPayload ⟨some pg, 1⟩ = .ok (offByOne (PairT.view m 0).value) := by
    have hvalue : load64 m 17 = offByOne (PairT.view m 0).value := by
      have hlink' : (load64 m 24).toNat = uint64Max.toNat := congrArg UInt64.toNat hlink
      apply UInt64.toNat_inj.mp
      rw [toNat_offByOne, toNat_load64_succ m 16, hlink']
      rfl
    rw [LogKV.readPayload, hpage]
    exact congrArg Except.ok hvalue
  simp only [search, hw, haddr, bind, Except.bind, hread]
  rfl

/-- A restart after a history of inserts: the keys are there, and every search reads the
bytes behind the first payload of its shard. -/
theorem recover_inserts {cs : List Insert} {rets : List Ret} {s : Logdb cfg}
    (hexec : exec step (fresh cfg) (cs.map Insert.call) = .ok (rets, s))
    {dir : Fin numaNodeNum → List (PageId cfg)} (hdir : Lists dir s.log.pmem) {n : ℕ}
    (hn : 0 < n) :
    ∃ t, recover s.log.pmem dir n = .ok t ∧ (∀ k, (t.db k).isSome ↔ ∃ c ∈ cs, c.key = k) ∧
      ∀ c ∈ cs, t.search c.key =
        .ok (some (offByOne (firstPayload cs (cfg.shard c.key)))) := by
  have hj := Journal.of_exec hexec
  have hb := hj.inv.slotted
  obtain ⟨t, ht, hscan⟩ := recover_spec hb hdir hn
  have hkeys : ∀ k, (t.db k).isSome ↔ ∃ c ∈ cs, c.key = k := by
    intro k
    rw [hscan.keys, ← hj.exists_scanned_iff]
    simp only [true_and]
  refine ⟨t, ht, hkeys, fun c hc => ?_⟩
  obtain ⟨hvalue, hlink⟩ := hj.first (cfg.shard c.key)
  rw [hscan.search_eq hb ((hkeys c.key).mpr ⟨c, hc, rfl⟩) hlink, hvalue]

/-- **What a restart restores.** After every history of inserts, by threads of either
node and over any number of pages, a clean stop and a recovery by any number of threads,
the index contains exactly the inserted keys. Searches find the inserted payloads if and
only if every payload is what stands one byte behind the first payload that a thread of
node 0 inserted into the shard of its key. -/
theorem recovery_restores_iff (cfg : Config) {cs : List Insert} {rets : List Ret} {s : Logdb cfg}
    (hexec : exec step (fresh cfg) (cs.map Insert.call) = .ok (rets, s))
    {dir : Fin numaNodeNum → List (PageId cfg)} (hdir : Lists dir s.log.pmem) {n : ℕ}
    (hn : 0 < n) :
    ∃ t, recover s.log.pmem dir n = .ok t ∧ (∀ k, (t.db k).isSome ↔ ∃ c ∈ cs, c.key = k) ∧
      ((∀ c ∈ cs, t.search c.key = .ok (some c.payload)) ↔
        ∀ c ∈ cs, c.payload = offByOne (firstPayload cs (cfg.shard c.key))) := by
  obtain ⟨t, ht, hkeys, hsearch⟩ := recover_inserts hexec hdir hn
  refine ⟨t, ht, hkeys, forall₂_congr fun c hc => ?_⟩
  rw [hsearch c hc]
  constructor
  · intro h
    exact (Option.some_inj.mp (Except.ok.inj h)).symm
  · intro h
    rw [← h]

/-- A history of one insert, cleanly stopped. -/
theorem exists_stopped (c : Insert) : ∃ (s : Logdb oneShard)
    (dir : Fin numaNodeNum → List (PageId oneShard)),
    exec step (fresh oneShard) ([c].map Insert.call) = .ok ([.bool true], s) ∧
      Lists dir s.log.pmem := by
  obtain ⟨s, hexec, hinv, -⟩ := exec_eq (fitsPages_of_length (show 1 ≤ logCapacity by decide) :
    FitsPages oneShard ([c].map Insert.call))
  obtain ⟨dir, hdir⟩ := hinv.slotted.wf.exists_lists
  exact ⟨s, dir, hexec, hdir⟩

/-- A payload of all ones survives, as it is what an off-by-one load of itself gives. -/
theorem recovery_restores_iff_ones :
    ∃ (s t : Logdb oneShard) (dir : Fin numaNodeNum → List (PageId oneShard)),
      exec step (fresh oneShard) ([⟨0, 5, uint64Max⟩].map Insert.call) =
        .ok ([.bool true], s) ∧
      Lists dir s.log.pmem ∧ recover s.log.pmem dir 3 = .ok t ∧
      t.search 5 = .ok (some uint64Max) := by
  obtain ⟨s, dir, hexec, hdir⟩ := exists_stopped ⟨0, 5, uint64Max⟩
  obtain ⟨t, ht, -, hiff⟩ := recovery_restores_iff oneShard hexec hdir (n := 3) (by decide)
  refine ⟨s, t, dir, hexec, hdir, ht, hiff.mpr ?_ ⟨0, 5, uint64Max⟩ (List.mem_singleton_self _)⟩
  intro c hc
  rw [List.mem_singleton.mp hc]
  decide

/-- Payload 1 does not. -/
theorem recovery_loses_payload :
    ¬ ∀ (cfg : Config) (cs : List Insert) (rets : List Ret) (s : Logdb cfg)
      (dir : Fin numaNodeNum → List (PageId cfg)) (n : ℕ), (cs.map Insert.key).Nodup →
      exec step (fresh cfg) (cs.map Insert.call) = .ok (rets, s) → (∀ r ∈ rets, r = .bool true) →
      Lists dir s.log.pmem → 0 < n →
      ∃ t, recover s.log.pmem dir n = .ok t ∧ (∀ k, (t.db k).isSome ↔ ∃ c ∈ cs, c.key = k) ∧
        ∀ c ∈ cs, t.search c.key = .ok (some c.payload) := by
  intro h
  obtain ⟨s, dir, hexec, hdir⟩ := exists_stopped ⟨0, 5, 1⟩
  obtain ⟨t, ht, -, hsearch⟩ := h oneShard [⟨0, 5, 1⟩] _ s dir 1 (by decide) hexec
    (fun r hr => List.mem_singleton.mp hr) hdir Nat.one_pos
  obtain ⟨t', ht', -, hsearch'⟩ := recover_inserts hexec hdir Nat.one_pos
  obtain rfl := Except.ok.inj (ht.symm.trans ht')
  have heq := (hsearch ⟨0, 5, 1⟩ (List.mem_singleton_self _)).symm.trans
    (hsearch' ⟨0, 5, 1⟩ (List.mem_singleton_self _))
  exact absurd (Option.some_inj.mp (Except.ok.inj heq)) (by decide)

end Logdb

end NaliStore
