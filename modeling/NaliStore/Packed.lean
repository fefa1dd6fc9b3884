import NaliStore.Regions

/-!
# Packed addresses

The word that `last_log_offest` packs an address into is payload of the index, link between
records and sentinel at once. Packing and unpacking are inverse to each other, on every value
and on every word.

What `PPage::alloc` hands out is a word for every record, and the bits of node, page and
offset name the place of the record in its shard as long as the page numbers fit into eight
bits. The table of page addresses has room for 32 pages of a log; a write behind it is not
looked at here, since no packed address depends on it (`PPage.alloc`).
-/

namespace NaliStore

open Runs

variable {cfg : Config}

namespace LastLogOffest

/-- Packing the fields of a word gives back the word. -/
theorem toUint64Offset_ofAddrInfo (w : UInt64) : (ofAddrInfo w).toUint64Offset = w := by
  have hlt : w.toNat < 2 ^ 64 := w.toNat_lt
  have hvlen := toNat_vlen_ofAddrInfo w
  have hnuma := toNat_numaId_ofAddrInfo w
  have hpage := toNat_ppageId_ofAddrInfo w
  have hoffset := toNat_logOffset_ofAddrInfo w
  apply UInt64.toNat_inj.mp
  rw [toNat_toUint64Offset]
  omega

end LastLogOffest

/-- The bits of node, page and offset of a packed address. -/
def placeBits (w : UInt64) : UInt64 := w &&& (numaIdMask ||| ppageIdMask ||| logOffsetMask)

theorem toNat_placeBits (w : UInt64) : (placeBits w).toNat = w.toNat % 2 ^ 48 := by
  have hmask : (numaIdMask ||| ppageIdMask ||| logOffsetMask).toNat = 2 ^ 48 - 1 := by decide
  rw [placeBits, UInt64.toNat_and, hmask, Nat.and_two_pow_sub_one_eq_mod]

/-! ## Runs -/

/-- The headers of the logs, and the packed addresses that have been handed out with the log of
each, oldest first. -/
structure PackedRun (cfg : Config) where
  /-- the headers -/
  ppage : LogId cfg → PPage cfg
  /-- the addresses -/
  packed : List (LogId cfg × UInt64)

namespace PackedRun

/-- One call of `PPage::alloc`. -/
def step (s : PackedRun cfg) (c : PPageCall cfg) : Except Fault (PackedRun cfg) :=
  let (logInfo, p) := (s.ppage c.log).alloc c.log c.logInfo c.size
  .ok ⟨Function.update s.ppage c.log p, s.packed ++ [(c.log, logInfo.toUint64Offset)]⟩

/-- Fresh `PPage`s, each with an empty page 0. -/
def fresh (cfg : Config) : PackedRun cfg := ⟨(LogKV.fresh cfg).ppage, []⟩

/-- The call asks for some bytes that fit into a page, as those of a record do, and the page
number stays below 256. -/
def Allowed (s : PackedRun cfg) (c : PPageCall cfg) : Prop :=
  c.Sized ∧ ((s.ppage c.log).alloc c.log c.logInfo c.size).2.ppageId < 256

/-- The place of a packed address is in front of where its log goes on. -/
def Behind (s : PackedRun cfg) (a : LogId cfg × UInt64) : Prop :=
  ∃ vlen page off : ℕ, a.2.toNat = vlen * 2 ^ 48 + a.1.numa * 2 ^ 40 + page * 2 ^ 32 + off ∧
    page < 256 ∧ off < ppageSize ∧ (page < (s.ppage a.1).ppageId ∨
      page = (s.ppage a.1).ppageId ∧ off < (s.ppage a.1).szAllocated)

/-- The addresses name different places of their shard. -/
def Apart (a b : LogId cfg × UInt64) : Prop :=
  a.1.hash = b.1.hash → placeBits a.2 ≠ placeBits b.2

/-- The invariant of a run. -/
structure Inv (s : PackedRun cfg) : Prop where
  /-- page numbers fit into eight bits -/
  page : ∀ l, (s.ppage l).ppageId < 256
  /-- the append position is in the page -/
  size : ∀ l, (s.ppage l).szAllocated ≤ ppageSize
  /-- addresses lie behind -/
  behind : ∀ a ∈ s.packed, s.Behind a
  /-- and are apart -/
  apart : s.packed.Pairwise Apart

theorem inv_fresh (cfg : Config) : (fresh cfg).Inv where
  page _ := Nat.zero_lt_succ 255
  size _ := Nat.zero_le _
  behind _ h := absurd h List.not_mem_nil
  apart := .nil

/-- The word of an address whose page number fits into eight bits. -/
theorem toNat_packed (logInfo : LastLogOffest) (l : LogId cfg) {page off : ℕ} (hpage : page < 256)
    (hoff : off < 2 ^ 32) :
    ({ logInfo with
      numaId := UInt8.ofNat l.numa
      ppageId := UInt8.ofNat page
      logOffset := UInt32.ofNat off } : LastLogOffest).toUint64Offset.toNat =
      logInfo.vlen.toNat * 2 ^ 48 + l.numa * 2 ^ 40 + page * 2 ^ 32 + off := by
  have hnuma : l.numa.val < 2 := l.numa.isLt
  have hn : (UInt8.ofNat l.numa).toNat = l.numa := UInt8.toNat_ofNat_of_lt' (hnuma.trans (by decide))
  have hp : (UInt8.ofNat page).toNat = page := UInt8.toNat_ofNat_of_lt' hpage
  have ho : (UInt32.ofNat off).toNat = off := UInt32.toNat_ofNat_of_lt' hoff
  rw [LastLogOffest.toNat_toUint64Offset, hn, hp, ho]

/-- The place a call is given: behind the others of its page, or at the start of the next. -/
structure Placed (p p' : PPage cfg) (l : LogId cfg) (w : UInt64) (n page off : ℕ) : Prop where
  /-- the address that is packed -/
  packed : ∃ vlen, w.toNat = vlen * 2 ^ 48 + l.numa * 2 ^ 40 + page * 2 ^ 32 + off
  /-- the page of the header -/
  ppageId : p'.ppageId = page
  /-- the append position of the header -/
  szAllocated : p'.szAllocated = off + n
  /-- the record is in the page -/
  le : off + n ≤ ppageSize
  /-- where it is -/
  place : p.ppageId < page ∨ page = p.ppageId ∧ off = p.szAllocated

theorem exists_placed {p : PPage cfg} (hpage : p.ppageId < 256) (hsz : p.szAllocated ≤ ppageSize)
    (l : LogId cfg) (logInfo : LastLogOffest) {n : ℕ} (hn : n ≤ ppageSize)
    (hfit : (p.alloc l logInfo n).2.ppageId < 256) :
    ∃ page off, Placed p (p.alloc l logInfo n).2 l (p.alloc l logInfo n).1.toUint64Offset n page off := by
  have hlt : p.szAllocated < 2 ^ 32 := lt_of_le_of_lt hsz (by decide)
  by_cases hroll : ppageSize - p.szAllocated < n
  · rw [PPage.alloc_of_lt hsz hroll (by omega)] at hfit ⊢
    exact ⟨p.ppageId + 1, 0, ⟨_, toNat_packed logInfo l hfit (by decide)⟩, rfl,
      (Nat.zero_add n).symm, (Nat.zero_add n).le.trans hn, .inl (Nat.lt_succ_self _)⟩
  · rw [PPage.alloc_of_le hsz (Nat.le_of_not_lt hroll)] at hfit ⊢
    exact ⟨p.ppageId, p.szAllocated, ⟨_, toNat_packed logInfo l hpage hlt⟩, rfl, rfl, by omega,
      .inr ⟨rfl, rfl⟩⟩

/-- An address that was handed out before is not at the place of the next one. -/
theorem apart_of_placed {s : PackedRun cfg} {a : LogId cfg × UInt64} {l : LogId cfg} {w : UInt64}
    {p' : PPage cfg} {n page off : ℕ} (hbehind : s.Behind a)
    (hplaced : Placed (s.ppage l) p' l w n page off) (hpage : page < 256) (hn : 1 ≤ n) :
    Apart a (l, w) := by
  intro hhash heq
  obtain ⟨vlen, page', off', ha, hpage', hoff', hpos⟩ := hbehind
  obtain ⟨vlen', hw⟩ := hplaced.packed
  have hle := hplaced.le
  have hnuma : a.1.numa.val < 2 := a.1.numa.isLt
  have hnuma' : l.numa.val < 2 := l.numa.isLt
  have hbits := congrArg UInt64.toNat heq
  simp only [toNat_placeBits, ha, hw] at hbits
  rw [ppageSize_eq] at hle hoff'
  have hsame : a.1.numa.val = l.numa.val ∧ page' = page ∧ off' = off := by omega
  have hlog : a.1 = l := LogId.ext (Fin.ext hsame.1) hhash
  rw [hlog] at hpos
  rcases hplaced.place with hlt | ⟨rfl, rfl⟩ <;> omega

/-- **Every call keeps the invariant.** -/
theorem Inv.step {s t : PackedRun cfg} (h : s.Inv) {c : PPageCall cfg} (hallowed : s.Allowed c)
    (hstep : s.step c = .ok t) : t.Inv := by
  obtain ⟨hsized, hfit⟩ := hallowed
  obtain ⟨page, off, hplaced⟩ := exists_placed (h.page c.log) (h.size c.log) c.log c.logInfo hsized.2 hfit
  have ht : t = ⟨Function.update s.ppage c.log ((s.ppage c.log).alloc c.log c.logInfo c.size).2,
      s.packed ++ [(c.log, ((s.ppage c.log).alloc c.log c.logInfo c.size).1.toUint64Offset)]⟩ :=
    (Except.ok.inj hstep).symm
  generalize (s.ppage c.log).alloc c.log c.logInfo c.size = r at hfit hplaced ht
  subst ht
  have hpage : page < 256 := hplaced.ppageId ▸ hfit
  have hle := hplaced.le
  have hpos := hsized.1
  refine ⟨fun l => ?_, fun l => ?_, fun a ha => ?_, ?_⟩
  · by_cases hl : l = c.log
    · simp only [hl, Function.update_self]
      exact hfit
    · simp only [Function.update_of_ne hl]
      exact h.page l
  · by_cases hl : l = c.log
    · simp only [hl, Function.update_self, hplaced.szAllocated]
      exact hle
    · simp only [Function.update_of_ne hl]
      exact h.size l
  · rcases List.mem_append.mp ha with ha | ha
    · obtain ⟨vlen, page', off', hw, hpage', hoff', hbefore⟩ := h.behind a ha
      refine ⟨vlen, page', off', hw, hpage', hoff', ?_⟩
      by_cases hl : a.1 = c.log
      · simp only [hl, Function.update_self, hplaced.ppageId, hplaced.szAllocated] at hbefore ⊢
        rcases hplaced.place with hlt | ⟨rfl, rfl⟩ <;> omega
      · simp only [Function.update_of_ne hl]
        exact hbefore
    · obtain rfl := List.mem_singleton.mp ha
      obtain ⟨vlen, hw⟩ := hplaced.packed
      refine ⟨vlen, page, off, hw, hpage, by omega, .inr ?_⟩
      simp only [Function.update_self, hplaced.ppageId, hplaced.szAllocated, true_and]
      exact Nat.lt_add_of_pos_right hpos
  · refine List.pairwise_append.mpr ⟨h.apart, List.pairwise_singleton .., fun a ha b hb => ?_⟩
    obtain rfl := List.mem_singleton.mp hb
    exact apart_of_placed (h.behind a ha) hplaced hpage hpos

/-- An address is not the sentinel: its offset lies in a page. -/
theorem ne_max_of_behind {s : PackedRun cfg} {a : LogId cfg × UInt64} (h : s.Behind a) :
    a.2 ≠ uint64Max := by
  intro heq
  obtain ⟨vlen, page, off, hw, hpage, hoff, -⟩ := h
  have hmax : uint64Max.toNat = 2 ^ 64 - 1 := by decide
  have hnuma : a.1.numa.val < 2 := a.1.numa.isLt
  rw [heq, hmax] at hw
  rw [ppageSize_eq] at hoff
  omega

/-- **Packed addresses are faithful.** Packing and unpacking are inverse to each other; and in
every run of `PPage::alloc` on fresh `PPage`s with page numbers below 256, two allocations of
one shard differ in the bits of node, page and offset, and none is the sentinel. -/
theorem packed_addresses_faithful :
    (∀ x : LastLogOffest, LastLogOffest.ofAddrInfo x.toUint64Offset = x) ∧
    (∀ w : UInt64, (LastLogOffest.ofAddrInfo w).toUint64Offset = w) ∧
    ∀ (cfg : Config) (cs : List (PPageCall cfg)) (t : PackedRun cfg),
      Run step Allowed (fresh cfg) cs t →
      t.packed.Pairwise Apart ∧ ∀ a ∈ t.packed, a.2 ≠ uint64Max := by
  refine ⟨LastLogOffest.ofAddrInfo_toUint64Offset, LastLogOffest.toUint64Offset_ofAddrInfo,
    fun cfg cs t hrun => ?_⟩
  have h : t.Inv := hrun.invariant (I := Inv) (fun _ _ _ h hC hst => h.step hC hst) (inv_fresh cfg)
  exact ⟨h.apart, fun a ha => ne_max_of_behind (h.behind a ha)⟩

/-- Two records of one log, the second in the next page. -/
theorem packed_addresses_faithful_roll : ∃ t : PackedRun oneShard,
    Run step Allowed (fresh oneShard)
      [⟨LogKV.logOf oneShard 0 0, ⟨8, 255, 0, 0⟩, 32⟩,
        ⟨LogKV.logOf oneShard 0 0, ⟨8, 255, 0, 0⟩, ppageSize⟩] t ∧
      t.packed.map Prod.snd = [0x8000000000000, 0x8000100000000] ∧ t.packed.Pairwise Apart ∧
      ∀ a ∈ t.packed, a.2 ≠ uint64Max := by
  obtain ⟨t, hrun, hwords⟩ : ∃ t : PackedRun oneShard, Run step Allowed (fresh oneShard)
      [⟨LogKV.logOf oneShard 0 0, ⟨8, 255, 0, 0⟩, 32⟩,
        ⟨LogKV.logOf oneShard 0 0, ⟨8, 255, 0, 0⟩, ppageSize⟩] t ∧
      t.packed.map Prod.snd = [0x8000000000000, 0x8000100000000] := by
    refine ⟨_, .cons ⟨⟨by decide, by decide⟩, by decide⟩ rfl
      (.cons ⟨⟨by decide, le_rfl⟩, by decide⟩ rfl (.nil _)), by decide⟩
  exact ⟨t, hrun, hwords, packed_addresses_faithful.2.2 oneShard _ t hrun⟩

end PackedRun

end NaliStore
