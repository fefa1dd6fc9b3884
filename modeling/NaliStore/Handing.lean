import NaliStore.Resume

/-!
# Handing out slots, before and after a restart

`Slots` speaks of logs whose newest page is open. After a restart no page is open:
`start_addr_` is null until an allocation moves the log to its next page, and what is
handed out until then is an offset from null, under the packed address of a slot. This
file says what `alloc` does in either case: the slots of a log are handed out in order,
each with its own address or with one that nothing can be stored at.
-/

namespace NaliStore

open ByteMem Runs

variable {cfg : Config}

namespace LogKV

variable {s t : LogKV cfg} {l : LogId cfg} {σ : Slot cfg} {r : PairT}

/-- What the allocators rely on, whether the newest pages are open or not. -/
structure Handing (s : LogKV cfg) : Prop where
  /-- no log has left the address table -/
  page_lt : ∀ l, (s.ppage l).ppageId < maxLofFileId
  /-- the append position is in the page -/
  sz_le : ∀ l, (s.ppage l).szAllocated ≤ ppageSize
  /-- the append position is at a slot -/
  dvd : ∀ l, PairT.size ∣ (s.ppage l).szAllocated
  /-- no page is open but the newest -/
  start : ∀ l, (s.ppage l).startAddr = none ∨
    (s.ppage l).startAddr = some ⟨l, (s.ppage l).ppageId⟩
  /-- every log has a page file -/
  first : ∀ l, (s.pmem ⟨l, 0⟩).isSome
  /-- the page files have a place in the table -/
  file_lt : ∀ pg, (s.pmem pg).isSome → pg.page < maxLofFileId

theorem Slotted.handing (h : s.Slotted) : s.Handing where
  page_lt := h.wf.page_lt
  sz_le := h.wf.sz_le
  dvd := h.dvd
  start l := .inr (h.wf.start l)
  first _ := (h.wf.isSome_pmem_iff _).mpr (Nat.zero_le _)
  file_lt := h.wf.page_lt_of_isSome

namespace Handing

theorem used_le (h : s.Handing) (l : LogId cfg) : s.used l ≤ logCapacity := by
  have hp := h.page_lt l
  have hs := h.sz_le l
  simp only [used, maxLofFileId, ppageSize_eq, slotsPerPage, PairT.size, logCapacity] at *
  omega

theorem lt_capacity (h : s.Handing) (hσ : s.Live σ) : σ.pos < logCapacity :=
  lt_of_lt_of_le hσ (h.used_le σ.log)

/-- Handing out versions does not concern the allocators. -/
theorem bump (h : s.Handing) {hashKey : UInt64} : (s.bump hashKey).Handing :=
  ⟨h.page_lt, h.sz_le, h.dvd, h.start, h.first, h.file_lt⟩

/-- Neither does a store to a page that exists. -/
theorem write (h : s.Handing) (hσ : (s.pmem σ.pageId).isSome) : (s.write σ r).Handing := by
  have hfile : ∀ pg, ((s.write σ r).pmem pg).isSome ↔ (s.pmem pg).isSome := by
    intro pg
    simp only [LogKV.write, setPage, Function.update_apply]
    split
    · rename_i hpg
      simp [hpg, hσ]
    · rfl
  exact ⟨h.page_lt, h.sz_le, h.dvd, h.start, fun l => (hfile _).mpr (h.first l),
    fun pg hpg => h.file_lt pg ((hfile pg).mp hpg)⟩

/-- Moving on to the next page takes no slot and changes no record. -/
theorem withNextPage (h : s.Handing) (hroll : s.Rolls l) (hnone : s.pmem (s.nextPageId l) = none)
    (hlt : (s.nextPageId l).page < maxLofFileId) :
    (s.withNextPage l).Handing ∧ (s.withNextPage l).used = s.used ∧
      (s.withNextPage l).recAt = s.recAt := by
  have hself : (s.withNextPage l).ppage l =
    ⟨some (s.nextPageId l), (s.nextPageId l).page, 0⟩ := Function.update_self ..
  have hother : ∀ l', l' ≠ l → (s.withNextPage l).ppage l' = s.ppage l' := fun l' hl =>
    Function.update_of_ne hl ..
  have hfile : ∀ pg, ((s.withNextPage l).pmem pg).isSome ↔
      pg = s.nextPageId l ∨ (s.pmem pg).isSome := by
    intro pg
    simp only [LogKV.withNextPage, Function.update_apply]
    split
    · simp_all
    · simp_all
  have hpage : (s.nextPageId l).page = (s.ppage l).ppageId + 1 := by
    have hp := h.page_lt l
    rw [maxLofFileId] at hp
    exact Nat.mod_eq_of_lt (by omega)
  refine ⟨⟨fun l' => ?_, fun l' => ?_, fun l' => ?_, fun l' => ?_, fun l' => ?_, fun pg hpg => ?_⟩,
    ?_, ?_⟩
  · by_cases hl : l' = l
    · rw [hl, hself]
      exact hlt
    · rw [hother l' hl]
      exact h.page_lt l'
  · by_cases hl : l' = l
    · rw [hl, hself]
      exact Nat.zero_le _
    · rw [hother l' hl]
      exact h.sz_le l'
  · by_cases hl : l' = l
    · rw [hl, hself]
      exact dvd_zero _
    · rw [hother l' hl]
      exact h.dvd l'
  · by_cases hl : l' = l
    · rw [hl, hself]
      exact .inr rfl
    · rw [hother l' hl]
      exact h.start l'
  · exact (hfile _).mpr (.inr (h.first l'))
  · rcases (hfile pg).mp hpg with rfl | hpg
    · exact hlt
    · exact h.file_lt pg hpg
  · funext l'
    by_cases hl : l' = l
    · -- the page that is left is full
      have hfull := (rolls_iff (h.sz_le l)).mp hroll
      have hle := h.sz_le l
      obtain ⟨j, hj⟩ := h.dvd l
      rw [hl, used, hself, used, hpage]
      simp only [PairT.size, ppageSize_eq, slotsPerPage] at *
      omega
    · rw [used, hother l' hl, used]
  · funext τ
    simp only [recAt, bytes, LogKV.withNextPage, Function.update_apply]
    split
    · rename_i hpg
      rw [hpg, hnone]
      rfl
    · rfl

/-- Taking a slot of the newest page. -/
theorem advance (h : s.Handing) (hfits : (s.ppage l).szAllocated + PairT.size ≤ ppageSize) :
    (s.advance l).Handing ∧ (s.advance l).used = Function.update s.used l (s.used l + 1) := by
  have hself : (s.advance l).ppage l = ⟨(s.ppage l).startAddr, (s.ppage l).ppageId,
    (s.ppage l).szAllocated + PairT.size⟩ := Function.update_self ..
  have hother : ∀ l', l' ≠ l → (s.advance l).ppage l' = s.ppage l' := fun l' hl =>
    Function.update_of_ne hl ..
  refine ⟨⟨fun l' => ?_, fun l' => ?_, fun l' => ?_, fun l' => ?_, h.first, h.file_lt⟩, ?_⟩
  · by_cases hl : l' = l
    · rw [hl, hself]
      exact h.page_lt l
    · rw [hother l' hl]
      exact h.page_lt l'
  · by_cases hl : l' = l
    · rw [hl, hself]
      exact hfits
    · rw [hother l' hl]
      exact h.sz_le l'
  · by_cases hl : l' = l
    · rw [hl, hself]
      exact Nat.dvd_add (h.dvd l) (dvd_refl _)
    · rw [hother l' hl]
      exact h.dvd l'
  · by_cases hl : l' = l
    · rw [hl, hself]
      exact h.start l
    · rw [hother l' hl]
      exact h.start l'
  · funext l'
    by_cases hl : l' = l
    · rw [hl, Function.update_self, used, hself, used, Nat.add_div_right _ (by decide)]
      exact (Nat.add_assoc ..).symm
    · rw [Function.update_of_ne hl, used, hother l' hl, used]

/-- The address and the packed address of the slot at the append position. -/
theorem taken (h : s.Handing) (hfits : (s.ppage l).szAllocated + PairT.size ≤ ppageSize)
    (logInfo : LastLogOffest) :
    ((s.taken l logInfo).1.base = none ∨ (s.taken l logInfo).1 = (s.nextSlot l).ptr) ∧
      (s.taken l logInfo).2.1 = (s.nextSlot l).info logInfo.vlen := by
  obtain ⟨j, hj⟩ := h.dvd l
  have hpage : (s.nextSlot l).pageId = ⟨l, (s.ppage l).ppageId⟩ := by
    refine PageId.ext rfl ?_
    simp only [nextSlot, Slot.pageId, used, PairT.size, ppageSize_eq, slotsPerPage] at *
    omega
  have hoff : (s.nextSlot l).off = (s.ppage l).szAllocated := by
    simp only [nextSlot, Slot.off, used, PairT.size, ppageSize_eq, slotsPerPage] at *
    omega
  refine ⟨(h.start l).imp id fun hstart => ?_, ?_⟩
  · rw [Slot.ptr, hpage, hoff, ← hstart]
    rfl
  · rw [Slot.info, hpage, hoff]
    rfl

end Handing

/-- What an allocation of log `l` hands out: the next slot, with its own address or an
offset from null. -/
structure HandsOut (s : LogKV cfg) (l : LogId cfg) (a : Ptr cfg) (t : LogKV cfg) : Prop where
  /-- the allocators go on -/
  handing : t.Handing
  /-- the address can be that of the slot only -/
  addr : a.base = none ∨ a = (s.nextSlot l).ptr
  /-- one slot more has been handed out -/
  used : t.used = Function.update s.used l (s.used l + 1)
  /-- no record is changed -/
  recAt : t.recAt = s.recAt
  /-- no version is drawn -/
  version : t.version = s.version

/-- **What an allocation that returns does**, before and after a restart. -/
theorem Handing.alloc (h : s.Handing) {logInfo info : LastLogOffest} {a : Ptr cfg}
    (halloc : s.alloc l logInfo PairT.size = .ok (a, info, t)) :
    s.HandsOut l a t ∧ info = (s.nextSlot l).info logInfo.vlen := by
  obtain ⟨hok, heq⟩ := alloc_eq_ok_iff.mp halloc
  obtain ⟨ha, hinfo, ht⟩ : a = ((s.rolled l).taken l logInfo).1 ∧
      info = ((s.rolled l).taken l logInfo).2.1 ∧ t = (s.rolled l).advance l := by
    rw [Prod.ext_iff, Prod.ext_iff] at heq
    exact heq
  -- the slot is taken from a page that has room, with the same slots handed out
  obtain ⟨hrolled, hused, hrec, hver, hfits⟩ : (s.rolled l).Handing ∧ (s.rolled l).used = s.used ∧
      (s.rolled l).recAt = s.recAt ∧ (s.rolled l).version = s.version ∧
      ((s.rolled l).ppage l).szAllocated + PairT.size ≤ ppageSize := by
    rw [rolled]
    split
    · rename_i hroll
      obtain ⟨hnext, hused, hrec⟩ := h.withNextPage hroll (hok hroll).1 (hok hroll).2
      have hself : (s.withNextPage l).ppage l =
        ⟨some (s.nextPageId l), (s.nextPageId l).page, 0⟩ := Function.update_self ..
      refine ⟨hnext, hused, hrec, rfl, ?_⟩
      rw [hself]
      exact (by decide : 0 + PairT.size ≤ ppageSize)
    · rename_i hroll
      exact ⟨h, rfl, rfl, rfl, Nat.le_of_not_lt fun hc => hroll ((rolls_iff (h.sz_le l)).mpr hc)⟩
  have hslot : (s.rolled l).nextSlot l = s.nextSlot l := by
    rw [nextSlot, hused, nextSlot]
  obtain ⟨haddr, hinfo'⟩ := hrolled.taken hfits logInfo
  obtain ⟨hhanding, hused'⟩ := hrolled.advance hfits
  rw [hslot] at haddr hinfo'
  rw [hused] at hused'
  rw [← ha] at haddr
  rw [← hinfo] at hinfo'
  subst ht
  exact ⟨⟨hhanding, haddr, hused', hrec, hver⟩, hinfo'⟩

/-- A slot is handed out once. -/
theorem HandsOut.live_iff {a : Ptr cfg} (h : s.HandsOut l a t) :
    t.Live σ ↔ s.Live σ ∨ σ = s.nextSlot l := by
  rw [Live, h.used, Live, nextSlot, Slot.ext_iff]
  by_cases hl : σ.log = l
  · subst hl
    rw [Function.update_self]
    simp only [true_and]
    omega
  · rw [Function.update_of_ne hl]
    simp [hl]

/-- A store that returns, to the address of a slot, writes the slot. -/
theorem storePersist_ptr_inv (h : s.storePersist σ.ptr r = .ok t) :
    (s.pmem σ.pageId).isSome ∧ t = s.write σ r := by
  simp only [storePersist, Slot.ptr] at h
  split at h
  · cases h
  · rename_i m hm
    obtain rfl := Except.ok.inj h
    rw [write, bytes, hm]
    exact ⟨rfl, rfl⟩

/-- Nothing can be stored at an offset from null. -/
theorem storePersist_null {a : Ptr cfg} (ha : a.base = none) : s.storePersist a r ≠ .ok t := by
  rw [storePersist, ha]
  exact fun h => by cases h

end LogKV

/-! ## A restart -/

/-- Records are in the page files. -/
theorem LogKV.recAt_congr {s b : LogKV cfg} (h : s.pmem = b.pmem) : s.recAt = b.recAt := by
  funext σ
  rw [recAt, bytes, h]
  rfl

/-- The word that recovery maps keys to is no packed address: its length is 0. -/
theorem Slot.word_ne_one (σ : Slot cfg) : σ.word ≠ 1 := by
  intro h
  have hv : (LastLogOffest.ofAddrInfo σ.word).vlen = (LastLogOffest.ofAddrInfo 1).vlen := by
    rw [h]
  rw [word, LastLogOffest.ofAddrInfo_toUint64Offset] at hv
  exact absurd hv (by simp only [info]; decide)

/-- A restart with every page file in place leaves the allocators in order. -/
theorem Swept.handing {b t : LogKV cfg} (h : Swept b.pmem (fun _ => True) t) (hb : b.Handing) :
    t.Handing := by
  have hnewest : ∀ l, (t.ppage l).ppageId < maxLofFileId ∧
      (t.pmem ⟨l, (t.ppage l).ppageId⟩).isSome := by
    intro l
    rw [h.files]
    obtain ⟨-, hnone⟩ | ⟨hlt, hsome, -⟩ := h.newest l
    · have hfirst := hb.first l
      rw [hnone] at hfirst
      cases hfirst
    · exact ⟨hlt, hsome⟩
  have hsize : ∀ l, ∃ j, j ≤ slotsPerPage ∧ (t.ppage l).szAllocated = PairT.size * j := by
    intro l
    have hsome := (hnewest l).2
    rw [h.files] at hsome
    obtain ⟨m, hm⟩ := Option.isSome_iff_exists.mp hsome
    obtain ⟨j, hj, he, -⟩ := h.size l trivial m hm
    exact ⟨j, hj, he⟩
  refine ⟨fun l => (hnewest l).1, fun l => ?_, fun l => ?_, fun l => .inl (h.start l), fun l => ?_,
    fun pg hpg => ?_⟩
  · obtain ⟨j, hj, he⟩ := hsize l
    rw [he]
    simp only [PairT.size, ppageSize_eq, slotsPerPage] at *
    omega
  · obtain ⟨j, -, he⟩ := hsize l
    exact ⟨j, he⟩
  · rw [h.files]
    exact hb.first l
  · rw [h.files] at hpg
    exact hb.file_lt pg hpg

/-- What recovery leaves of the volatile state, from any page files: no version has been
drawn, and the index maps keys to 1 only. -/
structure Logdb.Restarted (s : Logdb cfg) : Prop where
  /-- the version counters start again -/
  version : s.log.version = fun _ => 0
  /-- every key is mapped to 1 -/
  ones : ∀ k w, s.db k = some w → w = 1

namespace Logdb

variable {s t : Logdb cfg}

theorem Restarted.scanPage (h : s.Restarted) {l : LogId cfg} {p : ℕ}
    (hscan : scanPage l s p = .ok t) : t.Restarted := by
  have hread : ∀ m k w, (scanRecords m 0 s.db).1 k = some w → w = 1 := by
    intro m k w hw
    obtain ⟨-, -, -, -, -, -, hone, -⟩ := scanRecords_spec m slotsPerPage 0 s.db (Nat.zero_add _)
    exact (hone k w hw).elim (h.ones k w) id
  simp only [Logdb.scanPage, bind, Except.bind, pure, Except.pure] at hscan
  (repeat' split at hscan) <;> cases hscan
  -- a page without a file leaves the index as it is
  · exact ⟨h.version, h.ones⟩
  · exact ⟨h.version, h.ones⟩
  · exact ⟨h.version, hread _⟩
  · exact ⟨h.version, hread _⟩

/-- **Versions and packed addresses do not survive a restart.** -/
theorem recover_restarted {pmem : PageId cfg → Option Mem}
    {dir : Fin numaNodeNum → List (PageId cfg)} {n : ℕ} (hrec : recover pmem dir n = .ok t) :
    t.Restarted := by
  rw [recover, LogKV.new_recovery] at hrec
  obtain ⟨blank, hblank, hfiles⟩ := bind_eq_ok hrec
  obtain rfl := Except.ok.inj hblank
  obtain ⟨log, hmap, hscan⟩ := bind_eq_ok hfiles
  have hlog : log.version = fun _ => 0 := by
    have hfile : ∀ i (s t : LogKV cfg) pg, LogKV.mapFile i s pg = .ok t → t.version = s.version := by
      intro i s t pg hst
      rw [LogKV.mapFile] at hst
      cases hparse : parseFileName pg.fileName with
      | none =>
        rw [hparse] at hst
        cases hst
      | some numbers =>
        rw [hparse] at hst
        simp only [LogKV.enterFile, LogKV.setPageStartAddr] at hst
        (repeat' split at hst) <;> cases hst <;> rfl
    exact foldlM_invariant (P := fun _ (s : LogKV cfg) => s.version = fun _ => 0)
      (fun _ i _ s t _ hs hst => foldlM_invariant (P := fun _ (s : LogKV cfg) => s.version = fun _ => 0)
        (fun _ pg _ s t _ hs hst => (hfile i s t pg hst).trans hs) hs hst) rfl hmap
  have hshard : ∀ (s t : Logdb cfg) l, s.Restarted → scanShard s l = .ok t → t.Restarted := by
    intro s t l hs hst
    rw [scanShard] at hst
    split at hst
    · exact foldlM_invariant (P := fun _ (s : Logdb cfg) => s.Restarted)
        (fun _ _ _ _ _ _ hs hst => hs.scanPage hst) hs hst
    · cases hst
  have hstart : (⟨log, fun _ => none⟩ : Logdb cfg).Restarted := ⟨hlog, fun _ _ h => by cases h⟩
  refine foldlM_invariant (P := fun _ (s : Logdb cfg) => s.Restarted) ?_ hstart hscan
  exact fun _ _ _ _ _ _ hs hst => foldlM_invariant (P := fun _ (s : Logdb cfg) => s.Restarted)
    (fun _ l _ s t _ hs hst => hshard s t l hs hst) hs hst

end Logdb

end NaliStore
