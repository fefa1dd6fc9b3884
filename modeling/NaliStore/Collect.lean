import NaliStore.Tidy
import Mathlib.Data.Set.Finite.Range

/-!
# What garbage collection does to the contents

The second phase of `do_gc` re-applies every record that the first phase has left as
INSERT or UPDATE, in the pages it scans again. Nothing is lost if each such record of a
key that is present has the payload the key has: then every re-application is an update
to the same payload.

The first phase does not look at the newest page of a log. A record in an old page that
was superseded by a record in a newest page keeps its op, and the second phase re-applies
it: the key goes back to the old payload.
-/

namespace NaliStore

open Runs

variable {cfg : Config}

/-- Re-applying a record to the map. -/
def reapply (m : UInt64 → Option UInt64) (r : PairT) : UInt64 → Option UInt64 :=
  if r.Kept ∧ (m r.key).isSome then Function.update m r.key (some r.value) else m

/-- Nothing changes when the record has the payload of its key. -/
theorem reapply_of_current {m : UInt64 → Option UInt64} {r : PairT}
    (h : ∀ v, m r.key = some v → v = r.value) : reapply m r = m := by
  rw [reapply]
  split
  · rename_i hr
    obtain ⟨v, hv⟩ := Option.isSome_iff_exists.mp hr.2
    rw [← h v hv, ← hv, Function.update_eq_self]
  · rfl

namespace Logdb

/-! ## One record -/

/-- What re-applying the record `r` by thread `threadId` does. -/
structure Reapplied (threadId : Fin 64) (r : PairT) (s t : Logdb cfg) : Prop where
  /-- the store invariant -/
  inv : t.Inv
  /-- the map -/
  abs : t.abs = reapply s.abs r
  /-- the log is extended -/
  log : s.log.Extends t.log
  /-- no bytes are freed -/
  szFreed : t.log.szFreed = s.log.szFreed
  /-- other logs are left alone -/
  ppage : ∀ l, l ≠ cfg.logFor threadId r.key → t.log.ppage l = s.log.ppage l
  /-- one slot is taken -/
  used : t.log.used (cfg.logFor threadId r.key) = s.log.used (cfg.logFor threadId r.key) + 1
  /-- in the newest page -/
  newest : (t.log.ppage (cfg.logFor threadId r.key)).ppageId * slotsPerPage <
    t.log.used (cfg.logFor threadId r.key)
  /-- the new record, if any, is a copy -/
  copy : ∀ σ, ¬ s.log.Live σ → (t.log.recAt σ).op ≠ .trash →
    σ.log = cfg.logFor threadId r.key ∧ (t.log.recAt σ).key = r.key ∧
      (t.log.recAt σ).value = r.value

section Record

variable {s t : Logdb cfg} {threadId : Fin 64} {r : PairT}

theorem newest_afterAlloc (log : LogKV cfg) (l : LogId cfg) :
    ((log.afterAlloc l PairT.size).ppage l).ppageId * slotsPerPage <
      (log.afterAlloc l PairT.size).used l := by
  rw [LogKV.used, LogKV.afterAlloc_ppage_self]
  simp only [PairT.size]
  omega

/-- `update` of a record that is to be kept. -/
theorem Inv.reapplied (h : s.Inv) (hr : r.Kept) {ret : Bool}
    (hok : s.update threadId r.key r.value = .ok (ret, t)) : Reapplied threadId r s t := by
  have hs := h.slotted
  cases hdb : s.db r.key with
  | none =>
    rw [update_eq_of_none hs _ hdb] at hok
    split at hok
    · rename_i hroom
      obtain ⟨-, rfl⟩ := Prod.mk.inj (Except.ok.inj hok)
      have hext := hs.extends_reserve hroom
      obtain ⟨hinv, habs⟩ := h.extend hext
      refine ⟨hinv, ?_, hext, rfl, fun l hl => LogKV.afterAlloc_ppage_ne hl, ?_,
        newest_afterAlloc _ _, fun σ hσ hop => ?_⟩
      · rw [habs, reapply, if_neg]
        rw [isSome_abs, hdb]
        exact fun hc => Bool.false_ne_true hc.2
      · rw [LogKV.used_reserve hs, Function.update_self]
      · -- the slot stays unwritten
        rw [LogKV.recAt_reserve hs] at hop
        exact absurd (hs.op_of_not_live hσ) hop
    · cases hok
  | some old =>
    rw [update_eq_of_some hs _ hdb] at hok
    split at hok
    · rename_i hroom
      obtain ⟨-, rfl⟩ := Prod.mk.inj (Except.ok.inj hok)
      set p := PairT.updateRec (s.log.versionFor r.key) r.key r.value old with hp
      have hext := hs.extends_append hroom p
      obtain ⟨hinv, habs⟩ := h.remap hext (target_append hs ⟨rfl, .inr rfl⟩)
      rw [LogKV.recAt_append_self hs] at habs
      refine ⟨hinv, ?_, hext, rfl, fun l hl => LogKV.afterAlloc_ppage_ne hl, ?_,
        newest_afterAlloc _ _, fun σ hσ hop => ?_⟩
      · rw [habs, reapply, if_pos]
        · rfl
        · rw [isSome_abs, hdb]
          exact ⟨hr, rfl⟩
      · rw [LogKV.used_append hs, Function.update_self]
      · rw [LogKV.recAt_append hs] at hop ⊢
        by_cases hν : σ = s.log.nextSlot (cfg.logFor threadId r.key)
        · subst hν
          rw [Function.update_self]
          exact ⟨rfl, rfl, rfl⟩
        · rw [Function.update_of_ne hν] at hop
          exact absurd (hs.op_of_not_live hσ) hop
    · cases hok

/-- The record of a slot that has been handed out. -/
theorem Inv.relocateRecord_eq (h : s.Inv) {pg : PageId cfg} {i : ℕ} (hi : i < slotsPerPage)
    (hlive : s.log.Live (pg.slotAt i)) :
    relocateRecord threadId pg s i =
      if (s.log.recAt (pg.slotAt i)).Kept then do
        let (_, s) ← s.update threadId (s.log.recAt (pg.slotAt i)).key
          (s.log.recAt (pg.slotAt i)).value
        pure s
      else .ok s := by
  have hload : s.log.load ⟨some pg, PairT.size * i⟩ = .ok (s.log.recAt (pg.slotAt i)) := by
    rw [← pg.ptr_slotAt hi]
    exact h.slotted.load_eq hlive
  simp only [relocateRecord, hload, bind, Except.bind]
  rfl

/-- **A round that returns** re-applies the record, or passes over it. -/
theorem Inv.relocateRecord_cases (h : s.Inv) {pg : PageId cfg} {i : ℕ} (hi : i < slotsPerPage)
    (hlive : s.log.Live (pg.slotAt i)) (hok : relocateRecord threadId pg s i = .ok t) :
    (¬ (s.log.recAt (pg.slotAt i)).Kept ∧ t = s) ∨
      (s.log.recAt (pg.slotAt i)).Kept ∧ Reapplied threadId (s.log.recAt (pg.slotAt i)) s t := by
  rw [h.relocateRecord_eq hi hlive] at hok
  split at hok
  · rename_i hr
    obtain ⟨⟨ret, u⟩, hu, ht⟩ := bind_eq_ok hok
    obtain rfl := Except.ok.inj ht
    exact .inr ⟨hr, h.reapplied hr hu⟩
  · rename_i hr
    exact .inl ⟨hr, (Except.ok.inj hok).symm⟩

theorem Inv.relocateRecord_extends (h : s.Inv) {pg : PageId cfg} {i : ℕ} (hi : i < slotsPerPage)
    (hlive : s.log.Live (pg.slotAt i)) (hok : relocateRecord threadId pg s i = .ok t) :
    t.Inv ∧ s.log.Extends t.log := by
  rcases h.relocateRecord_cases hi hlive hok with ⟨-, rfl⟩ | ⟨-, hre⟩
  · exact ⟨h, h.slotted.extends_refl⟩
  · exact ⟨hre.inv, hre.log⟩

/-- A round fails only when there is no slot left. -/
theorem Inv.relocateRecord_error (h : s.Inv) {pg : PageId cfg} {i : ℕ} (hi : i < slotsPerPage)
    (hlive : s.log.Live (pg.slotAt i)) {e : Fault}
    (herr : relocateRecord threadId pg s i = .error e) :
    e = .outOfBounds ∧ ¬ s.log.Room threadId (s.log.recAt (pg.slotAt i)).key := by
  rw [h.relocateRecord_eq hi hlive] at herr
  split at herr
  · set r := s.log.recAt (pg.slotAt i)
    cases hdb : s.db r.key with
    | none =>
      rw [update_eq_of_none h.slotted _ hdb] at herr
      split at herr
      · cases herr
      · rename_i hroom
        exact ⟨(Except.error.inj herr).symm, hroom⟩
    | some old =>
      rw [update_eq_of_some h.slotted _ hdb] at herr
      split at herr
      · cases herr
      · rename_i hroom
        exact ⟨(Except.error.inj herr).symm, hroom⟩
  · cases herr

end Record

end Logdb

/-! ## The order of the loops -/

/-- The order in which the loops visit pages. -/
def LoopOrder (pg pg' : PageId cfg) : Prop :=
  pg'.page < pg.page ∨ pg.page = pg'.page ∧
    (pg.log.numa < pg'.log.numa ∨ pg.log.numa = pg'.log.numa ∧ pg.log.hash < pg'.log.hash)

theorem pairwise_gcPages (cfg : Config) (beginPos endPos : ℕ) :
    (gcPages cfg beginPos endPos).Pairwise LoopOrder := by
  refine List.pairwise_flatMap.mpr ⟨fun f _ => List.pairwise_flatMap.mpr ⟨fun n _ => ?_, ?_⟩, ?_⟩
  · refine List.pairwise_map.mpr (List.Pairwise.filter _ ?_)
    exact (List.pairwise_lt_finRange _).imp fun h => .inr ⟨rfl, .inr ⟨rfl, h⟩⟩
  · refine (List.pairwise_lt_finRange _).imp fun h x hx y hy => ?_
    obtain ⟨_, -, rfl⟩ := List.mem_map.mp hx
    obtain ⟨_, -, rfl⟩ := List.mem_map.mp hy
    exact .inr ⟨rfl, .inl h⟩
  · refine List.pairwise_reverse.mpr (List.pairwise_lt_range.imp fun h x hx y hy => ?_)
    obtain ⟨_, -, hx⟩ := List.mem_flatMap.mp hx
    obtain ⟨_, -, rfl⟩ := List.mem_map.mp hx
    obtain ⟨_, -, hy⟩ := List.mem_flatMap.mp hy
    obtain ⟨_, -, rfl⟩ := List.mem_map.mp hy
    exact .inl h

theorem LoopOrder.ne {pg pg' : PageId cfg} (h : LoopOrder pg pg') : pg ≠ pg' := by
  rintro rfl
  rcases h with h | ⟨-, h | ⟨-, h⟩⟩
  · exact lt_irrefl _ h
  · exact lt_irrefl _ h
  · exact lt_irrefl _ h

/-! ## The pages the second phase scans again -/

namespace LogKV

section Rescanned

variable (b : LogKV cfg) (kept : Slot cfg → Prop) (freed : PageId cfg → ℕ) (gcThreshold : ℚ)

/-- The newest page of a log. -/
def newest (l : LogId cfg) : PageId cfg := ⟨l, (b.ppage l).ppageId⟩

/-- Enough of the page is free. -/
def Over (pg : PageId cfg) : Prop := gcThreshold ≤ (freed pg : ℚ) / ppageSize

/-- The records of the other log of the shard that are re-applied before the loops come to
the newest page of log `l`. -/
def arrivals (l : LogId cfg) : Set (Slot cfg) :=
  {σ | σ.log.hash = l.hash ∧ σ.log ≠ l ∧ b.Old σ.pageId ∧ Over freed gcThreshold σ.pageId ∧
    kept σ ∧ LoopOrder σ.pageId (b.newest l)}

/-- Before the loops come to the newest page of the log, re-applied records have filled it
and the log has moved on to a new page. -/
def RollsOver (l : LogId cfg) : Prop :=
  ((b.ppage l).ppageId + 1) * slotsPerPage < b.used l + (arrivals b kept freed gcThreshold l).ncard

/-- The second phase scans the page: enough of it is free, and it is old, or it is the
newest page of a log of the collector's node that is old when the loops come to it. -/
def Rescanned (node : Fin numaNodeNum) (pg : PageId cfg) : Prop :=
  Over freed gcThreshold pg ∧
    (b.Old pg ∨ pg = b.newest pg.log ∧ pg.log.numa = node ∧
      RollsOver b kept freed gcThreshold pg.log)

end Rescanned

theorem Slotted.finite_live {b : LogKV cfg} (h : b.Slotted) : {σ | b.Live σ}.Finite := by
  refine (Set.finite_range fun p : Fin numaNodeNum × Fin cfg.shards × Fin logCapacity =>
    (⟨⟨p.1, p.2.1⟩, p.2.2⟩ : Slot cfg)).subset fun σ hσ => ?_
  exact ⟨(σ.log.numa, σ.log.hash, ⟨σ.pos, h.lt_capacity hσ⟩), rfl⟩

theorem Slotted.finite_arrivals {b : LogKV cfg} (h : b.Slotted) {kept : Slot cfg → Prop}
    {freed : PageId cfg → ℕ} {gcThreshold : ℚ} (l : LogId cfg) :
    (arrivals b kept freed gcThreshold l).Finite :=
  h.finite_live.subset fun _ hσ => Slotted.live_of_page_lt hσ.2.2.1

end LogKV

namespace Logdb

/-! ## The second phase, page by page -/

/-- The record is re-applied if its page is scanned. -/
def keeps (s : Logdb cfg) (σ : Slot cfg) : Prop := (s.log.recAt σ).Kept

/-- Re-applying the record changes nothing. -/
def Current (m : UInt64 → Option UInt64) (r : PairT) : Prop := ∀ v, m r.key = some v → v = r.value

/-- The state `s` of the second phase, which began in `b`: the pages in `E` are done or
under way, the records in `X` have been looked at. -/
structure Relocating (b : Logdb cfg) (gcThreshold : ℚ) (threadId : Fin 64)
    (E : PageId cfg → Prop) (X : Slot cfg → Prop) (s : Logdb cfg) : Prop where
  /-- the store invariant -/
  inv : s.Inv
  /-- the map has not changed -/
  abs : s.abs = b.abs
  /-- the log is extended -/
  log : b.log.Extends s.log
  /-- records are in the shards of their keys -/
  placed : s.log.Placed
  /-- the logs of the other node are left alone -/
  others : ∀ l, l.numa ≠ getNumaId threadId → s.log.ppage l = b.log.ppage l
  /-- a log that was extended has a record in its newest page -/
  newest : ∀ l, s.log.ppage l = b.log.ppage l ∨
    (s.log.ppage l).ppageId * slotsPerPage < s.log.used l
  /-- new records are copies -/
  copies : ∀ σ, ¬ b.log.Live σ → (s.log.recAt σ).Kept → Current b.abs (s.log.recAt σ)
  /-- the free bytes of the pages that are not done -/
  szFreed : ∀ pg, ¬ E pg → s.log.szFreed pg = b.log.szFreed pg
  /-- logs whose newest page is not done have grown by the arrivals at most -/
  used : ∀ l, l.numa = getNumaId threadId → ¬ E (b.log.newest l) →
    LogKV.RollsOver b.log b.keeps b.log.szFreed gcThreshold l ∨
      s.log.used l ≤ b.log.used l +
        {σ ∈ LogKV.arrivals b.log b.keeps b.log.szFreed gcThreshold l | X σ}.ncard

section Relocating

variable {b s t : Logdb cfg} {gcThreshold : ℚ} {threadId : Fin 64} {E : PageId cfg → Prop}
  {X : Slot cfg → Prop}

/-- Looking at more records. -/
theorem Relocating.mono (h : Relocating b gcThreshold threadId E X s) (hb : b.log.Slotted)
    {E' : PageId cfg → Prop} {X' : Slot cfg → Prop} (hE : ∀ pg, E pg → E' pg)
    (hX : ∀ σ, X σ → X' σ) : Relocating b gcThreshold threadId E' X' s :=
  { h with
    szFreed := fun pg hpg => h.szFreed pg fun hc => hpg (hE pg hc)
    used := by
      intro l hl hpg
      refine (h.used l hl fun hc => hpg (hE _ hc)).imp id fun hle => hle.trans ?_
      refine Nat.add_le_add_left (Set.ncard_le_ncard ?_ ?_) _
      · rintro σ ⟨hσ, hσX⟩
        exact ⟨hσ, hX σ hσX⟩
      · exact (hb.finite_arrivals l).subset fun σ hσ => hσ.1 }

/-- **One record of a page that is scanned.** The page is settled; and what it adds to a
log whose newest page is still to come counts as an arrival. -/
theorem Relocating.record (h : Relocating b gcThreshold threadId E X s) (hb : b.log.Slotted)
    {pg : PageId cfg} {i : ℕ} (hi : i < slotsPerPage) (hlive : s.log.Live (pg.slotAt i))
    (hsettled : ∀ σ, σ.pageId = pg → b.log.Live σ → b.keeps σ → Current b.abs (b.log.recAt σ))
    (harrival : ∀ l, l.numa = getNumaId threadId → l.hash = pg.log.hash → ¬ E (b.log.newest l) →
      LogKV.RollsOver b.log b.keeps b.log.szFreed gcThreshold l ∨
        pg.log ≠ l ∧ b.log.Old pg ∧ LogKV.Over b.log.szFreed gcThreshold pg ∧
          LoopOrder pg (b.log.newest l))
    (hX : ¬ X (pg.slotAt i)) (hok : relocateRecord threadId pg s i = .ok t) :
    Relocating b gcThreshold threadId E (fun σ => X σ ∨ σ = pg.slotAt i) t := by
  set σ := pg.slotAt i with hσ
  have hpage : σ.pageId = pg := pg.pageId_slotAt hi
  have hmono : Relocating b gcThreshold threadId E (fun τ => X τ ∨ τ = σ) s :=
    h.mono hb (fun _ => id) fun _ => .inl
  rcases h.inv.relocateRecord_cases hi hlive hok with ⟨-, rfl⟩ | ⟨hr, hre⟩
  · exact hmono
  set r := s.log.recAt σ with hrdef
  have hcur : Current b.abs r := by
    by_cases hbσ : b.log.Live σ
    · have hrec := h.log.recAt σ hbσ
      rw [hrdef, hrec]
      exact hsettled σ hpage hbσ (by rw [keeps, ← hrec]; exact hr)
    · exact h.copies σ hbσ hr
  have hnuma : (cfg.logFor threadId r.key).numa = getNumaId threadId := rfl
  have husedne : ∀ l, l ≠ cfg.logFor threadId r.key → t.log.used l = s.log.used l := by
    intro l hl
    rw [LogKV.used, hre.ppage l hl, LogKV.used]
  refine ⟨hre.inv, ?_, h.log.trans hre.log, ?_, ?_, ?_, ?_, ?_, ?_⟩
  · rw [hre.abs, h.abs, reapply_of_current hcur]
  · intro τ hop
    by_cases hτ : s.log.Live τ
    · rw [hre.log.recAt τ hτ] at hop ⊢
      exact h.placed τ hop
    · obtain ⟨hlog, hkey, -⟩ := hre.copy τ hτ hop
      rw [hlog, hkey]
      rfl
  · intro l hl
    rw [hre.ppage l fun hc => hl (hc ▸ hnuma), h.others l hl]
  · intro l
    by_cases hl : l = cfg.logFor threadId r.key
    · rw [hl]
      exact .inr hre.newest
    · rw [hre.ppage l hl, husedne l hl]
      exact h.newest l
  · intro τ hτ hk
    by_cases hτs : s.log.Live τ
    · rw [hre.log.recAt τ hτs] at hk ⊢
      exact h.copies τ hτ hk
    · obtain ⟨-, hkey, hvalue⟩ := hre.copy τ hτs hk.ne_trash
      rw [Current, hkey, hvalue]
      exact hcur
  · rw [hre.szFreed]
    exact h.szFreed
  · intro l hl hE
    by_cases hlog : l = cfg.logFor threadId r.key
    · have hhash : l.hash = pg.log.hash := by
        rw [hlog]
        exact (h.placed σ hr.ne_trash).symm
      rcases harrival l hl hhash hE with hroll | ⟨hne, hbold, hover, horder⟩
      · exact .inl hroll
      · refine (h.used l hl hE).imp id fun hle => ?_
        have hbσ : b.log.Live σ := LogKV.Slotted.live_of_page_lt (by rw [hpage]; exact hbold)
        have hmem : σ ∈ LogKV.arrivals b.log b.keeps b.log.szFreed gcThreshold l := by
          refine ⟨hhash.symm, hne, ?_, ?_, ?_, ?_⟩
          · rw [hpage]; exact hbold
          · rw [hpage]; exact hover
          · rw [keeps, ← h.log.recAt σ hbσ]; exact hr
          · rw [hpage]; exact horder
        have hinsert : {τ ∈ LogKV.arrivals b.log b.keeps b.log.szFreed gcThreshold l |
            X τ ∨ τ = σ} = Insert.insert σ {τ ∈ LogKV.arrivals b.log b.keeps b.log.szFreed
              gcThreshold l | X τ} := by
          ext τ
          constructor
          · rintro ⟨hτ, hτX | rfl⟩
            · exact .inr ⟨hτ, hτX⟩
            · exact .inl rfl
          · rintro (rfl | ⟨hτ, hτX⟩)
            · exact ⟨hmem, .inr rfl⟩
            · exact ⟨hτ, .inl hτX⟩
        rw [hinsert, Set.ncard_insert_of_notMem (fun hc => hX hc.2)
          ((hb.finite_arrivals l).subset fun τ hτ => hτ.1), hlog, hre.used, ← hlog]
        omega
    · rw [husedne l hlog]
      exact hmono.used l hl hE

/-- A log whose newest page is not done rolls over, or has grown by its arrivals at most. -/
theorem Relocating.used_le (h : Relocating b gcThreshold threadId E X s) (hb : b.log.Slotted)
    {l : LogId cfg} (hl : l.numa = getNumaId threadId) (hE : ¬ E (b.log.newest l)) :
    LogKV.RollsOver b.log b.keeps b.log.szFreed gcThreshold l ∨
      s.log.used l ≤ b.log.used l +
        (LogKV.arrivals b.log b.keeps b.log.szFreed gcThreshold l).ncard := by
  refine (h.used l hl hE).imp id fun hle => hle.trans (Nat.add_le_add_left ?_ _)
  exact Set.ncard_le_ncard (fun σ hσ => hσ.1) (hb.finite_arrivals l)

/-- A page that is scanned again was old, or the newest of a log that rolled over. -/
theorem Relocating.rescanned (h : Relocating b gcThreshold threadId E X s) (hb : b.log.Slotted)
    {pg : PageId cfg} (hpg : ¬ E pg) (hold : s.log.Old pg)
    (hover : LogKV.Over s.log.szFreed gcThreshold pg) {σ : Slot cfg} (hσ : σ.pageId = pg)
    (hlive : b.log.Live σ) :
    LogKV.Rescanned b.log b.keeps b.log.szFreed gcThreshold (getNumaId threadId) pg := by
  have hover' : LogKV.Over b.log.szFreed gcThreshold pg := by
    rw [LogKV.Over, ← h.szFreed pg hpg]
    exact hover
  refine ⟨hover', ?_⟩
  by_cases hbold : b.log.Old pg
  · exact .inl hbold
  have hle := hb.page_le hlive
  have hlog : σ.log = pg.log := congrArg PageId.log hσ
  rw [hσ, hlog] at hle
  have hpage : pg.page = (b.log.ppage pg.log).ppageId := le_antisymm hle (Nat.not_lt.mp hbold)
  have hnewest : b.log.newest pg.log = pg := PageId.ext rfl hpage.symm
  -- its log has moved on since the phase began
  have hmoved : s.log.ppage pg.log ≠ b.log.ppage pg.log := by
    intro hc
    rw [LogKV.Old, hc] at hold
    exact hbold hold
  have hnuma : pg.log.numa = getNumaId threadId := by
    by_contra hne
    exact hmoved (h.others pg.log hne)
  refine .inr ⟨hnewest.symm, hnuma, ?_⟩
  rcases h.used_le hb hnuma (hnewest.symm ▸ hpg) with hroll | hused
  · exact hroll
  · have hlt := (h.newest pg.log).resolve_left hmoved
    have hmul : ((b.log.ppage pg.log).ppageId + 1) * slotsPerPage ≤
        (s.log.ppage pg.log).ppageId * slotsPerPage :=
      Nat.mul_le_mul_right _ (by rw [← hpage]; exact hold)
    rw [LogKV.RollsOver]
    omega

/-- What a scanned page adds to a log whose newest page is still to come is an arrival. -/
theorem Relocating.arrival (h : Relocating b gcThreshold threadId E X s) (hb : b.log.Slotted)
    {pg : PageId cfg} (hpg : ¬ E pg) (hold : s.log.Old pg)
    (hover : LogKV.Over s.log.szFreed gcThreshold pg) {l : LogId cfg}
    (hl : l.numa = getNumaId threadId) (hhash : l.hash = pg.log.hash)
    (hE : ¬ E (b.log.newest l)) (horder : LoopOrder pg (b.log.newest l)) :
    LogKV.RollsOver b.log b.keeps b.log.szFreed gcThreshold l ∨
      pg.log ≠ l ∧ b.log.Old pg ∧ LogKV.Over b.log.szFreed gcThreshold pg ∧
        LoopOrder pg (b.log.newest l) := by
  have hover' : LogKV.Over b.log.szFreed gcThreshold pg := by
    rw [LogKV.Over, ← h.szFreed pg hpg]
    exact hover
  by_cases hlog : pg.log = l
  · -- the page is behind what was the newest page: the log has rolled over already
    subst hlog
    left
    have hgt : (b.log.ppage pg.log).ppageId < pg.page := by
      rcases horder with h | ⟨-, h | ⟨-, h⟩⟩
      · exact h
      · exact absurd h (lt_irrefl _)
      · exact absurd h (lt_irrefl _)
    rcases h.used_le hb hl hE with hroll | hused
    · exact hroll
    · have hmul : ((b.log.ppage pg.log).ppageId + 1 + 1) * slotsPerPage ≤
          (s.log.ppage pg.log).ppageId * slotsPerPage :=
        Nat.mul_le_mul_right _ (lt_of_le_of_lt hgt hold)
      have hle : (s.log.ppage pg.log).ppageId * slotsPerPage ≤ s.log.used pg.log :=
        Nat.le_add_right _ _
      have hpos : 0 < slotsPerPage := by decide
      rw [Nat.add_mul _ 1, Nat.one_mul] at hmul
      rw [LogKV.RollsOver]
      omega
  · have hnuma : pg.log.numa ≠ getNumaId threadId := by
      intro hc
      exact hlog (LogId.ext (hc.trans hl.symm) hhash.symm)
    refine .inr ⟨hlog, ?_, hover', horder⟩
    rw [LogKV.Old, ← h.others pg.log hnuma]
    exact hold

/-- The second phase on one page: nothing, or all its records. -/
theorem Inv.relocatePage_cases (h : s.Inv) {pg : PageId cfg}
    (hok : relocatePage gcThreshold threadId s pg = .ok t) :
    t = s ∨ s.log.Old pg ∧ LogKV.Over s.log.szFreed gcThreshold pg ∧
      ∃ u, (List.range slotsPerPage).foldlM (relocateRecord threadId pg) s = .ok u ∧
        t = ⟨{ u.log with szFreed := Function.update u.log.szFreed pg 0 }, u.db⟩ := by
  by_cases hold : s.log.Old pg
  · rw [relocatePage, h.slotted.visitPage_old hold] at hok
    split at hok
    · rename_i hover
      obtain ⟨u, hu, ht⟩ := bind_eq_ok hok
      exact .inr ⟨hold, hover, u, hu, (Except.ok.inj ht).symm⟩
    · exact .inl (Except.ok.inj hok).symm
  · rw [relocatePage, h.slotted.visitPage_of_not_old hold] at hok
    exact .inl (Except.ok.inj hok).symm

/-- The freed bytes are no part of what the store means. -/
theorem Inv.withFreed (h : s.Inv) (freed : PageId cfg → ℕ) :
    Inv ⟨{ s.log with szFreed := freed }, s.db⟩ where
  slotted := ⟨⟨h.slotted.wf.page_lt, h.slotted.wf.start, h.slotted.wf.sz_le, h.slotted.wf.table,
    h.slotted.wf.table_none, h.slotted.wf.file, h.slotted.wf.file_none⟩, h.slotted.dvd,
    h.slotted.unwritten⟩
  entry k w hdb := by
    obtain ⟨σ, hw, hσ⟩ := h.entry k w hdb
    exact ⟨σ, hw, hσ.live, hσ.shard, hσ.maps⟩

/-- The free bytes of a page that is done are reset. -/
theorem Relocating.reset (h : Relocating b gcThreshold threadId E X s) {pg : PageId cfg}
    (hpg : E pg) : Relocating b gcThreshold threadId E X
      ⟨{ s.log with szFreed := Function.update s.log.szFreed pg 0 }, s.db⟩ where
  inv := h.inv.withFreed _
  abs := h.abs
  log := ⟨(h.inv.withFreed _).slotted, h.log.live, h.log.recAt⟩
  placed := h.placed
  others := h.others
  newest := h.newest
  copies := h.copies
  szFreed pg' hpg' := by
    have hne : pg' ≠ pg := by
      rintro rfl
      exact hpg' hpg
    exact (Function.update_of_ne hne ..).trans (h.szFreed pg' hpg')
  used := h.used

/-- Every record that the second phase re-applies has the payload of its key. -/
def Settled (b : Logdb cfg) (gcThreshold : ℚ) (node : Fin numaNodeNum) (kept : Slot cfg → Prop)
    (freed : PageId cfg → ℕ) : Prop :=
  ∀ σ, LogKV.Rescanned b.log kept freed gcThreshold node σ.pageId → kept σ →
    Current b.abs (b.log.recAt σ)

/-- **One page of the second phase.** -/
theorem Relocating.page {done rest : List (PageId cfg)} {pg : PageId cfg}
    (h : Relocating b gcThreshold threadId (· ∈ done) (fun σ => σ.pageId ∈ done) s)
    (hb : b.log.Slotted)
    (hsettled : b.Settled gcThreshold (getNumaId threadId) b.keeps b.log.szFreed)
    (has : gcPages cfg 0 cfg.shards = done ++ pg :: rest)
    (hok : relocatePage gcThreshold threadId s pg = .ok t) :
    Relocating b gcThreshold threadId (· ∈ done ++ [pg]) (fun σ => σ.pageId ∈ done ++ [pg]) t := by
  have hpairwise := pairwise_gcPages cfg 0 cfg.shards
  rw [has] at hpairwise
  obtain ⟨-, hcons, hcross⟩ := List.pairwise_append.mp hpairwise
  have hnot : pg ∉ done := fun hmem => (hcross pg hmem pg (List.mem_cons_self ..)).ne rfl
  have hdone : ∀ p, p ∈ done → p ∈ done ++ [pg] := fun p hp => List.mem_append_left _ hp
  rcases h.inv.relocatePage_cases hok with rfl | ⟨hold, hover, u, hu, rfl⟩
  · exact h.mono hb hdone fun σ hσ => hdone _ hσ
  refine Relocating.reset ?_ (List.mem_append_right _ (List.mem_singleton.mpr rfl))
  have hsettledpg : ∀ σ, σ.pageId = pg → b.log.Live σ → b.keeps σ →
      Current b.abs (b.log.recAt σ) := by
    intro σ hσ hlive hk
    exact hsettled σ (hσ ▸ h.rescanned hb hnot hold hover hσ hlive) hk
  -- the newest pages that are not done come later
  have harrival : ∀ l, l.numa = getNumaId threadId → l.hash = pg.log.hash →
      b.log.newest l ∉ done ++ [pg] →
      LogKV.RollsOver b.log b.keeps b.log.szFreed gcThreshold l ∨
        pg.log ≠ l ∧ b.log.Old pg ∧ LogKV.Over b.log.szFreed gcThreshold pg ∧
          LoopOrder pg (b.log.newest l) := by
    intro l hl hhash hE
    have hmem : b.log.newest l ∈ gcPages cfg 0 cfg.shards :=
      mem_gcPages.mpr (le_of_lt (hb.wf.page_lt l))
    have hrest : b.log.newest l ∈ rest := by
      rw [has, List.mem_append, List.mem_cons] at hmem
      rw [List.mem_append, List.mem_singleton, not_or] at hE
      exact (hmem.resolve_left hE.1).resolve_left hE.2
    exact h.arrival hb hnot hold hover hl hhash (fun hc => hE (hdone _ hc))
      ((List.pairwise_cons.mp hcons).1 _ hrest)
  have hinner := foldlM_invariant
    (P := fun is u => Relocating b gcThreshold threadId (· ∈ done ++ [pg])
      (fun σ => σ.pageId ∈ done ∨ ∃ i ∈ is, σ = pg.slotAt i) u ∧ s.log.Extends u.log)
    (by
      rintro is i rest u u' hrange ⟨hrel, hext⟩ hstep
      have hi : i < slotsPerPage := by
        rw [← List.mem_range, hrange]
        exact List.mem_append_right _ (List.mem_cons_self ..)
      have hlive : u.log.Live (pg.slotAt i) := hext.live _
        (LogKV.Slotted.live_of_page_lt (by rw [pg.pageId_slotAt hi]; exact hold))
      have hX : ¬ ((pg.slotAt i).pageId ∈ done ∨ ∃ j ∈ is, pg.slotAt i = pg.slotAt j) := by
        rintro (hc | ⟨j, hj, heq⟩)
        · rw [pg.pageId_slotAt hi] at hc
          exact hnot hc
        · have hij : i = j := Nat.add_left_cancel (congrArg Slot.pos heq)
          have hnodup := List.nodup_range (n := slotsPerPage)
          rw [hrange] at hnodup
          exact (List.nodup_append.mp hnodup).2.2 j hj i (List.mem_cons_self ..) hij.symm
      refine ⟨(hrel.record hb hi hlive hsettledpg harrival hX hstep).mono hb (fun _ => id) ?_,
        hext.trans (hrel.inv.relocateRecord_extends hi hlive hstep).2⟩
      rintro σ ((hσ | ⟨j, hj, rfl⟩) | rfl)
      · exact .inl hσ
      · exact .inr ⟨j, List.mem_append_left _ hj, rfl⟩
      · exact .inr ⟨i, List.mem_append_right _ (List.mem_singleton.mpr rfl), rfl⟩)
    (s := s) ⟨h.mono hb hdone fun σ hσ => .inl hσ, h.inv.slotted.extends_refl⟩ hu
  refine hinner.1.mono hb (fun _ => id) ?_
  rintro σ (hσ | ⟨i, hi, rfl⟩)
  · exact hdone _ hσ
  · rw [pg.pageId_slotAt (List.mem_range.mp hi)]
    exact List.mem_append_right _ (List.mem_singleton.mpr rfl)

/-- Before the second phase. -/
theorem Inv.relocating (h : b.Inv) (hplaced : b.log.Placed) :
    Relocating b gcThreshold threadId (· ∈ []) (fun σ => σ.pageId ∈ []) b where
  inv := h
  abs := rfl
  log := h.slotted.extends_refl
  placed := hplaced
  others _ _ := rfl
  newest _ := .inl rfl
  copies _ hσ hk := absurd (h.slotted.op_of_not_live hσ) hk.ne_trash
  szFreed _ _ := rfl
  used _ _ _ := .inr (Nat.le_add_right _ _)

/-- **The second phase keeps the contents** when it re-applies current records only. -/
theorem Inv.relocatePages (h : b.Inv) (hplaced : b.log.Placed)
    (hsettled : b.Settled gcThreshold (getNumaId threadId) b.keeps b.log.szFreed)
    (hok : (gcPages cfg 0 cfg.shards).foldlM (relocatePage gcThreshold threadId) b = .ok t) :
    t.Inv ∧ t.abs = b.abs := by
  have hrel := foldlM_invariant
    (P := fun done s => Relocating b gcThreshold threadId (· ∈ done) (fun σ => σ.pageId ∈ done) s)
    (fun done pg rest s t has hP hst => hP.page h.slotted hsettled has hst)
    (h.relocating hplaced) hok
  exact ⟨hrel.inv, hrel.abs⟩

/-- The records of a page that is old stay handed out while they are re-applied. -/
theorem Inv.relocateRecords (h : s.Inv) (threadId : Fin 64) {pg : PageId cfg}
    (hold : s.log.Old pg) :
    (∃ t, (List.range slotsPerPage).foldlM (relocateRecord threadId pg) s = .ok t ∧ t.Inv) ∨
      (List.range slotsPerPage).foldlM (relocateRecord threadId pg) s = .error .outOfBounds := by
  have hlive : ∀ i < slotsPerPage, s.log.Live (pg.slotAt i) := fun i hi =>
    LogKV.Slotted.live_of_page_lt (by rw [pg.pageId_slotAt hi]; exact hold)
  have hmem : ∀ {is : List ℕ} {i : ℕ} {rest : List ℕ},
      List.range slotsPerPage = is ++ i :: rest → i < slotsPerPage := by
    intro is i rest hrange
    rw [← List.mem_range, hrange]
    exact List.mem_append_right _ (List.mem_cons_self ..)
  rcases foldlM_cases (f := relocateRecord threadId pg) (P := fun _ u => u.Inv ∧ s.log.Extends u.log)
    (fun is i rest u u' hrange ⟨hinv, hext⟩ hst => by
      obtain ⟨hinv', hext'⟩ := hinv.relocateRecord_extends (hmem hrange)
        (hext.live _ (hlive i (hmem hrange))) hst
      exact ⟨hinv', hext.trans hext'⟩)
    ⟨h, h.slotted.extends_refl⟩ with ⟨t, ht, hinv, -⟩ | ⟨is, i, rest, u, e, hrange, ⟨hinv, hext⟩,
      herr, hall⟩
  · exact .inl ⟨t, ht, hinv⟩
  · obtain ⟨rfl, -⟩ := hinv.relocateRecord_error (hmem hrange)
      (hext.live _ (hlive i (hmem hrange))) herr
    exact .inr hall

/-- **The second phase fails only when a log has no page left.** -/
theorem Inv.relocatePages_error (h : b.Inv) {pgs : List (PageId cfg)} {e : Fault}
    (herr : pgs.foldlM (relocatePage gcThreshold threadId) b = .error e) : e = .outOfBounds := by
  have hpage : ∀ (s : Logdb cfg) (pg : PageId cfg), s.Inv →
      (∃ t, relocatePage gcThreshold threadId s pg = .ok t ∧ t.Inv) ∨
        relocatePage gcThreshold threadId s pg = .error .outOfBounds := by
    intro s pg hs
    by_cases hold : s.log.Old pg
    · rw [relocatePage, hs.slotted.visitPage_old hold]
      split
      · rcases hs.relocateRecords threadId hold with ⟨t, ht, hinv⟩ | herr
        · refine .inl ⟨⟨{ t.log with szFreed := Function.update t.log.szFreed pg 0 }, t.db⟩, ?_,
            hinv.withFreed _⟩
          exact congrArg (· >>= _) ht
        · exact .inr (congrArg (· >>= _) herr)
      · exact .inl ⟨s, rfl, hs⟩
    · rw [relocatePage, hs.slotted.visitPage_of_not_old hold]
      exact .inl ⟨s, rfl, hs⟩
  rcases foldlM_cases (f := relocatePage gcThreshold threadId) (P := fun _ s => s.Inv)
    (fun done pg rest s t _ hs hst => by
      rcases hpage s pg hs with ⟨t', ht', hinv⟩ | herr
      · rwa [Except.ok.inj (hst.symm.trans ht')]
      · rw [hst] at herr
        cases herr)
    h with ⟨t, ht, -⟩ | ⟨done, pg, rest, t, e', -, hinv, herr', hall⟩
  · rw [herr] at ht
    cases ht
  · rw [herr] at hall
    obtain rfl := Except.error.inj hall
    rcases hpage t pg hinv with ⟨t', ht', -⟩ | hpg
    · rw [herr'] at ht'
      cases ht'
    · exact Except.error.inj (herr'.symm.trans hpg)

end Relocating

end Logdb

/-! ## Both phases -/

namespace LogKV

/-- The record is still INSERT or UPDATE after the first phase. -/
def Keeps (b : LogKV cfg) (σ : Slot cfg) : Prop := (b.recAt σ).Kept ∧ ¬ b.Marked σ

/-- The free bytes of a page after the first phase. -/
noncomputable def freedBytes (b : LogKV cfg) (pg : PageId cfg) : ℕ :=
  b.szFreed pg + 32 * {σ : Slot cfg | σ.pageId = pg ∧ b.Marked σ}.ncard

/-- Which pages are scanned depends on the page counters only. -/
theorem rescanned_congr {b s : LogKV cfg} (h : s.ppage = b.ppage) {kept : Slot cfg → Prop}
    {freed : PageId cfg → ℕ} {gcThreshold : ℚ} {node : Fin numaNodeNum} :
    Rescanned s kept freed gcThreshold node = Rescanned b kept freed gcThreshold node := by
  have hold : s.Old = b.Old := by
    funext pg
    rw [Old, h, Old]
  have hnewest : s.newest = b.newest := by
    funext l
    rw [newest, h, newest]
  have hused : s.used = b.used := by
    funext l
    rw [used, h, used]
  funext pg
  simp only [Rescanned, RollsOver, arrivals, hold, hnewest, hused, h]

/-- A record is kept when it is not among those set to TRASH. -/
theorem Voided.kept_iff {b s : LogKV cfg} {T : Finset (Slot cfg)} (h : b.Voided T s)
    (hT : ∀ σ, σ ∈ T ↔ b.Marked σ) (σ : Slot cfg) : (s.recAt σ).Kept ↔ b.Keeps σ := by
  rw [Keeps, ← hT]
  by_cases hσ : σ ∈ T
  · rw [h.recAt_of_mem hσ]
    refine iff_of_false ?_ fun hc => hc.2 hσ
    rintro (hc | hc) <;> cases hc
  · rw [h.recAt_of_not_mem hσ]
    exact (and_iff_left hσ).symm

end LogKV

/-- `do_gc` when its first phase has left the log `log`. -/
theorem Logdb.doGc_of_marked {s : Logdb cfg} {log : LogKV cfg} {beginPos endPos : ℕ}
    {gcThreshold : ℚ} {id : Fin 48}
    (h : (gcPages cfg beginPos endPos).foldlM LogKV.markPage s.log = .ok log) :
    s.doGc gcThreshold id beginPos endPos = (gcPages cfg beginPos endPos).foldlM
      (relocatePage gcThreshold (gcThreadId id)) ⟨log, s.db⟩ := by
  rw [doGc, h]
  rfl

namespace Logdb

section Tidy

variable {W : UInt64 → UInt64 → Prop} {time : Slot cfg → ℕ} {now : ℕ} {s : Logdb cfg}

/-- The bytes of a record set to TRASH are counted in its own page. -/
theorem Tidy.szFreed_eq (h : s.Tidy W time now) {T : Finset (Slot cfg)} {log : LogKV cfg}
    (hlog : s.log.Voided T log) (hT : ∀ σ, σ ∈ T ↔ s.log.Marked σ) :
    log.szFreed = s.log.freedBytes := by
  funext pg
  have hcharged : ∀ σ ∈ T, s.log.charged σ = σ.pageId := by
    intro σ hσ
    exact LogKV.charged_eq (h.placed σ (h.turned_iff.mpr ((hT σ).mp hσ)).1)
  have hset : {σ : Slot cfg | σ.pageId = pg ∧ s.log.Marked σ} =
      ↑(T.filter (s.log.charged · = pg)) := by
    ext σ
    rw [Finset.mem_coe, Finset.mem_filter, Set.mem_ofPred_eq, ← hT, and_comm]
    refine and_congr_right fun hσ => ?_
    rw [hcharged σ hσ]
  rw [hlog.szFreed, LogKV.freedBytes, hset, Set.ncard_coe_finset]

/-- **A collection of all shards keeps the contents** when it re-applies current records
only; it fails only when a log has no page left. -/
theorem Tidy.doGc_abs (h : s.Tidy W time now) {gcThreshold : ℚ} {id : Fin 48}
    (hsettled : s.Settled gcThreshold (getNumaId (gcThreadId id)) s.log.Keeps
      s.log.freedBytes) :
    (∀ t, s.doGc gcThreshold id 0 cfg.shards = .ok t → t.Inv ∧ t.abs = s.abs) ∧
    ∀ e, s.doGc gcThreshold id 0 cfg.shards = .error e → e = .outOfBounds := by
  obtain ⟨log, hlog, htidy, habs, T, hvoided, hturned⟩ := h.mark 0 cfg.shards
  have hT : ∀ σ, σ ∈ T ↔ s.log.Marked σ := fun σ => (hturned σ).trans h.turned_iff
  rw [doGc_of_marked hlog]
  refine ⟨fun t ht => ?_, fun e he => htidy.store.relocatePages_error he⟩
  have hsettled' : Settled ⟨log, s.db⟩ gcThreshold (getNumaId (gcThreadId id))
      (keeps ⟨log, s.db⟩) log.szFreed := by
    have hkeeps : keeps ⟨log, s.db⟩ = s.log.Keeps :=
      funext fun σ => propext (hvoided.kept_iff hT σ)
    intro σ hσ hk
    rw [hkeeps] at hσ hk
    rw [h.szFreed_eq hvoided hT, LogKV.rescanned_congr hvoided.ppage] at hσ
    have hrec : log.recAt σ = s.log.recAt σ :=
      hvoided.recAt_of_not_mem fun hc => hk.2 ((hT σ).mp hc)
    rw [habs, hrec]
    exact hsettled σ hσ hk
  obtain ⟨hinvt, habst⟩ := htidy.store.relocatePages htidy.placed hsettled' ht
  exact ⟨hinvt, habst.trans habs⟩

/-- The record the index names is not set to TRASH. -/
theorem Tidy.not_marked (h : s.Tidy W time now) {k : UInt64} {σ : Slot cfg}
    (hdb : s.db k = some σ.word) (hσ : Target s.log k σ) : ¬ s.log.Marked σ :=
  fun hc => h.not_turned hdb hσ (h.turned_iff.mpr hc)

/-- The newest record of a log is in the newest page. -/
theorem not_old_append {log : LogKV cfg} (h : log.Slotted) {threadId : Fin 64} {k : UInt64}
    {r : PairT} :
    ¬ (log.append threadId k r).Old (log.nextSlot (cfg.logFor threadId k)).pageId := by
  have hpage : ((log.append threadId k r).ppage (cfg.logFor threadId k)).ppageId =
      (log.nextSlot (cfg.logFor threadId k)).pageId.page := by
    have hbump : (log.bump (cfg.xxh3 k)).Slotted := h.bump
    exact (congrArg PPage.ppageId LogKV.afterAlloc_ppage_self).trans (hbump.allocPage_eq _)
  intro hold
  exact absurd (hold.trans_eq hpage) (lt_irrefl _)

/-- **The first phase does not see an update that is in a newest page**: the record it
superseded keeps its op. -/
theorem Tidy.not_marked_of_update (h : s.Tidy W time now) {threadId : Fin 64} {k v : UInt64}
    {σ : Slot cfg} (hdb : s.db k = some σ.word) (hσ : Target s.log k σ)
    (hroom : s.log.Room threadId k) {t : Logdb cfg} {time' : Slot cfg → ℕ} {now' : ℕ}
    (ht : t.Tidy W time' now')
    (hlog : t.log = s.log.append threadId k (.updateRec (s.log.versionFor k) k v σ.word))
    (htdb : t.db k = some (s.log.nextSlot (cfg.logFor threadId k)).word) :
    ¬ t.log.Marked σ := by
  set ν := s.log.nextSlot (cfg.logFor threadId k) with hν
  have hs := h.store.slotted
  have hext := hs.extends_append hroom (.updateRec (s.log.versionFor k) k v σ.word)
  rw [← hlog] at hext
  have hσt : t.log.recAt σ = s.log.recAt σ := hext.recAt σ hσ.live
  have hνt : Target t.log k ν := by
    rw [hlog]
    exact target_append hs ⟨rfl, .inr rfl⟩
  -- only the new record is linked to the old one
  have honly : ∀ x, t.log.Links x σ → x = ν := by
    rintro x ⟨hop, hword, htarget⟩
    by_contra hx
    have hrec : t.log.recAt x = s.log.recAt x := by
      rw [hlog, LogKV.recAt_append hs, Function.update_of_ne hx]
    have hkey : (s.log.recAt x).key = k := by
      rw [← hrec, ← htarget.maps.1, hσt]
      exact hσ.maps.1
    rw [hrec] at hop hword
    exact h.head k _ hdb x (by rw [h.placed x hop, hkey]) hword
  rintro (⟨-, hdel⟩ | ⟨ρ, hold, hop, hreach⟩)
  · rw [hσt] at hdel
    rcases hσ.maps.2 with hop | hop <;> rw [hop] at hdel <;> cases hdel
  · obtain ⟨x, hρx, hx⟩ := Relation.TransGen.tail'_iff.mp hreach
    obtain rfl := honly x hx
    rcases Relation.reflTransGen_iff_eq_or_transGen.mp hρx with rfl | hρν
    · rw [hlog] at hold
      exact not_old_append hs hold
    · exact ht.not_marked htdb hνt (.inr ⟨ρ, hold, hop, hρν⟩)

end Tidy

end Logdb

namespace Traced

variable {s : Traced cfg}

/-! ## A page that is collected -/

/-- A store in which the second phase re-applies payload 1 of key 5: the log of node 0 has
one full page, in which every record of the key has this payload and one is left. -/
structure Stale (b : Logdb oneShard) (σ : Slot oneShard) : Prop where
  /-- the store invariant -/
  inv : b.Inv
  /-- the key is present -/
  present : (b.abs 5).isSome
  /-- the record is to be re-applied -/
  kept : (b.log.recAt σ).Kept
  /-- it is of the key -/
  key : (b.log.recAt σ).key = 5
  /-- it is in page 0 -/
  page : σ.pageId = ⟨oneShard.logFor 0 5, 0⟩
  /-- every record of the key in the page has the payload -/
  values : ∀ τ, τ.pageId = ⟨oneShard.logFor 0 5, 0⟩ → (b.log.recAt τ).Kept →
    (b.log.recAt τ).key = 5 → (b.log.recAt τ).value = 1
  /-- page 1 is the newest of the log -/
  newest : (b.log.ppage (oneShard.logFor 0 5)).ppageId = 1
  /-- there is room -/
  used : b.log.used (oneShard.logFor 0 5) ≤ slotsPerPage + 2
  /-- the other log has one page -/
  other : ∀ l, l ≠ oneShard.logFor 0 5 → (b.log.ppage l).ppageId = 0

section Stale

variable {b : Logdb oneShard} {σ : Slot oneShard}

theorem logFor_oneShard (k : UInt64) : oneShard.logFor 0 k = oneShard.logFor 0 5 := by
  have hlt : ∀ h : Fin oneShard.shards, h.val < 1 := fun h => h.isLt
  refine LogId.ext rfl (Fin.ext ?_)
  have h₁ := hlt (oneShard.logFor 0 k).hash
  have h₂ := hlt (oneShard.logFor 0 5).hash
  omega

/-- The state `u` while the page is scanned: the slots in `is` have been looked at. -/
structure Stale.Scan (b : Logdb oneShard) (σ : Slot oneShard) (is : List ℕ)
    (u : Logdb oneShard) : Prop where
  /-- the store invariant -/
  inv : u.Inv
  /-- the log is extended -/
  log : b.log.Extends u.log
  /-- the key is present -/
  present : (u.abs 5).isSome
  /-- once the record has been re-applied its payload is back, in a new record -/
  restored : σ.pos % slotsPerPage ∈ is → u.abs 5 = some 1 ∧
    b.log.used (oneShard.logFor 0 5) < u.log.used (oneShard.logFor 0 5)
  /-- the other log is left alone -/
  ppage : ∀ l, l ≠ oneShard.logFor 0 5 → u.log.ppage l = b.log.ppage l
  /-- there is room -/
  used : u.log.used (oneShard.logFor 0 5) ≤ slotsPerPage + 2 + is.length

theorem Stale.old (h : Stale b σ) : b.log.Old ⟨oneShard.logFor 0 5, 0⟩ := by
  rw [LogKV.Old, h.newest]
  exact Nat.zero_lt_one

/-- One record of the page. -/
theorem Stale.Scan.step (h : Stale b σ) {is : List ℕ} {u : Logdb oneShard} (hu : Scan b σ is u)
    {i : ℕ} (hi : i < slotsPerPage) (hlen : is.length < slotsPerPage) :
    ∃ t, Logdb.relocateRecord 0 ⟨oneShard.logFor 0 5, 0⟩ u i = .ok t ∧
      Scan b σ (is ++ [i]) t := by
  set pg : PageId oneShard := ⟨oneShard.logFor 0 5, 0⟩ with hpg
  have hσ : pg.slotAt (σ.pos % slotsPerPage) = σ := PageId.slotAt_pos h.page
  have hlive : b.log.Live (pg.slotAt i) :=
    LogKV.Slotted.live_of_page_lt (by rw [pg.pageId_slotAt hi]; exact h.old)
  have hrec := hu.log.recAt _ hlive
  cases hok : Logdb.relocateRecord 0 pg u i with
  | error e =>
    -- two pages are not enough to fill the log
    obtain ⟨-, hroom⟩ := hu.inv.relocateRecord_error hi (hu.log.live _ hlive) hok
    refine absurd ?_ hroom
    rw [LogKV.Room, logFor_oneShard]
    refine lt_of_le_of_lt hu.used ?_
    rw [slotsPerPage] at hlen ⊢
    rw [logCapacity]
    omega
  | ok t =>
    refine ⟨t, rfl, ?_⟩
    rcases hu.inv.relocateRecord_cases hi (hu.log.live _ hlive) hok with ⟨hskip, rfl⟩ | ⟨hr, hre⟩
    · refine ⟨hu.inv, hu.log, hu.present, fun hmem => ?_, hu.ppage, ?_⟩
      · rcases List.mem_append.mp hmem with hmem | hmem
        · exact hu.restored hmem
        · rw [List.mem_singleton.mp hmem] at hσ
          rw [hrec, hσ] at hskip
          exact absurd h.kept hskip
      · rw [List.length_append]
        exact hu.used.trans (by omega)
    · rw [hrec] at hr hre
      have hppage : ∀ l, l ≠ oneShard.logFor 0 5 → t.log.ppage l = b.log.ppage l :=
        fun l hl => (hre.ppage l (by rw [logFor_oneShard]; exact hl)).trans (hu.ppage l hl)
      have hused : t.log.used (oneShard.logFor 0 5) ≤ slotsPerPage + 2 + (is ++ [i]).length := by
        have hadd := hre.used
        rw [logFor_oneShard] at hadd
        have hle := hu.used
        rw [hadd, List.length_append, List.length_singleton]
        omega
      have hgrown : b.log.used (oneShard.logFor 0 5) < t.log.used (oneShard.logFor 0 5) := by
        have hadd := hre.used
        rw [logFor_oneShard] at hadd
        rw [hadd]
        exact Nat.lt_succ_of_le (hu.log.used_le _)
      by_cases hkey : (b.log.recAt (pg.slotAt i)).key = 5
      · have hvalue := h.values _ (pg.pageId_slotAt hi) hr hkey
        have habs : t.abs 5 = some 1 := by
          rw [hre.abs, reapply, if_pos ⟨hr, by rw [hkey]; exact hu.present⟩, hkey, hvalue,
            Function.update_self]
        exact ⟨hre.inv, hu.log.trans hre.log, by rw [habs]; rfl, fun _ => ⟨habs, hgrown⟩, hppage, hused⟩
      · have habs : t.abs 5 = u.abs 5 := by
          rw [hre.abs, reapply]
          split
          · exact Function.update_of_ne (fun hc => hkey hc.symm) ..
          · rfl
        refine ⟨hre.inv, hu.log.trans hre.log, by rw [habs]; exact hu.present, fun hmem => ?_,
          hppage, hused⟩
        rcases List.mem_append.mp hmem with hmem | hmem
        · exact ⟨habs.trans (hu.restored hmem).1, hgrown⟩
        · rw [List.mem_singleton.mp hmem] at hσ
          rw [hσ] at hkey
          exact absurd h.key hkey

/-- The scan of the page re-applies the record. -/
theorem Stale.relocateRecords (h : Stale b σ) :
    ∃ t, (List.range slotsPerPage).foldlM
        (Logdb.relocateRecord 0 ⟨oneShard.logFor 0 5, 0⟩) b = .ok t ∧
      t.Inv ∧ t.abs 5 = some 1 ∧
      b.log.used (oneShard.logFor 0 5) < t.log.used (oneShard.logFor 0 5) ∧
      ∀ l, l ≠ oneShard.logFor 0 5 → t.log.ppage l = b.log.ppage l := by
  obtain ⟨t, ht, hscan⟩ := exists_foldlM_of_append (List.range slotsPerPage)
    (f := Logdb.relocateRecord 0 ⟨oneShard.logFor 0 5, 0⟩) (Stale.Scan b σ) (s := b) (by
      intro is i rest u hrange hu
      have hi : i < slotsPerPage := by
        rw [← List.mem_range, hrange]
        exact List.mem_append_right _ (List.mem_cons_self ..)
      have hlen : is.length < slotsPerPage := by
        rw [← List.length_range (n := slotsPerPage), hrange, List.length_append, List.length_cons]
        omega
      exact hu.step h hi hlen)
    ⟨h.inv, h.inv.slotted.extends_refl, h.present, fun hc => absurd hc List.not_mem_nil,
      fun _ _ => rfl, h.used⟩
  obtain ⟨habs, hgrown⟩ := hscan.restored (List.mem_range.mpr (Nat.mod_lt _ (by decide)))
  exact ⟨t, ht, hscan.inv, habs, hgrown, hscan.ppage⟩

/-- The second phase re-applies the record. -/
theorem Stale.relocatePages (h : Stale b σ) :
    ∃ t, (gcPages oneShard 0 oneShard.shards).foldlM (Logdb.relocatePage 0 0) b = .ok t ∧
      t.Inv ∧ t.abs 5 = some 1 ∧
      b.log.used (oneShard.logFor 0 5) < t.log.used (oneShard.logFor 0 5) := by
  set pg₀ : PageId oneShard := ⟨oneShard.logFor 0 5, 0⟩ with hpg₀
  have hskip : ∀ (u : Logdb oneShard) (pg : PageId oneShard), u.Inv → ¬ u.log.Old pg →
      Logdb.relocatePage 0 0 u pg = .ok u :=
    fun u pg hu hold => hu.slotted.visitPage_of_not_old hold
  have hotherpage : ∀ (u : Logdb oneShard) (pg : PageId oneShard),
      (∀ l, l ≠ oneShard.logFor 0 5 → u.log.ppage l = b.log.ppage l) →
      pg.log ≠ oneShard.logFor 0 5 → ¬ u.log.Old pg := by
    intro u pg hu hlog hold
    rw [LogKV.Old, hu pg.log hlog, h.other pg.log hlog] at hold
    exact Nat.not_lt_zero _ hold
  have hpairwise := pairwise_gcPages oneShard 0 oneShard.shards
  obtain ⟨t, ht, -, hdone⟩ := exists_foldlM_of_append (gcPages oneShard 0 oneShard.shards)
    (f := Logdb.relocatePage 0 0)
    (fun done u => (pg₀ ∉ done → u = b) ∧ (pg₀ ∈ done → u.Inv ∧ u.abs 5 = some 1 ∧
      b.log.used (oneShard.logFor 0 5) < u.log.used (oneShard.logFor 0 5) ∧
      ∀ l, l ≠ oneShard.logFor 0 5 → u.log.ppage l = b.log.ppage l))
    (s := b) (by
      rintro done pg rest u has ⟨hbefore, hafter⟩
      rw [has] at hpairwise
      obtain ⟨-, -, hcross⟩ := List.pairwise_append.mp hpairwise
      by_cases hmem : pg₀ ∈ done
      · -- what comes after the page is of the other log
        obtain ⟨hinv, habs, hgrown, hppage⟩ := hafter hmem
        have hlog : pg.log ≠ oneShard.logFor 0 5 := by
          intro hlog
          rcases hcross pg₀ hmem pg (List.mem_cons_self ..) with hlt | ⟨-, hlt | ⟨-, hlt⟩⟩
          · exact absurd hlt (Nat.not_lt_zero _)
          · rw [hlog] at hlt
            exact lt_irrefl _ hlt
          · rw [hlog] at hlt
            exact lt_irrefl _ hlt
        exact ⟨u, hskip u pg hinv (hotherpage u pg hppage hlog),
          fun hc => absurd (List.mem_append_left _ hmem) hc, fun _ => ⟨hinv, habs, hgrown, hppage⟩⟩
      · obtain rfl := hbefore hmem
        by_cases hpg : pg = pg₀
        · subst hpg
          obtain ⟨t, ht, hinv, habs, hgrown, hppage⟩ := h.relocateRecords
          refine ⟨⟨{ t.log with szFreed := Function.update t.log.szFreed pg₀ 0 }, t.db⟩, ?_,
            fun hc => absurd (List.mem_append_right _ (List.mem_singleton.mpr rfl)) hc,
            fun _ => ⟨hinv.withFreed _, habs, hgrown, hppage⟩⟩
          rw [Logdb.relocatePage, h.inv.slotted.visitPage_old h.old,
            if_pos (div_nonneg (Nat.cast_nonneg _) (Nat.cast_nonneg _))]
          exact congrArg (· >>= _) ht
        · have hnot : ¬ u.log.Old pg := by
            by_cases hlog : pg.log = oneShard.logFor 0 5
            · intro hold
              rw [LogKV.Old, hlog, h.newest] at hold
              exact hpg (PageId.ext hlog (Nat.lt_one_iff.mp hold))
            · exact hotherpage u pg (fun _ _ => rfl) hlog
          refine ⟨u, hskip u pg h.inv hnot, fun _ => rfl, fun hc => ?_⟩
          rcases List.mem_append.mp hc with hc | hc
          · exact absurd hc hmem
          · exact absurd (List.mem_singleton.mp hc).symm hpg)
    ⟨fun _ => rfl, fun hc => absurd hc List.not_mem_nil⟩
  obtain ⟨hinv, habs, hgrown, -⟩ := hdone (mem_gcPages.mpr (Nat.zero_le _))
  exact ⟨t, ht, hinv, habs, hgrown⟩

end Stale

/-- **The record is re-applied**, in any state the log has been extended to, as long as the
first phase leaves the record alone. -/
theorem OldRecord.doGc {s s' : Traced oneShard} {σ : Slot oneShard} (hold : s.OldRecord σ)
    {W : UInt64 → UInt64 → Prop} {time : Slot oneShard → ℕ} {now : ℕ}
    (h : s'.store.Tidy W time now) (hext : s.store.log.Extends s'.store.log)
    (hnot : ¬ s'.store.log.Marked σ) (hpresent : (s'.store.abs 5).isSome)
    (hused : s'.store.log.used (oneShard.logFor 0 5) ≤ slotsPerPage + 2)
    (hother : ∀ l, l ≠ oneShard.logFor 0 5 → s'.store.log.used l = 0) :
    ∃ t, s'.store.doGc 0 0 0 oneShard.shards = .ok t ∧ t.Inv ∧ t.abs 5 = some 1 ∧
      s'.store.log.used (oneShard.logFor 0 5) < t.log.used (oneShard.logFor 0 5) := by
  obtain ⟨log, hlog, htidy, habs, T, hvoided, hturned⟩ := h.mark 0 oneShard.shards
  have hT : ∀ τ, τ ∈ T → s'.store.log.Marked τ :=
    fun τ hτ => h.turned_iff.mp ((hturned τ).mp hτ)
  have hlogused : log.used = s'.store.log.used := by
    funext l
    rw [LogKV.used, hvoided.ppage, LogKV.used]
  -- what is in page 0 has not been changed, unless it was set to TRASH
  have hlive : ∀ τ : Slot oneShard, τ.pageId = ⟨oneShard.logFor 0 5, 0⟩ → s.store.log.Live τ := by
    intro τ hτ
    refine LogKV.Slotted.live_of_page_lt ?_
    rw [show τ.log = oneShard.logFor 0 5 from congrArg PageId.log hτ, hold.newest, hτ]
    exact Nat.zero_lt_one
  have hrec : ∀ τ : Slot oneShard, τ.pageId = ⟨oneShard.logFor 0 5, 0⟩ → τ ∉ T →
      log.recAt τ = s.store.log.recAt τ :=
    fun τ hτ hmem => (hvoided.recAt_of_not_mem hmem).trans (hext.recAt τ (hlive τ hτ))
  have hσ := hrec σ hold.page fun hc => hnot (hT σ hc)
  have hsz := h.store.slotted.wf.sz_le
  have hstale : Stale ⟨log, s'.store.db⟩ σ := by
    refine ⟨htidy.store, ?_, ?_, ?_, hold.page, ?_, ?_, ?_, ?_⟩
    · rw [habs]
      exact hpresent
    · rw [hσ]
      exact hold.target.maps.2
    · rw [hσ]
      exact hold.target.maps.1
    · intro τ hτ hk hkey
      have hmem : τ ∉ T := by
        intro hmem
        rw [hvoided.recAt_of_mem hmem] at hk
        exact hk.ne_trash rfl
      rw [hrec τ hτ hmem] at hk hkey ⊢
      exact hold.value_of_key hk.ne_trash hkey
    · have hle := hsz (oneShard.logFor 0 5)
      have hfill := hext.used_le (oneShard.logFor 0 5)
      rw [hold.used] at hfill
      rw [hvoided.ppage]
      simp only [LogKV.used, ppageSize_eq, slotsPerPage, PairT.size] at hfill hle hused
      omega
    · rw [hlogused]
      exact hused
    · intro l hl
      have hzero := hother l hl
      rw [hvoided.ppage]
      exact (Nat.mul_eq_zero.mp (Nat.add_eq_zero_iff.mp hzero).1).resolve_right (by decide)
  obtain ⟨t, ht, hinv, habst, hgrown⟩ := hstale.relocatePages
  have hid : gcThreadId 0 = 0 := by decide
  refine ⟨t, ?_, hinv, habst, ?_⟩
  · rw [Logdb.doGc_of_marked hlog, hid, ht]
  · rw [hlogused] at hgrown
    exact hgrown

/-! ## Contents -/

/-- A successful erase is of a present key. -/
theorem Succeeds.erasesPresent (h : s.store.log.Slotted) {c : Call} (hc : s.Succeeds c) :
    s.ErasesPresent c := by
  intro k hk
  obtain ⟨tid, op⟩ := c
  obtain rfl : op = .erase k := hk
  obtain ⟨store, hst⟩ := hc
  simp only [Logdb.step, Logdb.erase_eq h] at hst
  split at hst
  · exact Ret.bool.inj (Prod.mk.inj (Except.ok.inj hst)).1
  · cases hst

/-- Successful calls keep the log in order. -/
theorem tidy_of_succeeds {cs : List Call} (hrun : Run step Succeeds (fresh cfg) cs s) :
    ∃ time now, s.store.Tidy (fun _ _ => True) time now := by
  refine hrun.invariant (I := fun s => ∃ time now, s.store.Tidy (fun _ _ => True) time now) ?_
    ⟨_, _, Logdb.tidy_fresh _⟩
  rintro s c t ⟨time, now, h⟩ hC hst
  obtain ⟨⟨r, store⟩, hok, ht⟩ := bind_eq_ok hst
  obtain rfl := Except.ok.inj ht
  exact h.step (fun _ _ _ => trivial) (hC.erasesPresent h.store.slotted) hok

/-- **Garbage collection keeps the contents** if each record that its second phase
re-applies has the payload of its key, or its key is absent. In every state reached by
successful calls, for every threshold and every collector: `do_gc` over all shards returns
or runs out of pages, and when it returns, every search finds what it found before. The
records that are re-applied are those in the pages scanned again that are still INSERT or
UPDATE, that is, not linked from an UPDATE or DELETE record in an old page. -/
theorem gc_preserves_contents (cfg : Config) {cs : List Call} {s : Traced cfg}
    (hrun : Run step Succeeds (fresh cfg) cs s) (gcThreshold : ℚ) (id : Fin 48)
    (hsettled : s.store.Settled gcThreshold (getNumaId (gcThreadId id)) s.store.log.Keeps
      s.store.log.freedBytes) :
    (∀ t, s.store.doGc gcThreshold id 0 cfg.shards = .ok t →
      ∀ k, t.search k = s.store.search k) ∧
    ∀ e, s.store.doGc gcThreshold id 0 cfg.shards = .error e → e = .outOfBounds := by
  obtain ⟨time, now, h⟩ := tidy_of_succeeds hrun
  obtain ⟨hok, herr⟩ := h.doGc_abs hsettled
  refine ⟨fun t ht k => ?_, herr⟩
  obtain ⟨hinv, habs⟩ := hok t ht
  rw [hinv.search_eq, habs, h.store.search_eq]

/-- Page 0 is full when it is collected. The record of key 5 in it is the one the index
names, and the second phase moves it to the newest page. -/
theorem gc_preserves_contents_oldRecord :
    ∃ (s : Traced oneShard) (σ : Slot oneShard) (n : ℕ) (t : Logdb oneShard),
      Run step Succeeds (fresh oneShard)
        (⟨0, .insert 5 1⟩ :: ⟨0, .insert 6 0⟩ :: List.replicate n ⟨0, .update 6 0⟩) s ∧
      s.store.Settled 0 (getNumaId (gcThreadId 0)) s.store.log.Keeps s.store.log.freedBytes ∧
      s.store.log.Old σ.pageId ∧ s.store.log.Keeps σ ∧ s.store.db 5 = some σ.word ∧
      s.store.doGc 0 0 0 1 = .ok t ∧ s.store.log.used σ.log < t.log.used σ.log ∧
      ∀ k, t.search k = s.store.search k := by
  obtain ⟨s, σ, n, hrun, hold⟩ := exists_oldRecord
  obtain ⟨time, now, h⟩ := tidy_of_succeeds hrun
  have hlog : σ.log = oneShard.logFor 0 5 := congrArg PageId.log hold.page
  have hnot := h.not_marked hold.db hold.target
  have hsettled : s.store.Settled 0 (getNumaId (gcThreadId 0)) s.store.log.Keeps
      s.store.log.freedBytes := by
    intro τ _ hk v hv
    rw [hold.current τ hk.1.ne_trash] at hv
    exact (Option.some_inj.mp hv).symm
  obtain ⟨t, ht, -, -, hgrown⟩ := hold.doGc h h.store.slotted.extends_refl hnot
    (by rw [hold.abs]; rfl) (by rw [hold.used]; omega) hold.other
  refine ⟨s, σ, n, t, hrun, hsettled, ?_, ⟨hold.target.maps.2, hnot⟩, hold.db, ht, ?_,
    (gc_preserves_contents oneShard hrun 0 0 hsettled).1 t ht⟩
  · rw [hold.page, LogKV.Old, hold.newest]
    exact Nat.zero_lt_one
  · rw [hlog]
    exact hgrown

/-- Key 5 is updated when page 1 of its log is the newest; its first record is in page 0. -/
theorem gc_restores_superseded :
    ¬ ∀ (cfg : Config) (cs : List Call) (s : Traced cfg), Run step Succeeds (fresh cfg) cs s →
      ∀ (gcThreshold : ℚ) (id : Fin 48) (t : Logdb cfg),
        s.store.doGc gcThreshold id 0 cfg.shards = .ok t → ∀ k, t.search k = s.store.search k := by
  intro hclaim
  obtain ⟨s, σ, n, hrun, hold⟩ := exists_oldRecord
  obtain ⟨time, now, h⟩ := tidy_of_succeeds hrun
  have hs := hold.inv.slotted
  have hroom : s.store.log.Room 0 5 := by
    rw [LogKV.Room, hold.used]
    decide
  let r := PairT.updateRec (s.store.log.versionFor 5) 5 2 σ.word
  let ν := s.store.log.nextSlot (oneShard.logFor 0 5)
  let s' : Traced oneShard :=
    ⟨⟨s.store.log.append 0 5 r, Function.update s.store.db 5 (some ν.word)⟩, s.history ++ [ν]⟩
  have hupdate : s.store.step ⟨0, .update 5 2⟩ = .ok (.bool true, s'.store) := by
    have heq : s.store.update 0 5 2 = .ok (true, s'.store) :=
      (Logdb.update_eq_of_some hs 2 hold.db).trans (if_pos hroom)
    simp only [Logdb.step, heq]
    rfl
  have hstep : s.step ⟨0, .update 5 2⟩ = .ok s' := by
    rw [step, hupdate]
    rfl
  have hrun' := hrun.append (.single ⟨_, hupdate⟩ hstep)
  obtain ⟨time', now', h'⟩ := tidy_of_succeeds hrun'
  have hdb : s'.store.db 5 = some ν.word := by
    rw [show s'.store.db = Function.update s.store.db 5 (some ν.word) from rfl,
      Function.update_self]
  have hν : Logdb.Target s'.store.log 5 ν := Logdb.target_append hs ⟨rfl, .inr rfl⟩
  have habs : s'.store.abs 5 = some 2 := by
    rw [h'.store.abs_of_db hdb hν]
    exact congrArg (some ·.value) (LogKV.recAt_append_self hs)
  have hused : s'.store.log.used = Function.update s.store.log.used (oneShard.logFor 0 5)
      (s.store.log.used (oneShard.logFor 0 5) + 1) := LogKV.used_append hs
  obtain ⟨t, hgc, hinvt, habst, -⟩ := hold.doGc h' (hs.extends_append hroom r)
    (h.not_marked_of_update hold.db hold.target hroom h' rfl hdb) (by rw [habs]; rfl)
    (by rw [hused, Function.update_self, hold.used])
    (fun l hl => by rw [hused, Function.update_of_ne hl, hold.other l hl])
  have heq := hclaim oneShard _ s' hrun' 0 0 t hgc 5
  rw [hinvt.search_eq, h'.store.search_eq, habst, habs] at heq
  exact absurd heq (by decide)

end Traced

end NaliStore
