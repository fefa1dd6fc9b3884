import NaliStore.Alloc

/-!
# The space `PPage::alloc` hands out

Runs of `PPage::alloc` calls on any logs, with any sizes up to that of a page. A region is
what a caller takes from the `log_info` it gets back: node, shard, page number and the
bytes from the offset on. `ppage_id` is a `size_t` that is counted up without a check and
`ppage_id_` has eight bits, so the page with number 256 is handed out as page 0.

Until a call goes to that page, regions never overlap, and at every moment the regions in
the newest page of a log lie one behind the other from the start of the page up to
`sz_allocated`. The call that goes there breaks this for good: a region in page 255 is in
front of it. The table of page addresses has room for 32 pages of a log; a write behind it
is not looked at here, since neither the headers nor `log_info` depend on it.
-/

namespace NaliStore

open Runs

variable {cfg : Config}

/-! ## One allocation -/

/-- `PPage::alloc` on the `PPage` of a log: the address that is handed out, and the header. -/
def PPage.alloc (p : PPage cfg) (l : LogId cfg) (logInfo : LastLogOffest) (allocSize : ℕ) :
    LastLogOffest × PPage cfg :=
  let p :=
    if allocSize > StdString.sizeSub ppageSize p.szAllocated then
      let ppageId := (p.ppageId + 1) % 2 ^ 64
      ⟨some ⟨l, ppageId⟩, ppageId, 0⟩
    else p
  ({ logInfo with
      numaId := UInt8.ofNat l.numa
      ppageId := UInt8.ofNat p.ppageId
      logOffset := UInt32.ofNat p.szAllocated },
    { p with szAllocated := p.szAllocated + allocSize })

/-- It is what `LogKV` does as long as the table has room. -/
theorem LogKV.alloc_ppage {s s' : LogKV cfg} {l : LogId cfg} {logInfo li : LastLogOffest} {size : ℕ}
    {p : Ptr cfg} (h : s.alloc l logInfo size = .ok (p, li, s')) :
    s'.ppage = Function.update s.ppage l ((s.ppage l).alloc l logInfo size).2 ∧
      li = ((s.ppage l).alloc l logInfo size).1 := by
  rw [LogKV.alloc] at h
  rw [PPage.alloc]
  split at h
  · rename_i hroll
    obtain ⟨s₁, hnext, h⟩ := bind_eq_ok h
    obtain ⟨⟨start, s₂⟩, hnew, hs₁⟩ := bind_eq_ok hnext
    obtain rfl := Except.ok.inj hs₁
    rw [LogKV.allocNewPpage] at hnew
    split at hnew
    · cases hnew
    split at hnew
    · obtain ⟨rfl, rfl⟩ := Prod.mk.inj (Except.ok.inj hnew)
      obtain ⟨-, hli, hs'⟩ := Prod.mk.inj (Except.ok.inj h) |>.imp id Prod.mk.inj
      rw [if_pos hroll, ← hli, ← hs']
      simp only [Function.update_self, Function.update_idem, and_self]
    · cases hnew
  · rename_i hroll
    obtain ⟨s₁, hs₁, h⟩ := bind_eq_ok h
    obtain rfl := Except.ok.inj hs₁
    obtain ⟨-, hli, hs'⟩ := Prod.mk.inj (Except.ok.inj h) |>.imp id Prod.mk.inj
    rw [if_neg hroll, ← hli, ← hs']
    exact ⟨rfl, rfl⟩

namespace PPage

variable {p : PPage cfg} {l : LogId cfg} {logInfo : LastLogOffest} {n : ℕ}

/-- A record that fits goes behind the others of the page. -/
theorem alloc_of_le (hsz : p.szAllocated ≤ ppageSize) (h : n ≤ ppageSize - p.szAllocated) :
    p.alloc l logInfo n =
      ({ logInfo with
          numaId := UInt8.ofNat l.numa
          ppageId := UInt8.ofNat p.ppageId
          logOffset := UInt32.ofNat p.szAllocated },
        { p with szAllocated := p.szAllocated + n }) := by
  have hfree : StdString.sizeSub ppageSize p.szAllocated = ppageSize - p.szAllocated :=
    StdString.sizeSub_of_le hsz (by decide)
  rw [alloc, hfree, if_neg (Nat.not_lt.mpr h)]

/-- A record that does not fit goes to the start of the next page. -/
theorem alloc_of_lt (hsz : p.szAllocated ≤ ppageSize) (h : ppageSize - p.szAllocated < n)
    (hpage : p.ppageId + 1 < 2 ^ 64) :
    p.alloc l logInfo n =
      ({ logInfo with
          numaId := UInt8.ofNat l.numa
          ppageId := UInt8.ofNat (p.ppageId + 1)
          logOffset := UInt32.ofNat 0 },
        ⟨some ⟨l, p.ppageId + 1⟩, p.ppageId + 1, n⟩) := by
  have hfree : StdString.sizeSub ppageSize p.szAllocated = ppageSize - p.szAllocated :=
    StdString.sizeSub_of_le hsz (by decide)
  rw [alloc, hfree, if_pos h]
  simp only [Nat.mod_eq_of_lt hpage, Nat.zero_add]

end PPage

/-! ## Regions -/

/-- A call of `PPage::alloc` on the `PPage` of a log. -/
structure PPageCall (cfg : Config) where
  /-- the log -/
  log : LogId cfg
  /-- `log_info` as the caller passes it -/
  logInfo : LastLogOffest
  /-- `alloc_size` -/
  size : ℕ

/-- The size is one a page can hold. -/
def PPageCall.Sized (c : PPageCall cfg) : Prop := 1 ≤ c.size ∧ c.size ≤ ppageSize

/-- The space a call was given. -/
structure Region (cfg : Config) where
  /-- `numa_id_` -/
  numa : ℕ
  /-- the shard of the log -/
  hash : Fin cfg.shards
  /-- `ppage_id_` -/
  page : ℕ
  /-- `log_offset_` -/
  off : ℕ
  /-- `alloc_size` -/
  size : ℕ

namespace Region

/-- The region is in the log. -/
def In (r : Region cfg) (l : LogId cfg) : Prop := r.numa = l.numa ∧ r.hash = l.hash

instance (r : Region cfg) (l : LogId cfg) : Decidable (r.In l) :=
  inferInstanceAs (Decidable (_ ∧ _))

/-- The regions have no byte in common. -/
def Disjoint (r r' : Region cfg) : Prop :=
  r.numa ≠ r'.numa ∨ r.hash ≠ r'.hash ∨ r.page ≠ r'.page ∨ r.off + r.size ≤ r'.off ∨
    r'.off + r'.size ≤ r.off

instance (r r' : Region cfg) : Decidable (r.Disjoint r') :=
  inferInstanceAs (Decidable (_ ∨ _))

/-- In the same log, `r'` is not in an older page than `r`. -/
def PageLe (r r' : Region cfg) : Prop :=
  r.numa = r'.numa → r.hash = r'.hash → r.page ≤ r'.page

/-- The regions lie one behind the other from `a` to `b`. -/
def Tiles : ℕ → List (Region cfg) → ℕ → Prop
  | a, [], b => a = b
  | a, r :: rs, b => r.off = a ∧ Tiles (a + r.size) rs b

theorem Tiles.concat {a b : ℕ} {rs : List (Region cfg)} {r : Region cfg} (h : Tiles a rs b)
    (hr : r.off = b) : Tiles a (rs ++ [r]) (b + r.size) := by
  induction rs generalizing a with
  | nil =>
    obtain rfl : a = b := h
    exact ⟨hr, rfl⟩
  | cons r' rs ih => exact ⟨h.1, ih h.2⟩

theorem In.eq {r : Region cfg} {l l' : LogId cfg} (h : r.In l) (h' : r.In l') : l = l' :=
  LogId.ext (Fin.ext (h.1.symm.trans h'.1)) (h.2.symm.trans h'.2)

end Region

/-- The headers of the logs and the regions that have been handed out, oldest first. -/
structure RegionRun (cfg : Config) where
  /-- the headers -/
  ppage : LogId cfg → PPage cfg
  /-- the history -/
  regions : List (Region cfg)

namespace RegionRun

/-- Make a call and remember the region. -/
def step (s : RegionRun cfg) (c : PPageCall cfg) : Except Fault (RegionRun cfg) :=
  let (logInfo, p) := (s.ppage c.log).alloc c.log c.logInfo c.size
  .ok ⟨Function.update s.ppage c.log p, s.regions ++ [⟨logInfo.numaId.toNat, c.log.hash,
    logInfo.ppageId.toNat, logInfo.logOffset.toNat, c.size⟩]⟩

/-- Fresh `PPage`s, each with an empty page 0. -/
def fresh (cfg : Config) : RegionRun cfg := ⟨(LogKV.fresh cfg).ppage, []⟩

/-- The regions in the newest page of a log, oldest first. -/
def current (s : RegionRun cfg) (l : LogId cfg) : List (Region cfg) :=
  s.regions.filter fun r => r.In l ∧ r.page = (s.ppage l).ppageId

/-- No space was handed out twice, and none is left out in the newest pages. -/
structure HandedOutOnce (s : RegionRun cfg) : Prop where
  /-- regions do not overlap -/
  disjoint : s.regions.Pairwise Region.Disjoint
  /-- each lies inside one page -/
  inside : ∀ r ∈ s.regions, r.off + r.size ≤ ppageSize
  /-- page numbers do not decrease -/
  pages : s.regions.Pairwise Region.PageLe
  /-- the newest page is tiled up to `sz_allocated` -/
  tiles : ∀ l, Region.Tiles 0 (s.current l) (s.ppage l).szAllocated
  /-- which is in the page -/
  size : ∀ l, (s.ppage l).szAllocated ≤ ppageSize

/-- The call stays in the newest page of its log, or the next page has a number below 256. -/
def PageFits (s : RegionRun cfg) (c : PPageCall cfg) : Prop :=
  c.size ≤ ppageSize - (s.ppage c.log).szAllocated ∨ (s.ppage c.log).ppageId + 1 < 256

instance (s : RegionRun cfg) (c : PPageCall cfg) : Decidable (s.PageFits c) :=
  inferInstanceAs (Decidable (_ ∨ _))

/-- The invariant of a run in which pages fit. -/
structure Inv (s : RegionRun cfg) : Prop extends HandedOutOnce s where
  /-- page numbers fit into eight bits -/
  page : ∀ l, (s.ppage l).ppageId < 256
  /-- every region is in a page of its log, before the append position -/
  behind : ∀ r ∈ s.regions, ∃ l, r.In l ∧ r.page ≤ (s.ppage l).ppageId ∧
    (r.page = (s.ppage l).ppageId → r.off + r.size ≤ (s.ppage l).szAllocated)

theorem inv_fresh (cfg : Config) : (fresh cfg).Inv where
  disjoint := .nil
  inside _ h := absurd h List.not_mem_nil
  pages := .nil
  tiles _ := rfl
  size _ := Nat.zero_le _
  page _ := Nat.zero_lt_succ 255
  behind _ h := absurd h List.not_mem_nil

/-! ## One call -/

section Step

variable {s t : RegionRun cfg} {c : PPageCall cfg}

/-- The call handed out `r` and moved the append position of its log behind it. -/
structure Gave (s : RegionRun cfg) (c : PPageCall cfg) (r : Region cfg) (t : RegionRun cfg) :
    Prop where
  /-- the region is in the log -/
  mem : r.In c.log
  /-- it is as long as it was asked for -/
  size : r.size = c.size
  /-- and remembered -/
  regions : t.regions = s.regions ++ [r]
  /-- its page is now the newest -/
  ppageId : (t.ppage c.log).ppageId = r.page
  /-- and used up to its end -/
  szAllocated : (t.ppage c.log).szAllocated = r.off + r.size
  /-- the other logs are as before -/
  other : ∀ l, l ≠ c.log → t.ppage l = s.ppage l

/-- The call stays in the newest page. -/
def Stays (s : RegionRun cfg) (l : LogId cfg) (r : Region cfg) : Prop :=
  r.page = (s.ppage l).ppageId ∧ r.off = (s.ppage l).szAllocated

/-- The call begins the next page. -/
def Rolls (s : RegionRun cfg) (l : LogId cfg) (r : Region cfg) : Prop :=
  r.page = (s.ppage l).ppageId + 1 ∧ r.off = 0

theorem toNat_numa (l : LogId cfg) : (UInt8.ofNat l.numa).toNat = l.numa :=
  UInt8.toNat_ofNat_of_lt' (l.numa.isLt.trans (by decide))

/-- What a call does while the pages fit. -/
theorem Inv.exists_gave (h : s.Inv) (hsized : c.Sized) (hfits : s.PageFits c)
    (hstep : s.step c = .ok t) :
    ∃ r, Gave s c r t ∧ r.off + r.size ≤ ppageSize ∧ r.page < 256 ∧
      (s.Stays c.log r ∨ s.Rolls c.log r) := by
  have hsz := h.size c.log
  have hpage := h.page c.log
  have hnuma := toNat_numa c.log
  rw [step] at hstep
  by_cases hle : c.size ≤ ppageSize - (s.ppage c.log).szAllocated
  · have hp : (UInt8.ofNat (s.ppage c.log).ppageId).toNat = (s.ppage c.log).ppageId :=
      UInt8.toNat_ofNat_of_lt' hpage
    have ho : (UInt32.ofNat (s.ppage c.log).szAllocated).toNat = (s.ppage c.log).szAllocated :=
      UInt32.toNat_ofNat_of_lt' (lt_of_le_of_lt hsz (by decide))
    simp only [PPage.alloc_of_le hsz hle, hnuma, hp, ho] at hstep
    obtain rfl := Except.ok.inj hstep
    refine ⟨_, ⟨⟨rfl, rfl⟩, rfl, rfl, ?_, ?_, fun l hl => Function.update_of_ne hl _ _⟩,
      (Nat.le_sub_iff_add_le' hsz).mp hle, hpage, .inl ⟨rfl, rfl⟩⟩
    · simp only [Function.update_self]
    · simp only [Function.update_self]
  · have hfits : (s.ppage c.log).ppageId + 1 < 256 := hfits.resolve_left hle
    have hp : (UInt8.ofNat ((s.ppage c.log).ppageId + 1)).toNat = (s.ppage c.log).ppageId + 1 :=
      UInt8.toNat_ofNat_of_lt' hfits
    have ho : (UInt32.ofNat 0).toNat = 0 := rfl
    simp only [PPage.alloc_of_lt hsz (Nat.lt_of_not_le hle) (hfits.trans (by decide)), hnuma, hp,
      ho] at hstep
    obtain rfl := Except.ok.inj hstep
    refine ⟨_, ⟨⟨rfl, rfl⟩, rfl, rfl, ?_, ?_, fun l hl => Function.update_of_ne hl _ _⟩,
      (Nat.zero_add _).le.trans hsized.2, hfits, .inr ⟨rfl, rfl⟩⟩
    · simp only [Function.update_self]
    · simp only [Function.update_self, Nat.zero_add]

/-- A region that was handed out before is in front of the next one of its log. -/
theorem Inv.in_front (h : s.Inv) {r r' : Region cfg} (hr : r ∈ s.regions) (hin : r.In c.log)
    (hr' : s.Stays c.log r' ∨ s.Rolls c.log r') :
    r.page < r'.page ∨ r.page = r'.page ∧ r.off + r.size ≤ r'.off := by
  obtain ⟨l, hl, hpage, hoff⟩ := h.behind r hr
  obtain rfl := hin.eq hl
  rcases hr' with ⟨hpage', hoff'⟩ | ⟨hpage', -⟩
  · rcases Nat.eq_or_lt_of_le hpage with heq | hlt
    · exact .inr ⟨heq.trans hpage'.symm, (hoff heq).trans hoff'.ge⟩
    · exact .inl (hlt.trans_eq hpage'.symm)
  · exact .inl ((Nat.lt_succ_of_le hpage).trans_eq hpage'.symm)

/-- The regions of a log in the page of the next one, with it, tile that page up to its end. -/
theorem Inv.tiles_next (h : s.Inv) {r : Region cfg} (hin : r.In c.log)
    (hr : s.Stays c.log r ∨ s.Rolls c.log r) :
    Region.Tiles 0 ((s.regions ++ [r]).filter fun r' => r'.In c.log ∧ r'.page = r.page)
      (r.off + r.size) := by
  have hlast : [r].filter (fun r' => r'.In c.log ∧ r'.page = r.page) = [r] :=
    List.filter_eq_self.mpr fun r' hr' => by
      obtain rfl := List.mem_singleton.mp hr'
      exact decide_eq_true ⟨hin, rfl⟩
  rw [List.filter_append, hlast]
  refine Region.Tiles.concat ?_ rfl
  rcases hr with ⟨hpage, hoff⟩ | ⟨hpage, hoff⟩
  · rw [hpage, hoff]
    exact h.tiles c.log
  · -- no region is in the new page
    have hnone : s.regions.filter (fun r' => r'.In c.log ∧ r'.page = r.page) = [] := by
      refine List.filter_eq_nil_iff.mpr fun r' hr' hc => ?_
      obtain ⟨hin', hpage'⟩ := of_decide_eq_true hc
      obtain ⟨l, hl, hle, -⟩ := h.behind r' hr'
      obtain rfl := hin'.eq hl
      rw [hpage', hpage] at hle
      exact absurd hle (Nat.not_succ_le_self _)
    rw [hnone, hoff]
    rfl

/-- **A call keeps the invariant while the pages fit.** -/
theorem Inv.step (h : s.Inv) (hsized : c.Sized) (hfits : s.PageFits c) (hstep : s.step c = .ok t) :
    t.Inv := by
  obtain ⟨r, hgave, hinside, hlt, hr⟩ := h.exists_gave hsized hfits hstep
  have hfront : ∀ r' ∈ s.regions, r'.In c.log →
      r'.page < r.page ∨ r'.page = r.page ∧ r'.off + r'.size ≤ r.off :=
    fun r' hr' hin => h.in_front hr' hin hr
  have hle : (s.ppage c.log).ppageId ≤ r.page := by
    rcases hr with ⟨hpage, -⟩ | ⟨hpage, -⟩
    · exact hpage.ge
    · exact (Nat.le_succ _).trans hpage.ge
  refine ⟨⟨?_, ?_, ?_, ?_, ?_⟩, ?_, ?_⟩
  · rw [hgave.regions]
    refine List.pairwise_append.mpr ⟨h.disjoint, List.pairwise_singleton .., fun r' hr' ν hν => ?_⟩
    obtain rfl := List.mem_singleton.mp hν
    by_cases hin : r'.In c.log
    · rcases hfront r' hr' hin with hlt | ⟨-, hle⟩
      · exact .inr (.inr (.inl (Nat.ne_of_lt hlt)))
      · exact .inr (.inr (.inr (.inl hle)))
    · rcases not_and_or.mp hin with hn | hh
      · exact .inl (hgave.mem.1 ▸ hn)
      · exact .inr (.inl (hgave.mem.2 ▸ hh))
  · intro r' hr'
    rw [hgave.regions] at hr'
    rcases List.mem_append.mp hr' with hr' | hr'
    · exact h.inside r' hr'
    · obtain rfl := List.mem_singleton.mp hr'
      exact hinside
  · rw [hgave.regions]
    refine List.pairwise_append.mpr ⟨h.pages, List.pairwise_singleton .., ?_⟩
    intro r' hr' ν hν hn hh
    obtain rfl := List.mem_singleton.mp hν
    rcases hfront r' hr' ⟨hn.trans hgave.mem.1, hh.trans hgave.mem.2⟩ with hlt | ⟨heq, -⟩
    · exact le_of_lt hlt
    · exact le_of_eq heq
  · intro l
    rw [current, hgave.regions]
    by_cases hl : l = c.log
    · subst hl
      rw [hgave.ppageId, hgave.szAllocated]
      exact h.tiles_next hgave.mem hr
    · have hlast : [r].filter (fun r' => r'.In l ∧ r'.page = (s.ppage l).ppageId) = [] := by
        refine List.filter_eq_nil_iff.mpr fun r' hr' hc => ?_
        obtain rfl := List.mem_singleton.mp hr'
        exact hl ((of_decide_eq_true hc).1.eq hgave.mem)
      rw [hgave.other l hl, List.filter_append, hlast, List.append_nil]
      exact h.tiles l
  · intro l
    by_cases hl : l = c.log
    · rw [hl, hgave.szAllocated]
      exact hinside
    · rw [hgave.other l hl]
      exact h.size l
  · intro l
    by_cases hl : l = c.log
    · rw [hl, hgave.ppageId]
      exact hlt
    · rw [hgave.other l hl]
      exact h.page l
  · intro r' hr'
    rw [hgave.regions] at hr'
    rcases List.mem_append.mp hr' with hr' | hr'
    · obtain ⟨l, hin, hpage, hoff⟩ := h.behind r' hr'
      refine ⟨l, hin, ?_⟩
      by_cases hl : l = c.log
      · subst hl
        rw [hgave.ppageId, hgave.szAllocated]
        refine ⟨hpage.trans hle, fun heq => ?_⟩
        rcases hfront r' hr' hin with hlt | ⟨-, hle⟩
        · exact absurd heq (Nat.ne_of_lt hlt)
        · exact hle.trans (Nat.le_add_right _ _)
      · rw [hgave.other l hl]
        exact ⟨hpage, hoff⟩
    · obtain rfl := List.mem_singleton.mp hr'
      exact ⟨c.log, hgave.mem, hgave.ppageId.ge, fun _ => hgave.szAllocated.ge⟩

/-- The regions handed out before a call are there after it. -/
theorem regions_of_step (hstep : s.step c = .ok t) : ∃ r, t.regions = s.regions ++ [r] := by
  obtain rfl := Except.ok.inj hstep
  exact ⟨_, rfl⟩

/-- In a page that is used there is a region. -/
theorem Inv.exists_mem_current (h : s.Inv) {l : LogId cfg} (hpos : 0 < (s.ppage l).szAllocated) :
    ∃ r ∈ s.regions, r.In l ∧ r.page = (s.ppage l).ppageId := by
  have htiles := h.tiles l
  cases hcurrent : s.current l with
  | nil =>
    rw [hcurrent] at htiles
    exact absurd htiles (Nat.ne_of_lt hpos)
  | cons r rs =>
    have hr : r ∈ s.current l := hcurrent ▸ List.mem_cons_self ..
    obtain ⟨hmem, hc⟩ := List.mem_filter.mp hr
    exact ⟨r, hmem, of_decide_eq_true hc⟩

/-- **A call that goes to page 256 hands out page 0**, in front of a region in page 255. -/
theorem Inv.pageFits (h : s.Inv) (hsized : c.Sized) (hstep : s.step c = .ok t)
    (hpages : t.regions.Pairwise Region.PageLe) : s.PageFits c := by
  by_contra hnot
  obtain ⟨hlt, hpage⟩ := not_or.mp hnot
  have hlt : ppageSize - (s.ppage c.log).szAllocated < c.size := Nat.lt_of_not_le hlt
  have hpage : (s.ppage c.log).ppageId = 255 := by
    have := h.page c.log
    omega
  have hpos : 0 < (s.ppage c.log).szAllocated := by
    have := hsized.2
    omega
  obtain ⟨r, hr, hin, hrpage⟩ := h.exists_mem_current hpos
  rw [RegionRun.step, PPage.alloc_of_lt (h.size c.log) hlt (by rw [hpage]; decide), hpage] at hstep
  obtain rfl := Except.ok.inj hstep
  have hle := (List.pairwise_append.mp hpages).2.2 r hr _ (List.mem_singleton_self _)
    (hin.1.trans (toNat_numa c.log).symm) hin.2
  have hzero : (UInt8.ofNat (255 + 1)).toNat = 0 := by decide
  simp only [hrpage, hpage, hzero] at hle
  exact absurd hle (by decide)

end Step

/-! ## Runs -/

section Runs

variable {s t : RegionRun cfg} {cs : List (PPageCall cfg)}

/-- What was handed out stays. -/
theorem regions_extend {C : RegionRun cfg → PPageCall cfg → Prop} (h : Run step C s cs t) :
    s.regions <+: t.regions := by
  induction h with
  | nil s => exact List.prefix_rfl
  | cons _ hst _ ih =>
    obtain ⟨r, hr⟩ := regions_of_step hst
    exact (hr ▸ List.prefix_append ..).trans ih

/-- If page numbers never decrease, every call of the run stayed below page 256. -/
theorem Inv.run_pageFits (h : s.Inv) (hrun : Run RegionRun.step (fun _ c => c.Sized) s cs t)
    (hpages : t.regions.Pairwise Region.PageLe) :
    Run RegionRun.step (fun s c => c.Sized ∧ s.PageFits c) s cs t := by
  induction hrun with
  | nil s => exact .nil s
  | cons hsized hst hrest ih =>
    have hfits := h.pageFits hsized hst (hpages.sublist (regions_extend hrest).sublist)
    exact .cons ⟨hsized, hfits⟩ hst (ih (h.step hsized hfits hst) hpages)

end Runs

/-- **Log space is handed out once as long as pages have numbers.** In a run of `PPage::alloc`
calls on fresh `PPage`s, with sizes between 1 and that of a page, no two regions overlap, every
region lies in one page, the page numbers of a log never decrease, and the regions in the newest
page of each log lie one behind the other from 0 to `sz_allocated`, which is at most `PPAGE_SIZE`,
if and only if no call began a page with a number from 256 on. -/
theorem handed_out_once_iff (cfg : Config) {cs : List (PPageCall cfg)} {t : RegionRun cfg}
    (hrun : Run step (fun _ c => c.Sized) (fresh cfg) cs t) :
    t.HandedOutOnce ↔ Run step (fun s c => c.Sized ∧ s.PageFits c) (fresh cfg) cs t := by
  constructor
  · intro h
    exact (inv_fresh cfg).run_pageFits hrun h.pages
  · intro h
    exact (h.invariant (I := Inv) (fun _ _ _ h hC hst => h.step hC.1 hC.2 hst)
      (inv_fresh cfg)).toHandedOutOnce

/-- Two calls on one log, of which the second does not fit behind the first. -/
theorem handed_out_once_iff_roll :
    ∃ t : RegionRun oneShard, Run step (fun _ c => c.Sized) (fresh oneShard)
      [⟨LogKV.logOf oneShard 0 0, ⟨0, 0, 0, 0⟩, 40⟩,
        ⟨LogKV.logOf oneShard 0 0, ⟨0, 0, 0, 0⟩, ppageSize⟩] t ∧
      t.regions.map Region.page = [0, 1] ∧ t.HandedOutOnce := by
  have hfits : Run step (fun s c => c.Sized ∧ s.PageFits c) (fresh oneShard)
      [⟨LogKV.logOf oneShard 0 0, ⟨0, 0, 0, 0⟩, 40⟩,
        ⟨LogKV.logOf oneShard 0 0, ⟨0, 0, 0, 0⟩, ppageSize⟩] _ :=
    .cons ⟨⟨by decide, by decide⟩, by decide⟩ rfl
      (.cons ⟨⟨by decide, le_rfl⟩, by decide⟩ rfl (.nil _))
  exact ⟨_, hfits.mono fun _ _ h => h.1, by decide,
    (handed_out_once_iff oneShard (hfits.mono fun _ _ h => h.1)).mpr hfits⟩

/-! ## One page too many -/

/-- A call that takes a whole page. -/
def wholePage (l : LogId cfg) : PPageCall cfg := ⟨l, ⟨0, 0, 0, 0⟩, ppageSize⟩

theorem wholePage_sized (l : LogId cfg) : (wholePage l).Sized :=
  ⟨(by decide : 1 ≤ ppageSize), le_rfl⟩

/-- `n + 1` whole pages have been handed out on a log, the first of them page 0. -/
structure WholePages (s : RegionRun cfg) (l : LogId cfg) (n : ℕ) : Prop where
  /-- the newest page -/
  ppageId : (s.ppage l).ppageId = n
  /-- is full -/
  full : (s.ppage l).szAllocated = ppageSize
  /-- the oldest region -/
  first : ⟨l.numa, l.hash, 0, 0, ppageSize⟩ ∈ s.regions

/-- One more call begins the next page. -/
theorem WholePages.step {s : RegionRun cfg} {l : LogId cfg} {n : ℕ} (h : s.WholePages l n)
    (hn : n + 1 < 2 ^ 64) :
    ∃ t, s.step (wholePage l) = .ok t ∧ t.WholePages l (n + 1) ∧
      t.regions = s.regions ++ [⟨l.numa, l.hash, (UInt8.ofNat (n + 1)).toNat, 0, ppageSize⟩] := by
  have hlt : ppageSize - (s.ppage l).szAllocated < ppageSize := by
    rw [h.full]
    decide
  have hnuma := toNat_numa l
  have hoff : (UInt32.ofNat 0).toNat = 0 := rfl
  have hstep : s.step (wholePage l) = .ok ⟨Function.update s.ppage l ⟨some ⟨l, n + 1⟩, n + 1, ppageSize⟩,
      s.regions ++ [⟨l.numa, l.hash, (UInt8.ofNat (n + 1)).toNat, 0, ppageSize⟩]⟩ := by
    simp only [RegionRun.step, wholePage, PPage.alloc_of_lt h.full.le hlt (h.ppageId.symm ▸ hn),
      h.ppageId, hnuma, hoff]
  refine ⟨_, hstep, ⟨?_, ?_, List.mem_append_left _ h.first⟩, rfl⟩
  · simp only [Function.update_self]
  · simp only [Function.update_self]

theorem exists_wholePages (l : LogId cfg) {n : ℕ} (hn : n < 2 ^ 64) :
    ∃ s, Run step (fun _ c => c.Sized) (fresh cfg) (List.replicate (n + 1) (wholePage l)) s ∧
      s.WholePages l n := by
  induction n with
  | zero =>
    have hnuma := toNat_numa l
    have hfull : (PPage.alloc ⟨some ⟨l, 0⟩, 0, 0⟩ l ⟨0, 0, 0, 0⟩ ppageSize) =
        (⟨0, UInt8.ofNat l.numa, UInt8.ofNat 0, UInt32.ofNat 0⟩,
          ⟨some ⟨l, 0⟩, 0, ppageSize⟩) := by
      rw [PPage.alloc_of_le (Nat.zero_le _) (Nat.sub_zero ppageSize).ge, Nat.zero_add]
    have hpage : (UInt8.ofNat 0).toNat = 0 := rfl
    have hoff : (UInt32.ofNat 0).toNat = 0 := rfl
    have hstep : (fresh cfg).step (wholePage l) = .ok ⟨Function.update (fresh cfg).ppage l
        ⟨some ⟨l, 0⟩, 0, ppageSize⟩, [⟨l.numa, l.hash, 0, 0, ppageSize⟩]⟩ := by
      simp only [step, wholePage, fresh, LogKV.fresh, hfull, hnuma, hpage, hoff, List.nil_append]
    refine ⟨_, .single (wholePage_sized l) hstep, ⟨?_, ?_, List.mem_singleton_self _⟩⟩
    · simp only [Function.update_self]
    · simp only [Function.update_self]
  | succ n ih =>
    obtain ⟨s, hrun, hs⟩ := ih (Nat.lt_of_succ_lt hn)
    obtain ⟨t, hstep, ht, -⟩ := hs.step hn
    refine ⟨t, ?_, ht⟩
    rw [List.replicate_succ']
    exact hrun.append (.single (wholePage_sized l) hstep)

/-- **Page 256 is handed out as page 0.** After 256 calls that take a whole page each, the next
one is given the bytes of the first. -/
theorem page_handed_out_twice : ∃ t : RegionRun oneShard,
    Run step (fun _ c => c.Sized) (fresh oneShard)
      (List.replicate 257 (wholePage (LogKV.logOf oneShard 0 0))) t ∧
    ¬ t.regions.Pairwise Region.Disjoint ∧ ¬ t.HandedOutOnce := by
  obtain ⟨s, hrun, hs⟩ := exists_wholePages (LogKV.logOf oneShard 0 0) (n := 255) (by decide)
  obtain ⟨t, hstep, -, hregions⟩ := hs.step (by decide)
  have hcalls : List.replicate 257 (wholePage (LogKV.logOf oneShard 0 0)) =
      List.replicate 256 (wholePage (LogKV.logOf oneShard 0 0)) ++
        [wholePage (LogKV.logOf oneShard 0 0)] := List.replicate_succ'
  have hoverlap : ¬ t.regions.Pairwise Region.Disjoint := by
    rw [hregions]
    intro hdisjoint
    exact absurd ((List.pairwise_append.mp hdisjoint).2.2 _ hs.first _ (List.mem_singleton_self _))
      (by decide)
  exact ⟨t, hcalls ▸ hrun.append (.single (wholePage_sized _) hstep), hoverlap,
    fun h => hoverlap h.disjoint⟩

end RegionRun

end NaliStore
