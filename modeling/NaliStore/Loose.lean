import NaliStore.Halves

/-!
# The key partition with repeated keys

When keys are put several times the cells no longer partition the keys: a split may cut
through the slots of one key, and the key is then on both sides of the split key. What stays
is `Loose`: no cell reads a key below its entry key, and none reads a key above the entry key
of a later cell. The operations of the index keep it, as those of `Cells` do for distinct
keys: a cell is replaced by one with another entry key and another bucket, a full bucket is
split, and the cells are dealt out anew.
-/

namespace NaliStore

open Routing Runs

/-- The cell `d` may come after `c`. -/
def Follows (h : Heap) (c d : Cell) : Prop :=
  c.pointer ≠ d.pointer ∧ ∀ k, (h.bunckets c.pointer).Reads k → k ≤ d.entryKey

/-- The cells are in order, up to repeated keys. -/
structure Loose (h : Heap) (l : List Cell) : Prop where
  /-- the buckets are allocated -/
  alloc : ∀ c ∈ l, c.pointer < h.next
  /-- a bucket has no keys below its entry key -/
  lower : ∀ c ∈ l, ∀ k, (h.bunckets c.pointer).Reads k → c.entryKey ≤ k
  /-- a bucket has no keys above a later entry key -/
  follows : l.Pairwise (Follows h)

namespace Loose

variable {h h' : Heap} {l pre post : List Cell} {c d : Cell} {k v : UInt64}

theorem entryKey_le (hl : Loose h l) (hc : c ∈ l) (hcd : Follows h c d) : c.entryKey ≤ d.entryKey :=
  (hl.lower c hc _ (UnSortBuncket.reads_minKey _)).trans (hcd.2 _ (UnSortBuncket.reads_minKey _))

/-- The entry keys do not descend. -/
theorem rise (hl : Loose h l) : l.Pairwise fun c d => c.entryKey ≤ d.entryKey :=
  hl.follows.imp_of_mem fun hc _ hcd => hl.entryKey_le hc hcd

/-- The buckets of the cells are the same in another heap. -/
theorem congr_heap (hl : Loose h l) (hnext : h.next ≤ h'.next)
    (hsame : ∀ c ∈ l, h'.bunckets c.pointer = h.bunckets c.pointer) : Loose h' l where
  alloc c hc := (hl.alloc c hc).trans_le hnext
  lower c hc := by
    rw [hsame c hc]
    exact hl.lower c hc
  follows := hl.follows.imp_of_mem fun {c d} hc _ hcd => ⟨hcd.1, by rw [hsame c hc]; exact hcd.2⟩

/-- A cell among others. -/
theorem insert_iff : Loose h (pre ++ c :: post) ↔ Loose h (pre ++ post) ∧ c.pointer < h.next ∧
    (∀ k, (h.bunckets c.pointer).Reads k → c.entryKey ≤ k) ∧
    (∀ d ∈ pre, Follows h d c) ∧ ∀ d ∈ post, Follows h c d := by
  have hmem : ∀ d, d ∈ pre ++ c :: post ↔ d = c ∨ d ∈ pre ++ post := by
    intro d
    simp only [List.mem_append, List.mem_cons]
    tauto
  constructor
  · rintro ⟨halloc, hlower, hfollows⟩
    obtain ⟨hpre, hcons, hcross⟩ := List.pairwise_append.mp hfollows
    obtain ⟨hc, hpost⟩ := List.pairwise_cons.mp hcons
    have hcm : c ∈ pre ++ c :: post := (hmem c).mpr (.inl rfl)
    refine ⟨⟨fun d hd => halloc d ((hmem d).mpr (.inr hd)), fun d hd =>
      hlower d ((hmem d).mpr (.inr hd)), List.pairwise_append.mpr ⟨hpre, hpost, fun d hd e he =>
        hcross d hd e (List.mem_cons_of_mem _ he)⟩⟩, halloc c hcm, hlower c hcm, fun d hd =>
          hcross d hd c (List.mem_cons_self ..), hc⟩
  · rintro ⟨⟨halloc, hlower, hfollows⟩, hcalloc, hclower, hbefore, hafter⟩
    obtain ⟨hpre, hpost, hcross⟩ := List.pairwise_append.mp hfollows
    refine ⟨fun d hd => ?_, fun d hd => ?_, List.pairwise_append.mpr ⟨hpre,
      List.pairwise_cons.mpr ⟨hafter, hpost⟩, fun d hd e he => ?_⟩⟩
    · rcases (hmem d).mp hd with rfl | hd
      · exact hcalloc
      · exact halloc d hd
    · rcases (hmem d).mp hd with rfl | hd
      · exact hclower
      · exact hlower d hd
    · rcases List.mem_cons.mp he with rfl | he
      · exact hbefore d hd
      · exact hcross d hd e he

theorem ne_of_mem (hl : Loose h (pre ++ c :: post)) (hd : d ∈ pre ++ post) :
    d.pointer ≠ c.pointer := by
  obtain ⟨-, -, -, hbefore, hafter⟩ := insert_iff.mp hl
  rcases List.mem_append.mp hd with hd | hd
  · exact (hbefore d hd).1
  · exact (hafter d hd).1.symm

/-- **A cell is replaced**: it gets another bucket, and another entry key. -/
theorem replace (hl : Loose h (pre ++ c :: post)) {b : UnSortBuncket} {key : UInt64}
    (hlower : ∀ k, b.Reads k → key ≤ k) (hafter : ∀ d ∈ post, ∀ k, b.Reads k → k ≤ d.entryKey)
    (hbefore : ∀ d ∈ pre, ∀ k, (h.bunckets d.pointer).Reads k → k ≤ key) :
    Loose (h.set c.pointer b) (pre ++ { c with entryKey := key } :: post) := by
  obtain ⟨hrest, halloc, -, hb, ha⟩ := insert_iff.mp hl
  have hsame : ∀ d ∈ pre ++ post, (h.set c.pointer b).bunckets d.pointer = h.bunckets d.pointer :=
    fun d hd => Heap.set_of_ne (hl.ne_of_mem hd)
  refine insert_iff.mpr ⟨hrest.congr_heap le_rfl hsame, halloc, ?_, fun d hd => ?_, fun d hd => ?_⟩
  · rw [Heap.set_self]
    exact hlower
  · refine ⟨(hb d hd).1, ?_⟩
    rw [hsame d (List.mem_append_left _ hd)]
    exact hbefore d hd
  · refine ⟨(ha d hd).1, ?_⟩
    rw [Heap.set_self]
    exact hafter d hd

/-- A bucket loses keys. -/
theorem shrink (hl : Loose h (pre ++ c :: post)) {b : UnSortBuncket}
    (hb : ∀ k, b.Reads k → (h.bunckets c.pointer).Reads k) :
    Loose (h.set c.pointer b) (pre ++ c :: post) := by
  obtain ⟨-, -, hlower, hbefore, hafter⟩ := insert_iff.mp hl
  exact hl.replace (fun k hk => hlower k (hb k hk)) (fun d hd k hk => (hafter d hd).2 k (hb k hk))
    fun d hd => (hbefore d hd).2

/-- **An entry key is raised** to the least key of its bucket. -/
theorem raise (hl : Loose h (pre ++ c :: post)) :
    Loose h (pre ++ { c with entryKey := (h.bunckets c.pointer).minKey } :: post) := by
  obtain ⟨-, -, hlower, hbefore, hafter⟩ := insert_iff.mp hl
  have hset : Loose (h.set c.pointer (h.bunckets c.pointer))
      (pre ++ { c with entryKey := (h.bunckets c.pointer).minKey } :: post) :=
    hl.replace (fun k hk => UnSortBuncket.minKey_le hk) (fun d hd => (hafter d hd).2) fun d hd k hk =>
      ((hbefore d hd).2 k hk).trans (hlower _ (UnSortBuncket.reads_minKey _))
  rwa [Heap.set_eq_self] at hset

/-- **A key is appended** to a bucket between the ranges of the others, and its entry key
follows. -/
theorem append (hl : Loose h (pre ++ c :: post)) (hpost : ∀ d ∈ post, k ≤ d.entryKey)
    (hpre : ∀ d ∈ pre, ∀ x, (h.bunckets d.pointer).Reads x → x ≤ k) :
    Loose (h.set c.pointer ((h.bunckets c.pointer).append k v)) (pre ++ c.lower k :: post) := by
  obtain ⟨-, -, hlower, hbefore, hafter⟩ := insert_iff.mp hl
  have heq : c.lower k = { c with entryKey := (c.lower k).entryKey } :=
    Cell.ext rfl (Cell.lower_pointer c k)
  rw [heq]
  refine hl.replace (fun x hx => ?_) (fun d hd x hx => ?_) fun d hd x hx => ?_
  · rw [Cell.lower]
    rcases UnSortBuncket.append_reads hx with hx | rfl
    · split
      · rename_i hlt
        exact hlt.le.trans (hlower x hx)
      · exact hlower x hx
    · split
      · exact le_rfl
      · rename_i hle
        exact le_of_not_gt hle
  · rcases UnSortBuncket.append_reads hx with hx | rfl
    · exact (hafter d hd).2 x hx
    · exact hpost d hd
  · rw [Cell.lower]
    split
    · exact hpre d hd x hx
    · exact (hbefore d hd).2 x hx

/-- **A full bucket is split.** -/
theorem split (hl : Loose h (pre ++ c :: post)) {next rest : UnSortBuncket} {splitKey : UInt64}
    (hread : (h.bunckets c.pointer).Reads splitKey)
    (hnext : ∀ k, next.Reads k → (h.bunckets c.pointer).Reads k ∧ splitKey ≤ k)
    (hrest : ∀ k, rest.Reads k → (h.bunckets c.pointer).Reads k ∧ k ≤ splitKey) :
    Loose (Cells.splitHeap h c.pointer next rest) (pre ++ c :: ⟨splitKey, h.next⟩ :: post) := by
  obtain ⟨hothers, halloc, hlower, hbefore, hafter⟩ := insert_iff.mp hl
  set h₁ := Cells.splitHeap h c.pointer next rest with hh₁
  have hself : h₁.bunckets c.pointer = rest := Cells.splitHeap_self halloc
  have hnew : h₁.bunckets h.next = next := Cells.splitHeap_next
  have hother : ∀ d ∈ pre ++ post, h₁.bunckets d.pointer = h.bunckets d.pointer := fun d hd =>
    Cells.splitHeap_other (hothers.alloc d hd) (hl.ne_of_mem hd)
  -- the old cells, with what is left of the bucket
  have hold : Loose h₁ (pre ++ c :: post) := by
    refine insert_iff.mpr ⟨hothers.congr_heap (Nat.le_succ _) hother, Nat.lt_succ_of_lt halloc, ?_,
      fun d hd => ⟨(hbefore d hd).1, ?_⟩, fun d hd => ⟨(hafter d hd).1, ?_⟩⟩
    · rw [hself]
      exact fun k hk => hlower k (hrest k hk).1
    · rw [hother d (List.mem_append_left _ hd)]
      exact (hbefore d hd).2
    · rw [hself]
      exact fun k hk => (hafter d hd).2 k (hrest k hk).1
  -- and the new one after `c`
  rw [List.append_cons] at hold ⊢
  refine insert_iff.mpr ⟨hold, Nat.lt_succ_self _, ?_, fun d hd => ?_, fun d hd => ?_⟩
  · rw [hnew]
    exact fun k hk => (hnext k hk).2
  · rcases List.mem_append.mp hd with hd | hd
    · refine ⟨(hothers.alloc d (List.mem_append_left _ hd)).ne, ?_⟩
      rw [hother d (List.mem_append_left _ hd)]
      exact fun k hk => ((hbefore d hd).2 k hk).trans (hlower _ hread)
    · obtain rfl := List.mem_singleton.mp hd
      refine ⟨halloc.ne, ?_⟩
      rw [hself]
      exact fun k hk => (hrest k hk).2
  · refine ⟨(hothers.alloc d (List.mem_append_right _ hd)).ne', ?_⟩
    rw [hnew]
    exact fun k hk => (hafter d hd).2 k (hnext k hk).1

/-- **The cells are dealt out anew**, to places that do not descend with the entry keys. -/
theorem deal (hl : Loose h l) {place : Cell → ℕ}
    (hplace : ∀ c d : Cell, c.entryKey ≤ d.entryKey → place c ≤ place d) (n : ℕ) :
    Loose h ((List.range n).flatMap fun i => l.filter fun c => place c = i) := by
  have hmem : ∀ c ∈ (List.range n).flatMap fun i => l.filter fun c => place c = i, c ∈ l := by
    intro c hc
    obtain ⟨i, -, hci⟩ := List.mem_flatMap.mp hc
    exact List.mem_of_mem_filter hci
  refine ⟨fun c hc => hl.alloc c (hmem c hc), fun c hc => hl.lower c (hmem c hc),
    pairwise_deal hl.follows (fun c hc d hd hlt => ?_) n⟩
  -- a cell at a lower place comes earlier
  have : Std.Symm fun c d => Follows h c d ∨ Follows h d c := ⟨fun _ _ => Or.symm⟩
  have hsymm : l.Pairwise fun c d => Follows h c d ∨ Follows h d c := hl.follows.imp Or.inl
  have hne : c ≠ d := by
    rintro rfl
    exact lt_irrefl _ hlt
  have hkey : c.entryKey < d.entryKey :=
    lt_of_not_ge fun hle => absurd hlt (not_lt_of_ge (hplace d c hle))
  rcases hsymm.forall hc hd hne with hcd | hdc
  · exact hcd
  · exact absurd hkey (not_lt_of_ge (hl.entryKey_le hd hdc))

end Loose

/-! ## B entries -/

namespace PointerBEntry

variable {b b₁ : PointerBEntry} {h h₁ : Heap} {k v : UInt64} {hasSplit : Bool} {pre post : List Cell}

/-- `Find_pos` finds the last cell with an entry key at most the key, or the first. -/
theorem findPos_spec (hrise : b.cells.Pairwise fun c d => c.entryKey ≤ d.entryKey) (k : UInt64) :
    (∀ d ∈ b.cells.drop (b.findPos k + 1), k < d.entryKey) ∧
      (b.findPos k = 0 ∨ (b.entrys (b.findPos k)).entryKey ≤ k) := by
  have hub := upperBound_linearSearch (k := k) (rising hrise) (Nat.zero_add b.entries)
  have hpos : b.findPos k =
      linearSearch (fun pos => (b.entrys pos).entryKey) k b.entries 0 - 1 := by
    rw [findPos]
    split <;> omega
  rw [hpos]
  generalize linearSearch (fun pos => (b.entrys pos).entryKey) k b.entries 0 = i at hub
  refine ⟨fun d hd => ?_, ?_⟩
  · obtain ⟨j, hj⟩ := List.mem_iff_getElem?.mp hd
    rw [List.getElem?_drop, cells_getElem?] at hj
    split at hj
    · obtain rfl := Option.some.inj hj
      exact hub.above _ (by omega) (by assumption)
    · cases hj
  · rcases Nat.eq_zero_or_pos (i - 1) with h0 | hpos
    · exact .inl h0
    · exact .inr (hub.below _ (Nat.zero_le _) (by omega))

/-- The entry key that follows a key is that of the cell the key goes to. -/
theorem WF.lower_findPos (hb : b.WF)
    (hrise : b.cells.Pairwise fun c d => c.entryKey ≤ d.entryKey) (k : UInt64) :
    (b.lower k).cells = b.cells.take (b.findPos k) ++
      (b.entrys (b.findPos k)).toCell.lower k :: b.cells.drop (b.findPos k + 1) := by
  obtain ⟨-, hfound⟩ := findPos_spec hrise k
  rw [PointerBEntry.lower]
  split
  · -- below its entry key a key goes to the first cell only
    rename_i hlt
    have h0 : b.findPos k = 0 := by
      rcases hfound with h0 | hle
      · exact h0
      · exact absurd ((rising hrise 0 _ (Nat.zero_le _) (hb.findPos_lt k)).trans hle)
          (not_le_of_gt hlt)
    rw [h0, setEntryKey_cells hb.pos, Cell.lower, if_pos (by exact hlt)]
    rfl
  · rename_i hle
    have hkey : ¬ (b.entrys (b.findPos k)).toCell.entryKey > k := by
      rcases hfound with h0 | hle'
      · rw [h0]
        exact hle
      · exact not_lt_of_ge hle'
    rw [Cell.lower, if_neg hkey]
    exact cells_eq (hb.findPos_lt k)

/-- A split keeps the first entry key. -/
theorem Roomy.entryKey (hr : b.Roomy h k hasSplit b₁ h₁) : b₁.entryKey = b.entryKey := by
  cases hr with
  | found hroom => rfl
  | split hfull hlt =>
    have hzero : ((b.split h (b.findPos k)).1.entrys 0).toCell = _ := split_entrys 0 (Nat.zero_le _)
    rw [if_pos (Nat.zero_le _)] at hzero
    exact congrArg Cell.entryKey hzero

/-- A split keeps the order. -/
theorem Roomy.loose (hr : b.Roomy h k hasSplit b₁ h₁) (hb : b.WF) (hs : b.Sane h)
    (hl : Loose h (pre ++ (b.cells ++ post))) : Loose h₁ (pre ++ (b₁.cells ++ post)) ∧
      ∀ d ∈ pre, h₁.bunckets d.pointer = h.bunckets d.pointer := by
  have hpos := hb.findPos_lt k
  cases hr with
  | found hroom => exact ⟨hl, fun _ _ => rfl⟩
  | split hfull hlt =>
    set c := (b.entrys (b.findPos k)).toCell with hc
    have hsane := hs.entrys hpos
    have hcells : pre ++ (b.cells ++ post) = (pre ++ b.cells.take (b.findPos k)) ++
        c :: (b.cells.drop (b.findPos k + 1) ++ post) := by
      conv_lhs => rw [cells_eq hpos]
      simp [hc]
    have hcells' : pre ++ ((b.split h (b.findPos k)).1.cells ++ post) =
        (pre ++ b.cells.take (b.findPos k)) ++
          c :: b.splitCell h (b.findPos k) :: (b.cells.drop (b.findPos k + 1) ++ post) := by
      rw [split_cells hpos]
      simp [hc]
    rw [hcells] at hl
    obtain ⟨hheap, hkey⟩ := split_eq hsane.alloc
    obtain ⟨hread, hnext, hrest⟩ := UnSortBuncket.expand_reads hsane.le
      (by rw [hfull]; decide) (h.alloc.2.bunckets h.next)
    rw [hcells', hheap, hkey]
    refine ⟨hl.split hread hnext hrest, fun d hd => ?_⟩
    have hd' : d ∈ (pre ++ b.cells.take (b.findPos k)) ++ (b.cells.drop (b.findPos k + 1) ++ post) :=
      List.mem_append_left _ (List.mem_append_left _ hd)
    exact Cells.splitHeap_other ((Loose.insert_iff.mp hl).1.alloc d hd') (hl.ne_of_mem hd')

/-- **A key is appended to the bucket it goes to** when it is between what is before and after
the B entry. -/
theorem WF.loose_append (hb : b.WF) (hl : Loose h (pre ++ (b.cells ++ post)))
    (hpost : ∀ d ∈ post, k ≤ d.entryKey)
    (hpre : ∀ d ∈ pre, ∀ x, (h.bunckets d.pointer).Reads x → x ≤ k) :
    Loose (b.appendHeap h k v) (pre ++ ((b.lower k).cells ++ post)) := by
  have hpos := hb.findPos_lt k
  have hrise : b.cells.Pairwise fun c d => c.entryKey ≤ d.entryKey :=
    (List.pairwise_append.mp (List.pairwise_append.mp hl.rise).2.1).1
  obtain ⟨habove, hfound⟩ := findPos_spec hrise k
  have hcells : pre ++ (b.cells ++ post) = (pre ++ b.cells.take (b.findPos k)) ++
      (b.entrys (b.findPos k)).toCell :: (b.cells.drop (b.findPos k + 1) ++ post) := by
    conv_lhs => rw [cells_eq hpos]
    simp
  have hlower : pre ++ ((b.lower k).cells ++ post) = (pre ++ b.cells.take (b.findPos k)) ++
      (b.entrys (b.findPos k)).toCell.lower k :: (b.cells.drop (b.findPos k + 1) ++ post) := by
    rw [hb.lower_findPos hrise k]
    simp
  rw [hcells] at hl
  rw [hlower]
  refine hl.append (fun d hd => ?_) fun d hd x hx => ?_
  · rcases List.mem_append.mp hd with hd | hd
    · exact (habove d hd).le
    · exact hpost d hd
  · rcases List.mem_append.mp hd with hd' | hd'
    · exact hpre d hd' x hx
    · -- there is a cell of the B entry before it, so its entry key is at most the key
      have hle : (b.entrys (b.findPos k)).entryKey ≤ k := by
        rcases hfound with h0 | hle
        · rw [h0, List.take_zero] at hd'
          exact absurd hd' List.not_mem_nil
        · exact hle
      exact ((Loose.insert_iff.mp hl).2.2.2.1 d hd |>.2 x hx).trans hle

end PointerBEntry

/-! ## Groups -/

namespace Group

variable {g g' : Group} {h h' : Heap} {k v : UInt64} {hasSplit : Bool} {pre post : List Cell}

theorem rise_of_loose (hl : Loose h (pre ++ (g.cells ++ post))) :
    g.cells.Pairwise fun c d => c.entryKey ≤ d.entryKey :=
  (List.pairwise_append.mp (List.pairwise_append.mp hl.rise).2.1).1

/-- What is before a group is below its first entry key. -/
theorem le_entryKey_of_loose (hg : g.WF) (hne : g.entrySpace ≠ [])
    (hl : Loose h (pre ++ (g.cells ++ post))) {d : Cell} (hd : d ∈ pre) {x : UInt64}
    (hx : (h.bunckets d.pointer).Reads x) : x ≤ g.entryKey 0 := by
  obtain ⟨c, tail, hcells, hkey⟩ := exists_first hg.entry hne
  rw [← hkey]
  refine ((List.pairwise_append.mp hl.follows).2.2 d hd c ?_).2 x hx
  rw [hcells]
  exact List.mem_append_left _ (List.mem_cons_self ..)

/-- Re-packing keeps the order. -/
theorem Raised.loose (hr : Raised h g g') (hl : Loose h (pre ++ (g.cells ++ post))) :
    Loose h (pre ++ (g'.cells ++ post)) := by
  obtain ⟨c, tail, hcells, hcells'⟩ := hr.cells
  rw [hcells, List.cons_append] at hl
  rw [hcells', List.cons_append]
  exact hl.raise

theorem Raised.entryKey_le (hr : Raised h g g') (hg : g.WF)
    (hl : Loose h (pre ++ (g.cells ++ post))) : g.entryKey 0 ≤ g'.entryKey 0 := by
  obtain ⟨c, tail, hcells, hcells'⟩ := hr.cells
  have hne : g.entrySpace ≠ [] := ne_of_cells (by rw [hcells]; exact List.cons_ne_nil _ _)
  obtain ⟨d, rest, hd, hkey⟩ := exists_first hg.entry hne
  obtain ⟨d', rest', hd', hkey'⟩ := exists_first hr.wf.entry hr.ne
  obtain ⟨rfl, -⟩ := List.cons.inj (hd.symm.trans hcells)
  obtain ⟨rfl, -⟩ := List.cons.inj (hd'.symm.trans hcells')
  rw [← hkey, ← hkey']
  refine hl.lower d ?_ _ (UnSortBuncket.reads_minKey _)
  rw [hcells]
  exact List.mem_append_right _ (List.mem_append_left _ (List.mem_cons_self ..))

/-- **A `Put` keeps the order** when the key is between what is before and after the group. -/
theorem PutAt.loose (hp : g.PutAt h k v hasSplit g' h') (hg : g.Tidy h)
    (hl : Loose h (pre ++ (g.cells ++ post))) (hpost : ∀ d ∈ post, k ≤ d.entryKey)
    (hpre : ∀ d ∈ pre, ∀ x, (h.bunckets d.pointer).Reads x → x ≤ k) :
    Loose h' (pre ++ (g'.cells ++ post)) ∧ min (g.entryKey 0) k ≤ g'.entryKey 0 := by
  obtain ⟨b, b₁, h₁, hget, hroomy, rfl, rfl⟩ := hp
  have hmem : b ∈ g.entrySpace := List.mem_of_getElem? hget
  have hne : g.entrySpace ≠ [] := List.ne_nil_of_mem hmem
  obtain ⟨epre, b', epost, hloc⟩ := exists_located hne hg.wf.entry (rise_of_loose hl) k
  obtain rfl : b' = b := by
    have hentry := hloc.entryFor_eq
    rw [entryFor, hget] at hentry
    exact (Except.ok.inj hentry).symm
  have hb := hg.wf.entry b' hmem
  have hok := hroomy.ok hb (hg.sane.entry hmem)
  have hassoc : ∀ x : List Cell, (pre ++ epre.flatMap PointerBEntry.cells) ++
      (x ++ (epost.flatMap PointerBEntry.cells ++ post)) = pre ++ ((epre.flatMap PointerBEntry.cells ++
        (x ++ epost.flatMap PointerBEntry.cells)) ++ post) := by
    intro x
    simp only [List.append_assoc]
  rw [hloc.cells_eq, ← hassoc] at hl
  obtain ⟨hl₁, hframe⟩ := hroomy.loose hb (hg.sane.entry hmem) hl
  have hcells : (g.setEntry (g.findEntry k) (b₁.lower k) hasSplit).cells =
      epre.flatMap PointerBEntry.cells ++
        ((b₁.lower k).cells ++ epost.flatMap PointerBEntry.cells) := by
    rw [cells, setEntry, hloc.set_eq, List.flatMap_append, List.flatMap_cons]
  refine ⟨?_, ?_⟩
  · rw [hcells, ← hassoc]
    refine hok.wf.loose_append hl₁ (fun d hd => ?_) fun d hd x hx => ?_
    · rcases List.mem_append.mp hd with hd | hd
      · exact (hloc.above d hd).le
      · exact hpost d hd
    · rw [hframe d hd] at hx
      rcases hloc.below with rfl | hle
      · -- the first B entry of the group
        rw [List.flatMap_nil, List.append_nil] at hd
        exact hpre d hd x hx
      · obtain ⟨c, hc, hkey⟩ := hb.entryKey_mem
        have hfollows := (List.pairwise_append.mp hl.follows).2.2 d hd c (List.mem_append_left _ hc)
        exact (hfollows.2 x hx).trans (hkey ▸ hle)
  · -- the first entry key is that of the B entry, or has not changed
    cases epre with
    | cons x epre =>
      have hsame : (g.setEntry (g.findEntry k) (b₁.lower k) hasSplit).entryKey 0 = g.entryKey 0 := by
        rw [entryKey, entryKey, setEntry, hloc.set_eq, hloc.eq]
        rfl
      rw [hsame]
      exact min_le_left _ _
    | nil =>
      have hold : g.entryKey 0 = b'.entryKey := by
        rw [entryKey, hloc.eq]
        rfl
      have hnew : (g.setEntry (g.findEntry k) (b₁.lower k) hasSplit).entryKey 0 =
          (b₁.lower k).entryKey := by
        rw [entryKey, setEntry, hloc.set_eq]
        rfl
      have hkey : b₁.entryKey = b'.entryKey := hroomy.entryKey
      rw [hold, hnew, PointerBEntry.lower, ← hkey]
      split
      · rw [PointerBEntry.setEntryKey, PointerBEntry.entryKey]
        exact min_le_right _ _
      · exact min_le_left _ _

end Group

end NaliStore
