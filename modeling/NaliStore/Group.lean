import NaliStore.BEntry
import NaliStore.Lib.Runs

/-!
# Groups

`group` of `src/src/nali.h`: an array of B entries with a model that guesses where a key is.
The guess is corrected by an exponential search, so nothing depends on it: it is an arbitrary
function of the key, which `train` makes anew from the entry keys whenever the group is
re-packed. When a B entry is full the group is re-packed so that every cell has a B entry of
its own (`expand`), up to a number of cells from which on the whole tree is to be expanded.
-/

namespace NaliStore

open Routing Runs

/-- `rmi_line_model::init` of a group: the predictions, from the entry keys. -/
abbrev Train := List UInt64 → UInt64 → Int32

/-- `max_entry_count` -/
def maxEntryCount : ℕ := 1024

/-- `group` -/
structure Group where
  /-- `entry_space`, of which `nr_entries_` are in use -/
  entrySpace : List PointerBEntry
  /-- `next_entry_count` -/
  nextEntryCount : ℕ
  /-- `min_key` -/
  minKey : UInt64
  /-- `model.predict` -/
  predict : UInt64 → Int32

namespace Group

/-- `nr_entries_` -/
def nrEntries (g : Group) : ℕ := g.entrySpace.length

/-- `entry_space[i].entry_key` -/
def entryKey (g : Group) (i : ℕ) : UInt64 := (g.entrySpace[i]?.map PointerBEntry.entryKey).getD 0

/-- `exponential_search_upper_bound`: a linear search when the range is short, a binary one
when it is not. -/
def exponentialSearchUpperBound (g : Group) (m : ℕ) (key : UInt64) : ℕ :=
  let (l, r) := exponentialRange g.entryKey key g.nrEntries m
  if r - l < 6 then linearSearch g.entryKey key (r - l) l - 1
  else binarySearch g.entryKey key (r - l) l r - 1

/-- `find_entry` -/
def findEntry (g : Group) (key : UInt64) : ℕ :=
  let m := min (max 0 (g.predict key).toInt) (g.nrEntries - 1)
  g.exponentialSearchUpperBound m.toNat key

/-- The B entry of a key. -/
def entryFor (g : Group) (key : UInt64) : Except Fault PointerBEntry :=
  match g.entrySpace[g.findEntry key]? with
  | some b => .ok b
  | none => .error .outOfBounds

/-- `AdjustEntryKey` -/
def adjustEntryKey (g : Group) (h : Heap) : Except Fault Group :=
  match g.entrySpace with
  | b :: rest => .ok { g with entrySpace := b.adjustEntryKey h :: rest }
  | [] => .error .segv

/-- What an `EntryIter` of the group goes through. -/
def eentries (g : Group) : List EEntry := g.entrySpace.flatMap PointerBEntry.eentries

/-- `expand`: every cell gets a B entry of its own, in an array of `next_entry_count`. -/
def expand (train : Train) (g : Group) (h : Heap) : Except Fault Group := do
  let g ← g.adjustEntryKey h
  let entries := g.eentries
  if entries.length > g.nextEntryCount then .error .outOfBounds
  else .ok { g with
    entrySpace := entries.map .ofEEntry
    nextEntryCount := entries.length
    predict := train (entries.map fun e => e.entryKey) }

/-- `Put` with a bound on the number of retries. -/
def putLoop (train : Train) (key value : UInt64) :
    ℕ → Group → Heap → Except Fault (Status × Group × Heap)
  | 0, _, _ => .error .diverges
  | fuel + 1, g, h => do
    let b ← g.entryFor key
    let (ret, split, b, h) ← b.put h key value
    let g : Group := { g with
      entrySpace := g.entrySpace.set (g.findEntry key) b
      nextEntryCount := if split then g.nextEntryCount + 1 else g.nextEntryCount }
    if ret = .full then
      if g.nextEntryCount > maxEntryCount then .ok (ret, g, h)
      else do
        let g ← g.expand train h
        putLoop train key value fuel g h
    else .ok (ret, g, h)

/-- `Put`. After an `expand` no B entry is full, so there is one retry. -/
def put (train : Train) (g : Group) (h : Heap) (key value : UInt64) :
    Except Fault (Status × Group × Heap) := putLoop train key value 2 g h

/-- `Get` -/
def get (g : Group) (h : Heap) (key : UInt64) : Except Fault (Option UInt64) := do
  let b ← g.entryFor key
  .ok (b.get h key)

/-- `Update` -/
def update (g : Group) (h : Heap) (key value : UInt64) : Except Fault (Option UInt64 × Heap) := do
  let b ← g.entryFor key
  .ok (b.update h key value)

/-- `Delete` -/
def delete (g : Group) (h : Heap) (key : UInt64) : Except Fault (Option UInt64 × Heap) := do
  let b ← g.entryFor key
  .ok (b.delete h key)

/-- `fast_fail` -/
def fastFail (g : Group) (h : Heap) (key : UInt64) : Except Fault (Option UInt64) :=
  if g.nrEntries = 0 ∨ key < g.minKey then .ok none else g.get h key

/-- The cells of the group. -/
def cells (g : Group) : List Cell := g.entrySpace.flatMap PointerBEntry.cells

/-- B entries, and the number of cells is known. -/
structure WF (g : Group) : Prop where
  /-- B entries -/
  entry : ∀ b ∈ g.entrySpace, b.WF
  /-- `next_entry_count` is the number of cells -/
  count : g.nextEntryCount = g.cells.length

/-! ## Finding the B entry -/

variable {g : Group} {h : Heap} {k v : UInt64} {i j : ℕ} {c : Cell} {b : PointerBEntry}
  {pre post : List Cell} {epre epost : List PointerBEntry}

theorem entryKey_eq (hi : g.entrySpace[i]? = some b) : g.entryKey i = b.entryKey := by
  rw [entryKey, hi]
  rfl

theorem rising (hwf : ∀ b ∈ g.entrySpace, b.WF)
    (hle : g.cells.Pairwise fun c d => c.entryKey ≤ d.entryKey) : Rising g.entryKey g.nrEntries := by
  intro i j hij hj
  rcases Nat.lt_or_eq_of_le hij with hlt | rfl
  · have hcross := List.pairwise_iff_getElem.mp (List.pairwise_flatMap.mp hle).2 i j
      (hlt.trans hj) hj hlt
    obtain ⟨c, hc, hck⟩ := (hwf _ (List.getElem_mem (hlt.trans hj))).entryKey_mem
    obtain ⟨d, hd, hdk⟩ := (hwf _ (List.getElem_mem hj)).entryKey_mem
    have hkeys := hcross c hc d hd
    rwa [hck, hdk, ← entryKey_eq (List.getElem?_eq_getElem (hlt.trans hj)),
      ← entryKey_eq (List.getElem?_eq_getElem hj)] at hkeys
  · exact le_rfl

/-- `find_entry` finds a B entry, in whatever order the entry keys are. -/
theorem findEntry_lt (hne : g.entrySpace ≠ []) (k : UInt64) :
    g.findEntry k < g.entrySpace.length := by
  have hpos : 0 < g.nrEntries := List.length_pos_of_ne_nil hne
  rw [findEntry, exponentialSearchUpperBound]
  have hm : (min (max 0 (g.predict k).toInt) (g.nrEntries - 1)).toNat < g.nrEntries := by omega
  generalize (min (max 0 (g.predict k).toInt) (g.nrEntries - 1)).toNat = m at hm
  obtain ⟨hlr, hrn⟩ := exponentialRange_le g.entryKey k hm
  generalize exponentialRange g.entryKey k g.nrEntries m = range at hlr hrn
  obtain ⟨l, r⟩ := range
  simp only at hlr hrn ⊢
  have hn : g.nrEntries = g.entrySpace.length := rfl
  split
  · obtain ⟨-, hle, -⟩ := linearSearch_spec g.entryKey k (r - l) l
    omega
  · have hle := binarySearch_le g.entryKey k (r - l) l r hlr
    omega

/-- `find_entry` of a group whose entry keys do not descend, wherever its model guesses. -/
theorem findEntry_of_rising (hpos : 0 < g.nrEntries) (hrise : Rising g.entryKey g.nrEntries)
    (k : UInt64) : ∃ i, UpperBound g.entryKey 0 g.nrEntries k i ∧ g.findEntry k = i - 1 := by
  rw [findEntry, exponentialSearchUpperBound]
  have hm : (min (max 0 (g.predict k).toInt) (g.nrEntries - 1)).toNat < g.nrEntries := by omega
  generalize (min (max 0 (g.predict k).toInt) (g.nrEntries - 1)).toNat = m at hm
  obtain ⟨hlr, hrn, hwiden⟩ := exponentialRange_spec hrise hm k
  generalize exponentialRange g.entryKey k g.nrEntries m = range at hlr hrn hwiden
  obtain ⟨l, r⟩ := range
  simp only at hlr hrn hwiden ⊢
  have hrise' : Rising g.entryKey r := fun i j hij hj => hrise i j hij (hj.trans_le hrn)
  split
  · exact ⟨_, hwiden _ (upperBound_linearSearch hrise' (by omega)), rfl⟩
  · exact ⟨_, hwiden _ (upperBound_binarySearch hrise' (r - l) l r hlr le_rfl le_rfl), rfl⟩

/-- `find_entry` finds the last B entry with an entry key at most the key, or the first. -/
theorem findEntry_spec (hne : g.entrySpace ≠ []) (hwf : ∀ b ∈ g.entrySpace, b.WF)
    (hle : g.cells.Pairwise fun c d => c.entryKey ≤ d.entryKey) (k : UInt64) :
    ∃ i, UpperBound g.entryKey 0 g.nrEntries k i ∧ g.findEntry k = i - 1 :=
  findEntry_of_rising (List.length_pos_of_ne_nil hne) (rising hwf hle) k

/-- The B entry of a key, between those before and after it. -/
structure Located (g : Group) (k : UInt64) (epre : List PointerBEntry) (b : PointerBEntry)
    (epost : List PointerBEntry) : Prop
    extends Around PointerBEntry.cells Cell.entryKey g.entrySpace k epre b epost where
  /-- its index -/
  index : g.findEntry k = epre.length
  /-- it is the first, or has cells at most the key -/
  below : epre = [] ∨ b.entryKey ≤ k

theorem exists_located (hne : g.entrySpace ≠ []) (hwf : ∀ b ∈ g.entrySpace, b.WF)
    (hle : g.cells.Pairwise fun c d => c.entryKey ≤ d.entryKey) (k : UInt64) :
    ∃ epre b epost, g.Located k epre b epost := by
  obtain ⟨i, hub, hfind⟩ := findEntry_spec hne hwf hle k
  have hpos : 0 < g.entrySpace.length := List.length_pos_of_ne_nil hne
  have hi : i - 1 < g.entrySpace.length := by
    have hle : i ≤ g.entrySpace.length := hub.le
    omega
  have hlen : (g.entrySpace.take (i - 1)).length = i - 1 := by
    rw [List.length_take]
    omega
  refine ⟨g.entrySpace.take (i - 1), g.entrySpace[i - 1], g.entrySpace.drop (i - 1 + 1),
    ⟨?_, fun d hd => ?_⟩, ?_, ?_⟩
  · rw [← List.drop_eq_getElem_cons hi, List.take_append_drop]
  · obtain ⟨b, hb, hdb⟩ := List.mem_flatMap.mp hd
    obtain ⟨t, ht⟩ := List.mem_iff_getElem?.mp hb
    rw [List.getElem?_drop] at ht
    obtain ⟨hlt, -⟩ := List.getElem?_eq_some_iff.mp ht
    have habove := hub.above (i - 1 + 1 + t) (by omega) hlt
    rw [entryKey_eq ht] at habove
    have hbs := (List.pairwise_flatMap.mp hle).1 b (List.mem_of_mem_drop hb)
    exact habove.trans_le (PointerBEntry.entryKey_le hbs hdb)
  · rw [hfind, hlen]
  · rcases Nat.eq_zero_or_pos (i - 1) with h0 | hpos'
    · exact .inl (by rw [h0, List.take_zero])
    · right
      rw [← entryKey_eq (List.getElem?_eq_getElem hi)]
      exact hub.below _ (Nat.zero_le _) (by omega)

/-- A key is routed through its B entry. -/
theorem routes_block {bs : List PointerBEntry} (hb : b.WF)
    (h : Around PointerBEntry.cells Cell.entryKey bs k epre b epost)
    (hsorted : (bs.flatMap PointerBEntry.cells).Pairwise fun c d => c.entryKey < d.entryKey)
    (hbelow : epre = [] ∨ b.entryKey ≤ k) (hroute : Routes Cell.entryKey b.cells k c) :
    Routes Cell.entryKey (bs.flatMap PointerBEntry.cells) k c := by
  refine h.routes hsorted ?_ hroute
  rcases hbelow with rfl | hle
  · exact .inl rfl
  · obtain ⟨d, hd, hdk⟩ := hb.entryKey_mem
    exact .inr ⟨d, hd, hdk ▸ hle⟩

namespace Located

variable (hloc : g.Located k epre b epost)

include hloc

theorem getElem?_eq : g.entrySpace[g.findEntry k]? = some b := by
  rw [hloc.index]
  exact hloc.getElem?_length

theorem entryFor_eq : g.entryFor k = .ok b := by
  rw [entryFor, hloc.getElem?_eq]

theorem set_eq (b' : PointerBEntry) :
    g.entrySpace.set (g.findEntry k) b' = epre ++ b' :: epost := by
  rw [hloc.index]
  exact hloc.set_length b'

theorem cells_eq : g.cells =
    epre.flatMap PointerBEntry.cells ++ (b.cells ++ epost.flatMap PointerBEntry.cells) :=
  hloc.flatMap_eq

theorem routes (hb : b.WF) (hsorted : g.cells.Pairwise fun c d => c.entryKey < d.entryKey)
    (hroute : Routes Cell.entryKey b.cells k c) : Routes Cell.entryKey g.cells k c :=
  routes_block hb hloc.toAround hsorted hloc.below hroute

end Located

theorem sorted_of_cells (hl : Cells h (pre ++ (g.cells ++ post))) :
    g.cells.Pairwise fun c d => c.entryKey < d.entryKey :=
  (List.pairwise_append.mp (List.pairwise_append.mp hl.sorted).2.1).1

/-- `Get`, `Update` and `Delete` go to a bucket of the B entry that `find_entry` finds. -/
theorem WF.exec_at (hg : g.WF) (hget : g.entrySpace[g.findEntry k]? = some b) (h : Heap)
    (w : UInt64) :
    let p := (b.entrys (b.findPos k)).pointer
    g.get h k = .ok ((h.bunckets p).get k) ∧
      g.update h k w = .ok (((h.bunckets p).update k w).1, h.set p ((h.bunckets p).update k w).2) ∧
      g.delete h k = .ok (((h.bunckets p).delete k).1, h.set p ((h.bunckets p).delete k).2) := by
  have hentry : g.entryFor k = .ok b := by rw [entryFor, hget]
  obtain ⟨hget', hupdate, hdelete⟩ := (hg.entry b (List.mem_of_getElem? hget)).exec_eq h k w
  refine ⟨?_, ?_, ?_⟩
  · rw [get, hentry, ← hget']
    rfl
  · rw [update, hentry, ← hupdate]
    rfl
  · rw [delete, hentry, ← hdelete]
    rfl

theorem WF.exec_eq (hg : g.WF) (hne : g.entrySpace ≠ []) (h : Heap) (k w : UInt64) :
    ∃ b, g.entrySpace[g.findEntry k]? = some b ∧
      let p := (b.entrys (b.findPos k)).pointer
      g.get h k = .ok ((h.bunckets p).get k) ∧
      g.update h k w = .ok (((h.bunckets p).update k w).1, h.set p ((h.bunckets p).update k w).2) ∧
      g.delete h k = .ok (((h.bunckets p).delete k).1, h.set p ((h.bunckets p).delete k).2) := by
  obtain ⟨b, hget⟩ : ∃ b, g.entrySpace[g.findEntry k]? = some b :=
    ⟨_, List.getElem?_eq_getElem (findEntry_lt hne k)⟩
  exact ⟨b, hget, hg.exec_at hget h w⟩

/-- **`Get`, `Update` and `Delete`** of a group go to the bucket of the key. -/
theorem WF.exists_route (hg : g.WF) (hne : g.entrySpace ≠ [])
    (hsorted : g.cells.Pairwise fun c d => c.entryKey < d.entryKey) (k : UInt64) :
    ∃ c, Routes Cell.entryKey g.cells k c ∧
      (∀ h, g.get h k = .ok ((h.bunckets c.pointer).get k)) ∧
      (∀ h w, g.update h k w = .ok (((h.bunckets c.pointer).update k w).1,
        h.set c.pointer ((h.bunckets c.pointer).update k w).2)) ∧
      ∀ h, g.delete h k = .ok (((h.bunckets c.pointer).delete k).1,
        h.set c.pointer ((h.bunckets c.pointer).delete k).2) := by
  obtain ⟨epre, b, epost, hloc⟩ := exists_located hne hg.entry (hsorted.imp le_of_lt) k
  have hb := hg.entry b hloc.mem
  obtain ⟨-, hroute⟩ := hb.routes_findPos ((List.pairwise_flatMap.mp hsorted).1 b hloc.mem) k
  refine ⟨_, hloc.routes hb hsorted hroute, fun h => ?_, fun h w => ?_, fun h => ?_⟩
  · exact (hg.exec_at hloc.getElem?_eq h 0).1
  · exact (hg.exec_at hloc.getElem?_eq h w).2.1
  · exact (hg.exec_at hloc.getElem?_eq h 0).2.2

/-! ## Re-packing -/

theorem eentries_toCell : g.eentries.map EEntry.toCell = g.cells := by
  rw [eentries, List.map_flatMap]
  rfl

theorem cells_map_ofEEntry (es : List EEntry) :
    (es.map PointerBEntry.ofEEntry).flatMap PointerBEntry.cells = es.map EEntry.toCell := by
  induction es with
  | nil => rfl
  | cons e es ih =>
    rw [List.map_cons, List.flatMap_cons, ih, PointerBEntry.cells_ofEEntry]
    rfl

/-- The first cell has the first entry key. -/
theorem exists_first (hwf : ∀ b ∈ g.entrySpace, b.WF) (hne : g.entrySpace ≠ []) :
    ∃ c tail, g.cells = c :: tail ∧ c.entryKey = g.entryKey 0 := by
  obtain ⟨b, rest, heq⟩ := List.exists_cons_of_ne_nil hne
  have hfirst := PointerBEntry.cells_eq (hwf b (heq ▸ List.mem_cons_self ..)).pos
  rw [List.take_zero, List.nil_append] at hfirst
  refine ⟨(b.entrys 0).toCell, b.cells.drop 1 ++ rest.flatMap PointerBEntry.cells, ?_, ?_⟩
  · rw [cells, heq, List.flatMap_cons, hfirst, List.cons_append]
    rfl
  · rw [entryKey_eq (b := b) (by rw [heq]; rfl)]
    rfl

theorem ne_of_cells (hne : g.cells ≠ []) : g.entrySpace ≠ [] :=
  fun hnil => hne (by rw [cells, hnil]; rfl)

/-- The group is packed differently: the keys are found where they were, and the first
entry key has not been lowered. -/
structure Repacked (h : Heap) (pre post : List Cell) (g g' : Group) : Prop where
  /-- B entries -/
  wf : g'.WF
  /-- at least one -/
  ne : g'.entrySpace ≠ []
  /-- the cells partition the keys -/
  cells : Cells h (pre ++ (g'.cells ++ post))
  /-- the same pairs are stored -/
  stored : ∀ k v, Stored h (pre ++ (g'.cells ++ post)) k v ↔
    Stored h (pre ++ (g.cells ++ post)) k v
  /-- the first entry key -/
  first : g.entryKey 0 ≤ g'.entryKey 0
  /-- the number of cells -/
  count : g'.nextEntryCount = g.nextEntryCount

/-- The first entry key has been raised to the least key of its bucket, in whatever order the
entry keys are; the packing may be another. -/
structure Raised (h : Heap) (g g' : Group) : Prop where
  /-- B entries -/
  wf : g'.WF
  /-- the number of cells -/
  count : g'.nextEntryCount = g.nextEntryCount
  /-- the first cell has changed -/
  cells : ∃ c tail, g.cells = c :: tail ∧
    g'.cells = { c with entryKey := (h.bunckets c.pointer).minKey } :: tail

theorem Raised.ne {g' : Group} (hr : Raised h g g') : g'.entrySpace ≠ [] := by
  obtain ⟨c, tail, -, hcells⟩ := hr.cells
  exact ne_of_cells (by rw [hcells]; exact List.cons_ne_nil _ _)

theorem WF.exists_raised (hg : g.WF) (hne : g.entrySpace ≠ []) (h : Heap) :
    ∃ g', g.adjustEntryKey h = .ok g' ∧ Raised h g g' := by
  obtain ⟨b, rest, heq⟩ := List.exists_cons_of_ne_nil hne
  have hb := hg.entry b (heq ▸ List.mem_cons_self ..)
  set c := (b.entrys 0).toCell with hc
  set tail := b.cells.drop 1 ++ rest.flatMap PointerBEntry.cells with htail
  have hcells : g.cells = c :: tail := by
    have hfirst := PointerBEntry.cells_eq hb.pos
    rw [List.take_zero, List.nil_append] at hfirst
    rw [Group.cells, heq, List.flatMap_cons, hfirst, List.cons_append]
  set g' : Group := { g with entrySpace := b.adjustEntryKey h :: rest } with hg'
  have hcells' : g'.cells = ⟨(h.bunckets c.pointer).minKey, c.pointer⟩ :: tail := by
    rw [Group.cells, hg', List.flatMap_cons, PointerBEntry.adjustEntryKey,
      PointerBEntry.setEntryKey_cells hb.pos, List.cons_append]
  refine ⟨g', by rw [adjustEntryKey, heq], ⟨fun x hx => ?_, ?_⟩, rfl, c, tail, hcells, hcells'⟩
  · rcases List.mem_cons.mp hx with rfl | hx
    · exact hb.setEntryKey _
    · exact hg.entry x (heq ▸ List.mem_cons_of_mem _ hx)
  · rw [hcells', List.length_cons, ← List.length_cons (a := c), ← hcells]
    exact hg.count

/-- `expand` gives every cell a B entry of its own, in whatever order the entry keys are. -/
theorem WF.exists_expand (hg : g.WF) (hne : g.entrySpace ≠ []) (h : Heap) (train : Train) :
    ∃ g', g.expand train h = .ok g' ∧ Raised h g g' ∧ ∀ b ∈ g'.entrySpace, b.entries = 1 := by
  obtain ⟨g₁, hadj, hr⟩ := hg.exists_raised hne h
  have hlen : g₁.eentries.length = g₁.nextEntryCount := by
    rw [hr.wf.count, ← eentries_toCell, List.length_map]
  set g' : Group := { g₁ with
    entrySpace := g₁.eentries.map .ofEEntry
    nextEntryCount := g₁.eentries.length
    predict := train (g₁.eentries.map fun e => e.entryKey) } with hg'
  have hcells : g'.cells = g₁.cells := by
    rw [Group.cells, hg', cells_map_ofEEntry, eentries_toCell]
  refine ⟨g', ?_, ⟨⟨fun b hb => ?_, ?_⟩, hlen.trans hr.count, by rw [hcells]; exact hr.cells⟩,
    fun b hb => ?_⟩
  · rw [expand, hadj]
    exact if_neg (Nat.not_lt_of_le (Nat.le_of_eq hlen))
  · obtain ⟨e, -, rfl⟩ := List.mem_map.mp hb
    exact PointerBEntry.wf_ofEEntry e
  · rw [hcells, ← hr.wf.count]
    exact hlen
  · obtain ⟨e, -, rfl⟩ := List.mem_map.mp hb
    rw [← PointerBEntry.length_cells, PointerBEntry.cells_ofEEntry]
    rfl

/-- Raising the first entry key changes nothing that is stored. -/
theorem Raised.repacked {g' : Group} (hr : Raised h g g') (hg : g.WF)
    (hl : Cells h (pre ++ (g.cells ++ post))) : Repacked h pre post g g' := by
  obtain ⟨c, tail, hcells, hcells'⟩ := hr.cells
  have hne : g.entrySpace ≠ [] := ne_of_cells (by rw [hcells]; exact List.cons_ne_nil _ _)
  rw [hcells, List.cons_append] at hl
  refine ⟨hr.wf, hr.ne, ?_, fun k v => ?_, ?_, hr.count⟩
  · rw [hcells', List.cons_append]
    exact hl.raise
  · rw [hcells', hcells, List.cons_append, List.cons_append]
    exact Cells.stored_move
  · obtain ⟨d, rest, hd, hkey⟩ := exists_first hg.entry hne
    obtain ⟨d', rest', hd', hkey'⟩ := exists_first hr.wf.entry hr.ne
    obtain ⟨rfl, -⟩ := List.cons.inj (hd.symm.trans hcells)
    obtain ⟨rfl, -⟩ := List.cons.inj (hd'.symm.trans hcells')
    rw [← hkey, ← hkey']
    exact hl.lower d (List.mem_append_right _ (List.mem_cons_self ..)) _
      (UnSortBuncket.reads_minKey _)

/-- **`expand`** gives every cell a B entry of its own. -/
theorem WF.expand_spec (hg : g.WF) (hne : g.entrySpace ≠ [])
    (hl : Cells h (pre ++ (g.cells ++ post))) (train : Train) :
    ∃ g', g.expand train h = .ok g' ∧ Repacked h pre post g g' ∧
      ∀ b ∈ g'.entrySpace, b.entries = 1 := by
  obtain ⟨g', hexp, hr, hone⟩ := hg.exists_expand hne h train
  exact ⟨g', hexp, hr.repacked hg hl, hone⟩

/-! ## Put -/

/-- What a `Put` that succeeds has done before it appends to a bucket. -/
structure Ready (g : Group) (h : Heap) (pre post : List Cell) (k : UInt64) (g₁ : Group) (h₁ : Heap)
    (c : Cell) : Prop where
  /-- the cells partition the keys -/
  cells : Cells h₁ (pre ++ (g₁.cells ++ post))
  /-- the same pairs are stored -/
  stored : ∀ k v, Stored h₁ (pre ++ (g₁.cells ++ post)) k v ↔
    Stored h (pre ++ (g.cells ++ post)) k v
  /-- the cell of the key -/
  routes : Routes Cell.entryKey g₁.cells k c
  /-- its bucket has room -/
  room : (h₁.bunckets c.pointer).entries < UnSortBuncket.maxEntries
  /-- the first entry key has not been lowered -/
  first : ∃ d tail, g₁.cells = d :: tail ∧ g.entryKey 0 ≤ d.entryKey
  /-- the buckets before are untouched -/
  frame : ∀ d ∈ pre, h₁.bunckets d.pointer = h.bunckets d.pointer
  /-- at most one cell has been added -/
  count : g₁.cells.length ≤ g.cells.length + 1

/-- The result of a `Put` that succeeds: the key is appended to its bucket, and the entry key
follows it. -/
structure PutOk (g : Group) (h : Heap) (pre post : List Cell) (k v : UInt64) (g' : Group)
    (h' : Heap) : Prop where
  /-- B entries -/
  wf : g'.WF
  /-- the bucket of the key had room, and has the key now -/
  append : ∃ g₁ h₁ c p q, g.Ready h pre post k g₁ h₁ c ∧ g₁.cells = p ++ c :: q ∧
    g'.cells = p ++ c.lower k :: q ∧
    h' = h₁.set c.pointer ((h₁.bunckets c.pointer).append k v)

/-- A round of `Put` whose B entry succeeds. -/
theorem Located.putOk (hloc : g.Located k epre b epost) (hg : g.WF) {hasSplit : Bool}
    {b₁ : PointerBEntry} {h₁ : Heap} (hready : b.Ready h (pre ++ epre.flatMap PointerBEntry.cells)
      (epost.flatMap PointerBEntry.cells ++ post) k hasSplit b₁ h₁ c) :
    g.PutOk h pre post k v
      { g with
        entrySpace := epre ++ b₁.lower k :: epost
        nextEntryCount := if hasSplit then g.nextEntryCount + 1 else g.nextEntryCount }
      (h₁.set c.pointer ((h₁.bunckets c.pointer).append k v)) := by
  set g₁ : Group := { g with entrySpace := epre ++ b₁ :: epost } with hg₁
  have hassoc : ∀ x : List Cell, (pre ++ epre.flatMap PointerBEntry.cells) ++
      (x ++ (epost.flatMap PointerBEntry.cells ++ post)) = pre ++ ((epre.flatMap PointerBEntry.cells ++
        (x ++ epost.flatMap PointerBEntry.cells)) ++ post) := by
    intro x
    simp only [List.append_assoc]
  have hcells₁ : g₁.cells = epre.flatMap PointerBEntry.cells ++
      (b₁.cells ++ epost.flatMap PointerBEntry.cells) := by
    rw [Group.cells, hg₁, List.flatMap_append, List.flatMap_cons]
  -- a split has added one cell
  have hlen : g₁.cells.length = g.cells.length + hasSplit.toNat := by
    have hb₁ : b₁.cells.length = b.cells.length + hasSplit.toNat := by
      rw [PointerBEntry.length_cells, PointerBEntry.length_cells, hready.entries]
    rw [hcells₁, hloc.cells_eq]
    simp only [List.length_append, hb₁]
    omega
  have hentry : ∀ x ∈ epre ++ b₁ :: epost, x.WF := by
    intro x hx
    rcases List.mem_append.mp hx with hx | hx
    · exact hg.entry x (by rw [hloc.eq]; exact List.mem_append_left _ hx)
    · rcases List.mem_cons.mp hx with rfl | hx
      · exact hready.wf
      · exact hg.entry x (by
          rw [hloc.eq]
          exact List.mem_append_right _ (List.mem_cons_of_mem _ hx))
  have hl₁ : Cells h₁ (pre ++ (g₁.cells ++ post)) := by
    rw [hcells₁, ← hassoc]
    exact hready.cells
  have hsorted₁ := sorted_of_cells hl₁
  have hbsorted : b₁.cells.Pairwise fun c d => c.entryKey < d.entryKey :=
    (List.pairwise_flatMap.mp hsorted₁).1 b₁ (List.mem_append_right _ (List.mem_cons_self ..))
  obtain ⟨p, q, hpq⟩ := List.append_of_mem hready.routes.mem
  have hlower := hready.wf.lower_cells hbsorted hready.routes hpq
  have hcells' : (epre ++ b₁.lower k :: epost).flatMap PointerBEntry.cells =
      (epre.flatMap PointerBEntry.cells ++ p) ++
        c.lower k :: (q ++ epost.flatMap PointerBEntry.cells) := by
    rw [List.flatMap_append, List.flatMap_cons, hlower]
    simp only [List.append_assoc, List.cons_append]
  have hpq₁ : g₁.cells = (epre.flatMap PointerBEntry.cells ++ p) ++
      c :: (q ++ epost.flatMap PointerBEntry.cells) := by
    rw [hcells₁, hpq]
    simp only [List.append_assoc, List.cons_append]
  refine ⟨⟨fun x hx => ?_, ?_⟩, g₁, h₁, c, _, _, ⟨hl₁, fun x y => ?_, ?_, hready.room, ?_,
    fun d hd => hready.frame d (List.mem_append_left _ hd), ?_⟩, hpq₁, hcells', rfl⟩
  · rcases List.mem_append.mp hx with hx | hx
    · exact hentry x (List.mem_append_left _ hx)
    · rcases List.mem_cons.mp hx with rfl | hx
      · exact hready.wf.lower k
      · exact hentry x (List.mem_append_right _ (List.mem_cons_of_mem _ hx))
  · rw [Group.cells, hcells', List.length_append, List.length_cons, ← List.length_cons (a := c),
      ← List.length_append, ← hpq₁, hlen, ← hg.count]
    cases hasSplit <;> rfl
  · rw [hcells₁, ← hassoc, hready.stored, hloc.cells_eq, hassoc]
  · refine routes_block hready.wf ⟨rfl, hloc.above⟩ hsorted₁ ?_ hready.routes
    rw [hready.entryKey]
    exact hloc.below
  · obtain ⟨d, tail, hd, hkey⟩ := exists_first (g := g₁) hentry (by simp [hg₁])
    refine ⟨d, tail, hd, ?_⟩
    rw [hkey]
    apply le_of_eq
    rw [entryKey, entryKey, hloc.eq]
    cases epre with
    | nil => exact congrArg (fun x => (Option.some x).getD 0) hready.entryKey.symm
    | cons x epre => rfl
  · rw [hlen]
    exact Nat.add_le_add_left (Bool.toNat_le _) _

theorem PutOk.of_repacked {g₁ g' : Group} {h' : Heap} (hg : g.WF) (hre : Repacked h pre post g g₁)
    (hok : g₁.PutOk h pre post k v g' h') : g.PutOk h pre post k v g' h' := by
  obtain ⟨hwf, g₂, h₂, c, p, q, hready, hpq, hcells, hheap⟩ := hok
  obtain ⟨d, tail, hd, hle⟩ := hready.first
  refine ⟨hwf, g₂, h₂, c, p, q, ⟨hready.cells, fun x y => (hready.stored x y).trans (hre.stored x y),
    hready.routes, hready.room, ⟨d, tail, hd, hre.first.trans hle⟩, hready.frame, ?_⟩, hpq, hcells,
    hheap⟩
  rw [← hg.count, ← hre.count, hre.wf.count]
  exact hready.count

/-- A round of `Put`: it succeeds, or its B entry is full. -/
theorem WF.round_spec (hg : g.WF) (hne : g.entrySpace ≠ [])
    (hl : Cells h (pre ++ (g.cells ++ post))) (train : Train) (k v : UInt64) (n : ℕ) :
    (∃ g' h', putLoop train k v (n + 1) g h = .ok (.ok, g', h') ∧ g.PutOk h pre post k v g' h') ∨
    (∃ b ∈ g.entrySpace, b.entries = PointerBEntry.pbEntryCount) ∧
      putLoop train k v (n + 1) g h = (if g.nextEntryCount > maxEntryCount then .ok (.full, g, h)
        else do
          let g ← g.expand train h
          putLoop train k v n g h) := by
  obtain ⟨epre, b, epost, hloc⟩ := exists_located hne hg.entry
    ((sorted_of_cells hl).imp le_of_lt) k
  have hl' : Cells h ((pre ++ epre.flatMap PointerBEntry.cells) ++
      (b.cells ++ (epost.flatMap PointerBEntry.cells ++ post))) := by
    rw [hloc.cells_eq] at hl
    simpa only [List.append_assoc] using hl
  rcases (hg.entry b hloc.mem).put_spec hl' k v with
    ⟨hasSplit, b₁, h₁, c, hput, hready⟩ | ⟨hfour, hput⟩
  · refine .inl ⟨_, _, ?_, hloc.putOk hg hready⟩
    rw [putLoop, hloc.entryFor_eq]
    simp only [bind, Except.bind, hput, reduceCtorEq, if_false, hloc.set_eq]
  · refine .inr ⟨⟨b, hloc.mem, hfour⟩, ?_⟩
    rw [putLoop, hloc.entryFor_eq]
    simp only [bind, Except.bind, hput, if_true, Bool.false_eq_true, if_false, hloc.set_eq,
      ← hloc.eq]

/-- **`Put`** of a group succeeds, or asks for the tree to be expanded. -/
theorem WF.put_spec (hg : g.WF) (hne : g.entrySpace ≠ [])
    (hl : Cells h (pre ++ (g.cells ++ post))) (train : Train) (k v : UInt64) :
    (∃ g' h', g.put train h k v = .ok (.ok, g', h') ∧ g.PutOk h pre post k v g' h') ∨
    (∃ b ∈ g.entrySpace, b.entries = PointerBEntry.pbEntryCount) ∧
      maxEntryCount < g.nextEntryCount ∧ g.put train h k v = .ok (.full, g, h) := by
  rcases hg.round_spec hne hl train k v 1 with hok | ⟨hfour, hput⟩
  · exact .inl hok
  · by_cases hmax : g.nextEntryCount > maxEntryCount
    · rw [if_pos hmax] at hput
      exact .inr ⟨hfour, hmax, hput⟩
    · -- after the re-packing no B entry is full
      left
      rw [if_neg hmax] at hput
      obtain ⟨g₁, hexp, hre, hone⟩ := hg.expand_spec hne hl train
      rw [hexp] at hput
      rcases hre.wf.round_spec hre.ne hre.cells train k v 0 with ⟨g', h', hput', hok⟩ | ⟨⟨b, hb, hfour⟩, -⟩
      · exact ⟨g', h', hput.trans hput', hok.of_repacked hg hre⟩
      · rw [hone b hb] at hfour
        cases hfour

end Group

end NaliStore
