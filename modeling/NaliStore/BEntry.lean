import NaliStore.Cells
import NaliStore.LogKV

/-!
# B entries

`PointerBEntry` of `src/src/nali_entry.h`: up to four cells in a row. A `Put` into a full
bucket splits it as long as there is a place for another cell, and reports `Full` when there
is none.
-/

namespace NaliStore

open Routing

/-- `eentry` -/
structure EEntry extends Cell where
  /-- `buf.prefix_bytes` -/
  prefixBytes : ℕ
  /-- `buf.suffix_bytes` -/
  suffixBytes : ℕ
  /-- `buf.entries`: in the first `eentry` of a B entry the number of its cells -/
  entries : ℕ

/-- `IsValid`: `buf.meta` is not 0. -/
def EEntry.IsValid (e : EEntry) : Prop := e.prefixBytes ≠ 0 ∨ e.suffixBytes ≠ 0 ∨ e.entries ≠ 0

instance (e : EEntry) : Decidable e.IsValid := inferInstanceAs (Decidable (_ ∨ _))

/-- An `eentry` of zero bytes. -/
def EEntry.zero : EEntry := ⟨⟨0, 0⟩, 0, 0, 0⟩

/-- `PointerBEntry` -/
structure PointerBEntry where
  /-- `entrys`, of which `buf.entries` are in use -/
  entrys : ℕ → EEntry

namespace PointerBEntry

/-- `pb_entry_count` -/
def pbEntryCount : ℕ := 4

/-- `entry_key`, which is `entrys[0].entry_key` -/
def entryKey (b : PointerBEntry) : UInt64 := (b.entrys 0).entryKey

/-- `buf.entries` -/
def entries (b : PointerBEntry) : ℕ := (b.entrys 0).entries

/-- `PointerBEntry(key, prefix_len)`, with a new bucket -/
def init (h : Heap) (key : UInt64) (prefixLen : ℕ) : PointerBEntry × Heap :=
  let (pointer, h) := h.alloc
  (⟨Function.update (fun _ => .zero) 0 ⟨⟨key, pointer⟩, prefixLen, 8 - prefixLen, 1⟩⟩, h)

/-- `PointerBEntry(const eentry *)` -/
def ofEEntry (kventry : EEntry) : PointerBEntry :=
  ⟨Function.update (fun _ => .zero) 0 { kventry with entries := 1 }⟩

/-- Set `entry_key`. -/
def setEntryKey (b : PointerBEntry) (key : UInt64) : PointerBEntry :=
  ⟨Function.update b.entrys 0 { b.entrys 0 with entryKey := key }⟩

/-- `AdjustEntryKey` -/
def adjustEntryKey (b : PointerBEntry) (h : Heap) : PointerBEntry :=
  b.setEntryKey (h.bunckets (b.entrys 0).pointer).minKey

/-- `Find_pos` -/
def findPos (b : PointerBEntry) (key : UInt64) : ℕ :=
  let pos := linearSearch (fun pos => (b.entrys pos).entryKey) key b.entries 0
  if pos = 0 then pos else pos - 1

/-- The middle part of `Put`: split the bucket at `pos`, and make room for its upper half in
the next place. -/
def split (b : PointerBEntry) (h : Heap) (pos : ℕ) : PointerBEntry × Heap :=
  let p := (b.entrys pos).pointer
  let shifted := fun i => if pos + 1 < i ∧ i ≤ b.entries then b.entrys (i - 1) else b.entrys i
  let (np, h') := h.alloc
  let (next, splitKey, rest) := (h'.bunckets p).expand (h'.bunckets np)
  let entrys := Function.update shifted (pos + 1)
    { shifted (pos + 1) with entryKey := splitKey, pointer := np, prefixBytes := 0, suffixBytes := 8 }
  (⟨Function.update entrys 0 { entrys 0 with entries := (entrys 0).entries + 1 }⟩,
    (h'.set p rest).set np next)

/-- `Put` with a bound on the number of retries; also whether it has split a bucket. -/
def putLoop (key value : UInt64) : ℕ → PointerBEntry → Heap → Bool →
    Except Fault (Status × Bool × PointerBEntry × Heap)
  | 0, _, _, _ => .error .diverges
  | fuel + 1, b, h, hasSplit =>
    let pos := b.findPos key
    let p := (b.entrys pos).pointer
    let (ret, buncket) := (h.bunckets p).put key value
    if ret = .full ∧ b.entries < pbEntryCount then
      let (b, h) := b.split h pos
      putLoop key value fuel b h true
    else
      let b := if ret = .ok ∧ b.entryKey > key then b.setEntryKey key else b
      .ok (ret, hasSplit, b, h.set p buncket)

/-- `Put`. Every retry has split a bucket, which happens at most three times. -/
def put (b : PointerBEntry) (h : Heap) (key value : UInt64) :
    Except Fault (Status × Bool × PointerBEntry × Heap) :=
  putLoop key value pbEntryCount b h false

/-- The guard of `Update`, `Get` and `Delete`. -/
def Rejects (b : PointerBEntry) (pos : ℕ) : Prop := pbEntryCount ≤ pos ∨ ¬ (b.entrys pos).IsValid

instance (b : PointerBEntry) (pos : ℕ) : Decidable (b.Rejects pos) :=
  inferInstanceAs (Decidable (_ ∨ _))

/-- `Update`: the old value, if the key is there. -/
def update (b : PointerBEntry) (h : Heap) (key value : UInt64) : Option UInt64 × Heap :=
  let pos := b.findPos key
  if b.Rejects pos then (none, h)
  else
    let p := (b.entrys pos).pointer
    let (ret, buncket) := (h.bunckets p).update key value
    (ret, h.set p buncket)

/-- `Get` -/
def get (b : PointerBEntry) (h : Heap) (key : UInt64) : Option UInt64 :=
  let pos := b.findPos key
  if b.Rejects pos then none else (h.bunckets (b.entrys pos).pointer).get key

/-- `Delete`: the old value, if the key is there. -/
def delete (b : PointerBEntry) (h : Heap) (key : UInt64) : Option UInt64 × Heap :=
  let pos := b.findPos key
  if b.Rejects pos then (none, h)
  else
    let p := (b.entrys pos).pointer
    let (ret, buncket) := (h.bunckets p).delete key
    (ret, h.set p buncket)

/-- What an `EntryIter` of the B entry goes through. -/
def eentries (b : PointerBEntry) : List EEntry := (List.range b.entries).map b.entrys

/-- The cells of the B entry. -/
def cells (b : PointerBEntry) : List Cell := b.eentries.map EEntry.toCell

/-- A B entry has between one and four cells. -/
structure WF (b : PointerBEntry) : Prop where
  /-- at least one -/
  pos : 0 < b.entries
  /-- at most four -/
  le : b.entries ≤ pbEntryCount
  /-- they are valid -/
  valid : ∀ i < b.entries, (b.entrys i).IsValid

/-! ## The cells of a B entry -/

variable {b : PointerBEntry} {h : Heap} {k v : UInt64} {i j pos : ℕ} {c : Cell}

theorem cells_getElem? : b.cells[i]? = if i < b.entries then some (b.entrys i).toCell else none := by
  rw [cells, eentries, List.map_map, List.getElem?_map]
  split
  · rename_i hi
    rw [List.getElem?_range hi]
    rfl
  · rename_i hi
    rw [List.getElem?_eq_none (by rwa [List.length_range, ← Nat.not_lt])]
    rfl

theorem mem_cells : c ∈ b.cells ↔ ∃ i < b.entries, (b.entrys i).toCell = c := by
  simp only [cells, eentries, List.mem_map, List.mem_range, exists_exists_and_eq_and]

theorem length_cells : b.cells.length = b.entries := by
  rw [cells, eentries, List.length_map, List.length_map, List.length_range]

theorem ascending (hsorted : b.cells.Pairwise fun c d => c.entryKey < d.entryKey) :
    Ascending (fun pos => (b.entrys pos).entryKey) b.entries := by
  intro i j hij hj
  have hlt := List.pairwise_iff_getElem.mp hsorted i j (by rw [length_cells]; exact hij.trans hj)
    (by rwa [length_cells]) hij
  simpa [cells, eentries] using hlt

theorem rising (hle : b.cells.Pairwise fun c d => c.entryKey ≤ d.entryKey) :
    Rising (fun pos => (b.entrys pos).entryKey) b.entries := by
  intro i j hij hj
  rcases Nat.lt_or_eq_of_le hij with hlt | rfl
  · have hkeys := List.pairwise_iff_getElem.mp hle i j (by rw [length_cells]; exact hlt.trans hj)
      (by rwa [length_cells]) hlt
    simpa [cells, eentries] using hkeys
  · exact le_rfl

theorem WF.findPos_lt (hb : b.WF) (k : UInt64) : b.findPos k < b.entries := by
  obtain ⟨-, hle, -⟩ := linearSearch_spec (fun pos => (b.entrys pos).entryKey) k b.entries 0
  have hpos := hb.pos
  rw [findPos]
  split <;> omega

/-- **`Find_pos` routes.** -/
theorem WF.routes_findPos (hb : b.WF)
    (hsorted : b.cells.Pairwise fun c d => c.entryKey < d.entryKey) (k : UInt64) :
    b.findPos k < b.entries ∧ Routes Cell.entryKey b.cells k (b.entrys (b.findPos k)).toCell := by
  have hasc := ascending hsorted
  have hub := upperBound_linearSearch (k := k) hasc.rising (Nat.zero_add b.entries)
  have hpos := hb.pos
  rw [findPos]
  generalize linearSearch (fun pos => (b.entrys pos).entryKey) k b.entries 0 = i at hub
  have hle := hub.le
  split
  · -- the key is below all entry keys
    rename_i hi
    subst hi
    refine ⟨hpos, mem_cells.mpr ⟨0, hpos, rfl⟩, .inr fun d hd => ?_⟩
    obtain ⟨j, hj, rfl⟩ := mem_cells.mp hd
    exact ⟨hub.above j (Nat.zero_le _) hj, hasc.le (Nat.zero_le _) hj⟩
  · rename_i hi
    have hlt : i - 1 < b.entries := by omega
    refine ⟨hlt, mem_cells.mpr ⟨i - 1, hlt, rfl⟩, .inl ⟨hub.below _ (Nat.zero_le _) (by omega), ?_⟩⟩
    intro d hd hdk
    obtain ⟨j, hj, rfl⟩ := mem_cells.mp hd
    refine hasc.le (Nat.le_sub_one_of_lt (lt_of_not_ge fun hij => ?_)) hlt
    exact absurd hdk (not_le_of_gt (hub.above j hij hj))

/-- The cells around a position. -/
theorem cells_eq (hpos : pos < b.entries) :
    b.cells = b.cells.take pos ++ (b.entrys pos).toCell :: b.cells.drop (pos + 1) := by
  have hget : b.cells[pos]? = some (b.entrys pos).toCell := by rw [cells_getElem?, if_pos hpos]
  obtain ⟨hlt, heq⟩ := List.getElem?_eq_some_iff.mp hget
  rw [← heq, ← List.drop_eq_getElem_cons hlt, List.take_append_drop]

/-! ## Splitting -/

/-- The cell that a split adds. -/
def splitCell (b : PointerBEntry) (h : Heap) (pos : ℕ) : Cell :=
  let h' := h.alloc.2
  ⟨((h'.bunckets (b.entrys pos).pointer).expand (h'.bunckets h.next)).2.1, h.next⟩

theorem split_entries : (b.split h pos).1.entries = b.entries + 1 := by
  rw [entries, split]
  simp only [Function.update_self, Function.update_of_ne (Nat.zero_ne_add_one pos)]
  rw [if_neg (by omega)]
  rfl

/-- The places of a B entry after a split. -/
theorem split_entrys (i : ℕ) (hi : i ≤ b.entries) :
    ((b.split h pos).1.entrys i).toCell =
      if i ≤ pos then (b.entrys i).toCell
      else if i = pos + 1 then b.splitCell h pos else (b.entrys (i - 1)).toCell := by
  rw [split]
  simp only
  -- the count in place 0 is not part of its cell
  have hzero : ∀ (f : ℕ → EEntry) (n : ℕ),
      (Function.update f 0 { f 0 with entries := n } i).toCell = (f i).toCell := by
    intro f n
    by_cases h0 : i = 0
    · rw [h0, Function.update_self]
    · rw [Function.update_of_ne h0]
  rw [hzero]
  by_cases hle : i ≤ pos
  · rw [if_pos hle, Function.update_of_ne (by omega), if_neg (by omega)]
  · rw [if_neg hle]
    by_cases heq : i = pos + 1
    · rw [if_pos heq, heq, Function.update_self]
      rfl
    · rw [if_neg heq, Function.update_of_ne heq, if_pos (by omega)]

theorem split_cells (hpos : pos < b.entries) :
    (b.split h pos).1.cells =
      b.cells.take pos ++ (b.entrys pos).toCell :: b.splitCell h pos :: b.cells.drop (pos + 1) := by
  have hlen : (b.cells.take pos).length = pos := by
    rw [List.length_take, length_cells]
    omega
  refine List.ext_getElem? fun i => ?_
  rw [cells_getElem?, split_entries]
  rcases lt_trichotomy i pos with hlt | rfl | hgt
  · rw [if_pos (by omega), split_entrys i (by omega), if_pos hlt.le,
      List.getElem?_append_left (by omega), List.getElem?_take_of_lt hlt, cells_getElem?,
      if_pos (by omega)]
  · rw [if_pos (by omega), split_entrys i (by omega), if_pos le_rfl,
      List.getElem?_append_right (by omega), hlen, Nat.sub_self]
    rfl
  · obtain ⟨d, rfl⟩ : ∃ d, i = pos + 1 + d := ⟨i - (pos + 1), by omega⟩
    rw [List.getElem?_append_right (by omega), hlen]
    have hsub : pos + 1 + d - pos = d + 1 := by omega
    rw [hsub, List.getElem?_cons_succ]
    cases d with
    | zero =>
      rw [if_pos (by omega), split_entrys _ (by omega), if_neg (by omega), if_pos rfl]
      rfl
    | succ d =>
      rw [List.getElem?_cons_succ, List.getElem?_drop, cells_getElem?]
      by_cases hd : pos + 1 + d < b.entries
      · rw [if_pos (by omega), if_pos hd, split_entrys _ (by omega), if_neg (by omega),
          if_neg (by omega)]
        rfl
      · rw [if_neg (by omega), if_neg hd]

theorem WF.split (hb : b.WF) (hpos : pos < b.entries) (hlt : b.entries < pbEntryCount) (h : Heap) :
    (b.split h pos).1.WF := by
  refine ⟨by rw [split_entries]; omega, by rw [split_entries]; exact hlt, fun i hi => ?_⟩
  rw [split_entries] at hi
  rw [PointerBEntry.split]
  simp only
  by_cases h0 : i = 0
  · rw [h0, Function.update_self]
    exact .inr (.inr (Nat.succ_ne_zero _))
  · rw [Function.update_of_ne h0]
    by_cases heq : i = pos + 1
    · rw [heq, Function.update_self]
      exact .inr (.inl (Nat.succ_ne_zero 7))
    · rw [Function.update_of_ne heq]
      split
      · exact hb.valid (i - 1) (by omega)
      · exact hb.valid i (by omega)

/-- The heap and the new cell after a split. -/
theorem split_eq (hp : (b.entrys pos).pointer < h.next) :
    let halves := (h.bunckets (b.entrys pos).pointer).expand (h.alloc.2.bunckets h.next)
    (b.split h pos).2 = Cells.splitHeap h (b.entrys pos).pointer halves.1 halves.2.2 ∧
      b.splitCell h pos = ⟨halves.2.1, h.next⟩ := by
  have hbunk : h.alloc.2.bunckets (b.entrys pos).pointer = h.bunckets (b.entrys pos).pointer :=
    Heap.alloc_of_ne hp.ne
  refine ⟨?_, ?_⟩
  · rw [split]
    simp only [Heap.alloc] at hbunk ⊢
    rw [hbunk]
    rfl
  · rw [splitCell]
    simp only [hbunk]

variable {pre post : List Cell}

/-- **Splitting a bucket of a B entry.** The keys stay where they are found, and both parts
have room. -/
structure SplitOk (b : PointerBEntry) (h : Heap) (pos : ℕ) (pre post : List Cell) : Prop where
  /-- the cells still partition the keys -/
  cells : Cells (b.split h pos).2 (pre ++ ((b.split h pos).1.cells ++ post))
  /-- the same pairs are stored -/
  stored : ∀ k v, Stored (b.split h pos).2 (pre ++ ((b.split h pos).1.cells ++ post)) k v ↔
    Stored h (pre ++ (b.cells ++ post)) k v
  /-- there is room in the lower half -/
  room : ((b.split h pos).2.bunckets (b.entrys pos).pointer).entries < UnSortBuncket.maxEntries
  /-- there is room in the upper half -/
  room_next : ((b.split h pos).2.bunckets (b.splitCell h pos).pointer).entries <
    UnSortBuncket.maxEntries
  /-- the buckets before are untouched -/
  frame : ∀ d ∈ pre, (b.split h pos).2.bunckets d.pointer = h.bunckets d.pointer

theorem splitOk (hl : Cells h (pre ++ (b.cells ++ post))) (hpos : pos < b.entries)
    (hfull : UnSortBuncket.maxEntries ≤ (h.bunckets (b.entrys pos).pointer).entries) :
    b.SplitOk h pos pre post := by
  set c := (b.entrys pos).toCell with hc
  have hcells : pre ++ (b.cells ++ post) =
      (pre ++ b.cells.take pos) ++ c :: (b.cells.drop (pos + 1) ++ post) := by
    conv_lhs => rw [cells_eq hpos]
    simp [hc]
  have hcells' : pre ++ ((b.split h pos).1.cells ++ post) =
      (pre ++ b.cells.take pos) ++ c :: b.splitCell h pos :: (b.cells.drop (pos + 1) ++ post) := by
    rw [split_cells hpos]
    simp [hc]
  rw [hcells] at hl
  have hmem : c ∈ (pre ++ b.cells.take pos) ++ c :: (b.cells.drop (pos + 1) ++ post) :=
    List.mem_append_right _ (List.mem_cons_self ..)
  set next := ((h.bunckets c.pointer).expand (h.alloc.2.bunckets h.next)).1 with hnext
  set rest := ((h.bunckets c.pointer).expand (h.alloc.2.bunckets h.next)).2.2 with hrest
  obtain ⟨hheap, hcell⟩ := split_eq (b := b) (hl.alloc c hmem)
  have htwo : 2 ≤ (h.bunckets c.pointer).entries := le_trans (by decide) hfull
  have hs : UnSortBuncket.Split (h.bunckets c.pointer) next (b.splitCell h pos).entryKey rest := by
    rw [hcell]
    exact (hl.distinct c hmem).split_expand (by omega) _
  have hfifteen : (h.bunckets c.pointer).entries = UnSortBuncket.maxEntries :=
    le_antisymm (hl.distinct c hmem).le hfull
  have hkey : b.splitCell h pos = ⟨(b.splitCell h pos).entryKey, h.next⟩ := rfl
  refine ⟨?_, fun k v => ?_, ?_, ?_, fun d hd => ?_⟩
  · rw [hcells', hheap, hkey]
    exact hl.split hs htwo
  · rw [hcells', hheap, hkey, hcells]
    exact hl.stored_split hs
  · rw [hheap, Cells.splitHeap_self (hl.alloc c hmem), hs.entries_rest, hfifteen]
    decide
  · rw [hheap, hkey, Cells.splitHeap_next, hs.entries_next, hfifteen]
    decide
  · have hdmem : d ∈ (pre ++ b.cells.take pos) ++ c :: (b.cells.drop (pos + 1) ++ post) :=
      List.mem_append_left _ (List.mem_append_left _ hd)
    have hlt := (List.pairwise_append.mp hl.sorted).2.2 d (List.mem_append_left _ hd) c
      (List.mem_cons_self ..)
    rw [hheap]
    exact Cells.splitHeap_other (hl.alloc d hdmem) fun heq =>
      hlt.ne (congrArg Cell.entryKey (hl.own d hdmem c hmem heq))

/-! ## Put -/

/-- The last part of `Put`: the entry key follows a key below it. -/
def lower (b : PointerBEntry) (key : UInt64) : PointerBEntry :=
  if b.entryKey > key then b.setEntryKey key else b

theorem setEntryKey_cells (hpos : 0 < b.entries) (key : UInt64) :
    (b.setEntryKey key).cells = ⟨key, (b.entrys 0).pointer⟩ :: b.cells.drop 1 := by
  have hentries : (b.setEntryKey key).entries = b.entries := by
    rw [entries, setEntryKey]
    simp only [Function.update_self]
    rfl
  refine List.ext_getElem? fun i => ?_
  rw [cells_getElem?, hentries]
  cases i with
  | zero =>
    rw [if_pos hpos]
    simp only [setEntryKey, Function.update_self, List.getElem?_cons_zero]
  | succ i =>
    rw [List.getElem?_cons_succ, List.getElem?_drop, cells_getElem?, Nat.add_comm 1 i]
    simp only [setEntryKey, Function.update_of_ne (Nat.succ_ne_zero i)]

theorem WF.setEntryKey (hb : b.WF) (key : UInt64) : (b.setEntryKey key).WF := by
  have hentries : (b.setEntryKey key).entries = b.entries := by
    rw [entries, PointerBEntry.setEntryKey]
    simp only [Function.update_self]
    rfl
  refine ⟨by rw [hentries]; exact hb.pos, by rw [hentries]; exact hb.le, fun i hi => ?_⟩
  rw [hentries] at hi
  by_cases h0 : i = 0
  · simp only [PointerBEntry.setEntryKey, h0, Function.update_self]
    exact hb.valid 0 hb.pos
  · simp only [PointerBEntry.setEntryKey, Function.update_of_ne h0]
    exact hb.valid i hi

theorem WF.lower (hb : b.WF) (k : UInt64) : (b.lower k).WF := by
  rw [PointerBEntry.lower]
  split
  · exact hb.setEntryKey k
  · exact hb

/-- Lowering the entry key is lowering the cell of the key. -/
theorem WF.lower_cells (hb : b.WF) (hsorted : b.cells.Pairwise fun c d => c.entryKey < d.entryKey)
    (hroute : Routes Cell.entryKey b.cells k c) (hcells : b.cells = pre ++ c :: post) :
    (b.lower k).cells = pre ++ c.lower k :: post := by
  have hfirst := cells_eq hb.pos
  rw [List.take_zero, List.nil_append] at hfirst
  rw [PointerBEntry.lower]
  split
  · rename_i hlt
    -- the key is below the first cell, so that is its cell
    have hmem : (b.entrys 0).toCell ∈ b.cells := mem_cells.mpr ⟨0, hb.pos, rfl⟩
    have hle : ∀ d ∈ b.cells, (b.entrys 0).entryKey ≤ d.entryKey := by
      intro d hd
      obtain ⟨i, hi, rfl⟩ := mem_cells.mp hd
      exact (ascending hsorted).le (Nat.zero_le _) hi
    have hc : c = (b.entrys 0).toCell := by
      refine eq_of_lo_eq hsorted hroute.mem hmem (le_antisymm ?_ (hle c hroute.mem))
      rcases hroute.le_or_first with hck | hall
      · exact absurd ((hle c hroute.mem).trans hck) (not_le_of_gt hlt)
      · exact hall _ hmem
    have hnil : pre = [] := by
      by_contra hne
      obtain ⟨d, hd⟩ := List.exists_mem_of_ne_nil pre hne
      rw [hcells] at hsorted hle
      exact absurd ((List.pairwise_append.mp hsorted).2.2 d hd c (List.mem_cons_self ..))
        (not_lt_of_ge (hc ▸ hle d (List.mem_append_left _ hd)))
    subst hnil
    rw [setEntryKey_cells hb.pos, hcells, Cell.lower, hc, if_pos (by exact hlt)]
    rfl
  · rename_i hlt
    have hle : c.entryKey ≤ k := by
      rcases hroute.2 with ⟨hle, -⟩ | hall
      · exact hle
      · exact absurd (hall _ (mem_cells.mpr ⟨0, hb.pos, rfl⟩)).1 (hlt ·)
    rw [hcells, Cell.lower, if_neg (not_lt_of_ge hle)]

/-- What a `Put` that succeeds has done before it appends to a bucket: nothing, or one split. -/
structure Ready (b : PointerBEntry) (h : Heap) (pre post : List Cell) (k : UInt64) (hasSplit : Bool)
    (b₁ : PointerBEntry) (h₁ : Heap) (c : Cell) : Prop where
  /-- a B entry -/
  wf : b₁.WF
  /-- the cells partition the keys -/
  cells : Cells h₁ (pre ++ (b₁.cells ++ post))
  /-- the same pairs are stored -/
  stored : ∀ k v, Stored h₁ (pre ++ (b₁.cells ++ post)) k v ↔
    Stored h (pre ++ (b.cells ++ post)) k v
  /-- the cell of the key -/
  routes : Routes Cell.entryKey b₁.cells k c
  /-- its bucket has room -/
  room : (h₁.bunckets c.pointer).entries < UnSortBuncket.maxEntries
  /-- a split adds a cell -/
  entries : b₁.entries = b.entries + hasSplit.toNat
  /-- the first entry key is the same -/
  entryKey : b₁.entryKey = b.entryKey
  /-- the buckets before are untouched -/
  frame : ∀ d ∈ pre, h₁.bunckets d.pointer = h.bunckets d.pointer

theorem sorted_of_cells (hl : Cells h (pre ++ (b.cells ++ post))) :
    b.cells.Pairwise fun c d => c.entryKey < d.entryKey :=
  (List.pairwise_append.mp (List.pairwise_append.mp hl.sorted).2.1).1

/-- A round of `Put` that finds room. -/
theorem putLoop_of_room {n : ℕ} {hasSplit : Bool} (hroom :
      (h.bunckets (b.entrys (b.findPos k)).pointer).entries < UnSortBuncket.maxEntries) :
    putLoop k v (n + 1) b h hasSplit = .ok (.ok, hasSplit, b.lower k,
      h.set (b.entrys (b.findPos k)).pointer
        ((h.bunckets (b.entrys (b.findPos k)).pointer).append k v)) := by
  rw [putLoop]
  simp only [UnSortBuncket.put_of_room hroom, reduceCtorEq, false_and, if_false, true_and]
  rfl

/-- **`Put`** of a B entry appends to the bucket of the key, after a split if that was full;
it reports `Full` when it would need a fifth cell. -/
theorem WF.put_spec (hb : b.WF) (hl : Cells h (pre ++ (b.cells ++ post))) (k v : UInt64) :
    (∃ hasSplit b₁ h₁ c, b.put h k v = .ok (.ok, hasSplit, b₁.lower k,
        h₁.set c.pointer ((h₁.bunckets c.pointer).append k v)) ∧
      b.Ready h pre post k hasSplit b₁ h₁ c) ∨
    b.entries = pbEntryCount ∧ b.put h k v = .ok (.full, false, b, h) := by
  have hsorted := sorted_of_cells hl
  obtain ⟨hpos, hroute⟩ := hb.routes_findPos hsorted k
  rcases Nat.lt_or_ge (h.bunckets (b.entrys (b.findPos k)).pointer).entries
    UnSortBuncket.maxEntries with hroom | hfull
  · exact .inl ⟨false, b, h, _, putLoop_of_room hroom, hb, hl, fun _ _ => Iff.rfl, hroute, hroom,
      rfl, rfl, fun _ _ => rfl⟩
  · have hput := UnSortBuncket.put_of_full (k := k) (v := v) hfull
    by_cases hlt : b.entries < pbEntryCount
    · left
      have hok := splitOk hl hpos hfull
      set b₁ := (b.split h (b.findPos k)).1 with hb₁
      set h₁ := (b.split h (b.findPos k)).2 with hh₁
      have hwf : b₁.WF := hb.split hpos hlt h
      obtain ⟨hpos₁, hroute₁⟩ := hwf.routes_findPos (sorted_of_cells hok.cells) k
      -- the key goes to one of the halves, and both have room
      have hroom : (h₁.bunckets (b₁.entrys (b₁.findPos k)).pointer).entries <
          UnSortBuncket.maxEntries := by
        have hcase := Routes.of_split (cells_eq hpos ▸ hroute) (cells_eq hpos ▸ hsorted)
          (split_cells hpos ▸ hroute₁)
        rcases hcase with heq | heq
        · rw [congrArg Cell.pointer heq]
          exact hok.room
        · rw [congrArg Cell.pointer heq]
          exact hok.room_next
      refine ⟨true, b₁, h₁, _, ?_, hwf, hok.cells, hok.stored, hroute₁, hroom, split_entries, ?_,
        hok.frame⟩
      · rw [put, pbEntryCount, putLoop]
        simp only [hput, true_and, if_pos hlt]
        exact putLoop_of_room hroom
      · have hzero : (b₁.entrys 0).toCell = _ := split_entrys 0 (Nat.zero_le _)
        rw [if_pos (Nat.zero_le _)] at hzero
        exact congrArg Cell.entryKey hzero
    · refine .inr ⟨le_antisymm hb.le (Nat.le_of_not_lt hlt), ?_⟩
      rw [put, pbEntryCount, putLoop]
      simp only [hput, true_and, if_neg hlt, reduceCtorEq, false_and, if_false, Heap.set_eq_self]

/-! ## The other operations -/

/-- The first cell has the least entry key. -/
theorem entryKey_le (hle : b.cells.Pairwise fun c d => c.entryKey ≤ d.entryKey)
    (hc : c ∈ b.cells) : b.entryKey ≤ c.entryKey := by
  obtain ⟨i, hi, rfl⟩ := mem_cells.mp hc
  exact rising hle 0 i (Nat.zero_le _) hi

theorem WF.entryKey_mem (hb : b.WF) : ∃ c ∈ b.cells, c.entryKey = b.entryKey :=
  ⟨_, mem_cells.mpr ⟨0, hb.pos, rfl⟩, rfl⟩

theorem WF.not_rejects (hb : b.WF) (k : UInt64) : ¬ b.Rejects (b.findPos k) := by
  have hlt := hb.findPos_lt k
  rintro (hle | hinvalid)
  · exact absurd (hlt.trans_le hb.le) (not_lt_of_ge hle)
  · exact hinvalid (hb.valid _ hlt)

/-- **`Get`, `Update` and `Delete`** go to the bucket that `Find_pos` finds. -/
theorem WF.exec_eq (hb : b.WF) (h : Heap) (k w : UInt64) :
    let p := (b.entrys (b.findPos k)).pointer
    b.get h k = (h.bunckets p).get k ∧
      b.update h k w = (((h.bunckets p).update k w).1, h.set p ((h.bunckets p).update k w).2) ∧
      b.delete h k = (((h.bunckets p).delete k).1, h.set p ((h.bunckets p).delete k).2) := by
  have hguard := hb.not_rejects k
  refine ⟨?_, ?_, ?_⟩
  · rw [get]
    exact if_neg hguard
  · rw [update]
    exact if_neg hguard
  · rw [delete]
    exact if_neg hguard

/-! ## New B entries -/

theorem cells_ofEEntry (e : EEntry) : (ofEEntry e).cells = [e.toCell] := by
  rw [cells, eentries, entries, ofEEntry]
  simp only [Function.update_self]
  rfl

theorem wf_ofEEntry (e : EEntry) : (ofEEntry e).WF := by
  have hentries : (ofEEntry e).entries = 1 := by
    rw [entries, ofEEntry]
    simp only [Function.update_self]
  refine ⟨by rw [hentries]; decide, by rw [hentries]; decide, fun i hi => ?_⟩
  rw [hentries] at hi
  obtain rfl : i = 0 := by omega
  rw [ofEEntry]
  simp only [Function.update_self]
  exact .inr (.inr Nat.one_ne_zero)

end PointerBEntry

end NaliStore
