import NaliStore.Expand
import NaliStore.Visits

/-!
# The rounds of a Put

`Put` is three loops in one another, in a B entry, a group and the tree, and each starts over
after it has made room: by splitting a bucket, by re-packing the group, by expanding the tree.
None of them counts its rounds. Here the rounds of a B entry and of a group are written down
(`Rework`), and nothing is asked of the order of the entry keys.

What is left is the bookkeeping: a bucket of a cell is allocated and has at most fifteen slots
in use (`Heap.Sane`), a B entry has between one and four cells, and a group counts its cells.
That is enough: the bucket a key goes to after a split is one of the two halves, in whatever
order the entry keys are, and after a re-packing no B entry is full.
-/

namespace NaliStore

open Routing Runs

/-- What a `Put` does to make room. -/
inductive Rework where
  /-- `Expand_` of a bucket -/
  | split
  /-- `group::expand` -/
  | expand
  /-- `ExpandTree` -/
  | expandTree
  deriving DecidableEq, Repr

/-! ## Buckets -/

namespace Heap

/-- The bucket is allocated, and has at most fifteen slots in use. -/
structure Sane (h : Heap) (p : ℕ) : Prop where
  /-- it is allocated -/
  alloc : p < h.next
  /-- there are fifteen slots -/
  le : (h.bunckets p).entries ≤ UnSortBuncket.maxEntries

/-- The buckets stay as they should be. -/
def Keeps (h h' : Heap) : Prop := ∀ p, h.Sane p → h'.Sane p

variable {h h' h'' : Heap} {p : ℕ} {b : UnSortBuncket}

theorem Keeps.refl (h : Heap) : h.Keeps h := fun _ hp => hp

theorem Keeps.trans (hk : h.Keeps h') (hk' : h'.Keeps h'') : h.Keeps h'' :=
  fun p hp => hk' p (hk p hp)

theorem keeps_set (hle : b.entries ≤ UnSortBuncket.maxEntries) : h.Keeps (h.set p b) := by
  intro q hq
  refine ⟨hq.alloc, ?_⟩
  rcases eq_or_ne q p with rfl | hne
  · rwa [set_self]
  · rw [set_of_ne hne]
    exact hq.le

end Heap

/-! ## B entries -/

namespace PointerBEntry

variable {b b₁ : PointerBEntry} {h h₁ : Heap} {k v : UInt64} {pos : ℕ} {hasSplit : Bool}
  {done : List Rework}

/-- `Put` with what it has done to make room. -/
def putTrace (key value : UInt64) : ℕ → PointerBEntry → Heap → Bool → List Rework →
    Except Fault ((Status × Bool × PointerBEntry × Heap) × List Rework)
  | 0, _, _, _, _ => .error .diverges
  | fuel + 1, b, h, hasSplit, done =>
    let pos := b.findPos key
    let p := (b.entrys pos).pointer
    let (ret, buncket) := (h.bunckets p).put key value
    if ret = .full ∧ b.entries < pbEntryCount then
      let (b, h) := b.split h pos
      putTrace key value fuel b h true (done ++ [.split])
    else
      let b := if ret = .ok ∧ b.entryKey > key then b.setEntryKey key else b
      .ok ((ret, hasSplit, b, h.set p buncket), done)

/-- Writing the rounds down changes nothing. -/
theorem map_putTrace : ∀ (fuel : ℕ) (b : PointerBEntry) (h : Heap) (hasSplit : Bool)
    (done : List Rework), (putTrace k v fuel b h hasSplit done).map Prod.fst =
      putLoop k v fuel b h hasSplit := by
  intro fuel
  induction fuel with
  | zero => exact fun _ _ _ _ => rfl
  | succ fuel ih =>
    intro b h hasSplit done
    rw [putTrace, putLoop]
    simp only
    split
    · exact ih _ _ _ _
    · rfl

/-- After a split the key goes to one of the halves. -/
theorem findPos_split (hpos : b.findPos k < b.entries) :
    (b.split h (b.findPos k)).1.findPos k = b.findPos k ∨
      (b.split h (b.findPos k)).1.findPos k = b.findPos k + 1 := by
  set b₁ := (b.split h (b.findPos k)).1 with hb₁
  have hentries : b₁.entries = b.entries + 1 := split_entries
  have hkey : ∀ i ≤ b.entries, (b₁.entrys i).entryKey = if i ≤ b.findPos k then
      (b.entrys i).entryKey else if i = b.findPos k + 1 then (b.splitCell h (b.findPos k)).entryKey
      else (b.entrys (i - 1)).entryKey := by
    intro i hi
    have hcell : ((b.split h (b.findPos k)).1.entrys i).toCell.entryKey = _ :=
      congrArg Cell.entryKey (split_entrys i hi)
    rw [apply_ite Cell.entryKey, apply_ite Cell.entryKey] at hcell
    exact hcell
  obtain ⟨-, hle, hbelow, habove⟩ :=
    linearSearch_spec (fun pos => (b.entrys pos).entryKey) k b.entries 0
  obtain ⟨-, hle₁, hbelow₁, habove₁⟩ :=
    linearSearch_spec (fun pos => (b₁.entrys pos).entryKey) k b₁.entries 0
  have hfind : b.findPos k = linearSearch (fun pos => (b.entrys pos).entryKey) k b.entries 0 - 1 := by
    rw [findPos]
    split <;> omega
  have hfind₁ : b₁.findPos k =
      linearSearch (fun pos => (b₁.entrys pos).entryKey) k b₁.entries 0 - 1 := by
    rw [findPos]
    split <;> omega
  rw [hfind₁]
  generalize linearSearch (fun pos => (b.entrys pos).entryKey) k b.entries 0 = i at *
  generalize linearSearch (fun pos => (b₁.entrys pos).entryKey) k b₁.entries 0 = i₁ at *
  -- the search does not stop before the place of the bucket
  have hge : i ≤ i₁ := by
    by_contra hlt
    have hgt := habove₁ (by omega)
    rw [hkey i₁ (by omega), if_pos (by omega)] at hgt
    exact absurd (hbelow i₁ (Nat.zero_le _) (by omega)) (not_le_of_gt hgt)
  -- and it does not go on after the new one
  have hle' : i₁ ≤ i + 1 := by
    by_contra hgt
    have hlow := hbelow₁ (i + 1) (Nat.zero_le _) (by omega)
    have hlt := habove (by omega)
    rw [hkey (i + 1) (by omega), if_neg (by omega)] at hlow
    rcases Nat.eq_zero_or_pos i with rfl | hi
    · -- below the first key the search does not start
      have hfirst := hbelow₁ 0 (Nat.zero_le _) (by omega)
      rw [hkey 0 (Nat.zero_le _), if_pos (Nat.zero_le _)] at hfirst
      exact absurd hfirst (not_le_of_gt hlt)
    · rw [if_neg (by omega)] at hlow
      exact absurd hlow (not_le_of_gt hlt)
  rcases Nat.eq_zero_or_pos i with rfl | hi
  · left
    omega
  · omega

/-- The buckets of the cells are as they should be. -/
def Sane (b : PointerBEntry) (h : Heap) : Prop := ∀ c ∈ b.cells, h.Sane c.pointer

theorem Sane.entrys (hs : b.Sane h) (hpos : pos < b.entries) : h.Sane (b.entrys pos).pointer :=
  hs _ (mem_cells.mpr ⟨pos, hpos, rfl⟩)

/-- How a `Put` comes to a bucket with room: it finds one, or splits the bucket it finds. -/
inductive Roomy (b : PointerBEntry) (h : Heap) (k : UInt64) : Bool → PointerBEntry → Heap → Prop
  /-- there is room -/
  | found : (h.bunckets (b.entrys (b.findPos k)).pointer).entries < UnSortBuncket.maxEntries →
      Roomy b h k false b h
  /-- the bucket is full, and there is a place for another -/
  | split : (h.bunckets (b.entrys (b.findPos k)).pointer).entries = UnSortBuncket.maxEntries →
      b.entries < pbEntryCount →
      Roomy b h k true (b.split h (b.findPos k)).1 (b.split h (b.findPos k)).2

/-- What a `Put` relies on when it has come to a bucket with room. -/
structure RoomyOk (b : PointerBEntry) (h : Heap) (k : UInt64) (hasSplit : Bool)
    (b₁ : PointerBEntry) (h₁ : Heap) : Prop where
  /-- a B entry -/
  wf : b₁.WF
  /-- a split adds a cell -/
  entries : b₁.entries = b.entries + hasSplit.toNat
  /-- the buckets of the cells -/
  sane : b₁.Sane h₁
  /-- and the others -/
  keeps : h.Keeps h₁
  /-- there is room -/
  room : (h₁.bunckets (b₁.entrys (b₁.findPos k)).pointer).entries < UnSortBuncket.maxEntries

theorem Roomy.ok (hr : b.Roomy h k hasSplit b₁ h₁) (hb : b.WF) (hs : b.Sane h) :
    b.RoomyOk h k hasSplit b₁ h₁ := by
  have hpos := hb.findPos_lt k
  cases hr with
  | found hroom => exact ⟨hb, rfl, hs, .refl h, hroom⟩
  | split hfull hlt =>
    set p := (b.entrys (b.findPos k)).pointer with hp
    have halloc : p < h.next := (hs.entrys hpos).alloc
    obtain ⟨hheap, -⟩ := split_eq halloc
    set halves := (h.bunckets p).expand (h.alloc.2.bunckets h.next) with hhalves
    have hnext' : halves.1.entries < UnSortBuncket.maxEntries := by
      have hent : halves.1.entries = (h.bunckets p).entries - (h.bunckets p).entries / 2 := rfl
      rw [hent, hfull]
      decide
    have hrest' : halves.2.2.entries < UnSortBuncket.maxEntries := by
      have hent : halves.2.2.entries = (h.bunckets p).entries / 2 := rfl
      rw [hent, hfull]
      decide
    rw [hheap]
    set h₁ := Cells.splitHeap h p halves.1 halves.2.2 with hh₁
    have hself : h₁.bunckets p = halves.2.2 := Cells.splitHeap_self halloc
    have hnew : h₁.bunckets h.next = halves.1 := Cells.splitHeap_next
    have hkeeps : h.Keeps h₁ := by
      intro q hq
      refine ⟨Nat.lt_succ_of_lt hq.alloc, ?_⟩
      rcases eq_or_ne q p with rfl | hne
      · rw [hself]
        exact hrest'.le
      · rw [Cells.splitHeap_other hq.alloc hne]
        exact hq.le
    refine ⟨hb.split hpos hlt h, split_entries, fun c hc => ?_, hkeeps, ?_⟩
    · rw [split_cells hpos] at hc
      have hcase : c ∈ b.cells ∨ c = b.splitCell h (b.findPos k) := by
        rw [cells_eq hpos]
        simp only [List.mem_append, List.mem_cons] at hc ⊢
        tauto
      rcases hcase with hc | rfl
      · exact hkeeps _ (hs c hc)
      · exact ⟨Nat.lt_succ_self h.next, hnew.symm ▸ hnext'.le⟩
    · -- both halves have room
      rcases findPos_split (h := h) hpos with hsame | hupper
      · rw [hsame, congrArg Cell.pointer (split_entrys (h := h) _ (by omega)), if_pos le_rfl, ← hp,
          hself]
        exact hrest'
      · rw [hupper, congrArg Cell.pointer (split_entrys (h := h) _ (by omega)), if_neg (by omega),
          if_pos rfl]
        exact hnew.symm ▸ hnext'

/-- The heap after the key has been appended to the bucket it goes to. -/
def appendHeap (b : PointerBEntry) (h : Heap) (k v : UInt64) : Heap :=
  h.set (b.entrys (b.findPos k)).pointer
    ((h.bunckets (b.entrys (b.findPos k)).pointer).append k v)

theorem RoomyOk.keeps_append (hok : b.RoomyOk h k hasSplit b₁ h₁) :
    h₁.Keeps (b₁.appendHeap h₁ k v) := Heap.keeps_set hok.room

theorem putTrace_of_room {n : ℕ} (hroom :
      (h.bunckets (b.entrys (b.findPos k)).pointer).entries < UnSortBuncket.maxEntries) :
    putTrace k v (n + 1) b h hasSplit done =
      .ok ((.ok, hasSplit, b.lower k, b.appendHeap h k v), done) := by
  rw [putTrace]
  simp only [UnSortBuncket.put_of_room hroom, reduceCtorEq, false_and, if_false, true_and]
  rfl

/-- **`Put` of a B entry** splits at most once, and reports `Full` only with four cells. -/
theorem WF.putTrace_spec (hb : b.WF) (hs : b.Sane h) (k v : UInt64) (done : List Rework) :
    (∃ hasSplit b₁ h₁, b.Roomy h k hasSplit b₁ h₁ ∧
      putTrace k v pbEntryCount b h false done =
        .ok ((.ok, hasSplit, b₁.lower k, b₁.appendHeap h₁ k v),
          done ++ List.replicate hasSplit.toNat .split)) ∨
    b.entries = pbEntryCount ∧
      putTrace k v pbEntryCount b h false done = .ok ((.full, false, b, h), done) := by
  rcases Nat.lt_or_ge (h.bunckets (b.entrys (b.findPos k)).pointer).entries
    UnSortBuncket.maxEntries with hroom | hge
  · refine .inl ⟨false, b, h, .found hroom, ?_⟩
    rw [pbEntryCount, putTrace_of_room hroom]
    exact congrArg (fun x => Except.ok (_, x)) (List.append_nil done).symm
  · have hput := UnSortBuncket.put_of_full (k := k) (v := v) hge
    have hfull := le_antisymm (hs.entrys (hb.findPos_lt k)).le hge
    rcases Nat.lt_or_ge b.entries pbEntryCount with hlt | hfour
    · have hroomy : b.Roomy h k true _ _ := .split hfull hlt
      refine .inl ⟨true, _, _, hroomy, ?_⟩
      rw [pbEntryCount, putTrace]
      simp only [hput, true_and, if_pos hlt]
      exact putTrace_of_room (hroomy.ok hb hs).room
    · refine .inr ⟨le_antisymm hb.le hfour, ?_⟩
      rw [pbEntryCount, putTrace]
      simp only [hput, true_and, if_neg (Nat.not_lt_of_le hfour), reduceCtorEq, false_and, if_false,
        Heap.set_eq_self]

/-- The entry key that follows a key is that of the first cell. -/
theorem WF.exists_lower (hb : b.WF) (k : UInt64) :
    ∃ c tail, b.cells = c :: tail ∧ (b.lower k).cells = c.lower k :: tail := by
  have hfirst := cells_eq hb.pos
  rw [List.take_zero, List.nil_append] at hfirst
  refine ⟨_, _, hfirst, ?_⟩
  have hkey : b.entryKey = (b.entrys 0).toCell.entryKey := rfl
  rw [PointerBEntry.lower, Cell.lower, hkey]
  split
  · rw [setEntryKey_cells hb.pos]
  · exact hfirst

end PointerBEntry

/-! ## Groups -/

namespace Group

variable {g g' : Group} {h h' : Heap} {k v : UInt64} {b : PointerBEntry} {hasSplit : Bool}
  {done : List Rework} {train : Train}

/-- `Put` with what it has done to make room. -/
def putTrace (train : Train) (key value : UInt64) : ℕ → Group → Heap → List Rework →
    Except Fault ((Status × Group × Heap) × List Rework)
  | 0, _, _, _ => .error .diverges
  | fuel + 1, g, h, done => do
    let b ← g.entryFor key
    let ((ret, split, b, h), done) ←
      b.putTrace key value PointerBEntry.pbEntryCount h false done
    let g : Group := { g with
      entrySpace := g.entrySpace.set (g.findEntry key) b
      nextEntryCount := if split then g.nextEntryCount + 1 else g.nextEntryCount }
    if ret = .full then
      if g.nextEntryCount > maxEntryCount then .ok ((ret, g, h), done)
      else do
        let g ← g.expand train h
        putTrace train key value fuel g h (done ++ [.expand])
    else .ok ((ret, g, h), done)

/-- Writing the rounds down changes nothing. -/
theorem map_putTrace : ∀ (fuel : ℕ) (g : Group) (h : Heap) (done : List Rework),
    (putTrace train k v fuel g h done).map Prod.fst = putLoop train k v fuel g h := by
  intro fuel
  induction fuel with
  | zero => exact fun _ _ _ => rfl
  | succ fuel ih =>
    intro g h done
    rw [putTrace, putLoop]
    cases g.entryFor k with
    | error e => rfl
    | ok b =>
      have herase := PointerBEntry.map_putTrace (k := k) (v := v) PointerBEntry.pbEntryCount b h
        false done
      simp only [bind, Except.bind, PointerBEntry.put]
      rw [← herase]
      cases b.putTrace k v PointerBEntry.pbEntryCount h false done with
      | error e => rfl
      | ok x =>
        obtain ⟨⟨ret, split, b', h'⟩, done'⟩ := x
        simp only [Except.map]
        rcases eq_or_ne ret .full with hfull | hfull
        · simp only [if_pos hfull]
          rcases Nat.lt_or_ge maxEntryCount
            (if split = true then g.nextEntryCount + 1 else g.nextEntryCount) with hmax | hmax
          · simp only [gt_iff_lt, if_pos hmax]
          · simp only [gt_iff_lt, if_neg (Nat.not_lt_of_le hmax)]
            cases expand train _ h' with
            | error e => rfl
            | ok g₁ => exact ih _ _ _
        · simp only [if_neg hfull]

/-- The buckets of the cells are as they should be. -/
def Sane (g : Group) (h : Heap) : Prop := ∀ c ∈ g.cells, h.Sane c.pointer

theorem Sane.entry (hs : g.Sane h) (hb : b ∈ g.entrySpace) : b.Sane h :=
  fun c hc => hs c (List.mem_flatMap.mpr ⟨b, hb, hc⟩)

theorem Sane.keeps (hs : g.Sane h) (hk : h.Keeps h') : g.Sane h' := fun c hc => hk _ (hs c hc)

theorem Raised.sane (hr : Raised h g g') (hs : g.Sane h) : g'.Sane h := by
  obtain ⟨c, tail, hcells, hcells'⟩ := hr.cells
  intro d hd
  rw [hcells'] at hd
  rcases List.mem_cons.mp hd with rfl | hd
  · exact hs c (hcells ▸ List.mem_cons_self ..)
  · exact hs d (hcells ▸ List.mem_cons_of_mem _ hd)

/-- The group with another B entry, which has been split or not. -/
def setEntry (g : Group) (i : ℕ) (b : PointerBEntry) (hasSplit : Bool) : Group :=
  { g with
    entrySpace := g.entrySpace.set i b
    nextEntryCount := if hasSplit then g.nextEntryCount + 1 else g.nextEntryCount }

/-- A `Put` that has come to a bucket with room, by a split or without one. -/
def PutAt (g : Group) (h : Heap) (k v : UInt64) (hasSplit : Bool) (g' : Group) (h' : Heap) : Prop :=
  ∃ b b₁ h₁, g.entrySpace[g.findEntry k]? = some b ∧ b.Roomy h k hasSplit b₁ h₁ ∧
    g' = g.setEntry (g.findEntry k) (b₁.lower k) hasSplit ∧ h' = b₁.appendHeap h₁ k v

/-- The bookkeeping of a group: its shape, and its buckets. -/
structure Tidy (g : Group) (h : Heap) : Prop where
  /-- B entries -/
  wf : g.WF
  /-- the buckets of the cells -/
  sane : g.Sane h

theorem PutAt.ne (hp : g.PutAt h k v hasSplit g' h') : g'.entrySpace ≠ [] := by
  obtain ⟨b, b₁, h₁, hget, -, rfl, -⟩ := hp
  obtain ⟨epre, epost, -, -, hset⟩ := exists_append_cons hget
  rw [setEntry, hset]
  exact List.append_ne_nil_of_right_ne_nil _ (List.cons_ne_nil _ _)

theorem PutAt.tidy (hp : g.PutAt h k v hasSplit g' h') (hg : g.Tidy h) :
    g'.Tidy h' ∧ h.Keeps h' := by
  obtain ⟨b, b₁, h₁, hget, hroomy, rfl, rfl⟩ := hp
  obtain ⟨epre, epost, heq, -, hset⟩ := exists_append_cons hget
  have hmem : b ∈ g.entrySpace := List.mem_of_getElem? hget
  have hok := hroomy.ok (hg.wf.entry b hmem) (hg.sane.entry hmem)
  obtain ⟨c, tail, hcells, hlower⟩ := hok.wf.exists_lower k
  have hkeeps : h.Keeps (b₁.appendHeap h₁ k v) := hok.keeps.trans hok.keeps_append
  have hcells' : (g.setEntry (g.findEntry k) (b₁.lower k) hasSplit).cells =
      epre.flatMap PointerBEntry.cells ++ (c.lower k :: tail ++ epost.flatMap PointerBEntry.cells) := by
    rw [cells, setEntry, hset, List.flatMap_append, List.flatMap_cons, hlower]
  have hcellsOld : g.cells =
      epre.flatMap PointerBEntry.cells ++ (b.cells ++ epost.flatMap PointerBEntry.cells) := by
    rw [cells, heq, List.flatMap_append, List.flatMap_cons]
  refine ⟨⟨⟨fun x hx => ?_, ?_⟩, fun d hd => ?_⟩, hkeeps⟩
  · rw [setEntry, hset] at hx
    rcases List.mem_append.mp hx with hx | hx
    · exact hg.wf.entry x (heq ▸ List.mem_append_left _ hx)
    · rcases List.mem_cons.mp hx with rfl | hx
      · exact hok.wf.lower k
      · exact hg.wf.entry x (heq ▸ List.mem_append_right _ (List.mem_cons_of_mem _ hx))
  · -- a split has added one cell
    have hcount := hg.wf.count
    have hlen : tail.length + 1 = b.cells.length + hasSplit.toNat := by
      rw [PointerBEntry.length_cells, ← hok.entries, ← PointerBEntry.length_cells, hcells,
        List.length_cons]
    rw [hcellsOld] at hcount
    rw [hcells', setEntry]
    cases hasSplit
    all_goals
      simp only [List.length_append, List.length_cons, if_true, Bool.false_eq_true, if_false,
        Bool.toNat_true, Bool.toNat_false] at hcount hlen ⊢
      omega
  · rw [hcells'] at hd
    rcases List.mem_append.mp hd with hd | hd
    · exact hkeeps _ (hg.sane d (hcellsOld ▸ List.mem_append_left _ hd))
    · rcases List.mem_append.mp hd with hd | hd
      · rcases List.mem_cons.mp hd with rfl | hd
        · rw [Cell.lower_pointer]
          exact hok.keeps_append _ (hok.sane c (hcells ▸ List.mem_cons_self ..))
        · exact hok.keeps_append _ (hok.sane d (hcells ▸ List.mem_cons_of_mem _ hd))
      · exact hkeeps _ (hg.sane d (hcellsOld ▸
          List.mem_append_right _ (List.mem_append_right _ hd)))

/-- A round of `Put`: it comes to a bucket with room, or its B entry is full. -/
theorem Tidy.round_spec (hg : g.Tidy h) (hne : g.entrySpace ≠ []) (train : Train) (k v : UInt64)
    (n : ℕ) (done : List Rework) :
    (∃ hasSplit g' h', g.PutAt h k v hasSplit g' h' ∧ putTrace train k v (n + 1) g h done =
      .ok ((.ok, g', h'), done ++ List.replicate hasSplit.toNat .split)) ∨
    (∃ b ∈ g.entrySpace, b.entries = PointerBEntry.pbEntryCount) ∧
      putTrace train k v (n + 1) g h done =
        (if g.nextEntryCount > maxEntryCount then .ok ((.full, g, h), done)
        else do
          let g ← g.expand train h
          putTrace train k v n g h (done ++ [.expand])) := by
  obtain ⟨b, hget⟩ : ∃ b, g.entrySpace[g.findEntry k]? = some b :=
    ⟨_, List.getElem?_eq_getElem (findEntry_lt hne k)⟩
  have hmem : b ∈ g.entrySpace := List.mem_of_getElem? hget
  have hentry : g.entryFor k = .ok b := by rw [entryFor, hget]
  rcases (hg.wf.entry b hmem).putTrace_spec (hg.sane.entry hmem) k v done with
    ⟨hasSplit, b₁, h₁, hroomy, hput⟩ | ⟨hfour, hput⟩
  · refine .inl ⟨hasSplit, _, _, ⟨b, b₁, h₁, hget, hroomy, rfl, rfl⟩, ?_⟩
    rw [putTrace, hentry]
    simp only [bind, Except.bind, hput, reduceCtorEq, if_false]
    rfl
  · refine .inr ⟨⟨b, hmem, hfour⟩, ?_⟩
    obtain ⟨epre, epost, heq, -, hset⟩ := exists_append_cons hget
    rw [putTrace, hentry]
    simp only [bind, Except.bind, hput, if_true, Bool.false_eq_true, if_false, hset, ← heq]

/-- **`Put` of a group** makes room at most once, and reports `Full` only with a full B entry
and without having done anything. -/
theorem Tidy.putTrace_spec (hg : g.Tidy h) (hne : g.entrySpace ≠ []) (train : Train)
    (k v : UInt64) (done : List Rework) :
    (∃ hasSplit g' h', g.PutAt h k v hasSplit g' h' ∧ putTrace train k v 2 g h done =
      .ok ((.ok, g', h'), done ++ List.replicate hasSplit.toNat .split)) ∨
    (∃ g₁ hasSplit g' h', g.expand train h = .ok g₁ ∧ g₁.PutAt h k v hasSplit g' h' ∧
      g₁.Tidy h ∧ (∃ b ∈ g.entrySpace, b.entries = PointerBEntry.pbEntryCount) ∧
      putTrace train k v 2 g h done =
        .ok ((.ok, g', h'), (done ++ [.expand]) ++ List.replicate hasSplit.toNat .split)) ∨
    (∃ b ∈ g.entrySpace, b.entries = PointerBEntry.pbEntryCount) ∧
      putTrace train k v 2 g h done = .ok ((.full, g, h), done) := by
  rcases hg.round_spec hne train k v 1 done with hok | ⟨hfull, hput⟩
  · exact .inl hok
  · right
    rcases Nat.lt_or_ge maxEntryCount g.nextEntryCount with hmax | hmax
    · rw [if_pos hmax] at hput
      exact .inr ⟨hfull, hput⟩
    · -- after the re-packing no B entry is full
      left
      rw [if_neg (Nat.not_lt_of_le hmax)] at hput
      obtain ⟨g₁, hexp, hr, hone⟩ := hg.wf.exists_expand hne h train
      have hg₁ : g₁.Tidy h := ⟨hr.wf, hr.sane hg.sane⟩
      rw [hexp] at hput
      rcases hg₁.round_spec hr.ne train k v 0 (done ++ [.expand]) with
        ⟨hasSplit, g', h', hat, hput'⟩ | ⟨⟨b, hb, hfour⟩, -⟩
      · exact ⟨g₁, hasSplit, g', h', hexp, hat, hg₁, hfull, hput.trans hput'⟩
      · rw [hone b hb] at hfour
        cases hfour

end Group

end NaliStore
