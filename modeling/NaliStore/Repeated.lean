import NaliStore.Fast

/-!
# Keys that are put several times

`Put` does not look for its key, so a key may be in several slots. A split may then leave it on
both sides of the split key, and take the wrong one of its slots out: a value is lost, and
another is there twice. No key is lost. Every bucket but the first has its entry key, so the
bucket the operations go to for a key has it when some bucket has.

`Content` says what the cells hold; the operations of the index keep it as they keep the order
of the cells (`Loose`).
-/

namespace NaliStore

open Routing Runs

/-- The cells hold the keys that were put, with values that were put. -/
structure Content (h : Heap) (l : List Cell) (P : UInt64 → UInt64 → Prop) : Prop where
  /-- every bucket but the first has its entry key -/
  anchored : ∀ c ∈ l.tail, ∃ v, (h.bunckets c.pointer).Has c.entryKey v
  /-- the keys that were put are there -/
  keys : ∀ k v, P k v → ∃ w, Stored h l k w
  /-- and nothing else is -/
  pairs : ∀ k v, Stored h l k v → P k v

/-- One more pair has been put. -/
def Also (P : UInt64 → UInt64 → Prop) (k v k' v' : UInt64) : Prop := P k' v' ∨ k' = k ∧ v' = v

theorem mem_tail_iff {pre post : List Cell} {c d : Cell} :
    d ∈ (pre ++ c :: post).tail ↔ d ∈ pre.tail ∨ pre ≠ [] ∧ d = c ∨ d ∈ post := by
  cases pre with
  | nil => simp
  | cons e pre => simp

theorem stored_append {h : Heap} {l l' : List Cell} {k v : UInt64} :
    Stored h (l ++ l') k v ↔ Stored h l k v ∨ Stored h l' k v := by
  simp only [Stored, List.mem_append, or_and_right, exists_or]

theorem stored_cons {h : Heap} {l : List Cell} {c : Cell} {k v : UInt64} :
    Stored h (c :: l) k v ↔ (h.bunckets c.pointer).Has k v ∨ Stored h l k v := by
  simp only [Stored, List.mem_cons, or_and_right, exists_or, exists_eq_left]

theorem stored_frame {h h' : Heap} {l : List Cell} {k v : UInt64}
    (hsame : ∀ c ∈ l, h'.bunckets c.pointer = h.bunckets c.pointer) :
    Stored h' l k v ↔ Stored h l k v := by
  constructor
  · rintro ⟨c, hc, hhas⟩
    exact ⟨c, hc, hsame c hc ▸ hhas⟩
  · rintro ⟨c, hc, hhas⟩
    exact ⟨c, hc, (hsame c hc).symm ▸ hhas⟩

namespace Content

variable {h h₁ : Heap} {l pre post : List Cell} {c : Cell} {k v : UInt64}
  {P Q : UInt64 → UInt64 → Prop}

/-- The same pairs in other words. -/
theorem congr (hP : Content h l P) (hiff : ∀ k v, P k v ↔ Q k v) : Content h l Q where
  anchored := hP.anchored
  keys k v hk := hP.keys k v ((hiff k v).mpr hk)
  pairs k v hk := (hiff k v).mp (hP.pairs k v hk)

/-- **A cell is replaced by others** that hold its keys; what they hold may be new. -/
theorem replace (hP : Content h (pre ++ c :: post) P) {c₁ : Cell} (more : List Cell)
    (hsame : ∀ d ∈ pre ++ post, h₁.bunckets d.pointer = h.bunckets d.pointer)
    (hfirst : pre ≠ [] → ∃ v, (h₁.bunckets c₁.pointer).Has c₁.entryKey v)
    (hmore : ∀ d ∈ more, ∃ v, (h₁.bunckets d.pointer).Has d.entryKey v)
    (hold : ∀ k v, (h.bunckets c.pointer).Has k v → ∃ w, Stored h₁ (c₁ :: more) k w)
    (hPQ : ∀ k v, P k v → Q k v)
    (hkeys : ∀ k v, Q k v → P k v ∨ ∃ w, Stored h₁ (c₁ :: more) k w)
    (hpairs : ∀ k v, Stored h₁ (c₁ :: more) k v → Q k v) :
    Content h₁ (pre ++ c₁ :: (more ++ post)) Q := by
  have hpre : ∀ d ∈ pre, h₁.bunckets d.pointer = h.bunckets d.pointer :=
    fun d hd => hsame d (List.mem_append_left _ hd)
  have hpost : ∀ d ∈ post, h₁.bunckets d.pointer = h.bunckets d.pointer :=
    fun d hd => hsame d (List.mem_append_right _ hd)
  have hsplit : ∀ k v, Stored h₁ (pre ++ c₁ :: (more ++ post)) k v ↔
      Stored h pre k v ∨ Stored h₁ (c₁ :: more) k v ∨ Stored h post k v := by
    intro k v
    rw [← List.cons_append, stored_append, stored_append, stored_frame hpre, stored_frame hpost]
  refine ⟨fun d hd => ?_, fun k v hk => ?_, fun k v hk => ?_⟩
  · rcases mem_tail_iff.mp hd with hd | ⟨hne, rfl⟩ | hd
    · rw [hpre d (List.mem_of_mem_tail hd)]
      exact hP.anchored d (mem_tail_iff.mpr (.inl hd))
    · exact hfirst hne
    · rcases List.mem_append.mp hd with hd | hd
      · exact hmore d hd
      · rw [hpost d hd]
        exact hP.anchored d (mem_tail_iff.mpr (.inr (.inr hd)))
  · rcases hkeys k v hk with hk | ⟨w, hw⟩
    · obtain ⟨w, hw⟩ := hP.keys k v hk
      rw [stored_append, stored_cons] at hw
      rcases hw with hw | hw | hw
      · exact ⟨w, (hsplit k w).mpr (.inl hw)⟩
      · obtain ⟨w', hw'⟩ := hold k w hw
        exact ⟨w', (hsplit k w').mpr (.inr (.inl hw'))⟩
      · exact ⟨w, (hsplit k w).mpr (.inr (.inr hw))⟩
    · exact ⟨w, (hsplit k w).mpr (.inr (.inl hw))⟩
  · rcases (hsplit k v).mp hk with hk | hk | hk
    · exact hPQ k v (hP.pairs k v (stored_append.mpr (.inl hk)))
    · exact hpairs k v hk
    · exact hPQ k v (hP.pairs k v (stored_append.mpr (.inr (stored_cons.mpr (.inr hk)))))

/-- The bucket of a cell that is not the first has its entry key. -/
theorem has_entryKey (hP : Content h (pre ++ c :: post) P) (hne : pre ≠ []) :
    ∃ v, (h.bunckets c.pointer).Has c.entryKey v :=
  hP.anchored c (mem_tail_iff.mpr (.inr (.inl ⟨hne, rfl⟩)))

/-- What a bucket has was put. -/
theorem of_has (hP : Content h (pre ++ c :: post) P) (hk : (h.bunckets c.pointer).Has k v) : P k v :=
  hP.pairs k v (stored_append.mpr (.inr (stored_cons.mpr (.inl hk))))

/-- An entry key is raised to the least key of its bucket. -/
theorem raise (hP : Content h (pre ++ c :: post) P) :
    Content h (pre ++ { c with entryKey := (h.bunckets c.pointer).minKey } :: post) P := by
  refine hP.replace [] (fun _ _ => rfl) (fun hne => ?_)
    (fun d hd => absurd hd List.not_mem_nil) (fun k v hk => ⟨v, stored_cons.mpr (.inl hk)⟩) (fun _ _ hk => hk) (fun _ _ hk => .inl hk)
    fun k v hk => ?_
  · obtain ⟨v, i, hi, -⟩ := hP.has_entryKey hne
    exact (UnSortBuncket.reads_minKey _).has (Nat.zero_lt_of_lt hi)
  · rcases stored_cons.mp hk with hk | ⟨d, hd, -⟩
    · exact hP.of_has hk
    · exact absurd hd List.not_mem_nil

/-- **A pair is appended to a bucket**, and its entry key follows. -/
theorem append (hP : Content h (pre ++ c :: post) P) (hl : Loose h (pre ++ c :: post)) (k v : UInt64) :
    Content (h.set c.pointer ((h.bunckets c.pointer).append k v)) (pre ++ c.lower k :: post)
      (Also P k v) := by
  have hptr : (c.lower k).pointer = c.pointer := Cell.lower_pointer c k
  have hself : ∀ k' w, Stored (h.set c.pointer ((h.bunckets c.pointer).append k v)) [c.lower k] k' w ↔
      (h.bunckets c.pointer).Has k' w ∨ k' = k ∧ w = v := by
    intro k' w
    have hnil : ¬ Stored (h.set c.pointer ((h.bunckets c.pointer).append k v)) [] k' w :=
      fun ⟨d, hd, _⟩ => absurd hd List.not_mem_nil
    rw [stored_cons, hptr, Heap.set_self, UnSortBuncket.append_has, or_iff_left hnil]
  refine hP.replace [] (fun d hd => Heap.set_of_ne (hl.ne_of_mem hd)) (fun hne => ?_)
    (fun d hd => absurd hd List.not_mem_nil) (fun k' w hk => ⟨w, (hself k' w).mpr (.inl hk)⟩)
    (fun _ _ hk => .inl hk) (fun k' w hk => hk.imp id fun hk => ?_) fun k' w hk => ?_
  · rw [hptr, Heap.set_self, Cell.lower]
    split
    · exact ⟨v, UnSortBuncket.append_has.mpr (.inr ⟨rfl, rfl⟩)⟩
    · obtain ⟨w, hw⟩ := hP.has_entryKey hne
      exact ⟨w, UnSortBuncket.append_has.mpr (.inl hw)⟩
  · obtain ⟨rfl, rfl⟩ := hk
    exact ⟨w, (hself _ _).mpr (.inr ⟨rfl, rfl⟩)⟩
  · exact ((hself k' w).mp hk).imp (fun hk => hP.of_has hk) id

/-- **A full bucket is split.** -/
theorem split (hP : Content h (pre ++ c :: post) P) (hl : Loose h (pre ++ c :: post))
    {next rest : UnSortBuncket} {splitKey : UInt64} (hnext : ∃ v, next.Has splitKey v)
    (hrest : ∃ v, rest.Has (h.bunckets c.pointer).minKey v)
    (hkeep : ∀ k v, (h.bunckets c.pointer).Has k v → (∃ w, next.Has k w) ∨ ∃ w, rest.Has k w)
    (hold : ∀ k v, next.Has k v ∨ rest.Has k v → (h.bunckets c.pointer).Has k v) :
    Content (Cells.splitHeap h c.pointer next rest) (pre ++ c :: ⟨splitKey, h.next⟩ :: post) P := by
  obtain ⟨hothers, halloc, hlower, -, -⟩ := Loose.insert_iff.mp hl
  set h₁ := Cells.splitHeap h c.pointer next rest with hh₁
  have hself : h₁.bunckets c.pointer = rest := Cells.splitHeap_self halloc
  have hnew : h₁.bunckets h.next = next := Cells.splitHeap_next
  have hboth : ∀ k v, Stored h₁ [c, ⟨splitKey, h.next⟩] k v ↔ rest.Has k v ∨ next.Has k v := by
    intro k v
    have hnil : ¬ Stored h₁ [] k v := fun ⟨d, hd, _⟩ => absurd hd List.not_mem_nil
    rw [stored_cons, stored_cons, hself, hnew, or_iff_left hnil]
  refine hP.replace [⟨splitKey, h.next⟩]
    (fun d hd => Cells.splitHeap_other (hothers.alloc d hd) (hl.ne_of_mem hd)) (fun hne => ?_)
    (fun d hd => ?_) (fun k v hk => ?_) (fun _ _ hk => hk) (fun _ _ hk => .inl hk) fun k v hk => ?_
  · -- the entry key is the least key
    obtain ⟨v, hv⟩ := hP.has_entryKey hne
    have hkey : (h.bunckets c.pointer).minKey = c.entryKey :=
      le_antisymm (UnSortBuncket.minKey_le hv.reads) (hlower _ (UnSortBuncket.reads_minKey _))
    rw [hself, ← hkey]
    exact hrest
  · obtain rfl := List.mem_singleton.mp hd
    rw [hnew]
    exact hnext
  · rcases hkeep k v hk with ⟨w, hw⟩ | ⟨w, hw⟩
    · exact ⟨w, (hboth k w).mpr (.inr hw)⟩
    · exact ⟨w, (hboth k w).mpr (.inl hw)⟩
  · exact hP.of_has (hold k v ((hboth k v).mp hk).symm)

end Content

/-! ## B entries -/

namespace PointerBEntry

variable {b b₁ : PointerBEntry} {h h₁ : Heap} {k v : UInt64} {hasSplit : Bool} {pre post : List Cell}
  {P : UInt64 → UInt64 → Prop}

/-- The cells around that of a key. -/
theorem cells_around (hpos : b.findPos k < b.entries) : pre ++ (b.cells ++ post) =
    (pre ++ b.cells.take (b.findPos k)) ++
      (b.entrys (b.findPos k)).toCell :: (b.cells.drop (b.findPos k + 1) ++ post) := by
  conv_lhs => rw [cells_eq hpos]
  simp

theorem Roomy.content (hr : b.Roomy h k hasSplit b₁ h₁) (hb : b.WF) (hs : b.Sane h)
    (hl : Loose h (pre ++ (b.cells ++ post))) (hP : Content h (pre ++ (b.cells ++ post)) P) :
    Content h₁ (pre ++ (b₁.cells ++ post)) P := by
  have hpos := hb.findPos_lt k
  cases hr with
  | found hroom => exact hP
  | split hfull hlt =>
    have hsane := hs.entrys hpos
    rw [cells_around hpos] at hl hP
    obtain ⟨hnext, hrest, hkeep, hold⟩ := UnSortBuncket.expand_has hsane.le
      (by rw [hfull]; decide) (h.alloc.2.bunckets h.next)
    obtain ⟨hheap, hkey⟩ := split_eq hsane.alloc
    have hcells : pre ++ ((b.split h (b.findPos k)).1.cells ++ post) =
        (pre ++ b.cells.take (b.findPos k)) ++ (b.entrys (b.findPos k)).toCell ::
          b.splitCell h (b.findPos k) :: (b.cells.drop (b.findPos k + 1) ++ post) := by
      rw [split_cells hpos]
      simp
    rw [hcells, hheap, hkey]
    exact hP.split hl hnext hrest hkeep hold

theorem WF.content_append (hb : b.WF) (hl : Loose h (pre ++ (b.cells ++ post)))
    (hP : Content h (pre ++ (b.cells ++ post)) P) :
    Content (b.appendHeap h k v) (pre ++ ((b.lower k).cells ++ post)) (Also P k v) := by
  have hpos := hb.findPos_lt k
  have hrise : b.cells.Pairwise fun c d => c.entryKey ≤ d.entryKey :=
    (List.pairwise_append.mp (List.pairwise_append.mp hl.rise).2.1).1
  have hlower : pre ++ ((b.lower k).cells ++ post) = (pre ++ b.cells.take (b.findPos k)) ++
      (b.entrys (b.findPos k)).toCell.lower k :: (b.cells.drop (b.findPos k + 1) ++ post) := by
    rw [hb.lower_findPos hrise k]
    simp
  rw [cells_around hpos] at hl hP
  rw [hlower]
  exact hP.append hl k v

end PointerBEntry

/-! ## Groups -/

namespace Group

variable {g g' : Group} {h h' : Heap} {k v : UInt64} {hasSplit : Bool} {pre post : List Cell}
  {P : UInt64 → UInt64 → Prop}

theorem Raised.content (hr : Raised h g g') (hP : Content h (pre ++ (g.cells ++ post)) P) :
    Content h (pre ++ (g'.cells ++ post)) P := by
  obtain ⟨c, tail, hcells, hcells'⟩ := hr.cells
  rw [hcells, List.cons_append] at hP
  rw [hcells', List.cons_append]
  exact hP.raise

theorem PutAt.content (hp : g.PutAt h k v hasSplit g' h') (hg : g.Tidy h)
    (hl : Loose h (pre ++ (g.cells ++ post))) (hP : Content h (pre ++ (g.cells ++ post)) P) :
    Content h' (pre ++ (g'.cells ++ post)) (Also P k v) := by
  obtain ⟨b, b₁, h₁, hget, hroomy, rfl, rfl⟩ := hp
  obtain ⟨epre, epost, heq, -, hset⟩ := exists_append_cons hget
  have hmem : b ∈ g.entrySpace := List.mem_of_getElem? hget
  have hb := hg.wf.entry b hmem
  have hsane := hg.sane.entry hmem
  have hassoc : ∀ x : List Cell, (pre ++ epre.flatMap PointerBEntry.cells) ++
      (x ++ (epost.flatMap PointerBEntry.cells ++ post)) = pre ++ ((epre.flatMap PointerBEntry.cells ++
        (x ++ epost.flatMap PointerBEntry.cells)) ++ post) := by
    intro x
    simp only [List.append_assoc]
  have hcells : g.cells =
      epre.flatMap PointerBEntry.cells ++ (b.cells ++ epost.flatMap PointerBEntry.cells) := by
    rw [cells, heq, List.flatMap_append, List.flatMap_cons]
  have hcells' : (g.setEntry (g.findEntry k) (b₁.lower k) hasSplit).cells =
      epre.flatMap PointerBEntry.cells ++
        ((b₁.lower k).cells ++ epost.flatMap PointerBEntry.cells) := by
    rw [cells, setEntry, hset, List.flatMap_append, List.flatMap_cons]
  rw [hcells, ← hassoc] at hl hP
  rw [hcells', ← hassoc]
  exact (hroomy.ok hb hsane).wf.content_append (hroomy.loose hb hsane hl).1
    (hroomy.content hb hsane hl hP)

end Group

/-! ## The index -/

namespace Nali

variable {s s' : Nali} {models : Models} {k v : UInt64} {P Q : UInt64 → UInt64 → Prop}

/-- The index is in order, and holds the keys that were put. -/
structure Recorded (s : Nali) (P : UInt64 → UInt64 → Prop) : Prop where
  /-- the order -/
  settled : s.Settled
  /-- what the cells hold -/
  content : Content s.heap s.cells P

theorem Recorded.congr (hs : s.Recorded P) (hiff : ∀ k v, P k v ↔ Q k v) : s.Recorded Q :=
  ⟨hs.settled, hs.content.congr hiff⟩

theorem recorded_init (models : Models) (model : RootModel) (heap : Heap) (minKey : UInt64) :
    (init models model heap minKey).Recorded fun _ _ => False := by
  refine ⟨settled_init models model heap minKey, fun c hc => absurd hc List.not_mem_nil,
    fun _ _ hk => hk.elim, fun k v hk => ?_⟩
  obtain ⟨c, hc, i, hi, -⟩ := hk
  obtain rfl : c = ⟨0, heap.next⟩ := List.mem_singleton.mp hc
  have hbunk : (init models model heap minKey).heap.bunckets heap.next =
    { heap.bunckets heap.next with entries := 0 } := Function.update_self ..
  rw [hbunk] at hi
  exact absurd hi (Nat.not_lt_zero _)

/-- A `Put` that has come to a bucket with room. -/
theorem Recorded.putAt (hs : s.Recorded P) {t' : NaliTree} (hp : s.toTree.PutAt k v t') :
    ∃ s' : Nali, s'.toTree = t' ∧ s'.Recorded (Also P k v) := by
  obtain ⟨s', heq, hs'⟩ := hs.settled.putAt hp
  obtain ⟨gpre, g, gpost, g₁, hasSplit, g', h', hloc, hg₁, htidy, hat, rfl⟩ := hs.settled.putAt_cases hp
  obtain rfl := toTree_injective heq
  refine ⟨_, rfl, hs', ?_⟩
  obtain ⟨hl, -⟩ := hs.settled.loose_around hloc hg₁
  have hP := hs.content
  rw [hloc.cells_eq] at hP
  have hP₁ : Content s.heap
      (gpre.flatMap Group.cells ++ (g₁.cells ++ gpost.flatMap Group.cells)) P := by
    rcases hg₁ with rfl | hr
    · exact hP
    · exact hr.content hP
  rw [cells, List.flatMap_append, List.flatMap_cons]
  exact hat.content htidy hl hP₁

theorem content_adjusted {h : Heap} {groups groups' : List Group}
    (hall : List.Forall₂ (Adjusted h) groups groups') : ∀ pre : List Cell,
    Content h (pre ++ groups.flatMap Group.cells) P → Content h (pre ++ groups'.flatMap Group.cells) P := by
  induction hall with
  | nil => exact fun _ hP => hP
  | @cons g g' groups groups' ha _ ih =>
    intro pre hP
    rw [List.flatMap_cons] at hP ⊢
    have hP' : Content h (pre ++ (g'.cells ++ groups.flatMap Group.cells)) P := by
      rcases ha with ⟨rfl, -⟩ | hr
      · exact hP
      · exact hr.content hP
    rw [← List.append_assoc] at hP' ⊢
    exact ih _ hP'

/-- **`ExpandTree`** leaves the cells in their order. -/
theorem Recorded.expandTree (hs : s.Recorded P) (hexp : s.expandTree models = .ok s') :
    s'.Recorded P := by
  obtain ⟨old, t', hexp', hdealt⟩ := hs.settled.tidy.exists_dealt models.group models.rootTrain
  rw [toTree_expandTree, hexp] at hexp'
  obtain rfl := Except.ok.inj hexp'
  refine ⟨hs.settled.dealt hdealt, ?_⟩
  have hold : Loose s.heap (old.flatMap Group.cells) :=
    loose_adjusted hdealt.adjusted [] hs.settled.loose
  have hcells : s'.cells = old.flatMap Group.cells := by
    rw [cells_dealt hdealt]
    exact deal_eq (hold.rise.imp fun hle => RootModel.groupId_mono hle)
      fun c _ => RootModel.groupId_lt hdealt.pos c.entryKey
  rw [hcells, show s'.heap = s.heap from hdealt.heap]
  exact content_adjusted hdealt.adjusted [] hs.content

/-! ## Every key is found -/

/-- The cell a key goes to: what is after it is above the key, and it is the first or not. -/
theorem Settled.exists_route (hs : s.Settled) (k : UInt64) : ∃ p c q, s.cells = p ++ c :: q ∧
    (∀ d ∈ q, k < d.entryKey) ∧ (p = [] ∨ c.entryKey ≤ k) ∧
    s.findSlow k = .ok ((s.heap.bunckets c.pointer).get k) := by
  obtain ⟨gpre, g, gpost, hloc⟩ := hs.exists_located k
  have hg := hs.wf g hloc.mem
  have hrise : g.cells.Pairwise fun c d => c.entryKey ≤ d.entryKey := by
    have hrise := hs.loose.rise
    rw [hloc.cells_eq] at hrise
    exact (List.pairwise_append.mp (List.pairwise_append.mp hrise).2.1).1
  obtain ⟨epre, b, epost, heloc⟩ := Group.exists_located hloc.ne hg.entry hrise k
  have hb := hg.entry b heloc.mem
  have hpos := hb.findPos_lt k
  obtain ⟨habove, hfound⟩ :=
    PointerBEntry.findPos_spec ((List.pairwise_flatMap.mp hrise).1 b heloc.mem) k
  refine ⟨(gpre.flatMap Group.cells ++ epre.flatMap PointerBEntry.cells) ++ b.cells.take (b.findPos k),
    (b.entrys (b.findPos k)).toCell, b.cells.drop (b.findPos k + 1) ++
      (epost.flatMap PointerBEntry.cells ++ gpost.flatMap Group.cells), ?_, fun d hd => ?_, ?_, ?_⟩
  · rw [hloc.cells_eq, heloc.cells_eq, ← PointerBEntry.cells_around hpos]
    simp only [List.append_assoc]
  · rcases List.mem_append.mp hd with hd | hd
    · exact habove d hd
    · rcases List.mem_append.mp hd with hd | hd
      · exact heloc.above d hd
      · exact hloc.above d hd
  · rcases hfound with h0 | hle
    · -- the first of its B entry
      rw [h0, List.take_zero, List.append_nil]
      rcases heloc.below with rfl | hle
      · have hkey : g.entryKey 0 = b.entryKey := by
          rw [Group.entryKey, heloc.eq]
          rfl
        rw [List.flatMap_nil, List.append_nil]
        exact hloc.below.imp id fun hle => hkey.symm.trans_le hle
      · exact .inr hle
    · exact .inr hle
  · rw [findSlow, onGroup_eq hloc.find hloc.groupAt_eq]
    exact (hg.exec_at heloc.getElem?_eq s.heap 0).1

/-- **Every key that was put is found**, with a value that was put for it. -/
theorem Recorded.get_of_put (hs : s.Recorded P) (hk : P k v) : ∃ w, P k w ∧ s.get k = .ok (some w) := by
  obtain ⟨w, d, hd, hw⟩ := hs.content.keys k v hk
  obtain ⟨p, c, q, hcells, habove, hbelow, hslow⟩ := hs.settled.exists_route k
  have hl := hs.settled.loose
  have hP := hs.content
  have hle := hl.lower d hd k hw.reads
  rw [hcells] at hl hP hd
  have hhas : ∃ w, (s.heap.bunckets c.pointer).Has k w := by
    rcases List.mem_append.mp hd with hbefore | hd
    · -- the key is also the entry key of the cell it goes to
      have hne : p ≠ [] := List.ne_nil_of_mem hbefore
      have hkey : c.entryKey = k := le_antisymm (hbelow.resolve_left hne)
        (((Loose.insert_iff.mp hl).2.2.2.1 d hbefore).2 k hw.reads)
      rw [← hkey]
      exact hP.has_entryKey hne
    · rcases List.mem_cons.mp hd with rfl | hafter
      · exact ⟨w, hw⟩
      · exact absurd hle (not_le_of_gt (habove d hafter))
  rw [hs.settled.get_eq, hslow]
  cases hget : (s.heap.bunckets c.pointer).get k with
  | none =>
    obtain ⟨w, hw⟩ := hhas
    exact absurd hw (UnSortBuncket.get_eq_none.mp hget w)
  | some w =>
    rw [UnSortBuncket.get, Option.map_eq_some_iff] at hget
    obtain ⟨i, hi, rfl⟩ := hget
    obtain ⟨hlt, rfl, -⟩ := UnSortBuncket.find_eq_some.mp hi
    exact ⟨_, hP.of_has (UnSortBuncket.has_of_lt hlt), rfl⟩

end Nali

end NaliStore
