import Mathlib.Data.List.Flatten
import NaliStore.Iter

/-!
# Which iterations are exact

An iteration is exact when it visits the pairs of the map from the start key on, each once and
in ascending order. An empty bucket at the wrong place is visited as a pair of zeros or ends the
B entry too early, and a start key that is not above the number of prefix bytes of its cell is
not looked at. `IterOk` is the condition on the state, and an iteration is exact if and only if
it is met.
-/

namespace NaliStore

open Routing Runs

/-! ## Buckets that are shown as they are -/

/-- An empty bucket is followed by empty ones only. -/
def NoGap (bunckets : List UnSortBuncket) : Prop :=
  bunckets.Pairwise fun b c => b.entries = 0 → c.entries = 0

/-- The first bucket is not empty, and an empty one is followed by empty ones only. -/
def Gapless : List UnSortBuncket → Prop
  | [] => True
  | b :: bunckets => b.entries ≠ 0 ∧ NoGap bunckets

/-- The pairs of the buckets, in order. -/
def sortedAll (bunckets : List UnSortBuncket) : Pairs := bunckets.flatMap UnSortBuncket.sorted

section Shown

variable {b : UnSortBuncket} {l : List UnSortBuncket} {L : List (List UnSortBuncket)}

theorem UnSortBuncket.sorted_eq_nil : b.sorted = [] ↔ b.entries = 0 := by
  rw [← List.length_eq_zero_iff, length_sorted]

theorem sortedAll_cons (b : UnSortBuncket) (l : List UnSortBuncket) :
    sortedAll (b :: l) = b.sorted ++ sortedAll l := List.flatMap_cons

theorem sortedAll_eq_nil : sortedAll l = [] ↔ ∀ b ∈ l, b.entries = 0 := by
  rw [sortedAll, List.flatMap_eq_nil_iff]
  simp only [UnSortBuncket.sorted_eq_nil]

theorem chained_eq_iff : chained l = sortedAll l ↔ NoGap l := by
  induction l with
  | nil => exact ⟨fun _ => List.Pairwise.nil, fun _ => rfl⟩
  | cons b l ih =>
    rw [chained, sortedAll_cons, NoGap, List.pairwise_cons]
    split
    · rename_i hempty
      rw [UnSortBuncket.sorted_eq_nil.mpr hempty, List.nil_append, eq_comm, sortedAll_eq_nil]
      refine ⟨fun hall => ⟨fun c hc _ => hall c hc, ?_⟩, fun hgap c hc => hgap.1 c hc hempty⟩
      exact List.pairwise_of_forall_mem_list fun c _ d hd _ => hall d hd
    · rename_i hne
      rw [List.append_cancel_left_eq, ih]
      exact ⟨fun hgap => ⟨fun c _ hempty => absurd hempty hne, hgap⟩, fun hgap => hgap.2⟩

theorem chained_sublist : ∀ l : List UnSortBuncket, (chained l).Sublist (sortedAll l)
  | [] => List.Sublist.slnil
  | b :: l => by
    rw [chained, sortedAll_cons]
    split
    · exact List.nil_sublist _
    · exact (chained_sublist l).append_left _

/-- A B entry whose first bucket is not empty. -/
theorem shownAll_of_ne (hne : b.entries ≠ 0) : shownAll (b :: l) = b.sorted ++ chained l := by
  rw [shownAll, UnSortBuncket.shown, if_neg hne]

/-- A pair of zeros is shown for an empty first bucket. -/
theorem zero_mem_shownAll (hempty : b.entries = 0) : (0, 0) ∈ shownAll (b :: l) := by
  rw [shownAll, UnSortBuncket.shown, if_pos hempty]
  exact List.mem_cons_self ..

theorem shownAll_eq_of_gapless (hl : Gapless l) : shownAll l = sortedAll l := by
  cases l with
  | nil => rfl
  | cons b l => rw [shownAll_of_ne hl.1, chained_eq_iff.mpr hl.2, sortedAll_cons]

theorem shownAll_sublist (hzero : (0, 0) ∉ shownAll l) : (shownAll l).Sublist (sortedAll l) := by
  cases l with
  | nil => exact List.Sublist.slnil
  | cons b l =>
    rw [shownAll_of_ne fun hempty => hzero (zero_mem_shownAll hempty), sortedAll_cons]
    exact (chained_sublist l).append_left _

theorem gapless_of_eq (hzero : (0, 0) ∉ shownAll l) (heq : shownAll l = sortedAll l) :
    Gapless l := by
  cases l with
  | nil => trivial
  | cons b l =>
    have hne : b.entries ≠ 0 := fun hempty => hzero (zero_mem_shownAll hempty)
    rw [shownAll_of_ne hne, sortedAll_cons] at heq
    exact ⟨hne, chained_eq_iff.mp (List.append_cancel_left heq)⟩

/-- Two parts that are left out of one list each are whole when the list is. -/
theorem eq_of_append_eq {α : Type*} {a a' c c' : List α} (ha : a.Sublist a') (hc : c.Sublist c')
    (heq : a ++ c = a' ++ c') : a = a' ∧ c = c' := by
  have hlen := congrArg List.length heq
  rw [List.length_append, List.length_append] at hlen
  have hale := ha.length_le
  have hcle := hc.length_le
  exact ⟨ha.eq_of_length_le (by omega), hc.eq_of_length_le (by omega)⟩

theorem flatMap_shownAll_sublist (hzero : (0, 0) ∉ L.flatMap shownAll) :
    (L.flatMap shownAll).Sublist (L.flatMap sortedAll) :=
  List.Sublist.flatMap_right L fun l hl =>
    shownAll_sublist fun hmem => hzero (List.mem_flatMap.mpr ⟨l, hl, hmem⟩)

/-- B entries that are shown as they are have no gaps. -/
theorem gapless_of_flatMap_eq (hzero : (0, 0) ∉ L.flatMap shownAll)
    (heq : L.flatMap shownAll = L.flatMap sortedAll) : ∀ e ∈ L, Gapless e := by
  induction L with
  | nil => exact fun e he => absurd he List.not_mem_nil
  | cons l L ih =>
    rw [List.flatMap_cons, List.mem_append, not_or] at hzero
    rw [List.flatMap_cons, List.flatMap_cons] at heq
    obtain ⟨hl, hL⟩ :=
      eq_of_append_eq (shownAll_sublist hzero.1) (flatMap_shownAll_sublist hzero.2) heq
    intro e he
    rcases List.mem_cons.mp he with rfl | he
    · exact gapless_of_eq hzero.1 hl
    · exact ih hzero.2 hL e he

/-- **The buckets that are left are shown as they are** if and only if they have no gaps. -/
theorem shown_eq_iff (hzero : ∀ p ∈ sortedAll l ++ L.flatMap sortedAll, p.1 ≠ 0) :
    chained l ++ L.flatMap shownAll = sortedAll l ++ L.flatMap sortedAll ↔
      NoGap l ∧ ∀ e ∈ L, Gapless e := by
  constructor
  · intro heq
    have hnot : (0, 0) ∉ L.flatMap shownAll := fun hmem =>
      hzero (0, 0) (heq ▸ List.mem_append_right _ hmem) rfl
    obtain ⟨hl, hL⟩ := eq_of_append_eq (chained_sublist l) (flatMap_shownAll_sublist hnot) heq
    exact ⟨chained_eq_iff.mp hl, gapless_of_flatMap_eq hnot hL⟩
  · rintro ⟨hl, hL⟩
    rw [chained_eq_iff.mpr hl]
    exact congrArg (sortedAll l ++ ·)
      (List.flatMap_congr fun e he => shownAll_eq_of_gapless (hL e he))

/-- The same for the buckets that are left of a B entry and are shown as a new iterator shows
them. -/
theorem shownAll_append_eq_iff (hzero : ∀ p ∈ sortedAll l.tail ++ L.flatMap sortedAll, p.1 ≠ 0) :
    shownAll l ++ L.flatMap shownAll = sortedAll l ++ L.flatMap sortedAll ↔
      Gapless l ∧ ∀ e ∈ L, Gapless e := by
  cases l with
  | nil =>
    refine (shown_eq_iff (l := []) hzero).trans ?_
    exact ⟨fun hL => ⟨trivial, hL.2⟩, fun hL => ⟨List.Pairwise.nil, hL.2⟩⟩
  | cons b l =>
    rw [List.tail_cons] at hzero
    rw [sortedAll_cons]
    by_cases hempty : b.entries = 0
    · refine ⟨fun heq => ?_, fun hL => absurd hempty hL.1.1⟩
      have hmem : (0, 0) ∈ shownAll (b :: l) ++ L.flatMap shownAll :=
        List.mem_append_left _ (zero_mem_shownAll hempty)
      rw [heq, UnSortBuncket.sorted_eq_nil.mpr hempty, List.nil_append] at hmem
      exact absurd rfl (hzero _ hmem)
    · rw [shownAll_of_ne hempty, List.append_assoc, List.append_assoc, List.append_cancel_left_eq,
        shown_eq_iff hzero, Gapless, and_assoc]
      exact ⟨fun hL => ⟨hempty, hL⟩, fun hL => hL.2⟩

end Shown

/-! ## The pairs from the start key on -/

namespace Nali

variable {s : Nali} {M : UInt64 → Option UInt64} {startKey : UInt64} {pre post : List Cell}
  {c : Cell}

theorem pairs_flatMap_cells (h : Heap) (entries : List PointerBEntry) :
    pairs h (entries.flatMap PointerBEntry.cells) =
      (entries.map fun b => b.bunckets h).flatMap sortedAll := by
  rw [pairs, List.flatMap_assoc, List.flatMap_map]
  refine List.flatMap_congr fun b _ => ?_
  rw [sortedAll, b.flatMap_sorted]
  rfl

theorem pairs_drop_cells (h : Heap) (b : PointerBEntry) (n : ℕ) :
    pairs h (b.cells.drop n) = sortedAll ((b.bunckets h).drop n) := by
  rw [PointerBEntry.bunckets, ← List.map_drop, sortedAll, List.flatMap_map]
  rfl

/-- No key after the first cell is 0. -/
theorem ne_zero_of_after (hs : s.Inv) (hcells : s.cells = pre ++ c :: post) :
    ∀ p ∈ pairs s.heap post, p.1 ≠ 0 := by
  intro p hp
  obtain ⟨d, hd, hpd⟩ := List.mem_flatMap.mp hp
  have hl := hs.cells
  rw [hcells] at hl
  have hlt := (List.pairwise_cons.mp (List.pairwise_append.mp hl.sorted).2.1).1 d hd
  have hle := hl.lower d (List.mem_append_right _ (List.mem_cons_of_mem _ hd)) p.1
    (UnSortBuncket.mem_sorted.mp hpd).reads
  exact (UInt64.zero_le.trans_lt (hlt.trans_le hle)).ne'

/-- **The pairs from the start key on** are in the cell of the start key and after it. -/
theorem pairsFrom_of_routes (hs : s.Inv) (hcells : s.cells = pre ++ c :: post)
    (hroute : Routes Cell.entryKey s.cells startKey c) :
    s.pairsFrom startKey = ((s.heap.bunckets c.pointer).sorted.filter fun p => startKey ≤ p.1) ++
      pairs s.heap post := by
  have hl := hs.cells
  rw [hcells] at hl hroute
  obtain ⟨-, hcons, hcross⟩ := List.pairwise_append.mp hl.sorted
  have hc : c ∈ pre ++ c :: post := hroute.mem
  have hbefore : (pairs s.heap pre).filter (fun p => startKey ≤ p.1) = [] := by
    refine List.filter_eq_nil_iff.mpr fun p hp hle => ?_
    obtain ⟨d, hd, hpd⟩ := List.mem_flatMap.mp hp
    have hd' : d ∈ pre ++ c :: post := List.mem_append_left _ hd
    have hdc := hcross d hd c (List.mem_cons_self ..)
    have hlt := hl.upper d hd' c hc hdc p.1 (UnSortBuncket.mem_sorted.mp hpd).reads
    rcases hroute.le_or_first with hck | hfirst
    · exact absurd (of_decide_eq_true hle) (not_le_of_gt (hlt.trans_le hck))
    · exact absurd (hfirst d hd') (not_le_of_gt hdc)
  have hafter : (pairs s.heap post).filter (fun p => startKey ≤ p.1) = pairs s.heap post := by
    refine List.filter_eq_self.mpr fun p hp => decide_eq_true ?_
    obtain ⟨d, hd, hpd⟩ := List.mem_flatMap.mp hp
    have hd' : d ∈ pre ++ c :: post := List.mem_append_right _ (List.mem_cons_of_mem _ hd)
    have hlt := hroute.lt_of_lt hd' ((List.pairwise_cons.mp hcons).1 d hd)
    exact hlt.le.trans (hl.lower d hd' p.1 (UnSortBuncket.mem_sorted.mp hpd).reads)
  have hpairs : pairs s.heap (c :: post) =
      (s.heap.bunckets c.pointer).sorted ++ pairs s.heap post := List.flatMap_cons
  rw [pairsFrom, hcells, pairs_append, hpairs, List.filter_append, List.filter_append, hbefore,
    hafter, List.nil_append]

/-! ## Exact iterations -/

/-- What an exact iteration visits: the pairs of the map from the start key on, if there is
one, each once and in ascending order. -/
structure Iterated (M : UInt64 → Option UInt64) (startKey : Option UInt64) (l : Pairs) : Prop where
  /-- in ascending order -/
  ascends : Ascends l
  /-- the pairs of the map from the start key on, and no others -/
  mem_iff : ∀ p, p ∈ l ↔ M p.1 = some p.2 ∧ ∀ k ∈ startKey, k ≤ p.1

/-- **An exact iteration**: the loop ends, and has visited the right pairs. -/
def IterExact (s : Nali) (M : UInt64 → Option UInt64) (startKey : Option UInt64) : Prop :=
  ∃ fuel l, s.iterate startKey fuel = .ok l ∧ Iterated M startKey l

/-- The pairs to visit. -/
def pairsOf (s : Nali) : Option UInt64 → Pairs
  | none => pairs s.heap s.cells
  | some startKey => s.pairsFrom startKey

theorem iterated_pairsOf (hs : s.Holds M) (startKey : Option UInt64) :
    Iterated M startKey (s.pairsOf startKey) := by
  cases startKey with
  | none =>
    refine ⟨hs.inv.cells.ascends_pairs, fun p => ?_⟩
    rw [pairsOf, Cells.mem_pairs, hs.stored]
    exact ⟨fun hp => ⟨hp, fun k hk => by cases hk⟩, fun hp => hp.1⟩
  | some startKey =>
    refine ⟨ascends_pairsFrom hs startKey, fun p => ?_⟩
    rw [pairsOf, mem_pairsFrom hs]
    simp only [Option.mem_some_iff, forall_eq']

/-- **The pairs to visit are determined.** -/
theorem Iterated.eq {startKey : Option UInt64} {l l' : Pairs} (h : Iterated M startKey l)
    (h' : Iterated M startKey l') : l = l' := by
  refine h.ascends.eq_of_perm h'.ascends
    ((List.perm_ext_iff_of_nodup h.ascends.nodup h'.ascends.nodup).mpr fun p => ?_)
  rw [h.mem_iff, h'.mem_iff]

theorem iterExact_iff_eq (hs : s.Holds M) {start : Option UInt64} {l : Pairs}
    (hv : s.Visits start l) : s.IterExact M start ↔ l = s.pairsOf start := by
  constructor
  · rintro ⟨fuel, l', hok, hl'⟩
    rw [← hv.eq_of_ok hok]
    exact hl'.eq (iterated_pairsOf hs start)
  · rintro rfl
    refine ⟨(s.pairsOf start).length + 1, s.pairsOf start, ?_, iterated_pairsOf hs start⟩
    rw [hv, if_pos (Nat.lt_succ_self _)]

/-! ## Which iterations are exact -/

/-- The condition on what an iterator finds that starts at a key. A bucket that is not searched
has no keys below the start key. After a bucket with a key from the start key on, an empty
bucket is followed by empty ones only; after one without, there is another bucket in the group,
and the next one in the B entry is not empty. -/
structure StartOk (startKey : UInt64) (prefixBytes : ℕ) (b : UnSortBuncket)
    (rest : List UnSortBuncket) (later : List PointerBEntry) : Prop where
  /-- the start key is above the number of prefix bytes, or at most the keys of the bucket -/
  searched : startKey.toNat ≤ prefixBytes → ∀ p ∈ b.sorted, startKey ≤ p.1
  /-- the bucket has a key from the start key on -/
  found : (∃ p ∈ b.sorted, startKey ≤ p.1) → NoGap rest
  /-- it has none -/
  passed : (∀ p ∈ b.sorted, p.1 < startKey) → Gapless rest ∧ (rest ≠ [] ∨ later ≠ [])

/-- The condition for an iteration: `StartOk` where it starts, and the B entries that it comes
to have no gaps. -/
def IterOk (s : Nali) : Option UInt64 → Prop
  | none => ∀ b ∈ entriesOf s.groupSpace, Gapless (b.bunckets s.heap)
  | some startKey => ∃ groupId g b,
    s.findGroup startKey = .ok groupId ∧ s.groupAt groupId = .ok g ∧
    g.entryFor startKey = .ok b ∧
    StartOk startKey (b.entrys (b.findPos startKey)).prefixBytes
      (s.heap.bunckets (b.entrys (b.findPos startKey)).pointer)
      ((b.bunckets s.heap).drop (b.findPos startKey + 1))
      (g.entrySpace.drop (g.findEntry startKey + 1)) ∧
    ∀ x ∈ g.entrySpace.drop (g.findEntry startKey + 1) ++
      entriesOf (s.groupSpace.drop (groupId + 1)), Gapless (x.bunckets s.heap)

theorem shown_eq_flatMap (h : Heap) (entries : List PointerBEntry) :
    Group.shown h entries = (entries.map fun b => b.bunckets h).flatMap shownAll := by
  rw [Group.shown, List.flatMap_map]

/-- **Iterations without a start key.** -/
theorem iterExact_none_iff (hs : s.Holds M) : s.IterExact M none ↔ s.IterOk none := by
  obtain ⟨b, later, hentries⟩ : ∃ b later, entriesOf s.groupSpace = b :: later := by
    obtain ⟨g, hg, hne⟩ := hs.inv.exists_nonempty
    obtain ⟨x, hx⟩ := List.exists_mem_of_ne_nil _ hne
    exact List.exists_cons_of_ne_nil (List.ne_nil_of_mem (List.mem_flatMap.mpr ⟨g, hg, hx⟩))
  obtain ⟨g, hg, hbg⟩ : ∃ g ∈ s.groupSpace, b ∈ g.entrySpace := by
    have hb : b ∈ entriesOf s.groupSpace := hentries ▸ List.mem_cons_self ..
    exact List.mem_flatMap.mp hb
  have hb : b.WF := (hs.inv.wf g hg).entry b hbg
  have hfirst := PointerBEntry.cells_eq hb.pos
  rw [List.take_zero, List.nil_append] at hfirst
  have hcells : s.cells = [] ++ (b.entrys 0).toCell ::
      (b.cells.drop (0 + 1) ++ later.flatMap PointerBEntry.cells) := by
    rw [cells, ← cells_entriesOf, hentries, List.flatMap_cons, List.nil_append, ← List.cons_append,
      ← hfirst]
  have hzero := ne_zero_of_after hs.inv hcells
  rw [pairs_append, pairs_flatMap_cells] at hzero
  rw [pairs_drop_cells, List.drop_one] at hzero
  have hpairs : s.pairsOf none = sortedAll (b.bunckets s.heap) ++
      (later.map fun b => b.bunckets s.heap).flatMap sortedAll := by
    rw [pairsOf, cells, ← cells_entriesOf, hentries, pairs_flatMap_cells, List.map_cons,
      List.flatMap_cons]
  rw [iterExact_iff_eq hs (visits_none hs.inv), hpairs, shown, hentries, shown_eq_flatMap,
    List.map_cons, List.flatMap_cons, shownAll_append_eq_iff hzero, IterOk, hentries,
    List.forall_mem_cons, List.forall_mem_map]

/-- What is found in the bucket of the start key, when it is searched as it should be. -/
theorem sortedFrom_eq_iff {b : UnSortBuncket} {prefixBytes : ℕ} :
    b.sortedFrom prefixBytes startKey = b.sorted.filter (fun p => startKey ≤ p.1) ↔
      (startKey.toNat ≤ prefixBytes → ∀ p ∈ b.sorted, startKey ≤ p.1) := by
  rw [UnSortBuncket.sortedFrom]
  split
  · rename_i hle
    rw [eq_comm, List.filter_eq_self]
    simp only [decide_eq_true_eq, hle, true_imp_iff]
  · rename_i hlt
    exact ⟨fun _ hle => absurd hle hlt, fun _ => rfl⟩

/-- What is visited after the right pairs of the first bucket. -/
theorem shownFrom_append_eq_iff {h : Heap} {F : Pairs} {rest : List UnSortBuncket}
    {later more : List PointerBEntry}
    (hzero : ∀ p ∈ sortedAll rest ++
      ((later ++ more).map fun x => x.bunckets h).flatMap sortedAll, p.1 ≠ 0) :
    Group.shownFrom h F rest later ++ Group.shown h more =
        F ++ (sortedAll rest ++ ((later ++ more).map fun x => x.bunckets h).flatMap sortedAll) ↔
      ((F ≠ [] → NoGap rest) ∧ (F = [] → Gapless rest ∧ (rest ≠ [] ∨ later ≠ []))) ∧
        ∀ x ∈ later ++ more, Gapless (x.bunckets h) := by
  set L := (later ++ more).map fun x => x.bunckets h with hL
  have hmore : Group.shown h later ++ Group.shown h more = L.flatMap shownAll := by
    rw [shown_eq_flatMap, shown_eq_flatMap, hL, List.map_append, List.flatMap_append]
  have hgap : (∀ x ∈ later ++ more, Gapless (x.bunckets h)) ↔ ∀ e ∈ L, Gapless e := by
    rw [hL, List.forall_mem_map]
  rw [Group.shownFrom, List.append_assoc, hmore, hgap]
  by_cases hF : F = []
  · subst hF
    rw [if_neg (not_not_intro rfl), List.nil_append]
    simp only [ne_eq, not_true, false_imp_iff, true_and, true_imp_iff]
    by_cases hend : rest = [] ∧ later = []
    · -- the pair of zeros is not stored
      rw [if_pos hend]
      refine ⟨fun heq => ?_, fun hok => ?_⟩
      · exact absurd rfl (hzero (0, 0) (heq ▸ List.mem_cons_self ..))
      · rcases hok.1.2 with hne | hne
        · exact absurd hend.1 hne
        · exact absurd hend.2 hne
    · rw [if_neg hend, shownAll_append_eq_iff fun p hp => hzero p ?_]
      · refine and_congr_left fun _ => ⟨fun hrest => ⟨hrest, ?_⟩, fun hok => hok.1⟩
        exact not_and_or.mp hend
      · rcases List.mem_append.mp hp with hp | hp
        · refine List.mem_append_left _ ?_
          exact ((List.tail_sublist rest).flatMap UnSortBuncket.sorted).subset hp
        · exact List.mem_append_right _ hp
  · rw [if_pos hF, List.append_assoc, List.append_cancel_left_eq, shown_eq_iff hzero]
    refine and_congr_left fun _ => ⟨fun hrest => ⟨fun _ => hrest, fun hnil => ?_⟩, fun hok => ?_⟩
    · exact absurd hnil hF
    · exact hok.1 hF

/-- **What is visited from a start key on is right** if and only if the condition is met. -/
theorem shownFrom_eq_iff {h : Heap} {b : UnSortBuncket} {prefixBytes : ℕ}
    {rest : List UnSortBuncket} {later more : List PointerBEntry} {W : Pairs}
    (hW : sortedAll rest ++ ((later ++ more).map fun x => x.bunckets h).flatMap sortedAll = W)
    (hzero : ∀ p ∈ W, p.1 ≠ 0) (hfrom : ∀ p ∈ W, startKey ≤ p.1) :
    Group.shownFrom h (b.sortedFrom prefixBytes startKey) rest later ++ Group.shown h more =
        b.sorted.filter (fun p => startKey ≤ p.1) ++ W ↔
      StartOk startKey prefixBytes b rest later ∧
        ∀ x ∈ later ++ more, Gapless (x.bunckets h) := by
  subst hW
  have hnil : b.sorted.filter (fun p => decide (startKey ≤ p.1)) = [] ↔
      ∀ p ∈ b.sorted, p.1 < startKey := by
    rw [List.filter_eq_nil_iff]
    simp only [decide_eq_true_eq, not_le]
  have hne : b.sorted.filter (fun p => decide (startKey ≤ p.1)) ≠ [] ↔
      ∃ p ∈ b.sorted, startKey ≤ p.1 := by
    rw [ne_eq, hnil]
    simp only [not_forall, not_lt, exists_prop]
  constructor
  · intro heq
    have hF := sortedFrom_eq_iff.mpr fun (hle : startKey.toNat ≤ prefixBytes) p
        (hp : p ∈ b.sorted) => by
      -- all pairs of the bucket are visited
      have hall : b.sortedFrom prefixBytes startKey = b.sorted := if_pos hle
      rw [hall, Group.shownFrom, if_pos (List.ne_nil_of_mem hp)] at heq
      have hmem : p ∈ b.sorted ++ chained rest ++ Group.shown h later ++ Group.shown h more := by
        simp only [List.mem_append, hp, true_or]
      rw [heq] at hmem
      rcases List.mem_append.mp hmem with hmem | hmem
      · exact of_decide_eq_true (List.mem_filter.mp hmem).2
      · exact hfrom p hmem
    rw [hF, shownFrom_append_eq_iff hzero] at heq
    obtain ⟨⟨hfound, hpassed⟩, hgap⟩ := heq
    exact ⟨⟨sortedFrom_eq_iff.mp hF, fun hex => hfound (hne.mpr hex),
      fun hall => hpassed (hnil.mpr hall)⟩, hgap⟩
  · rintro ⟨hok, hgap⟩
    rw [sortedFrom_eq_iff.mpr hok.searched, shownFrom_append_eq_iff hzero]
    exact ⟨⟨fun hex => hok.found (hne.mp hex), fun hall => hok.passed (hnil.mp hall)⟩, hgap⟩

/-- **Iterations from a start key on.** -/
theorem iterExact_some_iff (hs : s.Holds M) (startKey : UInt64) :
    s.IterExact M (some startKey) ↔ s.IterOk (some startKey) := by
  obtain ⟨gpre, g, gpost, hloc⟩ := hs.inv.exists_located startKey
  have hg := hs.inv.wf g hloc.mem
  have hsorted := hs.inv.cells.sorted
  have hgsorted := (List.pairwise_flatMap.mp hsorted).1 g hloc.mem
  obtain ⟨epre, b, epost, hloc'⟩ :=
    Group.exists_located hloc.ne hg.entry (hgsorted.imp le_of_lt) startKey
  have hb := hg.entry b hloc'.mem
  obtain ⟨hpos, hroute⟩ :=
    hb.routes_findPos ((List.pairwise_flatMap.mp hgsorted).1 b hloc'.mem) startKey
  -- the cell of the start key
  have hroute' : Routes Cell.entryKey s.cells startKey (b.entrys (b.findPos startKey)).toCell :=
    hloc.routes hg hsorted (hloc'.routes hb hgsorted hroute)
  have hcells : s.cells = (gpre.flatMap Group.cells ++ (epre.flatMap PointerBEntry.cells ++
      b.cells.take (b.findPos startKey))) ++ (b.entrys (b.findPos startKey)).toCell ::
      (b.cells.drop (b.findPos startKey + 1) ++
        (epost ++ entriesOf gpost).flatMap PointerBEntry.cells) := by
    rw [hloc.cells_eq, hloc'.cells_eq, List.flatMap_append, cells_entriesOf]
    nth_rewrite 1 [PointerBEntry.cells_eq hpos]
    simp only [List.append_assoc, List.cons_append]
  have hpairs := pairsFrom_of_routes hs.inv hcells hroute'
  have hzero := ne_zero_of_after hs.inv hcells
  have hfrom : ∀ p ∈ pairs s.heap (b.cells.drop (b.findPos startKey + 1) ++
      (epost ++ entriesOf gpost).flatMap PointerBEntry.cells), startKey ≤ p.1 := fun p hp =>
    ((mem_pairsFrom hs).mp (hpairs ▸ List.mem_append_right _ hp)).2
  have hdist := hs.inv.cells.distinct _ hroute'.mem
  rw [iterExact_iff_eq hs (visits_some hs.inv hloc hloc' rfl hdist), pairsOf, hpairs,
    Nali.shown, shownFrom_eq_iff (by rw [pairs_append, pairs_drop_cells, pairs_flatMap_cells])
      hzero hfrom]
  -- where it starts
  have hlater : g.entrySpace.drop (g.findEntry startKey + 1) = epost := by
    rw [hloc'.index, hloc'.drop_eq]
  have hmore := hloc.drop_eq
  constructor
  · rintro ⟨hok, hgap⟩
    refine ⟨gpre.length, g, b, hloc.find, hloc.groupAt_eq, hloc'.entryFor_eq, ?_, ?_⟩
    · rw [hlater]
      exact hok
    · rw [hlater, hmore]
      exact hgap
  · rintro ⟨groupId, g', b', hfind, hat, hentry, hok, hgap⟩
    obtain rfl := Except.ok.inj (hloc.find.symm.trans hfind)
    obtain rfl := Except.ok.inj (hloc.groupAt_eq.symm.trans hat)
    obtain rfl := Except.ok.inj (hloc'.entryFor_eq.symm.trans hentry)
    rw [hlater] at hok hgap
    rw [hmore] at hgap
    exact ⟨hok, hgap⟩

/-- **Iterations over the states that are reached**: by `Put`s of absent keys, `Update`s and
`Delete`s. An iteration visits the pairs of the map from the start key on, each once and in
ascending order, if and only if the buckets it comes to meet the condition. -/
theorem exec_iterExact_iff (models : Models) (model : RootModel) (heap : Heap) (minKey : UInt64)
    (ops : List Op) (hops : PutsAbsent (fun _ => none) ops) (rs : List Ret) (s : Nali)
    (hexec : exec (step models) (init models model heap minKey) ops = .ok (rs, s))
    (startKey : Option UInt64) :
    s.IterExact (specRun mapStep (fun _ => none) ops).2 startKey ↔ s.IterOk startKey := by
  obtain ⟨s', hexec', hs'⟩ := exec_holds models (holds_init models model heap minKey) ops hops
  obtain ⟨-, rfl⟩ := Prod.mk.inj (Except.ok.inj (hexec.symm.trans hexec'))
  cases startKey with
  | none => exact iterExact_none_iff hs'
  | some startKey => exact iterExact_some_iff hs' startKey

/-- Two keys, of which one is below the start key 10. -/
def twoPuts : List Op := [.put 3 30, .put 12 120]

theorem exec_iterExact_iff_twoPuts : PutsAbsent (fun _ => none) twoPuts ∧
    ∃ rs s, exec (step zeroModels) (init zeroModels (zeroModels.root []) zeroHeap 0) twoPuts =
        .ok (rs, s) ∧
      s.iterate (some 10) 2 = .ok [(12, 120)] ∧
      s.IterExact (specRun mapStep (fun _ => none) twoPuts).2 (some 10) := by
  have hops : PutsAbsent (fun _ => none) twoPuts := by
    refine ⟨fun _ _ _ => rfl, ?_, trivial⟩
    rintro k v ⟨⟩
    rfl
  obtain ⟨s, hexec, -⟩ :=
    exec_holds zeroModels (holds_init zeroModels (zeroModels.root []) zeroHeap 0) twoPuts hops
  refine ⟨hops, _, s, hexec, ?_, (exec_iterExact_iff _ _ _ _ _ hops _ s hexec (some 10)).mpr ?_⟩
  · obtain ⟨-, rfl⟩ := Prod.mk.inj (Except.ok.inj hexec)
    rfl
  obtain ⟨-, rfl⟩ := Prod.mk.inj (Except.ok.inj hexec)
  refine ⟨0, _, _, rfl, rfl, rfl, ⟨fun hle => ?_, fun _ => List.Pairwise.nil, fun hall => ?_⟩, ?_⟩
  · exact absurd hle (by decide)
  · exact absurd (hall (12, 120) (by decide)) (by decide)
  · exact fun x hx => absurd hx List.not_mem_nil

/-- The start key 3 is not above the 8 prefix bytes of the only cell, and the iteration visits
the key 1. -/
theorem iterate_visits_below : ∃ rs s,
    exec (step zeroModels) (init zeroModels (zeroModels.root []) zeroHeap 0)
        [.put 1 10, .put 5 50] = .ok (rs, s) ∧
      s.iterate (some 3) 3 = .ok [(1, 10), (5, 50)] ∧
      ¬ s.IterExact (specRun mapStep (fun _ => none) [.put 1 10, .put 5 50]).2 (some 3) := by
  refine ⟨_, _, rfl, rfl, ?_⟩
  rintro ⟨fuel, l, hok, hl⟩
  have hmem : (1, 10) ∈ l := by
    match fuel with
    | 0 => cases hok
    | 1 => cases hok
    | 2 => cases hok
    | fuel + 3 =>
      have hvisits : Except.ok [(1, 10), (5, 50)] = Except.ok l := Eq.trans (by rfl) hok
      rw [← Except.ok.inj hvisits]
      exact List.mem_cons_self ..
  exact absurd (((hl.mem_iff _).mp hmem).2 3 rfl) (by decide)

end Nali

end NaliStore
