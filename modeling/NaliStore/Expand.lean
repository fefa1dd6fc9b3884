import NaliStore.Deal

/-!
# Expanding the tree

`ExpandTree` deals the cells out to new groups: the cell with entry key `k` goes to the group
that the new root model guesses for `k`. Since the guesses do not decrease, the new groups
hold the cells in the old order, and the group of a key is found again.
-/

namespace NaliStore

open Routing Runs

namespace Nali

variable {h : Heap} {m : RootModel} {n : ℕ}

theorem adjustGroups_cons (g : Group) (groups : List Group) :
    adjustGroups h (g :: groups) =
      ((if g.nextEntryCount = 0 then .ok g else g.adjustEntryKey h) >>= fun g =>
        adjustGroups h groups >>= fun groups => .ok (g :: groups)) := by
  rw [adjustGroups]
  split <;> rfl

/-- What the first loop does to a group, in whatever order the entry keys are. -/
def Adjusted (h : Heap) (g g' : Group) : Prop := g' = g ∧ g.cells = [] ∨ Group.Raised h g g'

theorem Adjusted.wf {g g' : Group} (ha : Adjusted h g g') (hg : g.WF) : g'.WF := by
  rcases ha with ⟨rfl, -⟩ | hr
  · exact hg
  · exact hr.wf

theorem Adjusted.count {g g' : Group} (ha : Adjusted h g g') :
    g'.nextEntryCount = g.nextEntryCount := by
  rcases ha with ⟨rfl, -⟩ | hr
  · rfl
  · exact hr.count

/-- The first loop adjusts every group. -/
theorem exists_adjusted (groups : List Group) (hwf : ∀ g ∈ groups, g.WF) :
    ∃ groups', adjustGroups h groups = .ok groups' ∧ List.Forall₂ (Adjusted h) groups groups' := by
  induction groups with
  | nil => exact ⟨[], rfl, .nil⟩
  | cons g groups ih =>
    have hg := hwf g (List.mem_cons_self ..)
    obtain ⟨groups', hadj', hall⟩ := ih fun x hx => hwf x (List.mem_cons_of_mem _ hx)
    obtain ⟨g', hadj, ha⟩ : ∃ g', (if g.nextEntryCount = 0 then .ok g
        else g.adjustEntryKey h) = Except.ok g' ∧ Adjusted h g g' := by
      rcases Nat.eq_zero_or_pos g.nextEntryCount with hzero | hpos
      · exact ⟨g, if_pos hzero, .inl ⟨rfl, List.eq_nil_of_length_eq_zero (hg.count ▸ hzero)⟩⟩
      · have hne : g.entrySpace ≠ [] := Group.ne_of_cells fun hnil =>
          hpos.ne' (by rw [hg.count, hnil]; rfl)
        obtain ⟨g', hadj, hr⟩ := hg.exists_raised hne h
        exact ⟨g', by rw [if_neg hpos.ne', hadj], .inr hr⟩
    refine ⟨g' :: groups', ?_, .cons ha hall⟩
    rw [adjustGroups_cons, hadj]
    simp only [bind, Except.bind, hadj']

theorem exists_of_adjusted {groups groups' : List Group}
    (hall : List.Forall₂ (Adjusted h) groups groups') :
    ∀ g' ∈ groups', ∃ g ∈ groups, Adjusted h g g' := by
  induction hall with
  | nil => exact fun g' hg' => absurd hg' List.not_mem_nil
  | cons ha _ ih =>
    intro x hx
    rcases List.mem_cons.mp hx with rfl | hx
    · exact ⟨_, List.mem_cons_self .., ha⟩
    · obtain ⟨g, hg, hgx⟩ := ih x hx
      exact ⟨g, List.mem_cons_of_mem _ hg, hgx⟩

theorem count_adjusted {groups groups' : List Group} (hall : List.Forall₂ (Adjusted h) groups groups') :
    groups'.map Group.nextEntryCount = groups.map Group.nextEntryCount := by
  induction hall with
  | nil => rfl
  | cons ha _ ih => rw [List.map_cons, List.map_cons, ha.count, ih]

/-- The first loop keeps what is stored, and the number of cells of every group. -/
theorem adjustGroups_spec (groups : List Group) (hwf : ∀ g ∈ groups, g.WF)
    (hl : Cells h (groups.flatMap Group.cells)) :
    ∃ groups', adjustGroups h groups = .ok groups' ∧ (∀ g ∈ groups', g.WF) ∧
      Cells h (groups'.flatMap Group.cells) ∧
      (∀ k v, Stored h (groups'.flatMap Group.cells) k v ↔
        Stored h (groups.flatMap Group.cells) k v) ∧
      groups'.map Group.nextEntryCount = groups.map Group.nextEntryCount := by
  obtain ⟨groups', hadj, hall⟩ := exists_adjusted (h := h) groups hwf
  refine ⟨groups', hadj, ?_⟩
  -- one group after the other, with those before it already adjusted
  have hstep : ∀ pre : List Cell, Cells h (pre ++ groups.flatMap Group.cells) →
      (∀ g ∈ groups', g.WF) ∧ Cells h (pre ++ groups'.flatMap Group.cells) ∧
        ∀ k v, Stored h (pre ++ groups'.flatMap Group.cells) k v ↔
          Stored h (pre ++ groups.flatMap Group.cells) k v := by
    clear hadj hl
    induction hall with
    | nil => exact fun pre hl => ⟨fun g hg => absurd hg List.not_mem_nil, hl, fun _ _ => Iff.rfl⟩
    | @cons g g' groups groups' ha _ ih =>
      intro pre hl
      have hg := hwf g (List.mem_cons_self ..)
      rw [List.flatMap_cons] at hl
      obtain ⟨hl', hst⟩ : Cells h (pre ++ (g'.cells ++ groups.flatMap Group.cells)) ∧
          ∀ k v, Stored h (pre ++ (g'.cells ++ groups.flatMap Group.cells)) k v ↔
            Stored h (pre ++ (g.cells ++ groups.flatMap Group.cells)) k v := by
        rcases ha with ⟨rfl, -⟩ | hr
        · exact ⟨hl, fun _ _ => Iff.rfl⟩
        · exact ⟨(hr.repacked hg hl).cells, (hr.repacked hg hl).stored⟩
      rw [← List.append_assoc] at hl'
      obtain ⟨hwf', hl'', hst'⟩ := ih (fun x hx => hwf x (List.mem_cons_of_mem _ hx))
        (pre ++ g'.cells) hl'
      refine ⟨fun x hx => ?_, ?_, fun k v => ?_⟩
      · rcases List.mem_cons.mp hx with rfl | hx
        · exact ha.wf hg
        · exact hwf' x hx
      · rw [List.flatMap_cons, ← List.append_assoc]
        exact hl''
      · rw [List.flatMap_cons, List.flatMap_cons, ← List.append_assoc, hst', List.append_assoc, hst]
  obtain ⟨hwf', hl', hst⟩ := hstep [] hl
  exact ⟨hwf', hl', hst, count_adjusted hall⟩

/-- The cells a new group gets. -/
def dealt (m : RootModel) (n : ℕ) (entries : List EEntry) (i : ℕ) : List EEntry :=
  entries.filter fun e => m.groupId n e.entryKey = i

section Dealt

variable {entries : List EEntry}

/-- The cells are dealt out in the order the old groups have them. -/
theorem copyGroups_eq (old : List Group) (groups : List Group) :
    old.foldlM (fun groups g => copyEntries m n groups g.eentries) groups =
      copyEntries m n groups (old.flatMap Group.eentries) :=
  foldlM_copyBy_eq old groups

/-- The cells of the new groups are those of the old ones. -/
theorem mem_dealt (hn : 0 < n) {c : Cell} : (∃ i < n, c ∈ (dealt m n entries i).map EEntry.toCell) ↔
    c ∈ entries.map EEntry.toCell := by
  constructor
  · rintro ⟨i, -, hc⟩
    obtain ⟨e, he, rfl⟩ := List.mem_map.mp hc
    exact List.mem_map_of_mem (List.mem_of_mem_filter he)
  · intro hc
    obtain ⟨e, he, rfl⟩ := List.mem_map.mp hc
    exact ⟨m.groupId n e.entryKey, RootModel.groupId_lt hn _,
      List.mem_map_of_mem (List.mem_filter.mpr ⟨he, decide_eq_true rfl⟩)⟩

/-- The cells stay in order, since the guesses do not decrease. -/
theorem sorted_dealt
    (hsorted : (entries.map EEntry.toCell).Pairwise fun c d => c.entryKey < d.entryKey) :
    ((List.range n).flatMap fun i => (dealt m n entries i).map EEntry.toCell).Pairwise
      fun c d => c.entryKey < d.entryKey := by
  rw [← List.map_flatMap, List.pairwise_map]
  refine pairwise_deal (List.pairwise_map.mp hsorted) (fun e _ f _ hlt => ?_) n
  exact lt_of_not_ge fun hle => absurd hlt (not_lt_of_ge (RootModel.groupId_mono hle))

end Dealt

/-! ## ExpandTree -/

variable {s : Nali}

theorem length_cells {groups : List Group} (hwf : ∀ g ∈ groups, g.WF) :
    (groups.flatMap Group.cells).length = (groups.map Group.nextEntryCount).sum := by
  rw [List.length_flatMap]
  exact congrArg List.sum (List.map_congr_left fun g hg => (hwf g hg).count.symm)

/-- What an `ExpandTree` has done. -/
structure Expanded (models : Models) (s s' : Nali) : Prop where
  /-- the invariant -/
  inv : s'.Inv
  /-- the same pairs are stored -/
  stored : ∀ k v, Stored s'.heap s'.cells k v ↔ Stored s.heap s.cells k v
  /-- there is one cell in every B entry -/
  single : ∀ g ∈ s'.groupSpace, ∀ b ∈ g.entrySpace, b.entries = 1
  /-- the root model has been trained -/
  model : ∃ keys, s'.model = models.root keys
  /-- every cell is in the group the model guesses for it -/
  dealt : ∀ (i : ℕ) (g : Group), s'.groupSpace[i]? = some g →
    ∀ c ∈ g.cells, s'.model.groupId s'.nrGroups c.entryKey = i
  /-- there are as many cells as before -/
  length : s'.cells.length = s.cells.length
  /-- there are groups for them -/
  nrGroups : s'.nrGroups = (s.cells.length + (minEntryCount - 1)) / minEntryCount

/-- **`ExpandTree`** keeps what is stored, and deals the cells out to the groups that the new
root model guesses for them. -/
theorem Inv.expandTree_spec (hs : s.Inv) (models : Models) :
    ∃ s', s.expandTree models = .ok s' ∧ Expanded models s s' := by
  obtain ⟨old, hadj, hwf, hl, hst, hcount⟩ := adjustGroups_spec s.groupSpace hs.wf hs.cells
  set entries := old.flatMap Group.eentries with hentries
  have hcells : entries.map EEntry.toCell = old.flatMap Group.cells := by
    rw [hentries, List.map_flatMap]
    exact congrArg (old.flatMap ·) (funext fun g => Group.eentries_toCell)
  -- there is a group to deal to
  obtain ⟨count, hcountEq⟩ : ∃ count, count = (old.map Group.nextEntryCount).sum := ⟨_, rfl⟩
  have hlength : (old.flatMap Group.cells).length = count := (length_cells hwf).trans hcountEq.symm
  have hcountCells : count = s.cells.length := by
    rw [hcountEq, hcount, ← length_cells hs.wf]
    rfl
  have hpos : 0 < count := hcountCells ▸ List.length_pos_of_ne_nil hs.ne
  obtain ⟨n, keys, hnEq, hn, hexpand⟩ := exists_expandGroups
    (fun m {_} hn k => RootModel.groupId_lt (m := m) hn k) models.group models.root hadj
    (hcountEq ▸ hpos)
  set model := models.root keys
  set s' : Nali := ⟨(List.range n).map fun i => dealtGroup models.group (dealt model n entries i),
    model, s.heap⟩ with hs'
  have hcells' : s'.cells =
      (List.range n).flatMap fun i => (dealt model n entries i).map EEntry.toCell := by
    rw [Nali.cells, hs', List.flatMap_map]
    exact congrArg (List.flatMap · _) (funext fun i => dealtGroup_cells)
  have hmem : ∀ c, c ∈ s'.cells ↔ c ∈ old.flatMap Group.cells := by
    intro c
    rw [hcells', List.mem_flatMap, ← hcells, ← mem_dealt (m := model) hn]
    simp only [List.mem_range]
  have hget : ∀ i g, s'.groupSpace[i]? = some g →
      i < n ∧ g = dealtGroup models.group (dealt model n entries i) := by
    intro i g hg
    rw [hs', List.getElem?_map, Option.map_eq_some_iff] at hg
    obtain ⟨j, hj, rfl⟩ := hg
    obtain ⟨hlt, rfl⟩ := List.getElem?_eq_some_iff.mp hj
    rw [List.getElem_range]
    exact ⟨by rwa [List.length_range] at hlt, rfl⟩
  have hmemg : ∀ g ∈ s'.groupSpace, ∃ i, g = dealtGroup models.group (dealt model n entries i) := by
    intro g hg
    obtain ⟨i, hi⟩ := List.mem_iff_getElem?.mp hg
    exact ⟨i, (hget i g hi).2⟩
  have hlen : s'.nrGroups = n := by
    rw [nrGroups, hs', List.length_map, List.length_range]
  have hsorted : s'.cells.Pairwise fun c d => c.entryKey < d.entryKey := by
    rw [hcells']
    exact sorted_dealt (by rw [hcells]; exact hl.sorted)
  have hdealt : ∀ (i : ℕ) (g : Group), s'.groupSpace[i]? = some g →
      ∀ c ∈ g.cells, s'.model.groupId s'.nrGroups c.entryKey = i := by
    intro i g hg c hc
    obtain ⟨-, rfl⟩ := hget i g hg
    rw [dealtGroup_cells] at hc
    obtain ⟨e, he, rfl⟩ := List.mem_map.mp hc
    rw [hlen]
    exact of_decide_eq_true (List.mem_filter.mp he).2
  have hwf' : ∀ g ∈ s'.groupSpace, g.WF := by
    intro g hg
    obtain ⟨i, rfl⟩ := hmemg g hg
    exact dealtGroup_wf
  refine ⟨s', ?_, ⟨hwf', hl.congr hsorted fun c hc => (hmem c).mp hc, ?_, fun i g hg hne _ => ?_⟩,
    fun k v => ?_, fun g hg b hb => ?_, ⟨_, rfl⟩, hdealt, ?_, ?_⟩
  · rw [expandTree, hexpand]
    rfl
  · obtain ⟨c, hc⟩ := List.exists_mem_of_length_pos (hlength ▸ hpos)
    exact List.ne_nil_of_mem ((hmem c).mpr hc)
  · obtain ⟨c, tail, hfirst, hkey⟩ := Group.exists_first
      (hwf' g (List.mem_of_getElem? hg)).entry hne
    rw [← hkey]
    exact (hdealt i g hg c (hfirst ▸ List.mem_cons_self ..)).ge
  · rw [Cells.stored_congr s.heap fun p => exists_congr fun c => and_congr_left' (hmem c)]
    exact hst k v
  · obtain ⟨i, rfl⟩ := hmemg g hg
    rw [dealtGroup_entrySpace] at hb
    obtain ⟨e, -, rfl⟩ := List.mem_map.mp hb
    rw [← PointerBEntry.length_cells, PointerBEntry.cells_ofEEntry]
    rfl
  · -- the same cells, in another order
    have hne : ∀ {c d : Cell}, c.entryKey < d.entryKey → c ≠ d := by
      rintro c d hlt rfl
      exact lt_irrefl _ hlt
    have hperm := (List.perm_ext_iff_of_nodup (hsorted.imp hne) (hl.sorted.imp hne)).mpr hmem
    rw [hperm.length_eq, hlength, hcountCells]
  · rw [hlen, hnEq, ← hcountEq, hcountCells]

end Nali

end NaliStore
