import NaliStore.Rounds

/-!
# Every Put finishes

The outermost loop of `Put`, in a tree whose root model predicts anything (`NaliTree`): the
keys may then be in any group, and no order of the entry keys is left to rely on. The index of
`NaliStore.Nali`, whose root model guesses in the order of the keys, is such a tree: both find
and expand their groups by the same functions, from what their root model guesses.

After `ExpandTree` every B entry has one cell, however unevenly the cells have been dealt out,
so the retry finds a bucket with room or one that can be split.
-/

namespace NaliStore

open Routing Runs

/-! ## The tree -/

/-- `Nali` with a root model that predicts anything. -/
structure NaliTree where
  /-- `group_space` -/
  groupSpace : List Group
  /-- `model.predict` -/
  predict : UInt64 → Int32
  /-- the memory of the buckets -/
  heap : Heap

namespace NaliTree

/-- `nr_groups_` -/
def nrGroups (t : NaliTree) : ℕ := t.groupSpace.length

/-- `Init`, in memory that holds anything -/
def init (group : Train) (predict : UInt64 → Int32) (heap : Heap) (minKey : UInt64) : NaliTree :=
  let (g, heap) := Group.init group heap minKey
  ⟨[g], predict, heap⟩

/-- `find_group` -/
def findGroup (t : NaliTree) (key : UInt64) : Except Fault ℕ :=
  Nali.findGroupFrom t.groupSpace key (guessGroup t.predict t.nrGroups key)

/-- `group_space[group_id]` -/
def groupAt (t : NaliTree) (id : ℕ) : Except Fault Group := Nali.groupIn t.groupSpace id

/-- `ExpandTree` -/
def expandTree (group root : Train) (t : NaliTree) : Except Fault NaliTree := do
  let (groups, predict) ← Nali.expandGroups group root guessGroup t.heap t.groupSpace
  .ok ⟨groups, predict, t.heap⟩

/-- `Put` with a bound on the number of retries, and with what it has done to make room. -/
def putTrace (group root : Train) (key value : UInt64) : ℕ → NaliTree → List Rework →
    Except Fault ((Status × NaliTree) × List Rework)
  | 0, _, _ => .error .diverges
  | fuel + 1, t, done => do
    let id ← t.findGroup key
    let g ← t.groupAt id
    let ((ret, g, heap), done) ← g.putTrace group key value 2 t.heap done
    let t := { t with groupSpace := t.groupSpace.set id g, heap }
    if ret = .full then do
      let t ← t.expandTree group root
      putTrace group root key value fuel t (done ++ [.expandTree])
    else .ok ((ret, t), done)

/-- `Put`, with one retry -/
def put (group root : Train) (t : NaliTree) (key value : UInt64) :
    Except Fault ((Status × NaliTree) × List Rework) := putTrace group root key value 2 t []

/-- `Update`: the old value, if the key is there. -/
def update (t : NaliTree) (key value : UInt64) : Except Fault (Option UInt64 × NaliTree) := do
  let (ret, heap) ← Nali.onGroup t.groupSpace key (guessGroup t.predict t.nrGroups key)
    fun g => g.update t.heap key value
  .ok (ret, { t with heap })

/-- `Delete`: the old value, if the key is there. -/
def delete (t : NaliTree) (key : UInt64) : Except Fault (Option UInt64 × NaliTree) := do
  let (ret, heap) ← Nali.onGroup t.groupSpace key (guessGroup t.predict t.nrGroups key)
    fun g => g.delete t.heap key
  .ok (ret, { t with heap })

end NaliTree

/-! ## The index as a tree -/

/-- The training of the root model. -/
def Models.rootTrain (models : Models) : Train := fun keys => (models.root keys).predict

namespace Nali

variable {models : Models} {k v : UInt64}

/-- Forget that the guesses of the root model do not decrease. -/
def toTree (s : Nali) : NaliTree := ⟨s.groupSpace, s.model.predict, s.heap⟩

theorem toTree_findGroup (s : Nali) : s.toTree.findGroup k = s.findGroup k := rfl

theorem toTree_expandTree (s : Nali) : s.toTree.expandTree models.group models.rootTrain =
    (s.expandTree models).map toTree := by
  have hgroups := expandGroups_map RootModel.groupId guessGroup RootModel.predict (fun _ => rfl)
    models.group models.root s.heap s.groupSpace
  have htree : s.toTree.expandTree models.group models.rootTrain =
      (expandGroups models.group (fun keys => (models.root keys).predict) guessGroup s.heap
        s.groupSpace >>= fun x => .ok ⟨x.1, x.2, s.heap⟩) := rfl
  rw [htree, hgroups, expandTree]
  cases expandGroups models.group models.root RootModel.groupId s.heap s.groupSpace <;> rfl

/-- **The model of `Put` without the rounds** is the one with them. -/
theorem toTree_putTrace : ∀ (fuel : ℕ) (s : Nali) (done : List Rework),
    (s.toTree.putTrace models.group models.rootTrain k v fuel done).map Prod.fst =
      (putLoop models k v fuel s).map fun r => (r.1, r.2.toTree) := by
  intro fuel
  induction fuel with
  | zero => exact fun _ _ => rfl
  | succ fuel ih =>
    intro s done
    rw [NaliTree.putTrace, putLoop, toTree_findGroup]
    cases s.findGroup k with
    | error e => rfl
    | ok id =>
      have hat : s.toTree.groupAt id = s.groupAt id := rfl
      simp only [bind, Except.bind, hat]
      cases s.groupAt id with
      | error e => rfl
      | ok g =>
        have herase : (g.putTrace models.group k v 2 s.heap done).map Prod.fst = _ :=
          Group.map_putTrace 2 g s.heap done
        have hheap : s.toTree.heap = s.heap := rfl
        simp only [Group.put, hheap]
        rw [← herase]
        cases g.putTrace models.group k v 2 s.heap done with
        | error e => rfl
        | ok x =>
          obtain ⟨⟨ret, g', h'⟩, done'⟩ := x
          simp only [Except.map]
          rcases eq_or_ne ret .full with hfull | hfull
          · simp only [if_pos hfull]
            obtain ⟨s', hs'⟩ : ∃ s' : Nali,
              s' = { s with groupSpace := s.groupSpace.set id g', heap := h' } := ⟨_, rfl⟩
            have htree : { s.toTree with groupSpace := s.toTree.groupSpace.set id g', heap := h' } =
              s'.toTree := by rw [hs']; rfl
            rw [htree, toTree_expandTree, ← hs']
            cases s'.expandTree models with
            | error e => rfl
            | ok s₁ => exact ih s₁ _
          · simp only [if_neg hfull]
            rfl

end Nali

/-! ## Every Put finishes -/

namespace NaliTree

variable {t t' : NaliTree} {k v : UInt64} {group root : Train}

/-- The bookkeeping of a tree. -/
structure Tidy (t : NaliTree) : Prop where
  /-- that of its groups -/
  group : ∀ g ∈ t.groupSpace, g.Tidy t.heap
  /-- there is a group with a cell -/
  ne : ∃ g ∈ t.groupSpace, g.entrySpace ≠ []

/-- `find_group` finds a group with a cell, whatever the root model predicts. -/
theorem Tidy.exists_findGroup (ht : t.Tidy) (k : UInt64) :
    ∃ i g, t.findGroup k = .ok i ∧ t.groupSpace[i]? = some g ∧ g.entrySpace ≠ [] := by
  have hpos : 0 < t.groupSpace.length := by
    obtain ⟨g, hg, -⟩ := ht.ne
    exact List.length_pos_of_mem hg
  obtain ⟨r, -, hdown, -, hstop⟩ := Nali.findDown_spec t.groupSpace k _
    (guessGroup_lt hpos k)
  -- the first loop has stopped at a group with a cell, or there is one to go up to
  have hex : ∃ g ∈ t.groupSpace.drop r, g.entrySpace ≠ [] := by
    rcases hstop with rfl | ⟨g, hg, hne, -⟩
    · rw [List.drop_zero]
      exact ht.ne
    · refine ⟨g, List.mem_iff_getElem?.mpr ⟨0, ?_⟩, hne⟩
      rw [List.getElem?_drop]
      exact hg
  obtain ⟨gpre, g, gpost, heq, hup, -, hne⟩ := Nali.findUp_spec (t.groupSpace.drop r) r hex
  refine ⟨r + gpre.length, g, ?_, ?_, hne⟩
  · rw [findGroup, Nali.findGroupFrom, nrGroups, hdown]
    exact hup
  · rw [← List.getElem?_drop, heq, List.getElem?_append_right le_rfl, Nat.sub_self]
    rfl

/-- Replacing a group of a tree. -/
theorem Tidy.set (ht : t.Tidy) {i : ℕ} {g' : Group} {h' : Heap} (hi : i < t.groupSpace.length)
    (hg' : g'.Tidy h') (hne : g'.entrySpace ≠ []) (hk : t.heap.Keeps h') :
    Tidy { t with groupSpace := t.groupSpace.set i g', heap := h' } where
  group x hx := by
    rcases List.mem_or_eq_of_mem_set hx with hx | rfl
    · exact ⟨(ht.group x hx).wf, (ht.group x hx).sane.keeps hk⟩
    · exact hg'
  ne := ⟨g', List.mem_set hi g', hne⟩

/-- What an `ExpandTree` has done: the first entry keys of the groups are adjusted, and every
group of the new tree has the cells that are dealt to it. -/
structure Dealt (group : Train) (t : NaliTree) (old : List Group) (t' : NaliTree) : Prop where
  /-- the adjusted groups -/
  adjusted : List.Forall₂ (Nali.Adjusted t.heap) t.groupSpace old
  /-- the buckets are untouched -/
  heap : t'.heap = t.heap
  /-- there is a group -/
  pos : 0 < t'.nrGroups
  /-- the new groups -/
  groups : t'.groupSpace = (List.range t'.nrGroups).map fun i => Nali.dealtGroup group
    (Nali.dealtBy (guessGroup t'.predict t'.nrGroups) (old.flatMap Group.eentries) i)

/-- The cells are those of the adjusted groups. -/
theorem map_eentries (old : List Group) :
    (old.flatMap Group.eentries).map EEntry.toCell = old.flatMap Group.cells := by
  rw [List.map_flatMap]
  exact congrArg (old.flatMap ·) (funext fun g => Group.eentries_toCell)

theorem Tidy.adjusted (ht : t.Tidy) {old : List Group}
    (hall : List.Forall₂ (Nali.Adjusted t.heap) t.groupSpace old) : ∀ g ∈ old, g.Tidy t.heap := by
  intro g' hg'
  obtain ⟨g, hg, ha⟩ := Nali.exists_of_adjusted hall g' hg'
  refine ⟨ha.wf (ht.group g hg).wf, ?_⟩
  rcases ha with ⟨rfl, -⟩ | hr
  · exact (ht.group _ hg).sane
  · exact hr.sane (ht.group g hg).sane

/-- There are cells to deal out. -/
theorem Tidy.count_pos (ht : t.Tidy) {old : List Group}
    (hall : List.Forall₂ (Nali.Adjusted t.heap) t.groupSpace old) :
    0 < (old.map Group.nextEntryCount).sum := by
  obtain ⟨g, hg, hne⟩ := ht.ne
  obtain ⟨c, tail, hfirst, -⟩ := Group.exists_first (ht.group g hg).wf.entry hne
  rw [Nali.count_adjusted hall, List.sum_pos_iff_exists_pos_nat]
  refine ⟨_, List.mem_map_of_mem hg, ?_⟩
  rw [(ht.group g hg).wf.count, hfirst]
  exact Nat.succ_pos _

theorem Tidy.exists_dealt (ht : t.Tidy) (group root : Train) :
    ∃ old t', t.expandTree group root = .ok t' ∧ Dealt group t old t' := by
  obtain ⟨old, hadj, hall⟩ := Nali.exists_adjusted (h := t.heap) t.groupSpace
    fun g hg => (ht.group g hg).wf
  obtain ⟨n, keys, -, hn, hexpand⟩ := Nali.exists_expandGroups
    (fun _ {_} hn k => guessGroup_lt hn k) group root hadj (ht.count_pos hall)
  refine ⟨old, ⟨(List.range n).map fun i => Nali.dealtGroup group
    (Nali.dealtBy (guessGroup (root keys) n) (old.flatMap Group.eentries) i), root keys, t.heap⟩,
    ?_, hall, rfl, ?_, ?_⟩
  · rw [expandTree, hexpand]
    rfl
  · rw [nrGroups, List.length_map, List.length_range]
    exact hn
  · simp only [nrGroups, List.length_map, List.length_range]

/-- **`ExpandTree`** gives every cell a B entry of its own, wherever the cells go. -/
theorem Dealt.tidy {old : List Group} (hd : Dealt group t old t') (ht : t.Tidy) :
    t'.Tidy ∧ ∀ g ∈ t'.groupSpace, ∀ b ∈ g.entrySpace, b.entries = 1 := by
  have hold := ht.adjusted hd.adjusted
  have hmem : ∀ g ∈ t'.groupSpace, ∃ i, g = Nali.dealtGroup group
      (Nali.dealtBy (guessGroup t'.predict t'.nrGroups) (old.flatMap Group.eentries) i) := by
    intro g hg
    rw [hd.groups] at hg
    obtain ⟨i, -, rfl⟩ := List.mem_map.mp hg
    exact ⟨i, rfl⟩
  refine ⟨⟨fun g hg => ?_, ?_⟩, fun g hg b hb => ?_⟩
  · obtain ⟨i, rfl⟩ := hmem g hg
    refine ⟨Nali.dealtGroup_wf, fun c hc => ?_⟩
    rw [Nali.dealtGroup_cells] at hc
    obtain ⟨e, he, rfl⟩ := List.mem_map.mp hc
    have hc : e.toCell ∈ old.flatMap Group.cells :=
      map_eentries old ▸ List.mem_map_of_mem (List.mem_of_mem_filter he)
    obtain ⟨g, hg, hcg⟩ := List.mem_flatMap.mp hc
    rw [hd.heap]
    exact (hold g hg).sane _ hcg
  · -- the group of some cell
    have hlen : 0 < (old.flatMap Group.eentries).length := by
      rw [← List.length_map, map_eentries, Nali.length_cells fun g hg => (hold g hg).wf]
      exact ht.count_pos hd.adjusted
    obtain ⟨e, he⟩ := List.exists_mem_of_length_pos hlen
    refine ⟨Nali.dealtGroup group (Nali.dealtBy (guessGroup t'.predict t'.nrGroups)
      (old.flatMap Group.eentries) (guessGroup t'.predict t'.nrGroups e.entryKey)), ?_, ?_⟩
    · rw [hd.groups]
      exact List.mem_map.mpr ⟨_, List.mem_range.mpr (guessGroup_lt hd.pos e.entryKey), rfl⟩
    · rw [Nali.dealtGroup_entrySpace]
      exact List.ne_nil_of_mem (List.mem_map_of_mem (List.mem_filter.mpr ⟨he, decide_eq_true rfl⟩))
  · obtain ⟨i, rfl⟩ := hmem g hg
    rw [Nali.dealtGroup_entrySpace] at hb
    obtain ⟨e, -, rfl⟩ := List.mem_map.mp hb
    rw [← PointerBEntry.length_cells, PointerBEntry.cells_ofEEntry]
    rfl

/-- A `Put` that has come to a bucket with room in the group of the key, which may have been
re-packed. -/
def PutAt (t : NaliTree) (k v : UInt64) (t' : NaliTree) : Prop :=
  ∃ i g g₁ hasSplit g' h', t.findGroup k = .ok i ∧ t.groupSpace[i]? = some g ∧
    g.entrySpace ≠ [] ∧ (g₁ = g ∨ ∃ train, g.expand train t.heap = .ok g₁) ∧ g₁.Tidy t.heap ∧
    g₁.PutAt t.heap k v hasSplit g' h' ∧
    t' = { t with groupSpace := t.groupSpace.set i g', heap := h' }

theorem PutAt.tidy (hp : t.PutAt k v t') (ht : t.Tidy) : t'.Tidy := by
  obtain ⟨i, g, g₁, hasSplit, g', h', -, hget, -, -, hg₁, hat, rfl⟩ := hp
  obtain ⟨hi, -⟩ := List.getElem?_eq_some_iff.mp hget
  obtain ⟨hg', hkeeps⟩ := hat.tidy hg₁
  exact ht.set hi hg' hat.ne hkeeps

/-- A round of `Put`: it comes to a bucket with room, or a B entry is full. -/
theorem Tidy.round_spec (ht : t.Tidy) (group root : Train) (k v : UInt64) (n : ℕ)
    (done : List Rework) :
    (∃ t' made, putTrace group root k v (n + 1) t done = .ok ((.ok, t'), done ++ made) ∧
      t.PutAt k v t' ∧ made.count .split ≤ 1 ∧ made.count .expand ≤ 1 ∧
      made.count .expandTree = 0 ∧ (made.count .expand = 0 ∨
        ∃ g ∈ t.groupSpace, ∃ b ∈ g.entrySpace, b.entries = PointerBEntry.pbEntryCount)) ∨
    (∃ g ∈ t.groupSpace, ∃ b ∈ g.entrySpace, b.entries = PointerBEntry.pbEntryCount) ∧
      putTrace group root k v (n + 1) t done = (do
        let t ← t.expandTree group root
        putTrace group root k v n t (done ++ [.expandTree])) := by
  obtain ⟨i, g, hfind, hget, hne⟩ := ht.exists_findGroup k
  have hmem : g ∈ t.groupSpace := List.mem_of_getElem? hget
  have hat : t.groupAt i = .ok g := Nali.groupIn_eq hget
  have hsplit : ∀ hasSplit : Bool, hasSplit.toNat ≤ 1 := fun hasSplit => Bool.toNat_le hasSplit
  rcases (ht.group g hmem).putTrace_spec hne group k v done with
    ⟨hasSplit, g', h', hputAt, hput⟩ | ⟨g₁, hasSplit, g', h', hexp, hputAt, hg₁, hfour, hput⟩ |
      ⟨hfour, hput⟩
  · refine .inl ⟨_, List.replicate hasSplit.toNat .split, ?_, ⟨i, g, g, hasSplit, g', h', hfind, hget,
      hne, .inl rfl, ht.group g hmem, hputAt, rfl⟩, ?_⟩
    · rw [putTrace, hfind]
      simp only [bind, Except.bind, hat, hput, reduceCtorEq, if_false]
    · simp only [List.count_replicate]
      exact ⟨by simpa using hsplit hasSplit, by simp, by simp, by simp⟩
  · refine .inl ⟨_, .expand :: List.replicate hasSplit.toNat .split, ?_, ⟨i, g, g₁, hasSplit, g', h',
      hfind, hget, hne, .inr ⟨group, hexp⟩, hg₁, hputAt, rfl⟩, ?_⟩
    · rw [putTrace, hfind]
      simp only [bind, Except.bind, hat, hput, reduceCtorEq, if_false, List.append_assoc,
        List.singleton_append]
    · simp only [List.count_cons, List.count_replicate]
      exact ⟨by simpa using hsplit hasSplit, by simp, by simp, .inr ⟨g, hmem, hfour⟩⟩
  · obtain ⟨b, hb, hfour⟩ := hfour
    refine .inr ⟨⟨g, hmem, b, hb, hfour⟩, ?_⟩
    obtain ⟨gpre, gpost, heq, -, hset⟩ := exists_append_cons hget
    rw [putTrace, hfind]
    simp only [bind, Except.bind, hat, hput, if_true, hset]
    rw [← heq]

/-- **`Put`** finishes with `OK`, and makes room at most once in each way. -/
theorem Tidy.put_spec (ht : t.Tidy) (group root : Train) (k v : UInt64) :
    ∃ t' made, t.put group root k v = .ok ((.ok, t'), made) ∧
      (t.PutAt k v t' ∨ ∃ old t₁, t.expandTree group root = .ok t₁ ∧ Dealt group t old t₁ ∧
        t₁.PutAt k v t') ∧
      made.count .split ≤ 1 ∧ made.count .expand + made.count .expandTree ≤ 1 := by
  rcases ht.round_spec group root k v 1 [] with
    ⟨t', made, hput, hat, hsplit, hexpand, htree, -⟩ | ⟨-, hput⟩
  · exact ⟨t', made, hput, .inl hat, hsplit, by omega⟩
  · obtain ⟨old, t₁, hexp, hdealt⟩ := ht.exists_dealt group root
    obtain ⟨ht₁, hone⟩ := hdealt.tidy ht
    rw [hexp] at hput
    -- after the expansion no B entry is full
    rcases ht₁.round_spec group root k v 0 ([] ++ [.expandTree]) with
      ⟨t', made, hput', hat, hsplit, -, htree, hexpand⟩ | ⟨⟨g, hg, b, hb, hfour⟩, -⟩
    · rcases hexpand with hexpand | ⟨g, hg, b, hb, hfour⟩
      · refine ⟨t', _, hput.trans hput', .inr ⟨old, t₁, hexp, hdealt, hat⟩, ?_, ?_⟩
        · simpa [List.count_append] using hsplit
        · simp [hexpand, htree]
      · rw [hone g hg b hb] at hfour
        cases hfour
    · rw [hone g hg b hb] at hfour
      cases hfour

/-! ## What keeps the bookkeeping -/

theorem tidy_init (group : Train) (predict : UInt64 → Int32) (heap : Heap) (minKey : UInt64) :
    (init group predict heap minKey).Tidy := by
  refine ⟨fun g hg => ?_, _, List.mem_singleton_self _, List.cons_ne_nil _ _⟩
  obtain rfl : g = (Group.init group heap minKey).1 := List.mem_singleton.mp hg
  refine ⟨⟨fun b hb => ?_, rfl⟩, fun c hc => ?_⟩
  · obtain rfl := List.mem_singleton.mp hb
    exact PointerBEntry.wf_init heap 0 8
  · obtain rfl : c = ⟨0, heap.next⟩ := List.mem_singleton.mp hc
    refine ⟨Nat.lt_succ_self heap.next, ?_⟩
    have hbunk : (init group predict heap minKey).heap.bunckets heap.next =
      { heap.bunckets heap.next with entries := 0 } := Function.update_self ..
    rw [hbunk]
    exact Nat.zero_le _

/-- Changing a bucket of a tree. -/
theorem Tidy.setBuncket (ht : t.Tidy) {p : ℕ} {b : UnSortBuncket}
    (hle : b.entries ≤ UnSortBuncket.maxEntries) : Tidy { t with heap := t.heap.set p b } :=
  ⟨fun g hg => ⟨(ht.group g hg).wf, (ht.group g hg).sane.keeps (Heap.keeps_set hle)⟩, ht.ne⟩

/-- `Update` and `Delete` go to the bucket of a cell. -/
theorem Tidy.exec_eq (ht : t.Tidy) (k w : UInt64) :
    ∃ c ∈ t.groupSpace.flatMap Group.cells, t.heap.Sane c.pointer ∧
      t.update k w = .ok (((t.heap.bunckets c.pointer).update k w).1,
        { t with heap := t.heap.set c.pointer ((t.heap.bunckets c.pointer).update k w).2 }) ∧
      t.delete k = .ok (((t.heap.bunckets c.pointer).delete k).1,
        { t with heap := t.heap.set c.pointer ((t.heap.bunckets c.pointer).delete k).2 }) := by
  obtain ⟨i, g, hfind, hget, hne⟩ := ht.exists_findGroup k
  have hat : t.groupAt i = .ok g := Nali.groupIn_eq hget
  have hg := ht.group g (List.mem_of_getElem? hget)
  obtain ⟨b, hb, -, hupdate, hdelete⟩ := hg.wf.exec_eq hne t.heap k w
  have hmem := List.mem_of_getElem? hb
  have hc : (b.entrys (b.findPos k)).toCell ∈ g.cells := List.mem_flatMap.mpr ⟨b, hmem,
    PointerBEntry.mem_cells.mpr ⟨_, (hg.wf.entry b hmem).findPos_lt k, rfl⟩⟩
  refine ⟨_, List.mem_flatMap.mpr ⟨g, List.mem_of_getElem? hget, hc⟩, hg.sane _ hc, ?_, ?_⟩
  · rw [update, Nali.onGroup_eq hfind hat, hupdate]
    rfl
  · rw [delete, Nali.onGroup_eq hfind hat, hdelete]
    rfl

/-! The bookkeeping is kept by every call that returns. -/

theorem Tidy.of_put (ht : t.Tidy) {ret : Status} {made : List Rework}
    (hput : t.put group root k v = .ok ((ret, t'), made)) : t'.Tidy := by
  obtain ⟨t₁, made₁, hput₁, hat, -⟩ := ht.put_spec group root k v
  obtain ⟨heq, -⟩ := Prod.mk.inj (Except.ok.inj (hput.symm.trans hput₁))
  obtain ⟨-, rfl⟩ := Prod.mk.inj heq
  rcases hat with hat | ⟨old, t₂, -, hdealt, hat⟩
  · exact hat.tidy ht
  · exact hat.tidy (hdealt.tidy ht).1

theorem Tidy.of_update (ht : t.Tidy) {ret : Option UInt64} (hupdate : t.update k v = .ok (ret, t')) :
    t'.Tidy := by
  obtain ⟨c, -, hp, heq, -⟩ := ht.exec_eq k v
  obtain ⟨-, rfl⟩ := Prod.mk.inj (Except.ok.inj (hupdate.symm.trans heq))
  exact ht.setBuncket (UnSortBuncket.entries_update.trans_le hp.le)

theorem Tidy.of_delete (ht : t.Tidy) {ret : Option UInt64} (hdelete : t.delete k = .ok (ret, t')) :
    t'.Tidy := by
  obtain ⟨c, -, hp, -, heq⟩ := ht.exec_eq k 0
  obtain ⟨-, rfl⟩ := Prod.mk.inj (Except.ok.inj (hdelete.symm.trans heq))
  exact ht.setBuncket (UnSortBuncket.entries_delete_le.trans hp.le)

theorem Tidy.of_expand (ht : t.Tidy) {i : ℕ} {g g' : Group} (hget : t.groupSpace[i]? = some g)
    (hexp : g.expand group t.heap = .ok g') :
    Tidy { t with groupSpace := t.groupSpace.set i g' } := by
  obtain ⟨hi, -⟩ := List.getElem?_eq_some_iff.mp hget
  have hg := ht.group g (List.mem_of_getElem? hget)
  have hne : g.entrySpace ≠ [] := by
    intro hnil
    rw [Group.expand, Group.adjustEntryKey, hnil] at hexp
    cases hexp
  obtain ⟨g₁, hexp₁, hr, -⟩ := hg.wf.exists_expand hne t.heap group
  obtain rfl := Except.ok.inj (hexp.symm.trans hexp₁)
  exact ht.set hi ⟨hr.wf, hr.sane hg.sane⟩ hr.ne (.refl _)

theorem Tidy.of_expandTree (ht : t.Tidy) (hexp : t.expandTree group root = .ok t') : t'.Tidy := by
  obtain ⟨old, t₁, hexp₁, hdealt⟩ := ht.exists_dealt group root
  obtain rfl := Except.ok.inj (hexp.symm.trans hexp₁)
  exact (hdealt.tidy ht).1

end NaliTree

end NaliStore
