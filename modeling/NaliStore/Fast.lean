import NaliStore.Retries
import NaliStore.Insert
import NaliStore.Loose

/-!
# The fast and the slow lookup

`Get` first asks the group that the root model guesses, and takes its answer when that group
has the key (`find_fast`); only then does it look for the group of the key (`find_slow`). The
first look compares the key with `min_key`, which `Init` leaves as the memory has it and which
neither `Put` nor `group::expand` keeps up to date; the second compares it with the first entry
key of the group.

The two agree whatever `min_key` is, because no group has a key below its first entry key.
This is not kept for itself: adjusting a first entry key, re-packing and expanding the tree
rely on the order of all cells, up to the repeated keys that a `Put` does not look for
(`Nali.Settled`).
-/

namespace NaliStore

open Routing Runs

namespace Nali

variable {s s' : Nali} {models : Models} {k v : UInt64} {g g' : Group} {h : Heap}

/-- The order of an index whose keys may be repeated. -/
structure Settled (s : Nali) : Prop where
  /-- groups of B entries -/
  tidy : s.toTree.Tidy
  /-- the cells are in order -/
  loose : Loose s.heap s.cells
  /-- the root model does not guess too low -/
  guided : s.Guided

theorem Settled.wf (hs : s.Settled) (g : Group) (hg : g ∈ s.groupSpace) : g.WF :=
  (hs.tidy.group g hg).wf

theorem Settled.exists_located (hs : s.Settled) (k : UInt64) :
    ∃ gpre g gpost, s.Located k gpre g gpost :=
  hs.guided.exists_located hs.wf hs.loose.rise hs.tidy.ne k

/-- **No group has a key below its first entry key.** -/
theorem Settled.entryKey_le (hs : s.Settled) (hg : g ∈ s.groupSpace) {c : Cell} (hc : c ∈ g.cells)
    (hk : (s.heap.bunckets c.pointer).Reads k) : g.entryKey 0 ≤ k :=
  (Nali.entryKey_le (hs.wf g hg) ((List.pairwise_flatMap.mp hs.loose.rise).1 g hg) hc).trans
    (hs.loose.lower c (List.mem_flatMap.mpr ⟨g, hg, hc⟩) k hk)

/-! ## The lookups -/

/-- `find_group` stays at the guessed group when the key is not below it. -/
theorem findGroup_of_guess {i : ℕ} (hi : s.model.groupId s.nrGroups k = i)
    (hget : s.groupSpace[i]? = some g) (hne : g.nrEntries ≠ 0) (hle : g.entryKey 0 ≤ k) :
    s.findGroup k = .ok i := by
  have hdown : findDown s.groupSpace k i = .ok i := by
    cases i with
    | zero => rfl
    | succ i =>
      have hstop : ¬ (g.nrEntries = 0 ∨ k < g.entryKey 0) := by
        rintro (hempty | hlt)
        · exact hne hempty
        · exact absurd hle (not_le_of_gt hlt)
      rw [findDown, hget]
      exact if_neg hstop
  obtain ⟨gpre, gpost, heq, hlen, -⟩ := exists_append_cons hget
  have hdrop : s.groupSpace.drop i = g :: gpost := by rw [heq, ← hlen, List.drop_left]
  rw [findGroup, findGroupFrom, hi, hdown]
  simp only [bind, Except.bind, hdrop, findUp, if_neg hne]

theorem Settled.exists_findSlow (hs : s.Settled) (k : UInt64) : ∃ r, s.findSlow k = .ok r := by
  obtain ⟨gpre, g, gpost, hloc⟩ := hs.exists_located k
  obtain ⟨b, -, hgot, -⟩ := (hs.wf g hloc.mem).exec_eq hloc.ne s.heap k 0
  refine ⟨(s.heap.bunckets (b.entrys (b.findPos k)).pointer).get k, ?_⟩
  rw [findSlow, onGroup_eq hloc.find hloc.groupAt_eq, hgot]

/-- **`Get`** returns what `find_slow` returns. -/
theorem Settled.get_eq (hs : s.Settled) (k : UInt64) : s.get k = s.findSlow k := by
  have hpos : 0 < s.groupSpace.length := by
    obtain ⟨g, hg, -⟩ := hs.tidy.ne
    exact List.length_pos_of_mem hg
  obtain ⟨i, hi⟩ : ∃ i, s.model.groupId s.nrGroups k = i := ⟨_, rfl⟩
  obtain ⟨g, hget⟩ : ∃ g, s.groupSpace[i]? = some g :=
    ⟨_, List.getElem?_eq_getElem (hi ▸ RootModel.groupId_lt hpos k)⟩
  have hat : s.groupAt i = .ok g := groupIn_eq hget
  have hmem := List.mem_of_getElem? hget
  simp only [get, findFast, hi, hat, bind, Except.bind, Group.fastFail]
  split
  · rename_i e he
    split at he
    · cases he
    · rename_i hfast
      rw [not_or] at hfast
      obtain ⟨b, -, hgot, -⟩ := (hs.wf g hmem).exec_eq
        (fun hnil => hfast.1 (by rw [Group.nrEntries, hnil]; rfl)) s.heap k 0
      rw [hgot] at he
      cases he
  · rename_i r hr
    cases r with
    | none => rfl
    | some v =>
      split at hr
      · cases hr
      · rename_i hfast
        rw [not_or] at hfast
        have hne : g.entrySpace ≠ [] := fun hnil =>
          hfast.1 (by rw [Group.nrEntries, hnil]; rfl)
        -- the key is in a bucket of the group, so it is not below the first entry key
        obtain ⟨b, hb, hgot, -⟩ := (hs.wf g hmem).exec_eq hne s.heap k 0
        have hbmem := List.mem_of_getElem? hb
        have hc : (b.entrys (b.findPos k)).toCell ∈ g.cells := List.mem_flatMap.mpr ⟨b, hbmem,
          PointerBEntry.mem_cells.mpr ⟨_, ((hs.wf g hmem).entry b hbmem).findPos_lt k, rfl⟩⟩
        have hreads : (s.heap.bunckets (b.entrys (b.findPos k)).pointer).Reads k := by
          rw [hgot] at hr
          by_contra hnot
          have hnone := UnSortBuncket.get_eq_none.mpr fun w hw => hnot hw.reads
          rw [hnone] at hr
          cases hr
        have hle := hs.entryKey_le hmem hc hreads
        rw [findSlow, onGroup_eq (findGroup_of_guess hi hget hfast.1 hle) hat]
        exact hr.symm

/-! ## The order is kept -/

/-- The first loop of `ExpandTree` keeps the order. -/
theorem loose_adjusted {groups groups' : List Group}
    (hall : List.Forall₂ (Adjusted h) groups groups') : ∀ pre : List Cell,
    Loose h (pre ++ groups.flatMap Group.cells) → Loose h (pre ++ groups'.flatMap Group.cells) := by
  induction hall with
  | nil => exact fun _ hl => hl
  | @cons g g' groups groups' ha _ ih =>
    intro pre hl
    rw [List.flatMap_cons] at hl ⊢
    have hl' : Loose h (pre ++ (g'.cells ++ groups.flatMap Group.cells)) := by
      rcases ha with ⟨rfl, -⟩ | hr
      · exact hl
      · exact hr.loose hl
    rw [← List.append_assoc] at hl' ⊢
    exact ih _ hl'

/-- Changing a bucket whose keys all were there. -/
theorem Settled.setBuncket (hs : s.Settled) {c : Cell} (hc : c ∈ s.cells) {b : UnSortBuncket}
    (hle : b.entries ≤ UnSortBuncket.maxEntries)
    (hb : ∀ k, b.Reads k → (s.heap.bunckets c.pointer).Reads k) :
    Settled { s with heap := s.heap.set c.pointer b } := by
  refine ⟨hs.tidy.setBuncket hle, ?_, hs.guided⟩
  obtain ⟨pre, post, heq⟩ := List.append_of_mem hc
  have hl := hs.loose
  rw [heq] at hl
  have hl' := hl.shrink hb
  rw [← heq] at hl'
  exact hl'

/-- A group of the index is replaced. -/
theorem Settled.setGroup (hs : s.Settled) {gpre gpost : List Group} {h' : Heap}
    (heq : s.groupSpace = gpre ++ g :: gpost) (hne : g.entrySpace ≠ []) (hg' : g'.Tidy h')
    (hne' : g'.entrySpace ≠ []) (hkeeps : s.heap.Keeps h')
    (hl : Loose h' (gpre.flatMap Group.cells ++ (g'.cells ++ gpost.flatMap Group.cells)))
    (hfirst : gpre.flatMap Group.cells = [] ∨ g.entryKey 0 ≤ g'.entryKey 0) :
    Settled { s with groupSpace := gpre ++ g' :: gpost, heap := h' } := by
  have hset : s.groupSpace.set gpre.length g' = gpre ++ g' :: gpost := by
    rw [heq, List.set_append_right _ _ le_rfl, Nat.sub_self]
    rfl
  refine ⟨?_, ?_, hs.guided.set hs.wf heq hne hfirst⟩
  · have hlt : gpre.length < s.toTree.groupSpace.length := by
      have hlen : s.toTree.groupSpace = gpre ++ g :: gpost := heq
      rw [hlen, List.length_append, List.length_cons]
      omega
    have htidy := hs.tidy.set hlt hg' hne' hkeeps
    rw [show s.toTree.groupSpace = s.groupSpace from rfl, hset] at htidy
    exact htidy
  · rw [cells, List.flatMap_append, List.flatMap_cons]
    exact hl

theorem cells_around {gpre gpost : List Group} (heq : s.groupSpace = gpre ++ g :: gpost) :
    s.cells = gpre.flatMap Group.cells ++ (g.cells ++ gpost.flatMap Group.cells) := by
  rw [cells, heq, List.flatMap_append, List.flatMap_cons]

/-- Re-packing a group. -/
theorem Settled.raised (hs : s.Settled) {gpre gpost : List Group}
    (heq : s.groupSpace = gpre ++ g :: gpost) (hne : g.entrySpace ≠ [])
    (hr : Group.Raised s.heap g g') :
    Settled { s with groupSpace := gpre ++ g' :: gpost } := by
  have hmem : g ∈ s.groupSpace := heq ▸ List.mem_append_right _ (List.mem_cons_self ..)
  have hl := hs.loose
  rw [cells_around heq] at hl
  exact hs.setGroup heq hne ⟨hr.wf, hr.sane (hs.tidy.group g hmem).sane⟩ hr.ne (.refl _) (hr.loose hl)
    (.inr (hr.entryKey_le (hs.wf g hmem) hl))

/-- A `Put` of the tree is one of the group of the key, as it is or re-packed. -/
theorem Settled.putAt_cases (hs : s.Settled) {t' : NaliTree} (hp : s.toTree.PutAt k v t') :
    ∃ gpre g gpost g₁ hasSplit g' h', s.Located k gpre g gpost ∧
      (g₁ = g ∨ Group.Raised s.heap g g₁) ∧ g₁.Tidy s.heap ∧ g₁.PutAt s.heap k v hasSplit g' h' ∧
      t' = toTree { s with groupSpace := gpre ++ g' :: gpost, heap := h' } := by
  obtain ⟨i, g₀, g₁, hasSplit, g', h', hfind, hget, hne, hg₁, htidy, hat, rfl⟩ := hp
  obtain ⟨gpre, g, gpost, hloc⟩ := hs.exists_located k
  obtain rfl : i = gpre.length := Except.ok.inj (hfind.symm.trans hloc.find)
  obtain rfl : g₀ = g := by
    have hidx : s.groupSpace[gpre.length]? = some g := hloc.getElem?_length
    exact Option.some.inj (hget.symm.trans hidx)
  refine ⟨gpre, g₀, gpost, g₁, hasSplit, g', h', hloc, hg₁.imp id ?_, htidy, hat, ?_⟩
  · rintro ⟨train, hexp⟩
    obtain ⟨g₂, hexp₂, hr, -⟩ := (hs.wf g₀ hloc.mem).exists_expand hloc.ne s.heap train
    obtain rfl := Except.ok.inj (hexp.symm.trans hexp₂)
    exact hr
  · rw [← hloc.set_eq]
    rfl

/-- The order of the cells with the group of a key re-packed. -/
theorem Settled.loose_around (hs : s.Settled) {gpre gpost : List Group} {g₁ : Group}
    (hloc : s.Located k gpre g gpost) (hg₁ : g₁ = g ∨ Group.Raised s.heap g g₁) :
    Loose s.heap (gpre.flatMap Group.cells ++ (g₁.cells ++ gpost.flatMap Group.cells)) ∧
      g.entryKey 0 ≤ g₁.entryKey 0 := by
  have hl := hs.loose
  rw [hloc.cells_eq] at hl
  rcases hg₁ with rfl | hr
  · exact ⟨hl, le_rfl⟩
  · exact ⟨hr.loose hl, hr.entryKey_le (hs.wf g hloc.mem) hl⟩

/-- What is before the group of a key is not above the key. -/
theorem Settled.le_of_before (hs : s.Settled) {gpre gpost : List Group}
    (hloc : s.Located k gpre g gpost) :
    ∀ d ∈ gpre.flatMap Group.cells, ∀ x, (s.heap.bunckets d.pointer).Reads x → x ≤ k := by
  intro d hd x hx
  have hl := hs.loose
  rw [hloc.cells_eq] at hl
  rcases hloc.below with hnil | hle
  · rw [hnil] at hd
    exact absurd hd List.not_mem_nil
  · exact (Group.le_entryKey_of_loose (hs.wf g hloc.mem) hloc.ne hl hd hx).trans hle

/-- **A `Put` that has come to a bucket with room** keeps the order. -/
theorem Settled.putAt (hs : s.Settled) {t' : NaliTree} (hp : s.toTree.PutAt k v t') :
    ∃ s' : Nali, s'.toTree = t' ∧ s'.Settled := by
  obtain ⟨gpre, g, gpost, g₁, hasSplit, g', h', hloc, hg₁, htidy, hat, rfl⟩ := hs.putAt_cases hp
  obtain ⟨hl₁, hraised⟩ := hs.loose_around hloc hg₁
  obtain ⟨hl', hmin⟩ := hat.loose htidy hl₁ (fun d hd => (hloc.above d hd).le) (hs.le_of_before hloc)
  obtain ⟨htidy', hkeeps⟩ := hat.tidy htidy
  exact ⟨_, rfl, hs.setGroup hloc.eq hloc.ne htidy' hat.ne hkeeps hl' (hloc.below.imp id fun hle =>
    (le_min hraised hle).trans hmin)⟩

/-- The cells after `ExpandTree`: the adjusted ones, dealt out by the guesses. -/
theorem cells_dealt {old : List Group} (hd : NaliTree.Dealt models.group s.toTree old s'.toTree) :
    s'.cells = (List.range s'.nrGroups).flatMap fun i =>
      (old.flatMap Group.cells).filter fun c => s'.model.groupId s'.nrGroups c.entryKey = i := by
  rw [cells, show s'.groupSpace = _ from hd.groups, List.flatMap_map]
  refine congrArg (List.flatMap · _) (funext fun i => ?_)
  rw [dealtGroup_cells, ← NaliTree.map_eentries, List.filter_map]
  rfl

/-- **`ExpandTree`** keeps the order: the root model guesses in the order of the keys. -/
theorem Settled.dealt (hs : s.Settled) {old : List Group}
    (hd : NaliTree.Dealt models.group s.toTree old s'.toTree) : s'.Settled := by
  obtain ⟨htidy, -⟩ := hd.tidy hs.tidy
  have hheap : s'.heap = s.heap := hd.heap
  have hold : Loose s.heap (old.flatMap Group.cells) :=
    loose_adjusted hd.adjusted [] hs.loose
  refine ⟨htidy, ?_, fun i g hget hne _ => ?_⟩
  · rw [cells_dealt hd, hheap]
    exact hold.deal (fun c d hle => RootModel.groupId_mono hle) _
  · -- every cell is in the group that is guessed for it
    obtain ⟨c, tail, hfirst, hkey⟩ := Group.exists_first
      (htidy.group g (List.mem_of_getElem? hget)).wf.entry hne
    rw [← hkey]
    apply le_of_eq
    have hget' : s'.toTree.groupSpace[i]? = some g := hget
    rw [hd.groups, List.getElem?_map, Option.map_eq_some_iff] at hget'
    obtain ⟨j, hj, rfl⟩ := hget'
    obtain ⟨hlt, rfl⟩ := List.getElem?_eq_some_iff.mp hj
    rw [List.getElem_range] at hfirst
    have hc : c ∈ (dealtGroup models.group (dealtBy (guessGroup s'.toTree.predict
        s'.toTree.nrGroups) (old.flatMap Group.eentries) i)).cells := by
      rw [hfirst]
      exact List.mem_cons_self ..
    rw [dealtGroup_cells] at hc
    obtain ⟨e, he, rfl⟩ := List.mem_map.mp hc
    exact (of_decide_eq_true (List.mem_filter.mp he).2).symm

/-! ## The indexes that are reached -/

theorem toTree_injective : Function.Injective toTree := by
  rintro ⟨groups, ⟨predict, _⟩, heap⟩ ⟨groups', ⟨predict', _⟩, heap'⟩ heq
  cases heq
  rfl

theorem toTree_update (s : Nali) : s.toTree.update k v =
    (s.update k v).map fun r => (r.1, r.2.toTree) := by
  have htree : s.toTree.update k v = (onGroup s.groupSpace k (s.model.groupId s.nrGroups k)
    (fun g => g.update s.heap k v) >>= fun r => .ok (r.1, { s.toTree with heap := r.2 })) := rfl
  rw [htree, update]
  cases onGroup s.groupSpace k (s.model.groupId s.nrGroups k) fun g => g.update s.heap k v <;> rfl

theorem toTree_delete (s : Nali) : s.toTree.delete k =
    (s.delete k).map fun r => (r.1, r.2.toTree) := by
  have htree : s.toTree.delete k = (onGroup s.groupSpace k (s.model.groupId s.nrGroups k)
    (fun g => g.delete s.heap k) >>= fun r => .ok (r.1, { s.toTree with heap := r.2 })) := rfl
  rw [htree, delete]
  cases onGroup s.groupSpace k (s.model.groupId s.nrGroups k) fun g => g.delete s.heap k <;> rfl

/-- The indexes that are reached from `Init`. Keys may be put again, and the models that are
trained in a call may be any, as long as the root model guesses in the order of the keys. -/
inductive Reached : Nali → Prop
  /-- `Init`, in memory that holds anything -/
  | init (models : Models) (model : RootModel) (heap : Heap) (minKey : UInt64) :
      Reached (init models model heap minKey)
  /-- `Put` -/
  | put {s s' : Nali} {models : Models} {k v : UInt64} {ret : Status} :
      Reached s → s.put models k v = .ok (ret, s') → Reached s'
  /-- `Update` -/
  | update {s s' : Nali} {k v : UInt64} {ret : Option UInt64} :
      Reached s → s.update k v = .ok (ret, s') → Reached s'
  /-- `Delete` -/
  | delete {s s' : Nali} {k : UInt64} {ret : Option UInt64} :
      Reached s → s.delete k = .ok (ret, s') → Reached s'
  /-- `group::expand` of any group -/
  | expand {s : Nali} {train : Train} {i : ℕ} {g g' : Group} :
      Reached s → s.groupSpace[i]? = some g → g.expand train s.heap = .ok g' →
      Reached { s with groupSpace := s.groupSpace.set i g' }
  /-- `ExpandTree` -/
  | expandTree {s s' : Nali} {models : Models} :
      Reached s → s.expandTree models = .ok s' → Reached s'

theorem settled_init (models : Models) (model : RootModel) (heap : Heap) (minKey : UInt64) :
    (init models model heap minKey).Settled := by
  refine ⟨NaliTree.tidy_init models.group model.predict heap minKey, ⟨fun c hc => ?_, fun c hc k hk => ?_,
    ?_⟩, fun i g hget hne hbefore => ?_⟩
  · obtain rfl : c = ⟨0, heap.next⟩ := List.mem_singleton.mp hc
    exact Nat.lt_succ_self heap.next
  · obtain rfl : c = ⟨0, heap.next⟩ := List.mem_singleton.mp hc
    exact UInt64.zero_le
  · exact List.pairwise_singleton _ (⟨0, heap.next⟩ : Cell)
  · -- there is one group only
    obtain ⟨hi, -⟩ := List.getElem?_eq_some_iff.mp hget
    have hlen : (init models model heap minKey).groupSpace.length = 1 := rfl
    obtain ⟨j, hj, -⟩ := hbefore
    omega

theorem Settled.expandTree (hs : s.Settled) (hexp : s.expandTree models = .ok s') :
    s'.Settled := by
  obtain ⟨old, t', hexp', hdealt⟩ := hs.tidy.exists_dealt models.group models.rootTrain
  rw [toTree_expandTree, hexp] at hexp'
  obtain rfl := Except.ok.inj hexp'
  exact hs.dealt hdealt

/-- **`Put`** finishes, and keeps the order. -/
theorem Settled.exists_put (hs : s.Settled) (models : Models) (k v : UInt64) :
    ∃ s', s.put models k v = .ok (.ok, s') ∧ s'.Settled := by
  obtain ⟨t', made, hput, hat, -⟩ := hs.tidy.put_spec models.group models.rootTrain k v
  have herase : _ = (s.put models k v).map fun r => (r.1, r.2.toTree) := toTree_putTrace 2 s []
  rw [show s.toTree.putTrace models.group models.rootTrain k v 2 [] = _ from hput] at herase
  cases hs' : s.put models k v with
  | error e =>
    rw [hs'] at herase
    cases herase
  | ok r =>
    rw [hs'] at herase
    obtain ⟨ret, s'⟩ := r
    obtain ⟨rfl, rfl⟩ := Prod.mk.inj (Except.ok.inj herase)
    refine ⟨s', rfl, ?_⟩
    rcases hat with hat | ⟨old, t₁, hexp, hdealt, hat⟩
    · obtain ⟨s₁, heq, hs₁⟩ := hs.putAt hat
      obtain rfl := toTree_injective heq
      exact hs₁
    · -- after the tree has been expanded
      rw [toTree_expandTree] at hexp
      cases hexp' : s.expandTree models with
      | error e =>
        rw [hexp'] at hexp
        cases hexp
      | ok s₂ =>
        rw [hexp'] at hexp
        obtain rfl := Except.ok.inj hexp
        obtain ⟨s₁, heq, hs₁⟩ := (hs.dealt hdealt).putAt hat
        obtain rfl := toTree_injective heq
        exact hs₁

/-- **The order is kept in every index that is reached.** -/
theorem Reached.settled (hs : s.Reached) : s.Settled := by
  induction hs with
  | init models model heap minKey => exact settled_init models model heap minKey
  | @put s s' models k v ret _ hput ih =>
    obtain ⟨s₁, hput₁, hs₁⟩ := ih.exists_put models k v
    obtain ⟨-, rfl⟩ := Prod.mk.inj (Except.ok.inj (hput.symm.trans hput₁))
    exact hs₁
  | @update s s' k v ret _ hupdate ih =>
    obtain ⟨c, hc, hp, heq, -⟩ := ih.tidy.exec_eq k v
    rw [toTree_update, hupdate] at heq
    obtain ⟨-, heq⟩ := Prod.mk.inj (Except.ok.inj heq)
    obtain rfl : s' = { s with
        heap := s.heap.set c.pointer ((s.heap.bunckets c.pointer).update k v).2 } :=
      toTree_injective heq
    exact ih.setBuncket hc (UnSortBuncket.entries_update.trans_le hp.le) fun _ =>
      UnSortBuncket.update_reads
  | @delete s s' k ret _ hdelete ih =>
    obtain ⟨c, hc, hp, -, heq⟩ := ih.tidy.exec_eq k 0
    rw [toTree_delete, hdelete] at heq
    obtain ⟨-, heq⟩ := Prod.mk.inj (Except.ok.inj heq)
    obtain rfl : s' = { s with
        heap := s.heap.set c.pointer ((s.heap.bunckets c.pointer).delete k).2 } :=
      toTree_injective heq
    exact ih.setBuncket hc (UnSortBuncket.entries_delete_le.trans hp.le) fun _ =>
      UnSortBuncket.delete_reads
  | @expand s train i g g' _ hget hexp ih =>
    have hne : g.entrySpace ≠ [] := by
      intro hnil
      rw [Group.expand, Group.adjustEntryKey, hnil] at hexp
      cases hexp
    obtain ⟨g₁, hexp₁, hr, -⟩ := (ih.wf g (List.mem_of_getElem? hget)).exists_expand hne s.heap train
    obtain rfl := Except.ok.inj (hexp.symm.trans hexp₁)
    obtain ⟨gpre, gpost, heq, -, hset⟩ := exists_append_cons hget
    rw [hset]
    exact ih.raised heq hne hr
  | expandTree _ hexp ih => exact ih.expandTree hexp

/-! ## Whatever min_key is -/

/-- The index with other `min_key`s. -/
def withMinKeys (s : Nali) (minKey : ℕ → UInt64) : Nali :=
  { s with groupSpace := s.groupSpace.mapIdx fun i g => { g with minKey := minKey i } }

theorem Settled.withMinKeys (hs : s.Settled) (minKey : ℕ → UInt64) :
    (s.withMinKeys minKey).Settled := by
  set s' := s.withMinKeys minKey with hs'
  have hget : ∀ i : ℕ, s'.groupSpace[i]? =
      s.groupSpace[i]?.map fun g : Group => { g with minKey := minKey i } :=
    fun i => List.getElem?_mapIdx
  have hold : ∀ (i : ℕ) (g' : Group), s'.groupSpace[i]? = some g' →
      ∃ g, s.groupSpace[i]? = some g ∧ g' = { g with minKey := minKey i } := by
    intro i g' hg'
    rw [hget, Option.map_eq_some_iff] at hg'
    obtain ⟨g, hg, rfl⟩ := hg'
    exact ⟨g, hg, rfl⟩
  have hcells : s'.cells = s.cells := by
    rw [cells, cells, List.flatMap_def, List.flatMap_def]
    refine congrArg List.flatten (List.ext_getElem? fun i => ?_)
    rw [List.getElem?_map, List.getElem?_map, hget, Option.map_map]
    rfl
  refine ⟨⟨fun g' hg' => ?_, ?_⟩, ?_, fun i g' hg' hne hbefore => ?_⟩
  · obtain ⟨i, hi⟩ := List.mem_iff_getElem?.mp hg'
    obtain ⟨g, hg, rfl⟩ := hold i g' hi
    have htidy := hs.tidy.group g (List.mem_of_getElem? hg)
    exact ⟨⟨htidy.wf.entry, htidy.wf.count⟩, htidy.sane⟩
  · obtain ⟨g, hg, hne⟩ := hs.tidy.ne
    obtain ⟨i, hi⟩ := List.mem_iff_getElem?.mp hg
    have hi' := hget i
    rw [show s.groupSpace[i]? = some g from hi, Option.map_some] at hi'
    exact ⟨_, List.mem_of_getElem? hi', hne⟩
  · rw [hcells]
    exact hs.loose
  · have hlen : s'.nrGroups = s.nrGroups := List.length_mapIdx
    obtain ⟨g, hg, rfl⟩ := hold i g' hg'
    obtain ⟨j, hj, y, hy, hyne⟩ := hbefore
    obtain ⟨z, hz, rfl⟩ := hold j y hy
    rw [hlen]
    exact hs.guided i g hg hne ⟨j, hj, z, hz, hyne⟩

/-- **The fast lookup agrees with the slow one.** In every index that is reached, for every key
and whatever the `min_key`s of the groups are, `Get` returns what `find_slow` returns. -/
theorem get_eq_findSlow (hs : s.Reached) (minKey : ℕ → UInt64) (k : UInt64) :
    ∃ r, (s.withMinKeys minKey).findSlow k = .ok r ∧ (s.withMinKeys minKey).get k = .ok r := by
  have hs' := hs.settled.withMinKeys minKey
  obtain ⟨r, hr⟩ := hs'.exists_findSlow k
  exact ⟨r, hr, (hs'.get_eq k).trans hr⟩

/-- After two `Put`s of one key, with a `min_key` above it. -/
theorem get_eq_findSlow_repeated :
    let models : Models := ⟨fun _ _ => 0, fun _ => ⟨fun _ => 0, fun _ => Int.le_refl _⟩⟩
    let s := init models (models.root []) ⟨0, fun _ => ⟨0, fun _ => (0, 0)⟩⟩ 0
    ∃ s₁ s₂, s.put models 5 1 = .ok (.ok, s₁) ∧ s₁.put models 5 2 = .ok (.ok, s₂) ∧ s₂.Reached ∧
      ∃ r, (s₂.withMinKeys fun _ => 7).findSlow 5 = .ok r ∧
        (s₂.withMinKeys fun _ => 7).get 5 = .ok r := by
  intro models s
  have hs : s.Reached := .init ..
  obtain ⟨s₁, hput₁, -⟩ := hs.settled.exists_put models 5 1
  have hs₁ : s₁.Reached := hs.put hput₁
  obtain ⟨s₂, hput₂, -⟩ := hs₁.settled.exists_put models 5 2
  have hs₂ : s₂.Reached := hs₁.put hput₂
  exact ⟨s₁, s₂, hput₁, hput₂, hs₂, get_eq_findSlow hs₂ _ 5⟩

end Nali

end NaliStore
