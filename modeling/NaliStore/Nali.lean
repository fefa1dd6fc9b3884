import NaliStore.Group

/-!
# The learned index

`Nali` of `src/src/nali.h`, used by one thread: groups under a root model. The root model
guesses the group of a key; from there `find_group` goes down to a group whose first entry
key is at most the key. This finds the group as long as the guesses do not decrease with the
key, which is all that is asked of the root model between two calls of `ExpandTree`. A `Put`
into a group that has grown too large expands the tree: the root model is trained anew and
the cells are dealt out to new groups by its guesses.
-/

namespace NaliStore

open Routing Runs

/-- `min_entry_count` -/
def minEntryCount : ℕ := 64

/-- `model.predict(key) / min_entry_count`, clamped to the groups there are. The division is
one of `size_t`, to which the guess is converted, and its result is converted to `int`. -/
def guessGroup (predict : UInt64 → Int32) (nrGroups : ℕ) (key : UInt64) : ℕ :=
  let quotient : ℤ := (predict key).toInt % 2 ^ 64 / minEntryCount
  let groupId := quotient.bmod (2 ^ 32)
  (min (max 0 groupId) ((nrGroups : ℤ) - 1)).toNat

theorem guessGroup_lt {predict : UInt64 → Int32} {n : ℕ} (hn : 0 < n) (k : UInt64) :
    guessGroup predict n k < n := by
  rw [guessGroup]
  omega

/-- The root model: its guesses do not decrease with the key. -/
structure RootModel where
  /-- `model.predict` -/
  predict : UInt64 → Int32
  /-- the guesses do not decrease -/
  mono : ∀ {a b : UInt64}, a ≤ b → (predict a).toInt ≤ (predict b).toInt

/-- The group the root model guesses. -/
def RootModel.groupId (m : RootModel) (nrGroups : ℕ) (key : UInt64) : ℕ :=
  guessGroup m.predict nrGroups key

namespace RootModel

variable {m : RootModel} {n : ℕ} {a b : UInt64}

/-- The detour through `size_t` is a division that rounds down. -/
theorem bmod_quotient (x : Int32) :
    (x.toInt % 2 ^ 64 / minEntryCount).bmod (2 ^ 32) = x.toInt / 64 := by
  have hlo : -2 ^ 31 ≤ x.toInt := Int32.le_toInt x
  have hhi : x.toInt < 2 ^ 31 := Int32.toInt_lt x
  have hmin : ((minEntryCount : ℕ) : ℤ) = 64 := rfl
  rw [hmin, Int.bmod]
  split <;> omega

theorem groupId_lt (hn : 0 < n) (k : UInt64) : m.groupId n k < n := guessGroup_lt hn k

/-- Groups are guessed in the order of the keys. -/
theorem groupId_mono (hab : a ≤ b) : m.groupId n a ≤ m.groupId n b := by
  have hle := m.mono hab
  simp only [groupId, guessGroup, bmod_quotient]
  omega

end RootModel

/-- How models are trained: arbitrary functions of the entry keys. -/
structure Models where
  /-- the model of a group -/
  group : Train
  /-- the root model -/
  root : List UInt64 → RootModel

/-- `Nali` -/
structure Nali where
  /-- `group_space` -/
  groupSpace : List Group
  /-- `model` -/
  model : RootModel
  /-- the memory of the buckets -/
  heap : Heap

namespace Group

/-- A `group` of zero bytes. -/
def zero : Group := ⟨[], 0, 0, fun _ => 0⟩

/-- `Init` of a group whose `min_key` is what the memory held. -/
def init (train : Train) (h : Heap) (minKey : UInt64) : Group × Heap :=
  let (b, h) := PointerBEntry.init h 0 8
  (⟨[b], 1, minKey, train [0]⟩, h)

/-- `inc_entry_count` -/
def incEntryCount (g : Group) : Group := { g with nextEntryCount := g.nextEntryCount + 1 }

/-- `append_entry`, to an array of `next_entry_count` -/
def appendEntry (g : Group) (entry : EEntry) : Except Fault Group :=
  if g.entrySpace.length < g.nextEntryCount then
    .ok { g with entrySpace := g.entrySpace ++ [.ofEEntry entry] }
  else .error .outOfBounds

/-- `re_tarin` -/
def retrain (train : Train) (g : Group) : Group :=
  { g with
    minKey := g.entryKey 0
    predict := train (g.entrySpace.map PointerBEntry.entryKey) }

end Group

namespace Nali

/-- `nr_groups_` -/
def nrGroups (s : Nali) : ℕ := s.groupSpace.length

/-- `Init`, in memory that holds anything -/
def init (models : Models) (model : RootModel) (heap : Heap) (minKey : UInt64) : Nali :=
  let (g, heap) := Group.init models.group heap minKey
  ⟨[g], model, heap⟩

/-- The first loop of `find_group`. -/
def findDown (groups : List Group) (key : UInt64) : ℕ → Except Fault ℕ
  | 0 => .ok 0
  | groupId + 1 =>
    match groups[groupId + 1]? with
    | none => .error .outOfBounds
    | some g =>
      if g.nrEntries = 0 ∨ key < g.entryKey 0 then findDown groups key groupId
      else .ok (groupId + 1)

/-- The second loop of `find_group`, over the groups from `groupId` on. -/
def findUp : List Group → ℕ → Except Fault ℕ
  | [], _ => .error .outOfBounds
  | g :: groups, groupId => if g.nrEntries = 0 then findUp groups (groupId + 1) else .ok groupId

/-- `find_group`, from the group that is guessed -/
def findGroupFrom (groups : List Group) (key : UInt64) (groupId : ℕ) : Except Fault ℕ := do
  let groupId ← findDown groups key groupId
  findUp (groups.drop groupId) groupId

/-- `group_space[group_id]` -/
def groupIn (groups : List Group) (groupId : ℕ) : Except Fault Group :=
  match groups[groupId]? with
  | some g => .ok g
  | none => .error .outOfBounds

/-- A call of the group that `find_group` finds. -/
def onGroup {α : Type} (groups : List Group) (key : UInt64) (groupId : ℕ)
    (call : Group → Except Fault α) : Except Fault α := do
  let groupId ← findGroupFrom groups key groupId
  let g ← groupIn groups groupId
  call g

/-- `find_group` -/
def findGroup (s : Nali) (key : UInt64) : Except Fault ℕ :=
  findGroupFrom s.groupSpace key (s.model.groupId s.nrGroups key)

/-- `group_space[group_id]` -/
def groupAt (s : Nali) (groupId : ℕ) : Except Fault Group := groupIn s.groupSpace groupId

/-- The first loop of `ExpandTree`: adjust the first entry keys. -/
def adjustGroups (h : Heap) : List Group → Except Fault (List Group)
  | [] => .ok []
  | g :: groups => do
    let g ← if g.nextEntryCount = 0 then .ok g else g.adjustEntryKey h
    let groups ← adjustGroups h groups
    .ok (g :: groups)

/-- The loop of `ExpandTree` that counts the cells of the new groups. -/
def countBy (place : UInt64 → ℕ) (groups : List Group) (entries : List EEntry) : List Group :=
  entries.foldl (fun groups e => groups.modify (place e.entryKey) Group.incEntryCount) groups

/-- `new_group_space[group_id].append_entry(entry)` -/
def appendAt (groups : List Group) (groupId : ℕ) (entry : EEntry) : Except Fault (List Group) :=
  match groups[groupId]? with
  | none => .error .outOfBounds
  | some g => do
    let g ← g.appendEntry entry
    .ok (groups.set groupId g)

/-- The loop of `ExpandTree` that deals out the cells of an old group. -/
def copyBy (place : UInt64 → ℕ) (groups : List Group) (entries : List EEntry) :
    Except Fault (List Group) :=
  entries.foldlM (fun groups e => appendAt groups (place e.entryKey) e) groups

/-- The cells are counted by the guesses of a root model. -/
def countEntries (m : RootModel) (nrGroups : ℕ) (groups : List Group) (entries : List EEntry) :
    List Group := countBy (m.groupId nrGroups) groups entries

/-- The cells are dealt out by the guesses of a root model. -/
def copyEntries (m : RootModel) (nrGroups : ℕ) (groups : List Group) (entries : List EEntry) :
    Except Fault (List Group) := copyBy (m.groupId nrGroups) groups entries

/-- The last loop of `ExpandTree`. -/
def retrainGroups (train : Train) (groups : List Group) : List Group :=
  groups.map fun g => if g.nextEntryCount = 0 then g else g.retrain train

/-- `ExpandTree` of groups: the new ones and the root model, which is trained by `root` and
guesses the group of a key, among so many, by `place`. -/
def expandGroups {Model : Type} (group : Train) (root : List UInt64 → Model)
    (place : Model → ℕ → UInt64 → ℕ) (h : Heap) (groups : List Group) :
    Except Fault (List Group × Model) := do
  let old ← adjustGroups h groups
  let entryCount := (old.map Group.nextEntryCount).sum
  let trained := (old.filter fun g => g.nextEntryCount ≠ 0).flatMap Group.eentries
  let model := root (trained.map fun e => e.entryKey)
  let newNrGroups := (entryCount + (minEntryCount - 1)) / minEntryCount
  let counted := countBy (place model newNrGroups) (List.replicate newNrGroups .zero)
    (old.flatMap Group.eentries)
  let copied ← old.foldlM (fun groups g => copyBy (place model newNrGroups) groups g.eentries)
    counted
  .ok (retrainGroups group copied, model)

/-- `ExpandTree` -/
def expandTree (models : Models) (s : Nali) : Except Fault Nali := do
  let (groups, model) ←
    expandGroups models.group models.root RootModel.groupId s.heap s.groupSpace
  .ok ⟨groups, model, s.heap⟩

/-- `Put` with a bound on the number of retries. -/
def putLoop (models : Models) (key value : UInt64) : ℕ → Nali → Except Fault (Status × Nali)
  | 0, _ => .error .diverges
  | fuel + 1, s => do
    let groupId ← s.findGroup key
    let g ← s.groupAt groupId
    let (ret, g, heap) ← g.put models.group s.heap key value
    let s := { s with groupSpace := s.groupSpace.set groupId g, heap }
    if ret = .full then do
      let s ← s.expandTree models
      putLoop models key value fuel s
    else .ok (ret, s)

/-- `Put`. After an `ExpandTree` no group is full, so there is one retry. -/
def put (models : Models) (s : Nali) (key value : UInt64) : Except Fault (Status × Nali) :=
  putLoop models key value 2 s

/-- `Update`: the old value, if the key is there. -/
def update (s : Nali) (key value : UInt64) : Except Fault (Option UInt64 × Nali) := do
  let (ret, heap) ← onGroup s.groupSpace key (s.model.groupId s.nrGroups key)
    fun g => g.update s.heap key value
  .ok (ret, { s with heap })

/-- `find_fast` -/
def findFast (s : Nali) (key : UInt64) : Except Fault (Option UInt64) := do
  let g ← s.groupAt (s.model.groupId s.nrGroups key)
  g.fastFail s.heap key

/-- `find_slow` -/
def findSlow (s : Nali) (key : UInt64) : Except Fault (Option UInt64) :=
  onGroup s.groupSpace key (s.model.groupId s.nrGroups key) fun g => g.get s.heap key

/-- `Get` -/
def get (s : Nali) (key : UInt64) : Except Fault (Option UInt64) := do
  match ← s.findFast key with
  | some value => .ok (some value)
  | none => s.findSlow key

/-- `Delete`: the old value, if the key is there. -/
def delete (s : Nali) (key : UInt64) : Except Fault (Option UInt64 × Nali) := do
  let (ret, heap) ← onGroup s.groupSpace key (s.model.groupId s.nrGroups key)
    fun g => g.delete s.heap key
  .ok (ret, { s with heap })

/-! ## The invariant -/

/-- The cells of the index. -/
def cells (s : Nali) : List Cell := s.groupSpace.flatMap Group.cells

/-- The root model does not guess groups below that of a key, the first group that is not
empty apart. -/
def Guided (s : Nali) : Prop :=
  ∀ i g, s.groupSpace[i]? = some g → g.entrySpace ≠ [] →
    (∃ j, j < i ∧ ∃ g', s.groupSpace[j]? = some g' ∧ g'.entrySpace ≠ []) →
      i ≤ s.model.groupId s.nrGroups (g.entryKey 0)

/-- The invariant of the index. -/
structure Inv (s : Nali) : Prop where
  /-- groups of B entries -/
  wf : ∀ g ∈ s.groupSpace, g.WF
  /-- the cells partition the keys -/
  cells : Cells s.heap s.cells
  /-- there is a cell -/
  ne : s.cells ≠ []
  /-- the root model does not guess too low -/
  model : s.Guided

/-! ## Finding the group -/

variable {s : Nali} {k v : UInt64} {c : Cell} {g : Group} {gpre gpost : List Group}

theorem groupIn_eq {groups : List Group} {groupId : ℕ} (hget : groups[groupId]? = some g) :
    groupIn groups groupId = .ok g := by
  rw [groupIn, hget]

/-- A call of the group of a key. -/
theorem onGroup_eq {α : Type} {groups : List Group} {guess groupId : ℕ}
    (hfind : findGroupFrom groups k guess = .ok groupId) (hat : groupIn groups groupId = .ok g)
    (call : Group → Except Fault α) : onGroup groups k guess call = call g := by
  rw [onGroup, hfind]
  simp only [bind, Except.bind, hat]

/-- The first loop stops at the last group, from the guess down, with a first entry key at
most the key, or at group 0. -/
theorem findDown_spec (groups : List Group) (k : UInt64) : ∀ i, i < groups.length →
    ∃ r ≤ i, findDown groups k i = .ok r ∧
      (∀ j g, r < j → j ≤ i → groups[j]? = some g → g.entrySpace ≠ [] → k < g.entryKey 0) ∧
      (r = 0 ∨ ∃ g, groups[r]? = some g ∧ g.entrySpace ≠ [] ∧ g.entryKey 0 ≤ k) := by
  intro i
  induction i with
  | zero => exact fun _ => ⟨0, le_rfl, rfl, fun j g hj hj' => by omega, .inl rfl⟩
  | succ i ih =>
    intro hi
    have hget : groups[i + 1]? = some groups[i + 1] := List.getElem?_eq_getElem hi
    rw [findDown, hget]
    simp only
    split
    · rename_i hskip
      obtain ⟨r, hr, hfind, habove, hbelow⟩ := ih (by omega)
      refine ⟨r, by omega, hfind, fun j g hj hj' hg hne => ?_, hbelow⟩
      rcases Nat.lt_or_eq_of_le hj' with hlt | rfl
      · exact habove j g hj (by omega) hg hne
      · obtain rfl := Option.some.inj (hget.symm.trans hg)
        rcases hskip with hempty | hlt
        · exact absurd (List.eq_nil_of_length_eq_zero hempty) hne
        · exact hlt
    · rename_i hstop
      rw [not_or] at hstop
      exact ⟨i + 1, le_rfl, rfl, fun j g hj hj' => by omega, .inr ⟨_, hget,
        fun hnil => hstop.1 (by rw [Group.nrEntries, hnil]; rfl), le_of_not_gt hstop.2⟩⟩

/-- The second loop skips empty groups. -/
theorem findUp_spec (groups : List Group) : ∀ i, (∃ g ∈ groups, g.entrySpace ≠ []) →
    ∃ gpre g gpost, groups = gpre ++ g :: gpost ∧ findUp groups i = .ok (i + gpre.length) ∧
      (∀ g ∈ gpre, g.entrySpace = []) ∧ g.entrySpace ≠ [] := by
  induction groups with
  | nil => rintro i ⟨g, hg, -⟩; cases hg
  | cons g groups ih =>
    intro i hex
    rw [findUp]
    by_cases hempty : g.nrEntries = 0
    · have hnil : g.entrySpace = [] := List.eq_nil_of_length_eq_zero hempty
      rw [if_pos hempty]
      obtain ⟨gpre, g', gpost, heq, hfind, hall, hne⟩ := ih (i + 1) (by
        obtain ⟨x, hx, hxne⟩ := hex
        rcases List.mem_cons.mp hx with rfl | hx
        · exact absurd hnil hxne
        · exact ⟨x, hx, hxne⟩)
      refine ⟨g :: gpre, g', gpost, by rw [heq]; rfl, ?_, fun x hx => ?_, hne⟩
      · rw [hfind, List.length_cons]
        congr 1
        omega
      · rcases List.mem_cons.mp hx with rfl | hx
        · exact hnil
        · exact hall x hx
    · rw [if_neg hempty]
      exact ⟨[], g, groups, rfl, rfl, fun x hx => absurd hx List.not_mem_nil,
        fun hnil => hempty (by rw [Group.nrEntries, hnil]; rfl)⟩

/-- The group of a key, between those before and after it. -/
structure Located (s : Nali) (k : UInt64) (gpre : List Group) (g : Group) (gpost : List Group) :
    Prop extends Around Group.cells Cell.entryKey s.groupSpace k gpre g gpost where
  /-- `find_group` finds it -/
  find : s.findGroup k = .ok gpre.length
  /-- it is not empty -/
  ne : g.entrySpace ≠ []
  /-- it is the first, or has cells at most the key -/
  below : gpre.flatMap Group.cells = [] ∨ g.entryKey 0 ≤ k

theorem entryKey_le (hwf : g.WF) (hle : g.cells.Pairwise fun c d => c.entryKey ≤ d.entryKey)
    (hc : c ∈ g.cells) : g.entryKey 0 ≤ c.entryKey := by
  have hne : g.entrySpace ≠ [] := Group.ne_of_cells (List.ne_nil_of_mem hc)
  obtain ⟨d, tail, hcells, hkey⟩ := Group.exists_first hwf.entry hne
  rw [hcells] at hle hc
  rw [← hkey]
  rcases List.mem_cons.mp hc with rfl | hc
  · exact le_rfl
  · exact (List.pairwise_cons.mp hle).1 c hc

theorem Inv.exists_nonempty (hs : s.Inv) : ∃ g ∈ s.groupSpace, g.entrySpace ≠ [] := by
  obtain ⟨c, hc⟩ := List.exists_mem_of_ne_nil _ hs.ne
  obtain ⟨g, hg, hcg⟩ := List.mem_flatMap.mp hc
  exact ⟨g, hg, Group.ne_of_cells (List.ne_nil_of_mem hcg)⟩

/-- `find_group` finds the group of the key when the entry keys do not descend. -/
theorem Guided.exists_located (hmodel : s.Guided) (hwf : ∀ g ∈ s.groupSpace, g.WF)
    (hrise : s.cells.Pairwise fun c d => c.entryKey ≤ d.entryKey)
    (hex : ∃ g ∈ s.groupSpace, g.entrySpace ≠ []) (k : UInt64) :
    ∃ gpre g gpost, s.Located k gpre g gpost := by
  have hpos : 0 < s.groupSpace.length := by
    obtain ⟨g, hg, -⟩ := hex
    exact List.length_pos_of_mem hg
  set id := s.model.groupId s.nrGroups k with hid
  obtain ⟨r, hr, hdown, hskip, hbelow⟩ :=
    findDown_spec s.groupSpace k id (RootModel.groupId_lt hpos k)
  -- there is a group to go up to
  have hup : ∃ g ∈ s.groupSpace.drop r, g.entrySpace ≠ [] := by
    rcases hbelow with rfl | ⟨g, hg, hne, -⟩
    · rw [List.drop_zero]
      exact hex
    · refine ⟨g, List.mem_iff_getElem?.mpr ⟨0, ?_⟩, hne⟩
      rw [List.getElem?_drop]
      exact hg
  obtain ⟨mid, g, gpost, heq, hfind, hempty, hne⟩ := findUp_spec (s.groupSpace.drop r) r hup
  obtain ⟨gpre, hgpre⟩ : ∃ gpre, gpre = s.groupSpace.take r ++ mid := ⟨_, rfl⟩
  have hsplit : s.groupSpace = gpre ++ g :: gpost := by
    rw [hgpre, List.append_assoc, ← heq, List.take_append_drop]
  have hlen : gpre.length = r + mid.length := by
    have hlt := hr.trans_lt (RootModel.groupId_lt (m := s.model) hpos k)
    rw [hgpre, List.length_append, List.length_take, Nat.min_eq_left (by exact hlt.le)]
  have hidx : s.groupSpace[gpre.length]? = some g := by
    rw [hsplit, List.getElem?_append_right le_rfl, Nat.sub_self]
    rfl
  refine ⟨gpre, g, gpost, ⟨hsplit, fun d hd => ?_⟩, ?_, hne, ?_⟩
  · obtain ⟨g', hg', hdg'⟩ := List.mem_flatMap.mp hd
    obtain ⟨t, ht⟩ := List.mem_iff_getElem?.mp hg'
    have hget : s.groupSpace[gpre.length + (t + 1)]? = some g' := by
      rw [hsplit, List.getElem?_append_right (Nat.le_add_right ..), Nat.add_sub_cancel_left]
      exact ht
    have hmem := List.mem_of_getElem? hget
    have hne' : g'.entrySpace ≠ [] := Group.ne_of_cells (List.ne_nil_of_mem hdg')
    have hle := entryKey_le (hwf g' hmem) ((List.pairwise_flatMap.mp hrise).1 g' hmem) hdg'
    refine lt_of_lt_of_le ?_ hle
    rcases Nat.lt_or_ge id (gpre.length + (t + 1)) with hlt | hge
    · -- the model does not guess below the group of the key
      by_contra hnot
      have hguess := hmodel _ g' hget hne' ⟨gpre.length, by omega, g, hidx, hne⟩
      have hmono : s.model.groupId s.nrGroups (g'.entryKey 0) ≤ id :=
        RootModel.groupId_mono (le_of_not_gt hnot)
      omega
    · exact hskip _ g' (by omega) hge hget hne'
  · rw [findGroup, findGroupFrom, hdown, hlen]
    exact hfind
  · rcases hbelow with rfl | ⟨g', hg', hne', hle⟩
    · -- everything before it is empty
      left
      rw [hgpre, List.take_zero, List.nil_append, List.flatMap_eq_nil_iff]
      intro x hx
      rw [Group.cells, hempty x hx]
      rfl
    · -- the first loop has stopped at it
      right
      cases mid with
      | nil =>
        rw [hlen, List.length_nil, Nat.add_zero] at hidx
        obtain rfl := Option.some.inj (hidx.symm.trans hg')
        exact hle
      | cons x mid =>
        have hx : s.groupSpace[r]? = some x := by
          have h0 : (s.groupSpace.drop r)[0]? = some x := by rw [heq]; rfl
          rwa [List.getElem?_drop] at h0
        obtain rfl := Option.some.inj (hx.symm.trans hg')
        exact absurd (hempty x (List.mem_cons_self ..)) hne'

/-- **`find_group` finds the group of the key.** -/
theorem Inv.exists_located (hs : s.Inv) (k : UInt64) :
    ∃ gpre g gpost, s.Located k gpre g gpost :=
  hs.model.exists_located hs.wf (hs.cells.sorted.imp le_of_lt) hs.exists_nonempty k

namespace Located

variable (hloc : s.Located k gpre g gpost)

include hloc

theorem groupAt_eq : s.groupAt gpre.length = .ok g := groupIn_eq hloc.getElem?_length

theorem set_eq (g' : Group) : s.groupSpace.set gpre.length g' = gpre ++ g' :: gpost :=
  hloc.set_length g'

theorem cells_eq : s.cells =
    gpre.flatMap Group.cells ++ (g.cells ++ gpost.flatMap Group.cells) :=
  hloc.flatMap_eq

/-- A key is routed through its group. -/
theorem routes (hg : g.WF) (hsorted : s.cells.Pairwise fun c d => c.entryKey < d.entryKey)
    (hroute : Routes Cell.entryKey g.cells k c) : Routes Cell.entryKey s.cells k c := by
  obtain ⟨d, tail, hfirst, hkey⟩ := Group.exists_first hg.entry hloc.ne
  refine hloc.toAround.routes hsorted (hloc.below.imp id fun hle => ⟨d, ?_, hkey ▸ hle⟩) hroute
  rw [hfirst]
  exact List.mem_cons_self ..

end Located

/-- **Every operation goes to the bucket of its key.** -/
theorem Inv.exists_route (hs : s.Inv) (k : UInt64) : ∃ c, Routes Cell.entryKey s.cells k c ∧
    s.findSlow k = .ok ((s.heap.bunckets c.pointer).get k) ∧
    (∀ w, s.update k w = .ok (((s.heap.bunckets c.pointer).update k w).1,
      { s with heap := s.heap.set c.pointer ((s.heap.bunckets c.pointer).update k w).2 })) ∧
    s.delete k = .ok (((s.heap.bunckets c.pointer).delete k).1,
      { s with heap := s.heap.set c.pointer ((s.heap.bunckets c.pointer).delete k).2 }) := by
  obtain ⟨gpre, g, gpost, hloc⟩ := hs.exists_located k
  have hg := hs.wf g hloc.mem
  have hsorted := hs.cells.sorted
  obtain ⟨c, hroute, hget, hupdate, hdelete⟩ :=
    hg.exists_route hloc.ne ((List.pairwise_flatMap.mp hsorted).1 g hloc.mem) k
  refine ⟨c, hloc.routes hg hsorted hroute, ?_, fun w => ?_, ?_⟩
  · rw [findSlow, onGroup_eq hloc.find hloc.groupAt_eq, hget]
  · rw [update, onGroup_eq hloc.find hloc.groupAt_eq, hupdate]
    rfl
  · rw [delete, onGroup_eq hloc.find hloc.groupAt_eq, hdelete]
    rfl

/-- What is found on the fast path is stored. -/
theorem Inv.findFast_spec (hs : s.Inv) (k : UInt64) :
    ∃ r, s.findFast k = .ok r ∧ ∀ v, r = some v → Stored s.heap s.cells k v := by
  have hpos : 0 < s.groupSpace.length := by
    obtain ⟨g, hg, -⟩ := hs.exists_nonempty
    exact List.length_pos_of_mem hg
  have hlt : s.model.groupId s.nrGroups k < s.groupSpace.length := RootModel.groupId_lt hpos k
  have hget : s.groupAt (s.model.groupId s.nrGroups k) =
      .ok (s.groupSpace[s.model.groupId s.nrGroups k]) :=
    groupIn_eq (List.getElem?_eq_getElem hlt)
  set g := s.groupSpace[s.model.groupId s.nrGroups k] with hg
  have hmem : g ∈ s.groupSpace := List.getElem_mem hlt
  simp only [findFast, hget, bind, Except.bind, Group.fastFail]
  split
  · exact ⟨none, rfl, fun v hv => by cases hv⟩
  · rename_i hne
    rw [not_or] at hne
    have hgne : g.entrySpace ≠ [] := fun hnil => hne.1 (by rw [Group.nrEntries, hnil]; rfl)
    obtain ⟨c, hroute, hget, -, -⟩ := (hs.wf g hmem).exists_route hgne
      ((List.pairwise_flatMap.mp hs.cells.sorted).1 g hmem) k
    refine ⟨_, hget s.heap, fun v hv => ?_⟩
    have hc : c ∈ s.cells := List.mem_flatMap.mpr ⟨g, hmem, hroute.mem⟩
    exact ⟨c, hc, (hs.cells.distinct c hc).get_eq.mp hv⟩

/-- **`Get`** returns what is stored. -/
theorem Inv.get_spec (hs : s.Inv) (k : UInt64) :
    ∃ r, s.get k = .ok r ∧ ∀ v, r = some v ↔ Stored s.heap s.cells k v := by
  obtain ⟨r, hfast, hr⟩ := hs.findFast_spec k
  simp only [get, hfast, bind, Except.bind]
  cases r with
  | some w =>
    have hw := hr w rfl
    refine ⟨some w, rfl, fun v => ⟨fun h => Option.some.inj h ▸ hw, fun hv => ?_⟩⟩
    rw [hs.cells.stored_unique hw hv]
  | none =>
    obtain ⟨c, hroute, hslow, -, -⟩ := hs.exists_route k
    exact ⟨_, hslow, fun v => hs.cells.get_eq hroute⟩

end Nali

end NaliStore
