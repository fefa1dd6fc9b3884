import NaliStore.Index
import NaliStore.Repeated

/-!
# Putting keys while the tree is expanded

`Put` and `ExpandTree` of `src/src/nali.h` with several threads. A `Put` is cut into the look
at `is_tree_expand` in `trans_begin`, `find_group`, the lock of the group, the second look at
`is_tree_expand`, the `Put` of the group, and the unlock; `ExpandTree` into the
compare-and-swap of `is_tree_expand` with the training and counting after it, the copying of
one old group after another, the swap of `group_space` and `lock_space`, and the reset of
`is_tree_expand`. `ExpandTree` takes no lock of a group.

A thread puts its key into the group it has found before. As long as that is still the group
of the key, and no expansion is going on, no key is lost (`puts_found`), whether or not a key is
put several times.
-/

namespace NaliStore

open Runs

/-- Where a thread is in `Put`, with the local variables it needs from there on. -/
inductive PutPc where
  /-- not in `Put` -/
  | idle
  /-- before `trans_begin` -/
  | transBegin (key value : UInt64)
  /-- waits for the end of an expansion -/
  | waiting (key value : UInt64)
  /-- before `find_group` -/
  | findGroup (key value : UInt64)
  /-- before `lock_space[group_id].lock()` -/
  | lock (key value : UInt64) (groupId : ℕ)
  /-- before the second look at `is_tree_expand` -/
  | check (key value : UInt64) (groupId : ℕ)
  /-- before `group_space[group_id].Put(key, value)` -/
  | put (key value : UInt64) (groupId : ℕ)
  /-- before `lock_space[group_id].unlock()` -/
  | unlock (key value : UInt64) (groupId : ℕ) (ret : Status)
  /-- at the start of `ExpandTree` -/
  | expandTree (key value : UInt64)
  /-- in `ExpandTree`: the first `copied` old groups have been copied -/
  | copy (key value : UInt64) (newNrGroups : ℕ) (newGroupSpace : List Group) (copied : ℕ)
  /-- in `ExpandTree`: before `is_tree_expand` is reset -/
  | reset (key value : UInt64)

namespace PutPc

/-- The thread has set `is_tree_expand`. -/
def Expands : PutPc → Prop
  | copy .. => True
  | reset .. => True
  | _ => False

/-- The thread has put the pair, and is about to return. -/
def Puts (pc : PutPc) (k v : UInt64) : Prop := ∃ groupId, pc = .unlock k v groupId .ok

/-- The thread neither expands the tree nor is about to return `OK`. -/
def Plain : PutPc → Prop
  | copy .. => False
  | reset .. => False
  | unlock _ _ _ ret => ret ≠ .ok
  | _ => True

/-- `notify_all` -/
def notify : PutPc → PutPc
  | waiting key value => findGroup key value
  | pc => pc

end PutPc

/-- The index and its threads. -/
structure Par where
  /-- the index -/
  nali : Nali
  /-- `lock_space` -/
  lockSpace : List Bool
  /-- `is_tree_expand` -/
  isTreeExpand : Bool
  /-- the threads -/
  threads : ℕ → PutPc
  /-- the pairs whose `Put` has returned `OK` -/
  returned : List (UInt64 × UInt64)

/-- What happens next. -/
inductive ParAct where
  /-- idle thread `t` calls `Put` -/
  | call (t : ℕ) (key value : UInt64)
  /-- thread `t` takes its next step -/
  | run (t : ℕ)

namespace Nali

/-- `group_space[group_id].Put(key, value)` -/
def putAt (models : Models) (s : Nali) (groupId : ℕ) (key value : UInt64) :
    Except Fault (Status × Nali) := do
  let g ← s.groupAt groupId
  let (ret, g, heap) ← g.put models.group s.heap key value
  .ok (ret, { s with groupSpace := s.groupSpace.set groupId g, heap })

/-- `ExpandTree` up to the copying: the first entry keys are adjusted, the root model is
trained, and the cells of the new groups are counted. -/
def beginExpand (models : Models) (s : Nali) : Except Fault (Nali × ℕ × List Group) := do
  let old ← adjustGroups s.heap s.groupSpace
  let entryCount := (old.map Group.nextEntryCount).sum
  let trained := (old.filter fun g => g.nextEntryCount ≠ 0).flatMap Group.eentries
  let model := models.root (trained.map fun e => e.entryKey)
  let newNrGroups := (entryCount + (minEntryCount - 1)) / minEntryCount
  .ok (⟨old, model, s.heap⟩, newNrGroups, countEntries model newNrGroups
    (List.replicate newNrGroups .zero) (old.flatMap Group.eentries))

end Nali

namespace Par

/-- Thread `t` goes on at `pc`. -/
def goto (s : Par) (t : ℕ) (pc : PutPc) : Par :=
  { s with threads := Function.update s.threads t pc }

/-- The next step of thread `t`. -/
def runThread (models : Models) (s : Par) (t : ℕ) : Except Fault Par :=
  match s.threads t with
  | .idle => .ok s
  | .transBegin key value =>
    .ok (s.goto t (if s.isTreeExpand then .waiting key value else .findGroup key value))
  | .waiting _ _ => .ok s
  | .findGroup key value => do
    let groupId ← s.nali.findGroup key
    .ok (s.goto t (.lock key value groupId))
  | .lock key value groupId =>
    match s.lockSpace[groupId]? with
    | none => .error .outOfBounds
    | some true => .ok s
    | some false =>
      .ok ({ s with lockSpace := s.lockSpace.set groupId true }.goto t (.check key value groupId))
  | .check key value groupId =>
    if s.isTreeExpand then
      if groupId < s.lockSpace.length then
        .ok ({ s with lockSpace := s.lockSpace.set groupId false }.goto t (.transBegin key value))
      else .error .outOfBounds
    else .ok (s.goto t (.put key value groupId))
  | .put key value groupId => do
    let (ret, nali) ← s.nali.putAt models groupId key value
    .ok ({ s with nali }.goto t (.unlock key value groupId ret))
  | .unlock key value groupId ret =>
    if groupId < s.lockSpace.length then
      let s := { s with lockSpace := s.lockSpace.set groupId false }
      if ret = .full then .ok (s.goto t (.expandTree key value))
      else if ret = .ok then
        .ok ({ s with returned := (key, value) :: s.returned }.goto t .idle)
      else .ok (s.goto t .idle)
    else .error .outOfBounds
  | .expandTree key value =>
    if s.isTreeExpand then .ok (s.goto t (.transBegin key value))
    else do
      let (nali, newNrGroups, newGroupSpace) ← s.nali.beginExpand models
      .ok ({ s with nali, isTreeExpand := true }.goto t
        (.copy key value newNrGroups newGroupSpace 0))
  | .copy key value newNrGroups newGroupSpace copied =>
    match s.nali.groupSpace[copied]? with
    | some g => do
      let newGroupSpace ← Nali.copyEntries s.nali.model newNrGroups newGroupSpace g.eentries
      .ok (s.goto t (.copy key value newNrGroups newGroupSpace (copied + 1)))
    | none =>
      let nali := { s.nali with groupSpace := Nali.retrainGroups models.group newGroupSpace }
      .ok ({ s with nali, lockSpace := List.replicate newNrGroups false }.goto t (.reset key value))
  | .reset key value =>
    .ok ({ s with isTreeExpand := false, threads := fun t => (s.threads t).notify }.goto t
      (.transBegin key value))

/-- What happens in one step. -/
def step (models : Models) (s : Par) : ParAct → Except Fault Par
  | .call t key value =>
    match s.threads t with
    | .idle => .ok (s.goto t (.transBegin key value))
    | _ => .ok s
  | .run t => s.runThread models t

/-- After `Init`, with no thread in `Put`. -/
def start (models : Models) (model : RootModel) (heap : Heap) (minKey : UInt64) : Par :=
  ⟨Nali.init models model heap minKey, [false], false, fun _ => .idle, []⟩

/-- A `Put` of the group is taken while no expansion is going on and the group is still the one
of the key. -/
def InPlace (s : Par) (act : ParAct) : Prop :=
  ∀ t key value groupId, act = .run t → s.threads t = .put key value groupId →
    s.isTreeExpand = false ∧ s.nali.findGroup key = .ok groupId

end Par

/-! ## The two steps on the index -/

namespace Nali

variable {s s' : Nali} {k v : UInt64} {M : UInt64 → Option UInt64} {models : Models}

/-- `ExpandTree` from its parts. -/
theorem expandTree_eq (models : Models) (s : Nali) : s.expandTree models = (do
    let (nali, n, counted) ← s.beginExpand models
    let copied ← nali.groupSpace.foldlM (fun groups g => copyEntries nali.model n groups g.eentries)
      counted
    .ok { nali with groupSpace := retrainGroups models.group copied }) := by
  rw [expandTree, expandGroups, beginExpand]
  cases adjustGroups s.heap s.groupSpace with
  | error e => rfl
  | ok old =>
    simp only [bind, Except.bind, countEntries, copyEntries]
    generalize List.foldlM (m := Except Fault) _ _ old = copied
    cases copied <;> rfl

/-- The `Put` of the group of a key succeeds, or leaves all as it is. -/
theorem Inv.putAt_spec (hs : s.Inv) {gpre gpost : List Group} {g : Group}
    (hloc : s.Located k gpre g gpost) (models : Models) (v : UInt64) :
    (∃ g' h', s.putAt models gpre.length k v =
        .ok (.ok, { s with groupSpace := gpre ++ g' :: gpost, heap := h' }) ∧
      g.PutOk s.heap (gpre.flatMap Group.cells) (gpost.flatMap Group.cells) k v g' h') ∨
    (∃ b ∈ g.entrySpace, b.entries = PointerBEntry.pbEntryCount) ∧
      maxEntryCount < g.nextEntryCount ∧
      s.putAt models gpre.length k v = .ok (.full, s) := by
  have hl : Cells s.heap (gpre.flatMap Group.cells ++ (g.cells ++ gpost.flatMap Group.cells)) := by
    rw [← hloc.cells_eq]
    exact hs.cells
  rcases (hs.wf g hloc.mem).put_spec hloc.ne hl models.group k v with
    ⟨g', h', hput, hok⟩ | ⟨hfour, hmax, hput⟩
  · refine .inl ⟨g', h', ?_, hok⟩
    simp only [putAt, bind, Except.bind, hloc.groupAt_eq, hput, hloc.set_eq]
  · refine .inr ⟨hfour, hmax, ?_⟩
    simp only [putAt, bind, Except.bind, hloc.groupAt_eq, hput, hloc.set_eq]
    rw [← hloc.eq]

/-- The `Put` of the group of a key puts the key, which may be there, or leaves all as it is. -/
theorem Recorded.putAt_spec {P : UInt64 → UInt64 → Prop} (hs : s.Recorded P) {groupId : ℕ}
    (hfind : s.findGroup k = .ok groupId) (models : Models) (v : UInt64) :
    (∃ s', s.putAt models groupId k v = .ok (.ok, s') ∧ s'.Recorded (Also P k v)) ∨
      s.putAt models groupId k v = .ok (.full, s) := by
  obtain ⟨gpre, g, gpost, hloc⟩ := hs.settled.exists_located k
  obtain rfl : gpre.length = groupId := Except.ok.inj (hloc.find.symm.trans hfind)
  have hget : s.toTree.groupSpace[gpre.length]? = some g := hloc.getElem?_length
  have hg : g.Tidy s.heap := hs.settled.tidy.group g hloc.mem
  have herase : (Group.putTrace models.group k v 2 g s.heap []).map Prod.fst = _ :=
    Group.map_putTrace 2 g s.heap []
  have hput : ∀ {g' : Group} {h' : Heap}, g.putLoop models.group k v 2 s.heap = .ok (.ok, g', h') →
      s.toTree.PutAt k v
        { s.toTree with groupSpace := s.groupSpace.set gpre.length g', heap := h' } →
      ∃ s', s.putAt models gpre.length k v = .ok (.ok, s') ∧ s'.Recorded (Also P k v) := by
    intro g' h' hput hat
    obtain ⟨s', heq, hs'⟩ := hs.putAt hat
    obtain rfl : s' = { s with groupSpace := s.groupSpace.set gpre.length g', heap := h' } :=
      toTree_injective heq
    refine ⟨_, ?_, hs'⟩
    simp only [Nali.putAt, bind, Except.bind, hloc.groupAt_eq, Group.put, hput]
  rcases hg.putTrace_spec hloc.ne models.group k v [] with
    ⟨hasSplit, g', h', hat, heq⟩ | ⟨g₁, hasSplit, g', h', hexp, hat, hg₁, -, heq⟩ | ⟨-, heq⟩
  · rw [heq] at herase
    exact .inl (hput herase.symm ⟨_, g, g, hasSplit, g', h', hfind, hget, hloc.ne, .inl rfl, hg, hat,
      rfl⟩)
  · rw [heq] at herase
    exact .inl (hput herase.symm ⟨_, g, g₁, hasSplit, g', h', hfind, hget, hloc.ne,
      .inr ⟨models.group, hexp⟩, hg₁, hat, rfl⟩)
  · rw [heq] at herase
    refine .inr ?_
    simp only [Nali.putAt, bind, Except.bind, hloc.groupAt_eq, Group.put, ← herase, Except.map, hloc.set_eq]
    rw [← hloc.eq]

theorem Recorded.of_putAt {P : UInt64 → UInt64 → Prop} (hs : s.Recorded P) {groupId : ℕ}
    (hfind : s.findGroup k = .ok groupId) (hput : s.putAt models groupId k v = .ok (.ok, s')) :
    s'.Recorded (Also P k v) := by
  rcases hs.putAt_spec hfind models v with ⟨s₁, hput₁, hs₁⟩ | hfull
  · obtain ⟨-, rfl⟩ := Prod.mk.inj (Except.ok.inj (hput.symm.trans hput₁))
    exact hs₁
  · cases hput.symm.trans hfull

end Nali

/-! ## Runs with several threads -/

namespace Par

variable {s s' : Par} {P : UInt64 → UInt64 → Prop} {models : Models} {t : ℕ} {pc : PutPc}

/-- The pair has been put: its `Put` has returned, or is about to. -/
def Done (s : Par) (k v : UInt64) : Prop := (k, v) ∈ s.returned ∨ ∃ t, (s.threads t).Puts k v

/-- What the expanding thread knows: at the swap it puts in place what `ExpandTree` returns,
called in a state that holds the keys. -/
def Owns (models : Models) (nali : Nali) (P : UInt64 → UInt64 → Prop) : PutPc → Prop
  | .copy _ _ n groups copied => ∃ (s₀ : Nali) (counted : List Group), s₀.Recorded P ∧
      s₀.beginExpand models = .ok (nali, n, counted) ∧
      (nali.groupSpace.take copied).foldlM
        (fun groups g => Nali.copyEntries nali.model n groups g.eentries) counted = .ok groups
  | .reset .. => nali.Recorded P
  | _ => False

/-- Outside of an expansion the index holds the keys; during one, one thread is at it. -/
def Phase (models : Models) (s : Par) (P : UInt64 → UInt64 → Prop) : Prop :=
  (s.isTreeExpand = false ∧ s.nali.Recorded P ∧ ∀ t, ¬ (s.threads t).Expands) ∨
  (s.isTreeExpand = true ∧ ∃ t, Owns models s.nali P (s.threads t) ∧
    ∀ t' ≠ t, ¬ (s.threads t').Expands)

/-- **The invariant of the threads**: the index holds what they have put. -/
def Safe (models : Models) (s : Par) : Prop := s.Phase models s.Done

theorem Owns.expands {nali : Nali} (h : Owns models nali P pc) : pc.Expands := by
  cases pc with
  | copy => exact trivial
  | reset => exact trivial
  | _ => exact h

@[simp] theorem goto_threads : (s.goto t pc).threads = Function.update s.threads t pc := rfl

/-! ### One thread at an expansion -/

/-- The other threads stay where they are. -/
theorem not_expands_update (h : ∀ t, ¬ (s.threads t).Expands) (hpc : ¬ pc.Expands) (t' : ℕ) :
    ¬ (Function.update s.threads t pc t').Expands := by
  rcases eq_or_ne t' t with rfl | hne
  · rwa [Function.update_self]
  · rw [Function.update_of_ne hne]
    exact h t'

/-- A step of a thread that neither puts nor expands. -/
theorem Phase.goto (h : s.Phase models P) (hold : ¬ (s.threads t).Expands) (locks : List Bool)
    (returned : List (UInt64 × UInt64)) (pc : PutPc) (hpc : ¬ pc.Expands) :
    ({ s with lockSpace := locks, returned := returned }.goto t pc).Phase models P := by
  rcases h with ⟨hflag, hrecorded, hnone⟩ | ⟨hflag, t₀, howns, hother⟩
  · exact .inl ⟨hflag, hrecorded, not_expands_update hnone hpc⟩
  · -- the expanding thread is another one
    have hne : t₀ ≠ t := by
      rintro rfl
      exact hold howns.expands
    refine .inr ⟨hflag, t₀, ?_, fun t' ht' => ?_⟩
    · rw [goto_threads, Function.update_of_ne hne]
      exact howns
    · rcases eq_or_ne t' t with rfl | hne'
      · rwa [goto_threads, Function.update_self]
      · rw [goto_threads, Function.update_of_ne hne']
        exact hother t' ht'

/-- A thread that expands is the one that does. -/
theorem Phase.owner (h : s.Phase models P) (ht : (s.threads t).Expands) :
    s.isTreeExpand = true ∧ Owns models s.nali P (s.threads t) ∧
      ∀ t' ≠ t, ¬ (s.threads t').Expands := by
  rcases h with ⟨-, -, hnone⟩ | ⟨hflag, t₀, howns, hother⟩
  · exact absurd ht (hnone t)
  · obtain rfl : t = t₀ := by
      by_contra hne
      exact hother t hne ht
    exact ⟨hflag, howns, hother⟩

/-- The expanding thread goes on. -/
theorem Phase.goto_owner (h : s.Phase models P) (ht : (s.threads t).Expands) {nali : Nali}
    (locks : List Bool) (pc : PutPc) (howns : Owns models nali P pc) :
    ({ s with nali := nali, lockSpace := locks }.goto t pc).Phase models P := by
  obtain ⟨hflag, -, hother⟩ := h.owner ht
  refine .inr ⟨hflag, t, ?_, fun t' ht' => ?_⟩
  · rw [goto_threads, Function.update_self]
    exact howns
  · rw [goto_threads, Function.update_of_ne ht']
    exact hother t' ht'

/-- The next old group is copied. -/
theorem Owns.copy {nali : Nali} {key value : UInt64} {n copied : ℕ} {groups groups' : List Group}
    {g : Group} (h : Owns models nali P (.copy key value n groups copied))
    (hg : nali.groupSpace[copied]? = some g)
    (hcopy : Nali.copyEntries nali.model n groups g.eentries = .ok groups') :
    Owns models nali P (.copy key value n groups' (copied + 1)) := by
  obtain ⟨s₀, counted, hs₀, hbegin, hfold⟩ := h
  refine ⟨s₀, counted, hs₀, hbegin, ?_⟩
  rw [List.take_add_one, hg, List.foldlM_append, hfold]
  simp only [bind, Except.bind, Option.toList_some, List.foldlM_cons, List.foldlM_nil, hcopy]
  rfl

/-- After the swap the index holds the keys. -/
theorem Owns.swap {nali : Nali} {key value : UInt64} {n copied : ℕ} {groups : List Group}
    (h : Owns models nali P (.copy key value n groups copied))
    (hend : nali.groupSpace[copied]? = none) :
    ({ nali with groupSpace := Nali.retrainGroups models.group groups } : Nali).Recorded P := by
  obtain ⟨s₀, counted, hs₀, hbegin, hfold⟩ := h
  rw [List.take_of_length_le (List.getElem?_eq_none_iff.mp hend)] at hfold
  have hexpand : s₀.expandTree models =
      .ok { nali with groupSpace := Nali.retrainGroups models.group groups } := by
    rw [Nali.expandTree_eq, hbegin]
    simp only [bind, Except.bind, hfold]
  exact hs₀.expandTree hexpand

/-! ### What has been put -/

/-- The pairs that are about to be returned change with the thread that goes on. -/
theorem exists_puts_update {k v : UInt64} (hold : ¬ (s.threads t).Puts k v) :
    (∃ t', (Function.update s.threads t pc t').Puts k v) ↔
      pc.Puts k v ∨ ∃ t', (s.threads t').Puts k v := by
  constructor
  · rintro ⟨t', ht'⟩
    rcases eq_or_ne t' t with rfl | hne
    · rw [Function.update_self] at ht'
      exact .inl ht'
    · rw [Function.update_of_ne hne] at ht'
      exact .inr ⟨t', ht'⟩
  · rintro (hpc | ⟨t', ht'⟩)
    · exact ⟨t, by rwa [Function.update_self]⟩
    · have hne : t' ≠ t := by
        rintro rfl
        exact hold ht'
      exact ⟨t', by rwa [Function.update_of_ne hne]⟩

/-- A thread that was not about to return, and is not now. -/
theorem Safe.of_phase (h : s'.Phase models s.Done) (hreturned : s'.returned = s.returned)
    (hthreads : s'.threads = Function.update s.threads t pc) (hold : ∀ k v, ¬ (s.threads t).Puts k v)
    (hpc : ∀ k v, ¬ pc.Puts k v) : s'.Safe models := by
  have hdone : s'.Done = s.Done := by
    funext k v
    simp only [Done, hreturned, hthreads, exists_puts_update (hold k v), iff_false_intro (hpc k v),
      false_or]
  rw [Safe, hdone]
  exact h

theorem plain_not_expands (h : pc.Plain) : ¬ pc.Expands := by
  cases pc with
  | copy => exact h.elim
  | reset => exact h.elim
  | _ => exact fun hexpands => hexpands

theorem plain_not_puts (h : pc.Plain) (k v : UInt64) : ¬ pc.Puts k v := by
  rintro ⟨groupId, rfl⟩
  exact h rfl

theorem expands_not_puts (h : pc.Expands) (k v : UInt64) : ¬ pc.Puts k v := by
  rintro ⟨groupId, rfl⟩
  exact h

theorem Safe.goto (h : s.Safe models) (hold : (s.threads t).Plain) (locks : List Bool) (pc : PutPc)
    (hpc : pc.Plain) : ({ s with lockSpace := locks }.goto t pc).Safe models :=
  .of_phase (Phase.goto h (plain_not_expands hold) locks s.returned pc (plain_not_expands hpc)) rfl rfl
    (plain_not_puts hold) (plain_not_puts hpc)

theorem Safe.goto_owner (h : s.Safe models) (ht : (s.threads t).Expands) {nali : Nali}
    (locks : List Bool) (pc : PutPc) (howns : Owns models nali s.Done pc) :
    ({ s with nali := nali, lockSpace := locks }.goto t pc).Safe models :=
  .of_phase (Phase.goto_owner h ht locks pc howns) rfl rfl (expands_not_puts ht)
    (expands_not_puts howns.expands)

theorem safe_start (models : Models) (model : RootModel) (heap : Heap) (minKey : UInt64) :
    (start models model heap minKey).Safe models := by
  refine .inl ⟨rfl, (Nali.recorded_init models model heap minKey).congr fun k v => ?_, fun _ h => h⟩
  refine ⟨False.elim, ?_⟩
  rintro (hk | ⟨t, groupId, ht⟩)
  · exact List.not_mem_nil hk
  · cases ht

/-- The `Put` of a group. -/
theorem Safe.put (h : s.Safe models) {key value : UInt64} {groupId : ℕ} {ret : Status} {nali : Nali}
    (ht : s.threads t = .put key value groupId)
    (hplace : s.isTreeExpand = false ∧ s.nali.findGroup key = .ok groupId)
    (hput : s.nali.putAt models groupId key value = .ok (ret, nali)) :
    ({ s with nali }.goto t (.unlock key value groupId ret)).Safe models := by
  obtain ⟨hflag, hfind⟩ := hplace
  obtain ⟨hrecorded, hnone⟩ : s.nali.Recorded s.Done ∧ ∀ t, ¬ (s.threads t).Expands := by
    rcases h with ⟨-, hnormal⟩ | ⟨hexpand, -⟩
    · exact hnormal
    · rw [hflag] at hexpand
      cases hexpand
  have hplain : (s.threads t).Plain := by
    rw [ht]
    exact trivial
  rcases hrecorded.putAt_spec hfind models value with ⟨nali', hput', hrecorded'⟩ | hput'
  · obtain ⟨rfl, rfl⟩ := Prod.mk.inj (Except.ok.inj (hput.symm.trans hput'))
    refine .inl ⟨hflag, hrecorded'.congr fun k v => ?_, not_expands_update hnone fun h => h⟩
    -- this thread is now about to return
    have hpc : (PutPc.unlock key value groupId .ok).Puts k v ↔ k = key ∧ v = value := by
      constructor
      · rintro ⟨groupId', heq⟩
        cases heq
        exact ⟨rfl, rfl⟩
      · rintro ⟨rfl, rfl⟩
        exact ⟨groupId, rfl⟩
    simp only [Also, Done, goto_threads, exists_puts_update (plain_not_puts hplain k v), hpc]
    rw [or_assoc, or_comm (a := ∃ t, _)]
    rfl
  · obtain ⟨rfl, rfl⟩ := Prod.mk.inj (Except.ok.inj (hput.symm.trans hput'))
    have hpc : (PutPc.unlock key value groupId .full).Plain := fun heq => nomatch heq
    exact h.goto hplain s.lockSpace _ hpc

/-- A `Put` returns. -/
theorem Safe.unlock (h : s.Safe models) {key value : UInt64} {groupId : ℕ} {ret : Status}
    (ht : s.threads t = .unlock key value groupId ret) (hstep : s.runThread models t = .ok s') :
    s'.Safe models := by
  have hplain : ret ≠ .ok → (s.threads t).Plain := by
    intro hret
    rw [ht]
    exact hret
  rw [runThread, ht] at hstep
  simp only at hstep
  split at hstep
  · split at hstep
    · rename_i hfull
      obtain rfl := Except.ok.inj hstep
      exact h.goto (hplain fun heq => nomatch hfull.symm.trans heq) _ (.expandTree key value) trivial
    · split at hstep
      · rename_i hok
        subst hok
        obtain rfl := Except.ok.inj hstep
        have hexpands : ¬ (s.threads t).Expands := by
          rw [ht]
          exact fun h => h
        have hphase := Phase.goto h hexpands (s.lockSpace.set groupId false)
          ((key, value) :: s.returned) .idle fun h => h
        -- the pair goes from the thread to those returned
        have hdone : ({ s with
            lockSpace := s.lockSpace.set groupId false
            returned := (key, value) :: s.returned }.goto t .idle).Done = s.Done := by
          funext k v
          refine propext ⟨?_, ?_⟩
          · rintro (hk | ⟨t', ht'⟩)
            · rcases List.mem_cons.mp hk with heq | hk
              · cases heq
                exact .inr ⟨t, groupId, ht⟩
              · exact .inl hk
            · rcases eq_or_ne t' t with rfl | hne
              · rw [goto_threads, Function.update_self] at ht'
                obtain ⟨_, heq⟩ := ht'
                cases heq
              · rw [goto_threads, Function.update_of_ne hne] at ht'
                exact .inr ⟨t', ht'⟩
          · rintro (hk | ⟨t', ht'⟩)
            · exact .inl (List.mem_cons_of_mem _ hk)
            · rcases eq_or_ne t' t with rfl | hne
              · rw [ht] at ht'
                obtain ⟨_, heq⟩ := ht'
                cases heq
                exact .inl (List.mem_cons_self ..)
              · exact .inr ⟨t', by rwa [goto_threads, Function.update_of_ne hne]⟩
        rw [Safe, hdone]
        exact hphase
      · rename_i hret
        obtain rfl := Except.ok.inj hstep
        exact h.goto (hplain hret) _ .idle trivial
  · cases hstep

/-- A thread starts to expand the tree, or leaves it to another. -/
theorem Safe.expandTree (h : s.Safe models) {key value : UInt64}
    (ht : s.threads t = .expandTree key value) (hstep : s.runThread models t = .ok s') :
    s'.Safe models := by
  have hplain : (s.threads t).Plain := by
    rw [ht]
    exact trivial
  rw [runThread, ht] at hstep
  simp only at hstep
  split at hstep
  · obtain rfl := Except.ok.inj hstep
    exact h.goto hplain s.lockSpace (.transBegin key value) trivial
  · rename_i hflag
    obtain ⟨⟨nali, n, counted⟩, hbegin, hrest⟩ := bind_eq_ok hstep
    obtain rfl := Except.ok.inj hrest
    obtain ⟨hrecorded, hnone⟩ : s.nali.Recorded s.Done ∧ ∀ t, ¬ (s.threads t).Expands := by
      rcases h with ⟨-, hnormal⟩ | ⟨hexpand, -⟩
      · exact hnormal
      · exact absurd hexpand hflag
    refine .of_phase (s := s) (.inr ⟨rfl, t, ?_, fun t' ht' => ?_⟩) rfl rfl (plain_not_puts hplain)
      fun k v ⟨_, heq⟩ => nomatch heq
    · rw [goto_threads, Function.update_self]
      exact ⟨s.nali, counted, hrecorded, hbegin, rfl⟩
    · rw [goto_threads, Function.update_of_ne ht']
      exact hnone t'

theorem notify_expands : pc.notify.Expands ↔ pc.Expands := by
  cases pc <;> rfl

theorem notify_puts {k v : UInt64} : pc.notify.Puts k v ↔ pc.Puts k v := by
  cases pc with
  | waiting => exact iff_of_false (fun ⟨_, heq⟩ => nomatch heq) fun ⟨_, heq⟩ => nomatch heq
  | _ => exact Iff.rfl

/-- The expansion is over. -/
theorem Safe.reset (h : s.Safe models) {key value : UInt64}
    (ht : s.threads t = .reset key value) (hstep : s.runThread models t = .ok s') :
    s'.Safe models := by
  rw [runThread, ht] at hstep
  obtain rfl := Except.ok.inj hstep
  have hexpands : (s.threads t).Expands := by
    rw [ht]
    exact trivial
  obtain ⟨-, howns, hother⟩ := Phase.owner h hexpands
  rw [ht] at howns
  set s₁ : Par := { s with isTreeExpand := false, threads := fun t => (s.threads t).notify } with hs₁
  have hdone : s₁.Done = s.Done := by
    funext k v
    simp only [hs₁, Done, notify_puts]
  have hold : ∀ k v, ¬ (s₁.threads t).Puts k v := fun k v hputs =>
    expands_not_puts hexpands k v (notify_puts.mp hputs)
  refine .of_phase (s := s₁) (.inl ⟨rfl, hdone ▸ howns, fun t' => ?_⟩) rfl rfl hold
    fun k v ⟨_, heq⟩ => nomatch heq
  rcases eq_or_ne t' t with rfl | hne
  · rw [goto_threads, Function.update_self]
    exact fun h => h
  · rw [goto_threads, Function.update_of_ne hne, hs₁, notify_expands]
    exact hother t' hne

/-- **One step** keeps the invariant. -/
theorem Safe.step (h : s.Safe models) {act : ParAct} (hplace : s.InPlace act)
    (hstep : s.step models act = .ok s') : s'.Safe models := by
  cases act with
  | call t key value =>
    rw [Par.step] at hstep
    cases ht : s.threads t with
    | idle =>
      rw [ht] at hstep
      obtain rfl := Except.ok.inj hstep
      exact h.goto (by rw [ht]; exact trivial) s.lockSpace (.transBegin key value) trivial
    | _ =>
      rw [ht] at hstep
      obtain rfl := Except.ok.inj hstep
      exact h
  | run t =>
    rw [Par.step] at hstep
    cases ht : s.threads t with
    | idle =>
      rw [runThread, ht] at hstep
      obtain rfl := Except.ok.inj hstep
      exact h
    | waiting key value =>
      rw [runThread, ht] at hstep
      obtain rfl := Except.ok.inj hstep
      exact h
    | transBegin key value =>
      rw [runThread, ht] at hstep
      obtain rfl := Except.ok.inj hstep
      apply h.goto (by rw [ht]; exact trivial) s.lockSpace
      split <;> exact trivial
    | findGroup key value =>
      rw [runThread, ht] at hstep
      obtain ⟨groupId, -, hrest⟩ := bind_eq_ok hstep
      obtain rfl := Except.ok.inj hrest
      exact h.goto (by rw [ht]; exact trivial) s.lockSpace (.lock key value groupId) trivial
    | lock key value groupId =>
      rw [runThread, ht] at hstep
      simp only at hstep
      split at hstep
      · cases hstep
      · obtain rfl := Except.ok.inj hstep
        exact h
      · obtain rfl := Except.ok.inj hstep
        exact h.goto (by rw [ht]; exact trivial) _ (.check key value groupId) trivial
    | check key value groupId =>
      rw [runThread, ht] at hstep
      simp only at hstep
      split at hstep
      · split at hstep
        · obtain rfl := Except.ok.inj hstep
          exact h.goto (by rw [ht]; exact trivial) _ (.transBegin key value) trivial
        · cases hstep
      · obtain rfl := Except.ok.inj hstep
        exact h.goto (by rw [ht]; exact trivial) s.lockSpace (.put key value groupId) trivial
    | put key value groupId =>
      rw [runThread, ht] at hstep
      obtain ⟨⟨ret, nali⟩, hput, hrest⟩ := bind_eq_ok hstep
      obtain rfl := Except.ok.inj hrest
      exact h.put ht (hplace t key value groupId rfl ht) hput
    | unlock key value groupId ret => exact h.unlock ht hstep
    | expandTree key value => exact h.expandTree ht hstep
    | copy key value n groups copied =>
      have hexpands : (s.threads t).Expands := by
        rw [ht]
        exact trivial
      obtain ⟨-, howns, -⟩ := Phase.owner h hexpands
      rw [ht] at howns
      rw [runThread, ht] at hstep
      simp only at hstep
      split at hstep
      · rename_i g hg
        obtain ⟨groups', hcopy, hrest⟩ := bind_eq_ok hstep
        obtain rfl := Except.ok.inj hrest
        exact h.goto_owner hexpands s.lockSpace _ (howns.copy hg hcopy)
      · rename_i hend
        obtain rfl := Except.ok.inj hstep
        exact h.goto_owner hexpands _ (.reset key value) (howns.swap hend)
    | reset key value => exact h.reset ht hstep

/-- **No `Put` is lost.** In every run in which a thread puts its key into a group only while
no expansion is going on and the group is still the one of the key, once all threads have
returned, `Get` finds every key whose `Put` has returned `OK`, with the value of such a `Put`. -/
theorem puts_found (models : Models) (model : RootModel) (heap : Heap) (minKey : UInt64)
    (acts : List ParAct) (s : Par)
    (hrun : Run (Par.step models) InPlace (start models model heap minKey) acts s)
    (hidle : ∀ t, s.threads t = .idle) :
    ∀ p ∈ s.returned, ∃ v, (p.1, v) ∈ s.returned ∧ s.nali.get p.1 = .ok (some v) := by
  have h : s.Safe models := by
    apply hrun.invariant (I := Safe models)
    · exact fun _ _ _ h hplace hstep => h.step hplace hstep
    · exact safe_start models model heap minKey
  intro p hp
  rcases h with ⟨-, hrecorded, -⟩ | ⟨-, t, howns, -⟩
  · obtain ⟨v, hv, hget⟩ := hrecorded.get_of_put (k := p.1) (v := p.2) (.inl hp)
    refine ⟨v, hv.resolve_right ?_, hget⟩
    -- no thread is about to return
    rintro ⟨t, groupId, ht⟩
    rw [hidle t] at ht
    cases ht
  · -- an expanding thread has not returned
    rw [hidle t] at howns
    exact howns.elim

theorem inPlace_call (s : Par) (t : ℕ) (key value : UInt64) : s.InPlace (.call t key value) := by
  intro t' key' value' groupId hact
  cases hact

theorem inPlace_of_ne (h : ∀ key value groupId, s.threads t ≠ .put key value groupId) :
    s.InPlace (.run t) := by
  intro t' key value groupId hact ht'
  cases hact
  exact absurd ht' (h key value groupId)

theorem inPlace_of_put {key value : UInt64} {groupId : ℕ}
    (ht : s.threads t = .put key value groupId)
    (hplace : s.isTreeExpand = false ∧ s.nali.findGroup key = .ok groupId) : s.InPlace (.run t) := by
  intro t' key' value' groupId' hact ht'
  cases hact
  cases ht.symm.trans ht'
  exact hplace

/-- Two threads put one key; the second has to wait for the lock. -/
def twoPuts : List ParAct :=
  [.call 0 5 1, .call 1 5 2, .run 0, .run 1, .run 0, .run 1, .run 0, .run 1, .run 0, .run 0, .run 0,
    .run 1, .run 1, .run 1, .run 1]

theorem puts_found_twoPuts : ∃ s, Run (Par.step Nali.zeroModels) InPlace
      (start Nali.zeroModels (Nali.zeroModels.root []) Nali.zeroHeap 0) twoPuts s ∧
    (∀ t, s.threads t = .idle) ∧ s.returned = [(5, 2), (5, 1)] ∧
    ∃ v, (5, v) ∈ s.returned ∧ s.nali.get 5 = .ok (some v) := by
  obtain ⟨s, hrun, hidle, hreturned⟩ : ∃ s, Run (Par.step Nali.zeroModels) InPlace
      (start Nali.zeroModels (Nali.zeroModels.root []) Nali.zeroHeap 0) twoPuts s ∧
      (∀ t, s.threads t = .idle) ∧ s.returned = [(5, 2), (5, 1)] := by
    refine ⟨_, .cons (inPlace_call _ _ _ _) rfl <| .cons (inPlace_call _ _ _ _) rfl <|
      -- both threads look for their group before the first of them takes its lock
      .cons (inPlace_of_ne nofun) rfl <| .cons (inPlace_of_ne nofun) rfl <|
      .cons (inPlace_of_ne nofun) rfl <| .cons (inPlace_of_ne nofun) rfl <|
      .cons (inPlace_of_ne nofun) rfl <| .cons (inPlace_of_ne nofun) rfl <|
      .cons (inPlace_of_ne nofun) rfl <| .cons (inPlace_of_put rfl ⟨rfl, rfl⟩) rfl <|
      .cons (inPlace_of_ne nofun) rfl <| .cons (inPlace_of_ne nofun) rfl <|
      .cons (inPlace_of_ne nofun) rfl <| .cons (inPlace_of_put rfl ⟨rfl, rfl⟩) rfl <|
      .cons (inPlace_of_ne nofun) rfl <| .nil _, fun t => ?_, rfl⟩
    match t with
    | 0 => rfl
    | 1 => rfl
    | t + 2 => rfl
  exact ⟨s, hrun, hidle, hreturned, puts_found _ _ _ _ _ s hrun hidle (5, 1) (by
    rw [hreturned]
    decide)⟩

end Par

end NaliStore
