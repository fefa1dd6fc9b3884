import NaliStore.Nali

/-!
# Dealing out cells

The loops of `ExpandTree` between the training of the root model and that of the groups. The
cells are counted and dealt out to new groups by their entry keys, and which group a key goes
to is an arbitrary function here: nothing is asked of the root model. Every group gets the
cells of its keys, in the order they are dealt, each in a B entry of its own.
-/

namespace NaliStore

open Routing Runs

namespace Nali

/-- The cells a new group gets. -/
def dealtBy (place : UInt64 → ℕ) (entries : List EEntry) (i : ℕ) : List EEntry :=
  entries.filter fun e => place e.entryKey = i

variable {place : UInt64 → ℕ} {n : ℕ}

theorem dealtBy_cons_of_eq {e : EEntry} {entries : List EEntry} {i : ℕ}
    (hi : place e.entryKey = i) : dealtBy place (e :: entries) i = e :: dealtBy place entries i :=
  List.filter_cons_of_pos (decide_eq_true hi)

theorem dealtBy_cons_of_ne {e : EEntry} {entries : List EEntry} {i : ℕ}
    (hi : place e.entryKey ≠ i) : dealtBy place (e :: entries) i = dealtBy place entries i :=
  List.filter_cons_of_neg (by rw [decide_eq_true_eq]; exact hi)

theorem countBy_getElem? (entries : List EEntry) : ∀ (groups : List Group) (i : ℕ),
    (countBy place groups entries)[i]? = groups[i]?.map fun g =>
      { g with nextEntryCount := g.nextEntryCount + (dealtBy place entries i).length } := by
  induction entries with
  | nil =>
    intro groups i
    rw [countBy, List.foldl_nil]
    cases groups[i]? <;> rfl
  | cons e entries ih =>
    intro groups i
    have hstep : countBy place groups (e :: entries) = countBy place
      (groups.modify (place e.entryKey) Group.incEntryCount) entries := rfl
    rw [hstep, ih, List.getElem?_modify]
    cases groups[i]? with
    | none => rfl
    | some g =>
      rw [Option.map_eq_map, Option.map_some, Option.map_some, Option.map_some]
      by_cases hi : place e.entryKey = i
      · rw [dealtBy_cons_of_eq hi, if_pos hi]
        simp only [Group.incEntryCount, List.length_cons, Option.some.injEq, Group.mk.injEq,
          true_and, and_true]
        omega
      · rw [dealtBy_cons_of_ne hi, if_neg hi]

/-- A loop that deals out cells does not overrun the arrays that were counted out for them. -/
theorem copyBy_spec (entries : List EEntry) : ∀ groups : List Group,
    (∀ e ∈ entries, place e.entryKey < groups.length) →
    (∀ i g, groups[i]? = some g →
      g.entrySpace.length + (dealtBy place entries i).length ≤ g.nextEntryCount) →
    ∃ groups', copyBy place groups entries = .ok groups' ∧
      ∀ i : ℕ, groups'[i]? = groups[i]?.map fun g : Group =>
        { g with entrySpace := g.entrySpace ++ (dealtBy place entries i).map .ofEEntry } := by
  induction entries with
  | nil =>
    intro groups _ _
    refine ⟨groups, rfl, fun i => ?_⟩
    cases groups[i]? with
    | none => rfl
    | some g => simp only [dealtBy, List.filter_nil, List.map_nil, List.append_nil, Option.map_some]
  | cons e entries ih =>
    intro groups hlt hcap
    have hidlt := hlt e (List.mem_cons_self ..)
    set id := place e.entryKey with hid
    obtain ⟨g, hget⟩ : ∃ g, groups[id]? = some g := ⟨_, List.getElem?_eq_getElem hidlt⟩
    have hroom : g.entrySpace.length < g.nextEntryCount := by
      have hle := hcap id g hget
      rw [dealtBy_cons_of_eq hid.symm, List.length_cons] at hle
      omega
    set g₁ : Group := { g with entrySpace := g.entrySpace ++ [.ofEEntry e] } with hg₁
    have happend : appendAt groups id e = .ok (groups.set id g₁) := by
      rw [appendAt, hget]
      simp only [Group.appendEntry, hroom, if_true, bind, Except.bind, hg₁]
    obtain ⟨groups', hcopy, hgroups'⟩ := ih (groups.set id g₁)
      (fun x hx => by
        rw [List.length_set]
        exact hlt x (List.mem_cons_of_mem _ hx))
      (fun i x hx => by
        by_cases hi : id = i
        · subst hi
          rw [List.getElem?_set_self hidlt] at hx
          obtain rfl := Option.some.inj hx
          have hle := hcap id g hget
          rw [dealtBy_cons_of_eq hid.symm, List.length_cons] at hle
          simp only [hg₁, List.length_append, List.length_singleton]
          omega
        · rw [List.getElem?_set_ne hi] at hx
          have hle := hcap i x hx
          rwa [dealtBy_cons_of_ne hi] at hle)
    refine ⟨groups', ?_, fun i => ?_⟩
    · rw [copyBy, List.foldlM_cons, ← hid, happend]
      exact hcopy
    · rw [hgroups']
      by_cases hi : id = i
      · subst hi
        rw [List.getElem?_set_self hidlt, hget, Option.map_some,
          Option.map_some, dealtBy_cons_of_eq hid.symm, hg₁, List.map_cons, List.append_assoc]
        rfl
      · rw [List.getElem?_set_ne hi, dealtBy_cons_of_ne hi]

/-- The cells are dealt out in the order the old groups have them. -/
theorem foldlM_copyBy_eq (old : List Group) : ∀ groups : List Group,
    old.foldlM (fun groups g => copyBy place groups g.eentries) groups =
      copyBy place groups (old.flatMap Group.eentries) := by
  induction old with
  | nil => exact fun groups => rfl
  | cons g old ih =>
    intro groups
    rw [List.foldlM_cons, List.flatMap_cons, copyBy, copyBy, List.foldlM_append]
    exact congrArg _ (funext ih)

/-! ## The new groups -/

/-- The new group for the cells `entries`. -/
def dealtGroup (train : Train) (entries : List EEntry) : Group :=
  let g : Group := ⟨entries.map .ofEEntry, entries.length, 0, fun _ => 0⟩
  if entries.length = 0 then g else g.retrain train

section Dealt

variable {train : Train} {entries : List EEntry}

@[simp] theorem dealtGroup_entrySpace :
    (dealtGroup train entries).entrySpace = entries.map .ofEEntry := by
  rw [dealtGroup]
  split <;> rfl

@[simp] theorem dealtGroup_nextEntryCount :
    (dealtGroup train entries).nextEntryCount = entries.length := by
  rw [dealtGroup]
  split <;> rfl

@[simp] theorem dealtGroup_cells : (dealtGroup train entries).cells = entries.map EEntry.toCell := by
  rw [Group.cells, dealtGroup_entrySpace, Group.cells_map_ofEEntry]

theorem dealtGroup_wf : (dealtGroup train entries).WF where
  entry b hb := by
    rw [dealtGroup_entrySpace] at hb
    obtain ⟨e, -, rfl⟩ := List.mem_map.mp hb
    exact PointerBEntry.wf_ofEEntry e
  count := by rw [dealtGroup_nextEntryCount, dealtGroup_cells, List.length_map]

/-- **The loops of `ExpandTree`** after the training: group `i` of the new ones has the cells
dealt to it. -/
theorem exists_copiedBy (place : UInt64 → ℕ) (hplace : ∀ k, place k < n) (train : Train)
    (old : List Group) :
    ∃ copied, old.foldlM (fun groups g => copyBy place groups g.eentries)
        (countBy place (List.replicate n .zero) (old.flatMap Group.eentries)) = .ok copied ∧
      retrainGroups train copied =
        (List.range n).map fun i => dealtGroup train (dealtBy place (old.flatMap Group.eentries) i) := by
  set entries := old.flatMap Group.eentries with hentries
  set counted := countBy place (List.replicate n .zero) entries with hcounted
  have hget : ∀ i, counted[i]? = if i < n then
      some (⟨[], (dealtBy place entries i).length, 0, fun _ => 0⟩ : Group) else none := by
    intro i
    rw [hcounted, countBy_getElem?, List.getElem?_replicate]
    split
    · rw [Option.map_some, Group.zero, Nat.zero_add]
    · rfl
  have hlen : counted.length = n := by
    apply length_eq_of_isSome
    intro i
    rw [hget]
    split <;> simp [*]
  obtain ⟨copied, hcopy, hcopied⟩ := copyBy_spec entries counted
    (fun e _ => by rw [hlen]; exact hplace _)
    (fun i g hg => by
      rw [hget] at hg
      split at hg
      · obtain rfl := Option.some.inj hg
        exact Nat.le_of_eq (Nat.zero_add _)
      · cases hg)
  refine ⟨copied, by rw [foldlM_copyBy_eq]; exact hcopy, List.ext_getElem? fun i => ?_⟩
  rw [retrainGroups, List.getElem?_map, hcopied, hget, List.getElem?_map]
  split
  · rename_i hi
    rw [List.getElem?_range hi]
    rfl
  · rename_i hi
    rw [List.getElem?_eq_none (by rw [List.length_range]; omega)]
    rfl

/-- **`ExpandTree` of groups** that have cells, once their first entry keys are adjusted. -/
theorem exists_expandGroups {Model : Type} {place : Model → ℕ → UInt64 → ℕ}
    (hplace : ∀ model {n : ℕ}, 0 < n → ∀ k, place model n k < n) (group : Train)
    (root : List UInt64 → Model) {h : Heap} {groups old : List Group}
    (hadj : adjustGroups h groups = .ok old) (hpos : 0 < (old.map Group.nextEntryCount).sum) :
    ∃ n keys, n = ((old.map Group.nextEntryCount).sum + (minEntryCount - 1)) / minEntryCount ∧
      0 < n ∧ expandGroups group root place h groups =
        .ok ((List.range n).map fun i => dealtGroup group
          (dealtBy (place (root keys) n) (old.flatMap Group.eentries) i), root keys) := by
  set n := ((old.map Group.nextEntryCount).sum + (minEntryCount - 1)) / minEntryCount with hnEq
  have hn : 0 < n := by
    rw [hnEq, minEntryCount]
    omega
  set keys := ((old.filter fun g => g.nextEntryCount ≠ 0).flatMap Group.eentries).map
    fun e => e.entryKey with hkeys
  obtain ⟨copied, hcopy, hcopied⟩ := exists_copiedBy (place (root keys) n) (hplace _ hn) group old
  refine ⟨n, keys, rfl, hn, ?_⟩
  rw [expandGroups, hadj]
  simp only [bind, Except.bind, ← hkeys, ← hnEq]
  rw [hcopy, ← hcopied]

end Dealt

/-- Two kinds of root model that guess the same groups, of which one is made into the other. -/
theorem expandGroups_map {Model Model' : Type} (place : Model → ℕ → UInt64 → ℕ)
    (place' : Model' → ℕ → UInt64 → ℕ) (f : Model → Model')
    (hplace : ∀ model, place' (f model) = place model) (group : Train)
    (root : List UInt64 → Model) (h : Heap) (groups : List Group) :
    expandGroups group (fun keys => f (root keys)) place' h groups =
      (expandGroups group root place h groups).map (Prod.map id f) := by
  rw [expandGroups, expandGroups]
  cases adjustGroups h groups with
  | error e => rfl
  | ok old =>
    simp only [bind, Except.bind, hplace]
    generalize List.foldlM (m := Except Fault) _ _ old = copied
    cases copied <;> rfl

end Nali

end NaliStore
