import Mathlib.Algebra.Order.BigOperators.Group.List
import NaliStore.Parallel

/-!
# A key in the wrong group

Between `find_group` and the lock of the group there is room for a whole expansion of the
tree. `Put` looks at `is_tree_expand` once more when it has the lock, but by then it is reset,
and the key is put into the new group with the number of the old one. `Get` goes to the group
of the key and does not find it (`lost_put`).

The run is one in which a thread stops there, and another puts ascending keys until the tree has
to be expanded. That this happens is a matter of counting: as long as there is one group, it has
at most 1024 B entries, of at most 4 buckets with 15 slots each. The keys are 2^44 apart, so that
the linear root model has a value that fits into an `int` for every key.
-/

namespace NaliStore

open Routing Runs

namespace Nali

variable {s : Nali} {k v : UInt64} {g g₀ g' : Group} {rest : List Group} {h' : Heap}

section Misplaced

variable (hs : s.Inv) (heq : s.groupSpace = g₀ :: rest)

include hs heq

/-- The other groups do not see a key that is put into the first. -/
theorem get_other (habsent : ∀ w, ¬ Stored s.heap s.cells k w)
    (hok : g₀.PutOk s.heap [] (rest.flatMap Group.cells) k v g' h') (hg : g ∈ rest)
    (hne : g.entrySpace ≠ []) : g.get h' k = .ok none := by
  obtain ⟨-, g₁, h₁, c, p, q, hready, hpq, -, rfl⟩ := hok
  have hmem : g ∈ s.groupSpace := heq ▸ List.mem_cons_of_mem _ hg
  obtain ⟨d, hroute, hget, -, -⟩ := (hs.wf g hmem).exists_route hne
    ((List.pairwise_flatMap.mp hs.cells.sorted).1 g hmem) k
  have hd : d ∈ rest.flatMap Group.cells := List.mem_flatMap.mpr ⟨g, hg, hroute.mem⟩
  have hl := hready.cells
  rw [List.nil_append] at hl
  -- the bucket that has got the key is another one
  have hpointer : d.pointer ≠ c.pointer := by
    intro heq'
    obtain rfl := hl.own d (List.mem_append_right _ hd) c
      (List.mem_append_left _ hready.routes.mem) heq'
    exact lt_irrefl _ ((List.pairwise_append.mp hl.sorted).2.2 d hready.routes.mem d hd)
  rw [hget, Heap.set_of_ne hpointer]
  refine congrArg Except.ok (UnSortBuncket.get_eq_none.mpr fun w hw => ?_)
  have hstored := (hready.stored k w).mp ⟨d, List.mem_append_right _ (List.mem_append_right _ hd), hw⟩
  apply habsent w
  rw [cells, heq, List.flatMap_cons]
  exact hstored

/-- A key from the first entry key of a later group on is looked for in a later group. -/
theorem findGroup_later (hne₀ : g₀.entrySpace ≠ []) {j : ℕ} (hj : rest[j]? = some g)
    (hne : g.entrySpace ≠ []) (hle : g.entryKey 0 ≤ k) (g' : Group) (h' : Heap) :
    j + 1 ≤ s.model.groupId s.nrGroups k ∧ ∃ r x, rest[r]? = some x ∧ x.entrySpace ≠ [] ∧
      Nali.findGroup { s with groupSpace := g' :: rest, heap := h' } k = .ok (r + 1) := by
  have hjs : s.groupSpace[j + 1]? = some g := by
    rw [heq]
    exact hj
  have hguess : j + 1 ≤ s.model.groupId s.nrGroups k :=
    (hs.model (j + 1) g hjs hne ⟨0, j.succ_pos, g₀, by rw [heq]; rfl, hne₀⟩).trans
      (RootModel.groupId_mono hle)
  refine ⟨hguess, ?_⟩
  have hlt : s.model.groupId s.nrGroups k < (g' :: rest).length := by
    have hpos : 0 < s.nrGroups := by
      rw [nrGroups, heq]
      exact Nat.succ_pos _
    refine (RootModel.groupId_lt hpos k).trans_le ?_
    rw [nrGroups, heq, List.length_cons, List.length_cons]
  obtain ⟨r, -, hdown, hskip, hbelow⟩ := findDown_spec (g' :: rest) k _ hlt
  have hlen : Nali.nrGroups { s with groupSpace := g' :: rest, heap := h' } = s.nrGroups := by
    rw [nrGroups, nrGroups, heq, List.length_cons, List.length_cons]
  cases r with
  | zero =>
    -- the search does not go below the later group
    exact absurd (hskip (j + 1) g j.succ_pos hguess hj hne) (not_lt_of_ge hle)
  | succ r =>
    obtain ⟨x, hx, hxne, -⟩ := hbelow.resolve_left (Nat.succ_ne_zero r)
    refine ⟨r, x, hx, hxne, ?_⟩
    obtain ⟨hr, hxr⟩ := List.getElem?_eq_some_iff.mp hx
    rw [findGroup, findGroupFrom, hlen, hdown]
    have hdrop : (g' :: rest).drop (r + 1) = x :: (g' :: rest).drop (r + 1 + 1) := by
      rw [List.drop_eq_getElem_cons hr, hxr]
    simp only [bind, Except.bind, hdrop, findUp]
    exact if_neg fun hzero => hxne (List.eq_nil_of_length_eq_zero hzero)

/-- **A misplaced key is not found**: it has been put into the first group, and belongs to a
later one. -/
theorem get_misplaced (hne₀ : g₀.entrySpace ≠ []) (habsent : ∀ w, ¬ Stored s.heap s.cells k w)
    (hok : g₀.PutOk s.heap [] (rest.flatMap Group.cells) k v g' h') {j : ℕ}
    (hj : rest[j]? = some g) (hne : g.entrySpace ≠ []) (hle : g.entryKey 0 ≤ k) :
    Nali.get { s with groupSpace := g' :: rest, heap := h' } k = .ok none := by
  obtain ⟨hguess, r, x, hx, hxne, hfind⟩ :=
    findGroup_later hs heq hne₀ hj hne hle g' h'
  set s' : Nali := { s with groupSpace := g' :: rest, heap := h' } with hs'
  have hlen : s'.nrGroups = s.nrGroups := by
    rw [nrGroups, nrGroups, hs', heq, List.length_cons, List.length_cons]
  have hfast : s'.findFast k = .ok none := by
    obtain ⟨i, hi⟩ : ∃ i, s.model.groupId s.nrGroups k = i + 1 := ⟨_, (Nat.succ_pred (by omega)).symm⟩
    have hlt : i < rest.length := by
      have hpos : 0 < s.nrGroups := by
        rw [nrGroups, heq]
        exact Nat.succ_pos _
      have hlt := RootModel.groupId_lt (m := s.model) hpos k
      rw [hi, nrGroups, heq, List.length_cons] at hlt
      omega
    have hget : s'.groupAt (i + 1) = .ok rest[i] := by
      refine groupIn_eq ?_
      rw [hs', List.getElem?_cons_succ, List.getElem?_eq_getElem hlt]
    rw [findFast, hlen, show s'.model = s.model from rfl, hi, hget]
    simp only [bind, Except.bind, Group.fastFail]
    split
    · rfl
    · rename_i hnot
      rw [not_or] at hnot
      exact get_other hs heq habsent hok (List.getElem_mem hlt) fun hnil =>
        hnot.1 (by rw [Group.nrEntries, hnil]; rfl)
  have hslow : s'.findSlow k = .ok none := by
    have hget : s'.groupAt (r + 1) = .ok x := by
      refine groupIn_eq ?_
      rw [hs', List.getElem?_cons_succ, hx]
    rw [findSlow, onGroup_eq hfind hget]
    exact get_other hs heq habsent hok (List.mem_of_getElem? hx) hxne
  rw [get, hfast]
  exact hslow

end Misplaced

/-- A first group with few cells, and another one. -/
def Spread (s : Nali) (n : ℕ) : Prop :=
  ∃ g₀ rest, s.groupSpace = g₀ :: rest ∧ g₀.entrySpace ≠ [] ∧ g₀.cells.length ≤ n ∧
    ∃ g ∈ rest, g.entrySpace ≠ []

/-- **A key is lost** when it is put into the first group, and is above all entry keys. -/
theorem Spread.putAt_lost {n : ℕ} (hspread : s.Spread n) (hn : n ≤ maxEntryCount) (hs : s.Inv)
    (hk : ∀ c ∈ s.cells.tail, c.entryKey ≤ k) (habsent : ∀ w, ¬ Stored s.heap s.cells k w) (models : Models) (v : UInt64) :
    ∃ s', s.putAt models 0 k v = .ok (.ok, s') ∧ s'.get k = .ok none := by
  obtain ⟨g₀, rest, heq, hne₀, hcount, g, hg, hne⟩ := hspread
  obtain ⟨j, hj⟩ := List.mem_iff_getElem?.mp hg
  have hg₀ : g₀.WF := hs.wf g₀ (heq ▸ List.mem_cons_self ..)
  have hle : g.entryKey 0 ≤ k := by
    obtain ⟨c₀, tail₀, hcells₀, -⟩ := Group.exists_first hg₀.entry hne₀
    obtain ⟨c, tail, hcells, hkey⟩ :=
      Group.exists_first (hs.wf g (heq ▸ List.mem_cons_of_mem _ hg)).entry hne
    rw [← hkey]
    refine hk c ?_
    rw [cells, heq, List.flatMap_cons, hcells₀, List.cons_append, List.tail_cons]
    refine List.mem_append_right _ (List.mem_flatMap.mpr ⟨g, hg, ?_⟩)
    rw [hcells]
    exact List.mem_cons_self ..
  have hl : Cells s.heap ([] ++ (g₀.cells ++ rest.flatMap Group.cells)) := by
    have hl := hs.cells
    rwa [cells, heq, List.flatMap_cons] at hl
  rcases hg₀.put_spec hne₀ hl models.group k v with ⟨g', h', hput, hok⟩ | ⟨-, hmax, -⟩
  · refine ⟨_, ?_, get_misplaced hs heq hne₀ habsent hok hj hne hle⟩
    simp only [putAt, bind, Except.bind, groupAt, groupIn, heq, List.getElem?_cons_zero, hput,
      List.set_cons_zero]
  · rw [hg₀.count] at hmax
    exact absurd (hcount.trans hn) (Nat.not_le_of_lt hmax)

/-- A `Put` adds at most one cell to a group. -/
theorem Spread.put {gpre gpost : List Group} {n : ℕ} {pre post : List Cell} (hspread : s.Spread n)
    (heq : s.groupSpace = gpre ++ g :: gpost) (hok : g.PutOk s.heap pre post k v g' h') :
    Spread { s with groupSpace := gpre ++ g' :: gpost, heap := h' } (n + 1) := by
  obtain ⟨g₀, rest, heq₀, hne₀, hcount, x, hx, hxne⟩ := hspread
  obtain ⟨-, g₁, h₁, c, p, q, hready, hpq, hcells', -⟩ := hok
  have hlen : g'.cells.length ≤ g.cells.length + 1 := by
    have hcount := hready.count
    rw [hpq] at hcount
    rwa [hcells', List.length_append, List.length_cons, ← List.length_cons (a := c),
      ← List.length_append]
  have hne' : g'.entrySpace ≠ [] := Group.ne_of_cells (by rw [hcells']; simp)
  rw [heq] at heq₀
  cases gpre with
  | nil =>
    obtain ⟨rfl, rfl⟩ := List.cons.inj heq₀
    exact ⟨g', _, rfl, hne', hlen.trans (Nat.add_le_add_right hcount 1), x, hx, hxne⟩
  | cons y gpre =>
    obtain ⟨rfl, rfl⟩ := List.cons.inj heq₀
    exact ⟨y, _, rfl, hne₀, hcount.trans (Nat.le_succ n), g',
      List.mem_append_right _ (List.mem_cons_self ..), hne'⟩

end Nali

/-! ## Filling one group -/

theorem length_flatMap_le {α β : Type} {f : α → List β} {n : ℕ} {l : List α}
    (h : ∀ a ∈ l, (f a).length ≤ n) : (l.flatMap f).length ≤ l.length * n := by
  rw [List.length_flatMap]
  have hle : ∀ x ∈ l.map fun a => (f a).length, x ≤ n := by
    intro x hx
    obtain ⟨a, ha, rfl⟩ := List.mem_map.mp hx
    exact h a ha
  refine (List.sum_le_card_nsmul _ n hle).trans_eq ?_
  rw [List.length_map]
  rfl

namespace Group

/-- `expand` makes an array for `next_entry_count` B entries. -/
theorem length_expand {train : Train} {g g' : Group} {h : Heap} (hexpand : g.expand train h = .ok g') :
    g'.entrySpace.length ≤ g.nextEntryCount := by
  rw [expand] at hexpand
  obtain ⟨g₁, hadj, hexpand⟩ := bind_eq_ok hexpand
  have hcount : g₁.nextEntryCount = g.nextEntryCount := by
    rw [adjustEntryKey] at hadj
    split at hadj
    · cases hadj
      rfl
    · cases hadj
  simp only at hexpand
  split at hexpand
  · cases hexpand
  · rename_i hfit
    cases hexpand
    rw [List.length_map, ← hcount]
    exact Nat.le_of_not_lt hfit

/-- A group does not outgrow `max_entry_count`. -/
theorem length_putLoop (train : Train) (k v : UInt64) : ∀ (n : ℕ) (g : Group) (h : Heap)
    {ret : Status} {g' : Group} {h' : Heap}, putLoop train k v n g h = .ok (ret, g', h') →
    g.entrySpace.length ≤ maxEntryCount → g'.entrySpace.length ≤ maxEntryCount := by
  intro n
  induction n with
  | zero =>
    intro g h ret g' h' hput
    cases hput
  | succ n ih =>
    intro g h ret g' h' hput hle
    rw [putLoop] at hput
    obtain ⟨b, -, hput⟩ := bind_eq_ok hput
    obtain ⟨⟨ret₁, split, b₁, h₁⟩, -, hput⟩ := bind_eq_ok hput
    simp only at hput
    generalize (if split then g.nextEntryCount + 1 else g.nextEntryCount) = count at hput
    have hset : (g.entrySpace.set (g.findEntry k) b₁).length ≤ maxEntryCount := by
      rwa [List.length_set]
    split at hput
    · split at hput
      · cases hput
        exact hset
      · rename_i hmax
        obtain ⟨g₂, hexpand, hput⟩ := bind_eq_ok hput
        exact ih g₂ h₁ hput ((length_expand hexpand).trans (Nat.le_of_not_lt hmax))
    · cases hput
      exact hset

end Group

namespace Nali

/-- The keys that are put: the multiples of 2^44. -/
def keyAt (i : ℕ) : UInt64 := UInt64.ofNat (i * 2 ^ 44)

theorem toNat_keyAt {i : ℕ} (hi : i < 2 ^ 20) : (keyAt i).toNat = i * 2 ^ 44 :=
  UInt64.toNat_ofNat_of_lt' (by
    rw [UInt64.size]
    omega)

theorem keyAt_inj {i j : ℕ} (hi : i < 2 ^ 20) (hj : j < 2 ^ 20) (heq : keyAt i = keyAt j) : i = j := by
  have htoNat := congrArg UInt64.toNat heq
  rw [toNat_keyAt hi, toNat_keyAt hj] at htoNat
  omega

/-- The first `m` keys, with the value 0. -/
def below (m : ℕ) (k : UInt64) : Option UInt64 :=
  if k.toNat % 2 ^ 44 = 0 ∧ k.toNat / 2 ^ 44 < m then some 0 else none

/-- One group holds the first `m` keys. -/
structure Filled (s : Nali) (m : ℕ) : Prop where
  /-- what the index holds -/
  holds : s.Holds (below m)
  /-- every bucket but the first has its entry key -/
  recorded : s.Recorded fun k v => below m k = some v
  /-- the group, which has not outgrown `max_entry_count` -/
  one : ∃ g, s.groupSpace = [g] ∧ g.entrySpace.length ≤ maxEntryCount

variable {s : Nali} {k v : UInt64} {m : ℕ}

theorem below_keyAt {i : ℕ} (hi : i < 2 ^ 20) : below m (keyAt i) = if i < m then some 0 else none := by
  have hmod : i * 2 ^ 44 % 2 ^ 44 = 0 := by omega
  have hdiv : i * 2 ^ 44 / 2 ^ 44 = i := by omega
  simp only [below, toNat_keyAt hi, hmod, hdiv, true_and]

theorem exists_keyAt (hk : below m k = some v) : ∃ i < m, k = keyAt i ∧ v = 0 := by
  rw [below] at hk
  split at hk
  · rename_i hmod
    refine ⟨k.toNat / 2 ^ 44, hmod.2, ?_, (Option.some.inj hk).symm⟩
    rw [keyAt, Nat.div_mul_cancel (Nat.dvd_of_mod_eq_zero hmod.1), UInt64.ofNat_toNat]
  · cases hk

theorem update_below (hm : m < 2 ^ 20) :
    Function.update (below m) (keyAt m) (some 0) = below (m + 1) := by
  funext k
  rcases eq_or_ne k (keyAt m) with rfl | hne
  · rw [Function.update_self, below_keyAt hm, if_pos (Nat.lt_succ_self m)]
  · rw [Function.update_of_ne hne, below, below]
    have hiff : k.toNat % 2 ^ 44 = 0 ∧ k.toNat / 2 ^ 44 < m ↔
        k.toNat % 2 ^ 44 = 0 ∧ k.toNat / 2 ^ 44 < m + 1 := by
      refine ⟨fun hk => ⟨hk.1, Nat.lt_succ_of_lt hk.2⟩, fun hk => ⟨hk.1, ?_⟩⟩
      rcases Nat.lt_succ_iff_lt_or_eq.mp hk.2 with hlt | heq
      · exact hlt
      · refine absurd ?_ hne
        rw [keyAt, ← heq, Nat.div_mul_cancel (Nat.dvd_of_mod_eq_zero hk.1), UInt64.ofNat_toNat]
    simp only [hiff]

theorem also_below (hm : m < 2 ^ 20) (k v : UInt64) :
    Also (fun k v => below m k = some v) (keyAt m) 0 k v ↔ below (m + 1) k = some v := by
  rw [← update_below hm, Also]
  rcases eq_or_ne k (keyAt m) with rfl | hne
  · have hnone : below m (keyAt m) = none := by rw [below_keyAt hm, if_neg (lt_irrefl m)]
    rw [Function.update_self, hnone, Option.some.injEq]
    constructor
    · rintro (hk | ⟨-, rfl⟩)
      · cases hk
      · rfl
    · rintro rfl
      exact .inr ⟨rfl, rfl⟩
  · rw [Function.update_of_ne hne]
    exact or_iff_left fun hk => hne hk.1

theorem filled_init (models : Models) (model : RootModel) (heap : Heap) (minKey : UInt64) :
    (init models model heap minKey).Filled 0 := by
  have hbelow : below 0 = fun _ => none := funext fun k => if_neg fun hk => Nat.not_lt_zero _ hk.2
  refine ⟨?_, (recorded_init models model heap minKey).congr fun k v => ?_,
    (Group.init models.group heap minKey).1, rfl, Nat.le_of_ble_eq_true rfl⟩
  · rw [hbelow]
    exact holds_init models model heap minKey
  · rw [hbelow]
    exact ⟨False.elim, fun hk => nomatch hk⟩

namespace Filled

variable (h : s.Filled m)

include h

theorem exists_located (k : UInt64) :
    ∃ g, s.groupSpace = [g] ∧ g.entrySpace.length ≤ maxEntryCount ∧ s.Located k [] g [] := by
  obtain ⟨g, heq, hlen⟩ := h.one
  obtain ⟨gpre, g₁, gpost, hloc⟩ := h.holds.inv.exists_located k
  have hsplit := heq.symm.trans hloc.eq
  cases gpre with
  | nil =>
    obtain ⟨rfl, rfl⟩ := List.cons.inj hsplit
    exact ⟨g, heq, hlen, hloc⟩
  | cons x gpre =>
    have hnil := (List.cons.inj hsplit).2
    exact absurd hnil.symm (List.append_ne_nil_of_right_ne_nil _ (List.cons_ne_nil _ _))

theorem findGroup_eq (k : UInt64) : s.findGroup k = .ok 0 := by
  obtain ⟨g, -, -, hloc⟩ := h.exists_located k
  exact hloc.find

theorem length_cells_le : s.cells.length ≤ maxEntryCount * PointerBEntry.pbEntryCount := by
  obtain ⟨g, heq, hlen⟩ := h.one
  rw [cells, heq, List.flatMap_singleton, Group.cells]
  refine (length_flatMap_le fun b hb => ?_).trans (Nat.mul_le_mul_right _ hlen)
  rw [PointerBEntry.length_cells]
  exact ((h.holds.inv.wf g (heq ▸ List.mem_singleton_self g)).entry b hb).le

/-- **There is room for so many keys.** -/
theorem le (hm : m ≤ 2 ^ 20) :
    m ≤ maxEntryCount * PointerBEntry.pbEntryCount * UnSortBuncket.maxEntries := by
  let slots : List UInt64 := s.cells.flatMap fun c =>
    (List.range (s.heap.bunckets c.pointer).entries).map (s.heap.bunckets c.pointer).key
  have hlen : slots.length ≤ s.cells.length * UnSortBuncket.maxEntries := by
    refine length_flatMap_le fun c hc => ?_
    rw [List.length_map, List.length_range]
    exact (h.holds.inv.cells.distinct c hc).le
  -- every key has a slot
  have hsub : (List.range m).map keyAt ⊆ slots := by
    intro k hk
    obtain ⟨i, hi, rfl⟩ := List.mem_map.mp hk
    rw [List.mem_range] at hi
    have hbelow : below m (keyAt i) = some 0 := by
      rw [below_keyAt (hi.trans_le hm), if_pos hi]
    obtain ⟨c, hc, j, hj, hrec⟩ := (h.holds.stored _ _).mp hbelow
    refine List.mem_flatMap.mpr ⟨c, hc, List.mem_map.mpr ⟨j, List.mem_range.mpr hj, ?_⟩⟩
    rw [UnSortBuncket.key, hrec]
  have hnodup : ((List.range m).map keyAt).Nodup := by
    refine List.Nodup.map_on (fun i hi j hj heq => ?_) List.nodup_range
    rw [List.mem_range] at hi hj
    exact keyAt_inj (hi.trans_le hm) (hj.trans_le hm) heq
  have hle := (hnodup.subperm hsub).length_le
  rw [List.length_map, List.length_range] at hle
  exact hle.trans (hlen.trans (Nat.mul_le_mul_right _ h.length_cells_le))

/-- The next key is put, or the tree is to be expanded. -/
theorem putAt_spec (hm : m < 2 ^ 20) (models : Models) :
    (∃ s', s.putAt models 0 (keyAt m) 0 = .ok (.ok, s') ∧ s'.Filled (m + 1)) ∨
      maxEntryCount < s.cells.length ∧ s.putAt models 0 (keyAt m) 0 = .ok (.full, s) := by
  obtain ⟨g, heq, hlen, hloc⟩ := h.exists_located (keyAt m)
  have hk : below m (keyAt m) = none := by rw [below_keyAt hm, if_neg (lt_irrefl m)]
  have hg := h.holds.inv.wf g hloc.mem
  rcases h.holds.inv.putAt_spec hloc models 0 with ⟨g', h', hput, hok⟩ | ⟨-, hmax, hput⟩
  · have hholds := h.holds.of_putOk hk (h.holds.inv.putOk_of_group hloc hok)
    rw [update_below hm] at hholds
    refine .inl ⟨_, hput, hholds, (h.recorded.of_putAt hloc.find hput).congr (also_below hm), g', rfl, ?_⟩
    -- the `Put` of the group that has been made
    rw [putAt] at hput
    obtain ⟨g₁, hg₁, hput⟩ := bind_eq_ok hput
    obtain rfl := Except.ok.inj (hg₁.symm.trans hloc.groupAt_eq)
    obtain ⟨⟨ret, g₂, h₂⟩, hput', hrest⟩ := bind_eq_ok hput
    obtain ⟨-, hnali⟩ := Prod.mk.inj (Except.ok.inj hrest)
    have hgroups := congrArg Nali.groupSpace hnali
    simp only [hloc.set_eq, List.nil_append, List.cons.injEq, and_true] at hgroups
    subst hgroups
    exact Group.length_putLoop _ _ _ _ _ _ hput' hlen
  · refine .inr ⟨?_, hput⟩
    rw [cells, heq, List.flatMap_singleton, ← hg.count]
    exact hmax

end Filled

/-! ## After the expansion -/

/-- A linear root model, with a cell for every eight keys. -/
def linear : RootModel where
  predict k := .ofInt (k.toNat / 2 ^ 47)
  mono {a b} hab := by
    have hle : a.toNat ≤ b.toNat := UInt64.le_iff_toNat_le.mp hab
    have ha := a.toNat_lt
    have hb := b.toNat_lt
    rw [Int32.toInt_ofInt_of_le (by omega) (by omega), Int32.toInt_ofInt_of_le (by omega) (by omega)]
    omega

/-- Every training of the root model gives the linear one. -/
def linearModels : Models := ⟨fun _ _ => 0, fun _ => linear⟩

theorem linear_groupId (n : ℕ) (hn : 0 < n) (k : UInt64) :
    linear.groupId n k = min (k.toNat / 2 ^ 47 / 64) (n - 1) := by
  have hk := k.toNat_lt
  have hpredict : (linear.predict k).toInt = (k.toNat : ℤ) / 2 ^ 47 :=
    Int32.toInt_ofInt_of_le (by omega) (by omega)
  simp only [RootModel.groupId, guessGroup, RootModel.bmod_quotient]
  rw [hpredict]
  omega

/-- There are at most as many cells as there are entry keys, the first cell apart. -/
theorem length_le_of_entryKey {l : List Cell} {n : ℕ}
    (hsorted : l.Pairwise fun c d => c.entryKey < d.entryKey)
    (hkey : ∀ c ∈ l.tail, ∃ i < n, c.entryKey = keyAt i) : l.length ≤ n + 1 := by
  have hnodup : (l.tail.map Cell.entryKey).Nodup :=
    List.pairwise_map.mpr ((hsorted.sublist (List.tail_sublist l)).imp fun h => h.ne)
  have hsub : (l.tail.map Cell.entryKey) ⊆ (List.range n).map keyAt := by
    intro k hk
    obtain ⟨c, hc, rfl⟩ := List.mem_map.mp hk
    obtain ⟨i, hi, heq⟩ := hkey c hc
    exact List.mem_map.mpr ⟨i, List.mem_range.mpr hi, heq.symm⟩
  have hle := (hnodup.subperm hsub).length_le
  rw [List.length_map, List.length_map, List.length_range, List.length_tail] at hle
  omega

/-- The entry keys are keys that were put, that of the first cell apart. -/
theorem Recorded.exists_entryKey (hs : s.Recorded fun k v => below m k = some v) {c : Cell}
    (hc : c ∈ s.cells.tail) : ∃ i < m, c.entryKey = keyAt i := by
  obtain ⟨v, hv⟩ := hs.content.anchored c hc
  obtain ⟨i, hi, hkey, -⟩ := exists_keyAt (hs.content.pairs _ _ ⟨c, List.mem_of_mem_tail hc, hv⟩)
  exact ⟨i, hi, hkey⟩

/-- **The cells are dealt out to several groups**, few of them to the first. -/
theorem Filled.spread {s' : Nali} (h : s.Filled m) (hm : 0 < m) (hm20 : m ≤ 2 ^ 20)
    (hmax : maxEntryCount < s.cells.length) (hexpanded : Expanded linearModels s s')
    (hrecorded : s'.Recorded fun k v => below m k = some v) : s'.Spread 513 := by
  obtain ⟨keys, hmodel⟩ := hexpanded.model
  have hlinear : s'.model = linear := hmodel
  have hlength := hexpanded.length
  have hn : 16 < s'.nrGroups := by
    rw [hexpanded.nrGroups, minEntryCount]
    rw [maxEntryCount] at hmax
    omega
  have hdealt : ∀ (i : ℕ) (g : Group), s'.groupSpace[i]? = some g → ∀ c ∈ g.cells,
      min (c.entryKey.toNat / 2 ^ 47 / 64) (s'.nrGroups - 1) = i := by
    intro i g hg c hc
    rw [← linear_groupId _ (by omega), ← hlinear]
    exact hexpanded.dealt i g hg c hc
  -- 512 keys are as large as the range of a group
  have hentry : ∀ c ∈ s'.cells.tail, c.entryKey.toNat < 2 ^ 53 → ∃ i < 512, c.entryKey = keyAt i := by
    intro c hc hlt
    obtain ⟨i, hi, hkey⟩ := hrecorded.exists_entryKey hc
    rw [hkey, toNat_keyAt (hi.trans_le hm20)] at hlt
    exact ⟨i, by omega, hkey⟩
  -- the cell of the key 0 is in the first group
  have hzero : below m 0 = some 0 := if_pos ⟨rfl, hm⟩
  obtain ⟨c, hc, hhas⟩ := (hexpanded.stored 0 0).mpr ((h.holds.stored 0 0).mp hzero)
  have hkey : c.entryKey.toNat = 0 :=
    Nat.le_zero.mp (UInt64.le_iff_toNat_le.mp (hexpanded.inv.cells.lower c hc 0 hhas.reads))
  obtain ⟨g₀, hg₀, hcg₀⟩ := List.mem_flatMap.mp hc
  obtain ⟨i, hi⟩ := List.mem_iff_getElem?.mp hg₀
  obtain rfl : i = 0 := by
    rw [← hdealt i g₀ hi c hcg₀, hkey]
    omega
  -- and there is one that is not
  obtain ⟨d, hd, hdkey⟩ : ∃ d ∈ s'.cells, 2 ^ 53 ≤ d.entryKey.toNat := by
    by_contra hnone
    have hle := length_le_of_entryKey (n := 512) hexpanded.inv.cells.sorted fun d hd =>
      hentry d hd (Nat.lt_of_not_le fun hge => hnone ⟨d, List.mem_of_mem_tail hd, hge⟩)
    rw [maxEntryCount] at hmax
    omega
  obtain ⟨g, hg, hdg⟩ := List.mem_flatMap.mp hd
  obtain ⟨j, hj⟩ := List.mem_iff_getElem?.mp hg
  have hjpos : j ≠ 0 := by
    rw [← hdealt j g hj d hdg]
    omega
  obtain ⟨rest, hrest⟩ : ∃ rest, s'.groupSpace = g₀ :: rest := by
    cases hgroups : s'.groupSpace with
    | nil =>
      rw [hgroups] at hi
      cases hi
    | cons x rest =>
      rw [hgroups] at hi
      exact ⟨rest, by rw [Option.some.inj hi]⟩
  refine ⟨g₀, rest, hrest, Group.ne_of_cells (List.ne_nil_of_mem hcg₀), ?_, g, ?_,
    Group.ne_of_cells (List.ne_nil_of_mem hdg)⟩
  · have hcells : s'.cells = g₀.cells ++ rest.flatMap Group.cells := by
      rw [cells, hrest, List.flatMap_cons]
    refine length_le_of_entryKey
      ((List.pairwise_flatMap.mp hexpanded.inv.cells.sorted).1 g₀ hg₀) fun e he => ?_
    have hfirst := hdealt 0 g₀ hi e (List.mem_of_mem_tail he)
    refine hentry e ?_ (by omega)
    rw [hcells, List.tail_append_of_ne_nil (List.ne_nil_of_mem hcg₀)]
    exact List.mem_append_left _ he
  · rw [hrest] at hj
    obtain ⟨j, rfl⟩ := Nat.exists_eq_succ_of_ne_zero hjpos
    exact List.mem_of_getElem? hj

/-- There are as many new groups as have been counted. -/
theorem length_copied {models : Models} {nali : Nali} {n : ℕ} {counted groups : List Group}
    (hbegin : s.beginExpand models = .ok (nali, n, counted))
    (hfold : nali.groupSpace.foldlM
      (fun groups g => copyEntries nali.model n groups g.eentries) counted = .ok groups) :
    groups.length = n := by
  obtain ⟨old, -, hbegin⟩ := bind_eq_ok hbegin
  have hcount : ∀ (m : RootModel) (entries : List EEntry) (groups : List Group),
      (countEntries m n groups entries).length = groups.length := by
    intro m entries
    induction entries with
    | nil => exact fun groups => rfl
    | cons e entries ih =>
      intro groups
      exact (ih _).trans (List.length_modify ..)
  have hcounted : counted.length = n := by
    simp only [Except.ok.injEq, Prod.mk.injEq] at hbegin
    obtain ⟨-, rfl, rfl⟩ := hbegin
    rw [hcount, List.length_replicate]
  rw [copyGroups_eq] at hfold
  refine foldlM_invariant (P := fun _ (groups : List Group) => groups.length = n)
    (fun _ e _ groups groups' _ hlen happend => ?_) hcounted hfold
  rw [appendAt] at happend
  split at happend
  · cases happend
  · obtain ⟨g, -, hset⟩ := bind_eq_ok happend
    rw [← Except.ok.inj hset, List.length_set, hlen]

end Nali

/-! ## The run -/

namespace Par

variable {models : Models} {s s' : Nali} {locks : List Bool} {threads : ℕ → PutPc} {t : ℕ}
  {k v : UInt64} {id : ℕ} {returned : List (UInt64 × UInt64)}

/-- Any run. -/
abbrev Reaches (models : Models) (s : Par) (acts : List ParAct) (s' : Par) : Prop :=
  Run (Par.step models) (fun _ _ => True) s acts s'

/-- From the lock of the group to the end of the critical section. -/
theorem run_put (hlock : locks[id]? = some false) {ret : Status}
    (hput : s.putAt models id k v = .ok (ret, s')) :
    Reaches models ⟨s, locks, false, Function.update threads t (.lock k v id), returned⟩
      [.run t, .run t, .run t]
      ⟨s', locks.set id true, false, Function.update threads t (.unlock k v id ret), returned⟩ := by
  refine .cons trivial (t := ⟨s, locks.set id true, false,
      Function.update threads t (.check k v id), returned⟩) ?_
    (.cons trivial (t := ⟨s, locks.set id true, false,
      Function.update threads t (.put k v id), returned⟩) ?_ (.single trivial ?_))
  · simp only [Par.step, runThread, Function.update_self, hlock, goto, Function.update_idem]
  · simp only [Par.step, runThread, Function.update_self, goto, Function.update_idem,
      Bool.false_eq_true, if_false]
  · simp only [Par.step, runThread, Function.update_self, bind, Except.bind, hput, goto,
      Function.update_idem]

theorem set_lock (hlock : locks[id]? = some false) : (locks.set id true).set id false = locks := by
  obtain ⟨hlt, heq⟩ := List.getElem?_eq_some_iff.mp hlock
  rw [List.set_set, ← heq, List.set_getElem_self]

theorem lt_length_lock (hlock : locks[id]? = some false) : id < (locks.set id true).length := by
  rw [List.length_set]
  exact (List.getElem?_eq_some_iff.mp hlock).1

/-- A `Put` that has its group and succeeds. -/
theorem run_lock (hlock : locks[id]? = some false)
    (hput : s.putAt models id k v = .ok (.ok, s')) :
    Reaches models ⟨s, locks, false, Function.update threads t (.lock k v id), returned⟩
      [.run t, .run t, .run t, .run t]
      ⟨s', locks, false, Function.update threads t .idle, (k, v) :: returned⟩ := by
  refine (run_put hlock hput).append (.single (a := ParAct.run t) trivial ?_)
  simp only [Par.step, runThread, Function.update_self, lt_length_lock hlock, if_true, reduceCtorEq,
    if_false, set_lock hlock, goto, Function.update_idem]

/-- A `Put` up to the lock of its group. -/
theorem run_find (hfind : s.findGroup k = .ok id) :
    Reaches models ⟨s, locks, false, Function.update threads t (.transBegin k v), returned⟩
      [.run t, .run t]
      ⟨s, locks, false, Function.update threads t (.lock k v id), returned⟩ := by
  refine .cons trivial (t := ⟨s, locks, false,
    Function.update threads t (.findGroup k v), returned⟩) ?_ (.single trivial ?_)
  · simp only [Par.step, runThread, Function.update_self, goto, Function.update_idem,
      Bool.false_eq_true, if_false]
  · simp only [Par.step, runThread, Function.update_self, bind, Except.bind, hfind, goto,
      Function.update_idem]

/-- A call of `Put`. -/
theorem run_call (hidle : threads t = .idle) :
    Reaches models ⟨s, locks, false, threads, returned⟩ [.call t k v]
      ⟨s, locks, false, Function.update threads t (.transBegin k v), returned⟩ := by
  refine .single trivial ?_
  simp only [Par.step, hidle, goto]

/-- The `Put` of a group that is full leads to `ExpandTree`. -/
theorem run_full (hlock : locks[id]? = some false)
    (hput : s.putAt models id k v = .ok (.full, s')) :
    Reaches models ⟨s, locks, false, Function.update threads t (.lock k v id), returned⟩
      [.run t, .run t, .run t, .run t]
      ⟨s', locks, false, Function.update threads t (.expandTree k v), returned⟩ := by
  refine (run_put hlock hput).append (.single (a := ParAct.run t) trivial ?_)
  simp only [Par.step, runThread, Function.update_self, lt_length_lock hlock, if_true,
    set_lock hlock, goto, Function.update_idem]

/-- The copying of the old groups. -/
theorem run_copy {n : ℕ} {groups : List Group} : ∀ (rest : List Group) (copied : ℕ)
    (groups' : List Group), s.groupSpace.drop copied = rest →
    rest.foldlM (fun groups g => Nali.copyEntries s.model n groups g.eentries) groups' = .ok groups →
    ∃ acts, Reaches models
      ⟨s, locks, true, Function.update threads t (.copy k v n groups' copied), returned⟩ acts
      ⟨{ s with groupSpace := Nali.retrainGroups models.group groups }, List.replicate n false, true,
        Function.update threads t (.reset k v), returned⟩ := by
  intro rest
  induction rest with
  | nil =>
    intro copied groups' hdrop hfold
    have hend : s.groupSpace[copied]? = none :=
      List.getElem?_eq_none (List.drop_eq_nil_iff.mp hdrop)
    obtain rfl := Except.ok.inj hfold
    refine ⟨[.run t], .single trivial ?_⟩
    simp only [Par.step, runThread, Function.update_self, hend, goto, Function.update_idem]
  | cons g rest ih =>
    intro copied groups' hdrop hfold
    have hget : s.groupSpace[copied]? = some g := by
      have hhead := congrArg (·[0]?) hdrop
      simpa only [List.getElem?_drop, Nat.add_zero, List.getElem?_cons_zero] using hhead
    rw [List.foldlM_cons] at hfold
    obtain ⟨groups₁, hcopy, hfold⟩ := bind_eq_ok hfold
    obtain ⟨acts, hrun⟩ := ih (copied + 1) groups₁ (by
      rw [← List.drop_drop, hdrop, List.drop_one, List.tail_cons]) hfold
    refine ⟨.run t :: acts, .cons trivial ?_ hrun⟩
    simp only [Par.step, runThread, Function.update_self, hget, bind, Except.bind, hcopy, goto,
      Function.update_idem]

/-- **An expansion** in which no thread has to wait. -/
theorem run_expandTree (hexpand : s.expandTree models = .ok s')
    (hwait : ∀ t, (threads t).notify = threads t) :
    ∃ acts, Reaches models ⟨s, locks, false, Function.update threads t (.expandTree k v), returned⟩
      acts ⟨s', List.replicate s'.nrGroups false, false, Function.update threads t (.transBegin k v),
        returned⟩ := by
  rw [Nali.expandTree_eq] at hexpand
  obtain ⟨⟨nali, n, counted⟩, hbegin, hexpand⟩ := bind_eq_ok hexpand
  obtain ⟨groups, hfold, hexpand⟩ := bind_eq_ok hexpand
  obtain rfl := Except.ok.inj hexpand
  have hlen : (Nali.retrainGroups models.group groups).length = n := by
    rw [Nali.retrainGroups, List.length_map]
    exact Nali.length_copied hbegin hfold
  obtain ⟨acts, hcopy⟩ : ∃ acts, Reaches models
      ⟨nali, locks, true, Function.update threads t (.copy k v n counted 0), returned⟩ acts
      ⟨{ nali with groupSpace := Nali.retrainGroups models.group groups }, List.replicate n false,
        true, Function.update threads t (.reset k v), returned⟩ :=
    run_copy nali.groupSpace 0 counted rfl hfold
  refine ⟨.run t :: (acts ++ [.run t]), .cons trivial ?_ (hcopy.append (.single trivial ?_))⟩
  · simp only [Par.step, runThread, Function.update_self, Bool.false_eq_true, if_false, bind,
      Except.bind, hbegin, goto, Function.update_idem]
  · -- no thread waits
    have hnotify : Function.update (fun t' => (Function.update threads t (.reset k v) t').notify) t
        (.transBegin k v) = Function.update threads t (.transBegin k v) := by
      funext t'
      rcases eq_or_ne t' t with rfl | hne
      · rw [Function.update_self, Function.update_self]
      · rw [Function.update_of_ne hne, Function.update_of_ne hne, Function.update_of_ne hne, hwait]
    simp only [Par.step, runThread, Function.update_self, goto, hnotify, Nali.nrGroups, hlen]

/-- The key that is lost. -/
def lostKey : UInt64 := Nali.keyAt 1000000

/-- One thread has found the only group for the key. -/
def parked : ℕ → PutPc := Function.update (fun _ => .idle) 1 (.lock lostKey 7 0)

/-- A `Put` of thread 0 while thread 1 does not go on. -/
theorem run_parked (hfind : s.findGroup k = .ok id) (hlock : locks[id]? = some false)
    (hput : s.putAt models id k v = .ok (.ok, s')) :
    Reaches models ⟨s, locks, false, Function.update parked 0 (.transBegin k v), returned⟩
      [.run 0, .run 0, .run 0, .run 0, .run 0, .run 0]
      ⟨s', locks, false, parked, (k, v) :: returned⟩ := by
  have hidle : Function.update parked 0 .idle = parked := Function.update_eq_self 0 parked
  have hlocks : Reaches models
      ⟨s, locks, false, Function.update parked 0 (.transBegin k v), returned⟩ [.run 0, .run 0]
      ⟨s, locks, false, Function.update parked 0 (.lock k v id), returned⟩ := run_find hfind
  have hrun := hlocks.append (run_lock hlock hput)
  rwa [hidle] at hrun

/-- The number of keys one group has room for. -/
def capacity : ℕ := maxEntryCount * PointerBEntry.pbEntryCount * UnSortBuncket.maxEntries

theorem capacity_eq : capacity = 61440 := rfl

/-- **Keys are put until the tree is to be expanded.** -/
theorem exists_full (models : Models) : ∀ (n m : ℕ) (s : Nali) (returned : List (UInt64 × UInt64)),
    m + n = capacity + 1 → s.Filled m → (maxEntryCount < s.cells.length → 0 < m) →
    ∃ acts m' s' returned', 0 < m' ∧ m' ≤ capacity ∧ s'.Filled m' ∧
      maxEntryCount < s'.cells.length ∧ Reaches models ⟨s, [false], false, parked, returned⟩ acts
        ⟨s', [false], false, Function.update parked 0 (.expandTree (Nali.keyAt m') 0), returned'⟩ := by
  intro n
  induction n with
  | zero =>
    -- there is no room for the keys put so far
    intro m s returned hm hs _
    rw [capacity_eq] at hm
    have hle : m ≤ capacity := hs.le (by omega)
    rw [capacity_eq] at hle
    omega
  | succ n ih =>
    intro m s returned hm hs hpos
    rw [capacity_eq] at hm
    have hcall : Reaches models ⟨s, [false], false, parked, returned⟩ [.call 0 (Nali.keyAt m) 0]
        ⟨s, [false], false, Function.update parked 0 (.transBegin (Nali.keyAt m) 0), returned⟩ :=
      run_call rfl
    have hfind := hs.findGroup_eq (Nali.keyAt m)
    rcases hs.putAt_spec (by omega) models with ⟨s₁, hput, hs₁⟩ | ⟨hmax, hput⟩
    · obtain ⟨acts, m', s', returned', hm', hcap, hs', hmax, hrun⟩ :=
        ih (m + 1) s₁ ((Nali.keyAt m, 0) :: returned) (by rw [capacity_eq]; omega) hs₁
          fun _ => m.succ_pos
      exact ⟨_, m', s', returned', hm', hcap, hs', hmax,
        (hcall.append (run_parked hfind rfl hput)).append hrun⟩
    · refine ⟨_, m, s, returned, hpos hmax, by rw [capacity_eq]; omega, hs, hmax,
        (hcall.append (run_find hfind)).append (run_full rfl hput)⟩

/-- **A `Put` is lost.** Thread 1 finds the group for the key and goes no further. Thread 0 puts
the keys 0, 2^44, 2 * 2^44, ... and expands the tree on the way. Then thread 1 goes on with the
number of the group it has found, and its `Put` returns `OK`. When both have returned `Get` does
not find the key. -/
theorem lost_put : ∃ acts s,
    Run (Par.step Nali.linearModels) (fun _ _ => True)
      (start Nali.linearModels Nali.linear Nali.zeroHeap 0) acts s ∧
    (∀ t, s.threads t = .idle) ∧ (lostKey, 7) ∈ s.returned ∧ s.nali.get lostKey = .ok none := by
  have hinit := Nali.filled_init Nali.linearModels Nali.linear Nali.zeroHeap 0
  set s₀ := Nali.init Nali.linearModels Nali.linear Nali.zeroHeap 0 with hs₀
  have hpark : Reaches Nali.linearModels (start Nali.linearModels Nali.linear Nali.zeroHeap 0)
      ([.call 1 lostKey 7] ++ [.run 1, .run 1]) ⟨s₀, [false], false, parked, []⟩ :=
    (run_call rfl).append (run_find (hinit.findGroup_eq lostKey))
  -- the tree is expanded
  obtain ⟨acts, m, s, returned, hm, hcap, hs, hmax, hfull⟩ :=
    exists_full Nali.linearModels (capacity + 1) 0 s₀ [] (Nat.zero_add _) hinit fun hmax =>
      absurd hmax (by decide)
  rw [capacity_eq] at hcap
  obtain ⟨s₁, hexpand, hexpanded⟩ := hs.holds.inv.expandTree_spec Nali.linearModels
  obtain ⟨acts₁, hrun₁⟩ : ∃ acts, Reaches Nali.linearModels
      ⟨s, [false], false, Function.update parked 0 (.expandTree (Nali.keyAt m) 0), returned⟩ acts
      ⟨s₁, List.replicate s₁.nrGroups false, false,
        Function.update parked 0 (.transBegin (Nali.keyAt m) 0), returned⟩ :=
    run_expandTree hexpand fun t => by
      rcases eq_or_ne t 1 with rfl | hne
      · rfl
      · rw [parked, Function.update_of_ne hne]
        rfl
  -- thread 0 puts its key
  have hholds₁ : s₁.Holds (Nali.below m) :=
    ⟨hexpanded.inv, fun k v => (hs.holds.stored k v).trans (hexpanded.stored k v).symm⟩
  obtain ⟨gpre, g, gpost, hloc⟩ := hexpanded.inv.exists_located (Nali.keyAt m)
  have hlock : ∀ {id : ℕ}, id ≤ gpre.length →
      (List.replicate s₁.nrGroups false)[id]? = some false := by
    intro id hid
    have hlt : id < s₁.nrGroups := by
      rw [Nali.nrGroups, hloc.eq, List.length_append, List.length_cons]
      omega
    rw [List.getElem?_replicate, if_pos hlt]
  have hm20 : m < 2 ^ 20 := by omega
  have hbelow : Nali.below m (Nali.keyAt m) = none := by rw [Nali.below_keyAt hm20, if_neg (lt_irrefl m)]
  rcases hexpanded.inv.putAt_spec hloc Nali.linearModels 0 with
    ⟨g', h', hput, hok⟩ | ⟨⟨b, hb, hfour⟩, -, -⟩
  · have hholds₂ := hholds₁.of_putOk hbelow (hexpanded.inv.putOk_of_group hloc hok)
    rw [Nali.update_below hm20] at hholds₂
    have hrecorded₁ := hs.recorded.expandTree hexpand
    have hrecorded₂ := (hrecorded₁.of_putAt hloc.find hput).congr (Nali.also_below hm20)
    have hspread₂ := (hs.spread hm hm20.le hmax hexpanded hrecorded₁).put hloc.eq hok
    set s₂ : Nali := { s₁ with groupSpace := gpre ++ g' :: gpost, heap := h' } with hs₂
    have hrun₂ : Reaches Nali.linearModels
        ⟨s₁, List.replicate s₁.nrGroups false, false,
          Function.update parked 0 (.transBegin (Nali.keyAt m) 0), returned⟩ _
        ⟨s₂, List.replicate s₁.nrGroups false, false, parked, (Nali.keyAt m, 0) :: returned⟩ :=
      run_parked hloc.find (hlock le_rfl) hput
    -- thread 1 puts its key into the first group
    have habsent : Nali.below (m + 1) lostKey = none := by
      rw [lostKey, Nali.below_keyAt (by decide), if_neg (by omega)]
    have hle : ∀ c ∈ s₂.cells.tail, c.entryKey ≤ lostKey := by
      intro c hc
      obtain ⟨i, hi, hkey⟩ := hrecorded₂.exists_entryKey hc
      rw [hkey, lostKey, UInt64.le_iff_toNat_le, Nali.toNat_keyAt (by omega),
        Nali.toNat_keyAt (by decide)]
      omega
    obtain ⟨s₃, hput₃, hget₃⟩ := hspread₂.putAt_lost (by decide) hholds₂.inv hle
      (hholds₂.absent habsent) Nali.linearModels 7
    have hrun₃ : Reaches Nali.linearModels
        ⟨s₂, List.replicate s₁.nrGroups false, false, parked, (Nali.keyAt m, 0) :: returned⟩ _
        ⟨s₃, List.replicate s₁.nrGroups false, false, Function.update (fun _ => .idle) 1 .idle,
          (lostKey, 7) :: (Nali.keyAt m, 0) :: returned⟩ :=
      run_lock (hlock (Nat.zero_le _)) hput₃
    exact ⟨_, _, hpark.append (hfull.append (hrun₁.append (hrun₂.append hrun₃))),
      congrFun (Function.update_eq_self 1 fun _ => PutPc.idle), List.mem_cons_self .., hget₃⟩
  · -- after an expansion no B entry is full
    rw [hexpanded.single g hloc.mem b hb] at hfour
    cases hfour

end Par

end NaliStore
