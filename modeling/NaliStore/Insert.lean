import NaliStore.Expand

/-!
# Putting a key into the index

A `Put` finds the group of its key and puts the key there. The group may have been re-packed
on the way, and with that its first entry key raised above the key; the cell of the key is
then still the first of the group, whose entry key comes down to the key again.
-/

namespace NaliStore

open Routing Runs

theorem Cell.le_lower_entryKey {c : Cell} {lo k : UInt64} (hc : lo ≤ c.entryKey) (hk : lo ≤ k) :
    lo ≤ (c.lower k).entryKey := by
  rw [lower]
  split
  · exact hk
  · exact hc

namespace Nali

variable {s : Nali} {k v : UInt64} {c d : Cell} {g g₁ : Group} {gpre gpost : List Group} {h₁ : Heap}
  {p q tail : List Cell}

/-- A group is replaced by one whose first entry key has not been lowered, or by any when it
is the first: the root model still does not guess too low. -/
theorem Guided.set (hmodel : s.Guided) (hwf : ∀ g ∈ s.groupSpace, g.WF)
    (heq : s.groupSpace = gpre ++ g :: gpost) (hgne : g.entrySpace ≠ []) {g' : Group}
    (hfirst : gpre.flatMap Group.cells = [] ∨ g.entryKey 0 ≤ g'.entryKey 0) :
    Guided { s with groupSpace := gpre ++ g' :: gpost } := by
  intro i x hx hne hbefore
  have hlen : (gpre ++ g' :: gpost).length = s.nrGroups := by
    rw [nrGroups, heq, List.length_append, List.length_append, List.length_cons,
      List.length_cons]
  have hidx : s.groupSpace[gpre.length]? = some g := by
    rw [heq, List.getElem?_append_right le_rfl, Nat.sub_self]
    rfl
  -- apart from its own place nothing has changed
  have hother : ∀ j ≠ gpre.length, (gpre ++ g' :: gpost)[j]? = s.groupSpace[j]? := by
    intro j hj
    have hset : s.groupSpace.set gpre.length g' = gpre ++ g' :: gpost := by
      rw [heq, List.set_append_right _ _ le_rfl, Nat.sub_self]
      rfl
    rw [← hset, List.getElem?_set_ne (Ne.symm hj)]
  have hsame : ∀ (j : ℕ) (y : Group), (gpre ++ g' :: gpost)[j]? = some y → y.entrySpace ≠ [] →
      ∃ z : Group, s.groupSpace[j]? = some z ∧ z.entrySpace ≠ [] := by
    intro j y hy hyne
    by_cases hj : j = gpre.length
    · exact ⟨g, hj ▸ hidx, hgne⟩
    · exact ⟨y, by rw [← hother j hj]; exact hy, hyne⟩
  have hbefore' : ∃ j, j < i ∧ ∃ z, s.groupSpace[j]? = some z ∧ z.entrySpace ≠ [] := by
    obtain ⟨j, hj, y, hy, hyne⟩ := hbefore
    exact ⟨j, hj, hsame j y hy hyne⟩
  rw [nrGroups, hlen]
  by_cases hi : i = gpre.length
  · subst hi
    rw [List.getElem?_append_right le_rfl, Nat.sub_self, List.getElem?_cons_zero] at hx
    obtain rfl := Option.some.inj hx
    rcases hfirst with hnil | hle
    · -- there is no cell before it
      obtain ⟨j, hj, z, hz, hzne⟩ := hbefore'
      rw [heq, List.getElem?_append_left hj] at hz
      have hmem := List.mem_of_getElem? hz
      obtain ⟨e, rest, hcells, -⟩ := Group.exists_first (hwf z (by
        rw [heq]
        exact List.mem_append_left _ hmem)).entry hzne
      rw [List.flatMap_eq_nil_iff.mp hnil z hmem] at hcells
      cases hcells
    · exact (hmodel _ g hidx hgne hbefore').trans (RootModel.groupId_mono hle)
  · rw [hother i hi] at hx
    exact hmodel i x hx hne hbefore'

/-! ## The cell of the key -/

/-- What a `Put` that returns `OK` has done. -/
structure PutOk (s : Nali) (k v : UInt64) (s' : Nali) : Prop where
  /-- groups of B entries -/
  wf : ∀ g ∈ s'.groupSpace, g.WF
  /-- the root model does not guess too low -/
  model : ∀ i g, s'.groupSpace[i]? = some g → g.entrySpace ≠ [] →
    (∃ j, j < i ∧ ∃ g', s'.groupSpace[j]? = some g' ∧ g'.entrySpace ≠ []) →
      i ≤ s'.model.groupId s'.nrGroups (g.entryKey 0)
  /-- the cells have been re-arranged, and the key appended to the bucket of its cell -/
  append : ∃ h₁ p c q, Cells h₁ (p ++ c :: q) ∧
    (∀ k v, Stored h₁ (p ++ c :: q) k v ↔ Stored s.heap s.cells k v) ∧
    Routes Cell.entryKey (p ++ c :: q) k c ∧
    (h₁.bunckets c.pointer).entries < UnSortBuncket.maxEntries ∧
    s'.cells = p ++ c.lower k :: q ∧
    s'.heap = h₁.set c.pointer ((h₁.bunckets c.pointer).append k v)

section Ready

variable (hs : s.Inv) (hloc : s.Located k gpre g gpost)
  (hready : g.Ready s.heap (gpre.flatMap Group.cells) (gpost.flatMap Group.cells) k g₁ h₁ c)

include hs hloc hready

/-- What is before the group is below its first entry key from before the `Put`. -/
theorem lt_of_mem_before (hd : d ∈ gpre.flatMap Group.cells) :
    d.entryKey < g.entryKey 0 ∧ ∀ k, (h₁.bunckets d.pointer).Reads k → k < g.entryKey 0 := by
  obtain ⟨e, rest, hcells, hkey⟩ := Group.exists_first (hs.wf g hloc.mem).entry hloc.ne
  have hl := hs.cells
  rw [hloc.cells_eq] at hl
  have he : e ∈ g.cells ++ gpost.flatMap Group.cells :=
    List.mem_append_left _ (hcells ▸ List.mem_cons_self ..)
  have hlt := (List.pairwise_append.mp hl.sorted).2.2 d hd e he
  rw [← hkey]
  refine ⟨hlt, fun k hk => ?_⟩
  rw [hready.frame d hd] at hk
  exact hl.upper d (List.mem_append_left _ hd) e (List.mem_append_right _ he) hlt k hk

/-- When the group has been re-packed and its first entry key raised above the key, the first
cell can be lowered to the key. -/
theorem lower_raised (hfirst : g₁.cells = c :: tail) (hlt : k < c.entryKey)
    (hle : g.entryKey 0 ≤ k) :
    let c₁ : Cell := { c with entryKey := k }
    Cells h₁ (gpre.flatMap Group.cells ++ c₁ :: (tail ++ gpost.flatMap Group.cells)) ∧
      Routes Cell.entryKey
        (gpre.flatMap Group.cells ++ c₁ :: (tail ++ gpost.flatMap Group.cells)) k c₁ := by
  intro c₁
  have hl := hready.cells
  rw [hfirst, List.cons_append] at hl
  have hc : c ∈ gpre.flatMap Group.cells ++ c :: (tail ++ gpost.flatMap Group.cells) :=
    List.mem_append_right _ (List.mem_cons_self ..)
  have habove : ∀ d ∈ tail ++ gpost.flatMap Group.cells, k < d.entryKey := fun d hd =>
    hlt.trans ((List.pairwise_cons.mp (List.pairwise_append.mp hl.sorted).2.1).1 d hd)
  refine ⟨hl.move (fun d hd => ?_) habove fun k' hk' => (hlt.trans_le (hl.lower c hc k' hk')).le,
    List.mem_append_right _ (List.mem_cons_self ..), .inl ⟨le_rfl, fun d hd hdk => ?_⟩⟩
  · obtain ⟨hkey, hreads⟩ := lt_of_mem_before hs hloc hready hd
    exact ⟨hkey.trans_le hle, fun k' hk' => (hreads k' hk').trans_le hle⟩
  · exact hdk

/-- **The cell of the key**, among all cells. -/
theorem exists_cell (hpq : g₁.cells = p ++ c :: q) :
    ∃ c₁ : Cell, c₁.lower k = c.lower k ∧ c₁.pointer = c.pointer ∧
      Cells h₁ ((gpre.flatMap Group.cells ++ p) ++ c₁ :: (q ++ gpost.flatMap Group.cells)) ∧
      (∀ k v, Stored h₁ ((gpre.flatMap Group.cells ++ p) ++ c₁ :: (q ++ gpost.flatMap Group.cells))
        k v ↔ Stored s.heap s.cells k v) ∧
      Routes Cell.entryKey
        ((gpre.flatMap Group.cells ++ p) ++ c₁ :: (q ++ gpost.flatMap Group.cells)) k c₁ := by
  have heq : gpre.flatMap Group.cells ++ (g₁.cells ++ gpost.flatMap Group.cells) =
      (gpre.flatMap Group.cells ++ p) ++ c :: (q ++ gpost.flatMap Group.cells) := by
    rw [hpq]
    simp only [List.append_assoc, List.cons_append]
  have hl := hready.cells
  have hst := hready.stored
  rw [← hloc.cells_eq] at hst
  obtain ⟨d, tail, hfirst, hraised⟩ := hready.first
  by_cases hbelow : gpre.flatMap Group.cells = [] ∨ d.entryKey ≤ k
  · -- the whole index routes the key to its cell
    refine ⟨c, rfl, rfl, heq ▸ hl, heq ▸ hst, ?_⟩
    rw [← heq]
    exact hready.routes.of_block hl.sorted hloc.above
      (hbelow.imp id fun hle => ⟨d, hfirst ▸ List.mem_cons_self .., hle⟩)
  · rw [not_or] at hbelow
    have hlt : k < d.entryKey := lt_of_not_ge hbelow.2
    -- below the first cell of the group the key goes to that cell
    have hsorted := Group.sorted_of_cells hl
    have hdmem : d ∈ g₁.cells := hfirst ▸ List.mem_cons_self ..
    have hmin : ∀ e ∈ g₁.cells, d.entryKey ≤ e.entryKey := by
      intro e he
      rw [hfirst] at he hsorted
      rcases List.mem_cons.mp he with rfl | he
      · exact le_rfl
      · exact ((List.pairwise_cons.mp hsorted).1 e he).le
    have hcd : c = d := by
      refine eq_of_lo_eq hsorted hready.routes.mem hdmem (le_antisymm ?_ (hmin c hready.routes.mem))
      rcases hready.routes.le_or_first with hck | hall
      · exact absurd ((hmin c hready.routes.mem).trans hck) (not_le_of_gt hlt)
      · exact hall d hdmem
    subst hcd
    have hnil : p = [] := by
      cases p with
      | nil => rfl
      | cons e p =>
        obtain ⟨rfl, -⟩ := List.cons.inj (hpq.symm.trans hfirst)
        rw [hpq, List.cons_append] at hsorted
        exact absurd ((List.pairwise_cons.mp hsorted).1 e
          (List.mem_append_right _ (List.mem_cons_self ..))) (lt_irrefl _)
    subst hnil
    obtain ⟨-, rfl⟩ := List.cons.inj (hpq.symm.trans hfirst)
    rw [List.append_nil] at heq ⊢
    obtain ⟨hcells, hroutes⟩ := lower_raised hs hloc hready hfirst hlt
      (hloc.below.resolve_left hbelow.1)
    refine ⟨{ c with entryKey := k }, ?_, rfl, hcells, fun k' v' => ?_, hroutes⟩
    · rw [Cell.lower, Cell.lower, if_neg (lt_irrefl k), if_pos hlt]
    · rw [Cells.stored_move, ← heq]
      exact hst k' v'

end Ready

/-! ## Put -/

/-- A `Put` of the group that succeeds is one of the index. -/
theorem Inv.putOk_of_group (hs : s.Inv) (hloc : s.Located k gpre g gpost) {g' : Group} {h' : Heap}
    (hok : g.PutOk s.heap (gpre.flatMap Group.cells) (gpost.flatMap Group.cells) k v g' h') :
    s.PutOk k v { s with groupSpace := gpre ++ g' :: gpost, heap := h' } := by
  obtain ⟨hwf, g₁, h₁, c, p, q, hready, hpq, hcells', rfl⟩ := hok
  have hne' : g'.entrySpace ≠ [] := Group.ne_of_cells (by rw [hcells']; simp)
  refine ⟨fun x hx => ?_, fun i x hx hne hbefore => ?_, ?_⟩
  · rcases List.mem_append.mp hx with hx | hx
    · exact hs.wf x (by rw [hloc.eq]; exact List.mem_append_left _ hx)
    · rcases List.mem_cons.mp hx with rfl | hx
      · exact hwf
      · exact hs.wf x (by
          rw [hloc.eq]
          exact List.mem_append_right _ (List.mem_cons_of_mem _ hx))
  · refine hs.model.set hs.wf hloc.eq hloc.ne (hloc.below.imp id fun hle => ?_) i x hx hne
      hbefore
    -- the first entry key is at least the old one, or the key
    obtain ⟨d, tail, hfirst, hraised⟩ := hready.first
    obtain ⟨e, rest, hfirst', hkey'⟩ := Group.exists_first hwf.entry hne'
    rw [← hkey']
    cases p with
    | nil =>
      obtain ⟨rfl, -⟩ := List.cons.inj (hfirst'.symm.trans hcells')
      obtain ⟨rfl, -⟩ := List.cons.inj (hfirst.symm.trans hpq)
      exact Cell.le_lower_entryKey hraised hle
    | cons x p =>
      obtain ⟨rfl, -⟩ := List.cons.inj (hfirst'.symm.trans hcells')
      obtain ⟨rfl, -⟩ := List.cons.inj (hfirst.symm.trans hpq)
      exact hraised
  · obtain ⟨c₁, hlower, hpointer, hcells, hst, hroutes⟩ := exists_cell hs hloc hready hpq
    refine ⟨h₁, _, c₁, _, hcells, hst, hroutes, by rw [hpointer]; exact hready.room, ?_,
      by rw [hpointer]⟩
    rw [Nali.cells, List.flatMap_append, List.flatMap_cons, hcells', hlower]
    simp only [List.append_assoc, List.cons_append]

/-- A round of `Put`: it succeeds, or a B entry is full and the tree is expanded. -/
theorem Inv.round_spec (hs : s.Inv) (models : Models) (k v : UInt64) (n : ℕ) :
    (∃ s', putLoop models k v (n + 1) s = .ok (.ok, s') ∧ s.PutOk k v s') ∨
    (∃ g ∈ s.groupSpace, ∃ b ∈ g.entrySpace, b.entries = PointerBEntry.pbEntryCount) ∧
      putLoop models k v (n + 1) s = (do
        let s ← s.expandTree models
        putLoop models k v n s) := by
  obtain ⟨gpre, g, gpost, hloc⟩ := hs.exists_located k
  have hl : Cells s.heap (gpre.flatMap Group.cells ++ (g.cells ++ gpost.flatMap Group.cells)) := by
    rw [← hloc.cells_eq]
    exact hs.cells
  rcases (hs.wf g hloc.mem).put_spec hloc.ne hl models.group k v with
    ⟨g', h', hput, hok⟩ | ⟨⟨b, hb, hfour⟩, -, hput⟩
  · refine .inl ⟨_, ?_, hs.putOk_of_group hloc hok⟩
    simp only [putLoop, hloc.find, bind, Except.bind, hloc.groupAt_eq, hput, hloc.set_eq,
      reduceCtorEq, if_false]
  · refine .inr ⟨⟨g, hloc.mem, b, hb, hfour⟩, ?_⟩
    simp only [putLoop, hloc.find, bind, Except.bind, hloc.groupAt_eq, hput, hloc.set_eq, if_true]
    rw [← hloc.eq]

/-- **`Put`** returns `OK`, and appends the key to the bucket of its cell. -/
theorem Inv.put_spec (hs : s.Inv) (models : Models) (k v : UInt64) :
    ∃ s', s.put models k v = .ok (.ok, s') ∧ s.PutOk k v s' := by
  rcases hs.round_spec models k v 1 with hok | ⟨-, hput⟩
  · exact hok
  · -- after the expansion no B entry is full
    obtain ⟨s₁, hexp, hexpanded⟩ := hs.expandTree_spec models
    rw [hexp] at hput
    rcases hexpanded.inv.round_spec models k v 0 with ⟨s', hput', hok⟩ | ⟨⟨g, hg, b, hb, hfour⟩, -⟩
    · obtain ⟨hwf, hmodel, h₁, p, c, q, hcells, hst', hrest⟩ := hok
      exact ⟨s', hput.trans hput', hwf, hmodel, h₁, p, c, q, hcells,
        fun k v => (hst' k v).trans (hexpanded.stored k v), hrest⟩
    · rw [hexpanded.single g hg b hb] at hfour
      cases hfour

/-- **A `Put` of an absent key** adds it. -/
theorem PutOk.of_absent {s' : Nali} (hok : s.PutOk k v s')
    (habsent : ∀ w, ¬ Stored s.heap s.cells k w) : s'.Inv ∧
      ∀ k' v', Stored s'.heap s'.cells k' v' ↔ Stored s.heap s.cells k' v' ∨ k' = k ∧ v' = v := by
  obtain ⟨hwf, hmodel, h₁, p, c, q, hl, hst, hroutes, hroom, hcells', hheap'⟩ := hok
  refine ⟨⟨hwf, ?_, ?_, hmodel⟩, fun k' v' => ?_⟩
  · rw [hcells', hheap']
    exact hl.put hroutes hroom fun w hw => habsent w ((hst k w).mp hw)
  · rw [hcells']
    simp
  · rw [hcells', hheap', hl.stored_put, hst]

end Nali

end NaliStore
