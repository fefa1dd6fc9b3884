import NaliStore.Rounds
import Mathlib.Data.Multiset.Range

/-!
# Splitting a bucket with repeated keys

`Put` does not look for the key, so a bucket may hold a key several times. `Expand_` then
removes by key what it has copied by slot: each round reads the key of a slot of the upper
half, and removes the first slot with that key. What makes this come out right is that slots
with one key are sorted in the order of the bucket: the slot that is removed is never one
whose key is still to be read. So the lower half is left, as often as its keys were there.
-/

namespace NaliStore

namespace UnSortBuncket

variable {b c : UnSortBuncket} {k v : UInt64} {i n : ℕ}

/-! ## The order of the slots -/

/-- By key, and in the order of the bucket where the keys are equal. -/
def Before (b : UnSortBuncket) (i j : ℕ) : Prop := b.key i < b.key j ∨ b.key i = b.key j ∧ i < j

theorem Before.le {j : ℕ} (h : b.Before i j) : b.key i ≤ b.key j := by
  rcases h with hlt | ⟨heq, -⟩
  · exact hlt.le
  · exact heq.le

theorem before_of_lt {j : ℕ} (hle : b.key i ≤ b.key j) (hij : i < j) : b.Before i j := by
  rcases hle.lt_or_eq with hlt | heq
  · exact .inl hlt
  · exact .inr ⟨heq, hij⟩

theorem pairwise_orderedInsert {l : List ℕ} (hl : l.Pairwise b.Before) (hi : ∀ j ∈ l, i < j) :
    (l.orderedInsert (fun i j => b.key i ≤ b.key j) i).Pairwise b.Before := by
  induction l with
  | nil => exact List.pairwise_singleton _ _
  | cons j l ih =>
    obtain ⟨hj, hl'⟩ := List.pairwise_cons.mp hl
    rw [List.orderedInsert]
    split
    · -- it comes before all others
      rename_i hle
      refine List.pairwise_cons.mpr ⟨fun x hx => before_of_lt ?_ (hi x hx), hl⟩
      rcases List.mem_cons.mp hx with rfl | hx
      · exact hle
      · exact hle.trans (hj x hx).le
    · rename_i hlt
      refine List.pairwise_cons.mpr ⟨fun x hx => ?_, ih hl' fun x hx =>
        hi x (List.mem_cons_of_mem _ hx)⟩
      rcases List.mem_cons.mp ((List.perm_orderedInsert _ i l).mem_iff.mp hx) with rfl | hx
      · exact .inl (lt_of_not_ge hlt)
      · exact hj x hx

/-- The sort of `getSortedIndex` is stable. -/
theorem pairwise_before : b.getSortedIndex.Pairwise b.Before := by
  have hsort : ∀ l : List ℕ, l.Pairwise (· < ·) →
      (l.insertionSort fun i j => b.key i ≤ b.key j).Pairwise b.Before := by
    intro l hl
    induction l with
    | nil => exact List.Pairwise.nil
    | cons i l ih =>
      obtain ⟨hi, hl⟩ := List.pairwise_cons.mp hl
      exact pairwise_orderedInsert (ih hl) fun j hj =>
        hi j ((List.perm_insertionSort _ l).mem_iff.mp hj)
  exact hsort _ List.pairwise_lt_range

/-! ## The removal loop -/

/-- The keys of the first `n` slots, as often as they are there. -/
def live (b : UnSortBuncket) (n : ℕ) : Multiset UInt64 := (Multiset.range n).map b.key

theorem mem_live : k ∈ b.live n ↔ ∃ i < n, b.key i = k := by
  rw [live, Multiset.mem_map]
  simp only [Multiset.mem_range]

/-- `remove_key` with the first `n` slots in use takes the key out once, and changes the first
slot with the key at most. -/
theorem exists_removeKey (hn : n ≤ c.entries) (hk : k ∈ c.live n) :
    ∃ p, c.key p = k ∧ (∀ j < p, c.key j ≠ k) ∧ (c.removeKey k n).2.entries = c.entries ∧
      (∀ j ≠ p, (c.removeKey k n).2.records j = c.records j) ∧
      c.live n = k ::ₘ (c.removeKey k n).2.live (n - 1) := by
  obtain ⟨i, hi, hik⟩ := mem_live.mp hk
  obtain ⟨m, rfl⟩ : ∃ m, n = m + 1 := ⟨n - 1, by omega⟩
  cases hf : c.find k with
  | none => exact absurd (hik ▸ has_of_lt (hi.trans_le hn)) (find_eq_none.mp hf _)
  | some p =>
    obtain ⟨-, hpk, hfirst⟩ := find_eq_some.mp hf
    have hpi : p ≤ i := Nat.le_of_not_lt fun hlt => hfirst i hlt hik
    have hrange : c.live (m + 1) = c.key m ::ₘ c.live m := by
      rw [live, Multiset.range_succ, Multiset.map_cons]
      rfl
    rw [removeKey, hf, Nat.add_sub_cancel]
    rcases eq_or_ne p m with rfl | hne
    · simp only [if_true]
      exact ⟨p, hpk, hfirst, trivial, fun _ _ => trivial, by rw [hrange, hpk]⟩
    · simp only [if_neg hne]
      refine ⟨p, hpk, hfirst, trivial, fun j hj => Function.update_of_ne hj .., ?_⟩
      set c' : UnSortBuncket := ⟨c.entries, Function.update c.records p (c.records m)⟩ with hc'
      -- the slots other than `p` are as before
      have hp : p ∈ Multiset.range m := Multiset.mem_range.mpr (by omega)
      obtain ⟨others, hothers⟩ := Multiset.exists_cons_of_mem hp
      have hnot : p ∉ others := by
        have hnodup := Multiset.nodup_range m
        rw [hothers, Multiset.nodup_cons] at hnodup
        exact hnodup.1
      have hsame : others.map c'.key = others.map c.key := by
        refine Multiset.map_congr rfl fun j hj => ?_
        have hjp : j ≠ p := fun h => hnot (h ▸ hj)
        rw [key, hc']
        simp only [Function.update_of_ne hjp]
        rfl
      have hlast : c'.key p = c.key m := by
        rw [key, hc']
        simp only [Function.update_self]
        rfl
      rw [hrange, live, live, hothers, Multiset.map_cons, Multiset.map_cons, hsame, hlast, hpk]
      exact Multiset.cons_swap ..

/-- **The removal loop** takes the keys of the slots out, when their slots are sorted. -/
theorem live_removeSlots (slots : List ℕ) : ∀ (c : UnSortBuncket) (n : ℕ) (keep : Multiset UInt64),
    n ≤ c.entries → c.live n = keep + (slots.map b.key : List UInt64) →
    (∀ x ∈ slots, c.key x = b.key x) → slots.Pairwise b.Before →
    (removeSlots slots c n).live (n - slots.length) = keep := by
  induction slots with
  | nil =>
    intro c n keep _ hlive _ _
    rw [List.map_nil, Multiset.coe_nil, Multiset.add_zero] at hlive
    exact hlive
  | cons i slots ih =>
    intro c n keep hn hlive hplace hsorted
    obtain ⟨hi, hsorted⟩ := List.pairwise_cons.mp hsorted
    have hki : c.key i = b.key i := hplace i (List.mem_cons_self ..)
    have hmem : c.key i ∈ c.live n := by
      rw [hlive, hki, List.map_cons]
      exact Multiset.mem_add.mpr (.inr (Multiset.mem_coe.mpr (List.mem_cons_self ..)))
    obtain ⟨p, hpk, hfirst, hent, hother, htake⟩ := exists_removeKey hn hmem
    have hpi : p ≤ i := Nat.le_of_not_lt fun hlt => hfirst i hlt rfl
    rw [removeSlots, List.length_cons, Nat.add_comm, Nat.sub_add_eq]
    refine ih _ (n - 1) keep (by rw [hent]; omega) ?_ (fun x hx => ?_) hsorted
    · rw [hlive, hki, List.map_cons, ← Multiset.cons_coe, Multiset.add_cons] at htake
      rw [hki]
      exact ((Multiset.cons_inj_right _).mp htake).symm
    · -- the first slot with the key is none of those still to be read
      have hxp : x ≠ p := by
        rintro rfl
        have hxk : b.key x = b.key i := by rw [← hplace x (List.mem_cons_of_mem _ hx), hpk, hki]
        rcases hi x hx with hlt | ⟨-, hlt⟩
        · exact hlt.ne hxk.symm
        · omega
      rw [key, hother x hxp]
      exact hplace x (List.mem_cons_of_mem _ hx)

/-! ## The halves -/

/-- The slots of the lower half. -/
def lowerHalf (b : UnSortBuncket) : List ℕ := b.getSortedIndex.take (b.entries / 2)

theorem lowerHalf_append_upperHalf : b.lowerHalf ++ b.upperHalf = b.getSortedIndex :=
  List.take_append_drop _ _

theorem pairwise_halves : b.upperHalf.Pairwise b.Before ∧
    ∀ x ∈ b.lowerHalf, ∀ y ∈ b.upperHalf, b.Before x y := by
  have hcut := pairwise_before (b := b)
  rw [← lowerHalf_append_upperHalf, List.pairwise_append] at hcut
  exact hcut.2

/-- **What is left is the lower half**, as far as the keys go. -/
theorem live_rest : (removeSlots b.upperHalf b b.entries).live (b.entries / 2) =
    (b.lowerHalf.map b.key : List UInt64) := by
  have hstart : b.live b.entries =
      (b.lowerHalf.map b.key : List UInt64) + (b.upperHalf.map b.key : List UInt64) := by
    have hperm : b.getSortedIndex.Perm (List.range b.entries) := List.perm_insertionSort _ _
    rw [Multiset.coe_add, ← List.map_append, lowerHalf_append_upperHalf]
    exact (congrArg (Multiset.map b.key) (Multiset.coe_eq_coe.mpr hperm)).symm
  have hrest := live_removeSlots b.upperHalf b b.entries _ le_rfl hstart (fun _ _ => rfl)
    pairwise_halves.1
  have hhalf : b.entries - b.upperHalf.length = b.entries / 2 := by
    rw [length_upperHalf]
    omega
  rwa [hhalf] at hrest

/-- The rest of a bucket has a key in use exactly when a slot of the lower half has it. -/
theorem exists_rest_has {next : UnSortBuncket} :
    (∃ v, (b.expand next).2.2.Has k v) ↔ ∃ x ∈ b.lowerHalf, b.key x = k := by
  rw [← List.mem_map, ← Multiset.mem_coe, ← live_rest, mem_live]
  constructor
  · rintro ⟨v, i, hi, hrec⟩
    exact ⟨i, hi, congrArg Prod.fst hrec⟩
  · rintro ⟨i, hi, rfl⟩
    exact ⟨_, i, hi, rfl⟩

/-- **`Expand_`** of a bucket with at least two slots in use: the split key is one of its keys,
the new bucket has none below it, and the old one none above it. -/
theorem expand_reads (hle : b.entries ≤ maxEntries) (htwo : 2 ≤ b.entries) (next : UnSortBuncket) :
    b.Reads (b.expand next).2.1 ∧
      (∀ k, (b.expand next).1.Reads k → b.Reads k ∧ (b.expand next).2.1 ≤ k) ∧
      ∀ k, (b.expand next).2.2.Reads k → b.Reads k ∧ k ≤ (b.expand next).2.1 := by
  obtain ⟨m, rest, hm, hsplit⟩ := exists_upperHalf (b := b) (by omega)
  obtain ⟨hup, hcross⟩ := pairwise_halves (b := b)
  have hread : ∀ x < b.entries, b.Reads (b.key x) := fun x hx => ⟨x, lt_max_of_lt_left hx, rfl⟩
  have hmu : m ∈ b.upperHalf := hm ▸ List.mem_cons_self ..
  rw [hsplit next]
  refine ⟨hread m (lt_of_mem_upperHalf hmu), fun k hk => ?_, fun k hk => ?_⟩
  · obtain ⟨t, ht, rfl⟩ := hk
    have hent : (b.expand next).1.entries = b.entries - b.entries / 2 := rfl
    obtain ⟨x, hx, hrec⟩ := expand_records hle next (t := t) (by omega)
    have hxu := List.mem_of_getElem? hx
    rw [key, hrec]
    refine ⟨hread x (lt_of_mem_upperHalf hxu), ?_⟩
    rw [hm] at hxu hup
    rcases List.mem_cons.mp hxu with rfl | hxr
    · exact le_rfl
    · exact ((List.pairwise_cons.mp hup).1 x hxr).le
  · have hent : (b.expand next).2.2.entries = b.entries / 2 := rfl
    obtain ⟨v, hv⟩ := hk.has (by omega)
    obtain ⟨x, hx, rfl⟩ := exists_rest_has.mp ⟨v, hv⟩
    exact ⟨hread x (mem_getSortedIndex.mp (List.mem_of_mem_take hx)), (hcross x hx m hmu).le⟩

/-- The removal loop only moves records. -/
theorem records_removeSlots (slots : List ℕ) : ∀ (c : UnSortBuncket) (n : ℕ), 0 < c.entries →
    n ≤ c.entries → ∀ i < c.entries,
      ∃ j < c.entries, (removeSlots slots c n).records i = c.records j := by
  induction slots with
  | nil => exact fun c n _ _ i hi => ⟨i, hi, rfl⟩
  | cons x slots ih =>
    intro c n hpos hn i hi
    have hmove : (c.removeKey (c.key x) n).2.entries = c.entries ∧
        ∀ j < c.entries, ∃ m < c.entries, (c.removeKey (c.key x) n).2.records j = c.records m := by
      rw [removeKey]
      cases c.find (c.key x) with
      | none => exact ⟨rfl, fun j hj => ⟨j, hj, rfl⟩⟩
      | some p =>
        rcases eq_or_ne p (n - 1) with hlast | hlast
        · simp only [if_pos hlast]
          exact ⟨trivial, fun j hj => ⟨j, hj, rfl⟩⟩
        · simp only [if_neg hlast]
          refine ⟨trivial, fun j hj => ?_⟩
          rcases eq_or_ne j p with rfl | hne
          · exact ⟨n - 1, by omega, Function.update_self ..⟩
          · exact ⟨j, hj, Function.update_of_ne hne ..⟩
    obtain ⟨hent, hrecords⟩ := hmove
    rw [← hent] at hpos hn hi
    obtain ⟨j, hj, hij⟩ := ih _ (n - 1) hpos (by omega) i hi
    rw [hent] at hj
    obtain ⟨m, hm, hjm⟩ := hrecords j hj
    exact ⟨m, hm, hij.trans hjm⟩

/-- **`Expand_`** loses no key, makes up no record, and leaves the least key of each half in it. -/
theorem expand_has (hle : b.entries ≤ maxEntries) (htwo : 2 ≤ b.entries) (next : UnSortBuncket) :
    (∃ v, (b.expand next).1.Has (b.expand next).2.1 v) ∧ (∃ v, (b.expand next).2.2.Has b.minKey v) ∧
      (∀ k v, b.Has k v → (∃ w, (b.expand next).1.Has k w) ∨ ∃ w, (b.expand next).2.2.Has k w) ∧
      ∀ k v, (b.expand next).1.Has k v ∨ (b.expand next).2.2.Has k v → b.Has k v := by
  obtain ⟨m, rest, hm, hsplit⟩ := exists_upperHalf (b := b) (by omega)
  have hent : (b.expand next).1.entries = b.entries - b.entries / 2 := rfl
  -- the slots of the upper half are copied
  have hupper : ∀ x ∈ b.upperHalf, ∃ w, (b.expand next).1.Has (b.key x) w := by
    intro x hx
    obtain ⟨t, ht⟩ := List.mem_iff_getElem?.mp hx
    obtain ⟨hlt, -⟩ := List.getElem?_eq_some_iff.mp ht
    rw [length_upperHalf] at hlt
    obtain ⟨y, hy, hrec⟩ := expand_records hle next hlt
    obtain rfl := Option.some.inj (hy.symm.trans ht)
    exact ⟨b.value y, t, hlt, hrec⟩
  refine ⟨?_, ?_, fun k v hk => ?_, fun k v hk => ?_⟩
  · rw [hsplit next]
    exact hupper m (hm ▸ List.mem_cons_self ..)
  · -- the first of the sorted slots has the least key
    obtain ⟨x, lower, hx⟩ : ∃ x lower, b.lowerHalf = x :: lower :=
      List.exists_cons_of_length_pos (by
        rw [lowerHalf, List.length_take, length_getSortedIndex]
        omega)
    have hcons : b.getSortedIndex = x :: (lower ++ b.upperHalf) := by
      rw [← lowerHalf_append_upperHalf, hx, List.cons_append]
    have hfirst := (List.pairwise_cons.mp (hcons ▸ pairwise_before (b := b))).1
    have hxb : x < b.entries := mem_getSortedIndex.mp (hcons ▸ List.mem_cons_self ..)
    obtain ⟨y, hy, hkey⟩ := b.reads_minKey
    rw [Nat.max_eq_left (by omega)] at hy
    refine exists_rest_has.mpr ⟨x, hx ▸ List.mem_cons_self .., le_antisymm ?_ ?_⟩
    · have hmem : y ∈ b.getSortedIndex := mem_getSortedIndex.mpr hy
      rw [hcons] at hmem
      rw [← hkey]
      rcases List.mem_cons.mp hmem with rfl | hmem
      · exact le_rfl
      · exact (hfirst y hmem).le
    · exact minKey_le (has_of_lt hxb).reads
  · obtain ⟨x, hx, hrec⟩ := hk
    obtain rfl : b.key x = k := congrArg Prod.fst hrec
    have hmem : x ∈ b.getSortedIndex := mem_getSortedIndex.mpr hx
    rw [← lowerHalf_append_upperHalf] at hmem
    rcases List.mem_append.mp hmem with hlow | hup
    · exact .inr (exists_rest_has.mpr ⟨x, hlow, rfl⟩)
    · exact .inl (hupper x hup)
  · rcases hk with ⟨t, ht, hrec⟩ | ⟨t, ht, hrec⟩
    · obtain ⟨x, hx, hcopy⟩ := expand_records hle next (hent ▸ ht)
      exact ⟨x, lt_of_mem_upperHalf (List.mem_of_getElem? hx), hcopy.symm.trans hrec⟩
    · have hrest : (b.expand next).2.2.entries = b.entries / 2 := rfl
      obtain ⟨j, hj, hmove⟩ := records_removeSlots b.upperHalf b b.entries (by omega) le_rfl t
        (by omega)
      exact ⟨j, hj, hmove.symm.trans hrec⟩

/-! ## Update and Delete -/

/-- `Update` changes no key. -/
theorem update_reads {x : UInt64} (h : (b.update k v).2.Reads x) : b.Reads x := by
  rw [update] at h
  cases hf : b.find k with
  | none =>
    rw [hf] at h
    exact h
  | some pos =>
    rw [hf] at h
    obtain ⟨i, hi, rfl⟩ := h
    refine ⟨i, hi, ?_⟩
    rcases eq_or_ne i pos with rfl | hne
    · simp only [key, Function.update_self]
    · simp only [key, Function.update_of_ne hne]

/-- `Delete` adds no key. -/
theorem delete_reads {x : UInt64} (h : (b.delete k).2.Reads x) : b.Reads x := by
  rw [delete, removeKey] at h
  cases hf : b.find k with
  | none =>
    rw [hf] at h
    exact h
  | some pos =>
    obtain ⟨hpos, -, -⟩ := find_eq_some.mp hf
    rw [hf] at h
    rcases eq_or_ne pos (b.entries - 1) with hlast | hlast
    · simp only [if_pos hlast] at h
      obtain ⟨i, hi, rfl⟩ := h
      exact ⟨i, lt_of_lt_of_le hi (max_le_max (Nat.sub_le ..) le_rfl), rfl⟩
    · simp only [if_neg hlast] at h
      obtain ⟨i, hi, rfl⟩ := h
      simp only at hi
      rcases eq_or_ne i pos with rfl | hne
      · exact ⟨b.entries - 1, lt_max_of_lt_left (by omega), by
          simp only [key, Function.update_self]⟩
      · exact ⟨i, lt_of_lt_of_le hi (max_le_max (Nat.sub_le ..) le_rfl), by
          simp only [key, Function.update_of_ne hne]⟩

end UnSortBuncket

end NaliStore
