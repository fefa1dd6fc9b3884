import NaliStore.SortBuncket
import NaliStore.Lib.Runs

/-!
# The two buckets

`SortBuncket` in the place of `UnSortBuncket`. A `SortBuncket` with gaps, slots whose key has been
deleted, does not always do the same: `Put` takes a gap for a small key, `Delete` stops at the first
gap, `Update` bisects slots in which there are gaps, and `last_pos` counts the gaps. `Get` and
`Update` also take a key with the value 0, which an `Update` can leave, for one that is not there.
`Sound` says, of the bucket before a call, that the call does not run into one of these.

`Mirrors` is the relation between the two: the slots that are not gaps hold, by ascending key, the
pairs of the `UnSortBuncket`. It is kept by sound calls, and they return the same.
-/

namespace NaliStore

open Runs

namespace SortBuncket

/-- The calls of a bucket. `value` of `Delete` may be null; else it points to something. -/
inductive Action where
  /-- `Put` -/
  | put (key value : UInt64)
  /-- `Delete` -/
  | delete (key : UInt64) (value : Option UInt64)
  /-- `Get` -/
  | get (key : UInt64)
  /-- `Update` -/
  | update (key value : UInt64)

/-- The status of a call that looks for a key. -/
def found : Option UInt64 → Status
  | none => .noExist
  | some _ => .ok

/-- A call of a `SortBuncket`: its status, and the value that `Get` returns or to which `value` of
`Delete` points afterwards. -/
def step (b : SortBuncket) : Action → Except Fault ((Status × Option UInt64) × SortBuncket)
  | .put key value => do
    let (ret, b) ← b.put key value
    .ok ((ret, none), b)
  | .delete key value => do
    let (ret, b) ← b.delete key
    .ok ((ret, value), b)
  | .get key => do
    let value ← b.get key
    .ok ((found value, value), b)
  | .update key value => do
    let (ret, b) ← b.update key value
    .ok ((ret, none), b)

/-- The same call of an `UnSortBuncket`. -/
def unSortStep (u : UnSortBuncket) : Action → (Status × Option UInt64) × UnSortBuncket
  | .put key value => (((u.put key value).1, none), (u.put key value).2)
  | .delete key value =>
    ((found (u.delete key).1, value.map fun content => (u.delete key).1.getD content),
      (u.delete key).2)
  | .get key => ((found (u.get key), u.get key), u)
  | .update key value => ((found (u.update key value).1, none), (u.update key value).2)

/-- `Put` is for keys that are not there. Neither key nor value is zero. -/
def Allowed (u : UnSortBuncket) : Action → Prop
  | .put key value => key ≠ 0 ∧ value ≠ 0 ∧ ∀ v, ¬ u.Has key v
  | _ => True

/-- The call does not run into a gap:
* `Put` into a bucket with room needs a free slot behind the last one counted, which has zeros in it
  when all others are gaps; and the keys in front of a gap are smaller, apart from the last gap when
  it is closed;
* `Delete` of a key needs that there is no gap in front of it, and that `value` is null or points to
  the value already; of a key that is not there, that the bucket is not full;
* `Get` of a key needs that its value is not zero;
* `Update` of a key needs that its value is not zero, that it is one of the first `entries` slots, and
  that no slot behind it on the way of the bisection is a gap. -/
def Sound (b : SortBuncket) : Action → Prop
  | .put key _ => b.entries < 15 → b.lastPos < 15 ∧
    (b.entries = 0 → 0 < b.lastPos → b.records b.lastPos = (0, 0)) ∧
    (0 < b.entries → ∀ gap < b.lastPos, b.key gap = 0 →
      (b.lastPos = 14 → ∃ gap' < b.lastPos, gap < gap' ∧ b.key gap' = 0) →
      ∀ i < gap, b.key i < key)
  | .delete key value =>
    (∀ i < b.lastPos, b.key i = key → key ≠ 0 →
      (∀ j < i, b.key j ≠ 0) ∧ (value = none ∨ value = some (b.value i))) ∧
    ((∀ i < b.lastPos, b.key i = key → key = 0) → b.entries < 15)
  | .get key => ∀ i < b.lastPos, b.key i = key → key ≠ 0 → b.value i ≠ 0
  | .update key _ => ∀ i < b.lastPos, b.key i = key → key ≠ 0 →
    b.value i ≠ 0 ∧ i < b.entries ∧ ∀ m ∈ probes i (b.entries + 1) 0 b.entries, i < m → b.key m ≠ 0

/-! ## The slots that are not gaps -/

variable {b b' : SortBuncket} {u u' : UnSortBuncket} {k v w : UInt64} {i n : ℕ}
  {l l₁ l₂ : List (UInt64 × UInt64)} {p : UInt64 × UInt64}

/-- What is not a gap. -/
def live (l : List (UInt64 × UInt64)) : List (UInt64 × UInt64) := l.filter fun p => p.1 ≠ 0

theorem mem_live : p ∈ live l ↔ p ∈ l ∧ p.1 ≠ 0 := by simp [live]

@[simp] theorem live_append : live (l₁ ++ l₂) = live l₁ ++ live l₂ := List.filter_append ..

theorem live_cons (h : p.1 ≠ 0) : live (p :: l) = p :: live l := List.filter_cons_of_pos (by simpa using h)

theorem live_cons_gap (h : p.1 = 0) : live (p :: l) = live l := List.filter_cons_of_neg (by simpa using h)

theorem live_eq_nil : live l = [] ↔ ∀ p ∈ l, p.1 = 0 := by simp [live]

theorem live_eq_self : live l = l ↔ ∀ p ∈ l, p.1 ≠ 0 := by simp [live]

/-- The live keys ascend. -/
def Ascending (b : SortBuncket) : Prop :=
  ∀ i j, i < j → j < b.lastPos → b.key i ≠ 0 → b.key j ≠ 0 → b.key i < b.key j

/-- The slots that are not gaps are the pairs of the other bucket. -/
structure Mirrors (b : SortBuncket) (u : UnSortBuncket) : Prop where
  /-- no more slots are counted than there are -/
  le : b.lastPos ≤ 15
  /-- `entries` are the slots that are not gaps -/
  length : (live (b.slots b.lastPos)).length = b.entries
  /-- as many as in the other bucket -/
  entries : b.entries = u.entries
  /-- by ascending key -/
  pairwise : (live (b.slots b.lastPos)).Pairwise fun p q => p.1 < q.1
  /-- the gaps have no values -/
  gap : ∀ p ∈ b.slots b.lastPos, p.1 = 0 → p.2 = 0
  /-- the same pairs -/
  has : ∀ k v, (k, v) ∈ live (b.slots b.lastPos) ↔ u.Has k v
  /-- no key is in the other bucket twice -/
  distinct : u.Distinct

namespace Mirrors

/-- An empty bucket. -/
theorem empty (mem mem' : ℕ → UInt64 × UInt64) : Mirrors ⟨0, 0, mem⟩ ⟨0, mem'⟩ where
  le := Nat.zero_le _
  length := rfl
  entries := rfl
  pairwise := .nil
  gap p hp := absurd hp List.not_mem_nil
  has k v := by
    refine iff_of_false List.not_mem_nil ?_
    rintro ⟨i, hi, -⟩
    exact absurd hi (Nat.not_lt_zero i)
  distinct := ⟨fun i hi => absurd hi (Nat.not_lt_zero i), Nat.zero_le _⟩

/-- The keys in front of a key are smaller, and those behind it larger, apart from gaps. -/
theorem lt_lt (h : Mirrors b u) (hslots : b.slots b.lastPos = l₁ ++ (k, v) :: l₂) (hk : k ≠ 0) :
    (∀ p ∈ live l₁, p.1 < k) ∧ ∀ p ∈ live l₂, k < p.1 := by
  have hpair := h.pairwise
  rw [hslots, live_append, live_cons hk, List.pairwise_append] at hpair
  refine ⟨fun p hp => hpair.2.2 p hp _ (List.mem_cons_self ..), ?_⟩
  exact fun p hp => (List.pairwise_cons.mp hpair.2.1).1 p hp

/-- A key of the other bucket has a slot. -/
theorem exists_slot (h : Mirrors b u) (hk : u.Has k v) : k ≠ 0 ∧ ∃ l₁ l₂,
    b.slots b.lastPos = l₁ ++ (k, v) :: l₂ := by
  obtain ⟨hmem, hne⟩ := mem_live.mp ((h.has k v).mpr hk)
  exact ⟨hne, List.append_of_mem hmem⟩

/-- A key of a slot is in the other bucket. -/
theorem has_of_key (h : Mirrors b u) (hi : i < b.lastPos) (hkey : b.key i = k) (hk : k ≠ 0) :
    u.Has k (b.value i) := by
  refine (h.has k _).mp (mem_live.mpr ⟨mem_slots.mpr ⟨i, hi, ?_⟩, hk⟩)
  rw [← hkey]
  rfl

/-- What is found of a key that is not there is a gap. -/
theorem value_of_absent (h : Mirrors b u) (habsent : ∀ v, ¬ u.Has k v) (hi : i < b.lastPos)
    (hkey : b.key i = k) : (b.records i).2 = 0 := by
  have hk : k = 0 := by
    by_contra hk
    exact habsent _ (h.has_of_key hi hkey hk)
  exact h.gap _ (mem_slots.mpr ⟨i, hi, rfl⟩) (hkey.trans hk)

theorem ascending (h : Mirrors b u) : b.Ascending := by
  intro i j hij hj hi₀ hj₀
  have hslots := slots_eq_append b hj
  have hlt := (h.lt_lt (k := b.key j) (v := b.value j) hslots hj₀).1 (b.records i)
    (mem_live.mpr ⟨mem_slots.mpr ⟨i, hij, rfl⟩, hi₀⟩)
  exact hlt

/-- When there is no gap, all slots are counted in `entries`. -/
theorem exists_gap (h : Mirrors b u) (hne : b.lastPos ≠ b.entries) : ∃ j < b.lastPos, b.key j = 0 := by
  by_contra hnone
  push Not at hnone
  have hself : live (b.slots b.lastPos) = b.slots b.lastPos := by
    refine live_eq_self.mpr fun p hp => ?_
    obtain ⟨j, hj, rfl⟩ := mem_slots.mp hp
    exact hnone j hj
  have hlen := h.length
  rw [hself, length_slots] at hlen
  exact hne hlen

theorem no_gap (h : Mirrors b u) (heq : b.entries = b.lastPos) : ∀ p ∈ b.slots b.lastPos, p.1 ≠ 0 := by
  have hlen : (live (b.slots b.lastPos)).length = (b.slots b.lastPos).length := by
    rw [h.length, heq, length_slots]
  simpa using List.length_filter_eq_length_iff.mp hlen

/-- A slot with a key, as a place in the list of the slots. -/
theorem exists_index (h : Mirrors b u) (hk : u.Has k v) : k ≠ 0 ∧ ∃ l₁ l₂,
    b.slots b.lastPos = l₁ ++ (k, v) :: l₂ ∧ l₁.length < b.lastPos ∧
      b.records l₁.length = (k, v) ∧ ∀ j < l₁.length, b.key j < k := by
  obtain ⟨hne, l₁, l₂, hslots⟩ := h.exists_slot hk
  obtain ⟨hlen, hrec, hfirst⟩ := records_of_slots hslots
  refine ⟨hne, l₁, l₂, hslots, hlen, hrec, fun j hj => ?_⟩
  have hmem : b.records j ∈ l₁ := hfirst ▸ mem_slots.mpr ⟨j, hj, rfl⟩
  by_cases hzero : b.key j = 0
  · rw [hzero]
    exact UInt64.pos_iff_ne_zero.mpr hne
  · exact (h.lt_lt hslots hne).1 _ (mem_live.mpr ⟨hmem, hzero⟩)

/-! ## Put -/

/-- A pair is put between the smaller and the larger keys. -/
theorem append (h : Mirrors b u) (hk : k ≠ 0) (habsent : ∀ v, ¬ u.Has k v)
    (hroom : b.entries < 15) (hle : b'.lastPos ≤ 15) (hent : b'.entries = b.entries + 1)
    (hslots : b'.slots b'.lastPos = l₁ ++ (k, v) :: l₂)
    (hlive : live l₁ ++ live l₂ = live (b.slots b.lastPos))
    (hgap : ∀ p ∈ l₁ ++ l₂, p.1 = 0 → p.2 = 0)
    (hsmall : ∀ p ∈ live l₁, p.1 < k) (hlarge : ∀ p ∈ live l₂, k < p.1) :
    Mirrors b' (u.append k v) where
  le := hle
  length := by
    have hlen := h.length
    rw [← hlive, List.length_append] at hlen
    rw [hslots, live_append, live_cons hk, List.length_append, List.length_cons, hent, ← hlen]
    rfl
  entries := by
    rw [hent, h.entries]
    rfl
  pairwise := by
    have hpair := h.pairwise
    rw [← hlive, List.pairwise_append] at hpair
    rw [hslots, live_append, live_cons hk, List.pairwise_append, List.pairwise_cons]
    refine ⟨hpair.1, ⟨hlarge, hpair.2.1⟩, fun p hp q hq => ?_⟩
    rcases List.mem_cons.mp hq with rfl | hq
    · exact hsmall p hp
    · exact hpair.2.2 p hp q hq
  gap p hp := by
    rw [hslots] at hp
    rcases List.mem_append.mp hp with hp | hp
    · exact hgap p (List.mem_append_left _ hp)
    · rcases List.mem_cons.mp hp with rfl | hp
      · exact fun hzero => absurd hzero hk
      · exact hgap p (List.mem_append_right _ hp)
  has k' v' := by
    rw [hslots, live_append, live_cons hk, UnSortBuncket.append_has, ← h.has, ← hlive]
    simp only [List.mem_append, List.mem_cons, Prod.mk.injEq]
    tauto
  distinct := h.distinct.append (h.entries ▸ hroom) habsent

/-- The first part of `PutBufKV` leaves the pairs alone. Afterwards there is room, and the keys in
front of a gap are smaller than the new one. -/
theorem compact (h : Mirrors b u) (hroom : b.entries < 15) (hpos : 0 < b.entries)
    (hsound : b.Sound (.put k v)) : ∃ c, b.compact = .ok c ∧ c.lastPos < 15 ∧ Mirrors c u ∧
      ∀ l p l', c.slots c.lastPos = l ++ p :: l' → p.1 = 0 → ∀ q ∈ l, q.1 < k := by
  obtain ⟨hlast, -, hfront⟩ := hsound hroom
  have hindex : ∀ {l p l'}, b.slots b.lastPos = l ++ p :: l' → p.1 = 0 →
      (b.lastPos = 14 → ∃ q ∈ l', q.1 = 0) → ∀ q ∈ l, q.1 < k := by
    intro l p l' hslots hp hbehind q hq
    obtain ⟨hlt, hrec, hl⟩ := records_of_slots hslots
    rw [← hl, mem_slots] at hq
    obtain ⟨i, hi, rfl⟩ := hq
    refine hfront hpos l.length hlt (by rw [SortBuncket.key, hrec, hp]) (fun h14 => ?_) i hi
    obtain ⟨q, hq, hq₀⟩ := hbehind h14
    obtain ⟨l₁, l₂, rfl⟩ := List.append_of_mem hq
    rw [← List.cons_append, ← List.append_assoc] at hslots
    obtain ⟨hlt', hrec', -⟩ := records_of_slots hslots
    refine ⟨_, hlt', ?_, by rw [SortBuncket.key, hrec', hq₀]⟩
    simp
  by_cases hfull : b.lastPos = 14 ∧ b.lastPos ≠ b.entries
  · obtain ⟨c, l₁, r, l₂, hcomp, hlast', hent, hslots, hr, hl₂, hslots'⟩ :=
      compact_of_gap hfull.1 hfull.2 (h.exists_gap hfull.2)
    have hlive : live (c.slots c.lastPos) = live (b.slots b.lastPos) := by
      rw [hslots, hslots', live_append, live_append, live_cons_gap hr]
    have hsub : ∀ p ∈ c.slots c.lastPos, p ∈ b.slots b.lastPos := by
      intro p hp
      rw [hslots', List.mem_append] at hp
      rw [hslots, List.mem_append, List.mem_cons]
      tauto
    refine ⟨c, hcomp, by omega, ⟨by omega, ?_, hent.trans h.entries, ?_, ?_, ?_, h.distinct⟩, ?_⟩
    · rw [hlive, hent, h.length]
    · rw [hlive]
      exact h.pairwise
    · exact fun p hp => h.gap p (hsub p hp)
    · rw [hlive]
      exact h.has
    · intro l p l' hsplit hp
      -- the gap is in front of the one that was closed
      rw [hslots', List.append_eq_append_iff] at hsplit
      obtain ⟨m, rfl, hm⟩ | ⟨m, hm, hl₂'⟩ := hsplit
      · exact absurd hp (hl₂ p (by rw [hm]; simp))
      · cases m with
        | nil => exact absurd hp (hl₂ p (by rw [← List.nil_append l₂, ← hl₂']; simp))
        | cons p' m =>
          obtain ⟨rfl, rfl⟩ := List.cons.inj hl₂'
          have hbefore : b.slots b.lastPos = l ++ p :: (m ++ r :: l₂) := by
            rw [hslots, hm]
            simp
          exact hindex hbefore hp fun _ => ⟨r, by simp, hr⟩
  · refine ⟨b, compact_of_room (by omega), hlast, h, fun l p l' hslots hp => ?_⟩
    refine hindex hslots hp fun h14 => ?_
    have hent : b.entries = b.lastPos := by omega
    exact absurd hp (h.no_gap hent p (by rw [hslots]; simp))

/-- `Put` into a bucket with gaps only. -/
theorem put_first (h : Mirrors b u) (hk : k ≠ 0) (habsent : ∀ v, ¬ u.Has k v)
    (hzero : b.entries = 0) (hlast : b.lastPos < 15)
    (hzeros : 0 < b.lastPos → b.records b.lastPos = (0, 0)) :
    ∃ b', b.put k v = .ok (.ok, b') ∧ Mirrors b' (u.append k v) := by
  set records := Function.update b.records 0 (k, v) with hrecords
  set b' : SortBuncket := ⟨(b.lastPos + 1) % 2 ^ 8, (b.entries + 1) % 2 ^ 8,
    Function.update records 1 ((records 1).1, 0)⟩ with hb'
  have hnil := List.eq_nil_of_length_eq_zero (h.length.trans hzero)
  have hfirst : b'.records 0 = (k, v) := rfl
  have hgaps : ∀ j, 0 < j → j ≤ b.lastPos → b'.records j = (0, 0) := by
    intro j hj hle
    have hold : b.records j = (0, 0) := by
      rcases Nat.lt_or_eq_of_le hle with hlt | rfl
      · have hmem : b.records j ∈ b.slots b.lastPos := mem_slots.mpr ⟨j, hlt, rfl⟩
        have hkey := live_eq_nil.mp hnil _ hmem
        exact Prod.ext hkey (h.gap _ hmem hkey)
      · exact hzeros hj
    by_cases hj₁ : j = 1
    · subst hj₁
      simp [hb', hrecords, hold]
    · simp [hb', hrecords, Function.update_of_ne hj₁, Function.update_of_ne hj.ne', hold]
  have hcount : b'.lastPos = b.lastPos + 1 := Nat.mod_eq_of_lt (by omega)
  have hslots := slots_eq_append b' (i := 0) (n := b'.lastPos) (by omega)
  rw [hfirst] at hslots
  set tail := (List.range (b'.lastPos - 0 - 1)).map fun j => b'.records (0 + 1 + j) with htail
  have hall : ∀ p ∈ tail, p = (0, 0) := by
    intro p hp
    obtain ⟨j, hj, rfl⟩ := List.mem_map.mp hp
    rw [List.mem_range] at hj
    exact hgaps _ (by omega) (by omega)
  have hlive : live tail = [] := live_eq_nil.mpr fun p hp => by rw [hall p hp]
  refine ⟨b', ?_, h.append hk habsent (by omega) (by omega) ?_ hslots ?_ ?_ ?_ ?_⟩
  · have hroom : ¬ b.entries ≥ maxEntries := by
      rw [hzero]
      decide
    rw [SortBuncket.put, putBufKV, if_neg hroom, if_pos hzero]
    simp only [bind, Except.bind, write_of_lt (show 0 < 15 by omega),
      read_of_lt (show 1 < 15 by omega), write_of_lt (show 1 < 15 by omega)]
    rfl
  · exact Nat.mod_eq_of_lt (by omega)
  · rw [hlive, hnil]
    rfl
  · simp only [slots, List.range_zero, List.map_nil, List.nil_append]
    exact fun p hp _ => by rw [hall p hp]
  · exact fun p hp => absurd hp List.not_mem_nil
  · rw [hlive]
    exact fun p hp => absurd hp List.not_mem_nil

/-- `Put` into a bucket with keys. -/
theorem put_more (h : Mirrors b u) (hk : k ≠ 0) (habsent : ∀ v, ¬ u.Has k v)
    (hroom : b.entries < 15) (hpos : 0 < b.entries) (hsound : b.Sound (.put k v)) :
    ∃ b', b.put k v = .ok (.ok, b') ∧ Mirrors b' (u.append k v) := by
  obtain ⟨c, hcomp, hlast, hc, hfront⟩ := h.compact hroom hpos hsound
  obtain ⟨b', l₁, l₂, hins, hlast', hent', -, hslots, hslots', hlarge, hsmall⟩ :=
    insert_spec (k := k) (v := v) (b := c) hlast
  have hent : c.entries = b.entries := hc.entries.trans h.entries.symm
  have hcount : (b'.lastPos + 1) % 2 ^ 8 = c.lastPos + 1 := by omega
  have hnew : slots ⟨(b'.lastPos + 1) % 2 ^ 8, (b'.entries + 1) % 2 ^ 8, b'.records⟩
      ((b'.lastPos + 1) % 2 ^ 8) = l₁ ++ (k, v) :: l₂ := by
    rw [hcount]
    exact hslots'
  refine ⟨⟨(b'.lastPos + 1) % 2 ^ 8, (b'.entries + 1) % 2 ^ 8, b'.records⟩, ?_,
    hc.append hk habsent (by omega) (by simp only [hcount]; omega) ?_ hnew ?_ ?_ ?_ ?_⟩
  · have hfull : ¬ b.entries ≥ maxEntries := Nat.not_le.mpr hroom
    rw [SortBuncket.put, putBufKV, if_neg hfull, if_neg hpos.ne', hcomp]
    simp only [bind, Except.bind, hins]
  · simp only
    omega
  · rw [hslots, live_append]
  · rw [← hslots]
    exact hc.gap
  · intro p hp
    obtain ⟨hmem, hne⟩ := mem_live.mp hp
    -- the last of the slots that are not larger is a key or a gap
    obtain ⟨l, q, hl⟩ : ∃ l q, l₁ = l ++ [q] := by
      rcases List.eq_nil_or_concat l₁ with rfl | ⟨l, q, hl⟩
      · exact absurd hmem List.not_mem_nil
      · exact ⟨l, q, by rw [hl, List.concat_eq_append]⟩
    have hsplit : c.slots c.lastPos = l ++ q :: l₂ := by
      rw [hslots, hl]
      simp
    rw [hl, List.mem_append, List.mem_singleton] at hmem
    by_cases hq : q.1 = 0
    · rcases hmem with hmem | rfl
      · exact hfront l q l₂ hsplit hq p hmem
      · exact absurd hq hne
    · have hqk : q.1 < k := by
        refine lt_of_le_of_ne (hsmall l q hl) ?_
        rintro rfl
        refine habsent q.2 ((hc.has _ _).mp (mem_live.mpr ⟨?_, hq⟩))
        rw [hsplit]
        simp
      rcases hmem with hmem | rfl
      · exact ((hc.lt_lt (k := q.1) (v := q.2) hsplit hq).1 p (mem_live.mpr ⟨hmem, hne⟩)).trans hqk
      · exact hqk
  · exact fun p hp => hlarge p (mem_live.mp hp).1

/-- **`Put`** into both buckets. -/
theorem put (h : Mirrors b u) (hk : k ≠ 0) (habsent : ∀ v, ¬ u.Has k v)
    (hsound : b.Sound (.put k v)) :
    ∃ b', b.put k v = .ok ((u.put k v).1, b') ∧ Mirrors b' (u.put k v).2 := by
  by_cases hfull : b.entries ≥ maxEntries
  · rw [UnSortBuncket.put_of_full (h.entries ▸ hfull)]
    refine ⟨b, ?_, h⟩
    rw [SortBuncket.put, putBufKV, if_pos hfull]
    rfl
  · have hroom : b.entries < 15 := Nat.lt_of_not_le hfull
    rw [UnSortBuncket.put_of_room (h.entries ▸ hroom)]
    by_cases hzero : b.entries = 0
    · obtain ⟨hlast, hzeros, -⟩ := hsound hroom
      exact h.put_first hk habsent hzero hlast (hzeros hzero)
    · exact h.put_more hk habsent hroom (Nat.pos_of_ne_zero hzero) hsound

/-! ## Get, Delete and Update -/

/-- **`Get`** from both buckets. -/
theorem get (h : Mirrors b u) (hsound : b.Sound (.get k)) : b.get k = .ok (u.get k) := by
  cases hget : u.get k with
  | some v =>
    obtain ⟨hk, l₁, l₂, hslots, hlen, hrec, hsmall⟩ := h.exists_index (h.distinct.get_eq.mp hget)
    have hkey : b.key l₁.length = k := by rw [SortBuncket.key, hrec]
    have hv : v ≠ 0 := by
      have hvalue := hsound _ hlen hkey hk
      rwa [SortBuncket.value, hrec] at hvalue
    rw [SortBuncket.get, linearFind_of_lt (by have := h.le; omega) (Nat.zero_le _) (by omega)
      (fun j _ hj => hsmall j hj) hkey]
    simp only [bind, Except.bind, read_of_lt (hlen.trans_le h.le), hrec, if_neg hv]
  | none =>
    have habsent := UnSortBuncket.get_eq_none.mp hget
    obtain ⟨pos, found, hfind, hfound⟩ :=
      linearFind_cases (b := b) (k := k) (i := 0) (n := b.lastPos) (by have := h.le; omega)
    rw [SortBuncket.get, hfind]
    cases found with
    | false => rfl
    | true =>
      obtain ⟨hlt, hkey⟩ := hfound rfl
      rw [Nat.zero_add] at hlt
      have hvalue := h.value_of_absent habsent hlt hkey
      simp only [bind, Except.bind, read_of_lt (hlt.trans_le h.le), if_pos hvalue]

/-- The pair of a key becomes a gap. -/
theorem erase (h : Mirrors b u) (hslots : b.slots b.lastPos = l₁ ++ (k, v) :: l₂) (hk : k ≠ 0)
    (hu : u'.Distinct) (hent : u'.entries = u.entries - 1)
    (hhas : ∀ k' v', u'.Has k' v' ↔ k' ≠ k ∧ u.Has k' v') :
    Mirrors ⟨b.lastPos, u'.entries, Function.update b.records l₁.length (0, 0)⟩ u' := by
  have hslots' : slots ⟨b.lastPos, u'.entries, Function.update b.records l₁.length (0, 0)⟩ b.lastPos =
      l₁ ++ (0, 0) :: l₂ := slots_update hslots (0, 0)
  have hlive : live (l₁ ++ (0, 0) :: l₂) = live l₁ ++ live l₂ := by
    rw [live_append, live_cons_gap rfl]
  have hold : live (b.slots b.lastPos) = live l₁ ++ (k, v) :: live l₂ := by
    rw [hslots, live_append, live_cons hk]
  obtain ⟨hsmall, hlarge⟩ := h.lt_lt hslots hk
  refine ⟨h.le, ?_, rfl, ?_, ?_, fun k' v' => ?_, hu⟩
  · have hlen := h.length
    rw [hold, List.length_append, List.length_cons, h.entries] at hlen
    simp only [hslots', hlive, List.length_append]
    omega
  · have hpair := h.pairwise
    rw [hold, List.pairwise_append, List.pairwise_cons] at hpair
    simp only [hslots', hlive, List.pairwise_append]
    exact ⟨hpair.1, hpair.2.1.2, fun p hp q hq => hpair.2.2 p hp q (List.mem_cons_of_mem _ hq)⟩
  · simp only [hslots', List.mem_append, List.mem_cons]
    rintro p (hp | rfl | hp)
    · exact h.gap p (by rw [hslots]; simp [hp])
    · simp
    · exact h.gap p (by rw [hslots]; simp [hp])
  · have hmem := h.has k' v'
    rw [hold, List.mem_append, List.mem_cons] at hmem
    simp only [hslots', hlive, List.mem_append]
    rw [hhas, ← hmem]
    constructor
    · rintro (hp | hp)
      · exact ⟨(hsmall _ hp).ne, .inl hp⟩
      · exact ⟨(hlarge _ hp).ne', .inr (.inr hp)⟩
    · rintro ⟨hne, hp | hp | hp⟩
      · exact .inl hp
      · exact absurd (Prod.mk.inj hp).1 hne
      · exact .inr hp

/-- The value of a key is replaced. -/
theorem replace (h : Mirrors b u) (hslots : b.slots b.lastPos = l₁ ++ (k, v) :: l₂) (hk : k ≠ 0)
    (hu : u'.Distinct) (hent : u'.entries = u.entries)
    (hhas : ∀ k' v', u'.Has k' v' ↔ if k' = k then v' = w else u.Has k' v') :
    Mirrors { b with records := Function.update b.records l₁.length (k, w) } u' := by
  have hslots' : slots { b with records := Function.update b.records l₁.length (k, w) } b.lastPos =
      l₁ ++ (k, w) :: l₂ := slots_update hslots (k, w)
  have hlive : live (l₁ ++ (k, w) :: l₂) = live l₁ ++ (k, w) :: live l₂ := by
    rw [live_append, live_cons hk]
  have hold : live (b.slots b.lastPos) = live l₁ ++ (k, v) :: live l₂ := by
    rw [hslots, live_append, live_cons hk]
  obtain ⟨hsmall, hlarge⟩ := h.lt_lt hslots hk
  refine ⟨h.le, ?_, h.entries.trans hent.symm, ?_, ?_, fun k' v' => ?_, hu⟩
  · have hlen := h.length
    rw [hold, List.length_append, List.length_cons] at hlen
    simp only [hslots', hlive, List.length_append, List.length_cons]
    exact hlen
  · have hpair := h.pairwise
    rw [hold, List.pairwise_append, List.pairwise_cons] at hpair
    simp only [hslots', hlive, List.pairwise_append, List.pairwise_cons]
    refine ⟨hpair.1, hpair.2.1, fun p hp q hq => ?_⟩
    rcases List.mem_cons.mp hq with rfl | hq
    · exact hsmall p hp
    · exact hpair.2.2 p hp q (List.mem_cons_of_mem _ hq)
  · simp only [hslots', List.mem_append, List.mem_cons]
    rintro p (hp | rfl | hp)
    · exact h.gap p (by rw [hslots]; simp [hp])
    · exact fun hzero => absurd hzero hk
    · exact h.gap p (by rw [hslots]; simp [hp])
  · have hmem := h.has k' v'
    rw [hold, List.mem_append, List.mem_cons] at hmem
    simp only [hslots', hlive, List.mem_append, List.mem_cons, Prod.mk.injEq]
    rw [hhas]
    by_cases hkk : k' = k
    · subst hkk
      rw [if_pos rfl]
      constructor
      · rintro (hp | hp | hp)
        · exact absurd rfl (hsmall _ hp).ne
        · exact hp.2
        · exact absurd rfl (hlarge _ hp).ne
      · exact fun hp => .inr (.inl ⟨rfl, hp⟩)
    · rw [if_neg hkk, ← hmem]
      simp [hkk]

/-- **`Delete`** from both buckets. -/
theorem delete (h : Mirrors b u) {value : Option UInt64} (hsound : b.Sound (.delete k value)) :
    ∃ b', b.delete k = .ok (found (u.delete k).1, b') ∧ Mirrors b' (u.delete k).2 ∧
      value = value.map fun content => (u.delete k).1.getD content := by
  have hle := h.le
  by_cases hhas : ∃ v, u.Has k v
  · obtain ⟨v, hv⟩ := hhas
    obtain ⟨hk, l₁, l₂, hslots, hlen, hrec, hsmall⟩ := h.exists_index hv
    have hkey : b.key l₁.length = k := by rw [SortBuncket.key, hrec]
    obtain ⟨hfront, hvalue⟩ := hsound.1 _ hlen hkey hk
    obtain ⟨u', hdel, hu', hhas', -⟩ := h.distinct.delete_of_has hv
    have hent : u'.entries = u.entries - 1 := by
      have hdelete := UnSortBuncket.entries_delete (b := u) (k := k)
      rw [hdel] at hdelete
      exact hdelete
    have hpos : 0 < u.entries := by
      obtain ⟨i, hi, -⟩ := hv
      omega
    have hcount : (b.entries + (2 ^ 8 - 1)) % 2 ^ 8 = u'.entries := by
      have := h.distinct.le
      rw [UnSortBuncket.maxEntries_eq] at this
      rw [hent, h.entries]
      omega
    rw [hdel]
    refine ⟨_, ?_, h.erase hslots hk hu' hent hhas', ?_⟩
    · rw [SortBuncket.delete, removeKey_of_lt (by omega) (Nat.zero_le _) (by omega)
        (fun j _ hj => ⟨hfront j hj, (hsmall j hj).ne⟩) hkey hk]
      simp only [bind, Except.bind, hcount]
      rfl
    · rcases hvalue with rfl | rfl
      · rfl
      · simp [SortBuncket.value, hrec]
  · push Not at hhas
    have habsent : ∀ i < b.lastPos, b.key i = k → k = 0 := by
      intro i hi hkey
      by_contra hk
      exact hhas _ (h.has_of_key hi hkey hk)
    have hroom := hsound.2 habsent
    rw [UnSortBuncket.delete_of_absent hhas]
    refine ⟨b, ?_, h, by simp⟩
    rw [SortBuncket.delete, removeKey_of_absent (by omega) (fun j _ hj => habsent j (by omega)) ?_]
    · rfl
    · by_cases heq : b.lastPos = b.entries
      · exact .inl (by omega)
      · obtain ⟨j, hj, hzero⟩ := h.exists_gap heq
        exact .inr ⟨j, Nat.zero_le _, by omega, hzero⟩

/-- **`Update`** of both buckets. -/
theorem update (h : Mirrors b u) (hsound : b.Sound (.update k w)) :
    ∃ b', b.update k w = .ok (found (u.update k w).1, b') ∧ Mirrors b' (u.update k w).2 := by
  have hle := h.le
  have hent : b.entries ≤ 15 := h.entries ▸ h.distinct.le
  have hcount : b.entries ≤ b.lastPos := by
    have hlen := List.length_filter_le (fun p => decide (p.1 ≠ 0)) (b.slots b.lastPos)
    rw [length_slots] at hlen
    exact h.length ▸ hlen
  by_cases hhas : ∃ v, u.Has k v
  · obtain ⟨v, hv⟩ := hhas
    obtain ⟨hk, l₁, l₂, hslots, hlen, hrec, hsmall⟩ := h.exists_index hv
    have hkey : b.key l₁.length = k := by rw [SortBuncket.key, hrec]
    obtain ⟨hv₀, hlt, hprobes⟩ := hsound _ hlen hkey hk
    rw [SortBuncket.value, hrec] at hv₀
    obtain ⟨u', hupd, hu', hhas', -⟩ := h.distinct.update_of_has hv w
    have hent' : u'.entries = u.entries := by
      have hupdate := UnSortBuncket.entries_update (b := u) (k := k) (v := w)
      rwa [hupd] at hupdate
    have hlarge : ∀ m ∈ probes l₁.length (b.entries + 1) 0 b.entries, l₁.length < m → k < b.key m := by
      intro m hm hlt'
      have hm' := lt_of_mem_probes (Nat.zero_le _) hlt hm
      rw [← hkey]
      exact h.ascending _ m hlt' (by omega) (hkey ▸ hk) (hprobes m hm hlt')
    rw [hupd]
    refine ⟨_, ?_, h.replace hslots hk hu' hent' hhas'⟩
    rw [SortBuncket.update, find_of_probes (by omega) hent (Nat.zero_le _) hlt hkey
      (fun m _ hm => hsmall m hm) hlarge]
    simp only [bind, Except.bind, read_of_lt (hlen.trans_le hle), hrec, if_neg hv₀,
      write_of_lt (hlen.trans_le hle)]
    rfl
  · push Not at hhas
    rw [UnSortBuncket.update_of_absent hhas]
    refine ⟨b, ?_, h⟩
    obtain ⟨pos, hit, hfind, hhit⟩ : ∃ pos hit, b.find k (b.entries + 1) 0 b.entries =
      .ok (pos, hit) ∧ (hit = true → pos < b.entries ∧ b.key pos = k) := find_cases (by omega) hent
    rw [SortBuncket.update, hfind]
    cases hit with
    | false => rfl
    | true =>
      obtain ⟨hlt, hkey⟩ := hhit rfl
      have hvalue := h.value_of_absent hhas (hlt.trans_le hcount) hkey
      simp only [bind, Except.bind, read_of_lt (hlt.trans_le hent), if_pos hvalue]
      rfl

/-- **A sound call** returns the same from both buckets, and touches only slots that exist. -/
theorem step (h : Mirrors b u) {a : Action} (ha : Allowed u a) (hsound : b.Sound a) :
    ∃ b', b.step a = .ok ((unSortStep u a).1, b') ∧ Mirrors b' (unSortStep u a).2 := by
  cases a with
  | put k v =>
    obtain ⟨hk, -, habsent⟩ := ha
    obtain ⟨b', hput, hb'⟩ := h.put hk habsent hsound
    refine ⟨b', ?_, hb'⟩
    rw [SortBuncket.step, hput]
    rfl
  | delete k value =>
    obtain ⟨b', hdel, hb', hvalue⟩ := h.delete hsound
    refine ⟨b', ?_, hb'⟩
    rw [SortBuncket.step, hdel, unSortStep, ← hvalue]
    rfl
  | get k =>
    refine ⟨b, ?_, h⟩
    rw [SortBuncket.step, h.get hsound]
    rfl
  | update k w =>
    obtain ⟨b', hupd, hb'⟩ := h.update hsound
    refine ⟨b', ?_, hb'⟩
    rw [SortBuncket.step, hupd]
    rfl

end Mirrors

/-! ## Whole runs -/

/-- The calls are allowed. -/
def AllAllowed (u : UnSortBuncket) (as : List Action) : Prop :=
  Along (fun u a => (.ok (unSortStep u a) : Except Fault _)) Allowed u as

/-- The calls are sound. -/
def AllSound (b : SortBuncket) (as : List Action) : Prop := Along step Sound b as

/-- `SortBuncket` does the same as `UnSortBuncket`: from empty buckets the calls return the same, no
slot is touched that does not exist, and the live keys ascend. -/
def Interchangeable (mem mem' : ℕ → UInt64 × UInt64) (as : List Action) : Prop :=
  ∃ b', exec step ⟨0, 0, mem⟩ as = .ok ((specRun unSortStep ⟨0, mem'⟩ as).1, b') ∧ b'.Ascending

/-- **When the two buckets are interchangeable**: in every run in which no call runs into a gap. -/
theorem interchangeable_of_sound (mem mem' : ℕ → UInt64 × UInt64) (as : List Action)
    (hallowed : AllAllowed ⟨0, mem'⟩ as) (hsound : AllSound ⟨0, 0, mem⟩ as) :
    Interchangeable mem mem' as := by
  have hstep : ∀ a as b u, Mirrors b u ∧ AllAllowed u (a :: as) ∧ AllSound b (a :: as) →
      ∃ b', step b a = .ok ((unSortStep u a).1, b') ∧
        Mirrors b' (unSortStep u a).2 ∧ AllAllowed (unSortStep u a).2 as ∧ AllSound b' as := by
    rintro a as b u ⟨hb, ⟨ha, hallowed⟩, hsound, hrest⟩
    obtain ⟨b', hstep, hb'⟩ := hb.step ha hsound
    exact ⟨b', hstep, hb', hallowed _ _ rfl, hrest _ _ hstep⟩
  obtain ⟨b', hrun, hb', -, -⟩ := exec_refines
    (fun as b u => Mirrors b u ∧ AllAllowed u as ∧ AllSound b as) hstep as ⟨0, 0, mem⟩ ⟨0, mem'⟩
    ⟨.empty mem mem', hallowed, hsound⟩
  exact ⟨b', hrun, hb'.ascending⟩

theorem AllAllowed.cons {a : Action} {as : List Action} (ha : Allowed u a)
    (has : AllAllowed (unSortStep u a).2 as) : AllAllowed u (a :: as) := by
  refine ⟨ha, fun r u' hstep => ?_⟩
  rw [Except.ok.inj hstep] at has
  exact has

theorem AllSound.cons {a : Action} {as : List Action} {r : Status × Option UInt64} (ha : b.Sound a)
    (hstep : b.step a = .ok (r, b')) (has : AllSound b' as) : AllSound b (a :: as) := by
  refine ⟨ha, fun r' t hstep' => ?_⟩
  cases hstep.symm.trans hstep'
  exact has

theorem allowed_put (hk : k ≠ 0) (hv : v ≠ 0) (hfind : u.find k = none) : Allowed u (.put k v) :=
  ⟨hk, hv, UnSortBuncket.find_eq_none.mp hfind⟩

/-- The first of two keys is deleted, so that the gap is in front of all keys. The last value that is
stored is 0. -/
def leadingGap : List Action :=
  [.put 5 10, .put 7 20, .delete 5 none, .put 8 30, .get 7, .update 7 0]

theorem interchangeable_leadingGap : AllAllowed ⟨0, fun _ => (0, 0)⟩ leadingGap ∧
    AllSound ⟨0, 0, fun _ => (0, 0)⟩ leadingGap ∧
    Interchangeable (fun _ => (0, 0)) (fun _ => (0, 0)) leadingGap := by
  have hallowed : AllAllowed ⟨0, fun _ => (0, 0)⟩ leadingGap := by
    refine .cons (allowed_put (by decide) (by decide) (by decide)) ?_
    refine .cons (allowed_put (by decide) (by decide) (by decide +kernel)) (.cons trivial ?_)
    refine .cons (allowed_put (by decide) (by decide) (by decide +kernel)) ?_
    exact .cons trivial (.cons trivial trivial)
  have hsound : AllSound ⟨0, 0, fun _ => (0, 0)⟩ leadingGap := by
    refine .cons (by rw [Sound]; decide +kernel) rfl ?_
    refine .cons (by rw [Sound]; decide +kernel) rfl ?_
    refine .cons (by rw [Sound]; decide +kernel) rfl ?_
    refine .cons (by rw [Sound]; decide +kernel) rfl ?_
    refine .cons (by rw [Sound]; decide +kernel) rfl ?_
    exact .cons (by rw [Sound]; decide +kernel) rfl trivial
  exact ⟨hallowed, hsound, interchangeable_of_sound _ _ _ hallowed hsound⟩

/-- **The two buckets are not interchangeable**: behind a gap a key is not deleted. -/
theorem not_interchangeable : ¬ ∀ (mem mem' : ℕ → UInt64 × UInt64) (as : List Action),
    AllAllowed ⟨0, mem'⟩ as → Interchangeable mem mem' as := by
  intro hall
  have hallowed : AllAllowed ⟨0, fun _ => (0, 0)⟩
      [.put 1 10, .put 2 20, .delete 1 none, .delete 2 none] := by
    refine .cons (allowed_put (by decide) (by decide) (by decide)) ?_
    refine .cons (allowed_put (by decide) (by decide) (by decide +kernel)) ?_
    exact .cons trivial (.cons trivial trivial)
  obtain ⟨b', hrun, -⟩ := hall (fun _ => (0, 0)) (fun _ => (0, 0)) _ hallowed
  have hresults : (exec step ⟨0, 0, fun _ => (0, 0)⟩
      [.put 1 10, .put 2 20, .delete 1 none, .delete 2 none]).map Prod.fst =
      .ok [(.ok, none), (.ok, none), (.ok, none), (.noExist, none)] := rfl
  have hresults' : (specRun unSortStep ⟨0, fun _ => (0, 0)⟩
      [.put 1 10, .put 2 20, .delete 1 none, .delete 2 none]).1 =
      [(.ok, none), (.ok, none), (.ok, none), (.ok, none)] := by decide +kernel
  rw [hrun, hresults'] at hresults
  simp [Except.map] at hresults

end SortBuncket

end NaliStore
