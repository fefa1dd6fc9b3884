import NaliStore.BEntry
import NaliStore.Lib.Runs

/-!
# Fingerprints

`UnSortBuncket` and `PointerBEntry` of `src/src/nali_entry.h` compiled with `USE_FINGER`. An
`eentry` keeps 16 bytes for its bucket: byte `i` is a hash of the key in slot `i`. `Find` compares
all 16 bytes with the hash of the key it looks for, and then the keys of the slots that match.

The bytes of the slots in use follow every operation (`Matched`). But `Find` does not look at
`entries`: it also takes a slot that is not in use any more, in which the key and its byte are left
over, and when byte 15 matches it reads a slot that does not exist. `find_agrees_iff` says for
which keys it does what the search of the slots in use does.
-/

namespace NaliStore

open Routing Runs

/-- `hashcode1B` -/
def hashcode1B (x : UInt64) : UInt8 :=
  let x := x ^^^ (x >>> 32)
  let x := x ^^^ (x >>> 16)
  let x := x ^^^ (x >>> 8)
  (x &&& 0xff).toUInt8

/-- A bucket and the fingerprints its B entry passes with it. -/
structure Fingered where
  /-- the bucket -/
  buncket : UnSortBuncket
  /-- `fingerprint`, of 16 bytes -/
  fingerprint : ℕ → UInt8

namespace Fingered

/-- The loop over the candidates of `Find`. There is no slot 15. -/
def probe (b : UnSortBuncket) (target : UInt64) : List ℕ → Except Fault (Option ℕ)
  | [] => .ok none
  | jj :: mask =>
    if jj < UnSortBuncket.maxEntries then
      if b.key jj = target then .ok (some jj) else probe b target mask
    else .error .outOfBounds

/-- `Find`: the set bits of the mask from the lowest on. -/
def find (c : Fingered) (target : UInt64) : Except Fault (Option ℕ) :=
  probe c.buncket target ((List.range 16).filter fun j => c.fingerprint j = hashcode1B target)

/-- `PutBufKV` -/
def putBufKV (c : Fingered) (newKey value : UInt64) (dataIndex : ℕ) : Status × Fingered :=
  if dataIndex ≥ UnSortBuncket.maxEntries then (.full, c)
  else (.ok, ⟨{ c.buncket with records := Function.update c.buncket.records dataIndex (newKey, value) },
    Function.update c.fingerprint dataIndex (hashcode1B newKey)⟩)

/-- `Put` -/
def put (c : Fingered) (key value : UInt64) : Status × Fingered :=
  match c.putBufKV key value c.buncket.entries with
  | (.ok, c) => (.ok, { c with buncket := { c.buncket with entries := c.buncket.entries + 1 } })
  | (ret, c) => (ret, c)

/-- `Update`: the old value, if the key is found. -/
def update (c : Fingered) (key value : UInt64) : Except Fault (Option UInt64 × Fingered) := do
  match ← c.find key with
  | none => .ok (none, c)
  | some pos => .ok (some (c.buncket.value pos),
      ⟨{ c.buncket with
        records := Function.update c.buncket.records pos (c.buncket.key pos, value) },
      Function.update c.fingerprint pos (hashcode1B key)⟩)

/-- `Get` -/
def get (c : Fingered) (key : UInt64) : Except Fault (Option UInt64) := do
  .ok ((← c.find key).map c.buncket.value)

/-- Slot `idx` is copied to slot `pos`, with its fingerprint. -/
def move (c : Fingered) (idx pos : ℕ) : Fingered :=
  ⟨{ c.buncket with records := Function.update c.buncket.records pos (c.buncket.records idx) },
    Function.update c.fingerprint pos (c.fingerprint idx)⟩

/-- `remove_key` of a bucket with `idx` slots in use. With none in use it reads `records[-1]`. -/
def removeKey (c : Fingered) (key : UInt64) (idx : ℕ) : Except Fault (Option UInt64 × Fingered) := do
  match ← c.find key with
  | none => .ok (none, c)
  | some pos =>
    if idx = 0 then .error .outOfBounds
    else if pos = idx - 1 then .ok (some (c.buncket.value pos), c)
    else .ok (some (c.buncket.value pos), c.move (idx - 1) pos)

/-- `Delete`: the old value, if the key is found. -/
def delete (c : Fingered) (key : UInt64) : Except Fault (Option UInt64 × Fingered) := do
  match ← c.removeKey key c.buncket.entries with
  | (none, c) => .ok (none, c)
  | (some value, c) =>
    .ok (some value, { c with buncket := { c.buncket with entries := c.buncket.entries - 1 } })

/-- The first loop of `Expand_`. -/
def copySlots (b : UnSortBuncket) : List ℕ → Fingered → ℕ → Fingered
  | [], next, _ => next
  | i :: slots, next, idx => copySlots b slots (next.putBufKV (b.key i) (b.value i) idx).2 (idx + 1)

/-- The second loop of `Expand_`. -/
def removeSlots : List ℕ → Fingered → ℕ → Except Fault Fingered
  | [], c, _ => .ok c
  | i :: slots, c, idx => do
    let (_, c) ← c.removeKey (c.buncket.key i) idx
    removeSlots slots c (idx - 1)

/-- `Expand_` into the bucket and the bytes `next`. -/
def expand (c next : Fingered) : Except Fault (Fingered × UInt64 × Fingered) := do
  let half := c.buncket.entries / 2
  let sortedIndex := c.buncket.getSortedIndex
  let splitKey := c.buncket.key (sortedIndex.getD half 0)
  let upper := sortedIndex.drop half
  let moved := copySlots c.buncket upper next 0
  let rest ← removeSlots upper c c.buncket.entries
  .ok (⟨{ moved.buncket with entries := c.buncket.entries - half }, moved.fingerprint⟩, splitKey,
    ⟨{ rest.buncket with entries := half }, rest.fingerprint⟩)

/-! ## What Find finds -/

variable {c c' next : Fingered} {target k v : UInt64} {i n : ℕ}

/-- The slot has the fingerprint of the key and the key. -/
def Hit (c : Fingered) (target : UInt64) (j : ℕ) : Prop :=
  c.fingerprint j = hashcode1B target ∧ c.buncket.key j = target

instance (c : Fingered) (target : UInt64) (j : ℕ) : Decidable (c.Hit target j) :=
  inferInstanceAs (Decidable (_ ∧ _))

/-- Candidates in front of slot 15. -/
theorem probe_append {b : UnSortBuncket} {l : List ℕ} (hl : ∀ j ∈ l, j < UnSortBuncket.maxEntries)
    (rest : List ℕ) : probe b target (l ++ rest) =
      match l.find? fun j => b.key j = target with
      | some j => .ok (some j)
      | none => probe b target rest := by
  induction l with
  | nil => rfl
  | cons j l ih =>
    have hj := hl j (List.mem_cons_self ..)
    rw [List.cons_append, probe, if_pos hj, List.find?_cons]
    by_cases hkey : b.key j = target
    · simp [hkey]
    · simp only [hkey, if_false, decide_false]
      exact ih fun x hx => hl x (List.mem_cons_of_mem _ hx)

/-- **What `Find` finds**: the first of the fifteen slots that is a hit. If there is none it reads
slot 15 when byte 15 matches. -/
theorem find_eq (c : Fingered) (target : UInt64) : c.find target =
    match (List.range 15).find? fun j => c.Hit target j with
    | some j => .ok (some j)
    | none => if c.fingerprint 15 = hashcode1B target then .error .outOfBounds else .ok none := by
  have hrange : List.range 16 = List.range 15 ++ [15] := rfl
  have hslots : ∀ j ∈ (List.range 15).filter (fun j => c.fingerprint j = hashcode1B target),
      j < UnSortBuncket.maxEntries := fun j hj => List.mem_range.mp (List.mem_filter.mp hj).1
  have hfirst : ((List.range 15).filter fun j => c.fingerprint j = hashcode1B target).find?
      (fun j => c.buncket.key j = target) = (List.range 15).find? fun j => c.Hit target j := by
    rw [List.find?_filter]
    congr 1
    funext j
    rw [Bool.eq_iff_iff]
    simp only [decide_eq_true_eq]
    exact Iff.rfl
  rw [find, hrange, List.filter_append, probe_append hslots, hfirst]
  cases (List.range 15).find? fun j => c.Hit target j with
  | some j => rfl
  | none =>
    by_cases hbyte : c.fingerprint 15 = hashcode1B target
    · simp [hbyte, probe, UnSortBuncket.maxEntries_eq]
    · simp [hbyte, probe]

theorem find_eq_some_iff : c.find target = .ok (some i) ↔
    i < 15 ∧ c.Hit target i ∧ ∀ j < i, ¬ c.Hit target j := by
  have hrange : (List.range 15).find? (fun j => c.Hit target j) = some i ↔
      i < 15 ∧ c.Hit target i ∧ ∀ j < i, ¬ c.Hit target j := by
    rw [List.find?_range_eq_some]
    simp only [decide_eq_true_eq, List.mem_range, Bool.not_eq_eq_eq_not, Bool.not_true,
      decide_eq_false_iff_not]
    tauto
  rw [find_eq, ← hrange]
  cases (List.range 15).find? fun j => c.Hit target j with
  | some j => simp
  | none =>
    simp only [reduceCtorEq, iff_false]
    split <;> simp

theorem find_eq_none_iff : c.find target = .ok none ↔
    (∀ j < 15, ¬ c.Hit target j) ∧ c.fingerprint 15 ≠ hashcode1B target := by
  have hrange : (List.range 15).find? (fun j => c.Hit target j) = none ↔
      ∀ j < 15, ¬ c.Hit target j := by
    simp only [List.find?_eq_none, List.mem_range, decide_eq_true_eq]
  rw [find_eq, ← hrange]
  cases (List.range 15).find? fun j => c.Hit target j with
  | some j => simp
  | none => simp

/-! ## The fingerprints of the slots in use -/

/-- The slots in use have the fingerprints of their keys. -/
structure Covered (c : Fingered) : Prop where
  /-- the fingerprints -/
  finger : ∀ i < c.buncket.entries, c.fingerprint i = hashcode1B (c.buncket.key i)
  /-- there are fifteen slots -/
  le : c.buncket.entries ≤ UnSortBuncket.maxEntries

/-- Moreover no key is in two slots. -/
structure Matched (c : Fingered) : Prop where
  /-- no key is in two slots in use -/
  distinct : c.buncket.Distinct
  /-- the fingerprints -/
  finger : ∀ i < c.buncket.entries, c.fingerprint i = hashcode1B (c.buncket.key i)

theorem Matched.covered (h : c.Matched) : c.Covered := ⟨h.finger, h.distinct.le⟩

/-- **A key that is in use is found** where the search of the slots in use finds it. -/
theorem Covered.find_of_lt (h : c.Covered) (hi : i < c.buncket.entries) (hk : c.buncket.key i = k) :
    ∃ pos < c.buncket.entries, c.buncket.key pos = k ∧ c.buncket.find k = some pos ∧
      c.find k = .ok (some pos) := by
  cases hfind : c.buncket.find k with
  | none => exact absurd (hk ▸ UnSortBuncket.has_of_lt hi) (UnSortBuncket.find_eq_none.mp hfind _)
  | some pos =>
    obtain ⟨hpos, hkey, hfirst⟩ := UnSortBuncket.find_eq_some.mp hfind
    refine ⟨pos, hpos, hkey, rfl, find_eq_some_iff.mpr ⟨hpos.trans_le h.le, ⟨?_, hkey⟩, ?_⟩⟩
    · rw [h.finger pos hpos, hkey]
    · exact fun j hj hhit => hfirst j hj hhit.2

/-- `Find` does what the search of the slots in use does, and reads no slot that does not exist. -/
def Agrees (c : Fingered) (target : UInt64) : Prop := c.find target = .ok (c.buncket.find target)

/-- **When the two searches agree**: the key is in use, or byte 15 is not its fingerprint and it is
not left over, with its fingerprint, in a slot that is not in use. -/
theorem Matched.agrees_iff (h : c.Matched) (target : UInt64) : c.Agrees target ↔
    (∃ i < c.buncket.entries, c.buncket.key i = target) ∨
      c.fingerprint 15 ≠ hashcode1B target ∧
        ∀ j, c.buncket.entries ≤ j → j < 15 → ¬ c.Hit target j := by
  by_cases hlive : ∃ i < c.buncket.entries, c.buncket.key i = target
  · obtain ⟨i, hi, hk⟩ := hlive
    obtain ⟨pos, -, -, hplain, hfind⟩ := h.covered.find_of_lt hi hk
    refine iff_of_true ?_ (.inl ⟨i, hi, hk⟩)
    rw [Agrees, hfind, hplain]
  · have hnone : c.buncket.find target = none := by
      rw [UnSortBuncket.find_eq_none]
      rintro v ⟨i, hi, hrec⟩
      exact hlive ⟨i, hi, by rw [UnSortBuncket.key, hrec]⟩
    rw [Agrees, hnone, find_eq_none_iff, or_iff_right hlive, and_comm]
    refine and_congr_right fun _ => ⟨fun hall j _ hj => hall j hj, fun hall j hj hhit => ?_⟩
    rcases Nat.lt_or_ge j c.buncket.entries with hlt | hge
    · exact hlive ⟨j, hlt, hhit.2⟩
    · exact hall j hge hj hhit

/-! ## The operations keep them -/

/-- **`Put`** of a key that is not in use. -/
theorem Matched.put (h : c.Matched) (hk : ∀ v, ¬ c.buncket.Has k v) : (c.put k v).2.Matched := by
  by_cases hfull : c.buncket.entries ≥ UnSortBuncket.maxEntries
  · rw [Fingered.put, putBufKV, if_pos hfull]
    exact h
  · have hroom := Nat.lt_of_not_le hfull
    have hput : (c.put k v).2 = ⟨c.buncket.append k v,
        Function.update c.fingerprint c.buncket.entries (hashcode1B k)⟩ := by
      rw [Fingered.put, putBufKV, if_neg hfull]
      rfl
    rw [hput]
    refine ⟨h.distinct.append hroom hk, fun i hi => ?_⟩
    rcases Nat.lt_succ_iff_lt_or_eq.mp hi with hlt | rfl
    · rw [UnSortBuncket.key, UnSortBuncket.append_records_of_lt hlt]
      exact (Function.update_of_ne (Nat.ne_of_lt hlt) ..).trans (h.finger i hlt)
    · rw [UnSortBuncket.key, UnSortBuncket.append_records_self]
      exact Function.update_self ..

/-- **`Update`**, also of a slot that is not in use. -/
theorem Matched.update (h : c.Matched) {r : Option UInt64} (hupd : c.update k v = .ok (r, c')) :
    c'.Matched := by
  obtain ⟨pos, hfind, hupd⟩ := bind_eq_ok hupd
  cases pos with
  | none =>
    obtain ⟨-, rfl⟩ := Prod.mk.inj (Except.ok.inj hupd)
    exact h
  | some pos =>
    obtain ⟨-, rfl⟩ := Prod.mk.inj (Except.ok.inj hupd)
    obtain ⟨-, hhit, -⟩ := find_eq_some_iff.mp hfind
    have hkeys : ∀ j, UnSortBuncket.key ⟨c.buncket.entries, Function.update c.buncket.records pos
        (c.buncket.key pos, v)⟩ j = c.buncket.key j := by
      intro j
      by_cases hj : j = pos
      · subst hj
        simp [UnSortBuncket.key]
      · simp [UnSortBuncket.key, Function.update_of_ne hj]
    refine ⟨⟨fun i hi j hj heq => ?_, h.distinct.le⟩, fun i hi => ?_⟩
    · rw [hkeys, hkeys] at heq
      exact h.distinct.inj i hi j hj heq
    · rw [hkeys]
      by_cases hj : i = pos
      · subst hj
        rw [hhit.2]
        exact Function.update_self ..
      · exact (Function.update_of_ne hj ..).trans (h.finger i hi)

/-- After a move of the last slot in use the others are as they were. -/
theorem Matched.move (h : c.Matched) (pos : ℕ) :
    Matched ⟨⟨c.buncket.entries - 1, (c.move (c.buncket.entries - 1) pos).buncket.records⟩,
      (c.move (c.buncket.entries - 1) pos).fingerprint⟩ := by
  set n := c.buncket.entries with hn
  -- where the record of a slot was before
  have hfrom : ∀ j < n - 1, ∃ x < n, (x = j ∨ j = pos ∧ x = n - 1) ∧
      (c.move (n - 1) pos).buncket.records j = c.buncket.records x ∧
      (c.move (n - 1) pos).fingerprint j = c.fingerprint x := by
    intro j hj
    by_cases hjp : j = pos
    · subst hjp
      exact ⟨n - 1, by omega, .inr ⟨rfl, rfl⟩, Function.update_self .., Function.update_self ..⟩
    · exact ⟨j, by omega, .inl rfl, Function.update_of_ne hjp .., Function.update_of_ne hjp ..⟩
  refine ⟨⟨fun i hi j hj heq => ?_, (Nat.sub_le ..).trans h.distinct.le⟩, fun i hi => ?_⟩
  · obtain ⟨x, hx, hxi, hxr, -⟩ := hfrom i hi
    obtain ⟨y, hy, hyj, hyr, -⟩ := hfrom j hj
    simp only [UnSortBuncket.key, hxr, hyr] at heq
    have hxy := h.distinct.inj x hx y hy heq
    simp only at hi hj
    omega
  · obtain ⟨x, hx, -, hxr, hxf⟩ := hfrom i hi
    simp only [UnSortBuncket.key, hxr, hxf]
    exact h.finger x hx

/-- **`Delete`**, also of a slot that is not in use. -/
theorem Matched.delete (h : c.Matched) {r : Option UInt64} (hdel : c.delete k = .ok (r, c')) :
    c'.Matched := by
  obtain ⟨⟨r', c₁⟩, hrem, hdel⟩ := bind_eq_ok hdel
  obtain ⟨pos, -, hrem⟩ := bind_eq_ok hrem
  cases pos with
  | none =>
    obtain ⟨rfl, rfl⟩ := Prod.mk.inj (Except.ok.inj hrem)
    obtain ⟨-, rfl⟩ := Prod.mk.inj (Except.ok.inj hdel)
    exact h
  | some pos =>
    simp only at hrem
    split at hrem
    · cases hrem
    · split at hrem
      · -- the last slot is dropped
        obtain ⟨rfl, rfl⟩ := Prod.mk.inj (Except.ok.inj hrem)
        obtain ⟨-, rfl⟩ := Prod.mk.inj (Except.ok.inj hdel)
        refine ⟨⟨fun i hi j hj => h.distinct.inj i ?_ j ?_, (Nat.sub_le ..).trans h.distinct.le⟩,
          fun i hi => h.finger i ?_⟩
        · exact lt_of_lt_of_le hi (Nat.sub_le ..)
        · exact lt_of_lt_of_le hj (Nat.sub_le ..)
        · exact lt_of_lt_of_le hi (Nat.sub_le ..)
      · obtain ⟨rfl, rfl⟩ := Prod.mk.inj (Except.ok.inj hrem)
        obtain ⟨-, rfl⟩ := Prod.mk.inj (Except.ok.inj hdel)
        exact h.move pos

/-! ## Splitting -/

/-- The first loop of `Expand_` copies records as it does without fingerprints, and their
fingerprints. -/
theorem copySlots_spec (b : UnSortBuncket) (slots : List ℕ) : ∀ (next : Fingered) (idx : ℕ),
    idx + slots.length ≤ UnSortBuncket.maxEntries →
    (∀ j < idx, next.fingerprint j = hashcode1B (next.buncket.key j)) →
    (copySlots b slots next idx).buncket = b.copySlots slots next.buncket idx ∧
      ∀ j < idx + slots.length, (copySlots b slots next idx).fingerprint j =
        hashcode1B ((copySlots b slots next idx).buncket.key j) := by
  induction slots with
  | nil => exact fun next idx _ h => ⟨rfl, h⟩
  | cons i slots ih =>
    intro next idx hlen h
    rw [List.length_cons] at hlen ⊢
    have hnot : ¬ idx ≥ UnSortBuncket.maxEntries := by omega
    rw [copySlots, UnSortBuncket.copySlots, putBufKV, UnSortBuncket.putBufKV, if_neg hnot, if_neg hnot]
    have hlength : idx + (slots.length + 1) = idx + 1 + slots.length := by omega
    rw [hlength]
    refine ih _ (idx + 1) (by omega) fun j hj => ?_
    rcases Nat.lt_succ_iff_lt_or_eq.mp hj with hlt | rfl
    · simp only [UnSortBuncket.key, Function.update_of_ne (Nat.ne_of_lt hlt)]
      exact h j hlt
    · simp only [UnSortBuncket.key, Function.update_self]

/-- `remove_key` of a key that is in use does to the records what it does without fingerprints. -/
theorem Covered.removeKey (h : c.Covered) (hi : i < c.buncket.entries) (hn : 0 < n)
    (hle : n ≤ c.buncket.entries) : ∃ r c', c.removeKey (c.buncket.key i) n = .ok (r, c') ∧
      c'.buncket = (c.buncket.removeKey (c.buncket.key i) n).2 ∧ c'.Covered ∧
      c'.buncket.entries = c.buncket.entries := by
  obtain ⟨pos, hpos, hkey, hplain, hfind⟩ := h.find_of_lt hi rfl
  rw [Fingered.removeKey, hfind, UnSortBuncket.removeKey, hplain]
  by_cases hlast : pos = n - 1
  · refine ⟨some (c.buncket.value pos), c, ?_, ?_, h, rfl⟩
    · simp only [bind, Except.bind, if_neg (Nat.ne_of_gt hn), if_pos hlast]
    · simp only [if_pos hlast]
  · refine ⟨some (c.buncket.value pos), c.move (n - 1) pos, ?_, ?_, ⟨fun j hj => ?_, h.le⟩, rfl⟩
    · simp only [bind, Except.bind, if_neg (Nat.ne_of_gt hn), if_neg hlast]
    · simp only [if_neg hlast]
      rfl
    · by_cases hjp : j = pos
      · subst hjp
        simp only [move, UnSortBuncket.key, Function.update_self]
        exact h.finger (n - 1) (by omega)
      · simp only [move, UnSortBuncket.key, Function.update_of_ne hjp]
        exact h.finger j hj

/-- The second loop of `Expand_` removes records as it does without fingerprints. -/
theorem Covered.removeSlots {slots : List ℕ} : ∀ {c : Fingered} {n : ℕ}, c.Covered →
    (∀ i ∈ slots, i < c.buncket.entries) → slots.length ≤ n → n ≤ c.buncket.entries →
    ∃ c', Fingered.removeSlots slots c n = .ok c' ∧
      c'.buncket = UnSortBuncket.removeSlots slots c.buncket n ∧ c'.Covered ∧
      c'.buncket.entries = c.buncket.entries := by
  induction slots with
  | nil => exact fun {c n} h _ _ _ => ⟨c, rfl, rfl, h, rfl⟩
  | cons i slots ih =>
    intro c n h hslots hlen hle
    rw [List.length_cons] at hlen
    obtain ⟨r, c₁, hrem, hrec, hcov, hent⟩ :=
      h.removeKey (hslots i (List.mem_cons_self ..)) (n := n) (by omega) hle
    obtain ⟨c', hc', hrec', hcov', hent'⟩ := ih (n := n - 1) hcov
      (fun j hj => hent ▸ hslots j (List.mem_cons_of_mem _ hj)) (by omega) (by omega)
    refine ⟨c', ?_, ?_, hcov', hent'.trans hent⟩
    · rw [Fingered.removeSlots, hrem]
      exact hc'
    · rw [UnSortBuncket.removeSlots, ← hrec]
      exact hrec'

/-- **`Expand_`** moves the records it moves without fingerprints, and both halves have the
fingerprints of their keys. -/
theorem Matched.expand (h : c.Matched) (hpos : 0 < c.buncket.entries) (next : Fingered) :
    ∃ moved splitKey rest, c.expand next = .ok (moved, splitKey, rest) ∧
      (moved.buncket, splitKey, rest.buncket) = c.buncket.expand next.buncket ∧
      moved.Matched ∧ rest.Matched := by
  set half := c.buncket.entries / 2 with hhalf
  have hle := h.distinct.le
  have hlen : c.buncket.upperHalf.length = c.buncket.entries - half := UnSortBuncket.length_upperHalf
  obtain ⟨hcopy, hfinger⟩ := copySlots_spec c.buncket c.buncket.upperHalf next 0 (by omega)
    fun j hj => absurd hj (Nat.not_lt_zero j)
  have hslots : ∀ i ∈ c.buncket.upperHalf, i < c.buncket.entries :=
    fun i hi => UnSortBuncket.lt_of_mem_upperHalf hi
  obtain ⟨rest, hrest, hrem, hcov, hent⟩ :=
    h.covered.removeSlots (n := c.buncket.entries) hslots (by omega) le_rfl
  have hsplit := h.distinct.split_expand hpos next.buncket
  have hexpand : c.expand next = .ok
      (⟨{ (copySlots c.buncket c.buncket.upperHalf next 0).buncket with
          entries := c.buncket.entries - half }, (copySlots c.buncket c.buncket.upperHalf next 0).fingerprint⟩,
        c.buncket.key (c.buncket.getSortedIndex.getD half 0),
        ⟨{ rest.buncket with entries := half }, rest.fingerprint⟩) := by
    rw [Fingered.expand]
    refine (congrArg (· >>= _) hrest).trans ?_
    rfl
  refine ⟨_, _, _, hexpand, ?_, ⟨?_, fun i hi => ?_⟩, ⟨?_, fun i hi => ?_⟩⟩
  · simp only [hcopy, hrem]
    rfl
  · simp only [hcopy]
    exact hsplit.distinct_next
  · rw [hlen, Nat.zero_add] at hfinger
    exact hfinger i hi
  · simp only [hrem]
    exact hsplit.distinct_rest
  · refine hcov.finger i ?_
    simp only at hi
    omega

end Fingered

/-! ## B entries -/

/-- `eentry`: its key, and the bucket behind its pointer with the bytes it keeps for it. -/
structure FingerEEntry where
  /-- `entry_key` -/
  entryKey : UInt64
  /-- what `pointer` points to, and `fingerprint` -/
  cell : Fingered

/-- `PointerBEntry` -/
structure FingerBEntry where
  /-- `entrys` -/
  entrys : ℕ → FingerEEntry
  /-- `buf.entries` -/
  entries : ℕ

namespace FingerBEntry

/-- A bucket that is allocated in memory with anything in it. -/
def newBuncket (mem : ℕ → UInt64 × UInt64) : UnSortBuncket := ⟨0, mem⟩

/-- `PointerBEntry(key, prefix_len)`: the bytes are zero. -/
def new (key : UInt64) (mem : ℕ → UInt64 × UInt64) : FingerBEntry :=
  ⟨Function.update (fun _ => ⟨0, newBuncket mem, fun _ => 0⟩) 0 ⟨key, newBuncket mem, fun _ => 0⟩, 1⟩

/-- `Find_pos` -/
def findPos (b : FingerBEntry) (key : UInt64) : ℕ :=
  let pos := linearSearch (fun pos => (b.entrys pos).entryKey) key b.entries 0
  if pos = 0 then pos else pos - 1

/-- Replace the bucket at a place, with its bytes. -/
def setCell (b : FingerBEntry) (pos : ℕ) (c : Fingered) : FingerBEntry :=
  { b with entrys := Function.update b.entrys pos { b.entrys pos with cell := c } }

/-- The middle part of `Put`: the `eentry`s behind `pos` are shifted, and the upper half of the
bucket at `pos` is put into a new one. It gets the bytes that are left in the next place. -/
def split (b : FingerBEntry) (pos : ℕ) (mem : ℕ → UInt64 × UInt64) : Except Fault FingerBEntry := do
  let shifted := fun i => if pos + 1 < i ∧ i ≤ b.entries then b.entrys (i - 1) else b.entrys i
  let (next, splitKey, rest) ← (b.entrys pos).cell.expand
    ⟨newBuncket mem, (shifted (pos + 1)).cell.fingerprint⟩
  let entrys := Function.update shifted pos { shifted pos with cell := rest }
  .ok ⟨Function.update entrys (pos + 1) ⟨splitKey, next⟩, b.entries + 1⟩

/-- `Put` with a bound on the number of retries. New buckets get the memory `mems`. -/
def putLoop (key value : UInt64) (mems : ℕ → ℕ → UInt64 × UInt64) : ℕ → FingerBEntry →
    Except Fault (Status × FingerBEntry)
  | 0, _ => .error .diverges
  | fuel + 1, b =>
    let pos := b.findPos key
    let (ret, c) := (b.entrys pos).cell.put key value
    if ret = .full ∧ b.entries < PointerBEntry.pbEntryCount then do
      let b ← b.split pos (mems b.entries)
      putLoop key value mems fuel b
    else
      let b := b.setCell pos c
      if ret = .ok ∧ (b.entrys 0).entryKey > key then
        .ok (ret, { b with entrys := Function.update b.entrys 0 { b.entrys 0 with entryKey := key } })
      else .ok (ret, b)

/-- What can be done with a B entry. -/
inductive Action where
  /-- `Put` -/
  | put (key value : UInt64) (mems : ℕ → ℕ → UInt64 × UInt64)
  /-- `Update` -/
  | update (key value : UInt64)
  /-- `Delete` -/
  | delete (key : UInt64)
  /-- `Expand_` of the bucket at a place, into the next place -/
  | expand (pos : ℕ) (mem : ℕ → UInt64 × UInt64)

/-- One step. `Update` and `Delete` go to the bucket `Find_pos` finds. -/
def step (b : FingerBEntry) : Action → Except Fault FingerBEntry
  | .put key value mems => do
    let (_, b) ← putLoop key value mems PointerBEntry.pbEntryCount b
    .ok b
  | .update key value => do
    let (_, c) ← (b.entrys (b.findPos key)).cell.update key value
    .ok (b.setCell (b.findPos key) c)
  | .delete key => do
    let (_, c) ← (b.entrys (b.findPos key)).cell.delete key
    .ok (b.setCell (b.findPos key) c)
  | .expand pos mem => b.split pos mem

/-- `Put` is for keys that are not there, and `Expand_` for buckets with something in them, where
there is a place for another. -/
def Allowed (b : FingerBEntry) : Action → Prop
  | .put key _ _ => ∀ i < b.entries, ∀ v, ¬ (b.entrys i).cell.buncket.Has key v
  | .update _ _ => True
  | .delete _ => True
  | .expand pos _ => pos < b.entries ∧ b.entries < PointerBEntry.pbEntryCount ∧
    0 < (b.entrys pos).cell.buncket.entries

variable {b b' : FingerBEntry} {P : Fingered → Prop} {pos : ℕ}

/-- The same of all buckets. -/
def All (P : Fingered → Prop) (b : FingerBEntry) : Prop :=
  0 < b.entries ∧ ∀ i < b.entries, P (b.entrys i).cell

theorem findPos_lt (h : 0 < b.entries) (k : UInt64) : b.findPos k < b.entries := by
  obtain ⟨-, hle, -⟩ := linearSearch_spec (fun pos => (b.entrys pos).entryKey) k b.entries 0
  rw [findPos]
  split <;> omega

theorem All.setCell (h : b.All P) {c : Fingered} (hc : P c) : (b.setCell pos c).All P := by
  refine ⟨h.1, fun i hi => ?_⟩
  by_cases hip : i = pos
  · subst hip
    simpa [FingerBEntry.setCell] using hc
  · simpa [FingerBEntry.setCell, Function.update_of_ne hip] using h.2 i hi

/-- A split leaves the other buckets alone, with their bytes, wherever they are shifted to. -/
theorem All.split (h : b.All P) (hpos : pos < b.entries) {mem : ℕ → UInt64 × UInt64}
    (hP : ∀ next r, (b.entrys pos).cell.expand next = .ok r → P r.1 ∧ P r.2.2)
    (hsplit : b.split pos mem = .ok b') : b'.All P := by
  obtain ⟨⟨next, splitKey, rest⟩, hexpand, hsplit⟩ := bind_eq_ok hsplit
  obtain rfl := Except.ok.inj hsplit
  obtain ⟨hnext, hrest⟩ := hP _ _ hexpand
  refine ⟨Nat.succ_pos _, fun i hi => ?_⟩
  by_cases hi₁ : i = pos + 1
  · subst hi₁
    simpa using hnext
  · simp only [Function.update_of_ne hi₁]
    by_cases hi₀ : i = pos
    · subst hi₀
      simpa using hrest
    · simp only [Function.update_of_ne hi₀]
      simp only at hi
      split
      · exact h.2 (i - 1) (by omega)
      · exact h.2 i (by omega)

/-- A split of a bucket keeps its bytes in order. -/
theorem matched_split (h : b.All Fingered.Matched) (hpos : pos < b.entries)
    (hne : 0 < (b.entrys pos).cell.buncket.entries) {mem : ℕ → UInt64 × UInt64}
    (hsplit : b.split pos mem = .ok b') : b'.All Fingered.Matched := by
  refine h.split hpos (fun next r hr => ?_) hsplit
  obtain ⟨moved, splitKey, rest, hexpand, -, hmoved, hrest⟩ := (h.2 pos hpos).expand hne next
  obtain rfl := Except.ok.inj (hexpand.symm.trans hr)
  exact ⟨hmoved, hrest⟩

/-- It brings no key in. -/
theorem absent_split (h : b.All Fingered.Matched) (hpos : pos < b.entries)
    (hne : 0 < (b.entrys pos).cell.buncket.entries) {k : UInt64}
    (hk : b.All fun c => ∀ v, ¬ c.buncket.Has k v) {mem : ℕ → UInt64 × UInt64}
    (hsplit : b.split pos mem = .ok b') : b'.All fun c => ∀ v, ¬ c.buncket.Has k v := by
  refine hk.split hpos (fun next r hr => ?_) hsplit
  obtain ⟨moved, splitKey, rest, hexpand, hplain, -, -⟩ := (h.2 pos hpos).expand hne next
  obtain rfl := Except.ok.inj (hexpand.symm.trans hr)
  have hsplit := (h.2 pos hpos).distinct.split_expand hne next.buncket
  rw [← hplain] at hsplit
  exact ⟨fun v hv => hk.2 pos hpos v ((hsplit.has_next k v).mp hv).1,
    fun v hv => hk.2 pos hpos v ((hsplit.has_rest k v).mp hv).1⟩

/-- **`Put`** with all its splits. -/
theorem matched_putLoop {k v : UInt64} {mems : ℕ → ℕ → UInt64 × UInt64} {fuel : ℕ} :
    ∀ {b : FingerBEntry} {r : Status × FingerBEntry}, b.All Fingered.Matched →
    (b.All fun c => ∀ v, ¬ c.buncket.Has k v) → putLoop k v mems fuel b = .ok r →
    r.2.All Fingered.Matched := by
  induction fuel with
  | zero => intro b r _ _ hput; cases hput
  | succ fuel ih =>
    intro b r h hk hput
    have hpos := findPos_lt h.1 k
    rw [putLoop] at hput
    simp only at hput
    split at hput
    · -- the bucket is full
      rename_i hfull
      obtain ⟨b₁, hsplit, hput⟩ := bind_eq_ok hput
      have hne : 0 < (b.entrys (b.findPos k)).cell.buncket.entries := by
        by_contra hzero
        have hroom : ¬ (b.entrys (b.findPos k)).cell.buncket.entries ≥ UnSortBuncket.maxEntries := by
          rw [Nat.eq_zero_of_not_pos hzero]
          decide
        have hok : ((b.entrys (b.findPos k)).cell.put k v).1 = .ok := by
          rw [Fingered.put, Fingered.putBufKV, if_neg hroom]
        exact absurd (hok.symm.trans hfull.1) (by decide)
      exact ih (matched_split h hpos hne hsplit) (absent_split h hpos hne hk hsplit) hput
    · have hcell : (b.setCell (b.findPos k) ((b.entrys (b.findPos k)).cell.put k v).2).All
          Fingered.Matched := h.setCell ((h.2 _ hpos).put (hk.2 _ hpos))
      split at hput
      · obtain rfl := Except.ok.inj hput
        refine ⟨hcell.1, fun i hi => ?_⟩
        by_cases hi₀ : i = 0
        · subst hi₀
          simpa using hcell.2 0 hi
        · simpa [Function.update_of_ne hi₀] using hcell.2 i hi
      · obtain rfl := Except.ok.inj hput
        exact hcell

theorem matched_step {a : Action} (h : b.All Fingered.Matched) (ha : b.Allowed a)
    (hstep : b.step a = .ok b') : b'.All Fingered.Matched := by
  cases a with
  | put k v mems =>
    obtain ⟨r, hput, hstep⟩ := bind_eq_ok hstep
    obtain rfl := Except.ok.inj hstep
    exact matched_putLoop h ⟨h.1, ha⟩ hput
  | update k v =>
    obtain ⟨⟨r, c⟩, hupd, hstep⟩ := bind_eq_ok hstep
    obtain rfl := Except.ok.inj hstep
    exact h.setCell ((h.2 _ (findPos_lt h.1 k)).update hupd)
  | delete k =>
    obtain ⟨⟨r, c⟩, hdel, hstep⟩ := bind_eq_ok hstep
    obtain rfl := Except.ok.inj hstep
    exact h.setCell ((h.2 _ (findPos_lt h.1 k)).delete hdel)
  | expand pos mem => exact matched_split h ha.1 ha.2.2 hstep

/-- The bytes of a new B entry. -/
theorem matched_new (key : UInt64) (mem : ℕ → UInt64 × UInt64) : (new key mem).All Fingered.Matched := by
  refine ⟨Nat.one_pos, fun i hi => ?_⟩
  obtain rfl : i = 0 := Nat.lt_one_iff.mp hi
  exact ⟨⟨fun i hi => absurd hi (Nat.not_lt_zero i), Nat.zero_le _⟩,
    fun i hi => absurd hi (Nat.not_lt_zero i)⟩

/-- **The fingerprints follow**: after any run of a B entry the slots in use have the fingerprints
of their keys. -/
theorem matched_of_run {key : UInt64} {mem : ℕ → UInt64 × UInt64} {as : List Action}
    (hrun : Run step Allowed (new key mem) as b) : b.All Fingered.Matched :=
  hrun.invariant (fun _ _ _ => matched_step) (matched_new key mem)

end FingerBEntry

/-! ## Keys that are not found right -/

/-- Keys with the fingerprint `t`, one for each `d`. -/
def keyWith (t d : UInt8) : UInt64 := d.toUInt64 * 256 + (d ^^^ t).toUInt64

theorem toNat_keyWith (t d : UInt8) : (keyWith t d).toNat = d.toNat * 256 + (d ^^^ t).toNat := by
  have hd := d.toNat_lt
  have ht := (d ^^^ t).toNat_lt
  have hbase : UInt64.toNat 256 = 256 := rfl
  rw [keyWith, UInt64.toNat_add, UInt64.toNat_mul, UInt8.toNat_toUInt64, UInt8.toNat_toUInt64, hbase]
  omega

theorem toNat_keyWith_shiftRight (t d : UInt8) {n : UInt64} (hn : n.toNat < 64) :
    (keyWith t d >>> n).toNat = (d.toNat * 256 + (d ^^^ t).toNat) / 2 ^ n.toNat := by
  rw [UInt64.toNat_shiftRight, toNat_keyWith, Nat.mod_eq_of_lt hn, Nat.shiftRight_eq_div_pow]

/-- The two bytes of the key are folded into `t`. -/
theorem hashcode1B_keyWith (t d : UInt8) : hashcode1B (keyWith t d) = t := by
  have hd := d.toNat_lt
  have ht := (d ^^^ t).toNat_lt
  have h32 : keyWith t d >>> 32 = 0 := by
    rw [← UInt64.toNat_inj, toNat_keyWith_shiftRight t d (by decide)]
    exact Nat.div_eq_of_lt (by simp only [UInt64.reduceToNat]; omega)
  have h16 : keyWith t d >>> 16 = 0 := by
    rw [← UInt64.toNat_inj, toNat_keyWith_shiftRight t d (by decide)]
    exact Nat.div_eq_of_lt (by simp only [UInt64.reduceToNat]; omega)
  have hhigh : keyWith t d >>> 8 = d.toUInt64 := by
    rw [← UInt64.toNat_inj, toNat_keyWith_shiftRight t d (by decide), UInt8.toNat_toUInt64]
    simp only [UInt64.reduceToNat]
    omega
  have hlow : (keyWith t d).toUInt8 = d ^^^ t := by
    rw [← UInt8.toNat_inj, UInt64.toNat_toUInt8, toNat_keyWith]
    omega
  have hmask : t &&& 255 = t := UInt8.and_neg_one
  simp only [hashcode1B, h32, h16, UInt64.xor_zero, hhigh]
  rw [UInt64.toUInt8_and, UInt64.toUInt8_xor, hlow, UInt8.toUInt8_toUInt64, UInt8.xor_comm d t,
    UInt8.xor_assoc, UInt8.xor_self, UInt8.xor_zero]
  exact hmask

theorem keyWith_injective (t : UInt8) : Function.Injective (keyWith t) := by
  intro d d' h
  have hn := congrArg UInt64.toNat h
  have ht := (d ^^^ t).toNat_lt
  have ht' := (d' ^^^ t).toNat_lt
  rw [toNat_keyWith, toNat_keyWith] at hn
  rw [← UInt8.toNat_inj]
  omega

/-- The fifteen slots cannot have all keys of a fingerprint. -/
theorem Fingered.exists_not_agrees {c : Fingered} (h : c.Matched) :
    ∃ target, ¬ c.Agrees target := by
  let slots := (Finset.range 15).image c.buncket.key
  let keys := (Finset.univ : Finset (Fin 256)).image fun d => keyWith (c.fingerprint 15) (.ofFin d)
  have hslots : slots.card ≤ 15 := Finset.card_image_le.trans (by simp)
  have hkeys : keys.card = 256 := by
    refine (Finset.card_image_of_injective _ fun d d' hd => ?_).trans (by simp)
    exact congrArg UInt8.toFin (keyWith_injective _ hd)
  obtain ⟨target, hmem, hnot⟩ := Finset.exists_mem_notMem_of_card_lt_card
    (show slots.card < keys.card by omega)
  obtain ⟨d, -, rfl⟩ := Finset.mem_image.mp hmem
  refine ⟨keyWith (c.fingerprint 15) (.ofFin d), fun hagrees => ?_⟩
  rcases (h.agrees_iff _).mp hagrees with ⟨j, hj, hkey⟩ | ⟨hbyte, -⟩
  · exact hnot (Finset.mem_image.mpr ⟨j, Finset.mem_range.mpr (hj.trans_le h.distinct.le), hkey⟩)
  · exact hbyte (hashcode1B_keyWith ..).symm

namespace FingerBEntry

/-- **For which keys the fingerprint lookup agrees with the plain one**: after any run, for those
that are in use in the bucket, and for those of the others whose fingerprint is not byte 15 and that
are not left over, with their fingerprint, in a slot not in use. There is no bucket for which these
are all keys. -/
theorem find_agrees_iff {key : UInt64} {mem : ℕ → UInt64 × UInt64} {as : List Action}
    {b : FingerBEntry} (hrun : Run step Allowed (new key mem) as b) {i : ℕ} (hi : i < b.entries) :
    (∀ target, (b.entrys i).cell.Agrees target ↔
      (∃ j < (b.entrys i).cell.buncket.entries, (b.entrys i).cell.buncket.key j = target) ∨
        (b.entrys i).cell.fingerprint 15 ≠ hashcode1B target ∧
          ∀ j, (b.entrys i).cell.buncket.entries ≤ j → j < 15 → ¬ (b.entrys i).cell.Hit target j) ∧
      ∃ target, ¬ (b.entrys i).cell.Agrees target := by
  have h := (matched_of_run hrun).2 i hi
  exact ⟨h.agrees_iff, Fingered.exists_not_agrees h⟩

/-- A new B entry, in memory with nothing in it. -/
def fresh : FingerBEntry := new 0 fun _ => (0, 0)

/-- A key is put, and then deleted. -/
def putDelete : List Action := [.put 1 10 fun _ _ => (0, 0), .delete 1]

/-- The key is found again in the slot that is not in use any more. Another key is not found. -/
theorem run_putDelete : ∃ b, Run step Allowed fresh putDelete b ∧ 0 < b.entries ∧
    (b.entrys 0).cell.find 1 = .ok (some 0) ∧ (b.entrys 0).cell.buncket.find 1 = none ∧
    (b.entrys 0).cell.Agrees 2 := by
  have hfree : fresh.Allowed (.put 1 10 fun _ _ => (0, 0)) := by
    rintro i hi v ⟨j, hj, -⟩
    obtain rfl : i = 0 := Nat.lt_one_iff.mp hi
    exact absurd hj (Nat.not_lt_zero j)
  refine ⟨_, .cons hfree rfl (.cons trivial rfl (.nil _)), Nat.one_pos, ?_, ?_, ?_⟩
  · decide +kernel
  · decide +kernel
  · rw [Fingered.Agrees]
    decide +kernel

theorem find_agrees_putDelete : ∃ b, Run step Allowed fresh putDelete b ∧ 0 < b.entries ∧
    ((∃ j < (b.entrys 0).cell.buncket.entries, (b.entrys 0).cell.buncket.key j = 2) ∨
      (b.entrys 0).cell.fingerprint 15 ≠ hashcode1B 2 ∧
        ∀ j, (b.entrys 0).cell.buncket.entries ≤ j → j < 15 → ¬ (b.entrys 0).cell.Hit 2 j) ∧
    ∃ target, ¬ (b.entrys 0).cell.Agrees target := by
  obtain ⟨b, hrun, hpos, -, -, htwo⟩ := run_putDelete
  obtain ⟨hagrees, hnot⟩ := find_agrees_iff hrun hpos
  exact ⟨b, hrun, hpos, (hagrees 2).mp htwo, hnot⟩

/-- **The lookups do not always agree**: a deleted key is found. -/
theorem find_deleted : ¬ ∀ (key : UInt64) (mem : ℕ → UInt64 × UInt64) (as : List Action)
    (b : FingerBEntry), Run step Allowed (new key mem) as b → ∀ i < b.entries, ∀ target,
    (b.entrys i).cell.Agrees target := by
  intro hall
  obtain ⟨b, hrun, hpos, hfind, hplain, -⟩ := run_putDelete
  have hagrees := hall _ _ _ b hrun 0 hpos 1
  rw [Fingered.Agrees, hfind, hplain] at hagrees
  cases hagrees

end FingerBEntry

end NaliStore
