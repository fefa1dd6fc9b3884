import NaliStore.Buncket
import NaliStore.LogKV

/-!
# Sorted buckets

`SortBuncket` of `src/src/nali_entry.h`, the bucket that is compiled without `USE_UNSORT_BUNCKET`:
fifteen slots of key and value by ascending key. `Delete` puts zeros into the slot of the key, which
stays where it is (`USE_DELETE_0`): `last_pos` counts it, `entries` does not. `Put` moves the slots
behind the place of the key by one and, when `last_pos` gets near the end, first closes the last gap.
`Get` searches up to `last_pos`; `Update` bisects the first `entries` slots.

The loops are described by what they do to the list of the first slots (`slots`).
-/

namespace NaliStore

/-- `SortBuncket<256, 8>` -/
structure SortBuncket where
  /-- `last_pos`: the slots that are counted, of 8 bits -/
  lastPos : ℕ
  /-- `entries`: the keys, of 8 bits -/
  entries : ℕ
  /-- `records`: key and value of each slot -/
  records : ℕ → UInt64 × UInt64

namespace SortBuncket

/-- `max_entries` -/
def maxEntries : ℕ := min ((256 - (8 + 4)) / (8 + 8)) 256

theorem maxEntries_eq : maxEntries = 15 := rfl

/-- `key` -/
def key (b : SortBuncket) (idx : ℕ) : UInt64 := (b.records idx).1

/-- `value` -/
def value (b : SortBuncket) (idx : ℕ) : UInt64 := (b.records idx).2

/-- Read a slot. There are fifteen. -/
def read (b : SortBuncket) (i : ℕ) : Except Fault (UInt64 × UInt64) :=
  if i < maxEntries then .ok (b.records i) else .error .outOfBounds

/-- Write a slot. -/
def write (b : SortBuncket) (i : ℕ) (r : UInt64 × UInt64) : Except Fault SortBuncket :=
  if i < maxEntries then .ok { b with records := Function.update b.records i r }
  else .error .outOfBounds

/-- The search of `PutBufKV` for the last slot without a key. -/
def lastGap (b : SortBuncket) : ℕ → Except Fault (Option ℕ)
  | 0 => .ok none
  | i + 1 => do
    let r ← b.read i
    if r.1 = 0 then .ok (some i) else b.lastGap i

/-- The loop of `PutBufKV` that closes a gap: from slot `i` on, `n` slots get what is in the next. -/
def shiftDown : ℕ → ℕ → SortBuncket → Except Fault SortBuncket
  | 0, _, b => .ok b
  | n + 1, i, b => do
    let r ← b.read (i + 1)
    let b ← b.write i r
    shiftDown n (i + 1) b

/-- The first part of `PutBufKV`: when there is little room at the end and there are gaps, close the
last of them. -/
def compact (b : SortBuncket) : Except Fault SortBuncket :=
  if b.lastPos ≥ maxEntries - 1 ∧ b.lastPos ≠ b.entries then do
    let b ← match ← b.lastGap b.lastPos with
      | none => .ok b
      | some i => shiftDown (b.lastPos - i) i b
    .ok { b with lastPos := b.lastPos - 1 }
  else .ok b

/-- The second part of `PutBufKV`: the slots with larger keys move by one, from the end. -/
def insert (newKey value : UInt64) : ℕ → SortBuncket → Except Fault SortBuncket
  | 0, b => b.write 0 (newKey, value)
  | i + 1, b => do
    let r ← b.read i
    if newKey < r.1 then
      let b ← b.write (i + 1) r
      insert newKey value i b
    else b.write (i + 1) (newKey, value)

/-- `PutBufKV` -/
def putBufKV (b : SortBuncket) (newKey value : UInt64) : Except Fault (Status × SortBuncket) :=
  if b.entries ≥ maxEntries then .ok (.full, b)
  else if b.entries = 0 then do
    let b ← b.write 0 (newKey, value)
    let r ← b.read 1
    let b ← b.write 1 (r.1, 0)
    .ok (.ok, b)
  else do
    let b ← b.compact
    let b ← insert newKey value b.lastPos b
    .ok (.ok, b)

/-- `Put` -/
def put (b : SortBuncket) (key value : UInt64) : Except Fault (Status × SortBuncket) := do
  match ← b.putBufKV key value with
  | (.ok, b) => .ok (.ok, { b with
      entries := (b.entries + 1) % 2 ^ 8
      lastPos := (b.lastPos + 1) % 2 ^ 8 })
  | (ret, b) => .ok (ret, b)

/-- `LinearFind`, with `n` slots to go from slot `i` on. -/
def linearFind (b : SortBuncket) (target : UInt64) : ℕ → ℕ → Except Fault (ℕ × Bool)
  | 0, i => .ok (i, false)
  | n + 1, i => do
    let r ← b.read i
    if target > r.1 then b.linearFind target n (i + 1) else .ok (i, target == r.1)

/-- `Get` -/
def get (b : SortBuncket) (key : UInt64) : Except Fault (Option UInt64) := do
  match ← b.linearFind key b.lastPos 0 with
  | (_, false) => .ok none
  | (pos, true) =>
    let r ← b.read pos
    .ok (if r.2 = 0 then none else some r.2)

/-- `Find`, with a bound on the number of rounds. The slots `left` to `right - 1` are left. -/
def find (b : SortBuncket) (target : UInt64) : ℕ → ℕ → ℕ → Except Fault (ℕ × Bool)
  | 0, _, _ => .error .diverges
  | n + 1, left, right =>
    if left < right then do
      let middle := (left + (right - 1)) / 2
      let r ← b.read middle
      if r.1 = target then .ok (middle, true)
      else if r.1 > target then b.find target n left middle
      else b.find target n (middle + 1) right
    else .ok (left, false)

/-- `Update` -/
def update (b : SortBuncket) (key value : UInt64) : Except Fault (Status × SortBuncket) := do
  match ← b.find key (b.entries + 1) 0 b.entries with
  | (_, false) => .ok (.noExist, b)
  | (pos, true) =>
    let r ← b.read pos
    if r.2 = 0 then .ok (.noExist, b)
    else
      let b ← b.write pos (r.1, value)
      .ok (.ok, b)

/-- `remove_key`, with `n` slots to go from slot `i` on. The slot is read before `last_pos` is looked
at. -/
def removeKey (key : UInt64) : ℕ → ℕ → SortBuncket → Except Fault (Bool × SortBuncket)
  | 0, i, b => do
    let _ ← b.read i
    .ok (false, b)
  | n + 1, i, b => do
    let r ← b.read i
    if r.1 = 0 then .ok (false, b)
    else if r.1 = key then
      let b ← b.write i (0, 0)
      .ok (true, b)
    else removeKey key n (i + 1) b

/-- `Delete`. What `value` points to stays as it is. -/
def delete (b : SortBuncket) (key : UInt64) : Except Fault (Status × SortBuncket) := do
  match ← removeKey key b.lastPos 0 b with
  | (false, b) => .ok (.noExist, b)
  | (true, b) => .ok (.ok, { b with entries := (b.entries + (2 ^ 8 - 1)) % 2 ^ 8 })

/-! ## The first slots -/

variable {b b' : SortBuncket} {k v : UInt64} {i n : ℕ} {r : UInt64 × UInt64}

/-- The first `n` slots. -/
def slots (b : SortBuncket) (n : ℕ) : List (UInt64 × UInt64) := (List.range n).map b.records

@[simp] theorem length_slots (b : SortBuncket) (n : ℕ) : (b.slots n).length = n := by
  simp [slots]

theorem slots_succ (b : SortBuncket) (n : ℕ) : b.slots (n + 1) = b.slots n ++ [b.records n] := by
  simp [slots, List.range_succ]

theorem mem_slots : r ∈ b.slots n ↔ ∃ i < n, b.records i = r := by
  simp [slots]

theorem slots_congr (h : ∀ i < n, b.records i = b'.records i) : b.slots n = b'.slots n :=
  List.map_congr_left fun i hi => h i (List.mem_range.mp hi)

/-- The slots before a slot, the slot, and those behind it. -/
theorem slots_eq_append (b : SortBuncket) (hi : i < n) : b.slots n =
    b.slots i ++ b.records i :: (List.range (n - i - 1)).map fun j => b.records (i + 1 + j) := by
  obtain ⟨m, rfl⟩ := Nat.exists_eq_add_of_lt hi
  have hm : i + m + 1 - i - 1 = m := by omega
  rw [hm, slots, slots, Nat.add_right_comm, List.range_add, List.range_succ, List.map_append,
    List.map_append, List.append_assoc, List.map_map]
  rfl

theorem records_of_slots {l₁ l₂ : List (UInt64 × UInt64)} (h : b.slots n = l₁ ++ r :: l₂) :
    l₁.length < n ∧ b.records l₁.length = r ∧ b.slots l₁.length = l₁ := by
  have hlen : l₁.length < n := by
    rw [← length_slots b n, h]
    simp
  rw [slots_eq_append b hlen] at h
  obtain ⟨hfirst, hrest⟩ := List.append_inj h (by simp)
  exact ⟨hlen, (List.cons.inj hrest).1, hfirst⟩

/-- A slot is overwritten. -/
theorem slots_update {p : UInt64 × UInt64} {l₁ l₂ : List (UInt64 × UInt64)}
    (h : b.slots n = l₁ ++ p :: l₂) (r : UInt64 × UInt64) :
    slots { b with records := Function.update b.records l₁.length r } n = l₁ ++ r :: l₂ := by
  obtain ⟨hlen, -, hfirst⟩ := records_of_slots h
  have hrest := (List.append_inj ((slots_eq_append b hlen).symm.trans h) (by simp)).2
  have hfront : slots { b with records := Function.update b.records l₁.length r } l₁.length =
      b.slots l₁.length := slots_congr fun i hi => Function.update_of_ne (by omega) ..
  rw [slots_eq_append _ hlen, hfront, hfirst, ← (List.cons.inj hrest).2]
  simp only [Function.update_self]
  congr 2
  refine List.map_congr_left fun j _ => ?_
  exact Function.update_of_ne (by omega) ..

theorem read_of_lt (hi : i < 15) : b.read i = .ok (b.records i) := if_pos hi

theorem write_of_lt (hi : i < 15) :
    b.write i r = .ok { b with records := Function.update b.records i r } := if_pos hi

/-! ## The loops -/

/-- **What an insertion does**: the pair stands behind the last of the slots that is not larger. -/
theorem insert_spec (hn : n < 15) : ∃ b' l₁ l₂, insert k v n b = .ok b' ∧
    b'.lastPos = b.lastPos ∧ b'.entries = b.entries ∧ (∀ j, n < j → b'.records j = b.records j) ∧
    b.slots n = l₁ ++ l₂ ∧ b'.slots (n + 1) = l₁ ++ (k, v) :: l₂ ∧
    (∀ p ∈ l₂, k < p.1) ∧ ∀ l p, l₁ = l ++ [p] → p.1 ≤ k := by
  induction n generalizing b with
  | zero =>
    refine ⟨_, [], [], write_of_lt hn, rfl, rfl, fun j hj => Function.update_of_ne hj.ne' .., rfl, ?_,
      by simp, by simp⟩
    simp [slots]
  | succ n ih =>
    rw [insert, read_of_lt (by omega)]
    by_cases hlt : k < (b.records n).1
    · obtain ⟨b', l₁, l₂, hins, hlast, hent, hrec, hslots, hslots', hlarge, hsmall⟩ :=
        ih (b := { b with records := Function.update b.records (n + 1) (b.records n) }) (by omega)
      have hframe : b.slots n = l₁ ++ l₂ := by
        rw [← hslots]
        exact slots_congr fun i hi => (Function.update_of_ne (by omega) ..).symm
      refine ⟨b', l₁, l₂ ++ [b.records n], ?_, hlast, hent, fun j hj => ?_, ?_, ?_, ?_, hsmall⟩
      · simp only [bind, Except.bind, if_pos hlt, write_of_lt hn]
        exact hins
      · rw [hrec j (by omega)]
        exact Function.update_of_ne (by omega) ..
      · rw [slots_succ, hframe, List.append_assoc]
      · rw [slots_succ, hslots', hrec (n + 1) (by omega)]
        simp
      · simp only [List.mem_append, List.mem_singleton]
        rintro p (hp | rfl)
        · exact hlarge p hp
        · exact hlt
    · refine ⟨{ b with records := Function.update b.records (n + 1) (k, v) }, b.slots (n + 1), [], ?_,
        rfl, rfl, fun j hj => Function.update_of_ne hj.ne' .., ?_, ?_, by simp, fun l p hp => ?_⟩
      · simp only [bind, Except.bind, if_neg hlt, write_of_lt hn]
      · simp
      · have hfirst : slots { b with records := Function.update b.records (n + 1) (k, v) } (n + 1) =
            b.slots (n + 1) := slots_congr fun i hi => Function.update_of_ne (by omega) ..
        rw [slots_succ, hfirst]
        simp
      · rw [slots_succ] at hp
        obtain ⟨-, hp⟩ := List.append_inj' hp rfl
        rw [← (List.cons.inj hp).1]
        exact le_of_not_gt hlt

theorem lastGap_spec (hn : n ≤ 15) (hgap : ∃ j < n, b.key j = 0) :
    ∃ i < n, b.lastGap n = .ok (some i) ∧ b.key i = 0 ∧ ∀ j, i < j → j < n → b.key j ≠ 0 := by
  induction n with
  | zero =>
    obtain ⟨j, hj, -⟩ := hgap
    exact absurd hj (Nat.not_lt_zero j)
  | succ n ih =>
    rw [lastGap, read_of_lt (by omega)]
    by_cases hzero : (b.records n).1 = 0
    · refine ⟨n, Nat.lt_succ_self n, ?_, hzero, fun j hj hj' => by omega⟩
      simp only [bind, Except.bind, if_pos hzero]
    · obtain ⟨j, hj, hkey⟩ := hgap
      have hjn : j ≠ n := by
        rintro rfl
        exact hzero hkey
      obtain ⟨i, hi, hlast, hkeyi, hbehind⟩ := ih (by omega) ⟨j, by omega, hkey⟩
      refine ⟨i, hi.trans (Nat.lt_succ_self n), ?_, hkeyi, fun j hj hj' => ?_⟩
      · simp only [bind, Except.bind, if_neg hzero]
        exact hlast
      · by_cases hj₀ : j = n
        · subst hj₀
          exact hzero
        · exact hbehind j hj (by omega)

theorem shiftDown_spec (hn : i + n < 15) : ∃ b', shiftDown n i b = .ok b' ∧
    b'.lastPos = b.lastPos ∧ b'.entries = b.entries ∧
    ∀ j, b'.records j = if i ≤ j ∧ j < i + n then b.records (j + 1) else b.records j := by
  induction n generalizing i b with
  | zero =>
    refine ⟨b, rfl, rfl, rfl, fun j => ?_⟩
    rw [if_neg (by omega)]
  | succ n ih =>
    obtain ⟨b', hshift, hlast, hent, hrec⟩ :=
      ih (b := { b with records := Function.update b.records i (b.records (i + 1)) }) (i := i + 1)
        (by omega)
    refine ⟨b', ?_, hlast, hent, fun j => ?_⟩
    · rw [shiftDown, read_of_lt (by omega)]
      simp only [bind, Except.bind, write_of_lt (show i < 15 by omega)]
      exact hshift
    · rw [hrec]
      by_cases hji : j = i
      · subst hji
        rw [if_neg (by omega), if_pos (by omega)]
        exact Function.update_self ..
      · by_cases hin : i + 1 ≤ j ∧ j < i + 1 + n
        · rw [if_pos hin, if_pos (by omega)]
          exact Function.update_of_ne (by omega) ..
        · rw [if_neg hin, if_neg (by omega)]
          exact Function.update_of_ne hji ..

/-- **What closing a gap does**: when fourteen slots are counted and there is a gap, the last gap is
gone. -/
theorem compact_of_gap (hlast : b.lastPos = 14) (hent : b.lastPos ≠ b.entries)
    (hgap : ∃ j < b.lastPos, b.key j = 0) : ∃ b' l₁ r l₂, b.compact = .ok b' ∧
    b'.lastPos = 13 ∧ b'.entries = b.entries ∧ b.slots b.lastPos = l₁ ++ r :: l₂ ∧ r.1 = 0 ∧
    (∀ p ∈ l₂, p.1 ≠ 0) ∧ b'.slots b'.lastPos = l₁ ++ l₂ := by
  obtain ⟨i, hi, hfind, hkey, hbehind⟩ := lastGap_spec (by omega) hgap
  obtain ⟨b₁, hshift, hlast₁, hent₁, hrec⟩ :=
    shiftDown_spec (b := b) (i := i) (n := b.lastPos - i) (by omega)
  have hsplit := slots_eq_append b hi
  refine ⟨{ b₁ with lastPos := b₁.lastPos - 1 }, _, _, _, ?_, ?_, hent₁, hsplit, hkey, ?_, ?_⟩
  · rw [compact, if_pos ⟨by rw [hlast]; decide, hent⟩, hfind]
    simp only [bind, Except.bind, hshift]
  · simp only [hlast₁, hlast]
  · simp only [List.mem_map, List.mem_range]
    rintro p ⟨j, hj, rfl⟩
    exact hbehind (i + 1 + j) (by omega) (by omega)
  · have hcount : b₁.lastPos - 1 = i + (b.lastPos - i - 1) := by omega
    simp only [hcount, slots, List.range_add, List.map_append, List.map_map]
    congr 1
    · refine List.map_congr_left fun j hj => ?_
      rw [List.mem_range] at hj
      simp only [hrec]
      rw [if_neg (by omega)]
    · refine List.map_congr_left fun j hj => ?_
      rw [List.mem_range] at hj
      simp only [Function.comp, hrec]
      rw [if_pos (by omega)]
      congr 1
      omega

theorem compact_of_room (h : b.lastPos < 14 ∨ b.lastPos = b.entries) : b.compact = .ok b := by
  rw [compact, if_neg]
  rintro ⟨hlast, hent⟩
  rw [maxEntries_eq] at hlast
  omega

/-- `LinearFind` finds a key when those in front of it are smaller. -/
theorem linearFind_of_lt {p : ℕ} (hn : i + n ≤ 15) (hi : i ≤ p) (hp : p < i + n)
    (hlt : ∀ j, i ≤ j → j < p → b.key j < k) (hkey : b.key p = k) :
    b.linearFind k n i = .ok (p, true) := by
  induction n generalizing i with
  | zero => omega
  | succ n ih =>
    rw [linearFind, read_of_lt (by omega)]
    by_cases hip : i = p
    · subst hip
      simp only [bind, Except.bind, show (b.records i).1 = k from hkey]
      simp
    · have hsmall : k > (b.records i).1 := hlt i le_rfl (by omega)
      simp only [bind, Except.bind, if_pos hsmall]
      exact ih (by omega) (by omega) (by omega) fun j hj => hlt j (by omega)

/-- What `LinearFind` finds is the key. -/
theorem linearFind_cases (hn : i + n ≤ 15) : ∃ p found, b.linearFind k n i = .ok (p, found) ∧
    (found = true → p < i + n ∧ b.key p = k) := by
  induction n generalizing i with
  | zero => exact ⟨i, false, rfl, by simp⟩
  | succ n ih =>
    rw [linearFind, read_of_lt (by omega)]
    by_cases hsmall : k > (b.records i).1
    · obtain ⟨p, found, hfind, hfound⟩ := ih (i := i + 1) (by omega)
      refine ⟨p, found, ?_, fun h => ?_⟩
      · simp only [bind, Except.bind, if_pos hsmall]
        exact hfind
      · have := hfound h
        exact ⟨by omega, this.2⟩
    · refine ⟨i, k == (b.records i).1, ?_, fun h => ⟨by omega, ?_⟩⟩
      · simp only [bind, Except.bind, if_neg hsmall]
      · rw [beq_iff_eq] at h
        exact h.symm

/-- The slots that a bisection of the slots `left` to `right - 1` looks at before it gets to a
slot. -/
def probes (p : ℕ) : ℕ → ℕ → ℕ → List ℕ
  | 0, _, _ => []
  | n + 1, left, right =>
    let middle := (left + (right - 1)) / 2
    if p < middle then middle :: probes p n left middle
    else if middle < p then middle :: probes p n (middle + 1) right
    else []

theorem lt_of_mem_probes {p left right m : ℕ} (hl : left ≤ p) (hr : p < right)
    (hm : m ∈ probes p n left right) : m < right := by
  induction n generalizing left right with
  | zero => cases hm
  | succ n ih =>
    rw [probes] at hm
    set middle := (left + (right - 1)) / 2 with hmiddle
    rcases lt_trichotomy p middle with hlt | heq | hgt
    · simp only [if_pos hlt, List.mem_cons] at hm
      rcases hm with rfl | hm
      · omega
      · exact (ih hl hlt hm).trans (by omega)
    · simp [heq] at hm
    · simp only [if_neg (Nat.lt_asymm hgt), if_pos hgt, List.mem_cons] at hm
      rcases hm with rfl | hm
      · omega
      · exact ih (by omega) hr hm

/-- `Find` finds a key when the keys it looks at lead there. -/
theorem find_of_probes {p left right : ℕ} (hn : right - left < n) (hright : right ≤ 15)
    (hl : left ≤ p) (hr : p < right) (hkey : b.key p = k)
    (hlow : ∀ m, left ≤ m → m < p → b.key m < k)
    (hhigh : ∀ m ∈ probes p n left right, p < m → k < b.key m) :
    b.find k n left right = .ok (p, true) := by
  induction n generalizing left right with
  | zero => omega
  | succ n ih =>
    rw [find, if_pos (by omega)]
    rw [probes] at hhigh
    set middle := (left + (right - 1)) / 2 with hmiddle
    simp only [read_of_lt (show middle < 15 by omega), bind, Except.bind]
    rcases lt_trichotomy p middle with hlt | heq | hgt
    · simp only [if_pos hlt, List.mem_cons] at hhigh
      have hmid : (b.records middle).1 > k := hhigh middle (.inl rfl) hlt
      rw [if_neg hmid.ne', if_pos hmid]
      exact ih (by omega) (by omega) hl hlt hlow fun m hm => hhigh m (.inr hm)
    · rw [if_pos (show (b.records middle).1 = k from heq ▸ hkey), heq]
    · simp only [if_neg (Nat.lt_asymm hgt), if_pos hgt, List.mem_cons] at hhigh
      have hmid : (b.records middle).1 < k := hlow middle (by omega) hgt
      rw [if_neg hmid.ne, if_neg (lt_asymm hmid)]
      exact ih (by omega) hright (by omega) hr (fun m hm => hlow m (by omega))
        fun m hm => hhigh m (.inr hm)

/-- What `Find` finds is the key. -/
theorem find_cases {left right : ℕ} (hn : right - left < n) (hright : right ≤ 15) :
    ∃ p found, b.find k n left right = .ok (p, found) ∧ (found = true → p < right ∧ b.key p = k) := by
  induction n generalizing left right with
  | zero => omega
  | succ n ih =>
    rw [find]
    by_cases hlt : left < right
    · rw [if_pos hlt]
      set middle := (left + (right - 1)) / 2 with hmiddle
      simp only [read_of_lt (show middle < 15 by omega), bind, Except.bind]
      by_cases hkey : (b.records middle).1 = k
      · exact ⟨middle, true, if_pos hkey, fun _ => ⟨by omega, hkey⟩⟩
      · rw [if_neg hkey]
        by_cases hgt : (b.records middle).1 > k
        · rw [if_pos hgt]
          obtain ⟨p, found, hfind, hfound⟩ : ∃ p found, b.find k n left middle = .ok (p, found) ∧
            (found = true → p < middle ∧ b.key p = k) := ih (by omega) (by omega)
          exact ⟨p, found, hfind, fun h => ⟨(hfound h).1.trans (by omega), (hfound h).2⟩⟩
        · rw [if_neg hgt]
          exact ih (by omega) hright
    · exact ⟨left, false, if_neg hlt, by simp⟩

/-- `remove_key` removes a key when there is no gap in front of it. -/
theorem removeKey_of_lt {p : ℕ} (hn : i + n ≤ 15) (hi : i ≤ p) (hp : p < i + n)
    (hfront : ∀ j, i ≤ j → j < p → b.key j ≠ 0 ∧ b.key j ≠ k) (hkey : b.key p = k) (hk : k ≠ 0) :
    removeKey k n i b = .ok (true, { b with records := Function.update b.records p (0, 0) }) := by
  induction n generalizing i with
  | zero => omega
  | succ n ih =>
    rw [removeKey, read_of_lt (by omega)]
    by_cases hip : i = p
    · subst hip
      simp only [bind, Except.bind, show (b.records i).1 = k from hkey, if_neg hk,
        write_of_lt (show i < 15 by omega)]
      rfl
    · obtain ⟨hzero, hne⟩ := hfront i le_rfl (by omega)
      rw [key] at hzero hne
      simp only [bind, Except.bind, if_neg hzero, if_neg hne]
      exact ih (by omega) (by omega) (by omega) fun j hj => hfront j (by omega)

/-- `remove_key` of a key that is not there. It stops at a gap or reads the slot behind the last. -/
theorem removeKey_of_absent (hn : i + n ≤ 15) (habsent : ∀ j, i ≤ j → j < i + n → b.key j = k → k = 0)
    (hstop : i + n < 15 ∨ ∃ j, i ≤ j ∧ j < i + n ∧ b.key j = 0) :
    removeKey k n i b = .ok (false, b) := by
  induction n generalizing i with
  | zero =>
    have hi : i < 15 := by
      rcases hstop with h | ⟨j, h₁, h₂, -⟩
      · omega
      · omega
    rw [removeKey, read_of_lt hi]
    rfl
  | succ n ih =>
    rw [removeKey, read_of_lt (by omega)]
    by_cases hzero : (b.records i).1 = 0
    · simp only [bind, Except.bind, if_pos hzero]
    · have hne : (b.records i).1 ≠ k := fun heq =>
        hzero (heq.trans (habsent i le_rfl (by omega) heq))
      simp only [bind, Except.bind, if_neg hzero, if_neg hne]
      refine ih (by omega) (fun j hj hj' => habsent j (by omega) (by omega)) ?_
      rcases hstop with h | ⟨j, h₁, h₂, hj⟩
      · exact .inl (by omega)
      · refine .inr ⟨j, ?_, by omega, hj⟩
        have hji : j ≠ i := by
          rintro rfl
          exact hzero hj
        omega

end SortBuncket

end NaliStore
