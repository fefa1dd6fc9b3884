import NaliStore.Buncket
import NaliStore.Lib.Routing

/-!
# The key partition of the learned index

The learned index is, in the end, a sorted list of cells: an entry key and the bucket with
the keys from there up to the next entry key (`Cells`). B entries, groups and the root only
cut this list into blocks. Here are the changes the index makes to it: a bucket changes
within its range, a full bucket is split, an entry key is lowered by a `Put` below all
keys, an entry key is raised to the least key of its bucket, and the cells are cut anew.

An emptied bucket still has something in its first slot, which `min_key` reads; so the range
of a cell is asked of the first slot even when it is not in use.
-/

namespace NaliStore

open Routing

/-- An entry key and the bucket it points to. -/
@[ext] structure Cell where
  /-- `entry_key` -/
  entryKey : UInt64
  /-- `pointer` -/
  pointer : ℕ
  deriving DecidableEq, Repr

/-- The cell after a `Put` of the key into its bucket. -/
def Cell.lower (c : Cell) (key : UInt64) : Cell :=
  if c.entryKey > key then { c with entryKey := key } else c

theorem Cell.lower_pointer (c : Cell) (key : UInt64) : (c.lower key).pointer = c.pointer := by
  rw [lower]
  split <;> rfl

/-- The memory the buckets are allocated in. -/
structure Heap where
  /-- the next address to hand out -/
  next : ℕ
  /-- what is at an address, allocated or not -/
  bunckets : ℕ → UnSortBuncket

namespace Heap

/-- Store a bucket. -/
def set (h : Heap) (p : ℕ) (b : UnSortBuncket) : Heap :=
  { h with bunckets := Function.update h.bunckets p b }

/-- `new UnSortBuncket(key, prefix_len)`: no slot is in use, and the slots hold what the
memory held. -/
def alloc (h : Heap) : ℕ × Heap :=
  (h.next, ⟨h.next + 1,
    Function.update h.bunckets h.next { h.bunckets h.next with entries := 0 }⟩)

variable {h : Heap} {p q : ℕ} {b : UnSortBuncket}

@[simp] theorem set_self : (h.set p b).bunckets p = b := Function.update_self ..

theorem set_of_ne (hq : q ≠ p) : (h.set p b).bunckets q = h.bunckets q :=
  Function.update_of_ne hq ..

theorem set_eq_self : h.set p (h.bunckets p) = h := by
  rw [set, Function.update_eq_self]

@[simp] theorem set_next : (h.set p b).next = h.next := rfl

theorem alloc_of_ne (hq : q ≠ h.next) : h.alloc.2.bunckets q = h.bunckets q :=
  Function.update_of_ne hq ..

end Heap

/-- The cells partition the keys. -/
structure Cells (h : Heap) (l : List Cell) : Prop where
  /-- the entry keys ascend -/
  sorted : l.Pairwise fun c d => c.entryKey < d.entryKey
  /-- no bucket is in two cells -/
  own : ∀ c ∈ l, ∀ d ∈ l, c.pointer = d.pointer → c = d
  /-- the buckets are allocated -/
  alloc : ∀ c ∈ l, c.pointer < h.next
  /-- no key is in two slots of a bucket -/
  distinct : ∀ c ∈ l, (h.bunckets c.pointer).Distinct
  /-- a bucket has no keys below its entry key -/
  lower : ∀ c ∈ l, ∀ k, (h.bunckets c.pointer).Reads k → c.entryKey ≤ k
  /-- a bucket has no keys from the next entry key on -/
  upper : ∀ c ∈ l, ∀ d ∈ l, c.entryKey < d.entryKey →
    ∀ k, (h.bunckets c.pointer).Reads k → k < d.entryKey

/-- The pair is in a bucket. -/
def Stored (h : Heap) (l : List Cell) (k v : UInt64) : Prop :=
  ∃ c ∈ l, (h.bunckets c.pointer).Has k v

namespace Cells

variable {h h' : Heap} {l l' pre post : List Cell} {c d : Cell} {k k' v : UInt64}

theorem eq_of_entryKey (hl : Cells h l) (hc : c ∈ l) (hd : d ∈ l)
    (heq : c.entryKey = d.entryKey) : c = d := eq_of_lo_eq hl.sorted hc hd heq

/-- The ranges of two cells do not overlap. -/
theorem eq_of_reads (hl : Cells h l) (hc : c ∈ l) (hd : d ∈ l)
    (hck : (h.bunckets c.pointer).Reads k) (hdk : (h.bunckets d.pointer).Reads k) : c = d := by
  rcases lt_trichotomy c.entryKey d.entryKey with hlt | heq | hlt
  · exact absurd (hl.upper c hc d hd hlt k hck) (not_lt_of_ge (hl.lower d hd k hdk))
  · exact hl.eq_of_entryKey hc hd heq
  · exact absurd (hl.upper d hd c hc hlt k hdk) (not_lt_of_ge (hl.lower c hc k hck))

/-- **A key is in the bucket it is routed to, or in none.** -/
theorem stored_iff (hl : Cells h l) (hc : Routes Cell.entryKey l k c) :
    Stored h l k v ↔ (h.bunckets c.pointer).Has k v := by
  constructor
  · rintro ⟨d, hd, hhas⟩
    have heq : c = d := hc.eq_of_range hd (fun heq => hl.eq_of_entryKey hc.mem hd heq)
      (hl.lower d hd k hhas.reads) fun e he hlt => hl.upper d hd e he hlt k hhas.reads
    rwa [heq]
  · exact fun hhas => ⟨c, hc.mem, hhas⟩

theorem stored_unique (hl : Cells h l) {v' : UInt64} (hv : Stored h l k v)
    (hv' : Stored h l k v') : v = v' := by
  obtain ⟨c, hc, hcv⟩ := hv
  obtain ⟨d, hd, hdv⟩ := hv'
  obtain rfl := hl.eq_of_reads hc hd hcv.reads hdv.reads
  exact (hl.distinct c hc).has_unique hcv hdv

/-- The same cells in another sorted list. -/
theorem congr (hl : Cells h l) (hsorted : l'.Pairwise fun c d => c.entryKey < d.entryKey)
    (hmem : ∀ c ∈ l', c ∈ l) : Cells h l' where
  sorted := hsorted
  own c hc d hd := hl.own c (hmem c hc) d (hmem d hd)
  alloc c hc := hl.alloc c (hmem c hc)
  distinct c hc := hl.distinct c (hmem c hc)
  lower c hc := hl.lower c (hmem c hc)
  upper c hc d hd := hl.upper c (hmem c hc) d (hmem d hd)

/-! ## The changes -/

/-- **A bucket changes within its range.** -/
theorem set (hl : Cells h l) (hc : c ∈ l) {b : UnSortBuncket} (hb : b.Distinct)
    (hrange : ∀ k, b.Reads k → c.entryKey ≤ k ∧ ∀ d ∈ l, c.entryKey < d.entryKey → k < d.entryKey) :
    Cells (h.set c.pointer b) l := by
  have hother : ∀ d ∈ l, d ≠ c → (h.set c.pointer b).bunckets d.pointer = h.bunckets d.pointer :=
    fun d hd hne => Heap.set_of_ne fun heq => hne (hl.own d hd c hc heq)
  refine ⟨hl.sorted, hl.own, hl.alloc, fun d hd => ?_, fun d hd k hk => ?_,
    fun d hd e he hlt k hk => ?_⟩
  · by_cases hdc : d = c
    · rw [hdc, Heap.set_self]
      exact hb
    · rw [hother d hd hdc]
      exact hl.distinct d hd
  · by_cases hdc : d = c
    · rw [hdc, Heap.set_self] at hk
      rw [hdc]
      exact (hrange k hk).1
    · rw [hother d hd hdc] at hk
      exact hl.lower d hd k hk
  · by_cases hdc : d = c
    · rw [hdc, Heap.set_self] at hk
      exact (hrange k hk).2 e he (hdc ▸ hlt)
    · rw [hother d hd hdc] at hk
      exact hl.upper d hd e he hlt k hk

/-- What is stored after a bucket has changed. -/
theorem stored_set (hl : Cells h l) (hc : c ∈ l) {b : UnSortBuncket} :
    Stored (h.set c.pointer b) l k v ↔
      b.Has k v ∨ Stored h l k v ∧ ¬ (h.bunckets c.pointer).Has k v := by
  have hother : ∀ d ∈ l, d ≠ c → (h.set c.pointer b).bunckets d.pointer = h.bunckets d.pointer :=
    fun d hd hne => Heap.set_of_ne fun heq => hne (hl.own d hd c hc heq)
  constructor
  · rintro ⟨d, hd, hhas⟩
    by_cases hdc : d = c
    · rw [hdc, Heap.set_self] at hhas
      exact .inl hhas
    · rw [hother d hd hdc] at hhas
      exact .inr ⟨⟨d, hd, hhas⟩, fun hck => hdc (hl.eq_of_reads hd hc hhas.reads hck.reads)⟩
  · rintro (hhas | ⟨⟨d, hd, hhas⟩, hnot⟩)
    · exact ⟨c, hc, by rwa [Heap.set_self]⟩
    · have hdc : d ≠ c := fun heq => hnot (heq ▸ hhas)
      exact ⟨d, hd, by rwa [hother d hd hdc]⟩

/-- **An entry key is moved** to where nothing of its bucket is below it. -/
theorem move (hl : Cells h (pre ++ c :: post)) {key : UInt64}
    (hpre : ∀ d ∈ pre, d.entryKey < key ∧ ∀ k, (h.bunckets d.pointer).Reads k → k < key)
    (hpost : ∀ d ∈ post, key < d.entryKey)
    (hkey : ∀ k, (h.bunckets c.pointer).Reads k → key ≤ k) :
    Cells h (pre ++ { c with entryKey := key } :: post) := by
  have hold : ∀ d ∈ pre ++ post, d ∈ pre ++ c :: post := fun d hd =>
    List.append_subset.mpr ⟨List.subset_append_left .., fun x hx =>
      List.mem_append_right _ (List.mem_cons_of_mem _ hx)⟩ hd
  have hsplit : ∀ {e : Cell} {d}, d ∈ pre ++ e :: post ↔ d = e ∨ d ∈ pre ++ post := by
    intro e d
    simp only [List.mem_append, List.mem_cons]
    tauto
  have hc : c ∈ pre ++ c :: post := hsplit.mpr (.inl rfl)
  obtain ⟨hspre, hscons, hscross⟩ := List.pairwise_append.mp hl.sorted
  obtain ⟨hcpost, hspost⟩ := List.pairwise_cons.mp hscons
  -- no other cell has the bucket of `c`
  have hne : ∀ d ∈ pre ++ post, d.pointer ≠ c.pointer := by
    intro d hd heq
    obtain rfl := hl.own d (hold d hd) c hc heq
    rcases List.mem_append.mp hd with hd | hd
    · exact lt_irrefl _ (hscross d hd d (List.mem_cons_self ..))
    · exact lt_irrefl _ (hcpost d hd)
  refine ⟨?_, fun d hd e he heq => ?_, fun d hd => ?_, fun d hd => ?_, fun d hd k hk => ?_,
    fun d hd e he hlt k hk => ?_⟩
  · refine List.pairwise_append.mpr ⟨hspre, List.pairwise_cons.mpr ⟨hpost, hspost⟩, ?_⟩
    intro d hd e he
    rcases List.mem_cons.mp he with rfl | he
    · exact (hpre d hd).1
    · exact hscross d hd e (List.mem_cons_of_mem _ he)
  · rcases hsplit.mp hd with rfl | hd
    · rcases hsplit.mp he with rfl | he
      · rfl
      · exact absurd heq.symm (hne e he)
    · rcases hsplit.mp he with rfl | he
      · exact absurd heq (hne d hd)
      · exact hl.own d (hold d hd) e (hold e he) heq
  · rcases hsplit.mp hd with rfl | hd
    · exact hl.alloc c hc
    · exact hl.alloc d (hold d hd)
  · rcases hsplit.mp hd with rfl | hd
    · exact hl.distinct c hc
    · exact hl.distinct d (hold d hd)
  · rcases hsplit.mp hd with rfl | hd
    · exact hkey k hk
    · exact hl.lower d (hold d hd) k hk
  · rcases hsplit.mp hd with rfl | hd
    · rcases hsplit.mp he with rfl | he
      · exact absurd hlt (lt_irrefl _)
      · rcases List.mem_append.mp he with he | he
        · exact absurd hlt (not_lt_of_gt (hpre e he).1)
        · exact hl.upper c hc e (hold e (List.mem_append_right _ he)) (hcpost e he) k hk
    · rcases hsplit.mp he with rfl | he
      · rcases List.mem_append.mp hd with hd | hd
        · exact (hpre d hd).2 k hk
        · exact absurd hlt (not_lt_of_gt (hpost d hd))
      · exact hl.upper d (hold d hd) e (hold e he) hlt k hk

/-- What is stored depends on the buckets of the cells alone. -/
theorem stored_congr (h : Heap) (hptr : ∀ p, (∃ c ∈ l, c.pointer = p) ↔ ∃ c ∈ l', c.pointer = p) :
    Stored h l k v ↔ Stored h l' k v := by
  constructor
  · rintro ⟨c, hc, hhas⟩
    obtain ⟨d, hd, heq⟩ := (hptr c.pointer).mp ⟨c, hc, rfl⟩
    exact ⟨d, hd, by rwa [heq]⟩
  · rintro ⟨c, hc, hhas⟩
    obtain ⟨d, hd, heq⟩ := (hptr c.pointer).mpr ⟨c, hc, rfl⟩
    exact ⟨d, hd, by rwa [heq]⟩

/-- Moving an entry key changes nothing that is stored. -/
theorem stored_move {key : UInt64} :
    Stored h (pre ++ { c with entryKey := key } :: post) k v ↔ Stored h (pre ++ c :: post) k v := by
  refine stored_congr h fun p => ?_
  simp only [List.mem_append, List.mem_cons, or_and_right, exists_or, exists_eq_left]

/-- **An entry key is raised** to the least key of its bucket. -/
theorem raise (hl : Cells h (pre ++ c :: post)) :
    Cells h (pre ++ { c with entryKey := (h.bunckets c.pointer).minKey } :: post) := by
  have hc : c ∈ pre ++ c :: post := List.mem_append_right _ (List.mem_cons_self ..)
  have hmin := UnSortBuncket.reads_minKey (h.bunckets c.pointer)
  have hle := hl.lower c hc _ hmin
  obtain ⟨-, hscons, hscross⟩ := List.pairwise_append.mp hl.sorted
  refine hl.move (fun d hd => ?_) (fun d hd => ?_) fun k hk => UnSortBuncket.minKey_le hk
  · have hlt := hscross d hd c (List.mem_cons_self ..)
    refine ⟨hlt.trans_le hle, fun k hk => lt_of_lt_of_le ?_ hle⟩
    exact hl.upper d (List.mem_append_left _ hd) c hc hlt k hk
  · exact hl.upper c hc d (List.mem_append_right _ (List.mem_cons_of_mem _ hd))
      ((List.pairwise_cons.mp hscons).1 d hd) _ hmin

/-- **The first entry key is lowered.** -/
theorem lowerFirst (hl : Cells h (c :: post)) {key : UInt64} (hkey : key ≤ c.entryKey) :
    Cells h ({ c with entryKey := key } :: post) := by
  have hl' : Cells h ([] ++ c :: post) := hl
  refine hl'.move (fun d hd => absurd hd List.not_mem_nil) (fun d hd => ?_) fun k hk => ?_
  · exact hkey.trans_lt ((List.pairwise_cons.mp hl.sorted).1 d hd)
  · exact hkey.trans (hl.lower c (List.mem_cons_self ..) k hk)

section Split

variable {b next rest : UnSortBuncket} {splitKey : UInt64}

/-- The heap after a split: the rest of the bucket, and the new bucket. -/
def splitHeap (h : Heap) (p : ℕ) (next rest : UnSortBuncket) : Heap :=
  (h.alloc.2.set p rest).set h.next next

theorem splitHeap_next {p : ℕ} : (splitHeap h p next rest).bunckets h.next = next :=
  Heap.set_self

theorem splitHeap_self {p : ℕ} (hp : p < h.next) :
    (splitHeap h p next rest).bunckets p = rest := by
  rw [splitHeap, Heap.set_of_ne hp.ne, Heap.set_self]

theorem splitHeap_other {p q : ℕ} (hq : q < h.next) (hne : q ≠ p) :
    (splitHeap h p next rest).bunckets q = h.bunckets q := by
  rw [splitHeap, Heap.set_of_ne hq.ne, Heap.set_of_ne hne, Heap.alloc_of_ne hq.ne]

/-- The split key is in the range of the cell. -/
theorem split_range (hl : Cells h l) (hc : c ∈ l)
    (hs : UnSortBuncket.Split (h.bunckets c.pointer) next splitKey rest)
    (htwo : 2 ≤ (h.bunckets c.pointer).entries) :
    c.entryKey < splitKey ∧ ∀ d ∈ l, c.entryKey < d.entryKey → splitKey < d.entryKey := by
  have hrest : 0 < rest.entries := by rw [hs.entries_rest]; omega
  have hnext : 0 < next.entries := by rw [hs.entries_next]; omega
  obtain ⟨hhas, hlt⟩ := (hs.has_rest _ _).mp (UnSortBuncket.has_of_lt hrest)
  obtain ⟨hhas', hle⟩ := (hs.has_next _ _).mp (UnSortBuncket.has_of_lt hnext)
  exact ⟨(hl.lower c hc _ hhas.reads).trans_lt hlt,
    fun d hd hcd => hle.trans_lt (hl.upper c hc d hd hcd _ hhas'.reads)⟩

/-- The bucket of an old cell after a split, and what it reads. -/
theorem split_reads (hl : Cells h (pre ++ c :: post))
    (hs : UnSortBuncket.Split (h.bunckets c.pointer) next splitKey rest)
    (htwo : 2 ≤ (h.bunckets c.pointer).entries) (hd : d ∈ pre ++ c :: post)
    (hk : ((splitHeap h c.pointer next rest).bunckets d.pointer).Reads k) :
    (h.bunckets d.pointer).Reads k ∧ (d = c → k < splitKey) := by
  have hc : c ∈ pre ++ c :: post := List.mem_append_right _ (List.mem_cons_self ..)
  by_cases hdc : d = c
  · subst hdc
    rw [splitHeap_self (hl.alloc d hd)] at hk
    obtain ⟨v, hv⟩ := hk.has (by rw [hs.entries_rest]; omega)
    obtain ⟨hhas, hlt⟩ := (hs.has_rest k v).mp hv
    exact ⟨hhas.reads, fun _ => hlt⟩
  · rw [splitHeap_other (hl.alloc d hd) fun heq => hdc (hl.own d hd c hc heq)] at hk
    exact ⟨hk, fun heq => absurd heq hdc⟩

/-- **A full bucket is split.** -/
theorem split (hl : Cells h (pre ++ c :: post))
    (hs : UnSortBuncket.Split (h.bunckets c.pointer) next splitKey rest)
    (htwo : 2 ≤ (h.bunckets c.pointer).entries) :
    Cells (splitHeap h c.pointer next rest) (pre ++ c :: ⟨splitKey, h.next⟩ :: post) := by
  have hc : c ∈ pre ++ c :: post := List.mem_append_right _ (List.mem_cons_self ..)
  have hmem : ∀ {d}, d ∈ pre ++ c :: ⟨splitKey, h.next⟩ :: post ↔
      d = ⟨splitKey, h.next⟩ ∨ d ∈ pre ++ c :: post := by
    intro d
    simp only [List.mem_append, List.mem_cons]
    tauto
  obtain ⟨hlt, hup⟩ := hl.split_range hc hs htwo
  obtain ⟨hspre, hscons, hscross⟩ := List.pairwise_append.mp hl.sorted
  obtain ⟨hcpost, hspost⟩ := List.pairwise_cons.mp hscons
  have hpost : ∀ d ∈ post, splitKey < d.entryKey := fun d hd =>
    hup d (List.mem_append_right _ (List.mem_cons_of_mem _ hd)) (hcpost d hd)
  have hnext : ∀ k, next.Reads k → splitKey ≤ k ∧ (h.bunckets c.pointer).Reads k := by
    intro k hk
    obtain ⟨v, hv⟩ := hk.has (by rw [hs.entries_next]; omega)
    obtain ⟨hhas, hle⟩ := (hs.has_next k v).mp hv
    exact ⟨hle, hhas.reads⟩
  refine ⟨?_, fun d hd e he heq => ?_, fun d hd => ?_, fun d hd => ?_, fun d hd k hk => ?_,
    fun d hd e he hde k hk => ?_⟩
  · refine List.pairwise_append.mpr ⟨hspre, List.pairwise_cons.mpr ⟨fun d hd => ?_,
      List.pairwise_cons.mpr ⟨hpost, hspost⟩⟩, fun d hd e he => ?_⟩
    · rcases List.mem_cons.mp hd with rfl | hd
      · exact hlt
      · exact hcpost d hd
    · have hdc := hscross d hd c (List.mem_cons_self ..)
      rcases List.mem_cons.mp he with rfl | he
      · exact hdc
      · rcases List.mem_cons.mp he with rfl | he
        · exact hdc.trans hlt
        · exact hscross d hd e (List.mem_cons_of_mem _ he)
  · rcases hmem.mp hd with rfl | hd
    · rcases hmem.mp he with rfl | he
      · rfl
      · exact absurd heq.symm (hl.alloc e he).ne
    · rcases hmem.mp he with rfl | he
      · exact absurd heq (hl.alloc d hd).ne
      · exact hl.own d hd e he heq
  · rcases hmem.mp hd with rfl | hd
    · exact Nat.lt_succ_self h.next
    · exact Nat.lt_succ_of_lt (hl.alloc d hd)
  · rcases hmem.mp hd with rfl | hd
    · rw [splitHeap_next]
      exact hs.distinct_next
    · by_cases hdc : d = c
      · rw [hdc, splitHeap_self (hl.alloc c hc)]
        exact hs.distinct_rest
      · rw [splitHeap_other (hl.alloc d hd) fun heq => hdc (hl.own d hd c hc heq)]
        exact hl.distinct d hd
  · rcases hmem.mp hd with rfl | hd
    · rw [splitHeap_next] at hk
      exact (hnext k hk).1
    · exact hl.lower d hd k (hl.split_reads hs htwo hd hk).1
  · rcases hmem.mp hd with rfl | hd
    · rw [splitHeap_next] at hk
      rcases hmem.mp he with rfl | he
      · exact absurd hde (lt_irrefl _)
      · exact hl.upper c hc e he (hlt.trans hde) k (hnext k hk).2
    · obtain ⟨hread, hbelow⟩ := hl.split_reads hs htwo hd hk
      rcases hmem.mp he with rfl | he
      · -- the new cell is right after `c`
        rcases lt_trichotomy d.entryKey c.entryKey with hdc | hdc | hdc
        · exact (hl.upper d hd c hc hdc k hread).trans hlt
        · exact hbelow (hl.eq_of_entryKey hd hc hdc)
        · exact absurd hde (not_lt_of_gt (hup d hd hdc))
      · exact hl.upper d hd e he hde k hread

/-- A split changes nothing that is stored. -/
theorem stored_split (hl : Cells h (pre ++ c :: post))
    (hs : UnSortBuncket.Split (h.bunckets c.pointer) next splitKey rest) :
    Stored (splitHeap h c.pointer next rest) (pre ++ c :: ⟨splitKey, h.next⟩ :: post) k v ↔
      Stored h (pre ++ c :: post) k v := by
  have hc : c ∈ pre ++ c :: post := List.mem_append_right _ (List.mem_cons_self ..)
  have hmem : ∀ {d}, d ∈ pre ++ c :: ⟨splitKey, h.next⟩ :: post ↔
      d = ⟨splitKey, h.next⟩ ∨ d ∈ pre ++ c :: post := by
    intro d
    simp only [List.mem_append, List.mem_cons]
    tauto
  have hself : (splitHeap h c.pointer next rest).bunckets c.pointer = rest :=
    splitHeap_self (hl.alloc c hc)
  have hother : ∀ d ∈ pre ++ c :: post, d ≠ c →
      (splitHeap h c.pointer next rest).bunckets d.pointer = h.bunckets d.pointer :=
    fun d hd hdc => splitHeap_other (hl.alloc d hd) fun heq => hdc (hl.own d hd c hc heq)
  constructor
  · rintro ⟨d, hd, hhas⟩
    rcases hmem.mp hd with rfl | hd
    · rw [splitHeap_next] at hhas
      exact ⟨c, hc, ((hs.has_next k v).mp hhas).1⟩
    · by_cases hdc : d = c
      · rw [hdc, hself] at hhas
        exact ⟨c, hc, ((hs.has_rest k v).mp hhas).1⟩
      · rw [hother d hd hdc] at hhas
        exact ⟨d, hd, hhas⟩
  · rintro ⟨d, hd, hhas⟩
    by_cases hdc : d = c
    · subst hdc
      rcases lt_or_ge k splitKey with hlt | hge
      · exact ⟨d, hmem.mpr (.inr hd), by rw [hself]; exact (hs.has_rest k v).mpr ⟨hhas, hlt⟩⟩
      · exact ⟨_, hmem.mpr (.inl rfl), by
          rw [splitHeap_next]
          exact (hs.has_next k v).mpr ⟨hhas, hge⟩⟩
    · exact ⟨d, hmem.mpr (.inr hd), by rwa [hother d hd hdc]⟩

end Split

/-! ## Put -/

/-- The entry key follows a `Put` below it. -/
theorem lower_route (hl : Cells h (pre ++ c :: post))
    (hc : Routes Cell.entryKey (pre ++ c :: post) k c) : Cells h (pre ++ c.lower k :: post) := by
  rw [Cell.lower]
  split
  · rename_i hlt
    -- below its entry key a key is routed to the first cell only
    have hnil : pre = [] := by
      by_contra hne
      obtain ⟨d, hd⟩ := List.exists_mem_of_ne_nil pre hne
      rcases hc.le_or_first with hle | hfirst
      · exact absurd hlt (not_lt_of_ge hle)
      · exact absurd ((List.pairwise_append.mp hl.sorted).2.2 d hd c (List.mem_cons_self ..))
          (not_lt_of_ge (hfirst d (List.mem_append_left _ hd)))
    subst hnil
    exact lowerFirst hl hlt.le
  · exact hl

theorem stored_lower : Stored h (pre ++ c.lower k :: post) k' v ↔ Stored h (pre ++ c :: post) k' v := by
  rw [Cell.lower]
  split
  · exact stored_move
  · exact Iff.rfl

/-- **A key is put into the bucket it is routed to.** -/
theorem put (hl : Cells h (pre ++ c :: post)) (hc : Routes Cell.entryKey (pre ++ c :: post) k c)
    (hroom : (h.bunckets c.pointer).entries < UnSortBuncket.maxEntries)
    (habsent : ∀ v, ¬ Stored h (pre ++ c :: post) k v) :
    Cells (h.set c.pointer ((h.bunckets c.pointer).append k v)) (pre ++ c.lower k :: post) := by
  have hmem : c.lower k ∈ pre ++ c.lower k :: post :=
    List.mem_append_right _ (List.mem_cons_self ..)
  have hl' := hl.lower_route hc
  have hnot : ∀ v, ¬ (h.bunckets c.pointer).Has k v := fun v hv =>
    habsent v ((hl.stored_iff hc).mpr hv)
  have hle : (c.lower k).entryKey ≤ k := by
    rw [Cell.lower]
    split
    · exact le_rfl
    · exact le_of_not_gt ‹_›
  rw [← Cell.lower_pointer c k] at hroom hnot ⊢
  refine hl'.set hmem ((hl'.distinct _ hmem).append hroom hnot) fun x hx => ?_
  rcases UnSortBuncket.append_reads hx with hx | rfl
  · exact ⟨hl'.lower _ hmem x hx, fun d hd hlt => hl'.upper _ hmem d hd hlt x hx⟩
  · refine ⟨hle, fun d hd hlt => ?_⟩
    -- the cells above the one of the key are above the key
    have hsplit : d = c.lower x ∨ d ∈ pre ++ c :: post := by
      simp only [List.mem_append, List.mem_cons] at hd ⊢
      tauto
    rcases hsplit with rfl | hd
    · exact absurd hlt (lt_irrefl _)
    · by_cases hcx : c.entryKey > x
      · rw [Cell.lower, if_pos hcx] at hlt
        exact hlt
      · rw [Cell.lower, if_neg hcx] at hlt
        exact hc.lt_of_lt hd hlt

theorem stored_put (hl : Cells h (pre ++ c :: post)) {k' v' : UInt64} :
    Stored (h.set c.pointer ((h.bunckets c.pointer).append k v)) (pre ++ c.lower k :: post) k' v' ↔
      Stored h (pre ++ c :: post) k' v' ∨ k' = k ∧ v' = v := by
  have hc : c ∈ pre ++ c :: post := List.mem_append_right _ (List.mem_cons_self ..)
  rw [stored_lower, hl.stored_set hc, UnSortBuncket.append_has]
  constructor
  · rintro ((hhas | heq) | ⟨hst, -⟩)
    · exact .inl ⟨c, hc, hhas⟩
    · exact .inr heq
    · exact .inl hst
  · rintro (hst | heq)
    · by_cases hhas : (h.bunckets c.pointer).Has k' v'
      · exact .inl (.inl hhas)
      · exact .inr ⟨hst, hhas⟩
    · exact .inl (.inr heq)

/-! ## Get, Update and Delete -/

theorem get_eq (hl : Cells h l) (hc : Routes Cell.entryKey l k c) :
    (h.bunckets c.pointer).get k = some v ↔ Stored h l k v := by
  rw [(hl.distinct c hc.mem).get_eq, hl.stored_iff hc]

/-- The value of a stored key is replaced. -/
theorem update_of_stored (hl : Cells h l) (hc : Routes Cell.entryKey l k c) (hv : Stored h l k v)
    (w : UInt64) : ((h.bunckets c.pointer).update k w).1 = some v ∧
      Cells (h.set c.pointer ((h.bunckets c.pointer).update k w).2) l ∧
      ∀ k' v', Stored (h.set c.pointer ((h.bunckets c.pointer).update k w).2) l k' v' ↔
        if k' = k then v' = w else Stored h l k' v' := by
  have hhas := (hl.stored_iff hc).mp hv
  obtain ⟨b', hupdate, hdist, hb', hreads⟩ := (hl.distinct c hc.mem).update_of_has hhas w
  rw [hupdate]
  refine ⟨rfl, hl.set hc.mem hdist fun x hx => ⟨hl.lower c hc.mem x (hreads x hx),
    fun d hd hlt => hl.upper c hc.mem d hd hlt x (hreads x hx)⟩, fun k' v' => ?_⟩
  rw [hl.stored_set hc.mem, hb']
  split
  · rename_i hk
    subst hk
    refine ⟨fun hcase => hcase.elim id fun hst => ?_, .inl⟩
    exact absurd ((hl.stored_iff hc).mp hst.1) hst.2
  · constructor
    · rintro (hhas' | ⟨hst, -⟩)
      · exact ⟨c, hc.mem, hhas'⟩
      · exact hst
    · intro hst
      by_cases hhas' : (h.bunckets c.pointer).Has k' v'
      · exact .inl hhas'
      · exact .inr ⟨hst, hhas'⟩

/-- A stored key is removed. -/
theorem delete_of_stored (hl : Cells h l) (hc : Routes Cell.entryKey l k c) (hv : Stored h l k v) :
    ((h.bunckets c.pointer).delete k).1 = some v ∧
      Cells (h.set c.pointer ((h.bunckets c.pointer).delete k).2) l ∧
      ∀ k' v', Stored (h.set c.pointer ((h.bunckets c.pointer).delete k).2) l k' v' ↔
        k' ≠ k ∧ Stored h l k' v' := by
  have hhas := (hl.stored_iff hc).mp hv
  obtain ⟨b', hdelete, hdist, hb', hreads⟩ := (hl.distinct c hc.mem).delete_of_has hhas
  rw [hdelete]
  refine ⟨rfl, hl.set hc.mem hdist fun x hx => ⟨hl.lower c hc.mem x (hreads x hx),
    fun d hd hlt => hl.upper c hc.mem d hd hlt x (hreads x hx)⟩, fun k' v' => ?_⟩
  rw [hl.stored_set hc.mem, hb']
  constructor
  · rintro (⟨hne, hhas'⟩ | ⟨hst, hnot⟩)
    · exact ⟨hne, c, hc.mem, hhas'⟩
    · refine ⟨?_, hst⟩
      rintro rfl
      exact hnot ((hl.stored_iff hc).mp hst)
  · rintro ⟨hne, hst⟩
    by_cases hhas' : (h.bunckets c.pointer).Has k' v'
    · exact .inl ⟨hne, hhas'⟩
    · exact .inr ⟨hst, hhas'⟩

/-- Of a key that is not stored nothing changes. -/
theorem of_absent (hc : Routes Cell.entryKey l k c) (habsent : ∀ v, ¬ Stored h l k v)
    (w : UInt64) : (h.bunckets c.pointer).update k w = (none, h.bunckets c.pointer) ∧
      (h.bunckets c.pointer).delete k = (none, h.bunckets c.pointer) := by
  have hnot : ∀ v, ¬ (h.bunckets c.pointer).Has k v := fun v hv => habsent v ⟨c, hc.mem, hv⟩
  exact ⟨UnSortBuncket.update_of_absent hnot w, UnSortBuncket.delete_of_absent hnot⟩

end Cells

end NaliStore
