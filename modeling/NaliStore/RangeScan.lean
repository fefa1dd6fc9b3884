import NaliStore.Scan

/-!
# Which range scans are exact

A scan is exact when it appends the least keys from the start key on. Since it starts at a
fixed place of the first bucket it must find the first of these keys there, and since it does
not sort the buckets after that one they must hold their keys in the right slots. `ScanOk`
is the condition on the state, and a scan is exact if and only if it is met.
-/

namespace NaliStore

open Routing Runs

/-- What is appended to the results: the first `len` of the pairs `X`. -/
def Yields (x : Except Fault (ℕ × Pairs)) (len : ℕ) (results X : Pairs) : Prop :=
  x = .ok (len - X.length, results ++ X.take len)

/-- After the first bucket of a B entry a scan goes on in the second; if there is none, it
goes on as `next` says. -/
def After (rest : List UnSortBuncket) (next : ℕ → Prop) (len : ℕ) : Prop :=
  match rest with
  | [] => next len
  | b₁ :: _ => b₁.Last len

/-- The buckets of the B entries that are left hold the next keys in the right slots. -/
def Continues (atEnd : Prop) : List (List UnSortBuncket) → ℕ → Prop
  | [], _ => atEnd
  | [] :: entries, len => Continues atEnd entries len
  | (b :: rest) :: entries, len =>
    b.Last len ∨ b.entries < len ∧ b.Ascending ∧
      After rest (Continues atEnd entries) (len - b.entries)

namespace PointerBEntry

variable {b : PointerBEntry} {h : Heap} {startKey : UInt64} {len len' fuel pos : ℕ}
  {results results' X Y : Pairs} {ret ret' : Status}

/-- The buckets of a B entry. -/
def bunckets (b : PointerBEntry) (h : Heap) : List UnSortBuncket :=
  b.cells.map fun c => h.bunckets c.pointer

/-! ## The loop of a B entry -/

theorem scanLoop_of_ok (hret : ret = .ok) :
    b.scanLoop h startKey pos fuel ret len results = .ok (ret, len, results) := by
  have hnot : ¬ (ret = .failed ∧ pos < b.entries) := by
    rintro ⟨hfailed, -⟩
    rw [hret] at hfailed
    cases hfailed
  cases fuel <;> rw [scanLoop, if_neg hnot]

/-- The loop appends to the results. -/
theorem scanLoop_appends : ∀ (fuel : ℕ) (ret : Status) (len : ℕ) (results : Pairs),
    b.scanLoop h startKey pos fuel ret len results = .ok (ret', len', results') →
      results <+: results' := by
  intro fuel
  induction fuel with
  | zero =>
    intro ret len results heq
    rw [scanLoop] at heq
    split at heq
    · cases heq
    · obtain ⟨-, heq⟩ := Prod.mk.inj (Except.ok.inj heq)
      rw [(Prod.mk.inj heq).2]
  | succ fuel ih =>
    intro ret len results heq
    rw [scanLoop] at heq
    split at heq
    · obtain ⟨⟨ret₁, len₁, results₁⟩, hscan, hrest⟩ := bind_eq_ok heq
      exact (UnSortBuncket.scan_appends hscan).trans (ih _ _ _ hrest)
    · obtain ⟨-, heq⟩ := Prod.mk.inj (Except.ok.inj heq)
      rw [(Prod.mk.inj heq).2]

/-- The loop does not end in an empty bucket, however long it runs. -/
theorem scanLoop_diverges (hpos : pos < b.entries)
    (hempty : (h.bunckets (b.entrys pos).pointer).entries = 0) (hlen : 0 < len) :
    ∀ fuel, b.scanLoop h startKey pos fuel .failed len results = .error .diverges := by
  intro fuel
  have hscan : (h.bunckets (b.entrys pos).pointer).scan startKey len results false =
      .ok (.failed, len, results) := by
    rw [UnSortBuncket.scan_all (by omega), hempty, Nat.sub_zero, if_pos hlen]
    rw [UnSortBuncket.slots, hempty, List.range_zero, List.map_nil, List.append_nil]
  induction fuel with
  | zero => rw [scanLoop, if_pos ⟨rfl, hpos⟩]
  | succ fuel ih =>
    rw [scanLoop, if_pos ⟨rfl, hpos⟩, hscan]
    exact ih

end PointerBEntry

/-! ## One bucket after another -/

section Next

variable {x : Except Fault (ℕ × Pairs)} {len : ℕ} {results W Z X Y : Pairs}

/-- What comes first is right, and what comes after it. -/
theorem yields_append (hlength : W.length = Z.length) (hle : Z.length ≤ len)
    (happends : ∀ y, x = .ok y → results ++ W <+: y.2) :
    Yields x len results (Z ++ X) ↔ W = Z ∧ Yields x (len - Z.length) (results ++ W) X := by
  have htake : (Z ++ X).take len = Z ++ X.take (len - Z.length) := by
    rw [List.take_append, List.take_of_length_le hle]
  have hsub : len - (Z ++ X).length = len - Z.length - X.length := by
    rw [List.length_append, Nat.sub_add_eq]
  rw [Yields, Yields, htake, hsub]
  constructor
  · intro hx
    have hpre := happends _ hx
    rw [List.prefix_append_right_inj] at hpre
    obtain ⟨V, hV⟩ := hpre
    obtain ⟨rfl, -⟩ := List.append_inj hV hlength
    exact ⟨rfl, by rw [hx, List.append_assoc]⟩
  · rintro ⟨rfl, hx⟩
    rw [hx, List.append_assoc]

/-- A scan that has come to its end. -/
theorem yields_ok (hle : len ≤ X.length) :
    Yields (.ok (0, results ++ W)) len results X ↔ W = X.take len := by
  rw [Yields, Nat.sub_eq_zero_of_le hle]
  constructor
  · intro hx
    exact List.append_cancel_left (Prod.mk.inj (Except.ok.inj hx)).2
  · intro hWX
    rw [hWX]

/-- A scan of a B entry, and what follows when it has not come to its end. -/
def thenOn (scanned : Except Fault (Bool × ℕ × Pairs)) (next : ℕ → Pairs → Except Fault (ℕ × Pairs)) :
    Except Fault (ℕ × Pairs) := do
  let (ret, len, results) ← scanned
  if ret then .ok (len, results) else next len results

theorem thenOn_appends {scanned : Except Fault (Bool × ℕ × Pairs)} {y : ℕ × Pairs}
    {next : ℕ → Pairs → Except Fault (ℕ × Pairs)}
    (hscanned : ∀ z, scanned = .ok z → results <+: z.2.2)
    (hnext : ∀ len results y, next len results = .ok y → results <+: y.2)
    (heq : thenOn scanned next = .ok y) : results <+: y.2 := by
  obtain ⟨⟨ret, len₁, results₁⟩, hscan, hrest⟩ := bind_eq_ok heq
  refine (hscanned _ hscan).trans ?_
  simp only at hrest
  split at hrest
  · rw [← Except.ok.inj hrest]
  · exact hnext _ _ _ hrest

/-- What follows a B entry: it appends to the results, and it yields `Y` when `Q` says so. -/
structure NextOk (next : ℕ → Pairs → Except Fault (ℕ × Pairs)) (Y : Pairs) (Q : ℕ → Prop) :
    Prop where
  /-- it appends to the results -/
  appends : ∀ len results y, next len results = .ok y → results <+: y.2
  /-- it yields what is left -/
  yields_iff : ∀ len results, 0 < len → (Yields (next len results) len results Y ↔ Q len)

namespace PointerBEntry

variable {b : PointerBEntry} {h : Heap} {startKey : UInt64} {rest : List UnSortBuncket}
  {b₀ : UnSortBuncket} {next : ℕ → Pairs → Except Fault (ℕ × Pairs)} {Q : ℕ → Prop}

theorem scanFrom_appends {ret : Status} {z : Bool × ℕ × Pairs}
    (heq : b.scanFrom h startKey 0 (ret, len, results) = .ok z) : results <+: z.2.2 := by
  obtain ⟨⟨ret₂, len₂, results₂⟩, hloop, hok⟩ := bind_eq_ok heq
  rw [← Except.ok.inj hok]
  exact scanLoop_appends _ _ _ _ hloop

/-- A scan that has come to its end stays there. -/
theorem thenOn_scanFrom_ok (b : PointerBEntry) (h : Heap) (startKey : UInt64) :
    thenOn (b.scanFrom h startKey 0 (.ok, len, results)) next = .ok (len, results) := by
  rw [thenOn, scanFrom, scanLoop_of_ok rfl]
  rfl

theorem entries_of_bunckets (hb : b.bunckets h = b₀ :: rest) : b.entries = rest.length + 1 := by
  have hlen := congrArg List.length hb
  rwa [bunckets, List.length_map, length_cells, List.length_cons] at hlen

theorem bunckets_getElem? (i : ℕ) : (b.bunckets h)[i]? =
    if i < b.entries then some (h.bunckets (b.entrys i).pointer) else none := by
  rw [bunckets, List.getElem?_map, cells_getElem?]
  split <;> rfl

/-- A second bucket that does not have all that is wanted is read again from its first slot. -/
theorem second_round_appends {b₁ : UnSortBuncket} (hone : 0 + 1 < b.entries)
    (hb₁ : h.bunckets (b.entrys (0 + 1)).pointer = b₁) (hpos : 0 < b₁.entries)
    (hgt : b₁.entries < len) {z : Bool × ℕ × Pairs}
    (heq : b.scanFrom h startKey 0 (.failed, len, results) = .ok z) :
    results ++ b₁.slots ++ [b₁.records 0] <+: z.2.2 := by
  obtain ⟨⟨ret₂, len₂, results₂⟩, hloop, hok⟩ := bind_eq_ok heq
  rw [← Except.ok.inj hok]
  -- the first round
  rw [scanLoop, if_pos ⟨rfl, hone⟩, hb₁, UnSortBuncket.scan_all hgt.le,
    if_pos (Nat.sub_pos_of_lt hgt)] at hloop
  -- the second round
  obtain ⟨fuel, rfl⟩ := Nat.exists_eq_succ_of_ne_zero (Nat.ne_zero_of_lt hgt)
  change b.scanLoop h startKey (0 + 1) (fuel + 1) .failed _ _ = _ at hloop
  rw [scanLoop, if_pos ⟨rfl, hone⟩, hb₁] at hloop
  obtain ⟨⟨ret₃, len₃, results₃⟩, hscan₃, hloop₃⟩ := bind_eq_ok hloop
  exact (UnSortBuncket.scan_appends_first hpos (Nat.sub_pos_of_lt hgt) hscan₃).trans
    (scanLoop_appends _ _ _ _ hloop₃)

/-- **After the first bucket of a B entry.** -/
theorem tail_iff (hb : b.bunckets h = b₀ :: rest) (hnext : NextOk next Y Q) (hlen : 0 < len)
    (hasc : Ascends (rest.flatMap UnSortBuncket.sorted ++ Y)) (hdist : ∀ x ∈ rest, x.Distinct) :
    Yields (thenOn (b.scanFrom h startKey 0 (.failed, len, results)) next) len results
      (rest.flatMap UnSortBuncket.sorted ++ Y) ↔ After rest Q len := by
  have hentries := entries_of_bunckets hb
  cases rest with
  | nil =>
    -- there is no second bucket
    rw [List.length_nil, Nat.zero_add] at hentries
    have hloop : b.scanLoop h startKey (0 + 1) (len + 1) .failed len results =
        .ok (.failed, len, results) := by
      rw [scanLoop, if_neg (by rw [hentries]; simp)]
    rw [thenOn, scanFrom, hloop, List.flatMap_nil, List.nil_append]
    exact hnext.yields_iff len results hlen
  | cons b₁ rest =>
    have hone : 0 + 1 < b.entries := by
      rw [hentries, List.length_cons]
      omega
    have hb₁ : h.bunckets (b.entrys (0 + 1)).pointer = b₁ := by
      have hget := bunckets_getElem? (b := b) (h := h) (0 + 1)
      rw [hb, if_pos hone] at hget
      exact (Option.some.inj hget).symm
    have hdist₁ := hdist b₁ (List.mem_cons_self ..)
    set X := rest.flatMap UnSortBuncket.sorted ++ Y with hX
    rw [List.flatMap_cons, List.append_assoc, ← hX] at hasc ⊢
    have hloop : ∀ fuel, b.scanLoop h startKey (0 + 1) (fuel + 1) .failed len results =
        (b₁.scan startKey len results false >>= fun y =>
          b.scanLoop h startKey (0 + 1) fuel y.1 y.2.1 y.2.2) := by
      intro fuel
      rw [scanLoop, if_pos ⟨rfl, hone⟩, hb₁]
    have hlast : After (b₁ :: rest) Q len = b₁.Last len := rfl
    rw [hlast]
    rcases lt_trichotomy len b₁.entries with hlt | heq | hgt
    · -- the first slot, over and over
      have hscan : thenOn (b.scanFrom h startKey 0 (.failed, len, results)) next =
          .ok (0, results ++ List.replicate len (b₁.records 0)) := by
        rw [thenOn, scanFrom, hloop, UnSortBuncket.scan_some hlt]
        simp only [bind, Except.bind, scanLoop_of_ok]
        rfl
      rw [hscan, yields_ok (by rw [List.length_append, UnSortBuncket.length_sorted]; omega),
        hdist₁.replicate_eq_take hlen hlt, UnSortBuncket.Last]
      constructor
      · rintro ⟨h1, hleast⟩
        exact .inr ⟨h1, hlt, hleast⟩
      · rintro (⟨h1, -⟩ | ⟨h1, -, hleast⟩)
        · exact absurd h1 hlt.ne
        · exact ⟨h1, hleast⟩
    · -- all slots
      have hscan : thenOn (b.scanFrom h startKey 0 (.failed, len, results)) next =
          .ok (0, results ++ b₁.slots) := by
        rw [thenOn, scanFrom, hloop, UnSortBuncket.scan_all heq.ge, heq, Nat.sub_self,
          if_neg (lt_irrefl 0)]
        simp only [bind, Except.bind, scanLoop_of_ok]
        rfl
      rw [hscan, yields_ok (by rw [List.length_append, UnSortBuncket.length_sorted]; omega), heq, hdist₁.slots_eq_take, UnSortBuncket.Last]
      constructor
      · exact fun h => .inl ⟨rfl, h⟩
      · rintro (⟨-, h⟩ | ⟨-, hlt, -⟩)
        · exact h
        · exact absurd hlt (lt_irrefl _)
    · -- the second bucket is read again
      have hnot : ¬ b₁.Last len := by
        rintro (⟨h1, -⟩ | ⟨-, h1, -⟩) <;> omega
      refine ⟨fun hyields => ?_, fun h => absurd h hnot⟩
      exfalso
      rcases Nat.eq_zero_or_pos b₁.entries with hzero | hpos
      · rw [Yields, thenOn, scanFrom, scanLoop_diverges hone (by rw [hb₁, hzero]) hlen] at hyields
        cases hyields
      · have happends := thenOn_appends (fun _ hz => second_round_appends hone hb₁ hpos hgt hz)
          hnext.appends hyields
        rw [List.append_assoc, List.prefix_append_right_inj] at happends
        -- the pair of the first slot would be there twice
        have hnodup : ((b₁.sorted ++ X).take len).Nodup :=
          hasc.nodup.sublist (List.take_sublist ..)
        have hnodup' := hnodup.sublist happends.sublist
        exact (List.nodup_append.mp hnodup').2.2 _ (UnSortBuncket.records_zero_mem_slots hpos) _
          (List.mem_singleton_self _) rfl

theorem first_of_bunckets (hb : b.bunckets h = b₀ :: rest) :
    h.bunckets (b.entrys 0).pointer = b₀ := by
  have hget := bunckets_getElem? (b := b) (h := h) 0
  rw [hb, if_pos (by rw [entries_of_bunckets hb]; omega)] at hget
  exact (Option.some.inj hget).symm

/-- **A B entry that a scan comes to**, with a start key below its entry keys. -/
theorem entry_iff (hwf : b.WF) (hb : b.bunckets h = b₀ :: rest) (hfind : b.findPos startKey = 0)
    (hnext : NextOk next Y Q) (hlen : 0 < len)
    (hasc : Ascends (b₀.sorted ++ (rest.flatMap UnSortBuncket.sorted ++ Y)))
    (hdist : ∀ x ∈ b₀ :: rest, x.Distinct) :
    Yields (thenOn (b.scan h startKey len results false) next) len results
        (b₀.sorted ++ (rest.flatMap UnSortBuncket.sorted ++ Y)) ↔
      b₀.Last len ∨ b₀.entries < len ∧ b₀.Ascending ∧ After rest Q (len - b₀.entries) := by
  have hdist₀ := hdist b₀ (List.mem_cons_self ..)
  have hguard := hwf.not_rejects startKey
  have hscan : b.scan h startKey len results false =
      (b₀.scan startKey len results false >>= b.scanFrom h startKey 0) := by
    rw [scan, if_neg Bool.false_ne_true, if_neg hguard, hfind, first_of_bunckets hb]
  set X := rest.flatMap UnSortBuncket.sorted ++ Y with hX
  have hlong : b₀.entries ≤ (b₀.sorted ++ X).length := by
    rw [List.length_append, UnSortBuncket.length_sorted]
    exact Nat.le_add_right ..
  rcases lt_trichotomy len b₀.entries with hlt | heq | hgt
  · have hok : thenOn (b.scan h startKey len results false) next =
        .ok (0, results ++ List.replicate len (b₀.records 0)) := by
      rw [hscan, UnSortBuncket.scan_some hlt]
      exact thenOn_scanFrom_ok b h startKey
    rw [hok, yields_ok (hlt.le.trans hlong), hdist₀.replicate_eq_take hlen hlt]
    constructor
    · rintro ⟨h1, hleast⟩
      exact .inl (.inr ⟨h1, hlt, hleast⟩)
    · rintro ((⟨h1, -⟩ | ⟨h1, -, hleast⟩) | ⟨h1, -⟩)
      · exact absurd h1 hlt.ne
      · exact ⟨h1, hleast⟩
      · exact absurd h1 (not_lt_of_gt hlt)
  · have hok : thenOn (b.scan h startKey len results false) next =
        .ok (0, results ++ b₀.slots) := by
      rw [hscan, UnSortBuncket.scan_all heq.ge, heq, Nat.sub_self, if_neg (lt_irrefl 0)]
      exact thenOn_scanFrom_ok b h startKey
    rw [hok, yields_ok (heq.le.trans hlong), heq, hdist₀.slots_eq_take]
    constructor
    · exact fun h => .inl (.inl ⟨rfl, h⟩)
    · rintro ((⟨-, h⟩ | ⟨-, h1, -⟩) | ⟨h1, -⟩)
      · exact h
      · exact absurd h1 (lt_irrefl _)
      · exact absurd h1 (lt_irrefl _)
  · -- the slots of the first bucket, then what comes after them
    have hon : thenOn (b.scan h startKey len results false) next =
        thenOn (b.scanFrom h startKey 0 (.failed, len - b₀.entries, results ++ b₀.slots)) next := by
      rw [hscan, UnSortBuncket.scan_all hgt.le, if_pos (Nat.sub_pos_of_lt hgt)]
      rfl
    have happends : ∀ y, thenOn (b.scanFrom h startKey 0 (.failed, len - b₀.entries,
        results ++ b₀.slots)) next = .ok y → results ++ b₀.slots <+: y.2 :=
      fun y hy => thenOn_appends (fun _ hz => scanFrom_appends hz) hnext.appends hy
    rw [hon, yields_append (by rw [UnSortBuncket.length_slots, UnSortBuncket.length_sorted])
      (by rw [UnSortBuncket.length_sorted]; exact hgt.le) happends, UnSortBuncket.length_sorted,
      ← hdist₀.ascending_iff, hX,
      tail_iff hb hnext (Nat.sub_pos_of_lt hgt) (List.pairwise_append.mp hasc).2.1
        fun x hx => hdist x (List.mem_cons_of_mem _ hx)]
    constructor
    · exact fun h => .inr ⟨hgt, h⟩
    · rintro ((⟨h1, -⟩ | ⟨-, h1, -⟩) | ⟨-, h⟩)
      · exact absurd h1 hgt.ne'
      · exact absurd h1 (not_lt_of_gt hgt)
      · exact h

/-- **The B entry a scan starts in**: it gives the sorted pairs of its first bucket, from a
place in them on. -/
theorem first_iff {first : ℕ} (hb : b.bunckets h = b₀ :: rest)
    (hfirst : b₀.getSortedIndex.head? = some first) (hnext : NextOk next Y Q)
    (hasc : Ascends (rest.flatMap UnSortBuncket.sorted ++ Y)) (hdist : ∀ x ∈ rest, x.Distinct) :
    Yields (thenOn (b.scan h startKey len results true) next) len results
        (b₀.sorted.drop first ++ (rest.flatMap UnSortBuncket.sorted ++ Y)) ↔
      len ≤ b₀.entries - first ∨ After rest Q (len - (b₀.entries - first)) := by
  have hscan : b.scan h startKey len results true =
      (b₀.scan 0 len results true >>= b.scanFrom h startKey 0) := by
    rw [scan, if_pos rfl, first_of_bunckets hb]
  have hlength : (b₀.sorted.drop first).length = b₀.entries - first := by
    rw [List.length_drop, UnSortBuncket.length_sorted]
  set X := rest.flatMap UnSortBuncket.sorted ++ Y with hX
  rcases Nat.lt_or_ge (b₀.entries - first) len with hgt | hle
  · have hon : thenOn (b.scan h startKey len results true) next =
        thenOn (b.scanFrom h startKey 0 (.failed, len - (b₀.entries - first),
          results ++ b₀.sorted.drop first)) next := by
      rw [hscan, UnSortBuncket.scan_first hfirst, if_pos (Nat.sub_pos_of_lt hgt),
        List.take_of_length_le (by rw [hlength]; exact hgt.le)]
      rfl
    have happends : ∀ y, thenOn (b.scanFrom h startKey 0 (.failed, len - (b₀.entries - first),
        results ++ b₀.sorted.drop first)) next = .ok y →
        results ++ b₀.sorted.drop first <+: y.2 :=
      fun y hy => thenOn_appends (fun _ hz => scanFrom_appends hz) hnext.appends hy
    rw [hon, yields_append rfl (by rw [hlength]; exact hgt.le) happends, hlength, hX,
      tail_iff hb hnext (Nat.sub_pos_of_lt hgt) hasc hdist]
    constructor
    · exact fun h => .inr h.2
    · rintro (h1 | h)
      · exact absurd hgt (not_lt_of_ge h1)
      · exact ⟨rfl, h⟩
  · have hok : thenOn (b.scan h startKey len results true) next =
        .ok (0, results ++ (b₀.sorted.drop first).take len) := by
      rw [hscan, UnSortBuncket.scan_first hfirst, Nat.sub_eq_zero_of_le hle,
        if_neg (lt_irrefl 0)]
      exact thenOn_scanFrom_ok b h startKey
    rw [hok, yields_ok (by rw [List.length_append, hlength]; omega),
      List.take_append_of_le_length (by rw [hlength]; exact hle)]
    exact ⟨fun _ => .inl hle, fun _ => rfl⟩

end PointerBEntry

end Next

/-! ## All pairs in order -/

/-- The pairs of the cells, in the order of the keys. -/
def pairs (h : Heap) (l : List Cell) : Pairs := l.flatMap fun c => (h.bunckets c.pointer).sorted

namespace Cells

variable {h : Heap} {l : List Cell}

theorem ascends_pairs (hl : Cells h l) : Ascends (pairs h l) := by
  refine List.pairwise_flatMap.mpr ⟨fun c hc => (hl.distinct c hc).ascends_sorted, ?_⟩
  refine hl.sorted.imp_of_mem fun {c d} hc hd hlt p hp q hq => ?_
  have hpc := (UnSortBuncket.mem_sorted.mp hp).reads
  have hqd := (UnSortBuncket.mem_sorted.mp hq).reads
  exact (hl.upper c hc d hd hlt _ hpc).trans_le (hl.lower d hd _ hqd)

theorem mem_pairs {p : UInt64 × UInt64} : p ∈ pairs h l ↔ Stored h l p.1 p.2 := by
  rw [pairs, List.mem_flatMap]
  simp only [UnSortBuncket.mem_sorted]
  rfl

end Cells

theorem pairs_append (h : Heap) (l l' : List Cell) : pairs h (l ++ l') = pairs h l ++ pairs h l' :=
  List.flatMap_append

/-! ## The B entries and groups after the first -/

section Groups

variable {h : Heap} {startKey : UInt64} {len len' : ℕ} {results results' Y : Pairs} {ret ret' : Bool}
  {next : ℕ → Pairs → Except Fault (ℕ × Pairs)} {l : List Cell}

theorem PointerBEntry.findPos_of_lt {b : PointerBEntry} (hlt : startKey < b.entryKey) :
    b.findPos startKey = 0 := by
  have hzero : linearSearch (fun pos => (b.entrys pos).entryKey) startKey b.entries 0 = 0 := by
    cases b.entries with
    | zero => rfl
    | succ n =>
      rw [linearSearch]
      exact if_neg (not_le_of_gt hlt)
  rw [findPos, hzero]
  rfl

theorem PointerBEntry.WF.exists_bunckets {b : PointerBEntry} (hb : b.WF) (h : Heap) :
    ∃ b₀ rest, b.bunckets h = b₀ :: rest := by
  apply List.exists_cons_of_ne_nil
  intro hnil
  have hlen := congrArg List.length hnil
  rw [bunckets, List.length_map, length_cells] at hlen
  exact absurd hb.pos (by rw [hlen]; exact lt_irrefl 0)

/-- A B entry gives the pairs of its cells. -/
theorem PointerBEntry.flatMap_sorted (b : PointerBEntry) (h : Heap) :
    (b.bunckets h).flatMap UnSortBuncket.sorted = pairs h b.cells := by
  rw [bunckets, List.flatMap_map]
  rfl

theorem PointerBEntry.scan_appends {b : PointerBEntry}
    (heq : b.scan h startKey len results false = .ok (ret, len', results')) :
    results <+: results' := by
  rw [scan, if_neg Bool.false_ne_true] at heq
  split at heq
  · obtain ⟨-, heq⟩ := Prod.mk.inj (Except.ok.inj heq)
    rw [(Prod.mk.inj heq).2]
  · obtain ⟨⟨ret₁, len₁, results₁⟩, hscan, hfrom⟩ := bind_eq_ok heq
    exact (UnSortBuncket.scan_appends hscan).trans (scanFrom_appends hfrom)

theorem Group.scanRest_true (h : Heap) (startKey : UInt64) (entries : List PointerBEntry) (len : ℕ)
    (results : Pairs) :
    scanRest h startKey entries true len results = .ok (true, len, results) := by
  cases entries with
  | nil => rfl
  | cons b entries => rw [scanRest, if_pos rfl]

theorem Group.scanRest_appends (entries : List PointerBEntry) : ∀ (ret : Bool) (len : ℕ)
    (results : Pairs) (z : Bool × ℕ × Pairs),
    scanRest h startKey entries ret len results = .ok z → results <+: z.2.2 := by
  induction entries with
  | nil =>
    intro ret len results z heq
    rw [← Except.ok.inj heq]
  | cons b entries ih =>
    intro ret len results z heq
    rw [scanRest] at heq
    split at heq
    · rw [← Except.ok.inj heq]
    · obtain ⟨⟨ret₁, len₁, results₁⟩, hscan, hrest⟩ := bind_eq_ok heq
      exact (PointerBEntry.scan_appends hscan).trans (ih _ _ _ _ hrest)

theorem Group.scan_appends {g : Group} {z : Bool × ℕ × Pairs}
    (heq : g.scan h startKey len results false = .ok z) : results <+: z.2.2 := by
  rw [scan] at heq
  split at heq
  · cases heq
  · obtain ⟨⟨ret₁, len₁, results₁⟩, hscan, hrest⟩ := bind_eq_ok heq
    exact (PointerBEntry.scan_appends hscan).trans (scanRest_appends _ _ _ _ _ hrest)

theorem scanGroups_appends (groups : List Group) : ∀ (skipping : Bool) (len : ℕ) (results : Pairs)
    (y : ℕ × Pairs), Nali.scanGroups h startKey groups skipping len results = .ok y →
      results <+: y.2 := by
  induction groups with
  | nil =>
    intro skipping len results y heq
    rw [Nali.scanGroups] at heq
    split at heq
    · cases heq
    · rw [← Except.ok.inj heq]
  | cons g groups ih =>
    intro skipping len results y heq
    rw [Nali.scanGroups] at heq
    split at heq
    · exact ih _ _ _ _ heq
    · exact thenOn_appends (fun _ hz => Group.scan_appends hz) (ih false) heq

/-- What follows the B entries of a group follows the last of them. -/
theorem thenOn_scanRest (x : Except Fault (Bool × ℕ × Pairs)) (entries : List PointerBEntry) :
    thenOn (x >>= fun y => Group.scanRest h startKey entries y.1 y.2.1 y.2.2) next =
      thenOn x fun len results =>
        thenOn (Group.scanRest h startKey entries false len results) next := by
  cases x with
  | error e => rfl
  | ok y =>
    obtain ⟨ret, len, results⟩ := y
    cases ret with
    | true =>
      simp only [thenOn, bind, Except.bind, Group.scanRest_true]
      rfl
    | false => rfl

/-- **The B entries that a scan comes to.** -/
theorem nextOk_scanRest {atEnd : Prop} {N : List (List UnSortBuncket)}
    (hnext : NextOk next (pairs h l) (Continues atEnd N)) (entries : List PointerBEntry) :
    (∀ b ∈ entries, b.WF) → Cells h (entries.flatMap PointerBEntry.cells ++ l) →
    (∀ c ∈ entries.flatMap PointerBEntry.cells, startKey < c.entryKey) →
    NextOk (fun len results => thenOn (Group.scanRest h startKey entries false len results) next)
      (pairs h (entries.flatMap PointerBEntry.cells ++ l))
      (Continues atEnd (entries.map (fun b => b.bunckets h) ++ N)) := by
  induction entries with
  | nil => exact fun _ _ _ => hnext
  | cons b entries ih =>
    intro hwf hl hlt
    rw [List.flatMap_cons, List.append_assoc] at hl
    have hb := hwf b (List.mem_cons_self ..)
    have hrest : Cells h (entries.flatMap PointerBEntry.cells ++ l) :=
      hl.congr (List.pairwise_append.mp hl.sorted).2.1 fun c hc => List.mem_append_right _ hc
    have hih := ih (fun x hx => hwf x (List.mem_cons_of_mem _ hx)) hrest fun c hc =>
      hlt c (by rw [List.flatMap_cons]; exact List.mem_append_right _ hc)
    have hstep : ∀ len results,
        thenOn (Group.scanRest h startKey (b :: entries) false len results) next =
          thenOn (b.scan h startKey len results false) fun len results =>
            thenOn (Group.scanRest h startKey entries false len results) next := by
      intro len results
      rw [Group.scanRest, if_neg Bool.false_ne_true]
      exact thenOn_scanRest _ _
    refine ⟨fun len results y heq => ?_, fun len results hlen => ?_⟩
    · exact thenOn_appends (Group.scanRest_appends _ _ _ _) hnext.appends heq
    · rw [hstep]
      obtain ⟨b₀, rest, hbuncks⟩ := hb.exists_bunckets h
      have hpairs : pairs h ((b :: entries).flatMap PointerBEntry.cells ++ l) =
          b₀.sorted ++ (rest.flatMap UnSortBuncket.sorted ++
            pairs h (entries.flatMap PointerBEntry.cells ++ l)) := by
        rw [List.flatMap_cons, List.append_assoc, pairs_append, ← b.flatMap_sorted h, hbuncks,
          List.flatMap_cons, List.append_assoc]
      have hkey : startKey < b.entryKey := by
        obtain ⟨c, hc, hck⟩ := hb.entryKey_mem
        rw [← hck]
        exact hlt c (by rw [List.flatMap_cons]; exact List.mem_append_left _ hc)
      have hasc := hl.ascends_pairs
      rw [← List.append_assoc, ← List.flatMap_cons, hpairs] at hasc
      rw [hpairs, PointerBEntry.entry_iff hb hbuncks (PointerBEntry.findPos_of_lt hkey) hih hlen
        hasc fun x hx => ?_, List.map_cons, hbuncks]
      · rfl
      · rw [← hbuncks] at hx
        obtain ⟨c, hc, rfl⟩ := List.mem_map.mp hx
        exact hl.distinct c (List.mem_append_left _ hc)

/-- A group gives the B entries it has. -/
theorem Group.findEntry_of_lt {g : Group} (hwf : g.WF) (hne : g.entrySpace ≠ [])
    (hsorted : g.cells.Pairwise fun c d => c.entryKey < d.entryKey)
    (hlt : startKey < g.entryKey 0) : g.findEntry startKey = 0 := by
  obtain ⟨i, hub, hfind⟩ := findEntry_spec hne hwf.entry (hsorted.imp le_of_lt) startKey
  have hzero : i = 0 := by
    by_contra hi
    exact absurd (hub.below 0 (Nat.zero_le _) (Nat.pos_of_ne_zero hi)) (not_le_of_gt hlt)
  rw [hfind, hzero]

/-- The groups that are left do not end with empty ones, which the loop of `scan_slow` would
run over. -/
def NoOverrun : List Group → Bool → Prop
  | [], skipping => skipping = false
  | g :: groups, _ => NoOverrun groups (g.nrEntries == 0)

/-- The B entries of the groups. -/
def entriesOf (groups : List Group) : List PointerBEntry := groups.flatMap Group.entrySpace

theorem cells_entriesOf (groups : List Group) :
    (entriesOf groups).flatMap PointerBEntry.cells = groups.flatMap Group.cells := by
  rw [entriesOf, List.flatMap_assoc]
  rfl

/-- **The groups that a scan comes to.** -/
theorem nextOk_scanGroups (groups : List Group) : ∀ skipping : Bool, (∀ g ∈ groups, g.WF) →
    Cells h (groups.flatMap Group.cells) →
    (∀ c ∈ groups.flatMap Group.cells, startKey < c.entryKey) →
    NextOk (Nali.scanGroups h startKey groups skipping) (pairs h (groups.flatMap Group.cells))
      (Continues (NoOverrun groups skipping)
        ((entriesOf groups).map fun b => b.bunckets h)) := by
  induction groups with
  | nil =>
    intro skipping _ _ _
    cases skipping with
    | true =>
      refine ⟨scanGroups_appends [] true, fun _ _ _ => ⟨fun hyields => ?_, fun hend => ?_⟩⟩
      · cases hyields
      · cases hend
    | false =>
      refine ⟨scanGroups_appends [] false, fun len results _ => ⟨fun _ => rfl, fun _ => ?_⟩⟩
      rw [Yields, List.flatMap_nil, pairs, List.flatMap_nil, List.take_nil, List.append_nil]
      rfl
  | cons g groups ih =>
    intro skipping hwf hl hlt
    rw [List.flatMap_cons] at hl hlt
    have hg := hwf g (List.mem_cons_self ..)
    have hrest : Cells h (groups.flatMap Group.cells) :=
      hl.congr (List.pairwise_append.mp hl.sorted).2.1 fun c hc => List.mem_append_right _ hc
    have hih := fun skipping => ih skipping (fun x hx => hwf x (List.mem_cons_of_mem _ hx)) hrest
      fun c hc => hlt c (List.mem_append_right _ hc)
    have hover : NoOverrun (g :: groups) skipping = NoOverrun groups (g.nrEntries == 0) := rfl
    rw [hover, List.flatMap_cons, entriesOf, List.flatMap_cons, ← entriesOf]
    by_cases hempty : g.nrEntries = 0
    · -- it is skipped
      have hnil : g.entrySpace = [] := List.eq_nil_of_length_eq_zero hempty
      have hcells : g.cells = [] := by rw [Group.cells, hnil]; rfl
      have hstep : Nali.scanGroups h startKey (g :: groups) skipping =
          Nali.scanGroups h startKey groups true := by
        funext len results
        rw [Nali.scanGroups, if_pos hempty]
      rw [hstep, hcells, hnil, hempty]
      exact hih true
    · have hne : g.entrySpace ≠ [] := fun hnil => hempty (by rw [Group.nrEntries, hnil]; rfl)
      obtain ⟨b, entries, heq⟩ := List.exists_cons_of_ne_nil hne
      have hsorted := (List.pairwise_append.mp hl.sorted).1
      have hfirst : startKey < g.entryKey 0 := by
        obtain ⟨c, tail, hcells, hkey⟩ := Group.exists_first hg.entry hne
        rw [← hkey]
        exact hlt c (List.mem_append_left _ (hcells ▸ List.mem_cons_self ..))
      have hstep : Nali.scanGroups h startKey (g :: groups) skipping = fun len results =>
          thenOn (Group.scanRest h startKey g.entrySpace false len results)
            (Nali.scanGroups h startKey groups false) := by
        funext len results
        rw [Nali.scanGroups, if_neg hempty, Group.scan, if_neg Bool.false_ne_true,
          Group.findEntry_of_lt hg hne hsorted hfirst, List.drop_zero, heq, Group.scanRest,
          if_neg Bool.false_ne_true]
        rfl
      have hused : (g.nrEntries == 0) = false := beq_eq_false_iff_ne.mpr hempty
      rw [hstep, hused, List.map_append]
      exact nextOk_scanRest (hih false) g.entrySpace hg.entry hl fun c hc =>
        hlt c (List.mem_append_left _ hc)

end Groups

/-! ## Exact scans -/

/-- What an exact scan returns: the `n` least keys from the start key on, or all of them. -/
structure Scanned (M : UInt64 → Option UInt64) (startKey : UInt64) (n : ℕ) (l : Pairs) : Prop where
  /-- in ascending order -/
  ascends : Ascends l
  /-- pairs of the map, from the start key on -/
  sound : ∀ p ∈ l, M p.1 = some p.2 ∧ startKey ≤ p.1
  /-- not more than are wanted -/
  length : l.length ≤ n
  /-- the least ones, as many as are wanted -/
  least : ∀ k v, M k = some v → startKey ≤ k →
    (k, v) ∈ l ∨ l.length = n ∧ ∀ p ∈ l, p.1 < k

namespace Nali

variable {s : Nali} {M : UInt64 → Option UInt64} {startKey : UInt64} {n : ℕ} {l : Pairs}

/-- The pairs from the start key on, in the order of the keys. -/
def pairsFrom (s : Nali) (startKey : UInt64) : Pairs :=
  (pairs s.heap s.cells).filter fun p => startKey ≤ p.1

theorem mem_pairsFrom (hs : s.Holds M) {p : UInt64 × UInt64} :
    p ∈ s.pairsFrom startKey ↔ M p.1 = some p.2 ∧ startKey ≤ p.1 := by
  rw [pairsFrom, List.mem_filter, Cells.mem_pairs, hs.stored, decide_eq_true_iff]

theorem ascends_pairsFrom (hs : s.Holds M) (startKey : UInt64) : Ascends (s.pairsFrom startKey) :=
  hs.inv.cells.ascends_pairs.sublist List.filter_sublist

/-- **An exact scan** returns the first `n` pairs from the start key on. -/
theorem scanned_iff (hs : s.Holds M) :
    Scanned M startKey n l ↔ l = (s.pairsFrom startKey).take n := by
  have hE := ascends_pairsFrom hs startKey
  constructor
  · intro h
    -- the others come after those that are returned
    set rest := (s.pairsFrom startKey).filter fun p => p ∉ l with hrest
    have hmem : ∀ p ∈ rest, M p.1 = some p.2 ∧ startKey ≤ p.1 ∧ p ∉ l := by
      intro p hp
      obtain ⟨hpE, hpl⟩ := List.mem_filter.mp hp
      obtain ⟨hM, hle⟩ := (mem_pairsFrom hs).mp hpE
      exact ⟨hM, hle, of_decide_eq_true hpl⟩
    have hasc : Ascends (l ++ rest) := by
      refine List.pairwise_append.mpr ⟨h.ascends, hE.sublist List.filter_sublist,
        fun p hp q hq => ?_⟩
      obtain ⟨hM, hle, hql⟩ := hmem q hq
      rcases h.least q.1 q.2 hM hle with hin | ⟨-, habove⟩
      · exact absurd hin hql
      · exact habove p hp
    have hsplit : l ++ rest = s.pairsFrom startKey := by
      refine hasc.eq_of_perm hE ((List.perm_ext_iff_of_nodup hasc.nodup hE.nodup).mpr fun p => ?_)
      rw [List.mem_append]
      constructor
      · rintro (hp | hp)
        · exact (mem_pairsFrom hs).mpr (h.sound p hp)
        · exact (List.mem_filter.mp hp).1
      · intro hp
        by_cases hpl : p ∈ l
        · exact .inl hpl
        · exact .inr (List.mem_filter.mpr ⟨hp, decide_eq_true hpl⟩)
    rw [← hsplit]
    cases hcase : rest with
    | nil => rw [List.append_nil, List.take_of_length_le h.length]
    | cons p tail =>
      obtain ⟨hM, hle, hpl⟩ := hmem p (hcase ▸ List.mem_cons_self ..)
      rcases h.least p.1 p.2 hM hle with hin | ⟨hlen, -⟩
      · exact absurd hin hpl
      · rw [List.take_left' hlen]
  · rintro rfl
    refine ⟨hE.sublist (List.take_sublist ..), fun p hp => ?_, ?_, fun k v hM hle => ?_⟩
    · exact (mem_pairsFrom hs).mp (List.mem_of_mem_take hp)
    · rw [List.length_take]
      exact Nat.min_le_left ..
    · have hin : (k, v) ∈ s.pairsFrom startKey := (mem_pairsFrom hs).mpr ⟨hM, hle⟩
      rw [← List.take_append_drop n (s.pairsFrom startKey)] at hin hE
      rcases List.mem_append.mp hin with hin | hin
      · exact .inl hin
      · refine .inr ⟨?_, fun p hp => (List.pairwise_append.mp hE).2.2 p hp _ hin⟩
        have hlt := List.length_pos_of_mem hin
        rw [List.length_drop] at hlt
        rw [List.length_take]
        omega

/-! ## Where a scan starts -/

/-- The group a scan starts in: the one the root model guesses when it is not group 0 and the
start key is not below its `min_key`, else the one `find_group` finds. -/
def scanGroupId (s : Nali) (startKey : UInt64) : Except Fault ℕ := do
  let groupId := s.model.groupId s.nrGroups startKey
  let g ← s.groupAt groupId
  if g.scanFastFail startKey ∧ groupId ≠ 0 then .ok groupId else s.findGroup startKey

/-- A scan from a group on. -/
def scanAt (s : Nali) (startKey : UInt64) (len : ℕ) (results : Pairs) (groupId : ℕ) :
    Except Fault (ℕ × Pairs) := do
  let g ← s.groupAt groupId
  thenOn (g.scan s.heap startKey len results true)
    (scanGroups s.heap startKey (s.groupSpace.drop (groupId + 1)) false)

theorem scanSlow_eq (len : ℕ) (results : Pairs) (fastGroupId : ℕ) :
    s.scanSlow startKey len results fastGroupId =
      ((if fastGroupId ≠ 0 then .ok fastGroupId else s.findGroup startKey) >>=
        s.scanAt startKey len results) := by
  rw [scanSlow]
  split <;> rfl

/-- `Scan` starts in its group. -/
theorem scan_eq (hs : s.Inv) (startKey : UInt64) (len : ℕ) (results : Pairs) :
    ∃ gpre g gpost ret, s.groupSpace = gpre ++ g :: gpost ∧ g.entrySpace ≠ [] ∧
      s.scanGroupId startKey = .ok gpre.length ∧
      s.scan startKey len results =
        (s.scanAt startKey len results gpre.length).map fun y => (ret, y.1, y.2) := by
  have hpos : 0 < s.groupSpace.length := by
    obtain ⟨g, hg, -⟩ := hs.exists_nonempty
    exact List.length_pos_of_mem hg
  have hlt : s.model.groupId s.nrGroups startKey < s.groupSpace.length :=
    RootModel.groupId_lt hpos startKey
  obtain ⟨id, hid⟩ : ∃ id, id = s.model.groupId s.nrGroups startKey := ⟨_, rfl⟩
  rw [← hid] at hlt
  obtain ⟨g, hg⟩ : ∃ g, s.groupSpace[id]? = some g := ⟨_, List.getElem?_eq_getElem hlt⟩
  have hat : s.groupAt id = .ok g := groupIn_eq hg
  obtain ⟨gpre, g', gpost, hloc⟩ := hs.exists_located startKey
  by_cases hfast : g.scanFastFail startKey = true
  · have hne : g.entrySpace ≠ [] := by
      rw [Group.scanFastFail, decide_eq_true_iff, not_or] at hfast
      exact fun hnil => hfast.1 (by rw [Group.nrEntries, hnil]; rfl)
    by_cases hzero : id = 0
    · -- the guess is group 0, which stands for no guess
      rw [hzero] at hid hat
      refine ⟨gpre, g', gpost, true, hloc.eq, hloc.ne, ?_, ?_⟩
      · simp only [scanGroupId, ← hid, hat, bind, Except.bind, ne_eq, not_true, and_false, if_false,
          hloc.find]
      · simp only [scan, scanFast, ← hid, hat, bind, Except.bind, hfast, if_true, scanSlow_eq, ne_eq,
          not_true, if_false, hloc.find]
        cases s.scanAt startKey len results gpre.length <;> rfl
    · have hsplit : s.groupSpace = s.groupSpace.take id ++ g :: s.groupSpace.drop (id + 1) := by
        obtain ⟨hlt', hgid⟩ := List.getElem?_eq_some_iff.mp hg
        rw [← hgid, ← List.drop_eq_getElem_cons hlt, List.take_append_drop]
      have hlen : (s.groupSpace.take id).length = id := by
        rw [List.length_take]
        omega
      refine ⟨_, g, _, true, hsplit, hne, ?_, ?_⟩
      · rw [hlen]
        simp only [scanGroupId, ← hid, hat, bind, Except.bind, hfast, ne_eq, hzero, not_false_iff,
          and_self, if_true]
      · rw [hlen]
        simp only [scan, scanFast, ← hid, hat, bind, Except.bind, hfast, if_true, scanSlow_eq, ne_eq,
          hzero, not_false_iff]
        cases s.scanAt startKey len results id <;> rfl
  · refine ⟨gpre, g', gpost, false, hloc.eq, hloc.ne, ?_, ?_⟩
    · simp only [scanGroupId, ← hid, hat, bind, Except.bind, hfast, Bool.false_eq_true, false_and,
        if_false, hloc.find]
    · simp only [scan, scanFast, ← hid, hat, bind, Except.bind, hfast, Bool.false_eq_true, if_false,
        scanSlow_eq, ne_eq, not_true, hloc.find]
      cases s.scanAt startKey len results gpre.length <;> rfl

/-! ## Which scans are exact -/

/-- The key is the least one stored from the start key on. -/
def IsNext (s : Nali) (startKey k : UInt64) : Prop :=
  startKey ≤ k ∧ ∀ k' v', Stored s.heap s.cells k' v' → startKey ≤ k' → k ≤ k'

/-- The condition for a scan of `n` keys. The first bucket is not empty, and the place in its
sorted pairs that is numbered like the slot of its least key holds the next key after the
start key; and it has enough keys from there on, or the buckets after it hold theirs in the
right slots. -/
def ScanOk (s : Nali) (startKey : UInt64) (n : ℕ) : Prop :=
  n = 0 ∨ ∃ groupId b₀ rest entries first p,
    s.scanGroupId startKey = .ok groupId ∧
    (entriesOf (s.groupSpace.drop groupId)).map (fun b => b.bunckets s.heap) =
      (b₀ :: rest) :: entries ∧
    b₀.getSortedIndex.head? = some first ∧ b₀.sorted[first]? = some p ∧
    s.IsNext startKey p.1 ∧
    (n ≤ b₀.entries - first ∨
      After rest (Continues (NoOverrun (s.groupSpace.drop (groupId + 1)) false) entries)
        (n - (b₀.entries - first)))

/-- **An exact scan**: it terminates, and appends the least keys from the start key on. -/
def ScanExact (s : Nali) (M : UInt64 → Option UInt64) (startKey : UInt64) (n : ℕ)
    (results : Pairs) : Prop :=
  ∃ ret l, s.scan startKey n results = .ok (ret, n - l.length, results ++ l) ∧
    Scanned M startKey n l

/-- The pairs from the start key on begin with the next key. -/
theorem isNext_of_head (hs : s.Holds M) {p : UInt64 × UInt64}
    (hp : (s.pairsFrom startKey).head? = some p) : s.IsNext startKey p.1 := by
  have hasc := ascends_pairsFrom hs startKey
  obtain ⟨rest, hrest⟩ : ∃ rest, s.pairsFrom startKey = p :: rest := by
    cases hcase : s.pairsFrom startKey with
    | nil =>
      rw [hcase] at hp
      cases hp
    | cons q rest =>
      rw [hcase] at hp
      exact ⟨rest, by rw [Option.some.inj hp]⟩
  have hmem : p ∈ s.pairsFrom startKey := hrest ▸ List.mem_cons_self ..
  refine ⟨((mem_pairsFrom hs).mp hmem).2, fun k v hv hle => ?_⟩
  have hin : (k, v) ∈ s.pairsFrom startKey :=
    (mem_pairsFrom hs).mpr ⟨(hs.stored k v).mpr hv, hle⟩
  rw [hrest] at hin hasc
  rcases List.mem_cons.mp hin with heq | hin
  · rw [← heq]
  · exact ((List.pairwise_cons.mp hasc).1 _ hin).le

/-- From the next key on all pairs are from the start key on, and no others are. -/
theorem pairsFrom_eq (hs : s.Holds M) {before after : Pairs} {p : UInt64 × UInt64}
    (hsplit : pairs s.heap s.cells = before ++ p :: after) (hp : s.IsNext startKey p.1) :
    s.pairsFrom startKey = p :: after := by
  have hasc := hs.inv.cells.ascends_pairs
  rw [hsplit] at hasc
  obtain ⟨-, hafter, hcross⟩ := List.pairwise_append.mp hasc
  rw [pairsFrom, hsplit, List.filter_append]
  have hbefore : before.filter (fun q => startKey ≤ q.1) = [] := by
    refine List.filter_eq_nil_iff.mpr fun q hq hle => ?_
    have hstored : Stored s.heap s.cells q.1 q.2 :=
      Cells.mem_pairs.mp (hsplit ▸ List.mem_append_left _ hq)
    exact absurd (hcross q hq p (List.mem_cons_self ..))
      (not_lt_of_ge (hp.2 q.1 q.2 hstored (of_decide_eq_true hle)))
  rw [hbefore, List.nil_append]
  refine List.filter_eq_self.mpr fun q hq => decide_eq_true ?_
  rcases List.mem_cons.mp hq with rfl | hq
  · exact hp.1
  · exact hp.1.trans ((List.pairwise_cons.mp hafter).1 q hq).le

section Start

variable {gpre gpost : List Group} {g : Group} {b : PointerBEntry} {es : List PointerBEntry}
  {b₀ : UnSortBuncket} {rest : List UnSortBuncket} {results : Pairs}
  (heq : s.groupSpace = gpre ++ g :: gpost) (hentries : g.entrySpace = b :: es)

include heq hentries

theorem scanAt_eq : s.scanAt startKey n results gpre.length =
    thenOn (b.scan s.heap startKey n results true) fun len results =>
      thenOn (Group.scanRest s.heap startKey es false len results)
        (scanGroups s.heap startKey gpost false) := by
  have hat : s.groupAt gpre.length = .ok g := by
    refine groupIn_eq ?_
    rw [heq, List.getElem?_append_right le_rfl, Nat.sub_self]
    rfl
  have hdrop : s.groupSpace.drop (gpre.length + 1) = gpost := by
    rw [heq, List.drop_length_add_append]
    rfl
  have hgroup : g.scan s.heap startKey n results true =
      (b.scan s.heap startKey n results true >>= fun y =>
        Group.scanRest s.heap startKey es y.1 y.2.1 y.2.2) := by
    rw [Group.scan, if_pos rfl, List.drop_zero, hentries]
  rw [scanAt, hat, hdrop]
  change thenOn (g.scan s.heap startKey n results true) _ = _
  rw [hgroup]
  exact thenOn_scanRest _ _

theorem path_eq (hb : b.bunckets s.heap = b₀ :: rest) :
    (entriesOf (s.groupSpace.drop gpre.length)).map (fun b => b.bunckets s.heap) =
      (b₀ :: rest) :: (es ++ entriesOf gpost).map fun b => b.bunckets s.heap := by
  rw [heq, List.drop_left, entriesOf, List.flatMap_cons, hentries, List.cons_append, List.map_cons,
    hb]
  rfl

theorem cells_start : s.cells = gpre.flatMap Group.cells ++
    (b.cells ++ (es.flatMap PointerBEntry.cells ++ gpost.flatMap Group.cells)) := by
  rw [cells, heq, List.flatMap_append, List.flatMap_cons, Group.cells, hentries, List.flatMap_cons,
    List.append_assoc]

/-- The pairs of the index, with those of the first bucket of the scan. -/
theorem pairs_start (hb : b.bunckets s.heap = b₀ :: rest) :
    pairs s.heap s.cells = pairs s.heap (gpre.flatMap Group.cells) ++
      (b₀.sorted ++ (rest.flatMap UnSortBuncket.sorted ++
        pairs s.heap (es.flatMap PointerBEntry.cells ++ gpost.flatMap Group.cells))) := by
  rw [cells_start heq hentries, pairs_append, pairs_append _ b.cells, ← b.flatMap_sorted, hb,
    List.flatMap_cons, List.append_assoc]

/-- What is after the first bucket is above the next key. -/
theorem nextOk_start (hs : s.Inv) (hb : b.bunckets s.heap = b₀ :: rest) {p : UInt64 × UInt64}
    (hp : p ∈ b₀.sorted) (hle : startKey ≤ p.1) :
    NextOk (fun len results => thenOn (Group.scanRest s.heap startKey es false len results)
        (scanGroups s.heap startKey gpost false))
      (pairs s.heap (es.flatMap PointerBEntry.cells ++ gpost.flatMap Group.cells))
      (Continues (NoOverrun gpost false)
        ((es ++ entriesOf gpost).map fun b => b.bunckets s.heap)) := by
  have hl := hs.cells
  rw [cells_start heq hentries] at hl
  obtain ⟨-, hcons, -⟩ := List.pairwise_append.mp hl.sorted
  obtain ⟨-, hsorted, hcross⟩ := List.pairwise_append.mp hcons
  have hg : g ∈ s.groupSpace := heq ▸ List.mem_append_right _ (List.mem_cons_self ..)
  have hwf := (hs.wf g hg).entry
  rw [hentries] at hwf
  have hpost : ∀ x ∈ gpost, x.WF := fun x hx =>
    hs.wf x (heq ▸ List.mem_append_right _ (List.mem_cons_of_mem _ hx))
  -- the next key is in the bucket of the first cell
  obtain ⟨c₀, hc₀, hbunk⟩ : ∃ c₀ ∈ b.cells, s.heap.bunckets c₀.pointer = b₀ := by
    have hmem : b₀ ∈ b.bunckets s.heap := hb ▸ List.mem_cons_self ..
    exact List.mem_map.mp hmem
  have habove : ∀ c ∈ es.flatMap PointerBEntry.cells ++ gpost.flatMap Group.cells,
      startKey < c.entryKey := by
    intro c hc
    have hreads : (s.heap.bunckets c₀.pointer).Reads p.1 := by
      rw [hbunk]
      exact (UnSortBuncket.mem_sorted.mp hp).reads
    exact hle.trans_lt (hl.upper c₀ (List.mem_append_right _ (List.mem_append_left _ hc₀)) c
      (List.mem_append_right _ (List.mem_append_right _ hc)) (hcross c₀ hc₀ c hc) p.1 hreads)
  have hrest : Cells s.heap (es.flatMap PointerBEntry.cells ++ gpost.flatMap Group.cells) :=
    hl.congr hsorted fun c hc => List.mem_append_right _ (List.mem_append_right _ hc)
  have hgroups : Cells s.heap (gpost.flatMap Group.cells) :=
    hrest.congr (List.pairwise_append.mp hrest.sorted).2.1 fun c hc => List.mem_append_right _ hc
  rw [List.map_append]
  exact nextOk_scanRest
    (nextOk_scanGroups gpost false hpost hgroups fun c hc => habove c (List.mem_append_right _ hc))
    es (fun x hx => hwf x (List.mem_cons_of_mem _ hx)) hrest fun c hc =>
      habove c (List.mem_append_left _ hc)

/-- **When the scan finds the next key in its place** it returns the right pairs if and only
if the buckets it goes on to hold theirs in the right slots. -/
theorem yields_start_iff (hs : s.Holds M) (hb : b.bunckets s.heap = b₀ :: rest) {first : ℕ}
    (hfirst : b₀.getSortedIndex.head? = some first) {p : UInt64 × UInt64}
    (hp : b₀.sorted[first]? = some p) (hnext : s.IsNext startKey p.1) :
    Yields (s.scanAt startKey n results gpre.length) n results (s.pairsFrom startKey) ↔
      n ≤ b₀.entries - first ∨ After rest (Continues (NoOverrun gpost false)
        ((es ++ entriesOf gpost).map fun b => b.bunckets s.heap)) (n - (b₀.entries - first)) := by
  obtain ⟨hlt, hget⟩ := List.getElem?_eq_some_iff.mp hp
  have hdrop : b₀.sorted.drop first = p :: b₀.sorted.drop (first + 1) := by
    rw [List.drop_eq_getElem_cons hlt, hget]
  set X := rest.flatMap UnSortBuncket.sorted ++
    pairs s.heap (es.flatMap PointerBEntry.cells ++ gpost.flatMap Group.cells) with hX
  have hsplit : pairs s.heap s.cells = (pairs s.heap (gpre.flatMap Group.cells) ++
      b₀.sorted.take first) ++ p :: (b₀.sorted.drop (first + 1) ++ X) := by
    rw [pairs_start heq hentries hb, ← hX, List.append_assoc, ← List.cons_append, ← hdrop,
      ← List.append_assoc (b₀.sorted.take first), List.take_append_drop]
  have hfrom : s.pairsFrom startKey = b₀.sorted.drop first ++ X := by
    rw [pairsFrom_eq hs hsplit hnext, hdrop, List.cons_append]
  have hasc := hs.inv.cells.ascends_pairs
  rw [pairs_start heq hentries hb, ← hX] at hasc
  have hascX := (List.pairwise_append.mp (List.pairwise_append.mp hasc).2.1).2.1
  have hmem : p ∈ b₀.sorted := List.mem_of_getElem? hp
  have hdist : ∀ x ∈ rest, x.Distinct := by
    intro x hx
    have hxb : x ∈ b.bunckets s.heap := hb ▸ List.mem_cons_of_mem _ hx
    obtain ⟨c, hc, rfl⟩ := List.mem_map.mp hxb
    refine hs.inv.cells.distinct c ?_
    rw [cells_start heq hentries]
    exact List.mem_append_right _ (List.mem_append_left _ hc)
  rw [hfrom, scanAt_eq heq hentries, hX]
  exact PointerBEntry.first_iff hb hfirst
    (nextOk_start heq hentries hs.inv hb hmem hnext.1) hascX hdist

/-- A scan that returns something has found a pair in its place. -/
theorem exists_first_of_ok (hn : 0 < n) (hb : b.bunckets s.heap = b₀ :: rest) {y : ℕ × Pairs}
    (hy : s.scanAt startKey n results gpre.length = .ok y) :
    ∃ first p, b₀.getSortedIndex.head? = some first ∧ b₀.sorted[first]? = some p ∧
      results ++ [p] <+: y.2 := by
  rw [scanAt_eq heq hentries] at hy
  obtain ⟨z, hscan, -⟩ := bind_eq_ok hy
  rw [PointerBEntry.scan, if_pos rfl, PointerBEntry.first_of_bunckets hb] at hscan
  obtain ⟨w, hok, -⟩ := bind_eq_ok hscan
  obtain ⟨first, hfirst⟩ : ∃ first, b₀.getSortedIndex.head? = some first := by
    cases hcase : b₀.getSortedIndex with
    | nil =>
      -- `sorted_index_[0]` is not there
      rw [UnSortBuncket.scan, if_pos rfl, hcase] at hok
      simp only [hn.ne', if_false] at hok
      cases hok
    | cons first index => exact ⟨first, rfl⟩
  have hlt : first < b₀.sorted.length := by
    rw [UnSortBuncket.length_sorted]
    exact UnSortBuncket.mem_getSortedIndex.mp (List.mem_of_mem_head? hfirst)
  refine ⟨first, b₀.sorted[first], hfirst, List.getElem?_eq_getElem hlt, ?_⟩
  have happends : results ++ [b₀.sorted[first]] <+: results ++ (b₀.sorted.drop first).take n := by
    rw [List.prefix_append_right_inj, List.drop_eq_getElem_cons hlt]
    obtain ⟨m, rfl⟩ := Nat.exists_eq_succ_of_ne_zero hn.ne'
    exact ⟨_, rfl⟩
  refine happends.trans (thenOn_appends (fun z hz => ?_)
    (fun len r y hy => thenOn_appends (Group.scanRest_appends _ _ _ _) (scanGroups_appends _ _) hy) hy)
  rw [PointerBEntry.scan, if_pos rfl, PointerBEntry.first_of_bunckets hb,
    UnSortBuncket.scan_first hfirst] at hz
  exact PointerBEntry.scanFrom_appends hz

end Start

/-- An exact scan, in terms of the scan from its group on. -/
theorem scanExact_iff_yields (hs : s.Holds M) {results : Pairs} {groupId : ℕ} {ret : Bool}
    (hscan : s.scan startKey n results =
      (s.scanAt startKey n results groupId).map fun y => (ret, y.1, y.2)) :
    s.ScanExact M startKey n results ↔
      Yields (s.scanAt startKey n results groupId) n results (s.pairsFrom startKey) := by
  have hlen : n - ((s.pairsFrom startKey).take n).length = n - (s.pairsFrom startKey).length := by
    rw [List.length_take]
    omega
  constructor
  · rintro ⟨ret', l, hok, hl⟩
    rw [(scanned_iff hs).mp hl, hlen, hscan] at hok
    rw [Yields]
    cases hat : s.scanAt startKey n results groupId with
    | error e =>
      rw [hat] at hok
      cases hok
    | ok y =>
      rw [hat] at hok
      obtain ⟨-, hy⟩ := Prod.mk.inj (Except.ok.inj hok)
      rw [← hy]
  · intro hyields
    refine ⟨ret, _, ?_, (scanned_iff hs).mpr rfl⟩
    rw [hscan, hyields, hlen]
    rfl

/-- **Which range scans are exact.** -/
theorem scanExact_iff_scanOk (hs : s.Holds M) (startKey : UInt64) (n : ℕ) (results : Pairs) :
    s.ScanExact M startKey n results ↔ s.ScanOk startKey n := by
  obtain ⟨gpre, g, gpost, ret, heq, hne, hid, hscan⟩ := scan_eq hs.inv startKey n results
  obtain ⟨b, es, hentries⟩ := List.exists_cons_of_ne_nil hne
  have hwf : b.WF := (hs.inv.wf g (heq ▸ List.mem_append_right _ (List.mem_cons_self ..))).entry b
    (hentries ▸ List.mem_cons_self ..)
  obtain ⟨b₀, rest, hb⟩ := hwf.exists_bunckets s.heap
  have hdrop : s.groupSpace.drop (gpre.length + 1) = gpost := by
    rw [heq, List.drop_length_add_append]
    rfl
  rw [scanExact_iff_yields hs hscan]
  rcases Nat.eq_zero_or_pos n with rfl | hn
  · -- nothing is wanted, and nothing is read
    refine ⟨fun _ => .inl rfl, fun _ => ?_⟩
    rw [Yields, Nat.zero_sub, List.take_zero, List.append_nil, scanAt_eq heq hentries]
    rw [PointerBEntry.scan, if_pos rfl, UnSortBuncket.scan_zero]
    exact PointerBEntry.thenOn_scanFrom_ok b s.heap startKey
  · constructor
    · intro hyields
      obtain ⟨first, p, hfirst, hp, happends⟩ := exists_first_of_ok heq hentries hn hb hyields
      have hhead : (s.pairsFrom startKey).head? = some p := by
        rw [List.prefix_append_right_inj] at happends
        obtain ⟨t, ht⟩ := happends
        cases hcase : s.pairsFrom startKey with
        | nil =>
          rw [hcase, List.take_nil] at ht
          cases ht
        | cons q l =>
          obtain ⟨m, rfl⟩ := Nat.exists_eq_succ_of_ne_zero hn.ne'
          rw [hcase, List.take_succ_cons] at ht
          rw [List.head?_cons, (List.cons.inj ht).1]
      have hnext := isNext_of_head hs hhead
      exact .inr ⟨gpre.length, b₀, rest, _, first, p, hid, path_eq heq hentries hb, hfirst, hp, hnext,
        by rw [hdrop]; exact (yields_start_iff heq hentries hs hb hfirst hp hnext).mp hyields⟩
    · rintro (hzero | ⟨id, b₀', rest', entries, first, p, hid', hpath, hfirst, hp, hnext, hcond⟩)
      · exact absurd hzero hn.ne'
      · obtain rfl := Except.ok.inj (hid.symm.trans hid')
        rw [path_eq heq hentries hb] at hpath
        obtain ⟨hbuncks, rfl⟩ := List.cons.inj hpath
        obtain ⟨rfl, rfl⟩ := List.cons.inj hbuncks
        rw [hdrop] at hcond
        exact (yields_start_iff heq hentries hs hb hfirst hp hnext).mpr hcond

/-- **Range scans of the states that are reached**: by `Put`s of absent keys, `Update`s and
`Delete`s. A scan returns the least keys from the start key on if and only if the buckets hold
their keys in the right slots. -/
theorem exec_scanExact_iff (models : Models) (model : RootModel) (heap : Heap) (minKey : UInt64)
    (ops : List Op) (hops : PutsAbsent (fun _ => none) ops) (rs : List Ret) (s : Nali)
    (hexec : exec (step models) (init models model heap minKey) ops = .ok (rs, s))
    (startKey : UInt64) (n : ℕ) (results : Pairs) :
    s.ScanExact (specRun mapStep (fun _ => none) ops).2 startKey n results ↔
      s.ScanOk startKey n := by
  obtain ⟨s', hexec', hs'⟩ := exec_holds models (holds_init models model heap minKey) ops hops
  obtain ⟨-, rfl⟩ := Prod.mk.inj (Except.ok.inj (hexec.symm.trans hexec'))
  exact scanExact_iff_scanOk hs' startKey n results

/-- Two keys put in ascending order. -/
def ascendingPuts : List Op := [.put 3 30, .put 5 50]

theorem exec_scanExact_iff_ascendingPuts : PutsAbsent (fun _ => none) ascendingPuts ∧
    ∃ rs s, exec (step zeroModels) (init zeroModels (zeroModels.root []) zeroHeap 0) ascendingPuts =
        .ok (rs, s) ∧
      s.ScanExact (specRun mapStep (fun _ => none) ascendingPuts).2 1 2 [] := by
  have hops : PutsAbsent (fun _ => none) ascendingPuts := by
    refine ⟨fun _ _ _ => rfl, ?_, trivial⟩
    rintro k v ⟨⟩
    rfl
  obtain ⟨s, hexec, hs⟩ :=
    exec_holds zeroModels (holds_init zeroModels (zeroModels.root []) zeroHeap 0) ascendingPuts hops
  refine ⟨hops, _, s, hexec, (exec_scanExact_iff _ _ _ _ _ hops _ s hexec 1 2 []).mpr ?_⟩
  have hnext : s.IsNext 1 3 := by
    refine ⟨by decide, fun k v hv _ => ?_⟩
    rw [← hs.stored] at hv
    have hmap : (specRun mapStep (fun _ => none) ascendingPuts).2 =
        Function.update (Function.update (fun _ => none) 3 (some 30)) 5 (some 50) := rfl
    rw [hmap] at hv
    by_cases h5 : k = 5
    · rw [h5]
      decide
    · rw [Function.update_of_ne h5] at hv
      by_cases h3 : k = 3
      · rw [h3]
      · rw [Function.update_of_ne h3] at hv
        cases hv
  obtain ⟨-, rfl⟩ := Prod.mk.inj (Except.ok.inj hexec)
  exact .inr ⟨0, _, _, _, 0, (3, 30), rfl, rfl, rfl, rfl, hnext, .inl (by decide)⟩

/-- The keys 5 and 3 are put in this order. The least key is in slot 1, and a scan from 0 on
leaves it out. -/
theorem scan_leaves_out_least : ∃ rs s,
    exec (step zeroModels) (init zeroModels (zeroModels.root []) zeroHeap 0)
        [.put 5 50, .put 3 30] = .ok (rs, s) ∧
      s.scan 0 2 [] = .ok (true, 1, [(5, 50)]) ∧
      ¬ s.ScanExact (specRun mapStep (fun _ => none) [.put 5 50, .put 3 30]).2 0 2 [] := by
  refine ⟨_, _, rfl, rfl, ?_⟩
  rintro ⟨ret, l, hok, hl⟩
  have hscan : Except.ok (true, 1, [(5, 50)]) = Except.ok (ret, 2 - l.length, [] ++ l) :=
    Eq.trans (by rfl) hok
  obtain ⟨-, hrest⟩ := Prod.mk.inj (Except.ok.inj hscan)
  obtain ⟨-, rfl⟩ := Prod.mk.inj hrest
  rcases hl.least 3 30 rfl (by decide) with hin | ⟨hlen, -⟩
  · exact absurd hin (by decide)
  · cases hlen

end Nali

end NaliStore
