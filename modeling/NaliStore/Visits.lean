import NaliStore.RangeScan

/-!
# The buckets a scan of a B entry visits

`PointerBEntry::Scan` again, now with the places of the buckets it scans. After the bucket it
starts in, the loop goes to place 1 and stays there: `pos` is not advanced in it, and the
position the second branch has found is a variable of its own. A scan visits every bucket at
most once exactly when the start bucket gives all that is wanted, or is the only one, or is
not the one at place 1 while that one gives the rest (`ScanOnce`). Else the bucket at place 1
is scanned again, and if it is empty it is scanned for ever.
-/

namespace NaliStore

open Routing Runs

namespace PointerBEntry

/-! ## Scanning, with the places -/

/-- `scanLoop`, with the places of the buckets scanned so far. -/
def scanLoopVisits (b : PointerBEntry) (h : Heap) (startKey : UInt64) (pos : ℕ) :
    ℕ → Status → ℕ → Pairs → List ℕ → Except Fault ((Status × ℕ × Pairs) × List ℕ)
  | 0, ret, len, results, visits =>
    if ret = .failed ∧ pos < b.entries then .error .diverges else .ok ((ret, len, results), visits)
  | fuel + 1, ret, len, results, visits =>
    if ret = .failed ∧ pos < b.entries then do
      let (ret, len, results) ←
        (h.bunckets (b.entrys pos).pointer).scan startKey len results false
      scanLoopVisits b h startKey pos fuel ret len results (visits ++ [pos])
    else .ok ((ret, len, results), visits)

/-- `scanFrom`, with the places. -/
def scanFromVisits (b : PointerBEntry) (h : Heap) (startKey : UInt64) (pos : ℕ)
    (visits : List ℕ) : Status × ℕ × Pairs → Except Fault ((Bool × ℕ × Pairs) × List ℕ)
  | (ret, len, results) => do
    let ((ret, len, results), visits) ←
      b.scanLoopVisits h startKey (pos + 1) (len + 1) ret len results visits
    .ok ((ret == .ok, len, results), visits)

/-- `Scan`, with the places of the buckets it has scanned, in order. -/
def scanVisits (b : PointerBEntry) (h : Heap) (startKey : UInt64) (len : ℕ) (results : Pairs)
    (ifFirst : Bool) : Except Fault ((Bool × ℕ × Pairs) × List ℕ) :=
  if ifFirst then do
    let scanned ← (h.bunckets (b.entrys 0).pointer).scan 0 len results ifFirst
    b.scanFromVisits h startKey 0 [0] scanned
  else if b.Rejects (b.findPos startKey) then .ok ((false, len, results), [])
  else do
    let scanned ←
      (h.bunckets (b.entrys (b.findPos startKey)).pointer).scan startKey len results false
    b.scanFromVisits h startKey 0 [b.findPos startKey] scanned

variable {b : PointerBEntry} {h : Heap} {startKey : UInt64} {pos len : ℕ} {ret : Status}
  {results : Pairs} {visits : List ℕ} {ifFirst : Bool}

theorem map_scanLoopVisits : ∀ (fuel : ℕ) (ret : Status) (len : ℕ) (results : Pairs)
    (visits : List ℕ), (b.scanLoopVisits h startKey pos fuel ret len results visits).map Prod.fst =
      b.scanLoop h startKey pos fuel ret len results := by
  intro fuel
  induction fuel with
  | zero =>
    intro ret len results visits
    rw [scanLoopVisits, scanLoop]
    split <;> rfl
  | succ fuel ih =>
    intro ret len results visits
    rw [scanLoopVisits, scanLoop]
    split
    · cases (h.bunckets (b.entrys pos).pointer).scan startKey len results false with
      | error e => rfl
      | ok scanned => exact ih ..
    · rfl

theorem map_scanFromVisits (scanned : Status × ℕ × Pairs) :
    (b.scanFromVisits h startKey pos visits scanned).map Prod.fst =
      b.scanFrom h startKey pos scanned := by
  obtain ⟨ret, len, results⟩ := scanned
  rw [scanFromVisits, scanFrom, ← map_scanLoopVisits _ _ _ _ visits]
  cases b.scanLoopVisits h startKey (pos + 1) (len + 1) ret len results visits with
  | error e => rfl
  | ok x => rfl

/-- The places are only written down. -/
theorem map_scanVisits (b : PointerBEntry) (h : Heap) (startKey : UInt64) (len : ℕ)
    (results : Pairs) (ifFirst : Bool) : (b.scanVisits h startKey len results ifFirst).map Prod.fst =
    b.scan h startKey len results ifFirst := by
  rw [scanVisits, scan]
  split
  · cases (h.bunckets (b.entrys 0).pointer).scan 0 len results ifFirst with
    | error e => rfl
    | ok scanned => exact map_scanFromVisits scanned
  · split
    · rfl
    · cases (h.bunckets (b.entrys (b.findPos startKey)).pointer).scan startKey len results false with
      | error e => rfl
      | ok scanned => exact map_scanFromVisits scanned

/-! ## The loop -/

/-- The scan ends, and visits every place at most once. -/
def VisitsOnce {α : Type} (x : Except Fault (α × List ℕ)) : Prop :=
  ∃ r visits, x = .ok (r, visits) ∧ visits.Nodup

/-- What is left to be scanned after the bucket at `start` can be had from the bucket at
place 1 in one visit. -/
def RestOnce (b : PointerBEntry) (h : Heap) (start len : ℕ) : Prop :=
  len = 0 ∨ b.entries ≤ 1 ∨ start ≠ 1 ∧ len ≤ (h.bunckets (b.entrys 1).pointer).entries

theorem scanLoopVisits_of_not (hnot : ¬ (ret = .failed ∧ pos < b.entries)) (fuel : ℕ) :
    b.scanLoopVisits h startKey pos fuel ret len results visits =
      .ok ((ret, len, results), visits) := by
  cases fuel <;> rw [scanLoopVisits, if_neg hnot]

/-- The loop adds to the places. -/
theorem scanLoopVisits_appends : ∀ (fuel : ℕ) (ret : Status) (len : ℕ) (results : Pairs)
    (visits : List ℕ) {r : Status × ℕ × Pairs} {visits' : List ℕ},
    b.scanLoopVisits h startKey pos fuel ret len results visits = .ok (r, visits') →
      visits <+: visits' := by
  intro fuel
  induction fuel with
  | zero =>
    intro ret len results visits r visits' heq
    rw [scanLoopVisits] at heq
    split at heq
    · cases heq
    · rw [(Prod.mk.inj (Except.ok.inj heq)).2]
  | succ fuel ih =>
    intro ret len results visits r visits' heq
    rw [scanLoopVisits] at heq
    split at heq
    · obtain ⟨⟨ret₁, len₁, results₁⟩, -, hrest⟩ := bind_eq_ok heq
      exact (List.prefix_append ..).trans (ih _ _ _ _ hrest)
    · rw [(Prod.mk.inj (Except.ok.inj heq)).2]

/-- A round of the loop. -/
theorem scanLoopVisits_failed (hpos : pos < b.entries) (fuel : ℕ) :
    b.scanLoopVisits h startKey pos (fuel + 1) .failed len results visits =
      ((h.bunckets (b.entrys pos).pointer).scan startKey len results false >>= fun x =>
        b.scanLoopVisits h startKey pos fuel x.1 x.2.1 x.2.2 (visits ++ [pos])) := by
  rw [scanLoopVisits, if_pos ⟨rfl, hpos⟩]

/-- **The loop after the start bucket.** A second round is a second visit. -/
theorem visitsOnce_scanLoop (startKey : UInt64) (start len : ℕ) (results : Pairs) :
    VisitsOnce (b.scanLoopVisits h startKey 1 (len + 1) (if len > 0 then .failed else .ok) len
      results [start]) ↔ b.RestOnce h start len := by
  set b₁ := h.bunckets (b.entrys 1).pointer with hb₁
  rcases Nat.eq_zero_or_pos len with rfl | hlen
  · rw [if_neg (lt_irrefl 0), scanLoopVisits_of_not (fun hc => by cases hc.1)]
    exact ⟨fun _ => .inl rfl, fun _ => ⟨_, _, rfl, List.nodup_singleton _⟩⟩
  · rw [if_pos hlen]
    rcases Nat.lt_or_ge 1 b.entries with hone | hone
    · have hrest : b.RestOnce h start len ↔ start ≠ 1 ∧ len ≤ b₁.entries := by
        constructor
        · rintro (hc | hc | hc)
          · exact absurd hc hlen.ne'
          · exact absurd hone (Nat.not_lt_of_ge hc)
          · exact hc
        · exact fun hc => .inr (.inr hc)
      rw [hrest, scanLoopVisits_failed hone]
      rcases Nat.lt_or_ge b₁.entries len with hgt | hle
      · -- the bucket does not have enough, and is scanned again
        refine ⟨?_, fun hc => absurd hgt (Nat.not_lt_of_ge hc.2)⟩
        rintro ⟨r, visits, heq, hnodup⟩
        rw [UnSortBuncket.scan_all hgt.le, if_pos (Nat.sub_pos_of_lt hgt)] at heq
        obtain ⟨n, rfl⟩ := Nat.exists_eq_succ_of_ne_zero hlen.ne'
        change b.scanLoopVisits h startKey 1 (n + 1) .failed _ _ _ = _ at heq
        rw [scanLoopVisits_failed hone] at heq
        obtain ⟨x, -, hagain⟩ := bind_eq_ok heq
        have htwice := (scanLoopVisits_appends _ _ _ _ _ hagain).sublist
        exact absurd (hnodup.sublist htwice) (by simp)
      · -- it has enough
        have hscan : ∃ results', b₁.scan startKey len results false = .ok (.ok, 0, results') := by
          rcases hle.lt_or_eq with hlt | heq
          · exact ⟨_, UnSortBuncket.scan_some hlt⟩
          · refine ⟨results ++ b₁.slots, ?_⟩
            rw [UnSortBuncket.scan_all heq.ge, heq, Nat.sub_self, if_neg (lt_irrefl 0)]
        obtain ⟨results', hscan⟩ := hscan
        rw [hscan]
        change VisitsOnce (b.scanLoopVisits h startKey 1 len .ok 0 results' [start, 1]) ↔ _
        rw [scanLoopVisits_of_not fun hc => by cases hc.1]
        constructor
        · rintro ⟨r, visits, heq, hnodup⟩
          rw [← (Prod.mk.inj (Except.ok.inj heq)).2] at hnodup
          refine ⟨?_, hle⟩
          rintro rfl
          exact absurd hnodup (by decide)
        · rintro ⟨hstart, -⟩
          refine ⟨_, _, rfl, ?_⟩
          rw [List.nodup_cons]
          exact ⟨fun hc => hstart (List.mem_singleton.mp hc), List.nodup_singleton _⟩
    · rw [scanLoopVisits_of_not fun hc => absurd hc.2 (Nat.not_lt_of_ge hone)]
      exact ⟨fun _ => .inr (.inl hone), fun _ => ⟨_, _, rfl, List.nodup_singleton _⟩⟩

theorem visitsOnce_scanFrom (b : PointerBEntry) (h : Heap) (startKey : UInt64) (start len : ℕ)
    (results : Pairs) :
    VisitsOnce (b.scanFromVisits h startKey 0 [start]
      (if len > 0 then .failed else .ok, len, results)) ↔ b.RestOnce h start len := by
  rw [← visitsOnce_scanLoop startKey start len results, scanFromVisits]
  cases b.scanLoopVisits h startKey (0 + 1) (len + 1) (if len > 0 then .failed else .ok) len
      results [start] with
  | error e =>
    constructor
    · rintro ⟨_, _, hc, -⟩
      cases hc
    · rintro ⟨_, _, hc, -⟩
      cases hc
  | ok x =>
    constructor
    · rintro ⟨_, visits, heq, hnodup⟩
      obtain ⟨-, rfl⟩ := Prod.mk.inj (Except.ok.inj heq)
      exact ⟨_, _, rfl, hnodup⟩
    · rintro ⟨_, visits, heq, hnodup⟩
      obtain rfl := Except.ok.inj heq
      exact ⟨_, _, rfl, hnodup⟩

/-! ## The B entries that are reached -/

/-- `Put` keeps the shape of a B entry, whatever is in its buckets. -/
theorem WF.putLoop {key value : UInt64} : ∀ (fuel : ℕ) {b b' : PointerBEntry} {h h' : Heap}
    {ret : Status} {hasSplit hasSplit' : Bool}, b.WF →
    putLoop key value fuel b h hasSplit = .ok (ret, hasSplit', b', h') → b'.WF := by
  intro fuel
  induction fuel with
  | zero =>
    intro b b' h h' ret hasSplit hasSplit' hb heq
    cases heq
  | succ fuel ih =>
    intro b b' h h' ret hasSplit hasSplit' hb heq
    rw [PointerBEntry.putLoop] at heq
    simp only at heq
    split at heq
    · rename_i hfull
      exact ih (hb.split (hb.findPos_lt key) hfull.2 h) heq
    · obtain ⟨-, heq⟩ := Prod.mk.inj (Except.ok.inj heq)
      obtain ⟨-, heq⟩ := Prod.mk.inj heq
      rw [← (Prod.mk.inj heq).1]
      split
      · exact hb.setEntryKey key
      · exact hb

theorem wf_init (h : Heap) (key : UInt64) (prefixLen : ℕ) : (init h key prefixLen).1.WF := by
  have hentries : (init h key prefixLen).1.entries = 1 := rfl
  refine ⟨by rw [hentries]; decide, by rw [hentries]; decide, fun i hi => ?_⟩
  rw [hentries] at hi
  obtain rfl : i = 0 := by omega
  exact .inr (.inr Nat.one_ne_zero)

/-- The B entries that are reached: a new one, one that `group::expand` makes of a cell, and
one after a `Put`. `Update` and `Delete` change buckets only, and what the buckets hold at
each call may be anything. -/
inductive Reachable : PointerBEntry → Prop
  /-- a new B entry -/
  | init (h : Heap) (key : UInt64) (prefixLen : ℕ) : Reachable (init h key prefixLen).1
  /-- a B entry with one of the cells of another -/
  | ofEEntry {b : PointerBEntry} {i : ℕ} : Reachable b → i < b.entries →
      Reachable (ofEEntry (b.entrys i))
  /-- after a `Put` -/
  | put {b b' : PointerBEntry} {h h' : Heap} {key value : UInt64} {ret : Status}
      {hasSplit : Bool} : Reachable b → b.put h key value = .ok (ret, hasSplit, b', h') →
      Reachable b'

theorem Reachable.wf (hb : b.Reachable) : b.WF := by
  induction hb with
  | init h key prefixLen => exact wf_init h key prefixLen
  | ofEEntry _ _ _ => exact wf_ofEEntry _
  | put _ hput ih => exact WF.putLoop _ ih hput

/-! ## A B entry with two buckets -/

/-- A B entry and its buckets after `Put`s of the keys, each with itself as its value. -/
def putAll (keys : List UInt64) (b : PointerBEntry) (h : Heap) :
    Except Fault (PointerBEntry × Heap) :=
  keys.foldlM (fun s key => do
    let (_, _, b, h) ← s.1.put s.2 key key
    .ok (b, h)) (b, h)

/-- The buckets of a B entry after `Delete`s of the keys. -/
def deleteAll (keys : List UInt64) (b : PointerBEntry) (h : Heap) : Heap :=
  keys.foldl (fun h key => (b.delete h key).2) h

theorem Reachable.putAll (keys : List UInt64) : ∀ {b b' : PointerBEntry} {h h' : Heap},
    b.Reachable → putAll keys b h = .ok (b', h') → b'.Reachable := by
  induction keys with
  | nil =>
    intro b b' h h' hb heq
    rw [← (Prod.mk.inj (Except.ok.inj heq)).1]
    exact hb
  | cons key keys ih =>
    intro b b' h h' hb heq
    rw [PointerBEntry.putAll, List.foldlM_cons] at heq
    obtain ⟨⟨b₁, h₁⟩, hput, hrest⟩ := bind_eq_ok heq
    obtain ⟨⟨ret, hasSplit, b₂, h₂⟩, hput', hok⟩ := bind_eq_ok hput
    obtain ⟨rfl, rfl⟩ := Prod.mk.inj (Except.ok.inj hok)
    exact ih (.put hb hput') hrest

/-- `Put`s of the keys 0 to 15, of which the last splits the bucket. -/
def putSixteen : Except Fault (PointerBEntry × Heap) :=
  putAll ((List.range 16).map UInt64.ofNat) (init Nali.zeroHeap 0 0).1 (init Nali.zeroHeap 0 0).2

/-- The buckets after `Delete`s of all keys of the second bucket. -/
def deleteNine (b : PointerBEntry) (h : Heap) : Heap :=
  deleteAll ((List.range' 7 9).map UInt64.ofNat) b h

/-- There are two buckets then, with 7 and 9 keys, and the second can be emptied. -/
theorem exists_putSixteen : ∃ b h, putSixteen = .ok (b, h) ∧ b.Reachable ∧ b.entries = 2 ∧
    (h.bunckets (b.entrys 1).pointer).entries = 9 ∧
    ((deleteNine b h).bunckets (b.entrys 0).pointer).getSortedIndex.head? = some 0 ∧
    ((deleteNine b h).bunckets (b.entrys 0).pointer).entries = 7 ∧
    ((deleteNine b h).bunckets (b.entrys 1).pointer).entries = 0 := by
  have hcheck : (match putSixteen with
      | .ok (b, h) => decide (b.entries = 2 ∧ (h.bunckets (b.entrys 1).pointer).entries = 9 ∧
        ((deleteNine b h).bunckets (b.entrys 0).pointer).getSortedIndex.head? = some 0 ∧
        ((deleteNine b h).bunckets (b.entrys 0).pointer).entries = 7 ∧
        ((deleteNine b h).bunckets (b.entrys 1).pointer).entries = 0)
      | .error _ => false) = true := by
    decide +kernel
  cases hput : putSixteen with
  | error e =>
    rw [hput] at hcheck
    cases hcheck
  | ok s =>
    rw [hput] at hcheck
    exact ⟨s.1, s.2, rfl, Reachable.putAll _ (.init ..) hput, of_decide_eq_true hcheck⟩

/-! ## When a scan visits every bucket at most once -/

/-- The condition on a scan: after what the start bucket gives, the rest can be had in one
visit. From the first bucket a scan takes the pairs from the place that is the slot of its
least key, which has to be there. -/
def ScanOnce (b : PointerBEntry) (h : Heap) (startKey : UInt64) (len : ℕ) (ifFirst : Bool) :
    Prop :=
  if ifFirst then
    len = 0 ∨ ∃ first, (h.bunckets (b.entrys 0).pointer).getSortedIndex.head? = some first ∧
      b.RestOnce h 0 (len - ((h.bunckets (b.entrys 0).pointer).entries - first))
  else
    b.RestOnce h (b.findPos startKey)
      (len - (h.bunckets (b.entrys (b.findPos startKey)).pointer).entries)

/-- The start bucket of a scan that is not the first. -/
theorem visitsOnce_scan_other (hb : b.WF) (len : ℕ) (results : Pairs) :
    VisitsOnce (b.scanVisits h startKey len results false) ↔
      b.ScanOnce h startKey len false := by
  rw [scanVisits, if_neg Bool.false_ne_true, if_neg (hb.not_rejects startKey), ScanOnce,
    if_neg Bool.false_ne_true]
  set p := h.bunckets (b.entrys (b.findPos startKey)).pointer with hp
  rcases Nat.lt_or_ge len p.entries with hlt | hge
  · rw [UnSortBuncket.scan_some hlt, Nat.sub_eq_zero_of_le hlt.le]
    exact visitsOnce_scanFrom b h startKey _ 0 _
  · rw [UnSortBuncket.scan_all hge]
    exact visitsOnce_scanFrom b h startKey _ _ _

/-- The start bucket of the first scan. -/
theorem visitsOnce_scan_first (len : ℕ) (results : Pairs) :
    VisitsOnce (b.scanVisits h startKey len results true) ↔ b.ScanOnce h startKey len true := by
  rw [scanVisits, if_pos rfl, ScanOnce, if_pos rfl]
  set p := h.bunckets (b.entrys 0).pointer with hp
  rcases Nat.eq_zero_or_pos len with rfl | hlen
  · rw [UnSortBuncket.scan_zero]
    refine ⟨fun _ => .inl rfl, fun _ => ?_⟩
    exact (visitsOnce_scanFrom b h startKey _ 0 _).mpr (.inl rfl)
  · cases hindex : p.getSortedIndex with
    | nil =>
      -- `sorted_index_[0]` is not there
      rw [UnSortBuncket.scan, if_pos rfl, hindex]
      simp only [if_neg hlen.ne']
      constructor
      · rintro ⟨_, _, hc, -⟩
        cases hc
      · rintro (hc | ⟨first, hc, -⟩)
        · exact absurd hc hlen.ne'
        · cases hc
    | cons first index =>
      have hfirst : p.getSortedIndex.head? = some first := by
        rw [hindex]
        rfl
      rw [UnSortBuncket.scan_first hfirst]
      refine (visitsOnce_scanFrom b h startKey _ _ _).trans ⟨fun hrest => .inr ⟨first, rfl, hrest⟩, ?_⟩
      rintro (hc | ⟨first', hc, hrest⟩)
      · exact absurd hc hlen.ne'
      · obtain rfl := Option.some.inj hc
        exact hrest

/-- **`PointerBEntry::Scan` ends and visits every bucket at most once** if and only if the
bucket at place 1 is not needed a second time: for every B entry that is reached, whatever its
buckets hold, every start key, length and mode. -/
theorem visitsOnce_scan_iff (hb : b.Reachable) (h : Heap) (startKey : UInt64) (len : ℕ)
    (results : Pairs) (ifFirst : Bool) :
    (VisitsOnce (b.scanVisits h startKey len results ifFirst) ↔
      b.ScanOnce h startKey len ifFirst) ∧
    (b.scanVisits h startKey len results ifFirst).map Prod.fst =
      b.scan h startKey len results ifFirst := by
  refine ⟨?_, map_scanVisits ..⟩
  cases ifFirst with
  | true => exact visitsOnce_scan_first len results
  | false => exact visitsOnce_scan_other hb.wf len results

/-- A scan of all 16 keys from the second bucket on, which has 9. -/
theorem visitsOnce_scan_iff_nine : ∃ b h, putSixteen = .ok (b, h) ∧ b.Reachable ∧
    ∀ startKey, b.findPos startKey = 1 →
      VisitsOnce (b.scanVisits h startKey 9 [] false) ∧
      ¬ VisitsOnce (b.scanVisits h startKey 16 [] false) := by
  obtain ⟨b, h, hput, hb, hentries, hnine, -⟩ := exists_putSixteen
  refine ⟨b, h, hput, hb, fun startKey hfind => ⟨?_, fun hc => ?_⟩⟩
  · refine (visitsOnce_scan_iff hb h startKey 9 [] false).1.mpr ?_
    rw [ScanOnce, if_neg Bool.false_ne_true, hfind, hnine]
    exact .inl rfl
  · have hcond := (visitsOnce_scan_iff hb h startKey 16 [] false).1.mp hc
    rw [ScanOnce, if_neg Bool.false_ne_true, hfind, hnine, RestOnce, hentries] at hcond
    rcases hcond with hc | hc | hc
    · exact absurd hc (by decide)
    · exact absurd hc (by decide)
    · exact hc.1 rfl

/-- When the second bucket has been emptied, a scan for more keys than the first one has does
not end, however many rounds the loop makes. -/
theorem scan_emptied_diverges : ∃ b h, putSixteen = .ok (b, h) ∧ b.Reachable ∧
    b.scan (deleteNine b h) 0 8 [] true = .error .diverges ∧
    (∀ fuel len results, 0 < len →
      b.scanLoop (deleteNine b h) 0 1 fuel .failed len results = .error .diverges) ∧
    ¬ VisitsOnce (b.scanVisits (deleteNine b h) 0 8 [] true) := by
  obtain ⟨b, h, hput, hb, hentries, -, hfirst, hseven, hempty⟩ := exists_putSixteen
  have hloop : ∀ fuel len results, 0 < len →
      b.scanLoop (deleteNine b h) 0 1 fuel .failed len results = .error .diverges :=
    fun fuel len results hlen =>
      scanLoop_diverges (by rw [hentries]; decide) hempty hlen fuel
  have hscan : b.scan (deleteNine b h) 0 8 [] true = .error .diverges := by
    rw [scan, if_pos rfl, UnSortBuncket.scan_first hfirst, hseven]
    change b.scanFrom (deleteNine b h) 0 0 (.failed, 1, _) = _
    rw [scanFrom, hloop _ _ _ Nat.one_pos]
    rfl
  refine ⟨b, h, hput, hb, hscan, hloop, ?_⟩
  rintro ⟨r, visits, hc, -⟩
  have hmap := map_scanVisits b (deleteNine b h) 0 8 [] true
  rw [hc, hscan] at hmap
  cases hmap

end PointerBEntry

end NaliStore
