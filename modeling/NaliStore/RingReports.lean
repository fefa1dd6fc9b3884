import NaliStore.RteRing

/-!
# What the ring reports

The calls of `RteRing` with the memory of their caller: the table the objects are taken from
or written to, and the words among which `res_n` may point at one. A call that succeeds has
moved `n` objects when `fixed` is set, and otherwise as many as there is room for or as there
are.

The producers write that number to `*res_n`. The consumers start with `res_n = 0;`, which sets
the pointer and not the word, so that the check before the write at the end always fails.
-/

namespace NaliStore

namespace RteRing

open Runs

variable {α : Type}

/-- The memory of a caller. -/
structure Caller (α : Type) where
  /-- `obj_table` -/
  objTable : ℕ → α
  /-- the words, by address -/
  words : ℕ → UInt32

/-- `if (res_n) *res_n = n;` -/
def Caller.report (c : Caller α) (resN : Option ℕ) (n : UInt32) : Caller α :=
  match resN with
  | none => c
  | some p => { c with words := Function.update c.words p n }

/-- `enqueue`, with what it writes for its caller. -/
def enqueueFrom (r : RteRing α) (c : Caller α) (n : UInt32) (resN : Option ℕ) (fixed : Bool)
    (spurious : ℕ) : Except RingFault (RteRingOpStatus × RteRing α × Caller α) := do
  let (status, accepted, r) ← r.enqueue n c.objTable fixed spurious
  match accepted with
  | none => .ok (status, r, c)
  | some n => .ok (status, r, c.report resN n)

/-- The loop that writes the objects to `obj_table`. -/
def loadInto (objs : UInt32 → α) (consHead mask : UInt32) (objTable : ℕ → α) (n : ℕ) :
    Except RingFault (ℕ → α) :=
  (List.range n).foldlM (fun objTable i =>
    if mask = 0 then .error .divByZero
    else .ok (Function.update objTable i (objs ((consHead + .ofNat i) % mask)))) objTable

/-- `dequeue_sc`, with what it writes for its caller. -/
def dequeueScInto (r : RteRing α) (c : Caller α) (n : UInt32) (_resN : Option ℕ) (fixed : Bool) :
    Except RingFault (RteRingOpStatus × RteRing α × Caller α) :=
  -- `res_n = 0;`
  let resN := none
  match takes r.entries n fixed with
  | none => .ok (.notEnough, r, c)
  | some n => do
    let objTable ← loadInto r.objs r.consHead r.consMask c.objTable n.toNat
    .ok (.ok, { r with consHead := r.consHead + n, consTail := r.consHead + n },
      Caller.report { c with objTable } resN n)

/-- `dequeue_mc`, with what it writes for its caller. -/
def dequeueMcInto (r : RteRing α) (c : Caller α) (n : UInt32) (_resN : Option ℕ) (fixed : Bool)
    (spurious : ℕ) : Except RingFault (RteRingOpStatus × RteRing α × Caller α) :=
  -- `res_n = 0;`
  let resN := none
  match r.reserveCons n fixed spurious with
  | none => .ok (.notEnough, r, c)
  | some (consHead, n) => do
    let objTable ← loadInto r.objs consHead r.consMask c.objTable n.toNat
    let r := { r with consHead := consHead + n }
    -- no other consumer moves the tail
    if r.consTail ≠ consHead then .error .diverges
    else .ok (.ok, { r with consTail := consHead + n }, Caller.report { c with objTable } resN n)

/-- `dequeue`, with what it writes for its caller. -/
def dequeueInto (r : RteRing α) (c : Caller α) (n : UInt32) (resN : Option ℕ) (fixed : Bool)
    (spurious : ℕ) : Except RingFault (RteRingOpStatus × RteRing α × Caller α) :=
  if r.sc then r.dequeueScInto c n resN fixed else r.dequeueMcInto c n resN fixed spurious

/-! ## Calls -/

/-- A call with a `res_n` that is not null. -/
inductive Call where
  /-- `enqueue(n, obj_table, res_n, fixed)` -/
  | enqueue (n : UInt32) (fixed : Bool) (spurious : ℕ)
  /-- `dequeue(n, obj_table, res_n, fixed)` -/
  | dequeue (n : UInt32) (fixed : Bool) (spurious : ℕ)

namespace Call

/-- The call, where `res_n` is `p`. -/
def run (r : RteRing α) (c : Caller α) (p : ℕ) :
    Call → Except RingFault (RteRingOpStatus × RteRing α × Caller α)
  | enqueue n fixed spurious => r.enqueueFrom c n (some p) fixed spurious
  | dequeue n fixed spurious => r.dequeueInto c n (some p) fixed spurious

/-- The number of objects that a call which succeeds is to move. -/
def moves (r : RteRing α) : Call → UInt32
  | enqueue n fixed _ => if fixed then n else min n r.freeEntries
  | dequeue n fixed _ => if fixed then n else min n r.entries

/-- The ring and the table when `m` objects have been moved. -/
def Moved (r r' : RteRing α) (objTable objTable' : ℕ → α) (m : UInt32) : Call → Prop
  | enqueue _ _ _ =>
    r' = { r with
      prodHead := r.prodHead + m
      prodTail := r.prodHead + m
      objs := storeObjs r.objs r.prodHead r.prodMask objTable m.toNat } ∧
    objTable' = objTable
  | dequeue _ _ _ =>
    r' = { r with consHead := r.consHead + m, consTail := r.consHead + m } ∧
    ∀ i, objTable' i =
      if i < m.toNat then r.objs ((r.consHead + .ofNat i) % r.consMask) else objTable i

/-- The call reports what it has done: the number of objects it has moved, or that nothing
has changed. -/
def Reports (r : RteRing α) (c : Caller α) (p : ℕ) (call : Call) : Prop :=
  ∀ status r' c', call.run r c p = .ok (status, r', c') →
    if status = .ok then
      c'.words p = call.moves r ∧ call.Moved r r' c.objTable c'.objTable (c'.words p)
    else r' = r ∧ c'.objTable = c.objTable

/-- A `dequeue` stops before it returns: there is an object to take and the remainder is by
zero, or another consumer has left the tail behind. -/
def Stops (r : RteRing α) (n : UInt32) : Prop :=
  (r.consMask = 0 ∧ min n r.entries ≠ 0) ∨ (r.sc = false ∧ r.consTail ≠ r.consHead)

instance (r : RteRing α) (n : UInt32) : Decidable (Stops r n) := inferInstanceAs (Decidable (_ ∨ _))

/-- The call is one of a producer, or nothing has to be written to `*res_n`: there are too few
objects, the call stops, or the word already holds the number. -/
def Spared (r : RteRing α) (c : Caller α) (p : ℕ) : Call → Prop
  | enqueue _ _ _ => True
  | dequeue n fixed _ =>
    (r.entries < n ∧ (fixed ∨ r.entries = 0)) ∨ Stops r n ∨ c.words p = min n r.entries

end Call

/-! ## The number of objects -/

section Takes

variable {free n m : UInt32} {fixed : Bool}

theorem takes_eq_none_iff : takes free n fixed = none ↔ free < n ∧ (fixed ∨ free = 0) := by
  rw [takes]
  split
  · rename_i hlt
    split
    · rename_i hor
      exact ⟨fun _ => ⟨hlt, hor⟩, fun _ => rfl⟩
    · rename_i hor
      exact ⟨fun h => absurd h (Option.some_ne_none _), fun h => absurd h.2 hor⟩
  · rename_i hle
    exact ⟨fun h => absurd h (Option.some_ne_none _), fun h => absurd h.1 hle⟩

theorem min_of_takes (h : takes free n fixed = some m) : min n free = m := by
  have hmin : min n free = if n ≤ free then n else free := rfl
  rw [takes] at h
  rw [hmin]
  split at h
  · rename_i hlt
    rw [if_neg (UInt32.not_le.mpr hlt)]
    split at h
    · cases h
    · exact Option.some.inj h
  · rename_i hle
    rw [if_pos (UInt32.not_lt.mp hle)]
    exact Option.some.inj h

/-- Either way the number is the one that is asked for, or as many as possible. -/
theorem ite_of_takes (h : takes free n fixed = some m) :
    (if fixed then n else min n free) = m := by
  cases fixed with
  | false => exact min_of_takes h
  | true =>
    rw [takes] at h
    split at h
    · rw [if_pos (.inl rfl)] at h
      cases h
    · exact Option.some.inj h

end Takes

/-! ## Producers -/

/-- An `enqueue` that returns is that of a single producer. -/
theorem eq_enqueueSp {r : RteRing α} {n : UInt32} {objTable : ℕ → α} {fixed : Bool} {spurious : ℕ}
    {res : RteRingOpStatus × Option UInt32 × RteRing α}
    (henq : r.enqueue n objTable fixed spurious = .ok res) : res = r.enqueueSp n objTable fixed := by
  rw [enqueue] at henq
  split at henq
  · exact (Except.ok.inj henq).symm
  · rw [enqueueMp, reserveProd_eq] at henq
    rw [enqueueSp]
    cases htakes : takes r.freeEntries n fixed with
    | none =>
      rw [htakes] at henq
      exact (Except.ok.inj henq).symm
    | some m =>
      rw [htakes] at henq
      simp only [Option.map_some] at henq
      split at henq
      · cases henq
      · exact (Except.ok.inj henq).symm

/-! ## Consumers -/

section Consumers

variable {r : RteRing α} {c : Caller α} {n m : UInt32} {fixed : Bool} {objs : UInt32 → α}
  {head mask : UInt32} {table : ℕ → α}

theorem loadObjs_zero {n : ℕ} (hn : n ≠ 0) : loadObjs objs head 0 n = .error .divByZero := by
  obtain ⟨n, rfl⟩ := Nat.exists_eq_succ_of_ne_zero hn
  rw [loadObjs, List.range_succ_eq_map, List.mapM_cons]
  rfl

theorem loadInto_zero {n : ℕ} (hn : n ≠ 0) : loadInto objs head 0 table n = .error .divByZero := by
  obtain ⟨n, rfl⟩ := Nat.exists_eq_succ_of_ne_zero hn
  rw [loadInto, List.range_succ_eq_map, List.foldlM_cons]
  rfl

theorem loadInto_of_ne (hmask : mask ≠ 0) (n : ℕ) :
    loadInto objs head mask table n =
      .ok fun i => if i < n then objs ((head + .ofNat i) % mask) else table i := by
  induction n with
  | zero => rfl
  | succ n ih =>
    rw [loadInto] at ih ⊢
    rw [List.range_succ, List.foldlM_append, ih, ok_bind, List.foldlM_cons, if_neg hmask, ok_bind,
      List.foldlM_nil]
    refine congrArg Except.ok (funext fun i => ?_)
    rcases Nat.lt_trichotomy i n with hlt | rfl | hgt
    · rw [Function.update_of_ne hlt.ne, if_pos hlt, if_pos (hlt.trans n.lt_succ_self)]
    · rw [Function.update_self, if_pos (Nat.lt_succ_self i)]
    · rw [Function.update_of_ne hgt.ne', if_neg (Nat.not_lt.mpr hgt.le), if_neg (by omega)]

theorem getD_map_range (f : ℕ → α) (n i : ℕ) (a : α) :
    ((List.range n).map f).getD i a = if i < n then f i else a := by
  rw [List.getD_eq_getElem?_getD, List.getElem?_map]
  split
  · rename_i hi
    rw [List.getElem?_range hi]
    rfl
  · rename_i hi
    rw [List.getElem?_eq_none (by rw [List.length_range]; omega)]
    rfl

/-- The loop writes the objects that are handed out to the beginning of the table. -/
theorem loadInto_eq (n : ℕ) :
    loadInto objs head mask table n =
      (loadObjs objs head mask n).map fun objs i => objs.getD i (table i) := by
  rcases eq_or_ne mask 0 with rfl | hmask
  · rcases eq_or_ne n 0 with rfl | hn
    · rfl
    · rw [loadInto_zero hn, loadObjs_zero hn]
      rfl
  · rw [loadInto_of_ne hmask, loadObjs_eq fun h => absurd h hmask]
    simp only [Except.map, getD_map_range]

/-- **`dequeue`** hands out the objects in the table of its caller, and nothing else of the
caller's memory changes, wherever `res_n` points. -/
theorem dequeueInto_eq (resN : Option ℕ) (spurious : ℕ) :
    r.dequeueInto c n resN fixed spurious =
      (r.dequeue n fixed spurious).map fun (status, objs, r') =>
        (status, r', { c with objTable := fun i => objs.getD i (c.objTable i) }) := by
  rw [dequeueInto, dequeue]
  split
  · rw [dequeueScInto, dequeueSc]
    cases takes r.entries n fixed with
    | none => rfl
    | some m =>
      simp only [loadInto_eq]
      cases loadObjs r.objs r.consHead r.consMask m.toNat <;> rfl
  · rw [dequeueMcInto, dequeueMc, reserveCons_eq]
    cases takes r.entries n fixed with
    | none => rfl
    | some m =>
      simp only [Option.map_some, loadInto_eq]
      cases loadObjs r.objs r.consHead r.consMask m.toNat with
      | error e => rfl
      | ok objs =>
        change (if _ then _ else _) = Except.map _ (if _ then _ else _)
        split <;> rfl

theorem dequeue_of_none (htakes : takes r.entries n fixed = none) (spurious : ℕ) :
    r.dequeue n fixed spurious = .ok (.notEnough, [], r) := by
  rw [dequeue]
  split
  · rw [dequeueSc, htakes]
  · rw [dequeueMc, reserveCons_eq, htakes]
    rfl

theorem toNat_ne_zero (htakes : takes r.entries n fixed = some m) (hne : min n r.entries ≠ 0) :
    m.toNat ≠ 0 := by
  rw [min_of_takes htakes] at hne
  exact fun h => hne (UInt32.toNat_inj.mp (h.trans UInt32.toNat_zero.symm))

theorem dequeue_of_stops (htakes : takes r.entries n fixed = some m) (hstops : Call.Stops r n)
    (spurious : ℕ) : ∃ e, r.dequeue n fixed spurious = .error e := by
  rw [dequeue]
  rcases hstops with ⟨hmask, hne⟩ | ⟨hsc, htail⟩
  · have hload : loadObjs r.objs r.consHead 0 m.toNat = .error .divByZero :=
      loadObjs_zero (toNat_ne_zero htakes hne)
    split
    · refine ⟨.divByZero, ?_⟩
      rw [dequeueSc, htakes]
      simp only [hmask, hload]
      rfl
    · refine ⟨.divByZero, ?_⟩
      rw [dequeueMc, reserveCons_eq, htakes]
      simp only [Option.map_some, hmask, hload]
      rfl
  · rw [if_neg (ne_true_of_eq_false hsc), dequeueMc, reserveCons_eq, htakes]
    simp only [Option.map_some]
    cases loadObjs r.objs r.consHead r.consMask m.toNat with
    | error e => exact ⟨e, rfl⟩
    | ok objs => exact ⟨.diverges, if_pos htail⟩

theorem dequeue_of_some (htakes : takes r.entries n fixed = some m) (hgoes : ¬ Call.Stops r n)
    (spurious : ℕ) :
    r.dequeue n fixed spurious =
      .ok (.ok, (List.range m.toNat).map fun i => r.objs ((r.consHead + .ofNat i) % r.consMask),
        { r with consHead := r.consHead + m, consTail := r.consHead + m }) := by
  have hload : loadObjs r.objs r.consHead r.consMask m.toNat = .ok _ :=
    loadObjs_eq fun hmask => by
      by_contra hne
      refine hgoes (.inl ⟨hmask, fun hmin => hne ?_⟩)
      rw [← min_of_takes htakes, hmin]
      rfl
  rw [dequeue]
  split
  · rw [dequeueSc, htakes]
    simp only [hload]
    rfl
  · rename_i hsc
    have htail : r.consTail = r.consHead := by
      by_contra htail
      exact hgoes (.inr ⟨Bool.eq_false_iff.mpr hsc, htail⟩)
    rw [dequeueMc, reserveCons_eq, htakes]
    simp only [Option.map_some, hload]
    exact if_neg (not_not_intro htail)

/-- The objects are handed out and the words of the caller are left as they were. -/
theorem dequeueInto_of_some (htakes : takes r.entries n fixed = some m)
    (hgoes : ¬ Call.Stops r n) (resN : Option ℕ) (spurious : ℕ) :
    r.dequeueInto c n resN fixed spurious =
      .ok (.ok, { r with consHead := r.consHead + m, consTail := r.consHead + m },
        { c with objTable := fun i =>
            if i < m.toNat then r.objs ((r.consHead + .ofNat i) % r.consMask) else c.objTable i }) := by
  rw [dequeueInto_eq, dequeue_of_some htakes hgoes]
  simp only [Except.map, getD_map_range]

end Consumers

/-! ## Reports -/

namespace Call

variable (r : RteRing α) (c : Caller α) (p : ℕ)

/-- A producer reports what it has stored. -/
theorem reports_enqueue (n : UInt32) (fixed : Bool) (spurious : ℕ) :
    (enqueue n fixed spurious).Reports r c p := by
  intro status r' c' hrun
  obtain ⟨res, henq, hret⟩ := bind_eq_ok hrun
  rw [eq_enqueueSp henq, enqueueSp] at hret
  cases htakes : takes r.freeEntries n fixed with
  | none =>
    rw [htakes] at hret
    obtain ⟨rfl, rfl, rfl⟩ : RteRingOpStatus.full = status ∧ r = r' ∧ c = c' := by
      simpa only [Except.ok.injEq, Prod.mk.injEq] using hret
    exact ⟨rfl, rfl⟩
  | some m =>
    rw [htakes] at hret
    simp only [Except.ok.injEq, Prod.mk.injEq] at hret
    obtain ⟨rfl, rfl, rfl⟩ := hret
    have hword : (c.report (some p) m).words p = m := Function.update_self ..
    rw [if_pos rfl, hword]
    exact ⟨(ite_of_takes htakes).symm, rfl, rfl⟩

/-- **A call reports what it has done** exactly when it is one of a producer, or a consumer's
that is turned down or stops, or the word already holds the number. -/
theorem reports_iff_spared (call : Call) : call.Reports r c p ↔ call.Spared r c p := by
  cases call with
  | enqueue n fixed spurious => exact ⟨fun _ => trivial, fun _ => reports_enqueue r c p n fixed spurious⟩
  | dequeue n fixed spurious =>
    cases htakes : takes r.entries n fixed with
    | none =>
      have hspared := takes_eq_none_iff.mp htakes
      refine ⟨fun _ => .inl hspared, fun _ status r' c' hrun => ?_⟩
      rw [run, dequeueInto_eq, dequeue_of_none htakes] at hrun
      cases hrun
      exact ⟨rfl, rfl⟩
    | some m =>
      by_cases hstops : Stops r n
      · refine ⟨fun _ => .inr (.inl hstops), fun _ status r' c' hrun => ?_⟩
        obtain ⟨e, herr⟩ := dequeue_of_stops htakes hstops spurious
        rw [run, dequeueInto_eq, herr] at hrun
        cases hrun
      · -- the call succeeds, and the words of the caller are as before
        have hrun := dequeueInto_of_some (c := c) htakes hstops (some p) spurious
        have hmoves : (dequeue n fixed spurious).moves r = m := ite_of_takes htakes
        have hmin : min n r.entries = m := min_of_takes htakes
        constructor
        · intro hreports
          have hword := (hreports _ _ _ hrun).1
          rw [hmoves] at hword
          exact .inr (.inr (hword.trans hmin.symm))
        · intro hspared status r' c' hrun'
          have hword : c.words p = m := by
            rcases hspared with hnone | hstop | hword
            · rw [takes_eq_none_iff.mpr hnone] at htakes
              cases htakes
            · exact absurd hstop hstops
            · exact hword.trans hmin
          obtain ⟨rfl, rfl, rfl⟩ : RteRingOpStatus.ok = status ∧ _ = r' ∧ _ = c' := by
            simpa only [Except.ok.injEq, Prod.mk.injEq] using hrun.symm.trans hrun'
          rw [if_pos rfl, hword]
          exact ⟨hmoves.symm, rfl, fun i => rfl⟩

/-- Two objects in a ring of four slots: three are asked for and two are handed out, and the
caller's word still holds a seven. -/
theorem dequeued_two_told_seven :
    let r : RteRing ℕ := ⟨true, 3, 2, 2, true, 3, 0, 0, fun i => 10 + i.toNat⟩
    let c : Caller ℕ := ⟨fun _ => 0, fun _ => 7⟩
    (∃ r' c', (dequeue 3 false 0).run r c 0 = .ok (.ok, r', c') ∧ r'.consHead = 2 ∧
      c'.objTable 0 = 10 ∧ c'.objTable 1 = 11 ∧ c'.objTable 2 = 0 ∧ c'.words 0 = 7) ∧
    ¬ (dequeue 3 false 0).Reports r c 0 := by
  intro r c
  have hrun : (dequeue 3 false 0).run r c 0 = .ok _ :=
    dequeueInto_of_some (m := 2) (by decide) (by decide) (some 0) 0
  refine ⟨⟨_, _, hrun, rfl, rfl, rfl, rfl, rfl⟩, fun hreports => ?_⟩
  have hmoves : (dequeue 3 false 0).moves r = 2 := by decide
  have hword := (hreports _ _ _ hrun).1
  rw [hmoves] at hword
  exact absurd hword (by decide)

end Call

end RteRing

end NaliStore
