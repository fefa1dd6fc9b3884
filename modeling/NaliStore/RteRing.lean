import Mathlib.Data.Nat.Bits
import Mathlib.Data.List.Infix
import Mathlib.Data.UInt
import NaliStore.Lib.Runs

/-!
# The ring

`RteRing` of `src/include/util/rte_ring.h`, used by one call after the other. Producers and
consumers count the objects they have passed with 32-bit counters that wrap around; the slot
of an object is computed from its number. Producers take the number `& mask`, the consumers
take it `% mask`. For numbers where the two agree the ring is a queue.
-/

namespace NaliStore

open Runs

/-- `RTE_RING_OP_STATUS` -/
inductive RteRingOpStatus where
  | ok
  | full
  | notEnough
  deriving DecidableEq, Repr

/-- What stops a call. -/
inductive RingFault where
  /-- `% 0` -/
  | divByZero
  /-- a loop that does not end -/
  | diverges
  deriving DecidableEq, Repr

/-- `RteRing` -/
structure RteRing (α : Type) where
  /-- `prod.sp_` -/
  sp : Bool
  /-- `prod.mask_` -/
  prodMask : UInt32
  /-- `prod.prod_head_` -/
  prodHead : UInt32
  /-- `prod.prod_tail_` -/
  prodTail : UInt32
  /-- `cons.sc_` -/
  sc : Bool
  /-- `cons.mask_` -/
  consMask : UInt32
  /-- `cons.cons_head_` -/
  consHead : UInt32
  /-- `cons.cons_tail_` -/
  consTail : UInt32
  /-- `objs_` -/
  objs : UInt32 → α

namespace RteRing

variable {α : Type}

/-- The constructor, over memory that holds anything. -/
def create (size : UInt32) (sp sc : Bool) (memory : UInt32 → α) : RteRing α :=
  ⟨sp, size - 1, 0, 0, sc, size - 1, 0, 0, memory⟩

/-! ## Producers -/

/-- `free_entries` -/
def freeEntries (r : RteRing α) : UInt32 := r.prodMask + r.consTail - r.prodHead

/-- The number of objects that are accepted, if the call does not return `RTX_RING_FULL`. -/
def takes (free n : UInt32) (fixed : Bool) : Option UInt32 :=
  if n > free then if fixed ∨ free = 0 then none else some free else some n

/-- The loop that stores the objects. -/
def storeObjs (objs : UInt32 → α) (prodHead mask : UInt32) (objTable : ℕ → α) (n : ℕ) :
    UInt32 → α :=
  (List.range n).foldl
    (fun objs i => Function.update objs ((prodHead + .ofNat i) &&& mask) (objTable i)) objs

/-- `enqueue_sp`: the status and the number of objects accepted, which is written to `*res_n`. -/
def enqueueSp (r : RteRing α) (n : UInt32) (objTable : ℕ → α) (fixed : Bool) :
    RteRingOpStatus × Option UInt32 × RteRing α :=
  match takes r.freeEntries n fixed with
  | none => (.full, none, r)
  | some n =>
    (.ok, some n, { r with
      prodHead := r.prodHead + n
      objs := storeObjs r.objs r.prodHead r.prodMask objTable n.toNat
      prodTail := r.prodHead + n })

/-- The `do` loop of `enqueue_mp`, in which `compare_exchange_weak` fails `spurious` times
for no reason: `prod_head` and the number of objects. -/
def reserveProd (r : RteRing α) (n : UInt32) (fixed : Bool) : ℕ → Option (UInt32 × UInt32)
  | 0 => (takes r.freeEntries n fixed).map fun n => (r.prodHead, n)
  | spurious + 1 =>
    match takes r.freeEntries n fixed with
    | none => none
    | some _ => r.reserveProd n fixed spurious

/-- `enqueue_mp` -/
def enqueueMp (r : RteRing α) (n : UInt32) (objTable : ℕ → α) (fixed : Bool) (spurious : ℕ) :
    Except RingFault (RteRingOpStatus × Option UInt32 × RteRing α) :=
  match r.reserveProd n fixed spurious with
  | none => .ok (.full, none, r)
  | some (prodHead, n) =>
    let r := { r with
      prodHead := prodHead + n
      objs := storeObjs r.objs prodHead r.prodMask objTable n.toNat }
    -- no other producer moves the tail
    if r.prodTail ≠ prodHead then .error .diverges
    else .ok (.ok, some n, { r with prodTail := prodHead + n })

/-- `enqueue` of a table of `n` objects -/
def enqueue (r : RteRing α) (n : UInt32) (objTable : ℕ → α) (fixed : Bool) (spurious : ℕ) :
    Except RingFault (RteRingOpStatus × Option UInt32 × RteRing α) :=
  if r.sp then .ok (r.enqueueSp n objTable fixed) else r.enqueueMp n objTable fixed spurious

/-! ## Consumers -/

/-- `entries` -/
def entries (r : RteRing α) : UInt32 := r.prodTail - r.consHead

/-- The loop that hands out the objects. -/
def loadObjs (objs : UInt32 → α) (consHead mask : UInt32) (n : ℕ) : Except RingFault (List α) :=
  (List.range n).mapM fun i =>
    if mask = 0 then .error .divByZero else .ok (objs ((consHead + .ofNat i) % mask))

/-- `dequeue_sc`: the status and the objects. Nothing is written to `*res_n`, since `res_n`
is set to null. -/
def dequeueSc (r : RteRing α) (n : UInt32) (fixed : Bool) :
    Except RingFault (RteRingOpStatus × List α × RteRing α) :=
  match takes r.entries n fixed with
  | none => .ok (.notEnough, [], r)
  | some n => do
    let objs ← loadObjs r.objs r.consHead r.consMask n.toNat
    .ok (.ok, objs, { r with consHead := r.consHead + n, consTail := r.consHead + n })

/-- The `do` loop of `dequeue_mc`. -/
def reserveCons (r : RteRing α) (n : UInt32) (fixed : Bool) : ℕ → Option (UInt32 × UInt32)
  | 0 => (takes r.entries n fixed).map fun n => (r.consHead, n)
  | spurious + 1 =>
    match takes r.entries n fixed with
    | none => none
    | some _ => r.reserveCons n fixed spurious

/-- `dequeue_mc` -/
def dequeueMc (r : RteRing α) (n : UInt32) (fixed : Bool) (spurious : ℕ) :
    Except RingFault (RteRingOpStatus × List α × RteRing α) :=
  match r.reserveCons n fixed spurious with
  | none => .ok (.notEnough, [], r)
  | some (consHead, n) => do
    let objs ← loadObjs r.objs consHead r.consMask n.toNat
    let r := { r with consHead := consHead + n }
    -- no other consumer moves the tail
    if r.consTail ≠ consHead then .error .diverges
    else .ok (.ok, objs, { r with consTail := consHead + n })

/-- `dequeue` of up to `n` objects -/
def dequeue (r : RteRing α) (n : UInt32) (fixed : Bool) (spurious : ℕ) :
    Except RingFault (RteRingOpStatus × List α × RteRing α) :=
  if r.sc then r.dequeueSc n fixed else r.dequeueMc n fixed spurious

/-! ## Runs -/

/-- A call. -/
inductive Op (α : Type) where
  /-- `enqueue(obj)` -/
  | enqueueOne (obj : α) (spurious : ℕ)
  /-- `enqueue(n, obj_table, res_n, fixed)` -/
  | enqueue (n : UInt32) (objTable : ℕ → α) (fixed : Bool) (spurious : ℕ)
  /-- `dequeue(obj_table)` -/
  | dequeueOne (spurious : ℕ)
  /-- `dequeue(n, obj_table, res_n, fixed)` -/
  | dequeue (n : UInt32) (fixed : Bool) (spurious : ℕ)

/-- A ring, the objects it has accepted and the objects it has returned. -/
structure Traced (α : Type) where
  /-- the ring -/
  ring : RteRing α
  /-- the objects accepted, oldest first -/
  accepted : List α
  /-- the objects returned, oldest first -/
  returned : List α

namespace Traced

/-- A call of `enqueue` and the objects it has accepted. -/
def enqueue (s : Traced α) (n : UInt32) (objTable : ℕ → α) (fixed : Bool) (spurious : ℕ) :
    Except RingFault (Traced α) := do
  let (_, resN, ring) ← s.ring.enqueue n objTable fixed spurious
  let accepted := (resN.map fun n => (List.range n.toNat).map objTable).getD []
  .ok { s with ring, accepted := s.accepted ++ accepted }

/-- A call of `dequeue` and the objects it has returned. -/
def dequeue (s : Traced α) (n : UInt32) (fixed : Bool) (spurious : ℕ) :
    Except RingFault (Traced α) := do
  let (_, objs, ring) ← s.ring.dequeue n fixed spurious
  .ok { s with ring, returned := s.returned ++ objs }

/-- One call. -/
def step (s : Traced α) : Op α → Except RingFault (Traced α)
  | .enqueueOne obj spurious => s.enqueue 1 (fun _ => obj) false spurious
  | .enqueue n objTable fixed spurious => s.enqueue n objTable fixed spurious
  | .dequeueOne spurious => s.dequeue 1 false spurious
  | .dequeue n fixed spurious => s.dequeue n fixed spurious

/-- An empty ring with `2 ^ k` slots. -/
def start (k : Fin 32) (sp sc : Bool) (memory : UInt32 → α) : Traced α :=
  ⟨create (.ofNat (2 ^ k.val)) sp sc memory, [], []⟩

/-- The number of objects in the ring. -/
def stored (s : Traced α) : ℕ := s.accepted.length - s.returned.length

/-- What comes out is what went in, in order, and `RTX_RING_NOT_ENOUGH` is returned only when
there are too few objects. -/
structure Fifo (s : Traced α) : Prop where
  /-- in order -/
  order : s.returned <+: s.accepted
  /-- too few -/
  notEnough : ∀ n fixed spurious objs ring,
    s.ring.dequeue n fixed spurious = .ok (.notEnough, objs, ring) →
      s.stored < if fixed then n.toNat else 1

/-- The slots of the objects that a `dequeue` of `n` objects hands out are the same for
producers and consumers. A `dequeue` that asks for a fixed number and finds fewer hands out
none. -/
def SlotsAgree (r : RteRing α) (n : UInt32) (fixed : Bool) : Prop :=
  (fixed = true → n.toNat ≤ r.entries.toNat) → ∀ i < min n.toNat r.entries.toNat,
    (r.consHead + .ofNat i) % r.consMask = (r.consHead + .ofNat i) &&& r.prodMask

/-- The slots of the objects that a call hands out are the same for producers and
consumers. -/
def InStep (s : Traced α) : Op α → Prop
  | .dequeueOne _ => SlotsAgree s.ring 1 false
  | .dequeue n fixed _ => SlotsAgree s.ring n fixed
  | _ => True

end Traced

/-! ## The invariant -/

section Counters

variable {k : ℕ} (hk : k < 32)

include hk

theorem toNat_mask : (UInt32.ofNat (2 ^ k) - 1).toNat = 2 ^ k - 1 := by
  have hlt : 2 ^ k < 2 ^ 32 := Nat.pow_lt_pow_right (by decide) hk
  have hpos : 0 < 2 ^ k := Nat.two_pow_pos k
  rw [UInt32.toNat_sub_of_le, UInt32.toNat_ofNat_of_lt' hlt, UInt32.toNat_one]
  rw [UInt32.le_iff_toNat_le, UInt32.toNat_ofNat_of_lt' hlt, UInt32.toNat_one]
  exact hpos

/-- The slot of object number `i` for the producers. -/
theorem toNat_slot (i : ℕ) :
    (UInt32.ofNat i &&& (UInt32.ofNat (2 ^ k) - 1)).toNat = i % 2 ^ k := by
  rw [UInt32.toNat_and, toNat_mask hk, UInt32.toNat_ofNat', Nat.and_two_pow_sub_one_eq_mod,
    Nat.mod_mod_of_dvd _ (Nat.pow_dvd_pow 2 hk.le)]

/-- Objects that are in the ring together have different slots. -/
theorem slot_ne {i j : ℕ} (hij : i < j) (hj : j < i + 2 ^ k) :
    UInt32.ofNat i &&& (UInt32.ofNat (2 ^ k) - 1) ≠ UInt32.ofNat j &&& (UInt32.ofNat (2 ^ k) - 1) := by
  intro heq
  have hmod := congrArg UInt32.toNat heq
  rw [toNat_slot hk, toNat_slot hk] at hmod
  obtain ⟨d, rfl⟩ := Nat.exists_eq_add_of_lt hij
  have hdvd : 2 ^ k ∣ d + 1 := (Nat.modEq_iff_dvd' (by omega)).mp hmod |>.trans (by
    rw [Nat.add_assoc, Nat.add_sub_cancel_left])
  exact absurd (Nat.le_of_dvd (Nat.succ_pos d) hdvd) (by omega)

end Counters

section Calls

variable {r : RteRing α} {n m free : UInt32} {fixed : Bool} {objTable : ℕ → α}

theorem takes_le (h : takes free n fixed = some m) :
    m.toNat ≤ free.toNat ∧ m.toNat ≤ n.toNat ∧ (fixed = true → n.toNat ≤ free.toNat) := by
  rw [takes] at h
  split at h
  · rename_i hlt
    split at h
    · cases h
    · rename_i hor
      cases h
      exact ⟨le_rfl, (UInt32.lt_iff_toNat_lt.mp hlt).le, fun hfixed => absurd (.inl hfixed) hor⟩
  · rename_i hle
    cases h
    have hfree : n.toNat ≤ free.toNat :=
      Nat.le_of_not_lt fun hlt => hle (UInt32.lt_iff_toNat_lt.mpr hlt)
    exact ⟨hfree, le_rfl, fun _ => hfree⟩

theorem lt_of_takes_eq_none (h : takes free n fixed = none) :
    free.toNat < if fixed then n.toNat else 1 := by
  rw [takes] at h
  split at h
  · rename_i hlt
    split at h
    · rename_i hor
      cases fixed with
      | true => exact UInt32.lt_iff_toNat_lt.mp hlt
      | false =>
        rcases hor with hfixed | rfl
        · cases hfixed
        · exact Nat.one_pos
    · cases h
  · cases h

theorem reserveProd_eq (spurious : ℕ) :
    r.reserveProd n fixed spurious = (takes r.freeEntries n fixed).map fun n => (r.prodHead, n) := by
  induction spurious with
  | zero => rfl
  | succ spurious ih =>
    rw [reserveProd, ih]
    cases takes r.freeEntries n fixed <;> rfl

/-- One producer after the other is a single producer. -/
theorem enqueue_eq (hidle : r.prodTail = r.prodHead) (spurious : ℕ) :
    r.enqueue n objTable fixed spurious = .ok (r.enqueueSp n objTable fixed) := by
  rw [enqueue]
  split
  · rfl
  · rw [enqueueMp, reserveProd_eq, enqueueSp]
    cases takes r.freeEntries n fixed with
    | none => rfl
    | some m => exact if_neg (not_not_intro hidle)

theorem reserveCons_eq (spurious : ℕ) :
    r.reserveCons n fixed spurious = (takes r.entries n fixed).map fun n => (r.consHead, n) := by
  induction spurious with
  | zero => rfl
  | succ spurious ih =>
    rw [reserveCons, ih]
    cases takes r.entries n fixed <;> rfl

/-- One consumer after the other is a single consumer. -/
theorem dequeue_eq (hidle : r.consTail = r.consHead) (spurious : ℕ) :
    r.dequeue n fixed spurious = r.dequeueSc n fixed := by
  rw [dequeue]
  split
  · rfl
  · rw [dequeueMc, reserveCons_eq, dequeueSc]
    cases takes r.entries n fixed with
    | none => rfl
    | some m =>
      cases hload : loadObjs r.objs r.consHead r.consMask m.toNat with
      | error e => simp only [Option.map_some, bind, Except.bind, hload]
      | ok objs =>
        simp only [Option.map_some, bind, Except.bind, hload]
        exact if_neg (not_not_intro hidle)

/-- The loop stores in the slots of its objects and leaves the others alone. -/
theorem storeObjs_of_ne {objs : UInt32 → α} {head mask x : UInt32} {n : ℕ}
    (hx : ∀ i < n, x ≠ (head + .ofNat i) &&& mask) : storeObjs objs head mask objTable n x = objs x := by
  induction n with
  | zero => rfl
  | succ n ih =>
    rw [storeObjs, List.range_succ, List.foldl_append, List.foldl_cons, List.foldl_nil,
      Function.update_of_ne (hx n n.lt_succ_self)]
    exact ih fun i hi => hx i (hi.trans n.lt_succ_self)

theorem storeObjs_of_lt {objs : UInt32 → α} {head mask : UInt32} {n j : ℕ} (hj : j < n)
    (hne : ∀ i, j < i → i < n → (head + .ofNat j) &&& mask ≠ (head + .ofNat i) &&& mask) :
    storeObjs objs head mask objTable n ((head + .ofNat j) &&& mask) = objTable j := by
  induction n with
  | zero => exact absurd hj (Nat.not_lt_zero j)
  | succ n ih =>
    rw [storeObjs, List.range_succ, List.foldl_append, List.foldl_cons, List.foldl_nil]
    rcases Nat.lt_succ_iff_lt_or_eq.mp hj with hlt | rfl
    · rw [Function.update_of_ne (hne n hlt n.lt_succ_self)]
      exact ih hlt fun i hji hi => hne i hji (hi.trans n.lt_succ_self)
    · exact Function.update_self ..

/-- The objects that are handed out, when none is taken from a ring without slots. -/
theorem loadObjs_eq {objs : UInt32 → α} {head mask : UInt32} {n : ℕ} (hn : mask = 0 → n = 0) :
    loadObjs objs head mask n =
      .ok ((List.range n).map fun i => objs ((head + .ofNat i) % mask)) := by
  rcases eq_or_ne mask 0 with h0 | hne
  · rw [hn h0]
    rfl
  · rw [loadObjs]
    simp only [hne, if_false]
    exact List.mapM_pure

end Calls

namespace Traced

variable {k : ℕ} {s s' : Traced α} {n : UInt32} {fixed : Bool} {objTable : ℕ → α}

/-- The counters count the objects, and the objects in the ring are in their slots. -/
structure Inv (k : ℕ) (s : Traced α) : Prop where
  prodMask : s.ring.prodMask = .ofNat (2 ^ k) - 1
  consMask : s.ring.consMask = .ofNat (2 ^ k) - 1
  prodHead : s.ring.prodHead = .ofNat s.accepted.length
  prodTail : s.ring.prodTail = .ofNat s.accepted.length
  consHead : s.ring.consHead = .ofNat s.returned.length
  consTail : s.ring.consTail = .ofNat s.returned.length
  /-- not more is returned than has been accepted -/
  le : s.returned.length ≤ s.accepted.length
  /-- one slot stays free -/
  lt : s.accepted.length < s.returned.length + 2 ^ k
  /-- the objects in the ring -/
  objs : ∀ i, s.returned.length ≤ i → i < s.accepted.length →
    s.accepted[i]? = some (s.ring.objs (.ofNat i &&& (.ofNat (2 ^ k) - 1)))

theorem inv_start (k : Fin 32) (sp sc : Bool) (memory : UInt32 → α) :
    (start k sp sc memory).Inv k where
  prodMask := rfl
  consMask := rfl
  prodHead := rfl
  prodTail := rfl
  consHead := rfl
  consTail := rfl
  le := le_rfl
  lt := by
    have hpos := Nat.two_pow_pos k.val
    simpa only [start, List.length_nil, Nat.zero_add] using hpos
  objs i _ hi := absurd hi (Nat.not_lt_zero i)

namespace Inv

variable (h : s.Inv k) (hk : k < 32)

include h hk

theorem toNat_freeEntries :
    s.ring.freeEntries.toNat = s.returned.length + 2 ^ k - 1 - s.accepted.length := by
  have hlt : 2 ^ k < 2 ^ 32 := Nat.pow_lt_pow_right (by decide) hk
  have hle := h.le
  have hroom := h.lt
  rw [freeEntries, h.prodMask, h.consTail, h.prodHead, UInt32.toNat_sub, UInt32.toNat_add,
    toNat_mask hk, UInt32.toNat_ofNat', UInt32.toNat_ofNat']
  omega

theorem toNat_entries : s.ring.entries.toNat = s.stored := by
  have hlt : 2 ^ k < 2 ^ 32 := Nat.pow_lt_pow_right (by decide) hk
  have hle := h.le
  have hroom := h.lt
  rw [entries, h.prodTail, h.consHead, UInt32.toNat_sub, UInt32.toNat_ofNat', UInt32.toNat_ofNat',
    stored]
  omega

/-- **`enqueue`** puts the objects behind those in the ring. -/
theorem enqueue (spurious : ℕ) (henq : s.enqueue n objTable fixed spurious = .ok s') :
    s'.Inv k ∧ s'.returned = s.returned ∧ s.accepted <+: s'.accepted := by
  rw [Traced.enqueue, enqueue_eq (h.prodTail.trans h.prodHead.symm), enqueueSp] at henq
  cases htakes : takes s.ring.freeEntries n fixed with
  | none =>
    rw [htakes] at henq
    obtain rfl := Except.ok.inj henq
    refine ⟨⟨h.prodMask, h.consMask, ?_, ?_, h.consHead, h.consTail, ?_, ?_, ?_⟩, rfl, ⟨[], rfl⟩⟩ <;>
      simp only [Option.map_none, Option.getD_none, List.append_nil]
    · exact h.prodHead
    · exact h.prodTail
    · exact h.le
    · exact h.lt
    · exact h.objs
  | some m =>
    rw [htakes] at henq
    obtain rfl := Except.ok.inj henq
    have hm := (takes_le htakes).1
    rw [h.toNat_freeEntries hk] at hm
    have hle := h.le
    have hlt := h.lt
    have hlen : (s.accepted ++ (List.range m.toNat).map objTable).length =
        s.accepted.length + m.toNat := by
      rw [List.length_append, List.length_map, List.length_range]
    have hhead : s.ring.prodHead + m = .ofNat (s.accepted.length + m.toNat) := by
      rw [h.prodHead, UInt32.ofNat_add, UInt32.ofNat_toNat]
    have hslot : ∀ j, (s.ring.prodHead + .ofNat j) &&& s.ring.prodMask =
        .ofNat (s.accepted.length + j) &&& (.ofNat (2 ^ k) - 1) := by
      intro j
      rw [h.prodHead, h.prodMask, ← UInt32.ofNat_add]
    refine ⟨⟨h.prodMask, h.consMask, ?_, ?_, h.consHead, h.consTail, ?_, ?_, fun i hi hi' => ?_⟩, rfl,
      ⟨_, rfl⟩⟩ <;> simp only [Option.map_some, Option.getD_some] at *
    · rw [hlen, hhead]
    · rw [hlen, hhead]
    · omega
    · omega
    · rw [hlen] at hi'
      rcases Nat.lt_or_ge i s.accepted.length with hold | hnew
      · -- the slots of the objects in the ring are not written
        rw [List.getElem?_append_left hold, h.objs i hi hold, storeObjs_of_ne fun j hj => ?_]
        rw [hslot]
        exact slot_ne hk (by omega) (by omega)
      · obtain ⟨j, rfl⟩ := Nat.exists_eq_add_of_le hnew
        have hj : j < m.toNat := by omega
        rw [List.getElem?_append_right hnew, Nat.add_sub_cancel_left, List.getElem?_map,
          List.getElem?_range hj, ← hslot, storeObjs_of_lt hj fun i hji hi => ?_]
        · rfl
        · rw [hslot, hslot]
          exact slot_ne hk (by omega) (by omega)

/-- **`dequeue`** takes the counters on, and returns the oldest objects when the slots
agree. -/
theorem dequeue (spurious : ℕ) (hdeq : s.dequeue n fixed spurious = .ok s') :
    s'.Inv k ∧
      (SlotsAgree s.ring n fixed → s.returned <+: s.accepted → s'.returned <+: s'.accepted) := by
  rw [Traced.dequeue, dequeue_eq (h.consTail.trans h.consHead.symm), dequeueSc] at hdeq
  cases htakes : takes s.ring.entries n fixed with
  | none =>
    rw [htakes] at hdeq
    obtain rfl := Except.ok.inj hdeq
    refine ⟨⟨h.prodMask, h.consMask, h.prodHead, h.prodTail, ?_, ?_, ?_, ?_, ?_⟩, fun _ => ?_⟩ <;>
      simp only [List.append_nil]
    · exact h.consHead
    · exact h.consTail
    · exact h.le
    · exact h.lt
    · exact h.objs
    · exact id
  | some m =>
    obtain ⟨hm, hmn, hfixed⟩ := takes_le htakes
    have hentries := h.toNat_entries hk
    replace hfixed : fixed = true → n.toNat ≤ s.ring.entries.toNat := hfixed
    rw [hentries, stored] at hm
    have hle := h.le
    have hlt := h.lt
    have hload : loadObjs s.ring.objs s.ring.consHead s.ring.consMask m.toNat = .ok _ :=
      loadObjs_eq fun hmask => by
        have hzero := congrArg UInt32.toNat hmask
        rw [h.consMask, toNat_mask hk, UInt32.toNat_zero] at hzero
        omega
    rw [htakes] at hdeq
    simp only [bind, Except.bind, hload] at hdeq
    obtain rfl := Except.ok.inj hdeq
    have hlen : (s.returned ++ (List.range m.toNat).map fun i =>
        s.ring.objs ((s.ring.consHead + .ofNat i) % s.ring.consMask)).length =
          s.returned.length + m.toNat := by
      rw [List.length_append, List.length_map, List.length_range]
    have hhead : s.ring.consHead + m = .ofNat (s.returned.length + m.toNat) := by
      rw [h.consHead, UInt32.ofNat_add, UInt32.ofNat_toNat]
    refine ⟨⟨h.prodMask, h.consMask, h.prodHead, h.prodTail, ?_, ?_, ?_, ?_, fun i hi hi' => ?_⟩,
      fun hagree hprev => ?_⟩ <;> simp only at *
    · rw [hlen, hhead]
    · rw [hlen, hhead]
    · omega
    · omega
    · exact h.objs i (by omega) hi'
    · -- the objects read are the next ones
      have hobjs : ((List.range m.toNat).map fun i =>
          s.ring.objs ((s.ring.consHead + .ofNat i) % s.ring.consMask)) =
            (s.accepted.drop s.returned.length).take m.toNat := by
        refine List.ext_getElem? fun i => ?_
        rw [List.getElem?_map, List.getElem?_take]
        split
        · rename_i hi
          rw [List.getElem?_range hi, Option.map_some, List.getElem?_drop,
            h.objs _ (Nat.le_add_right ..) (by omega), hagree hfixed i (by rw [hentries, stored]; omega),
            h.consHead, h.prodMask, ← UInt32.ofNat_add]
        · rename_i hi
          rw [List.getElem?_eq_none (by rw [List.length_range]; omega)]
          rfl
      rw [hobjs, List.prefix_iff_eq_take.mp hprev, List.length_take, Nat.min_eq_left hle,
        ← List.take_add]
      exact List.take_prefix _ _

/-- One call. -/
theorem step {op : Op α} (hstep : s.step op = .ok s') :
    s'.Inv k ∧ (s.InStep op → s.returned <+: s.accepted → s'.returned <+: s'.accepted) := by
  cases op with
  | enqueueOne obj spurious =>
    obtain ⟨hinv, hreturned, haccepted⟩ := h.enqueue hk spurious hstep
    exact ⟨hinv, fun _ hprev => hreturned ▸ hprev.trans haccepted⟩
  | enqueue n objTable fixed spurious =>
    obtain ⟨hinv, hreturned, haccepted⟩ := h.enqueue hk spurious hstep
    exact ⟨hinv, fun _ hprev => hreturned ▸ hprev.trans haccepted⟩
  | dequeueOne spurious => exact h.dequeue hk spurious hstep
  | dequeue n fixed spurious => exact h.dequeue hk spurious hstep

/-- Too few objects are reported when there are too few. -/
theorem notEnough (spurious : ℕ) {objs : List α} {ring : RteRing α}
    (hdeq : s.ring.dequeue n fixed spurious = .ok (.notEnough, objs, ring)) :
    s.stored < if fixed then n.toNat else 1 := by
  rw [dequeue_eq (h.consTail.trans h.consHead.symm), dequeueSc] at hdeq
  rw [← h.toNat_entries hk]
  cases htakes : takes s.ring.entries n fixed with
  | none => exact lt_of_takes_eq_none htakes
  | some m =>
    rw [htakes] at hdeq
    obtain ⟨objs', -, hdeq⟩ := bind_eq_ok hdeq
    cases hdeq

end Inv

/-- **The ring is a queue** in every run in which the slots agree for every object that is
handed out, for any number of slots and however often the counters wrap around. -/
theorem fifo_of_inStep (k : Fin 32) (sp sc : Bool) (memory : UInt32 → α) (ops : List (Op α))
    (s : Traced α) (hrun : Run Traced.step InStep (start k sp sc memory) ops s) : s.Fifo := by
  have hinv : s.Inv k ∧ s.returned <+: s.accepted := by
    apply hrun.invariant (I := fun s => s.Inv k ∧ s.returned <+: s.accepted)
    · rintro s op s' ⟨hinv, hprev⟩ hin hstep
      obtain ⟨hinv', horder⟩ := hinv.step k.isLt hstep
      exact ⟨hinv', horder hin hprev⟩
    · exact ⟨inv_start k sp sc memory, List.prefix_rfl⟩
  exact ⟨hinv.2, fun n fixed spurious objs ring hdeq => hinv.1.notEnough k.isLt spurious hdeq⟩

/-- Four objects through a ring of four slots. The last call asks for more than there is and
hands out nothing. -/
theorem fifo_of_inStep_four : ∃ s : Traced ℕ,
    Run Traced.step InStep (start 2 true false fun _ => 0)
      [.enqueue 3 (· + 10) true 0, .dequeue 2 false 1, .dequeueOne 0, .enqueueOne 13 0,
        .dequeue 2 true 0] s ∧
    s.accepted = [10, 11, 12, 13] ∧ s.returned = [10, 11, 12] ∧ s.Fifo := by
  obtain ⟨s, hrun, haccepted, hreturned⟩ : ∃ s : Traced ℕ,
      Run Traced.step InStep (start 2 true false fun _ => 0)
        [.enqueue 3 (· + 10) true 0, .dequeue 2 false 1, .dequeueOne 0, .enqueueOne 13 0,
          .dequeue 2 true 0] s ∧
      s.accepted = [10, 11, 12, 13] ∧ s.returned = [10, 11, 12] := by
    refine ⟨_, .cons trivial rfl (.cons ?_ rfl (.cons ?_ rfl (.cons trivial rfl
      (.cons ?_ rfl (.nil _))))), rfl, rfl⟩
    · have hagree : ∀ i < 2, (0 + UInt32.ofNat i) % 3 = (0 + UInt32.ofNat i) &&& 3 := by decide
      exact fun _ => hagree
    · have hagree : ∀ i < 1, (2 + UInt32.ofNat i) % 3 = (2 + UInt32.ofNat i) &&& 3 := by decide
      exact fun _ => hagree
    · -- the slots of the object that is left do not agree, and it is not handed out
      have hmore : ¬ 2 ≤ 1 := by decide
      exact fun hfixed => absurd (hfixed rfl) hmore
  exact ⟨s, hrun, haccepted, hreturned, fifo_of_inStep 2 true false _ _ s hrun⟩

/-- In a ring of two slots the second object is stored in slot `1 & 1` and read from slot
`1 % 1`: the first object comes out twice. -/
theorem first_object_twice : ∃ s : Traced ℕ,
    Run Traced.step (fun _ _ => True) (start 1 false false fun _ => 0)
      [.enqueueOne 10 0, .dequeueOne 0, .enqueueOne 20 0, .dequeueOne 0] s ∧
    s.accepted = [10, 20] ∧ s.returned = [10, 10] ∧ ¬ s.Fifo := by
  have hexec : ([.enqueueOne 10 0, .dequeueOne 0, .enqueueOne 20 0, .dequeueOne 0].foldlM Traced.step
      (start 1 false false fun _ => 0) >>= fun s => .ok (s.accepted, s.returned)) =
        .ok ([10, 20], [10, 10]) := by
    decide +kernel
  obtain ⟨s, hs, hlists⟩ := bind_eq_ok hexec
  obtain ⟨haccepted, hreturned⟩ := Prod.mk.inj (Except.ok.inj hlists)
  refine ⟨s, .of_foldlM hs, haccepted, hreturned, fun hfifo => ?_⟩
  have horder := hfifo.order
  rw [haccepted, hreturned] at horder
  exact absurd horder (by decide)

end Traced

end RteRing

end NaliStore
