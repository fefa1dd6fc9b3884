import NaliStore.Lib.Tickets
import NaliStore.Spsc

/-!
# Any number of producers and consumers

`RteRing` with any number of threads in `enqueue_mp` and in `dequeue_mc`. A step is one load, one store or
one `compare_exchange_weak`, which may also fail for no reason. A producer takes a range of numbers by
moving `prod_head_`, stores its objects, waits until `prod_tail_` is at its first number and moves it
behind its last; the consumers do the same with `cons_head_` and `cons_tail_`. So each of the two sides
is a case of `Tickets`.

The counters wrap around, so an exchange may succeed although the counter has been moved since it was
loaded: by a multiple of `2 ^ 32`. And a call for no object takes an empty range, with which it may move
a tail back. `Fair` excludes both. The consumers take the slot of a number `% mask`, so they are only
given the objects of their numbers where that is the same as `& mask` (`InStep`).

Beside the ring and the threads the state has the counters as numbers that do not wrap around, the
objects that have been taken in, in the order of their numbers, and those that have been handed out.
-/

namespace NaliStore

open Runs
open Spsc (Counters toNat_sub toNat_free ofNat_add_toNat)

/-- Where a producer is in `enqueue_mp`. The last number, where there is one, is that of the objects
taken in before it loaded `prod_head_`, and then before its own. -/
inductive MpPc (α : Type) where
  /-- in no call; what the last one returned -/
  | out (status : Option RteRingOpStatus)
  /-- before the load of `prod.mask_` -/
  | loadMask (maxN : UInt32) (objTable : ℕ → α) (fixed : Bool)
  /-- before the load of `prod.prod_head_` -/
  | loadHead (maxN : UInt32) (objTable : ℕ → α) (fixed : Bool) (mask : UInt32)
  /-- before the load of `cons.cons_tail_` -/
  | loadTail (maxN : UInt32) (objTable : ℕ → α) (fixed : Bool) (mask prodHead : UInt32) (first : ℕ)
  /-- before the exchange -/
  | swap (maxN : UInt32) (objTable : ℕ → α) (fixed : Bool) (mask prodHead n : UInt32) (first : ℕ)
  /-- before the store of an object, or behind the last the load of `prod.prod_tail_` -/
  | storeObj (n : UInt32) (objTable : ℕ → α) (mask prodHead : UInt32) (i : ℕ) (first : ℕ)
  /-- before the store of `prod.prod_tail_` -/
  | storeTail (n prodHead : UInt32) (first : ℕ)

/-- Where a consumer is in `dequeue_mc`. -/
inductive McPc where
  /-- in no call; what the last one returned -/
  | out (status : Option RteRingOpStatus)
  /-- before the load of `cons.mask_` -/
  | loadMask (maxN : UInt32) (fixed : Bool)
  /-- before the load of `cons.cons_head_` -/
  | loadHead (maxN : UInt32) (fixed : Bool) (mask : UInt32)
  /-- before the load of `prod.prod_tail_` -/
  | loadTail (maxN : UInt32) (fixed : Bool) (mask consHead : UInt32) (first : ℕ)
  /-- before the exchange -/
  | swap (maxN : UInt32) (fixed : Bool) (mask consHead n : UInt32) (first : ℕ)
  /-- before the load of an object, or behind the last that of `cons.cons_tail_` -/
  | loadObj (n mask consHead : UInt32) (i : ℕ) (first : ℕ)
  /-- before the store of `cons.cons_tail_` -/
  | storeTail (n consHead : UInt32) (first : ℕ)

/-- The ring and its threads. -/
structure Mpmc (α : Type) where
  /-- the ring -/
  ring : RteRing α
  /-- the producers -/
  prods : ℕ → MpPc α
  /-- the consumers -/
  conss : ℕ → McPc
  /-- `obj_table` of each consumer -/
  objTables : ℕ → ℕ → α
  /-- the counters as numbers that do not wrap around -/
  counts : Counters
  /-- the objects taken in -/
  sent : List α
  /-- the objects handed out -/
  received : List α

/-- What happens next. -/
inductive MpmcOp (α : Type) where
  /-- a producer calls `enqueue_mp(n, obj_table, res_n, fixed)` -/
  | enqueue (t : ℕ) (n : UInt32) (objTable : ℕ → α) (fixed : Bool)
  /-- a producer takes its next step; an exchange may be made to fail -/
  | prod (t : ℕ) (spurious : Bool)
  /-- a consumer calls `dequeue_mc(n, obj_table, res_n, fixed)` -/
  | dequeue (t : ℕ) (n : UInt32) (fixed : Bool)
  /-- a consumer takes its next step -/
  | cons (t : ℕ) (spurious : Bool)

/-- The range of numbers a producer has. -/
def MpPc.span {α : Type} : MpPc α → Option (ℕ × ℕ)
  | .storeObj n _ _ _ _ first => some (first, n.toNat)
  | .storeTail n _ first => some (first, n.toNat)
  | _ => none

/-- The range of numbers a consumer has. -/
def McPc.span : McPc → Option (ℕ × ℕ)
  | .loadObj n _ _ _ first => some (first, n.toNat)
  | .storeTail n _ first => some (first, n.toNat)
  | _ => none

/-- A producer has the objects from a counter on. -/
def MpPc.Has {α : Type} : MpPc α → UInt32 → Prop
  | .storeObj _ _ _ prodHead _ _, counter => prodHead = counter
  | .storeTail _ prodHead _, counter => prodHead = counter
  | _, _ => False

/-- A consumer has the objects from a counter on. -/
def McPc.Has : McPc → UInt32 → Prop
  | .loadObj _ _ consHead _ _, counter => consHead = counter
  | .storeTail _ consHead _, counter => consHead = counter
  | _, _ => False

/-- Before the exchange: the number that the load of `prod_head_` has seen. -/
def MpPc.loaded {α : Type} : MpPc α → Option ℕ
  | .swap _ _ _ _ _ _ first => some first
  | _ => none

/-- Before the exchange: the number that the load of `cons_head_` has seen. -/
def McPc.loaded : McPc → Option ℕ
  | .swap _ _ _ _ _ first => some first
  | _ => none

/-- Before the load of an object: its counter and the mask. -/
def McPc.next : McPc → Option (UInt32 × UInt32)
  | .loadObj n mask consHead i _ => if i < n.toNat then some (consHead + .ofNat i, mask) else none
  | _ => none

namespace Mpmc

variable {α : Type}

/-- A new ring with `2 ^ k` slots. -/
def start (k : Fin 32) (memory : UInt32 → α) (objTables : ℕ → ℕ → α) : Mpmc α :=
  ⟨.create (.ofNat (2 ^ k.val)) false false memory, fun _ => .out none, fun _ => .out none, objTables,
    ⟨0, 0, 0, 0⟩, [], []⟩

/-- A producer goes on. -/
def setProd (s : Mpmc α) (t : ℕ) (pc : MpPc α) : Mpmc α :=
  { s with prods := Function.update s.prods t pc }

/-- A consumer goes on. -/
def setCons (s : Mpmc α) (t : ℕ) (pc : McPc) : Mpmc α :=
  { s with conss := Function.update s.conss t pc }

/-- One step of `enqueue_mp`. -/
def prodStep (s : Mpmc α) (t : ℕ) (spurious : Bool) : Except SpscFault (Mpmc α) :=
  match s.prods t with
  | .out _ => .error .notThere
  | .loadMask maxN objTable fixed => .ok (s.setProd t (.loadHead maxN objTable fixed s.ring.prodMask))
  | .loadHead maxN objTable fixed mask =>
    .ok (s.setProd t (.loadTail maxN objTable fixed mask s.ring.prodHead s.counts.prodHead))
  | .loadTail maxN objTable fixed mask prodHead first =>
    match RteRing.takes (mask + s.ring.consTail - prodHead) maxN fixed with
    -- `return RTX_RING_FULL;`
    | none => .ok (s.setProd t (.out (some .full)))
    | some n => .ok (s.setProd t (.swap maxN objTable fixed mask prodHead n first))
  | .swap maxN objTable fixed mask prodHead n _ =>
    if s.ring.prodHead = prodHead ∧ spurious = false then
      .ok { s.setProd t (.storeObj n objTable mask prodHead 0 s.counts.prodHead) with
        ring := { s.ring with prodHead := prodHead + n }
        counts := { s.counts with prodHead := s.counts.prodHead + n.toNat }
        sent := s.sent ++ (List.range n.toNat).map objTable }
    else .ok (s.setProd t (.loadHead maxN objTable fixed mask))
  | .storeObj n objTable mask prodHead i first =>
    if i < n.toNat then
      .ok { s.setProd t (.storeObj n objTable mask prodHead (i + 1) first) with
        ring := { s.ring with
          objs := Function.update s.ring.objs ((prodHead + .ofNat i) &&& mask) (objTable i) } }
    else if s.ring.prodTail = prodHead then .ok (s.setProd t (.storeTail n prodHead first))
    else .ok s
  | .storeTail n prodHead first =>
    .ok { s.setProd t (.out (some .ok)) with
      ring := { s.ring with prodTail := prodHead + n }
      counts := { s.counts with prodTail := first + n.toNat } }

/-- One step of `dequeue_mc`. -/
def consStep (s : Mpmc α) (t : ℕ) (spurious : Bool) : Except SpscFault (Mpmc α) :=
  match s.conss t with
  | .out _ => .error .notThere
  | .loadMask maxN fixed => .ok (s.setCons t (.loadHead maxN fixed s.ring.consMask))
  | .loadHead maxN fixed mask =>
    .ok (s.setCons t (.loadTail maxN fixed mask s.ring.consHead s.counts.consHead))
  | .loadTail maxN fixed mask consHead first =>
    match RteRing.takes (s.ring.prodTail - consHead) maxN fixed with
    -- `return RTX_RING_NOT_ENOUGH;`
    | none => .ok (s.setCons t (.out (some .notEnough)))
    | some n => .ok (s.setCons t (.swap maxN fixed mask consHead n first))
  | .swap maxN fixed mask consHead n _ =>
    if s.ring.consHead = consHead ∧ spurious = false then
      .ok { s.setCons t (.loadObj n mask consHead 0 s.counts.consHead) with
        ring := { s.ring with consHead := consHead + n }
        counts := { s.counts with consHead := s.counts.consHead + n.toNat } }
    else .ok (s.setCons t (.loadHead maxN fixed mask))
  | .loadObj n mask consHead i first =>
    if i < n.toNat then
      if mask = 0 then .error .divByZero
      else .ok { s.setCons t (.loadObj n mask consHead (i + 1) first) with
        objTables := Function.update s.objTables t (Function.update (s.objTables t) i
          (s.ring.objs ((consHead + .ofNat i) % mask))) }
    else if s.ring.consTail = consHead then .ok (s.setCons t (.storeTail n consHead first))
    else .ok s
  | .storeTail n consHead first =>
    .ok { s.setCons t (.out (some .ok)) with
      ring := { s.ring with consTail := consHead + n }
      counts := { s.counts with consTail := first + n.toNat }
      received := s.received ++ (List.range n.toNat).map (s.objTables t) }

/-- One step of one of the threads. -/
def step (s : Mpmc α) : MpmcOp α → Except SpscFault (Mpmc α)
  | .enqueue t n objTable fixed =>
    match s.prods t with
    | .out _ => .ok (s.setProd t (.loadMask n objTable fixed))
    | _ => .error .notThere
  | .prod t spurious => s.prodStep t spurious
  | .dequeue t n fixed =>
    match s.conss t with
    | .out _ => .ok (s.setCons t (.loadMask n fixed))
    | _ => .error .notThere
  | .cons t spurious => s.consStep t spurious

/-- No call is for no object, and no exchange happens when the counter has gone once around since it
was loaded. -/
def Fair (s : Mpmc α) : MpmcOp α → Prop
  | .enqueue _ n _ _ => n ≠ 0
  | .dequeue _ n _ => n ≠ 0
  | .prod t _ => ∀ first ∈ (s.prods t).loaded, s.counts.prodHead < first + UInt32.size
  | .cons t _ => ∀ first ∈ (s.conss t).loaded, s.counts.consHead < first + UInt32.size

/-- The slot that a consumer loads is the one of the number: `%` and `&` agree. -/
def InStep (s : Mpmc α) : MpmcOp α → Prop
  | .cons t _ => ∀ p ∈ (s.conss t).next, p.1 % p.2 = p.1 &&& p.2
  | _ => True

instance (s : Mpmc α) : ∀ op, Decidable (s.Fair op)
  | .enqueue _ _ _ _ => inferInstanceAs (Decidable (_ ≠ _))
  | .dequeue _ _ _ => inferInstanceAs (Decidable (_ ≠ _))
  | .prod t _ => Option.decidableForallMem (s.prods t).loaded
  | .cons t _ => Option.decidableForallMem (s.conss t).loaded

instance (s : Mpmc α) : ∀ op, Decidable (s.InStep op)
  | .enqueue _ _ _ _ => .isTrue trivial
  | .dequeue _ _ _ => .isTrue trivial
  | .prod _ _ => .isTrue trivial
  | .cons t _ => Option.decidableForallMem (s.conss t).next

/-! ## What the threads know -/

section Knows

variable {k : ℕ} {c c' : Counters}

/-- What a producer knows at each place. -/
def ProdKnows (k : ℕ) (c : Counters) : MpPc α → Prop
  | .out _ => True
  | .loadMask maxN _ _ => maxN ≠ 0
  | .loadHead maxN _ _ mask => maxN ≠ 0 ∧ mask = .ofNat (2 ^ k) - 1
  | .loadTail maxN _ _ mask prodHead first =>
    maxN ≠ 0 ∧ mask = .ofNat (2 ^ k) - 1 ∧ prodHead = .ofNat first ∧ first ≤ c.prodHead
  | .swap maxN _ _ mask prodHead n first =>
    maxN ≠ 0 ∧ mask = .ofNat (2 ^ k) - 1 ∧ prodHead = .ofNat first ∧ first ≤ c.prodHead ∧ n ≠ 0 ∧
      (c.prodHead = first → first + n.toNat < c.consTail + 2 ^ k)
  | .storeObj _ _ mask prodHead _ first => mask = .ofNat (2 ^ k) - 1 ∧ prodHead = .ofNat first
  | .storeTail _ prodHead first => prodHead = .ofNat first ∧ first = c.prodTail

/-- What a consumer knows at each place. -/
def ConsKnows (k : ℕ) (c : Counters) : McPc → Prop
  | .out _ => True
  | .loadMask maxN _ => maxN ≠ 0
  | .loadHead maxN _ mask => maxN ≠ 0 ∧ mask = .ofNat (2 ^ k) - 1
  | .loadTail maxN _ mask consHead first =>
    maxN ≠ 0 ∧ mask = .ofNat (2 ^ k) - 1 ∧ consHead = .ofNat first ∧ first ≤ c.consHead
  | .swap maxN _ mask consHead n first =>
    maxN ≠ 0 ∧ mask = .ofNat (2 ^ k) - 1 ∧ consHead = .ofNat first ∧ first ≤ c.consHead ∧ n ≠ 0 ∧
      (c.consHead = first → first + n.toNat ≤ c.prodTail)
  | .loadObj _ mask consHead _ first => mask = .ofNat (2 ^ k) - 1 ∧ consHead = .ofNat first
  | .storeTail _ consHead first => consHead = .ofNat first ∧ first = c.consTail

/-- What a producer knows stays true while the counters move on, if it is not the one at the tail that
moves. -/
theorem ProdKnows.mono {pc : MpPc α} (h : ProdKnows k c pc) (hhead : c.prodHead ≤ c'.prodHead)
    (hle : c.consTail ≤ c'.consTail)
    (htail : c'.prodTail = c.prodTail ∨ ∀ n, pc.span ≠ some (c.prodTail, n)) : ProdKnows k c' pc := by
  cases pc with
  | loadTail maxN objTable fixed mask prodHead first =>
    obtain ⟨hn, hmask, hcopy, hfirst⟩ := h
    exact ⟨hn, hmask, hcopy, hfirst.trans hhead⟩
  | swap maxN objTable fixed mask prodHead n first =>
    obtain ⟨hmaxN, hmask, hcopy, hfirst, hn, hroom⟩ := h
    refine ⟨hmaxN, hmask, hcopy, hfirst.trans hhead, hn, fun heq => ?_⟩
    have hnow : c.prodHead = first := Nat.le_antisymm (heq ▸ hhead) hfirst
    exact (hroom hnow).trans_le (Nat.add_le_add_right hle _)
  | storeTail n prodHead first =>
    obtain ⟨hcopy, rfl⟩ := h
    rcases htail with htail | htail
    · exact ⟨hcopy, htail.symm⟩
    · exact absurd rfl (htail n.toNat)
  | _ => exact h

/-- What a consumer knows stays true while the counters move on. -/
theorem ConsKnows.mono {pc : McPc} (h : ConsKnows k c pc) (hhead : c.consHead ≤ c'.consHead)
    (hle : c.prodTail ≤ c'.prodTail)
    (htail : c'.consTail = c.consTail ∨ ∀ n, pc.span ≠ some (c.consTail, n)) : ConsKnows k c' pc := by
  cases pc with
  | loadTail maxN fixed mask consHead first =>
    obtain ⟨hn, hmask, hcopy, hfirst⟩ := h
    exact ⟨hn, hmask, hcopy, hfirst.trans hhead⟩
  | swap maxN fixed mask consHead n first =>
    obtain ⟨hmaxN, hmask, hcopy, hfirst, hn, hroom⟩ := h
    refine ⟨hmaxN, hmask, hcopy, hfirst.trans hhead, hn, fun heq => ?_⟩
    have hnow : c.consHead = first := Nat.le_antisymm (heq ▸ hhead) hfirst
    exact (hroom hnow).trans hle
  | storeTail n consHead first =>
    obtain ⟨hcopy, rfl⟩ := h
    rcases htail with htail | htail
    · exact ⟨hcopy, htail.symm⟩
    · exact absurd rfl (htail n.toNat)
  | _ => exact h

end Knows

/-! ## The invariant -/

/-- The counters of the ring are the numbers modulo `2 ^ 32`, the ranges that the threads of a side have
are out between its two counters, and the threads know what they know. -/
structure Inv (k : ℕ) (s : Mpmc α) : Prop where
  prodMask : s.ring.prodMask = .ofNat (2 ^ k) - 1
  consMask : s.ring.consMask = .ofNat (2 ^ k) - 1
  consTail : s.ring.consTail = .ofNat s.counts.consTail
  consHead : s.ring.consHead = .ofNat s.counts.consHead
  prodTail : s.ring.prodTail = .ofNat s.counts.prodTail
  prodHead : s.ring.prodHead = .ofNat s.counts.prodHead
  /-- the consumers' ranges -/
  taken : Tickets.Out (fun t => (s.conss t).span) s.counts.consTail s.counts.consHead
  /-- what is handed out has been stored -/
  head_le_tail : s.counts.consHead ≤ s.counts.prodTail
  /-- the producers' ranges -/
  given : Tickets.Out (fun t => (s.prods t).span) s.counts.prodTail s.counts.prodHead
  /-- one slot stays free -/
  lt : s.counts.prodHead < s.counts.consTail + 2 ^ k
  prods : ∀ t, ProdKnows k s.counts (s.prods t)
  conss : ∀ t, ConsKnows k s.counts (s.conss t)

theorem inv_start (k : Fin 32) (memory : UInt32 → α) (objTables : ℕ → ℕ → α) :
    (start k memory objTables).Inv k where
  prodMask := rfl
  consMask := rfl
  consTail := rfl
  consHead := rfl
  prodTail := rfl
  prodHead := rfl
  taken := Tickets.out_none 0
  head_le_tail := le_rfl
  given := Tickets.out_none 0
  lt := by
    rw [show (start k memory objTables).counts = ⟨0, 0, 0, 0⟩ from rfl, Nat.zero_add]
    exact Nat.two_pow_pos k.val
  prods _ := trivial
  conss _ := trivial

section Steps

variable {k : ℕ} {s s' : Mpmc α} {t : ℕ} {spurious : Bool}

/-- The ranges of a side when one of its threads goes on. -/
theorem span_update {β : Type} (span : β → Option (ℕ × ℕ)) (pcs : ℕ → β) (t : ℕ) (pc : β) (t' : ℕ) :
    span (Function.update pcs t pc t') =
      Function.update (fun t' => span (pcs t')) t (span pc) t' := by
  by_cases htt : t' = t
  · subst htt
    rw [Function.update_self, Function.update_self]
  · rw [Function.update_of_ne htt, Function.update_of_ne htt]

theorem forall_update {β : Type} {P : β → Prop} {pcs : ℕ → β} {pc : β} (hpc : P pc)
    (h : ∀ t', t' ≠ t → P (pcs t')) (t' : ℕ) : P (Function.update pcs t pc t') := by
  by_cases htt : t' = t
  · subst htt
    rw [Function.update_self]
    exact hpc
  · rw [Function.update_of_ne htt]
    exact h t' htt

theorem Inv.consTail_le (h : s.Inv k) : s.counts.consTail ≤ s.counts.prodTail :=
  h.taken.le.trans h.head_le_tail

/-- A producer goes on without a change of the counters. -/
theorem Inv.setProd (h : s.Inv k) {pc : MpPc α} (hpc : ProdKnows k s.counts pc)
    (hspan : pc.span = (s.prods t).span) : (s.setProd t pc).Inv k where
  prodMask := h.prodMask
  consMask := h.consMask
  consTail := h.consTail
  consHead := h.consHead
  prodTail := h.prodTail
  prodHead := h.prodHead
  taken := h.taken
  head_le_tail := h.head_le_tail
  given := h.given.congr fun t' => by
    rw [Mpmc.setProd, span_update MpPc.span, hspan, Function.update_eq_self]
  lt := h.lt
  prods := forall_update hpc fun t' _ => h.prods t'
  conss := h.conss

/-- The same for a consumer. -/
theorem Inv.setCons (h : s.Inv k) {pc : McPc} (hpc : ConsKnows k s.counts pc)
    (hspan : pc.span = (s.conss t).span) : (s.setCons t pc).Inv k where
  prodMask := h.prodMask
  consMask := h.consMask
  consTail := h.consTail
  consHead := h.consHead
  prodTail := h.prodTail
  prodHead := h.prodHead
  taken := h.taken.congr fun t' => by
    rw [Mpmc.setCons, span_update McPc.span, hspan, Function.update_eq_self]
  head_le_tail := h.head_le_tail
  given := h.given
  lt := h.lt
  prods := h.prods
  conss := forall_update hpc fun t' _ => h.conss t'

/-- The contents of the slots do not matter. -/
theorem Inv.withObjs (h : s.Inv k) (objs : UInt32 → α) :
    Inv k { s with ring := { s.ring with objs } } :=
  ⟨h.prodMask, h.consMask, h.consTail, h.consHead, h.prodTail, h.prodHead, h.taken, h.head_le_tail,
    h.given, h.lt, h.prods, h.conss⟩

/-- Two numbers that are less than `2 ^ 32` apart are the same when the counters are. -/
theorem eq_of_ofNat_eq {a b : ℕ} (h : UInt32.ofNat a = .ofNat b) (hab : a ≤ b)
    (hlt : b < a + UInt32.size) : a = b := by
  have hmod := congrArg UInt32.toNat h
  rw [UInt32.toNat_ofNat', UInt32.toNat_ofNat'] at hmod
  rw [UInt32.size] at hlt
  omega

theorem toNat_pos {n : UInt32} (h : n ≠ 0) : 0 < n.toNat :=
  Nat.pos_of_ne_zero fun hz => h (UInt32.toNat_inj.mp hz)

theorem takes_ne_zero {free n m : UInt32} {fixed : Bool} (h : RteRing.takes free n fixed = some m)
    (hn : n ≠ 0) : m ≠ 0 := by
  rw [RteRing.takes] at h
  split at h
  · split at h
    · cases h
    · next hfree =>
      obtain rfl := Option.some.inj h
      exact fun hz => hfree (.inr hz)
  · obtain rfl := Option.some.inj h
    exact hn

/-- **A step of a producer.** -/
theorem Inv.prodStep (h : s.Inv k) (hk : k < 32) (hfair : s.Fair (.prod t spurious))
    (hstep : s.prodStep t spurious = .ok s') : s'.Inv k := by
  have hknows := h.prods t
  rw [Mpmc.prodStep] at hstep
  cases hpc : s.prods t with
  | out status =>
    rw [hpc] at hstep
    cases hstep
  | loadMask maxN objTable fixed =>
    rw [hpc] at hstep hknows
    cases hstep
    exact h.setProd ⟨hknows, h.prodMask⟩ (by rw [hpc]; rfl)
  | loadHead maxN objTable fixed mask =>
    rw [hpc] at hstep hknows
    cases hstep
    exact h.setProd ⟨hknows.1, hknows.2, h.prodHead, le_rfl⟩ (by rw [hpc]; rfl)
  | loadTail maxN objTable fixed mask prodHead first =>
    rw [hpc] at hstep hknows
    obtain ⟨hmaxN, rfl, rfl, hfirst⟩ := hknows
    dsimp only at hstep
    split at hstep
    · cases hstep
      exact h.setProd trivial (by rw [hpc]; rfl)
    · next n htakes =>
      cases hstep
      refine h.setProd ⟨hmaxN, rfl, rfl, hfirst, takes_ne_zero htakes hmaxN, fun heq => ?_⟩
        (by rw [hpc]; rfl)
      -- if the head is still where it was, the room that is counted with is what there is
      have hle := h.consTail_le.trans h.given.le
      have hlt := h.lt
      have hroom := (RteRing.takes_le htakes).1
      rw [h.consTail, ← heq, toNat_free hk hle hlt] at hroom
      omega
  | swap maxN objTable fixed mask prodHead n first =>
    rw [hpc] at hstep hknows
    obtain ⟨hmaxN, rfl, rfl, hfirst, hn, hroom⟩ := hknows
    dsimp only at hstep
    split at hstep
    · next hswap =>
      cases hstep
      have heq : first = s.counts.prodHead :=
        eq_of_ofNat_eq (hswap.1.symm.trans h.prodHead) hfirst
          (hfair first (by rw [hpc]; rfl))
      have hnone : (s.prods t).span = none := by rw [hpc]; rfl
      have htake := h.given.take (t := t) hnone (toNat_pos hn)
      have hlt := hroom heq.symm
      refine ⟨h.prodMask, h.consMask, h.consTail, h.consHead, h.prodTail, ?_, h.taken, h.head_le_tail,
        ?_, ?_, ?_, fun t' => ?_⟩
      · rw [ofNat_add_toNat, heq]
      · refine htake.congr fun t' => ?_
        exact span_update MpPc.span s.prods t _ t'
      · rw [← heq]
        exact hlt
      · refine forall_update ⟨rfl, by rw [heq]⟩ fun t' hne => ?_
        exact (h.prods t').mono (Nat.le_add_right _ _) le_rfl (.inl rfl)
      · exact (h.conss t').mono le_rfl le_rfl (.inl rfl)
    · cases hstep
      exact h.setProd ⟨hmaxN, rfl⟩ (by rw [hpc]; rfl)
  | storeObj n objTable mask prodHead i first =>
    rw [hpc] at hstep hknows
    obtain ⟨rfl, rfl⟩ := hknows
    dsimp only at hstep
    split at hstep
    · cases hstep
      have hknow : ProdKnows k s.counts
          (MpPc.storeObj n objTable (.ofNat (2 ^ k) - 1) (.ofNat first) (i + 1) first) :=
        ⟨rfl, rfl⟩
      exact (h.setProd hknow (by rw [hpc]; rfl)).withObjs _
    · split at hstep
      · next htail =>
        cases hstep
        have hspan : (s.prods t).span = some (first, n.toNat) := by rw [hpc]; rfl
        have hle := h.given.tail_le t first n.toNat hspan
        have hle' := h.given.le_head t first n.toNat hspan
        have hlt := h.lt
        have htails := h.consTail_le
        have hpow : 2 ^ k < 2 ^ 32 := Nat.pow_lt_pow_right (by decide) hk
        have heq : s.counts.prodTail = first :=
          eq_of_ofNat_eq (h.prodTail.symm.trans htail) hle (by rw [UInt32.size]; omega)
        exact h.setProd ⟨rfl, heq.symm⟩ (by rw [hpc]; rfl)
      · cases hstep
        exact h
  | storeTail n prodHead first =>
    rw [hpc] at hstep hknows
    obtain ⟨rfl, rfl⟩ := hknows
    cases hstep
    have hspan : (s.prods t).span = some (s.counts.prodTail, n.toNat) := by rw [hpc]; rfl
    have hgive := h.given.give (t := t) hspan
    refine ⟨h.prodMask, h.consMask, h.consTail, h.consHead, ?_, h.prodHead, h.taken,
      h.head_le_tail.trans (Nat.le_add_right _ _), ?_, h.lt, ?_, fun t' => ?_⟩
    · exact ofNat_add_toNat ..
    · refine hgive.congr fun t' => ?_
      exact span_update MpPc.span s.prods t _ t'
    · refine forall_update trivial fun t' hne => ?_
      refine (h.prods t').mono le_rfl le_rfl (.inr fun n' hspan' => hne ?_)
      exact h.given.first_unique hspan' hspan
    · exact (h.conss t').mono le_rfl (Nat.le_add_right _ _) (.inl rfl)

/-- **A step of a consumer.** -/
theorem Inv.consStep (h : s.Inv k) (hk : k < 32) (hfair : s.Fair (.cons t spurious))
    (hstep : s.consStep t spurious = .ok s') : s'.Inv k := by
  have hknows := h.conss t
  have hpow : 2 ^ k < 2 ^ 32 := Nat.pow_lt_pow_right (by decide) hk
  rw [Mpmc.consStep] at hstep
  cases hpc : s.conss t with
  | out status =>
    rw [hpc] at hstep
    cases hstep
  | loadMask maxN fixed =>
    rw [hpc] at hstep hknows
    cases hstep
    exact h.setCons ⟨hknows, h.consMask⟩ (by rw [hpc]; rfl)
  | loadHead maxN fixed mask =>
    rw [hpc] at hstep hknows
    cases hstep
    exact h.setCons ⟨hknows.1, hknows.2, h.consHead, le_rfl⟩ (by rw [hpc]; rfl)
  | loadTail maxN fixed mask consHead first =>
    rw [hpc] at hstep hknows
    obtain ⟨hmaxN, rfl, rfl, hfirst⟩ := hknows
    dsimp only at hstep
    split at hstep
    · cases hstep
      exact h.setCons trivial (by rw [hpc]; rfl)
    · next n htakes =>
      cases hstep
      refine h.setCons ⟨hmaxN, rfl, rfl, hfirst, takes_ne_zero htakes hmaxN, fun heq => ?_⟩
        (by rw [hpc]; rfl)
      -- if the head is still where it was, the objects that are counted with are there
      have hle := h.head_le_tail
      have htaken := h.taken.le
      have hgiven := h.given.le
      have hlt := h.lt
      have hentries := (RteRing.takes_le htakes).1
      rw [h.prodTail, ← heq, toNat_sub hk hle (by omega)] at hentries
      omega
  | swap maxN fixed mask consHead n first =>
    rw [hpc] at hstep hknows
    obtain ⟨hmaxN, rfl, rfl, hfirst, hn, hroom⟩ := hknows
    dsimp only at hstep
    split at hstep
    · next hswap =>
      cases hstep
      have heq : first = s.counts.consHead :=
        eq_of_ofNat_eq (hswap.1.symm.trans h.consHead) hfirst (hfair first (by rw [hpc]; rfl))
      have hnone : (s.conss t).span = none := by rw [hpc]; rfl
      have htake := h.taken.take (t := t) hnone (toNat_pos hn)
      have hle := hroom heq.symm
      refine ⟨h.prodMask, h.consMask, h.consTail, ?_, h.prodTail, h.prodHead, ?_, ?_, h.given, h.lt,
        fun t' => ?_, ?_⟩
      · rw [ofNat_add_toNat, heq]
      · refine htake.congr fun t' => ?_
        exact span_update McPc.span s.conss t _ t'
      · rw [← heq]
        exact hle
      · exact (h.prods t').mono le_rfl le_rfl (.inl rfl)
      · refine forall_update ⟨rfl, by rw [heq]⟩ fun t' hne => ?_
        exact (h.conss t').mono (Nat.le_add_right _ _) le_rfl (.inl rfl)
    · cases hstep
      exact h.setCons ⟨hmaxN, rfl⟩ (by rw [hpc]; rfl)
  | loadObj n mask consHead i first =>
    rw [hpc] at hstep hknows
    obtain ⟨rfl, rfl⟩ := hknows
    dsimp only at hstep
    split at hstep
    · split at hstep
      · cases hstep
      · cases hstep
        have hknow : ConsKnows k s.counts
            (McPc.loadObj n (.ofNat (2 ^ k) - 1) (.ofNat first) (i + 1) first) :=
          ⟨rfl, rfl⟩
        have hset := h.setCons (t := t) hknow (by rw [hpc]; rfl)
        exact ⟨hset.prodMask, hset.consMask, hset.consTail, hset.consHead, hset.prodTail, hset.prodHead,
          hset.taken, hset.head_le_tail, hset.given, hset.lt, hset.prods, hset.conss⟩
    · split at hstep
      · next htail =>
        cases hstep
        have hspan : (s.conss t).span = some (first, n.toNat) := by rw [hpc]; rfl
        have hle := h.taken.tail_le t first n.toNat hspan
        have hle' := h.taken.le_head t first n.toNat hspan
        have hheads := h.head_le_tail
        have hgiven := h.given.le
        have hlt := h.lt
        have heq : s.counts.consTail = first :=
          eq_of_ofNat_eq (h.consTail.symm.trans htail) hle (by rw [UInt32.size]; omega)
        exact h.setCons ⟨rfl, heq.symm⟩ (by rw [hpc]; rfl)
      · cases hstep
        exact h
  | storeTail n consHead first =>
    rw [hpc] at hstep hknows
    obtain ⟨rfl, rfl⟩ := hknows
    cases hstep
    have hspan : (s.conss t).span = some (s.counts.consTail, n.toNat) := by rw [hpc]; rfl
    have hgive := h.taken.give (t := t) hspan
    refine ⟨h.prodMask, h.consMask, ?_, h.consHead, h.prodTail, h.prodHead, ?_, h.head_le_tail, h.given,
      ?_, fun t' => ?_, ?_⟩
    · exact ofNat_add_toNat ..
    · refine hgive.congr fun t' => ?_
      exact span_update McPc.span s.conss t _ t'
    · exact h.lt.trans_le (Nat.add_le_add_right (Nat.le_add_right _ _) _)
    · exact (h.prods t').mono le_rfl (Nat.le_add_right _ _) (.inl rfl)
    · refine forall_update trivial fun t' hne => ?_
      refine (h.conss t').mono le_rfl le_rfl (.inr fun n' hspan' => hne ?_)
      exact h.taken.first_unique hspan' hspan

/-- **A step of one of the threads.** -/
theorem Inv.step (h : s.Inv k) (hk : k < 32) {op : MpmcOp α} (hfair : s.Fair op)
    (hstep : s.step op = .ok s') : s'.Inv k := by
  cases op with
  | enqueue t n objTable fixed =>
    rw [Mpmc.step] at hstep
    split at hstep
    · next hpc =>
      cases hstep
      exact h.setProd hfair (by rw [hpc]; rfl)
    · cases hstep
  | prod t spurious => exact h.prodStep hk hfair hstep
  | dequeue t n fixed =>
    rw [Mpmc.step] at hstep
    split at hstep
    · next hpc =>
      cases hstep
      exact h.setCons hfair (by rw [hpc]; rfl)
    · cases hstep
  | cons t spurious => exact h.consStep hk hfair hstep

end Steps

/-! ## The objects -/

/-- The slot of a number. -/
def slot (k i : ℕ) : UInt32 := .ofNat i &&& (.ofNat (2 ^ k) - 1)

/-- What a producer has stored: its objects are those that have been taken in under its numbers. -/
def Stores (k : ℕ) (sent : List α) (objs : UInt32 → α) : MpPc α → Prop
  | .storeObj n objTable _ _ i first => i ≤ n.toNat ∧
      (∀ j, j < n.toNat → sent[first + j]? = some (objTable j)) ∧
      ∀ j, j < i → sent[first + j]? = some (objs (slot k (first + j)))
  | .storeTail n _ first => ∀ j, j < n.toNat → sent[first + j]? = some (objs (slot k (first + j)))
  | _ => True

/-- What a consumer has loaded. -/
def Loads (sent : List α) (objTable : ℕ → α) : McPc → Prop
  | .loadObj n _ _ i first => i ≤ n.toNat ∧ ∀ j, j < i → sent[first + j]? = some (objTable j)
  | .storeTail n _ first => ∀ j, j < n.toNat → sent[first + j]? = some (objTable j)
  | _ => True

/-- The ring is a queue. -/
structure Queue (k : ℕ) (s : Mpmc α) : Prop where
  inv : s.Inv k
  /-- as many objects have been taken in as there are numbers -/
  length : s.sent.length = s.counts.prodHead
  /-- the objects between the tails are in their slots -/
  held : ∀ j, s.counts.consTail ≤ j → j < s.counts.prodTail → s.sent[j]? = some (s.ring.objs (slot k j))
  stores : ∀ t, Stores k s.sent s.ring.objs (s.prods t)
  loads : ∀ t, Loads s.sent (s.objTables t) (s.conss t)
  /-- the objects before `cons_tail_` are those handed out -/
  received : s.received = s.sent.take s.counts.consTail

theorem queue_start (k : Fin 32) (memory : UInt32 → α) (objTables : ℕ → ℕ → α) :
    (start k memory objTables).Queue k where
  inv := inv_start k memory objTables
  length := rfl
  held j _ hj := absurd hj (Nat.not_lt_zero j)
  stores _ := trivial
  loads _ := trivial
  received := rfl

section Objects

variable {k : ℕ} {s s' : Mpmc α} {t : ℕ} {spurious : Bool} {sent : List α} {objs : UInt32 → α}

theorem slot_ne (hk : k < 32) {i j : ℕ} (hne : i ≠ j) (hij : i < j + 2 ^ k) (hji : j < i + 2 ^ k) :
    slot k i ≠ slot k j := by
  rcases Nat.lt_or_gt_of_ne hne with hlt | hlt
  · exact RteRing.slot_ne hk hlt hji
  · exact (RteRing.slot_ne hk hlt hij).symm

theorem getElem?_append_of_some {xs : List α} {j : ℕ} {x : α} (h : sent[j]? = some x) :
    (sent ++ xs)[j]? = some x :=
  (List.getElem?_append_left (List.getElem?_eq_some_iff.mp h).1).trans h

/-- More objects are taken in. -/
theorem Stores.append {pc : MpPc α} (h : Stores k sent objs pc) (xs : List α) :
    Stores k (sent ++ xs) objs pc := by
  cases pc with
  | storeObj n objTable mask prodHead i first =>
    obtain ⟨hi, htable, hobjs⟩ := h
    exact ⟨hi, fun j hj => getElem?_append_of_some (htable j hj),
      fun j hj => getElem?_append_of_some (hobjs j hj)⟩
  | storeTail n prodHead first => exact fun j hj => getElem?_append_of_some (h j hj)
  | _ => trivial

theorem Loads.append {objTable : ℕ → α} {pc : McPc} (h : Loads sent objTable pc) (xs : List α) :
    Loads (sent ++ xs) objTable pc := by
  cases pc with
  | loadObj n mask consHead i first =>
    exact ⟨h.1, fun j hj => getElem?_append_of_some (h.2 j hj)⟩
  | storeTail n consHead first => exact fun j hj => getElem?_append_of_some (h j hj)
  | _ => trivial

/-- A slot is stored that is none of a producer's. -/
theorem Stores.update {pc : MpPc α} (h : Stores k sent objs pc) {m : UInt32} {x : α}
    (hm : ∀ p n j, pc.span = some (p, n) → j < n → slot k (p + j) ≠ m) :
    Stores k sent (Function.update objs m x) pc := by
  cases pc with
  | storeObj n objTable mask prodHead i first =>
    obtain ⟨hi, htable, hobjs⟩ := h
    refine ⟨hi, htable, fun j hj => ?_⟩
    rw [Function.update_of_ne (hm first n.toNat j rfl (hj.trans_le hi))]
    exact hobjs j hj
  | storeTail n prodHead first =>
    intro j hj
    rw [Function.update_of_ne (hm first n.toNat j rfl hj)]
    exact h j hj
  | _ => trivial

/-- A producer goes on and only that. -/
theorem Queue.setProd (h : s.Queue k) {pc : MpPc α} (hinv : (s.setProd t pc).Inv k)
    (hpc : Stores k s.sent s.ring.objs pc) : (s.setProd t pc).Queue k where
  inv := hinv
  length := h.length
  held := h.held
  stores := forall_update hpc fun t' _ => h.stores t'
  loads := h.loads
  received := h.received

/-- What the consumers have loaded when one of them goes on. -/
theorem loads_update {objTables : ℕ → ℕ → α} {conss : ℕ → McPc} {pc : McPc}
    (hpc : Loads sent (objTables t) pc) (h : ∀ t', t' ≠ t → Loads sent (objTables t') (conss t'))
    (t' : ℕ) : Loads sent (objTables t') (Function.update conss t pc t') := by
  by_cases htt : t' = t
  · subst htt
    rw [Function.update_self]
    exact hpc
  · rw [Function.update_of_ne htt]
    exact h t' htt

/-- A consumer goes on and only that. -/
theorem Queue.setCons (h : s.Queue k) {pc : McPc} (hinv : (s.setCons t pc).Inv k)
    (hpc : Loads s.sent (s.objTables t) pc) : (s.setCons t pc).Queue k where
  inv := hinv
  length := h.length
  held := h.held
  stores := h.stores
  loads := loads_update hpc fun t' _ => h.loads t'
  received := h.received

/-- A producer stores an object. -/
theorem Queue.storeObj (h : s.Queue k) (hk : k < 32) {n mask prodHead : UInt32} {objTable : ℕ → α}
    {i first : ℕ} (hpc : s.prods t = .storeObj n objTable mask prodHead i first) (hi : i < n.toNat)
    {s' : Mpmc α} (hinv : s'.Inv k)
    (hs' : s' = { s.setProd t (.storeObj n objTable mask prodHead (i + 1) first) with
      ring := { s.ring with objs := Function.update s.ring.objs (slot k (first + i)) (objTable i) } }) :
    s'.Queue k := by
  have hspan : (s.prods t).span = some (first, n.toNat) := by rw [hpc]; rfl
  have hle := h.inv.given.tail_le t first n.toNat hspan
  have hle' := h.inv.given.le_head t first n.toNat hspan
  have hlt := h.inv.lt
  have htails := h.inv.consTail_le
  have hstores := h.stores t
  rw [hpc] at hstores
  obtain ⟨-, htable, hobjs⟩ := hstores
  subst hs'
  refine ⟨hinv, h.length, ?_, ?_, h.loads, h.received⟩
  · intro j (hj : s.counts.consTail ≤ j) (hj' : j < s.counts.prodTail)
    have hne : slot k j ≠ slot k (first + i) := slot_ne hk (by omega) (by omega) (by omega)
    simp only [Function.update_of_ne hne]
    exact h.held j hj hj'
  · refine forall_update ⟨hi, htable, fun j hj => ?_⟩ fun t' htt => ?_
    · rcases Nat.lt_succ_iff_lt_or_eq.mp hj with hj | rfl
      · have hne : slot k (first + j) ≠ slot k (first + i) :=
          slot_ne hk (by omega) (by omega) (by omega)
        simp only [Function.update_of_ne hne]
        exact hobjs j hj
      · simp only [Function.update_self]
        exact htable j hi
    · refine (h.stores t').update fun p n' j hspan' hj => ?_
      have hp := h.inv.given.tail_le t' p n' hspan'
      have hp' := h.inv.given.le_head t' p n' hspan'
      -- the ranges of the two are apart
      rcases h.inv.given.apart t t' first p n.toNat n' (Ne.symm htt) hspan hspan' with hap | hap
      · exact slot_ne hk (by omega) (by omega) (by omega)
      · exact slot_ne hk (by omega) (by omega) (by omega)

theorem Queue.prodStep (h : s.Queue k) (hk : k < 32) (hfair : s.Fair (.prod t spurious))
    (hstep : s.prodStep t spurious = .ok s') : s'.Queue k := by
  have hinv := h.inv.prodStep hk hfair hstep
  have hknows := h.inv.prods t
  have hstores := h.stores t
  rw [Mpmc.prodStep] at hstep
  cases hpc : s.prods t with
  | out status =>
    rw [hpc] at hstep
    cases hstep
  | loadMask maxN objTable fixed =>
    rw [hpc] at hstep
    cases hstep
    exact h.setProd hinv trivial
  | loadHead maxN objTable fixed mask =>
    rw [hpc] at hstep
    cases hstep
    exact h.setProd hinv trivial
  | loadTail maxN objTable fixed mask prodHead first =>
    rw [hpc] at hstep
    dsimp only at hstep
    split at hstep
    · cases hstep
      exact h.setProd hinv trivial
    · cases hstep
      exact h.setProd hinv trivial
  | swap maxN objTable fixed mask prodHead n first =>
    rw [hpc] at hstep
    dsimp only at hstep
    split at hstep
    · cases hstep
      have hle := h.inv.consTail_le.trans h.inv.given.le
      refine ⟨hinv, ?_, fun j hj hj' => getElem?_append_of_some (h.held j hj hj'), ?_,
        fun t' => (h.loads t').append _, ?_⟩
      · rw [List.length_append, List.length_map, List.length_range, h.length]
      · refine forall_update ⟨Nat.zero_le _, fun j hj => ?_, fun j hj => absurd hj (Nat.not_lt_zero j)⟩
          fun t' _ => (h.stores t').append _
        rw [← h.length, List.getElem?_append_right (Nat.le_add_right _ _), Nat.add_sub_cancel_left,
          List.getElem?_map, List.getElem?_range hj]
        rfl
      · rw [List.take_append_of_le_length (by rw [h.length]; exact hle)]
        exact h.received
    · cases hstep
      exact h.setProd hinv trivial
  | storeObj n objTable mask prodHead i first =>
    rw [hpc] at hstep hknows hstores
    obtain ⟨rfl, rfl⟩ := hknows
    dsimp only at hstep
    split at hstep
    · next hi =>
      cases hstep
      refine h.storeObj hk hpc hi hinv ?_
      rw [slot, UInt32.ofNat_add]
    · next hi =>
      split at hstep
      · cases hstep
        refine h.setProd hinv fun j hj => hstores.2.2 j ?_
        exact hj.trans_le (Nat.le_of_not_lt hi)
      · cases hstep
        exact h
  | storeTail n prodHead first =>
    rw [hpc] at hstep hknows hstores
    obtain ⟨rfl, rfl⟩ := hknows
    cases hstep
    refine ⟨hinv, h.length, fun j hj hj' => ?_, forall_update trivial fun t' _ => h.stores t', h.loads,
      h.received⟩
    rcases Nat.lt_or_ge j s.counts.prodTail with hlt | hge
    · exact h.held j hj hlt
    · obtain ⟨d, rfl⟩ := Nat.exists_eq_add_of_le hge
      exact hstores d (Nat.lt_of_add_lt_add_left hj')

/-- What a consumer has loaded is the next part of what has been taken in. -/
theorem take_add_eq {objTable : ℕ → α} {p n : ℕ} (h : ∀ j, j < n → sent[p + j]? = some (objTable j)) :
    sent.take (p + n) = sent.take p ++ (List.range n).map objTable := by
  rw [List.take_add]
  refine congrArg (sent.take p ++ ·) (List.ext_getElem? fun j => ?_)
  rw [List.getElem?_take, List.getElem?_drop, List.getElem?_map]
  split
  · next hj => rw [h j hj, List.getElem?_range hj, Option.map_some]
  · next hj => rw [List.getElem?_eq_none (by rw [List.length_range]; omega), Option.map_none]

theorem Queue.consStep (h : s.Queue k) (hk : k < 32) (hfair : s.Fair (.cons t spurious))
    (hin : s.InStep (.cons t spurious)) (hstep : s.consStep t spurious = .ok s') : s'.Queue k := by
  have hinv := h.inv.consStep hk hfair hstep
  have hknows := h.inv.conss t
  have hloads := h.loads t
  rw [Mpmc.consStep] at hstep
  cases hpc : s.conss t with
  | out status =>
    rw [hpc] at hstep
    cases hstep
  | loadMask maxN fixed =>
    rw [hpc] at hstep
    cases hstep
    exact h.setCons hinv trivial
  | loadHead maxN fixed mask =>
    rw [hpc] at hstep
    cases hstep
    exact h.setCons hinv trivial
  | loadTail maxN fixed mask consHead first =>
    rw [hpc] at hstep
    dsimp only at hstep
    split at hstep
    · cases hstep
      exact h.setCons hinv trivial
    · cases hstep
      exact h.setCons hinv trivial
  | swap maxN fixed mask consHead n first =>
    rw [hpc] at hstep
    dsimp only at hstep
    split at hstep
    · cases hstep
      refine ⟨hinv, h.length, h.held, h.stores, ?_, h.received⟩
      refine loads_update ⟨Nat.zero_le _, fun j hj => ?_⟩ fun t' _ => h.loads t'
      exact absurd hj (Nat.not_lt_zero j)
    · cases hstep
      exact h.setCons hinv trivial
  | loadObj n mask consHead i first =>
    rw [hpc] at hstep hknows hloads
    obtain ⟨rfl, rfl⟩ := hknows
    have hspan : (s.conss t).span = some (first, n.toNat) := by rw [hpc]; rfl
    have hle := h.inv.taken.tail_le t first n.toNat hspan
    have hle' := h.inv.taken.le_head t first n.toNat hspan
    have hheads := h.inv.head_le_tail
    dsimp only at hstep
    split at hstep
    · next hi =>
      split at hstep
      · cases hstep
      · cases hstep
        refine ⟨hinv, h.length, h.held, h.stores, ?_, h.received⟩
        refine loads_update ⟨hi, fun j hj => ?_⟩ fun t' htt => ?_
        · simp only [Function.update_self]
          rcases Nat.lt_succ_iff_lt_or_eq.mp hj with hj | rfl
          · rw [Function.update_of_ne (Nat.ne_of_lt hj)]
            exact hloads.2 j hj
          · rw [Function.update_self, hin (_, _) (by rw [hpc]; exact if_pos hi), ← UInt32.ofNat_add]
            exact h.held (first + j) (by omega) (by omega)
        · simp only [Function.update_of_ne htt]
          exact h.loads t'
    · next hi =>
      split at hstep
      · cases hstep
        refine h.setCons hinv fun j hj => hloads.2 j ?_
        exact hj.trans_le (Nat.le_of_not_lt hi)
      · cases hstep
        exact h
  | storeTail n consHead first =>
    rw [hpc] at hstep hknows hloads
    obtain ⟨rfl, rfl⟩ := hknows
    cases hstep
    refine ⟨hinv, h.length, fun j hj hj' => h.held j ((Nat.le_add_right _ _).trans hj) hj', h.stores,
      loads_update trivial fun t' _ => h.loads t', ?_⟩
    exact (congrArg (· ++ _) h.received).trans (take_add_eq hloads).symm

theorem Queue.step (h : s.Queue k) (hk : k < 32) {op : MpmcOp α} (hfair : s.Fair op) (hin : s.InStep op)
    (hstep : s.step op = .ok s') : s'.Queue k := by
  have hinv := h.inv.step hk hfair hstep
  cases op with
  | enqueue t n objTable fixed =>
    rw [Mpmc.step] at hstep
    split at hstep
    · cases hstep
      exact h.setProd hinv trivial
    · cases hstep
  | prod t spurious => exact h.prodStep hk hfair hstep
  | dequeue t n fixed =>
    rw [Mpmc.step] at hstep
    split at hstep
    · cases hstep
      exact h.setCons hinv trivial
    · cases hstep
  | cons t spurious => exact h.consStep hk hfair hin hstep

end Objects

/-! ## Whole runs -/

/-- The slots that a producer stores into. -/
def writes (s : Mpmc α) (t : ℕ) : List UInt32 :=
  match s.prods t with
  | .storeObj n _ mask prodHead _ _ => (List.range n.toNat).map fun i => (prodHead + .ofNat i) &&& mask
  | _ => []

/-- The counters in `[cons_tail, prod_tail)`. -/
def held (s : Mpmc α) : List UInt32 :=
  (List.range (s.ring.prodTail - s.ring.consTail).toNat).map fun i => s.ring.consTail + .ofNat i

/-- The counters are in order around the circle and not more than `mask` apart, no slot is stored by two
producers or while its object is in the ring, and on each side somebody can move the tail on. -/
structure Ordered (k : ℕ) (s : Mpmc α) : Prop where
  /-- from `cons_tail` to `cons_head` and on to `prod_tail` -/
  consHead : s.ring.consHead - s.ring.consTail ≤ s.ring.prodTail - s.ring.consTail
  /-- from `prod_tail` on to `prod_head` -/
  prodTail : s.ring.prodTail - s.ring.consTail ≤ s.ring.prodHead - s.ring.consTail
  /-- from `cons_tail` to `prod_head` -/
  prodHead : s.ring.prodHead - s.ring.consTail ≤ s.ring.prodMask
  /-- two producers -/
  apart : ∀ t t', t ≠ t' → ∀ m ∈ s.writes t, m ∉ s.writes t'
  /-- a producer and the objects in the ring -/
  free : ∀ t, ∀ m ∈ s.writes t, ∀ counter ∈ s.held, m ≠ counter &&& s.ring.prodMask
  /-- the producer at `prod_tail` -/
  prodGoes : s.ring.prodTail ≠ s.ring.prodHead → ∃ t, (s.prods t).Has s.ring.prodTail
  /-- the consumer at `cons_tail` -/
  consGoes : s.ring.consTail ≠ s.ring.consHead → ∃ t, (s.conss t).Has s.ring.consTail

section Runs

variable {k : ℕ} {s : Mpmc α} {t : ℕ}

theorem Inv.exists_of_mem_writes (h : s.Inv k) {m : UInt32} (hm : m ∈ s.writes t) :
    ∃ p n j, (s.prods t).span = some (p, n) ∧ j < n ∧ m = slot k (p + j) := by
  have hknows := h.prods t
  rw [writes] at hm
  cases hpc : s.prods t <;> rw [hpc] at hm hknows
  case storeObj n objTable mask prodHead i first =>
    obtain ⟨rfl, rfl⟩ := hknows
    obtain ⟨j, hj, rfl⟩ := List.mem_map.mp hm
    exact ⟨first, n.toNat, j, rfl, List.mem_range.mp hj, by rw [slot, UInt32.ofNat_add]⟩
  all_goals cases hm

theorem Inv.exists_of_mem_held (h : s.Inv k) (hk : k < 32) {counter : UInt32}
    (hcounter : counter ∈ s.held) :
    ∃ j, s.counts.consTail ≤ j ∧ j < s.counts.prodTail ∧ counter = .ofNat j := by
  have hlt := h.lt
  have hle := h.given.le
  obtain ⟨j, hj, rfl⟩ := List.mem_map.mp hcounter
  rw [List.mem_range, h.prodTail, h.consTail, toNat_sub hk h.consTail_le (by omega)] at hj
  exact ⟨s.counts.consTail + j, Nat.le_add_right .., by omega, by rw [h.consTail, UInt32.ofNat_add]⟩

theorem Inv.prodGoes (h : s.Inv k) (hne : s.ring.prodTail ≠ s.ring.prodHead) :
    ∃ t, (s.prods t).Has s.ring.prodTail := by
  have hlt : s.counts.prodTail < s.counts.prodHead := by
    refine Nat.lt_of_le_of_ne h.given.le fun heq => hne ?_
    rw [h.prodTail, h.prodHead, heq]
  obtain ⟨t, n, ht⟩ := h.given.exists_first hlt
  have hknows := h.prods t
  refine ⟨t, ?_⟩
  rw [h.prodTail]
  cases hpc : s.prods t <;> rw [hpc] at ht hknows
  case storeObj n objTable mask prodHead i first =>
    obtain ⟨rfl, -⟩ := Prod.mk.inj (Option.some.inj ht)
    exact hknows.2
  case storeTail n prodHead first =>
    obtain ⟨rfl, -⟩ := Prod.mk.inj (Option.some.inj ht)
    exact hknows.1
  all_goals cases ht

theorem Inv.consGoes (h : s.Inv k) (hne : s.ring.consTail ≠ s.ring.consHead) :
    ∃ t, (s.conss t).Has s.ring.consTail := by
  have hlt : s.counts.consTail < s.counts.consHead := by
    refine Nat.lt_of_le_of_ne h.taken.le fun heq => hne ?_
    rw [h.consTail, h.consHead, heq]
  obtain ⟨t, n, ht⟩ := h.taken.exists_first hlt
  have hknows := h.conss t
  refine ⟨t, ?_⟩
  rw [h.consTail]
  cases hpc : s.conss t <;> rw [hpc] at ht hknows
  case loadObj n mask consHead i first =>
    obtain ⟨rfl, -⟩ := Prod.mk.inj (Option.some.inj ht)
    exact hknows.2
  case storeTail n consHead first =>
    obtain ⟨rfl, -⟩ := Prod.mk.inj (Option.some.inj ht)
    exact hknows.1
  all_goals cases ht

theorem Inv.ordered (h : s.Inv k) (hk : k < 32) : s.Ordered k := by
  have hlt := h.lt
  have hle := h.taken.le
  have hle' := h.head_le_tail
  have hle'' := h.given.le
  refine ⟨?_, ?_, ?_, fun t t' htt m hm hm' => ?_, fun t m hm counter hcounter => ?_, h.prodGoes, h.consGoes⟩
  · rw [UInt32.le_iff_toNat_le, h.consHead, h.consTail, h.prodTail, toNat_sub hk hle (by omega),
      toNat_sub hk (hle.trans hle') (by omega)]
    exact Nat.sub_le_sub_right hle' _
  · rw [UInt32.le_iff_toNat_le, h.prodTail, h.consTail, h.prodHead,
      toNat_sub hk (hle.trans hle') (by omega), toNat_sub hk ((hle.trans hle').trans hle'') hlt]
    exact Nat.sub_le_sub_right hle'' _
  · rw [UInt32.le_iff_toNat_le, h.prodHead, h.consTail, h.prodMask,
      toNat_sub hk ((hle.trans hle').trans hle'') hlt, RteRing.toNat_mask hk]
    omega
  · obtain ⟨p, n, j, hspan, hj, rfl⟩ := h.exists_of_mem_writes hm
    obtain ⟨p', n', j', hspan', hj', heq⟩ := h.exists_of_mem_writes hm'
    have hp := h.given.tail_le t p n hspan
    have hn := h.given.le_head t p n hspan
    have hp' := h.given.tail_le t' p' n' hspan'
    have hn' := h.given.le_head t' p' n' hspan'
    refine slot_ne hk ?_ (by omega) (by omega) heq
    rcases h.given.apart t t' p p' n n' htt hspan hspan' with hap | hap <;> omega
  · obtain ⟨p, n, j, hspan, hj, rfl⟩ := h.exists_of_mem_writes hm
    obtain ⟨j', hj', hj'', rfl⟩ := h.exists_of_mem_held hk hcounter
    have hp := h.given.tail_le t p n hspan
    have hn := h.given.le_head t p n hspan
    rw [h.prodMask]
    exact slot_ne hk (by omega) (by omega) (by omega)

/-- **The producers never overrun the consumers nor each other**, whatever the threads call and in
whatever order they go. -/
theorem ordered_of_run (k : Fin 32) (memory : UInt32 → α) (objTables : ℕ → ℕ → α)
    (ops : List (MpmcOp α)) (s : Mpmc α)
    (hrun : Run Mpmc.step Fair (start k memory objTables) ops s) : s.Ordered k := by
  have hinv : s.Inv k := hrun.invariant
    (fun _ _ _ hinv hfair hstep => hinv.step k.isLt hfair hstep) (inv_start k memory objTables)
  exact hinv.ordered k.isLt

/-- Two producers in a ring of four slots: each has taken a number, and the second has stored its object
when the first is at `prod_tail`. -/
def twoProducers : List (MpmcOp ℕ) :=
  [.enqueue 0 1 (· + 10) true, .enqueue 1 1 (· + 20) false, .prod 0 false, .prod 1 false, .prod 1 false,
    .prod 0 false, .prod 0 false, .prod 1 false, .prod 0 false, .prod 1 false, .prod 1 false,
    .prod 1 false, .prod 1 true, .prod 1 false, .prod 1 false, .prod 1 false, .prod 1 false]

theorem ordered_of_run_two : ∃ s : Mpmc ℕ,
    Run Mpmc.step Fair (start 2 (fun _ => 0) fun _ _ => 0) twoProducers s ∧
    s.ring.prodHead = 2 ∧ s.writes 0 = [0] ∧ s.writes 1 = [1] ∧ s.Ordered 2 := by
  obtain ⟨s, hfold, heq⟩ := exists_of_foldlM Mpmc.step
    (fun s => (s.ring.prodHead, s.writes 0, s.writes 1)) (start 2 (fun _ => 0) fun _ _ => 0) twoProducers
    (2, [0], [1]) (by decide +kernel)
  have hrun : Run Mpmc.step Fair (start 2 (fun _ => 0) fun _ _ => 0) twoProducers s :=
    .of_check hfold (by decide +kernel)
  simp only [Prod.mk.injEq] at heq
  exact ⟨s, hrun, heq.1, heq.2.1, heq.2.2, ordered_of_run 2 _ _ _ s hrun⟩

/-- A call for no object that is overtaken by one for an object. -/
def noObject : List (MpmcOp ℕ) :=
  [.enqueue 0 0 (· + 10) true, .prod 0 false, .prod 0 false, .prod 0 false, .prod 0 false, .prod 0 false,
    .enqueue 1 1 (· + 20) true, .prod 1 false, .prod 1 false, .prod 1 false, .prod 1 false,
    .prod 1 false, .prod 1 false, .prod 1 false, .prod 0 false]

-- it moves `prod_tail_` back, and the object behind it is never handed out
example : ((noObject.foldlM Mpmc.step (start 2 (fun _ => 0) fun _ _ => 0)).toOption.map
    fun s => (s.ring.prodTail, s.ring.prodHead, s.sent)) = some (0, 1, [20]) := by decide +kernel

/-- **What is handed out is what has been taken in**, each object once and in order, as long as the
consumers' slots are those of their numbers; and what is not handed out is in the ring. -/
theorem fifo_of_run (k : Fin 32) (memory : UInt32 → α) (objTables : ℕ → ℕ → α)
    (ops : List (MpmcOp α)) (s : Mpmc α)
    (hrun : Run Mpmc.step (fun s op => s.Fair op ∧ s.InStep op) (start k memory objTables) ops s) :
    s.received <+: s.sent ∧
      s.sent.length = s.received.length + (s.ring.prodHead - s.ring.consTail).toNat ∧
      ∀ i < (s.ring.prodTail - s.ring.consTail).toNat,
        s.sent[s.received.length + i]? =
          some (s.ring.objs ((s.ring.consTail + .ofNat i) &&& s.ring.prodMask)) := by
  have h : s.Queue k := hrun.invariant
    (fun _ _ _ h hC hstep => h.step k.isLt hC.1 hC.2 hstep) (queue_start k memory objTables)
  have hinv := h.inv
  have hlt := hinv.lt
  have hle := hinv.consTail_le
  have hle' := hinv.given.le
  have hlength : s.received.length = s.counts.consTail := by
    rw [h.received, List.length_take, h.length]
    exact Nat.min_eq_left (hle.trans hle')
  refine ⟨h.received ▸ List.take_prefix _ _, ?_, fun i hi => ?_⟩
  · rw [hlength, h.length, hinv.prodHead, hinv.consTail, toNat_sub k.isLt (hle.trans hle') hlt]
    omega
  · rw [hinv.prodTail, hinv.consTail, toNat_sub k.isLt hle (by omega)] at hi
    rw [hlength, hinv.consTail, hinv.prodMask, ← UInt32.ofNat_add]
    exact h.held _ (Nat.le_add_right _ _) (by omega)

/-- The two objects go out with one call. -/
theorem fifo_of_run_two : ∃ s : Mpmc ℕ,
    Run Mpmc.step (fun s op => s.Fair op ∧ s.InStep op) (start 2 (fun _ => 0) fun _ _ => 0)
      (twoProducers ++ [.prod 0 false, .prod 0 false, .prod 0 false, .prod 1 false, .prod 1 false,
        .dequeue 0 5 false] ++ List.replicate 8 (.cons 0 false)) s ∧
    s.sent = [10, 20] ∧ s.received = [10, 20] ∧ s.received <+: s.sent := by
  obtain ⟨s, hfold, heq⟩ := exists_of_foldlM Mpmc.step (fun s => (s.sent, s.received))
    (start 2 (fun _ => 0) fun _ _ => 0)
    (twoProducers ++ [.prod 0 false, .prod 0 false, .prod 0 false, .prod 1 false, .prod 1 false,
        .dequeue 0 5 false] ++ List.replicate 8 (.cons 0 false)) ([10, 20], [10, 20]) (by decide +kernel)
  have hrun := Run.of_check (C := fun s op => s.Fair op ∧ s.InStep op) hfold (by decide +kernel)
  simp only [Prod.mk.injEq] at heq
  exact ⟨s, hrun, heq.1, heq.2, (fifo_of_run 2 _ _ _ s hrun).1⟩

end Runs

end Mpmc

end NaliStore
