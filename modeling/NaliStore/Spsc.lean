import NaliStore.RingReports

/-!
# One producer and one consumer

`RteRing` with one thread in `enqueue_sp` and one in `dequeue_sc`. A step is one load or one
store of one of the two threads, and between two steps of a thread the other may take any
number. Each thread works with the copy of the other's counter it has loaded, which may be old
by the time it is used.

The copy can only be old in the harmless direction: the consumer's tail has moved on since, so
that there is more room than the producer counts with, and the producer's tail has moved on, so
that there are more objects than the consumer counts with. The invariant keeps the counters as
numbers that do not wrap around, and says for each place in the two calls what is known of the
copies.
-/

namespace NaliStore

open Runs

/-- Where the producer is in `enqueue_sp`. -/
inductive ProdPc (α : Type) where
  /-- in no call -/
  | idle
  /-- before the load of `prod.mask_` -/
  | loadMask (n : UInt32) (objTable : ℕ → α) (fixed : Bool)
  /-- before the load of `prod.prod_head_` -/
  | loadHead (n : UInt32) (objTable : ℕ → α) (fixed : Bool) (mask : UInt32)
  /-- before the load of `cons.cons_tail_` -/
  | loadTail (n : UInt32) (objTable : ℕ → α) (fixed : Bool) (mask prodHead : UInt32)
  /-- before the store of `prod.prod_head_` -/
  | storeHead (n : UInt32) (objTable : ℕ → α) (mask prodHead : UInt32)
  /-- in the loop, before the store of an object or of `prod.prod_tail_` -/
  | storeObj (n : UInt32) (objTable : ℕ → α) (mask prodHead : UInt32) (i : ℕ)

/-- Where the consumer is in `dequeue_sc`. -/
inductive ConsPc where
  /-- in no call -/
  | idle
  /-- before the load of `cons.mask_` -/
  | loadMask (n : UInt32) (fixed : Bool)
  /-- before the load of `cons.cons_head_` -/
  | loadHead (n : UInt32) (fixed : Bool) (mask : UInt32)
  /-- before the load of `prod.prod_tail_` -/
  | loadTail (n : UInt32) (fixed : Bool) (mask consHead : UInt32)
  /-- before the store of `cons.cons_head_` -/
  | storeHead (n mask consHead : UInt32)
  /-- in the loop, before the load of an object or the store of `cons.cons_tail_` -/
  | loadObj (n mask consHead : UInt32) (i : ℕ)

/-- What stops a step. -/
inductive SpscFault where
  /-- the thread is in another call, or in none -/
  | notThere
  /-- `% 0` -/
  | divByZero
  deriving DecidableEq, Repr

/-- The ring and its two threads. -/
structure Spsc (α : Type) where
  /-- the ring -/
  ring : RteRing α
  /-- the producer -/
  prod : ProdPc α
  /-- the consumer -/
  cons : ConsPc
  /-- `obj_table` of the consumer -/
  objTable : ℕ → α

/-- What happens next. -/
inductive SpscOp (α : Type) where
  /-- the producer calls `enqueue_sp(n, obj_table, res_n, fixed)` -/
  | enqueue (n : UInt32) (objTable : ℕ → α) (fixed : Bool)
  /-- the producer takes its next step -/
  | prod
  /-- the consumer calls `dequeue_sc(n, obj_table, res_n, fixed)` -/
  | dequeue (n : UInt32) (fixed : Bool)
  /-- the consumer takes its next step -/
  | cons

namespace Spsc

variable {α : Type}

/-- A new ring with `2 ^ k` slots. -/
def start (k : Fin 32) (memory : UInt32 → α) (objTable : ℕ → α) : Spsc α :=
  ⟨.create (.ofNat (2 ^ k.val)) true true memory, .idle, .idle, objTable⟩

/-- One load or store of `enqueue_sp`. -/
def prodStep (s : Spsc α) : Except SpscFault (Spsc α) :=
  match s.prod with
  | .idle => .error .notThere
  | .loadMask n objTable fixed =>
    .ok { s with prod := .loadHead n objTable fixed s.ring.prodMask }
  | .loadHead n objTable fixed mask =>
    .ok { s with prod := .loadTail n objTable fixed mask s.ring.prodHead }
  | .loadTail n objTable fixed mask prodHead =>
    match RteRing.takes (mask + s.ring.consTail - prodHead) n fixed with
    -- `return RTX_RING_FULL;`
    | none => .ok { s with prod := .idle }
    | some n => .ok { s with prod := .storeHead n objTable mask prodHead }
  | .storeHead n objTable mask prodHead =>
    .ok { s with
      ring := { s.ring with prodHead := prodHead + n }
      prod := .storeObj n objTable mask prodHead 0 }
  | .storeObj n objTable mask prodHead i =>
    if i < n.toNat then
      .ok { s with
        ring := { s.ring with
          objs := Function.update s.ring.objs ((prodHead + .ofNat i) &&& mask) (objTable i) }
        prod := .storeObj n objTable mask prodHead (i + 1) }
    else .ok { s with ring := { s.ring with prodTail := prodHead + n }, prod := .idle }

/-- One load or store of `dequeue_sc`. -/
def consStep (s : Spsc α) : Except SpscFault (Spsc α) :=
  match s.cons with
  | .idle => .error .notThere
  | .loadMask n fixed => .ok { s with cons := .loadHead n fixed s.ring.consMask }
  | .loadHead n fixed mask => .ok { s with cons := .loadTail n fixed mask s.ring.consHead }
  | .loadTail n fixed mask consHead =>
    match RteRing.takes (s.ring.prodTail - consHead) n fixed with
    -- `return RTX_RING_NOT_ENOUGH;`
    | none => .ok { s with cons := .idle }
    | some n => .ok { s with cons := .storeHead n mask consHead }
  | .storeHead n mask consHead =>
    .ok { s with
      ring := { s.ring with consHead := consHead + n }
      cons := .loadObj n mask consHead 0 }
  | .loadObj n mask consHead i =>
    if i < n.toNat then
      if mask = 0 then .error .divByZero
      else .ok { s with
        objTable := Function.update s.objTable i (s.ring.objs ((consHead + .ofNat i) % mask))
        cons := .loadObj n mask consHead (i + 1) }
    else .ok { s with ring := { s.ring with consTail := consHead + n }, cons := .idle }

/-- One step of one of the threads. -/
def step (s : Spsc α) : SpscOp α → Except SpscFault (Spsc α)
  | .enqueue n objTable fixed =>
    match s.prod with
    | .idle => .ok { s with prod := .loadMask n objTable fixed }
    | _ => .error .notThere
  | .prod => s.prodStep
  | .dequeue n fixed =>
    match s.cons with
    | .idle => .ok { s with cons := .loadMask n fixed }
    | _ => .error .notThere
  | .cons => s.consStep

/-- The slots that the call of `enqueue_sp` has written or is going to write. -/
def writes (s : Spsc α) : List UInt32 :=
  match s.prod with
  | .storeHead n _ mask prodHead => (List.range n.toNat).map fun i => (prodHead + .ofNat i) &&& mask
  | .storeObj n _ mask prodHead _ => (List.range n.toNat).map fun i => (prodHead + .ofNat i) &&& mask
  | _ => []

/-- The counters in `[cons_tail, prod_tail)`. -/
def held (s : Spsc α) : List UInt32 :=
  (List.range (s.ring.prodTail - s.ring.consTail).toNat).map fun i => s.ring.consTail + .ofNat i

/-- The four counters are in order around the circle, not more than `mask` apart, and no slot
that is written belongs to an object that is in the ring. -/
structure InOrder (k : ℕ) (s : Spsc α) : Prop where
  /-- the mask is that of `2 ^ k` slots -/
  mask : s.ring.prodMask = .ofNat (2 ^ k) - 1
  /-- from `cons_tail` to `cons_head` and on to `prod_tail` -/
  consHead : s.ring.consHead - s.ring.consTail ≤ s.ring.prodTail - s.ring.consTail
  /-- from `prod_tail` on to `prod_head` -/
  prodTail : s.ring.prodTail - s.ring.consTail ≤ s.ring.prodHead - s.ring.consTail
  /-- from `cons_tail` to `prod_head` -/
  prodHead : s.ring.prodHead - s.ring.consTail ≤ s.ring.prodMask
  /-- the slots that are written -/
  disjoint : ∀ slot ∈ s.writes, ∀ counter ∈ s.held, slot.toNat % 2 ^ k ≠ counter.toNat % 2 ^ k

/-! ## Calls without interruption -/

section Calls

variable {n : UInt32} {table : ℕ → α} {fixed : Bool}

/-- The loop of the producer and the store of the tail. -/
theorem run_storeObj {mask head : UInt32} (j : ℕ) :
    ∀ (i : ℕ) (s : Spsc α), i + j = n.toNat → s.prod = .storeObj n table mask head i →
      Run step (fun _ _ => True) s (List.replicate (j + 1) .prod)
        { s with
          ring := { s.ring with
            objs := (List.range' i j).foldl (fun objs i =>
              Function.update objs ((head + .ofNat i) &&& mask) (table i)) s.ring.objs
            prodTail := head + n }
          prod := .idle } := by
  induction j with
  | zero =>
    intro i s hij hpc
    refine .single trivial ?_
    rw [step, prodStep, hpc]
    exact if_neg (by omega)
  | succ j ih =>
    intro i s hij hpc
    have hstep : s.step .prod = .ok { s with
        ring := { s.ring with
          objs := Function.update s.ring.objs ((head + .ofNat i) &&& mask) (table i) }
        prod := .storeObj n table mask head (i + 1) } := by
      rw [step, prodStep, hpc]
      exact if_pos (by omega)
    exact .cons trivial hstep (ih (i + 1) _ (by omega) rfl)

/-- **`enqueue_sp` without interruption** is `enqueueSp`. -/
theorem run_enqueue (s : Spsc α) (hidle : s.prod = .idle) :
    ∃ m, Run step (fun _ _ => True) s (.enqueue n table fixed :: List.replicate m .prod)
      { s with ring := (s.ring.enqueueSp n table fixed).2.2 } := by
  obtain ⟨ring, prod, cons, objTable⟩ := s
  obtain rfl : prod = .idle := hidle
  have hload : step ⟨ring, .loadTail n table fixed ring.prodMask ring.prodHead, cons, objTable⟩ .prod =
      match RteRing.takes ring.freeEntries n fixed with
      | none => .ok ⟨ring, .idle, cons, objTable⟩
      | some n => .ok ⟨ring, .storeHead n table ring.prodMask ring.prodHead, cons, objTable⟩ := rfl
  cases htakes : RteRing.takes ring.freeEntries n fixed with
  | none =>
    rw [htakes] at hload
    refine ⟨3, .cons trivial rfl (.cons trivial rfl (.cons trivial rfl (.cons trivial hload ?_)))⟩
    rw [RteRing.enqueueSp, htakes]
    exact .nil _
  | some m =>
    rw [htakes] at hload
    refine ⟨4 + (m.toNat + 1), ?_⟩
    rw [List.replicate_add]
    refine .cons trivial rfl (.cons trivial rfl (.cons trivial rfl (.cons trivial hload
      (.cons trivial rfl ?_))))
    have hloop := run_storeObj m.toNat 0
      ⟨{ ring with prodHead := ring.prodHead + m }, .storeObj m table ring.prodMask ring.prodHead 0, cons,
        objTable⟩ (Nat.zero_add _) rfl
    rw [RteRing.enqueueSp, htakes]
    simp only [RteRing.storeObjs, List.range_eq_range']
    exact hloop

/-- The loop of the consumer and the store of the tail. -/
theorem run_loadObj {mask head : UInt32} (j : ℕ) :
    ∀ (i : ℕ) (s : Spsc α) (objTable : ℕ → α), i + j = n.toNat → s.cons = .loadObj n mask head i →
      (List.range' i j).foldlM (fun objTable i =>
        if mask = 0 then Except.error RingFault.divByZero
        else .ok (Function.update objTable i (s.ring.objs ((head + .ofNat i) % mask)))) s.objTable =
          .ok objTable →
      Run step (fun _ _ => True) s (List.replicate (j + 1) .cons)
        { s with ring := { s.ring with consTail := head + n }, cons := .idle, objTable } := by
  induction j with
  | zero =>
    intro i s objTable hij hpc hloop
    cases hloop
    refine .single trivial ?_
    rw [step, consStep, hpc]
    exact if_neg (by omega)
  | succ j ih =>
    intro i s objTable hij hpc hloop
    rw [List.range'_succ, List.foldlM_cons] at hloop
    obtain ⟨objTable', hfirst, hrest⟩ := bind_eq_ok hloop
    split at hfirst
    · cases hfirst
    · rename_i hmask
      cases hfirst
      have hstep : s.step .cons = .ok { s with
          objTable := Function.update s.objTable i (s.ring.objs ((head + .ofNat i) % mask))
          cons := .loadObj n mask head (i + 1) } := by
        rw [step, consStep, hpc]
        exact (if_pos (by omega)).trans (if_neg hmask)
      exact .cons trivial hstep (ih (i + 1) _ objTable (by omega) rfl hrest)

/-- **`dequeue_sc` without interruption** is `dequeueScInto`. -/
theorem run_dequeue (s : Spsc α) (hidle : s.cons = .idle) {words : ℕ → UInt32} {resN : Option ℕ}
    {status : RteRingOpStatus} {r : RteRing α} {c : RteRing.Caller α}
    (hdeq : s.ring.dequeueScInto ⟨s.objTable, words⟩ n resN fixed = .ok (status, r, c)) :
    ∃ m, Run step (fun _ _ => True) s (.dequeue n fixed :: List.replicate m .cons)
      { s with ring := r, objTable := c.objTable } := by
  obtain ⟨ring, prod, cons, objTable⟩ := s
  obtain rfl : cons = .idle := hidle
  have hload : step ⟨ring, prod, .loadTail n fixed ring.consMask ring.consHead, objTable⟩ .cons =
      match RteRing.takes ring.entries n fixed with
      | none => .ok ⟨ring, prod, .idle, objTable⟩
      | some n => .ok ⟨ring, prod, .storeHead n ring.consMask ring.consHead, objTable⟩ := rfl
  rw [RteRing.dequeueScInto] at hdeq
  cases htakes : RteRing.takes ring.entries n fixed with
  | none =>
    rw [htakes] at hload hdeq
    cases hdeq
    exact ⟨3, .cons trivial rfl (.cons trivial rfl (.cons trivial rfl (.cons trivial hload (.nil _))))⟩
  | some m =>
    rw [htakes] at hload hdeq
    obtain ⟨objTable', hloop, hret⟩ := bind_eq_ok hdeq
    cases hret
    rw [RteRing.loadInto, List.range_eq_range'] at hloop
    refine ⟨4 + (m.toNat + 1), ?_⟩
    rw [List.replicate_add]
    refine .cons trivial rfl (.cons trivial rfl (.cons trivial rfl (.cons trivial hload
      (.cons trivial rfl ?_))))
    exact run_loadObj m.toNat 0
      ⟨{ ring with consHead := ring.consHead + m }, prod, .loadObj m ring.consMask ring.consHead 0, objTable⟩
      objTable' (Nat.zero_add _) rfl hloop

end Calls

/-! ## The invariant -/

/-- The counters as numbers that do not wrap around. -/
structure Counters where
  /-- `cons_tail_` -/
  consTail : ℕ
  /-- `cons_head_` -/
  consHead : ℕ
  /-- `prod_tail_` -/
  prodTail : ℕ
  /-- `prod_head_` -/
  prodHead : ℕ

/-- What the producer knows at each place. -/
def ProdKnows (k : ℕ) (c : Counters) : ProdPc α → Prop
  | .idle => c.prodHead = c.prodTail
  | .loadMask _ _ _ => c.prodHead = c.prodTail
  | .loadHead _ _ _ mask => mask = .ofNat (2 ^ k) - 1 ∧ c.prodHead = c.prodTail
  | .loadTail _ _ _ mask prodHead =>
    mask = .ofNat (2 ^ k) - 1 ∧ prodHead = .ofNat c.prodTail ∧ c.prodHead = c.prodTail
  | .storeHead n _ mask prodHead =>
    mask = .ofNat (2 ^ k) - 1 ∧ prodHead = .ofNat c.prodTail ∧ c.prodHead = c.prodTail ∧
      c.prodTail + n.toNat < c.consTail + 2 ^ k
  | .storeObj n _ mask prodHead _ =>
    mask = .ofNat (2 ^ k) - 1 ∧ prodHead = .ofNat c.prodTail ∧ c.prodHead = c.prodTail + n.toNat

/-- What the consumer knows at each place. -/
def ConsKnows (k : ℕ) (c : Counters) : ConsPc → Prop
  | .idle => c.consHead = c.consTail
  | .loadMask _ _ => c.consHead = c.consTail
  | .loadHead _ _ mask => mask = .ofNat (2 ^ k) - 1 ∧ c.consHead = c.consTail
  | .loadTail _ _ mask consHead =>
    mask = .ofNat (2 ^ k) - 1 ∧ consHead = .ofNat c.consTail ∧ c.consHead = c.consTail
  | .storeHead n mask consHead =>
    mask = .ofNat (2 ^ k) - 1 ∧ consHead = .ofNat c.consTail ∧ c.consHead = c.consTail ∧
      c.consTail + n.toNat ≤ c.prodTail
  | .loadObj n mask consHead _ =>
    mask = .ofNat (2 ^ k) - 1 ∧ consHead = .ofNat c.consTail ∧ c.consHead = c.consTail + n.toNat

/-- The counters of the ring are the numbers modulo `2 ^ 32`, the numbers are in order, and
the threads know what they know. -/
structure Inv (k : ℕ) (c : Counters) (s : Spsc α) : Prop where
  prodMask : s.ring.prodMask = .ofNat (2 ^ k) - 1
  consMask : s.ring.consMask = .ofNat (2 ^ k) - 1
  consTail : s.ring.consTail = .ofNat c.consTail
  consHead : s.ring.consHead = .ofNat c.consHead
  prodTail : s.ring.prodTail = .ofNat c.prodTail
  prodHead : s.ring.prodHead = .ofNat c.prodHead
  tail_le_head : c.consTail ≤ c.consHead
  head_le_tail : c.consHead ≤ c.prodTail
  le_prodHead : c.prodTail ≤ c.prodHead
  /-- one slot stays free -/
  lt : c.prodHead < c.consTail + 2 ^ k
  prod : ProdKnows k c s.prod
  cons : ConsKnows k c s.cons

theorem inv_start (k : Fin 32) (memory : UInt32 → α) (objTable : ℕ → α) :
    (start k memory objTable).Inv k ⟨0, 0, 0, 0⟩ where
  prodMask := rfl
  consMask := rfl
  consTail := rfl
  consHead := rfl
  prodTail := rfl
  prodHead := rfl
  tail_le_head := le_rfl
  head_le_tail := le_rfl
  le_prodHead := le_rfl
  lt := by
    rw [Nat.zero_add]
    exact Nat.two_pow_pos k.val
  prod := rfl
  cons := rfl

/-- What the producer knows stays true when the consumer goes on. -/
theorem ProdKnows.mono {k : ℕ} {c c' : Counters} {pc : ProdPc α} (h : ProdKnows k c pc)
    (hhead : c'.prodHead = c.prodHead) (htail : c'.prodTail = c.prodTail)
    (hle : c.consTail ≤ c'.consTail) : ProdKnows k c' pc := by
  cases pc <;> simp only [ProdKnows, hhead, htail] at h ⊢
  case storeHead n objTable mask prodHead =>
    obtain ⟨hmask, hcopy, hidle, hroom⟩ := h
    exact ⟨hmask, hcopy, hidle, by omega⟩
  all_goals exact h

/-- What the consumer knows stays true when the producer goes on. -/
theorem ConsKnows.mono {k : ℕ} {c c' : Counters} {pc : ConsPc} (h : ConsKnows k c pc)
    (hhead : c'.consHead = c.consHead) (htail : c'.consTail = c.consTail)
    (hle : c.prodTail ≤ c'.prodTail) : ConsKnows k c' pc := by
  cases pc <;> simp only [ConsKnows, hhead, htail] at h ⊢
  case storeHead n mask consHead =>
    obtain ⟨hmask, hcopy, hidle, hroom⟩ := h
    exact ⟨hmask, hcopy, hidle, by omega⟩
  all_goals exact h

section Counting

variable {k : ℕ} (hk : k < 32)

include hk

/-- The distance of two counters that are not further apart than the ring is long. -/
theorem toNat_sub {a b : ℕ} (hab : a ≤ b) (hlt : b < a + 2 ^ k) :
    (UInt32.ofNat b - UInt32.ofNat a).toNat = b - a := by
  have hpow : 2 ^ k < 2 ^ 32 := Nat.pow_lt_pow_right (by decide) hk
  rw [UInt32.toNat_sub, UInt32.toNat_ofNat', UInt32.toNat_ofNat']
  omega

/-- `free_entries` -/
theorem toNat_free {a b : ℕ} (hab : a ≤ b) (hlt : b < a + 2 ^ k) :
    ((UInt32.ofNat (2 ^ k) - 1) + UInt32.ofNat a - UInt32.ofNat b).toNat = a + 2 ^ k - 1 - b := by
  have hpow : 2 ^ k < 2 ^ 32 := Nat.pow_lt_pow_right (by decide) hk
  rw [UInt32.toNat_sub, UInt32.toNat_add, RteRing.toNat_mask hk, UInt32.toNat_ofNat',
    UInt32.toNat_ofNat']
  omega

end Counting

theorem ofNat_add_toNat (a : ℕ) (n : UInt32) : UInt32.ofNat a + n = .ofNat (a + n.toNat) := by
  rw [UInt32.ofNat_add, UInt32.ofNat_toNat]

namespace Inv

variable {k : ℕ} {c : Counters} {s s' : Spsc α}

/-- The call of the producer begins, or it has loaded what does not change. -/
theorem withProd (h : s.Inv k c) {pc : ProdPc α} (hpc : ProdKnows k c pc) :
    Inv k c { s with prod := pc } :=
  ⟨h.prodMask, h.consMask, h.consTail, h.consHead, h.prodTail, h.prodHead, h.tail_le_head,
    h.head_le_tail, h.le_prodHead, h.lt, hpc, h.cons⟩

theorem withCons (h : s.Inv k c) {pc : ConsPc} (hpc : ConsKnows k c pc) :
    Inv k c { s with cons := pc } :=
  ⟨h.prodMask, h.consMask, h.consTail, h.consHead, h.prodTail, h.prodHead, h.tail_le_head,
    h.head_le_tail, h.le_prodHead, h.lt, h.prod, hpc⟩

/-- **A step of the producer.** -/
theorem prodStep (h : s.Inv k c) (hk : k < 32) (hstep : s.prodStep = .ok s') :
    ∃ c', s'.Inv k c' := by
  have hprod := h.prod
  have hcounts := h.tail_le_head.trans h.head_le_tail
  rw [Spsc.prodStep] at hstep
  cases hpc : s.prod with
  | idle =>
    rw [hpc] at hstep
    cases hstep
  | loadMask n objTable fixed =>
    rw [hpc] at hstep hprod
    cases hstep
    exact ⟨c, h.withProd ⟨h.prodMask, hprod⟩⟩
  | loadHead n objTable fixed mask =>
    rw [hpc] at hstep hprod
    cases hstep
    obtain ⟨hmask, hidle⟩ := hprod
    exact ⟨c, h.withProd ⟨hmask, by rw [h.prodHead, hidle], hidle⟩⟩
  | loadTail n objTable fixed mask prodHead =>
    rw [hpc] at hstep hprod
    obtain ⟨rfl, rfl, hidle⟩ := hprod
    simp only at hstep
    split at hstep
    · cases hstep
      exact ⟨c, h.withProd hidle⟩
    · rename_i m htakes
      cases hstep
      -- the room that is counted with is what there is now, and it only grows
      have hroom := (RteRing.takes_le htakes).1
      have hlt := h.lt
      rw [h.consTail, toNat_free hk hcounts (by omega)] at hroom
      exact ⟨c, h.withProd ⟨rfl, rfl, hidle, by omega⟩⟩
  | storeHead n objTable mask prodHead =>
    rw [hpc] at hstep hprod
    cases hstep
    obtain ⟨rfl, rfl, hidle, hroom⟩ := hprod
    refine ⟨{ c with prodHead := c.prodTail + n.toNat }, h.prodMask, h.consMask, h.consTail, h.consHead,
      h.prodTail, ofNat_add_toNat .., h.tail_le_head, h.head_le_tail, Nat.le_add_right .., hroom,
      ⟨rfl, rfl, rfl⟩, ?_⟩
    exact h.cons.mono rfl rfl le_rfl
  | storeObj n objTable mask prodHead i =>
    rw [hpc] at hstep hprod
    simp only at hstep
    split at hstep
    · cases hstep
      exact ⟨c, h.prodMask, h.consMask, h.consTail, h.consHead, h.prodTail, h.prodHead,
        h.tail_le_head, h.head_le_tail, h.le_prodHead, h.lt, hprod, h.cons⟩
    · cases hstep
      obtain ⟨rfl, rfl, hnext⟩ := hprod
      refine ⟨{ c with prodTail := c.prodHead }, h.prodMask, h.consMask, h.consTail, h.consHead, ?_,
        h.prodHead, h.tail_le_head, h.head_le_tail.trans h.le_prodHead, le_rfl, h.lt, rfl, ?_⟩
      · rw [ofNat_add_toNat, hnext]
      · exact h.cons.mono rfl rfl h.le_prodHead

/-- **A step of the consumer.** -/
theorem consStep (h : s.Inv k c) (hk : k < 32) (hstep : s.consStep = .ok s') :
    ∃ c', s'.Inv k c' := by
  have hcons := h.cons
  have hlt := h.lt
  have hle := h.head_le_tail
  have hle' := h.le_prodHead
  rw [Spsc.consStep] at hstep
  cases hpc : s.cons with
  | idle =>
    rw [hpc] at hstep
    cases hstep
  | loadMask n fixed =>
    rw [hpc] at hstep hcons
    cases hstep
    exact ⟨c, h.withCons ⟨h.consMask, hcons⟩⟩
  | loadHead n fixed mask =>
    rw [hpc] at hstep hcons
    cases hstep
    obtain ⟨hmask, hidle⟩ := hcons
    exact ⟨c, h.withCons ⟨hmask, by rw [h.consHead, hidle], hidle⟩⟩
  | loadTail n fixed mask consHead =>
    rw [hpc] at hstep hcons
    obtain ⟨rfl, rfl, hidle⟩ := hcons
    simp only at hstep
    split at hstep
    · cases hstep
      exact ⟨c, h.withCons hidle⟩
    · rename_i m htakes
      cases hstep
      -- the objects that are counted with are those there are now, and there are only more
      have hentries := (RteRing.takes_le htakes).1
      rw [h.prodTail, toNat_sub hk (by omega) (by omega)] at hentries
      exact ⟨c, h.withCons ⟨rfl, rfl, hidle, by omega⟩⟩
  | storeHead n mask consHead =>
    rw [hpc] at hstep hcons
    cases hstep
    obtain ⟨rfl, rfl, hidle, hentries⟩ := hcons
    refine ⟨{ c with consHead := c.consTail + n.toNat }, h.prodMask, h.consMask, h.consTail,
      ofNat_add_toNat .., h.prodTail, h.prodHead, Nat.le_add_right .., hentries, hle', hlt, ?_,
      ⟨rfl, rfl, rfl⟩⟩
    exact h.prod.mono rfl rfl le_rfl
  | loadObj n mask consHead i =>
    rw [hpc] at hstep hcons
    simp only at hstep
    split at hstep
    · split at hstep
      · cases hstep
      · cases hstep
        exact ⟨c, h.prodMask, h.consMask, h.consTail, h.consHead, h.prodTail, h.prodHead,
          h.tail_le_head, hle, hle', hlt, h.prod, hcons⟩
    · cases hstep
      obtain ⟨rfl, rfl, hnext⟩ := hcons
      refine ⟨{ c with consTail := c.consHead }, h.prodMask, h.consMask, ?_, h.consHead, h.prodTail,
        h.prodHead, le_rfl, hle, hle', hlt.trans_le ?_, ?_, rfl⟩
      · rw [ofNat_add_toNat, hnext]
      · exact Nat.add_le_add_right h.tail_le_head _
      · exact h.prod.mono rfl rfl h.tail_le_head

/-- A step of one of the threads. -/
theorem step (h : s.Inv k c) (hk : k < 32) {op : SpscOp α} (hstep : s.step op = .ok s') :
    ∃ c', s'.Inv k c' := by
  cases op with
  | enqueue n objTable fixed =>
    rw [Spsc.step] at hstep
    split at hstep
    · rename_i hpc
      cases hstep
      have hprod := h.prod
      rw [hpc] at hprod
      exact ⟨c, h.withProd hprod⟩
    · cases hstep
  | prod => exact h.prodStep hk hstep
  | dequeue n fixed =>
    rw [Spsc.step] at hstep
    split at hstep
    · rename_i hpc
      cases hstep
      have hcons := h.cons
      rw [hpc] at hcons
      exact ⟨c, h.withCons hcons⟩
    · cases hstep
  | cons => exact h.consStep hk hstep

/-- The slots that are written are those of the counters from `prod_tail` on. -/
theorem exists_of_mem_writes (h : s.Inv k c) {slot : UInt32} (hslot : slot ∈ s.writes) :
    ∃ i, c.prodTail ≤ i ∧ i < c.consTail + 2 ^ k ∧ slot = .ofNat i &&& (.ofNat (2 ^ k) - 1) := by
  have hprod := h.prod
  have hlt := h.lt
  rw [writes] at hslot
  cases hpc : s.prod <;> rw [hpc] at hslot hprod
  case storeHead n objTable mask prodHead =>
    obtain ⟨rfl, rfl, -, hroom⟩ := hprod
    obtain ⟨i, hi, rfl⟩ := List.mem_map.mp hslot
    rw [List.mem_range] at hi
    exact ⟨c.prodTail + i, Nat.le_add_right .., by omega, by rw [UInt32.ofNat_add]⟩
  case storeObj n objTable mask prodHead j =>
    obtain ⟨rfl, rfl, hnext⟩ := hprod
    obtain ⟨i, hi, rfl⟩ := List.mem_map.mp hslot
    rw [List.mem_range] at hi
    exact ⟨c.prodTail + i, Nat.le_add_right .., by omega, by rw [UInt32.ofNat_add]⟩
  all_goals cases hslot

theorem exists_of_mem_held (h : s.Inv k c) (hk : k < 32) {counter : UInt32}
    (hcounter : counter ∈ s.held) :
    ∃ i, c.consTail ≤ i ∧ i < c.prodTail ∧ counter = .ofNat i := by
  have hlt := h.lt
  have hle := h.le_prodHead
  obtain ⟨i, hi, rfl⟩ := List.mem_map.mp hcounter
  rw [List.mem_range, h.prodTail, h.consTail,
    toNat_sub hk (h.tail_le_head.trans h.head_le_tail) (by omega)] at hi
  exact ⟨c.consTail + i, Nat.le_add_right .., by omega, by rw [h.consTail, UInt32.ofNat_add]⟩

theorem inOrder (h : s.Inv k c) (hk : k < 32) : s.InOrder k where
  mask := h.prodMask
  consHead := by
    have hlt := h.lt
    have hle := h.head_le_tail
    have hle' := h.le_prodHead
    rw [UInt32.le_iff_toNat_le, h.consHead, h.consTail, h.prodTail,
      toNat_sub hk h.tail_le_head (by omega), toNat_sub hk (h.tail_le_head.trans hle) (by omega)]
    exact Nat.sub_le_sub_right hle _
  prodTail := by
    have hlt := h.lt
    have hle := h.tail_le_head.trans h.head_le_tail
    have hle' := h.le_prodHead
    rw [UInt32.le_iff_toNat_le, h.prodTail, h.consTail, h.prodHead, toNat_sub hk hle (by omega),
      toNat_sub hk (hle.trans hle') hlt]
    exact Nat.sub_le_sub_right hle' _
  prodHead := by
    have hlt := h.lt
    have hle := h.tail_le_head.trans (h.head_le_tail.trans h.le_prodHead)
    rw [UInt32.le_iff_toNat_le, h.prodHead, h.consTail, h.prodMask, toNat_sub hk hle hlt,
      RteRing.toNat_mask hk]
    omega
  disjoint := by
    intro slot hslot counter hcounter heq
    obtain ⟨i, hi, hroom, rfl⟩ := h.exists_of_mem_writes hslot
    obtain ⟨j, hj, hj', rfl⟩ := h.exists_of_mem_held hk hcounter
    refine RteRing.slot_ne hk (i := j) (j := i) (by omega) (by omega) (UInt32.toNat_inj.mp ?_)
    rw [RteRing.toNat_slot hk, Nat.mod_mod, UInt32.toNat_ofNat',
      Nat.mod_mod_of_dvd _ (Nat.pow_dvd_pow 2 hk.le)] at heq
    rw [RteRing.toNat_slot hk, RteRing.toNat_slot hk, heq]

/-- A ring of one slot never has an object to hand out. -/
theorem step_ne_divByZero (h : s.Inv k c) (hk : k < 32) (op : SpscOp α) :
    s.step op ≠ .error .divByZero := by
  intro hstep
  cases op with
  | enqueue n objTable fixed =>
    rw [Spsc.step] at hstep
    split at hstep <;> cases hstep
  | prod =>
    rw [Spsc.step, Spsc.prodStep] at hstep
    cases hpc : s.prod <;> rw [hpc] at hstep <;> simp only at hstep
    case loadTail => split at hstep <;> cases hstep
    case storeObj => split at hstep <;> cases hstep
    all_goals cases hstep
  | dequeue n fixed =>
    rw [Spsc.step] at hstep
    split at hstep <;> cases hstep
  | cons =>
    have hcons := h.cons
    rw [Spsc.step, Spsc.consStep] at hstep
    cases hpc : s.cons <;> rw [hpc] at hstep hcons <;> simp only at hstep
    case loadTail => split at hstep <;> cases hstep
    case loadObj n mask consHead i =>
      split at hstep
      · rename_i hi
        split at hstep
        · rename_i hzero
          obtain ⟨hmask, -, hnext⟩ := hcons
          have hsize := congrArg UInt32.toNat (hmask.symm.trans hzero)
          rw [RteRing.toNat_mask hk, UInt32.toNat_zero] at hsize
          have hlt := h.lt
          have hle := h.head_le_tail
          have hle' := h.le_prodHead
          omega
        · cases hstep
      · cases hstep
    all_goals cases hstep

end Inv

/-- **The producer never overruns the consumer**: in every state that the two threads reach,
whatever they call and in whatever order their loads and stores happen, the counters are in
order and the slots that are written are free, and the consumer does not divide by zero. -/
theorem inOrder_of_run (k : Fin 32) (memory : UInt32 → α) (objTable : ℕ → α)
    (ops : List (SpscOp α)) (s : Spsc α)
    (hrun : Run Spsc.step (fun _ _ => True) (start k memory objTable) ops s) :
    s.InOrder k ∧ ∀ op, s.step op ≠ .error .divByZero := by
  have hinv : ∃ c, s.Inv k c := by
    refine hrun.invariant (I := fun s => ∃ c, s.Inv k c) ?_ ⟨_, inv_start k memory objTable⟩
    rintro s op s' ⟨c, hinv⟩ - hstep
    exact hinv.step k.isLt hstep
  obtain ⟨c, hinv⟩ := hinv
  exact ⟨hinv.inOrder k.isLt, hinv.step_ne_divByZero k.isLt⟩

/-- A ring of four slots. The consumer is about to read the only object when the producer
stores into the two slots it has found free. -/
theorem inOrder_of_run_four : ∃ s : Spsc ℕ,
    Run Spsc.step (fun _ _ => True) (start 2 (fun _ => 0) fun _ => 0)
      [.enqueue 1 (· + 10) true, .prod, .prod, .prod, .prod, .prod, .prod,
        .dequeue 1 false, .cons, .cons, .enqueue 3 (· + 20) false, .prod, .prod, .cons, .cons,
        .prod, .prod, .prod] s ∧
    s.ring.consHead = 1 ∧ s.held = [0] ∧ s.writes = [1, 2] ∧ s.InOrder 2 := by
  obtain ⟨s, hrun, hhead, hheld, hwrites⟩ : ∃ s : Spsc ℕ,
      Run Spsc.step (fun _ _ => True) (start 2 (fun _ => 0) fun _ => 0)
        [.enqueue 1 (· + 10) true, .prod, .prod, .prod, .prod, .prod, .prod,
          .dequeue 1 false, .cons, .cons, .enqueue 3 (· + 20) false, .prod, .prod, .cons, .cons,
          .prod, .prod, .prod] s ∧
      s.ring.consHead = 1 ∧ s.held = [0] ∧ s.writes = [1, 2] :=
    ⟨_, .of_foldlM rfl, rfl, rfl, rfl⟩
  exact ⟨s, hrun, hhead, hheld, hwrites, (inOrder_of_run 2 _ _ _ s hrun).1⟩

end Spsc

end NaliStore
