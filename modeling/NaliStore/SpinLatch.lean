import Mathlib.Algebra.BigOperators.Fin
import Mathlib.Algebra.Order.BigOperators.Group.Finset
import NaliStore.Lib.Runs

/-!
# The latch

`SpinLatch` of `src/include/util/rwlock.h`: one signed byte, whose lowest bit is the writer
and whose other seven bits count the readers. A reader is counted before it looks whether it
may enter. Any number of threads use the latch; a thread takes it and gives it back in a
well-bracketed way, and between two atomic operations of a thread the others may do anything.

A thread may enter a read section inside a read section, and every one of them counts. At
128 the count wraps around to zero.
-/

namespace NaliStore

open Runs

/-- A section of a thread. -/
inductive Section where
  /-- between `RLock` and `RUnlock` -/
  | read
  /-- between `WLock` and `WUnlock` -/
  | write
  deriving DecidableEq, Repr

/-- Where a thread is between two atomic operations. -/
inductive LatchPc where
  /-- in no call -/
  | idle
  /-- in the loop of `WLock` -/
  | wLock
  /-- in the loop of `RLock` -/
  | rLock
  /-- in `TryRLock`, before the `load` -/
  | tryRLock
  /-- in `TryRLock`, before the second `fetch_add` -/
  | tryRLockBack
  deriving DecidableEq, Repr

/-- A thread. -/
structure LatchThread where
  /-- the sections it is in, the innermost first -/
  sections : List Section
  /-- where it is -/
  pc : LatchPc
  deriving DecidableEq, Repr

/-- What a thread does next. -/
inductive LatchOp where
  /-- calls `WLock` -/
  | wLock
  /-- calls `TryWLock`, whose `compare_exchange_weak` may fail for no reason -/
  | tryWLock (spurious : Bool)
  /-- calls `WUnlock` -/
  | wUnlock
  /-- calls `RLock` -/
  | rLock
  /-- calls `TryRLock` -/
  | tryRLock
  /-- calls `RUnlock` -/
  | rUnlock
  /-- takes the next atomic operation of its call -/
  | go (spurious : Bool)

/-- What a thread cannot do. -/
inductive LatchFault where
  /-- it is in another call -/
  | busy
  /-- its innermost section is another one -/
  | notMatching

namespace LatchThread

/-- One atomic operation on `_lock`. -/
def step (lock : Int8) (th : LatchThread) : LatchOp → Except LatchFault (Int8 × LatchThread)
  | .wLock => if th.pc = .idle then .ok (lock, { th with pc := .wLock }) else .error .busy
  | .tryWLock spurious =>
    if th.pc = .idle then
      if lock = 0 ∧ ¬ spurious then .ok (1, { th with sections := .write :: th.sections })
      else .ok (lock, th)
    else .error .busy
  | .wUnlock =>
    if th.pc = .idle then
      match th.sections with
      | .write :: sections => .ok (lock ^^^ 1, { th with sections })
      | _ => .error .notMatching
    else .error .busy
  | .rLock =>
    if th.pc = .idle then
      if lock &&& 1 ≠ 0 then .ok (lock + 2, { th with pc := .rLock })
      else .ok (lock + 2, { th with sections := .read :: th.sections })
    else .error .busy
  | .tryRLock => if th.pc = .idle then .ok (lock + 2, { th with pc := .tryRLock }) else .error .busy
  | .rUnlock =>
    if th.pc = .idle then
      match th.sections with
      | .read :: sections => .ok (lock + -2, { th with sections })
      | _ => .error .notMatching
    else .error .busy
  | .go spurious =>
    match th.pc with
    | .idle => .error .busy
    | .wLock =>
      if lock = 0 ∧ ¬ spurious then .ok (1, ⟨.write :: th.sections, .idle⟩) else .ok (lock, th)
    | .rLock => if lock &&& 1 ≠ 0 then .ok (lock, th) else .ok (lock, ⟨.read :: th.sections, .idle⟩)
    | .tryRLock =>
      if lock &&& 1 ≠ 0 then .ok (lock, { th with pc := .tryRLockBack })
      else .ok (lock, ⟨.read :: th.sections, .idle⟩)
    | .tryRLockBack => .ok (lock + -2, { th with pc := .idle })

/-- The thread is counted as a reader before it has entered. -/
def waits (th : LatchThread) : ℕ :=
  match th.pc with
  | .rLock => 1
  | .tryRLock => 1
  | .tryRLockBack => 1
  | _ => 0

/-- The read sections it is in. -/
def reads (th : LatchThread) : ℕ := th.sections.count .read

/-- How often it is counted as a reader. -/
def announced (th : LatchThread) : ℕ := th.reads + th.waits

/-- The write sections it is in. -/
def writes (th : LatchThread) : ℕ := th.sections.count .write

/-- It takes the latch only when it is in no section. -/
def Flat (th : LatchThread) : LatchOp → Prop
  | .wUnlock => True
  | .rUnlock => True
  | .go _ => True
  | _ => th.sections = []

/-- It is in no section and in no call that takes the latch for reading. -/
def Outside (th : LatchThread) : Prop := th.sections = [] ∧ th.waits = 0

end LatchThread

/-- `SpinLatch` and the threads that use it. -/
structure SpinLatch (n : ℕ) where
  /-- `_lock` -/
  lock : Int8
  /-- the threads -/
  threads : Fin n → LatchThread

namespace SpinLatch

variable {n : ℕ}

/-- A new latch. -/
def init (n : ℕ) : SpinLatch n := ⟨0, fun _ => ⟨[], .idle⟩⟩

/-- One atomic operation of one thread. -/
def step (s : SpinLatch n) (a : Fin n × LatchOp) : Except LatchFault (SpinLatch n) := do
  let (lock, th) ← (s.threads a.1).step s.lock a.2
  .ok ⟨lock, Function.update s.threads a.1 th⟩

/-- The read sections that are held or being entered. -/
def announced (s : SpinLatch n) : ℕ := ∑ t, (s.threads t).announced

/-- There is room for another reader. -/
def Room (s : SpinLatch n) (a : Fin n × LatchOp) : Prop :=
  match a.2 with
  | .rLock => s.announced < 127
  | .tryRLock => s.announced < 127
  | _ => True

/-- The latch is taken by threads that are in no section. -/
def Flat (s : SpinLatch n) (a : Fin n × LatchOp) : Prop := (s.threads a.1).Flat a.2

/-- Readers and writers exclude each other. -/
structure Excludes (s : SpinLatch n) : Prop where
  /-- one writer -/
  writer : ∀ t u, .write ∈ (s.threads t).sections → .write ∈ (s.threads u).sections → t = u
  /-- no reader beside it -/
  reader : ∀ t u, t ≠ u → .read ∈ (s.threads t).sections → .write ∉ (s.threads u).sections
  /-- the word at rest -/
  rest : (∀ t, (s.threads t).Outside) → s.lock = 0

end SpinLatch

/-! ## What an operation does -/

namespace LatchThread

variable {lock lock' : Int8} {th th' : LatchThread} {op : LatchOp}

/-- The effects of an atomic operation on the word and on what its thread counts for. -/
inductive Moves (lock : Int8) (th : LatchThread) (op : LatchOp) : Int8 → LatchThread → Prop
  /-- nothing changes -/
  | stay {th' : LatchThread} : th'.reads = th.reads → th'.announced = th.announced →
      th'.writes = th.writes → Moves lock th op lock th'
  /-- a reader is counted -/
  | announce {th' : LatchThread} : op = .rLock ∨ op = .tryRLock → th'.announced = th.announced + 1 →
      th'.writes = th.writes → (th'.reads ≠ th.reads → lock &&& 1 = 0) → Moves lock th op (lock + 2) th'
  /-- a reader that is counted enters -/
  | enter {th' : LatchThread} : lock &&& 1 = 0 → th'.announced = th.announced → th'.writes = th.writes →
      Moves lock th op lock th'
  /-- a reader is not counted any more -/
  | leave {th' : LatchThread} : th'.announced + 1 = th.announced → th'.reads ≤ th.reads → th'.writes = th.writes →
      Moves lock th op (lock + -2) th'
  /-- a writer enters -/
  | take {th' : LatchThread} : lock = 0 → th'.reads = th.reads → th'.announced = th.announced →
      th'.writes = th.writes + 1 → Moves lock th op 1 th'
  /-- a writer leaves -/
  | give {th' : LatchThread} : th'.reads = th.reads → th'.announced = th.announced →
      th'.writes + 1 = th.writes → Moves lock th op (lock ^^^ 1) th'

@[simp]
theorem reads_read_cons (sections : List Section) (pc : LatchPc) :
    (⟨.read :: sections, pc⟩ : LatchThread).reads = sections.count .read + 1 := List.count_cons_self

@[simp]
theorem reads_write_cons (sections : List Section) (pc : LatchPc) :
    (⟨.write :: sections, pc⟩ : LatchThread).reads = sections.count .read :=
  List.count_cons_of_ne (by decide)

theorem announced_write_cons (sections : List Section) (pc : LatchPc) :
    (⟨.write :: sections, pc⟩ : LatchThread).announced = (⟨sections, pc⟩ : LatchThread).announced := by
  rw [announced, reads_write_cons]
  rfl

@[simp]
theorem writes_read_cons (sections : List Section) (pc : LatchPc) :
    (⟨.read :: sections, pc⟩ : LatchThread).writes = sections.count .write :=
  List.count_cons_of_ne (by decide)

@[simp]
theorem writes_write_cons (sections : List Section) (pc : LatchPc) :
    (⟨.write :: sections, pc⟩ : LatchThread).writes = sections.count .write + 1 := List.count_cons_self

/-- A thread that takes the latch only outside its sections is in none when it does this. -/
def Takes (th : LatchThread) (op : LatchOp) : Prop := th.pc = .idle → th.Flat op → th.sections = []

/-- What an atomic operation does to the word and to its thread. -/
inductive Turn (lock : Int8) (th : LatchThread) (op : LatchOp) : Int8 → LatchThread → Prop
  /-- it waits, or has failed -/
  | wait {pc : LatchPc} : th.Takes op → (⟨th.sections, pc⟩ : LatchThread).waits = th.waits →
      Turn lock th op lock ⟨th.sections, pc⟩
  /-- it is counted as a reader, and waits -/
  | announce {pc : LatchPc} : th.Takes op → op = .rLock ∨ op = .tryRLock →
      (⟨th.sections, pc⟩ : LatchThread).waits = th.waits + 1 →
      Turn lock th op (lock + 2) ⟨th.sections, pc⟩
  /-- it is counted as a reader, and enters -/
  | read : th.Takes op → op = .rLock → lock &&& 1 = 0 → th.waits = 0 →
      Turn lock th op (lock + 2) ⟨.read :: th.sections, .idle⟩
  /-- a reader that waits enters -/
  | enter : th.Takes op → lock &&& 1 = 0 → th.waits = 1 →
      Turn lock th op lock ⟨.read :: th.sections, .idle⟩
  /-- a reader gives up -/
  | back : th.Takes op → th.waits = 1 → Turn lock th op (lock + -2) ⟨th.sections, .idle⟩
  /-- a writer enters -/
  | take : th.Takes op → lock = 0 → th.waits = 0 → Turn lock th op 1 ⟨.write :: th.sections, .idle⟩
  /-- a reader leaves -/
  | leave {sections : List Section} : th = ⟨.read :: sections, .idle⟩ →
      Turn lock th op (lock + -2) ⟨sections, .idle⟩
  /-- a writer leaves -/
  | give {sections : List Section} : th = ⟨.write :: sections, .idle⟩ →
      Turn lock th op (lock ^^^ 1) ⟨sections, .idle⟩

/-- **Every atomic operation** is one of the turns. -/
theorem turn_of_step (h : th.step lock op = .ok (lock', th')) : Turn lock th op lock' th' := by
  obtain ⟨sections, pc⟩ := th
  cases op with
  | wLock =>
    rw [step] at h
    split at h
    · rename_i hpc
      cases hpc
      cases h
      exact .wait (fun _ hflat => hflat) rfl
    · cases h
  | tryWLock spurious =>
    rw [step] at h
    split at h
    · rename_i hpc
      cases hpc
      split at h
      · rename_i hzero
        cases h
        exact .take (fun _ hflat => hflat) hzero.1 rfl
      · cases h
        exact .wait (fun _ hflat => hflat) rfl
    · cases h
  | wUnlock =>
    rw [step] at h
    split at h
    · rename_i hpc
      cases hpc
      split at h
      · rename_i sections' hsections
        cases hsections
        cases h
        exact .give rfl
      · cases h
    · cases h
  | rLock =>
    rw [step] at h
    split at h
    · rename_i hpc
      cases hpc
      split at h
      · cases h
        exact .announce (fun _ hflat => hflat) (.inl rfl) rfl
      · rename_i hbit
        cases h
        exact .read (fun _ hflat => hflat) rfl (not_not.mp hbit) rfl
    · cases h
  | tryRLock =>
    rw [step] at h
    split at h
    · rename_i hpc
      cases hpc
      cases h
      exact .announce (fun _ hflat => hflat) (.inr rfl) rfl
    · cases h
  | rUnlock =>
    rw [step] at h
    split at h
    · rename_i hpc
      cases hpc
      split at h
      · rename_i sections' hsections
        cases hsections
        cases h
        exact .leave rfl
      · cases h
    · cases h
  | go spurious =>
    rw [step] at h
    cases pc with
    | idle => cases h
    | wLock =>
      simp only at h
      split at h
      · rename_i hzero
        cases h
        exact .take nofun hzero.1 rfl
      · cases h
        exact .wait nofun rfl
    | rLock =>
      simp only at h
      split at h
      · cases h
        exact .wait nofun rfl
      · rename_i hbit
        cases h
        exact .enter nofun (not_not.mp hbit) rfl
    | tryRLock =>
      simp only at h
      split at h
      · cases h
        exact .wait nofun rfl
      · rename_i hbit
        cases h
        exact .enter nofun (not_not.mp hbit) rfl
    | tryRLockBack =>
      cases h
      exact .back nofun rfl

/-- What the operations do to what their threads count for. -/
theorem moves_of_step (h : th.step lock op = .ok (lock', th')) : Moves lock th op lock' th' := by
  cases turn_of_step h with
  | wait _ hw => exact .stay rfl (congrArg (th.reads + ·) hw) rfl
  | announce _ hop hw =>
    exact .announce hop (congrArg (th.reads + ·) hw) rfl fun hne => absurd rfl hne
  | read _ hop hbit hw =>
    refine .announce (.inl hop) ?_ (writes_read_cons ..) fun _ => hbit
    rw [announced, announced, reads_read_cons, hw]
    rfl
  | enter _ hbit hw =>
    refine .enter hbit ?_ (writes_read_cons ..)
    rw [announced, announced, reads_read_cons, hw]
    rfl
  | back _ hw =>
    refine .leave ?_ le_rfl rfl
    rw [announced, announced, hw]
    rfl
  | take _ hzero hw =>
    refine .take hzero (reads_write_cons ..) ?_ (writes_write_cons ..)
    rw [announced_write_cons, announced, announced, hw]
    rfl
  | leave hth =>
    subst hth
    refine .leave ?_ ?_ (writes_read_cons ..).symm
    · rw [announced, announced, reads_read_cons, Nat.add_right_comm]
      rfl
    · rw [reads_read_cons]
      exact Nat.le_succ _
  | give hth =>
    subst hth
    exact .give (reads_write_cons ..).symm (announced_write_cons ..).symm (writes_write_cons ..).symm

end LatchThread

/-! ## The word -/

namespace SpinLatch

section Word

theorem ofNat_add_two (m : ℕ) : Int8.ofNat m + 2 = Int8.ofNat (m + 2) := (Int8.ofNat_add m 2).symm

theorem ofNat_add_neg_two (m : ℕ) : Int8.ofNat (m + 2) + -2 = Int8.ofNat m := by
  have hcancel : Int8.ofNat 2 + -2 = 0 := by decide
  rw [Int8.ofNat_add, Int8.add_assoc, hcancel, Int8.add_zero]

theorem ofNat_xor_one {m : ℕ} (hm : m < 128) : Int8.ofNat (2 * m + 1) ^^^ 1 = Int8.ofNat (2 * m) := by
  revert m
  decide +kernel

theorem eq_zero_of_ofNat {m : ℕ} (hm : m < 256) (h : Int8.ofNat m = 0) : m = 0 := by
  revert m
  decide +kernel

theorem even_of_ofNat {m : ℕ} (hm : m < 256) (h : Int8.ofNat m &&& 1 = 0) : m % 2 = 0 := by
  revert m
  decide +kernel

end Word

/-! ## The invariant -/

variable {n : ℕ} {s s' : SpinLatch n} {a : Fin n × LatchOp}

/-- The write sections that are held. -/
def writes (s : SpinLatch n) : ℕ := ∑ t, (s.threads t).writes

/-- The read sections that are held. -/
def reads (s : SpinLatch n) : ℕ := ∑ t, (s.threads t).reads

/-- The word counts the readers and the writer, and there is no overflow. -/
structure Inv (s : SpinLatch n) : Prop where
  lock : s.lock = .ofNat (2 * s.announced + s.writes)
  announced : s.announced ≤ 127
  writes : s.writes ≤ 1
  excludes : s.writes = 0 ∨ s.reads = 0

/-- A sum over the threads when one of them changes. -/
theorem sum_update (f : LatchThread → ℕ) (threads : Fin n → LatchThread) (t : Fin n) (th : LatchThread) :
    (∑ u, f (Function.update threads t th u)) + f (threads t) = (∑ u, f (threads u)) + f th := by
  have hout : ∀ u ∈ Finset.univ.erase t, f (Function.update threads t th u) = f (threads u) := by
    intro u hu
    rw [Function.update_of_ne (Finset.ne_of_mem_erase hu)]
  rw [← Finset.add_sum_erase _ _ (Finset.mem_univ t), ← Finset.add_sum_erase _ (fun u => f (threads u))
    (Finset.mem_univ t), Finset.sum_congr rfl hout, Function.update_self]
  omega

theorem inv_init (n : ℕ) : (init n).Inv := by
  have hannounced : (init n).announced = 0 := Finset.sum_const_zero
  have hwrites : (init n).writes = 0 := Finset.sum_const_zero
  refine ⟨?_, ?_, ?_, .inl hwrites⟩
  · rw [hannounced, hwrites]
    rfl
  · rw [hannounced]
    exact Nat.zero_le _
  · rw [hwrites]
    exact Nat.zero_le _

theorem reads_le_announced (s : SpinLatch n) : s.reads ≤ s.announced :=
  Finset.sum_le_sum fun _ _ => Nat.le_add_right ..

/-- There is no writer when the lowest bit is clear. -/
theorem Inv.writes_eq_zero (h : s.Inv) (hbit : s.lock &&& 1 = 0) : s.writes = 0 := by
  have hle := h.announced
  have hone := h.writes
  rw [h.lock] at hbit
  have heven := even_of_ofNat (by omega) hbit
  omega

/-- What the other threads count for stays the same. -/
theorem moves_of_step {t : Fin n} {op : LatchOp} (hstep : s.step (t, op) = .ok s') :
    ∃ lock th, s'.lock = lock ∧ LatchThread.Moves s.lock (s.threads t) op lock th ∧
      s'.reads + (s.threads t).reads = s.reads + th.reads ∧
      s'.announced + (s.threads t).announced = s.announced + th.announced ∧
      s'.writes + (s.threads t).writes = s.writes + th.writes := by
  obtain ⟨⟨lock, th⟩, hth, hs'⟩ := bind_eq_ok hstep
  obtain rfl := Except.ok.inj hs'
  exact ⟨lock, th, rfl, LatchThread.moves_of_step hth, sum_update LatchThread.reads s.threads t th,
    sum_update LatchThread.announced s.threads t th, sum_update LatchThread.writes s.threads t th⟩

/-- **One atomic operation** keeps the invariant. -/
theorem Inv.step (h : s.Inv) (hroom : s.Room a) (hstep : s.step a = .ok s') : s'.Inv := by
  obtain ⟨t, op⟩ := a
  obtain ⟨lock, th, hlock, hmoves, hR, hA, hW⟩ := moves_of_step hstep
  have hle := h.announced
  have hone := h.writes
  have hexcl := h.excludes
  cases hmoves with
  | stay hr ha hw =>
    have hA' : s'.announced = s.announced := by omega
    have hW' : s'.writes = s.writes := by omega
    have hR' : s'.reads = s.reads := by omega
    exact ⟨by rw [hlock, h.lock, hA', hW'], hA' ▸ hle, hW' ▸ hone, by rw [hW', hR']; exact hexcl⟩
  | announce hop ha hw hr =>
    have hlt : s.announced < 127 := by rcases hop with rfl | rfl <;> exact hroom
    have hA' : s'.announced = s.announced + 1 := by omega
    have hW' : s'.writes = s.writes := by omega
    refine ⟨?_, by omega, by omega, ?_⟩
    · rw [hlock, h.lock, ofNat_add_two, hA', hW', Nat.mul_add, Nat.add_right_comm]
    · rcases eq_or_ne th.reads (s.threads t).reads with heq | hne
      · omega
      · exact .inl (hW'.trans (h.writes_eq_zero (hr hne)))
  | enter hbit ha hw =>
    have hA' : s'.announced = s.announced := by omega
    have hW' : s'.writes = s.writes := by omega
    exact ⟨by rw [hlock, h.lock, hA', hW'], hA' ▸ hle, hW' ▸ hone,
      .inl (hW'.trans (h.writes_eq_zero hbit))⟩
  | leave ha hr hw =>
    have hA' : s.announced = s'.announced + 1 := by omega
    have hW' : s'.writes = s.writes := by omega
    refine ⟨?_, by omega, by omega, by omega⟩
    rw [hlock, h.lock, hA', hW', Nat.mul_add, Nat.add_right_comm, ofNat_add_neg_two]
  | take hzero hr ha hw =>
    have hra := s.reads_le_announced
    rw [h.lock] at hzero
    have hsum := eq_zero_of_ofNat (by omega) hzero
    have hA' : s'.announced = 0 := by omega
    have hW' : s'.writes = 1 := by omega
    exact ⟨by rw [hlock, hA', hW']; rfl, by omega, by omega, .inr (by omega)⟩
  | give hr ha hw =>
    have hA' : s'.announced = s.announced := by omega
    have hW' : s'.writes = 0 := by omega
    have hW : s.writes = 1 := by omega
    exact ⟨by rw [hlock, h.lock, hA', hW', hW, ofNat_xor_one (by omega), Nat.add_zero], by omega, by omega,
      .inl hW'⟩

/-! ## Exclusion -/

theorem Inv.excludes_of (h : s.Inv) : s.Excludes := by
  have hmem : ∀ {x : Section} {t : Fin n}, x ∈ (s.threads t).sections →
      0 < (s.threads t).sections.count x := fun hx => List.count_pos_iff.mpr hx
  have hwrites : ∀ t, .write ∈ (s.threads t).sections → 0 < s.writes := fun t ht =>
    (hmem ht).trans_le (Finset.single_le_sum (f := fun t => (s.threads t).writes)
      (fun _ _ => Nat.zero_le _) (Finset.mem_univ t))
  have hreads : ∀ t, .read ∈ (s.threads t).sections → 0 < s.reads := fun t ht =>
    (hmem ht).trans_le (Finset.single_le_sum (f := fun t => (s.threads t).reads)
      (fun _ _ => Nat.zero_le _) (Finset.mem_univ t))
  refine ⟨fun t u ht hu => ?_, fun t u _ ht hu => ?_, fun hall => ?_⟩
  · by_contra hne
    have htwo := Finset.add_le_sum (f := fun t => (s.threads t).writes) (fun _ _ => Nat.zero_le _)
      (Finset.mem_univ t) (Finset.mem_univ u) hne
    have h₁ : 0 < (s.threads t).writes := hmem ht
    have h₂ : 0 < (s.threads u).writes := hmem hu
    have hone : ∑ t, (s.threads t).writes ≤ 1 := h.writes
    omega
  · have h₁ := hwrites u hu
    have h₂ := hreads t ht
    have hexcl := h.excludes
    omega
  · have hA : s.announced = 0 := Finset.sum_eq_zero fun t _ => by
      rw [LatchThread.announced, LatchThread.reads, (hall t).1, (hall t).2]
      rfl
    have hW : s.writes = 0 := Finset.sum_eq_zero fun t _ => by
      rw [LatchThread.writes, (hall t).1]
      rfl
    rw [h.lock, hA, hW]
    rfl

end SpinLatch

namespace LatchThread

variable {lock lock' : Int8} {th th' : LatchThread} {op : LatchOp}

/-- The thread is in one section, or takes the latch in none. -/
def IsFlat (th : LatchThread) : Prop := th.sections.length ≤ 1 ∧ (th.pc ≠ .idle → th.sections = [])

theorem IsFlat.announced_le_one (h : th.IsFlat) : th.announced ≤ 1 := by
  obtain ⟨sections, pc⟩ := th
  have hcount : sections.count .read ≤ sections.length := List.count_le_length
  have hlength := h.1
  cases pc with
  | idle => exact hcount.trans hlength
  | wLock => exact hcount.trans hlength
  | rLock => rw [announced, reads, h.2 nofun]; exact le_rfl
  | tryRLock => rw [announced, reads, h.2 nofun]; exact le_rfl
  | tryRLockBack => rw [announced, reads, h.2 nofun]; exact le_rfl

/-- A thread that takes the latch only outside its sections. -/
theorem IsFlat.step (h : th.IsFlat) (hflat : th.Flat op) (hstep : th.step lock op = .ok (lock', th')) :
    th'.IsFlat := by
  have hone : ∀ x : Section, (⟨[x], .idle⟩ : LatchThread).IsFlat := fun _ => ⟨le_rfl, fun hne => absurd rfl hne⟩
  -- outside of a section, unless it leaves one
  have hnil : th.Takes op → th.sections = [] := by
    intro htakes
    by_cases hidle : th.pc = .idle
    · exact htakes hidle hflat
    · exact h.2 hidle
  have htail : ∀ {x : Section} {sections : List Section}, th = ⟨x :: sections, .idle⟩ →
      (⟨sections, .idle⟩ : LatchThread).IsFlat := by
    rintro x sections rfl
    exact ⟨(Nat.le_succ _).trans h.1, fun hne => absurd rfl hne⟩
  cases turn_of_step hstep with
  | wait htakes _ => exact ⟨h.1, fun _ => hnil htakes⟩
  | announce htakes _ _ => exact ⟨h.1, fun _ => hnil htakes⟩
  | read htakes _ _ _ =>
    rw [hnil htakes]
    exact hone _
  | enter htakes _ _ =>
    rw [hnil htakes]
    exact hone _
  | back htakes _ => exact ⟨h.1, fun _ => hnil htakes⟩
  | take htakes _ _ =>
    rw [hnil htakes]
    exact hone _
  | leave hth => exact htail hth
  | give hth => exact htail hth

end LatchThread

namespace SpinLatch

variable {n : ℕ} {s s' : SpinLatch n} {a : Fin n × LatchOp}

/-- 64 threads that take the latch only outside their sections leave room. -/
theorem room_of_flat (hn : n ≤ 64) (hall : ∀ t, (s.threads t).IsFlat) (a : Fin n × LatchOp) : s.Room a := by
  have hsum : s.announced ≤ n := by
    calc s.announced ≤ ∑ _ : Fin n, 1 := Finset.sum_le_sum fun t _ => (hall t).announced_le_one
      _ = n := by simp only [Finset.sum_const, Finset.card_univ, Fintype.card_fin, smul_eq_mul, mul_one]
  have hlt : s.announced < 127 := by omega
  rw [Room]
  split
  · exact hlt
  · exact hlt
  · trivial

/-- **Readers and writers exclude each other** in every state of every run in which at most
127 read sections are held or being entered at a time. At most 64 threads that take the
latch only outside their sections cannot exceed that. -/
theorem excludes (n : ℕ) (acts : List (Fin n × LatchOp)) (s : SpinLatch n) :
    (Run SpinLatch.step Room (init n) acts s → s.Excludes) ∧
      (n ≤ 64 → Run SpinLatch.step Flat (init n) acts s → s.Excludes) := by
  refine ⟨fun hrun => ?_, fun hn hrun => ?_⟩
  · have hinv : s.Inv := hrun.invariant (fun _ _ _ h hroom hstep => h.step hroom hstep) (inv_init n)
    exact hinv.excludes_of
  · have hinv : s.Inv ∧ ∀ t, (s.threads t).IsFlat := by
      apply hrun.invariant (I := fun s : SpinLatch n => s.Inv ∧ ∀ t, (s.threads t).IsFlat)
      · rintro s ⟨t, op⟩ s' ⟨h, hall⟩ hflat hstep
        refine ⟨h.step (room_of_flat hn hall _) hstep, fun u => ?_⟩
        obtain ⟨⟨lock, th⟩, hth, hs'⟩ := bind_eq_ok hstep
        obtain rfl := Except.ok.inj hs'
        rcases eq_or_ne u t with rfl | hne
        · simp only [Function.update_self]
          exact (hall u).step hflat hth
        · simp only [Function.update_of_ne hne]
          exact hall u
      · exact ⟨inv_init n, fun t => ⟨Nat.zero_le _, fun _ => rfl⟩⟩
    exact hinv.1.excludes_of

/-- A reader and a writer, which does not get in. -/
theorem excludes_two : ∃ s : SpinLatch 2,
    Run SpinLatch.step Room (init 2) [(0, .rLock), (1, .wLock), (1, .go false)] s ∧
      Run SpinLatch.step Flat (init 2) [(0, .rLock), (1, .wLock), (1, .go false)] s ∧
      (s.threads 0).sections = [.read] ∧ s.Excludes := by
  have hrun : ∃ s : SpinLatch 2,
      Run SpinLatch.step (fun s a => s.Room a ∧ s.Flat a) (init 2)
        [(0, .rLock), (1, .wLock), (1, .go false)] s ∧ (s.threads 0).sections = [.read] := by
    refine ⟨_, .cons ⟨?_, rfl⟩ rfl (.cons ⟨trivial, rfl⟩ rfl (.cons ⟨trivial, trivial⟩ rfl (.nil _))), rfl⟩
    have hzero : (init 2).announced = 0 := Finset.sum_const_zero
    exact hzero.trans_lt (by decide)
  obtain ⟨s, hrun, hsections⟩ := hrun
  have hroom := hrun.mono fun _ _ h => h.1
  exact ⟨s, hroom, hrun.mono fun _ _ h => h.2, hsections, (excludes 2 _ s).1 hroom⟩

/-- Thread 0 is in `k` read sections. -/
def nested (k : ℕ) : SpinLatch 2 :=
  ⟨.ofNat (2 * k), fun t => if t.val = 0 then ⟨List.replicate k .read, .idle⟩ else ⟨[], .idle⟩⟩

theorem run_nested {k : ℕ} (hk : k ≤ 128) :
    Run SpinLatch.step (fun _ _ => True) (init 2) (List.replicate k (0, .rLock)) (nested k) := by
  induction k with
  | zero =>
    have hinit : nested 0 = init 2 := by
      rw [nested, init]
      congr
      funext t
      split <;> rfl
    rw [hinit]
    exact .nil _
  | succ k ih =>
    have hbit : ∀ k < 128, Int8.ofNat (2 * k) &&& 1 = 0 := by decide +kernel
    have hthread : ((nested k).threads 0).step (nested k).lock .rLock =
        .ok (.ofNat (2 * (k + 1)), ⟨List.replicate (k + 1) .read, .idle⟩) := by
      have hidle : ((nested k).threads 0).pc = .idle := rfl
      have hlock : (nested k).lock &&& 1 = 0 := hbit k hk
      rw [LatchThread.step, if_pos hidle, if_neg (not_not_intro hlock), Nat.mul_add, ← ofNat_add_two]
      rfl
    have hstep : (nested k).step (0, .rLock) = .ok (nested (k + 1)) := by
      rw [SpinLatch.step, hthread]
      refine congrArg Except.ok (congrArg (SpinLatch.mk _) (funext fun t => ?_))
      rcases eq_or_ne t 0 with rfl | hne
      · exact Function.update_self ..
      · rw [Function.update_of_ne hne]
        simp only [nested, Fin.val_eq_zero_iff, hne, if_false]
    rw [List.replicate_succ']
    exact (ih (by omega)).append (.single trivial hstep)

/-- A thread enters 128 read sections, one inside the other. The count of the readers is zero
again, and a writer enters. -/
theorem reader_beside_writer : ∃ s : SpinLatch 2,
    Run SpinLatch.step (fun _ _ => True) (init 2)
        (List.replicate 128 (0, .rLock) ++ [(1, .wLock), (1, .go false)]) s ∧
      .read ∈ (s.threads 0).sections ∧ .write ∈ (s.threads 1).sections ∧ ¬ s.Excludes := by
  obtain ⟨s, hrun, hread, hwrite⟩ : ∃ s : SpinLatch 2,
      Run SpinLatch.step (fun _ _ => True) (nested 128) [(1, .wLock), (1, .go false)] s ∧
        .read ∈ (s.threads 0).sections ∧ .write ∈ (s.threads 1).sections := by
    refine ⟨_, .cons trivial rfl (.cons trivial rfl (.nil _)), ?_, ?_⟩
    · exact List.mem_cons_self ..
    · exact List.mem_cons_self ..
  exact ⟨s, (run_nested le_rfl).append hrun, hread, hwrite, fun h => h.reader 0 1 (by decide) hread hwrite⟩

end SpinLatch

end NaliStore
