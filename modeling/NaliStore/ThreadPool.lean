import Mathlib.Data.UInt
import Mathlib.Data.List.Basic
import Mathlib.Algebra.BigOperators.Group.List.Basic
import NaliStore.Lib.Runs

/-!
# The thread pool

`ThreadPool` of `src/include/thread_pool.h`. Callers choose a worker, put a task into its
queue under the worker's mutex, and notify it afterwards. A worker takes the tasks of its
queue one after the other and sleeps when there is none; `~Worker` sets `stop`, notifies,
joins the thread and deletes the mutex. Every section under a mutex is one step, and the
steps of callers, workers and destructors come in any order.

The hint `busy_bits` is read with a relaxed load and the fallback is a random number, so
nothing is assumed of the two values that a call sees. The number of workers is the divisor
of both computations of an index, and the constructor accepts 0.
-/

namespace NaliStore

open Runs

/-- What stops a step. -/
inductive PoolFault where
  /-- `% 0` -/
  | divByZero
  /-- `workers[tid]` with a `tid` that is too large -/
  | outOfBounds
  /-- `w_` has been deleted -/
  | useAfterFree
  /-- nothing can be done here now -/
  | blocked
  deriving DecidableEq, Repr

/-- Where a worker thread is in `routine`. -/
inductive WorkerPc (τ : Type) where
  /-- before it takes the mutex -/
  | top
  /-- in `cv.wait` -/
  | asleep
  /-- in `cv.wait`, before it takes the mutex again -/
  | woken
  /-- in `task()` -/
  | running (task : τ)
  /-- `routine` has returned -/
  | returned

/-- How far `~Worker` is. -/
inductive DtorPc where
  /-- it has not been called -/
  | alive
  /-- before `notify_one` -/
  | notify
  /-- before `join` -/
  | join
  /-- `w_` is deleted -/
  | deleted
  deriving DecidableEq, Repr

/-- `Worker`, with the tasks it has been given. -/
structure Worker (τ : Type) where
  /-- `tasks` -/
  tasks : List τ
  /-- `stop` -/
  stop : Bool
  /-- where the thread is -/
  pc : WorkerPc τ
  /-- where the destructor is -/
  dtor : DtorPc
  /-- the tasks whose `enqueue` did not throw, oldest first -/
  accepted : List τ
  /-- the tasks that have been started, oldest first -/
  started : List τ

namespace Worker

variable {τ : Type}

/-- A new worker. -/
def fresh : Worker τ := ⟨[], false, .top, .alive, [], []⟩

/-- `task = std::move(tasks.front()); tasks.pop();` -/
def start (wk : Worker τ) (task : τ) (rest : List τ) : Worker τ :=
  { wk with tasks := rest, pc := .running task, started := wk.started ++ [task] }

/-- The next step of `routine` in worker number `tid`. -/
def routine (wk : Worker τ) (tid : ℕ) (busyBits : UInt64) : Except PoolFault (Worker τ × UInt64) :=
  match wk.pc with
  | .top =>
    match wk.tasks with
    | [] =>
      let busyBits := busyBits &&& ~~~((1 : UInt64) <<< UInt64.ofNat tid)
      -- the predicate of `wait` is looked at before the first sleep
      if wk.stop then .ok ({ wk with pc := .returned }, busyBits)
      else .ok ({ wk with pc := .asleep }, busyBits)
    | task :: rest => .ok (wk.start task rest, busyBits)
  | .asleep => .error .blocked
  | .woken =>
    match wk.tasks with
    | [] => .ok ({ wk with pc := if wk.stop then .returned else .asleep }, busyBits)
    | task :: rest => .ok (wk.start task rest, busyBits ||| (1 : UInt64) <<< UInt64.ofNat tid)
  | .running _ => .ok ({ wk with pc := .top }, busyBits)
  | .returned => .error .blocked

/-- `tasks.emplace(task)` -/
def enqueue (wk : Worker τ) (task : τ) : Worker τ :=
  { wk with tasks := wk.tasks ++ [task], accepted := wk.accepted ++ [task] }

/-- `cv.notify_one()` -/
def notify (wk : Worker τ) : Worker τ :=
  match wk.pc with
  | .asleep => { wk with pc := .woken }
  | _ => wk

end Worker

/-- Where a call of `execute_forward` is. -/
inductive CallPc (τ : Type) where
  /-- before it takes the mutex -/
  | enqueue (tid : ℕ) (task : τ)
  /-- before `notify_one` -/
  | notify (tid : ℕ)
  /-- it has returned -/
  | returned
  /-- it has thrown -/
  | threw

/-- `ThreadPool` -/
structure ThreadPool (τ : Type) where
  /-- `busy_bits` -/
  busyBits : UInt64
  /-- `workers` -/
  workers : List (Worker τ)
  /-- the calls that have been made -/
  calls : List (CallPc τ)

/-- What happens next. -/
inductive PoolAct (τ : Type) where
  /-- `execute(task)` is called, sees `busyBits` and draws `rng` -/
  | execute (task : τ) (busyBits : UInt64) (rng : ℕ)
  /-- `execute_forward(tid, task)` is called -/
  | executeForward (tid : UInt8) (task : τ)
  /-- the next step of a call -/
  | call (i : ℕ)
  /-- the next step of a worker thread -/
  | worker (tid : ℕ)
  /-- a worker wakes up for no reason -/
  | spurious (tid : ℕ)
  /-- `~Worker` is called and sets `stop` -/
  | destroy (tid : ℕ)
  /-- the next step of `~Worker` -/
  | dtor (tid : ℕ)

/-- `ffsll` -/
def ffsll (x : UInt64) : ℕ := (((List.range 64).find? fun i => x.toNat.testBit i).map (· + 1)).getD 0

/-! The steps that are left to something that has begun are at most its weight. A task that
is enqueued costs its worker two steps, and a worker that is woken one more. -/

/-- The weight of a place in `routine`. -/
def WorkerPc.weight {τ : Type} : WorkerPc τ → ℕ
  | .top => 1
  | .asleep => 0
  | .woken => 1
  | .running _ => 2
  | .returned => 0

/-- The weight of a place in `~Worker`. -/
def DtorPc.weight : DtorPc → ℕ
  | .alive => 0
  | .notify => 3
  | .join => 1
  | .deleted => 0

/-- The weight of a worker. -/
def Worker.weight {τ : Type} (wk : Worker τ) : ℕ := 2 * wk.tasks.length + wk.pc.weight + wk.dtor.weight

/-- The weight of a call. -/
def CallPc.weight {τ : Type} : CallPc τ → ℕ
  | .enqueue _ _ => 5
  | .notify _ => 2
  | .returned => 0
  | .threw => 0

namespace ThreadPool

variable {τ : Type}

/-- `max_thread_count` -/
def maxThreadCount : UInt8 := 64

/-- `count` -/
def count (s : ThreadPool τ) : UInt8 := .ofNat s.workers.length

/-- `add_threads` -/
def addThreads (s : ThreadPool τ) (threads : UInt8) : ThreadPool τ :=
  { s with workers := s.workers ++ List.replicate (min threads (maxThreadCount - s.count)).toNat .fresh }

/-- The constructor. -/
def create (threads : UInt8) : ThreadPool τ := addThreads ⟨0, [], []⟩ threads

/-- The worker that `execute` asks for. -/
def executeTid (count : UInt8) (busyBits : UInt64) (rng : ℕ) : Except PoolFault UInt8 :=
  let tid : UInt8 := .ofNat (ffsll (~~~busyBits))
  if tid = 0 ∨ tid > count then
    if count = 0 then .error .divByZero else .ok (.ofNat (rng % count.toNat))
  else .ok (tid - 1)

/-- `tid %= count()` -/
def forwardTid (count tid : UInt8) : Except PoolFault UInt8 :=
  if count = 0 then .error .divByZero else .ok (tid % count)

/-- `execute_forward` up to the mutex -/
def executeForward (s : ThreadPool τ) (tid : UInt8) (task : τ) : Except PoolFault (ThreadPool τ) := do
  let tid ← forwardTid s.count tid
  .ok { s with calls := s.calls ++ [.enqueue tid.toNat task] }

/-- `workers[tid]` -/
def workerAt (s : ThreadPool τ) (tid : ℕ) : Except PoolFault (Worker τ) :=
  match s.workers[tid]? with
  | none => .error .outOfBounds
  | some wk => .ok wk

/-- A worker whose `w_` is there. -/
def liveAt (s : ThreadPool τ) (tid : ℕ) : Except PoolFault (Worker τ) := do
  let wk ← s.workerAt tid
  if wk.dtor = .deleted then .error .useAfterFree else .ok wk

/-- Only a worker that exists has a thread and a destructor. -/
def thisAt (s : ThreadPool τ) (tid : ℕ) : Except PoolFault (Worker τ) :=
  match s.workers[tid]? with
  | none => .error .blocked
  | some wk => .ok wk

/-- The next step of a call. -/
def runCall (s : ThreadPool τ) (i : ℕ) : Except PoolFault (ThreadPool τ) :=
  match s.calls[i]? with
  | some (.enqueue tid task) => do
    let wk ← s.liveAt tid
    if wk.stop then .ok { s with calls := s.calls.set i .threw }
    else .ok { s with
      workers := s.workers.set tid (wk.enqueue task)
      calls := s.calls.set i (.notify tid) }
  | some (.notify tid) => do
    let wk ← s.liveAt tid
    .ok { s with workers := s.workers.set tid wk.notify, calls := s.calls.set i .returned }
  | _ => .error .blocked

/-- The next step of `~Worker`. -/
def runDtor (s : ThreadPool τ) (tid : ℕ) : Except PoolFault (ThreadPool τ) := do
  let wk ← s.thisAt tid
  match wk.dtor with
  | .notify => .ok { s with workers := s.workers.set tid { wk.notify with dtor := .join } }
  | .join =>
    match wk.pc with
    | .returned => .ok { s with workers := s.workers.set tid { wk with dtor := .deleted } }
    | _ => .error .blocked
  | _ => .error .blocked

/-- One step. -/
def step (s : ThreadPool τ) : PoolAct τ → Except PoolFault (ThreadPool τ)
  | .execute task busyBits rng => do
    let tid ← executeTid s.count busyBits rng
    s.executeForward tid task
  | .executeForward tid task => s.executeForward tid task
  | .call i => s.runCall i
  | .worker tid => do
    let wk ← s.thisAt tid
    let (wk, busyBits) ← wk.routine tid s.busyBits
    .ok { s with busyBits, workers := s.workers.set tid wk }
  | .spurious tid => do
    let wk ← s.thisAt tid
    .ok { s with workers := s.workers.set tid wk.notify }
  | .destroy tid => do
    let wk ← s.thisAt tid
    if wk.dtor = .alive then
      .ok { s with workers := s.workers.set tid { wk with stop := true, dtor := .notify } }
    else .error .blocked
  | .dtor tid => s.runDtor tid

/-! ## What is said of a pool -/

/-- A step of something that has begun: a call, a worker thread or a destructor. -/
def Internal : PoolAct τ → Prop
  | .call _ => True
  | .worker _ => True
  | .dtor _ => True
  | _ => False

/-- A call does not go on to a worker whose `w_` has been deleted. -/
def Alive (s : ThreadPool τ) : PoolAct τ → Prop
  | .call i => ∀ tid wk, s.workers[tid]? = some wk →
      (∃ task, s.calls[i]? = some (.enqueue tid task)) ∨ s.calls[i]? = some (.notify tid) →
        wk.dtor ≠ .deleted
  | _ => True

/-- Nothing that has begun can go on. -/
def Quiet (s : ThreadPool τ) : Prop := ∀ a, Internal a → s.step a = .error .blocked

/-- The steps that are left to what has begun are at most the weight. -/
def weight (s : ThreadPool τ) : ℕ := (s.workers.map Worker.weight).sum + (s.calls.map CallPc.weight).sum

/-- The pool does its work. -/
structure Sound (s : ThreadPool τ) : Prop where
  /-- `execute` chooses a worker -/
  execute : ∀ busyBits rng, ∃ tid, executeTid s.count busyBits rng = .ok tid ∧
    tid.toNat < s.workers.length
  /-- `execute_forward` chooses a worker -/
  forward : ∀ tid, ∃ tid', forwardTid s.count tid = .ok tid' ∧ tid'.toNat < s.workers.length
  /-- a step can be taken or has to wait -/
  defined : ∀ a, s.Alive a → (∃ s', s.step a = .ok s') ∨ s.step a = .error .blocked
  /-- the tasks of a worker are started once and in order -/
  order : ∀ wk ∈ s.workers, wk.started ++ wk.tasks = wk.accepted
  /-- a worker thread returns when there is nothing left to do -/
  returned : ∀ wk ∈ s.workers, wk.pc = .returned → wk.tasks = [] ∧ wk.stop
  /-- what has begun comes to an end, whatever the order of the steps -/
  ends : ∀ acts s', Run step (fun _ a => Internal a) s acts s' → acts.length ≤ s.weight
  /-- and then every task has been executed -/
  executed : s.Quiet → ∀ wk ∈ s.workers, wk.started = wk.accepted ∧ ∀ task, wk.pc ≠ .running task

/-! ## The steps -/

/-- What a step can do. -/
inductive Effect (s : ThreadPool τ) : PoolAct τ → ThreadPool τ → Prop
  /-- a call begins -/
  | begin {a : PoolAct τ} (tid : ℕ) (task : τ) : ¬ Internal a → tid < s.count.toNat →
      Effect s a { s with calls := s.calls ++ [.enqueue tid task] }
  /-- a call throws -/
  | throws {i tid : ℕ} {task : τ} : s.calls[i]? = some (.enqueue tid task) →
      Effect s (.call i) { s with calls := s.calls.set i .threw }
  /-- a call enqueues its task -/
  | enqueue {i tid : ℕ} {task : τ} {wk : Worker τ} : s.calls[i]? = some (.enqueue tid task) →
      s.workers[tid]? = some wk → wk.stop = false →
      Effect s (.call i) { s with
        workers := s.workers.set tid (wk.enqueue task)
        calls := s.calls.set i (.notify tid) }
  /-- a call notifies its worker -/
  | notify {i tid : ℕ} {wk : Worker τ} : s.calls[i]? = some (.notify tid) → s.workers[tid]? = some wk →
      Effect s (.call i) { s with
        workers := s.workers.set tid wk.notify
        calls := s.calls.set i .returned }
  /-- a worker thread -/
  | worker {tid : ℕ} {wk wk' : Worker τ} {busyBits : UInt64} : s.workers[tid]? = some wk →
      wk.routine tid s.busyBits = .ok (wk', busyBits) →
      Effect s (.worker tid) { s with busyBits, workers := s.workers.set tid wk' }
  /-- a worker wakes up -/
  | spurious {tid : ℕ} {wk : Worker τ} : s.workers[tid]? = some wk →
      Effect s (.spurious tid) { s with workers := s.workers.set tid wk.notify }
  /-- a destructor begins -/
  | destroy {tid : ℕ} {wk : Worker τ} : s.workers[tid]? = some wk → wk.dtor = .alive →
      Effect s (.destroy tid) { s with workers := s.workers.set tid { wk with stop := true, dtor := .notify } }
  /-- a destructor notifies its worker -/
  | dtorNotify {tid : ℕ} {wk : Worker τ} : s.workers[tid]? = some wk → wk.dtor = .notify →
      Effect s (.dtor tid) { s with workers := s.workers.set tid { wk.notify with dtor := .join } }
  /-- a destructor ends -/
  | dtorJoin {tid : ℕ} {wk : Worker τ} : s.workers[tid]? = some wk → wk.dtor = .join → wk.pc = .returned →
      Effect s (.dtor tid) { s with workers := s.workers.set tid { wk with dtor := .deleted } }

variable {s s' : ThreadPool τ} {a : PoolAct τ}

theorem workerAt_eq_ok {tid : ℕ} {wk : Worker τ} (h : s.workerAt tid = .ok wk) :
    s.workers[tid]? = some wk := by
  rw [workerAt] at h
  split at h
  · cases h
  · cases h
    assumption

theorem thisAt_eq_ok {tid : ℕ} {wk : Worker τ} (h : s.thisAt tid = .ok wk) :
    s.workers[tid]? = some wk := by
  rw [thisAt] at h
  split at h
  · cases h
  · cases h
    assumption

theorem liveAt_eq_ok {tid : ℕ} {wk : Worker τ} (h : s.liveAt tid = .ok wk) :
    s.workers[tid]? = some wk := by
  obtain ⟨wk', hwk, h⟩ := bind_eq_ok h
  split at h
  · cases h
  · cases h
    exact workerAt_eq_ok hwk

theorem forwardTid_lt {count tid tid' : UInt8} (h : forwardTid count tid = .ok tid') :
    tid'.toNat < count.toNat := by
  rw [forwardTid] at h
  split at h
  · cases h
  · rename_i hne
    cases h
    rw [UInt8.toNat_mod]
    exact Nat.mod_lt _ (Nat.pos_of_ne_zero fun hzero => hne (UInt8.toNat_inj.mp hzero))

/-- **Every step** has one of the effects. -/
theorem effect_of_step (h : s.step a = .ok s') : Effect s a s' := by
  cases a with
  | execute task busyBits rng =>
    obtain ⟨tid, -, h⟩ := bind_eq_ok h
    obtain ⟨tid', hforward, h⟩ := bind_eq_ok h
    cases h
    exact .begin _ task (fun h => h) (forwardTid_lt hforward)
  | executeForward tid task =>
    obtain ⟨tid', hforward, h⟩ := bind_eq_ok h
    cases h
    exact .begin _ task (fun h => h) (forwardTid_lt hforward)
  | call i =>
    rw [step, runCall] at h
    split at h
    · rename_i tid task hcall
      obtain ⟨wk, hlive, h⟩ := bind_eq_ok h
      split at h
      · cases h
        exact .throws hcall
      · rename_i hstop
        cases h
        exact .enqueue hcall (liveAt_eq_ok hlive) (Bool.eq_false_iff.mpr hstop)
    · rename_i tid hcall
      obtain ⟨wk, hlive, h⟩ := bind_eq_ok h
      cases h
      exact .notify hcall (liveAt_eq_ok hlive)
    · cases h
  | worker tid =>
    obtain ⟨wk, hwk, h⟩ := bind_eq_ok h
    obtain ⟨⟨wk', busyBits⟩, hroutine, h⟩ := bind_eq_ok h
    cases h
    exact .worker (thisAt_eq_ok hwk) hroutine
  | spurious tid =>
    obtain ⟨wk, hwk, h⟩ := bind_eq_ok h
    cases h
    exact .spurious (thisAt_eq_ok hwk)
  | destroy tid =>
    obtain ⟨wk, hwk, h⟩ := bind_eq_ok h
    split at h
    · rename_i halive
      cases h
      exact .destroy (thisAt_eq_ok hwk) halive
    · cases h
  | dtor tid =>
    obtain ⟨wk, hwk, h⟩ := bind_eq_ok h
    split at h
    · rename_i hdtor
      cases h
      exact .dtorNotify (thisAt_eq_ok hwk) hdtor
    · rename_i hdtor
      split at h
      · rename_i hpc
        cases h
        exact .dtorJoin (thisAt_eq_ok hwk) hdtor hpc
      · cases h
    · cases h

end ThreadPool

/-! ## One worker -/

namespace Worker

variable {τ : Type} {wk wk' : Worker τ} {tid : ℕ} {busyBits busyBits' : UInt64} {task : τ}

/-- The books of a worker. -/
structure Ok (wk : Worker τ) : Prop where
  order : wk.started ++ wk.tasks = wk.accepted
  returned : wk.pc = .returned → wk.tasks = [] ∧ wk.stop
  deleted : wk.dtor = .deleted → wk.pc = .returned

/-- The worker sleeps although there is something to do. -/
def Needy (wk : Worker τ) : Prop := wk.pc = .asleep ∧ (wk.tasks ≠ [] ∨ wk.stop)

theorem ok_fresh : (fresh : Worker τ).Ok := ⟨rfl, nofun, nofun⟩

theorem not_needy_notify : ¬ wk.notify.Needy := by
  rintro ⟨hpc, -⟩
  rw [notify] at hpc
  split at hpc
  · cases hpc
  · rename_i hne
    exact hne hpc

/-- What `notify_one` leaves alone. -/
theorem notify_eq (wk : Worker τ) : wk.notify = { wk with pc := wk.notify.pc } := by
  rw [notify]
  split <;> rfl

theorem notify_pc_eq_returned_iff : wk.notify.pc = .returned ↔ wk.pc = .returned := by
  rw [notify]
  split
  · rename_i hpc
    rw [hpc]
    exact ⟨nofun, nofun⟩
  · rfl

theorem Ok.notify (h : wk.Ok) : wk.notify.Ok := by
  rw [notify_eq]
  exact ⟨h.order, fun hpc => h.returned (notify_pc_eq_returned_iff.mp hpc),
    fun hdtor => notify_pc_eq_returned_iff.mpr (h.deleted hdtor)⟩

theorem Ok.start {rest : List τ} (h : wk.Ok) (htasks : wk.tasks = task :: rest) : (wk.start task rest).Ok := by
  refine ⟨?_, nofun, fun hdtor => ?_⟩
  · have horder := h.order
    rw [htasks, List.append_cons] at horder
    exact horder
  · have hempty := (h.returned (h.deleted hdtor)).1
    rw [htasks] at hempty
    cases hempty

/-- **A step of `routine`** keeps the books, the worker goes to sleep only when there is
nothing to do, and there is less left to do. -/
theorem Ok.routine (h : wk.Ok) (hstep : wk.routine tid busyBits = .ok (wk', busyBits')) :
    wk'.Ok ∧ ¬ wk'.Needy ∧ wk'.weight < wk.weight := by
  have hdeleted : wk.pc ≠ .returned → wk.dtor ≠ .deleted := fun hne hdtor => hne (h.deleted hdtor)
  rw [Worker.routine] at hstep
  split at hstep
  · rename_i hpc
    split at hstep
    · rename_i htasks
      split at hstep
      · rename_i hstop
        cases hstep
        refine ⟨⟨h.order, fun _ => ⟨htasks, hstop⟩, fun _ => rfl⟩, nofun, ?_⟩
        simp only [weight, hpc, WorkerPc.weight]
        omega
      · rename_i hstop
        cases hstep
        refine ⟨⟨h.order, nofun, fun hdtor => absurd hdtor (hdeleted (by rw [hpc]; nofun))⟩, ?_, ?_⟩
        · rintro ⟨-, htasks' | hstop'⟩
          · exact htasks' htasks
          · exact hstop hstop'
        · simp only [weight, hpc, WorkerPc.weight]
          omega
    · rename_i htasks
      cases hstep
      refine ⟨h.start htasks, nofun, ?_⟩
      simp only [weight, Worker.start, hpc, htasks, WorkerPc.weight, List.length_cons]
      omega
  · cases hstep
  · rename_i hpc
    split at hstep
    · rename_i htasks
      cases hstep
      cases hstop : wk.stop with
      | true =>
        refine ⟨⟨h.order, fun _ => ⟨htasks, rfl⟩, fun _ => rfl⟩, nofun, ?_⟩
        simp only [weight, hpc, WorkerPc.weight, if_true]
        omega
      | false =>
        refine ⟨⟨h.order, nofun, fun hdtor => absurd hdtor (hdeleted (by rw [hpc]; nofun))⟩, ?_, ?_⟩
        · rintro ⟨-, htasks' | hstop'⟩
          · exact htasks' htasks
          · cases hstop'
        · simp only [weight, hpc, WorkerPc.weight, Bool.false_eq_true, if_false]
          omega
    · rename_i htasks
      cases hstep
      refine ⟨h.start htasks, nofun, ?_⟩
      simp only [weight, Worker.start, hpc, htasks, WorkerPc.weight, List.length_cons]
      omega
  · rename_i hpc
    cases hstep
    refine ⟨⟨h.order, nofun, fun hdtor => absurd hdtor (hdeleted (by rw [hpc]; nofun))⟩, nofun, ?_⟩
    simp only [weight, hpc, WorkerPc.weight]
    omega
  · cases hstep

/-- A worker thread goes on, or it sleeps or has returned. -/
theorem routine_cases (wk : Worker τ) (tid : ℕ) (busyBits : UInt64) :
    (∃ p, wk.routine tid busyBits = .ok p) ∨
      wk.routine tid busyBits = .error .blocked ∧ (wk.pc = .asleep ∨ wk.pc = .returned) := by
  rw [routine]
  split
  · split
    · split <;> exact .inl ⟨_, rfl⟩
    · exact .inl ⟨_, rfl⟩
  · rename_i hpc
    exact .inr ⟨rfl, .inl hpc⟩
  · split <;> exact .inl ⟨_, rfl⟩
  · exact .inl ⟨_, rfl⟩
  · rename_i hpc
    exact .inr ⟨rfl, .inr hpc⟩

theorem weight_notify_le (wk : Worker τ) : wk.notify.weight ≤ wk.weight + 1 := by
  rw [notify]
  split
  · rename_i hpc
    simp only [weight, hpc, WorkerPc.weight]
    omega
  · exact Nat.le_succ _

theorem Ok.enqueue (h : wk.Ok) (hstop : wk.stop = false) : (wk.enqueue task).Ok := by
  have hpc : wk.pc ≠ .returned := fun hpc => absurd (hstop.symm.trans (h.returned hpc).2) nofun
  refine ⟨?_, fun hreturned => absurd hreturned hpc, h.deleted⟩
  rw [Worker.enqueue, ← List.append_assoc, h.order]

end Worker

/-! ## The invariant -/

namespace ThreadPool

variable {τ : Type} {s s' : ThreadPool τ} {a : PoolAct τ} {tid : ℕ} {wk wk' : Worker τ}

/-- There are workers, their books are right, and a worker that sleeps although there is
something to do will be notified. -/
structure Inv (s : ThreadPool τ) : Prop where
  pos : 0 < s.workers.length
  le : s.workers.length ≤ 64
  ok : ∀ (tid : ℕ) (wk : Worker τ), s.workers[tid]? = some wk → wk.Ok
  notified : ∀ (tid : ℕ) (wk : Worker τ), s.workers[tid]? = some wk → wk.Needy → wk.dtor = .notify ∨ .notify tid ∈ s.calls
  enqueue_lt : ∀ tid task, .enqueue tid task ∈ s.calls → tid < s.workers.length
  notify_lt : ∀ tid, .notify tid ∈ s.calls → tid < s.workers.length

theorem workers_create (threads : UInt8) :
    (create threads : ThreadPool τ).workers = List.replicate (min threads.toNat 64) .fresh := by
  have hroom : maxThreadCount - (⟨0, [], []⟩ : ThreadPool τ).count = 64 := by
    rw [count, List.length_nil]
    decide
  have hmin : (min threads 64).toNat = min threads.toNat 64 := by
    change (if threads ≤ 64 then threads else 64).toNat = _
    split
    · rename_i hle
      exact (min_eq_left (UInt8.le_iff_toNat_le.mp hle)).symm
    · rename_i hle
      exact (min_eq_right (Nat.le_of_not_le fun hle' => hle (UInt8.le_iff_toNat_le.mpr hle'))).symm
  rw [create, addThreads, hroom, hmin]
  rfl

theorem inv_create {threads : UInt8} (hthreads : threads ≠ 0) : (create threads : ThreadPool τ).Inv := by
  have hpos : 0 < threads.toNat := Nat.pos_of_ne_zero fun hzero => hthreads (UInt8.toNat_inj.mp hzero)
  have hfresh : ∀ (tid : ℕ) (wk : Worker τ), (create threads : ThreadPool τ).workers[tid]? = some wk →
      wk = .fresh := by
    intro tid wk hwk
    rw [workers_create] at hwk
    exact List.eq_of_mem_replicate (List.mem_of_getElem? hwk)
  refine ⟨?_, ?_, fun tid wk hwk => ?_, fun tid wk hwk hneedy => ?_, nofun, nofun⟩
  · rw [workers_create, List.length_replicate]
    exact lt_min hpos (by decide)
  · rw [workers_create, List.length_replicate]
    exact min_le_right ..
  · rw [hfresh tid wk hwk]
    exact Worker.ok_fresh
  · rw [hfresh tid wk hwk] at hneedy
    cases hneedy.1

/-- One worker changes, and a call of it may go on. -/
theorem Inv.update (h : s.Inv) (hwk : s.workers[tid]? = some wk) (hok : wk'.Ok) {busyBits : UInt64}
    {calls : List (CallPc τ)} (hneedy : wk'.Needy → wk'.dtor = .notify ∨ .notify tid ∈ calls)
    (hnotify : ∀ tid', tid' ≠ tid → .notify tid' ∈ s.calls → .notify tid' ∈ calls)
    (henqueue_lt : ∀ tid task, .enqueue tid task ∈ calls → tid < s.workers.length)
    (hnotify_lt : ∀ tid, .notify tid ∈ calls → tid < s.workers.length) :
    (⟨busyBits, s.workers.set tid wk', calls⟩ : ThreadPool τ).Inv := by
  have hlt := (List.getElem?_eq_some_iff.mp hwk).1
  have hlength : (s.workers.set tid wk').length = s.workers.length := List.length_set
  have hget : ∀ {tid' : ℕ} {wk'' : Worker τ}, (s.workers.set tid wk')[tid']? = some wk'' →
      (tid' = tid ∧ wk'' = wk') ∨ (tid' ≠ tid ∧ s.workers[tid']? = some wk'') := by
    intro tid' wk'' hget
    rcases eq_or_ne tid' tid with rfl | hne
    · rw [List.getElem?_set_self hlt] at hget
      exact .inl ⟨rfl, (Option.some.inj hget).symm⟩
    · rw [List.getElem?_set_ne hne.symm] at hget
      exact .inr ⟨hne, hget⟩
  refine ⟨hlength ▸ h.pos, hlength ▸ h.le, fun tid' wk'' hwk'' => ?_, fun tid' wk'' hwk'' hneedy' => ?_,
    fun tid task hmem => hlength ▸ henqueue_lt tid task hmem, fun tid hmem => hlength ▸ hnotify_lt tid hmem⟩
  · rcases hget hwk'' with ⟨-, rfl⟩ | ⟨-, hold⟩
    · exact hok
    · exact h.ok tid' wk'' hold
  · rcases hget hwk'' with ⟨rfl, rfl⟩ | ⟨hne, hold⟩
    · exact hneedy hneedy'
    · exact (h.notified tid' wk'' hold hneedy').imp_right (hnotify tid' hne)

/-- A call goes on; the others stay where they are. -/
theorem mem_set_of_ne {i : ℕ} {calls : List (CallPc τ)} {c d x : CallPc τ} (hi : calls[i]? = some c)
    (hx : x ∈ calls) (hne : x ≠ c) : x ∈ calls.set i d := by
  obtain ⟨j, hj⟩ := List.mem_iff_getElem?.mp hx
  refine List.mem_iff_getElem?.mpr ⟨j, ?_⟩
  rw [List.getElem?_set_ne, hj]
  rintro rfl
  exact hne (Option.some.inj (hj.symm.trans hi))

/-- A worker changes and the calls stay. -/
theorem Inv.set (h : s.Inv) (hwk : s.workers[tid]? = some wk) (hok : wk'.Ok) {busyBits : UInt64}
    (hneedy : wk'.Needy → wk'.dtor = .notify ∨ .notify tid ∈ s.calls) :
    (⟨busyBits, s.workers.set tid wk', s.calls⟩ : ThreadPool τ).Inv :=
  h.update hwk hok hneedy (fun _ _ => id) h.enqueue_lt h.notify_lt

/-- **Every step** keeps the invariant. -/
theorem Inv.step (h : s.Inv) (hstep : s.step a = .ok s') : s'.Inv := by
  cases effect_of_step hstep with
  | begin tid task _ hlt =>
    have hcount : s.count.toNat = s.workers.length := by
      rw [count, UInt8.toNat_ofNat']
      exact Nat.mod_eq_of_lt (h.le.trans_lt (by decide))
    refine ⟨h.pos, h.le, h.ok, fun tid' wk hwk hneedy => ?_, fun tid' task' hmem => ?_,
      fun tid' hmem => ?_⟩
    · exact (h.notified tid' wk hwk hneedy).imp_right (List.mem_append_left _)
    · rcases List.mem_append.mp hmem with hmem | hmem
      · exact h.enqueue_lt tid' task' hmem
      · cases List.mem_singleton.mp hmem
        exact hcount ▸ hlt
    · rcases List.mem_append.mp hmem with hmem | hmem
      · exact h.notify_lt tid' hmem
      · cases List.mem_singleton.mp hmem
  | throws hcall =>
    refine ⟨h.pos, h.le, h.ok, fun tid' wk hwk hneedy => ?_, fun tid' task' hmem => ?_,
      fun tid' hmem => ?_⟩
    · exact (h.notified tid' wk hwk hneedy).imp_right fun hmem => mem_set_of_ne hcall hmem nofun
    · exact h.enqueue_lt tid' task' ((List.mem_or_eq_of_mem_set hmem).resolve_right nofun)
    · exact h.notify_lt tid' ((List.mem_or_eq_of_mem_set hmem).resolve_right nofun)
  | @enqueue i tid task wk hcall hwk hstop =>
    have hi := (List.getElem?_eq_some_iff.mp hcall).1
    refine h.update hwk ((h.ok _ _ hwk).enqueue hstop) (fun _ => .inr ?_) (fun tid' _ hmem => ?_)
      (fun tid' task' hmem => ?_) (fun tid' hmem => ?_)
    · exact List.mem_iff_getElem?.mpr ⟨i, List.getElem?_set_self hi⟩
    · exact mem_set_of_ne hcall hmem nofun
    · exact h.enqueue_lt tid' task' ((List.mem_or_eq_of_mem_set hmem).resolve_right nofun)
    · rcases List.mem_or_eq_of_mem_set hmem with hmem | heq
      · exact h.notify_lt tid' hmem
      · cases heq
        exact (List.getElem?_eq_some_iff.mp hwk).1
  | notify hcall hwk =>
    refine h.update hwk (h.ok _ _ hwk).notify (fun hneedy => absurd hneedy Worker.not_needy_notify)
      (fun tid' hne hmem => mem_set_of_ne hcall hmem ?_) (fun tid' task' hmem => ?_) (fun tid' hmem => ?_)
    · rintro ⟨⟩
      exact hne rfl
    · exact h.enqueue_lt tid' task' ((List.mem_or_eq_of_mem_set hmem).resolve_right nofun)
    · exact h.notify_lt tid' ((List.mem_or_eq_of_mem_set hmem).resolve_right nofun)
  | worker hwk hroutine =>
    obtain ⟨hok, hneedy, -⟩ := (h.ok _ _ hwk).routine hroutine
    exact h.set hwk hok fun hneedy' => absurd hneedy' hneedy
  | spurious hwk =>
    exact h.set hwk (h.ok _ _ hwk).notify fun hneedy => absurd hneedy Worker.not_needy_notify
  | destroy hwk halive =>
    have hok := h.ok _ _ hwk
    refine h.set hwk ?_ ?_
    · exact ⟨hok.order, fun hpc => ⟨(hok.returned hpc).1, rfl⟩, nofun⟩
    · exact fun _ => .inl rfl
  | dtorNotify hwk hdtor =>
    have hok := (h.ok _ _ hwk).notify
    refine h.set hwk ?_ fun hneedy => absurd hneedy Worker.not_needy_notify
    exact ⟨hok.order, hok.returned, nofun⟩
  | dtorJoin hwk hdtor hpc =>
    have hok := h.ok _ _ hwk
    refine h.set hwk ?_ ?_
    · exact ⟨hok.order, hok.returned, fun _ => hpc⟩
    · rintro ⟨hasleep, -⟩
      exact absurd (hpc.symm.trans hasleep) nofun

/-! ## The end of what has begun -/

/-- A sum when one member of the list changes. -/
theorem sum_set {α : Type} (f : α → ℕ) {l : List α} {i : ℕ} {x : α} (hx : l[i]? = some x) (y : α) :
    ((l.set i y).map f).sum + f x = (l.map f).sum + f y := by
  induction l generalizing i with
  | nil => cases hx
  | cons z l ih =>
    cases i with
    | zero =>
      cases hx
      simp only [List.set_cons_zero, List.map_cons, List.sum_cons]
      omega
    | succ i =>
      have hsum := ih hx
      simp only [List.set_cons_succ, List.map_cons, List.sum_cons]
      omega

/-- **A step of what has begun** leaves less to do. -/
theorem weight_lt (h : s.Inv) (hinternal : Internal a) (hstep : s.step a = .ok s') :
    s'.weight < s.weight := by
  cases effect_of_step hstep with
  | begin tid task hnot _ => exact absurd hinternal hnot
  | spurious hwk => cases hinternal
  | destroy hwk halive => cases hinternal
  | throws hcall =>
    have hsum := sum_set CallPc.weight hcall .threw
    simp only [weight, CallPc.weight] at hsum ⊢
    omega
  | @enqueue i tid task wk hcall hwk hstop =>
    have hcalls := sum_set CallPc.weight hcall (.notify tid)
    have hworkers := sum_set Worker.weight hwk (wk.enqueue task)
    have henqueue : (wk.enqueue task).weight = wk.weight + 2 := by
      simp only [Worker.weight, Worker.enqueue, List.length_append, List.length_singleton]
      omega
    simp only [weight, CallPc.weight] at hcalls ⊢
    omega
  | @notify i tid wk hcall hwk =>
    have hcalls := sum_set CallPc.weight hcall .returned
    have hworkers := sum_set Worker.weight hwk wk.notify
    have hnotify := wk.weight_notify_le
    simp only [weight, CallPc.weight] at hcalls ⊢
    omega
  | @worker tid wk wk' busyBits hwk hroutine =>
    have hworkers := sum_set Worker.weight hwk wk'
    obtain ⟨-, -, hlt⟩ := (h.ok _ _ hwk).routine hroutine
    simp only [weight]
    omega
  | @dtorNotify tid wk hwk hdtor =>
    have hworkers := sum_set Worker.weight hwk { wk.notify with dtor := .join }
    have hnotify := wk.weight_notify_le
    rw [Worker.notify_eq] at hworkers hnotify ⊢
    simp only [weight, Worker.weight, hdtor, DtorPc.weight] at hworkers hnotify ⊢
    omega
  | @dtorJoin tid wk hwk hdtor hpc =>
    have hworkers := sum_set Worker.weight hwk { wk with dtor := .deleted }
    simp only [weight, Worker.weight, hdtor, DtorPc.weight] at hworkers ⊢
    omega

/-- What has begun ends after as many steps as its weight. -/
theorem length_le_weight (h : s.Inv) {acts : List (PoolAct τ)}
    (hrun : Run ThreadPool.step (fun _ a => Internal a) s acts s') : acts.length + s'.weight ≤ s.weight := by
  induction hrun with
  | nil s => exact (Nat.zero_add _).le
  | cons hinternal hstep _ ih =>
    have hlt := weight_lt h hinternal hstep
    have hle := ih (h.step hstep)
    rw [List.length_cons]
    omega

/-- **When nothing can go on**, every task has been executed. -/
theorem Inv.executed (h : s.Inv) (hquiet : s.Quiet) (hwk : s.workers[tid]? = some wk) :
    wk.started = wk.accepted ∧ ∀ task, wk.pc ≠ .running task := by
  have hok := h.ok tid wk hwk
  have hthis : s.thisAt tid = .ok wk := by rw [thisAt, hwk]
  have hsleeps : wk.pc = .asleep ∨ wk.pc = .returned := by
    rcases wk.routine_cases tid s.busyBits with ⟨p, hp⟩ | ⟨-, hpc⟩
    · have hstep := hquiet (.worker tid) trivial
      rw [ThreadPool.step, hthis] at hstep
      simp only [bind, Except.bind, hp] at hstep
      cases hstep
    · exact hpc
  have htasks : wk.tasks = [] := by
    rcases hsleeps with hasleep | hreturned
    · by_contra hne
      rcases h.notified tid wk hwk ⟨hasleep, .inl hne⟩ with hdtor | hcall
      · have hstep := hquiet (.dtor tid) trivial
        rw [ThreadPool.step, runDtor, hthis] at hstep
        simp only [bind, Except.bind, hdtor] at hstep
        cases hstep
      · obtain ⟨i, hi⟩ := List.mem_iff_getElem?.mp hcall
        have hstep := hquiet (.call i) trivial
        rw [ThreadPool.step, runCall, hi] at hstep
        have hlive : s.liveAt tid = .ok wk := by
          rw [liveAt, workerAt, hwk]
          refine if_neg fun hdeleted => ?_
          exact absurd (hasleep.symm.trans (hok.deleted hdeleted)) nofun
        simp only [bind, Except.bind, hlive] at hstep
        cases hstep
    · exact (hok.returned hreturned).1
  refine ⟨?_, fun task hrunning => ?_⟩
  · rw [← hok.order, htasks, List.append_nil]
  · rcases hsleeps with hpc | hpc <;> exact absurd (hpc.symm.trans hrunning) nofun

/-! ## The index of a worker -/

section Index

variable {count : UInt8}

theorem exists_forwardTid (hcount : count ≠ 0) (tid : UInt8) :
    ∃ tid', forwardTid count tid = .ok tid' ∧ tid'.toNat < count.toNat := by
  have hforward : forwardTid count tid = .ok (tid % count) := if_neg hcount
  exact ⟨_, hforward, forwardTid_lt hforward⟩

theorem exists_executeTid (hcount : count ≠ 0) (busyBits : UInt64) (rng : ℕ) :
    ∃ tid, executeTid count busyBits rng = .ok tid ∧ tid.toNat < count.toNat := by
  have hpos : 0 < count.toNat := Nat.pos_of_ne_zero fun hzero => hcount (UInt8.toNat_inj.mp hzero)
  rw [executeTid]
  simp only [hcount, if_false]
  split
  · refine ⟨_, rfl, ?_⟩
    have hlt := Nat.mod_lt rng hpos
    rw [UInt8.toNat_ofNat']
    exact (Nat.mod_le _ _).trans_lt hlt
  · rename_i hused
    obtain ⟨hne, hle⟩ := not_or.mp hused
    refine ⟨_, rfl, ?_⟩
    generalize UInt8.ofNat (ffsll (~~~busyBits)) = tid at hne hle
    have hpos' : 0 < tid.toNat := Nat.pos_of_ne_zero fun hzero => hne (UInt8.toNat_inj.mp hzero)
    have hle' : tid.toNat ≤ count.toNat := Nat.le_of_not_lt fun hlt => hle (UInt8.lt_iff_toNat_lt.mpr hlt)
    rw [UInt8.toNat_sub_of_le _ _ (UInt8.le_iff_toNat_le.mpr (by rwa [UInt8.toNat_one])), UInt8.toNat_one]
    omega

end Index

/-! ## Every run -/

theorem exists_liveAt {i : ℕ} (halive : s.Alive (.call i)) (hlt : tid < s.workers.length)
    (hcall : (∃ task, s.calls[i]? = some (.enqueue tid task)) ∨ s.calls[i]? = some (.notify tid)) :
    ∃ wk, s.liveAt tid = .ok wk := by
  obtain ⟨wk, hwk⟩ : ∃ wk, s.workers[tid]? = some wk := ⟨_, List.getElem?_eq_getElem hlt⟩
  refine ⟨wk, ?_⟩
  rw [liveAt, workerAt, hwk]
  exact if_neg (halive tid wk hwk hcall)

theorem thisAt_cases (s : ThreadPool τ) (tid : ℕ) :
    (∃ wk, s.thisAt tid = .ok wk) ∨ s.thisAt tid = .error .blocked := by
  rw [thisAt]
  split
  · exact .inr rfl
  · exact .inl ⟨_, rfl⟩

/-- A step of a call can be taken, or the call is over. -/
theorem Inv.runCall_cases (h : s.Inv) {i : ℕ} (halive : s.Alive (.call i)) :
    (∃ s', s.runCall i = .ok s') ∨ s.runCall i = .error .blocked := by
  rw [runCall]
  split
  · rename_i tid task hcall
    obtain ⟨wk, hwk⟩ := exists_liveAt halive (h.enqueue_lt tid task (List.mem_of_getElem? hcall)) (.inl ⟨task, hcall⟩)
    rw [hwk]
    simp only [bind, Except.bind]
    split <;> exact .inl ⟨_, rfl⟩
  · rename_i tid hcall
    obtain ⟨wk, hwk⟩ := exists_liveAt halive (h.notify_lt tid (List.mem_of_getElem? hcall)) (.inr hcall)
    rw [hwk]
    exact .inl ⟨_, rfl⟩
  · exact .inr rfl

theorem runDtor_cases (s : ThreadPool τ) (tid : ℕ) :
    (∃ s', s.runDtor tid = .ok s') ∨ s.runDtor tid = .error .blocked := by
  rw [runDtor]
  rcases s.thisAt_cases tid with ⟨wk, hwk⟩ | hwk <;> rw [hwk]
  · simp only [bind, Except.bind]
    split
    · exact .inl ⟨_, rfl⟩
    · split
      · exact .inl ⟨_, rfl⟩
      · exact .inr rfl
    · exact .inr rfl
  · exact .inr rfl

/-- **The pool does its work** in every state in which the invariant holds. -/
theorem Inv.sound (h : s.Inv) : s.Sound := by
  have hcount : s.count.toNat = s.workers.length := by
    rw [count, UInt8.toNat_ofNat']
    exact Nat.mod_eq_of_lt (h.le.trans_lt (by decide))
  have hne : s.count ≠ 0 := by
    intro hzero
    rw [hzero] at hcount
    exact absurd hcount h.pos.ne
  have hforward : ∀ tid task, ∃ s', s.executeForward tid task = .ok s' := by
    intro tid task
    obtain ⟨tid', htid', -⟩ := exists_forwardTid hne tid
    exact ⟨_, by rw [executeForward, htid']; rfl⟩
  have hmem : ∀ {wk}, wk ∈ s.workers → ∃ tid, s.workers[tid]? = some wk := List.mem_iff_getElem?.mp
  constructor
  case execute =>
    intro busyBits rng
    rw [← hcount]
    exact exists_executeTid hne busyBits rng
  case forward =>
    intro tid
    rw [← hcount]
    exact exists_forwardTid hne tid
  case order =>
    intro wk hwk
    obtain ⟨tid, htid⟩ := hmem hwk
    exact (h.ok tid wk htid).order
  case returned =>
    intro wk hwk
    obtain ⟨tid, htid⟩ := hmem hwk
    exact (h.ok tid wk htid).returned
  case ends =>
    intro acts s' hrun
    exact (Nat.le_add_right ..).trans (length_le_weight h hrun)
  case executed =>
    intro hquiet wk hwk
    obtain ⟨tid, htid⟩ := hmem hwk
    exact h.executed hquiet htid
  case defined =>
    intro a halive
    cases a with
    | execute task busyBits rng =>
      obtain ⟨tid, htid, -⟩ := exists_executeTid hne busyBits rng
      rw [ThreadPool.step, htid]
      exact .inl (hforward tid task)
    | executeForward tid task => exact .inl (hforward tid task)
    | call i => exact h.runCall_cases halive
    | dtor tid => exact s.runDtor_cases tid
    | worker tid =>
      rw [ThreadPool.step]
      rcases s.thisAt_cases tid with ⟨wk, hwk⟩ | hwk <;> rw [hwk]
      · simp only [bind, Except.bind]
        rcases wk.routine_cases tid s.busyBits with ⟨p, hp⟩ | ⟨hp, -⟩ <;> rw [hp]
        · exact .inl ⟨_, rfl⟩
        · exact .inr rfl
      · exact .inr rfl
    | spurious tid =>
      rw [ThreadPool.step]
      rcases s.thisAt_cases tid with ⟨wk, hwk⟩ | hwk <;> rw [hwk]
      · exact .inl ⟨_, rfl⟩
      · exact .inr rfl
    | destroy tid =>
      rw [ThreadPool.step]
      rcases s.thisAt_cases tid with ⟨wk, hwk⟩ | hwk <;> rw [hwk]
      · simp only [bind, Except.bind]
        split
        · exact .inl ⟨_, rfl⟩
        · exact .inr rfl
      · exact .inr rfl

theorem count_create_zero : (create 0 : ThreadPool τ).count = 0 := by
  rw [count, workers_create]
  rfl

/-- **The pool does its work in every state of every run** exactly when it was built with at
least one thread. -/
theorem sound_iff (threads : UInt8) :
    (∀ acts (s : ThreadPool τ), Run ThreadPool.step Alive (create threads) acts s → s.Sound) ↔
      threads ≠ 0 := by
  constructor
  · rintro hall rfl
    obtain ⟨tid, htid, -⟩ := (hall [] _ (.nil _)).forward 0
    rw [count_create_zero, forwardTid, if_pos rfl] at htid
    cases htid
  · intro hthreads acts s hrun
    have hinv : s.Inv := hrun.invariant (fun _ _ _ h _ hstep => h.step hstep) (inv_create hthreads)
    exact hinv.sound

/-- A pool for no thread divides by zero in its first call. -/
theorem execute_divByZero :
    (create 0 : ThreadPool ℕ).step (.execute 7 0 0) = .error .divByZero ∧
      ¬ (create 0 : ThreadPool ℕ).Sound := by
  have hstep : (create 0 : ThreadPool ℕ).step (.execute 7 0 0) = .error .divByZero := by
    have htid : executeTid 0 0 0 = .error .divByZero := by decide
    rw [ThreadPool.step, count_create_zero, htid]
    rfl
  refine ⟨hstep, fun h => ?_⟩
  rcases h.defined (.execute 7 0 0) trivial with ⟨s', hs'⟩ | hs'
  · rw [hstep] at hs'
    cases hs'
  · rw [hstep] at hs'
    cases hs'

end ThreadPool

end NaliStore
