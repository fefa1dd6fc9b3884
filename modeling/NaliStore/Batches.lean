import NaliStore.ScanBySize
import NaliStore.Lib.Routing

/-!
# Scans by size with the thread pools

`logdb::range_scan_by_size` of `src/include/logdb.h` compiled with `SCAN_USE_THREAD_POOL`. The loop
that turns packed addresses into pointers also collects the positions by NUMA node. Fifteen positions
of a node are sent to its pool as a task, and in the last round what is left of each node. The tasks
(`scan_help`) copy keys and payloads to `result` and add their number of positions to
`complete_reads`; the caller waits for the sum.

The caller and the tasks take their steps in any order. A position is pending, then in a task, then
copied (`PoolScan.Inv`); since every task has a position, the sum is complete only when all tasks
have added theirs.
-/

namespace NaliStore

open Runs Routing

variable {cfg : Config} {T P : Type}

/-- What a scan works on. The types of keys and payloads are parameters, as is what is read of a
record. -/
structure ScanJob (cfg : Config) (T P : Type) where
  /-- the logs -/
  log : LogKV cfg
  /-- `XXH3_64bits` of a key -/
  xxh3 : T → UInt64
  /-- what is copied of a record -/
  payload : LogKV cfg → Ptr cfg → Except Fault P
  /-- `t_values` as the index has filled it -/
  tValues : ℕ → T × UInt64
  /-- `scan_size` -/
  scanSize : ℕ

namespace ScanJob

/-- The packed address of a key becomes a pointer. -/
def absolute (job : ScanJob cfg T P) (kw : T × UInt64) : Except Fault (T × Ptr cfg) := do
  let p ← job.log.getAddr (.ofAddrInfo kw.2) (job.xxh3 kw.1)
  .ok (kw.1, p)

/-- The loop that does the work itself, from element `i` on. -/
def copyOut (job : ScanJob cfg T P) : ℕ → List (T × Ptr cfg) → (ℕ → T × P) →
    Except Fault (ℕ → T × P)
  | _, [], result => .ok result
  | i, (key, p) :: tValues, result => do
    let payload ← job.payload job.log p
    job.copyOut (i + 1) tValues (Function.update result i (key, payload))

/-- The scan without the thread pools. -/
def plain (job : ScanJob cfg T P) (result : ℕ → T × P) : Except Fault (ℕ → T × P) := do
  let tValues ← ((List.range job.scanSize).map job.tValues).mapM job.absolute
  job.copyOut 0 tValues result

end ScanJob

/-- What the store scans, for 8-byte payloads. -/
def Logdb.scanJob (s : Logdb cfg) (alex : AlexScan) (key : UInt64) (toScan : UInt32) :
    ScanJob cfg UInt64 UInt64 where
  log := s.log
  xxh3 := cfg.xxh3
  payload := LogKV.readPayload
  tValues := (alex.rangeScanBySize s.db key toScan).2
  scanSize := (alex.rangeScanBySize s.db key toScan).1.toNat

theorem ScanJob.copyOut_eq (s : Logdb cfg) (alex : AlexScan) (key : UInt64) (toScan : UInt32)
    (tValues : List (UInt64 × Ptr cfg)) : ∀ (i : ℕ) (result : ℕ → UInt64 × UInt64),
    (s.scanJob alex key toScan).copyOut i tValues result =
      (s.log.copyOut i tValues result).map Prod.fst := by
  induction tValues with
  | nil => exact fun _ _ => rfl
  | cons kp tValues ih =>
    intro i result
    have hread : (s.scanJob alex key toScan).payload (s.scanJob alex key toScan).log kp.2 =
        s.log.readPayload kp.2 := rfl
    rw [ScanJob.copyOut, LogKV.copyOut, hread]
    cases s.log.readPayload kp.2 with
    | error e => rfl
    | ok payload =>
      refine (ih (i + 1) _).trans ?_
      simp only [bind, Except.bind]
      cases s.log.copyOut (i + 1) tValues (Function.update result i (kp.1, payload)) with
      | error e => rfl
      | ok r => rfl

/-- The scan of the store is the scan without the thread pools. -/
theorem Logdb.plain_scanJob (s : Logdb cfg) (alex : AlexScan) (key : UInt64) (toScan : UInt32)
    (result : ℕ → UInt64 × UInt64) : (s.scanJob alex key toScan).plain result =
      (s.rangeScanBySize alex key toScan result).map fun r => r.2.1 := by
  rw [ScanJob.plain, Logdb.rangeScanBySize]
  have hmapM : ((List.range (s.scanJob alex key toScan).scanSize).map
      (s.scanJob alex key toScan).tValues).mapM (s.scanJob alex key toScan).absolute =
      ((List.range (alex.rangeScanBySize s.db key toScan).1.toNat).map
        (alex.rangeScanBySize s.db key toScan).2).mapM s.log.absolute := rfl
  rw [hmapM]
  cases htv : ((List.range (alex.rangeScanBySize s.db key toScan).1.toNat).map
    (alex.rangeScanBySize s.db key toScan).2).mapM s.log.absolute with
  | error e => simp only [bind, Except.bind, Except.map, htv]
  | ok tValues =>
    refine (ScanJob.copyOut_eq s alex key toScan tValues 0 result).trans ?_
    simp only [bind, Except.bind, htv]
    cases s.log.copyOut 0 tValues result with
    | error e => rfl
    | ok r => rfl

/-- A call of `scan_help`, with the positions that it has not copied yet. -/
structure ScanTask where
  /-- the pool -/
  node : Fin numaNodeNum
  /-- `pos_arr`, a copy of what was collected -/
  posArr : List ℕ
  /-- the positions left -/
  left : List ℕ
  /-- `complete_elems` has been added to -/
  counted : Bool

/-- Where the caller is. -/
inductive ScanPc where
  /-- at the top of round `i` -/
  | round (i : ℕ)
  /-- in round `i`, after the position was collected for the node -/
  | check (i : ℕ) (node : Fin numaNodeNum)
  /-- in the last round, before what is left of node `j` is sent -/
  | flush (j : ℕ)
  /-- in the wait loop -/
  | wait
  /-- it has returned -/
  | returned
  deriving DecidableEq

/-- A scan in progress. -/
structure PoolScan (cfg : Config) (T P : Type) where
  /-- where the caller is -/
  pc : ScanPc
  /-- the elements of `t_values` that are pointers already -/
  tValues : List (T × Ptr cfg)
  /-- `numa_pos_arr` -/
  numaPosArr : Fin numaNodeNum → List ℕ
  /-- the tasks that have been sent, oldest first -/
  tasks : List ScanTask
  /-- `complete_reads` -/
  completeReads : ℕ
  /-- `result` -/
  result : ℕ → T × P

/-- Who takes the next step. -/
inductive ScanAct where
  /-- the caller -/
  | caller
  /-- the worker that runs a task -/
  | task (t : ℕ)

namespace PoolScan

/-- The start. -/
def start (cfg : Config) (result : ℕ → T × P) : PoolScan cfg T P :=
  ⟨.round 0, [], fun _ => [], [], 0, result⟩

/-- `execute(scan_help, result, t_values, numa_pos_arr[node], &complete_reads)` -/
def execute (s : PoolScan cfg T P) (node : Fin numaNodeNum) : PoolScan cfg T P :=
  { s with tasks := s.tasks ++ [⟨node, s.numaPosArr node, s.numaPosArr node, false⟩] }

/-- The next step of the caller. -/
def caller (job : ScanJob cfg T P) (s : PoolScan cfg T P) : Except Fault (PoolScan cfg T P) :=
  match s.pc with
  | .round i =>
    if i < job.scanSize then do
      let kw := job.tValues i
      let logInfo := LastLogOffest.ofAddrInfo kw.2
      let p ← job.log.getAddr logInfo (job.xxh3 kw.1)
      if hn : logInfo.numaId.toNat < numaNodeNum then
        let node : Fin numaNodeNum := ⟨logInfo.numaId.toNat, hn⟩
        .ok { s with
          pc := .check i node
          tValues := s.tValues ++ [(kw.1, p)]
          numaPosArr := Function.update s.numaPosArr node (s.numaPosArr node ++ [i]) }
      else .error .outOfBounds
    else .ok { s with pc := .returned }
  | .check i node =>
    let s := if (s.numaPosArr node).length % 15 = 0 then
      { s.execute node with numaPosArr := Function.update s.numaPosArr node [] } else s
    .ok { s with pc := if i + 1 = job.scanSize then .flush 0 else .round (i + 1) }
  | .flush j =>
    if hj : j < numaNodeNum then
      let s := if (s.numaPosArr ⟨j, hj⟩).length ≠ 0 then s.execute ⟨j, hj⟩ else s
      .ok { s with pc := .flush (j + 1) }
    else .ok { s with pc := .wait }
  | .wait => if s.completeReads ≠ job.scanSize then .ok s else .ok { s with pc := .returned }
  | .returned => .ok s

/-- The next step of a task: a position, or the sum. The packed address of a position that is not a
pointer yet cannot be dereferenced. -/
def runTask (job : ScanJob cfg T P) (s : PoolScan cfg T P) (t : ℕ) : Except Fault (PoolScan cfg T P) :=
  match s.tasks[t]? with
  | none => .ok s
  | some task =>
    match task.left with
    | pos :: left =>
      match s.tValues[pos]? with
      | none => .error .segv
      | some (key, p) => do
        let payload ← job.payload job.log p
        .ok { s with
          result := Function.update s.result pos (key, payload)
          tasks := s.tasks.set t { task with left } }
    | [] =>
      if task.counted then .ok s
      else .ok { s with
        completeReads := s.completeReads + task.posArr.length
        tasks := s.tasks.set t { task with counted := true } }

/-- One step. -/
def step (job : ScanJob cfg T P) (s : PoolScan cfg T P) : ScanAct → Except Fault (PoolScan cfg T P)
  | .caller => s.caller job
  | .task t => s.runTask job t

/-! ## Where the positions are -/

variable {job : ScanJob cfg T P} {s s' : PoolScan cfg T P} {result₀ result : ℕ → T × P}
  {tValues : List (T × Ptr cfg)} {tasks : List ScanTask} {task : ScanTask} {pend pend' : List ℕ}
  {reads pos t : ℕ}

/-- The sum of the tasks that have added theirs. -/
def sumCounted (tasks : List ScanTask) : ℕ :=
  ((tasks.filter ScanTask.counted).map fun task => task.posArr.length).sum

/-- The element of `result` at the position is what the plain loop puts there. -/
def Copied (job : ScanJob cfg T P) (tValues : List (T × Ptr cfg)) (result : ℕ → T × P) (pos : ℕ) :
    Prop :=
  ∃ key p payload, tValues[pos]? = some (key, p) ∧ job.payload job.log p = .ok payload ∧
    result pos = (key, payload)

/-- **The positions of a scan**: those of the elements that are pointers are pending, in a task, or
copied. -/
structure Tracks (job : ScanJob cfg T P) (result₀ : ℕ → T × P) (tValues : List (T × Ptr cfg))
    (tasks : List ScanTask) (reads : ℕ) (result : ℕ → T × P) (pend : List ℕ) : Prop where
  /-- the pointers are those of the elements of the index -/
  absolute : ((List.range tValues.length).map job.tValues).mapM job.absolute = .ok tValues
  /-- each position is pending or in one task -/
  perm : (tasks.flatMap ScanTask.posArr ++ pend).Perm (List.range tValues.length)
  /-- no task is empty -/
  ne_nil : ∀ task ∈ tasks, task.posArr ≠ []
  /-- what is left to a task are positions of it -/
  left : ∀ task ∈ tasks, ∀ pos ∈ task.left, pos ∈ task.posArr
  /-- a task adds its sum in the end -/
  counted : ∀ task ∈ tasks, task.counted = true → task.left = []
  /-- `complete_reads` is the sum -/
  reads : reads = sumCounted tasks
  /-- a position that is not waiting is copied -/
  copied : ∀ pos < tValues.length,
    pos ∈ pend ∨ (∃ task ∈ tasks, pos ∈ task.left) ∨ Copied job tValues result pos
  /-- the rest of `result` is as it was -/
  frame : ∀ pos, tValues.length ≤ pos → result pos = result₀ pos

/-- The sum is complete exactly when all tasks have added theirs. -/
theorem sumCounted_eq (h : ∀ task ∈ tasks, task.posArr ≠ []) :
    sumCounted tasks ≤ (tasks.flatMap ScanTask.posArr).length ∧
    (sumCounted tasks = (tasks.flatMap ScanTask.posArr).length ↔
      ∀ task ∈ tasks, task.counted = true) := by
  induction tasks with
  | nil => simp [sumCounted]
  | cons task tasks ih =>
    obtain ⟨hle, hiff⟩ := ih fun t ht => h t (List.mem_cons_of_mem _ ht)
    have hpos := List.length_pos_iff.mpr (h task (List.mem_cons_self ..))
    rw [List.flatMap_cons, List.length_append]
    cases hc : task.counted with
    | true =>
      have hsum : sumCounted (task :: tasks) = task.posArr.length + sumCounted tasks := by
        simp [sumCounted, hc]
      rw [hsum]
      refine ⟨by omega, ?_⟩
      simp only [List.mem_cons, forall_eq_or_imp, hc, true_and]
      rw [← hiff]
      omega
    | false =>
      have hsum : sumCounted (task :: tasks) = sumCounted tasks := by
        simp [sumCounted, hc]
      rw [hsum]
      refine ⟨by omega, iff_of_false (by omega) fun hall => ?_⟩
      exact absurd (hall task (List.mem_cons_self ..)) (by simp [hc])

namespace Tracks

theorem start (job : ScanJob cfg T P) (result : ℕ → T × P) : Tracks job result [] [] 0 result [] where
  absolute := rfl
  perm := .refl _
  ne_nil _ ht := absurd ht List.not_mem_nil
  left _ ht := absurd ht List.not_mem_nil
  counted _ ht := absurd ht List.not_mem_nil
  reads := rfl
  copied pos hpos := absurd hpos (Nat.not_lt_zero pos)
  frame _ _ := rfl

/-- The order in which positions are pending does not matter. -/
theorem of_perm (h : Tracks job result₀ tValues tasks reads result pend) (hp : pend.Perm pend') :
    Tracks job result₀ tValues tasks reads result pend' :=
  { h with
    perm := (hp.symm.append_left _).trans h.perm
    copied := fun pos hpos => (h.copied pos hpos).imp_left hp.mem_iff.mp }

/-- The positions of a task are those of elements that are pointers. -/
theorem lt_of_mem (h : Tracks job result₀ tValues tasks reads result pend) (ht : task ∈ tasks)
    (hpos : pos ∈ task.posArr) : pos < tValues.length := by
  have hmem : pos ∈ tasks.flatMap ScanTask.posArr ++ pend :=
    List.mem_append_left _ (List.mem_flatMap.mpr ⟨task, ht, hpos⟩)
  exact List.mem_range.mp (h.perm.mem_iff.mp hmem)

/-- The next element becomes a pointer, and its position pending. -/
theorem collect (h : Tracks job result₀ tValues tasks reads result pend) {kp : T × Ptr cfg}
    (hkp : job.absolute (job.tValues tValues.length) = .ok kp) :
    Tracks job result₀ (tValues ++ [kp]) tasks reads result (pend ++ [tValues.length]) where
  absolute := by
    rw [List.length_append, List.length_singleton, List.range_succ, List.map_append, List.mapM_append,
      h.absolute]
    simp only [List.map_cons, List.map_nil, List.mapM_cons, List.mapM_nil, hkp]
    rfl
  perm := by
    rw [List.length_append, List.length_singleton, List.range_succ, ← List.append_assoc]
    exact h.perm.append_right _
  ne_nil := h.ne_nil
  left := h.left
  counted := h.counted
  reads := h.reads
  copied pos hpos := by
    rw [List.length_append, List.length_singleton] at hpos
    rcases Nat.lt_succ_iff_lt_or_eq.mp hpos with hlt | rfl
    · rcases h.copied pos hlt with hp | ht | ⟨key, p, payload, helem, hpay, hres⟩
      · exact .inl (List.mem_append_left _ hp)
      · exact .inr (.inl ht)
      · refine .inr (.inr ⟨key, p, payload, ?_, hpay, hres⟩)
        rw [List.getElem?_append_left hlt]
        exact helem
    · exact .inl (by simp)
  frame pos hpos := by
    rw [List.length_append] at hpos
    exact h.frame pos (by omega)

/-- Pending positions are sent as a task. -/
theorem execute (h : Tracks job result₀ tValues tasks reads result (pend' ++ pend)) (hne : pend' ≠ [])
    (node : Fin numaNodeNum) :
    Tracks job result₀ tValues (tasks ++ [⟨node, pend', pend', false⟩]) reads result pend where
  absolute := h.absolute
  perm := by
    rw [List.flatMap_append, List.append_assoc]
    simpa using h.perm
  ne_nil task ht := by
    rcases List.mem_append.mp ht with ht | ht
    · exact h.ne_nil task ht
    · rw [List.mem_singleton.mp ht]
      exact hne
  left task ht := by
    rcases List.mem_append.mp ht with ht | ht
    · exact h.left task ht
    · rw [List.mem_singleton.mp ht]
      exact fun pos hpos => hpos
  counted task ht := by
    rcases List.mem_append.mp ht with ht | ht
    · exact h.counted task ht
    · rw [List.mem_singleton.mp ht]
      exact fun hc => Bool.noConfusion hc
  reads := by
    rw [h.reads]
    simp [sumCounted]
  copied pos hpos := by
    rcases h.copied pos hpos with hp | ⟨task, ht, hleft⟩ | hcopied
    · rcases List.mem_append.mp hp with hp | hp
      · exact .inr (.inl ⟨_, List.mem_append_right _ (List.mem_singleton_self _), hp⟩)
      · exact .inl hp
    · exact .inr (.inl ⟨task, List.mem_append_left _ ht, hleft⟩)
    · exact .inr (.inr hcopied)
  frame := h.frame

/-- A task has gone on, with the same positions. -/
theorem set (h : Tracks job result₀ tValues tasks reads result pend) (ht : tasks[t]? = some task)
    {task' : ScanTask} {reads' : ℕ} {result' : ℕ → T × P} (hposArr : task'.posArr = task.posArr)
    (hleft : ∀ pos ∈ task'.left, pos ∈ task.left) (hcounted : task'.counted = true → task'.left = [])
    (hreads : reads' = sumCounted (tasks.set t task'))
    (hcopied : ∀ pos ∈ task.left, pos ∈ task'.left ∨ Copied job tValues result' pos)
    (hkeep : ∀ pos, Copied job tValues result pos → Copied job tValues result' pos)
    (hframe : ∀ pos, tValues.length ≤ pos → result' pos = result pos) :
    Tracks job result₀ tValues (tasks.set t task') reads' result' pend := by
  have hmem := List.mem_of_getElem? ht
  have hset : ∀ x ∈ tasks.set t task', x ∈ tasks ∨ x = task' := fun x hx =>
    List.mem_or_eq_of_mem_set hx
  refine ⟨h.absolute, ?_, fun x hx => ?_, fun x hx => ?_, fun x hx => ?_, hreads, fun q hq => ?_,
    fun q hq => (hframe q hq).trans (h.frame q hq)⟩
  · obtain ⟨pre, post, rfl, -, hset⟩ := exists_append_cons ht
    rw [hset]
    simpa [hposArr] using h.perm
  · rcases hset x hx with hx | rfl
    · exact h.ne_nil x hx
    · rw [hposArr]
      exact h.ne_nil task hmem
  · rcases hset x hx with hx | rfl
    · exact h.left x hx
    · rw [hposArr]
      exact fun q hq => h.left task hmem q (hleft q hq)
  · rcases hset x hx with hx | rfl
    · exact h.counted x hx
    · exact hcounted
  · obtain ⟨pre, post, rfl, -, hset⟩ := exists_append_cons ht
    have hold := h.copied q hq
    rw [hset]
    simp only [List.mem_append, List.mem_cons] at hold ⊢
    rcases hold with hp | ⟨x, hx | rfl | hx, hqx⟩ | hdone
    · exact .inl hp
    · exact .inr (.inl ⟨x, .inl hx, hqx⟩)
    · rcases hcopied q hqx with hqx | hdone
      · exact .inr (.inl ⟨task', .inr (.inl rfl), hqx⟩)
      · exact .inr (.inr hdone)
    · exact .inr (.inl ⟨x, .inr (.inr hx), hqx⟩)
    · exact .inr (.inr (hkeep q hdone))

/-- A task copies a position. -/
theorem copy (h : Tracks job result₀ tValues tasks reads result pend) (ht : tasks[t]? = some task)
    {left : List ℕ} (hleft : task.left = pos :: left) {key : T} {p : Ptr cfg} {payload : P}
    (helem : tValues[pos]? = some (key, p)) (hpay : job.payload job.log p = .ok payload) :
    Tracks job result₀ tValues (tasks.set t { task with left }) reads
      (Function.update result pos (key, payload)) pend := by
  have hmem := List.mem_of_getElem? ht
  have hlt := h.lt_of_mem hmem (h.left task hmem pos (by simp [hleft]))
  have hcopied : Copied job tValues (Function.update result pos (key, payload)) pos :=
    ⟨key, p, payload, helem, hpay, Function.update_self ..⟩
  refine h.set ht rfl (fun q hq => ?_) (fun hc => ?_) ?_ (fun q hq => ?_) (fun q hq => ?_)
    fun q hq => Function.update_of_ne (by omega) ..
  · rw [hleft]
    exact List.mem_cons_of_mem _ hq
  · have hnil := h.counted task hmem hc
    rw [hleft] at hnil
    cases hnil
  · obtain ⟨pre, post, rfl, -, hset⟩ := exists_append_cons ht
    rw [hset, h.reads]
    cases hc : task.counted <;> simp [sumCounted, hc]
  · rw [hleft, List.mem_cons] at hq
    rcases hq with rfl | hq
    · exact .inr hcopied
    · exact .inl hq
  · by_cases hqp : q = pos
    · rw [hqp]
      exact hcopied
    · obtain ⟨key', p', payload', helem', hpay', hres⟩ := hq
      exact ⟨key', p', payload', helem', hpay', by rw [Function.update_of_ne hqp, hres]⟩

/-- A task adds its sum. -/
theorem count (h : Tracks job result₀ tValues tasks reads result pend) (ht : tasks[t]? = some task)
    (hleft : task.left = []) (hc : task.counted = false) :
    Tracks job result₀ tValues (tasks.set t { task with counted := true }) (reads + task.posArr.length)
      result pend := by
  refine h.set ht rfl (fun _ hq => hq) (fun _ => hleft) ?_ (fun _ hq => .inl hq) (fun _ hq => hq)
    fun _ _ => rfl
  obtain ⟨pre, post, rfl, -, hset⟩ := exists_append_cons ht
  rw [hset, h.reads]
  simp [sumCounted, hc]
  omega

end Tracks

/-! ## The steps -/

/-- The positions that are collected and have not been sent. -/
def pending (s : PoolScan cfg T P) : List ℕ :=
  match s.pc with
  | .round _ => (List.finRange numaNodeNum).flatMap s.numaPosArr
  | .check _ _ => (List.finRange numaNodeNum).flatMap s.numaPosArr
  | .flush j => ((List.finRange numaNodeNum).drop j).flatMap s.numaPosArr
  | .wait => []
  | .returned => []

/-- What is known at each place of the caller. -/
def At (job : ScanJob cfg T P) (s : PoolScan cfg T P) : Prop :=
  match s.pc with
  | .round i => s.tValues.length = i ∧ (i < job.scanSize ∨ job.scanSize = 0 ∧ i = 0)
  | .check i node => s.tValues.length = i + 1 ∧ i < job.scanSize ∧ s.numaPosArr node ≠ []
  | .flush _ => s.tValues.length = job.scanSize
  | .wait => s.tValues.length = job.scanSize
  | .returned => s.tValues.length = job.scanSize ∧ ∀ task ∈ s.tasks, task.counted = true

/-- **The invariant of a scan.** -/
structure Inv (job : ScanJob cfg T P) (result₀ : ℕ → T × P) (s : PoolScan cfg T P) : Prop where
  /-- where the positions are -/
  tracks : Tracks job result₀ s.tValues s.tasks s.completeReads s.result s.pending
  /-- where the caller is -/
  place : At job s

theorem flatMap_finRange (f : Fin numaNodeNum → List ℕ) :
    (List.finRange numaNodeNum).flatMap f = f 0 ++ f 1 := by
  simp [List.finRange_succ]

/-- Replacing what is collected for a node. -/
theorem perm_flatMap_update (f : Fin numaNodeNum → List ℕ) (node : Fin numaNodeNum) (l : List ℕ) :
    (f node ++ (List.finRange numaNodeNum).flatMap (Function.update f node l)).Perm
      ((List.finRange numaNodeNum).flatMap f ++ l) := by
  rw [flatMap_finRange, flatMap_finRange, List.perm_iff_count]
  intro a
  have hnode : node = 0 ∨ node = 1 := by
    obtain ⟨n, hn : n < 2⟩ := node
    simp only [Fin.ext_iff, Fin.val_zero, Fin.val_one]
    omega
  rcases hnode with rfl | rfl
  · simp [List.count_append]
    omega
  · simp [List.count_append]
    omega

/-- A round of the loop: the position is collected for its node. -/
theorem Inv.round {i : ℕ} (h : Inv job result₀ s) (hpc : s.pc = .round i)
    (hstep : s.caller job = .ok s') : Inv job result₀ s' := by
  obtain ⟨htracks, hplace⟩ := h
  simp only [At, hpc] at hplace
  simp only [pending, hpc] at htracks
  rw [caller, hpc] at hstep
  obtain ⟨hlen, hi⟩ := hplace
  simp only at hstep
  by_cases hlt : i < job.scanSize
  · rw [if_pos hlt] at hstep
    obtain ⟨p, haddr, hstep⟩ := bind_eq_ok hstep
    split at hstep
    · rename_i hn
      obtain rfl := Except.ok.inj hstep
      set node : Fin numaNodeNum := ⟨(LastLogOffest.ofAddrInfo (job.tValues i).2).numaId.toNat, hn⟩
      have habs : job.absolute (job.tValues s.tValues.length) = .ok ((job.tValues i).1, p) := by
        rw [hlen, ScanJob.absolute, haddr]
        rfl
      refine ⟨(htracks.collect habs).of_perm ?_, ?_, hlt, by simp⟩
      · have hupd := perm_flatMap_update s.numaPosArr node (s.numaPosArr node ++ [i])
        rw [hlen]
        refine (List.perm_append_left_iff (s.numaPosArr node)).mp ?_
        refine .trans ?_ hupd.symm
        rw [← List.append_assoc, ← List.append_assoc]
        exact List.perm_append_comm.append_right _
      · simp [hlen]
    · cases hstep
  · -- there is nothing to scan
    rw [if_neg hlt] at hstep
    obtain rfl := Except.ok.inj hstep
    obtain ⟨hzero, hi₀⟩ := hi.resolve_left hlt
    have hnil : s.tasks = [] := by
      rw [List.eq_nil_iff_forall_not_mem]
      intro task ht
      obtain ⟨pos, hpos⟩ := List.exists_mem_of_ne_nil _ (htracks.ne_nil task ht)
      have := htracks.lt_of_mem ht hpos
      omega
    have hpend : (List.finRange numaNodeNum).flatMap s.numaPosArr = [] := by
      have hperm := htracks.perm
      rw [hlen, hi₀, hnil] at hperm
      simpa using hperm
    rw [hpend] at htracks
    refine ⟨htracks, ?_, ?_⟩
    · simp only
      omega
    · simp [hnil]

/-- The end of a round. -/
theorem Inv.next_round {i : ℕ} (hlen : s.tValues.length = i + 1) (hi : i < job.scanSize)
    (h : Tracks job result₀ s.tValues s.tasks s.completeReads s.result
      ((List.finRange numaNodeNum).flatMap s.numaPosArr)) :
    Inv job result₀ { s with pc := if i + 1 = job.scanSize then .flush 0 else .round (i + 1) } := by
  by_cases hlast : i + 1 = job.scanSize
  · rw [if_pos hlast]
    exact ⟨h, hlen.trans hlast⟩
  · rw [if_neg hlast]
    exact ⟨h, hlen, .inl (by omega)⟩

/-- The rest of a round: fifteen positions are sent. -/
theorem Inv.check {i : ℕ} {node : Fin numaNodeNum} (h : Inv job result₀ s) (hpc : s.pc = .check i node)
    (hstep : s.caller job = .ok s') : Inv job result₀ s' := by
  obtain ⟨htracks, hplace⟩ := h
  simp only [At, hpc] at hplace
  simp only [pending, hpc] at htracks
  rw [caller, hpc] at hstep
  obtain ⟨hlen, hi, hne⟩ := hplace
  obtain rfl := Except.ok.inj hstep
  by_cases hfull : (s.numaPosArr node).length % 15 = 0
  · simp only [if_pos hfull]
    refine Inv.next_round (s := { s.execute node with
      numaPosArr := Function.update s.numaPosArr node [] }) hlen hi ?_
    refine Tracks.execute (htracks.of_perm ?_) hne node
    have hupd := perm_flatMap_update s.numaPosArr node []
    rw [List.append_nil] at hupd
    exact hupd.symm
  · simp only [if_neg hfull]
    exact Inv.next_round hlen hi htracks

/-- In the last round, what is left of a node is sent. -/
theorem Inv.flush {j : ℕ} (h : Inv job result₀ s) (hpc : s.pc = .flush j)
    (hstep : s.caller job = .ok s') : Inv job result₀ s' := by
  obtain ⟨htracks, hplace⟩ := h
  simp only [At, hpc] at hplace
  simp only [pending, hpc] at htracks
  rw [caller, hpc] at hstep
  simp only at hstep
  by_cases hj : j < numaNodeNum
  · have hdrop : ((List.finRange numaNodeNum).drop j).flatMap s.numaPosArr =
        s.numaPosArr ⟨j, hj⟩ ++ ((List.finRange numaNodeNum).drop (j + 1)).flatMap s.numaPosArr := by
      rw [List.drop_eq_getElem_cons (List.length_finRange.symm ▸ hj), List.flatMap_cons]
      simp
    rw [dif_pos hj] at hstep
    obtain rfl := Except.ok.inj hstep
    by_cases hnil : (s.numaPosArr ⟨j, hj⟩).length = 0
    · rw [hdrop, List.eq_nil_of_length_eq_zero hnil, List.nil_append] at htracks
      simp only [hnil, ne_eq, not_true_eq_false, if_false]
      exact ⟨htracks, hplace⟩
    · rw [hdrop] at htracks
      simp only [ne_eq, hnil, not_false_eq_true, if_true]
      exact ⟨htracks.execute (fun h => hnil (by rw [h]; rfl)) _, hplace⟩
  · have hdrop : (List.finRange numaNodeNum).drop j = [] := by
      refine List.drop_eq_nil_of_le ?_
      rw [List.length_finRange]
      exact Nat.le_of_not_lt hj
    rw [hdrop, List.flatMap_nil] at htracks
    rw [dif_neg hj] at hstep
    obtain rfl := Except.ok.inj hstep
    exact ⟨htracks, hplace⟩

/-- **The wait loop**: the sum is complete exactly when all tasks have run. -/
theorem Inv.reads_eq_iff (h : Inv job result₀ s) (hpc : s.pc = .wait) :
    s.completeReads = job.scanSize ↔ ∀ task ∈ s.tasks, task.counted = true := by
  obtain ⟨htracks, hplace⟩ := h
  simp only [At, hpc] at hplace
  simp only [pending, hpc] at htracks
  have hlen := htracks.perm.length_eq
  rw [List.append_nil, List.length_range, hplace] at hlen
  rw [htracks.reads, ← hlen]
  exact (sumCounted_eq htracks.ne_nil).2

theorem Inv.wait (h : Inv job result₀ s) (hpc : s.pc = .wait) (hstep : s.caller job = .ok s') :
    Inv job result₀ s' := by
  have hiff := h.reads_eq_iff hpc
  rw [caller, hpc] at hstep
  simp only at hstep
  by_cases hreads : s.completeReads = job.scanSize
  · rw [if_neg (not_not_intro hreads)] at hstep
    obtain rfl := Except.ok.inj hstep
    obtain ⟨htracks, hplace⟩ := h
    simp only [At, hpc] at hplace
    simp only [pending, hpc] at htracks
    exact ⟨htracks, hplace, hiff.mp hreads⟩
  · rw [if_pos hreads] at hstep
    obtain rfl := Except.ok.inj hstep
    exact h

theorem At.set (h : At job s) (ht : s.tasks[t]? = some task) (task' : ScanTask)
    (hc : task.counted = true → task'.counted = true) (reads : ℕ) (result : ℕ → T × P) :
    At job { s with tasks := s.tasks.set t task', completeReads := reads, result := result } := by
  unfold At at h ⊢
  cases hpc : s.pc with
  | round i => simpa only [hpc] using h
  | check i node => simpa only [hpc] using h
  | flush j => simpa only [hpc] using h
  | wait => simpa only [hpc] using h
  | returned =>
    simp only [hpc] at h ⊢
    refine ⟨h.1, fun x hx => ?_⟩
    rcases List.mem_or_eq_of_mem_set hx with hx | rfl
    · exact h.2 x hx
    · exact hc (h.2 task (List.mem_of_getElem? ht))

/-- **A step of a task.** -/
theorem Inv.runTask (h : Inv job result₀ s) (hstep : s.runTask job t = .ok s') : Inv job result₀ s' := by
  rw [PoolScan.runTask] at hstep
  cases ht : s.tasks[t]? with
  | none =>
    rw [ht] at hstep
    obtain rfl := Except.ok.inj hstep
    exact h
  | some task =>
    rw [ht] at hstep
    simp only at hstep
    obtain ⟨htracks, hplace⟩ := h
    split at hstep
    · rename_i pos left hleft
      split at hstep
      · cases hstep
      · rename_i key p helem
        obtain ⟨payload, hpay, hstep⟩ := bind_eq_ok hstep
        obtain rfl := Except.ok.inj hstep
        exact ⟨htracks.copy ht hleft helem hpay, hplace.set ht { task with left } id _ _⟩
    · rename_i hleft
      by_cases hc : task.counted = true
      · rw [if_pos hc] at hstep
        obtain rfl := Except.ok.inj hstep
        exact ⟨htracks, hplace⟩
      · rw [if_neg hc] at hstep
        obtain rfl := Except.ok.inj hstep
        exact ⟨htracks.count ht hleft (by simpa using hc), hplace.set ht { task with counted := true } (fun _ => rfl) _ _⟩

theorem Inv.step (h : Inv job result₀ s) {a : ScanAct} (hstep : s.step job a = .ok s') :
    Inv job result₀ s' := by
  cases a with
  | task t => exact h.runTask hstep
  | caller =>
    cases hpc : s.pc with
    | round i => exact h.round hpc hstep
    | check i node => exact h.check hpc hstep
    | flush j => exact h.flush hpc hstep
    | wait => exact h.wait hpc hstep
    | returned =>
      rw [PoolScan.step, caller, hpc] at hstep
      obtain rfl := Except.ok.inj hstep
      exact h

theorem Inv.start (job : ScanJob cfg T P) (result : ℕ → T × P) :
    Inv job result (PoolScan.start cfg result) := by
  refine ⟨.start job result, rfl, ?_⟩
  omega

/-! ## The result -/

/-- A loop over pointers whose elements are copied already. -/
theorem copyOut_of_copied : ∀ (i : ℕ) (start : ℕ → T × P),
    (∀ j < tValues.length, ∃ key p payload, tValues[j]? = some (key, p) ∧
      job.payload job.log p = .ok payload ∧ result (i + j) = (key, payload)) →
    (∀ pos, pos < i ∨ i + tValues.length ≤ pos → result pos = start pos) →
    job.copyOut i tValues start = .ok result := by
  induction tValues with
  | nil =>
    intro i start _ hframe
    rw [ScanJob.copyOut]
    congr 1
    funext pos
    exact (hframe pos (by simp only [List.length_nil]; omega)).symm
  | cons kp tValues ih =>
    intro i start hcopied hframe
    obtain ⟨key, p, payload, helem, hpay, hres⟩ := hcopied 0 (by simp)
    obtain rfl := Option.some.inj helem
    rw [ScanJob.copyOut, hpay]
    refine ih (i + 1) _ (fun j hj => ?_) fun pos hpos => ?_
    · obtain ⟨key', p', payload', helem', hpay', hres'⟩ := hcopied (j + 1) (by simpa using hj)
      refine ⟨key', p', payload', helem', hpay', ?_⟩
      rw [← hres']
      congr 1
      omega
    · by_cases hpi : pos = i
      · subst hpi
        rw [Function.update_self, ← hres]
        rfl
      · rw [Function.update_of_ne hpi]
        refine hframe pos ?_
        rw [List.length_cons]
        omega

/-- **When the caller has returned** the result is that of the plain loop. -/
theorem Inv.plain_eq (h : Inv job result₀ s) (hpc : s.pc = .returned) :
    job.plain result₀ = .ok s.result := by
  obtain ⟨htracks, hplace⟩ := h
  simp only [At, hpc] at hplace
  simp only [pending, hpc] at htracks
  obtain ⟨hlen, hall⟩ := hplace
  have habs := htracks.absolute
  rw [hlen] at habs
  rw [ScanJob.plain, habs]
  refine copyOut_of_copied 0 result₀ (fun j hj => ?_) fun pos hpos => ?_
  · rw [Nat.zero_add]
    rcases htracks.copied j hj with hp | ⟨task, ht, hleft⟩ | hcopied
    · exact absurd hp List.not_mem_nil
    · rw [htracks.counted task ht (hall task ht)] at hleft
      exact absurd hleft List.not_mem_nil
    · exact hcopied
  · exact htracks.frame pos (by omega)

/-! ## No step faults, and the scan ends -/

theorem exists_of_mapM {α β : Type} {f : α → Except Fault β} : ∀ {l : List α} {r : List β},
    l.mapM f = .ok r → ∀ x ∈ l, ∃ y, f x = .ok y := by
  intro l
  induction l with
  | nil => exact fun _ x hx => absurd hx List.not_mem_nil
  | cons x l ih =>
    intro r h
    rw [List.mapM_cons] at h
    obtain ⟨y, hy, h⟩ := bind_eq_ok h
    obtain ⟨ys, hys, -⟩ := bind_eq_ok h
    intro z hz
    rcases List.mem_cons.mp hz with rfl | hz
    · exact ⟨y, hy⟩
    · exact ih hys z hz

theorem exists_of_copyOut : ∀ {i : ℕ} {start r : ℕ → T × P}, job.copyOut i tValues start = .ok r →
    ∀ kp ∈ tValues, ∃ payload, job.payload job.log kp.2 = .ok payload := by
  induction tValues with
  | nil => exact fun _ kp hkp => absurd hkp List.not_mem_nil
  | cons kp tValues ih =>
    intro i start r h
    obtain ⟨payload, hpay, h⟩ := bind_eq_ok h
    intro x hx
    rcases List.mem_cons.mp hx with rfl | hx
    · exact ⟨payload, hpay⟩
    · exact ih h x hx

/-- The pointers made so far are the first of all. -/
theorem Tracks.exists_append (h : Tracks job result₀ tValues tasks reads result pend)
    (hle : tValues.length ≤ job.scanSize) {all : List (T × Ptr cfg)}
    (hall : ((List.range job.scanSize).map job.tValues).mapM job.absolute = .ok all) :
    ∃ rest, all = tValues ++ rest := by
  obtain ⟨n, hn⟩ := Nat.exists_eq_add_of_le hle
  rw [hn, List.range_add, List.map_append, List.mapM_append, h.absolute] at hall
  obtain ⟨tValues', heq, hall⟩ := bind_eq_ok hall
  obtain rfl := Except.ok.inj heq
  obtain ⟨rest, -, hall⟩ := bind_eq_ok hall
  exact ⟨rest, (Except.ok.inj hall).symm⟩

theorem At.length_le (h : At job s) : s.tValues.length ≤ job.scanSize := by
  unfold At at h
  cases hpc : s.pc <;> simp only [hpc] at h <;> omega

variable {r : ℕ → T × P}

/-- **No step of a task faults** when the plain loop does not. -/
theorem Inv.exists_runTask (h : Inv job result₀ s) (hplain : job.plain result₀ = .ok r) (t : ℕ) :
    ∃ s', s.runTask job t = .ok s' := by
  obtain ⟨all, hall, hcopy⟩ := bind_eq_ok hplain
  obtain ⟨rest, rfl⟩ := h.tracks.exists_append h.place.length_le hall
  rw [PoolScan.runTask]
  cases ht : s.tasks[t]? with
  | none => exact ⟨s, rfl⟩
  | some task =>
    have hmem := List.mem_of_getElem? ht
    cases hleft : task.left with
    | nil =>
      simp only [hleft]
      split
      · exact ⟨_, rfl⟩
      · exact ⟨_, rfl⟩
    | cons pos left =>
      have hlt := h.tracks.lt_of_mem hmem (h.tracks.left task hmem pos (by simp [hleft]))
      obtain ⟨payload, hpay⟩ := exists_of_copyOut hcopy (s.tValues.get ⟨pos, hlt⟩)
        (List.mem_append_left _ (List.get_mem ..))
      have helem : s.tValues[pos]? = some (s.tValues.get ⟨pos, hlt⟩) := by simp [hlt]
      simp only [hleft, helem, hpay]
      exact ⟨_, rfl⟩

/-- The rounds and nodes that are left to the caller. -/
def phase (job : ScanJob cfg T P) : ScanPc → ℕ
  | .round i => 2 * (job.scanSize - i) + numaNodeNum + 1
  | .check i _ => 2 * (job.scanSize - i) + numaNodeNum
  | .flush j => numaNodeNum - j + 1
  | .wait => 0
  | .returned => 0

/-- **No step of the caller faults** when the plain loop does not, and it gets nearer to the wait
loop. -/
theorem Inv.exists_caller (h : Inv job result₀ s) (hplain : job.plain result₀ = .ok r) :
    ∃ s', s.caller job = .ok s' ∧
      (phase job s'.pc < phase job s.pc ∨ s.pc = .wait ∨ s.pc = .returned) := by
  obtain ⟨all, hall, -⟩ := bind_eq_ok hplain
  have hplace := h.place
  rw [caller]
  cases hpc : s.pc with
  | round i =>
    by_cases hlt : i < job.scanSize
    · obtain ⟨kp, hkp⟩ := exists_of_mapM hall (job.tValues i)
        (List.mem_map.mpr ⟨i, List.mem_range.mpr hlt, rfl⟩)
      obtain ⟨p, haddr, -⟩ := bind_eq_ok hkp
      have hn : (LastLogOffest.ofAddrInfo (job.tValues i).2).numaId.toNat < numaNodeNum := by
        by_contra hn
        rw [LogKV.getAddr, dif_neg hn] at haddr
        cases haddr
      simp only [if_pos hlt, haddr, bind, Except.bind, dif_pos hn]
      refine ⟨_, rfl, .inl ?_⟩
      simp only [phase]
      omega
    · simp only [if_neg hlt]
      refine ⟨_, rfl, .inl ?_⟩
      simp only [phase]
      omega
  | check i node =>
    simp only [At, hpc] at hplace
    refine ⟨_, rfl, .inl ?_⟩
    simp only
    split
    · simp only [phase]
      omega
    · simp only [phase]
      omega
  | flush j =>
    by_cases hj : j < numaNodeNum
    · simp only [dif_pos hj]
      refine ⟨_, rfl, .inl ?_⟩
      simp only [phase]
      omega
    · simp only [dif_neg hj]
      refine ⟨_, rfl, .inl ?_⟩
      simp only [phase]
      omega
  | wait =>
    simp only
    split
    · exact ⟨s, rfl, .inr (.inl trivial)⟩
    · exact ⟨_, rfl, .inr (.inl trivial)⟩
  | returned => exact ⟨s, rfl, .inr (.inr rfl)⟩

/-- The steps that are left to the tasks. -/
def workLeft (tasks : List ScanTask) : ℕ :=
  (tasks.map fun task => task.left.length + if task.counted then 0 else 1).sum

theorem workLeft_set (ht : tasks[t]? = some task) (task' : ScanTask)
    (hlt : task'.left.length + (if task'.counted then 0 else 1) <
      task.left.length + if task.counted then 0 else 1) :
    workLeft (tasks.set t task') < workLeft tasks := by
  obtain ⟨pre, post, rfl, -, hset⟩ := exists_append_cons ht
  rw [hset]
  simp only [workLeft, List.map_append, List.map_cons, List.sum_append, List.sum_cons]
  omega

/-- A task that has not added its sum goes on. -/
theorem workLeft_of_runTask (ht : s.tasks[t]? = some task) (hc : task.counted = false)
    (hstep : s.runTask job t = .ok s') : s'.pc = s.pc ∧ workLeft s'.tasks < workLeft s.tasks := by
  rw [runTask, ht] at hstep
  simp only at hstep
  split at hstep
  · rename_i pos left hleft
    split at hstep
    · cases hstep
    · obtain ⟨payload, -, hstep⟩ := bind_eq_ok hstep
      obtain rfl := Except.ok.inj hstep
      exact ⟨rfl, workLeft_set ht _ (by simp [hleft])⟩
  · rw [if_neg (by simp [hc])] at hstep
    obtain rfl := Except.ok.inj hstep
    exact ⟨rfl, workLeft_set ht _ (by simp [hc])⟩

/-- The tasks can run, and then the wait loop ends. -/
theorem Inv.exists_returned_of_wait (h : Inv job result₀ s) (hplain : job.plain result₀ = .ok r)
    (hpc : s.pc = .wait) :
    ∃ acts s', Run (PoolScan.step job) (fun _ _ => True) s acts s' ∧ s'.pc = .returned := by
  induction hn : workLeft s.tasks using Nat.strong_induction_on generalizing s with
  | _ n ih =>
    by_cases hall : ∀ task ∈ s.tasks, task.counted = true
    · have hreads := (h.reads_eq_iff hpc).mpr hall
      have hstep : s.step job .caller = .ok { s with pc := .returned } := by
        rw [PoolScan.step, caller, hpc]
        exact if_neg (not_not_intro hreads)
      exact ⟨_, _, .single trivial hstep, rfl⟩
    · push Not at hall
      obtain ⟨task, hmem, hc⟩ := hall
      obtain ⟨t, ht⟩ := List.mem_iff_getElem?.mp hmem
      obtain ⟨s₁, hrun⟩ := h.exists_runTask hplain t
      obtain ⟨hpc₁, hlt⟩ := workLeft_of_runTask ht (by simpa using hc) hrun
      obtain ⟨acts, s', hacts, hret⟩ := ih _ (hn ▸ hlt) (h.runTask hrun) (hpc₁.trans hpc) rfl
      exact ⟨.task t :: acts, s', .cons trivial hrun hacts, hret⟩

/-- The caller gets to the wait loop, and returns from it. -/
theorem Inv.exists_returned (h : Inv job result₀ s) (hplain : job.plain result₀ = .ok r) :
    ∃ acts s', Run (PoolScan.step job) (fun _ _ => True) s acts s' ∧ s'.pc = .returned := by
  induction hn : phase job s.pc using Nat.strong_induction_on generalizing s with
  | _ n ih =>
    obtain ⟨s₁, hcall, hlt | hwait | hret⟩ := h.exists_caller hplain
    · obtain ⟨acts, s', hacts, hret⟩ := ih _ (hn ▸ hlt) (h.step (a := .caller) hcall) rfl
      exact ⟨.caller :: acts, s', .cons trivial hcall hacts, hret⟩
    · exact h.exists_returned_of_wait hplain hwait
    · exact ⟨[], s, .nil s, hret⟩

/-- **The parallel scan equals the sequential one.** In whatever order the caller and the tasks take
their steps: when the caller is in the wait loop, or has returned, each position is in exactly one
batch; in the wait loop the sum is complete exactly when all tasks have run; when the caller has
returned they all have, and the result is that of the plain loop. If the plain loop does not fault,
no step does, and the scan can always be brought to its end. -/
theorem poolScan_eq_plain (job : ScanJob cfg T P) (result : ℕ → T × P) {acts : List ScanAct}
    (hrun : Run (step job) (fun _ _ => True) (start cfg result) acts s) :
    (s.pc = .wait ∨ s.pc = .returned →
      (s.tasks.flatMap ScanTask.posArr).Perm (List.range job.scanSize)) ∧
    (s.pc = .wait → (s.completeReads = job.scanSize ↔ ∀ task ∈ s.tasks, task.counted = true)) ∧
    (s.pc = .returned →
      (∀ task ∈ s.tasks, task.counted = true) ∧ job.plain result = .ok s.result) ∧
    (∀ r, job.plain result = .ok r → (∀ a, ∃ s', s.step job a = .ok s') ∧
      ∃ acts' s', Run (step job) (fun _ _ => True) s acts' s' ∧ s'.pc = .returned) := by
  have h : Inv job result s := hrun.invariant (fun _ _ _ hs _ hst => hs.step hst) (.start job result)
  refine ⟨?_, h.reads_eq_iff, fun hpc => ⟨?_, h.plain_eq hpc⟩, fun r hplain => ⟨fun a => ?_, ?_⟩⟩
  · obtain ⟨htracks, hplace⟩ := h
    rintro (hpc | hpc)
    · simp only [At, hpc] at hplace
      simpa only [pending, hpc, hplace, List.append_nil] using htracks.perm
    · simp only [At, hpc] at hplace
      simpa only [pending, hpc, hplace.1, List.append_nil] using htracks.perm
  · have hplace := h.place
    simp only [At, hpc] at hplace
    exact hplace.2
  · cases a with
    | caller =>
      obtain ⟨s', hcall, -⟩ := h.exists_caller hplain
      exact ⟨s', hcall⟩
    | task t => exact h.exists_runTask hplain t
  · exact h.exists_returned hplain

/-- Twenty elements in the logs of two threads, every fifth in the second one. What is copied of a
record is its offset. -/
def twentyElements (near far : Fin 64) : ScanJob oneShard ℕ ℕ where
  log := LogKV.fresh oneShard
  xxh3 := fun _ => 0
  payload := fun _ p => .ok p.off
  tValues := fun i =>
    (i, (⟨LogKV.logOf oneShard (if i % 5 = 4 then far else near) 0, i⟩ : Slot oneShard).word)
  scanSize := 20

/-- A full batch is sent in round 17 and begins to run; what is left of the nodes is sent after the
last round, and the last batch is done before the first. -/
def twentySteps : List ScanAct :=
  let turns : List (ScanAct × ℕ) := [(.caller, 36), (.task 0, 3), (.caller, 4), (.task 0, 5),
    (.caller, 1), (.task 1, 2), (.caller, 4), (.task 2, 5), (.task 0, 8), (.caller, 1)]
  turns.flatMap fun turn => List.replicate turn.2 turn.1

theorem poolScan_eq_plain_twenty : ∃ s,
    Run (step (twentyElements 0 63)) (fun _ _ => True) (start oneShard fun _ => (0, 0)) twentySteps s ∧
    s.pc = .returned ∧
    s.tasks.map ScanTask.posArr =
      [[0, 1, 2, 3, 5, 6, 7, 8, 10, 11, 12, 13, 15, 16, 17], [18], [4, 9, 14, 19]] ∧
    (s.tasks.flatMap ScanTask.posArr).Perm (List.range 20) ∧
    (twentyElements 0 63).plain (fun _ => (0, 0)) = .ok s.result := by
  obtain ⟨s, hfold, hs⟩ := exists_of_foldlM (step (twentyElements 0 63))
    (fun s => (s.pc, s.tasks.map ScanTask.posArr)) (start oneShard fun _ => (0, 0)) twentySteps
    (.returned, [[0, 1, 2, 3, 5, 6, 7, 8, 10, 11, 12, 13, 15, 16, 17], [18], [4, 9, 14, 19]])
    (by decide +kernel)
  obtain ⟨hpc, htasks⟩ := Prod.mk.inj hs
  have hrun := Run.of_foldlM hfold
  obtain ⟨hperm, -, hreturned, -⟩ := poolScan_eq_plain _ _ hrun
  exact ⟨s, hrun, hpc, htasks, hperm (.inr hpc), (hreturned hpc).2⟩

end PoolScan

end NaliStore
