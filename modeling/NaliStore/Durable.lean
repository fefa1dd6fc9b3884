import NaliStore.Interleave
import NaliStore.Recovery

/-!
# Crashes and acknowledged inserts

Threads insert, the machine stops after some step, and recovery runs over the page files
as that step left them. Slots are handed out in one order and stored in another, so a
crash can leave a slot blank in front of stored records of the same page, and the scan of
the page ends there: records behind it are not found again, even if their inserts had
returned.

If every insert returns only when the slots before its record in the same page have been
stored, every acknowledged insert survives a crash at any later step.
-/

namespace NaliStore

open Runs

variable {cfg : Config}

namespace Sys

/-- The action belongs to an `insert` call. -/
def InsertOnly (a : Action cfg) : Prop :=
  match a with
  | .call _ c => ∃ k v, c.op = .insert k v
  | .relocate _ _ _ => False
  | .run _ => True

/-- If the step is the return of an insert that was accepted, the slots before its record
in the same page have been stored. -/
def ReturnsFilled (s : Sys cfg) (a : Action cfg) : Prop :=
  ∀ t k v w, a = .run t → s.threads t = .returning none (.insert k v) (.bool true) →
    s.store.db k = some w → ∀ τ : Slot cfg, τ.pageId = (cfg.slotOf k w).pageId →
    τ.pos < (cfg.slotOf k w).pos → (s.store.log.recAt τ).op = .insert

/-! ## The invariant of inserting threads -/

/-- The index names a stored record of the key with the payload. -/
def Stored (s : Sys cfg) (k v : UInt64) : Prop :=
  ∃ σ : Slot cfg, s.store.db k = some σ.word ∧ s.Written k σ v

/-- Where a thread that only inserts can stand. -/
def InsertPc (s : Sys cfg) (pc : Pc cfg) : Prop :=
  match pc with
  | .idle => True
  | .insertStart _ _ _ => True
  | .insertVersioned _ _ => True
  | .insertAllocated _ _ _ => True
  | .insertStored _ _ _ => True
  | .returning none (.insert k v) (.bool ret) => ret = true → s.Stored k v
  | _ => False

/-- The invariant of threads that only insert. -/
structure InsertInv (s : Sys cfg) : Prop where
  /-- the invariant of the threads -/
  safe : s.Safe
  /-- every thread is in an insert -/
  pcs : ∀ t, s.InsertPc (s.threads t)
  /-- every record is an INSERT record -/
  records : ∀ σ, (s.store.log.recAt σ).op ≠ .trash → (s.store.log.recAt σ).op = .insert
  /-- the scan reaches the records of acknowledged inserts -/
  acked : ∀ k v, (.insert k v, .bool true) ∈ s.returns →
    ∃ σ : Slot cfg, s.store.db k = some σ.word ∧ s.Written k σ v ∧ s.store.log.Scanned σ

section Invariant

variable {s s' : Sys cfg} {a : Action cfg}

theorem Safe.recAt_step (h : s.Safe) (hstep : s.step a = .ok s') {σ : Slot cfg}
    (hop : (s.store.log.recAt σ).op ≠ .trash) : s'.store.log.recAt σ = s.store.log.recAt σ := by
  obtain ⟨t, hm, -⟩ := h.moves_step hstep
  exact hm.recAt_of_ne_trash h hop

theorem Safe.written_step (h : s.Safe) (hstep : s.step a = .ok s') {k v : UInt64} {σ : Slot cfg}
    (hw : s.Written k σ v) : s'.Written k σ v := by
  obtain ⟨t, hm, -⟩ := h.moves_step hstep
  exact hw.move h hm

theorem Safe.scanned_step (h : s.Safe) (hstep : s.step a = .ok s') {σ : Slot cfg}
    (hσ : s.store.log.Scanned σ) : s'.store.log.Scanned σ := by
  intro τ hpage hpos
  have hop := hσ τ hpage hpos
  rw [h.recAt_step hstep (by rw [hop]; decide)]
  exact hop

/-- Inserts never remap a key. -/
theorem InsertInv.db_step (h : s.InsertInv) (hstep : s.step a = .ok s') {k w : UInt64}
    (hw : s.store.db k = some w) : s'.store.db k = some w := by
  by_cases hwrites : ∃ t, a = .run t ∧ (s.threads t).WritesIndex k
  · obtain ⟨t, rfl, hk⟩ := hwrites
    have hpc := h.pcs t
    cases hth : s.threads t with
    | insertStored key v w' =>
      rw [hth] at hk
      obtain rfl : key = k := hk
      simp only [Sys.step, runThread, hth, Index.insert, hw] at hstep
      obtain rfl := Except.ok.inj hstep
      exact hw
    | updateAllocated src p addr w' =>
      rw [hth] at hpc
      exact hpc.elim
    | eraseSearched tid key w' =>
      rw [hth] at hpc
      exact hpc.elim
    | _ =>
      rw [hth] at hk
      exact hk.elim
  · rw [step_db hstep fun t ha hk => hwrites ⟨t, ha, hk⟩, hw]

theorem InsertInv.stored_step (h : s.InsertInv) (hstep : s.step a = .ok s') {k v : UInt64}
    (hv : s.Stored k v) : s'.Stored k v := by
  obtain ⟨σ, hdb, hw⟩ := hv
  exact ⟨σ, h.db_step hstep hdb, h.safe.written_step hstep hw⟩

theorem InsertInv.insertPc_step (h : s.InsertInv) (hstep : s.step a = .ok s') {pc : Pc cfg}
    (hpc : s.InsertPc pc) : s'.InsertPc pc := by
  cases pc with
  | returning src op ret =>
    cases src with
    | some σ => exact hpc
    | none =>
      cases op with
      | insert k v =>
        cases ret with
        | bool b => exact fun hb => h.stored_step hstep (hpc hb)
        | found p => exact hpc
      | _ => exact hpc
  | _ => exact hpc

/-- Only INSERT records are written. -/
theorem InsertInv.records_step (h : s.InsertInv) (hstep : s.step a = .ok s') {σ : Slot cfg}
    (hop : (s'.store.log.recAt σ).op ≠ .trash) : (s'.store.log.recAt σ).op = .insert := by
  obtain ⟨t, hm, -⟩ := h.safe.moves_step hstep
  rcases hm.recAt σ with heq | hpend
  · rw [heq] at hop ⊢
    exact h.records σ hop
  · -- the thread stores the record it has pending
    have hpc := h.pcs t
    have hok := h.safe.pcs t
    cases hth : s.threads t with
    | insertAllocated p addr w =>
      rw [hth] at hpend hok
      obtain ⟨-, rfl⟩ := hpend
      exact hok.1
    | updateAllocated src p addr w => rw [hth] at hpc; exact hpc.elim
    | updatePublished src p addr => rw [hth] at hpc; exact hpc.elim
    | eraseAllocated p addr ret => rw [hth] at hpc; exact hpc.elim
    | _ => rw [hth] at hpend; exact hpend.elim

/-- What has returned since before the step is what the stepping thread returned. -/
theorem mem_returns_step (hstep : s.step a = .ok s') {p : Op × Ret} (hp : p ∈ s'.returns) :
    p ∈ s.returns ∨ ∃ t, a = .run t ∧ s.threads t = .returning none p.1 p.2 := by
  cases a with
  | run t =>
    replace hstep : s.runThread t = .ok s' := hstep
    have hran := ran_of_runThread hstep
    generalize hth : s.threads t = pc at hran
    cases hran with
    | returning src op ret =>
      cases src with
      | none =>
        rcases List.mem_append.mp hp with hp | hp
        · exact .inl hp
        · rw [List.mem_singleton.mp hp]
          exact .inr ⟨t, rfl, hth⟩
      | some σ => exact .inl hp
    | _ => exact .inl hp
  | call t c =>
    simp only [Sys.step] at hstep
    split at hstep
    all_goals
      obtain rfl := Except.ok.inj hstep
      exact .inl hp
  | relocate t tid σ =>
    simp only [Sys.step, bind, Except.bind, pure, Except.pure] at hstep
    (repeat' split at hstep) <;> cases hstep <;> exact .inl hp

/-- The stepping thread stays in its insert. -/
theorem InsertInv.insertPc_self (h : s.InsertInv) {t : ℕ} (hstep : s.runThread t = .ok s') :
    s'.InsertPc (s'.threads t) := by
  have hpc := h.pcs t
  have hok := h.safe.pcs t
  have hkeep : s.step (.run t) = .ok s' := hstep
  have hran := ran_of_runThread hstep
  generalize hth : s.threads t = pc at hran hpc hok
  cases hran with
  | idle =>
    rw [hth]
    exact hpc
  | insertStart | insertVersioned | insertAllocated =>
    rw [next_threads_self]
    trivial
  | insertStored k v w =>
    obtain ⟨-, σ, rfl, hw⟩ := hok
    have hw' := h.safe.written_step hkeep hw
    rw [next_threads_self]
    cases hdb : s.store.db k with
    | some old =>
      simp only [Index.insert, hdb]
      rintro ⟨⟩
    | none =>
      refine fun _ => ⟨σ, ?_, hw'⟩
      simp only [next_store, Index.insert, hdb, Function.update_self]
  | returning src op ret =>
    have hidle : (s.next t ⟨s.store.log, s.store.db⟩ .idle).threads t = .idle :=
      next_threads_self ..
    rw [hidle]
    trivial
  | _ => exact hpc.elim

/-- **Every step of an insert keeps the invariant**, if inserts return in order. -/
theorem InsertInv.step (h : s.InsertInv) (hins : InsertOnly a) (hC : s.ReturnsFilled a)
    (hstep : s.step a = .ok s') : s'.InsertInv where
  safe := h.safe.step hstep
  pcs u := by
    cases a with
    | relocate t tid σ => exact hins.elim
    | run t =>
      by_cases hu : u = t
      · subst hu
        exact h.insertPc_self hstep
      · rw [runThread_other hstep hu]
        exact h.insertPc_step hstep (h.pcs u)
    | call t c =>
      obtain ⟨k, v, hc⟩ := hins
      by_cases hu : u = t
      · subst hu
        cases hth : s.threads u with
        | idle =>
          simp only [Sys.step, hth] at hstep
          obtain rfl := Except.ok.inj hstep
          rw [next_threads_self, Call.start, hc]
          trivial
        | _ =>
          have hpc := h.pcs u
          simp only [Sys.step, hth] at hstep
          obtain rfl := Except.ok.inj hstep
          exact hpc
      · have hother : s'.threads u = s.threads u := by
          simp only [Sys.step] at hstep
          split at hstep
          · obtain rfl := Except.ok.inj hstep
            exact next_threads_of_ne _ _ _ hu
          · obtain rfl := Except.ok.inj hstep
            rfl
        rw [hother]
        exact h.insertPc_step hstep (h.pcs u)
  records σ := h.records_step hstep
  acked k v hret := by
    rcases mem_returns_step hstep hret with hold | ⟨t, rfl, hth⟩
    · obtain ⟨σ, hdb, hw, hσ⟩ := h.acked k v hold
      exact ⟨σ, h.db_step hstep hdb, h.safe.written_step hstep hw, h.safe.scanned_step hstep hσ⟩
    · have hpc := h.pcs t
      rw [hth] at hpc
      obtain ⟨σ, hdb, hw⟩ := hpc rfl
      have hslot : cfg.slotOf k σ.word = σ :=
        Config.slotOf_word (h.safe.slotted.lt_capacity hw.1.live) hw.1.shard
      have hbefore := hC t k v σ.word rfl hth hdb
      rw [hslot] at hbefore
      have hσ : s.store.log.Scanned σ := by
        intro τ hpage hpos
        rcases Nat.eq_or_lt_of_le hpos with heq | hlt
        · obtain rfl : τ = σ := Slot.ext (congrArg PageId.log hpage) heq
          exact h.records τ hw.1.maps.ne_trash
        · exact hbefore τ hpage hlt
      exact ⟨σ, h.db_step hstep hdb, h.safe.written_step hstep hw, h.safe.scanned_step hstep hσ⟩

end Invariant

theorem reachable_fresh (cfg : Config) : (Logdb.fresh cfg).Reachable := ⟨[], [], rfl⟩

theorem insertInv_fresh (cfg : Config) : (ofStore (Logdb.fresh cfg)).InsertInv where
  safe := safe_ofStore (reachable_fresh cfg)
  pcs _ := trivial
  records σ hop := absurd (congrArg PairT.op (LogKV.recAt_fresh σ)) hop
  acked _ _ h := nomatch h

/-- **Acknowledged inserts survive a crash**, if inserts return in order. In every
interleaving of inserts in which each returns only when the slots before its record in
the same page have been stored, and a crash after any step: recovery by any number of
threads puts every key whose insert had returned true into the index, and if its record
is in the newest page of its log, the append position lies behind it. -/
theorem acknowledged_insert_recovered (cfg : Config) {as : List (Action cfg)} {s : Sys cfg}
    (hrun : Run step (fun s a => InsertOnly a ∧ s.ReturnsFilled a)
      (ofStore (Logdb.fresh cfg)) as s)
    {k v : UInt64} (hret : (.insert k v, .bool true) ∈ s.returns)
    {dir : Fin numaNodeNum → List (PageId cfg)} (hdir : Lists dir s.store.log.pmem) {n : ℕ}
    (hn : 0 < n) :
    ∃ t, Logdb.recover s.store.log.pmem dir n = .ok t ∧ (t.db k).isSome ∧
      ∃ σ : Slot cfg, s.store.db k = some σ.word ∧ s.Written k σ v ∧
        (σ.pageId.page = (s.store.log.ppage σ.log).ppageId →
          σ.off + PairT.size ≤ (t.log.ppage σ.log).szAllocated) := by
  have hinv : s.InsertInv := hrun.invariant (I := InsertInv)
    (fun _ _ _ h hC hst => h.step hC.1 hC.2 hst) (insertInv_fresh cfg)
  obtain ⟨σ, hdb, hw, hσ⟩ := hinv.acked k v hret
  obtain ⟨t, ht, hscan⟩ := Logdb.recover_spec hinv.safe.slotted hdir hn
  exact ⟨t, ht, (hscan.keys k).mpr ⟨σ, trivial, hσ, hw.1.maps.1⟩, σ, hdb, hw,
    fun hpage => hscan.size σ trivial hpage hσ⟩

/-- A step of a thread that is not returning meets the condition. -/
theorem returnsFilled_of_threads {s : Sys cfg} {t : ℕ} {pc : Pc cfg} (hth : s.threads t = pc)
    (hpc : ∀ k v, pc ≠ .returning none (.insert k v) (.bool true)) : s.ReturnsFilled (.run t) := by
  intro u k v w hu hret
  obtain rfl := Action.run.inj hu
  exact absurd (hth.symm.trans hret) (hpc k v)

section Witness

variable {s : Sys cfg} {t : ℕ} {k v : UInt64}

/-- The first three steps of an insert, up to the store of its record. -/
theorem run_insert_stored (hidle : s.threads t = .idle) (hs : s.store.log.Slotted)
    (threadId : Fin 64) (hroom : s.store.log.Room threadId k) :
    Run step (fun s a => InsertOnly a ∧ s.ReturnsFilled a) s
      [.call t ⟨threadId, .insert k v⟩, .run t, .run t, .run t]
      (s.next t ⟨s.store.log.append threadId k (.insertRec (s.store.log.versionFor k) k v),
        s.store.db⟩ (.insertStored k v (s.store.log.nextSlot (cfg.logFor threadId k)).word)) := by
  have hcall : s.step (.call t ⟨threadId, .insert k v⟩) =
      .ok (s.next t s.store (.insertStart threadId k v)) := by
    simp only [step, hidle]
    rfl
  have hquiet : ∀ (store : Logdb cfg) (pc : Pc cfg),
      (∀ k v, pc ≠ .returning none (.insert k v) (.bool true)) →
      InsertOnly (.run t : Action cfg) ∧ (s.next t store pc).ReturnsFilled (.run t) :=
    fun _ _ hpc => ⟨trivial, returnsFilled_of_threads (next_threads_self ..) hpc⟩
  refine .cons ⟨⟨k, v, rfl⟩, fun _ _ _ _ h => by cases h⟩ hcall ?_
  refine .cons (hquiet _ _ fun _ _ h => by cases h) (step_run runThread_insertStart) ?_
  refine .cons (hquiet _ _ fun _ _ h => by cases h)
    (step_run (runThread_insertVersioned (by exact hs.bump) (by exact hroom))) ?_
  exact .single (hquiet _ _ fun _ _ h => by cases h)
    (step_run (runThread_insertAllocated (by exact hs.reserve hroom)
      (by exact LogKV.live_nextSlot_reserve hs threadId k)))

/-- The last two, when the slots before its record have been stored. -/
theorem run_insert_returned (store : Logdb cfg) {σ : Slot cfg} (hσ : cfg.slotOf k σ.word = σ)
    (hdb : store.db k = none)
    (hfilled : ∀ τ : Slot cfg, τ.pageId = σ.pageId → τ.pos < σ.pos →
      (store.log.recAt τ).op = .insert) :
    Run step (fun s a => InsertOnly a ∧ s.ReturnsFilled a)
      (s.next t store (.insertStored k v σ.word)) [.run t, .run t]
      { s.next t ⟨store.log, Function.update store.db k (some σ.word)⟩ .idle with
        returns := s.returns ++ [(.insert k v, .bool true)] } := by
  have hindex : store.db.insert k σ.word = (true, Function.update store.db k (some σ.word)) := by
    simp only [Index.insert, hdb]
  have hpublish : (s.next t store (.insertStored k v σ.word)).runThread t =
      .ok (s.next t ⟨store.log, Function.update store.db k (some σ.word)⟩
        (.returning none (.insert k v) (.bool true))) := by
    rw [runThread_insertStored, hindex]
  refine .cons ⟨trivial, returnsFilled_of_threads (next_threads_self ..) fun _ _ h => by cases h⟩
    (step_run hpublish) ?_
  refine .single ⟨trivial, ?_⟩ (step_run runThread_returning)
  intro u k' v' w hu hret hw τ hpage hpos
  obtain rfl := Action.run.inj hu
  rw [next_threads_self] at hret
  cases hret
  simp only [next_store, Function.update_self, Option.some_inj] at hw
  rw [← hw, hσ] at hpage hpos
  exact hfilled τ hpage hpos

end Witness

/-- Thread 0 has stored the record of key 5 in the first slot when thread 1 inserts key 6
into the second and returns; then thread 0 returns. Both keys survive a crash. -/
theorem acknowledged_insert_recovered_interleaved :
    ∃ (as : List (Action oneShard)) (s : Sys oneShard) (t : Logdb oneShard)
      (dir : Fin numaNodeNum → List (PageId oneShard)),
      as = [.call 0 ⟨0, .insert 5 1⟩, .run 0, .run 0, .run 0,
        .call 1 ⟨1, .insert 6 2⟩, .run 1, .run 1, .run 1, .run 1, .run 1, .run 0, .run 0] ∧
      Run step (fun s a => InsertOnly a ∧ s.ReturnsFilled a) (ofStore (Logdb.fresh oneShard))
        as s ∧
      s.returns = [(.insert 6 2, .bool true), (.insert 5 1, .bool true)] ∧
      Lists dir s.store.log.pmem ∧ Logdb.recover s.store.log.pmem dir 2 = .ok t ∧
      (t.db 5).isSome ∧ (t.db 6).isSome := by
  let s₀ := ofStore (Logdb.fresh oneShard)
  let l := oneShard.logFor 0 5
  have hl : oneShard.logFor 1 6 = l := by decide
  have hs₀ : s₀.store.log.Slotted := LogKV.slotted_fresh oneShard
  have hused₀ : s₀.store.log.used l = 0 := LogKV.used_fresh _
  have hroom₀ : s₀.store.log.Room 0 5 := by
    rw [LogKV.Room, hused₀]
    decide
  -- thread 0 stores its record
  let σ₀ := s₀.store.log.nextSlot l
  let p₀ := PairT.insertRec (s₀.store.log.versionFor 5) 5 1
  let s₁ := s₀.next 0 ⟨s₀.store.log.append 0 5 p₀, s₀.store.db⟩ (.insertStored 5 1 σ₀.word)
  have hrun₁ := run_insert_stored (s := s₀) (t := 0) (k := 5) (v := 1) rfl hs₀ 0 hroom₀
  have hs₁ : s₁.store.log.Slotted := hs₀.append hroom₀
  have hused₁ : s₁.store.log.used l = 1 := by
    refine (congrFun (LogKV.used_append hs₀) l).trans ?_
    rw [Function.update_self, hused₀]
  have hroom₁ : s₁.store.log.Room 1 6 := by
    rw [LogKV.Room, hl, hused₁]
    decide
  -- thread 1 inserts and returns
  let σ₁ := s₁.store.log.nextSlot (oneShard.logFor 1 6)
  let p₁ := PairT.insertRec (s₁.store.log.versionFor 6) 6 2
  let log₂ := s₁.store.log.append 1 6 p₁
  have hpos₁ : σ₁.pos = 1 := by
    rw [show σ₁.pos = s₁.store.log.used (oneShard.logFor 1 6) from rfl, hl, hused₁]
  have hpage₁ : σ₁.pageId = σ₀.pageId := by
    rw [Slot.pageId, Slot.pageId, hpos₁, show σ₀.pos = 0 from hused₀]
    exact congrArg (PageId.mk · 0) hl
  have hfilled : ∀ τ : Slot oneShard, τ.pageId = σ₁.pageId → τ.pos < σ₁.pos →
      (log₂.recAt τ).op = .insert := by
    intro τ hpage hpos
    rw [hpos₁] at hpos
    obtain rfl : τ = σ₀ := by
      rw [hpage₁] at hpage
      refine Slot.ext (congrArg PageId.log hpage) ?_
      rw [show σ₀.pos = 0 from hused₀]
      omega
    have hne : σ₀ ≠ σ₁ := by
      intro heq
      rw [heq, hpos₁] at hpos
      exact lt_irrefl _ hpos
    have hrec : log₂.recAt σ₀ = p₀ := by
      refine (congrFun (LogKV.recAt_append hs₁) σ₀).trans ?_
      rw [Function.update_of_ne (by exact hne)]
      exact LogKV.recAt_append_self hs₀
    rw [hrec]
    rfl
  have hrun₂ := (run_insert_stored (s := s₁) (t := 1) (k := 6) (v := 2) rfl hs₁
    1 hroom₁).append (run_insert_returned ⟨log₂, s₁.store.db⟩
      (Config.slotOf_word hroom₁ rfl) rfl hfilled)
  -- thread 0 returns
  let s₃ : Sys oneShard :=
    { s₁.next 1 ⟨log₂, Function.update s₁.store.db 6 (some σ₁.word)⟩ .idle with
      returns := [(.insert 6 2, .bool true)] }
  have hth : s₃.threads 0 = .insertStored 5 1 σ₀.word := rfl
  have hdb : s₃.store.db 5 = none :=
    Function.update_of_ne (by decide : (5 : UInt64) ≠ 6) (some σ₁.word) s₁.store.db
  have hslot₀ : oneShard.slotOf 5 σ₀.word = σ₀ := Config.slotOf_word hroom₀ rfl
  have hrun₃ := run_insert_returned (s := s₃) (t := 0) (v := 1) s₃.store hslot₀ hdb
    fun τ _ hpos => absurd (hpos.trans_eq hused₀) (Nat.not_lt_zero _)
  rw [next_self hth] at hrun₃
  have hrun := hrun₁.append (hrun₂.append hrun₃)
  have hinv := hrun.invariant (I := InsertInv)
    (fun _ _ _ h hC hst => h.step hC.1 hC.2 hst) (insertInv_fresh oneShard)
  obtain ⟨dir, hdir⟩ := hinv.safe.slotted.wf.exists_lists
  obtain ⟨t, ht, h5, -⟩ := acknowledged_insert_recovered oneShard hrun (k := 5) (v := 1)
    (List.mem_cons_of_mem _ (List.mem_singleton.mpr rfl)) hdir (by decide : 0 < 2)
  obtain ⟨t', ht', h6, -⟩ := acknowledged_insert_recovered oneShard hrun (k := 6) (v := 2)
    (List.mem_cons_self ..) hdir (by decide : 0 < 2)
  obtain rfl := Except.ok.inj (ht'.symm.trans ht)
  exact ⟨_, _, t', dir, rfl, hrun, rfl, hdir, ht, h5, h6⟩

/-- The key an action starts to insert. -/
def insertedKey (a : Action cfg) : Option UInt64 :=
  match a with
  | .call _ ⟨_, .insert k _⟩ => some k
  | _ => none

/-- Thread 0 takes the first slot for key 5 and is stopped before its `store_persist`;
thread 1 inserts key 6 into the second slot and returns. The scan ends at the first slot. -/
theorem acknowledged_insert_lost :
    ¬ ∀ (as : List (Action oneShard)) (s : Sys oneShard),
      Run step (fun _ a => InsertOnly a) (ofStore (Logdb.fresh oneShard)) as s →
      (as.filterMap insertedKey).Nodup →
      ∀ k v, (.insert k v, .bool true) ∈ s.returns →
      ∀ dir, Lists dir s.store.log.pmem → ∀ n, 0 < n →
      ∃ t, Logdb.recover s.store.log.pmem dir n = .ok t ∧ (t.db k).isSome := by
  intro hclaim
  let store := Logdb.fresh oneShard
  let l := oneShard.logFor 0 5
  let log := store.log.reserve 0 5
  have hs : store.log.Slotted := LogKV.slotted_fresh oneShard
  have hzero : store.log.used l = 0 := LogKV.used_fresh _
  have hroom : store.log.Room 0 5 := by
    rw [LogKV.Room, hzero]
    decide
  have hlog : log.Slotted := hs.reserve hroom
  have hone : log.used l = 1 := by
    rw [LogKV.used_reserve hs, Function.update_self, hzero]
  have hroom' : log.Room 0 6 := by
    replace hone : log.used (oneShard.logFor 0 6) = 1 := hone
    rw [LogKV.Room, hone]
    decide
  have hcall : (ofStore store).step (.call 0 ⟨0, .insert 5 1⟩) =
      .ok ((ofStore store).next 0 store (.insertStart 0 5 1)) := rfl
  -- thread 0 has its slot
  let s := (ofStore store).next 0 ⟨log, store.db⟩
    (.insertAllocated (.insertRec (store.log.versionFor 5) 5 1) (store.log.nextSlot l).ptr
      (store.log.nextSlot l).word)
  have hrun : Run step (fun _ a => InsertOnly a) (ofStore store)
      [.call 0 ⟨0, .insert 5 1⟩, .run 0, .run 0] s := by
    refine .cons ⟨5, 1, rfl⟩ hcall ?_
    refine .cons trivial (step_run runThread_insertStart) ?_
    exact .single trivial
      (step_run (runThread_insertVersioned (by exact hs.bump) (by exact hroom)))
  -- thread 1 inserts and returns
  let p := PairT.insertRec (log.versionFor 6) 6 2
  let store' : Logdb oneShard := ⟨log.append 0 6 p,
    Function.update store.db 6 (some (log.nextSlot (oneShard.logFor 0 6)).word)⟩
  have hinsert : s.store.step ⟨0, .insert 6 2⟩ = .ok (.bool true, store') := by
    have heq : s.store.insert 0 6 2 = .ok (true, store') :=
      (Logdb.insert_eq hlog 2).trans (if_pos hroom')
    simp only [Logdb.step, heq]
    rfl
  have hrun' := hrun.append ((run_alone (t := 1) rfl hlog hinsert).mono fun _ a ha => by
    rcases ha.1 with rfl | rfl
    · exact ⟨6, 2, rfl⟩
    · trivial)
  have hslotted : store'.log.Slotted := hlog.append hroom'
  obtain ⟨dir, hdir⟩ := hslotted.wf.exists_lists
  obtain ⟨t, ht, hkey⟩ := hclaim _ _ hrun' (by decide) 6 2 (List.mem_singleton.mpr rfl) dir hdir 1
    (by decide)
  obtain ⟨t', ht', hscan⟩ := Logdb.recover_spec hslotted hdir (by decide : 0 < 1)
  obtain rfl := Except.ok.inj (ht.symm.trans ht')
  obtain ⟨σ, -, hσ, -⟩ := (hscan.keys 6).mp hkey
  -- every slot but that of key 6 is blank
  have hrec : ∀ τ, τ ≠ log.nextSlot l → store'.log.recAt τ = PairT.blank := by
    intro τ hτ
    rw [LogKV.recAt_append hlog, Function.update_of_ne (by exact hτ), LogKV.recAt_reserve hs]
    exact LogKV.recAt_fresh τ
  have hop := hσ σ rfl (le_refl _)
  obtain rfl : σ = log.nextSlot l := by
    by_contra hne
    rw [hrec σ hne] at hop
    cases hop
  have hfirst : (store.log.nextSlot l).pos = 0 := hzero
  have hsecond : (log.nextSlot l).pos = 1 := hone
  have hpage : (store.log.nextSlot l).pageId = (log.nextSlot l).pageId := by
    rw [Slot.pageId, Slot.pageId, hfirst, hsecond]
    rfl
  have hblank := hσ (store.log.nextSlot l) hpage (by omega)
  rw [hrec _ (fun h => by rw [h] at hfirst; omega)] at hblank
  cases hblank

end Sys

end NaliStore
