import NaliStore.Concurrent

/-!
# What holds across every interleaving

The invariant of the threads of `Concurrent`. A slot that a thread has allocated and not
stored yet is blank and belongs to that thread alone (`Pending`). An index entry names a
slot that holds a record of the key, or one that a thread in `update` has published and
is about to store (`Published`): between these two steps the index names bytes that are
not there yet.

The invariant is kept relative to a set `A` of payloads that a key may have: if every
write call and every relocation brings an allowed payload, then whatever the index names
is, or will be, an allowed payload.
-/

namespace NaliStore

open Runs

variable {cfg : Config}

/-! ## Records in flight -/

namespace Pc

/-- The slot a thread has allocated, and the record it is going to store there. -/
def Pending (pc : Pc cfg) (σ : Slot cfg) (r : PairT) : Prop :=
  match pc with
  | .insertAllocated p logAddr _ => logAddr = σ.ptr ∧ p = r
  | .updateAllocated _ p logAddr _ => logAddr = σ.ptr ∧ p = r
  | .updatePublished _ p logAddr => logAddr = σ.ptr ∧ p = r
  | .eraseAllocated p logAddr _ => logAddr = σ.ptr ∧ p = r
  | _ => False

/-- The same, when the index names the slot already. -/
def Published (pc : Pc cfg) (σ : Slot cfg) (r : PairT) : Prop :=
  match pc with
  | .updatePublished _ p logAddr => logAddr = σ.ptr ∧ p = r
  | _ => False

theorem Published.pending {pc : Pc cfg} {σ : Slot cfg} {r : PairT}
    (h : pc.Published σ r) : pc.Pending σ r := by
  cases pc <;> first | exact h | exact h.elim

/-- The next step changes the index at the key. -/
def WritesIndex (pc : Pc cfg) (k : UInt64) : Prop :=
  match pc with
  | .insertStored key _ _ => key = k
  | .updateAllocated _ p _ _ => p.key = k
  | .eraseSearched _ key _ => key = k
  | _ => False

/-- A thread has one pending record. -/
theorem Pending.unique {pc : Pc cfg} {σ τ : Slot cfg} {r q : PairT} (h : pc.Pending σ r)
    (h' : pc.Pending τ q) : σ = τ ∧ r = q := by
  cases pc <;> first
    | exact h.elim
    | exact ⟨Slot.ptr_injective (h.1.symm.trans h'.1), h.2.symm.trans h'.2⟩

end Pc

theorem PairT.Maps.ne_trash {r : PairT} {k : UInt64} (h : r.Maps k) : r.op ≠ .trash := by
  obtain ⟨-, hop | hop⟩ := h
  · rw [hop]; decide
  · rw [hop]; decide

namespace Sys

/-- The slot holds a record that maps the key to the payload. -/
def Written (s : Sys cfg) (k : UInt64) (σ : Slot cfg) (v : UInt64) : Prop :=
  Logdb.Target s.store.log k σ ∧ (s.store.log.recAt σ).value = v

/-- The slot holds a record that maps the key to the payload, or will hold one as soon as
the thread that has published it takes its next step. -/
def Names (s : Sys cfg) (k : UInt64) (σ : Slot cfg) (v : UInt64) : Prop :=
  s.Written k σ v ∨
    s.store.log.Live σ ∧ σ.log.hash = cfg.shard k ∧
      ∃ t r, (s.threads t).Published σ r ∧ r.key = k ∧ r.value = v

variable (A : UInt64 → UInt64 → Prop)

/-- A search that returns a payload returns an allowed one. -/
def RetOk (op : Op) (ret : Ret) : Prop :=
  ∀ k v, op = .search k → ret = .found (some v) → A k v

/-- What is known of the local variables of a thread. -/
def PcOk (s : Sys cfg) (pc : Pc cfg) : Prop :=
  match pc with
  | .insertStart _ k v => A k v
  | .insertVersioned _ p => p.op = .insert ∧ A p.key p.value
  | .insertAllocated p logAddr logOffset =>
    p.op = .insert ∧ A p.key p.value ∧ ∃ σ : Slot cfg, logAddr = σ.ptr ∧ logOffset = σ.word
  | .insertStored k v logOffset => A k v ∧ ∃ σ, logOffset = σ.word ∧ s.Written k σ v
  | .updateStart src _ k v => A k v ∧ ∀ σ, src = some σ → s.Written k σ v
  | .updateVersioned src _ p =>
    p.op = .update ∧ A p.key p.value ∧ ∀ σ, src = some σ → s.Written p.key σ p.value
  | .updateAllocated src p logAddr curLogAddr =>
    p.op = .update ∧ A p.key p.value ∧ (∀ σ, src = some σ → s.Written p.key σ p.value) ∧
      ∃ σ : Slot cfg, logAddr = σ.ptr ∧ curLogAddr = σ.word
  | .updatePublished _ p logAddr =>
    p.op = .update ∧ A p.key p.value ∧ ∃ σ : Slot cfg, logAddr = σ.ptr
  | .eraseAllocated _ logAddr _ => ∃ σ : Slot cfg, logAddr = σ.ptr
  | .searchFound k addrInfo => ∃ σ v, addrInfo = σ.word ∧ A k v ∧ s.Names k σ v
  | .returning _ op ret => RetOk A op ret
  | _ => True

/-- The invariant of the threads. -/
structure Inv (s : Sys cfg) : Prop where
  /-- the log consists of fixed-size slots -/
  slotted : s.store.log.Slotted
  /-- written records are in the shard of their key -/
  placed : s.store.log.Placed
  /-- a slot that is not stored yet is blank -/
  pending : ∀ t σ r, (s.threads t).Pending σ r →
    s.store.log.Live σ ∧ s.store.log.recAt σ = PairT.blank ∧ σ.log.hash = cfg.shard r.key
  /-- and belongs to one thread -/
  alone : ∀ t u σ r q, (s.threads t).Pending σ r → (s.threads u).Pending σ q → t = u
  /-- an index entry names an allowed payload -/
  entry : ∀ k w, s.store.db k = some w → ∃ σ v, w = σ.word ∧ A k v ∧ s.Names k σ v
  /-- the local variables are in order -/
  pcs : ∀ t, s.PcOk A (s.threads t)
  /-- searches have returned allowed payloads -/
  returned : ∀ p ∈ s.returns, RetOk A p.1 p.2

variable {A} {s : Sys cfg}

theorem Names.live {k v : UInt64} {σ : Slot cfg} (h : s.Names k σ v) : s.store.log.Live σ := by
  rcases h with h | ⟨h, -⟩
  · exact h.1.live
  · exact h

theorem Names.shard {k v : UInt64} {σ : Slot cfg} (h : s.Names k σ v) :
    σ.log.hash = cfg.shard k := by
  rcases h with h | ⟨-, h, -⟩
  · exact h.1.shard
  · exact h

/-! ## One thread moves -/

/-- Thread `t` moves to `pc` and leaves the store as `store`: at most its own pending
slot is written, and a published record stays published or is stored. -/
structure Moves (s : Sys cfg) (t : ℕ) (store : Logdb cfg) (pc : Pc cfg) : Prop where
  /-- the log consists of fixed-size slots -/
  slotted : store.log.Slotted
  /-- no slot is taken back -/
  live : ∀ σ, s.store.log.Live σ → store.log.Live σ
  /-- only the pending slot of the thread is written -/
  recAt : ∀ σ, store.log.recAt σ = s.store.log.recAt σ ∨
    (s.threads t).Pending σ (store.log.recAt σ)
  /-- a published record is not dropped -/
  published : ∀ σ r, (s.threads t).Published σ r → pc.Published σ r ∨ store.log.recAt σ = r

section Move

variable {t : ℕ} {store : Logdb cfg} {pc : Pc cfg} {k v : UInt64} {σ : Slot cfg}

/-- A written record is not changed by any thread. -/
theorem Moves.recAt_of_ne_trash (hm : s.Moves t store pc) (h : s.Inv A)
    (hop : (s.store.log.recAt σ).op ≠ .trash) : store.log.recAt σ = s.store.log.recAt σ := by
  rcases hm.recAt σ with heq | hpend
  · exact heq
  · obtain ⟨-, hblank, -⟩ := h.pending t σ _ hpend
    rw [hblank] at hop
    exact absurd rfl hop

theorem Written.move (hw : s.Written k σ v) (h : s.Inv A) (hm : s.Moves t store pc) :
    (s.next t store pc).Written k σ v := by
  have heq := hm.recAt_of_ne_trash h hw.1.maps.ne_trash
  refine ⟨⟨hm.live σ hw.1.live, hw.1.shard, ?_⟩, ?_⟩
  · rw [next_store, heq]
    exact hw.1.maps
  · rw [next_store, heq]
    exact hw.2

theorem Inv.published_op (h : s.Inv A) {r : PairT} (hp : (s.threads t).Published σ r) :
    r.op = .update := by
  have hpc := h.pcs t
  cases hth : s.threads t with
  | updatePublished src p logAddr =>
    rw [hth] at hp hpc
    obtain ⟨-, rfl⟩ := hp
    exact hpc.1
  | _ => rw [hth] at hp; exact hp.elim

theorem Names.move (hn : s.Names k σ v) (h : s.Inv A) (hm : s.Moves t store pc) :
    (s.next t store pc).Names k σ v := by
  rcases hn with hw | ⟨hlive, hshard, u, r, hp, hkey, hval⟩
  · exact .inl (hw.move h hm)
  · by_cases hu : u = t
    · subst hu
      rcases hm.published σ r hp with hp' | hstored
      · exact .inr ⟨hm.live σ hlive, hshard, u, r, by rwa [next_threads_self], hkey, hval⟩
      · -- the thread has stored its record
        refine .inl ⟨⟨hm.live σ hlive, hshard, ?_⟩, ?_⟩
        · rw [next_store, hstored]
          exact ⟨hkey, .inr (h.published_op hp)⟩
        · rw [next_store, hstored]
          exact hval
    · exact .inr ⟨hm.live σ hlive, hshard, u, r, by rwa [next_threads_of_ne _ _ _ hu], hkey, hval⟩

theorem PcOk.move {pc' : Pc cfg} (hpc : s.PcOk A pc') (h : s.Inv A) (hm : s.Moves t store pc) :
    (s.next t store pc).PcOk A pc' := by
  cases pc' with
  | insertStored k v w =>
    obtain ⟨hA, σ, hw, hwr⟩ := hpc
    exact ⟨hA, σ, hw, hwr.move h hm⟩
  | updateStart src tid k v => exact ⟨hpc.1, fun σ hσ => (hpc.2 σ hσ).move h hm⟩
  | updateVersioned src tid p =>
    exact ⟨hpc.1, hpc.2.1, fun σ hσ => (hpc.2.2 σ hσ).move h hm⟩
  | updateAllocated src p a w =>
    exact ⟨hpc.1, hpc.2.1, fun σ hσ => (hpc.2.2.1 σ hσ).move h hm, hpc.2.2.2⟩
  | searchFound k w =>
    obtain ⟨σ, v, hw, hA, hn⟩ := hpc
    exact ⟨σ, v, hw, hA, hn.move h hm⟩
  | _ => exact hpc

/-- **A move keeps the invariant**, given what it publishes and what it leaves pending. -/
theorem Inv.move (h : s.Inv A) (hm : s.Moves t store pc)
    (hpend : ∀ σ r, pc.Pending σ r → store.log.Live σ ∧ store.log.recAt σ = PairT.blank ∧
      σ.log.hash = cfg.shard r.key ∧
      (¬ s.store.log.Live σ ∨ ∃ q, (s.threads t).Pending σ q))
    (hdb : ∀ k w, store.db k = some w → s.store.db k = some w ∨
      ∃ σ v, w = σ.word ∧ A k v ∧ (s.next t store pc).Names k σ v)
    (hpc : (s.next t store pc).PcOk A pc) : (s.next t store pc).Inv A where
  slotted := hm.slotted
  placed σ hop := by
    rw [next_store] at hop ⊢
    rcases hm.recAt σ with heq | hp
    · rw [heq] at hop ⊢
      exact h.placed σ hop
    · exact (h.pending t σ _ hp).2.2
  pending u σ r hp := by
    rw [next_store]
    by_cases hu : u = t
    · subst hu
      rw [next_threads_self] at hp
      obtain ⟨hlive, hblank, hshard, -⟩ := hpend σ r hp
      exact ⟨hlive, hblank, hshard⟩
    · rw [next_threads_of_ne _ _ _ hu] at hp
      obtain ⟨hlive, hblank, hshard⟩ := h.pending u σ r hp
      refine ⟨hm.live σ hlive, ?_, hshard⟩
      rcases hm.recAt σ with heq | hp'
      · rw [heq, hblank]
      · exact absurd (h.alone u t σ r _ hp hp') hu
  alone u u' σ r q hp hq := by
    by_cases hu : u = t
    · by_cases hu' : u' = t
      · rw [hu, hu']
      · subst hu
        rw [next_threads_self] at hp
        rw [next_threads_of_ne _ _ _ hu'] at hq
        obtain ⟨-, -, -, hnew | ⟨q', hq'⟩⟩ := hpend σ r hp
        · exact absurd (h.pending u' σ q hq).1 hnew
        · exact h.alone u u' σ q' q hq' hq
    · rw [next_threads_of_ne _ _ _ hu] at hp
      by_cases hu' : u' = t
      · subst hu'
        rw [next_threads_self] at hq
        obtain ⟨-, -, -, hnew | ⟨q', hq'⟩⟩ := hpend σ q hq
        · exact absurd (h.pending u σ r hp).1 hnew
        · exact h.alone u u' σ r q' hp hq'
      · rw [next_threads_of_ne _ _ _ hu'] at hq
        exact h.alone u u' σ r q hp hq
  entry k w hw := by
    rcases hdb k w hw with hold | hnew
    · obtain ⟨σ, v, hσ, hA, hn⟩ := h.entry k w hold
      exact ⟨σ, v, hσ, hA, hn.move h hm⟩
    · exact hnew
  pcs u := by
    by_cases hu : u = t
    · subst hu
      rw [next_threads_self]
      exact hpc
    · rw [next_threads_of_ne _ _ _ hu]
      exact (h.pcs u).move h hm
  returned := h.returned

/-- A move that leaves the records alone, of a thread that has not published. -/
theorem moves_quiet (hlog : store.log.Slotted)
    (hlive : ∀ σ, s.store.log.Live σ → store.log.Live σ)
    (hrec : store.log.recAt = s.store.log.recAt) {pc₀ : Pc cfg} (hth : s.threads t = pc₀)
    (hpub : ∀ σ r, ¬ pc₀.Published σ r) : s.Moves t store pc :=
  ⟨hlog, hlive, fun σ => .inl (congrFun hrec σ), fun σ r hp => absurd (hth ▸ hp) (hpub σ r)⟩

/-- No move at all. -/
theorem moves_refl (h : s.Inv A) : s.Moves t s.store (s.threads t) :=
  ⟨h.slotted, fun _ hσ => hσ, fun _ => .inl rfl, fun _ _ => .inl⟩

/-- A move that stores the pending record. -/
theorem Inv.moves_write (h : s.Inv A) {r : PairT} (hp : (s.threads t).Pending σ r)
    (hlog : store.log = s.store.log.write σ r) : s.Moves t store pc := by
  obtain ⟨hlive, -, -⟩ := h.pending t σ r hp
  refine ⟨?_, ?_, fun τ => ?_, fun τ q hq => .inr ?_⟩
  · rw [hlog]
    exact h.slotted.write hlive
  · rw [hlog]
    exact fun τ hτ => hτ
  · rw [hlog, LogKV.recAt_write]
    by_cases hτ : τ = σ
    · subst hτ
      rw [Function.update_self]
      exact .inr hp
    · rw [Function.update_of_ne hτ]
      exact .inl rfl
  · obtain ⟨rfl, rfl⟩ := Pc.Pending.unique hq.pending hp
    rw [hlog, LogKV.recAt_write, Function.update_self]

end Move

/-! ## Every step -/

/-- The action brings only allowed payloads. -/
def Brings (A : UInt64 → UInt64 → Prop) (s : Sys cfg) (a : Action cfg) : Prop :=
  match a with
  | .call _ c => ∀ k v, c.op = .insert k v ∨ c.op = .update k v → A k v
  | .relocate _ _ σ => A (s.store.log.recAt σ).key (s.store.log.recAt σ).value
  | .run _ => True

/-- A search that reads reads an allowed payload. -/
def Reads (A : UInt64 → UInt64 → Prop) (s : Sys cfg) (a : Action cfg) : Prop :=
  ∀ t k w, a = .run t → s.threads t = .searchFound k w → ∀ addr v,
    s.store.log.getAddr (.ofAddrInfo w) (cfg.xxh3 k) = .ok addr →
    s.store.log.readPayload addr = .ok v → A k v

theorem Inv.returns (h : s.Inv A) {returns : List (Op × Ret)}
    (hret : ∀ p ∈ returns, RetOk A p.1 p.2) : Inv A { s with returns } :=
  ⟨h.slotted, h.placed, h.pending, h.alone, h.entry, h.pcs, hret⟩

section Steps

variable {t : ℕ} {s' : Sys cfg} {pc pc₀ : Pc cfg}

/-- A move that changes neither log nor index, to a place with nothing pending. -/
theorem Inv.move_local (h : s.Inv A) (hth : s.threads t = pc₀)
    (hpub : ∀ σ r, ¬ pc₀.Published σ r) (hpend : ∀ σ r, ¬ pc.Pending σ r)
    (hpc : (s.next t s.store pc).PcOk A pc) : (s.next t s.store pc).Inv A :=
  h.move (moves_quiet h.slotted (fun _ hσ => hσ) rfl hth hpub)
    (fun σ r hp => absurd hp (hpend σ r)) (fun _ _ hw => .inl hw) hpc

/-- Taking a version. -/
theorem Inv.move_version (h : s.Inv A) {hashKey : UInt64} (hth : s.threads t = pc₀)
    (hpub : ∀ σ r, ¬ pc₀.Published σ r) (hpend : ∀ σ r, ¬ pc.Pending σ r)
    (hpc : (s.next t ⟨s.store.log.bump hashKey, s.store.db⟩ pc).PcOk A pc) :
    (s.next t ⟨s.store.log.bump hashKey, s.store.db⟩ pc).Inv A :=
  h.move (moves_quiet h.slotted.bump (fun _ hσ => hσ) rfl hth hpub)
    (fun σ r hp => absurd hp (hpend σ r)) (fun _ _ hw => .inl hw) hpc

/-- Taking a slot, which becomes pending. -/
theorem Inv.move_alloc (h : s.Inv A) {threadId : Fin 64} {key : UInt64}
    (hroom : s.store.log.Room threadId key) (hth : s.threads t = pc₀)
    (hpub : ∀ σ r, ¬ pc₀.Published σ r)
    (hpend : ∀ σ r, pc.Pending σ r →
      σ = s.store.log.nextSlot (cfg.logFor threadId key) ∧ r.key = key)
    (hpc : (s.next t ⟨s.store.log.afterAlloc (cfg.logFor threadId key) PairT.size,
      s.store.db⟩ pc).PcOk A pc) :
    (s.next t ⟨s.store.log.afterAlloc (cfg.logFor threadId key) PairT.size,
      s.store.db⟩ pc).Inv A := by
  have hs := h.slotted
  refine h.move (moves_quiet (hs.afterAlloc hroom) (fun _ hσ => hs.live_afterAlloc.mpr (.inl hσ))
    hs.recAt_afterAlloc hth hpub) (fun σ r hp => ?_) (fun _ _ hw => .inl hw) hpc
  obtain ⟨rfl, hkey⟩ := hpend σ r hp
  refine ⟨hs.nextSlot_live, ?_, ?_, .inl LogKV.nextSlot_not_live⟩
  · simp only [hs.recAt_afterAlloc]
    exact hs.unwritten _ LogKV.nextSlot_not_live
  · rw [hkey]
    rfl

/-- Storing the pending record. -/
theorem Inv.move_store (h : s.Inv A) {σ : Slot cfg} {r : PairT} (hth : s.threads t = pc₀)
    (hp : pc₀.Pending σ r) (hpend : ∀ σ r, ¬ pc.Pending σ r)
    (hpc : (s.next t ⟨s.store.log.write σ r, s.store.db⟩ pc).PcOk A pc) :
    (s.next t ⟨s.store.log.write σ r, s.store.db⟩ pc).Inv A :=
  h.move (h.moves_write (hth ▸ hp) rfl) (fun τ q hq => absurd hq (hpend τ q))
    (fun _ _ hw => .inl hw) hpc

/-- The entries of an index in which one key has been changed. -/
theorem entry_of_update {db : Index} {k : UInt64} {x : Option UInt64} {N : UInt64 → UInt64 → Prop}
    (hx : ∀ w, x = some w → N k w) (k' w' : UInt64) (hw : Function.update db k x k' = some w') :
    db k' = some w' ∨ N k' w' := by
  by_cases hk : k' = k
  · subst hk
    rw [Function.update_self] at hw
    exact .inr (hx w' hw)
  · rw [Function.update_of_ne hk] at hw
    exact .inl hw

/-- **Every step of a thread keeps the invariant.** -/
theorem Inv.runThread (h : s.Inv A) (hread : s.Reads A (.run t))
    (hstep : s.runThread t = .ok s') : s'.Inv A := by
  have hs := h.slotted
  have hpc := h.pcs t
  have hpend := h.pending t
  have hran := ran_of_runThread hstep
  generalize hth : s.threads t = pc at hran hpc hpend
  cases hran with
  | idle => exact h
  | insertStart tid k v => exact h.move_version hth (fun _ _ => id) (fun _ _ => id) ⟨rfl, hpc⟩
  | insertVersioned tid p halloc =>
    obtain ⟨hroom, rfl, rfl, rfl⟩ := hs.allocLog_inv halloc
    refine h.move_alloc hroom hth (fun _ _ => id) ?_ ⟨hpc.1, hpc.2, _, rfl, rfl⟩
    rintro σ r ⟨hσ, rfl⟩
    exact ⟨(Slot.ptr_injective hσ).symm, rfl⟩
  | insertAllocated p a w hstore =>
    obtain ⟨hop, hA, σ, rfl, rfl⟩ := hpc
    obtain ⟨hlive, -, hshard⟩ := hpend σ p ⟨rfl, rfl⟩
    obtain rfl := hs.storePersist_inv hlive hstore
    refine h.move_store hth ⟨rfl, rfl⟩ (fun _ _ => id) ⟨hA, σ, rfl, ⟨hlive, hshard, ?_⟩, ?_⟩
    · rw [next_store, LogKV.recAt_write, Function.update_self]
      exact ⟨rfl, .inl hop⟩
    · rw [next_store, LogKV.recAt_write, Function.update_self]
  | insertStored k v w =>
    obtain ⟨hA, σ, rfl, hw⟩ := hpc
    have hm : s.Moves t ⟨s.store.log, (s.store.db.insert k σ.word).2⟩ (.returning none
        (.insert k v) (.bool (s.store.db.insert k σ.word).1)) :=
      moves_quiet hs (fun _ hσ => hσ) rfl hth fun _ _ => id
    refine h.move hm (fun _ _ hp => hp.elim) ?_ (fun _ _ hop => by cases hop)
    intro k' w' hw'
    simp only [Index.insert] at hw'
    cases hdb : s.store.db k with
    | some _ =>
      rw [hdb] at hw'
      exact .inl hw'
    | none =>
      rw [hdb] at hw'
      rcases entry_of_update (N := fun k' w' => k' = k ∧ w' = σ.word)
        (fun x hx => ⟨rfl, (Option.some.inj hx).symm⟩) k' w' hw' with hold | ⟨rfl, rfl⟩
      · exact .inl hold
      · exact .inr ⟨σ, v, rfl, hA, .inl (hw.move h hm)⟩
  | updateStart src tid k v =>
    have hm : s.Moves t ⟨s.store.log.bump (cfg.xxh3 k), s.store.db⟩ (.updateVersioned src tid
        (((PairT.ofKeyValue k v).setVersion (s.store.log.versionFor k)).setOp .update)) :=
      moves_quiet hs.bump (fun _ hσ => hσ) rfl hth fun _ _ => id
    exact h.move_version hth (fun _ _ => id) (fun _ _ => id)
      ⟨rfl, hpc.1, fun σ hσ => (hpc.2 σ hσ).move h hm⟩
  | updateVersioned src tid p halloc =>
    obtain ⟨hroom, rfl, rfl, rfl⟩ := hs.allocLog_inv halloc
    have hm : s.Moves t ⟨s.store.log.afterAlloc (cfg.logFor tid p.key) PairT.size, s.store.db⟩
        (.updateAllocated src p (s.store.log.nextSlot (cfg.logFor tid p.key)).ptr
          (s.store.log.nextSlot (cfg.logFor tid p.key)).word) :=
      moves_quiet (hs.afterAlloc hroom) (fun _ hσ => hs.live_afterAlloc.mpr (.inl hσ))
        hs.recAt_afterAlloc hth fun _ _ => id
    refine h.move_alloc hroom hth (fun _ _ => id) ?_
      ⟨hpc.1, hpc.2.1, fun σ hσ => (hpc.2.2 σ hσ).move h hm, _, rfl, rfl⟩
    rintro σ r ⟨hσ, rfl⟩
    exact ⟨(Slot.ptr_injective hσ).symm, rfl⟩
  | updateMissing src p a w hdb =>
    exact h.move_local hth (fun _ _ => id) (fun _ _ => id) (fun _ _ hop => by cases hop)
  | updateAllocated src p a w old hdb =>
    obtain ⟨hop, hA, hsrc, σ, rfl, rfl⟩ := hpc
    obtain ⟨hlive, hblank, hshard⟩ := hpend σ p ⟨rfl, rfl⟩
    have hm : s.Moves t ⟨s.store.log, Function.update s.store.db p.key (some σ.word)⟩
        (.updatePublished src (p.setLastLogOffest old) σ.ptr) :=
      moves_quiet hs (fun _ hσ => hσ) rfl hth fun _ _ => id
    refine h.move hm ?_ ?_ ⟨hop, hA, σ, rfl⟩
    · rintro τ r ⟨hτ, rfl⟩
      obtain rfl := Slot.ptr_injective hτ
      exact ⟨hlive, hblank, hshard, .inr ⟨p, by rw [hth]; exact ⟨rfl, rfl⟩⟩⟩
    · -- from here on the index names the slot, which is still blank
      refine entry_of_update fun x hx => ?_
      refine ⟨σ, p.value, (Option.some.inj hx).symm, hA, .inr ⟨hlive, hshard, t,
        p.setLastLogOffest old, ?_, rfl, rfl⟩⟩
      rw [next_threads_self]
      exact ⟨rfl, rfl⟩
  | updatePublished src p a hstore =>
    obtain ⟨hop, hA, σ, rfl⟩ := hpc
    obtain rfl := hs.storePersist_inv (hpend σ p ⟨rfl, rfl⟩).1 hstore
    exact h.move_store hth ⟨rfl, rfl⟩ (fun _ _ => id) (fun _ _ hop => by cases hop)
  | eraseStart tid k => exact h.move_local hth (fun _ _ => id) (fun _ _ => id) trivial
  | eraseSearched tid k w =>
    exact h.move (moves_quiet hs (fun _ hσ => hσ) rfl hth fun _ _ => id)
      (fun _ _ hp => hp.elim) (entry_of_update fun _ hx => by cases hx) trivial
  | eraseErased tid k w ret =>
    exact h.move_version hth (fun _ _ => id) (fun _ _ => id) trivial
  | eraseVersioned tid p ret halloc =>
    obtain ⟨hroom, rfl, rfl, rfl⟩ := hs.allocLog_inv halloc
    refine h.move_alloc hroom hth (fun _ _ => id) ?_ ⟨_, rfl⟩
    rintro σ r ⟨hσ, rfl⟩
    exact ⟨(Slot.ptr_injective hσ).symm, rfl⟩
  | eraseAllocated p a ret hstore =>
    obtain ⟨σ, rfl⟩ := hpc
    obtain rfl := hs.storePersist_inv (hpend σ p ⟨rfl, rfl⟩).1 hstore
    exact h.move_store hth ⟨rfl, rfl⟩ (fun _ _ => id) (fun _ _ hop => by cases hop)
  | searchMissing k hdb =>
    exact h.move_local hth (fun _ _ => id) (fun _ _ => id) (fun _ _ _ hret => by cases hret)
  | searchStart k w hdb =>
    obtain ⟨σ, v, hσ, hA, hn⟩ := h.entry k w hdb
    refine h.move_local hth (fun _ _ => id) (fun _ _ => id) ⟨σ, v, hσ, hA, ?_⟩
    exact hn.move h (moves_quiet hs (fun _ hσ => hσ) rfl hth fun _ _ => id)
  | searchFound k w haddr hval =>
    refine h.move_local hth (fun _ _ => id) (fun _ _ => id) ?_
    rintro _ _ ⟨⟩ ⟨⟩
    exact hread t k w rfl hth _ _ haddr hval
  | returning src op ret =>
    have hidle : (s.next t s.store .idle).Inv A :=
      h.move_local hth (fun _ _ => id) (fun _ _ => id) trivial
    refine hidle.returns fun p hp => ?_
    split at hp
    · rcases List.mem_append.mp hp with hp | hp
      · exact h.returned p hp
      · rw [List.mem_singleton.mp hp]
        exact hpc
    · exact h.returned p hp

/-- Every step of a thread is a move. -/
theorem Inv.moves_runThread (h : s.Inv A) (hstep : s.runThread t = .ok s') :
    s.Moves t s'.store (s'.threads t) := by
  have hs := h.slotted
  have hpc := h.pcs t
  have hpend := h.pending t
  have hran := ran_of_runThread hstep
  generalize hth : s.threads t = pc at hran hpc hpend
  cases hran with
  | insertStart tid k v | updateStart src tid k v | eraseErased tid k w ret =>
    exact moves_quiet hs.bump (fun _ hσ => hσ) rfl hth fun _ _ => id
  | insertVersioned tid p halloc | updateVersioned src tid p halloc
  | eraseVersioned tid p ret halloc =>
    obtain ⟨hroom, rfl, rfl, rfl⟩ := hs.allocLog_inv halloc
    exact moves_quiet (hs.afterAlloc hroom) (fun _ hσ => hs.live_afterAlloc.mpr (.inl hσ))
      hs.recAt_afterAlloc hth fun _ _ => id
  | insertAllocated p a w hstore =>
    obtain ⟨-, -, σ, rfl, rfl⟩ := hpc
    obtain rfl := hs.storePersist_inv (hpend σ p ⟨rfl, rfl⟩).1 hstore
    exact h.moves_write (hth ▸ ⟨rfl, rfl⟩) rfl
  | updatePublished src p a hstore =>
    obtain ⟨-, -, σ, rfl⟩ := hpc
    obtain rfl := hs.storePersist_inv (hpend σ p ⟨rfl, rfl⟩).1 hstore
    exact h.moves_write (hth ▸ ⟨rfl, rfl⟩) rfl
  | eraseAllocated p a ret hstore =>
    obtain ⟨σ, rfl⟩ := hpc
    obtain rfl := hs.storePersist_inv (hpend σ p ⟨rfl, rfl⟩).1 hstore
    exact h.moves_write (hth ▸ ⟨rfl, rfl⟩) rfl
  | _ => exact moves_quiet hs (fun _ hσ => hσ) rfl hth fun _ _ => id

/-- **Every action keeps the invariant**, if it brings allowed payloads. -/
theorem Inv.step (h : s.Inv A) {a : Action cfg} (hA : s.Brings A a) (hread : s.Reads A a)
    (hstep : s.step a = .ok s') : s'.Inv A := by
  cases a with
  | run t => exact h.runThread hread hstep
  | call t c =>
    cases hth : s.threads t with
    | idle =>
      simp only [Sys.step, hth] at hstep
      obtain rfl := Except.ok.inj hstep
      obtain ⟨tid, op⟩ := c
      cases op with
      | insert k v =>
        exact h.move_local hth (fun _ _ => id) (fun _ _ => id)
          (hA k v (.inl rfl))
      | update k v =>
        exact h.move_local hth (fun _ _ => id) (fun _ _ => id)
          ⟨hA k v (.inr rfl), fun _ hσ => by cases hσ⟩
      | erase k => exact h.move_local hth (fun _ _ => id) (fun _ _ => id) trivial
      | search k => exact h.move_local hth (fun _ _ => id) (fun _ _ => id) trivial
    | _ =>
      simp only [Sys.step, hth] at hstep
      obtain rfl := Except.ok.inj hstep
      exact h
  | relocate t tid σ =>
    cases hth : s.threads t with
    | idle =>
      simp only [Sys.step, hth] at hstep
      split at hstep
      · rename_i hold
        have hlive := LogKV.Slotted.live_of_page_lt hold
        obtain ⟨r, hr, hstep⟩ := bind_eq_ok hstep
        rw [h.slotted.load_eq hlive] at hr
        obtain rfl := Except.ok.inj hr
        split at hstep
        · rename_i hop
          obtain rfl := Except.ok.inj hstep
          refine h.move_local hth (fun _ _ => id) (fun _ _ => id) ⟨hA, ?_⟩
          rintro _ ⟨⟩
          have hmaps : (s.store.log.recAt σ).Maps (s.store.log.recAt σ).key := ⟨rfl, hop⟩
          exact ⟨⟨hlive, h.placed σ hmaps.ne_trash, hmaps⟩, rfl⟩
        · obtain rfl := Except.ok.inj hstep
          exact h
      · obtain rfl := Except.ok.inj hstep
        exact h
    | _ =>
      simp only [Sys.step, hth] at hstep
      obtain rfl := Except.ok.inj hstep
      exact h

end Steps

/-- Every action moves one thread. -/
theorem Inv.moves_step (h : s.Inv A) {a : Action cfg} (hstep : s.step a = .ok s') :
    ∃ t, s.Moves t s'.store (s'.threads t) ∧ ∀ u, u ≠ t → s'.threads u = s.threads u := by
  cases a with
  | run t => exact ⟨t, h.moves_runThread hstep, fun _ hu => runThread_other hstep hu⟩
  | call t c =>
    refine ⟨t, ?_⟩
    cases hth : s.threads t with
    | idle =>
      simp only [Sys.step, hth] at hstep
      obtain rfl := Except.ok.inj hstep
      exact ⟨moves_quiet h.slotted (fun _ hσ => hσ) rfl hth (fun _ _ => id),
        fun _ hu => next_threads_of_ne _ _ _ hu⟩
    | _ =>
      simp only [Sys.step, hth] at hstep
      obtain rfl := Except.ok.inj hstep
      exact ⟨moves_refl h, fun _ _ => rfl⟩
  | relocate t tid σ =>
    refine ⟨t, ?_⟩
    cases hth : s.threads t with
    | idle =>
      simp only [Sys.step, hth] at hstep
      split at hstep
      · obtain ⟨r, -, hstep⟩ := bind_eq_ok hstep
        split at hstep
        · obtain rfl := Except.ok.inj hstep
          exact ⟨moves_quiet h.slotted (fun _ hσ => hσ) rfl hth (fun _ _ => id),
            fun _ hu => next_threads_of_ne _ _ _ hu⟩
        · obtain rfl := Except.ok.inj hstep
          exact ⟨moves_refl h, fun _ _ => rfl⟩
      · obtain rfl := Except.ok.inj hstep
        exact ⟨moves_refl h, fun _ _ => rfl⟩
    | _ =>
      simp only [Sys.step, hth] at hstep
      obtain rfl := Except.ok.inj hstep
      exact ⟨moves_refl h, fun _ _ => rfl⟩

/-- The index changes at a key only in the steps that say so. -/
theorem step_db {k : UInt64} {a : Action cfg} (hstep : s.step a = .ok s')
    (hk : ∀ t, a = .run t → ¬ (s.threads t).WritesIndex k) : s'.store.db k = s.store.db k := by
  cases a with
  | run t =>
    have hk := hk t rfl
    replace hstep : s.runThread t = .ok s' := hstep
    cases hth : s.threads t with
    | insertStored key v w =>
      rw [hth] at hk
      simp only [Sys.runThread, hth, Index.insert] at hstep
      split at hstep
      all_goals obtain rfl := Except.ok.inj hstep
      · rfl
      · exact Function.update_of_ne (Ne.symm hk) ..
    | updateAllocated src p a w =>
      rw [hth] at hk
      cases hdb : s.store.db p.key with
      | none =>
        simp only [Sys.runThread, hth, Index.update, hdb] at hstep
        obtain rfl := Except.ok.inj hstep
        rfl
      | some old =>
        simp only [Sys.runThread, hth, Index.update, hdb] at hstep
        obtain rfl := Except.ok.inj hstep
        exact Function.update_of_ne (Ne.symm hk) ..
    | eraseSearched tid key w =>
      rw [hth] at hk
      simp only [Sys.runThread, hth, Index.erase] at hstep
      obtain rfl := Except.ok.inj hstep
      exact Function.update_of_ne (Ne.symm hk) ..
    | _ =>
      simp only [Sys.runThread, hth, bind, Except.bind, pure, Except.pure] at hstep
      (repeat' split at hstep) <;> cases hstep <;> rfl
  | call t c =>
    simp only [Sys.step] at hstep
    split at hstep
    all_goals
      obtain rfl := Except.ok.inj hstep
      rfl
  | relocate t tid σ =>
    simp only [Sys.step, bind, Except.bind, pure, Except.pure] at hstep
    (repeat' split at hstep) <;> cases hstep <;> rfl

/-- What the index may name keeps its payload. -/
theorem Names.step {k v : UInt64} {σ : Slot cfg} {a : Action cfg} (hn : s.Names k σ v)
    (h : s.Inv A) (hstep : s.step a = .ok s') : s'.Names k σ v := by
  obtain ⟨t, hm, hother⟩ := h.moves_step hstep
  have hthreads : (s.next t s'.store (s'.threads t)).threads = s'.threads := by
    funext u
    by_cases hu : u = t
    · rw [hu, next_threads_self]
    · rw [next_threads_of_ne _ _ _ hu, hother u hu]
  have hnext := hn.move h hm
  simp only [Names, Written, next_store, hthreads] at hnext
  exact hnext

/-- The invariant holds when the threads start, whatever calls made the store. -/
theorem inv_ofStore {store : Logdb cfg} (hreach : store.Reachable)
    (hA : ∀ k v, store.abs k = some v → A k v) : (ofStore store).Inv A where
  slotted := hreach.inv.slotted
  placed := hreach.placed
  pending _ _ _ h := h.elim
  alone _ _ _ _ _ h := h.elim
  entry k w hw := by
    obtain ⟨σ, rfl, hσ⟩ := hreach.inv.entry k w hw
    exact ⟨σ, _, rfl, hA k _ (hreach.inv.abs_of_db hw hσ), .inl ⟨hσ, rfl⟩⟩
  pcs _ := trivial
  returned _ h := by cases h

/-! ## Runs with any payloads -/

/-- Every payload is allowed. -/
abbrev Safe (s : Sys cfg) : Prop := s.Inv fun _ _ => True

theorem Safe.step {s s' : Sys cfg} {a : Action cfg} (h : s.Safe) (hstep : s.step a = .ok s') :
    s'.Safe := by
  refine Inv.step h ?_ (fun _ _ _ _ _ _ _ _ _ => trivial) hstep
  cases a with
  | call t c => exact fun _ _ _ => trivial
  | relocate t tid σ => trivial
  | run t => trivial

theorem Safe.run {s s' : Sys cfg} {C : Sys cfg → Action cfg → Prop} {as : List (Action cfg)}
    (hrun : Run Sys.step C s as s') (h : s.Safe) : s'.Safe :=
  hrun.invariant (I := Safe) (fun _ _ _ h _ hst => h.step hst) h

theorem safe_ofStore {store : Logdb cfg} (hreach : store.Reachable) : (ofStore store).Safe :=
  inv_ofStore hreach fun _ _ _ => trivial

end Sys

end NaliStore
