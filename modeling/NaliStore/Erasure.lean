import NaliStore.Links
import Mathlib.Data.List.Chain

/-!
# What a DELETE record links to

`erase` searches the index for the address of the record it is going to supersede, removes
the key from the index and stores a DELETE record that links to the address it has found.
Search and removal are two steps. An update of the key between them replaces the entry, and
then the DELETE record links to the record before the one that was removed: the newest
record of the key is on no chain.

The history of the index is kept beside the threads (`Tracked`): for every key the
addresses the index has held since the key was last absent, for every erase the entry it
has taken out. Links are followed through records that have settled (`Sys.Settles`), since
an erase may remove the entry of an update that has not stored its record yet.
-/

namespace NaliStore

open Runs

variable {cfg : Config}

/-! ## Links -/

namespace Sys

/-- The record of the key at the first address links to the second. -/
def LinksTo (s : Sys cfg) (k w w' : UInt64) : Prop :=
  ∃ σ r, w = σ.word ∧ σ.log.hash = cfg.shard k ∧ s.Settles σ r ∧ r.key = k ∧ r.uOffset = w'

/-- A list of addresses that starts with the index entry, if there is one, and each of
which links to the next. -/
def Trail (s : Sys cfg) (k : UInt64) (entry : Option UInt64) (ws : List UInt64) : Prop :=
  ws.head? = entry ∧ ws.IsChain (s.LinksTo k)

variable {s s' : Sys cfg} {k w w' : UInt64} {a : Action cfg}

theorem LinksTo.step (h : s.LinksTo k w w') (hs : s.Safe) (hstep : s.step a = .ok s') :
    s'.LinksTo k w w' := by
  obtain ⟨σ, r, hw, hshard, hset, hr⟩ := h
  exact ⟨σ, r, hw, hshard, hset.step hs hstep, hr⟩

theorem Trail.step {entry : Option UInt64} {ws : List UInt64} (h : s.Trail k entry ws)
    (hs : s.Safe) (hstep : s.step a = .ok s') : s'.Trail k entry ws :=
  ⟨h.1, h.2.imp fun _ _ hl => hl.step hs hstep⟩

/-- From the first address of a trail every other one is reached. -/
theorem Trail.reaches {ws : List UInt64} (h : s.Trail k (some w) ws) {x : UInt64} (hx : x ∈ ws) :
    Relation.ReflTransGen (s.LinksTo k) w x := by
  obtain ⟨hhead, hchain⟩ := h
  cases ws with
  | nil => cases hx
  | cons y ws =>
    obtain rfl := Option.some.inj hhead
    rcases List.mem_cons.mp hx with rfl | hx
    · exact .refl
    · exact (hchain.imp fun _ _ => Relation.ReflTransGen.single).rel_cons hx

end Sys

/-! ## The history of the index -/

/-- An erase that has removed an entry and stored its DELETE record. -/
structure Erasure (cfg : Config) where
  /-- the key -/
  key : UInt64
  /-- where the DELETE record has been stored -/
  logAddr : Ptr cfg
  /-- what the index held for the key when `db_->erase` removed it -/
  entry : UInt64
  /-- what the index had held since the key was last absent, newest first -/
  entries : List UInt64

/-- The threads, with the history of the index. -/
structure Tracked (cfg : Config) where
  /-- the store and its threads -/
  sys : Sys cfg
  /-- what the index has held for a key since it was last absent, newest first -/
  named : UInt64 → List UInt64
  /-- the entry that the erase of a thread has removed, and what was held before -/
  removed : ℕ → Option (UInt64 × List UInt64)
  /-- the erases that have stored their record, newest first -/
  erased : List (Erasure cfg)

namespace Tracked

/-- What the next step of thread `t` adds to the history. -/
def note (s : Tracked cfg) (t : ℕ) : Tracked cfg :=
  match s.sys.threads t with
  | .insertStored key _ logOffset =>
    if s.sys.store.db key = none then
      { s with named := Function.update s.named key [logOffset] }
    else s
  | .updateAllocated _ p _ curLogAddr =>
    if s.sys.store.db p.key = none then s
    else { s with named := Function.update s.named p.key (curLogAddr :: s.named p.key) }
  | .eraseSearched _ key _ =>
    { s with
      named := Function.update s.named key []
      removed := Function.update s.removed t ((s.sys.store.db key).map (·, s.named key)) }
  | .eraseAllocated p logAddr true =>
    match s.removed t with
    | some (entry, entries) =>
      { s with erased := ⟨p.key, logAddr, entry, entries⟩ :: s.erased }
    | none => s
  | _ => s

/-- One action, with the history. -/
def step (s : Tracked cfg) (a : Action cfg) : Except Fault (Tracked cfg) := do
  let sys ← s.sys.step a
  match a with
  | .run t => pure { s.note t with sys }
  | _ => pure { s with sys }

/-- An empty store without calls in progress. -/
def fresh (cfg : Config) : Tracked cfg :=
  ⟨.ofStore (Logdb.fresh cfg), fun _ => [], fun _ => none, []⟩

/-- The DELETE record of the erase links to the entry that was removed, and every address
the index had held since the key was last absent is reached from there. -/
def LinksRemoved (s : Tracked cfg) (e : Erasure cfg) : Prop :=
  ∃ σ : Slot cfg, e.logAddr = σ.ptr ∧ (s.sys.store.log.recAt σ).op = .delete ∧
    (s.sys.store.log.recAt σ).key = e.key ∧ (s.sys.store.log.recAt σ).uOffset = e.entry ∧
    ∀ w ∈ e.entries,
      Relation.ReflTransGen (s.sys.LinksTo e.key) (s.sys.store.log.recAt σ).uOffset w

/-- What is asked of a step: an erase that comes to remove the key finds no entry, or the
one its search has found. -/
def EntryUnchanged (s : Tracked cfg) (a : Action cfg) : Prop :=
  ∀ t threadId key addrInfo, a = .run t → s.sys.threads t = .eraseSearched threadId key addrInfo →
    s.sys.store.db key = none ∨ s.sys.store.db key = some addrInfo

end Tracked

namespace Pc

/-- The key and the link of a thread whose erase has removed an entry. -/
def removing : Pc cfg → Option (UInt64 × UInt64)
  | .eraseErased _ key addrInfo true => some (key, addrInfo)
  | .eraseVersioned _ p true => some (p.key, p.uOffset)
  | .eraseAllocated p _ true => some (p.key, p.uOffset)
  | _ => none

/-- The record an erase is going to store is a DELETE record. -/
def Deletes : Pc cfg → Prop
  | .eraseVersioned _ p _ => p.op = .delete
  | .eraseAllocated p _ _ => p.op = .delete
  | _ => True

end Pc

namespace Tracked

/-- The invariant of the history. -/
structure Inv (s : Tracked cfg) : Prop where
  /-- the invariant of the threads -/
  safe : s.sys.Safe
  /-- what the index has held is a trail -/
  named : ∀ k, s.sys.Trail k (s.sys.store.db k) (s.named k)
  /-- an erase links to what it has removed -/
  removed : ∀ t k w, (s.sys.threads t).removing = some (k, w) →
    ∃ ws, s.removed t = some (w, ws) ∧ s.sys.Trail k (some w) ws
  /-- an erase stores DELETE records -/
  deletes : ∀ t, (s.sys.threads t).Deletes
  /-- erases that have stored their record have stored the right link -/
  erased : ∀ e ∈ s.erased, s.LinksRemoved e

variable {s s' : Tracked cfg} {a : Action cfg} {t : ℕ}

theorem LinksRemoved.step {e : Erasure cfg} (h : s.LinksRemoved e) (hs : s.sys.Safe)
    (hstep : s.sys.step a = .ok s'.sys) : s'.LinksRemoved e := by
  obtain ⟨σ, haddr, hop, hkey, hlink, hreach⟩ := h
  obtain ⟨t, hm, -⟩ := hs.moves_step hstep
  have hrec : s'.sys.store.log.recAt σ = s.sys.store.log.recAt σ :=
    hm.recAt_of_ne_trash hs (by rw [hop]; decide)
  refine ⟨σ, haddr, by rw [hrec, hop], by rw [hrec, hkey], by rw [hrec, hlink], fun w hw => ?_⟩
  rw [hrec]
  exact Relation.ReflTransGen.mono (fun _ _ hl => hl.step hs hstep) _ _ (hreach w hw)

/-- **A step keeps the invariant**, given what it adds to the history. -/
theorem Inv.keep (h : s.Inv) (hstep : s.sys.step a = .ok s'.sys)
    (hnamed : ∀ k, s'.named k = s.named k ∧ s'.sys.store.db k = s.sys.store.db k ∨
      s'.sys.Trail k (s'.sys.store.db k) (s'.named k))
    (hremoved : ∀ t k w, (s'.sys.threads t).removing = some (k, w) →
      (s.sys.threads t).removing = some (k, w) ∧ s'.removed t = s.removed t ∨
        ∃ ws, s'.removed t = some (w, ws) ∧ s'.sys.Trail k (some w) ws)
    (hdeletes : ∀ t, (s'.sys.threads t).Deletes)
    (herased : ∀ e ∈ s'.erased, e ∈ s.erased ∨ s'.LinksRemoved e) : s'.Inv where
  safe := h.safe.step hstep
  named k := by
    rcases hnamed k with ⟨hsame, hdb⟩ | hnew
    · rw [hsame, hdb]
      exact (h.named k).step h.safe hstep
    · exact hnew
  removed t k w hw := by
    rcases hremoved t k w hw with ⟨hold, hsame⟩ | hnew
    · obtain ⟨ws, hws, htrail⟩ := h.removed t k w hold
      exact ⟨ws, hsame.trans hws, htrail.step h.safe hstep⟩
    · exact hnew
  deletes := hdeletes
  erased e he := by
    rcases herased e he with hold | hnew
    · exact (h.erased e hold).step h.safe hstep
    · exact hnew

/-- A step that adds nothing to the history. -/
theorem Inv.quiet {sys : Sys cfg} (h : s.Inv) (hstep : s.sys.step a = .ok sys)
    (hdb : sys.store.db = s.sys.store.db)
    (hpcs : ∀ t, (sys.threads t).Deletes ∧ ∀ x, (sys.threads t).removing = some x →
      (s.sys.threads t).removing = some x) : Inv { s with sys } :=
  h.keep hstep (fun _ => .inl ⟨rfl, congrFun hdb _⟩) (fun t _ _ hw => .inl ⟨(hpcs t).2 _ hw, rfl⟩)
    (fun t => (hpcs t).1) fun _ he => .inl he

section Steps

variable {sys : Sys cfg}

theorem Inv.deletes_run (h : s.Inv) (hstep : s.sys.runThread t = .ok sys)
    (hdel : (sys.threads t).Deletes) (u : ℕ) : (sys.threads u).Deletes := by
  by_cases hu : u = t
  · exact hu ▸ hdel
  · rw [Sys.runThread_other hstep hu]
    exact h.deletes u

/-- Another thread keeps what it has removed when thread `t` moves. -/
theorem removing_other (hstep : s.sys.runThread t = .ok sys) {u : ℕ} (hu : u ≠ t)
    {x : UInt64 × UInt64} (hx : (sys.threads u).removing = some x) :
    (s.sys.threads u).removing = some x := by
  rwa [Sys.runThread_other hstep hu] at hx

/-- The same for a step of one thread. -/
theorem Inv.quiet_run (h : s.Inv) (hstep : s.sys.runThread t = .ok sys)
    (hdb : sys.store.db = s.sys.store.db) (hdel : (sys.threads t).Deletes)
    (hrem : ∀ x, (sys.threads t).removing = some x → (s.sys.threads t).removing = some x) :
    Inv { s with sys } := by
  refine h.quiet (a := .run t) hstep hdb fun u => ⟨h.deletes_run hstep hdel u, fun x hx => ?_⟩
  by_cases hu : u = t
  · subst hu
    exact hrem x hx
  · exact removing_other hstep hu hx

/-- The same for a thread that has not removed an entry and does not remove one. -/
theorem Inv.quiet_next (h : s.Inv) {store : Logdb cfg} {pc : Pc cfg}
    (hstep : s.sys.runThread t = .ok (s.sys.next t store pc)) (hdb : store.db = s.sys.store.db)
    (hdel : pc.Deletes) (hrem : pc.removing = none) : Inv { s with sys := s.sys.next t store pc } := by
  refine h.quiet_run hstep hdb ?_ fun x hx => ?_
  · rw [Sys.next_threads_self]
    exact hdel
  · rw [Sys.next_threads_self, hrem] at hx
    cases hx

/-- A thread that has not removed an entry, after a step that adds to the trail of a key. -/
theorem Inv.extend (h : s.Inv) (hstep : s.sys.runThread t = .ok sys) {k : UInt64}
    {ws : List UInt64} (hdb : ∀ k', k' ≠ k → sys.store.db k' = s.sys.store.db k')
    (htrail : sys.Trail k (sys.store.db k) ws) (hdel : (sys.threads t).Deletes)
    (hrem : (sys.threads t).removing = none) :
    Inv { s with sys, named := Function.update s.named k ws } := by
  refine h.keep (a := .run t) hstep (fun k' => ?_) (fun u k' w hw => .inl ⟨?_, rfl⟩)
    (h.deletes_run hstep hdel) fun _ he => .inl he
  · by_cases hk : k' = k
    · subst hk
      right
      simp only [Function.update_self]
      exact htrail
    · exact .inl ⟨Function.update_of_ne hk .., hdb k' hk⟩
  · by_cases hu : u = t
    · subst hu
      replace hw : (sys.threads u).removing = some (k', w) := hw
      rw [hrem] at hw
      cases hw
    · exact removing_other hstep hu hw

/-- An erase removes the entry of its key, which its search has found. -/
theorem Inv.run_eraseSearched (h : s.Inv) {tid : Fin 64} {k w : UInt64}
    (hth : s.sys.threads t = .eraseSearched tid k w)
    (hC : s.sys.store.db k = none ∨ s.sys.store.db k = some w)
    (hstep : s.sys.runThread t = .ok sys)
    (hsys : sys = s.sys.next t ⟨s.sys.store.log, Function.update s.sys.store.db k none⟩
      (.eraseErased tid k w (s.sys.store.db k).isSome)) : Inv { s.note t with sys } := by
  subst hsys
  simp only [note, hth]
  refine h.keep (a := .run t) hstep (fun k' => ?_) (fun u k' x hx => ?_) (h.deletes_run hstep ?_)
    fun _ he => .inl he
  · by_cases hk : k' = k
    · subst hk
      right
      simp only [Sys.next_store, Function.update_self]
      exact ⟨rfl, .nil⟩
    · exact .inl ⟨Function.update_of_ne hk .., Function.update_of_ne hk ..⟩
  · by_cases hu : u = t
    · subst hu
      simp only [Sys.next_threads_self] at hx
      cases hdb : s.sys.store.db k with
      | none =>
        simp only [hdb] at hx
        cases hx
      | some old =>
        simp only [hdb] at hx
        obtain ⟨rfl, rfl⟩ := Prod.mk.inj (Option.some.inj hx)
        -- the search has found what is removed now
        have hold : w = old := by
          rcases hC with hnone | hsome
          · rw [hdb] at hnone
            cases hnone
          · exact Option.some.inj (hsome.symm.trans hdb)
        subst hold
        refine .inr ⟨s.named k, ?_, ?_⟩
        · simp only [Function.update_self, Option.map_some]
        · rw [← hdb]
          exact (h.named k).step h.safe (a := .run u) hstep
    · exact .inl ⟨removing_other hstep hu hx, Function.update_of_ne hu ..⟩
  · rw [Sys.next_threads_self]
    trivial

/-- An erase that has removed an entry stores its record. -/
theorem Inv.run_eraseAllocated (h : s.Inv) {p : PairT} {σ : Slot cfg}
    (hth : s.sys.threads t = .eraseAllocated p σ.ptr true)
    (hstep : s.sys.runThread t = .ok sys)
    (hsys : sys = s.sys.next t ⟨s.sys.store.log.write σ p, s.sys.store.db⟩
      (.returning none (.erase p.key) (.bool true))) : Inv { s.note t with sys } := by
  subst hsys
  have hdel := h.deletes t
  rw [hth] at hdel
  obtain ⟨ws, hws, htrail⟩ := h.removed t p.key p.uOffset (by rw [hth]; rfl)
  simp only [note, hth, hws]
  refine h.keep (a := .run t) hstep (fun k' => .inl ⟨rfl, rfl⟩) (fun u k' x hx => ?_)
    (h.deletes_run hstep ?_) fun e he => ?_
  · by_cases hu : u = t
    · subst hu
      simp only [Sys.next_threads_self] at hx
      cases hx
    · exact .inl ⟨removing_other hstep hu hx, rfl⟩
  · rw [Sys.next_threads_self]
    trivial
  · rcases List.mem_cons.mp he with rfl | he
    · -- the record is in its slot now
      have hrec : (s.sys.store.log.write σ p).recAt σ = p := by
        rw [LogKV.recAt_write, Function.update_self]
      refine .inr ⟨σ, rfl, ?_, ?_, ?_, fun x hx => ?_⟩
      · simp only [Sys.next_store, hrec]
        exact hdel
      · simp only [Sys.next_store, hrec]
      · simp only [Sys.next_store, hrec]
      · simp only [Sys.next_store, hrec]
        exact (htrail.step h.safe (a := .run t) hstep).reaches hx
    · exact .inl he

end Steps

/-- **Every step of a thread keeps the invariant**, if an erase finds its entry unchanged. -/
theorem Inv.run_thread (h : s.Inv) {sys : Sys cfg} (hC : s.EntryUnchanged (.run t))
    (hstep : s.sys.runThread t = .ok sys) : Inv { s.note t with sys } := by
  have hs := h.safe.slotted
  have hpc := h.safe.pcs t
  have hdel := h.deletes t
  have hpend := h.safe.pending t
  have hran := Sys.ran_of_runThread hstep
  generalize hth : s.sys.threads t = pc at hran hpc hdel hpend
  cases hran with
  | idle =>
    simp only [note, hth]
    exact h.quiet_run hstep rfl (hth ▸ hdel) fun _ hx => hx
  | insertStored k v w =>
    simp only [note, hth]
    cases hdb : s.sys.store.db k with
    | some old =>
      simp only [Index.insert, hdb] at hstep
      simp only [Index.insert, hdb, reduceCtorEq, if_false]
      exact h.quiet_next hstep rfl trivial rfl
    | none =>
      simp only [Index.insert, hdb] at hstep
      simp only [Index.insert, hdb, if_true]
      refine h.extend hstep (fun k' hk => Function.update_of_ne hk ..) ⟨?_, .singleton w⟩
        (by rw [Sys.next_threads_self]; trivial) (by rw [Sys.next_threads_self]; rfl)
      simp only [Sys.next_store, Function.update_self, List.head?_cons]
  | updateMissing src p a w hdb =>
    simp only [note, hth, hdb, if_true]
    exact h.quiet_next hstep rfl trivial rfl
  | updateAllocated src p a w old hdb =>
    simp only [note, hth, hdb, reduceCtorEq, if_false]
    obtain ⟨-, -, -, σ, rfl, rfl⟩ := hpc
    have hshard := (hpend σ p ⟨rfl, rfl⟩).2.2
    obtain ⟨hhead, hchain⟩ := h.named p.key
    refine h.extend hstep (fun k' hk => Function.update_of_ne hk ..) ⟨?_, ?_⟩
      (by rw [Sys.next_threads_self]; trivial) (by rw [Sys.next_threads_self]; rfl)
    · simp only [Sys.next_store, Function.update_self, List.head?_cons]
    · -- the published record links to the entry it has replaced
      refine (hchain.imp fun _ _ hl => hl.step h.safe (a := .run t) hstep).cons fun x hx => ?_
      rw [hhead, hdb] at hx
      obtain rfl := Option.some.inj hx
      refine ⟨σ, p.setLastLogOffest old, rfl, hshard, .inr ⟨t, ?_⟩, rfl, rfl⟩
      rw [Sys.next_threads_self]
      exact ⟨rfl, rfl⟩
  | eraseSearched tid k w => exact h.run_eraseSearched hth (hC t tid k w rfl hth) hstep rfl
  | eraseErased tid k w ret =>
    simp only [note, hth]
    refine h.quiet_run hstep rfl (by rw [Sys.next_threads_self]; rfl) ?_
    rw [Sys.next_threads_self, hth]
    cases ret with
    | true => exact fun _ hx => hx
    | false => exact fun _ hx => by cases hx
  | eraseVersioned tid p ret halloc =>
    simp only [note, hth]
    refine h.quiet_run hstep rfl (by rw [Sys.next_threads_self]; exact hdel) ?_
    rw [Sys.next_threads_self, hth]
    cases ret with
    | true => exact fun _ hx => hx
    | false => exact fun _ hx => by cases hx
  | eraseAllocated p a ret hstore =>
    obtain ⟨σ, rfl⟩ := hpc
    obtain rfl := hs.storePersist_inv (hpend σ p ⟨rfl, rfl⟩).1 hstore
    cases ret with
    | false =>
      simp only [note, hth]
      exact h.quiet_next hstep rfl trivial rfl
    | true => exact h.run_eraseAllocated hth hstep rfl
  | returning src op ret =>
    simp only [note, hth]
    exact h.quiet_run hstep rfl (by simp only [Sys.next_threads_self]; trivial)
      (by simp only [Sys.next_threads_self]; exact fun _ hx => by cases hx)
  | _ =>
    simp only [note, hth]
    exact h.quiet_next hstep rfl trivial rfl

/-- **Every step keeps the invariant**, if an erase finds its entry unchanged. -/
theorem Inv.step (h : s.Inv) (hC : s.EntryUnchanged a) (hstep : Tracked.step s a = .ok s') :
    s'.Inv := by
  obtain ⟨sys, hsys, hs'⟩ := bind_eq_ok hstep
  cases a with
  | run t =>
    obtain rfl := Except.ok.inj hs'
    exact h.run_thread hC hsys
  | call t c =>
    obtain rfl := Except.ok.inj hs'
    refine h.quiet hsys ?_ fun u => ?_
    · funext k
      exact Sys.step_db hsys fun _ hr => by cases hr
    · simp only [Sys.step] at hsys
      split at hsys
      · obtain rfl := Except.ok.inj hsys
        by_cases hu : u = t
        · subst hu
          rw [Sys.next_threads_self]
          obtain ⟨tid, op⟩ := c
          cases op <;> exact ⟨trivial, fun _ hx => by cases hx⟩
        · rw [Sys.next_threads_of_ne _ _ _ hu]
          exact ⟨h.deletes u, fun _ hx => hx⟩
      · obtain rfl := Except.ok.inj hsys
        exact ⟨h.deletes u, fun _ hx => hx⟩
  | relocate t tid σ =>
    obtain rfl := Except.ok.inj hs'
    refine h.quiet hsys ?_ fun u => ?_
    · funext k
      exact Sys.step_db hsys fun _ hr => by cases hr
    · simp only [Sys.step, bind, Except.bind, pure, Except.pure] at hsys
      split at hsys
      · split at hsys
        · split at hsys
          · cases hsys
          · split at hsys
            · obtain rfl := Except.ok.inj hsys
              by_cases hu : u = t
              · subst hu
                rw [Sys.next_threads_self]
                exact ⟨trivial, fun _ hx => by cases hx⟩
              · rw [Sys.next_threads_of_ne _ _ _ hu]
                exact ⟨h.deletes u, fun _ hx => hx⟩
            · obtain rfl := Except.ok.inj hsys
              exact ⟨h.deletes u, fun _ hx => hx⟩
        · obtain rfl := Except.ok.inj hsys
          exact ⟨h.deletes u, fun _ hx => hx⟩
      · obtain rfl := Except.ok.inj hsys
        exact ⟨h.deletes u, fun _ hx => hx⟩

theorem inv_fresh (cfg : Config) : (fresh cfg).Inv where
  safe := Sys.safe_ofStore ⟨[], [], rfl⟩
  named _ := ⟨rfl, .nil⟩
  removed _ _ _ h := by cases h
  deletes _ := trivial
  erased _ h := by cases h

/-- **An erase links the record it has removed, if the entry has not changed since its
search.** In every state reached by calls of any threads, cut into their steps and
interleaved in any way: if whenever `db_->erase` removed an entry it was the one that the
search of the same call had found, then the DELETE record of every erase that has removed
an entry links to that entry, and through the records every address the index had held for
the key since it was last absent is reached from there. -/
theorem erase_links_removed (cfg : Config) {as : List (Action cfg)} {t : Tracked cfg}
    (hrun : Run step EntryUnchanged (fresh cfg) as t) : ∀ e ∈ t.erased, t.LinksRemoved e :=
  (hrun.invariant (I := Inv) (fun _ _ _ h hC hst => h.step hC hst) (inv_fresh cfg)).erased

/-! ## An update in the gap -/

theorem step_run {sys : Sys cfg} (h : s.sys.runThread t = .ok sys) :
    s.step (.run t) = .ok { s.note t with sys } := by
  have hstep : s.sys.step (.run t) = .ok sys := h
  simp only [step, hstep]
  rfl

theorem exists_step {sys : Sys cfg} (h : s.sys.step a = .ok sys) :
    ∃ s', s.step a = .ok s' ∧ s'.sys = sys := by
  simp only [step, h]
  cases a with
  | run t => exact ⟨_, rfl, rfl⟩
  | call t c => exact ⟨_, rfl, rfl⟩
  | relocate t tid σ => exact ⟨_, rfl, rfl⟩

/-- A run of the threads is one of the threads with their history. -/
theorem exists_run {C : Tracked cfg → Action cfg → Prop} {D : Sys cfg → Action cfg → Prop}
    (hCD : ∀ (s : Tracked cfg) a, D s.sys a → C s a) {sys sys' : Sys cfg} {as : List (Action cfg)}
    (hrun : Run Sys.step D sys as sys') :
    ∀ s : Tracked cfg, s.sys = sys → ∃ s', Run step C s as s' ∧ s'.sys = sys' := by
  induction hrun with
  | nil sys => exact fun s hs => ⟨s, .nil s, hs⟩
  | cons hD hst _ ih =>
    rintro s rfl
    obtain ⟨s', hs', hsys⟩ := exists_step hst
    obtain ⟨u, hu, hend⟩ := ih s' hsys
    exact ⟨u, .cons (hCD s _ hD) hs' hu, hend⟩

/-- The action is not the removal step of an erase. -/
def NoRemoval (sys : Sys cfg) (a : Action cfg) : Prop :=
  ∀ t, a = .run t → ∀ threadId key addrInfo, sys.threads t ≠ .eraseSearched threadId key addrInfo

theorem noRemoval_next {sys : Sys cfg} {store : Logdb cfg} {pc : Pc cfg}
    (hpc : ∀ tid k w, pc ≠ .eraseSearched tid k w) :
    NoRemoval (sys.next t store pc) (.run t) := by
  intro u hu tid k w
  obtain rfl := Action.run.inj hu
  rw [Sys.next_threads_self]
  exact hpc tid k w

theorem NoRemoval.entryUnchanged (h : NoRemoval s.sys a) : s.EntryUnchanged a :=
  fun t tid k w ha hth => absurd hth (h t ha tid k w)

/-- The first half of an erase. -/
theorem run_search {sys : Sys cfg} (hidle : sys.threads t = .idle) (tid : Fin 64) {k w : UInt64}
    (hdb : sys.store.db k = some w) :
    Run Sys.step NoRemoval sys [.call t ⟨tid, .erase k⟩, .run t]
      (sys.next t sys.store (.eraseSearched tid k w)) := by
  have hcall : sys.step (.call t ⟨tid, .erase k⟩) =
      .ok (sys.next t sys.store (.eraseStart tid k)) := by
    simp only [Sys.step, hidle]
    rfl
  have hstart : (sys.next t sys.store (.eraseStart tid k)).runThread t = _ :=
    Sys.runThread_eraseStart
  rw [hdb, Option.getD_some] at hstart
  exact .cons (fun _ h => by cases h) hcall
    (.single (noRemoval_next fun _ _ _ h => by cases h) (Sys.step_run hstart))

/-- The rest of an erase whose search has found `w` and that comes to remove `old`. -/
theorem exists_erased (hs : s.sys.store.log.Slotted) {tid : Fin 64} {k w old : UInt64}
    (hth : s.sys.threads t = .eraseSearched tid k w) (hdb : s.sys.store.db k = some old)
    (hroom : s.sys.store.log.Room tid k) {C : Tracked cfg → Action cfg → Prop}
    (hC : C s (.run t)) (hC' : ∀ s : Tracked cfg, NoRemoval s.sys (.run t) → C s (.run t)) :
    ∃ (s' : Tracked cfg) (σ : Slot cfg), Run step C s (List.replicate 4 (.run t)) s' ∧
      ⟨k, σ.ptr, old, s.named k⟩ ∈ s'.erased ∧ (s'.sys.store.log.recAt σ).uOffset = w := by
  set store := s.sys.store with hstore
  -- the key is removed from the index
  have hrun₁ : s.sys.runThread t = .ok (s.sys.next t ⟨store.log, Function.update store.db k none⟩
      (.eraseErased tid k w true)) := by
    have hstep : (s.sys.next t store (.eraseSearched tid k w)).runThread t = _ :=
      Sys.runThread_eraseSearched
    rw [hdb, Sys.next_self hth] at hstep
    exact hstep
  set s₁ : Tracked cfg := { s.note t with
    sys := s.sys.next t ⟨store.log, Function.update store.db k none⟩
      (.eraseErased tid k w true) } with hs₁
  have hremoved₁ : s₁.removed t = some (old, s.named k) := by
    simp only [hs₁, note, hth, ← hstore, hdb, Function.update_self, Option.map_some]
  -- a version and a slot are taken
  set p := PairT.deleteRec (store.log.versionFor k) cfg.uninit k w with hp
  set s₂ : Tracked cfg := { s₁.note t with
    sys := s.sys.next t ⟨store.log.bump (cfg.xxh3 k), Function.update store.db k none⟩
      (.eraseVersioned tid p true) } with hs₂
  have hremoved₂ : s₂.removed t = some (old, s.named k) := by
    rw [← hremoved₁]
    simp only [hs₂, note, hs₁, Sys.next_threads_self]
  set σ := (store.log.bump (cfg.xxh3 k)).nextSlot (cfg.logFor tid k) with hσ
  set log := (store.log.bump (cfg.xxh3 k)).afterAlloc (cfg.logFor tid k) PairT.size with hlog
  set s₃ : Tracked cfg := { s₂.note t with
    sys := s.sys.next t ⟨log, Function.update store.db k none⟩ (.eraseAllocated p σ.ptr true) }
    with hs₃
  have hremoved₃ : s₃.removed t = some (old, s.named k) := by
    rw [← hremoved₂]
    simp only [hs₃, note, hs₂, Sys.next_threads_self]
  -- the record is stored
  set s₄ : Tracked cfg := { s₃.note t with
    sys := s.sys.next t ⟨log.write σ p, Function.update store.db k none⟩
      (.returning none (.erase k) (.bool true)) } with hs₄
  have hth₃ : s₃.sys.threads t = .eraseAllocated p σ.ptr true := Sys.next_threads_self ..
  refine ⟨s₄, σ, ?_, ?_, ?_⟩
  · have hrun₂ : s₁.sys.runThread t = .ok s₂.sys := Sys.runThread_eraseErased
    have hrun₃ : s₂.sys.runThread t = .ok s₃.sys :=
      Sys.runThread_eraseVersioned (by exact hs.bump) (by exact hroom)
    have hrun₄ : s₃.sys.runThread t = .ok s₄.sys :=
      Sys.runThread_eraseAllocated (by exact hs.bump.afterAlloc hroom)
        (by exact hs.bump.nextSlot_live)
    refine .cons hC (step_run hrun₁) ?_
    refine .cons (hC' s₁ (noRemoval_next fun _ _ _ h => by cases h)) (step_run hrun₂) ?_
    refine .cons (hC' s₂ (noRemoval_next fun _ _ _ h => by cases h)) (step_run hrun₃) ?_
    exact .single (hC' s₃ (noRemoval_next fun _ _ _ h => by cases h)) (step_run hrun₄)
  · simp only [hs₄, note, hth₃, hremoved₃]
    exact List.mem_cons_self ..
  · simp only [hs₄, Sys.next_store, LogKV.recAt_write, Function.update_self, hp]
    rfl

/-- One insert, and an erase after it. -/
theorem erase_links_removed_insert :
    ∃ (as : List (Action oneShard)) (t : Tracked oneShard) (e : Erasure oneShard),
      Run step EntryUnchanged (fresh oneShard) as t ∧ e ∈ t.erased ∧ t.LinksRemoved e := by
  set store := Logdb.fresh oneShard with hstore
  set l := oneShard.logFor 0 5 with hl
  have hs : store.log.Slotted := LogKV.slotted_fresh oneShard
  have hzero : store.log.used l = 0 := LogKV.used_fresh _
  have hroom : store.log.Room 0 5 := lt_of_eq_of_lt hzero (by decide)
  set sys := Sys.ofStore store with hsys
  set σ := store.log.nextSlot l with hσ
  set log := store.log.append 0 5 (.insertRec (store.log.versionFor 5) 5 1) with hlog
  set sys₁ := sys.next 1 ⟨log, (store.db.insert 5 σ.word).2⟩
    (.returning none (.insert 5 1) (.bool (store.db.insert 5 σ.word).1)) with hsys₁
  have hinsert : Run Sys.step NoRemoval sys
      [.call 1 ⟨0, .insert 5 1⟩, .run 1, .run 1, .run 1, .run 1] sys₁ := by
    have hcall : sys.step (.call 1 ⟨0, .insert 5 1⟩) =
        .ok (sys.next 1 store (.insertStart 0 5 1)) := rfl
    refine .cons (fun _ h => by cases h) hcall ?_
    refine .cons (noRemoval_next fun _ _ _ h => by cases h)
      (Sys.step_run Sys.runThread_insertStart) ?_
    refine .cons (noRemoval_next fun _ _ _ h => by cases h)
      (Sys.step_run (Sys.runThread_insertVersioned (by exact hs.bump) (by exact hroom))) ?_
    refine .cons (noRemoval_next fun _ _ _ h => by cases h)
      (Sys.step_run (Sys.runThread_insertAllocated (by exact hs.reserve hroom)
        (by exact LogKV.live_nextSlot_reserve hs 0 5))) ?_
    exact .single (noRemoval_next fun _ _ _ h => by cases h)
      (Sys.step_run Sys.runThread_insertStored)
  have hdb : sys₁.store.db 5 = some σ.word := by
    have hnone : store.db 5 = none := rfl
    simp only [hsys₁, Sys.next_store, Index.insert, hnone, Function.update_self]
  have hslot : sys₁.store.log.Slotted := hs.append hroom
  have hused : log.used l = 1 := by
    rw [hlog, LogKV.used_append hs, Function.update_self, hzero]
  have hroom₁ : sys₁.store.log.Room 0 5 := lt_of_eq_of_lt hused (by decide)
  have hidle : sys₁.threads 0 = .idle := Sys.next_threads_of_ne _ _ _ (by decide)
  obtain ⟨s, hrun, hend⟩ := exists_run (C := EntryUnchanged) (fun _ _ h => h.entryUnchanged)
    (hinsert.append (run_search hidle 0 hdb)) (fresh oneShard) rfl
  have hth : s.sys.threads 0 = .eraseSearched 0 5 σ.word := by
    rw [hend, Sys.next_threads_self]
  have hdb' : s.sys.store.db 5 = some σ.word := by rw [hend, Sys.next_store, hdb]
  obtain ⟨t, τ, hrun', hmem, -⟩ := exists_erased (C := EntryUnchanged)
    (by rw [hend]; exact hslot) hth hdb' (by rw [hend]; exact hroom₁)
    (fun u tid k w hu hu' => by
      obtain rfl := Action.run.inj hu
      rw [hth] at hu'
      cases hu'
      exact .inr hdb')
    fun _ h => h.entryUnchanged
  exact ⟨_, t, _, hrun.append hrun', hmem, erase_links_removed oneShard (hrun.append hrun') _ hmem⟩

/-- Thread 0 erases key 5 and has searched the index; thread 1 makes a whole update of key 5
before thread 0 goes on. The DELETE record links to the record before the one removed. -/
theorem erase_after_update_links_older :
    ¬ ∀ (cfg : Config) (as : List (Action cfg)) (t : Tracked cfg),
      Run step (fun _ _ => True) (fresh cfg) as t → ∀ e ∈ t.erased, t.LinksRemoved e := by
  intro hall
  obtain ⟨as, sys, σ, hrun, hs, hidle, hdb, hlive, -, hlog, hused, -⟩ :=
    Sys.exists_first_insert oneShard 2 0 5 1
  set l := oneShard.logFor 0 5 with hl
  have hroom : sys.store.log.Room 0 5 := lt_of_eq_of_lt hused (by decide)
  -- thread 0 searches
  have hsearch := run_search (t := 0) (by rw [hidle]) 0 hdb
  set sys₁ := sys.next 0 sys.store (.eraseSearched 0 5 σ.word) with hsys₁
  -- thread 1 updates
  set τ := sys.store.log.nextSlot l with hτ
  set r := PairT.updateRec (sys.store.log.versionFor 5) 5 2 σ.word with hr
  set store : Logdb oneShard := ⟨sys.store.log.append 0 5 r,
    Function.update sys.store.db 5 (some τ.word)⟩ with hstore
  have hupdate : sys₁.store.step ⟨0, .update 5 2⟩ = .ok (.bool true, store) := by
    have heq : sys.store.update 0 5 2 = .ok (true, store) :=
      (Logdb.update_eq_of_some hs 2 hdb).trans (if_pos hroom)
    rw [hsys₁, Sys.next_store]
    simp only [Logdb.step, heq]
    rfl
  have hidle₁ : sys₁.threads 1 = .idle := by
    rw [hsys₁, Sys.next_threads_of_ne _ _ _ (by decide), hidle]
  have hrun₂ := (Sys.run_alone (t := 1) hidle₁ hs hupdate).mono fun _ _ _ => trivial
  obtain ⟨s, hrun', hend⟩ := exists_run (C := fun _ _ => True) (fun _ _ _ => trivial)
    ((hrun.append (hsearch.mono fun _ _ _ => trivial)).append hrun₂) (fresh oneShard) rfl
  -- thread 0 goes on
  have hth : s.sys.threads 0 = .eraseSearched 0 5 σ.word := by
    rw [hend]
    exact (sys.next_threads_self 0 sys.store (.eraseSearched 0 5 σ.word) :)
  have hdb' : s.sys.store.db 5 = some τ.word := by
    have hself : store.db 5 = some τ.word := by simp only [hstore, Function.update_self]
    rw [hend]
    exact hself
  have hused' : store.log.used l = 2 := by
    rw [hstore, LogKV.used_append hs, Function.update_self, hused]
  have hroom' : store.log.Room 0 5 := lt_of_eq_of_lt hused' (by decide)
  obtain ⟨t, ρ, hrun₃, hmem, hlink⟩ := exists_erased (C := fun _ _ => True)
    (by rw [hend]; exact hs.append hroom) hth hdb' (by rw [hend]; exact hroom') trivial
    fun _ _ => trivial
  obtain ⟨ρ', haddr, -, -, hentry, -⟩ := hall oneShard _ t (hrun'.append hrun₃) _ hmem
  obtain rfl := Slot.ptr_injective haddr
  have hword : σ.word = τ.word := hlink.symm.trans hentry
  have heq : σ = τ := Slot.word_injective (hs.lt_capacity hlive)
    (lt_of_eq_of_lt hused (by decide)) (congrArg LogId.hash hlog) hword
  exact LogKV.nextSlot_not_live (heq ▸ hlive)

end Tracked

end NaliStore
