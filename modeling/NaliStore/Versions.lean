import NaliStore.Links
import NaliStore.Handing

/-!
# Versions

`get_version` hands out the versions of a shard in order. An `update` draws its version
before it exchanges the index entry, so between the two another update may draw a higher
version and exchange first; the record of the first then supersedes one with a higher
version. The counters are in DRAM only and start at 0 again after a restart, whatever
versions the records carry that the restart finds.

`versions_ordered` says that nothing else goes wrong: in every run in which updates
exchange in the order of their draws and no version is drawn in a shard of which a restart
has found records, or past 62 bits, a record carries a higher version than the one it
links to, and no two records of a shard carry the same.

The order of the draws is that of the steps: the runs are those of the system with a clock
that counts its steps, and with the times of the draws.
-/

namespace NaliStore

open Runs

variable {cfg : Config}

/-! ## The lives of a store -/

/-- The key the next step of a thread draws a version for. -/
def Pc.draws : Pc cfg → Option UInt64
  | .insertStart _ key _ | .updateStart _ _ key _ | .eraseErased _ key _ _ => some key
  | _ => none

/-- The system since its last restart, with the times at which versions were drawn. -/
structure Life (cfg : Config) where
  /-- the threads and the store they work on -/
  sys : Sys cfg
  /-- the records the restart has found -/
  found : Slot cfg → PairT
  /-- the steps taken, and one -/
  clock : ℕ
  /-- when a thread last drew a version -/
  drew : ℕ → ℕ
  /-- when the call drew its version that has entered a key in the index -/
  named : UInt64 → ℕ

/-- What happens next. -/
inductive LifeAct (cfg : Config) where
  /-- an action of the threads -/
  | act (a : Action cfg)
  /-- stop or crash, and a restart with `recovery_logkv` by `n` threads -/
  | restart (dir : Fin numaNodeNum → List (PageId cfg)) (n : ℕ)

namespace Life

/-- The times of the last draws, after an action. -/
def drewAfter (s : Life cfg) : Action cfg → ℕ → ℕ
  | .run t =>
    if (s.sys.threads t).draws.isSome then Function.update s.drew t s.clock else s.drew
  | _ => s.drew

/-- The draws of the calls that the index names, after an action: an `insert` enters an
absent key, an `update` exchanges the entry of a present one. -/
def namedAfter (s : Life cfg) : Action cfg → UInt64 → ℕ
  | .run t =>
    match s.sys.threads t with
    | .insertStored key _ _ =>
      if (s.sys.store.db key).isNone then Function.update s.named key (s.drew t) else s.named
    | .updateAllocated _ p _ _ =>
      if (s.sys.store.db p.key).isSome then Function.update s.named p.key (s.drew t) else s.named
    | _ => s.named
  | _ => s.named

/-- One step. -/
def step (s : Life cfg) : LifeAct cfg → Except Fault (Life cfg)
  | .act a => do
    let sys ← s.sys.step a
    pure { s with
      sys
      clock := s.clock + 1
      drew := s.drewAfter a
      named := s.namedAfter a }
  | .restart dir n => do
    let store ← Logdb.recover s.sys.store.log.pmem dir n
    pure ⟨.ofStore store, s.sys.store.log.recAt, 1, fun _ => 0, fun _ => 0⟩

/-- The store over an empty directory. -/
def fresh (cfg : Config) : Life cfg :=
  ⟨.ofStore (Logdb.fresh cfg), fun _ => PairT.blank, 1, fun _ => 0, fun _ => 0⟩

/-- A restart finds the page files in the directories, and has threads to recover them. -/
def Listed (s : Life cfg) (a : LifeAct cfg) : Prop :=
  ∀ dir n, a = .restart dir n → Lists dir s.sys.store.log.pmem ∧ 0 < n

/-- The restart has found no record of the shard. -/
def Unused (s : Life cfg) (h : Fin cfg.shards) : Prop :=
  ∀ σ, σ.log.hash = h → (s.found σ).op = .trash

/-- What is asked of a step: a version is drawn within 62 bits, in a shard of which the
restart has found no record, and an update that exchanges the entry of a key has drawn its
version after the call that entered the key. -/
def InOrder (s : Life cfg) (a : LifeAct cfg) : Prop :=
  s.Listed a ∧ ∀ t, a = .act (.run t) →
    (∀ k, (s.sys.threads t).draws = some k →
      s.Unused (cfg.shard k) ∧ s.sys.store.log.version (cfg.shard k) + 1 < 2 ^ 62) ∧
    ∀ src p logAddr curLogAddr, s.sys.threads t = .updateAllocated src p logAddr curLogAddr →
      (s.sys.store.db p.key).isSome → s.named p.key < s.drew t

end Life

/-- In shard `h`, links lead from higher to lower versions, and versions are distinct. -/
structure LogKV.OrderedIn (s : LogKV cfg) (h : Fin cfg.shards) : Prop where
  /-- a record carries a higher version than the record its link names -/
  link : ∀ σ τ, σ.log.hash = h → τ.log.hash = h → (s.recAt σ).op ≠ .trash →
    (s.recAt τ).op ≠ .trash → (s.recAt σ).uOffset = τ.word →
      (s.recAt τ).version < (s.recAt σ).version
  /-- no two records carry the same version -/
  distinct : ∀ σ τ, σ.log.hash = h → τ.log.hash = h → (s.recAt σ).op ≠ .trash →
    (s.recAt τ).op ≠ .trash → (s.recAt σ).version = (s.recAt τ).version → σ = τ

/-- Versions order the records of every shard. -/
def LogKV.VersionsOrdered (s : LogKV cfg) : Prop := ∀ h, s.OrderedIn h

theorem LogKV.OrderedIn.congr {s t : LogKV cfg} {h : Fin cfg.shards} (hs : s.OrderedIn h)
    (hrec : ∀ σ, σ.log.hash = h → t.recAt σ = s.recAt σ) : t.OrderedIn h where
  link σ τ hσ hτ := by
    rw [hrec σ hσ, hrec τ hτ]
    exact hs.link σ τ hσ hτ
  distinct σ τ hσ hτ := by
    rw [hrec σ hσ, hrec τ hτ]
    exact hs.distinct σ τ hσ hτ

/-! ## What is known of the draws -/

/-- A record of the draws, kept by the invariant alone. -/
structure Ledger (cfg : Config) where
  /-- the version of the call that a slot was handed out to -/
  version : Slot cfg → ℕ
  /-- when a version of a shard was drawn -/
  time : Fin cfg.shards → ℕ → ℕ
  /-- the slot or the thread that a version of a shard has got to -/
  carrier : Fin cfg.shards → ℕ → Slot cfg ⊕ ℕ

namespace Ledger

variable {g g' : Ledger cfg} {s s' : LogKV cfg} {F : Fin cfg.shards → Prop} {t d c : ℕ}
  {h : Fin cfg.shards} {w : UInt64} {p : PairT} {a : Ptr cfg} {σ : Slot cfg}

/-- In shard `h`, the packed address leads to no slot, or to one that was handed out to a
call whose version is as `P` says. -/
def Leads (g : Ledger cfg) (s : LogKV cfg) (h : Fin cfg.shards) (w : UInt64) (P : ℕ → Prop) :
    Prop :=
  ∀ τ : Slot cfg, τ.log.hash = h → τ.pos < logCapacity → w = τ.word →
    s.Live τ ∧ g.version τ ≤ s.version h ∧ P (g.version τ)

/-- Thread `t` has drawn the version of the record at time `d`. -/
structure Drawn (g : Ledger cfg) (s : LogKV cfg) (F : Fin cfg.shards → Prop) (t d : ℕ)
    (p : PairT) : Prop where
  /-- versions are drawn in the shard -/
  used : F (cfg.shard p.key)
  /-- the counter has passed the version -/
  le : p.version.toNat ≤ s.version (cfg.shard p.key)
  /-- when it was drawn -/
  time : g.time (cfg.shard p.key) p.version.toNat = d
  /-- the thread has it -/
  carrier : g.carrier (cfg.shard p.key) p.version.toNat = .inr t
  /-- the link leads to a lower version -/
  link : g.Leads s (cfg.shard p.key) p.uOffset (· < p.version.toNat)

/-- The address is an offset from null, or that of a slot that was handed out for the record. -/
def Held (g : Ledger cfg) (s : LogKV cfg) (a : Ptr cfg) (p : PairT) : Prop :=
  a.base = none ∨ ∃ σ : Slot cfg, a = σ.ptr ∧ s.Live σ ∧ σ.log.hash = cfg.shard p.key ∧
    g.version σ = p.version.toNat

/-- The record is in the slot that was handed out for it. -/
structure Stored (g : Ledger cfg) (s : LogKV cfg) (σ : Slot cfg) (r : PairT) : Prop where
  /-- the slot was handed out -/
  live : s.Live σ
  /-- for this version -/
  version : g.version σ = r.version.toNat
  /-- the counter has passed the version -/
  le : r.version.toNat ≤ s.version σ.log.hash
  /-- the slot has it -/
  carrier : g.carrier σ.log.hash r.version.toNat = .inl σ
  /-- the link leads to a lower version -/
  link : g.Leads s σ.log.hash r.uOffset (· < r.version.toNat)

/-- What is known of the local variables of thread `t`, which last drew at time `d`. -/
def PcOk (g : Ledger cfg) (s : LogKV cfg) (F : Fin cfg.shards → Prop) (t d : ℕ) : Pc cfg → Prop
  | .insertVersioned _ p | .updateVersioned _ _ p | .eraseVersioned _ p _ => g.Drawn s F t d p
  | .insertAllocated p a w | .updateAllocated _ p a w =>
    g.Drawn s F t d p ∧ g.Held s a p ∧
      g.Leads s (cfg.shard p.key) w (g.time (cfg.shard p.key) · = d)
  | .updatePublished _ p a | .eraseAllocated p a _ => g.Drawn s F t d p ∧ g.Held s a p
  | .insertStored k _ w => g.Leads s (cfg.shard k) w (g.time (cfg.shard k) · = d)
  | .eraseSearched _ k w | .eraseErased _ k w _ => g.Leads s (cfg.shard k) w fun _ => True
  | _ => True

/-- The versions of a shard were drawn one after the other, and before now. -/
structure Timed (g : Ledger cfg) (s : LogKV cfg) (c : ℕ) : Prop where
  /-- the counters have not left 62 bits -/
  limit : ∀ h, s.version h < 2 ^ 62
  /-- a higher version was drawn later -/
  mono : ∀ h m n, m < n → n ≤ s.version h → g.time h m < g.time h n
  /-- no draw is yet to come -/
  past : ∀ h n, n ≤ s.version h → g.time h n < c

/-- Nothing is taken back but by thread `t`, which may pass its version on. -/
structure Grows (t : ℕ) (g : Ledger cfg) (s : LogKV cfg) (g' : Ledger cfg) (s' : LogKV cfg) :
    Prop where
  /-- slots stay handed out -/
  live : ∀ σ, s.Live σ → s'.Live σ
  /-- counters do not go back -/
  count : ∀ h, s.version h ≤ s'.version h
  /-- a slot is handed out once -/
  version : ∀ σ, s.Live σ → g'.version σ = g.version σ
  /-- a version is drawn once -/
  time : ∀ h n, n ≤ s.version h → g'.time h n = g.time h n
  /-- and carried on by its thread only -/
  carrier : ∀ h n, n ≤ s.version h → g.carrier h n ≠ .inr t → g'.carrier h n = g.carrier h n

theorem Grows.refl (t : ℕ) (g : Ledger cfg) (s : LogKV cfg) : Grows t g s g s :=
  ⟨fun _ h => h, fun _ => le_refl _, fun _ _ => rfl, fun _ _ _ => rfl, fun _ _ _ _ => rfl⟩

/-- The words that name no slot lead to nothing. -/
theorem leads_of_ne {P : ℕ → Prop} (hw : ∀ τ : Slot cfg, w ≠ τ.word) : g.Leads s h w P :=
  fun τ _ _ heq => absurd heq (hw τ)

theorem Leads.mono {P P' : ℕ → Prop} (hl : g.Leads s h w P)
    (hP : ∀ n, n ≤ s.version h → P n → P' n) : g.Leads s h w P' := by
  intro τ hhash hpos hw
  obtain ⟨hlive, hle, hn⟩ := hl τ hhash hpos hw
  exact ⟨hlive, hle, hP _ hle hn⟩

theorem Leads.grows {P P' : ℕ → Prop} (hl : g.Leads s h w P) (hg : Grows t g s g' s')
    (hP : ∀ n, n ≤ s.version h → P n → P' n) : g'.Leads s' h w P' := by
  intro τ hhash hpos hw
  obtain ⟨hlive, hle, hn⟩ := hl τ hhash hpos hw
  rw [hg.version τ hlive]
  exact ⟨hg.live τ hlive, hle.trans (hg.count h), hP _ hle hn⟩

/-- A packed address that leads to draws at one time. -/
theorem Leads.grows_time (hl : g.Leads s h w (g.time h · = d)) (hg : Grows t g s g' s') :
    g'.Leads s' h w (g'.time h · = d) :=
  hl.grows hg fun n hn hd => (hg.time h n hn).trans hd

theorem Drawn.grows (hp : g.Drawn s F c d p) (hg : Grows t g s g' s') (hct : c ≠ t) :
    g'.Drawn s' F c d p where
  used := hp.used
  le := hp.le.trans (hg.count _)
  time := (hg.time _ _ hp.le).trans hp.time
  carrier := by
    rw [hg.carrier _ _ hp.le, hp.carrier]
    rw [hp.carrier]
    exact fun hc => hct (Sum.inr.inj hc)
  link := hp.link.grows hg fun _ _ hn => hn

theorem Held.grows (ha : g.Held s a p) (hg : Grows t g s g' s') : g'.Held s' a p := by
  rcases ha with hnull | ⟨σ, hσ, hlive, hhash, hver⟩
  · exact .inl hnull
  · exact .inr ⟨σ, hσ, hg.live σ hlive, hhash, (hg.version σ hlive).trans hver⟩

theorem Stored.grows {r : PairT} (hr : g.Stored s σ r) (hg : Grows t g s g' s') :
    g'.Stored s' σ r where
  live := hg.live σ hr.live
  version := (hg.version σ hr.live).trans hr.version
  le := hr.le.trans (hg.count _)
  carrier := by
    rw [hg.carrier _ _ hr.le, hr.carrier]
    rw [hr.carrier]
    exact fun hc => by cases hc
  link := hr.link.grows hg fun _ _ hn => hn

/-- What is known of the other threads does not change. -/
theorem PcOk.grows {pc : Pc cfg} (hpc : g.PcOk s F c d pc) (hg : Grows t g s g' s')
    (hct : c ≠ t) : g'.PcOk s' F c d pc := by
  cases pc with
  | insertVersioned | updateVersioned | eraseVersioned => exact Drawn.grows hpc hg hct
  | insertAllocated | updateAllocated =>
    exact ⟨hpc.1.grows hg hct, hpc.2.1.grows hg, hpc.2.2.grows_time hg⟩
  | updatePublished | eraseAllocated => exact ⟨hpc.1.grows hg hct, hpc.2.grows hg⟩
  | insertStored => exact Leads.grows_time hpc hg
  | eraseSearched _ key w | eraseErased _ key w _ =>
    have hw : g.Leads s (cfg.shard key) w fun _ => True := hpc
    exact hw.grows hg fun _ _ _ => trivial
  | _ => trivial

/-- A step that draws nothing. -/
theorem Timed.tick (h : g.Timed s c) (hver : s'.version = s.version) (htime : g'.time = g.time) :
    g'.Timed s' (c + 1) where
  limit h' := by
    rw [hver]
    exact h.limit h'
  mono h' m n hlt hle := by
    rw [hver] at hle
    rw [htime]
    exact h.mono h' m n hlt hle
  past h' n hle := by
    rw [hver] at hle
    rw [htime]
    exact Nat.lt_succ_of_lt (h.past h' n hle)

/-- Of two versions, the one that was drawn earlier is lower. -/
theorem Timed.lt_of_time_lt (hT : g.Timed s c) {m n : ℕ} (hm : m ≤ s.version h)
    (hlt : g.time h m < g.time h n) : m < n := by
  by_contra hle
  rcases Nat.eq_or_lt_of_le (Nat.le_of_not_lt hle) with rfl | hnm
  · exact lt_irrefl _ hlt
  · exact absurd (hT.mono h n m hnm hm) (Nat.not_lt.mpr (le_of_lt hlt))

/-! ## What the steps write down -/

/-- The next version of shard `h` is drawn by thread `t` at time `c`. -/
def draw (g : Ledger cfg) (h : Fin cfg.shards) (n t c : ℕ) : Ledger cfg where
  version := g.version
  time := fun h' m => if h' = h ∧ m = n then c else g.time h' m
  carrier := fun h' m => if h' = h ∧ m = n then .inr t else g.carrier h' m

/-- The slot is handed out to the call with version `n`. -/
def handOut (g : Ledger cfg) (σ : Slot cfg) (n : ℕ) : Ledger cfg :=
  { g with version := Function.update g.version σ n }

/-- Version `n` of the shard of the slot is stored there. -/
def store (g : Ledger cfg) (σ : Slot cfg) (n : ℕ) : Ledger cfg :=
  { g with carrier := fun h m => if h = σ.log.hash ∧ m = n then .inl σ else g.carrier h m }

/-- A draw within 62 bits. -/
theorem Timed.draw (hT : g.Timed s c) {key : UInt64}
    (hlimit : s.version (cfg.shard key) + 1 < 2 ^ 62) :
    Grows t g s (g.draw (cfg.shard key) (s.version (cfg.shard key) + 1) t c)
        (s.bump (cfg.xxh3 key)) ∧
      (g.draw (cfg.shard key) (s.version (cfg.shard key) + 1) t c).Timed
        (s.bump (cfg.xxh3 key)) (c + 1) := by
  set k := cfg.shard key with hk
  have hver : ∀ h, (s.bump (cfg.xxh3 key)).version h =
      if h = k then s.version k + 1 else s.version h := by
    intro h
    exact Function.update_apply ..
  have hold : ∀ h n, n ≤ s.version h → ¬ (h = k ∧ n = s.version k + 1) := by
    rintro h n hle ⟨rfl, rfl⟩
    exact absurd hle (Nat.not_succ_le_self _)
  set g' := g.draw k (s.version k + 1) t c with hg'
  have hsame : ∀ h n, n ≤ s.version h → g'.time h n = g.time h n := fun h n hle =>
    if_neg (hold h n hle)
  have hself : g'.time k (s.version k + 1) = c := if_pos ⟨rfl, rfl⟩
  have hnew : ∀ h n, n ≤ (s.bump (cfg.xxh3 key)).version h →
      n ≤ s.version h ∨ h = k ∧ n = s.version k + 1 := by
    intro h n hle
    rw [hver] at hle
    split at hle
    · rename_i heq
      subst heq
      rcases Nat.eq_or_lt_of_le hle with rfl | hlt
      · exact .inr ⟨rfl, rfl⟩
      · exact .inl (Nat.lt_succ_iff.mp hlt)
    · exact .inl hle
  refine ⟨⟨fun _ h => h, fun h => ?_, fun _ _ => rfl, hsame,
    fun h n hle _ => if_neg (hold h n hle)⟩, ⟨fun h => ?_, fun h m n hlt hle => ?_,
    fun h n hle => ?_⟩⟩
  · rw [hver]
    split
    · rename_i heq
      rw [heq]
      exact Nat.le_succ _
    · exact le_refl _
  · rw [hver]
    split
    · exact hlimit
    · exact hT.limit h
  · rcases hnew h n hle with hle | ⟨rfl, rfl⟩
    · rw [hsame h n hle, hsame h m (hlt.le.trans hle)]
      exact hT.mono h m n hlt hle
    · -- the new version is drawn now, the others have been drawn before
      have hm : m ≤ s.version k := Nat.lt_succ_iff.mp hlt
      rw [hself, hsame k m hm]
      exact hT.past k m hm
  · rcases hnew h n hle with hle | ⟨rfl, rfl⟩
    · rw [hsame h n hle]
      exact Nat.lt_succ_of_lt (hT.past h n hle)
    · rw [hself]
      exact Nat.lt_succ_self c

/-- A slot that is handed out has no entry yet. -/
theorem grows_handOut {l : LogId cfg} {u : ℕ} (hout : s.HandsOut l a s') (n : ℕ) :
    Grows u g s (g.handOut (s.nextSlot l) n) s' where
  live _ hσ := hout.live_iff.mpr (.inl hσ)
  count h := le_of_eq (congrFun hout.version h).symm
  version _ hσ := Function.update_of_ne (fun hc => LogKV.nextSlot_not_live (hc ▸ hσ)) ..
  time _ _ _ := rfl
  carrier _ _ _ _ := rfl

/-- A thread that stores its record hands its version over to the slot. -/
theorem Drawn.grows_store (hp : g.Drawn s F t d p) (hσ : σ.log.hash = cfg.shard p.key)
    (r : PairT) : Grows t g s (g.store σ p.version.toNat) (s.write σ r) where
  live _ h := h
  count _ := le_refl _
  version _ _ := rfl
  time _ _ _ := rfl
  carrier h n _ hne := by
    refine if_neg ?_
    rintro ⟨rfl, rfl⟩
    rw [hσ] at hne
    exact hne hp.carrier

/-- The record is in its slot then. -/
theorem Drawn.stored (hp : g.Drawn s F t d p) (hlive : s.Live σ)
    (hσ : σ.log.hash = cfg.shard p.key) (hver : g.version σ = p.version.toNat) (r : PairT) :
    (g.store σ p.version.toNat).Stored (s.write σ r) σ p where
  live := hlive
  version := hver
  le := hσ ▸ hp.le
  carrier := if_pos ⟨rfl, rfl⟩
  link := by
    rw [hσ]
    exact hp.link.grows (hp.grows_store hσ r) fun _ _ hn => hn

end Ledger

/-! ## The invariant -/

namespace Life

variable {s s' : Life cfg} {g g' : Ledger cfg} {t : ℕ}

/-- The invariant of the runs. -/
structure Ordered (g : Ledger cfg) (s : Life cfg) : Prop where
  /-- the allocators are in order -/
  handing : s.sys.store.log.Handing
  /-- the draws came one after the other -/
  timed : g.Timed s.sys.store.log s.clock
  /-- where versions are drawn, each record is in the slot that was handed out for it -/
  stored : ∀ σ, s.Unused σ.log.hash → (s.sys.store.log.recAt σ).op ≠ .trash →
    g.Stored s.sys.store.log σ (s.sys.store.log.recAt σ)
  /-- elsewhere the records are those that were in order before the restart -/
  kept : ∀ h, ¬ s.Unused h → s.sys.store.log.OrderedIn h
  /-- the index names slots of calls that drew when it says -/
  entry : ∀ k w, s.sys.store.db k = some w →
    g.Leads s.sys.store.log (cfg.shard k) w (g.time (cfg.shard k) · = s.named k)
  /-- the local variables are in order -/
  pcs : ∀ u, g.PcOk s.sys.store.log s.Unused u (s.drew u) (s.sys.threads u)

theorem Ordered.versionsOrdered (h : s.Ordered g) : s.sys.store.log.VersionsOrdered := by
  intro k
  by_cases hk : s.Unused k
  · refine ⟨fun σ τ hσ hτ hop hop' hlink => ?_, fun σ τ hσ hτ hop hop' heq => ?_⟩
    · have hst := h.stored σ (hσ.symm ▸ hk) hop
      have hst' := h.stored τ (hτ.symm ▸ hk) hop'
      obtain ⟨-, -, hlt⟩ := hst.link τ (hτ.trans hσ.symm) (h.handing.lt_capacity hst'.live) hlink
      rwa [hst'.version] at hlt
    · have hst := h.stored σ (hσ.symm ▸ hk) hop
      have hst' := h.stored τ (hτ.symm ▸ hk) hop'
      -- a version has got to one slot
      have hcarrier := hst.carrier
      rw [heq, hσ, ← hτ, hst'.carrier] at hcarrier
      exact (Sum.inl.inj hcarrier).symm
  · exact h.kept k hk

/-- **What a step of thread `t` has to show.** -/
theorem Ordered.move (h : s.Ordered g)
    (hg : Ledger.Grows t g s.sys.store.log g' s'.sys.store.log) (hfound : s'.found = s.found)
    (hhanding : s'.sys.store.log.Handing) (htimed : g'.Timed s'.sys.store.log s'.clock)
    (hrec : ∀ σ, s'.sys.store.log.recAt σ = s.sys.store.log.recAt σ ∨ s.Unused σ.log.hash ∧
      g'.Stored s'.sys.store.log σ (s'.sys.store.log.recAt σ))
    (hentry : ∀ k w, s'.sys.store.db k = some w →
      s.sys.store.db k = some w ∧ s'.named k = s.named k ∨
        g'.Leads s'.sys.store.log (cfg.shard k) w (g'.time (cfg.shard k) · = s'.named k))
    (hother : ∀ u, u ≠ t → s'.sys.threads u = s.sys.threads u ∧ s'.drew u = s.drew u)
    (hself : g'.PcOk s'.sys.store.log s.Unused t (s'.drew t) (s'.sys.threads t)) :
    s'.Ordered g' := by
  have hunused : s'.Unused = s.Unused := by
    funext k
    rw [Unused, hfound, Unused]
  refine ⟨hhanding, htimed, fun σ hσ hop => ?_, fun k hk => ?_, fun k w hw => ?_, fun u => ?_⟩
  · rw [hunused] at hσ
    rcases hrec σ with heq | ⟨-, hst⟩
    · rw [heq] at hop ⊢
      exact (h.stored σ hσ hop).grows hg
    · exact hst
  · rw [hunused] at hk
    refine (h.kept k hk).congr fun σ hσ => ?_
    rcases hrec σ with heq | ⟨hused, -⟩
    · exact heq
    · rw [hσ] at hused
      exact absurd hused hk
  · rcases hentry k w hw with ⟨hold, hnamed⟩ | hnew
    · rw [hnamed]
      exact (h.entry k w hold).grows_time hg
    · exact hnew
  · rw [hunused]
    by_cases hu : u = t
    · rw [hu]
      exact hself
    · obtain ⟨hth, hdrew⟩ := hother u hu
      rw [hth, hdrew]
      exact (h.pcs u).grows hg hu

/-- A step that leaves the log alone and enters nothing in the index. -/
theorem Ordered.quiet (h : s.Ordered g) (hfound : s'.found = s.found)
    (hclock : s'.clock = s.clock + 1) (hdrew : s'.drew = s.drew) (hnamed : s'.named = s.named)
    (hlog : s'.sys.store.log = s.sys.store.log)
    (hdb : ∀ k w, s'.sys.store.db k = some w → s.sys.store.db k = some w)
    (hother : ∀ u, u ≠ t → s'.sys.threads u = s.sys.threads u)
    (hself : g.PcOk s.sys.store.log s.Unused t (s.drew t) (s'.sys.threads t)) :
    s'.Ordered g := by
  refine h.move (t := t) ?_ hfound ?_ ?_ (fun σ => .inl ?_) (fun k w hw => .inl ⟨hdb k w hw, ?_⟩)
    (fun u hu => ⟨hother u hu, by rw [hdrew]⟩) ?_
  · rw [hlog]
    exact .refl t g _
  · rw [hlog]
    exact h.handing
  · rw [hlog, hclock]
    exact h.timed.tick rfl rfl
  · rw [hlog]
  · rw [hnamed]
  · rw [hlog, hdrew]
    exact hself

/-- A step that draws a version for the record `p`. -/
theorem Ordered.draw (h : s.Ordered g) (hfound : s'.found = s.found)
    (hclock : s'.clock = s.clock + 1) (hnamed : s'.named = s.named) {key : UInt64}
    (hdrew : s'.drew = Function.update s.drew t s.clock)
    (hstore : s'.sys.store = ⟨s.sys.store.log.bump (cfg.xxh3 key), s.sys.store.db⟩)
    (hother : ∀ u, u ≠ t → s'.sys.threads u = s.sys.threads u)
    (hin : s.Unused (cfg.shard key) ∧ s.sys.store.log.version (cfg.shard key) + 1 < 2 ^ 62)
    {p : PairT} (hkey : p.key = key)
    (hver : p.version = BitVec.ofNat 62 (s.sys.store.log.version (cfg.shard key) + 1))
    (hlink : g.Leads s.sys.store.log (cfg.shard key) p.uOffset fun _ => True)
    (hself : ∀ g' : Ledger cfg, g'.Drawn s'.sys.store.log s.Unused t s.clock p →
      g'.PcOk s'.sys.store.log s.Unused t s.clock (s'.sys.threads t)) : ∃ g', s'.Ordered g' := by
  subst hkey
  obtain ⟨hunused, hlimit⟩ := hin
  obtain ⟨hg, htimed⟩ := h.timed.draw (t := t) hlimit
  set n := s.sys.store.log.version (cfg.shard p.key) + 1 with hn
  have hpn : p.version.toNat = n := by
    rw [hver, BitVec.toNat_ofNat]
    exact Nat.mod_eq_of_lt hlimit
  have hlog : s'.sys.store.log = s.sys.store.log.bump (cfg.xxh3 p.key) := by rw [hstore]
  have hdb : s'.sys.store.db = s.sys.store.db := by rw [hstore]
  have hd : s'.drew t = s.clock := by rw [hdrew, Function.update_self]
  rw [← hlog] at hg htimed
  refine ⟨g.draw (cfg.shard p.key) n t s.clock, h.move hg hfound ?_ ?_ (fun σ => .inl ?_)
    (fun k w hw => .inl ⟨?_, ?_⟩) (fun u hu => ⟨hother u hu, ?_⟩) ?_⟩
  · rw [hlog]
    exact h.handing.bump
  · rw [hclock]
    exact htimed
  · rw [hlog, LogKV.recAt_bump]
  · rwa [← hdb]
  · rw [hnamed]
  · rw [hdrew, Function.update_of_ne hu]
  · rw [hd]
    refine hself _ ⟨hunused, ?_, ?_, ?_, ?_⟩
    · rw [hpn, hlog]
      exact le_of_eq (s.sys.store.log.versionFor_bump p.key).symm
    · rw [hpn]
      exact if_pos ⟨rfl, rfl⟩
    · rw [hpn]
      exact if_pos ⟨rfl, rfl⟩
    · -- the link leads to a version drawn before
      rw [hpn]
      exact (hlink.mono fun m hm _ => Nat.lt_succ_of_le hm).grows hg fun _ _ hm => hm

/-- A step that allocates for the record `p`. -/
theorem Ordered.alloc (h : s.Ordered g) (hfound : s'.found = s.found)
    (hclock : s'.clock = s.clock + 1) (hdrew : s'.drew = s.drew) (hnamed : s'.named = s.named)
    {p : PairT} {threadId : Fin 64} {logInfo info : LastLogOffest} {a : Ptr cfg} {log : LogKV cfg}
    (halloc : s.sys.store.log.allocLog threadId (cfg.xxh3 p.key) logInfo PairT.size =
      .ok (a, info, log))
    (hstore : s'.sys.store = ⟨log, s.sys.store.db⟩)
    (hother : ∀ u, u ≠ t → s'.sys.threads u = s.sys.threads u)
    (hp : g.Drawn s.sys.store.log s.Unused t (s.drew t) p)
    (hself : ∀ g' : Ledger cfg, g'.Drawn log s.Unused t (s.drew t) p → g'.Held log a p →
      (logInfo.vlen = PairT.vlen → g'.Leads log (cfg.shard p.key) info.toUint64Offset
        (g'.time (cfg.shard p.key) · = s.drew t)) →
      g'.PcOk log s.Unused t (s.drew t) (s'.sys.threads t)) : ∃ g', s'.Ordered g' := by
  set l := cfg.logFor threadId p.key with hl
  obtain ⟨hout, hinfo⟩ := h.handing.alloc (l := l) halloc
  set σ := s.sys.store.log.nextSlot l with hσ
  have hhash : σ.log.hash = cfg.shard p.key := rfl
  have hlive : log.Live σ := hout.live_iff.mpr (.inr rfl)
  have hlog : s'.sys.store.log = log := by rw [hstore]
  have hdb : s'.sys.store.db = s.sys.store.db := by rw [hstore]
  set g' := g.handOut σ p.version.toNat with hg'
  have hver : g'.version σ = p.version.toNat := Function.update_self ..
  -- no version changes hands
  have hg : ∀ u, Ledger.Grows u g s.sys.store.log g' log := fun u => Ledger.grows_handOut hout _
  have hdrawn : g'.Drawn log s.Unused t (s.drew t) p := hp.grows (hg (t + 1)) (Nat.succ_ne_self t).symm
  refine ⟨g', h.move (t := t) ?_ hfound ?_ ?_ (fun τ => .inl ?_) (fun k w hw => .inl ⟨?_, ?_⟩)
    (fun u hu => ⟨hother u hu, by rw [hdrew]⟩) ?_⟩
  · rw [hlog]
    exact hg t
  · rw [hlog]
    exact hout.handing
  · rw [hlog, hclock]
    exact h.timed.tick hout.version rfl
  · rw [hlog, hout.recAt]
  · rwa [← hdb]
  · rw [hnamed]
  · rw [hlog, hdrew]
    refine hself g' hdrawn ?_ fun hvlen τ hτ hpos hw => ?_
    · exact hout.addr.imp id fun ha => ⟨σ, ha, hlive, hhash, hver⟩
    · rw [hinfo, hvlen] at hw
      obtain rfl : σ = τ := Slot.word_injective (hout.handing.lt_capacity hlive) hpos
        (hhash.trans hτ.symm) hw
      rw [hver]
      exact ⟨hlive, hdrawn.le, hdrawn.time⟩

/-- A step that enters a key in the index. -/
theorem Ordered.enter (h : s.Ordered g) (hfound : s'.found = s.found)
    (hclock : s'.clock = s.clock + 1) (hdrew : s'.drew = s.drew) {key w : UInt64}
    (hnamed : s'.named = Function.update s.named key (s.drew t))
    (hstore : s'.sys.store =
      ⟨s.sys.store.log, Function.update s.sys.store.db key (some w)⟩)
    (hother : ∀ u, u ≠ t → s'.sys.threads u = s.sys.threads u)
    (hw : g.Leads s.sys.store.log (cfg.shard key) w (g.time (cfg.shard key) · = s.drew t))
    (hself : g.PcOk s.sys.store.log s.Unused t (s.drew t) (s'.sys.threads t)) :
    s'.Ordered g := by
  have hlog : s'.sys.store.log = s.sys.store.log := by rw [hstore]
  have hdb : s'.sys.store.db = Function.update s.sys.store.db key (some w) := by rw [hstore]
  refine h.move (t := t) ?_ hfound ?_ ?_ (fun σ => .inl ?_) (fun k w' hk => ?_)
    (fun u hu => ⟨hother u hu, by rw [hdrew]⟩) ?_
  · rw [hlog]
    exact .refl t g _
  · rw [hlog]
    exact h.handing
  · rw [hlog, hclock]
    exact h.timed.tick rfl rfl
  · rw [hlog]
  · rw [hdb] at hk
    rw [hlog, hnamed]
    by_cases hkk : k = key
    · subst hkk
      rw [Function.update_self] at hk
      obtain rfl := Option.some_inj.mp hk
      rw [Function.update_self]
      exact .inr hw
    · rw [Function.update_of_ne hkk] at hk
      exact .inl ⟨hk, Function.update_of_ne hkk ..⟩
  · rw [hlog, hdrew]
    exact hself

/-- A step that stores the record `p`. -/
theorem Ordered.store (h : s.Ordered g) (hfound : s'.found = s.found)
    (hclock : s'.clock = s.clock + 1) (hdrew : s'.drew = s.drew) (hnamed : s'.named = s.named)
    {p : PairT} {a : Ptr cfg} {log : LogKV cfg}
    (hstored : s.sys.store.log.storePersist a p = .ok log)
    (hstore : s'.sys.store = ⟨log, s.sys.store.db⟩)
    (hother : ∀ u, u ≠ t → s'.sys.threads u = s.sys.threads u)
    (hp : g.Drawn s.sys.store.log s.Unused t (s.drew t) p) (ha : g.Held s.sys.store.log a p)
    (hself : ∀ g' : Ledger cfg, Ledger.Grows t g s.sys.store.log g' log →
      g'.PcOk log s.Unused t (s.drew t) (s'.sys.threads t)) : ∃ g', s'.Ordered g' := by
  rcases ha with hnull | ⟨σ, rfl, hlive, hhash, hver⟩
  · exact absurd hstored (LogKV.storePersist_null hnull)
  obtain ⟨hfile, rfl⟩ := LogKV.storePersist_ptr_inv hstored
  have hlog : s'.sys.store.log = s.sys.store.log.write σ p := by rw [hstore]
  have hdb : s'.sys.store.db = s.sys.store.db := by rw [hstore]
  have hg := hp.grows_store hhash p
  refine ⟨g.store σ p.version.toNat, h.move (t := t) ?_ hfound ?_ ?_ (fun τ => ?_)
    (fun k w hw => .inl ⟨?_, ?_⟩) (fun u hu => ⟨hother u hu, by rw [hdrew]⟩) ?_⟩
  · rw [hlog]
    exact hg
  · rw [hlog]
    exact h.handing.write hfile
  · rw [hlog, hclock]
    exact h.timed.tick rfl rfl
  · rw [hlog, LogKV.recAt_write]
    by_cases hτ : τ = σ
    · subst hτ
      rw [Function.update_self]
      exact .inr ⟨hhash.symm ▸ hp.used, hp.stored hlive hhash hver p⟩
    · exact .inl (Function.update_of_ne hτ ..)
  · rwa [← hdb]
  · rw [hnamed]
  · rw [hlog, hdrew]
    exact hself _ hg

/-- What every step of the threads has in common. -/
theorem step_act {a : Action cfg} (hstep : s.step (.act a) = .ok s') :
    ∃ sys, s.sys.step a = .ok sys ∧
      s' = { s with sys, clock := s.clock + 1, drew := s.drewAfter a, named := s.namedAfter a } := by
  obtain ⟨sys, hsys, hs'⟩ := bind_eq_ok hstep
  exact ⟨sys, hsys, (Except.ok.inj hs').symm⟩

/-- **Every step of a thread keeps the invariant**, if it is in order. -/
theorem Ordered.runThread (h : s.Ordered g) (hC : s.InOrder (.act (.run t)))
    (hstep : s.step (.act (.run t)) = .ok s') : ∃ g', s'.Ordered g' := by
  obtain ⟨hdraw, hexchange⟩ := hC.2 t rfl
  obtain ⟨sys, hsys, rfl⟩ := step_act hstep
  have hother : ∀ u, u ≠ t → sys.threads u = s.sys.threads u := fun _ hu =>
    Sys.runThread_other hsys hu
  have hpc := h.pcs t
  have hran := Sys.ran_of_runThread hsys
  have hmax : ∀ k (P : ℕ → Prop), g.Leads s.sys.store.log k uint64Max P := fun k P =>
    Ledger.leads_of_ne fun τ => τ.word_ne_max.symm
  generalize hth : s.sys.threads t = pc at hran hpc hdraw hexchange
  have hsame : pc.draws = none → s.drewAfter (.run t) = s.drew := by
    intro hnone
    simp only [drewAfter, hth, hnone]
    rfl
  cases hran with
  | insertStart threadId k v =>
    refine h.draw (p := .insertRec (s.sys.store.log.versionFor k) k v) rfl rfl
      (by simp only [namedAfter, hth]) (by simp only [drewAfter, hth]; rfl) rfl hother
      (hdraw k rfl) rfl rfl (hmax _ _) fun g' hp => ?_
    simp only [Sys.next_threads_self]
    exact hp
  | updateStart src threadId k v =>
    refine h.draw (p := .updateRec (s.sys.store.log.versionFor k) k v uint64Max) rfl rfl
      (by simp only [namedAfter, hth]) (by simp only [drewAfter, hth]; rfl) rfl hother
      (hdraw k rfl) rfl rfl (hmax _ _) fun g' hp => ?_
    simp only [Sys.next_threads_self]
    exact hp
  | eraseErased threadId k w ret =>
    refine h.draw (p := .deleteRec (s.sys.store.log.versionFor k) cfg.uninit k w) rfl rfl
      (by simp only [namedAfter, hth]) (by simp only [drewAfter, hth]; rfl) rfl hother
      (hdraw k rfl) rfl rfl hpc fun g' hp => ?_
    simp only [Sys.next_threads_self]
    exact hp
  | insertVersioned threadId p halloc | updateVersioned src threadId p halloc =>
    refine h.alloc rfl rfl (hsame rfl) (by simp only [namedAfter, hth]) halloc rfl hother hpc
      fun g' hp ha hw => ?_
    simp only [Sys.next_threads_self]
    exact ⟨hp, ha, hw rfl⟩
  | eraseVersioned threadId p ret halloc =>
    refine h.alloc rfl rfl (hsame rfl) (by simp only [namedAfter, hth]) halloc rfl hother hpc
      fun g' hp ha _ => ?_
    simp only [Sys.next_threads_self]
    exact ⟨hp, ha⟩
  | insertAllocated p a w hstored =>
    obtain ⟨hp, ha, hw⟩ := hpc
    refine h.store rfl rfl (hsame rfl) (by simp only [namedAfter, hth]) hstored rfl hother hp ha
      fun g' hg => ?_
    simp only [Sys.next_threads_self]
    exact hw.grows_time hg
  | updatePublished src p a hstored | eraseAllocated p a ret hstored =>
    obtain ⟨hp, ha⟩ := hpc
    refine h.store rfl rfl (hsame rfl) (by simp only [namedAfter, hth]) hstored rfl hother hp ha
      fun g' _ => ?_
    simp only [Sys.next_threads_self]
    trivial
  | insertStored k v w =>
    cases hdb : s.sys.store.db k with
    | some old =>
      refine ⟨g, h.quiet rfl rfl (hsame rfl) (by simp only [namedAfter, hth, hdb]; rfl) rfl
        (fun k' w' hk => ?_) hother ?_⟩
      · simpa only [Sys.next_store, Index.insert, hdb] using hk
      · simp only [Sys.next_threads_self]
        trivial
    | none =>
      refine ⟨g, h.enter rfl rfl (hsame rfl) (by simp only [namedAfter, hth, hdb]; rfl) ?_ hother
        hpc ?_⟩
      · simp only [Sys.next_store, Index.insert, hdb]
      · simp only [Sys.next_threads_self]
        trivial
  | updateAllocated src p a w old hdb =>
    obtain ⟨hp, ha, hw⟩ := hpc
    have hlt := hexchange src p a w rfl (by rw [hdb]; rfl)
    refine ⟨g, h.enter rfl rfl (hsame rfl) (by simp only [namedAfter, hth, hdb]; rfl) rfl hother
      hw ?_⟩
    simp only [Sys.next_threads_self]
    refine ⟨⟨hp.used, hp.le, hp.time, hp.carrier, ?_⟩, ha⟩
    -- the call that entered the key has drawn before this one
    refine Ledger.Leads.mono (h.entry p.key old hdb) fun m hm htime => ?_
    refine h.timed.lt_of_time_lt hm ?_
    have hdrew := hp.time
    change g.time (cfg.shard p.key) p.version.toNat = s.drew t at hdrew
    exact htime ▸ hdrew ▸ hlt
  | eraseStart threadId k =>
    refine ⟨g, h.quiet rfl rfl (hsame rfl) (by simp only [namedAfter, hth]) rfl
      (fun _ _ hk => hk) hother ?_⟩
    simp only [Sys.next_threads_self]
    have hw : g.Leads s.sys.store.log (cfg.shard k) ((s.sys.store.db k).getD 0) fun _ => True := by
      cases hdb : s.sys.store.db k with
      | none => exact Ledger.leads_of_ne fun τ => τ.word_ne_zero.symm
      | some w => exact Ledger.Leads.mono (h.entry k w hdb) fun _ _ _ => trivial
    exact hw
  | eraseSearched threadId k w =>
    refine ⟨g, h.quiet rfl rfl (hsame rfl) (by simp only [namedAfter, hth]) rfl
      (fun k' w' hk => ?_) hother ?_⟩
    · simp only [Sys.next_store, Index.erase, Function.update_apply] at hk
      split at hk
      · cases hk
      · exact hk
    · simp only [Sys.next_threads_self]
      exact hpc
  | idle =>
    refine ⟨g, h.quiet rfl rfl (hsame rfl) (by simp only [namedAfter, hth]) rfl
      (fun _ _ hk => hk) (t := t) (fun _ _ => rfl) (h.pcs t)⟩
  | updateMissing src p a w hdb =>
    refine ⟨g, h.quiet rfl rfl (hsame rfl) (by simp only [namedAfter, hth, hdb]; rfl) rfl
      (fun _ _ hk => hk) hother ?_⟩
    simp only [Sys.next_threads_self]
    trivial
  | searchMissing | searchStart | searchFound | returning =>
    refine ⟨g, h.quiet rfl rfl (hsame rfl) (by simp only [namedAfter, hth]) rfl
      (fun _ _ hk => hk) hother ?_⟩
    simp only [Sys.next_threads_self]
    trivial

/-- A call, or a relocation, starts with a thread that knows nothing. -/
theorem Ordered.start (h : s.Ordered g) {a : Action cfg} (ha : ∀ t, a ≠ .run t)
    (hstep : s.step (.act a) = .ok s') : s'.Ordered g := by
  obtain ⟨sys, hsys, rfl⟩ := step_act hstep
  have hdrew : s.drewAfter a = s.drew := by
    cases a with
    | run t => exact absurd rfl (ha t)
    | call | relocate => rfl
  have hnamed : s.namedAfter a = s.named := by
    cases a with
    | run t => exact absurd rfl (ha t)
    | call | relocate => rfl
  -- nothing happens, or a thread gets its first local variables
  have hcases : sys = s.sys ∨ ∃ t pc, sys = s.sys.next t s.sys.store pc ∧
      g.PcOk s.sys.store.log s.Unused t (s.drew t) pc := by
    cases a with
    | run t => exact absurd rfl (ha t)
    | call t c =>
      simp only [Sys.step] at hsys
      split at hsys
      · refine .inr ⟨t, c.start, (Except.ok.inj hsys).symm, ?_⟩
        obtain ⟨tid, op⟩ := c
        cases op <;> trivial
      · exact .inl (Except.ok.inj hsys).symm
    | relocate t tid σ =>
      simp only [Sys.step] at hsys
      split at hsys
      · split at hsys
        · obtain ⟨r, -, hsys⟩ := bind_eq_ok hsys
          split at hsys
          · exact .inr ⟨t, _, (Except.ok.inj hsys).symm, trivial⟩
          · exact .inl (Except.ok.inj hsys).symm
        · exact .inl (Except.ok.inj hsys).symm
      · exact .inl (Except.ok.inj hsys).symm
  rcases hcases with rfl | ⟨t, pc, rfl, hpc⟩
  · exact h.quiet (t := 0) rfl rfl hdrew hnamed rfl (fun _ _ hk => hk) (fun _ _ => rfl) (h.pcs 0)
  · refine h.quiet (t := t) rfl rfl hdrew hnamed rfl (fun _ _ hk => hk)
      (fun _ hu => Sys.next_threads_of_ne _ _ _ hu) ?_
    rwa [Sys.next_threads_self]

/-- **A restart keeps the records in order**, and forgets the rest. -/
theorem Ordered.restart (h : s.Ordered g) {dir : Fin numaNodeNum → List (PageId cfg)} {n : ℕ}
    (hC : s.Listed (.restart dir n)) (hstep : s.step (.restart dir n) = .ok s') :
    ∃ g', s'.Ordered g' := by
  obtain ⟨hdir, hn⟩ := hC dir n rfl
  obtain ⟨store, hrec, hs'⟩ := bind_eq_ok hstep
  obtain rfl := Except.ok.inj hs'
  obtain ⟨t, ht, hswept⟩ := Logdb.recover_swept h.handing.file_lt hdir hn
  obtain rfl := Except.ok.inj (hrec.symm.trans ht)
  have hvolatile := Logdb.recover_restarted hrec
  have hver : ∀ k, store.log.version k = 0 := congrFun hvolatile.version
  have hrecAt : store.log.recAt = s.sys.store.log.recAt := LogKV.recAt_congr hswept.files
  refine ⟨⟨fun _ => 0, fun _ _ => 0, fun _ _ => .inr 0⟩, hswept.handing h.handing,
    ⟨fun k => ?_, fun k m n hlt hle => ?_, fun k n _ => Nat.one_pos⟩, fun σ hσ hop => ?_,
    fun k hk => ?_, fun k w hw => ?_, fun u => trivial⟩
  · change store.log.version k < 2 ^ 62
    rw [hver]
    exact Nat.two_pow_pos 62
  · change n ≤ store.log.version k at hle
    rw [hver] at hle
    exact absurd hlt (Nat.not_lt.mpr (hle.trans (Nat.zero_le m)))
  · -- the shard has no record
    change (store.log.recAt σ).op ≠ .trash at hop
    rw [hrecAt] at hop
    exact absurd (hσ σ rfl) hop
  · refine (h.versionsOrdered k).congr fun σ _ => ?_
    exact congrFun hrecAt σ
  · obtain rfl := hvolatile.ones k w hw
    exact Ledger.leads_of_ne fun τ => τ.word_ne_one.symm

/-- **Every step in order keeps the order.** -/
theorem Ordered.step (h : s.Ordered g) {a : LifeAct cfg} (hC : s.InOrder a)
    (hstep : s.step a = .ok s') : ∃ g', s'.Ordered g' := by
  cases a with
  | restart dir n => exact h.restart hC.1 hstep
  | act a =>
    by_cases ha : ∀ t, a ≠ .run t
    · exact ⟨g, h.start ha hstep⟩
    · simp only [not_forall, not_not] at ha
      obtain ⟨t, rfl⟩ := ha
      exact h.runThread hC hstep

theorem ordered_fresh (cfg : Config) :
    (fresh cfg).Ordered ⟨fun _ => 0, fun _ _ => 0, fun _ _ => .inr 0⟩ where
  handing := (LogKV.slotted_fresh cfg).handing
  timed := ⟨fun _ => Nat.two_pow_pos 62,
    fun _ m _ hlt hle => absurd hlt (Nat.not_lt.mpr (hle.trans (Nat.zero_le m))),
    fun _ _ _ => Nat.one_pos⟩
  stored σ _ hop := by
    have hblank : (fresh cfg).sys.store.log.recAt σ = PairT.blank := LogKV.recAt_fresh σ
    rw [hblank] at hop
    exact absurd rfl hop
  kept _ hk := absurd (fun _ _ => rfl) hk
  entry _ _ hw := by cases hw
  pcs _ := trivial

/-- **Versions order the writes of a key while updates exchange in the order of their
draws.** In every state reached by calls of any threads, cut into their steps and
interleaved in any way, and by restarts: if every update that exchanged the index entry of
a key had drawn its version after the call that had entered the key, and no version was
drawn past 62 bits or in a shard of which the last restart had found a record, then every
record carries a higher version than the record its link names, and no two records of a
shard carry the same. -/
theorem versions_ordered (cfg : Config) {as : List (LifeAct cfg)} {t : Life cfg}
    (hrun : Run step InOrder (fresh cfg) as t) : t.sys.store.log.VersionsOrdered := by
  obtain ⟨g, h⟩ := hrun.invariant (I := fun s => ∃ g, Ordered g s)
    (fun _ _ _ ⟨_, h⟩ hC hst => h.step hC hst) ⟨_, ordered_fresh cfg⟩
  exact h.versionsOrdered

/-! ## Runs in order -/

/-- A run of the threads, with the times of its draws. -/
theorem exists_run_act {C : Sys cfg → Action cfg → Prop} {s t : Sys cfg} {as : List (Action cfg)}
    (hrun : Run Sys.step C s as t) :
    ∀ x : Life cfg, x.sys = s → ∃ y, Run step Listed x (as.map .act) y ∧ y.sys = t := by
  induction hrun with
  | nil s => exact fun x hx => ⟨x, .nil x, hx⟩
  | cons _ hst _ ih =>
    rintro x rfl
    obtain ⟨y, hy, hsys⟩ := ih { x with
      sys := _, clock := x.clock + 1, drew := x.drewAfter _, named := x.namedAfter _ } rfl
    refine ⟨y, .cons (fun _ _ h => by cases h) ?_ hy, hsys⟩
    simp only [step, hst]
    rfl

/-- A step of a thread, with what it draws and what it enters. -/
theorem step_run {x : Life cfg} {sys : Sys cfg} {d : ℕ → ℕ} {n : UInt64 → ℕ}
    (hsys : x.sys.runThread t = .ok sys) (hdrew : x.drewAfter (.run t) = d)
    (hnamed : x.namedAfter (.run t) = n) :
    x.step (.act (.run t)) = .ok ⟨sys, x.found, x.clock + 1, d, n⟩ := by
  have hstep : x.sys.step (.run t) = .ok sys := hsys
  subst hdrew hnamed
  simp only [step, hstep]
  rfl

/-- A step that draws nothing and exchanges nothing is in order. -/
theorem inOrder_run {x : Life cfg} {pc : Pc cfg} (hth : x.sys.threads t = pc)
    (hdraws : pc.draws = none) (hpc : ∀ src p a w, pc ≠ .updateAllocated src p a w) :
    x.InOrder (.act (.run t)) := by
  refine ⟨fun _ _ h => (by cases h), fun u hu => ?_⟩
  obtain rfl : t = u := Action.run.inj (LifeAct.act.inj hu)
  refine ⟨fun k hk => ?_, fun src p a w hc => absurd (hth.symm.trans hc) (hpc src p a w)⟩
  rw [hth, hdraws] at hk
  cases hk

/-- An `insert` and an `update` start with a draw. -/
theorem run_draw {x : Life cfg} {c : Call} {sys : Sys cfg} {k : UInt64}
    (hidle : x.sys.threads t = .idle) (hdraws : (c.start : Pc cfg).draws = some k)
    (hunused : x.Unused (cfg.shard k))
    (hlimit : x.sys.store.log.version (cfg.shard k) + 1 < 2 ^ 62)
    (hsys : (x.sys.next t x.sys.store c.start).runThread t = .ok sys) :
    Run step InOrder x [.act (.call t c), .act (.run t)]
      ⟨sys, x.found, x.clock + 2, Function.update x.drew t (x.clock + 1), x.named⟩ := by
  set y : Life cfg := ⟨x.sys.next t x.sys.store c.start, x.found, x.clock + 1, x.drew, x.named⟩
    with hy
  have hcall : x.step (.act (.call t c)) = .ok y := by
    simp only [step, Sys.step, hidle]
    rfl
  have hth : y.sys.threads t = c.start := Sys.next_threads_self ..
  have hdrew : y.drewAfter (.run t) = Function.update x.drew t (x.clock + 1) := by
    simp only [drewAfter, hth, hdraws]
    rfl
  have hnamed : y.namedAfter (.run t) = x.named := by
    simp only [namedAfter, hth]
    obtain ⟨tid, op⟩ := c
    cases op <;> rfl
  refine .cons ⟨fun _ _ h => (by cases h), fun _ h => by cases h⟩ hcall
    (.single ⟨fun _ _ h => (by cases h), fun u hu => ?_⟩ (step_run hsys hdrew hnamed))
  obtain rfl : t = u := Action.run.inj (LifeAct.act.inj hu)
  refine ⟨fun k' hk => ?_, fun src p a w hc => ?_⟩
  · rw [hth, hdraws] at hk
    obtain rfl := Option.some_inj.mp hk
    exact ⟨hunused, hlimit⟩
  · rw [hth] at hc
    rw [hc] at hdraws
    cases hdraws

/-- The rest of an `insert` of an absent key. -/
theorem run_insert_rest {x : Life cfg} {tid : Fin 64} {p : PairT}
    (hth : x.sys.threads t = .insertVersioned tid p) (hs : x.sys.store.log.Slotted)
    (hroom : x.sys.store.log.Room tid p.key) (hdb : x.sys.store.db p.key = none) :
    Run step InOrder x (List.replicate 3 (.act (.run t)))
      ⟨x.sys.next t ⟨(x.sys.store.log.afterAlloc (cfg.logFor tid p.key) PairT.size).write
          (x.sys.store.log.nextSlot (cfg.logFor tid p.key)) p,
        Function.update x.sys.store.db p.key
          (some (x.sys.store.log.nextSlot (cfg.logFor tid p.key)).word)⟩
        (.returning none (.insert p.key p.value) (.bool true)),
      x.found, x.clock + 3, x.drew, Function.update x.named p.key (x.drew t)⟩ := by
  obtain ⟨sys, found, clock, drew, named⟩ := x
  dsimp only at hth hs hroom hdb ⊢
  set l := cfg.logFor tid p.key with hl
  set σ := sys.store.log.nextSlot l with hσ
  have hlog := hs.afterAlloc hroom
  have hnext := fun (store : Logdb cfg) (pc : Pc cfg) => Sys.next_threads_self sys t store pc
  have halloc := Sys.runThread_insertVersioned (s := sys) (t := t) hs hroom
  rw [Sys.next_self hth] at halloc
  have hinsert : ∀ w, sys.store.db.insert p.key w =
      (true, Function.update sys.store.db p.key (some w)) := by
    intro w
    simp only [Index.insert, hdb]
  refine .cons (inOrder_run hth rfl fun _ _ _ _ h => by cases h)
    (step_run (d := drew) (n := named) halloc (by simp only [drewAfter, hth]; rfl) (by simp only [namedAfter, hth])) ?_
  refine .cons (inOrder_run (hnext _ _) rfl fun _ _ _ _ h => by cases h)
    (step_run (d := drew) (n := named)
      (Sys.runThread_insertAllocated (by exact hlog) (by exact hs.nextSlot_live))
      (by simp only [drewAfter, hnext]; rfl) (by simp only [namedAfter, hnext])) ?_
  refine .single (inOrder_run (hnext _ _) rfl fun _ _ _ _ h => by cases h) ?_
  refine (step_run (d := drew) (n := Function.update named p.key (drew t))
    Sys.runThread_insertStored (by simp only [drewAfter, hnext]; rfl)
    (by simp only [namedAfter, hnext, Sys.next_store, hdb]; rfl)).trans ?_
  simp only [hinsert]
  rfl

/-- The rest of an `update` of a key that a call has entered that drew before. -/
theorem run_update_rest {x : Life cfg} {tid : Fin 64} {p : PairT} {w : UInt64}
    (hth : x.sys.threads t = .updateVersioned none tid p) (hs : x.sys.store.log.Slotted)
    (hroom : x.sys.store.log.Room tid p.key) (hdb : x.sys.store.db p.key = some w)
    (hlt : x.named p.key < x.drew t) :
    Run step InOrder x (List.replicate 3 (.act (.run t)))
      ⟨x.sys.next t ⟨(x.sys.store.log.afterAlloc (cfg.logFor tid p.key) PairT.size).write
          (x.sys.store.log.nextSlot (cfg.logFor tid p.key)) (p.setLastLogOffest w),
        Function.update x.sys.store.db p.key
          (some (x.sys.store.log.nextSlot (cfg.logFor tid p.key)).word)⟩
        (.returning none (.update p.key p.value) (.bool true)),
      x.found, x.clock + 3, x.drew, Function.update x.named p.key (x.drew t)⟩ := by
  obtain ⟨sys, found, clock, drew, named⟩ := x
  dsimp only at hth hs hroom hdb hlt ⊢
  set l := cfg.logFor tid p.key with hl
  set σ := sys.store.log.nextSlot l with hσ
  have hlog := hs.afterAlloc hroom
  have hnext := fun (store : Logdb cfg) (pc : Pc cfg) => Sys.next_threads_self sys t store pc
  have halloc : (sys.next t sys.store (.updateVersioned none tid p)).runThread t = _ :=
    Sys.runThread_updateVersioned hs hroom
  rw [Sys.next_self hth] at halloc
  refine .cons (inOrder_run hth rfl fun _ _ _ _ h => by cases h)
    (step_run (d := drew) (n := named) halloc (by simp only [drewAfter, hth]; rfl) (by simp only [namedAfter, hth])) ?_
  refine .cons ⟨fun _ _ h => (by cases h), fun u hu => ?_⟩
    (step_run (d := drew) (n := Function.update named p.key (drew t))
      (Sys.runThread_updateAllocated_of_some (by exact hdb))
      (by simp only [drewAfter, hnext]; rfl)
      (by simp only [namedAfter, hnext, Sys.next_store, hdb]; rfl)) ?_
  · -- the exchange
    obtain rfl : t = u := Action.run.inj (LifeAct.act.inj hu)
    refine ⟨fun k hk => ?_, fun src q a w' hc _ => ?_⟩
    · rw [hnext] at hk
      cases hk
    · rw [hnext] at hc
      obtain ⟨-, rfl, -, -⟩ := Pc.updateAllocated.inj hc
      exact hlt
  · exact .single (inOrder_run (hnext _ _) rfl fun _ _ _ _ h => by cases h)
      (step_run (d := drew) (n := Function.update named p.key (drew t))
        (Sys.runThread_updatePublished (by exact hlog) (by exact hs.nextSlot_live))
        (by simp only [drewAfter, hnext]; rfl) (by simp only [namedAfter, hnext]))

/-- Two idle threads update a present key; the second one makes its whole call after the
first has drawn its version. Then the record of the first links to that of the second. -/
theorem exists_overtaken {s : Sys cfg} (hs : s.store.log.Slotted) (h₀ : s.threads 0 = .idle)
    (h₁ : s.threads 1 = .idle) {tid : Fin 64} {k w : UInt64} (hdb : s.store.db k = some w)
    (hroom : s.store.log.used (cfg.logFor tid k) + 1 < logCapacity) (v v' : UInt64) :
    ∃ (as : List (Action cfg)) (t : Sys cfg) (σ τ : Slot cfg),
      Run Sys.step (fun _ _ => True) s as t ∧ σ.log.hash = τ.log.hash ∧
      t.store.log.recAt σ = .updateRec (s.store.log.versionFor k) k v τ.word ∧
      t.store.log.recAt τ = .updateRec (s.store.log.versionFor k + 1) k v' w := by
  set l := cfg.logFor tid k with hl
  -- thread 0 draws its version
  set p := PairT.updateRec (s.store.log.versionFor k) k v uint64Max with hp
  set store : Logdb cfg := ⟨s.store.log.bump (cfg.xxh3 k), s.store.db⟩ with hstore
  set s₁ := s.next 0 store (.updateVersioned none tid p) with hs₁
  have hcall : s.step (.call 0 ⟨tid, .update k v⟩) =
      .ok (s.next 0 s.store (.updateStart none tid k v)) := by
    simp only [Sys.step, h₀]
    rfl
  have hrun₁ : Run Sys.step (fun _ _ => True) s [.call 0 ⟨tid, .update k v⟩, .run 0] s₁ :=
    .cons trivial hcall (.single trivial (Sys.step_run Sys.runThread_updateStart))
  -- thread 1 makes its update
  have hslot : store.log.Slotted := hs.bump
  have hroom₁ : store.log.Room tid k := lt_of_le_of_lt (Nat.le_succ _) hroom
  set τ := store.log.nextSlot l with hτ
  set r := PairT.updateRec (store.log.versionFor k) k v' w with hr
  set store' : Logdb cfg := ⟨store.log.append tid k r, Function.update store.db k (some τ.word)⟩
    with hstore'
  have hupdate : s₁.store.step ⟨tid, .update k v'⟩ = .ok (.bool true, store') := by
    have heq : store.update tid k v' = .ok (true, store') :=
      (Logdb.update_eq_of_some hslot v' hdb).trans (if_pos hroom₁)
    rw [hs₁, Sys.next_store]
    simp only [Logdb.step, heq]
    rfl
  have hidle : s₁.threads 1 = .idle := by
    rw [hs₁, Sys.next_threads_of_ne _ _ _ (by decide), h₁]
  have hrun₂ := (Sys.run_alone (t := 1) hidle hslot hupdate).mono (D := fun _ _ => True)
    fun _ _ _ => trivial
  set s₂ : Sys cfg := { s₁ with
    store := store', returns := s₁.returns ++ [(.update k v', .bool true)] } with hs₂
  -- thread 0 goes on
  have hslot' : store'.log.Slotted := hslot.append hroom₁
  have hused : store'.log.used l = s.store.log.used l + 1 := by
    rw [hstore', LogKV.used_append hslot, Function.update_self, hstore, LogKV.used_bump]
  have hroom₂ : store'.log.Room tid k := lt_of_eq_of_lt hused hroom
  set σ := store'.log.nextSlot l with hσ
  have hdb' : store'.db k = some τ.word := Function.update_self ..
  have hth : s₂.threads 0 = .updateVersioned none tid p := by
    have hself := s.next_threads_self 0 store (.updateVersioned none tid p)
    exact hself
  have hrun₃ : Run Sys.step (fun _ _ => True) s₂ [.run 0, .run 0, .run 0]
      (s₂.next 0 ⟨(store'.log.afterAlloc l PairT.size).write σ (p.setLastLogOffest τ.word),
        Function.update store'.db k (some σ.word)⟩
        (.returning none (.update k v) (.bool true))) := by
    rw [← Sys.next_self hth]
    refine .cons trivial (Sys.step_run
      (Sys.runThread_updateVersioned (by exact hslot') (by exact hroom₂))) ?_
    refine .cons trivial (Sys.step_run (Sys.runThread_updateAllocated_of_some (by exact hdb'))) ?_
    rw [Sys.next_self hth]
    exact .single trivial (Sys.step_run (Sys.runThread_updatePublished
      (by exact hslot'.afterAlloc hroom₂) (by exact hslot'.nextSlot_live)))
  refine ⟨_, _, σ, τ, hrun₁.append (hrun₂.append hrun₃), rfl, ?_, ?_⟩
  · rw [Sys.next_store, LogKV.recAt_write, Function.update_self]
    rfl
  · have hne : τ ≠ σ := by
      intro heq
      have hpos : store.log.used l = store'.log.used l := congrArg Slot.pos heq
      rw [hused, hstore, LogKV.used_bump] at hpos
      omega
    rw [Sys.next_store, LogKV.recAt_write, Function.update_of_ne hne, hslot'.recAt_afterAlloc,
      hstore', LogKV.recAt_append_self hslot, hr, hstore, LogKV.versionFor_bump]


/-- Two idle threads update a present key; both draw their versions before either goes on,
and they exchange in the order of their draws. -/
theorem exists_overlapping {x : Life cfg} (hs : x.sys.store.log.Slotted)
    (h₀ : x.sys.threads 0 = .idle) (h₁ : x.sys.threads 1 = .idle) (tid : Fin 64) {k w : UInt64}
    (hdb : x.sys.store.db k = some w)
    (hroom : x.sys.store.log.used (cfg.logFor tid k) + 1 < logCapacity)
    (hunused : x.Unused (cfg.shard k)) (hlimit : x.sys.store.log.versionFor k + 2 < 2 ^ 62)
    (hnamed : x.named k ≤ x.clock) (v v' : UInt64) :
    ∃ (as : List (LifeAct cfg)) (y : Life cfg) (σ τ : Slot cfg), Run step InOrder x as y ∧
      y.sys.store.log.Slotted ∧ y.sys.store.log.recAt σ =
        .updateRec (x.sys.store.log.versionFor k) k v w ∧
      y.sys.store.log.recAt τ =
        .updateRec (x.sys.store.log.versionFor k + 1) k v' σ.word ∧
      ∀ ρ, ρ.log ≠ cfg.logFor tid k → y.sys.store.log.recAt ρ = x.sys.store.log.recAt ρ := by
  set l := cfg.logFor tid k with hl
  set log := x.sys.store.log with hlog
  -- both draw
  have hrun₁ := run_draw (t := 0) (c := ⟨tid, .update k v⟩) h₀ rfl hunused
    (by exact lt_trans (Nat.lt_succ_self _) hlimit) Sys.runThread_updateStart
  set p := PairT.updateRec (log.versionFor k) k v uint64Max with hp
  set y₁ : Life cfg := ⟨x.sys.next 0 ⟨log.bump (cfg.xxh3 k), x.sys.store.db⟩
    (.updateVersioned none tid p), x.found, x.clock + 2, Function.update x.drew 0 (x.clock + 1),
    x.named⟩ with hy₁
  have hver : (log.bump (cfg.xxh3 k)).versionFor k = log.versionFor k + 1 := log.versionFor_bump k
  have hidle : y₁.sys.threads 1 = .idle := by
    rw [hy₁, Sys.next_threads_of_ne _ _ _ (by decide), h₁]
  have hrun₂ := run_draw (x := y₁) (t := 1) (c := ⟨tid, .update k v'⟩) (k := k) hidle rfl hunused
    (lt_of_eq_of_lt (congrArg Nat.succ hver) hlimit) Sys.runThread_updateStart
  set p' := PairT.updateRec ((log.bump (cfg.xxh3 k)).versionFor k) k v' uint64Max with hp'
  set log₂ := (log.bump (cfg.xxh3 k)).bump (cfg.xxh3 k) with hlog₂
  set y₂ : Life cfg := ⟨y₁.sys.next 1 ⟨log₂, x.sys.store.db⟩ (.updateVersioned none tid p'),
    x.found, x.clock + 4, Function.update y₁.drew 1 (x.clock + 3), x.named⟩ with hy₂
  -- thread 0 goes on
  have hs₂ : log₂.Slotted := hs.bump.bump
  have hroom₂ : log₂.Room tid k := lt_of_le_of_lt (Nat.le_succ _) hroom
  have hth : y₂.sys.threads 0 = .updateVersioned none tid p := by
    rw [hy₂, Sys.next_threads_of_ne _ _ _ (by decide), hy₁, Sys.next_threads_self]
  have hdrew : y₂.drew 0 = x.clock + 1 := by
    simp only [hy₂, hy₁, Function.update_of_ne (show (0 : ℕ) ≠ 1 by decide), Function.update_self]
  have hrun₃ := run_update_rest (x := y₂) (p := p) hth hs₂ hroom₂ hdb
    (hdrew.symm ▸ Nat.lt_succ_of_le hnamed)
  set σ := log₂.nextSlot l with hσ
  set log₃ := (log₂.afterAlloc l PairT.size).write σ (p.setLastLogOffest w) with hlog₃
  set y₃ : Life cfg := ⟨y₂.sys.next 0 ⟨log₃, Function.update x.sys.store.db k (some σ.word)⟩
    (.returning none (.update k v) (.bool true)), x.found, x.clock + 7, y₂.drew,
    Function.update x.named k (y₂.drew 0)⟩ with hy₃
  -- thread 1 goes on
  have hs₃ : log₃.Slotted := (hs₂.afterAlloc hroom₂).write hs₂.nextSlot_live
  have hused₃ : log₃.used l = log.used l + 1 := by
    rw [hlog₃, LogKV.used_write, hs₂.used_afterAlloc, Function.update_self]
    rfl
  have hroom₃ : log₃.Room tid k := lt_of_eq_of_lt hused₃ hroom
  have hth₃ : y₃.sys.threads 1 = .updateVersioned none tid p' := by
    rw [hy₃, Sys.next_threads_of_ne _ _ _ (by decide), hy₂, Sys.next_threads_self]
  have hdb₃ : y₃.sys.store.db k = some σ.word := Function.update_self ..
  have hlt₃ : y₃.named k < y₃.drew 1 := by
    have hnamed₃ : y₃.named k = x.clock + 1 := (Function.update_self ..).trans hdrew
    have hdrew₃ : Function.update y₁.drew 1 (x.clock + 3) 1 = x.clock + 3 :=
      Function.update_self ..
    rw [hnamed₃]
    refine lt_of_lt_of_eq ?_ hdrew₃.symm
    omega
  have hrun₄ := run_update_rest (x := y₃) (p := p') hth₃ hs₃ hroom₃ hdb₃ hlt₃
  set τ := log₃.nextSlot l with hτ
  have hne : σ ≠ τ := by
    intro heq
    have hpos : log.used l = log₃.used l := congrArg Slot.pos heq
    omega
  set log₄ := (log₃.afterAlloc l PairT.size).write τ (p'.setLastLogOffest σ.word) with hlog₄
  have hrec : log₄.recAt = Function.update
      (Function.update log.recAt σ (p.setLastLogOffest w)) τ (p'.setLastLogOffest σ.word) := by
    rw [hlog₄, LogKV.recAt_write, hs₃.recAt_afterAlloc, hlog₃, LogKV.recAt_write,
      hs₂.recAt_afterAlloc]
    rfl
  refine ⟨_, ⟨y₃.sys.next 1 ⟨log₄, Function.update y₃.sys.store.db k (some τ.word)⟩
    (.returning none (.update k v') (.bool true)), x.found, x.clock + 10, y₃.drew,
    Function.update y₃.named k (y₃.drew 1)⟩, σ, τ,
    hrun₁.append (hrun₂.append (hrun₃.append hrun₄)),
    (hs₃.afterAlloc hroom₃).write hs₃.nextSlot_live, ?_, ?_, fun ρ hρ => ?_⟩
  · change log₄.recAt σ = _
    rw [hrec, Function.update_of_ne hne, Function.update_self]
    rfl
  · change log₄.recAt τ = _
    rw [hrec, Function.update_self, hp', hver]
    rfl
  · have hρσ : ρ ≠ σ := fun h => hρ (congrArg Slot.log h)
    have hρτ : ρ ≠ τ := fun h => hρ (congrArg Slot.log h)
    change log₄.recAt ρ = _
    rw [hrec, Function.update_of_ne hρτ, Function.update_of_ne hρσ]

/-- An insert, two updates whose steps overlap, a restart, and a draw in the other shard. -/
theorem versions_ordered_overlapping :
    ∃ (as : List (LifeAct twoShards)) (dir : Fin numaNodeNum → List (PageId twoShards))
      (t : Life twoShards) (σ τ : Slot twoShards) (w : UInt64),
      Run step InOrder (fresh twoShards)
        (as ++ [.restart dir 1, .act (.call 0 ⟨0, .insert 5 1⟩), .act (.run 0)]) t ∧
      t.sys.store.log.recAt σ = .updateRec 1 4 2 w ∧
      t.sys.store.log.recAt τ = .updateRec 2 4 3 σ.word ∧
      t.sys.store.log.versionFor 5 = 1 ∧ t.sys.store.log.VersionsOrdered := by
  set l := twoShards.logFor 0 4 with hl
  set log := (LogKV.fresh twoShards) with hlog
  have hs : log.Slotted := LogKV.slotted_fresh twoShards
  have hused : log.used l = 0 := LogKV.used_fresh _
  have hunused : ∀ h, (fresh twoShards).Unused h := fun _ _ _ => rfl
  -- thread 2 inserts the key
  set p := PairT.insertRec 0 4 1 with hp
  have hrun₁ := run_draw (x := fresh twoShards) (t := 2) (c := ⟨0, .insert 4 1⟩) (k := 4) rfl rfl
    (hunused _) (by decide) Sys.runThread_insertStart
  set x₁ : Life twoShards := ⟨(fresh twoShards).sys.next 2
    ⟨log.bump (twoShards.xxh3 4), fun _ => none⟩ (.insertVersioned 0 p), fun _ => PairT.blank, 3,
    Function.update (fun _ => 0) 2 2, fun _ => 0⟩ with hx₁
  have hroom₁ : x₁.sys.store.log.Room 0 p.key := lt_of_eq_of_lt hused (by decide)
  have hrun₂ := run_insert_rest (x := x₁) (t := 2) (p := p) (Sys.next_threads_self ..) hs.bump
    hroom₁ rfl
  set log₂ := (((log.bump (twoShards.xxh3 4)).afterAlloc l PairT.size).write (log.nextSlot l) p)
    with hlog₂
  set x₂ : Life twoShards := ⟨x₁.sys.next 2
    ⟨log₂, Function.update (fun _ => none) 4 (some (log.nextSlot l).word)⟩
    (.returning none (.insert 4 1) (.bool true)), fun _ => PairT.blank, 6,
    Function.update (fun _ => 0) 2 2, Function.update (fun _ => 0) 4 2⟩ with hx₂
  have hs₂ : log₂.Slotted := (hs.bump.afterAlloc hroom₁).write hs.bump.nextSlot_live
  have hused₂ : log₂.used l = 1 := by
    rw [hlog₂, LogKV.used_write, hs.bump.used_afterAlloc, Function.update_self, LogKV.used_bump,
      hused]
  -- threads 0 and 1 update it
  have hver₂ : log₂.versionFor 4 = 1 := log.versionFor_bump 4
  obtain ⟨as, y, σ, τ, hrun₃, hs₃, hσ, hτ, hother⟩ := exists_overlapping (x := x₂)
    (k := 4) hs₂ rfl rfl 0 rfl (lt_of_eq_of_lt (congrArg Nat.succ hused₂) (by decide)) (hunused _)
    (lt_of_eq_of_lt (congrArg (· + 2) hver₂) (by decide)) (by decide) 2 3
  rw [show x₂.sys.store.log.versionFor 4 = 1 from hver₂] at hσ hτ
  -- the restart finds no record in the shard of key 5
  obtain ⟨dir, hdir⟩ := hs₃.wf.exists_lists
  obtain ⟨store, hrec, hswept⟩ := Logdb.recover_swept hs₃.handing.file_lt hdir Nat.one_pos
  have hvolatile := Logdb.recover_restarted hrec
  set z : Life twoShards :=
    ⟨.ofStore store, y.sys.store.log.recAt, 1, fun _ => 0, fun _ => 0⟩ with hz
  have hrestart : Run step InOrder y [.restart dir 1] z := by
    refine .single ⟨fun dir' n h => ?_, fun _ h => by cases h⟩ ?_
    · obtain ⟨rfl, rfl⟩ := LifeAct.restart.inj h
      exact ⟨hdir, Nat.one_pos⟩
    · simp only [step, hrec]
      rfl
  have hblank : z.Unused (twoShards.shard 5) := by
    intro ρ hρ
    have hne : ρ.log ≠ l := fun h => absurd (hρ.symm.trans (congrArg LogId.hash h)) (by decide)
    have hρl : ρ ≠ log.nextSlot l := fun h => hne (congrArg Slot.log h)
    have hρ₂ : log₂.recAt ρ = PairT.blank := by
      rw [hlog₂, LogKV.recAt_write, Function.update_of_ne hρl, hs.bump.recAt_afterAlloc]
      exact LogKV.recAt_fresh ρ
    change (y.sys.store.log.recAt ρ).op = .trash
    rw [hother ρ hne, show x₂.sys.store.log.recAt ρ = PairT.blank from hρ₂]
    rfl
  have hzero : store.log.versionFor 5 = 0 := congrFun hvolatile.version _
  have hrun₄ := run_draw (x := z) (t := 0) (c := ⟨0, .insert 5 1⟩) (k := 5) rfl rfl hblank
    (lt_of_eq_of_lt (congrArg Nat.succ hzero) (by decide)) Sys.runThread_insertStart
  have hrecAt : store.log.recAt = y.sys.store.log.recAt := LogKV.recAt_congr hswept.files
  have hrun := (hrun₁.append (hrun₂.append hrun₃)).append (hrestart.append hrun₄)
  refine ⟨_, dir, _, σ, τ, (log.nextSlot l).word, hrun, ?_, ?_, ?_,
    versions_ordered twoShards hrun⟩
  · exact (congrFun hrecAt σ).trans hσ
  · exact (congrFun hrecAt τ).trans hτ
  · exact (store.log.versionFor_bump 5).trans (congrArg Nat.succ hzero)

/-- Thread 0 draws a version for its update of key 5; thread 1 makes a whole update of key 5
before thread 0 goes on. The record of thread 0 supersedes one with a higher version. -/
theorem overtaken_update_supersedes_newer :
    ¬ ∀ (cfg : Config) (as : List (LifeAct cfg)) (t : Life cfg),
      Run step Listed (fresh cfg) as t → t.sys.store.log.VersionsOrdered := by
  intro hall
  obtain ⟨as, s, ρ, hrun, hs, hidle, hdb, -, -, -, hused, hversion⟩ :=
    Sys.exists_first_insert oneShard 2 0 5 1
  obtain ⟨as', t, σ, τ, hrun', hhash, hσ, hτ⟩ := exists_overtaken hs (by rw [hidle])
    (by rw [hidle]) hdb (lt_of_eq_of_lt (congrArg Nat.succ hused) (by decide)) 2 3
  obtain ⟨y, hy, rfl⟩ := exists_run_act (hrun.append hrun') (fresh oneShard) rfl
  have hlink := (hall oneShard _ y hy σ.log.hash).link σ τ rfl hhash.symm
  rw [hσ, hτ, hversion] at hlink
  -- thread 0 has drawn version 1, thread 1 version 2
  have hlt : BitVec.ofNat 62 3 < BitVec.ofNat 62 2 :=
    hlink (by simp [PairT.updateRec]) (by simp [PairT.updateRec]) rfl
  exact absurd hlt (by decide)

end Life

end NaliStore
