import NaliStore.Refine
import NaliStore.Clht

/-!
# The read cache

`logdb` with `USE_CACHE` and `USE_CLHT_CACHE`: `search` asks the CLHT table first, takes
a non-zero answer as the payload, and on every fourth call of its thread that reaches
the log puts the payload it read into the table. `insert`, `update` and `erase` do not
touch the table, and `clht_put` never replaces an entry, so an entry outlives the
mapping it was read from.

The cache is coherent in every run in which no such entry is left behind: `update(k, v)`
is called only when the cache shows nothing or `v` already for `k`, and `erase(k)` only
when it shows nothing.
-/

namespace NaliStore

open Runs

variable {cfg : Config}

/-- `CACHE_SAMPLE` -/
def cacheSample : ℕ := 4

/-- `CLHT_NUM_BUCKETS` -/
def clhtNumBuckets : ℕ := 1024 * 1024 * 4

/-- `logdb` with its cache. -/
structure CachedDb (cfg : Config) where
  /-- the store below the cache -/
  base : Logdb cfg
  /-- `clht_cache_` -/
  clht : Clht
  /-- `get_cnt`, one for each thread -/
  getCnt : Fin 64 → ℕ

namespace CachedDb

variable (env : ClhtEnv)

/-- The constructor over an empty directory. -/
def fresh (cfg : Config) : CachedDb cfg :=
  ⟨Logdb.fresh cfg, Clht.create (clhtNumBuckets - 1), fun _ => 0⟩

/-- `get_cnt++` -/
def countGet (s : CachedDb cfg) (threadId : Fin 64) : CachedDb cfg :=
  { s with getCnt := Function.update s.getCnt threadId ((s.getCnt threadId + 1) % 2 ^ 64) }

theorem getCnt_countGet (s : CachedDb cfg) (threadId : Fin 64) :
    (s.countGet threadId).getCnt threadId = (s.getCnt threadId + 1) % 2 ^ 64 :=
  Function.update_self ..

/-- `logdb::search` -/
def search (s : CachedDb cfg) (threadId : Fin 64) (key : UInt64) :
    Except Fault (Option UInt64 × CachedDb cfg) :=
  let s := s.countGet threadId
  let payload := s.clht.get key
  if payload ≠ 0 then pure (some payload, s)
  else do
    match ← s.base.search key with
    | none => pure (none, s)
    | some payload =>
      if s.getCnt threadId % cacheSample = 0 then
        pure (some payload, { s with clht := s.clht.put env key payload })
      else pure (some payload, s)

/-- One call; the writes go past the cache. -/
def step (s : CachedDb cfg) (c : Call) : Except Fault (CachedDb cfg) :=
  match c.op with
  | .search k => do
    let (_, s) ← s.search env c.threadId k
    pure s
  | _ => do
    let (_, base) ← s.base.step c
    pure { s with base }

/-- A search through the cache, by any thread, returns what the path below it returns. -/
def Coherent (s : CachedDb cfg) (k : UInt64) : Prop :=
  ∀ threadId, (s.search env threadId k).map Prod.fst = s.base.search k

/-- No entry is left behind: the cache shows nothing, or already what the call writes. -/
def Fresh (s : CachedDb cfg) (c : Call) : Prop :=
  match c.op with
  | .update k v => s.clht.get k = 0 ∨ s.clht.get k = v
  | .erase k => s.clht.get k = 0
  | _ => True

variable {env} {s : CachedDb cfg}

/-- A search, when the store below is in order. -/
theorem search_eq (h : s.base.Inv) (threadId : Fin 64) (k : UInt64) :
    s.search env threadId k =
      .ok (if s.clht.get k ≠ 0 then (some (s.clht.get k), s.countGet threadId)
        else match s.base.abs k with
        | none => (none, s.countGet threadId)
        | some payload =>
          (some payload,
            if (s.countGet threadId).getCnt threadId % cacheSample = 0 then
              { s.countGet threadId with clht := s.clht.put env k payload }
            else s.countGet threadId)) := by
  have hget : (s.countGet threadId).clht = s.clht := rfl
  have hbase : (s.countGet threadId).base = s.base := rfl
  simp only [search, hget, hbase, h.search_eq]
  split
  · rfl
  · simp only [bind, Except.bind]
    cases s.base.abs k with
    | none => rfl
    | some payload =>
      simp only
      split <;> rfl

/-- Coherence at a key, in terms of the entry the cache shows. -/
theorem coherent_iff (h : s.base.Inv) (k : UInt64) :
    s.Coherent env k ↔ (s.clht.get k ≠ 0 → s.base.abs k = some (s.clht.get k)) := by
  have hres : ∀ threadId, (s.search env threadId k).map Prod.fst =
      .ok (if s.clht.get k ≠ 0 then some (s.clht.get k) else s.base.abs k) := by
    intro threadId
    rw [search_eq h]
    split
    · rfl
    · cases s.base.abs k <;> rfl
  simp only [Coherent, hres, h.search_eq]
  constructor
  · intro hco hne
    have := Except.ok.inj (hco 0)
    rw [if_pos hne] at this
    exact this.symm
  · intro himp threadId
    split
    · rw [himp ‹_›]
    · rfl

/-- The invariant of a run that leaves no entry behind. -/
structure Inv (env : ClhtEnv) (s : CachedDb cfg) : Prop where
  /-- the store below the cache is in order -/
  base : s.base.Inv
  /-- so is the table -/
  clht : s.clht.Inv env
  /-- what the cache shows is what the store holds -/
  shows : ∀ k, (k ≠ 0 ∨ ∀ t, env.memalign t = (0, 0)) → s.clht.get k ≠ 0 →
    s.base.abs k = some (s.clht.get k)

theorem inv_fresh (env : ClhtEnv) (cfg : Config) : (fresh cfg).Inv env where
  base := Logdb.inv_fresh cfg
  clht := Clht.inv_create env _
  shows k _ hne := by
    have hget := Clht.get_create (clhtNumBuckets - 1) k
    exact absurd hget hne

/-- A write whose call leaves no entry behind keeps the invariant. -/
theorem Inv.write (h : s.Inv env) {c : Call} {r : Ret} {base : Logdb cfg}
    (hC : s.Fresh c) (hstep : s.base.step c = .ok (r, base)) :
    Inv env { s with base } := by
  have hroom := Logdb.callRoom_of_step h.base.slotted hstep
  obtain ⟨base', hok, hinv, habs, -⟩ := Logdb.step_refines h.base hroom
  rw [hstep] at hok
  obtain ⟨-, rfl⟩ := Prod.mk.inj (Except.ok.inj hok)
  refine ⟨hinv, h.clht, fun k' hk' hne => ?_⟩
  have hold := h.shows k' hk' hne
  simp only [habs]
  obtain ⟨tid, op⟩ := c
  cases op with
  | insert k v =>
    simp only [mapStep]
    split
    · rename_i hnone
      by_cases hkk : k' = k
      · rw [← hkk, hold] at hnone
        cases hnone
      · simpa only [Function.update_of_ne hkk] using hold
    · exact hold
  | update k v =>
    simp only [mapStep]
    split
    · by_cases hkk : k' = k
      · subst hkk
        rcases hC with hzero | hsame
        · exact absurd hzero hne
        · simp only [Function.update_self, hsame]
      · simpa only [Function.update_of_ne hkk] using hold
    · exact hold
  | erase k =>
    by_cases hkk : k' = k
    · subst hkk
      exact absurd hC hne
    · simpa only [mapStep, Function.update_of_ne hkk] using hold
  | search k => exact hold

/-- **Every call that leaves no entry behind keeps the invariant.** -/
theorem step_inv (h : s.Inv env) {c : Call} {t : CachedDb cfg} (hC : s.Fresh c)
    (hstep : s.step env c = .ok t) : t.Inv env := by
  obtain ⟨tid, op⟩ := c
  cases op with
  | insert k v =>
    obtain ⟨⟨r, base⟩, hst, ht⟩ := bind_eq_ok hstep
    obtain rfl := Except.ok.inj ht
    exact h.write hC hst
  | update k v =>
    obtain ⟨⟨r, base⟩, hst, ht⟩ := bind_eq_ok hstep
    obtain rfl := Except.ok.inj ht
    exact h.write hC hst
  | erase k =>
    obtain ⟨⟨r, base⟩, hst, ht⟩ := bind_eq_ok hstep
    obtain rfl := Except.ok.inj ht
    exact h.write hC hst
  | search k =>
    obtain ⟨⟨r, s'⟩, hst, ht⟩ := bind_eq_ok hstep
    obtain rfl := Except.ok.inj ht
    have hcount : (s.countGet tid).Inv env := ⟨h.base, h.clht, h.shows⟩
    rw [search_eq h.base] at hst
    split at hst
    · obtain ⟨-, rfl⟩ := Prod.mk.inj (Except.ok.inj hst)
      exact hcount
    · cases habs : s.base.abs k with
      | none =>
        rw [habs] at hst
        obtain ⟨-, rfl⟩ := Prod.mk.inj (Except.ok.inj hst)
        exact hcount
      | some payload =>
        rw [habs] at hst
        obtain ⟨-, rfl⟩ := Prod.mk.inj (Except.ok.inj hst)
        split
        · -- the sampled call: the entry it puts is what the store holds
          obtain ⟨hclht, hget⟩ := h.clht.put k payload
          refine ⟨h.base, hclht, fun k' hk' hne => ?_⟩
          simp only at hne ⊢
          rcases hget k' hk' with heq | hzero | ⟨rfl, heq⟩
          · rw [heq] at hne ⊢
            exact h.shows k' hk' hne
          · exact absurd hzero hne
          · rw [heq]
            exact habs
        · exact hcount

/-- **The cache is coherent while no entry is left behind.** In every state reached by
calls of which each `update(k, v)` finds the cache showing nothing or `v` for `k`, and
each `erase(k)` finds it showing nothing, a search of any key returns what the path
below the cache returns; for key 0, which marks empty slots, the memory of chained
buckets has to read as zero. -/
theorem search_coherent (env : ClhtEnv) (cfg : Config) {cs : List Call} {t : CachedDb cfg}
    (hrun : Run (step env) Fresh (fresh cfg) cs t) (k : UInt64)
    (hk : k ≠ 0 ∨ ∀ h, env.memalign h = (0, 0)) : t.Coherent env k := by
  have hinv : t.Inv env :=
    hrun.invariant (I := Inv env) (fun _ _ _ h hC hst => step_inv h hC hst)
      (inv_fresh env cfg)
  exact (coherent_iff hinv.base k).mpr (hinv.shows k hk)

/-- A search that misses: the payload comes from the log, and every fourth is put. -/
theorem step_search_of_miss (h : s.base.Inv) {threadId : Fin 64} {k payload : UInt64}
    (hget : s.clht.get k = 0) (habs : s.base.abs k = some payload) :
    s.step env ⟨threadId, .search k⟩ =
      .ok (if (s.countGet threadId).getCnt threadId % cacheSample = 0 then
        { s.countGet threadId with clht := s.clht.put env k payload }
      else s.countGet threadId) := by
  simp only [step, search_eq h, if_neg (not_not.mpr hget), habs]
  rfl

/-- An update of a present key that finds another payload in the cache breaks coherence. -/
theorem update_stale_breaks {t : CachedDb cfg} {threadId : Fin 64} {k v : UInt64}
    (h : s.base.Inv) (hpresent : (s.base.abs k).isSome) (hzero : s.clht.get k ≠ 0)
    (hne : s.clht.get k ≠ v) (hstep : s.step env ⟨threadId, .update k v⟩ = .ok t) :
    ¬ t.Coherent env k := by
  obtain ⟨⟨r, base⟩, hst, ht⟩ := bind_eq_ok hstep
  obtain rfl := Except.ok.inj ht
  obtain ⟨base', hok, hinv, habs, -⟩ :=
    Logdb.step_refines h (Logdb.callRoom_of_step h.slotted hst)
  rw [hst] at hok
  obtain ⟨-, rfl⟩ := Prod.mk.inj (Except.ok.inj hok)
  rw [coherent_iff hinv]
  intro hco
  have hk := hco hzero
  simp only [habs, mapStep, if_pos hpresent, Function.update_self, Option.some_inj] at hk
  exact hne hk.symm

/-- Zeroed memory and a table that is never resized. -/
def calmEnv : ClhtEnv := ⟨fun _ => (0, 0), fun _ => []⟩

/-- An insert and four searches of one key by a thread: the fourth is sampled. -/
def sampled (threadId : Fin 64) : List Call :=
  ⟨threadId, .insert 5 1⟩ :: List.replicate 4 ⟨threadId, .search 5⟩

/-- The first three searches that miss leave the table alone. -/
theorem exists_miss (env : ClhtEnv) (threadId : Fin 64) {k payload : UInt64} (h : s.base.Inv)
    (hget : s.clht.get k = 0) (habs : s.base.abs k = some payload)
    (hcnt : s.getCnt threadId < 3) :
    ∃ t, s.step env ⟨threadId, .search k⟩ = .ok t ∧ t.base = s.base ∧ t.clht = s.clht ∧
      t.getCnt threadId = s.getCnt threadId + 1 := by
  have hcount : (s.countGet threadId).getCnt threadId = s.getCnt threadId + 1 := by
    rw [getCnt_countGet]
    exact Nat.mod_eq_of_lt (by omega)
  refine ⟨s.countGet threadId, ?_, rfl, rfl, hcount⟩
  rw [step_search_of_miss h hget habs, if_neg]
  rw [hcount, cacheSample]
  omega

theorem exists_misses (env : ClhtEnv) (threadId : Fin 64) {k payload : UInt64} (n : ℕ) :
    ∀ s : CachedDb cfg, s.base.Inv → s.clht.get k = 0 → s.base.abs k = some payload →
      s.getCnt threadId + n ≤ 3 →
      ∃ t, Run (step env) Fresh s (List.replicate n ⟨threadId, .search k⟩) t ∧ t.base = s.base ∧
        t.clht = s.clht ∧ t.getCnt threadId = s.getCnt threadId + n := by
  induction n with
  | zero => exact fun s _ _ _ _ => ⟨s, .nil s, rfl, rfl, rfl⟩
  | succ n ih =>
    intro s h hget habs hcnt
    obtain ⟨s₁, hstep, hbase, hclht, hnext⟩ := exists_miss env threadId h hget habs (by omega)
    obtain ⟨t, hrun, hbase', hclht', hlast⟩ :=
      ih s₁ (hbase ▸ h) (hclht ▸ hget) (hbase ▸ habs) (by omega)
    exact ⟨t, .cons trivial hstep hrun, hbase'.trans hbase, hclht'.trans hclht, by omega⟩

/-- The fourth puts the payload. -/
theorem exists_sampled_miss (env : ClhtEnv) (threadId : Fin 64) {k payload : UInt64}
    (h : s.base.Inv)
    (hget : s.clht.get k = 0) (habs : s.base.abs k = some payload)
    (hcnt : s.getCnt threadId = 3) :
    ∃ t, s.step env ⟨threadId, .search k⟩ = .ok t ∧ t.base = s.base ∧
      t.clht = s.clht.put env k payload := by
  refine ⟨_, step_search_of_miss h hget habs, ?_⟩
  rw [getCnt_countGet, hcnt, if_pos (by decide)]
  exact ⟨rfl, rfl⟩

/-- After `sampled` the cache shows the payload, and an update of the key returns. -/
theorem exists_sampled (v : UInt64) : ∃ s t : CachedDb oneShard,
    Run (step calmEnv) Fresh (fresh oneShard) (sampled 0) s ∧ s.base.Inv ∧
      s.base.abs 5 = some 1 ∧ s.clht.get 5 = 1 ∧ s.step calmEnv ⟨0, .update 5 v⟩ = .ok t := by
  have hused : ∀ l, (Logdb.fresh oneShard).log.used l = 0 := LogKV.used_fresh
  have hroom : (Logdb.fresh oneShard).CallRoom ⟨0, .insert 5 1⟩ := fun l _ => by
    rw [hused l]
    decide
  obtain ⟨base, hok, hinv, habs, hcount⟩ :=
    Logdb.step_refines (Logdb.inv_fresh oneShard) hroom
  have h5 : base.abs 5 = some 1 := by
    rw [habs]
    rfl
  have hroom' : base.CallRoom ⟨0, .update 5 v⟩ := by
    intro l _
    rw [hcount l, hused l, logCapacity]
    split <;> omega
  obtain ⟨base', hok', -⟩ := Logdb.step_refines hinv hroom'
  have hget := Clht.get_create (clhtNumBuckets - 1) 5
  obtain ⟨s₁, h₁, hb₁, hc₁, hn₁⟩ : ∃ t : CachedDb oneShard,
      (fresh oneShard).step calmEnv ⟨0, .insert 5 1⟩ = .ok t ∧ t.base = base ∧
        t.clht = Clht.create (clhtNumBuckets - 1) ∧ t.getCnt 0 = 0 := by
    refine ⟨{ fresh oneShard with base }, ?_, rfl, rfl, rfl⟩
    simp only [step, fresh, hok]
    rfl
  obtain ⟨s₂, hmisses, hb₂, hc₂, hn₂⟩ :=
    exists_misses calmEnv 0 3 s₁ (hb₁ ▸ hinv) (hc₁ ▸ hget) (hb₁ ▸ h5) (by omega)
  rw [hb₁] at hb₂
  rw [hc₁] at hc₂
  obtain ⟨s₃, h₃, hb₃, hc₃⟩ := exists_sampled_miss calmEnv 0 (s := s₂)
    (hb₂ ▸ hinv) (hc₂ ▸ hget) (hb₂ ▸ h5) (by omega)
  rw [hb₂] at hb₃
  rw [hc₂] at hc₃
  have hrun : Run (step calmEnv) Fresh (fresh oneShard) (sampled 0) s₃ :=
    .cons trivial h₁ (hmisses.append (.single trivial h₃))
  refine ⟨s₃, { s₃ with base := base' }, hrun, hb₃ ▸ hinv, hb₃ ▸ h5, ?_, ?_⟩
  · rw [hc₃, Clht.get_put_create _ (by decide)]
  · simp only [step, hb₃, hok']
    rfl

/-- An update that writes the payload the cache shows. -/
theorem search_coherent_same_payload :
    ∃ t : CachedDb oneShard,
      Run (step calmEnv) Fresh (fresh oneShard) (sampled 0 ++ [⟨0, .update 5 1⟩]) t ∧
        t.Coherent calmEnv 5 := by
  obtain ⟨s, t, hrun, -, -, hget, hstep⟩ := exists_sampled 1
  have hrun' : Run (step calmEnv) Fresh (fresh oneShard) (sampled 0 ++ [⟨0, .update 5 1⟩]) t :=
    hrun.append (.single (.inr hget) hstep)
  exact ⟨t, hrun', search_coherent calmEnv oneShard hrun' 5 (.inl (by decide))⟩

/-- Without the condition the cache goes stale: a sampled search, then an update. -/
theorem search_coherent_stale_entry :
    ¬ ∀ (env : ClhtEnv) (cfg : Config) (cs : List Call) (t : CachedDb cfg),
      Run (step env) (fun _ _ => True) (fresh cfg) cs t → ∀ k, t.Coherent env k := by
  intro h
  obtain ⟨s, t, hrun, hinv, habs, hget, hstep⟩ := exists_sampled 2
  have hrun' := (hrun.mono (D := fun _ _ => True) fun _ _ _ => trivial).append
    (.single trivial hstep)
  refine update_stale_breaks hinv (by rw [habs]; rfl) ?_ ?_ hstep (h _ _ _ t hrun' 5)
  · rw [hget]
    decide
  · rw [hget]
    decide

end CachedDb

end NaliStore
