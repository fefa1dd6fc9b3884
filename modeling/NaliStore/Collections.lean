import NaliStore.Collect

/-!
# Runs with collections in them

Calls and collections of any range of shards alternate, in any order and any number. The
invariant of `Tidy` goes through both phases of a collection: the first only sets records
to TRASH, and every record the second re-applies is an `update` of a key with a payload
that is in the log already.

So whatever is collected, and however often, the keys of the store are those of a finite map
under the calls alone, and what a search finds has been written for its key. It is the
payload last written as long as every collection is of all shards and `Settled`.
-/

namespace NaliStore

open Runs

variable {cfg : Config}

/-! ## Calls and collections -/

/-- What happens to a store. -/
inductive Act where
  /-- a call of the interface -/
  | call (c : Call)
  /-- `do_gc` over the shards from `beginPos` to `endPos` by collector `id` -/
  | collect (gcThreshold : ℚ) (id : Fin 48) (beginPos endPos : ℕ)

/-- What a result tells of the keys: whether a write went through, whether a search found
anything. -/
def Ret.told : Ret → Bool
  | .bool b => b
  | .found payload => payload.isSome

/-- A call on a finite map, or a collection, which leaves it alone. -/
def mapAct (m : UInt64 → Option UInt64) : Act → Option Ret × (UInt64 → Option UInt64)
  | .call c => (some (mapStep m c).1, (mapStep m c).2)
  | .collect .. => (none, m)

namespace Logdb

/-- One call or one collection. -/
def act (s : Logdb cfg) : Act → Except Fault (Option Ret × Logdb cfg)
  | .call c => do
    let (r, s) ← s.step c
    pure (some r, s)
  | .collect gcThreshold id beginPos endPos => do
    let s ← s.doGc gcThreshold id beginPos endPos
    pure (none, s)

/-- A call that erases is of a present key. -/
def Orderly (s : Logdb cfg) : Act → Prop
  | .call c => s.ErasesPresent c
  | .collect .. => True

/-- And a collection is of all shards and settled. -/
def OrderlySettled (s : Logdb cfg) : Act → Prop
  | .call c => s.ErasesPresent c
  | .collect gcThreshold id beginPos endPos =>
    beginPos = 0 ∧ endPos = cfg.shards ∧
      s.Settled gcThreshold (getNumaId (gcThreadId id)) s.log.Keeps s.log.freedBytes

/-- Inversion of an act that returns. -/
theorem act_cases {s t : Logdb cfg} {a : Act} {r : Option Ret} (h : s.act a = .ok (r, t)) :
    (∃ c r', a = .call c ∧ r = some r' ∧ s.step c = .ok (r', t)) ∨
      ∃ gcThreshold id beginPos endPos, a = .collect gcThreshold id beginPos endPos ∧ r = none ∧
        s.doGc gcThreshold id beginPos endPos = .ok t := by
  cases a with
  | call c =>
    obtain ⟨⟨r', u⟩, hst, hret⟩ := bind_eq_ok h
    obtain ⟨rfl, rfl⟩ := Prod.mk.inj (Except.ok.inj hret)
    exact .inl ⟨c, r', rfl, rfl, hst⟩
  | collect gcThreshold id beginPos endPos =>
    obtain ⟨u, hgc, hret⟩ := bind_eq_ok h
    obtain ⟨rfl, rfl⟩ := Prod.mk.inj (Except.ok.inj hret)
    exact .inr ⟨gcThreshold, id, beginPos, endPos, rfl, rfl, hgc⟩

/-! ## The second phase -/

/-- The two states have the same keys. -/
def SameKeys (m m' : UInt64 → Option UInt64) : Prop := ∀ k, (m k).isSome = (m' k).isSome

theorem sameKeys_reapply (m : UInt64 → Option UInt64) (r : PairT) : SameKeys (reapply m r) m := by
  intro k
  rw [reapply]
  split
  · rename_i hr
    by_cases hk : k = r.key
    · rw [hk, Function.update_self, hr.2, Option.isSome_some]
    · rw [Function.update_of_ne hk]
  · rfl

/-- A call tells the same of maps with the same keys, and leaves them so. -/
theorem SameKeys.mapStep {m m' : UInt64 → Option UInt64} (h : SameKeys m m') (c : Call) :
    (mapStep m c).1.told = (mapStep m' c).1.told ∧
      SameKeys (NaliStore.mapStep m c).2 (NaliStore.mapStep m' c).2 := by
  have hupdate : ∀ k v, SameKeys (Function.update m k v) (Function.update m' k v) := by
    intro k v k'
    by_cases hk : k' = k
    · rw [hk, Function.update_self, Function.update_self]
    · rw [Function.update_of_ne hk, Function.update_of_ne hk, h k']
  obtain ⟨tid, op⟩ := c
  cases op with
  | insert k v =>
    simp only [NaliStore.mapStep, ← Option.not_isSome, h k]
    split
    · exact ⟨rfl, hupdate k _⟩
    · exact ⟨rfl, h⟩
  | update k v =>
    simp only [NaliStore.mapStep, h k]
    split
    · exact ⟨rfl, hupdate k _⟩
    · exact ⟨rfl, h⟩
  | erase k => exact ⟨h k, hupdate k none⟩
  | search k => exact ⟨h k, h⟩

section Tidy

variable {W : UInt64 → UInt64 → Prop} {s t : Logdb cfg}

/-- The invariant, at whatever time. -/
def TidyBy (W : UInt64 → UInt64 → Prop) (s : Logdb cfg) : Prop := ∃ time now, s.Tidy W time now

theorem TidyBy.inv (h : s.TidyBy W) : s.Inv := by
  obtain ⟨_, _, h⟩ := h
  exact h.store

/-- The freed bytes are no part of it. -/
theorem TidyBy.withFreed (h : s.TidyBy W) (freed : PageId cfg → ℕ) :
    TidyBy W ⟨{ s.log with szFreed := freed }, s.db⟩ := by
  obtain ⟨time, now, h⟩ := h
  exact ⟨time, now, h.store.withFreed freed, h.placed, h.past,
    fun σ => (h.link σ).imp id fun ⟨τ, hτ⟩ =>
      ⟨τ, hτ.word, hτ.live, hτ.key, hτ.shard, hτ.hash, hτ.earlier, hτ.named, hτ.trash⟩,
    h.head, h.brought⟩

/-- **One record of the second phase** is one call, with a payload of the log. -/
theorem TidyBy.relocateRecord (h : s.TidyBy W) {threadId : Fin 64} {pg : PageId cfg} {i : ℕ}
    (hi : i < slotsPerPage) (hlive : s.log.Live (pg.slotAt i))
    (hok : relocateRecord threadId pg s i = .ok t) :
    t.TidyBy W ∧ s.log.Extends t.log ∧ SameKeys t.abs s.abs := by
  have hext := (h.inv.relocateRecord_extends hi hlive hok).2
  rcases h.inv.relocateRecord_cases hi hlive hok with ⟨-, rfl⟩ | ⟨hk, hre⟩
  · exact ⟨h, hext, fun _ => rfl⟩
  obtain ⟨time, now, htidy⟩ := h
  set r := s.log.recAt (pg.slotAt i) with hr
  have hstep : ∃ ret, s.step ⟨threadId, .update r.key r.value⟩ = .ok (ret, t) := by
    rw [htidy.store.relocateRecord_eq hi hlive, if_pos hk] at hok
    obtain ⟨⟨ret, u⟩, hu, ht⟩ := bind_eq_ok hok
    obtain rfl := Except.ok.inj ht
    exact ⟨.bool ret, by simp only [Logdb.step, hr, hu]; rfl⟩
  obtain ⟨ret, hstep⟩ := hstep
  have hbrings : ∀ k v, (⟨threadId, .update r.key r.value⟩ : Call).Brings k v → W k v := by
    rintro k v (hins | hupd)
    · cases hins
    · obtain ⟨rfl, rfl⟩ := Op.update.inj hupd
      exact htidy.brought _ hk
  refine ⟨htidy.step hbrings (fun k he => by cases he) hstep, hext, ?_⟩
  rw [hre.abs]
  exact sameKeys_reapply s.abs r

/-- **One page of the second phase.** -/
theorem TidyBy.relocatePage (h : s.TidyBy W) {gcThreshold : ℚ} {threadId : Fin 64}
    {pg : PageId cfg} (hok : relocatePage gcThreshold threadId s pg = .ok t) :
    t.TidyBy W ∧ SameKeys t.abs s.abs := by
  rcases h.inv.relocatePage_cases hok with rfl | ⟨hold, -, u, hu, rfl⟩
  · exact ⟨h, fun _ => rfl⟩
  have hrecords := foldlM_invariant
    (P := fun _ u => TidyBy W u ∧ s.log.Extends u.log ∧ SameKeys u.abs s.abs)
    (by
      rintro is i rest u u' hrange ⟨htidy, hext, hkeys⟩ hstep
      have hi : i < slotsPerPage := by
        rw [← List.mem_range, hrange]
        exact List.mem_append_right _ (List.mem_cons_self ..)
      have hlive : u.log.Live (pg.slotAt i) := hext.live _
        (LogKV.Slotted.live_of_page_lt (by rw [pg.pageId_slotAt hi]; exact hold))
      obtain ⟨htidy', hext', hkeys'⟩ := htidy.relocateRecord hi hlive hstep
      exact ⟨htidy', hext.trans hext', fun k => (hkeys' k).trans (hkeys k)⟩)
    ⟨h, h.inv.slotted.extends_refl, fun _ => rfl⟩ hu
  exact ⟨hrecords.1.withFreed _, hrecords.2.2⟩

/-- **A collection keeps the invariant and the keys**, whatever it re-applies. -/
theorem TidyBy.doGc (h : s.TidyBy W) {gcThreshold : ℚ} {id : Fin 48} {beginPos endPos : ℕ}
    (hok : s.doGc gcThreshold id beginPos endPos = .ok t) :
    t.TidyBy W ∧ SameKeys t.abs s.abs := by
  obtain ⟨time, now, h⟩ := h
  obtain ⟨log, hlog, htidy, habs, -⟩ := h.mark beginPos endPos
  rw [doGc_of_marked hlog] at hok
  have hpages := foldlM_invariant (P := fun _ u => TidyBy W u ∧ SameKeys u.abs s.abs)
    (fun _ _ _ _ _ _ hP hst => by
      obtain ⟨htidy', hkeys'⟩ := hP.1.relocatePage hst
      exact ⟨htidy', fun k => (hkeys' k).trans (hP.2 k)⟩)
    ⟨⟨time, now, htidy⟩, fun k => by rw [habs]⟩ hok
  exact hpages

/-- What the index finds was brought for the key. -/
theorem TidyBy.brought_of_abs (h : s.TidyBy W) {k v : UInt64} (hv : s.abs k = some v) : W k v := by
  obtain ⟨time, now, h⟩ := h
  cases hdb : s.db k with
  | none =>
    rw [abs, hdb] at hv
    cases hv
  | some w =>
    obtain ⟨σ, rfl, hσ⟩ := h.store.entry k w hdb
    rw [h.store.abs_of_db hdb hσ] at hv
    obtain ⟨hkey, hop⟩ := hσ.maps
    have hW := h.brought σ hop
    rwa [hkey, Option.some_inj.mp hv] at hW

end Tidy

/-! ## Whole runs -/

/-- Some call of the run brings the payload for the key. -/
def Brought (as : List Act) (k v : UInt64) : Prop := ∃ c, .call c ∈ as ∧ c.Brings k v

/-- One act keeps the invariant. -/
theorem TidyBy.act {as : List Act} {s t : Logdb cfg} {a : Act} {r : Option Ret}
    (h : s.TidyBy (Brought as)) (ha : a ∈ as) (hC : s.Orderly a) (hok : s.act a = .ok (r, t)) :
    t.TidyBy (Brought as) := by
  rcases act_cases hok with ⟨c, r', rfl, -, hst⟩ | ⟨gcThreshold, id, beginPos, endPos, rfl, -, hgc⟩
  · obtain ⟨time, now, h⟩ := h
    exact h.step (fun k v hb => ⟨c, ha, hb⟩) hC hst
  · exact (h.doGc hgc).1

/-- **Whatever is collected, the keys are those of a finite map**, and what a search finds
was written for its key. In every run of calls and collections of which each erase is of a
present key, calls tell of the keys what they tell on the map that the collections leave
alone. -/
theorem exec_act_keys {as : List Act} {rs : List (Option Ret)} {t : Logdb cfg}
    (hC : Along act Orderly (fresh cfg) as) (hexec : exec act (fresh cfg) as = .ok (rs, t)) :
    rs.map (Option.map Ret.told) =
      (specRun mapAct (fun _ => none) as).1.map (Option.map Ret.told) ∧
    ∀ k, ∃ payload, t.search k = .ok payload ∧
      payload.isSome = ((specRun mapAct (fun _ => none) as).2 k).isSome ∧
      ∀ v, payload = some v → Brought as k v := by
  have hstep : ∀ a ∈ as, ∀ (s : Logdb cfg) (m : UInt64 → Option UInt64) (r : Option Ret)
      (t : Logdb cfg), s.Orderly a → s.TidyBy (Brought as) ∧ SameKeys s.abs m →
      s.act a = .ok (r, t) → r.map Ret.told = (mapAct m a).1.map Ret.told ∧
        t.TidyBy (Brought as) ∧ SameKeys t.abs (mapAct m a).2 := by
    rintro a ha s m r t hC ⟨htidy, hkeys⟩ hok
    have htidy' := htidy.act ha hC hok
    rcases act_cases hok with ⟨c, r', rfl, rfl, hst⟩ |
      ⟨gcThreshold, id, beginPos, endPos, rfl, rfl, hgc⟩
    · obtain ⟨rfl, -, habs⟩ := htidy.inv.step_spec hst
      obtain ⟨htold, hkeys'⟩ := hkeys.mapStep c
      exact ⟨congrArg some htold, htidy', fun k => by rw [habs]; exact hkeys' k⟩
    · exact ⟨rfl, htidy', fun k => ((htidy.doGc hgc).2 k).trans (hkeys k)⟩
  obtain ⟨hrs, htidy, hkeys⟩ := exec_simulates (Option.map Ret.told) (Option.map Ret.told) hstep
    ⟨⟨_, _, tidy_fresh (Brought as)⟩, fun _ => rfl⟩ hC hexec
  refine ⟨hrs, fun k => ⟨t.abs k, htidy.inv.search_eq k, hkeys k, ?_⟩⟩
  exact fun v hv => htidy.brought_of_abs hv

/-- **When the collections are settled, the store refines the map**: every call returns what
it returns on the map, and a search finds the payload last written. -/
theorem exec_act_refines {as : List Act} {rs : List (Option Ret)} {t : Logdb cfg}
    (hC : Along act OrderlySettled (fresh cfg) as)
    (hexec : exec act (fresh cfg) as = .ok (rs, t)) :
    rs = (specRun mapAct (fun _ => none) as).1 ∧
      ∀ k, t.search k = .ok ((specRun mapAct (fun _ => none) as).2 k) := by
  have hstep : ∀ a ∈ as, ∀ (s : Logdb cfg) (m : UInt64 → Option UInt64) (r : Option Ret)
      (t : Logdb cfg), s.OrderlySettled a → s.TidyBy (Brought as) ∧ s.abs = m →
      s.act a = .ok (r, t) → id r = id (mapAct m a).1 ∧
        t.TidyBy (Brought as) ∧ t.abs = (mapAct m a).2 := by
    rintro a ha s m r t hC ⟨htidy, rfl⟩ hok
    have horderly : s.Orderly a := by
      cases a with
      | call c => exact hC
      | collect => trivial
    have htidy' := htidy.act ha horderly hok
    rcases act_cases hok with ⟨c, r', rfl, rfl, hst⟩ |
      ⟨gcThreshold, id, beginPos, endPos, rfl, rfl, hgc⟩
    · obtain ⟨rfl, -, habs⟩ := htidy.inv.step_spec hst
      exact ⟨rfl, htidy', habs⟩
    · obtain ⟨rfl, rfl, hsettled⟩ := hC
      obtain ⟨time, now, htidy⟩ := htidy
      exact ⟨rfl, htidy', ((htidy.doGc_abs hsettled).1 t hgc).2⟩
  obtain ⟨hrs, htidy, habs⟩ := exec_simulates (t := fun _ => none) id id hstep
    ⟨⟨_, _, tidy_fresh (Brought as)⟩, rfl⟩ hC hexec
  rw [List.map_id, List.map_id] at hrs
  exact ⟨hrs, fun k => by rw [htidy.inv.search_eq, habs]⟩

end Logdb

end NaliStore
