import NaliStore.Marks

/-!
# The log of a store that is collected

`Marks` takes any well-linked log. Here the log is that of a store under calls and
collections, in any order and any number: a collection begins in what the ones before have
left, with links into TRASH, and superseded records re-applied under new addresses.

One invariant goes through all of it. A link leads to an earlier record of the same key,
which is no DELETE record and not the one the index names; from TRASH it leads to TRASH;
and the payload of an INSERT or UPDATE record is one that some call has brought for the
key. Such a log is well linked, so the first phase of a collection sets exactly the marked
records to TRASH, and the record the index names is not one of them.
-/

namespace NaliStore

open Runs

variable {cfg : Config}

/-- A record the second phase re-applies. -/
def PairT.Kept (r : PairT) : Prop := r.op = .insert ∨ r.op = .update

instance (r : PairT) : Decidable r.Kept := inferInstanceAs (Decidable (_ ∨ _))

theorem PairT.Kept.ne_trash {r : PairT} (h : r.Kept) : r.op ≠ .trash := by
  rcases h with h | h <;> rw [h] <;> decide

namespace LogKV

/-- The record in `σ` is linked to the record in `τ`. -/
def Links (b : LogKV cfg) (σ τ : Slot cfg) : Prop :=
  (b.recAt σ).op ≠ .trash ∧ (b.recAt σ).uOffset = τ.word ∧ Logdb.Target b (b.recAt σ).key τ

/-- The first phase sets the record to TRASH: it is a DELETE record in an old page, or
linked, over any number of records, from an UPDATE or DELETE record in an old page. -/
def Marked (b : LogKV cfg) (σ : Slot cfg) : Prop :=
  (b.Old σ.pageId ∧ (b.recAt σ).op = .delete) ∨
    ∃ ρ, b.Old ρ.pageId ∧ ((b.recAt ρ).op = .update ∨ (b.recAt ρ).op = .delete) ∧
      Relation.TransGen b.Links ρ σ

theorem Links.ne_trash {b : LogKV cfg} {σ τ : Slot cfg} (h : b.Links σ τ) :
    (b.recAt τ).op ≠ .trash := by
  rcases h.2.2.maps.2 with hop | hop <;> rw [hop] <;> decide

end LogKV

/-- The call brings payload `v` for key `k`. -/
def Call.Brings (c : Call) (k v : UInt64) : Prop := c.op = .insert k v ∨ c.op = .update k v

namespace Logdb

/-- An erase is of a present key. -/
def ErasesPresent (s : Logdb cfg) (c : Call) : Prop := ∀ k, c.op = .erase k → (s.db k).isSome

/-! ## The invariant -/

/-- The record in `σ` is linked to the earlier record in `τ`. -/
structure Supersedes (log : LogKV cfg) (time : Slot cfg → ℕ) (σ τ : Slot cfg) : Prop where
  /-- the link -/
  word : (log.recAt σ).uOffset = τ.word
  /-- the slot has been handed out -/
  live : log.Live τ
  /-- it holds a record of the same key -/
  key : (log.recAt τ).key = (log.recAt σ).key
  /-- the shard is that of the key -/
  shard : σ.log.hash = cfg.shard (log.recAt σ).key
  /-- for both -/
  hash : τ.log.hash = σ.log.hash
  /-- the record is older -/
  earlier : time τ < time σ
  /-- it was once named by the index -/
  named : (log.recAt τ).op ≠ .delete
  /-- below TRASH there is only TRASH -/
  trash : (log.recAt σ).op = .trash → (log.recAt τ).op = .trash

/-- The invariant of a store under calls and collections, when slots were handed out at
`time` and payloads were brought by `W`. -/
structure Tidy (W : UInt64 → UInt64 → Prop) (time : Slot cfg → ℕ) (now : ℕ) (s : Logdb cfg) :
    Prop where
  /-- the store invariant -/
  store : s.Inv
  /-- records are in the shards of their keys -/
  placed : s.log.Placed
  /-- what is in use was handed out in the past -/
  past : ∀ σ, s.log.Live σ → time σ < now
  /-- links lead back -/
  link : ∀ σ, (s.log.recAt σ).uOffset = uint64Max ∨ ∃ τ, Supersedes s.log time σ τ
  /-- and never to what the index names -/
  head : ∀ k w, s.db k = some w → ∀ σ, σ.log.hash = cfg.shard k → (s.log.recAt σ).uOffset ≠ w
  /-- payloads were brought for their keys -/
  brought : ∀ σ, (s.log.recAt σ).Kept → W (s.log.recAt σ).key (s.log.recAt σ).value

theorem tidy_fresh (W : UInt64 → UInt64 → Prop) : (fresh cfg).Tidy W (fun _ => 0) 0 where
  store := inv_fresh cfg
  placed σ hop := absurd (congrArg PairT.op (LogKV.recAt_fresh σ)) hop
  past σ hσ := by
    have h0 : (fresh cfg).log.used σ.log = 0 := LogKV.used_fresh _
    rw [LogKV.Live, h0] at hσ
    exact absurd hσ (Nat.not_lt_zero _)
  link σ := .inl (congrArg PairT.uOffset (LogKV.recAt_fresh σ))
  head _ _ h := by cases h
  brought σ hσ := absurd (congrArg PairT.op (LogKV.recAt_fresh σ)) hσ.ne_trash

section Tidy

variable {W : UInt64 → UInt64 → Prop} {time : Slot cfg → ℕ} {now : ℕ} {s : Logdb cfg}
  {σ τ : Slot cfg}

/-- A link, as the code resolves it. -/
theorem Tidy.linkTo (h : s.Tidy W time now) (hτ : Supersedes s.log time σ τ) :
    s.log.LinkTo σ τ := by
  refine ⟨?_, ?_⟩
  · rw [hτ.word]
    exact Slot.word_ne_max τ
  · rw [hτ.word]
    exact h.store.slotted.getAddr_eq hτ.live (hτ.hash.trans hτ.shard)

theorem Tidy.supersedes (h : s.Tidy W time now) (hlink : s.log.LinkTo σ τ) :
    Supersedes s.log time σ τ := by
  rcases h.link σ with hmax | ⟨ρ, hρ⟩
  · exact absurd hmax hlink.1
  · rwa [hlink.unique (h.linkTo hρ)]

/-- The log is well linked, so the first phase of a collection is exact on it. -/
theorem Tidy.wellLinked (h : s.Tidy W time now) : s.log.WellLinked time where
  slotted := h.store.slotted
  link σ _ := (h.link σ).imp id fun ⟨τ, hτ⟩ =>
    ⟨τ, h.linkTo hτ, hτ.live, hτ.key, hτ.hash, hτ.earlier⟩
  closed _ _ hop hlink := (h.supersedes hlink).trash hop

/-- The index names the newest record of a key. -/
theorem Tidy.superseding (h : s.Tidy W time now) : s.log.Superseding s.db := by
  rintro σ τ - hlink ⟨k, w, hdb, haddr⟩
  obtain ⟨ρ, rfl, hρ⟩ := h.store.entry k w hdb
  rw [h.store.slotted.getAddr_eq hρ.live hρ.shard] at haddr
  obtain rfl := Slot.ptr_injective (Except.ok.inj haddr)
  have hsup := h.supersedes hlink
  exact h.head k _ hdb σ (hsup.hash.symm.trans hρ.shard) hsup.word

/-- A link stays, as long as the two records do. -/
theorem Supersedes.congr {log log' : LogKV cfg} {time' : Slot cfg → ℕ}
    (h : Supersedes log time σ τ) (hσ : log'.recAt σ = log.recAt σ)
    (hτ : log'.recAt τ = log.recAt τ) (hlive : log'.Live τ) (htime : time' τ < time' σ) :
    Supersedes log' time' σ τ where
  word := by rw [hσ, h.word]
  live := hlive
  key := by rw [hσ, hτ, h.key]
  shard := by rw [hσ, h.shard]
  hash := h.hash
  earlier := htime
  named := by
    rw [hτ]
    exact h.named
  trash := by
    rw [hσ, hτ]
    exact h.trash

/-- **A record is appended** that is linked to the index entry of its key, or to nothing. -/
theorem Tidy.append (h : s.Tidy W time now) {threadId : Fin 64} {k : UInt64} {r : PairT}
    {db : Index} (hroom : s.log.Room threadId k) (hkey : r.key = k) (hop : r.op ≠ .trash)
    (hW : r.Kept → W k r.value) (hstore : Inv ⟨s.log.append threadId k r, db⟩)
    (hlink : r.uOffset = uint64Max ∨ s.db k = some r.uOffset)
    (hdb : ∀ k', k' ≠ k → db k' = s.db k')
    (hdbk : db k = some (s.log.nextSlot (cfg.logFor threadId k)).word ∨ db k = none ∨
      db k = s.db k ∧ r.uOffset = uint64Max) :
    Tidy W (Function.update time (s.log.nextSlot (cfg.logFor threadId k)) now) (now + 1)
      ⟨s.log.append threadId k r, db⟩ := by
  set ν := s.log.nextSlot (cfg.logFor threadId k) with hν
  have hs := h.store.slotted
  have hnew : (s.log.append threadId k r).recAt ν = r := LogKV.recAt_append_self hs
  have hold : ∀ σ, σ ≠ ν → (s.log.append threadId k r).recAt σ = s.log.recAt σ := by
    intro σ hσ
    rw [LogKV.recAt_append hs, Function.update_of_ne hσ]
  have hnotlive : ∀ τ, s.log.Live τ → τ ≠ ν := by
    rintro τ hτ rfl
    exact LogKV.nextSlot_not_live hτ
  refine ⟨hstore, placed_append hs h.placed hkey, ?_, ?_, ?_, ?_⟩
  · intro σ hσ
    rcases (LogKV.live_append hs).mp hσ with hσ | rfl
    · rw [Function.update_of_ne (hnotlive σ hσ)]
      exact Nat.lt_succ_of_lt (h.past σ hσ)
    · rw [Function.update_self]
      exact Nat.lt_succ_self now
  · intro σ
    by_cases hσ : σ = ν
    · subst hσ
      rw [hnew]
      refine hlink.imp id fun hentry => ?_
      obtain ⟨τ, hτ, htarget⟩ := h.store.entry k _ hentry
      have hne := hnotlive τ htarget.live
      refine ⟨τ, ?_, (LogKV.live_append hs).mpr (.inl htarget.live), ?_, ?_, htarget.shard, ?_, ?_, ?_⟩
      · rw [hnew, hτ]
      · rw [hnew, hold τ hne, htarget.maps.1, hkey]
      · rw [hnew, hkey]
        rfl
      · rw [Function.update_of_ne hne, Function.update_self]
        exact h.past τ htarget.live
      · rw [hold τ hne]
        rcases htarget.maps.2 with hop | hop <;> rw [hop] <;> decide
      · rw [hnew]
        exact fun htrash => absurd htrash hop
    · rw [hold σ hσ]
      refine (h.link σ).imp id ?_
      rintro ⟨τ, hτ⟩
      have hne := hnotlive τ hτ.live
      refine ⟨τ, hτ.congr (hold σ hσ) (hold τ hne) ((LogKV.live_append hs).mpr (.inl hτ.live)) ?_⟩
      rw [Function.update_of_ne hσ, Function.update_of_ne hne]
      exact hτ.earlier
  · intro k' w hw σ hshard
    change db k' = some w at hw
    by_cases hσ : σ = ν
    · -- the new record is linked to the old entry of its own key
      subst hσ
      rw [hnew]
      rintro rfl
      rcases hlink with hmax | hentry
      · obtain ⟨ρ, hρ, -⟩ := hstore.entry k' _ hw
        exact ρ.word_ne_max (hρ.symm.trans hmax)
      · obtain ⟨τ, hτ, htarget⟩ := h.store.entry k _ hentry
        by_cases hk : k' = k
        · subst hk
          rcases hdbk with hd | hd | ⟨-, hmax⟩
          · rw [hd, Option.some_inj] at hw
            exact hs.word_ne_nextSlot hroom htarget.live htarget.shard (hτ.symm.trans hw.symm)
          · rw [hd] at hw
            cases hw
          · exact τ.word_ne_max (hτ.symm.trans hmax)
        · rw [hdb k' hk] at hw
          obtain ⟨ρ, hρ, hρt⟩ := h.store.entry k' _ hw
          have heq : τ = ρ := Slot.word_injective (hs.lt_capacity htarget.live)
            (hs.lt_capacity hρt.live) (htarget.shard.trans (hshard.trans hρt.shard.symm))
            (hτ.symm.trans hρ)
          exact hk (hρt.maps.1.symm.trans (heq ▸ htarget.maps.1))
    · rw [hold σ hσ]
      by_cases hk : k' = k
      · subst hk
        rcases hdbk with hd | hd | ⟨hd, -⟩
        · rw [hd, Option.some_inj] at hw
          rw [← hw]
          rcases h.link σ with hmax | ⟨τ, hτ⟩
          · rw [hmax]
            exact (Slot.word_ne_max ν).symm
          · rw [hτ.word]
            exact hs.word_ne_nextSlot hroom hτ.live (hτ.hash.trans hshard)
        · rw [hd] at hw
          cases hw
        · exact h.head k' w (hd ▸ hw) σ hshard
      · exact h.head k' w (hdb k' hk ▸ hw) σ hshard
  · intro σ hσ
    by_cases hσν : σ = ν
    · subst hσν
      rw [hnew] at hσ ⊢
      rw [hkey]
      exact hW hσ
    · simp only [hold σ hσν] at hσ ⊢
      exact h.brought σ hσ

/-- A slot is taken and not written. -/
theorem Tidy.reserve (h : s.Tidy W time now) {threadId : Fin 64} {k : UInt64}
    (hroom : s.log.Room threadId k) :
    Tidy W (Function.update time (s.log.nextSlot (cfg.logFor threadId k)) now) (now + 1)
      ⟨s.log.reserve threadId k, s.db⟩ := by
  set ν := s.log.nextSlot (cfg.logFor threadId k) with hν
  have hs := h.store.slotted
  have hrec : (s.log.reserve threadId k).recAt = s.log.recAt := LogKV.recAt_reserve hs
  have hnotlive : ∀ τ, s.log.Live τ → τ ≠ ν := by
    rintro τ hτ rfl
    exact LogKV.nextSlot_not_live hτ
  refine ⟨(h.store.extend (hs.extends_reserve hroom)).1, ?_, ?_, ?_, ?_, ?_⟩
  · intro σ
    simp only [hrec]
    exact h.placed σ
  · intro σ hσ
    rcases (LogKV.live_reserve hs).mp hσ with hσ | rfl
    · rw [Function.update_of_ne (hnotlive σ hσ)]
      exact Nat.lt_succ_of_lt (h.past σ hσ)
    · rw [Function.update_self]
      exact Nat.lt_succ_self now
  · intro σ
    simp only [hrec]
    refine (h.link σ).imp id ?_
    rintro ⟨τ, hτ⟩
    have hσ : σ ≠ ν := by
      rintro rfl
      have hblank := hs.unwritten ν LogKV.nextSlot_not_live
      have hmax : (s.log.recAt ν).uOffset = uint64Max := by
        rw [hblank]
        rfl
      exact Slot.word_ne_max τ (hτ.word.symm.trans hmax)
    refine ⟨τ, hτ.congr (congrFun hrec σ) (congrFun hrec τ)
      ((LogKV.live_reserve hs).mpr (.inl hτ.live)) ?_⟩
    rw [Function.update_of_ne hσ, Function.update_of_ne (hnotlive τ hτ.live)]
    exact hτ.earlier
  · intro k' w hw σ hshard
    simp only [hrec]
    exact h.head k' w hw σ hshard
  · intro σ hσ
    simp only [hrec] at hσ ⊢
    exact h.brought σ hσ

/-- **Every call keeps the invariant**, except an erase of an absent key. -/
theorem Tidy.step (h : s.Tidy W time now) {c : Call} (hW : ∀ k v, c.Brings k v → W k v)
    (hC : s.ErasesPresent c) {r : Ret} {t : Logdb cfg} (hst : s.step c = .ok (r, t)) :
    ∃ time now, t.Tidy W time now := by
  have hs := h.store.slotted
  have hcases := step_cases hs hst
  obtain ⟨tid, op⟩ := c
  cases hcases with
  | inserted k v hdb hroom =>
    have hstore := (h.store.remap (hs.extends_append hroom _)
      (target_append (r := .insertRec (s.log.versionFor k) k v) hs ⟨rfl, .inl rfl⟩)).1
    exact ⟨_, _, h.append hroom rfl (fun hop => OpT.noConfusion hop) (fun _ => hW k v (.inl rfl)) hstore (.inl rfl)
      (fun k' hk => Function.update_of_ne hk ..) (.inl (Function.update_self ..))⟩
  | rejected k v w hdb hroom =>
    have hstore := (h.store.extend
      (hs.extends_append hroom (.insertRec (s.log.versionFor k) k v))).1
    exact ⟨_, _, h.append hroom rfl (fun hop => OpT.noConfusion hop) (fun _ => hW k v (.inl rfl)) hstore (.inl rfl)
      (fun _ _ => rfl) (.inr (.inr ⟨rfl, rfl⟩))⟩
  | updated k v w hdb hroom =>
    have hstore := (h.store.remap (hs.extends_append hroom _)
      (target_append (r := .updateRec (s.log.versionFor k) k v w) hs ⟨rfl, .inr rfl⟩)).1
    exact ⟨_, _, h.append hroom rfl (fun hop => OpT.noConfusion hop) (fun _ => hW k v (.inr rfl)) hstore (.inr hdb)
      (fun k' hk => Function.update_of_ne hk ..) (.inl (Function.update_self ..))⟩
  | missed k v hdb hroom => exact ⟨_, _, h.reserve hroom⟩
  | erased k hroom =>
    obtain ⟨w, hw⟩ := Option.isSome_iff_exists.mp (hC k rfl)
    have hstore := (h.store.unmap (k := k) (hs.extends_append hroom
      (.deleteRec (s.log.versionFor k) cfg.uninit k ((s.db k).getD 0)))).1
    have hkept : ¬ (PairT.deleteRec (s.log.versionFor k) cfg.uninit k ((s.db k).getD 0)).Kept := by
      rintro (hop | hop) <;> cases hop
    exact ⟨_, _, h.append hroom rfl (fun hop => OpT.noConfusion hop) (fun hk => absurd hk hkept) hstore
      (.inr (by simp [PairT.deleteRec, hw])) (fun k' hk => Function.update_of_ne hk ..)
      (.inr (.inl (Function.update_self ..)))⟩
  | searched k => exact ⟨_, _, h⟩

/-! ## The first phase -/

/-- A link between records that are not TRASH is a link to a record that mapped the key. -/
theorem Tidy.links_iff (h : s.Tidy W time now) :
    s.log.Links σ τ ↔
      (s.log.recAt σ).op ≠ .trash ∧ (s.log.recAt τ).op ≠ .trash ∧ s.log.LinkTo σ τ := by
  constructor
  · rintro hlink
    refine ⟨hlink.1, hlink.ne_trash, ?_⟩
    rw [LogKV.LinkTo, hlink.2.1]
    exact ⟨Slot.word_ne_max τ, h.store.slotted.getAddr_eq hlink.2.2.live hlink.2.2.shard⟩
  · rintro ⟨hσ, hτ, hlink⟩
    have hsup := h.supersedes hlink
    have hmaps : (s.log.recAt τ).Maps (s.log.recAt σ).key := by
      refine ⟨hsup.key, ?_⟩
      cases hop : (s.log.recAt τ).op with
      | insert => exact .inl rfl
      | update => exact .inr rfl
      | delete => exact absurd hop hsup.named
      | trash => exact absurd hop hτ
    exact ⟨hσ, hsup.word, hsup.live, hsup.hash.trans hsup.shard, hmaps⟩

/-- **A collection of all shards turns the marked records.** -/
theorem Tidy.turned_iff (h : s.Tidy W time now) :
    s.log.Turned 0 cfg.shards σ ↔ s.log.Marked σ := by
  have hrange : ∀ ρ : Slot cfg, s.log.Old ρ.pageId → s.log.Swept 0 cfg.shards ρ :=
    fun ρ hold => ⟨⟨Nat.zero_le _, ρ.log.hash.isLt⟩, hold⟩
  constructor
  · rintro ⟨hop, ⟨hswept, hdel⟩ | ⟨ρ, hswept, hρ, hreach⟩⟩
    · exact .inl ⟨hswept.2, hdel⟩
    · refine .inr ⟨ρ, hswept.2, hρ, ?_⟩
      have hρtrash : (s.log.recAt ρ).op ≠ .trash := by
        rcases hρ with hρ | hρ <;> rw [hρ] <;> decide
      -- what is above a record that is not TRASH is not TRASH either
      induction hreach with
      | single hlink => exact .single (h.links_iff.mpr ⟨hρtrash, hop, hlink⟩)
      | tail _ hlink ih =>
        have hne := fun htrash => hop ((h.supersedes hlink).trash htrash)
        exact .tail (ih hne) (h.links_iff.mpr ⟨hne, hop, hlink⟩)
  · rintro (⟨hold, hdel⟩ | ⟨ρ, hold, hρ, hreach⟩)
    · exact ⟨by rw [hdel]; decide, .inl ⟨hrange σ hold, hdel⟩⟩
    · obtain ⟨x, -, hx⟩ := Relation.TransGen.tail'_iff.mp hreach
      refine ⟨hx.ne_trash, .inr ⟨ρ, hrange ρ hold, hρ, ?_⟩⟩
      exact hreach.lift id fun x y hxy => (h.links_iff.mp hxy).2.2

/-- The record the index names is not turned. -/
theorem Tidy.not_turned (h : s.Tidy W time now) {beginPos endPos : ℕ} {k : UInt64}
    (hdb : s.db k = some σ.word) (hσ : Target s.log k σ) :
    ¬ s.log.Turned beginPos endPos σ := by
  intro hturned
  have hpointed : s.log.Pointed s.db σ :=
    ⟨k, _, hdb, h.store.slotted.getAddr_eq hσ.live hσ.shard⟩
  have hdel := (h.wellLinked.turned_of_pointed h.superseding hturned hpointed).2
  rcases hσ.maps.2 with hop | hop <;> rw [hop] at hdel <;> cases hdel

/-- A link is not changed by setting records to TRASH from below. -/
theorem Supersedes.voided {T : Finset (Slot cfg)} {log log' : LogKV cfg}
    (h : Supersedes log time σ τ) (hlog : log.Voided T log')
    (hdown : σ ∈ T → τ ∈ T ∨ (log.recAt τ).op = .trash) : Supersedes log' time σ τ := by
  have hrec : ∀ ρ, (log'.recAt ρ).uOffset = (log.recAt ρ).uOffset ∧
      (log'.recAt ρ).key = (log.recAt ρ).key := by
    intro ρ
    by_cases hρ : ρ ∈ T
    · rw [hlog.recAt_of_mem hρ]
      exact ⟨rfl, rfl⟩
    · rw [hlog.recAt_of_not_mem hρ]
      exact ⟨rfl, rfl⟩
  constructor
  · rw [(hrec σ).1, h.word]
  · exact hlog.live_iff.mpr h.live
  · rw [(hrec τ).2, (hrec σ).2, h.key]
  · rw [(hrec σ).2, h.shard]
  · exact h.hash
  · exact h.earlier
  · by_cases hτ : τ ∈ T
    · rw [hlog.recAt_of_mem hτ]
      exact OpT.noConfusion
    · rw [hlog.recAt_of_not_mem hτ]
      exact h.named
  · rw [hlog.op_eq_trash_iff, hlog.op_eq_trash_iff]
    rintro (hσ | hop)
    · exact hdown hσ
    · exact .inr (h.trash hop)

/-- **After the first phase** the store is as it was, for all a search can see. -/
theorem Tidy.mark (h : s.Tidy W time now) (beginPos endPos : ℕ) :
    ∃ log, (gcPages cfg beginPos endPos).foldlM LogKV.markPage s.log = .ok log ∧
      Tidy W time now ⟨log, s.db⟩ ∧ abs ⟨log, s.db⟩ = s.abs ∧
      ∃ T, s.log.Voided T log ∧ ∀ σ, σ ∈ T ↔ s.log.Turned beginPos endPos σ := by
  obtain ⟨T, a, ha, hphase, hT⟩ := h.wellLinked.markPages beginPos endPos
  have hvoided := hphase.voided
  have hlog : (gcPages cfg beginPos endPos).foldlM LogKV.markPage s.log = .ok a.log := by
    rw [← Audit.map_markPages (gcPages cfg beginPos endPos) ⟨s.log, []⟩, ha]
    rfl
  have hentry : ∀ k w, s.db k = some w → ∃ σ, w = σ.word ∧ Target s.log k σ ∧
      a.log.recAt σ = s.log.recAt σ := by
    intro k w hdb
    obtain ⟨σ, rfl, hσ⟩ := h.store.entry k w hdb
    exact ⟨σ, rfl, hσ, hvoided.recAt_of_not_mem fun hc => h.not_turned hdb hσ ((hT σ).mp hc)⟩
  have hkept : ∀ σ, (a.log.recAt σ).op ≠ .trash → a.log.recAt σ = s.log.recAt σ :=
    fun σ hop => hvoided.recAt_of_not_mem fun hc => hop (hvoided.op_eq_trash_iff.mpr (.inl hc))
  have hoffset : ∀ σ, (a.log.recAt σ).uOffset = (s.log.recAt σ).uOffset := by
    intro σ
    by_cases hσ : σ ∈ T
    · rw [hvoided.recAt_of_mem hσ]
      rfl
    · rw [hvoided.recAt_of_not_mem hσ]
  have hinv : Inv ⟨a.log, s.db⟩ := by
    refine ⟨hvoided.slotted, fun k w hdb => ?_⟩
    obtain ⟨σ, rfl, hσ, heq⟩ := hentry k w hdb
    exact ⟨σ, rfl, hvoided.live_iff.mpr hσ.live, hσ.shard, by rw [heq]; exact hσ.maps⟩
  have hplaced : a.log.Placed := by
    intro σ hop
    have hrec := hkept σ hop
    rw [hrec] at hop ⊢
    exact h.placed σ hop
  have hlink : ∀ σ, (a.log.recAt σ).uOffset = uint64Max ∨ ∃ τ, Supersedes a.log time σ τ := by
    intro σ
    rw [hoffset]
    refine (h.link σ).imp id ?_
    rintro ⟨τ, hτ⟩
    exact ⟨τ, hτ.voided hvoided fun hσ => hphase.down σ hσ τ (h.linkTo hτ)⟩
  have hhead : ∀ k w, s.db k = some w → ∀ σ, σ.log.hash = cfg.shard k →
      (a.log.recAt σ).uOffset ≠ w := by
    intro k w hdb σ hshard
    rw [hoffset]
    exact h.head k w hdb σ hshard
  have hbrought : ∀ σ, (a.log.recAt σ).Kept → W (a.log.recAt σ).key (a.log.recAt σ).value := by
    intro σ hσ
    have hrec := hkept σ hσ.ne_trash
    rw [hrec] at hσ ⊢
    exact h.brought σ hσ
  refine ⟨a.log, hlog, ⟨hinv, hplaced, fun σ hσ => h.past σ (hvoided.live_iff.mp hσ), hlink, hhead,
    hbrought⟩, ?_, T, hvoided, hT⟩
  · funext k
    cases hdb : s.db k with
    | none => simp only [abs, hdb, Option.map_none]
    | some w =>
      obtain ⟨σ, rfl, hσ, heq⟩ := hentry k w hdb
      simp only [abs, hdb, Option.map_some, h.store.slotOf_word hσ, heq]

end Tidy

end Logdb

end NaliStore
