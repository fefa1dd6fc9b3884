import NaliStore.Gc

/-!
# The walk along the links ends

The inner loop of the first phase of `do_gc` follows `next_old_log` from an UPDATE or DELETE
record until it meets the sentinel or a TRASH record. It keeps no account of where it has
been, so it ends only because the links do not go in a circle.

The links of INSERT and UPDATE records lead to records that are older, down to an INSERT
record. The DELETE record of a key that was present is linked to one of these. But the
DELETE record of an absent key has the link 0, and 0 is also the address of the first slot
of the log of node 0: whatever is there or will be there is where the walk goes on. The walk
ends unless the record there has the link 0 itself.
-/

namespace NaliStore

open Runs

variable {cfg : Config}

namespace LogKV

/-- The loop over `next_old_log` ends for the record in a slot. -/
def WalkEnds (b : LogKV cfg) (σ : Slot cfg) : Prop :=
  ∃ n oldLog, b.oldLogs (cfg.xxh3 (b.recAt σ).key) n (b.recAt σ).uOffset = .ok oldLog

/-- The first slot of the log of node 0 in a shard. -/
def firstSlot (hash : Fin cfg.shards) : Slot cfg := ⟨⟨⟨0, numaNodeNum_pos⟩, hash⟩, 0⟩

/-- A record from which the links lead down to an INSERT record. -/
inductive Grounded (b : LogKV cfg) : Slot cfg → Prop
  /-- an INSERT record has no link -/
  | insert {σ : Slot cfg} : b.Live σ → (b.recAt σ).op = .insert → (b.recAt σ).uOffset = uint64Max →
      Grounded b σ
  /-- an UPDATE record is linked to the record it supersedes -/
  | update {σ τ : Slot cfg} : b.Live σ → (b.recAt σ).op = .update → (b.recAt σ).uOffset = τ.word →
      τ.log.hash = σ.log.hash → Grounded b τ → Grounded b σ

section Walk

variable {b t : LogKV cfg} {σ τ : Slot cfg} {keyHash : UInt64} {n : ℕ}

theorem Grounded.live (h : b.Grounded σ) : b.Live σ := by
  cases h with
  | insert hlive => exact hlive
  | update hlive => exact hlive

theorem Grounded.mono (hext : b.Extends t) (h : b.Grounded σ) : t.Grounded σ := by
  induction h with
  | insert hlive hop hlink =>
    rw [← hext.recAt _ hlive] at hop hlink
    exact .insert (hext.live _ hlive) hop hlink
  | update hlive hop hlink hhash _ ih =>
    rw [← hext.recAt _ hlive] at hop hlink
    exact .update (hext.live _ hlive) hop hlink hhash ih

/-- A walk that comes to a slot goes on with the link of its record. -/
theorem oldLogs_of_slot {w : UInt64} {oldLog : List (UInt64 × Ptr cfg)} (hw : w ≠ uint64Max)
    (haddr : b.getAddr (.ofAddrInfo w) keyHash = .ok τ.ptr) (hload : b.load τ.ptr = .ok (b.recAt τ))
    (hrest : (b.recAt τ).op ≠ .trash → b.oldLogs keyHash n (b.recAt τ).uOffset = .ok oldLog) :
    ∃ oldLog, b.oldLogs keyHash (n + 1) w = .ok oldLog := by
  simp only [oldLogs, if_neg hw, haddr, bind, Except.bind, hload]
  split
  · exact ⟨_, rfl⟩
  · rename_i hop
    rw [hrest hop]
    exact ⟨_, rfl⟩

/-- The walk from a grounded record ends. -/
theorem Grounded.walk (hb : b.Slotted) (h : b.Grounded σ) (hhash : σ.log.hash = cfg.shardOf keyHash) :
    ∃ n oldLog, b.oldLogs keyHash n (b.recAt σ).uOffset = .ok oldLog := by
  induction h with
  | insert _ _ hlink => exact ⟨1, [], by rw [oldLogs, if_pos hlink]; rfl⟩
  | @update σ τ _ _ hlink hhash' hτ ih =>
    have hτhash : τ.log.hash = cfg.shardOf keyHash := hhash'.trans hhash
    obtain ⟨n, oldLog, hn⟩ := ih hτhash
    rw [hlink]
    exact ⟨n + 1, oldLogs_of_slot τ.word_ne_max (hb.getAddr_eq hτ.live hτhash) (hb.load_eq hτ.live)
      fun _ => hn⟩

/-- The walk to a grounded record ends. -/
theorem Grounded.walk_word (hb : b.Slotted) (h : b.Grounded σ) (hhash : σ.log.hash = cfg.shardOf keyHash) :
    ∃ n oldLog, b.oldLogs keyHash n σ.word = .ok oldLog := by
  obtain ⟨n, oldLog, hn⟩ := h.walk hb hhash
  exact ⟨n + 1, oldLogs_of_slot σ.word_ne_max (hb.getAddr_eq h.live hhash) (hb.load_eq h.live)
    fun _ => hn⟩

theorem pageId_firstSlot (hash : Fin cfg.shards) : (firstSlot hash).pageId = ⟨⟨0, hash⟩, 0⟩ :=
  PageId.ext rfl (Nat.zero_div _)

theorem ptr_firstSlot (hash : Fin cfg.shards) : (firstSlot hash).ptr = ⟨some ⟨⟨0, hash⟩, 0⟩, 0⟩ := by
  rw [Slot.ptr, pageId_firstSlot, Slot.off, firstSlot, Nat.zero_mod, Nat.mul_zero]

/-- The link 0 leads to the first slot of the log of node 0. -/
theorem Slotted.getAddr_zero (hb : b.Slotted) (keyHash : UInt64) :
    b.getAddr (.ofAddrInfo 0) keyHash = .ok (firstSlot (cfg.shardOf keyHash)).ptr := by
  rw [ptr_firstSlot]
  exact getAddr_of_wf hb.wf (l := ⟨0, cfg.shardOf keyHash⟩) rfl rfl rfl rfl (Nat.zero_le _)

theorem Slotted.load_firstSlot (hb : b.Slotted) (hash : Fin cfg.shards) :
    b.load (firstSlot hash).ptr = .ok (b.recAt (firstSlot hash)) := by
  obtain ⟨m, hm⟩ := hb.wf.file ⟨0, hash⟩ 0 (Nat.zero_le _)
  rw [← pageId_firstSlot] at hm
  simp only [load, page, Slot.ptr, hm, recAt, bytes, Option.getD_some]
  rfl

end Walk

/-! ## Links in general -/

/-- A link of the records of a shard that leads to a grounded record. -/
def LinksDown (b : LogKV cfg) (hash : Fin cfg.shards) (w : UInt64) : Prop :=
  ∃ τ : Slot cfg, w = τ.word ∧ τ.log.hash = hash ∧ b.Grounded τ

/-- What the links of records lead to. -/
structure Linked (b : LogKV cfg) : Prop where
  /-- a record is in the shard of its key -/
  placed : b.Placed
  /-- INSERT and UPDATE records are grounded -/
  grounded : ∀ σ, (b.recAt σ).op = .insert ∨ (b.recAt σ).op = .update → b.Grounded σ
  /-- DELETE records are linked to one of them, or to nothing -/
  deleted : ∀ σ, (b.recAt σ).op = .delete →
    (b.recAt σ).uOffset = 0 ∨ b.LinksDown σ.log.hash (b.recAt σ).uOffset

/-- The first record of node 0 in a shard is linked to itself. -/
def Circles (b : LogKV cfg) (hash : Fin cfg.shards) : Prop :=
  (b.recAt (firstSlot hash)).op = .delete ∧ (b.recAt (firstSlot hash)).uOffset = 0

section Linked

variable {b t : LogKV cfg} {σ : Slot cfg} {hash : Fin cfg.shards}

theorem LinksDown.mono {w : UInt64} (hext : b.Extends t) (h : b.LinksDown hash w) : t.LinksDown hash w := by
  obtain ⟨τ, hw, hhash, hτ⟩ := h
  exact ⟨τ, hw, hhash, hτ.mono hext⟩

theorem LinksDown.walk {w keyHash : UInt64} (hb : b.Slotted) (h : b.LinksDown hash w)
    (hhash : hash = cfg.shardOf keyHash) : ∃ n oldLog, b.oldLogs keyHash n w = .ok oldLog := by
  obtain ⟨τ, rfl, hτhash, hτ⟩ := h
  exact hτ.walk_word hb (hτhash.trans hhash)

/-- The walk from a record that is not linked to nothing ends. -/
theorem Linked.walk {keyHash : UInt64} (h : b.Linked) (hb : b.Slotted) (hop : (b.recAt σ).op ≠ .trash)
    (hzero : ¬ ((b.recAt σ).op = .delete ∧ (b.recAt σ).uOffset = 0))
    (hhash : σ.log.hash = cfg.shardOf keyHash) :
    ∃ n oldLog, b.oldLogs keyHash n (b.recAt σ).uOffset = .ok oldLog := by
  cases hop' : (b.recAt σ).op with
  | trash => exact absurd hop' hop
  | insert => exact (h.grounded σ (.inl hop')).walk hb hhash
  | update => exact (h.grounded σ (.inr hop')).walk hb hhash
  | delete =>
    have hdown := (h.deleted σ hop').resolve_left fun hlink => hzero ⟨hop', hlink⟩
    exact hdown.walk hb hhash

/-- The walk along the link 0 ends when no record is linked to itself. -/
theorem Linked.walk_zero {keyHash : UInt64} (h : b.Linked) (hb : b.Slotted)
    (hcircle : ¬ b.Circles (cfg.shardOf keyHash)) : ∃ n oldLog, b.oldLogs keyHash n 0 = .ok oldLog := by
  have hmax : (0 : UInt64) ≠ uint64Max := by decide
  have haddr := hb.getAddr_zero keyHash
  have hload := hb.load_firstSlot (cfg.shardOf keyHash)
  rcases eq_or_ne (b.recAt (firstSlot (cfg.shardOf keyHash))).op .trash with htrash | hop
  · have hrest : (b.recAt (firstSlot (cfg.shardOf keyHash))).op ≠ .trash →
        b.oldLogs keyHash 0 (b.recAt (firstSlot (cfg.shardOf keyHash))).uOffset = .ok [] :=
      fun hne => absurd htrash hne
    exact ⟨1, oldLogs_of_slot hmax haddr hload hrest⟩
  · obtain ⟨n, oldLog, hn⟩ := h.walk hb hop hcircle rfl
    exact ⟨n + 1, oldLogs_of_slot hmax haddr hload fun _ => hn⟩

/-- **The walk ends** when no record is linked to itself. -/
theorem Linked.walkEnds (h : b.Linked) (hb : b.Slotted) (hcircle : ∀ hash, ¬ b.Circles hash)
    (hop : (b.recAt σ).op ≠ .trash) : b.WalkEnds σ := by
  rcases Classical.em ((b.recAt σ).op = .delete ∧ (b.recAt σ).uOffset = 0) with ⟨-, hzero⟩ | hne
  · rw [WalkEnds, hzero]
    exact h.walk_zero hb (hcircle _)
  · exact h.walk hb hop hne (h.placed σ hop)

/-- A record that is linked to itself is followed for ever. -/
theorem Circles.not_walkEnds (h : b.Circles hash) (hb : b.Slotted) (hplaced : b.Placed) :
    ¬ b.WalkEnds (firstSlot hash) := by
  have hne : (b.recAt (firstSlot hash)).op ≠ .trash := by
    rw [h.1]
    decide
  have hhash : hash = cfg.shardOf (cfg.xxh3 (b.recAt (firstSlot hash)).key) := hplaced _ hne
  have hload := hb.load_firstSlot hash
  have haddr := hb.getAddr_zero (cfg.xxh3 (b.recAt (firstSlot hash)).key)
  rw [← hhash] at haddr
  have hmax : (0 : UInt64) ≠ uint64Max := by decide
  have hdiverges : ∀ n, b.oldLogs (cfg.xxh3 (b.recAt (firstSlot hash)).key) n 0 = .error .diverges := by
    intro n
    induction n with
    | zero => rfl
    | succ n ih =>
      simp only [oldLogs, if_neg hmax, haddr, bind, Except.bind, hload, if_neg hne, h.2, ih]
  rintro ⟨n, oldLog, hn⟩
  rw [h.2, hdiverges n] at hn
  cases hn

/-- The links a record of a key may be written with. -/
def RecordLinks (b : LogKV cfg) (r : PairT) : Prop :=
  (r.op = .insert ∧ r.uOffset = uint64Max) ∨
    (r.op = .update ∧ b.LinksDown (cfg.shard r.key) r.uOffset) ∨
    (r.op = .delete ∧ (r.uOffset = 0 ∨ b.LinksDown (cfg.shard r.key) r.uOffset))

/-- Appending a record. -/
theorem Linked.append {threadId : Fin 64} {k : UInt64} {r : PairT} (h : b.Linked) (hb : b.Slotted)
    (hroom : b.Room threadId k) (hkey : r.key = k) (hr : b.RecordLinks r) :
    (b.append threadId k r).Linked := by
  have hext := hb.extends_append hroom r
  have hnew : (b.append threadId k r).Live (b.nextSlot (cfg.logFor threadId k)) :=
    (live_append hb).mpr (.inr rfl)
  have hself : (b.append threadId k r).recAt (b.nextSlot (cfg.logFor threadId k)) = r := recAt_append_self hb
  have hhash : cfg.shard r.key = (b.nextSlot (cfg.logFor threadId k)).log.hash := by rw [hkey]; rfl
  have hcases : ∀ σ, ((b.append threadId k r).recAt σ).op ≠ .trash →
      σ = b.nextSlot (cfg.logFor threadId k) ∨ b.Live σ ∧ (b.append threadId k r).recAt σ = b.recAt σ := by
    intro σ hop
    rcases eq_or_ne σ (b.nextSlot (cfg.logFor threadId k)) with heq | hne
    · exact .inl heq
    · have hrec : (b.append threadId k r).recAt σ = b.recAt σ := by
        rw [recAt_append hb, Function.update_of_ne hne]
      refine .inr ⟨?_, hrec⟩
      by_contra hlive
      rw [hrec] at hop
      exact hop (hb.op_of_not_live hlive)
  refine ⟨Logdb.placed_append hb h.placed hkey, fun σ hop => ?_, fun σ hop => ?_⟩
  · rcases hcases σ (by rcases hop with hop | hop <;> rw [hop] <;> decide) with rfl | ⟨-, hrec⟩
    · rw [hself] at hop
      rcases hr with ⟨hop', hlink⟩ | ⟨hop', τ, hlink, hτhash, hτ⟩ | ⟨hop', -⟩
      · exact .insert hnew (by rw [hself]; exact hop') (by rw [hself]; exact hlink)
      · exact .update hnew (by rw [hself]; exact hop') (by rw [hself]; exact hlink) (hτhash.trans hhash)
          (hτ.mono hext)
      · rw [hop'] at hop
        rcases hop with hop | hop <;> cases hop
    · rw [hrec] at hop
      exact (h.grounded σ hop).mono hext
  · rcases hcases σ (by rw [hop]; decide) with rfl | ⟨-, hrec⟩
    · rw [hself] at hop ⊢
      rcases hr with ⟨hop', -⟩ | ⟨hop', -⟩ | ⟨-, hlink⟩
      · exact absurd (hop'.symm.trans hop) (by decide)
      · exact absurd (hop'.symm.trans hop) (by decide)
      · exact hlink.imp_right fun hdown => hhash ▸ hdown.mono hext
    · rw [hrec] at hop ⊢
      exact (h.deleted σ hop).imp_right fun hdown => hdown.mono hext

/-- A slot that is handed out and left unwritten. -/
theorem Linked.reserve {threadId : Fin 64} {k : UInt64} (h : b.Linked) (hb : b.Slotted)
    (hroom : b.Room threadId k) : (b.reserve threadId k).Linked := by
  have hext := hb.extends_reserve hroom
  refine ⟨fun σ hop => ?_, fun σ hop => ?_, fun σ hop => ?_⟩
  · rw [recAt_reserve hb] at hop ⊢
    exact h.placed σ hop
  · rw [recAt_reserve hb] at hop
    exact (h.grounded σ hop).mono hext
  · rw [recAt_reserve hb] at hop ⊢
    exact (h.deleted σ hop).imp_right fun hdown => hdown.mono hext

/-- Nothing that is written later undoes a circle. -/
theorem Circles.mono (hb : b.Slotted) (hext : b.Extends t) (h : b.Circles hash) : t.Circles hash := by
  have hlive : b.Live (firstSlot hash) := by
    by_contra hnot
    exact absurd (h.1.symm.trans (hb.op_of_not_live hnot)) (by decide)
  rw [Circles, hext.recAt _ hlive]
  exact h

/-- Where a record closes a circle. -/
theorem circles_append {threadId : Fin 64} {k : UInt64} {r : PairT} (hb : b.Slotted)
    (hroom : b.Room threadId k) :
    (∃ hash, (b.append threadId k r).Circles hash) ↔ (∃ hash, b.Circles hash) ∨
      (getNumaId threadId = 0 ∧ b.used (cfg.logFor threadId k) = 0) ∧ r.op = .delete ∧ r.uOffset = 0 := by
  have hself : (b.append threadId k r).recAt (b.nextSlot (cfg.logFor threadId k)) = r := recAt_append_self hb
  constructor
  · rintro ⟨hash, hop, hlink⟩
    rcases eq_or_ne (firstSlot hash) (b.nextSlot (cfg.logFor threadId k)) with heq | hne
    · rw [heq, hself] at hop hlink
      have hnuma : (0 : Fin numaNodeNum) = getNumaId threadId := congrArg (fun σ => σ.log.numa) heq
      have hused : 0 = b.used (cfg.logFor threadId k) := congrArg Slot.pos heq
      exact .inr ⟨⟨hnuma.symm, hused.symm⟩, hop, hlink⟩
    · rw [recAt_append hb, Function.update_of_ne hne] at hop hlink
      exact .inl ⟨hash, hop, hlink⟩
  · rintro (⟨hash, hcircle⟩ | ⟨⟨hnuma, hused⟩, hop, hlink⟩)
    · exact ⟨hash, hcircle.mono hb (hb.extends_append hroom r)⟩
    · have hfirst : firstSlot (cfg.shard k) = b.nextSlot (cfg.logFor threadId k) :=
        Slot.ext (LogId.ext hnuma.symm rfl) hused.symm
      refine ⟨cfg.shard k, ?_, ?_⟩ <;> rw [hfirst, hself]
      · exact hop
      · exact hlink

end Linked

end LogKV

/-! ## Every run -/

namespace Traced

variable {s t : Traced cfg} {c : Call}

/-- The call is no `erase` of an absent key by a thread of node 0 whose record is the first of
its log. -/
def AvoidsCircle (s : Traced cfg) (c : Call) : Prop :=
  ∀ k, c.op = .erase k → s.store.db k = none → getNumaId c.threadId = ⟨0, numaNodeNum_pos⟩ →
    s.store.log.used (cfg.logFor c.threadId k) ≠ 0

theorem linked_fresh (cfg : Config) : (fresh cfg).store.log.Linked := by
  have htrash : ∀ σ, ((fresh cfg).store.log.recAt σ).op = .trash :=
    fun σ => congrArg PairT.op (LogKV.recAt_fresh σ)
  refine ⟨fun σ hop => absurd (htrash σ) hop, fun σ hop => ?_, fun σ hop => ?_⟩
  · rw [htrash] at hop
    rcases hop with hop | hop <;> cases hop
  · exact absurd ((htrash σ).symm.trans hop) (by decide)

/-- The records the index names are grounded. -/
theorem linksDown_of_entry (hinv : s.store.Inv) (h : s.store.log.Linked) {k w : UInt64}
    (hdb : s.store.db k = some w) : s.store.log.LinksDown (cfg.shard k) w := by
  obtain ⟨τ, rfl, hτ⟩ := hinv.entry k w hdb
  exact ⟨τ, rfl, hτ.shard, h.grounded τ hτ.maps.2⟩

/-- A call that is no `erase` closes no circle. -/
theorem avoidsCircle_of_ne (hop : ∀ k, c.op ≠ .erase k) : s.AvoidsCircle c :=
  fun k heq => absurd heq (hop k)

/-- The call keeps the links, and closes a circle only when it does not avoid it. -/
structure KeepsLinks (s : Traced cfg) (c : Call) (t : Traced cfg) : Prop where
  linked : t.store.log.Linked
  circles : (∃ hash, t.store.log.Circles hash) ↔ (∃ hash, s.store.log.Circles hash) ∨ ¬ s.AvoidsCircle c

/-- A record that is no DELETE record is appended. -/
theorem keepsLinks_append {threadId : Fin 64} {k : UInt64} {r : PairT} {db : Index} {history : List (Slot cfg)}
    (hinv : s.store.Inv) (h : s.store.log.Linked) (hroom : s.store.log.Room threadId k) (hkey : r.key = k)
    (hr : s.store.log.RecordLinks r) (hop : r.op ≠ .delete) (havoids : s.AvoidsCircle c) :
    KeepsLinks s c ⟨⟨s.store.log.append threadId k r, db⟩, history⟩ where
  linked := h.append hinv.slotted hroom hkey hr
  circles := by
    rw [LogKV.circles_append hinv.slotted hroom]
    simp only [hop, false_and, and_false, or_false, havoids, not_true_eq_false]

/-- **One call** keeps the links. -/
theorem keepsLinks_step (hinv : s.store.Inv) (h : s.store.log.Linked) (hstep : s.step c = .ok t) :
    KeepsLinks s c t := by
  obtain ⟨⟨r, store⟩, hst, ht⟩ := bind_eq_ok hstep
  obtain rfl := Except.ok.inj ht
  have hs := hinv.slotted
  have hcases := Logdb.step_cases hs hst
  obtain ⟨threadId, op⟩ := c
  cases hcases with
  | inserted k v _ hroom =>
    exact keepsLinks_append hinv h hroom rfl (.inl ⟨rfl, rfl⟩) nofun (avoidsCircle_of_ne nofun)
  | rejected k v w _ hroom =>
    exact keepsLinks_append hinv h hroom rfl (.inl ⟨rfl, rfl⟩) nofun (avoidsCircle_of_ne nofun)
  | updated k v w hdb hroom =>
    exact keepsLinks_append hinv h hroom rfl (.inr (.inl ⟨rfl, linksDown_of_entry hinv h hdb⟩)) nofun
      (avoidsCircle_of_ne nofun)
  | missed k v _ hroom =>
    refine ⟨h.reserve hs hroom, ?_⟩
    simp only [LogKV.Circles, LogKV.recAt_reserve hs, avoidsCircle_of_ne (s := s)
      (c := ⟨threadId, .update k v⟩) nofun, not_true_eq_false, or_false]
  | erased k hroom =>
    have hzero : (s.store.db k).getD 0 = 0 ↔ s.store.db k = none := by
      cases hdb : s.store.db k with
      | none => exact ⟨fun _ => rfl, fun _ => rfl⟩
      | some w =>
        obtain ⟨τ, rfl, -⟩ := hinv.entry k w hdb
        exact ⟨fun hw => absurd hw τ.word_ne_zero, nofun⟩
    constructor
    · refine h.append hs hroom rfl (.inr (.inr ⟨rfl, ?_⟩))
      cases hdb : s.store.db k with
      | none => exact .inl rfl
      | some w => exact .inr (linksDown_of_entry hinv h hdb)
    · have hlink : (PairT.deleteRec (s.store.log.versionFor k) cfg.uninit k
          ((s.store.db k).getD 0)).uOffset = (s.store.db k).getD 0 := rfl
      have hop : (PairT.deleteRec (s.store.log.versionFor k) cfg.uninit k
          ((s.store.db k).getD 0)).op = .delete := rfl
      rw [LogKV.circles_append hs hroom, hlink, hop, hzero]
      refine or_congr_right ⟨fun ⟨⟨hnuma, hused⟩, _, hdb⟩ havoids => ?_, fun hnot => ?_⟩
      · exact havoids k rfl hdb hnuma hused
      · by_contra hne
        refine hnot fun k' heq hdb hnuma hused => ?_
        obtain rfl := Op.erase.inj heq
        exact hne ⟨⟨hnuma, hused⟩, rfl, hdb⟩
  | searched k =>
    refine ⟨h, ?_⟩
    simp only [avoidsCircle_of_ne (s := s) (c := ⟨threadId, .search k⟩) nofun, not_true_eq_false, or_false]

/-- In every run, the calls avoid circles or there is one in the end. -/
theorem run_cases {cs : List Call} (hinv : s.store.Inv) (h : s.store.log.Linked)
    (hrun : Run step (fun _ _ => True) s cs t) :
    t.store.Inv ∧ t.store.log.Linked ∧
      ((∃ hash, t.store.log.Circles hash) ↔
        (∃ hash, s.store.log.Circles hash) ∨ ¬ Run step AvoidsCircle s cs t) := by
  induction hrun with
  | nil s => exact ⟨hinv, h, by simp only [Run.nil, not_true_eq_false, or_false]⟩
  | @cons s s' t c cs _ hstep hrest ih =>
    have hinv' : s'.store.Inv := by
      obtain ⟨⟨r, store⟩, hst, ht⟩ := bind_eq_ok hstep
      obtain rfl := Except.ok.inj ht
      exact hinv.step hst
    have hkeeps := keepsLinks_step hinv h hstep
    obtain ⟨hinvt, hlinked, hcircles⟩ := ih hinv' hkeeps.linked
    refine ⟨hinvt, hlinked, ?_⟩
    rw [hcircles, hkeeps.circles, or_assoc]
    refine or_congr_right ⟨fun hor hall => ?_, fun hnot => ?_⟩
    · cases hall with
      | cons havoids hstep' hrest' =>
        obtain rfl := Except.ok.inj (hstep'.symm.trans hstep)
        exact hor.elim (fun hne => hne havoids) fun hne => hne hrest'
    · rcases Classical.em (s.AvoidsCircle c) with havoids | hne
      · exact .inr fun hrest' => hnot (.cons havoids hstep hrest')
      · exact .inl hne

/-- **The walk of `do_gc` ends for every UPDATE and DELETE record** of a run exactly when no
`erase` of an absent key by a thread of node 0 wrote the first record of its log. -/
theorem walks_end_iff (cfg : Config) (cs : List Call) (t : Traced cfg)
    (hrun : Run step (fun _ _ => True) (fresh cfg) cs t) :
    (∀ σ, (t.recAt σ).op = .update ∨ (t.recAt σ).op = .delete → t.store.log.WalkEnds σ) ↔
      Run step AvoidsCircle (fresh cfg) cs t := by
  obtain ⟨hinv, hlinked, hcircles⟩ := run_cases (Logdb.inv_fresh cfg) (linked_fresh cfg) hrun
  have hfresh : ¬ ∃ hash, (fresh cfg).store.log.Circles hash := by
    rintro ⟨hash, hop, -⟩
    exact absurd ((congrArg PairT.op (LogKV.recAt_fresh _)).symm.trans hop) (by decide)
  have hiff : (∃ hash, t.store.log.Circles hash) ↔ ¬ Run step AvoidsCircle (fresh cfg) cs t :=
    hcircles.trans (or_iff_right hfresh)
  rw [← not_iff_not, ← hiff]
  constructor
  · intro hnot
    by_contra hnone
    refine hnot fun σ hop => hlinked.walkEnds hinv.slotted (not_exists.mp hnone) ?_
    have hrec : t.recAt σ = t.store.log.recAt σ := rfl
    rw [hrec] at hop
    rcases hop with hop | hop <;> rw [hop] <;> decide
  · rintro ⟨hash, hcircle⟩ hall
    exact hcircle.not_walkEnds hinv.slotted hlinked.placed (hall _ (.inr hcircle.1))

/-- An erase of an absent key after another record of its log. -/
theorem walks_end_iff_second : ∃ t : Traced oneShard,
    Run step (fun _ _ => True) (fresh oneShard) [⟨0, .insert 6 1⟩, ⟨0, .erase 5⟩] t ∧
      ∀ σ, (t.recAt σ).op = .update ∨ (t.recAt σ).op = .delete → t.store.log.WalkEnds σ := by
  obtain ⟨s, hs, hinv, -, hused⟩ :=
    exists_step (c := ⟨0, .insert 6 1⟩) (Logdb.inv_fresh oneShard) (callRoom_fresh _)
  have h0 : ∀ l, (fresh oneShard).store.log.used l = 0 := LogKV.used_fresh
  have hroom : s.store.CallRoom ⟨0, .erase 5⟩ := by
    intro l _
    rw [hused l, h0 l, logCapacity]
    split <;> omega
  obtain ⟨t, ht, -⟩ := exists_step (c := ⟨0, .erase 5⟩) hinv hroom
  have hsecond : s.AvoidsCircle ⟨0, .erase 5⟩ := by
    intro k hk _ _
    obtain rfl := Op.erase.inj hk
    rw [hused, h0]
    decide
  have hrun : Run step AvoidsCircle (fresh oneShard) [⟨0, .insert 6 1⟩, ⟨0, .erase 5⟩] t :=
    .cons (avoidsCircle_of_ne fun _ h => by cases h) hs (.single hsecond ht)
  have hrun' := hrun.mono (D := fun _ _ => True) fun _ _ _ => trivial
  exact ⟨t, hrun', (walks_end_iff oneShard _ t hrun').mpr hrun⟩

/-- An erase of an absent key is the first call on a store, and later calls fill the page of
its record: the collector looks at the record and does not come to an end. -/
theorem erase_absent_circle : ∃ (n : ℕ) (t : Traced oneShard) (σ : Slot oneShard),
    Run step (fun _ _ => True) (fresh oneShard)
        (⟨0, .erase 5⟩ :: ⟨0, .insert 6 0⟩ :: List.replicate n ⟨0, .update 6 0⟩) t ∧
      t.store.log.Old σ.pageId ∧ (t.recAt σ).op = .delete ∧ ¬ t.store.log.WalkEnds σ := by
  obtain ⟨s₁, h₁, hinv₁, habs₁, hused₁⟩ :=
    exists_step (c := ⟨0, .erase 5⟩) (Logdb.inv_fresh oneShard) (callRoom_fresh _)
  have h0 : ∀ l, (fresh oneShard).store.log.used l = 0 := LogKV.used_fresh
  have hroom₁ : s₁.store.CallRoom ⟨0, .insert 6 0⟩ := by
    intro l _
    rw [hused₁ l, h0 l, logCapacity]
    split <;> omega
  obtain ⟨s₂, h₂, hinv₂, habs₂, hused₂⟩ := exists_step (c := ⟨0, .insert 6 0⟩) hinv₁ hroom₁
  have hle : s₂.store.log.used (oneShard.logFor 0 6) ≤ slotsPerPage := by
    rw [hused₂, hused₁, h0, slotsPerPage]
    split <;> split <;> omega
  have h6 : (s₂.store.db 6).isSome := by
    rw [← s₂.store.isSome_abs, habs₂, habs₁]
    rfl
  obtain ⟨n, t, hrun, -, -, hpage⟩ := exists_first_page_full hinv₂ 0 0 h6 hle
  have hall : Run step (fun _ _ => True) (fresh oneShard)
      (⟨0, .erase 5⟩ :: ⟨0, .insert 6 0⟩ :: List.replicate n ⟨0, .update 6 0⟩) t :=
    .cons trivial h₁ (.cons trivial h₂ (hrun.mono fun _ _ _ => trivial))
  obtain ⟨hinv, hlinked, hcircles⟩ := run_cases (Logdb.inv_fresh oneShard) (linked_fresh oneShard) hall
  -- the first call does not avoid the circle
  obtain ⟨hash, hcircle⟩ := hcircles.mpr (.inr fun havoids => by
    cases havoids with
    | cons hfirst _ _ => exact hfirst 5 rfl rfl rfl (h0 _))
  refine ⟨n, t, LogKV.firstSlot hash, hall, ?_, hcircle.1, hcircle.not_walkEnds hinv.slotted hlinked.placed⟩
  have hlog : (⟨0, hash⟩ : LogId oneShard) = oneShard.logFor 0 6 := 
    LogId.ext rfl (Subsingleton.elim (α := Fin 1) _ _)
  rw [LogKV.pageId_firstSlot, LogKV.Old, hlog, hpage]
  exact Nat.one_pos

end Traced

end NaliStore
