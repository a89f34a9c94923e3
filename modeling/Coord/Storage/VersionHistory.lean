import Coord.Storage.KvRows
import Coord.Storage.KvRuns

/-!
# What the changelog tells of the metadata

A v2 write moves the version, the creation and the modification of a key by its changes alone, so the changelog can
take the metadata of a key back to an earlier revision at which it was live.

the last
  write kept.
-/

namespace Coord.Storage

open Coord.Lib Coord.Lib.History Store List

/-- Metadata without the lease, which the changelog does not have. -/
def unleased (o : Option KvMetadata) : Option KvMetadata := o.map fun m => { m with leaseId := 0 }

def metaStep (r : ℕ) (value : Option Bytes) (o : Option KvMetadata) : Option KvMetadata :=
  match value with
  | some _ => some ((o.map fun m => m.update r 0).getD (.newKey r 0))
  | none => o.map fun m => if m.deleted then m else m.markDeleted r

def metaRun (k : Bytes) (o : Option KvMetadata) (log : Log Bytes Bytes) : Option KvMetadata :=
  log.foldl (fun o w => if w.2.1 = k then metaStep w.1 w.2.2 o else o) o

/-- The writes after `T`. -/
def writesAfter (T : ℕ) (log : Log Bytes Bytes) : Log Bytes Bytes := log.filter fun w => decide (T < w.1)

/-- The revision of the last write of `k` up to `T`. -/
def lastRev (T : ℕ) (k : Bytes) (log : Log Bytes Bytes) : Option ℕ :=
  ((log.filter fun w => decide (w.1 ≤ T ∧ w.2.1 = k)).getLast?).map Prod.fst

/-- The writes of `k` as the reconstruction counts them. -/
def eventsOf (k : Bytes) (log : Log Bytes Bytes) : List (ℕ × Bool) :=
  (log.filter fun w => decide (w.2.1 = k)).map fun w => (w.1, w.2.2.isNone)

lemma lastRev_append {T r : ℕ} {k : Bytes} {old log : Log Bytes Bytes} (h : lastRev T k log = some r) :
    lastRev T k (old ++ log) = some r := by
  obtain ⟨w, hw, rfl⟩ := Option.map_eq_some_iff.1 h
  have hne : (log.filter fun w => decide (w.1 ≤ T ∧ w.2.1 = k)) ≠ [] := fun hnil => by
    rw [hnil] at hw
    cases hw
  rw [lastRev, filter_append, getLast?_append_of_ne_nil _ hne, hw]
  rfl

/-! ### Runs of changes -/

section

variable {k : Bytes} {o : Option KvMetadata} {log : Log Bytes Bytes}

lemma metaRun_append (a b : Log Bytes Bytes) : metaRun k o (a ++ b) = metaRun k (metaRun k o a) b := foldl_append

lemma metaRun_untouched (h : ∀ w ∈ log, w.2.1 ≠ k) : metaRun k o log = o := by
  induction log with
  | nil => rfl
  | cons w log ih =>
    rw [metaRun, foldl_cons, if_neg (h w mem_cons_self)]
    exact ih fun w hw => h w (mem_cons_of_mem _ hw)

/-- Metadata is as it was, with the key dead or not written, or its modification is a write of the key. -/
lemma metaRun_cases {m : KvMetadata} (h : metaRun k o log = some m) :
    (o = some m ∧ (m.deleted = true ∨ ∀ w ∈ log, w.2.1 ≠ k)) ∨ ∃ w ∈ log, w.2.1 = k ∧ m.modRevision = w.1 := by
  induction log using reverseRecOn generalizing m with
  | nil => exact .inl ⟨h, .inr (by simp)⟩
  | append_singleton log w ih =>
    have hmem : ∀ {w'}, w' ∈ log → w' ∈ log ++ [w] := mem_append_left _
    rw [metaRun_append] at h
    by_cases hk : w.2.1 = k
    · have hw : ∃ w' ∈ log ++ [w], w'.2.1 = k ∧ w.1 = w'.1 := ⟨w, by simp, hk, rfl⟩
      simp only [metaRun, foldl_cons, foldl_nil, hk, if_true] at h
      rw [← metaRun] at h
      cases hv : w.2.2 with
      | some v =>
        rw [hv, metaStep] at h
        cases Option.some.inj h
        refine .inr ?_
        cases metaRun k o log <;> exact hw
      | none =>
        rw [hv, metaStep] at h
        obtain ⟨p, hp, rfl⟩ := Option.map_eq_some_iff.1 h
        cases hd : p.deleted with
        | true =>
          rcases ih hp with ⟨ho, -⟩ | ⟨w', hw', hk', hmod⟩
          · exact .inl ⟨by simp [ho], .inl (by simp [hd])⟩
          · exact .inr ⟨w', hmem hw', hk', by simpa using hmod⟩
        | false =>
          refine .inr ?_
          simpa [KvMetadata.markDeleted] using hw
    · have hsame : metaRun k (metaRun k o log) [w] = metaRun k o log := metaRun_untouched (by simpa using hk)
      rw [hsame] at h
      rcases ih h with ⟨ho, hun⟩ | ⟨w', hw', hk', hmod⟩
      · exact .inl ⟨ho, hun.imp_right fun hun => forall_mem_append_one hun hk⟩
      · exact .inr ⟨w', hmem hw', hk', hmod⟩

/-- The version counts the writes that take effect, and the creation stays. -/
lemma metaRun_version (m : KvMetadata) (log : Log Bytes Bytes) :
    ∃ m', metaRun k (some m) log = some m' ∧ m'.createRevision = m.createRevision ∧
      m'.version = m.version + effectiveAfter (!m.deleted) (eventsOf k log) := by
  induction log generalizing m with
  | nil => exact ⟨m, rfl, rfl, by simp [eventsOf, effectiveAfter]⟩
  | cons w log ih =>
    by_cases hk : w.2.1 = k
    · have hevents : eventsOf k (w :: log) = (w.1, w.2.2.isNone) :: eventsOf k log := by simp [eventsOf, hk]
      simp only [metaRun, foldl_cons, hk, if_true, hevents]
      cases hv : w.2.2 with
      | some v =>
        obtain ⟨m', hm', hc, hver⟩ := ih (m.update w.1 0)
        refine ⟨m', hm', hc, ?_⟩
        simp only [KvMetadata.update, Bool.not_false] at hver
        simp [effectiveAfter, hver]
        omega
      | none =>
        cases hd : m.deleted with
        | true =>
          obtain ⟨m', hm', hc, hver⟩ := ih m
          refine ⟨m', by simpa [metaStep, hd, metaRun] using hm', hc, ?_⟩
          simpa [effectiveAfter, hd] using hver
        | false =>
          obtain ⟨m', hm', hc, hver⟩ := ih (m.markDeleted w.1)
          refine ⟨m', by simpa [metaStep, hd, metaRun] using hm', hc, ?_⟩
          simp only [KvMetadata.markDeleted, Bool.not_true] at hver
          simp [effectiveAfter, hver]
          omega
    · have hevents : eventsOf k (w :: log) = eventsOf k log := by simp [eventsOf, hk]
      simpa [metaRun, hk, hevents] using ih m

end

/-! ### The writes of a store -/

/-- The changes at `r` do to the metadata what they say. -/
def Counted (s s' : Store) (r : ℕ) (changes : List KeyValueChange) : Prop :=
  ∀ k, unleased (s'.kvMeta.get k) = metaRun k (unleased (s.kvMeta.get k)) (stamp r (changePairs changes))

section

variable {s s₁ s₂ : Store} {r : ℕ}

lemma Counted.refl (s : Store) (r : ℕ) : Counted s s r [] := fun _ => rfl

lemma Counted.trans {a b : List KeyValueChange} (h : Counted s s₁ r a) (h' : Counted s₁ s₂ r b) :
    Counted s s₂ r (a ++ b) := by
  intro k
  rw [h' k, h k, ← metaRun_append, changePairs_append, stamp, stamp, stamp, map_append]

lemma counted_put (s : Store) (key value : Bytes) (leaseId : ℤ) (r : ℕ) :
    Counted s (s.writePut key value leaseId r) r [⟨key, some value⟩] := by
  intro k
  have hrow := congrArg Prod.snd (row_writePut s r k key value leaseId)
  simp only [Store.row] at hrow
  rw [hrow]
  by_cases hk : k = key
  · subst hk
    cases s.kvMeta.get k <;> simp [unleased, putRow, metaRun, metaStep, stamp, changePairs, KvMetadata.update,
      KvMetadata.newKey, *]
  · simp [hk, Ne.symm hk, metaRun, stamp, changePairs]

lemma counted_delete (s : Store) (key : Bytes) (r : ℕ) : Counted s (s.writeDelete key r) r [⟨key, none⟩] := by
  intro k
  have hrow := congrArg Prod.snd (row_writeDelete s r k key)
  simp only [Store.row] at hrow
  rw [hrow]
  by_cases hk : k = key
  · subst hk
    cases hm : s.kvMeta.get k with
    | none => simp [unleased, deleteRow, metaRun, metaStep, stamp, changePairs]
    | some m =>
      cases hd : m.deleted <;>
        simp [unleased, deleteRow, metaRun, metaStep, stamp, changePairs, KvMetadata.markDeleted, hd]
  · simp [hk, Ne.symm hk, metaRun, stamp, changePairs]

lemma counted_deleteKeys (s : Store) (keys : List Bytes) (r : ℕ) :
    Counted s (s.deleteKeys keys r) r (keys.map fun k => ⟨k, none⟩) := by
  induction keys generalizing s with
  | nil => exact .refl s r
  | cons k keys ih => exact (counted_delete s k r).trans (ih _)

lemma counted_mutations (s : Store) (r : ℕ) (ms : List Raft.SequencerMutation) :
    Counted s (s.applyMutations r ms).1 r (s.applyMutations r ms).2.1 := by
  induction ms generalizing s with
  | nil => exact .refl s r
  | cons m ms ih =>
    refine Counted.trans (a := (s.applyMutation r m).2.1) ?_ (ih _)
    cases m with
    | put key value leaseId => exact counted_put s key value _ r
    | delete key => exact counted_delete s key r
    | deleteRange start stop => exact counted_deleteKeys s _ r

end

/-! ### What a read sees of a key -/

/-- The value of a key and its metadata without the lease. -/
abbrev KeyView := Option Bytes × Option KvMetadata

def Store.view (s : Store) (k : Bytes) : KeyView := (s.get k, unleased (s.kvMeta.get k))

def KeyView.Sound (v : KeyView) : Prop := ∀ x, v.1 = some x → ∃ m, v.2 = some m ∧ m.deleted = false

lemma sound_view {s : Store} (h : s.RowsHaveMeta) (k : Bytes) : KeyView.Sound (s.view k) := by
  intro x hx
  cases hm : s.kvMeta.get k with
  | none =>
    rw [Store.view, h.get_of_none hm] at hx
    cases hx
  | some m =>
    refine ⟨{ m with leaseId := 0 }, by simp [Store.view, unleased, hm], Bool.eq_false_iff.2 fun hd => ?_⟩
    rw [Store.view, get_of_deleted hm hd] at hx
    cases hx

/-- `b` can stand for `a` in the past of a store. -/
structure KeyView.Stands (a b : KeyView) : Prop where
  value : b.1 = a.1
  sound : a.Sound → b.Sound
  versions : ∀ m, b.2 = some m → m.deleted = false → a.2 = some m

lemma KeyView.stands_of_eq {a b : KeyView} (h : b = a) : a.Stands b := h ▸ ⟨rfl, id, fun _ h _ => h⟩

lemma KeyView.stands_extend {past : ℕ → Bytes → KeyView} {hi r : ℕ} {a b now : Bytes → KeyView}
    (h : ∀ k, (a k).Stands (b k)) (T : ℕ) (k : Bytes) : (extend past hi a r now T k).Stands (extend past hi b r now T
      k) := by
  unfold extend
  split_ifs
  · exact stands_of_eq rfl
  · exact h k
  · exact stands_of_eq rfl

/-! ### The metadata over time -/

/-- What the log tells of the metadata `past`, up to the revision `hi`, where it is `now`; the log is cut at `lo`. -/
structure Recounts (log : Log Bytes Bytes) (past : ℕ → Bytes → Option KvMetadata) (now : Bytes → Option KvMetadata)
    (lo hi : ℕ) : Prop where
  replay : ∀ T k m, lo < T → T ≤ hi → past T k = some m → m.deleted = false →
    now k = metaRun k (some m) (writesAfter T log)
  modified : ∀ T k m r, T ≤ hi → past T k = some m → m.deleted = false → lastRev T k log = some r → m.modRevision = r
  modifiedNow : ∀ k m r, now k = some m → m.deleted = false → lastRev hi k log = some r → m.modRevision = r

namespace Recounts

variable {log : Log Bytes Bytes} {past : ℕ → Bytes → Option KvMetadata} {now : Bytes → Option KvMetadata} {lo hi : ℕ}

lemma congr_past (h : Recounts log past now lo hi) (hle : ∀ w ∈ log, w.1 ≤ hi) {past' : ℕ → Bytes → Option KvMetadata}
    (hpast : ∀ T, T ≤ hi → ∀ k m, past' T k = some m → m.deleted = false → past T k = some m ∨
      (T = hi ∧ now k = some m)) :
    Recounts log past' now lo hi where
  replay T k m h1 h2 hm hd := by
    rcases hpast T h2 k m hm hd with hm | ⟨rfl, hm⟩
    · exact h.replay T k m h1 h2 hm hd
    · rw [hm, writesAfter, filter_eq_nil_iff.2 fun w hw => by simpa using hle w hw]
      rfl
  modified T k m r h1 hm hd := by
    rcases hpast T h1 k m hm hd with hm | ⟨rfl, hm⟩
    · exact h.modified T k m r h1 hm hd
    · exact h.modifiedNow k m r hm hd
  modifiedNow := h.modifiedNow

variable {now' : Bytes → Option KvMetadata}

lemma write (h : Recounts log past now lo hi) (hle : ∀ w ∈ log, w.1 ≤ hi) {r : ℕ} (hr : hi < r)
    (changes : List (Bytes × Option Bytes)) (hnow : ∀ k, now' k = metaRun k (now k) (stamp r changes)) :
    Recounts (log ++ stamp r changes) (extend past hi now r now') now' lo r := by
  have hstamp : ∀ w ∈ stamp r changes, w.1 = r := fun w hw => by
    obtain ⟨c, -, rfl⟩ := mem_map.1 hw
    rfl
  have hafter : ∀ T, T < r → writesAfter T (log ++ stamp r changes) = writesAfter T log ++ stamp r changes := by
    intro T hT
    have hall : ((stamp r changes).filter fun w => decide (T < w.1)) = stamp r changes :=
      filter_eq_self.2 fun w hw => by simpa [hstamp w hw] using hT
    rw [writesAfter, filter_append, hall, writesAfter]
  have hnone : ∀ T, hi ≤ T → writesAfter T log = [] := fun T hT =>
    filter_eq_nil_iff.2 fun w hw => by simpa using (hle w hw).trans hT
  have hlast : ∀ T k, T < r → lastRev T k (log ++ stamp r changes) = lastRev T k log := by
    intro T k hT
    have hnil : ((stamp r changes).filter fun w => decide (w.1 ≤ T ∧ w.2.1 = k)) = [] :=
      filter_eq_nil_iff.2 fun w hw => by simp [hstamp w hw, hT]
    rw [lastRev, filter_append, hnil, append_nil, lastRev]
  -- from `hi` on, what the log tells is what it tells of the present
  have hold : ∀ T k m r', hi ≤ T → now k = some m → m.deleted = false → lastRev T k log = some r' →
    m.modRevision = r' := by
    intro T k m r' hT hm hd hr'
    refine h.modifiedNow k m r' hm hd ?_
    rw [← hr', lastRev, lastRev]
    congr 2
    refine filter_congr fun w hw => ?_
    simp [hle w hw, (hle w hw).trans hT]
  have hmodNow : ∀ k m r', now' k = some m → m.deleted = false → lastRev r k (log ++ stamp r changes) = some r' →
      m.modRevision = r' := by
    intro k m r' hm hd hr'
    rw [hnow] at hm
    rcases metaRun_cases hm with ⟨ho, hun⟩ | ⟨w, hw, hk, hmod⟩
    · have hnil : ((stamp r changes).filter fun w => decide (w.1 ≤ r ∧ w.2.1 = k)) = [] :=
        filter_eq_nil_iff.2 fun w hw => by simp [hun.resolve_left (by simp [hd]) w hw]
      rw [lastRev, filter_append, hnil, append_nil] at hr'
      exact hold r k m r' hr.le ho hd hr'
    · have hne : ((stamp r changes).filter fun w => decide (w.1 ≤ r ∧ w.2.1 = k)) ≠ [] := fun hnil =>
        filter_eq_nil_iff.1 hnil w hw (by simp [hstamp w hw, hk])
      obtain ⟨w', hw', rfl⟩ := Option.map_eq_some_iff.1 hr'
      rw [filter_append, getLast?_append_of_ne_nil _ hne] at hw'
      rw [hmod, hstamp w hw, hstamp w' (mem_filter.1 (mem_of_getLast? hw')).1]
  refine ⟨fun T k m h1 h2 hm hd => ?_, fun T k m r' h1 hm hd hr' => ?_, hmodNow⟩
  all_goals unfold extend at hm
  · rcases h2.eq_or_lt with rfl | hT
    · have hnil : writesAfter T (log ++ stamp T changes) = [] := by
        refine filter_eq_nil_iff.2 fun w hw => ?_
        rcases mem_append.1 hw with hw | hw
        · simpa using ((hle w hw).trans hr.le)
        · simp [hstamp w hw]
      simp only [not_lt.2 hr.le, lt_irrefl, if_false] at hm
      rw [hnil, hm]
      rfl
    · rw [hafter T hT, metaRun_append, hnow]
      by_cases hlt : T < hi
      · rw [if_pos hlt] at hm
        rw [← h.replay T k m h1 hlt.le hm hd]
      · rw [if_neg hlt, if_pos hT] at hm
        rw [hnone T (not_lt.1 hlt), hm]
        rfl
  · rcases h1.eq_or_lt with rfl | hT
    · simp only [not_lt.2 hr.le, lt_irrefl, if_false] at hm
      exact hmodNow k m r' hm hd hr'
    · rw [hlast T k hT] at hr'
      by_cases hlt : T < hi
      · rw [if_pos hlt] at hm
        exact h.modified T k m r' hlt.le hm hd hr'
      · rw [if_neg hlt, if_pos hT] at hm
        exact hold T k m r' (not_lt.1 hlt) hm hd hr'

/-- The beginning of the log is dropped, and some metadata of keys deleted before the cut. -/
lemma cut {old : Log Bytes Bytes} (h : Recounts (old ++ log) past now lo hi) {lo' : ℕ} (hlo : lo ≤ lo')
    (hold : ∀ w ∈ old, w.1 ≤ lo')
    (hnow : ∀ k, now' k = now k ∨ (now' k = none ∧ ∃ m, now k = some m ∧ m.deleted = true ∧ m.modRevision ≤ lo')) :
    Recounts log past now' lo' hi where
  replay T k m h1 h2 hm hd := by
    have hafter : writesAfter T (old ++ log) = writesAfter T log := by
      have hnil : (old.filter fun w => decide (T < w.1)) = [] :=
        filter_eq_nil_iff.2 fun w hw => by simpa using (hold w hw).trans h1.le
      rw [writesAfter, filter_append, hnil, nil_append, writesAfter]
    have hreplay := h.replay T k m (by omega) h2 hm hd
    rw [hafter] at hreplay
    rcases hnow k with hsame | ⟨-, m', hm', hd', hmod⟩
    · rw [hsame, hreplay]
    -- a key that was live after the cut was deleted after it
    rw [hm'] at hreplay
    rcases metaRun_cases hreplay.symm with ⟨he, -⟩ | ⟨w, hw, -, hw'⟩
    · cases he
      rw [hd] at hd'
      cases hd'
    · have : T < w.1 := by simpa using (mem_filter.1 hw).2
      omega
  modified T k m r h1 hm hd hr := h.modified T k m r h1 hm hd (lastRev_append hr)
  modifiedNow k m r hm hd hr := by
    rcases hnow k with hsame | ⟨hnone, -⟩
    · exact h.modifiedNow k m r (hsame ▸ hm) hd (lastRev_append hr)
    · rw [hnone] at hm
      cases hm

end Recounts

end Coord.Storage
