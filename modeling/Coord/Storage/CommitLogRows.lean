import Coord.Storage.Frames

/-!
# The rows of the commit log

A record is written once and under its own key; only the trimming of the outbox takes records away.

* `Keyed` — every record stands under its key;
* `grows_appendCommitRecord`, `grows_applyCommitLogAppend`, `grows_applyCommitDecisionsCore` — what is added;
* `applyCommitLogAppend_accepted` — a batch that a shard takes as a whole;
* `appendBatches_spec` — any batches, one after the other;
* `get_trimCommitLogOutbox` — what is taken away;
* `mem_commitRecordsAfter`, `mem_commitRecordsAt` — what the reads give.
-/

namespace Coord.Storage

open Coord.Lib (Table foldl_max_spec)
open List
open Coord.Lib.Table

def Keyed (log : Table CommitLogKey CommitRecord) : Prop := ∀ k r, log.get k = some r → r.key = k

lemma keyed_empty : Keyed Table.empty := fun _ _ h => nomatch h

/-- The records that come in stand under their keys and meet `P`. -/
def Written (P : CommitRecord → Prop) (k : CommitLogKey) (r : CommitRecord) : Prop := r.key = k ∧ P r

variable {log log' : Table CommitLogKey CommitRecord}

lemma Keyed.grows {P : CommitRecord → Prop} (h : Keyed log) (hg : Table.Grows (Written P) log log') : Keyed log' :=
  fun k r hk => (hg.added k r hk).elim (h k r) And.left

variable {r : CommitRecord} {size : CommitRecord → ℕ}

lemma CommitRecord.encode_ok {e : CommitRecord} {maxTxnBytes : ℕ}
    (h : r.encode size maxTxnBytes = .ok e) : e = r ∧ r.commitTs ≠ 0 := by
  unfold CommitRecord.encode at h
  split at h
  · cases h
  split at h
  · cases h
  next hts =>
  split at h
  · cases h
  split at h
  · cases h
  · split at h
    · cases h
    · exact ⟨(Except.ok.inj h).symm, hts⟩

/-- **A record that is accepted** is there afterwards, and nothing else comes in. -/
theorem grows_appendCommitRecord {maxTxnBytes : ℕ} {o : CommitLogAppend}
    (h : appendCommitRecord size log r maxTxnBytes = .ok (log', o)) :
    Table.Grows (Written fun r' => r' = r ∧ r.commitTs ≠ 0) log log' ∧ log'.get r.key = some r ∧
      log'.rows.length = log.rows.length + if o = .inserted then 1 else 0 := by
  unfold appendCommitRecord at h
  split at h
  · cases h
  next e he =>
  obtain ⟨rfl, hts⟩ := CommitRecord.encode_ok he
  split at h
  · next existing hget =>
    split at h
    · next heq =>
      cases h
      exact ⟨Table.Grows.refl _ log, heq ▸ hget, rfl⟩
    · cases h
  · next hget =>
    cases h
    refine ⟨(grows_insert e hget).mono ?_, get_insert_self log e.key e, length_insert hget e⟩
    rintro k v ⟨rfl, rfl⟩
    exact ⟨rfl, rfl, hts⟩

namespace Store

section

variable {size : CommitRecord → ℕ} {shardId startTs endTs maxTxnBytes : ℕ}

/-- The records that a batch may bring into a shard. -/
def OfBatch (shardId startTs endTs : ℕ) (records : List CommitRecord) (r : CommitRecord) : Prop :=
  r ∈ records ∧ r.shardId = shardId ∧ startTs ≤ r.commitTs ∧ (endTs = 0 ∨ r.commitTs < endTs)

lemma grows_appendStep (l : AppendLoop) (record : CommitRecord) :
    Table.Grows (Written (OfBatch shardId startTs endTs [record])) l.log
      (appendStep size shardId startTs endTs maxTxnBytes l record).log := by
  unfold appendStep
  split
  · exact Table.Grows.refl _ _
  next hin =>
  have hof : ∀ r', r' = record ∧ record.commitTs ≠ 0 → OfBatch shardId startTs endTs [record] r' := by
    rintro r' ⟨rfl, -⟩
    refine ⟨mem_singleton_self _, ?_⟩
    omega
  dsimp only
  split
  · next happ => exact (grows_appendCommitRecord happ).1.mono fun k r' h => ⟨h.1, hof r' h.2⟩
  · next happ => exact (grows_appendCommitRecord happ).1.mono fun k r' h => ⟨h.1, hof r' h.2⟩
  · exact Table.Grows.refl _ _

lemma grows_appendSteps (records : List CommitRecord) (l : AppendLoop) :
    Table.Grows (Written (OfBatch shardId startTs endTs records)) l.log
      (records.foldl (appendStep size shardId startTs endTs maxTxnBytes) l).log := by
  induction records generalizing l with
  | nil => exact Table.Grows.refl _ _
  | cons record records ih =>
    refine Table.Grows.trans ((grows_appendStep l record).mono fun k r h => ⟨h.1, ?_⟩)
      ((ih _).mono fun k r h => ⟨h.1, mem_cons_of_mem _ h.2.1, h.2.2⟩)
    exact ⟨mem_cons.2 (.inl (mem_singleton.1 h.2.1)), h.2.2⟩

lemma commitLog_noteLogIndexRevision (s : Store) (mode : RevisionMode) (revision : ℕ) :
    (s.noteLogIndexRevision mode revision).commitLog = s.commitLog :=
  (congrArg commitLog (@outer_noteLogIndexRevision mode s revision) : _)

theorem grows_applyCommitLogAppend (s : Store) (mode : RevisionMode) (records : List CommitRecord) (revision : ℕ)
    (applied : AppliedLogId) :
    Table.Grows (Written (OfBatch shardId startTs endTs records)) s.commitLog
      (s.applyCommitLogAppend size mode shardId startTs endTs records maxTxnBytes revision applied).1.commitLog := by
  have hgrows := @grows_appendSteps size shardId startTs endTs maxTxnBytes records
    ⟨(s.noteLogIndexRevision mode revision).commitLog,
      ⟨0, 0, 0, (s.noteLogIndexRevision mode revision).commitLogCursor⟩, Table.empty⟩
  rw [commitLog_noteLogIndexRevision] at hgrows
  unfold applyCommitLogAppend
  dsimp only
  rw [commitLog_noteLogIndexRevision]
  exact hgrows

end

/-! ### Batches that are accepted -/

section

variable {size : CommitRecord → ℕ} {shardId startTs endTs maxTxnBytes : ℕ}

/-- A record that the shard takes: it is one of the shard, and the encoder accepts it. -/
def Accepts (size : CommitRecord → ℕ) (shardId startTs endTs maxTxnBytes : ℕ) (r : CommitRecord) : Prop :=
  r.shardId = shardId ∧ startTs ≤ r.commitTs ∧ (endTs = 0 ∨ r.commitTs < endTs) ∧
    r.encode size maxTxnBytes = .ok r

/-- No other record stands under the key of a record of the batch. -/
def Free (log : Table CommitLogKey CommitRecord) (records : List CommitRecord) : Prop :=
  ∀ r ∈ records, ∀ z, log.get r.key = some z ∨ z ∈ records ∧ z.key = r.key → z = r

instance (r : CommitRecord) : Decidable (Accepts size shardId startTs endTs maxTxnBytes r) :=
  inferInstanceAs (Decidable (_ ∧ _ ∧ _ ∧ _))

variable {records : List CommitRecord}

lemma Free.tail {record : CommitRecord}
    (h : Free log (record :: records)) (hg : Table.Grows (Written fun r =>
      r = record) log log') : Free log' records := by
  rintro r hr z (hget | ⟨hz, hkey⟩)
  · rcases hg.added _ _ hget with hold | ⟨hkey, rfl⟩
    · exact h r (mem_cons_of_mem _ hr) z (.inl hold)
    · exact h r (mem_cons_of_mem _ hr) z (.inr ⟨mem_cons_self, hkey⟩)
  · exact h r (mem_cons_of_mem _ hr) z (.inr ⟨mem_cons_of_mem _ hz, hkey⟩)

lemma appendCommitRecord_accepted
    (henc : r.encode size maxTxnBytes = .ok r) (hfree : ∀ z, log.get r.key = some z → z = r) :
    ∃ log' o, appendCommitRecord size log r maxTxnBytes = .ok (log', o) := by
  unfold appendCommitRecord
  rw [henc]
  dsimp only
  cases hget : log.get r.key with
  | none => exact ⟨_, _, rfl⟩
  | some z =>
    dsimp only
    rw [if_pos (hfree z hget)]
    exact ⟨_, _, rfl⟩

/-- **A record that the shard takes** is there afterwards, and counts as shipped. -/
lemma appendStep_accepted {l : AppendLoop}
    (hok : Accepts size shardId startTs endTs maxTxnBytes r) (hfree : ∀ z, l.log.get r.key = some z → z = r) :
    let l' := appendStep size shardId startTs endTs maxTxnBytes l r
    Table.Grows (Written fun r' => r' = r) l.log l'.log ∧ l'.log.get r.key = some r ∧
      l'.shipped = l.shipped.insert r.regionId (max ((l.shipped.get r.regionId).getD r.commitTs) r.commitTs) := by
  obtain ⟨hid, hlo, hhi, henc⟩ := hok
  obtain ⟨log', o, happ⟩ := appendCommitRecord_accepted henc hfree
  obtain ⟨hg, hget, -⟩ := grows_appendCommitRecord happ
  have hg' : Table.Grows (Written fun r' => r' = r) l.log log' := hg.mono fun k r' h => ⟨h.1, h.2.1⟩
  unfold appendStep
  rw [if_neg (by omega), happ]
  cases o with
  | inserted => exact ⟨hg', hget, rfl⟩
  | duplicate => exact ⟨hg', hget, rfl⟩

/-- What a Region has shipped after the records: at least what it had and what came, and nothing else. -/
structure ShipsTo (records : List CommitRecord) (shipped shipped' : ℕ → Option ℕ) : Prop where
  came : ∀ r ∈ records, ∃ v, shipped' r.regionId = some v ∧ r.commitTs ≤ v
  kept : ∀ region v, shipped region = some v → ∃ v', shipped' region = some v' ∧ v ≤ v'
  only : ∀ region v, shipped' region = some v →
    shipped region = some v ∨ ∃ r ∈ records, r.regionId = region ∧ v = r.commitTs

lemma shipsTo_insert (t : Table ℕ ℕ) (r : CommitRecord) :
    ShipsTo [r] t.get (t.insert r.regionId (max ((t.get r.regionId).getD r.commitTs) r.commitTs)).get where
  came := by
    intro r' hr'
    rw [mem_singleton.1 hr', get_insert_self]
    exact ⟨_, rfl, le_max_right _ _⟩
  kept := by
    intro region v hv
    rw [get_insert]
    split
    · next hregion =>
      subst hregion
      rw [hv]
      exact ⟨_, rfl, le_max_left _ _⟩
    · exact ⟨v, hv, le_rfl⟩
  only := by
    intro region v hv
    rw [get_insert] at hv
    split at hv
    · next hregion =>
      subst hregion
      have hv := Option.some.inj hv
      cases hget : t.get r.regionId with
      | none =>
        rw [hget, Option.getD_none, max_self] at hv
        exact .inr ⟨r, mem_singleton_self r, rfl, hv.symm⟩
      | some w =>
        rw [hget, Option.getD_some] at hv
        rcases max_choice w r.commitTs with hmax | hmax
        · exact .inl (by rw [← hv, hmax])
        · exact .inr ⟨r, mem_singleton_self r, rfl, by rw [← hv, hmax]⟩
    · exact .inl hv

lemma ShipsTo.cons {r : CommitRecord} {t u w : ℕ → Option ℕ} (h : ShipsTo [r] t u)
    (h' : ShipsTo records u w) : ShipsTo (r :: records) t w where
  came := by
    intro r' hr'
    rcases mem_cons.1 hr' with rfl | hr'
    · obtain ⟨v, hv, hle⟩ := h.came r' (mem_singleton_self r')
      obtain ⟨v', hv', hle'⟩ := h'.kept _ v hv
      exact ⟨v', hv', hle.trans hle'⟩
    · exact h'.came r' hr'
  kept := by
    intro region v hv
    obtain ⟨v₁, hv₁, hle₁⟩ := h.kept region v hv
    obtain ⟨v₂, hv₂, hle₂⟩ := h'.kept region v₁ hv₁
    exact ⟨v₂, hv₂, hle₁.trans hle₂⟩
  only := by
    intro region v hv
    rcases h'.only region v hv with hu | ⟨r', hr', hrest⟩
    · rcases h.only region v hu with ht | ⟨r', hr', hrest⟩
      · exact .inl ht
      · exact .inr ⟨r', mem_cons.2 (.inl (mem_singleton.1 hr')), hrest⟩
    · exact .inr ⟨r', mem_cons_of_mem _ hr', hrest⟩

/-- **A record of a batch** that the encoder takes and that no other stands in the way of is there afterwards. -/
lemma appendSteps_stored {l : AppendLoop} (hr : OfBatch shardId startTs endTs records r)
    (henc : r.encode size maxTxnBytes = .ok r)
    (hone : ∀ z, l.log.get r.key = some z ∨ OfBatch shardId startTs endTs records z ∧ z.key = r.key → z = r) :
    (records.foldl (appendStep size shardId startTs endTs maxTxnBytes) l).log.get r.key = some r := by
  obtain ⟨pre, post, rfl⟩ := append_of_mem hr.1
  rw [foldl_append, foldl_cons]
  refine (grows_appendSteps post _).keeps _ _ (appendStep_accepted ⟨hr.2.1, hr.2.2.1, hr.2.2.2, henc⟩ fun z hz =>
    ?_).2.1
  rcases (grows_appendSteps pre l).added _ _ hz with hold | ⟨hkey, hmem, hin⟩
  · exact hone z (.inl hold)
  · exact hone z (.inr ⟨⟨mem_append_left _ hmem, hin⟩, hkey⟩)

lemma appendSteps_accepted {l : AppendLoop}
    (hok : ∀ r ∈ records, Accepts size shardId startTs endTs maxTxnBytes r) (hfree : Free l.log records) :
    let l' := records.foldl (appendStep size shardId startTs endTs maxTxnBytes) l
    (∀ r ∈ records, l'.log.get r.key = some r) ∧ ShipsTo records l.shipped.get l'.shipped.get := by
  refine ⟨fun r hr => ?_, ?_⟩
  · obtain ⟨hid, hlo, hhi, henc⟩ := hok r hr
    exact appendSteps_stored ⟨hr, hid, hlo, hhi⟩ henc fun z hz => hfree r hr z (hz.imp_right fun h => ⟨h.1.1, h.2⟩)
  · induction records generalizing l with
    | nil => exact ⟨by simp, fun _ v h => ⟨v, h, le_rfl⟩, fun _ _ h => .inl h⟩
    | cons r records ih =>
      obtain ⟨hg, -, hshipped⟩ := appendStep_accepted (hok r mem_cons_self)
        (fun z hz => hfree r mem_cons_self z (.inl hz))
      have hships := ih (fun r' hr' => hok r' (mem_cons_of_mem _ hr')) (hfree.tail hg)
      exact (hshipped ▸ shipsTo_insert l.shipped r).cons hships

lemma get_raiseShipped (t : Table ℕ ℕ) (row : ℕ × ℕ) (region : ℕ) : ((raiseShipped t row).get region).getD 0 =
      if region = row.1 then max ((t.get region).getD 0) row.2 else (t.get region).getD 0 := by
  unfold raiseShipped
  split
  · next hlt =>
    rw [get_insert]
    split
    · next hregion =>
      rw [hregion, Option.getD_some]
      omega
    · rfl
  · next hlt =>
    split
    · next hregion =>
      rw [hregion]
      omega
    · rfl

lemma get_foldl_raiseShipped (rows : List (ℕ × ℕ)) (t : Table ℕ ℕ) (region : ℕ) :
    let v := ((rows.foldl raiseShipped t).get region).getD 0
    (t.get region).getD 0 ≤ v ∧ (∀ row ∈ rows, row.1 = region → row.2 ≤ v) ∧
      (v = (t.get region).getD 0 ∨ ∃ row ∈ rows, row.1 = region ∧ v = row.2) := by
  have hfold : ((rows.foldl raiseShipped t).get region).getD 0 =
      (rows.filter fun row => decide (region = row.1)).foldl (fun v row => max v row.2) ((t.get region).getD 0) := by
    induction rows generalizing t with
    | nil => rfl
    | cons row rows ih =>
      rw [foldl_cons, ih, get_raiseShipped]
      split <;> simp [*]
  obtain ⟨hle, hall, hmax⟩ :=
    foldl_max_spec Prod.snd (rows.filter fun row => decide (region = row.1)) ((t.get region).getD 0)
  rw [← hfold] at hle hall hmax
  simp only [List.mem_filter, decide_eq_true_eq] at hall hmax
  exact ⟨hle, fun row hrow hregion => hall row ⟨hrow, hregion.symm⟩,
    hmax.imp_right fun ⟨row, hrow, hv⟩ => ⟨row, hrow.1, hrow.2.symm, hv.symm⟩⟩

/-- **A batch that the shard takes**: all of it is there afterwards, and each Region has shipped as far as its records
go. -/
theorem applyCommitLogAppend_accepted (s : Store) (mode : RevisionMode) (revision : ℕ)
    (applied : AppliedLogId) (hok : ∀ r ∈ records, Accepts size shardId startTs endTs maxTxnBytes r)
    (hfree : Free s.commitLog records) :
    let s' := (s.applyCommitLogAppend size mode shardId startTs endTs records maxTxnBytes revision applied).1
    (∀ r ∈ records, s'.commitLog.get r.key = some r ∧ r.commitTs ≤ s'.commitLogShippedThrough r.regionId) ∧
      ∀ region, s.commitLogShippedThrough region ≤ s'.commitLogShippedThrough region ∧
        (s'.commitLogShippedThrough region = s.commitLogShippedThrough region ∨
          ∃ r ∈ records, r.regionId = region ∧ s'.commitLogShippedThrough region = r.commitTs) := by
  have hlog := commitLog_noteLogIndexRevision s mode revision
  have hshipped : (s.noteLogIndexRevision mode revision).commitLogShipped = s.commitLogShipped :=
    (congrArg commitLogShipped (@outer_noteLogIndexRevision mode s revision) : _)
  obtain ⟨hthere, hships⟩ := @appendSteps_accepted size shardId startTs endTs maxTxnBytes records
    ⟨(s.noteLogIndexRevision mode revision).commitLog,
      ⟨0, 0, 0, (s.noteLogIndexRevision mode revision).commitLogCursor⟩, Table.empty⟩ hok (by rw [hlog]; exact hfree)
  unfold applyCommitLogAppend commitLogShippedThrough
  dsimp only at hthere hships ⊢
  rw [hshipped]
  generalize records.foldl _ _ = l at hthere hships ⊢
  refine ⟨fun r hr => ⟨hthere r hr, ?_⟩, fun region => ?_⟩
  · obtain ⟨v, hv, hle⟩ := hships.came r hr
    exact hle.trans ((get_foldl_raiseShipped l.shipped.rows s.commitLogShipped r.regionId).2.1 _
      (mem_rows.2 hv) rfl)
  · obtain ⟨hle, -, honly⟩ := get_foldl_raiseShipped l.shipped.rows s.commitLogShipped region
    refine ⟨hle, honly.imp_right ?_⟩
    rintro ⟨⟨region', v⟩, hrow, rfl, hv⟩
    obtain hnone | ⟨r, hr, hregion, hts⟩ := hships.only _ v (mem_rows.1 hrow)
    · cases hnone
    · exact ⟨r, hr, hregion, hv.trans hts⟩

end

/-! ### Runs of batches -/

section

/-- A batch for a shard, with the interval and the limit it is checked against. -/
structure AppendBatch where
  startTs : ℕ
  endTs : ℕ
  maxTxnBytes : ℕ
  revision : ℕ
  applied : AppliedLogId
  records : List CommitRecord

variable (size : CommitRecord → ℕ) (mode : RevisionMode) (shardId : ℕ)

def appendBatch (s : Store) (b : AppendBatch) : Store :=
  (s.applyCommitLogAppend size mode shardId b.startTs b.endTs b.records b.maxTxnBytes b.revision b.applied).1

/-- The records in range that some batch offers. -/
def Offered (batches : List AppendBatch) (r : CommitRecord) : Prop :=
  ∃ b ∈ batches, OfBatch shardId b.startTs b.endTs b.records r

/-- The record that the batches leave under a key: the first in range that the encoder takes. -/
def taken (batches : List AppendBatch) (k : CommitLogKey) : Option CommitRecord :=
  batches.findSome? fun b => b.records.find? fun r =>
    decide (r.key = k ∧ Accepts size shardId b.startTs b.endTs b.maxTxnBytes r)

/-- **One record**: it is rejected and only counted, or it is there afterwards, and the rows grow with what counts as
inserted. -/
lemma appendStep_cases (startTs endTs maxTxnBytes : ℕ) (l : AppendLoop) (r : CommitRecord) :
    let l' := appendStep size shardId startTs endTs maxTxnBytes l r
    l' = { l with result := { l.result with rejected := l.result.rejected + 1 } } ∨
      l'.result.rejected = l.result.rejected ∧
        l'.log.rows.length + l.result.inserted = l.log.rows.length + l'.result.inserted ∧
        Table.Grows (Written fun r' => r' = r ∧ r.commitTs ≠ 0) l.log l'.log ∧ l'.log.get r.key = some r ∧
        l'.shipped = l.shipped.insert r.regionId (max ((l.shipped.get r.regionId).getD r.commitTs) r.commitTs) := by
  unfold appendStep
  split
  · exact .inl rfl
  dsimp only
  split
  · next happ =>
    obtain ⟨hg, hget, hlen⟩ := grows_appendCommitRecord happ
    rw [if_pos rfl] at hlen
    exact .inr ⟨rfl, hlen ▸ Nat.add_right_comm _ _ _, hg, hget, rfl⟩
  · next happ =>
    obtain ⟨hg, hget, hlen⟩ := grows_appendCommitRecord happ
    exact .inr ⟨rfl, congrArg (· + _) hlen, hg, hget, rfl⟩
  · exact .inl rfl

lemma get_appendStep (startTs endTs maxTxnBytes : ℕ) (l : AppendLoop) (r : CommitRecord) (k : CommitLogKey) :
    (appendStep size shardId startTs endTs maxTxnBytes l r).log.get k = (l.log.get k).or
      (if r.key = k ∧ Accepts size shardId startTs endTs maxTxnBytes r then some r else none) := by
  by_cases hok : Accepts size shardId startTs endTs maxTxnBytes r
  · unfold appendStep appendCommitRecord
    rw [if_neg (by have := hok; unfold Accepts at this; omega), hok.2.2.2]
    by_cases hk : r.key = k
    · subst hk
      cases hget : l.log.get r.key with
      | none => simp [hok]
      | some z => by_cases hz : z = r <;> simp [hz, hget]
    · cases hget : l.log.get r.key with
      | none => simp [hk, get_insert_ne _ _ (Ne.symm hk)]
      | some z => by_cases hz : z = r <;> simp [hz, hk]
  · have hsame : (appendStep size shardId startTs endTs maxTxnBytes l r).log = l.log := by
      unfold appendStep
      split
      · rfl
      next hin =>
      have henc : ∀ e, r.encode size maxTxnBytes ≠ .ok e := fun e he =>
        hok ⟨by omega, by omega, by omega, (CommitRecord.encode_ok he).1 ▸ he⟩
      unfold appendCommitRecord
      cases he : r.encode size maxTxnBytes with
      | error e => rfl
      | ok e => exact absurd he (henc e)
    simp [hsame, hok]

lemma get_appendBatches (batches : List AppendBatch) (s : Store) (k : CommitLogKey) :
    (batches.foldl (appendBatch size mode shardId) s).commitLog.get k =
      (s.commitLog.get k).or (taken size shardId batches k) := by
  -- within a batch, record by record
  have hsteps : ∀ (b : AppendBatch) (records : List CommitRecord) (l : AppendLoop),
      (records.foldl (appendStep size shardId b.startTs b.endTs b.maxTxnBytes) l).log.get k =
        (l.log.get k).or (records.find? fun r =>
          decide (r.key = k ∧ Accepts size shardId b.startTs b.endTs b.maxTxnBytes r)) := by
    intro b records
    induction records with
    | nil => simp
    | cons r records ih =>
      intro l
      rw [foldl_cons, ih, get_appendStep, Option.or_assoc, find?_cons]
      split_ifs with hr <;> simp [hr]
  induction batches generalizing s with
  | nil => simp [taken]
  | cons b batches ih =>
    have hb : (appendBatch size mode shardId s b).commitLog.get k = _ := hsteps b b.records _
    rw [commitLog_noteLogIndexRevision] at hb
    have hcons : taken size shardId (b :: batches) k = (b.records.find? fun r =>
        decide (r.key = k ∧ Accepts size shardId b.startTs b.endTs b.maxTxnBytes r)).or
          (taken size shardId batches k) := by
      rw [taken, findSome?_cons]
      generalize b.records.find? _ = first
      cases first <;> rfl
    rw [foldl_cons, ih, hb, Option.or_assoc, hcons]

lemma count_appendBatch {s : Store} (h : s.commitLogRecordCount = s.commitLog.rows.length) (b : AppendBatch) :
    (appendBatch size mode shardId s b).commitLogRecordCount =
      (appendBatch size mode shardId s b).commitLog.rows.length := by
  set s₁ := s.noteLogIndexRevision mode b.revision with hs₁
  have hcount : s₁.commitLogRecordCount = s₁.commitLog.rows.length := by
    rw [commitLog_noteLogIndexRevision, ← h]
    exact (congrArg commitLogRecordCount (@outer_noteLogIndexRevision mode s b.revision) : _)
  have hlen := foldlRecOn b.records (appendStep size shardId b.startTs b.endTs b.maxTxnBytes)
    (motive := fun l => l.log.rows.length = s₁.commitLogRecordCount + l.result.inserted)
    (b := ⟨s₁.commitLog, ⟨0, 0, 0, s₁.commitLogCursor⟩, Table.empty⟩) hcount.symm fun l hl r _ => by
      rcases appendStep_cases size shardId b.startTs b.endTs b.maxTxnBytes l r with heq | ⟨-, hgrow, -⟩
      · rw [heq]
        exact hl
      · omega
  refine Eq.trans ?_ hlen.symm
  unfold appendBatch applyCommitLogAppend commitLogRecordCount
  dsimp only
  rw [← hs₁]
  split
  · rfl
  · omega

/-- The mark of a Region is the last timestamp of its records that are there. -/
structure Marked (s : Store) : Prop where
  came : ∀ k r, s.commitLog.get k = some r → r.commitTs ≠ 0 ∧ r.commitTs ≤ s.commitLogShippedThrough r.regionId
  only : ∀ region, s.commitLogShippedThrough region = 0 ∨
    ∃ k r, s.commitLog.get k = some r ∧ r.regionId = region ∧ r.commitTs = s.commitLogShippedThrough region

lemma marked_appendBatch {s : Store} (h : Marked s) (b : AppendBatch) : Marked (appendBatch size mode shardId s b) := by
  have hshipped : (s.noteLogIndexRevision mode b.revision).commitLogShipped = s.commitLogShipped :=
    (congrArg commitLogShipped (@outer_noteLogIndexRevision mode s b.revision) : _)
  have hlog := commitLog_noteLogIndexRevision s mode b.revision
  set l := b.records.foldl (appendStep size shardId b.startTs b.endTs b.maxTxnBytes)
    ⟨(s.noteLogIndexRevision mode b.revision).commitLog,
      ⟨0, 0, 0, (s.noteLogIndexRevision mode b.revision).commitLogCursor⟩, Table.empty⟩ with hl
  -- the marks of the batch are those of the records that came
  obtain ⟨hkeep, hcame, honly⟩ : (∀ k r, s.commitLog.get k = some r → l.log.get k = some r) ∧
      (∀ k r, l.log.get k = some r → s.commitLog.get k = some r ∨
        r.commitTs ≠ 0 ∧ ∃ w, l.shipped.get r.regionId = some w ∧ r.commitTs ≤ w) ∧
      ∀ region w, l.shipped.get region = some w → ∃ k r, l.log.get k = some r ∧ r.regionId = region ∧
        r.commitTs = w := by
    rw [hl]
    refine foldlRecOn b.records _ (motive := fun l : AppendLoop => (∀ k r, s.commitLog.get k = some r →
      l.log.get k = some r) ∧ (∀ k r, l.log.get k = some r → s.commitLog.get k = some r ∨ r.commitTs ≠ 0 ∧
        ∃ w, l.shipped.get r.regionId = some w ∧ r.commitTs ≤ w) ∧ ∀ region w, l.shipped.get region = some w →
          ∃ k r, l.log.get k = some r ∧ r.regionId = region ∧ r.commitTs = w)
      ⟨by simp [hlog], by simp [hlog], by simp⟩ fun l ⟨hkeep, hcame, honly⟩ r _ => ?_
    rcases appendStep_cases size shardId b.startTs b.endTs b.maxTxnBytes l r with heq | ⟨-, -, hg, hget, hins⟩
    · rw [heq]
      exact ⟨hkeep, hcame, honly⟩
    have hships := shipsTo_insert l.shipped r
    rw [← hins] at hships
    refine ⟨fun k z hz => hg.keeps k z (hkeep k z hz), fun k z hz => ?_, fun region w hw => ?_⟩
    · rcases hg.added k z hz with hz | ⟨-, rfl, hts⟩
      · refine (hcame k z hz).imp_right fun ⟨hts, w, hw, hle⟩ => ⟨hts, ?_⟩
        obtain ⟨w', hw', hle'⟩ := hships.kept _ w hw
        exact ⟨w', hw', hle.trans hle'⟩
      · exact .inr ⟨hts, hships.came z (mem_singleton_self z)⟩
    · rcases hships.only region w hw with hw | ⟨z, hz, hregion, rfl⟩
      · obtain ⟨k, z, hz, hrest⟩ := honly region w hw
        exact ⟨k, z, hg.keeps k z hz, hrest⟩
      · cases mem_singleton.1 hz
        exact ⟨_, r, hget, hregion, rfl⟩
  have hmark : ∀ region, (appendBatch size mode shardId s b).commitLogShippedThrough region =
      ((l.shipped.rows.foldl raiseShipped s.commitLogShipped).get region).getD 0 := by
    intro region
    rw [← hshipped]
    rfl
  constructor
  · intro k r hr
    obtain ⟨hle, hrows, -⟩ := get_foldl_raiseShipped l.shipped.rows s.commitLogShipped r.regionId
    rw [hmark]
    rcases hcame k r hr with hold | ⟨hts, w, hw, hlew⟩
    · exact ⟨(h.came k r hold).1, (h.came k r hold).2.trans hle⟩
    · exact ⟨hts, hlew.trans (hrows _ (mem_rows.2 hw) rfl)⟩
  · intro region
    obtain ⟨-, -, hor⟩ := get_foldl_raiseShipped l.shipped.rows s.commitLogShipped region
    rw [hmark]
    rcases hor with hv | ⟨row, hrow, rfl, hv⟩
    · rw [hv]
      exact (h.only region).imp_right fun ⟨k, r, hr, hrest⟩ => ⟨k, r, hkeep k r hr, hrest⟩
    · rw [hv]
      exact .inr (honly _ _ (mem_rows.1 hrow))

/-- **Runs of append batches**: no record is stored twice, the count is that of the rows, marks never fall, a Region's
mark is the last of its timestamps that were taken, and a rejected record only counts.  The records in range up to a
mark are there exactly if no refused one stands at or below a taken one of its Region. -/
theorem appendBatches_spec (batches : List AppendBatch) :
    let s := batches.foldl (appendBatch size mode shardId) Store.empty
    (s.commitLog.rows.map Prod.snd).Nodup ∧ s.commitLogRecordCount = s.commitLog.rows.length ∧
      (∀ b region, s.commitLogShippedThrough region ≤
        (appendBatch size mode shardId s b).commitLogShippedThrough region) ∧
      (∀ region, s.commitLogShippedThrough region ≠ 0 → IsGreatest {ts | ∃ r,
        taken size shardId batches r.key = some r ∧ r.regionId = region ∧ r.commitTs = ts}
          (s.commitLogShippedThrough region)) ∧
      ((∀ r, Offered shardId batches r → s.commitLogShippedThrough r.regionId ≠ 0 →
          r.commitTs ≤ s.commitLogShippedThrough r.regionId → s.commitLog.get r.key = some r) ↔
        ∀ r z, Offered shardId batches r → taken size shardId batches r.key ≠ some r →
          taken size shardId batches z.key = some z → z.regionId = r.regionId → z.commitTs < r.commitTs) ∧
      ∀ b : AppendBatch, ∀ l r, let l' := appendStep size shardId b.startTs b.endTs b.maxTxnBytes l r
        l'.result.rejected ≠ l.result.rejected →
          l' = { l with result := { l.result with rejected := l.result.rejected + 1 } } := by
  intro s
  have hget : ∀ k, s.commitLog.get k = taken size shardId batches k := fun k => by
    rw [get_appendBatches]
    rfl
  have hkeyed : Keyed s.commitLog := by
    intro k r hr
    rw [hget] at hr
    obtain ⟨b, -, hb⟩ := exists_of_findSome?_eq_some hr
    have hr := find?_some hb
    exact (of_decide_eq_true hr).1
  have hmarks : Marked s := foldlRecOn batches _ (motive := Marked) ⟨fun k r h => (by cases h), fun _ => .inl rfl⟩
    fun s hs b _ => marked_appendBatch size mode shardId hs b
  refine ⟨?_, ?_, fun b region => ?_, fun region hne => ⟨?_, ?_⟩,
    ⟨fun h r z hr hno hz hregion => ?_, fun h r hr hne hle => ?_⟩,
    fun b l r h => (appendStep_cases size shardId _ _ _ l r).resolve_right fun h' => h h'.1⟩
  · refine pairwise_map.2 ((Table.sorted _).imp_of_mem fun ha hb hlt heq => hlt.ne ?_)
    rw [← hkeyed _ _ (mem_rows.1 ha), heq, hkeyed _ _ (mem_rows.1 hb)]
  · exact foldlRecOn batches _ (motive := fun s : Store => s.commitLogRecordCount = s.commitLog.rows.length) rfl
      fun s hs b _ => count_appendBatch size mode shardId hs b
  · refine le_trans (le_of_eq ?_) (get_foldl_raiseShipped _ _ region).1
    exact (congrArg (commitLogShippedThrough · region) (@outer_noteLogIndexRevision mode _ b.revision) : _).symm
  · obtain ⟨k, r, hr, hregion, hts⟩ := (hmarks.only region).resolve_left hne
    exact ⟨r, by rw [← hget, hkeyed k r hr, hr], hregion, hts⟩
  · rintro _ ⟨r, hr, rfl, rfl⟩
    exact (hmarks.came _ r (hget _ ▸ hr)).2
  · -- a mark at or above the refused record would say that it is there
    by_contra hlt
    obtain ⟨hts, hmark⟩ := hmarks.came _ z (hget _ ▸ hz)
    rw [hregion] at hmark
    exact hno (hget _ ▸ h r hr (by omega) (by omega))
  · by_contra hno
    obtain ⟨k, z, hz, hregion, hts⟩ := (hmarks.only r.regionId).resolve_left hne
    have := h r z hr (hget _ ▸ hno) (by rw [← hget, hkeyed k z hz, hz]) hregion
    omega

/-- Record 5 is over the limit and record 6 is not: the mark passes both. -/
theorem refused_passed : let r : CommitRecord := ⟨1, 5, [0], 1, 7, 2, []⟩
    let b : AppendBatch := ⟨0, 0, 1, 1, ⟨1, 1, 1⟩, [r, ⟨1, 6, [1], 1, 7, 1, []⟩]⟩
    let s := [b].foldl (appendBatch (fun _ => 0) .commitTs 1) Store.empty
    Offered 1 [b] r ∧ r.commitTs ≤ s.commitLogShippedThrough 7 ∧ s.commitLog.get r.key = none :=
  ⟨⟨_, List.mem_singleton_self _, List.mem_cons_self, by decide⟩, by decide⟩

end

/-! ### Decisions -/

section

variable {size : CommitRecord → ℕ} {maxTxnBytes : ℕ}

/-- The records that the decisions of a batch may bring in, above a cursor and up to another. -/
def OfDecisions (cursor through : ℕ) (views : List DecisionView) (r : CommitRecord) : Prop :=
  cursor < r.commitTs ∧ r.commitTs ≤ through ∧ ∃ view ∈ views, ∃ log, view.log = some log ∧
    r.shardId = log.shardId ∧ r.commitTs = view.commitTs ∧ r.regionId = log.regionId ∧ r.txnId = log.txnId

lemma grows_applyDecision (s : Store) (view : DecisionView) :
    Table.Grows (Written fun r => ∃ log, view.log = some log ∧ r.shardId = log.shardId ∧ r.commitTs = view.commitTs ∧
        r.regionId = log.regionId ∧ r.txnId = log.txnId) s.commitLog
      (s.applyDecision size maxTxnBytes view).commitLog := by
  have hmut : (s.applyMutations view.commitTs view.mutations).1.commitLog = s.commitLog :=
    (congrArg commitLog (@outer_applyMutations s view.commitTs view.mutations) : _)
  -- the changelog entry is no part of the commit log
  obtain ⟨t, changes, hlog, happ⟩ : ∃ (t : Store) (changes : List CommitChange), t.commitLog = s.commitLog ∧
      s.applyDecision size maxTxnBytes view = t.appendDecisionRecord size maxTxnBytes view changes := by
    unfold applyDecision
    dsimp only
    refine ⟨_, _, ?_, rfl⟩
    split
    · exact hmut
    · exact hmut
  rw [happ, ← hlog]
  unfold appendDecisionRecord
  split
  · exact Table.Grows.refl _ _
  next log hview =>
  split
  · exact Table.Grows.refl _ _
  dsimp only
  split
  · next happend =>
    refine (grows_appendCommitRecord happend).1.mono ?_
    rintro k r ⟨hk, rfl, -⟩
    refine ⟨hk, log, hview, rfl, ?_, rfl, rfl⟩
    cases view with
    | plain d => cases hview
    | logged d =>
      cases hview
      rfl
  · exact Table.Grows.refl _ _

lemma OfDecisions.mono {cursor through cursor' through' : ℕ} {views views' : List DecisionView} {r : CommitRecord}
    (h : OfDecisions cursor through views r) (hc : cursor' ≤ cursor) (ht : through ≤ through')
    (hv : ∀ v ∈ views, v ∈ views') : OfDecisions cursor' through' views' r := by
  obtain ⟨hlo, hhi, view, hview, hrest⟩ := h
  exact ⟨by omega, by omega, view, hv view hview, hrest⟩

/-- **The records of a batch** are above the cursor it started from and not above the one it reached. -/
lemma grows_applyDecisionLoop (l : DecisionLoop) (views : List DecisionView) :
    Table.Grows (Written (OfDecisions l.through (applyDecisionLoop size maxTxnBytes l views).through views))
      l.store.commitLog (applyDecisionLoop size maxTxnBytes l views).store.commitLog ∧
      l.through ≤ (applyDecisionLoop size maxTxnBytes l views).through := by
  have htail : ∀ {view : DecisionView} {views}, ∀ v ∈ views, v ∈ view :: views := fun _ => mem_cons_of_mem _
  fun_induction applyDecisionLoop size maxTxnBytes l views with
  | case1 | case3 | case4 => exact ⟨Table.Grows.refl _ _, le_rfl⟩
  | case2 l view views _ _ ih => exact ⟨ih.1.mono fun k r h => ⟨h.1, h.2.mono le_rfl le_rfl htail⟩, ih.2⟩
  | case5 l view views _ hts _ _ ih =>
    have hlt := not_le.1 hts
    exact ⟨ih.1.mono fun k r h => ⟨h.1, h.2.mono hlt.le le_rfl htail⟩, hlt.le.trans ih.2⟩
  | case6 l view views _ hts _ _ ih =>
    have hlt := not_le.1 hts
    refine ⟨Table.Grows.trans ((grows_applyDecision l.store view).mono ?_)
      (ih.1.mono fun k r h => ⟨h.1, h.2.mono hlt.le le_rfl htail⟩), hlt.le.trans ih.2⟩
    rintro k r ⟨hk, log, hlog, hshard, hrts, hrest⟩
    exact ⟨hk, hrts ▸ hlt, hrts ▸ ih.2, view, mem_cons_self, log, hlog, hshard, hrts, hrest⟩

theorem grows_applyCommitDecisionsCore (s : Store) (mode : RevisionMode) (views : List DecisionView) (revision : ℕ)
    (applied : AppliedLogId) :
    let s' := (s.applyCommitDecisionsCore size mode views revision applied maxTxnBytes).1
    Table.Grows (Written (OfDecisions s.lastAppliedDecisionTs s'.lastAppliedDecisionTs views)) s.commitLog
      s'.commitLog ∧
      s.lastAppliedDecisionTs ≤ s'.lastAppliedDecisionTs := by
  let l : DecisionLoop := ⟨s, s.currentRevision mode, s.lastAppliedDecisionTs, 0, none⟩
  obtain ⟨hg, hle⟩ := @grows_applyDecisionLoop size maxTxnBytes l views
  obtain ⟨cursor, row, heq, hcursor, -⟩ := @finishDecisions_eq mode s _ revision applied
    (congrArg decisionApplied (rest_applyDecisionLoop size maxTxnBytes views l) : _) hle
  have hlast : cursor.getD 0 = (applyDecisionLoop size maxTxnBytes l views).through := hcursor
  rw [show (s.applyCommitDecisionsCore size mode views revision applied maxTxnBytes).1 = _ from heq]
  dsimp only [lastAppliedDecisionTs]
  rw [hlast]
  exact ⟨hg, hle⟩

end

/-! ### The outbox -/

/-- **Trimming** takes away records of the outbox below its timestamp, and no others. -/
theorem get_trimCommitLogOutbox (s : Store) (mode : RevisionMode) (throughTs maxRows : ℕ) (applied : AppliedLogId)
    (k : CommitLogKey) : (s.trimCommitLogOutbox mode throughTs maxRows applied).1.commitLog.get k = s.commitLog.get k ∨
      (s.trimCommitLogOutbox mode throughTs maxRows applied).1.commitLog.get k = none ∧
        commitLogKey commitLogStagingShardId 0 0 ≤ k ∧ k < commitLogKey commitLogStagingShardId throughTs 0 := by
  unfold trimCommitLogOutbox
  dsimp only
  split
  · exact .inl rfl
  split
  · exact .inl (congrArg (fun t => t.commitLog.get k) (@outer_setLastApplied mode s applied) : _)
  set rows := ((s.commitLog.rows.filter fun r => decide (commitLogKey commitLogStagingShardId 0 0 ≤ r.1 ∧
    r.1 < commitLogKey commitLogStagingShardId throughTs 0)).take (max maxRows 1 + 1)).take (max maxRows 1)
  have hlog : ∀ t : Store, (t.setLastApplied mode applied).commitLog = t.commitLog := fun t =>
    (congrArg commitLog (@outer_setLastApplied mode t applied) : _)
  rw [hlog]
  dsimp only
  have hfold : rows.foldl (fun t r => t.erase r.1) s.commitLog =
      (rows.map Prod.fst).foldl (fun t j => t.erase j) s.commitLog := foldl_map.symm
  rw [hfold, get_foldl_erase]
  split
  · next hk =>
    obtain ⟨r, hr, rfl⟩ := List.mem_map.1 hk
    have hmem := mem_of_mem_take (mem_of_mem_take hr)
    exact .inr ⟨rfl, of_decide_eq_true (List.mem_filter.1 hmem).2⟩
  · exact .inl rfl

/-! ### Reads -/

variable {shardId ts regionId shardId' ts' regionId' : ℕ}

lemma commitLogKey_le :
    commitLogKey shardId ts regionId ≤ commitLogKey shardId' ts' regionId' ↔
      shardId < shardId' ∨ shardId = shardId' ∧ (ts < ts' ∨ ts = ts' ∧ regionId ≤ regionId') := by
  simp only [commitLogKey, Prod.Lex.toLex_le_toLex]

lemma commitLogKey_lt :
    commitLogKey shardId ts regionId < commitLogKey shardId' ts' regionId' ↔
      shardId < shardId' ∨ shardId = shardId' ∧ (ts < ts' ∨ ts = ts' ∧ regionId < regionId') := by
  simp only [commitLogKey, Prod.Lex.toLex_lt_toLex]

variable {s : Store}

lemma mem_recordsBetween (hs : Keyed s.commitLog) {lo hi : CommitLogKey} {r : CommitRecord} :
    r ∈ (s.commitLog.rows.filter fun row => decide (lo ≤ row.1 ∧ row.1 < hi)).map Prod.snd ↔
      s.commitLog.get r.key = some r ∧ lo ≤ r.key ∧ r.key < hi := by
  constructor
  · intro h
    obtain ⟨⟨k, r'⟩, hrow, rfl⟩ := List.mem_map.1 h
    obtain ⟨hmem, hp⟩ := List.mem_filter.1 hrow
    have hget := mem_rows.1 hmem
    obtain rfl : r'.key = k := hs k r' hget
    exact ⟨hget, of_decide_eq_true hp⟩
  · rintro ⟨hget, hp⟩
    exact List.mem_map.2 ⟨(r.key, r), List.mem_filter.2 ⟨mem_rows.2 hget, decide_eq_true hp⟩, rfl⟩

theorem mem_commitRecordsAfter (hs : Keyed s.commitLog) {shardId afterTs limit : ℕ}
    (h : r ∈ s.commitRecordsAfter shardId afterTs limit) :
    s.commitLog.get r.key = some r ∧ r.shardId = shardId ∧ afterTs < r.commitTs := by
  unfold commitRecordsAfter takeLimit at h
  have hmem : r ∈ (s.commitLog.rows.filter fun r => decide (commitLogKey shardId (afterTs + 1) 0 ≤ r.1 ∧
      r.1 < commitLogKey (shardId + 1) 0 0)).map Prod.snd := by
    split at h
    · exact h
    · exact map_subset _ (take_subset _ _) h
  obtain ⟨hget, hin⟩ := (mem_recordsBetween hs).1 hmem
  simp only [CommitRecord.key, commitLogKey_le, commitLogKey_lt] at hin
  exact ⟨hget, by omega, by omega⟩

lemma pairwise_commitRecordsAfter (hs : Keyed s.commitLog) (shardId afterTs limit : ℕ) :
    (s.commitRecordsAfter shardId afterTs limit).Pairwise fun a b => a.key < b.key := by
  unfold commitRecordsAfter
  rw [pairwise_map]
  have hsub : (takeLimit limit (s.commitLog.rows.filter fun r => decide (commitLogKey shardId (afterTs + 1) 0 ≤ r.1 ∧
      r.1 < commitLogKey (shardId + 1) 0 0))).Sublist s.commitLog.rows := by
    unfold takeLimit
    split
    · exact filter_sublist
    · exact (take_sublist _ _).trans filter_sublist
  refine (s.commitLog.sorted.sublist hsub).imp_of_mem ?_
  rintro ⟨k, a⟩ ⟨k', b⟩ ha hb hlt
  rw [hs k a (mem_rows.1 (hsub.mem ha)), hs k' b (mem_rows.1 (hsub.mem hb))]
  exact hlt

/-- **A record that a read leaves out** comes after the limit: the read is full, and everything it gives is before. -/
lemma lt_of_not_mem_commitRecordsAfter (hs : Keyed s.commitLog) {afterTs limit : ℕ} {r : CommitRecord}
    (hget : s.commitLog.get r.key = some r) (hts : afterTs < r.commitTs)
    (hnot : r ∉ s.commitRecordsAfter r.shardId afterTs limit) :
    (s.commitRecordsAfter r.shardId afterTs limit).length = limit ∧ limit ≠ 0 ∧
      ∀ y ∈ s.commitRecordsAfter r.shardId afterTs limit, y.key < r.key := by
  have hall := @mem_recordsBetween s hs (commitLogKey r.shardId (afterTs + 1) 0) (commitLogKey (r.shardId + 1) 0 0) r
  have hpair := pairwise_commitRecordsAfter hs r.shardId afterTs 0
  have hin : commitLogKey r.shardId (afterTs + 1) 0 ≤ r.key ∧ r.key < commitLogKey (r.shardId + 1) 0 0 :=
    ⟨commitLogKey_le.2 (by omega), commitLogKey_lt.2 (by omega)⟩
  unfold commitRecordsAfter takeLimit at hnot hpair ⊢
  rw [if_pos rfl] at hpair
  split at hnot
  · exact absurd (hall.2 ⟨hget, hin⟩) hnot
  next hlimit =>
  rw [if_neg hlimit, map_take] at *
  generalize (s.commitLog.rows.filter fun row => decide (commitLogKey r.shardId (afterTs + 1) 0 ≤ row.1 ∧
    row.1 < commitLogKey (r.shardId + 1) 0 0)).map Prod.snd = l at *
  have hmem := hall.2 ⟨hget, hin⟩
  rw [← take_append_drop limit l] at hmem hpair
  have hdrop := (mem_append.1 hmem).resolve_left hnot
  refine ⟨?_, hlimit, fun y hy => (pairwise_append.1 hpair).2.2 y hy r hdrop⟩
  have hlen : (l.drop limit).length ≠ 0 := fun h => by
    rw [length_eq_zero_iff.1 h] at hdrop
    cases hdrop
  rw [length_drop] at hlen
  rw [length_take]
  omega

end Store

end Coord.Storage
